import ShaderModule.Proofs.Record.Growth
import ShaderModule.Proofs.Table.Interned

/-!
# Trees and type expressions

A metadata tree and a type expression are entered from the bottom up, the parts before the whole. The handle
that comes out stands for the tree for ever, it stands for no other tree, and to enter the tree again gives
the handle again and enters nothing.
-/

namespace ShaderModule

/-- A finite tree of metadata. A tuple may have null operands. -/
inductive NodeTree where
  | string (text : String)
  | value (v : Value)
  | tuple (operands : List (Option NodeTree))

/-- A type with its components spelled out. -/
inductive TypeExpr where
  | void
  | int (bits : UInt32)
  | float (bits : UInt32)
  | vector (element : TypeExpr) (length : UInt32)
  | array (element : TypeExpr) (length : UInt64)
  | struct (name : String) (fields : List TypeExpr)
  | pointer (pointee : TypeExpr) (space : AddressSpace)
  | function (result : TypeExpr) (params : List TypeExpr)

/-! ## Entering from the bottom up -/

namespace NodeTree

mutual

/-- Enters a tree, its operands first. -/
def build : NodeTree → Build (Handle .node)
  | .string text => Build.string text
  | .value v => Build.value v
  | .tuple operands => do Build.tuple (← buildAll operands)

def buildAll : List (Option NodeTree) → Build (List Operand)
  | [] => pure []
  | none :: ts => do return none :: (← buildAll ts)
  | some t :: ts => do
    let h ← build t
    return some h :: (← buildAll ts)

end

end NodeTree

namespace TypeExpr

mutual

/-- Enters a type, its components first. -/
def build : TypeExpr → Build (Handle .type)
  | .void => Build.type .void
  | .int bits => Build.type (.int bits)
  | .float bits => Build.type (.float bits)
  | .vector element length => do Build.type (.vector (← build element) length)
  | .array element length => do Build.type (.array (← build element) length)
  | .struct name fields => do Build.type (.struct name (← buildAll fields))
  | .pointer pointee space => do Build.type (.pointer (← build pointee) space)
  | .function result params => do
    let r ← build result
    Build.type (.function r (← buildAll params))

def buildAll : List TypeExpr → Build (List (Handle .type))
  | [] => pure []
  | t :: ts => do
    let h ← build t
    return h :: (← buildAll ts)

end

end TypeExpr

/-! ## What handles stand for -/

namespace Program

mutual

/-- The handle stands for the tree: the nodes below it are those of the tree. -/
def IsNode (p : Program) : NodeTree → Handle .node → Prop
  | .string text, h => p.node? h = some (.string text)
  | .value v, h => p.node? h = some (.value v)
  | .tuple operands, h => ∃ ops, p.node? h = some (.tuple ops) ∧ p.AreNodes operands ops

def AreNodes (p : Program) : List (Option NodeTree) → List Operand → Prop
  | [], ops => ops = []
  | none :: ts, ops => ∃ rest, ops = none :: rest ∧ p.AreNodes ts rest
  | some t :: ts, ops => ∃ h rest, ops = some h :: rest ∧ p.IsNode t h ∧ p.AreNodes ts rest

end

mutual

/-- The handle stands for the type expression. -/
def IsType (p : Program) : TypeExpr → Handle .type → Prop
  | .void, h => p.type? h = some .void
  | .int bits, h => p.type? h = some (.int bits)
  | .float bits, h => p.type? h = some (.float bits)
  | .vector element length, h => ∃ c, p.type? h = some (.vector c length) ∧ p.IsType element c
  | .array element length, h => ∃ c, p.type? h = some (.array c length) ∧ p.IsType element c
  | .struct name fields, h => ∃ cs, p.type? h = some (.struct name cs) ∧ p.AreTypes fields cs
  | .pointer pointee space, h => ∃ c, p.type? h = some (.pointer c space) ∧ p.IsType pointee c
  | .function result params, h =>
    ∃ c cs, p.type? h = some (.function c cs) ∧ p.IsType result c ∧ p.AreTypes params cs

def AreTypes (p : Program) : List TypeExpr → List (Handle .type) → Prop
  | [], hs => hs = []
  | t :: ts, hs => ∃ h rest, hs = h :: rest ∧ p.IsType t h ∧ p.AreTypes ts rest

end

end Program

/-! ## Only contents are entered -/

mutual

theorem NodeTree.growing_build : ∀ t : NodeTree, Build.Growing t.build
  | .string _ | .value _ => Build.growing_node _
  | .tuple operands => .bind (NodeTree.growing_buildAll operands) fun _ => Build.growing_node _

theorem NodeTree.growing_buildAll : ∀ ts : List (Option NodeTree), Build.Growing (NodeTree.buildAll ts)
  | [] => .pure _
  | none :: ts => .bind (NodeTree.growing_buildAll ts) fun _ => .pure _
  | some t :: ts =>
    .bind (NodeTree.growing_build t) fun _ => .bind (NodeTree.growing_buildAll ts) fun _ => .pure _

end

mutual

theorem TypeExpr.growing_build : ∀ t : TypeExpr, Build.Growing t.build
  | .void | .int _ | .float _ => Build.growing_type _
  | .vector element _ | .array element _ | .pointer element _ =>
    .bind (TypeExpr.growing_build element) fun _ => Build.growing_type _
  | .struct _ fields => .bind (TypeExpr.growing_buildAll fields) fun _ => Build.growing_type _
  | .function result params =>
    .bind (TypeExpr.growing_build result) fun _ =>
      .bind (TypeExpr.growing_buildAll params) fun _ => Build.growing_type _

theorem TypeExpr.growing_buildAll : ∀ ts : List TypeExpr, Build.Growing (TypeExpr.buildAll ts)
  | [] => .pure _
  | t :: ts => .bind (TypeExpr.growing_build t) fun _ => .bind (TypeExpr.growing_buildAll ts) fun _ => .pure _

end

/-! ## What comes out stands for what was entered -/

section

open Program

mutual

theorem NodeTree.isNode_build : ∀ (t : NodeTree) {p q : Program}, (t.build p).2.Extends q →
    q.IsNode t (t.build p).1
  | .string _, p, _, hq | .value _, p, _, hq => hq.node? (Build.node?_node _ p)
  | .tuple operands, p, _, hq =>
    have hgrow := (Build.growing_node (.tuple (buildAll operands p).1) (buildAll operands p).2).toExtends
    ⟨_, hq.node? (Build.node?_node _ _), NodeTree.areNodes_buildAll operands (hgrow.trans hq)⟩

theorem NodeTree.areNodes_buildAll : ∀ (ts : List (Option NodeTree)) {p q : Program},
    (buildAll ts p).2.Extends q → q.AreNodes ts (buildAll ts p).1
  | [], _, _, _ => rfl
  | none :: ts, _, _, hq => ⟨_, rfl, NodeTree.areNodes_buildAll ts hq⟩
  | some t :: ts, p, _, hq =>
    have hgrow := (NodeTree.growing_buildAll ts (t.build p).2).toExtends
    ⟨_, _, rfl, NodeTree.isNode_build t (hgrow.trans hq), NodeTree.areNodes_buildAll ts hq⟩

end

mutual

theorem TypeExpr.isType_build : ∀ (t : TypeExpr) {p q : Program}, (t.build p).2.Extends q →
    q.IsType t (t.build p).1
  | .void, p, _, hq | .int _, p, _, hq | .float _, p, _, hq => hq.type? (Build.type?_type _ p)
  | .vector element _, p, _, hq | .array element _, p, _, hq | .pointer element _, p, _, hq =>
    have hgrow := (Build.growing_type _ (element.build p).2).toExtends
    ⟨_, hq.type? (Build.type?_type _ _), TypeExpr.isType_build element (hgrow.trans hq)⟩
  | .struct _ fields, p, _, hq =>
    have hgrow := (Build.growing_type _ (buildAll fields p).2).toExtends
    ⟨_, hq.type? (Build.type?_type _ _), TypeExpr.areTypes_buildAll fields (hgrow.trans hq)⟩
  | .function result params, p, _, hq =>
    have hparams := (Build.growing_type _ (buildAll params (result.build p).2).2).toExtends.trans hq
    have hresult := (TypeExpr.growing_buildAll params (result.build p).2).toExtends.trans hparams
    ⟨_, _, hq.type? (Build.type?_type _ _), TypeExpr.isType_build result hresult,
      TypeExpr.areTypes_buildAll params hparams⟩

theorem TypeExpr.areTypes_buildAll : ∀ (ts : List TypeExpr) {p q : Program},
    (buildAll ts p).2.Extends q → q.AreTypes ts (buildAll ts p).1
  | [], _, _, _ => rfl
  | t :: ts, p, _, hq =>
    have hgrow := (TypeExpr.growing_buildAll ts (t.build p).2).toExtends
    ⟨_, _, rfl, TypeExpr.isType_build t (hgrow.trans hq), TypeExpr.areTypes_buildAll ts hq⟩

end

end

/-! ## A handle stands for one tree -/

namespace Program

variable {p : Program}

mutual

theorem IsNode.tree_eq : ∀ {t u : NodeTree} {h : Handle .node}, p.IsNode t h → p.IsNode u h → t = u
  | .string text, u, h, ht, hu => by
    replace ht : p.node? h = some (.string text) := ht
    cases u with
    | string text' =>
      cases ht.symm.trans hu
      rfl
    | _ => simp [IsNode, ht] at hu
  | .value v, u, h, ht, hu => by
    replace ht : p.node? h = some (.value v) := ht
    cases u with
    | value v' =>
      cases ht.symm.trans hu
      rfl
    | _ => simp [IsNode, ht] at hu
  | .tuple operands, u, _, ⟨ops, ht, hops⟩, hu => by
    cases u with
    | tuple operands' =>
      obtain ⟨ops', hu, hops'⟩ := hu
      cases ht.symm.trans hu
      rw [AreNodes.trees_eq hops hops']
    | _ => simp [IsNode, ht] at hu

theorem AreNodes.trees_eq : ∀ {ts us : List (Option NodeTree)} {ops : List Operand},
    p.AreNodes ts ops → p.AreNodes us ops → ts = us
  | [], us, _, rfl, hu => by
    match us, hu with
    | [], _ => rfl
    | none :: us, ⟨_, hcons, _⟩ => cases hcons
    | some u :: us, ⟨_, _, hcons, _⟩ => cases hcons
  | none :: ts, us, _, ⟨_, rfl, ht⟩, hu => by
    match us, hu with
    | none :: us, ⟨_, rfl, hu⟩ => rw [AreNodes.trees_eq ht hu]
    | some u :: us, ⟨_, _, hcons, _⟩ => cases hcons
  | some t :: ts, us, _, ⟨_, _, rfl, ht, hts⟩, hu => by
    match us, hu with
    | none :: us, ⟨_, hcons, _⟩ => cases hcons
    | some u :: us, ⟨_, _, rfl, hu, hus⟩ => rw [IsNode.tree_eq ht hu, AreNodes.trees_eq hts hus]

end

mutual

theorem IsType.tree_eq : ∀ {t u : TypeExpr} {h : Handle .type}, p.IsType t h → p.IsType u h → t = u
  | .void, u, h, ht, hu => by
    replace ht : p.type? h = some .void := ht
    cases u with
    | void => rfl
    | _ => simp [IsType, ht] at hu
  | .int bits, u, h, ht, hu => by
    replace ht : p.type? h = some (.int bits) := ht
    cases u with
    | int bits' =>
      cases ht.symm.trans hu
      rfl
    | _ => simp [IsType, ht] at hu
  | .float bits, u, h, ht, hu => by
    replace ht : p.type? h = some (.float bits) := ht
    cases u with
    | float bits' =>
      cases ht.symm.trans hu
      rfl
    | _ => simp [IsType, ht] at hu
  | .vector element length, u, h, ⟨c, ht, hc⟩, hu => by
    cases u with
    | vector element' length' =>
      obtain ⟨c', hu, hc'⟩ := hu
      cases ht.symm.trans hu
      rw [IsType.tree_eq hc hc']
    | _ => simp [IsType, ht] at hu
  | .array element length, u, h, ⟨c, ht, hc⟩, hu => by
    cases u with
    | array element' length' =>
      obtain ⟨c', hu, hc'⟩ := hu
      cases ht.symm.trans hu
      rw [IsType.tree_eq hc hc']
    | _ => simp [IsType, ht] at hu
  | .struct name fields, u, h, ⟨cs, ht, hcs⟩, hu => by
    cases u with
    | struct name' fields' =>
      obtain ⟨cs', hu, hcs'⟩ := hu
      cases ht.symm.trans hu
      rw [AreTypes.trees_eq hcs hcs']
    | _ => simp [IsType, ht] at hu
  | .pointer pointee space, u, h, ⟨c, ht, hc⟩, hu => by
    cases u with
    | pointer pointee' space' =>
      obtain ⟨c', hu, hc'⟩ := hu
      cases ht.symm.trans hu
      rw [IsType.tree_eq hc hc']
    | _ => simp [IsType, ht] at hu
  | .function result params, u, h, ⟨c, cs, ht, hc, hcs⟩, hu => by
    cases u with
    | function result' params' =>
      obtain ⟨c', cs', hu, hc', hcs'⟩ := hu
      cases ht.symm.trans hu
      rw [IsType.tree_eq hc hc', AreTypes.trees_eq hcs hcs']
    | _ => simp [IsType, ht] at hu

theorem AreTypes.trees_eq : ∀ {ts us : List TypeExpr} {hs : List (Handle .type)},
    p.AreTypes ts hs → p.AreTypes us hs → ts = us
  | [], us, _, rfl, hu => by
    match us, hu with
    | [], _ => rfl
    | u :: us, ⟨_, _, hcons, _⟩ => cases hcons
  | t :: ts, us, _, ⟨_, _, rfl, ht, hts⟩, hu => by
    match us, hu with
    | u :: us, ⟨_, _, rfl, hu, hus⟩ => rw [IsType.tree_eq ht hu, AreTypes.trees_eq hts hus]

end

/-! ## What a program has is found again -/

theorem node_of_node? (hp : p.Uniqued) {n : Node} {h : Handle .node} (hn : p.node? h = some n) :
    Build.node n p = (h, p) := by
  show ((p.nodes.intern n).1, { p with nodes := (p.nodes.intern n).2 }) = _
  rw [Interned.intern_of_find? ((hp.nodes.found n h).2 hn)]

theorem type_of_type? (hp : p.Uniqued) {t : Ty} {h : Handle .type} (ht : p.type? h = some t) :
    Build.type t p = (h, p) := by
  show ((p.types.intern t).1, { p with types := (p.types.intern t).2 }) = _
  rw [Interned.intern_of_find? ((hp.types.found t h).2 ht)]

end Program

theorem Build.bind_of_eq {α β : Type} {b : Build α} {f : α → Build β} {p : Program} {a : α} (hb : b p = (a, p)) :
    (b >>= f) p = f a p := by
  show f (b p).1 (b p).2 = _
  rw [hb]

section

open Program

variable {p : Program}

mutual

/-- To enter a tree that the program has gives its handle and changes nothing. -/
theorem NodeTree.build_eq (hp : p.Uniqued) : ∀ (t : NodeTree) {h : Handle .node}, p.IsNode t h →
    t.build p = (h, p)
  | .string _, _, ht | .value _, _, ht => node_of_node? hp ht
  | .tuple operands, _, ⟨_, hn, ht⟩ =>
    (Build.bind_of_eq (NodeTree.buildAll_eq hp operands ht)).trans (node_of_node? hp hn)

theorem NodeTree.buildAll_eq (hp : p.Uniqued) : ∀ (ts : List (Option NodeTree)) {ops : List Operand},
    p.AreNodes ts ops → buildAll ts p = (ops, p)
  | [], _, rfl => rfl
  | none :: ts, _, ⟨_, rfl, hts⟩ => Build.bind_of_eq (NodeTree.buildAll_eq hp ts hts)
  | some t :: ts, _, ⟨_, _, rfl, ht, hts⟩ =>
    (Build.bind_of_eq (NodeTree.build_eq hp t ht)).trans (Build.bind_of_eq (NodeTree.buildAll_eq hp ts hts))

end

mutual

/-- To enter a type that the program has gives its handle and changes nothing. -/
theorem TypeExpr.build_eq (hp : p.Uniqued) : ∀ (t : TypeExpr) {h : Handle .type}, p.IsType t h →
    t.build p = (h, p)
  | .void, _, ht | .int _, _, ht | .float _, _, ht => type_of_type? hp ht
  | .vector element _, _, ⟨_, hn, ht⟩ | .array element _, _, ⟨_, hn, ht⟩ | .pointer element _, _, ⟨_, hn, ht⟩ =>
    (Build.bind_of_eq (TypeExpr.build_eq hp element ht)).trans (type_of_type? hp hn)
  | .struct _ fields, _, ⟨_, hn, ht⟩ =>
    (Build.bind_of_eq (TypeExpr.buildAll_eq hp fields ht)).trans (type_of_type? hp hn)
  | .function result params, _, ⟨_, _, hn, ht, hts⟩ =>
    (Build.bind_of_eq (TypeExpr.build_eq hp result ht)).trans
      ((Build.bind_of_eq (TypeExpr.buildAll_eq hp params hts)).trans (type_of_type? hp hn))

theorem TypeExpr.buildAll_eq (hp : p.Uniqued) : ∀ (ts : List TypeExpr) {hs : List (Handle .type)},
    p.AreTypes ts hs → buildAll ts p = (hs, p)
  | [], _, rfl => rfl
  | t :: ts, _, ⟨_, _, rfl, ht, hts⟩ =>
    (Build.bind_of_eq (TypeExpr.build_eq hp t ht)).trans (Build.bind_of_eq (TypeExpr.buildAll_eq hp ts hts))

end

end

end ShaderModule

import Mathlib.Data.List.Forall2
import ShaderModule.Proofs.Table.Interned
import ShaderModule.Record.Emit

/-!
# Programs that grow

Types, constants and nodes are entered at the end of their tables and stay there. `Extends` says of
two programs that every handle of the first denotes the same content in the second; `Grows` says
further that nothing else differs. Whatever is built grows the program.
-/

namespace ShaderModule

namespace Program

/-- Every handle of a type, a constant or a node of `p` denotes the same content in `q`. -/
structure Extends (p q : Program) : Prop where
  types     : p.types.entries <+: q.types.entries
  constants : p.constants.entries <+: q.constants.entries
  nodes     : p.nodes.entries <+: q.nodes.entries

/-- The lookups of the types, constants and nodes are the inverses of their tables, and nothing stands in them
twice. -/
structure Uniqued (p : Program) : Prop where
  types     : p.types.Exact
  constants : p.constants.Exact
  nodes     : p.nodes.Exact

/-- `q` is `p` with contents entered at the end of the tables of types, constants and nodes, and no content
that is there is entered again. -/
structure Grows (p q : Program) : Prop extends Extends p q where
  rest    : q = { p with types := q.types, constants := q.constants, nodes := q.nodes }
  uniqued : p.Uniqued → q.Uniqued

variable {p q r : Program}

theorem Extends.refl (p : Program) : p.Extends p :=
  ⟨List.prefix_refl _, List.prefix_refl _, List.prefix_refl _⟩

theorem Extends.trans (h : p.Extends q) (k : q.Extends r) : p.Extends r :=
  ⟨h.types.trans k.types, h.constants.trans k.constants, h.nodes.trans k.nodes⟩

theorem Extends.node? (h : p.Extends q) {n : Handle .node} {a : Node} (ha : p.node? n = some a) :
    q.node? n = some a :=
  Interned.get?_of_isPrefix h.nodes ha

theorem Extends.constant? (h : p.Extends q) {n : Handle .constant} {a : Constant}
    (ha : p.constant? n = some a) : q.constant? n = some a :=
  Interned.get?_of_isPrefix h.constants ha

theorem Extends.type? (h : p.Extends q) {n : Handle .type} {a : Ty} (ha : p.type? n = some a) :
    q.type? n = some a :=
  Interned.get?_of_isPrefix h.types ha

theorem Grows.refl (p : Program) : p.Grows p := ⟨.refl p, rfl, id⟩

theorem Grows.trans (h : p.Grows q) (k : q.Grows r) : p.Grows r := by
  refine ⟨h.toExtends.trans k.toExtends, ?_, k.uniqued ∘ h.uniqued⟩
  have hk := k.rest
  rw [h.rest] at hk
  exact hk

theorem Grows.globals (h : p.Grows q) : q.globals = p.globals := by
  rw [h.rest]

theorem Grows.functions (h : p.Grows q) : q.functions = p.functions := by
  rw [h.rest]

theorem Grows.named (h : p.Grows q) : q.named = p.named := by
  rw [h.rest]

/-- What grows holds the same entities. -/
theorem Grows.has (h : p.Grows q) (e : Entity) : q.has e = p.has e := by
  cases e with
  | global g => simp only [Program.has, hasGlobal, global?, h.globals]
  | function f => simp only [Program.has, hasFunction, function?, h.functions]

end Program

/-- What is on one side of a relation between lists is related to something on the other side. -/
theorem exists_forall₂ {α β : Type} {R : α → β → Prop} {xs : List α} {ys : List β}
    (h : List.Forall₂ R xs ys) {y : β} (hy : y ∈ ys) : ∃ x ∈ xs, R x y := by
  induction h with
  | nil => cases hy
  | cons hab _ ih =>
    rcases List.mem_cons.1 hy with rfl | hy
    · exact ⟨_, List.mem_cons_self, hab⟩
    · obtain ⟨x, hx, hxy⟩ := ih hy
      exact ⟨x, List.mem_cons_of_mem _ hx, hxy⟩

/-! ## Builds -/

namespace Build

variable {α β : Type}

/-- Building only enters contents. -/
def Growing (b : Build α) : Prop := ∀ p : Program, p.Grows (b p).2

theorem pure_apply (a : α) (p : Program) : (pure a : Build α) p = (a, p) := rfl

theorem Growing.pure (a : α) : Growing (pure a : Build α) := Program.Grows.refl

theorem Growing.bind {b : Build α} {f : α → Build β} (hb : Growing b) (hf : ∀ a, Growing (f a)) :
    Growing (b >>= f) :=
  fun p => (hb p).trans (hf _ _)

theorem Growing.map {b : Build α} (f : α → β) (hb : Growing b) : Growing (f <$> b) := hb

theorem Growing.mapM {f : α → Build β} :
    ∀ {xs : List α}, (∀ a ∈ xs, Growing (f a)) → Growing (xs.mapM f)
  | [], _ => by
    rw [List.mapM_nil]
    exact .pure _
  | x :: xs, hf => by
    rw [List.mapM_cons]
    refine .bind (hf x List.mem_cons_self) fun _ => .bind (.mapM ?_) fun _ => .pure _
    intro a ha
    exact hf a (List.mem_cons_of_mem _ ha)

/-- `b` was built from `a` at some time between `p` and `q`. -/
def Made (f : α → Build β) (p q : Program) (a : α) (b : β) : Prop :=
  ∃ r : Program, p.Grows r ∧ (f a r).2.Grows q ∧ b = (f a r).1

/-- Building for every member of a list builds for each of them in the meantime. -/
theorem made_mapM {f : α → Build β} :
    ∀ {xs : List α}, (∀ a ∈ xs, Growing (f a)) →
      ∀ p, List.Forall₂ (Made f p (xs.mapM f p).2) xs (xs.mapM f p).1
  | [], _, p => by
    rw [List.mapM_nil]
    exact .nil
  | x :: xs, hf, p => by
    have hxs : ∀ a ∈ xs, Growing (f a) := fun a ha => hf a (List.mem_cons_of_mem _ ha)
    have hx : p.Grows (f x p).2 := hf x List.mem_cons_self p
    rw [List.mapM_cons]
    refine .cons ⟨p, .refl p, Growing.mapM hxs _, rfl⟩ ?_
    refine (made_mapM hxs (f x p).2).imp ?_
    rintro a b ⟨r, hr, hq, hb⟩
    exact ⟨r, hx.trans hr, hq, hb⟩

theorem growing_type (t : Ty) : Growing (type t) := fun p =>
  ⟨⟨p.types.entries_isPrefix_intern t, List.prefix_refl _, List.prefix_refl _⟩, rfl,
    fun hp => ⟨hp.types.intern t, hp.constants, hp.nodes⟩⟩

theorem growing_constant (c : Constant) : Growing (constant c) := fun p =>
  ⟨⟨List.prefix_refl _, p.constants.entries_isPrefix_intern c, List.prefix_refl _⟩, rfl,
    fun hp => ⟨hp.types, hp.constants.intern c, hp.nodes⟩⟩

theorem growing_node (n : Node) : Growing (node n) := fun p =>
  ⟨⟨List.prefix_refl _, List.prefix_refl _, p.nodes.entries_isPrefix_intern n⟩, rfl,
    fun hp => ⟨hp.types, hp.constants, hp.nodes.intern n⟩⟩

theorem growing_int (bits : UInt32) (value : Int64) : Growing (int bits value) :=
  .bind (growing_type _) fun _ => growing_constant _

theorem growing_single (x : Single) : Growing (single x) :=
  .bind (growing_type _) fun _ => growing_constant _

/-- The node that is entered is found behind its handle. -/
theorem node?_node (n : Node) (p : Program) : (node n p).2.node? (node n p).1 = some n :=
  p.nodes.get?_intern n

theorem type?_type (t : Ty) (p : Program) : (type t p).2.type? (type t p).1 = some t :=
  p.types.get?_intern t

theorem constant?_constant (c : Constant) (p : Program) :
    (constant c p).2.constant? (constant c p).1 = some c :=
  p.constants.get?_intern c

theorem constant?_int (bits : UInt32) (value : Int64) (p : Program) :
    ∃ t, (int bits value p).2.constant? (int bits value p).1 = some (.int t value) :=
  ⟨_, constant?_constant _ _⟩

theorem constant?_single (x : Single) (p : Program) :
    ∃ t, (single x p).2.constant? (single x p).1 = some (.float t x.widen) :=
  ⟨_, constant?_constant _ _⟩

end Build

end ShaderModule

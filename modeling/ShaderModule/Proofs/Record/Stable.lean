import ShaderModule.Proofs.Program.TypeGraph
import ShaderModule.Proofs.Record.Layout
import ShaderModule.Proofs.Table.Interned

/-!
# Writing once and for all

Contents are entered once. What was built can be built again wherever it still is: the same handles come
out and nothing is entered. The types that are entered are made of issued ones. And what an operand leads
to, through however many tuples, is just what the value that it was written for refers to. All this follows
a layout slot by slot.
-/

namespace ShaderModule

/-! ## Building again -/

namespace Build

variable {α β : Type}

/-- What is built can be built again in any program that still has it and looks things up as they were entered: the
same comes out, and nothing is entered. Its types are made of issued ones. -/
structure Stable (b : Build α) : Prop where
  growing  : Growing b
  again    : ∀ p q, q.Uniqued → (b p).2.Extends q → b q = ((b p).1, q)
  grounded : ∀ bases p, p.Grounded bases → (b p).2.Grounded bases

namespace Stable

theorem pure (a : α) : Stable (pure a : Build α) := ⟨.pure a, fun _ _ _ _ => rfl, fun _ _ => id⟩

theorem bind {b : Build α} {f : α → Build β} (hb : Stable b) (hf : ∀ p, Stable (f (b p).1)) :
    Stable (b >>= f) where
  growing p := (hb.growing p).trans ((hf p).growing _)
  again p q hu hq := by
    have hgrow : (b p).2.Extends ((b >>= f) p).2 := ((hf p).growing _).toExtends
    show f (b q).1 (b q).2 = _
    rw [hb.again p q hu (hgrow.trans hq)]
    exact (hf p).again _ q hu hq
  grounded bases p hp := (hf p).grounded bases _ (hb.grounded bases p hp)

theorem map {b : Build α} (f : α → β) (hb : Stable b) : Stable (f <$> b) where
  growing := hb.growing.map f
  again p q hu hq := by
    show (f (b q).1, (b q).2) = _
    rw [hb.again p q hu hq]
    rfl
  grounded := hb.grounded

theorem mapM {f : α → Build β} :
    ∀ {xs : List α}, (∀ a ∈ xs, Stable (f a)) → Stable (xs.mapM f)
  | [], _ => by
    rw [List.mapM_nil]
    exact .pure _
  | x :: xs, hf => by
    rw [List.mapM_cons]
    refine .bind (hf x List.mem_cons_self) fun _ => .bind (.mapM ?_) fun _ => .pure _
    intro a ha
    exact hf a (List.mem_cons_of_mem _ ha)

end Stable

/-- A type without components. -/
theorem stable_type {t : Ty} (ht : t.components = []) : Stable (type t) where
  growing := growing_type t
  again p q hu hq := by
    show ((q.types.intern t).1, { q with types := (q.types.intern t).2 }) = _
    rw [Interned.intern_of_isPrefix (t := p.types) hu.types hq.types]
    rfl
  grounded bases p hp := hp.type (ht ▸ List.forall_mem_nil _)

theorem stable_constant (c : Constant) : Stable (constant c) where
  growing := growing_constant c
  again p q hu hq := by
    show ((q.constants.intern c).1, { q with constants := (q.constants.intern c).2 }) = _
    rw [Interned.intern_of_isPrefix (t := p.constants) hu.constants hq.constants]
    rfl
  grounded bases p hp := hp.of_same rfl rfl

theorem stable_node (n : Node) : Stable (node n) where
  growing := growing_node n
  again p q hu hq := by
    show ((q.nodes.intern n).1, { q with nodes := (q.nodes.intern n).2 }) = _
    rw [Interned.intern_of_isPrefix (t := p.nodes) hu.nodes hq.nodes]
    rfl
  grounded bases p hp := hp.of_same rfl rfl

theorem stable_int (bits : UInt32) (value : Int64) : Stable (int bits value) :=
  .bind (stable_type rfl) fun _ => stable_constant _

theorem stable_single (x : Single) : Stable (single x) :=
  .bind (stable_type rfl) fun _ => stable_constant _

end Build

/-! ## What operands lead to -/

/-- The entity that a value is, if it is one that can dangle. -/
def Value.entity? : Value → Option Entity
  | .global h => some (.global h)
  | .function h => some (.function h)
  | .inst _ | .argument _ _ | .constant _ => none

namespace Program

variable {p : Program} {h : Handle .node} {e : Entity}

/-- An operand is a reference to an entity, or a tuple with an operand that leads to it. -/
inductive Leads (p : Program) : Operand → Entity → Prop where
  | value {h v e} (hn : p.node? h = some (.value v)) (he : v.entity? = some e) : Leads p (some h) e
  | tuple {h ops op e} (hn : p.node? h = some (.tuple ops)) (hop : op ∈ ops) (hl : Leads p op e) :
      Leads p (some h) e

@[simp]
theorem not_leads_none : ¬ p.Leads none e := nofun

theorem leads_string {text : String} (hn : p.node? h = some (.string text)) : ¬ p.Leads (some h) e := by
  intro hl
  cases hl with
  | value hn' => cases hn.symm.trans hn'
  | tuple hn' => cases hn.symm.trans hn'

theorem leads_value {v : Value} (hn : p.node? h = some (.value v)) :
    p.Leads (some h) e ↔ v.entity? = some e := by
  refine ⟨fun hl => ?_, .value hn⟩
  cases hl with
  | value hn' he =>
    cases hn.symm.trans hn'
    exact he
  | tuple hn' => cases hn.symm.trans hn'

theorem leads_tuple {ops : List Operand} (hn : p.node? h = some (.tuple ops)) :
    p.Leads (some h) e ↔ ∃ op ∈ ops, p.Leads op e := by
  refine ⟨fun hl => ?_, fun ⟨op, hop, hl⟩ => .tuple hn hop hl⟩
  cases hl with
  | value hn' => cases hn.symm.trans hn'
  | tuple hn' hop hl =>
    cases hn.symm.trans hn'
    exact ⟨_, hop, hl⟩

/-- The nodes lead to the entities that some things refer to, each to those of one thing. -/
theorem leads_of_forall₂ {α : Type} {refs : α → List Entity} {xs : List α} {hs : List (Handle .node)}
    (h : List.Forall₂ (fun x n => ∀ e, p.Leads (some n) e ↔ e ∈ refs x) xs hs) (e : Entity) :
    (∃ n ∈ hs, p.Leads (some n) e) ↔ ∃ x ∈ xs, e ∈ refs x := by
  constructor
  · rintro ⟨n, hn, hl⟩
    obtain ⟨x, hx, hxn⟩ := exists_forall₂ h hn
    exact ⟨x, hx, (hxn e).1 hl⟩
  · rintro ⟨x, hx, he⟩
    obtain ⟨n, hn, hxn⟩ := exists_forall₂ h.flip hx
    exact ⟨n, hn, (hxn e).2 he⟩

end Program

/-! ## Exact writing -/

/-- An operand that is put in two goes is put the same way again, and leads to `refs`. -/
structure Put.Exact {α : Type} (put : α → Build (Build Operand)) (refs : α → List Entity) : Prop where
  parts   : ∀ x, Build.Stable (put x)
  operand : ∀ x p, Build.Stable (put x p).1
  leads   : ∀ x p q r, (put x p).2.Extends q → ((put x p).1 q).2.Extends r →
    ∀ e, r.Leads ((put x p).1 q).1 e ↔ e ∈ refs x

abbrev Cell.Exact {α : Type} (c : Cell α) (refs : α → List Entity) : Prop := Put.Exact c.put refs

abbrev Slot.Exact {ρ : Type} (f : Slot ρ) (refs : ρ → List Entity) : Prop := Put.Exact f.put refs

/-- The same for the nodes of records. -/
structure Layout.Exact {ρ : Type} (l : Layout ρ) (refs : ρ → List Entity) : Prop where
  stable : ∀ x, Build.Stable (l.write x)
  leads  : ∀ x p q, (l.write x p).2.Extends q → ∀ e, q.Leads (some (l.write x p).1) e ↔ e ∈ refs x

section

variable {α ρ σ : Type} {refs : ρ → List Entity}

/-- A part of a record is put as it is put by itself. -/
theorem Cell.Exact.field {c : Cell α} {refs : α → List Entity} (hc : c.Exact refs) {view : ρ → α}
    {update : ρ → α → ρ} : (c.field view update).Exact fun x => refs (view x) :=
  ⟨fun x => hc.parts (view x), fun x => hc.operand (view x), fun x => hc.leads (view x)⟩

theorem Slot.Exact.added {f : Slot ρ} (hf : f.Exact refs) (minor : UInt32) : (f.added minor).Exact refs := hf

theorem Slot.Exact.checked {f : Slot ρ} (hf : f.Exact refs) (fault? : ρ → Option Fault) :
    (f.checked fault?).Exact refs := hf

theorem Slot.Exact.second {f : Slot ρ} (hf : f.Exact refs) :
    (f.second : Slot (σ × ρ)).Exact fun x => refs x.2 :=
  ⟨fun x => hf.parts x.2, fun x => hf.operand x.2, fun x => hf.leads x.2⟩

end

namespace Cell

variable {α : Type} {refs : α → List Entity}

/-! ### Operands without parts -/

theorem exact_plain {make : α → Build Operand} {get : Source → Operand → Except Fault α}
    (hs : ∀ x, Build.Stable (make x))
    (hl : ∀ x p q, (make x p).2.Extends q → ∀ e, q.Leads (make x p).1 e ↔ e ∈ refs x) :
    (plain make get).Exact refs where
  parts _ := .pure _
  operand x _ := hs x
  leads x _ q r _ hr := hl x q r hr

theorem stable_constantOperand {c : Build (Handle .constant)} (hc : Build.Stable c) :
    Build.Stable (constantOperand c) :=
  .bind hc fun _ => .bind (Build.stable_node _) fun _ => .pure _

/-- What stands for a constant leads nowhere. -/
theorem leads_constantOperand (c : Build (Handle .constant)) (p q : Program)
    (hq : (constantOperand c p).2.Extends q) (e : Entity) : ¬ q.Leads (constantOperand c p).1 e := by
  have hn := hq.node? (Build.node?_node (.value (.constant (c p).1)) (c p).2)
  intro hl
  cases (Program.leads_value hn).1 hl

theorem exact_constantOperand {c : α → Build (Handle .constant)} {get : Source → Operand → Except Fault α}
    (hc : ∀ x, Build.Stable (c x)) : (plain (fun x => constantOperand (c x)) get).Exact noRefs :=
  exact_plain (fun x => stable_constantOperand (hc x)) fun x p q hq e =>
    iff_of_false (leads_constantOperand (c x) p q hq e) List.not_mem_nil

theorem exact_word (what : String) : (word what).Exact noRefs :=
  exact_constantOperand fun _ => Build.stable_int _ _

theorem exact_optionalWord (what : String) : (optionalWord what).Exact noRefs := by
  refine exact_plain ?_ ?_
  · rintro (_ | n)
    · exact stable_constantOperand (Build.stable_int _ _)
    · exact stable_constantOperand (Build.stable_int _ _)
  · rintro (_ | n) p q hq e
    · exact iff_of_false (leads_constantOperand _ p q hq e) List.not_mem_nil
    · exact iff_of_false (leads_constantOperand _ p q hq e) List.not_mem_nil

theorem exact_bool (what : String) : (bool what).Exact noRefs :=
  exact_constantOperand fun _ => Build.stable_int _ _

theorem exact_single (what : String) : (single what).Exact noRefs :=
  exact_constantOperand fun _ => Build.stable_single _

theorem exact_member [Numbered α] (what : String) : (member what : Cell α).Exact noRefs :=
  exact_constantOperand fun _ => Build.stable_int _ _

/-! ### Strings and entities -/

theorem exact_text {text : α → String} {get : Source → Operand → Except Fault α} :
    (plain (fun x => some <$> Build.string (text x)) get).Exact noRefs :=
  exact_plain (fun _ => .map _ (Build.stable_node _)) fun x p _ hq _ =>
    iff_of_false (Program.leads_string (hq.node? (Build.node?_node (.string (text x)) p))) List.not_mem_nil

theorem exact_string (what : String) : (string what).Exact noRefs := exact_text

theorem exact_optionalString (what : String) : (optionalString what).Exact noRefs := by
  refine exact_plain ?_ ?_
  · rintro (_ | text)
    · exact .pure _
    · exact .map _ (Build.stable_node _)
  · rintro (_ | text) p q hq e
    · simp [Build.pure_apply]
    · exact iff_of_false (Program.leads_string (hq.node? (Build.node?_node (.string text) p)))
        List.not_mem_nil

theorem stable_valueOperand (v : Value) : Build.Stable (valueOperand v) := .map _ (Build.stable_node _)

theorem leads_valueOperand (v : Value) (p q : Program) (hq : (valueOperand v p).2.Extends q) (e : Entity) :
    q.Leads (valueOperand v p).1 e ↔ v.entity? = some e :=
  Program.leads_value (hq.node? (Build.node?_node (.value v) p))

theorem exact_valueOperand {v : α → Value} {get : Source → Operand → Except Fault α} :
    (plain (fun x => valueOperand (v x)) get).Exact fun x => (v x).entity?.toList :=
  exact_plain (fun x => stable_valueOperand (v x)) fun x p q hq e =>
    (leads_valueOperand (v x) p q hq e).trans Option.mem_toList.symm

theorem exact_global (what : String) : (global what).Exact fun h => [.global h] := exact_valueOperand

theorem exact_function (what : String) : (function what).Exact fun h => [.function h] :=
  exact_valueOperand

/-- A reference that may be missing. -/
theorem exact_optional {make : Option α → Build Operand} {v : α → Value} {entity : α → Entity}
    {get : Source → Operand → Except Fault (Option α)} (hnone : make none = pure none)
    (hsome : ∀ x, make (some x) = valueOperand (v x)) (hv : ∀ x, (v x).entity? = some (entity x)) :
    (plain make get).Exact fun o => o.toList.map entity := by
  refine exact_plain ?_ ?_
  · rintro (_ | x)
    · rw [hnone]
      exact .pure _
    · rw [hsome]
      exact stable_valueOperand _
  · rintro (_ | x) p q hq e
    · rw [hnone]
      simp [Build.pure_apply]
    · rw [hsome] at hq ⊢
      rw [leads_valueOperand (v x) p q hq e, hv]
      simp [eq_comm]

theorem exact_optionalGlobal (what : String) :
    (optionalGlobal what).Exact fun h => h.toList.map .global :=
  exact_optional rfl (fun _ => rfl) fun _ => rfl

theorem exact_optionalFunction (what : String) :
    (optionalFunction what).Exact fun h => h.toList.map .function :=
  exact_optional rfl (fun _ => rfl) fun _ => rfl

/-! ### Constants that are parts -/

theorem exact_constantPart {make : α → Constant} {get : Source → Operand → Except Fault α} :
    (Cell.mk (fun x => do return valueOperand (.constant (← Build.constant (make x)))) get).Exact
      noRefs where
  parts x := .bind (Build.stable_constant (make x)) fun _ => .pure _
  operand _ _ := stable_valueOperand _
  leads _ _ q r _ hr e := (leads_valueOperand _ q r hr e).trans (iff_of_false nofun List.not_mem_nil)

theorem exact_bytes (what : String) : (bytes what).Exact noRefs := exact_constantPart

theorem exact_placeholder (what : String) : (placeholder what).Exact noRefs := exact_constantPart

/-! ### Records and lists -/

variable {c : Cell α}

theorem Exact.early (hc : c.Exact refs) : c.early.Exact refs where
  parts x := .bind (hc.parts x) fun p => .bind (hc.operand x p) fun _ => .pure _
  operand _ _ := .pure _
  leads x p _ r hq hr := hc.leads x p _ r (.refl _) (Program.Extends.trans hq hr)

theorem Exact.late (hc : c.Exact refs) : c.late.Exact refs where
  parts _ := .pure _
  operand x _ := .bind (hc.parts x) fun p => hc.operand x p
  leads x _ q r _ hr := hc.leads x q _ r (.refl _) hr

theorem exact_record (missing : String) {l : Layout α} (hl : l.Exact refs) :
    (record missing l).Exact refs :=
  exact_plain (fun x => .map _ (hl.stable x)) hl.leads

theorem stable_listOperand (hs : List (Handle .node)) : Build.Stable (listOperand hs) := by
  unfold listOperand
  split
  · exact .pure _
  · exact .map _ (Build.stable_node _)

/-- A tuple of nodes leads to what they lead to. -/
theorem leads_tuple (hs : List (Handle .node)) (p q : Program)
    (hq : (Build.tuple (hs.map some) p).2.Extends q) (e : Entity) :
    q.Leads (some (Build.tuple (hs.map some) p).1) e ↔ ∃ n ∈ hs, q.Leads (some n) e := by
  have hn := hq.node? (Build.node?_node (.tuple (hs.map some)) p)
  exact (Program.leads_tuple hn).trans (by simp)

theorem leads_listOperand (hs : List (Handle .node)) (p q : Program)
    (hq : (listOperand hs p).2.Extends q) (e : Entity) :
    q.Leads (listOperand hs p).1 e ↔ ∃ n ∈ hs, q.Leads (some n) e := by
  unfold listOperand at hq ⊢
  split at hq
  · next hnil =>
    rw [if_pos hnil, List.isEmpty_iff.1 hnil]
    simp [Build.pure_apply]
  · next hnil =>
    rw [if_neg hnil]
    exact leads_tuple hs p q hq e

/-- The nodes that some things are written to lead to what the things refer to. -/
theorem leads_mapM {β : Type} {refs : β → List Entity} {write : β → Build (Handle .node)}
    (hs : ∀ x, Build.Stable (write x))
    (hl : ∀ x p q, (write x p).2.Extends q → ∀ e, q.Leads (some (write x p).1) e ↔ e ∈ refs x)
    (xs : List β) (p q : Program) (hq : (xs.mapM write p).2.Extends q) (e : Entity) :
    (∃ n ∈ (xs.mapM write p).1, q.Leads (some n) e) ↔ ∃ x ∈ xs, e ∈ refs x := by
  refine Program.leads_of_forall₂ ?_ e
  refine (Build.made_mapM (fun x _ => (hs x).growing) p).imp ?_
  rintro x n ⟨r, -, hr, rfl⟩
  exact hl x r q (hr.toExtends.trans hq)

/-- A list is put exactly if its records are written so, at each position. -/
theorem exact_list {missing : Nat → String} {layout : Nat → Layout α} (hl : ∀ i, (layout i).Exact refs) :
    (list missing layout).Exact (·.flatMap refs) where
  parts xs := .bind (.mapM fun e _ => (hl e.2).stable e.1) fun _ => .pure _
  operand _ _ := stable_listOperand _
  leads xs p q r hq hr e := by
    let write : α × Nat → Build (Handle .node) := fun x => (layout x.2).write x.1
    have hgrow := (stable_listOperand (xs.zipIdx.mapM write p).1).growing q
    have hext : (xs.zipIdx.mapM write p).2.Extends r := hq.trans (hgrow.toExtends.trans hr)
    have hmany := leads_mapM (fun x : α × Nat => (hl x.2).stable x.1)
      (fun x p q hq => (hl x.2).leads x.1 p q hq) xs.zipIdx p r hext e
    rw [List.mem_flatMap]
    refine ((leads_listOperand (xs.zipIdx.mapM write p).1 q r hr e).trans hmany).trans ?_
    constructor
    · rintro ⟨⟨x, i⟩, hx, he⟩
      exact ⟨x, List.mem_of_getElem? (List.mk_mem_zipIdx_iff_getElem?.1 hx), he⟩
    · rintro ⟨x, hx, he⟩
      obtain ⟨i, hi⟩ := List.mem_iff_getElem?.1 hx
      exact ⟨(x, i), List.mk_mem_zipIdx_iff_getElem?.2 hi, he⟩

end Cell

/-! ## Exact layouts -/

namespace Layout

variable {ρ : Type} {l : Layout ρ}

/-- Records are written exactly if all fields are put so; they lead to what any of the fields leads to. -/
theorem exact_of_slots {rs : List (ρ → List Entity)}
    (hs : List.Forall₂ Slot.Exact l.slots rs) {refs : ρ → List Entity}
    (hrefs : ∀ x e, e ∈ refs x ↔ ∃ r ∈ rs, e ∈ r x) : l.Exact refs := by
  have hslot : ∀ f ∈ l.slots, (∀ x, Build.Stable (f.put x)) ∧ ∀ x p, Build.Stable (f.put x p).1 := by
    intro f hf
    obtain ⟨r, -, hr⟩ := exists_forall₂ hs.flip hf
    exact ⟨hr.parts, hr.operand⟩
  have hgrow : ∀ f ∈ l.slots, f.Growing := fun f hf =>
    ⟨fun x => ((hslot f hf).1 x).growing, fun x p => ((hslot f hf).2 x p).growing⟩
  constructor
  case stable =>
    intro x
    refine .bind (.mapM fun f hf => (hslot f hf).1 x) fun p => ?_
    refine .bind (.mapM fun b hb => ?_) fun _ => Build.stable_node _
    obtain ⟨f, hf, q, -, -, rfl⟩ := exists_forall₂ (made_operand hgrow x p).2 hb
    exact (hslot f hf).2 x q
  case leads =>
    intro x p q hq e
    obtain ⟨ops, hnode, hlen, hops⟩ := write_eq hgrow x p
    -- Operands and slots correspond by their positions.
    have hop : ∀ (i : Nat) op r, ops[i]? = some op → rs[i]? = some r → (q.Leads op e ↔ e ∈ r x) := by
      intro i op r hi hr
      have hlt : i < l.slots.length := hlen ▸ (List.getElem?_eq_some_iff.1 hi).1
      have hf := List.getElem?_eq_getElem hlt
      obtain ⟨p₀, q₀, hq₀, rfl, hext⟩ := hops i _ op hf hi
      exact (getElem?_forall₂ hs hf hr).leads x p₀ q₀ q hq₀.toExtends (hext.trans hq) e
    rw [Program.leads_tuple (hq.node? hnode), hrefs]
    constructor
    · rintro ⟨op, hmem, hl⟩
      obtain ⟨i, hi⟩ := List.mem_iff_getElem?.1 hmem
      have hlt : i < rs.length := hs.length_eq ▸ hlen ▸ (List.getElem?_eq_some_iff.1 hi).1
      have hr := List.getElem?_eq_getElem hlt
      exact ⟨_, List.mem_of_getElem? hr, (hop i op _ hi hr).1 hl⟩
    · rintro ⟨r, hmem, he⟩
      obtain ⟨i, hi⟩ := List.mem_iff_getElem?.1 hmem
      have hlt : i < ops.length := hlen ▸ hs.length_eq ▸ (List.getElem?_eq_some_iff.1 hi).1
      have ho := List.getElem?_eq_getElem hlt
      exact ⟨_, List.mem_of_getElem? ho, (hop i _ r ho hi).2 he⟩

end Layout

end ShaderModule

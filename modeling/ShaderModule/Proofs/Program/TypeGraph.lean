import Mathlib.Data.List.Forall2
import Mathlib.Logic.Relation
import ShaderModule.Proofs.Program.ArrayLayers
import ShaderModule.Proofs.Record.Growth

/-!
# Type graphs

A type refers to its components by handles. Where types are made of nothing but types that the table has issued, every
type stands after its components. So whoever follows the components comes to an end: the array layers of a type can be
taken off, its text can be put together, and every handle on the way is one that the table has issued.
-/

namespace ShaderModule

namespace TypeTable

variable {types types' : TypeTable} {h c : Handle .type} {t : Ty}

/-- The table has issued the handle. -/
def Issued (types : TypeTable) (h : Handle .type) : Prop := (types.get? h).isSome

instance (types : TypeTable) (h : Handle .type) : Decidable (types.Issued h) :=
  inferInstanceAs (Decidable ((types.get? h).isSome = true))

theorem issued_iff : types.Issued h ↔ h.index < types.entries.length := by
  simp [Issued, Interned.get?]

theorem Issued.of_isPrefix (hh : types.Issued h) (hp : types.entries <+: types'.entries) : types'.Issued h := by
  rw [issued_iff] at *
  exact Nat.lt_of_lt_of_le hh hp.length_le

theorem issued_intern (types : TypeTable) (t : Ty) : Issued (types.intern t).2 (types.intern t).1 :=
  Option.isSome_of_eq_some (types.get?_intern t)

/-! ## Types made of issued types -/

theorem wellFounded_empty : WellFounded .empty := by
  intro h t ht
  simp [Interned.empty, Interned.get?] at ht

/-- A type that is made of issued types comes after all of them. -/
theorem WellFounded.intern (hw : types.WellFounded) (ht : ∀ c ∈ t.components, types.Issued c) :
    WellFounded (types.intern t).2 := by
  unfold Interned.intern
  split
  · exact hw
  · intro h u hu c hc
    rcases Interned.get?_enter_eq_some.1 hu with ⟨rfl, rfl⟩ | hu
    · exact issued_iff.1 (ht c hc)
    · exact hw h u hu c hc

theorem WellFounded.issued (hw : types.WellFounded) (ht : types.get? h = some t) (hc : c ∈ t.components) :
    types.Issued c := by
  have hlt : c.index < h.index := hw h t ht c hc
  have hh : h.index < types.entries.length := issued_iff.1 (Option.isSome_of_eq_some ht)
  rw [issued_iff]
  omega

/-- The second type is a component of the first one. -/
def RefersTo (types : TypeTable) (h c : Handle .type) : Prop := ∃ t, types.get? h = some t ∧ c ∈ t.components

/-- Wherever components lead to, there is a type that stands before the one that they come from. -/
theorem WellFounded.of_refersTo (hw : types.WellFounded) (hc : Relation.TransGen types.RefersTo h c) :
    types.Issued c ∧ c < h := by
  induction hc with
  | single hc =>
    obtain ⟨t, ht, hc⟩ := hc
    exact ⟨hw.issued ht hc, hw _ t ht _ hc⟩
  | tail _ hc ih =>
    obtain ⟨t, ht, hc⟩ := hc
    exact ⟨hw.issued ht hc, Nat.lt_trans (hw _ t ht _ hc) ih.2⟩

/-- Every type has a core under its array layers. -/
theorem WellFounded.exists_layered (hw : types.WellFounded) (hh : types.Issued h) :
    ∃ core lengths, types.Layered core lengths h := by
  -- Taking a layer off leads to a type that stands before.
  induction hn : h.index using Nat.strongRecOn generalizing h with
  | ind n ih =>
    obtain ⟨t, ht⟩ := Option.isSome_iff_exists.1 hh
    cases t with
    | array element length =>
      have hmem : element ∈ (Ty.array element length).components := List.mem_singleton_self element
      have hlt : element.index < h.index := hw h _ ht element hmem
      obtain ⟨core, lengths, hinner⟩ := ih element.index (hn ▸ hlt) (hw.issued ht hmem) rfl
      exact ⟨core, length :: lengths, .layer ht hinner⟩
    | _ => exact ⟨h, [], .core ht nofun⟩

/-! ## Texts -/

/-- What is related to the members of a list by a function alone is the list of its values. -/
theorem eq_map_of_forall₂ {α β : Type} {R : α → β → Prop} {f : α → β} {xs : List α} {ys : List β}
    (hf : ∀ x ∈ xs, ∀ y, R x y → y = f x) (h : List.Forall₂ R xs ys) : ys = xs.map f := by
  induction h with
  | nil => rfl
  | cons hxy _ ih =>
    rw [List.map_cons, ← hf _ List.mem_cons_self _ hxy, ← ih fun x hx => hf x (List.mem_cons_of_mem _ hx)]

/-- The text of a type, put together from the texts of its components. A struct shows its name and not its fields. -/
inductive Spelled (types : TypeTable) : Handle .type → String → Prop where
  | void {h : Handle .type} (ht : types.get? h = some .void) : Spelled types h "void"
  | int {h : Handle .type} {bits : UInt32} (ht : types.get? h = some (.int bits)) :
      Spelled types h ("i" ++ toString bits.toNat)
  | half {h : Handle .type} (ht : types.get? h = some (.float 16)) : Spelled types h "half"
  | single {h : Handle .type} (ht : types.get? h = some (.float 32)) : Spelled types h "float"
  | double {h : Handle .type} (ht : types.get? h = some (.float 64)) : Spelled types h "double"
  | float {h : Handle .type} {bits : UInt32} (ht : types.get? h = some (.float bits)) (hbits : bits ∉ [16, 32, 64]) :
      Spelled types h ("f" ++ toString bits.toNat)
  | vector {h element : Handle .type} {length : UInt32} {text : String}
      (ht : types.get? h = some (.vector element length)) (helement : Spelled types element text) :
      Spelled types h ("<" ++ toString length.toNat ++ " x " ++ text ++ ">")
  | array {h element : Handle .type} {length : UInt64} {text : String}
      (ht : types.get? h = some (.array element length)) (helement : Spelled types element text) :
      Spelled types h ("[" ++ toString length.toNat ++ " x " ++ text ++ "]")
  | struct {h : Handle .type} {name : String} {fields : List (Handle .type)}
      (ht : types.get? h = some (.struct name fields)) : Spelled types h ("%" ++ name)
  | pointer {h pointee : Handle .type} {text : String} (ht : types.get? h = some (.pointer pointee .default))
      (hpointee : Spelled types pointee text) : Spelled types h (text ++ "*")
  | sharedPointer {h pointee : Handle .type} {text : String}
      (ht : types.get? h = some (.pointer pointee .groupShared)) (hpointee : Spelled types pointee text) :
      Spelled types h (text ++ " addrspace(3)*")
  | function {h result : Handle .type} {params : List (Handle .type)} {text : String} {texts : List String}
      (ht : types.get? h = some (.function result params)) (hresult : Spelled types result text)
      (hparams : List.Forall₂ (Spelled types) params texts) :
      Spelled types h (text ++ " (" ++ ", ".intercalate texts ++ ")")

/-- Rendering puts the text together, if it may descend as many levels as there are types up to this one. -/
theorem WellFounded.spelled_render (hw : types.WellFounded) (hh : types.Issued h) {depth : Nat}
    (hdepth : h.index < depth) : types.Spelled h (types.render depth h) := by
  induction depth generalizing h with
  | zero => omega
  | succ depth ih =>
    obtain ⟨t, ht⟩ := Option.isSome_iff_exists.1 hh
    -- A component stands before the type, so the levels that are left suffice for it.
    have hcomponent : ∀ c ∈ t.components, types.Spelled c (types.render depth c) := by
      intro c hc
      have hlt : c.index < h.index := hw h t ht c hc
      exact ih (hw.issued ht hc) (by omega)
    rw [render, ht]
    cases t with
    | void => exact .void ht
    | int bits => exact .int ht
    | float bits =>
      by_cases h16 : bits = 16
      · subst h16
        exact .half ht
      by_cases h32 : bits = 32
      · subst h32
        exact .single ht
      by_cases h64 : bits = 64
      · subst h64
        exact .double ht
      simp only [h16, h32, h64, if_false]
      exact .float ht (by simp [h16, h32, h64])
    | vector element length => exact .vector ht (hcomponent element (List.mem_singleton_self element))
    | array element length => exact .array ht (hcomponent element (List.mem_singleton_self element))
    | struct name fields => exact .struct ht
    | pointer pointee space =>
      have hpointee := hcomponent pointee (List.mem_singleton_self pointee)
      cases space with
      | default => exact .pointer ht hpointee
      | groupShared => exact .sharedPointer ht hpointee
    | function result params =>
      refine .function ht (hcomponent result List.mem_cons_self) ?_
      rw [List.forall₂_map_right_iff, List.forall₂_same]
      exact fun c hc => hcomponent c (List.mem_cons_of_mem result hc)

/-- No other text can be put together. -/
theorem WellFounded.eq_render (hw : types.WellFounded) {depth : Nat} (hdepth : h.index < depth) {text : String}
    (hs : types.Spelled h text) : text = types.render depth h := by
  induction depth generalizing h text with
  | zero => omega
  | succ depth ih =>
    have hcomponent : ∀ t, types.get? h = some t → ∀ c ∈ t.components, ∀ text, types.Spelled c text →
        text = types.render depth c := by
      intro t ht c hc text hc'
      have hlt : c.index < h.index := hw h t ht c hc
      exact ih (by omega) hc'
    cases hs with
    | void ht | int ht | half ht | single ht | double ht | struct ht => simp [render, ht]
    | float ht hbits =>
      simp only [List.mem_cons, List.not_mem_nil, or_false, not_or] at hbits
      simp [render, ht, hbits]
    | vector ht helement | array ht helement | pointer ht helement | sharedPointer ht helement =>
      rw [hcomponent _ ht _ (List.mem_singleton_self _) _ helement, render, ht]
    | function ht hresult hparams =>
      have hmem : ∀ c ∈ _, ∀ text, types.Spelled c text → text = types.render depth c := fun c hc =>
        hcomponent _ ht c (List.mem_cons_of_mem _ hc)
      rw [hcomponent _ ht _ List.mem_cons_self _ hresult, eq_map_of_forall₂ hmem hparams, render, ht]

/-- A type has one text. -/
theorem WellFounded.spelled_iff (hw : types.WellFounded) (hh : types.Issued h) (text : String) :
    types.Spelled h text ↔ text = types.typeText h := by
  constructor
  · exact hw.eq_render (Nat.lt_succ_self h.index)
  · rintro rfl
    exact hw.spelled_render hh (Nat.lt_succ_self h.index)

end TypeTable

/-! ## Programs with issued types -/

namespace Program

variable {p q : Program} {bases : List (Handle .type)} {t : Ty}

/-- The types of a program are made of issued ones, its globals are of issued types, and some types that are about to
be used have been issued. -/
structure Grounded (bases : List (Handle .type)) (p : Program) : Prop where
  types   : p.types.WellFounded
  globals : ∀ g x, p.global? g = some x → p.types.Issued x.type
  bases   : ∀ c ∈ bases, p.types.Issued c

theorem grounded_empty (name : String) : (empty name).Grounded [] where
  types := TypeTable.wellFounded_empty
  globals _ _ hx := by simp [global?, empty, Listed.empty, Slots.get?, Slots.empty] at hx
  bases := List.forall_mem_nil _

/-- A change that leaves types and globals alone. -/
theorem Grounded.of_same (h : p.Grounded bases) (htypes : q.types = p.types) (hglobals : q.globals = p.globals) :
    q.Grounded bases := by
  constructor
  case types =>
    rw [htypes]
    exact h.types
  case globals =>
    simp only [global?, htypes, hglobals]
    exact h.globals
  case bases =>
    rw [htypes]
    exact h.bases

/-- A type that is made of issued types may be entered. -/
theorem Grounded.type (h : p.Grounded bases) (ht : ∀ c ∈ t.components, p.types.Issued c) :
    (Build.type t p).2.Grounded bases := by
  have hprefix := p.types.entries_isPrefix_intern t
  exact ⟨h.types.intern ht, fun g x hx => (h.globals g x hx).of_isPrefix hprefix,
    fun c hc => (h.bases c hc).of_isPrefix hprefix⟩

end Program

end ShaderModule

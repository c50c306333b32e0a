import ShaderModule.Proofs.Record.Layout
import ShaderModule.Record.Load

/-!
# The layouts are lawful

Every layout of the schema obeys its law. Most records have any shape; an element of a signature and
a resource record carry their position, and a view has no more than its class keeps.
-/

namespace ShaderModule

open Slot (Meaning)

/-! ## Records of any shape -/

theorem Version.lawful_layout : Version.layout.Lawful anyShape noRefs :=
  Layout.lawful_of_plain
    (.cons ((Cell.lawful_word _).field fun _ _ => rfl) <|
      .cons ((Cell.lawful_word _).field fun _ _ => rfl) .nil)
    (by decide) fun _ => ⟨by simp, rfl⟩

theorem Options.lawful_layout : Options.layout.Lawful anyShape noRefs :=
  Layout.lawful_of_plain (.cons ((Cell.lawful_word _).field fun _ _ => rfl) .nil)
    (by decide) fun _ => ⟨by simp, rfl⟩

theorem lawful_rootSignatureLayout : rootSignatureLayout.Lawful anyShape noRefs :=
  Layout.lawful_of_plain (.cons ((Cell.lawful_bytes _).field fun _ _ => rfl) .nil)
    (by decide) fun _ => ⟨by simp, rfl⟩

/-- A stage is kept as its abbreviation. -/
theorem Cell.lawful_stage : Cell.stage.Lawful anyShape noRefs := by
  refine lawful_plain (fun _ => growing_string _) ?_ fun _ _ _ _ => ⟨trivial, by simp⟩
  intro x p _ s hs _ _
  refine bind_eq_ok.2 ⟨x.abbreviation, string_operand _ p hs _, ?_⟩
  rw [Stage.ofAbbreviation?_abbreviation]
  rfl

theorem Profile.lawful_layout : Profile.layout.Lawful anyShape noRefs :=
  Layout.lawful_of_plain
    (.cons (Cell.lawful_stage.field fun _ _ => rfl) <|
      .cons ((Cell.lawful_word _).field fun _ _ => rfl) <|
      .cons ((Cell.lawful_word _).field fun _ _ => rfl) .nil)
    (by decide) fun _ => ⟨by simp, rfl⟩

/-! ## Annotations -/

theorem FieldInfo.lawful_layout : FieldInfo.layout.Lawful anyShape noRefs :=
  Layout.lawful_of_plain
    (.cons ((Cell.lawful_string _).field fun _ _ => rfl) <|
      .cons ((Cell.lawful_word _).field fun _ _ => rfl) <|
      .cons ((Cell.lawful_member _).field fun _ _ => rfl) <|
      .cons ((Cell.lawful_member _).field fun _ _ => rfl) <|
      .cons ((Cell.lawful_optionalString _).field fun _ _ => rfl) <|
      .cons ((Cell.lawful_bool _).field fun _ _ => rfl) .nil)
    (by decide) fun _ => ⟨by simp, rfl⟩

theorem ParamInfo.lawful_layout : ParamInfo.layout.Lawful anyShape noRefs :=
  Layout.lawful_of_plain
    (.cons ((Cell.lawful_member _).field fun _ _ => rfl) <|
      .cons ((Cell.lawful_optionalString _).field fun _ _ => rfl) <|
      .cons ((Cell.lawful_member _).field fun _ _ => rfl) <|
      .cons ((Cell.lawful_bool _).field fun _ _ => rfl) <|
      .cons (((Cell.lawful_member _).field fun _ _ => rfl).added 1) .nil)
    (by decide) fun _ => ⟨by simp, rfl⟩

theorem StructInfo.lawful_layout : StructInfo.layout.Lawful anyShape noRefs :=
  Layout.lawful_of_plain
    (.cons ((Cell.lawful_placeholder _).field fun _ _ => rfl) <|
      .cons ((Cell.lawful_word _).field fun _ _ => rfl) <|
      .cons ((Cell.lawful_list _ fun _ => FieldInfo.lawful_layout).field fun _ _ => rfl) .nil)
    (by decide) fun _ => ⟨by simp, rfl⟩

/-- An annotated function refers to the function. -/
theorem FunctionInfo.lawful_layout :
    FunctionInfo.layout.Lawful anyShape fun e => [.function e.1] := by
  refine Layout.lawful_of_slots
    (.cons ((Cell.lawful_function _).field fun _ _ => rfl) <|
      .cons ((Cell.lawful_record _ ParamInfo.lawful_layout).field fun _ _ => rfl) <|
      .cons ((Cell.lawful_list _ fun _ => ParamInfo.lawful_layout).field fun _ _ => rfl) .nil)
    (by decide) ?_ ?_
  · intro e _
    exact ⟨by simp, rfl⟩
  · intro live minor e hc
    refine ⟨trivial, ?_⟩
    obtain ⟨-, h⟩ := Layout.field_of_copies [] 0 [2, 1] hc rfl (by decide) rfl
      (by simp) fun _ _ => rfl
    exact h

theorem ResourceTypes.lawful_layout : ResourceTypes.layout.Lawful anyShape noRefs :=
  Layout.lawful_of_plain
    (.cons ((Cell.lawful_placeholder _).field fun _ _ => rfl) <|
      .cons ((Cell.lawful_member _).field fun _ _ => rfl) <|
      .cons ((Cell.lawful_member _).field fun _ _ => rfl) .nil)
    (by decide) fun _ => ⟨by simp, rfl⟩

/-! ## Signatures -/

/-- An element carries its position as id. -/
def Element.Placed (pos : Nat) (x : Element) : Prop := x.id.toNat = pos

theorem Element.lawful_layout (kind : SignatureKind) (pos : Nat) :
    (Element.layout kind pos).Lawful (Placed pos) noRefs := by
  refine Layout.lawful_of_slots
    (.cons ((Cell.lawful_word _).field fun _ _ => rfl) <|
      .cons ((Cell.lawful_string _).field fun _ _ => rfl) <|
      .cons ((Cell.lawful_member _).field fun _ _ => rfl) <|
      .cons ((Cell.lawful_member _).field fun _ _ => rfl) <|
      .cons ((Cell.lawful_words _ _).early.field fun _ _ => rfl) <|
      .cons ((Cell.lawful_member _).field fun _ _ => rfl) <|
      .cons ((Cell.lawful_word _).field fun _ _ => rfl) <|
      .cons ((Cell.lawful_word _).field fun _ _ => rfl) <|
      .cons ((Cell.lawful_optionalWord _).field fun _ _ => rfl) <|
      .cons ((Cell.lawful_optionalWord _).field fun _ _ => rfl) <|
      .cons (((Cell.lawful_word _).field fun _ _ => rfl).checked _) .nil)
    (by simp [Element.layout]) ?_ ?_
  · intro x hx
    refine ⟨by simp, ?_⟩
    have hx : x.id.toNat = pos := hx
    rw [show (Element.layout kind pos).order = [4, 0, 1, 2, 3, 5, 6, 7, 8, 9] ++ [10] from rfl,
      List.foldlM_append]
    refine bind_eq_ok.2 ⟨{ x with stream := 0 }, rfl, ?_⟩
    exact bind_eq_ok.2 ⟨x, Meaning.checked_copy rfl (by simp [hx]), rfl⟩
  · intro live minor x hc
    refine ⟨?_, by simp⟩
    refine Layout.establish_of_copies [4, 0, 1, 2, 3, 5, 6, 7, 8, 9] 10 [] hc rfl
      (by simp [Layout.arity, Element.layout]) rfl ?_ (by simp)
    intro y w z _ _ hz
    have := Meaning.passes_of_checked hz
    simpa [Placed] using this

theorem Signature.lawful_cell (kind : SignatureKind) :
    (Signature.cell kind).Lawful (allShape Element.Placed) noRefs := by
  have h := (Cell.lawful_list (fun _ => "signature element") (Element.lawful_layout kind)).late
  have hrefs : (fun xs : List Element => xs.flatMap noRefs) = noRefs := by
    funext xs
    simp
  rw [← hrefs]
  exact h

/-- Every element of the three signatures carries its position as id. -/
def Signatures.Placed (x : Signatures) : Prop :=
  ∀ kind, allShape Element.Placed (x.get kind)

theorem Signatures.lawful_layout : Signatures.layout.Lawful Placed noRefs := by
  refine Layout.lawful_of_slots
    (.cons ((Signature.lawful_cell _).field fun _ _ => rfl) <|
      .cons ((Signature.lawful_cell _).field fun _ _ => rfl) <|
      .cons ((Signature.lawful_cell _).field fun _ _ => rfl) .nil)
    (by decide) ?_ ?_
  · intro x hx
    refine ⟨?_, rfl⟩
    have h1 := hx .input
    have h2 := hx .output
    have h3 := hx .patchConstant
    simp only [get] at h1 h2 h3
    simp [h1, h2, h3]
  · intro live minor x hc
    refine ⟨?_, by simp⟩
    rintro (_ | _ | _)
    · exact (Layout.field_of_copies [] 0 [1, 2] hc rfl (by decide) rfl
        (by simp) fun _ _ => rfl).1
    · exact (Layout.field_of_copies [0] 1 [2] hc rfl (by decide) rfl
        (by simp) fun _ _ => rfl).1
    · exact (Layout.field_of_copies [0, 1] 2 [] hc rfl (by decide) rfl
        (by simp) fun _ _ => rfl).1

/-- The entry function, if there is one, is all that an entry point refers to. -/
def EntryPoint.refs (x : EntryPoint) : List Entity := x.function.toList.map .function

theorem EntryPoint.lawful_layout : EntryPoint.layout.Lawful (·.signatures.Placed) refs := by
  refine Layout.lawful_of_slots
    (.cons ((Cell.lawful_optionalFunction _).field fun _ _ => rfl) <|
      .cons ((Cell.lawful_string _).field fun _ _ => rfl) <|
      .cons ((Cell.lawful_record _ Signatures.lawful_layout).early.field fun _ _ => rfl) .nil)
    (by decide) ?_ ?_
  · intro x hx
    refine ⟨?_, rfl⟩
    simp [hx, refs]
  · intro live minor x hc
    constructor
    · exact (Layout.field_of_copies [0, 1] 2 [] hc rfl (by decide) rfl
        (by simp) fun _ _ => rfl).1
    · exact (Layout.field_of_copies [] 0 [1, 2] hc rfl (by decide) rfl
        (by simp) fun _ _ => rfl).2

/-! ## Resources -/

namespace Bound

variable {π : Type}

/-- What the fields of a binding mean. -/
def meanings (cls : ResourceClass) (pos : Nat) :
    { ms : List (Meaning (Bound π)) // List.Forall₂ Slot.Lawful (Bound.slots cls pos) ms } :=
  ⟨_, .cons ((Cell.lawful_word _).field fun _ _ => rfl) <|
    .cons ((Cell.lawful_global _).field fun _ _ => rfl) <|
    .cons ((Cell.lawful_string _).field fun _ _ => rfl) <|
    .cons ((Cell.lawful_word _).field fun _ _ => rfl) <|
    .cons ((Cell.lawful_word _).field fun _ _ => rfl) <|
    .cons (((Cell.lawful_word _).field fun _ _ => rfl).checked _) .nil⟩

/-- A record carries its position as id, and its payload is one that its class keeps. -/
def Placed (kept : π → Prop) (pos : Nat) (x : Bound π) : Prop := x.id.toNat = pos ∧ kept x.payload

def refs (x : Bound π) : List Entity := [.global x.global]

/-- What is read begins with a binding at its position, of a global of the program, if the slots after
it leave the binding alone. -/
theorem binding_of_copies {l : Layout (Bound π)} {cls : ResourceClass} {pos : Nat}
    {extras : List (Meaning (Bound π))} {live : Entity → Prop} {minor : UInt32} {z : Bound π}
    (fs : List (Slot (Bound π))) (rest : List Nat) (hslots : l.slots = Bound.slots cls pos ++ fs)
    (horder : l.order = [0, 1, 2, 3, 4, 5] ++ rest) (hrest : ∀ j ∈ rest, 6 ≤ j)
    (hextra : ∀ m ∈ extras, m.Leaves Bound.toBinding)
    (hc : Slot.Copies (((meanings cls pos).1 ++ extras).take (l.arity minor)) live l.order l.blank z) :
    z.id.toNat = pos ∧ ∀ e ∈ refs z, live e := by
  have harity : 6 ≤ l.arity 0 := by
    rw [Layout.arity, hslots, List.countP_append]
    simp [Bound.slots]
  have hlater : ∀ j ∈ rest, ∀ m, ((meanings cls pos).1 ++ extras)[j]? = some m →
      m.Leaves Bound.toBinding := by
    intro j hj m hm
    rw [List.getElem?_append_right (hrest j hj)] at hm
    exact hextra m (List.mem_of_getElem? hm)
  constructor
  · refine Layout.establish_of_copies (P := fun z => z.id.toNat = pos) [0, 1, 2, 3, 4] 5 rest hc horder
      (by omega) rfl ?_ ?_
    · intro x y z _ _ hz
      simpa using Meaning.passes_of_checked hz
    · intro j hj m hm x y z _ _ hz hy
      rw [hlater j hj m hm x y z hz]
      exact hy
  · refine (Layout.field_of_copies [0] 1 (2 :: 3 :: 4 :: 5 :: rest) hc horder (by omega) rfl ?_
      fun _ _ => rfl).2
    intro j hj m hm
    rcases List.mem_append.1 (show j ∈ [2, 3, 4, 5] ++ rest from hj) with hj | hj
    · simp only [List.mem_cons, List.not_mem_nil, or_false] at hj
      rcases hj with rfl | rfl | rfl | rfl
      all_goals
        cases hm
        simp
    · intro x y z hz
      exact congrArg Binding.global (hlater j hj m hm x y z hz)

theorem leaves_payload {cls : ResourceClass} {pos : Nat} {m : Meaning (Bound π)}
    (hm : m ∈ (meanings cls pos).1) : m.Leaves Bound.payload := by
  simp only [meanings, List.mem_cons, List.not_mem_nil, or_false] at hm
  rcases hm with rfl | rfl | rfl | rfl | rfl | rfl
  all_goals simp

/-- What no slot after the binding touches in the payload is as in the blank record. -/
theorem blank_of_copies {β : Type} {l : Layout (Bound π)} {cls : ResourceClass} {pos : Nat}
    {extras : List (Meaning (Bound π))} {live : Entity → Prop} {minor : UInt32} {z : Bound π}
    (view : π → β) (hextra : ∀ m ∈ extras, m.Leaves fun x => view x.payload)
    (hc : Slot.Copies (((meanings cls pos).1 ++ extras).take (l.arity minor)) live l.order l.blank z) :
    view z.payload = view l.blank.payload := by
  refine Layout.blank_of_copies (fun x => view x.payload) ?_ hc
  intro m hm x y w hw
  rcases List.mem_append.1 hm with hm | hm
  · exact congrArg view (leaves_payload hm x y w hw)
  · exact hextra m hm x y w hw

/-- A record at its position is the copy of itself as far as its binding goes. -/
theorem foldlM_meanings {cls : ResourceClass} {pos : Nat} {extras : List (Meaning (Bound π))}
    {x y : Bound π} (hx : x.id.toNat = pos) :
    [0, 1, 2, 3, 4, 5].foldlM (Slot.copyAt ((meanings cls pos).1 ++ extras) x) y =
      .ok { y with toBinding := x.toBinding } := by
  rw [show [0, 1, 2, 3, 4, 5] = [0, 1, 2, 3, 4] ++ [5] from rfl, List.foldlM_append]
  refine bind_eq_ok.2 ⟨{ y with toBinding := { x.toBinding with rangeSize := y.rangeSize } }, rfl, ?_⟩
  exact bind_eq_ok.2 ⟨_, Meaning.checked_copy rfl (by simp [hx]), rfl⟩

end Bound

theorem ConstantBuffer.lawful_layout (pos : Nat) :
    (ConstantBuffer.layout pos).Lawful (Bound.Placed anyShape pos) Bound.refs := by
  refine Layout.lawful_of_slots
    (forall₂_append (Bound.meanings _ _).2 (.cons ((Cell.lawful_word _).field fun _ _ => rfl) .nil))
    (by simp [ConstantBuffer.layout, Layout.inOrder, Bound.slots, Cell.extra])
    ?_ ?_
  · intro x hx
    refine ⟨by simp [Bound.meanings, Bound.refs], ?_⟩
    rw [show (ConstantBuffer.layout pos).order = [0, 1, 2, 3, 4, 5] ++ [6] from rfl,
      List.foldlM_append, Bound.foldlM_meanings hx.1]
    rfl
  · intro live minor x hc
    obtain ⟨hid, hrefs⟩ := Bound.binding_of_copies _ [6] rfl rfl (by simp)
      (by simp) hc
    exact ⟨⟨hid, trivial⟩, hrefs⟩

theorem Sampler.lawful_layout (pos : Nat) :
    (Sampler.layout pos).Lawful (Bound.Placed anyShape pos) Bound.refs := by
  refine Layout.lawful_of_slots
    (forall₂_append (Bound.meanings _ _).2 (.cons ((Cell.lawful_member _).field fun _ _ => rfl) .nil))
    (by simp [Sampler.layout, Layout.inOrder, Bound.slots, Cell.extra]) ?_ ?_
  · intro x hx
    refine ⟨by simp [Bound.meanings, Bound.refs], ?_⟩
    rw [show (Sampler.layout pos).order = [0, 1, 2, 3, 4, 5] ++ [6] from rfl, List.foldlM_append,
      Bound.foldlM_meanings hx.1]
    rfl
  · intro live minor x hc
    obtain ⟨hid, hrefs⟩ := Bound.binding_of_copies _ [6] rfl rfl (by simp)
      (by simp) hc
    exact ⟨⟨hid, trivial⟩, hrefs⟩

namespace View

/-- What a read-only view keeps. -/
def ReadOnly (v : View) : Prop :=
  v.cls = .srv ∧ v.globallyCoherent = false ∧ v.hasCounter = false ∧ v.rasterizerOrdered = false

/-- What a read-write view keeps. -/
def ReadWrite (v : View) : Prop := v.cls = .uav ∧ v.samples = 0

/-- What the fields of both classes mean. -/
def meanings : { ms : List (Meaning (Bound View)) // List.Forall₂ Slot.Lawful View.slots ms } :=
  ⟨_, .cons ((Cell.lawful_member _).field fun _ _ => rfl) <|
    .cons ((Cell.lawful_member _).field fun _ _ => rfl) <|
    .cons ((Cell.lawful_word _).field fun _ _ => rfl) .nil⟩

theorem lawful_srvLayout (pos : Nat) :
    (srvLayout pos).Lawful (Bound.Placed ReadOnly pos) Bound.refs := by
  refine Layout.lawful_of_slots
    (forall₂_append (forall₂_append (Bound.meanings _ _).2 meanings.2)
      (.cons ((Cell.lawful_word _).field fun _ _ => rfl) .nil))
    (by simp [srvLayout, Layout.inOrder, Bound.slots, View.slots, Cell.extra])
    ?_ ?_
  · intro x hx
    refine ⟨by simp [Bound.meanings, meanings, Bound.refs], ?_⟩
    rw [show (srvLayout pos).order = [0, 1, 2, 3, 4, 5] ++ [6, 7, 8, 9] from rfl, List.foldlM_append,
      List.append_assoc, Bound.foldlM_meanings hx.1]
    obtain ⟨b, v⟩ := x
    obtain ⟨-, hcls, hcoherent, hcounter, hordered⟩ := hx
    cases v
    cases hcls
    cases hcoherent
    cases hcounter
    cases hordered
    rfl
  · intro live minor x hc
    rw [List.append_assoc] at hc
    obtain ⟨hid, hrefs⟩ := Bound.binding_of_copies _ [6, 7, 8, 9] (List.append_assoc _ _ _) rfl (by simp)
      (by simp [meanings]) hc
    have hblank := Bound.blank_of_copies
      (fun v : View => (v.cls, v.globallyCoherent, v.hasCounter, v.rasterizerOrdered))
      (by simp [meanings]) hc
    simp only [Prod.mk.injEq] at hblank
    exact ⟨⟨hid, hblank⟩, hrefs⟩

theorem lawful_uavLayout (pos : Nat) :
    (uavLayout pos).Lawful (Bound.Placed ReadWrite pos) Bound.refs := by
  refine Layout.lawful_of_slots
    (forall₂_append (forall₂_append (Bound.meanings _ _).2 meanings.2)
      (.cons ((Cell.lawful_bool _).field fun _ _ => rfl) <|
        .cons ((Cell.lawful_bool _).field fun _ _ => rfl) <|
        .cons (((Cell.lawful_bool _).field fun _ _ => rfl).added 1) .nil))
    (by simp [uavLayout, Bound.slots, View.slots, Cell.extra, Version.current]) ?_ ?_
  · intro x hx
    refine ⟨by simp [Bound.meanings, meanings, Bound.refs], ?_⟩
    rw [show (uavLayout pos).order = [0, 1, 2, 3, 4, 5] ++ [11, 6, 7, 8, 9, 10] from rfl,
      List.foldlM_append, List.append_assoc, Bound.foldlM_meanings hx.1]
    obtain ⟨b, v⟩ := x
    obtain ⟨-, hcls, hsamples⟩ := hx
    cases v
    cases hcls
    cases hsamples
    rfl
  · intro live minor x hc
    rw [List.append_assoc] at hc
    obtain ⟨hid, hrefs⟩ := Bound.binding_of_copies _ [11, 6, 7, 8, 9, 10] (List.append_assoc _ _ _) rfl
      (by simp) (by simp [meanings]) hc
    have hblank := Bound.blank_of_copies (fun v : View => (v.cls, v.samples))
      (by simp [meanings]) hc
    simp only [Prod.mk.injEq] at hblank
    exact ⟨⟨hid, hblank⟩, hrefs⟩

end View

/-- Every record of the four lists carries its position as id, and views are as their class keeps
them. -/
structure Registry.Placed (r : Registry) : Prop where
  cbuffers : allShape (Bound.Placed anyShape) r.cbuffers
  samplers : allShape (Bound.Placed anyShape) r.samplers
  srvs     : allShape (Bound.Placed View.ReadOnly) r.srvs
  uavs     : allShape (Bound.Placed View.ReadWrite) r.uavs

def Registry.refs (r : Registry) : List Entity := r.globals.map .global

theorem Registry.refs_eq (r : Registry) :
    r.refs = r.cbuffers.flatMap Bound.refs ++ r.samplers.flatMap Bound.refs ++
      r.srvs.flatMap Bound.refs ++ r.uavs.flatMap Bound.refs := by
  have h : ∀ {π : Type} (xs : List (Bound π)),
      (xs.map fun x => x.global).map Entity.global = xs.flatMap Bound.refs := by
    intro π xs
    rw [List.map_map, ← List.flatMap_pure_eq_map]
    rfl
  simp only [refs, globals, List.map_append, h]

theorem Registry.lawful_layout : Registry.layout.Lawful Placed refs := by
  refine Layout.lawful_of_slots
    (.cons ((Cell.lawful_list _ View.lawful_srvLayout).late.field fun _ _ => rfl) <|
      .cons ((Cell.lawful_list _ View.lawful_uavLayout).late.field fun _ _ => rfl) <|
      .cons ((Cell.lawful_list _ ConstantBuffer.lawful_layout).late.field fun _ _ => rfl) <|
      .cons ((Cell.lawful_list _ Sampler.lawful_layout).late.field fun _ _ => rfl) .nil)
    (by decide) ?_ ?_
  · intro x hx
    refine ⟨?_, rfl⟩
    simp +contextual [hx.cbuffers, hx.samplers, hx.srvs, hx.uavs, refs_eq, or_imp]
  · intro live minor x hc
    obtain ⟨hs, hsr⟩ := Layout.field_of_copies [] 0 [1, 2, 3] hc rfl (by decide) rfl
      (by simp) fun _ _ => rfl
    obtain ⟨hu, hur⟩ := Layout.field_of_copies [0] 1 [2, 3] hc rfl (by decide) rfl
      (by simp) fun _ _ => rfl
    obtain ⟨hb, hbr⟩ := Layout.field_of_copies [0, 1] 2 [3] hc rfl (by decide) rfl
      (by simp) fun _ _ => rfl
    obtain ⟨hp, hpr⟩ := Layout.field_of_copies [0, 1, 2] 3 [] hc rfl (by decide) rfl
      (by simp) fun _ _ => rfl
    refine ⟨⟨hb, hp, hs, hu⟩, ?_⟩
    intro e he
    simp only [refs_eq, List.mem_append] at he
    rcases he with ((he | he) | he) | he
    · exact hbr e he
    · exact hpr e he
    · exact hsr e he
    · exact hur e he

/-! ## Stage properties -/

/-- The stage is in the header of every record and is not read with the rest. -/
theorem StageProps.lawful_stageSlot {ρ : Type} (stage : Stage) :
    (Slot.mk 0 (fun _ => pure (Cell.wordOperand (Numbered.code stage)))
      (fun _ _ x => .ok x) : Slot ρ).Lawful .idle where
  growing_parts _ := .pure _
  growing_operand _ _ := Cell.growing_wordOperand _
  keeps x y z p q _ hz _ s _ _ _ := hz
  reads s op y z hz := ⟨y, trivial, by simp, hz⟩

/-- What the header means: the function. -/
def StageProps.meanings {σ : Type} (stage : Stage) :
    { ms : List (Meaning (Handle .function × σ)) //
      List.Forall₂ Slot.Lawful (StageProps.header stage) ms } :=
  ⟨_, .cons ((Cell.lawful_function _).field fun _ _ => rfl) <|
    .cons (lawful_stageSlot stage) .nil⟩

/-- One entry of a vector is a part of a record. -/
theorem Cell.Lawful.entry {α ρ : Type} {n : Nat} {c : Cell α} {shape : α → Prop} {refs : α → List Entity}
    (hc : c.Lawful shape refs) {view : ρ → Vector α n} {update : ρ → Vector α n → ρ} {i : Fin n}
    (hv : ∀ x v, view (update x v) = v) :
    (c.entry view update i).Lawful
      (.field shape refs (fun x => getElem (view x) i i.isLt) fun x a => update x ((view x).set i a i.isLt)) := by
  refine hc.field ?_
  intro x a
  simp [hv]

namespace StageProps

variable {σ : Type} {stage : Stage} {ms : List (Meaning σ)}

/-- Copying what comes after the header copies the properties and leaves the function alone. -/
theorem copyAt_second (x y : Handle .function × σ) (i : Nat) :
    Slot.copyAt ((meanings stage).1 ++ ms.map Meaning.second) x y (i + 2) =
      (fun z => (y.1, z)) <$> Slot.copyAt ms x.2 y.2 i := by
  unfold Slot.copyAt
  rw [List.getElem?_append_right (by simp [meanings])]
  rw [show i + 2 - (meanings (σ := σ) stage).1.length = i from rfl, List.getElem?_map]
  cases ms[i]? with
  | none => rfl
  | some m => rfl

theorem foldlM_second (x : Handle .function × σ) (is : List Nat) (y z : Handle .function × σ)
    (h : is.foldlM (Slot.copyAt ms x.2) y.2 = .ok z.2) (hf : z.1 = y.1) :
    (is.map (· + 2)).foldlM (Slot.copyAt ((meanings stage).1 ++ ms.map Meaning.second) x) y = .ok z := by
  induction is generalizing y with
  | nil =>
    have : z = y := Prod.ext hf (Except.ok.inj h).symm
    rw [this]
    rfl
  | cons i is ih =>
    obtain ⟨w, hw, h⟩ := bind_eq_ok.1 h
    refine bind_eq_ok.2 ⟨(y.1, w), ?_, ih (y.1, w) h hf⟩
    rw [copyAt_second, hw]
    rfl

theorem copies_second {live : Entity → Prop} {k : Nat} {is : List Nat} {y z : Handle .function × σ}
    (h : Slot.Copies (((meanings stage).1 ++ ms.map Meaning.second).take (2 + k)) live
      (is.map (· + 2)) y z) :
    z.1 = y.1 ∧ Slot.Copies (ms.take k) live is y.2 z.2 := by
  have htake : ((meanings stage).1 ++ ms.map Meaning.second).take (2 + k) =
      (meanings (σ := σ) stage).1 ++ (ms.take k).map Meaning.second := by
    have hlen : (meanings (σ := σ) stage).1.length = 2 := rfl
    rw [List.take_append, List.map_take, hlen, List.take_of_length_le (by omega), Nat.add_sub_cancel_left]
  rw [htake] at h
  induction is generalizing y with
  | nil =>
    cases h
    exact ⟨rfl, rfl⟩
  | cons i is ih =>
    obtain ⟨w, hsome, hnone, h⟩ := h
    obtain ⟨hf, hz⟩ := ih h
    have hget : ((meanings (σ := σ) stage).1 ++ (ms.take k).map Meaning.second)[i + 2]? =
        (ms.take k)[i]?.map Meaning.second := by
      rw [List.getElem?_append_right (by simp [meanings]),
        show i + 2 - (meanings (σ := σ) stage).1.length = i from rfl, List.getElem?_map]
    rw [hget] at hsome hnone
    have hw : w.1 = y.1 := by
      cases hi : (ms.take k)[i]? with
      | none =>
        rw [hi] at hnone
        rw [hnone rfl]
      | some m =>
        rw [hi] at hsome
        obtain ⟨x, -, -, hcopy⟩ := hsome _ rfl
        obtain ⟨v, -, rfl⟩ := map_eq_ok.1 hcopy
        rfl
    refine ⟨hf.trans hw, w.2, ?_, ?_, hz⟩
    · intro m hm
      rw [hm] at hsome
      obtain ⟨x, hx, he, hcopy⟩ := hsome _ rfl
      obtain ⟨v, hv, rfl⟩ := map_eq_ok.1 hcopy
      exact ⟨x.2, hx, he, hv⟩
    · intro hm
      rw [hm] at hnone
      rw [hnone rfl]

/-- The stage of a record is found in its header. -/
theorem readStage_write {l : Layout (Handle .function × σ)} {fs : List (Slot (Handle .function × σ))}
    {ms : List (Meaning (Handle .function × σ))} (hslots : l.slots = header stage ++ fs)
    (hs : List.Forall₂ Slot.Lawful l.slots ms) (x : Handle .function × σ) (p : Program) :
    (l.write x p).2.Keeps [] (fun s => readStage s (l.write x p).1) stage := by
  obtain ⟨ops, hnode, hlen, hops⟩ := Layout.write_eq (Layout.growing_of_lawful hs) x p
  intro s hext _ _
  refine bind_eq_ok.2 ⟨ops, Source.operands_eq (hext.node? hnode), ?_⟩
  have htwo : 2 ≤ ops.length := by
    rw [hlen, hslots]
    exact Nat.le_add_left 2 fs.length
  match ops, htwo with
  | _ :: op :: _, _ =>
    obtain ⟨p₀, q₀, -, heq, hw⟩ := hops 1 _ op (by rw [hslots]; rfl) rfl
    rw [heq]
    exact Cell.member_wordOperand stage q₀ (hw.trans hext) _

/-- The law of the layout of a stage: that of layouts, and that the stage is found. -/
structure Lawful (stage : Stage) (l : Layout (Handle .function × σ)) (refs : σ → List Entity) :
    Prop extends Layout.Lawful l anyShape fun e => .function e.1 :: refs e.2 where
  readStage_eq : ∀ x p, (l.write x p).2.Keeps [] (fun s => readStage s (l.write x p).1) stage

section

variable {l : Layout (Handle .function × σ)} {l₂ : Layout σ}
  (hslots : l.slots = header stage ++ l₂.slots.map Slot.second)
  (horder : l.order = [0, 1] ++ l₂.order.map (· + 2)) (hblank : l.blank.2 = l₂.blank)

include hslots

theorem forall₂_lawful_second (hs : List.Forall₂ Slot.Lawful l₂.slots ms) :
    List.Forall₂ Slot.Lawful l.slots ((meanings stage).1 ++ ms.map Meaning.second) := by
  rw [hslots]
  refine forall₂_append (meanings stage).2 ?_
  rw [List.forall₂_map_left_iff, List.forall₂_map_right_iff]
  exact hs.imp fun _ _ h => h.second

/-- The header is there in every version. -/
theorem since_le_current (hsince : ∀ f ∈ l₂.slots, f.since ≤ Version.current.minor) :
    ∀ f ∈ l.slots, f.since ≤ Version.current.minor := by
  rw [hslots]
  intro f hf
  rcases List.mem_append.1 hf with hf | hf
  · have : f.since = 0 := by
      clear * - hf
      revert f
      simp [header]
    rw [this]
    exact UInt32.zero_le
  · obtain ⟨g, hg, rfl⟩ := List.mem_map.1 hf
    exact hsince g hg

theorem arity_eq_two_add (minor : UInt32) : l.arity minor = 2 + l₂.arity minor := by
  rw [Layout.arity, hslots, List.countP_append, List.countP_map]
  have : (header (σ := σ) stage).countP (fun f => f.since ≤ minor) = 2 := by
    simp [header]
  rw [this]
  rfl

include horder hblank

omit hslots in
/-- Copying a record slot by slot gives the record, if copying its properties gives the properties. -/
theorem foldlM_copyAt_eq_ok {x : Handle .function × σ}
    (hfit : l₂.order.foldlM (Slot.copyAt ms x.2) l₂.blank = .ok x.2) :
    l.order.foldlM (Slot.copyAt ((meanings stage).1 ++ ms.map Meaning.second) x) l.blank = .ok x := by
  rw [horder, List.foldlM_append]
  refine bind_eq_ok.2 ⟨(x.1, l₂.blank), ?_, foldlM_second x _ _ _ hfit rfl⟩
  rw [← hblank]
  rfl

/-- A record that is read is of a function that is there, and its properties are copied like a layout of
their own. -/
theorem copies_properties {live : Entity → Prop} {minor : UInt32} {z : Handle .function × σ}
    (hc : Slot.Copies (((meanings stage).1 ++ ms.map Meaning.second).take (l.arity minor)) live l.order
      l.blank z) :
    live (.function z.1) ∧ Slot.Copies (ms.take (l₂.arity minor)) live l₂.order l₂.blank z.2 := by
  rw [arity_eq_two_add hslots, horder] at hc
  obtain ⟨w, hw, -, v, hv, -, hc⟩ := hc
  obtain ⟨hf, hz⟩ := copies_second hc
  have htake : ∀ (i : Nat) m, (meanings (σ := σ) stage).1[i]? = some m →
      (((meanings stage).1 ++ ms.map Meaning.second).take (2 + l₂.arity minor))[i]? = some m := by
    intro i m hm
    have hi : i < 2 := (List.getElem?_eq_some_iff.1 hm).1
    rw [List.getElem?_take_of_lt (by omega), List.getElem?_append_left hi]
    exact hm
  -- The first slot of the header copies the function, the second one copies nothing.
  obtain ⟨x, -, hx, hxw⟩ := hw _ (htake 0 _ rfl)
  obtain ⟨_, -, -, hwv⟩ := hv _ (htake 1 _ rfl)
  cases hxw
  cases hwv
  refine ⟨?_, hblank ▸ hz⟩
  rw [hf]
  exact hx _ List.mem_cons_self

end

/-- The law of the properties of a stage, from the slots that follow the header taken as a layout of
their own. -/
theorem lawful_layout {l : Layout (Handle .function × σ)} (l₂ : Layout σ) (refs : σ → List Entity)
    (hslots : l.slots = header stage ++ l₂.slots.map Slot.second)
    (horder : l.order = [0, 1] ++ l₂.order.map (· + 2)) (hblank : l.blank.2 = l₂.blank)
    (hs : List.Forall₂ Slot.Lawful l₂.slots ms)
    (hsince : ∀ f ∈ l₂.slots, f.since ≤ Version.current.minor)
    (hfit : ∀ x, (∀ m ∈ ms, m.shape x ∧ ∀ e ∈ m.refs x, e ∈ refs x) ∧
      l₂.order.foldlM (Slot.copyAt ms x) l₂.blank = .ok x)
    (hread : ∀ live minor z, Slot.Copies (ms.take (l₂.arity minor)) live l₂.order l₂.blank z →
      ∀ e ∈ refs z, live e) :
    Lawful stage l refs := by
  have hall := forall₂_lawful_second hslots hs
  refine ⟨Layout.lawful_of_slots hall (since_le_current hslots hsince) ?_ ?_, readStage_write hslots hall⟩
  · intro x _
    refine ⟨?_, foldlM_copyAt_eq_ok horder hblank (hfit x.2).2⟩
    intro m hm
    rcases List.mem_append.1 hm with hm | hm
    · clear * - hm
      revert m
      simp [meanings]
    · obtain ⟨n, hn, rfl⟩ := List.mem_map.1 hm
      obtain ⟨hshape, hrefs⟩ := (hfit x.2).1 n hn
      exact ⟨hshape, fun e he => List.mem_cons_of_mem _ (hrefs e he)⟩
  · intro live minor z hc
    obtain ⟨hfunction, hz⟩ := copies_properties hslots horder hblank hc
    refine ⟨trivial, ?_⟩
    intro e he
    rcases List.mem_cons.1 he with rfl | he
    · exact hfunction
    · exact hread live minor z.2 hz e he

/-- The law of the properties of a stage that refer to nothing. -/
theorem lawful_plainLayout {l : Layout (Handle .function × σ)} (l₂ : Layout σ)
    (hslots : l.slots = header stage ++ l₂.slots.map Slot.second)
    (horder : l.order = [0, 1] ++ l₂.order.map (· + 2)) (hblank : l.blank.2 = l₂.blank)
    (hs : List.Forall₂ Slot.Lawful l₂.slots ms)
    (hsince : ∀ f ∈ l₂.slots, f.since ≤ Version.current.minor)
    (hfit : ∀ x, (∀ m ∈ ms, m.shape x ∧ ∀ e ∈ m.refs x, e ∈ noRefs x) ∧
      l₂.order.foldlM (Slot.copyAt ms x) l₂.blank = .ok x) :
    Lawful stage l noRefs :=
  lawful_layout l₂ noRefs hslots horder hblank hs hsince hfit fun _ _ _ _ => by simp

end StageProps

theorem PixelProps.lawful_layout : StageProps.Lawful .pixel layout noRefs :=
  StageProps.lawful_plainLayout ⟨"", _, [0], .initial⟩ rfl rfl rfl
    (.cons ((Cell.lawful_bool _).field fun _ _ => rfl) .nil)
    (by decide) fun _ => ⟨by simp, rfl⟩

theorem DomainProps.lawful_layout : StageProps.Lawful .domain layout noRefs :=
  StageProps.lawful_plainLayout ⟨"", _, [0, 1], .initial⟩ rfl rfl rfl
    (.cons ((Cell.lawful_member _).field fun _ _ => rfl) <|
      .cons ((Cell.lawful_word _).field fun _ _ => rfl) .nil)
    (by decide) fun _ => ⟨by simp, rfl⟩

/-- A hull shader refers to its patch-constant function as well. -/
theorem HullProps.lawful_layout :
    StageProps.Lawful .hull layout fun x => x.patchConstant.toList.map .function := by
  refine StageProps.lawful_layout ⟨"", _, [0, 1, 2, 3, 4, 5, 6], HullProps.initial⟩
    (fun x => x.patchConstant.toList.map .function) rfl rfl rfl
    (.cons ((Cell.lawful_optionalFunction _).field fun _ _ => rfl) <|
      .cons ((Cell.lawful_member _).field fun _ _ => rfl) <|
      .cons ((Cell.lawful_member _).field fun _ _ => rfl) <|
      .cons ((Cell.lawful_member _).field fun _ _ => rfl) <|
      .cons ((Cell.lawful_word _).field fun _ _ => rfl) <|
      .cons ((Cell.lawful_word _).field fun _ _ => rfl) <|
      .cons (((Cell.lawful_single _).field fun _ _ => rfl).added 1) .nil)
    (by decide) ?_ ?_
  · intro x
    exact ⟨by simp, rfl⟩
  · intro live minor x hc
    exact (Layout.field_of_copies [] 0 [1, 2, 3, 4, 5, 6] hc rfl (by decide) rfl
        (by simp) fun _ _ => rfl).2

theorem ComputeProps.lawful_layout : StageProps.Lawful .compute layout noRefs := by
  refine StageProps.lawful_plainLayout ⟨"", _, [0, 1, 2], ComputeProps.initial⟩ rfl rfl rfl
    (.cons ((Cell.lawful_word _).entry fun _ _ => rfl) <|
      .cons ((Cell.lawful_word _).entry fun _ _ => rfl) <|
      .cons ((Cell.lawful_word _).entry fun _ _ => rfl) .nil)
    (by decide) ?_
  rintro ⟨⟨⟨xs⟩, hxs⟩⟩
  refine ⟨by simp, ?_⟩
  match xs, hxs with
  | [a, b, c], _ => rfl

theorem GeometryProps.lawful_layout : StageProps.Lawful .geometry layout noRefs := by
  refine StageProps.lawful_plainLayout ⟨"", _, [3, 4, 5, 6, 0, 1, 2], GeometryProps.initial⟩ rfl rfl rfl
    (.cons ((Cell.lawful_member _).field fun _ _ => rfl) <|
      .cons ((Cell.lawful_word _).field fun _ _ => rfl) <|
      .cons ((Cell.lawful_word _).field fun _ _ => rfl) <|
      .cons ((Cell.lawful_member _).entry fun _ _ => rfl) <|
      .cons ((Cell.lawful_member _).entry fun _ _ => rfl) <|
      .cons ((Cell.lawful_member _).entry fun _ _ => rfl) <|
      .cons ((Cell.lawful_member _).entry fun _ _ => rfl) .nil)
    (by decide) ?_
  rintro ⟨i, m, n, ⟨xs⟩, hxs⟩
  refine ⟨by simp, ?_⟩
  match xs, hxs with
  | [a, b, c, d], _ => rfl

theorem VertexProps.mem_refs {v : Vector (Option (Handle .global)) planeCount} {e : Entity} :
    e ∈ (v.toList.filterMap id).map .global ↔ ∃ g, some g ∈ v ∧ e = .global g := by
  simp [eq_comm]

/-- What the slot of a clip plane means. -/
def VertexProps.meaning (i : Fin planeCount) : Meaning VertexProps :=
  .field anyShape (fun h => h.toList.map .global) (fun x => x.clipPlanes[i])
    fun x a => ⟨x.clipPlanes.set i a⟩

/-- A vertex shader refers to its clip planes as well. -/
theorem VertexProps.lawful_layout :
    StageProps.Lawful .vertex layout fun x => (x.clipPlanes.toList.filterMap id).map .global := by
  let planes : Layout VertexProps :=
    ⟨"", (List.finRange planeCount).map ((Cell.optionalGlobal "clip plane").entry (·.clipPlanes)
      fun x v => { x with clipPlanes := v }), [0, 1, 2, 3, 4, 5], .initial⟩
  have hs : List.Forall₂ Slot.Lawful planes.slots ((List.finRange planeCount).map meaning) := by
    rw [List.forall₂_map_left_iff, List.forall₂_map_right_iff, List.forall₂_same]
    intro i _
    exact (Cell.lawful_optionalGlobal _).entry fun _ _ => rfl
  refine StageProps.lawful_layout planes (fun x => (x.clipPlanes.toList.filterMap id).map .global)
    rfl rfl rfl hs ?_ ?_ ?_
  · intro f hf
    obtain ⟨i, -, rfl⟩ := List.mem_map.1 hf
    exact UInt32.zero_le
  · intro x
    constructor
    · intro m hm
      obtain ⟨i, -, rfl⟩ := List.mem_map.1 hm
      refine ⟨trivial, fun e he => ?_⟩
      obtain ⟨g, hg, rfl⟩ := List.mem_map.1 he
      exact mem_refs.2 ⟨g, Option.mem_toList.1 hg ▸ Vector.getElem_mem _, rfl⟩
    · obtain ⟨⟨⟨xs⟩, hxs⟩⟩ := x
      match xs, hxs with
      | [a, b, c, d, e, f], _ => rfl
  · intro live minor x hc
    refine Layout.invariant_of_copies
      (P := fun x => ∀ e ∈ (x.clipPlanes.toList.filterMap id).map Entity.global, live e) ?_ hc ?_
    · intro m hm x y z _ he hz hy e hmem
      obtain ⟨i, -, rfl⟩ := List.mem_map.1 hm
      cases hz
      obtain ⟨g, hg, rfl⟩ := mem_refs.1 hmem
      have hg : some g ∈ y.clipPlanes.set i x.clipPlanes[i] := hg
      rcases Vector.mem_or_eq_of_mem_set hg with hg | hg
      · exact hy _ (mem_refs.2 ⟨g, hg, rfl⟩)
      · exact he _ (List.mem_map.2 ⟨g, Option.mem_toList.2 hg.symm, rfl⟩)
    · intro e he
      obtain ⟨g, hg, -⟩ := mem_refs.1 he
      exact absurd hg (by simp [planes, VertexProps.initial])

namespace StageProps

variable {σ : Type} {stage : Stage}

/-- The entities that the properties of a function refer to, the function first. -/
def refs (e : Handle .function × StageProps) : List Entity :=
  (e.1 :: e.2.functions).map .function ++ e.2.globals.map .global

theorem growing_write (f : Handle .function) (x : StageProps) : Build.Growing (write f x) := by
  cases x with
  | compute props => exact ComputeProps.lawful_layout.growing (f, props)
  | geometry props => exact GeometryProps.lawful_layout.growing (f, props)
  | hull props => exact HullProps.lawful_layout.growing (f, props)
  | domain props => exact DomainProps.lawful_layout.growing (f, props)
  | vertex props => exact VertexProps.lawful_layout.growing (f, props)
  | pixel props => exact PixelProps.lawful_layout.growing (f, props)

/-- The properties of a function are kept. -/
theorem keeps_write (f : Handle .function) (x : StageProps) (p : Program) :
    (write f x p).2.Keeps (refs (f, x)) (fun s => read s (write f x p).1) (f, x) := by
  intro s hext hm he
  have key : ∀ {σ : Type} {stage : Stage} {l : Layout (Handle .function × σ)} {rs : σ → List Entity}
      {y : σ}, Lawful stage l rs → write f x = l.write (f, y) →
      (∀ e ∈ Entity.function f :: rs y, e ∈ refs (f, x)) →
      readStage s (write f x p).1 = .ok stage ∧ l.read s (write f x p).1 = .ok (f, y) := by
    intro σ stage l rs y hl hw hrefs
    rw [hw] at hext ⊢
    exact ⟨hl.readStage_eq (f, y) p s hext hm (by simp),
      hl.keeps (f, y) p trivial s hext hm fun e h => he e (hrefs e h)⟩
  cases x with
  | compute props =>
    obtain ⟨hs, hr⟩ := key ComputeProps.lawful_layout rfl (by simp [refs])
    simp only [read, hs, hr, bind, Except.bind]
    rfl
  | geometry props =>
    obtain ⟨hs, hr⟩ := key GeometryProps.lawful_layout rfl (by simp [refs])
    simp only [read, hs, hr, bind, Except.bind]
    rfl
  | hull props =>
    obtain ⟨hs, hr⟩ := key HullProps.lawful_layout rfl (by simp +contextual [refs, functions])
    simp only [read, hs, hr, bind, Except.bind]
    rfl
  | domain props =>
    obtain ⟨hs, hr⟩ := key DomainProps.lawful_layout rfl (by simp [refs])
    simp only [read, hs, hr, bind, Except.bind]
    rfl
  | vertex props =>
    obtain ⟨hs, hr⟩ := key VertexProps.lawful_layout rfl (by simp [refs, functions, globals])
    simp only [read, hs, hr, bind, Except.bind]
    rfl
  | pixel props =>
    obtain ⟨hs, hr⟩ := key PixelProps.lawful_layout rfl (by simp [refs])
    simp only [read, hs, hr, bind, Except.bind]
    rfl

/-- Properties that can be read refer to entities of the program only. -/
theorem reads_refs {s : Source} {h : Handle .node} {e : Handle .function × StageProps}
    (hr : read s h = .ok e) : ∀ r ∈ refs e, s.program.has r := by
  obtain ⟨stage, -, hr⟩ := bind_eq_ok.1 hr
  have key : ∀ {σ : Type} {stage : Stage} {l : Layout (Handle .function × σ)} {rs : σ → List Entity}
      {make : σ → StageProps}, Lawful stage l rs → Prod.map id make <$> l.read s h = .ok e →
      (∀ y, ∀ r ∈ refs (e.1, make y), r ∈ Entity.function e.1 :: rs y) →
      ∀ r ∈ refs e, s.program.has r := by
    intro σ stage l rs make hl hread hrefs r hmem
    obtain ⟨⟨f, y⟩, hy, rfl⟩ := map_eq_ok.1 hread
    exact (hl.reads s h (f, y) hy).2 r (hrefs y r hmem)
  cases stage with
  | compute => exact key ComputeProps.lawful_layout hr (by simp [refs, functions, globals])
  | geometry => exact key GeometryProps.lawful_layout hr (by simp [refs, functions, globals])
  | hull => exact key HullProps.lawful_layout hr (by simp [refs, functions, globals])
  | domain => exact key DomainProps.lawful_layout hr (by simp [refs, functions, globals])
  | vertex => exact key VertexProps.lawful_layout hr (by simp [refs, functions, globals])
  | pixel => exact key PixelProps.lawful_layout hr (by simp [refs, functions, globals])

end StageProps

end ShaderModule

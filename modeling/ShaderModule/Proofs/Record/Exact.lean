import ShaderModule.Proofs.Record.Records
import ShaderModule.Proofs.Record.Stable

/-!
# The layouts are exact

Every record of the schema is written the same way again, and leads to just the entities that it refers
to: what the check for dangling references looks at is what is written.
-/

namespace ShaderModule

/-! ## Records that refer to nothing -/

theorem Version.exact_layout : Version.layout.Exact noRefs :=
  Layout.exact_of_slots (.cons (Cell.exact_word _).field <| .cons (Cell.exact_word _).field .nil) (by simp)

theorem Options.exact_layout : Options.layout.Exact noRefs :=
  Layout.exact_of_slots (.cons (Cell.exact_word _).field .nil) (by simp)

theorem exact_rootSignatureLayout : rootSignatureLayout.Exact noRefs :=
  Layout.exact_of_slots (.cons (Cell.exact_bytes _).field .nil) (by simp)

theorem Cell.exact_stage : Cell.stage.Exact noRefs := exact_text

theorem Profile.exact_layout : Profile.layout.Exact noRefs :=
  Layout.exact_of_slots
    (.cons Cell.exact_stage.field <| .cons (Cell.exact_word _).field <| .cons (Cell.exact_word _).field .nil)
    (by simp)

theorem FieldInfo.exact_layout : FieldInfo.layout.Exact noRefs :=
  Layout.exact_of_slots
    (.cons (Cell.exact_string _).field <|
      .cons (Cell.exact_word _).field <|
      .cons (Cell.exact_member _).field <|
      .cons (Cell.exact_member _).field <|
      .cons (Cell.exact_optionalString _).field <|
      .cons (Cell.exact_bool _).field .nil)
    (by simp)

theorem ParamInfo.exact_layout : ParamInfo.layout.Exact noRefs :=
  Layout.exact_of_slots
    (.cons (Cell.exact_member _).field <|
      .cons (Cell.exact_optionalString _).field <|
      .cons (Cell.exact_member _).field <|
      .cons (Cell.exact_bool _).field <|
      .cons ((Cell.exact_member _).field.added 1) .nil)
    (by simp)

theorem StructInfo.exact_layout : StructInfo.layout.Exact noRefs :=
  Layout.exact_of_slots
    (.cons (Cell.exact_placeholder _).field <|
      .cons (Cell.exact_word _).field <|
      .cons (Cell.exact_list fun _ => FieldInfo.exact_layout).field .nil)
    (by simp)

theorem ResourceTypes.exact_layout : ResourceTypes.layout.Exact noRefs :=
  Layout.exact_of_slots
    (.cons (Cell.exact_placeholder _).field <|
      .cons (Cell.exact_member _).field <| .cons (Cell.exact_member _).field .nil)
    (by simp)

theorem Cell.exact_words (whole each : String) : (words whole each).Exact noRefs := by
  have hword : ∀ n, Build.Stable (wordOperand n) := fun n => stable_constantOperand (Build.stable_int _ _)
  refine exact_plain (fun ns => .bind (.mapM fun n _ => hword n) fun _ => .bind (Build.stable_node _) fun _ =>
    .pure _) ?_
  intro ns p q hq e
  have hnode := Build.node?_node (.tuple (ns.mapM wordOperand p).1) (ns.mapM wordOperand p).2
  refine (Program.leads_tuple (hq.node? hnode)).trans (iff_of_false ?_ List.not_mem_nil)
  rintro ⟨op, hop, hl⟩
  obtain ⟨n, -, r, -, hr, rfl⟩ := exists_forall₂ (Build.made_mapM (fun n _ => (hword n).growing) p) hop
  have hgrow := Build.growing_node (.tuple (ns.mapM wordOperand p).1) (ns.mapM wordOperand p).2
  exact leads_constantOperand _ r q (hr.toExtends.trans (hgrow.toExtends.trans hq)) e hl

theorem Element.exact_layout (kind : SignatureKind) (pos : Nat) : (Element.layout kind pos).Exact noRefs :=
  Layout.exact_of_slots
    (.cons (Cell.exact_word _).field <|
      .cons (Cell.exact_string _).field <|
      .cons (Cell.exact_member _).field <|
      .cons (Cell.exact_member _).field <|
      .cons (Cell.exact_words _ _).early.field <|
      .cons (Cell.exact_member _).field <|
      .cons (Cell.exact_word _).field <|
      .cons (Cell.exact_word _).field <|
      .cons (Cell.exact_optionalWord _).field <|
      .cons (Cell.exact_optionalWord _).field <|
      .cons ((Cell.exact_word _).field.checked _) .nil)
    (by simp)

theorem Signature.exact_cell (kind : SignatureKind) : (Signature.cell kind).Exact (·.flatMap noRefs) :=
  (Cell.exact_list (Element.exact_layout kind)).late

theorem Signatures.exact_layout : Signatures.layout.Exact noRefs :=
  Layout.exact_of_slots
    (.cons (Signature.exact_cell _).field <|
      .cons (Signature.exact_cell _).field <| .cons (Signature.exact_cell _).field .nil)
    (by simp)

/-! ## Records that refer to entities -/

theorem EntryPoint.exact_layout : EntryPoint.layout.Exact refs :=
  Layout.exact_of_slots
    (.cons (Cell.exact_optionalFunction _).field <|
      .cons (Cell.exact_string _).field <|
      .cons (Cell.exact_record _ Signatures.exact_layout).early.field .nil)
    (by simp [refs])

theorem FunctionInfo.exact_layout : FunctionInfo.layout.Exact fun e => [.function e.1] :=
  Layout.exact_of_slots
    (.cons (Cell.exact_function _).field <|
      .cons (Cell.exact_record _ ParamInfo.exact_layout).field <|
      .cons (Cell.exact_list fun _ => ParamInfo.exact_layout).field .nil)
    (by simp)

/-! ### Resources -/

namespace Bound

variable {π : Type}

/-- What the fields of a binding lead to: its global. -/
def fieldRefs : List (Bound π → List Entity) :=
  [fun _ => [], refs, fun _ => [], fun _ => [], fun _ => [], fun _ => []]

theorem exact_slots (cls : ResourceClass) (pos : Nat) :
    List.Forall₂ Slot.Exact (slots cls pos : List (Slot (Bound π))) fieldRefs :=
  .cons (Cell.exact_word _).field <|
    .cons (Cell.exact_global _).field <|
    .cons (Cell.exact_string _).field <|
    .cons (Cell.exact_word _).field <|
    .cons (Cell.exact_word _).field <|
    .cons ((Cell.exact_word _).field.checked _) .nil

end Bound

theorem ConstantBuffer.exact_layout (pos : Nat) : (ConstantBuffer.layout pos).Exact Bound.refs :=
  Layout.exact_of_slots (forall₂_append (Bound.exact_slots _ _) (.cons (Cell.exact_word _).field .nil))
    (by simp [Bound.fieldRefs])

theorem Sampler.exact_layout (pos : Nat) : (Sampler.layout pos).Exact Bound.refs :=
  Layout.exact_of_slots (forall₂_append (Bound.exact_slots _ _) (.cons (Cell.exact_member _).field .nil))
    (by simp [Bound.fieldRefs])

namespace View

theorem exact_slots : List.Forall₂ Slot.Exact View.slots
    [fun _ => [], fun _ => [], fun _ => []] :=
  .cons (Cell.exact_member _).field <| .cons (Cell.exact_member _).field <|
    .cons (Cell.exact_word _).field .nil

theorem exact_srvLayout (pos : Nat) : (srvLayout pos).Exact Bound.refs :=
  Layout.exact_of_slots
    (forall₂_append (forall₂_append (Bound.exact_slots _ _) exact_slots)
      (.cons (Cell.exact_word _).field .nil))
    (by simp [Bound.fieldRefs])

theorem exact_uavLayout (pos : Nat) : (uavLayout pos).Exact Bound.refs :=
  Layout.exact_of_slots
    (forall₂_append (forall₂_append (Bound.exact_slots _ _) exact_slots)
      (.cons (Cell.exact_bool _).field <| .cons (Cell.exact_bool _).field <|
        .cons ((Cell.exact_bool _).field.added 1) .nil))
    (by simp [Bound.fieldRefs])

end View

theorem Bound.exact_cell {π : Type} (cls : ResourceClass) {layout : Nat → Layout (Bound π)}
    (hl : ∀ i, (layout i).Exact refs) : (Bound.cell cls layout).Exact (·.flatMap refs) :=
  (Cell.exact_list hl).late

theorem Registry.exact_layout : Registry.layout.Exact refs :=
  Layout.exact_of_slots
    (.cons (Bound.exact_cell _ View.exact_srvLayout).field <|
      .cons (Bound.exact_cell _ View.exact_uavLayout).field <|
      .cons (Bound.exact_cell _ ConstantBuffer.exact_layout).field <|
      .cons (Bound.exact_cell _ Sampler.exact_layout).field .nil)
    fun x e => by simp [refs_eq, or_comm, or_left_comm]

/-! ### Properties of stages -/

namespace StageProps

variable {σ : Type} {stage : Stage}

theorem exact_header :
    List.Forall₂ Slot.Exact (header stage : List (Slot (Handle .function × σ)))
      [fun x => [.function x.1], fun _ => noRefs stage] := by
  have hstage : (Cell.member "shader kind" : Cell Stage).Exact noRefs := Cell.exact_member _
  exact .cons (Cell.exact_function _).field <|
    .cons ⟨fun _ => .pure _, fun _ p => hstage.operand stage p, fun _ p => hstage.leads stage p⟩ .nil

/-- The properties of a stage are written exactly: they lead to the function and to `refs`. -/
def Exact (l : Layout (Handle .function × σ)) (refs : σ → List Entity) : Prop :=
  l.Exact fun x => .function x.1 :: refs x.2

/-- Besides the function, properties lead to what the fields after the header lead to. -/
theorem exact_layout {slots : List (Slot σ)} {rs : List (σ → List Entity)} {refs : σ → List Entity}
    {l : Layout (Handle .function × σ)} (hslots : l.slots = header stage ++ slots.map Slot.second)
    (hs : List.Forall₂ Slot.Exact slots rs) (hrefs : ∀ x e, e ∈ refs x ↔ ∃ r ∈ rs, e ∈ r x) :
    Exact l refs := by
  have hall : List.Forall₂ Slot.Exact l.slots
      ([fun x => [.function x.1], fun _ => noRefs stage] ++ rs.map fun r x => r x.2) := by
    rw [hslots]
    refine forall₂_append exact_header ?_
    rw [List.forall₂_map_left_iff, List.forall₂_map_right_iff]
    exact hs.imp fun _ _ h => h.second
  refine Layout.exact_of_slots hall ?_
  intro x e
  rw [List.mem_cons, hrefs]
  simp

end StageProps

theorem PixelProps.exact_layout : StageProps.Exact layout noRefs :=
  StageProps.exact_layout rfl (.cons (Cell.exact_bool _).field .nil) (by simp)

theorem DomainProps.exact_layout : StageProps.Exact layout noRefs :=
  StageProps.exact_layout rfl
    (.cons (Cell.exact_member _).field <| .cons (Cell.exact_word _).field .nil) (by simp)

theorem ComputeProps.exact_layout : StageProps.Exact layout noRefs :=
  StageProps.exact_layout rfl
    (.cons (Cell.exact_word _).field <| .cons (Cell.exact_word _).field <|
      .cons (Cell.exact_word _).field .nil)
    (by simp)

theorem GeometryProps.exact_layout : StageProps.Exact layout noRefs :=
  StageProps.exact_layout rfl
    (.cons (Cell.exact_member _).field <|
      .cons (Cell.exact_word _).field <|
      .cons (Cell.exact_word _).field <|
      .cons (Cell.exact_member _).field <|
      .cons (Cell.exact_member _).field <|
      .cons (Cell.exact_member _).field <|
      .cons (Cell.exact_member _).field .nil)
    (by simp)

theorem HullProps.exact_layout :
    StageProps.Exact layout fun x => x.patchConstant.toList.map .function :=
  StageProps.exact_layout rfl
    (.cons (Cell.exact_optionalFunction _).field <|
      .cons (Cell.exact_member _).field <|
      .cons (Cell.exact_member _).field <|
      .cons (Cell.exact_member _).field <|
      .cons (Cell.exact_word _).field <|
      .cons (Cell.exact_word _).field <|
      .cons ((Cell.exact_single _).field.added 1) .nil)
    (by simp)

theorem VertexProps.exact_layout :
    StageProps.Exact layout fun x => (x.clipPlanes.toList.filterMap id).map .global := by
  have hs : List.Forall₂ Slot.Exact
      ((List.finRange planeCount).map ((Cell.optionalGlobal "clip plane").entry (·.clipPlanes)
        fun (x : VertexProps) v => { x with clipPlanes := v }))
      ((List.finRange planeCount).map fun i x => x.clipPlanes[i].toList.map .global) := by
    rw [List.forall₂_map_left_iff, List.forall₂_map_right_iff, List.forall₂_same]
    exact fun i _ => (Cell.exact_optionalGlobal _).field
  refine StageProps.exact_layout (l := layout) rfl hs fun x e => mem_refs.trans ?_
  constructor
  · rintro ⟨g, hg, rfl⟩
    obtain ⟨i, hi, hget⟩ := Vector.getElem_of_mem hg
    exact ⟨_, List.mem_map.2 ⟨⟨i, hi⟩, List.mem_finRange _, rfl⟩, by simp [hget]⟩
  · rintro ⟨r, hr, he⟩
    obtain ⟨i, -, rfl⟩ := List.mem_map.1 hr
    obtain ⟨g, hg, rfl⟩ := List.mem_map.1 he
    exact ⟨g, Option.mem_toList.1 hg ▸ Vector.getElem_mem _, rfl⟩

namespace StageProps

/-- The properties of a function are written the same way again, and lead to what they refer to. -/
theorem exact_write (f : Handle .function) (x : StageProps) :
    Build.Stable (write f x) ∧ ∀ p q, (write f x p).2.Extends q →
      ∀ e, q.Leads (some (write f x p).1) e ↔ e ∈ refs (f, x) := by
  have key : ∀ {σ : Type} {l : Layout (Handle .function × σ)} {rs : σ → List Entity} {y : σ},
      Exact l rs → write f x = l.write (f, y) →
      (∀ e, e ∈ Entity.function f :: rs y ↔ e ∈ refs (f, x)) →
      Build.Stable (write f x) ∧ ∀ p q, (write f x p).2.Extends q →
        ∀ e, q.Leads (some (write f x p).1) e ↔ e ∈ refs (f, x) := by
    intro σ l rs y hl hw hrefs
    rw [hw]
    exact ⟨hl.stable _, fun p q hq e => (hl.leads _ p q hq e).trans (hrefs e)⟩
  cases x with
  | compute props => exact key ComputeProps.exact_layout rfl (by simp [refs, functions, globals])
  | geometry props => exact key GeometryProps.exact_layout rfl (by simp [refs, functions, globals])
  | hull props => exact key HullProps.exact_layout rfl (by simp [refs, functions, globals])
  | domain props => exact key DomainProps.exact_layout rfl (by simp [refs, functions, globals])
  | vertex props => exact key VertexProps.exact_layout rfl (by simp [refs, functions, globals])
  | pixel props => exact key PixelProps.exact_layout rfl (by simp [refs, functions, globals])

end StageProps

end ShaderModule

import ShaderModule.Proofs.Shader.Reachable
import ShaderModule.Shader.ObjectType

/-!
# Names of streams and objects: `is_stream_output_type` / `is_hlsl_object_type`

An output stream is recognised by how the name of its struct begins, an object by the whole name of its class. So a
stream is an object unless its class has a longer name than a stream has, or its name ends like that of a helper of
slicing.
-/

namespace ShaderModule

namespace ObjectType

/-- The classes of output streams. -/
def streamClasses : List String := ["PointStream", "LineStream", "TriangleStream"]

variable {name stream : String} {rest : List Char}

/-- The name of a struct goes on with the rest after the class of a stream. -/
structure OfStream (name stream : String) (rest : List Char) : Prop where
  known : stream ∈ streamClasses
  text  : name.toList = "class.".toList ++ (stream.toList ++ rest)

theorem isStreamName_iff : isStreamName name ↔ ∃ stream rest, OfStream name stream rest := by
  have hbeginnings : streamBeginnings = streamClasses.map ("class." ++ ·) := by decide
  simp only [isStreamName, hbeginnings, List.any_map, List.any_eq_true, Function.comp_apply, begins,
    List.isPrefixOf_iff_prefix, String.toList_append]
  constructor
  · rintro ⟨stream, hstream, rest, hname⟩
    exact ⟨stream, rest, hstream, by rw [← hname, List.append_assoc]⟩
  · rintro ⟨stream, rest, hstream, hname⟩
    exact ⟨stream, hstream, rest, by rw [hname, List.append_assoc]⟩

theorem dropBeginning?_append (beginning text : List Char) :
    dropBeginning? beginning (beginning ++ text) = some text := by
  simp [dropBeginning?]

theorem toList_className (h : OfStream name stream rest) :
    (className name).toList = stream.toList ++ rest.takeWhile (· ≠ '<') := by
  have hno : ∀ s ∈ streamClasses, '<' ∉ s.toList := by decide
  have hpass : ∀ c ∈ stream.toList, decide (c ≠ '<') := by
    intro c hc
    refine decide_eq_true ?_
    rintro rfl
    exact hno stream h.known hc
  simp only [className, h.text, dropBeginning?_append]
  simpa using List.takeWhile_append_of_pos hpass

/-- No object class is called by a longer name than a stream has. -/
theorem eq_of_isPrefix {object : String} (hobject : object ∈ names) (hstream : stream ∈ streamClasses)
    (h : stream.toList <+: object.toList) : object = stream := by
  have hall : ∀ o ∈ names, ∀ s ∈ streamClasses, s.toList.isPrefixOf o.toList → o = s := by decide
  exact hall object hobject stream hstream (List.isPrefixOf_iff_prefix.2 h)

theorem className_mem_names_iff (h : OfStream name stream rest) :
    className name ∈ names ↔ rest = [] ∨ rest.head? = some '<' := by
  have hsub : streamClasses ⊆ names := by decide
  have hclass := toList_className h
  have hnil : rest.takeWhile (· ≠ '<') = [] ↔ rest = [] ∨ rest.head? = some '<' := by
    cases rest with
    | nil => simp
    | cons c rest => by_cases hc : c = '<' <;> simp [hc]
  rw [← hnil]
  constructor
  · intro hmem
    have heq := eq_of_isPrefix hmem h.known (hclass ▸ List.prefix_append _ _)
    rw [heq] at hclass
    exact List.self_eq_append_right.1 hclass
  · intro hrest
    rw [hrest, List.append_nil, String.toList_inj] at hclass
    exact hclass ▸ hsub h.known

/-- A stream is an object if nothing but template arguments follows its class, and it is no helper of slicing. -/
theorem isObjectName_iff (h : OfStream name stream rest) :
    isObjectName name ↔
      (rest = [] ∨ rest.head? = some '<') ∧ ¬ "_slice_type".toList <:+ name.toList := by
  rw [← className_mem_names_iff h, ← List.isSuffixOf_iff_suffix, Bool.not_eq_true, and_comm, isObjectName,
    Bool.and_eq_true, Bool.not_eq_true', List.contains_iff_mem]

end ObjectType

namespace Program

open ObjectType

variable (p : Program) (annotated : ResourceTypes) (h : Handle .type)

/-- If the struct is called after the class of a stream, then nothing but template arguments follows the class, and
it is no helper of slicing. -/
def NamesNoMore : Prop :=
  ∀ name stream rest, p.structName? h = some name → OfStream name stream rest →
    (rest = [] ∨ rest.head? = some '<') ∧ ¬ "_slice_type".toList <:+ name.toList

theorem isObjectType_of_isStreamType_iff :
    (p.isStreamType h → p.isObjectType annotated h) ↔ annotated.contains h ∨ p.NamesNoMore h := by
  unfold isStreamType isObjectType NamesNoMore
  cases hannotated : annotated.contains h with
  | true => simp
  | false =>
    cases hname : p.structName? h with
    | none => simp
    | some name =>
      simp only [Option.any_some, Bool.false_or, Bool.false_eq_true, false_or, Option.some.injEq, isStreamName_iff]
      constructor
      · rintro hobject _ stream rest rfl hstream
        exact (isObjectName_iff hstream).1 (hobject ⟨stream, rest, hstream⟩)
      · rintro hmore ⟨stream, rest, hstream⟩
        exact (isObjectName_iff hstream).2 (hmore name stream rest rfl hstream)

/-- An output stream, also one that a pointer points to, is an object if it is annotated or its name says no more than
what stream it is. -/
theorem streams_are_objects_iff :
    ((p.isStreamType h → p.isObjectType annotated h) ↔ annotated.contains h ∨ p.NamesNoMore h) ∧
      ((p.isStreamPointer h → ∃ t, p.pointee? h = some t ∧ p.isObjectType annotated t) ↔
        ∀ t, p.pointee? h = some t → annotated.contains t ∨ p.NamesNoMore t) := by
  refine ⟨p.isObjectType_of_isStreamType_iff annotated h, ?_⟩
  unfold isStreamPointer
  cases p.pointee? h with
  | none => simp
  | some t => simpa using p.isObjectType_of_isStreamType_iff annotated t

/-- Structs whose names go on after the class of a stream, and a pointer to one of them. -/
def streaming : Program :=
  [.type (.struct "class.PointStreamEx" []), .type (.struct "class.PointStream<float>::vertex_slice_type" []),
    .type (.pointer ⟨0⟩ .default)].foldl ProgramOp.apply (.empty "m")

/-- Streams that are no objects: the class of one has a longer name, the other has the name of a helper of slicing. -/
theorem streaming_isObjectType :
    streaming.Reachable ∧
      streaming.isStreamType ⟨0⟩ ∧ streaming.isStreamType ⟨1⟩ ∧ streaming.isStreamPointer ⟨2⟩ ∧
      streaming.isObjectType .empty ⟨0⟩ = false ∧ streaming.isObjectType .empty ⟨1⟩ = false :=
  ⟨reachable_foldl _ _, by decide, by decide, by decide, by decide, by decide⟩

end Program

end ShaderModule

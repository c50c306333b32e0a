import ShaderModule.Proofs.Precise.Marking
import ShaderModule.Proofs.Shader.Steps

/-!
# Types from issued handles

Types are entered on request, and some are entered on the way: where the type of a global is asked for, that of bytes,
of a result or of a marker. Whoever hands over only such type handles as the module has issued gets type graphs that
are well founded, whatever else is done to the module. Taking array layers off and putting texts together comes to an
end there, and finds a type behind every handle.
-/

namespace ShaderModule

open Program

/-- The types that an instruction brings in from outside: that of what a stack slot holds. -/
def InstKind.bases : InstKind → List (Handle .type)
  | .alloca allocated => [allocated]
  | _ => []

/-! ## What keeps types made of issued ones -/

namespace Program

variable {bases : List (Handle .type)} {kind : InstKind} {p q : Program}

/-- If types are made of issued ones in `p`, they are so in `q`. -/
def KeepsGrounded (bases : List (Handle .type)) (p q : Program) : Prop := p.Grounded bases → q.Grounded bases

instance : Std.Refl (KeepsGrounded bases) := ⟨fun _ => id⟩

instance : IsTrans Program (KeepsGrounded bases) := ⟨fun _ _ _ h h' => h' ∘ h⟩

theorem Grounded.of_supplies {t : Ty} (h : p.Grounded bases) (ht : p.Supplies t) :
    (Build.type t p).2.Grounded bases := by
  refine h.type fun c hc => ?_
  rcases ht c hc with hissued | ⟨g, x, hg, rfl⟩
  · exact hissued
  · exact h.globals g x hg

theorem keepsGrounded_valueType (v : Value) : Along (KeepsGrounded bases) (valueType v) :=
  along_valueType (fun _ _ ht hp => hp.of_supplies ht) v

theorem keepsGrounded_resultType (hkind : ∀ c ∈ kind.bases, c ∈ bases) :
    Along (KeepsGrounded bases) (resultType kind) := by
  refine along_resultType (fun _ _ ht hp => hp.of_supplies ht) kind ?_
  rintro allocated rfl p hp
  refine hp.type fun c hc => ?_
  rw [List.mem_singleton.1 hc]
  exact hp.bases allocated (hkind allocated List.mem_cons_self)

/-- What changes neither types nor globals. -/
theorem keepsGrounded_of_same {ε α : Type} {e : Edit ε α}
    (he : ∀ p, (after (e p)).types = p.types ∧ (after (e p)).globals = p.globals) : Along (KeepsGrounded bases) e :=
  fun p hp => hp.of_same (he p).1 (he p).2

theorem keepsGrounded_insertAt (hkind : ∀ c ∈ kind.bases, c ∈ bases) (function : Handle .function) (pos : Nat) :
    Along (KeepsGrounded bases) (insertAt function pos kind) := by
  intro p
  cases hf : p.hasFunction function with
  | false =>
    rw [insertAt_of_not hf]
    exact id
  | true =>
    have hresult := keepsGrounded_resultType hkind p
    rw [insertAt_eq hf]
    cases hr : resultType kind p with
    | error e q =>
      rw [hr] at hresult
      exact hresult
    | ok type q =>
      rw [hr] at hresult
      exact fun hp => (hresult hp).of_same rfl rfl

/-- A call brings in no type. -/
theorem keepsGrounded_insertCallAt (function : Handle .function) (pos : Nat) (callee : Handle .function)
    (args : List Value) : Along (KeepsGrounded bases) (insertAt function pos (.call callee args)) :=
  keepsGrounded_insertAt (List.forall_mem_nil _) function pos

theorem keepsGrounded_insertCallAfter (anchor : Handle .inst) (callee : Handle .function) (args : List Value) :
    Along (KeepsGrounded bases) (insertAfter anchor (.call callee args)) :=
  along_insertAfter (fun f pos => keepsGrounded_insertCallAt f pos callee args) anchor

theorem keepsGrounded_eraseInst (h : Handle .inst) : Along (KeepsGrounded bases) (eraseInst h) := by
  refine keepsGrounded_of_same fun p => ?_
  unfold eraseInst
  split <;> exact ⟨rfl, rfl⟩

theorem keepsGrounded_setInstMetadata (h : Handle .inst) (kind : String) (node : Option (Handle .node)) :
    Along (KeepsGrounded bases) (setInstMetadata h kind node) := by
  refine keepsGrounded_of_same fun p => ?_
  unfold setInstMetadata
  split <;> exact ⟨rfl, rfl⟩

theorem keepsGrounded_addFunction (name : String) (type : Handle .type) :
    Along (KeepsGrounded bases) (addFunction name type) := by
  refine keepsGrounded_of_same fun p => ?_
  unfold addFunction
  split
  · exact ⟨rfl, rfl⟩
  · split <;> exact ⟨rfl, rfl⟩

theorem keepsGrounded_ensureFunction (name : String) (type : Handle .type) :
    Along (KeepsGrounded bases) (ensureFunction name type) := by
  intro p
  unfold ensureFunction
  split
  · exact id
  · exact keepsGrounded_addFunction name type p

theorem keepsGrounded_eraseFunction (h : Handle .function) : Along (KeepsGrounded bases) (eraseFunction h) := by
  refine keepsGrounded_of_same fun p => ?_
  unfold eraseFunction
  split <;> exact ⟨rfl, rfl⟩

theorem keepsGrounded_setFunctionMetadata (h : Handle .function) (kind : String) (node : Option (Handle .node)) :
    Along (KeepsGrounded bases) (setFunctionMetadata h kind node) := by
  refine keepsGrounded_of_same fun p => ?_
  unfold setFunctionMetadata
  split <;> exact ⟨rfl, rfl⟩

theorem keepsGrounded_eraseGlobal (h : Handle .global) : Along (KeepsGrounded bases) (eraseGlobal h) := by
  intro p hp
  unfold eraseGlobal
  split
  · exact ⟨hp.types, fun g x hx => hp.globals g x (Slots.get?_erase_eq_some.1 hx).2, hp.bases⟩
  · exact hp

theorem keepsGrounded_promote (function : Handle .function) : Along (KeepsGrounded bases) (promote function) :=
  along_promote (fun _ _ hp => hp.of_same rfl rfl) keepsGrounded_insertCallAfter
    (fun _ _ _ hp => hp.of_same rfl rfl) keepsGrounded_eraseInst function

end Program

namespace Precise

variable {bases : List (Handle .type)} {p : Program}

theorem keepsGrounded_tagInst (h : Handle .inst) : Along (KeepsGrounded bases) (tagInst h) := by
  have htag : Build.Stable tagNode :=
    .bind (Build.stable_int _ _) fun _ => .bind (Build.stable_node _) fun _ => Build.stable_node _
  exact .bind (htag.grounded bases) fun node => keepsGrounded_setInstMetadata h tag node

/-- The signature of a marker takes a type that has been issued, since it has been found to be a pointer. -/
theorem grounded_markerSignature {type : Handle .type} (htype : (p.pointee? type).isSome) (hp : p.Grounded bases) :
    (markerSignature type p).2.Grounded bases := by
  have hvoid : (Build.type .void p).2.Grounded bases := hp.type (List.forall_mem_nil _)
  refine hvoid.type fun c hc => ?_
  rcases List.mem_cons.1 hc with rfl | hc
  · exact p.types.issued_intern .void
  · have hissued : p.types.Issued type := by
      rw [pointee?, Option.isSome_bind, Option.any_eq_true_iff_get] at htype
      exact htype.1
    rw [List.mem_singleton.1 hc]
    exact hissued.of_isPrefix (p.types.entries_isPrefix_intern .void)

theorem keepsGrounded_marker (type : Handle .type) : Along (KeepsGrounded bases) (marker type) := by
  intro p hp
  cases hpointee : p.pointee? type with
  | none =>
    rw [marker_of_not_pointer hpointee]
    exact hp
  | some pointee =>
    have htag : ∀ f, Along (KeepsGrounded bases) (tagMarker f) :=
      along_tagMarker (fun _ _ hp => hp.of_same rfl rfl) keepsGrounded_setFunctionMetadata
    have hensure : ∀ name signature, Along (KeepsGrounded bases) (ensureMarker name signature) := fun name signature =>
      .bind (keepsGrounded_ensureFunction name signature) fun f => .bind (htag f) fun _ => .pure _
    rw [marker_of_pointer hpointee]
    exact Along.adaptExcept (hensure _ _) _ (grounded_markerSignature (Option.isSome_of_eq_some hpointee) hp)

theorem keepsGrounded_markPointer (ptr : Value) : Along (KeepsGrounded bases) (markPointer ptr) := by
  rw [markPointer_eq_bind]
  refine .bind (.adaptExcept (keepsGrounded_valueType ptr)) fun type => .bind (keepsGrounded_marker type) fun m => ?_
  exact along_callsOn keepsGrounded_insertCallAt keepsGrounded_insertCallAfter ptr type m

theorem keepsGrounded_sweep : Along (KeepsGrounded bases) sweep :=
  along_sweep keepsGrounded_valueType keepsGrounded_tagInst keepsGrounded_eraseInst keepsGrounded_eraseFunction

end Precise

/-! ## Operations -/

namespace ProgramOp

/-- The type handles that whoever calls an operation hands over for types to be made of: components of a type, the
type of a new or changed global, the type of what a stack slot holds. -/
def bases (p : Program) : ProgramOp → List (Handle .type)
  | .type t => t.components
  | .addGlobal g => [g.type]
  | .modifyGlobal h change => ((p.global? h).map fun g => (change g).type).toList
  | .insertAt _ _ kind | .append _ kind | .insertAfter _ kind | .insertBefore _ kind => kind.bases
  | _ => []

/-- An operation that is handed issued types makes types of nothing else. -/
theorem grounded_apply {op : ProgramOp} {p : Program} (hp : p.Grounded (op.bases p)) :
    (op.apply p).Grounded (op.bases p) := by
  have hinsert : ∀ (kind : InstKind) f pos, Along (KeepsGrounded kind.bases) (Program.insertAt f pos kind) := fun _ =>
    keepsGrounded_insertAt fun _ => id
  cases op with
  | type t => exact hp.type hp.bases
  | constant | node => exact hp.of_same rfl rfl
  | addGlobal g =>
    refine ⟨hp.types, fun h x hx => ?_, hp.bases⟩
    rcases Slots.get?_push_eq_some.1 hx with ⟨-, rfl⟩ | hx
    · exact hp.bases _ List.mem_cons_self
    · exact hp.globals h x hx
  | modifyGlobal h change =>
    refine ⟨hp.types, fun h' x hx => ?_, hp.bases⟩
    rcases Slots.get?_modify_eq_some.1 hx with ⟨-, hx⟩ | ⟨rfl, y, hy, rfl⟩
    · exact hp.globals h' x hx
    · exact hp.bases _ (by simp [bases, Program.global?, hy])
  | eraseGlobal h => exact keepsGrounded_eraseGlobal h p hp
  | addFunction name t => exact keepsGrounded_addFunction name t p hp
  | ensureFunction name t => exact keepsGrounded_ensureFunction name t p hp
  | eraseFunction h => exact keepsGrounded_eraseFunction h p hp
  | setFunctionMetadata h kind n => exact keepsGrounded_setFunctionMetadata h kind n p hp
  | valueType v => exact keepsGrounded_valueType v p hp
  | insertAt function pos kind => exact hinsert kind function pos p hp
  | append function kind => exact along_append (hinsert kind) function p hp
  | insertAfter anchor kind => exact along_insertAfter (hinsert kind) anchor p hp
  | insertBefore anchor kind => exact along_insertBefore (hinsert kind) anchor p hp
  | eraseInst h => exact keepsGrounded_eraseInst h p hp
  | setInstMetadata h kind n => exact keepsGrounded_setInstMetadata h kind n p hp
  | replaceAll | setNamed | addNamed | removeNamed | changeDebug => exact hp.of_same rfl rfl
  | promote function => exact keepsGrounded_promote function p hp
  | tagInst h => exact Precise.keepsGrounded_tagInst h p hp
  | untagInst h => exact keepsGrounded_setInstMetadata h Precise.tag none p hp
  | markPointer ptr => exact Precise.keepsGrounded_markPointer ptr p hp
  | sweep => exact Precise.keepsGrounded_sweep p hp

end ProgramOp

namespace ShaderOp

/-- The type handles that are handed over for types to be made of. -/
def bases (s : Shader) : ShaderOp → List (Handle .type)
  | .program op => op.bases s.program
  | _ => []

/-- The module has issued the type handles that are handed over. -/
def FromIssued (s : Shader) (op : ShaderOp) : Prop := ∀ t ∈ op.bases s, s.program.types.Issued t

instance (s : Shader) (op : ShaderOp) : Decidable (op.FromIssued s) :=
  inferInstanceAs (Decidable (∀ t ∈ op.bases s, s.program.types.Issued t))

theorem grounded_apply {op : ShaderOp} {s : Shader} (hs : s.program.Grounded []) (hop : op.FromIssued s) :
    (op.apply s).program.Grounded [] := by
  have hkeeps : KeepsGrounded (op.bases s) s.program (op.apply s).program := by
    refine Shader.along_apply keepsGrounded_eraseGlobal keepsGrounded_eraseFunction
      (fun _ _ hp => hp.of_same rfl rfl) (fun t => ?_) (fun _ _ hp => hp.of_same rfl rfl) op s ?_
    · exact Tables.along_emit (fun _ _ hp => hp.of_same rfl rfl) (fun _ _ _ hp => hp.of_same rfl rfl)
        (t.stable_build.grounded _)
    · rintro host rfl
      exact ProgramOp.grounded_apply
  have happlied := hkeeps { hs with bases := hop }
  exact { happlied with bases := List.forall_mem_nil _ }

end ShaderOp

/-! ## Runs -/

namespace Shader

/-- A module that operations lead to, from an empty one, that were handed no type handles but those that the module
had issued by then. -/
inductive IssuedRun : Shader → Prop where
  | start (name : String) : IssuedRun (.ofProgram (.empty name))
  | step {s : Shader} (op : ShaderOp) (h : IssuedRun s) (hop : op.FromIssued s) : IssuedRun (op.apply s)

variable {s : Shader}

theorem IssuedRun.foldl {ops : List ShaderOp} (h : s.IssuedRun)
    (hops : ∀ i (hi : i < ops.length), ops[i].FromIssued ((ops.take i).foldl ShaderOp.apply s)) :
    (ops.foldl ShaderOp.apply s).IssuedRun :=
  foldl_of_allowed (fun _ op hs hop => hs.step op hop) h hops

theorem IssuedRun.grounded (h : s.IssuedRun) : s.program.Grounded [] := by
  induction h with
  | start name => exact grounded_empty name
  | step op _ hop ih => exact ShaderOp.grounded_apply ih hop

/-- Every type stands after the types that it refers to. So whatever an issued handle leads to has been issued before
it; the array layers of a type come off one after another down to a core, which taking them off ends with; and its text
is put together from those of its components in just one way. -/
theorem types_of_issuedRun (h : s.IssuedRun) :
    s.program.types.WellFounded ∧ ∀ t, s.program.types.Issued t →
      (∀ c, Relation.TransGen s.program.types.RefersTo t c → s.program.types.Issued c ∧ c < t) ∧
      (∃ core lengths, s.program.types.Layered core lengths t ∧
        s.program.types.stripArrays t = (core, .ofNatClamp (lengths.map UInt64.toNat).prod)) ∧
      ∀ text, s.program.types.Spelled t text ↔ text = s.program.typeText t := by
  have hw := h.grounded.types
  refine ⟨hw, fun t ht => ⟨fun _ => hw.of_refersTo, ?_, hw.spelled_iff ht⟩⟩
  obtain ⟨core, lengths, hlayered⟩ := hw.exists_layered ht
  exact ⟨core, lengths, hlayered, hlayered.stripArrays_eq⟩

/-- Operations that enter the struct of a list node that points to a struct of the same name, arrays of it, a global and
a stack slot of the arrays, and types of these on the way. -/
def linkedOps : List ShaderOp :=
  ([.type (.struct "Node" []), .type (.pointer ⟨0⟩ .default), .type (.struct "Node" [⟨1⟩]), .type (.array ⟨2⟩ 4),
    .type (.array ⟨3⟩ 5), .addGlobal ⟨"list", ⟨4⟩, .groupShared, .internal, false, none⟩, .type .void,
    .type (.function ⟨5⟩ [⟨1⟩]), .addFunction "main" ⟨6⟩, .append ⟨0⟩ (.alloca ⟨4⟩), .valueType (.global ⟨0⟩),
    .markPointer (.inst ⟨0⟩)] : List ProgramOp).map .program ++ [.setEntry (some ⟨0⟩), .addShared ⟨0⟩, .emit]

def linked : Shader := linkedOps.foldl ShaderOp.apply (.ofProgram (.empty "linked"))

theorem types_of_issuedRun_linked :
    linked.program.types.WellFounded ∧
      (∃ core lengths, linked.program.types.Layered core lengths ⟨4⟩ ∧
        linked.program.types.stripArrays ⟨4⟩ = (core, .ofNatClamp (lengths.map UInt64.toNat).prod)) ∧
      ∀ text, linked.program.types.Spelled ⟨9⟩ text ↔ text = "void ([5 x [4 x %Node]]*)" := by
  have hrun : linked.IssuedRun := (IssuedRun.start "linked").foldl (by decide +kernel)
  obtain ⟨hw, htypes⟩ := types_of_issuedRun hrun
  obtain ⟨-, hlayers, -⟩ := htypes ⟨4⟩ (by decide +kernel)
  obtain ⟨-, -, htexts⟩ := htypes ⟨9⟩ (by decide +kernel)
  have htext : linked.program.typeText ⟨9⟩ = "void ([5 x [4 x %Node]]*)" := by decide +kernel
  rw [htext] at htexts
  exact ⟨hw, hlayers, htexts⟩

end Shader

end ShaderModule

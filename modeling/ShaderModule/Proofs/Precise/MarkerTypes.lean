import ShaderModule.Proofs.Precise.RefusedMarking
import ShaderModule.Proofs.Shader.Arena

/-!
# The types of markers: `marker_function`

A marker is declared for a pointer type, and it is found again by its name, which tells only what the pointer points
to, and only in text. So the marker that is called on a pointer may have been declared for another type of pointers:
for another address space, or for another structure of the same name.
-/

namespace ShaderModule

open Program

/-! ## Names and types of functions -/

namespace Program

variable {p q r : Program} {g : Handle .function} {y : Function}

/-- No step changes the name or the type of a function. -/
theorem Step.inherits (h : p.Step q) (hg : g < p.functions.next) (hy : q.function? g = some y) :
    ∃ x, p.function? g = some x ∧ x.name = y.name ∧ x.type = y.type := by
  have of_modify {h : Handle .function} {change : Function → Function}
      (hy : (p.functions.modify h change).get? g = some y) (hname : ∀ x, (change x).name = x.name)
      (htype : ∀ x, (change x).type = x.type) : ∃ x, p.function? g = some x ∧ x.name = y.name ∧ x.type = y.type := by
    rcases Slots.get?_modify_eq_some.1 hy with ⟨-, hx⟩ | ⟨-, x, hx, rfl⟩
    · exact ⟨y, hx, rfl, rfl⟩
    · exact ⟨x, hx, (hname x).symm, (htype x).symm⟩
  cases h with
  | quiet h => exact ⟨y, h.function? g ▸ hy, rfl, rfl⟩
  | declare =>
    have hne : g ≠ p.functions.next := by
      rintro rfl
      exact Nat.lt_irrefl _ hg
    exact ⟨y, (Slots.get?_push_of_ne hne).symm.trans hy, rfl, rfl⟩
  | eraseFunction => exact ⟨y, (Slots.get?_erase_eq_some.1 hy).2, rfl, rfl⟩
  | attachFunction | place | eraseInst => exact of_modify hy (fun _ => rfl) fun _ => rfl
  | attachInst | replace => exact ⟨y, hy, rfl, rfl⟩

/-- Whatever has been done since, a function has the name and the type with which it was declared. -/
theorem Steps.inherits (h : p.Steps q) (hg : g < p.functions.next) (hy : q.function? g = some y) :
    ∃ x, p.function? g = some x ∧ x.name = y.name ∧ x.type = y.type := by
  induction h generalizing y with
  | refl => exact ⟨y, hy, rfl, rfl⟩
  | tail hsteps hstep ih =>
    obtain ⟨z, hz, hname, htype⟩ := hstep.inherits (Nat.lt_of_lt_of_le hg (Steps.changes hsteps).1.next_le) hy
    obtain ⟨x, hx, hname', htype'⟩ := ih hz
    exact ⟨x, hx, hname'.trans hname, htype'.trans htype⟩

/-- An edit that keeps functions keeps their names and types. -/
theorem Edits.function?_kept {kept : Handle .function → Prop} (h : p.Edits kept q) (hg : kept g) {x : Function}
    (hx : p.function? g = some x) : ∃ y, q.function? g = some y ∧ x.name = y.name ∧ x.type = y.type := by
  obtain ⟨y, hy⟩ := Option.isSome_iff_exists.1 (h.functions g hg (Option.isSome_of_eq_some hx))
  obtain ⟨x', hx', hsame⟩ := h.steps.inherits (Slots.lt_next_of_get? hx) hy
  cases hx.symm.trans hx'
  exact ⟨y, hy, hsame⟩

/-! ## Declaring nothing -/

/-- Two programs have the same functions, whatever has become of them. -/
def SameFunctions (p q : Program) : Prop := ∀ g, q.hasFunction g = p.hasFunction g

instance : Std.Refl SameFunctions := ⟨fun _ _ => rfl⟩

instance : IsTrans Program SameFunctions := ⟨fun _ _ _ h k g => (k g).trans (h g)⟩

theorem sameFunctions_of_grows {ε α : Type} {e : Edit ε α} (he : Along Grows e) : Along SameFunctions e :=
  fun p g => congrArg Option.isSome ((he p).quiet.function? g)

theorem sameFunctions_setFunctionMetadata (h : Handle .function) (kind : String) (node : Option (Handle .node)) :
    Along SameFunctions (setFunctionMetadata h kind node) := by
  intro p g
  unfold setFunctionMetadata
  split
  · exact isSome_get?_modify _ _ _ _
  · rfl

theorem Inserts.sameFunctions {s : EStateM.Result ProgramError Program (Handle .inst)} (h : Inserts p s) :
    p.SameFunctions (after s) := by
  intro g
  cases h with
  | refused hq => exact congrArg Option.isSome (hq.function? g)
  | placed hq pos i => exact ((inserted_placeInst _ pos i).hasFunction g).trans (congrArg Option.isSome (hq.function? g))

/-! ## Calls that are inserted -/

/-- The instruction that is inserted is there afterwards, and so are the others. -/
theorem instKind?_of_insertAt {f : Handle .function} {pos : Nat} {kind : InstKind} {c : Handle .inst}
    (h : insertAt f pos kind p = .ok c q) :
    q.instKind? c = some kind ∧ ∀ x k, p.instKind? x = some k → q.instKind? x = some k := by
  have hf : p.hasFunction f := by
    by_contra hf
    rw [insertAt_of_not (Bool.eq_false_iff.2 hf)] at h
    cases h
  have hgrows := grows_resultType kind p
  rw [insertAt_eq hf] at h
  cases hr : resultType kind p with
  | error e u =>
    rw [hr] at h
    cases h
  | ok type u =>
    rw [hr] at h hgrows
    cases h
    have hu : p.Quiet u := Grows.quiet hgrows
    have hinst := (inserted_placeInst u pos ⟨f, kind, type, .empty⟩).inst
    refine ⟨by rw [instKind?, hinst, if_pos rfl, Option.map_some], fun x k hx => ?_⟩
    obtain ⟨i, hi, -⟩ := exists_inst_of_instKind? hx
    rw [instKind?, hinst, if_neg (Slots.ne_next_of_get? ((hu.inst? x).trans hi)), hu.inst? x]
    exact hx

theorem instKind?_of_insertAfter {anchor c : Handle .inst} {kind : InstKind} (h : insertAfter anchor kind p = .ok c q) :
    q.instKind? c = some kind := by
  rw [insertAfter_eq] at h
  split at h
  · exact (instKind?_of_insertAt h).1
  · cases h

theorem instKind?_of_insertCalls {kind : InstKind} {fs : List (Handle .function)} {cs : List (Handle .inst)}
    (h : fs.mapM (fun f => insertAt f 0 kind) p = .ok cs q) :
    (∀ c ∈ cs, q.instKind? c = some kind) ∧ ∀ x k, p.instKind? x = some k → q.instKind? x = some k := by
  induction fs generalizing p cs with
  | nil =>
    cases h
    exact ⟨by simp, fun _ _ => id⟩
  | cons f fs ih =>
    rw [List.mapM_cons] at h
    obtain ⟨c, u, hrun, h⟩ := action_bind_eq_ok.1 h
    obtain ⟨cs', w, hruns, ⟨⟩⟩ := action_bind_eq_ok.1 h
    obtain ⟨hc, hkept⟩ := instKind?_of_insertAt hrun
    obtain ⟨hcs, hkept'⟩ := ih hruns
    refine ⟨fun d hd => ?_, fun x k => hkept' x k ∘ hkept x k⟩
    rcases List.mem_cons.1 hd with rfl | hd
    · exact hkept' d kind hc
    · exact hcs d hd

/-! ## Functions of one argument -/

/-- The type of a function says that it takes one argument, of the given type, and gives no result. -/
def Takes (p : Program) (m : Handle .function) (T : Handle .type) : Prop :=
  ∃ x void, p.function? m = some x ∧ p.type? x.type = some (.function void [T]) ∧ p.type? void = some .void

theorem type?_eq_function_iff {t void : Handle .type} {params : List (Handle .type)} :
    p.type? t = some (.function void params) ↔ (p.type? t).bind Ty.signature? = some (void, params) := by
  cases p.type? t with
  | none => simp
  | some ty => cases ty <;> simp [Ty.signature?]

instance {m : Handle .function} {T : Handle .type} : Decidable (p.Takes m T) :=
  decidable_of_iff (∃ x ∈ p.function? m, ∃ sig ∈ (p.type? x.type).bind Ty.signature?,
      sig.2 = [T] ∧ p.type? sig.1 = some .void) <| by
    simp only [Takes, type?_eq_function_iff, Option.mem_def]
    constructor
    · rintro ⟨x, hx, ⟨void, _⟩, hsig, rfl, hvoid⟩
      exact ⟨x, void, hx, hsig, hvoid⟩
    · rintro ⟨x, void, hx, hsig, hvoid⟩
      exact ⟨x, hx, (void, [T]), hsig, rfl, hvoid⟩

theorem Takes.unique {m : Handle .function} {T T' : Handle .type} (h : p.Takes m T) (h' : p.Takes m T') : T = T' := by
  obtain ⟨x, void, hx, hsig, -⟩ := h
  obtain ⟨x', void', hx', hsig', -⟩ := h'
  cases hx.symm.trans hx'
  cases hsig.symm.trans hsig'
  rfl

end Program

namespace Precise

variable {p q r : Program} {ptr : Value} {m : Handle .function} {T t : Handle .type}

theorem sameFunctions_tagMarker (m : Handle .function) : Along SameFunctions (tagMarker m) :=
  along_tagMarker (fun n => sameFunctions_of_grows (grows_edit (ε := ProgramError) (Build.growing_node n)))
    sameFunctions_setFunctionMetadata m

/-- What the marker of a pointer type is: the function of its name, if there is one, and else a new function that
takes this type. -/
theorem marker_cases (hpointee : p.pointee? T = some t) (h : marker T p = .ok m q) :
    ∃ y, q.function? m = some y ∧ y.name = markerBeginning ++ p.typeText t ∧
      ((∃ x, p.functionNamed? y.name = some m ∧ p.function? m = some x ∧ x.name = y.name ∧ x.type = y.type ∧
          p.SameFunctions q) ∨
        (p.functionNamed? y.name = none ∧ p.function? m = none ∧ q.Takes m T ∧
          ∀ g, q.hasFunction g → p.hasFunction g ∨ g = m)) := by
  obtain ⟨u, hensure, htag⟩ := (marker_eq_ok hpointee).1 h
  obtain ⟨void, hsig, hvoid⟩ := type?_markerSignature T p
  have hfunctions : (markerSignature T p).2.functions = p.functions := (growing_markerSignature T p).functions
  have hedits : u.Edits (fun _ => True) q := edits_of_ok (edits_tagMarker m) htag
  -- Tagging the marker neither adds nor takes away a function.
  have hlive : u.SameFunctions q := by
    have hsame := sameFunctions_tagMarker m u
    rwa [htag] at hsame
  have hname := functionNamed?_congr hfunctions (markerBeginning ++ p.typeText t)
  rcases ensureFunction_cases hensure with ⟨hfind, rfl⟩ | ⟨hfind, rfl, rfl⟩
  · obtain ⟨x, hx, hxname⟩ := exists_of_functionNamed? hfind
    obtain ⟨y, hy, hsame, htype⟩ := hedits.function?_kept trivial hx
    have hyname := hsame.symm.trans hxname
    refine ⟨y, hy, hyname, .inl ⟨x, ?_, ?_, hsame, htype, ?_⟩⟩
    · rw [hyname, ← hname, hfind]
    · rw [← hx, function?, function?, hfunctions]
    · intro g
      rw [hlive, hasFunction, function?, hfunctions, hasFunction, function?]
  · obtain ⟨y, hy, hyname, htype⟩ := hedits.function?_kept trivial (Slots.get?_push_next _ _)
    have hyname : y.name = markerBeginning ++ p.typeText t := hyname.symm
    have hext := hedits.steps.toExtends
    refine ⟨y, hy, hyname, .inr ⟨?_, ?_, ⟨y, void, hy, ?_, hext.type? hvoid⟩, ?_⟩⟩
    · rw [hyname, ← hname, hfind]
    · rw [Option.eq_none_iff_forall_ne_some]
      exact fun x hx => Slots.ne_next_of_get? hx (by rw [hfunctions])
    · rw [← htype]
      exact hext.type? hsig
    · intro g hg
      rw [hlive] at hg
      obtain ⟨x, hx⟩ := Option.isSome_iff_exists.1 hg
      rcases Slots.get?_push_eq_some.1 hx with ⟨hm, -⟩ | hx
      · exact .inr hm
      · rw [hfunctions] at hx
        exact .inl (Option.isSome_of_eq_some hx)

/-! ## What a marking declares -/

theorem sameFunctions_callsOn (ptr : Value) (T : Handle .type) (m : Handle .function) :
    Along SameFunctions (callsOn ptr T m) :=
  along_callsOn (fun f pos _ _ p => (inserts_insertAt f pos _ p).sameFunctions)
    (fun anchor _ _ p => (inserts_insertAfter anchor _ p).sameFunctions) ptr T m

/-- What is inserted are calls of the marker on the pointer. -/
theorem instKind?_of_callsOn {calls : List (Handle .inst)} (h : callsOn ptr T m p = .ok calls q) :
    ∀ c ∈ calls, q.instKind? c = some (.call m [ptr]) := by
  cases ptr with
  | inst slot =>
    obtain ⟨c, u, hrun, ⟨⟩⟩ := action_bind_eq_ok.1 h
    simpa using instKind?_of_insertAfter (adaptExcept_eq_ok.1 hrun)
  | argument function index =>
    obtain ⟨c, u, hrun, ⟨⟩⟩ := action_bind_eq_ok.1 h
    simpa using (instKind?_of_insertAt (adaptExcept_eq_ok.1 hrun)).1
  | global g => exact (instKind?_of_insertCalls (adaptExcept_eq_ok.1 h)).1
  | function g | constant g => cases h

/-- The function takes pointers of one type. It is named after what they point to, as it was written at some time. -/
def NamedFor (p : Program) (g : Handle .function) (T : Handle .type) : Prop :=
  p.Takes g T ∧ ∃ (x : Function) (r : Program) (t : Handle .type), p.function? g = some x ∧ r.Extends p ∧
    r.pointee? T = some t ∧ x.name = markerBeginning ++ r.typeText t

theorem NamedFor.steps {g : Handle .function} (h : NamedFor p g T) (hsteps : p.Steps q) (hg : q.hasFunction g) :
    NamedFor q g T := by
  obtain ⟨⟨x, void, hx, hsig, hvoid⟩, x', r, t, hx', hr, hpointee, hname⟩ := h
  cases hx.symm.trans hx'
  obtain ⟨y, hy⟩ := Option.isSome_iff_exists.1 hg
  obtain ⟨x', hx', hsame, htype⟩ := hsteps.inherits (Slots.lt_next_of_get? hx) hy
  cases hx.symm.trans hx'
  have hext : p.Extends q := hsteps.toExtends
  refine ⟨⟨y, void, hy, ?_, hext.type? hvoid⟩, y, r, t, hy, hr.trans hext, hpointee, hsame ▸ hname⟩
  exact htype ▸ hext.type? hsig

/-- A function that a marking declares is named for the type of the pointer, even if the marking is refused. -/
theorem namedFor_of_declared {g : Handle .function} (hnew : ¬ p.hasFunction g)
    (hg : (after (markPointer ptr p)).hasFunction g) : ∃ T, NamedFor (after (markPointer ptr p)) g T := by
  rcases markPointer_cases ptr p with ⟨-, cause, u, hrun, -, hfunctions⟩ |
    ⟨T, u, t, m, w, htype, hpointee, hmarker, hrun⟩
  · rw [hrun] at hg
    have hsame : u.hasFunction g = p.hasFunction g := by rw [hasFunction, function?, hfunctions, hasFunction, function?]
    exact absurd (hsame.symm.trans hg) hnew
  rw [hrun] at hg ⊢
  have hu : p.Grows u := grows_of_valueType htype
  have hw : u.Edits (fun _ => True) w := edits_of_ok (edits_marker T) hmarker
  have hq : w.Edits (fun _ => True) (after (callsOn ptr T m w)) := edits_callsOn ptr T m w
  have hlive : w.hasFunction g := (sameFunctions_callsOn ptr T m w g).symm.trans hg
  have hnot : ¬ u.hasFunction g := fun h => hnew ((congrArg Option.isSome (hu.quiet.function? g)).symm.trans h)
  obtain ⟨y, hy, hname, ⟨-, -, -, -, -, hsame⟩ | ⟨-, -, htakes, hsame⟩⟩ := marker_cases hpointee hmarker
  · exact absurd ((hsame g).symm.trans hlive) hnot
  · obtain rfl := (hsame g hlive).resolve_left hnot
    exact ⟨T, NamedFor.steps ⟨htakes, y, u, t, hy, hw.steps.toExtends, hpointee, hname⟩ hq.steps hg⟩

end Precise

/-! ## Modules whose markers were declared by markings -/

/-- The module to which operations lead from an empty one. -/
def Shader.run (name : String) (ops : List ShaderOp) : Shader := ops.foldl ShaderOp.apply (.ofProgram (.empty name))

theorem Shader.run_append (name : String) (ops ops' : List ShaderOp) :
    Shader.run name (ops ++ ops') = ops'.foldl ShaderOp.apply (Shader.run name ops) := List.foldl_append

theorem Shader.steps_run (name : String) (ops ops' : List ShaderOp) :
    (Shader.run name ops).program.Steps (Shader.run name (ops ++ ops')).program := by
  rw [run_append]
  generalize Shader.run name ops = s
  induction ops' generalizing s with
  | nil => exact .refl
  | cons op ops' ih => exact (Shader.evolves_apply op s).steps.trans (ih _)

namespace Precise

variable {p q : Program} {ptr : Value}

/-- One of the operations is a marking, before which the function was not there, while it was there afterwards. -/
def DeclaredByMarking (name : String) (ops : List ShaderOp) (g : Handle .function) : Prop :=
  ∃ before ptr rest, ops = before ++ .program (.markPointer ptr) :: rest ∧
    ¬ (Shader.run name before).program.hasFunction g ∧
    (Shader.run name (before ++ [.program (.markPointer ptr)])).program.hasFunction g

/-- A program of a reachable module in which all functions that are named like markers were declared by markings. -/
def OwnMarkers (p : Program) : Prop :=
  ∃ name ops, (Shader.run name ops).program = p ∧
    ∀ g x, p.function? g = some x → isMarkerName x.name → DeclaredByMarking name ops g

/-- Then each of them is named for the type that it takes. -/
theorem OwnMarkers.namedFor (hp : OwnMarkers p) {g : Handle .function} {x : Function} (hx : p.function? g = some x)
    (hname : isMarkerName x.name) : ∃ T, NamedFor p g T := by
  obtain ⟨name, ops, rfl, hdeclared⟩ := hp
  obtain ⟨before, ptr, rest, rfl, hnew, hg⟩ := hdeclared g x hx hname
  have hafter : (Shader.run name (before ++ [.program (.markPointer ptr)])).program =
      after (markPointer ptr (Shader.run name before).program) := by
    rw [Shader.run_append]
    rfl
  have hsteps := Shader.steps_run name (before ++ [.program (.markPointer ptr)]) rest
  rw [← List.append_cons, hafter] at hsteps
  rw [hafter] at hg
  obtain ⟨T, hT⟩ := namedFor_of_declared hnew hg
  exact ⟨T, hT.steps hsteps (Option.isSome_of_eq_some hx)⟩

/-- If all markers were declared by markings, each call that a marking inserts is a call of one function on the
pointer, which gives no result and takes pointers of a type whose target is written like that of the pointer. This is
the type of the pointer if and only if there was no marker of this name before, or there was one that takes it. -/
theorem markPointer_callee (hp : OwnMarkers p) {calls : List (Handle .inst)} (hrun : markPointer ptr p = .ok calls q) :
    ∃ T u t m, valueType ptr p = .ok T u ∧ u.pointee? T = some t ∧
      (∀ c ∈ calls, q.instKind? c = some (.call m [ptr])) ∧
      (∃ T' t' : Handle .type, ∃ r : Program, q.Takes m T' ∧ r.Extends q ∧ r.pointee? T' = some t' ∧
        r.typeText t' = u.typeText t) ∧
      (q.Takes m T ↔ ∀ m', p.functionNamed? (markerBeginning ++ u.typeText t) = some m' → p.Takes m' T) := by
  rcases markPointer_cases ptr p with ⟨-, cause, u, hrun', -⟩ | ⟨T, u, t, m, w, htype, hpointee, hmarker, hcalls⟩
  · cases hrun.symm.trans hrun'
  rw [hcalls] at hrun
  have hu : p.Grows u := grows_of_valueType htype
  have hw : u.Edits (fun _ => True) w := edits_of_ok (edits_marker T) hmarker
  have hq : w.Edits (fun _ => True) q := edits_of_ok (edits_callsOn ptr T m) hrun
  have huq : u.Steps q := hw.steps.trans hq.steps
  have hpq : p.Steps q := hu.quiet.steps.trans huq
  have hnamed := functionNamed?_congr hu.functions
  obtain ⟨y, hy, hname, hmarker⟩ := marker_cases hpointee hmarker
  have hmq : q.hasFunction m := hq.functions m trivial (Option.isSome_of_eq_some hy)
  refine ⟨T, u, t, m, htype, hpointee, instKind?_of_callsOn hrun, ?_⟩
  rw [← hname, ← hnamed]
  rcases hmarker with ⟨x, hfind, hx, hxy, -⟩ | ⟨hfind, -, htakes, -⟩
  · -- The marker was there. It takes the type for which it was declared.
    have hxp : p.function? m = some x := (hu.quiet.function? m).symm.trans hx
    have hxname : isMarkerName x.name := by
      rw [hxy, hname]
      exact isMarkerName_append _
    obtain ⟨T', hT'⟩ := hp.namedFor hxp hxname
    obtain ⟨hpT, x', r, t', hx', hr, hpointee', hname'⟩ := hT'
    cases hxp.symm.trans hx'
    obtain ⟨hqT, -⟩ := NamedFor.steps ⟨hpT, x, r, t', hxp, hr, hpointee', hname'⟩ hpq hmq
    have htext : r.typeText t' = u.typeText t := by
      rw [hxy, hname] at hname'
      exact (String.append_right_inj _).1 hname'.symm
    refine ⟨⟨T', t', r, hqT, hr.trans (Steps.toExtends hpq), hpointee', htext⟩, fun hT m' hm' => ?_, fun h => ?_⟩
    · cases hfind.symm.trans hm'
      exact hT.unique hqT ▸ hpT
    · exact (h m hfind).unique hpT ▸ hqT
  · -- The marker has been declared for this type.
    have hT : NamedFor w m T := ⟨htakes, y, u, t, hy, hw.steps.toExtends, hpointee, hname⟩
    obtain ⟨hqT, -⟩ := hT.steps hq.steps hmq
    refine ⟨⟨T, t, u, hqT, Steps.toExtends huq, hpointee, rfl⟩, fun _ m' hm' => ?_, fun _ => hqT⟩
    cases hfind.symm.trans hm'

/-- Two floats and two structures of one name, of which one float is in memory shared by a thread group, and a slot for
a float. The first float and the first structure are marked. -/
def sharingOps : List ShaderOp :=
  ([.type .void, .type (.float 32), .type (.function ⟨0⟩ []), .type (.struct "S" [⟨1⟩]), .type (.int 32),
    .type (.struct "S" [⟨4⟩]), .constant (.undef ⟨1⟩), .addFunction "main" ⟨2⟩,
    .addGlobal ⟨"a", ⟨1⟩, .default, .internal, false, none⟩,
    .addGlobal ⟨"b", ⟨1⟩, .groupShared, .internal, false, none⟩,
    .addGlobal ⟨"c", ⟨3⟩, .default, .internal, false, none⟩, .addGlobal ⟨"d", ⟨5⟩, .default, .internal, false, none⟩,
    .append ⟨0⟩ (.store (.global ⟨0⟩) (.constant ⟨0⟩)), .append ⟨0⟩ (.store (.global ⟨1⟩) (.constant ⟨0⟩)),
    .append ⟨0⟩ (.store (.global ⟨2⟩) (.constant ⟨0⟩)), .append ⟨0⟩ (.store (.global ⟨3⟩) (.constant ⟨0⟩)),
    .append ⟨0⟩ (.alloca ⟨1⟩), .markPointer (.global ⟨0⟩), .markPointer (.global ⟨2⟩)] : List ProgramOp).map .program

def sharing : Program := (Shader.run "sharing" sharingOps).program

theorem ownMarkers_sharing : OwnMarkers sharing := by
  refine ⟨"sharing", sharingOps, rfl, fun g x hx hname => ?_⟩
  have hmain : ∀ x ∈ sharing.function? ⟨0⟩, ¬ isMarkerName x.name := by decide +kernel
  have hlive : sharing.functions.live = [⟨0⟩, ⟨1⟩, ⟨2⟩] := by decide +kernel
  have hg : g ∈ sharing.functions.live := Slots.mem_live.2 (Option.isSome_of_eq_some hx)
  simp only [hlive, List.mem_cons, List.not_mem_nil, or_false] at hg
  rcases hg with rfl | rfl | rfl
  · exact absurd hname (hmain x hx)
  · exact ⟨sharingOps.take 17, .global ⟨0⟩, sharingOps.drop 18, rfl, by decide +kernel, by decide +kernel⟩
  · exact ⟨sharingOps.take 18, .global ⟨2⟩, [], rfl, by decide +kernel, by decide +kernel⟩

/-- The slot is marked by a call of the marker for the first float, which takes pointers of its type. -/
theorem markPointer_callee_sharing :
    ∃ c q T u m, markPointer (.inst ⟨4⟩) sharing = .ok [c] q ∧ valueType (.inst ⟨4⟩) sharing = .ok T u ∧
      q.instKind? c = some (.call m [.inst ⟨4⟩]) ∧ q.Takes m T := by
  obtain ⟨calls, q, hrun, rfl⟩ : ∃ calls q, markPointer (.inst ⟨4⟩) sharing = .ok calls q ∧ calls = [⟨7⟩] := by
    decide +kernel
  obtain ⟨_, v, htype, rfl, hpointee, hmarkers⟩ : ∃ T v, valueType (.inst ⟨4⟩) sharing = .ok T v ∧ T = ⟨6⟩ ∧
      v.pointee? T = some ⟨1⟩ ∧
      ∀ m ∈ sharing.functionNamed? (markerBeginning ++ v.typeText ⟨1⟩), sharing.Takes m ⟨6⟩ := by decide +kernel
  obtain ⟨T, u, t, m, htype', hpointee', hcalls, -, htakes⟩ := markPointer_callee ownMarkers_sharing hrun
  cases htype.symm.trans htype'
  cases hpointee.symm.trans hpointee'
  exact ⟨⟨7⟩, q, _, _, m, hrun, htype, hcalls _ (List.mem_singleton_self _), htakes.2 hmarkers⟩

/-- But the second float is marked by a call of it as well, though it does not take pointers to shared memory, and the
second structure by a call of the marker for the first one. -/
theorem markPointer_mistyped :
    OwnMarkers sharing ∧
      (∃ calls q, markPointer (.global ⟨1⟩) sharing = .ok calls q ∧ ∃ c ∈ calls, ∃ T u m,
        valueType (.global ⟨1⟩) sharing = .ok T u ∧ q.instKind? c = some (.call m [.global ⟨1⟩]) ∧ ¬ q.Takes m T) ∧
      ∃ calls q, markPointer (.global ⟨3⟩) sharing = .ok calls q ∧ ∃ c ∈ calls, ∃ T u m,
        valueType (.global ⟨3⟩) sharing = .ok T u ∧ q.instKind? c = some (.call m [.global ⟨3⟩]) ∧ ¬ q.Takes m T := by
  have hfloat : ∃ calls q, markPointer (.global ⟨1⟩) sharing = .ok calls q ∧ calls = [⟨7⟩] ∧
      q.instKind? ⟨7⟩ = some (.call ⟨1⟩ [.global ⟨1⟩]) ∧ ¬ q.Takes ⟨1⟩ ⟨7⟩ := by decide +kernel
  have hfloatType : ∃ T u, valueType (.global ⟨1⟩) sharing = .ok T u ∧ T = ⟨7⟩ := by decide +kernel
  have hstruct : ∃ calls q, markPointer (.global ⟨3⟩) sharing = .ok calls q ∧ calls = [⟨7⟩] ∧
      q.instKind? ⟨7⟩ = some (.call ⟨2⟩ [.global ⟨3⟩]) ∧ ¬ q.Takes ⟨2⟩ ⟨9⟩ := by decide +kernel
  have hstructType : ∃ T u, valueType (.global ⟨3⟩) sharing = .ok T u ∧ T = ⟨9⟩ := by decide +kernel
  obtain ⟨_, q, hrun, rfl, hcall, hnot⟩ := hfloat
  obtain ⟨_, u, htype, rfl⟩ := hfloatType
  obtain ⟨_, q', hrun', rfl, hcall', hnot'⟩ := hstruct
  obtain ⟨_, u', htype', rfl⟩ := hstructType
  refine ⟨ownMarkers_sharing, ⟨_, q, hrun, ⟨7⟩, List.mem_singleton_self _, ⟨7⟩, u, ⟨1⟩, htype, hcall, hnot⟩, ?_⟩
  exact ⟨_, q', hrun', ⟨7⟩, List.mem_singleton_self _, ⟨9⟩, u', ⟨2⟩, htype', hcall', hnot'⟩

end Precise

end ShaderModule

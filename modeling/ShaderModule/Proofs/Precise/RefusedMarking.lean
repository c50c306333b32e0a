import ShaderModule.Proofs.Precise.Calls

/-!
# Refused markings: `mark_precise_attribute_on_ptr_with_function_call`

A marking sees to the marker before it looks for the place of the call. So one that is refused may have declared a
function or tagged one. Nothing else is left of it but the types and nodes that were entered.
-/

namespace ShaderModule

namespace Precise

open Program

variable {p q r : Program} {f m : Handle .function} {T : Handle .type} {ptr : Value} {name : String}
  {cause : ShaderError}

/-- Finding out the type of a value enters types at most. -/
theorem prepares_valueType (v : Value) (p : Program) :
    Prepares p (after (valueType v p)) ∧ (after (valueType v p)).functions = p.functions := by
  have henters : p.EntersTypes (after (valueType v p)) := along_valueType (fun t p _ => entersTypes_type t p) v p
  generalize after (valueType v p) = q at henters
  have hnodes : q.nodes = p.nodes := by rw [henters.rest]
  have hfunctions : q.functions = p.functions := by rw [henters.rest]
  refine ⟨⟨?_, henters.types, hnodes ▸ List.prefix_refl _⟩, hfunctions⟩
  rw [hnodes, hfunctions]
  exact henters.rest

/-! ## The marker -/

/-- A function of that name is there and is tagged. -/
def Provides (p : Program) (name : String) : Prop :=
  ∃ m x, p.functionNamed? name = some m ∧ p.function? m = some x ∧ (x.metadata.find? tag).isSome

instance : Decidable (Provides p name) :=
  decidable_of_iff (∃ m ∈ p.functionNamed? name, ∃ x ∈ p.function? m, (x.metadata.find? tag).isSome) <| by
    simp only [Provides, Option.mem_def, exists_and_left]

/-- Functions `fs` are those of `p` with a tagged one among them that has the name asked for, if any: it was there, or
it was there and has been tagged, or it is new. -/
inductive Supplied (p : Program) : Option String → Listed .function Function → Prop where
  | nothing : Supplied p none p.functions
  | found {name : String} (h : Provides p name) : Supplied p (some name) p.functions
  | tagged {name : String} {m : Handle .function} {x : Function} (hfind : p.functionNamed? name = some m)
      (hx : p.function? m = some x) (htag : x.metadata.find? tag = none) (node : Handle .node) :
      Supplied p (some name)
        (p.functions.modify m fun y => { y with metadata := y.metadata.set tag (some node) })
  | declared {name : String} (hfind : p.functionNamed? name = none) (type : Handle .type) (node : Handle .node) :
      Supplied p (some name) (p.functions.push ⟨name, type, [], Attachments.set .empty tag (some node)⟩)

/-- The name of the marker for what a pointer points to. -/
def markerName? (p : Program) (ptr : Value) : Option String :=
  match valueType ptr p with
  | .ok type q => (q.pointee? type).map fun t => markerBeginning ++ q.typeText t
  | .error _ _ => none

namespace Supplied

variable {name? : Option String} {fs : Listed .function Function}

theorem congr (h : Supplied q name? fs) (hfunctions : q.functions = p.functions) : Supplied p name? fs := by
  have hfunction : ∀ g, q.function? g = p.function? g := fun g => by rw [function?, hfunctions, function?]
  cases h with
  | nothing => exact hfunctions ▸ .nothing
  | found h =>
    obtain ⟨m, x, hfind, hx, htag⟩ := h
    rw [functionNamed?_congr hfunctions] at hfind
    exact hfunctions ▸ .found ⟨m, x, hfind, hfunction m ▸ hx, htag⟩
  | tagged hfind hx htag node =>
    rw [functionNamed?_congr hfunctions] at hfind
    exact hfunctions ▸ .tagged hfind (hfunction _ ▸ hx) htag node
  | declared hfind type node =>
    rw [functionNamed?_congr hfunctions] at hfind
    exact hfunctions ▸ .declared hfind type node

/-- The functions are the same if and only if nothing had to be declared or tagged. -/
theorem eq_iff (h : Supplied p name? fs) : fs = p.functions ↔ ∀ name, name? = some name → Provides p name := by
  cases h with
  | nothing => simp
  | found h => simpa using h
  | @tagged name m x hfind hx htag node =>
    refine iff_of_false (fun heq => ?_) fun hprovides => ?_
    · have hget := congrArg (·.get? m) heq
      have hx : p.functions.get? m = some x := hx
      simp only [Listed.toSlots_modify, Slots.get?_modify, if_true, hx, Option.map_some, Option.some.injEq] at hget
      rw [← hget] at htag
      simp [Attachments.set, Ordered.find?_insert] at htag
    · obtain ⟨m', x', hfind', hx', htag'⟩ := hprovides name rfl
      cases hfind.symm.trans hfind'
      cases hx.symm.trans hx'
      simp [htag] at htag'
  | @declared name hfind type node =>
    refine iff_of_false (fun heq => ?_) fun hprovides => ?_
    · have hnext := Slots.next_push p.functions.toSlots ⟨name, type, [], Attachments.set .empty tag (some node)⟩
      rw [← Listed.toSlots_push, heq] at hnext
      omega
    · obtain ⟨m, x, hfind', -⟩ := hprovides name rfl
      cases hfind.symm.trans hfind'

/-- No instruction is listed anywhere that was not. -/
theorem body (h : Supplied p name? q.functions) (g : Handle .function) : q.body g = p.body g := by
  have hbody : ∀ p : Program, p.body g = ((p.functions.get? g).map Function.body).getD [] := fun _ => rfl
  rw [hbody, hbody]
  generalize q.functions = fs at h
  cases h with
  | nothing | found => rfl
  | tagged =>
    rw [Listed.toSlots_modify, Slots.get?_modify]
    split
    · rw [Option.map_map]
      rfl
    · rfl
  | declared =>
    by_cases hg : g = p.functions.next
    · subst hg
      have hnone : p.functions.get? p.functions.next = none := by
        rw [Option.eq_none_iff_forall_ne_some]
        exact fun x hx => Slots.ne_next_of_get? hx rfl
      simp [hnone]
    · rw [Listed.toSlots_push, Slots.get?_push_of_ne hg]

end Supplied

/-- The function of a name is found or declared, and it is tagged. -/
theorem ensureMarker_supplies (name : String) {sig : Handle .type} (hsig : ((p.type? sig).bind Ty.signature?).isSome) :
    ∃ m u q, ensureFunction name sig p = .ok m u ∧ tagMarker m u = .ok () q ∧ Prepares p q ∧
      Supplied p (some name) q.functions := by
  cases hfind : p.functionNamed? name with
  | some m =>
    obtain ⟨x, hx, -⟩ := exists_of_functionNamed? hfind
    have hensure : ensureFunction name sig p = .ok m p := by simp [ensureFunction, hfind]
    cases htag : x.metadata.find? tag with
    | some node =>
      have htag : (x.metadata.find? tag).isSome := Option.isSome_of_eq_some htag
      exact ⟨m, p, p, hensure, tagMarker_of_tagged hx htag, .refl p, .found ⟨m, x, hfind, hx, htag⟩⟩
    | none =>
      obtain ⟨node, q, hrun, hq, hfunctions⟩ := tagMarker_untagged hx htag
      exact ⟨m, p, q, hensure, hrun, hq, hfunctions ▸ .tagged hfind hx htag node⟩
  | none =>
    let u : Program := { p with functions := p.functions.push ⟨name, sig, [], .empty⟩ }
    have hu : Prepares p u := ⟨rfl, List.prefix_refl _, List.prefix_refl _⟩
    have hensure : ensureFunction name sig p = .ok p.functions.next u := by
      have hsig : ((p.type? sig).bind Ty.signature?).isNone = false := by simpa using hsig
      simp [ensureFunction, addFunction, hfind, hsig, u]
    obtain ⟨node, q, hrun, hq, hfunctions⟩ := tagMarker_untagged (p := u) (Slots.get?_push_next _ _) rfl
    refine ⟨_, u, q, hensure, hrun, hu.trans hq, ?_⟩
    rw [hfunctions, Listed.modify_push_next]
    exact .declared hfind sig node

/-- The marker of a pointer type is found or declared, and it is tagged. -/
theorem marker_supplies {type pointee : Handle .type} (hpointee : p.pointee? type = some pointee) :
    ∃ m q, marker type p = .ok m q ∧ Prepares p q ∧
      Supplied p (some (markerBeginning ++ p.typeText pointee)) q.functions := by
  obtain ⟨void, hsig, -⟩ := type?_markerSignature type p
  have hsignature := prepares_markerSignature type p
  obtain ⟨m, u, q, hensure, htag, hq, hsupplied⟩ :=
    ensureMarker_supplies (markerBeginning ++ p.typeText pointee) (show Option.isSome _ by rw [hsig]; rfl)
  exact ⟨m, q, (marker_eq_ok hpointee).2 ⟨u, hensure, htag⟩, hsignature.trans hq, hsupplied.congr rfl⟩

/-! ## The call -/

/-- A function can be called with one argument, or it is found out that it cannot. -/
theorem resultType_call_cases (callee : Handle .function) (v : Value) (p : Program) :
    (∃ type, p.Unary callee type) ∨ ∃ e, resultType (.call callee [v]) p = .error e p := by
  simp only [resultType, get_bind_eq]
  cases hx : p.function? callee with
  | none => exact .inr ⟨_, rfl⟩
  | some x =>
    dsimp only
    cases hsig : (p.type? x.type).bind Ty.signature? with
    | none => exact .inr ⟨_, rfl⟩
    | some sig =>
      dsimp only
      split
      · next hlength => exact .inl ⟨sig.1, x, sig.2, hx, hsig, hlength⟩
      · exact .inr ⟨_, rfl⟩

/-- A call that is refused leaves no trace. -/
theorem insertAt_call_cases (f callee : Handle .function) (pos : Nat) (v : Value) (p : Program) :
    (p.hasFunction f ∧ ∃ type, p.Unary callee type) ∨ ∃ e, insertAt f pos (.call callee [v]) p = .error e p := by
  cases hf : p.hasFunction f with
  | false => exact .inr ⟨_, insertAt_of_not hf⟩
  | true =>
    rcases resultType_call_cases callee v p with hcallee | ⟨e, he⟩
    · exact .inl ⟨rfl, hcallee⟩
    · refine .inr ⟨e, ?_⟩
      rw [insertAt_eq hf, he]

theorem insertAt_call_refused {callee : Handle .function} {pos : Nat} {v : Value} {e : ProgramError}
    (h : insertAt f pos (.call callee [v]) p = .error e q) : q = p := by
  rcases insertAt_call_cases f callee pos v p with ⟨hf, type, hcallee⟩ | ⟨e', he⟩
  · obtain ⟨r, hrun, -⟩ := insertAt_unary hf hcallee pos v
    cases h.symm.trans hrun
  · cases h.symm.trans he
    rfl

theorem insertAfter_call_refused {anchor : Handle .inst} {callee : Handle .function} {v : Value} {e : ProgramError}
    (h : insertAfter anchor (.call callee [v]) p = .error e q) : q = p := by
  rw [insertAfter_eq] at h
  split at h
  · exact insertAt_call_refused h
  · cases h
    rfl

/-- A function that takes one argument can be called at the start of several functions. -/
theorem insertCalls_unary {callee : Handle .function} {type : Handle .type} (v : Value) {fs : List (Handle .function)}
    (hfs : ∀ f ∈ fs, p.hasFunction f) (hcallee : p.Unary callee type) :
    ∃ cs q, fs.mapM (fun f => insertAt f 0 (.call callee [v])) p = .ok cs q := by
  induction fs generalizing p with
  | nil => exact ⟨[], p, rfl⟩
  | cons f fs ih =>
    obtain ⟨hf, hfs⟩ := List.forall_mem_cons.1 hfs
    obtain ⟨u, hrun, hu⟩ := insertAt_unary hf hcallee 0 v
    have hfs' : ∀ g ∈ fs, u.hasFunction g := fun g hg => (hu.hasFunction g).trans (hfs g hg)
    obtain ⟨cs, q, hruns⟩ := ih hfs' (hu.unary hcallee)
    exact ⟨_, q, action_mapM_cons hrun hruns⟩

/-- Of several calls of one function the first one is refused or none is. -/
theorem insertCalls_refused {callee : Handle .function} {v : Value} {fs : List (Handle .function)}
    (hfs : ∀ f ∈ fs, p.hasFunction f) {e : ProgramError}
    (h : fs.mapM (fun f => insertAt f 0 (.call callee [v])) p = .error e q) : q = p := by
  cases fs with
  | nil => cases h
  | cons f fs =>
    rcases insertAt_call_cases f callee 0 v p with ⟨hf, type, hcallee⟩ | ⟨e', he⟩
    · obtain ⟨cs, r, hrun⟩ := insertCalls_unary v hfs hcallee
      cases h.symm.trans hrun
    · rw [List.mapM_cons, action_bind_eq_error] at h
      rcases h with h | ⟨c, u, h, -⟩
      · cases h.symm.trans he
        rfl
      · cases h.symm.trans he

/-! ## Marking -/

/-- Calls that are refused leave no trace. -/
theorem callsOn_refused (hp : p.Consistent) (h : callsOn ptr T m p = .error cause q) : q = p := by
  cases ptr with
  | inst slot =>
    rcases action_bind_eq_error.1 h with h | ⟨c, r, -, ⟨⟩⟩
    obtain ⟨e, h⟩ := eq_error_of_adaptExcept h
    exact insertAfter_call_refused h
  | argument g index =>
    rcases action_bind_eq_error.1 h with h | ⟨c, r, -, ⟨⟩⟩
    obtain ⟨e, h⟩ := eq_error_of_adaptExcept h
    exact insertAt_call_refused h
  | global g =>
    obtain ⟨e, h⟩ := eq_error_of_adaptExcept h
    refine insertCalls_refused (fun f hf => ?_) h
    rw [storingFunctions_eq hp] at hf
    exact hp.order.mem_iff.1 (List.mem_filter.1 hf).1
  | function g | constant g =>
    cases h
    rfl

/-- A marking finds that the value is no pointer, or it comes to the calls of the marker. -/
theorem markPointer_cases (ptr : Value) (p : Program) :
    (markerName? p ptr = none ∧
      ∃ cause u, markPointer ptr p = .error cause u ∧ Prepares p u ∧ u.functions = p.functions) ∨
      ∃ T u t m w, valueType ptr p = .ok T u ∧ u.pointee? T = some t ∧ marker T u = .ok m w ∧
        markPointer ptr p = callsOn ptr T m w := by
  have hrun := congrFun (markPointer_eq_bind ptr) p
  have htyping := prepares_valueType ptr p
  simp only [bind, EStateM.bind, Program.lift, EStateM.adaptExcept] at hrun
  rw [markerName?]
  cases htype : valueType ptr p with
  | error e u =>
    rw [htype] at hrun htyping
    exact .inl ⟨rfl, _, u, hrun, htyping⟩
  | ok T u =>
    rw [htype] at hrun htyping
    dsimp only at hrun
    cases hpointee : u.pointee? T with
    | none =>
      rw [marker_of_not_pointer hpointee] at hrun
      exact .inl ⟨by simp only [hpointee, Option.map_none], _, u, hrun, htyping⟩
    | some t =>
      obtain ⟨m, w, hmarker, -⟩ := marker_supplies hpointee
      rw [hmarker] at hrun
      exact .inr ⟨T, u, t, m, w, rfl, hpointee, hmarker, hrun⟩

/-- A marking that is refused has entered types and nodes and left all instructions and bodies as they were. But if the
type of the value is that of a pointer, the marker for it is there then and is tagged. So the functions are the same
if and only if the value has no such type, or its marker was there and tagged before. -/
theorem markPointer_refused (hp : p.Reachable) (hrun : markPointer ptr p = .error cause q) :
    Prepares p q ∧ (∀ g, q.body g = p.body g) ∧ Supplied p (markerName? p ptr) q.functions ∧
      (q.functions = p.functions ↔ ∀ name, markerName? p ptr = some name → Provides p name) := by
  have hkey : Prepares p q ∧ Supplied p (markerName? p ptr) q.functions := by
    rcases markPointer_cases ptr p with ⟨hname, _, u, hrun', hu, hfunctions⟩ |
      ⟨T, u, t, m, w, htype, hpointee, hmarker, hcalls⟩
    · cases hrun.symm.trans hrun'
      rw [hname, hfunctions]
      exact ⟨hu, .nothing⟩
    · have htyping := prepares_valueType ptr p
      rw [htype] at htyping
      obtain ⟨hu, hfunctions⟩ : Prepares p u ∧ u.functions = p.functions := htyping
      have hname : markerName? p ptr = some (markerBeginning ++ u.typeText t) := by
        simp only [markerName?, htype, hpointee, Option.map_some]
      obtain ⟨m', w', hmarker', hw, hsupplied⟩ := marker_supplies hpointee
      cases hmarker.symm.trans hmarker'
      have hconsistent : w.Consistent := consistent_steps
        ((grows_of_valueType htype).quiet.steps.trans (steps_of_ok (edits_marker T) hmarker)) hp.consistent
      rw [hcalls] at hrun
      rw [hname, callsOn_refused hconsistent hrun]
      exact ⟨hu.trans hw, hsupplied.congr hfunctions⟩
  obtain ⟨hprepares, hsupplied⟩ := hkey
  exact ⟨hprepares, hsupplied.body, hsupplied, hsupplied.eq_iff⟩

/-- A slot for a float, and a null pointer to an integer. There is a function named like the marker for the slot, which
takes no argument and is not tagged. -/
def unmarkable : Program :=
  ([.type .void, .type (.float 32), .type (.function ⟨0⟩ []), .type (.int 32), .type (.pointer ⟨3⟩ .default),
    .addFunction "dx.attribute.precise.float" ⟨2⟩, .addFunction "main" ⟨2⟩, .append ⟨1⟩ (.alloca ⟨1⟩),
    .constant (.zero ⟨4⟩)] : List ProgramOp).foldl ProgramOp.apply (.empty "unmarkable")

/-- The function cannot be called on the slot, but it has been tagged. -/
theorem markPointer_refused_unmarkable :
    ∃ q, markPointer (.inst ⟨0⟩) unmarkable = .error (.program (.argumentCount ⟨0⟩ 0 1)) q ∧
      q.functions ≠ unmarkable.functions ∧ ∀ g, q.body g = unmarkable.body g := by
  have hp : unmarkable.Reachable := reachable_foldl _ _
  obtain ⟨q, hrun⟩ : ∃ q, markPointer (.inst ⟨0⟩) unmarkable = .error (.program (.argumentCount ⟨0⟩ 0 1)) q :=
    ⟨_, rfl⟩
  have hname : markerName? unmarkable (.inst ⟨0⟩) = some "dx.attribute.precise.float" := by decide +kernel
  have hnot : ¬ Provides unmarkable "dx.attribute.precise.float" := by decide +kernel
  obtain ⟨-, hbody, -, hsame⟩ := markPointer_refused hp hrun
  exact ⟨q, hrun, fun heq => hnot (hsame.1 heq _ hname), hbody⟩

/-- A null pointer is refused after a marker was declared for it. -/
theorem markPointer_declares_in_vain :
    unmarkable.Reachable ∧ unmarkable.functions.order = [⟨0⟩, ⟨1⟩] ∧
      ∃ q, markPointer (.constant ⟨0⟩) unmarkable = .error (.notAPointer "i32*") q ∧
        q.functions.order = [⟨0⟩, ⟨1⟩, ⟨2⟩] ∧ q.functionMetadata? ⟨2⟩ tag ≠ none := by
  refine ⟨reachable_foldl _ _, by decide +kernel, _, rfl, by decide +kernel, by decide +kernel⟩

end Precise

end ShaderModule

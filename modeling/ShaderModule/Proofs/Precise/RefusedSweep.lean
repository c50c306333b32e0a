import Mathlib.Data.List.TakeWhile
import ShaderModule.Proofs.Precise.Conversion

/-!
# Refused sweeps: `convert_precise_marker_calls`

The sweep converts the marker calls one after another. If it comes to one that is on something that is gone, it stops
there: the calls before it have been converted by then, and some of what the stuck one asks for may have been tagged.
-/

namespace ShaderModule

open Program

namespace Precise

variable {p q r : Program} {erased : List (Handle .inst)} {T : Handle .inst → Prop} {v : Value} {c : Handle .inst}
  {cause : ProgramError}

/-! ## Tagging -/

theorem tagInst_of_gone {x : Handle .inst} (hx : ¬ q.hasInst x) :
    Precise.tagInst x q = .error (.unknownInst x) (tagNode q).2 := by
  have hset : setInstMetadata x tag (some (tagNode q).1) (tagNode q).2 = .error (.unknownInst x) (tagNode q).2 := by
    refine if_neg ?_
    rwa [(growing_tagNode q).quiet.hasInst x]
  exact action_bind_eq_error.2 (.inr ⟨_, _, edit_eq tagNode q, hset⟩)

/-- Tagging stops at the first instruction that is gone. -/
theorem Swept.tagInsts_cases (hs : Swept p q erased T) (xs : List (Handle .inst)) :
    ∃ r, Swept p r erased (fun o => T o ∨ o ∈ xs.takeWhile q.hasInst) ∧
      ((∀ x ∈ xs, q.hasInst x) ∧ xs.forM Precise.tagInst q = .ok () r ∨
        (∃ x ∈ xs, ¬ q.hasInst x) ∧ ∃ cause, xs.forM Precise.tagInst q = .error cause r) := by
  by_cases hall : ∀ x ∈ xs, q.hasInst x
  · obtain ⟨r, hrun, hr⟩ := hs.tagInsts hall
    rw [List.takeWhile_eq_self_iff.2 hall]
    exact ⟨r, hr, .inl ⟨hall, hrun⟩⟩
  · have hne : xs.dropWhile q.hasInst ≠ [] := fun h => hall (List.dropWhile_eq_nil_iff.1 h)
    obtain ⟨x, rest, hrest⟩ := List.exists_cons_of_ne_nil hne
    have hx : ¬ q.hasInst x := by
      have := List.head_dropWhile_not q.hasInst hne
      simpa [hrest] using this
    have hsplit : xs = xs.takeWhile q.hasInst ++ x :: rest := by
      rw [← hrest, List.takeWhile_append_dropWhile]
    have htaken : ∀ y ∈ xs.takeWhile q.hasInst, q.hasInst y := fun y hy => List.mem_takeWhile_imp hy
    obtain ⟨u, hrun, hu⟩ := hs.tagInsts htaken
    have hxu : ¬ u.hasInst x := by rwa [hu.hasInst, ← hs.hasInst]
    have hstop : (x :: rest).forM Precise.tagInst u = .error (.unknownInst x) (tagNode u).2 :=
      action_bind_eq_error.2 (.inl (tagInst_of_gone hxu))
    refine ⟨(tagNode u).2, hu.grows (growing_tagNode u), .inr ⟨by simpa using hall, .unknownInst x, ?_⟩⟩
    rw [hsplit]
    exact (congrFun List.forM_append q).trans (action_bind_eq_error.2 (.inr ⟨(), u, hrun, hstop⟩))

/-! ## One call -/

theorem storedInsts_of_grows (h : p.Grows q) (ptr : Value) : storedInsts q ptr = storedInsts p ptr := by
  have hkind : q.instKind? = p.instKind? := funext h.quiet.instKind?
  have hbody : q.body = p.body := funext h.quiet.body
  have huses : q.uses ptr = p.uses ptr := funext fun x => by
    rw [uses, uses, hkind]
  rw [storedInsts, storedInsts, users, users, Program.code, Program.code, h.functions, hkind, hbody, huses]

/-- A marker call on a value cannot be converted: the value is gone, or an instruction whose result is stored through
it. -/
def Stuck (p : Program) (v : Value) : Prop :=
  (∀ t q, valueType v p ≠ .ok t q) ∨ (p.IsPointer v ∧ ∃ h ∈ storedInsts p v, ¬ p.hasInst h)

/-- The instructions that are tagged for a call on a value before one comes that is gone. -/
def reached (p : Program) (v : Value) : List (Handle .inst) :=
  if p.IsPointer v then (storedInsts p v).takeWhile p.hasInst else []

/-- What a call asks for cannot be found out if the type of the value cannot. If it can, all that may be gone of it are
instructions whose results are stored through the value. -/
theorem targets_cases (v : Value) (p : Program) :
    (∃ cause q, targets v p = .error cause q ∧ p.Grows q ∧ ∀ t r, valueType v p ≠ .ok t r) ∨
      ∃ xs q, targets v p = .ok xs q ∧ p.Grows q ∧
        (p.IsPointer v ∧ xs = storedInsts p v ∨ ∀ x ∈ xs, p.hasInst x) := by
  cases htype : valueType v p with
  | error cause q =>
    have hgrows := grows_valueType v p
    rw [htype] at hgrows
    exact .inl ⟨cause, q, action_bind_eq_error.2 (.inl htype), hgrows, nofun⟩
  | ok t q =>
    have hgrows : p.Grows q := grows_of_valueType htype
    refine .inr ⟨_, q, targets_of_valueType htype, hgrows, ?_⟩
    split
    · next hpointer => exact .inl ⟨⟨t, q, htype, hpointer⟩, storedInsts_of_grows hgrows v⟩
    · refine .inr fun x hx => ?_
      rw [Option.mem_toList, Value.inst?_eq_some] at hx
      subst hx
      exact isLive_iff.2 ⟨t, q, htype⟩

/-- A marker call is converted, or it is stuck and stays. -/
theorem Swept.convertCall_cases (hs : Swept p q erased T) (hp : p.Consistent) (hc : q.hasInst c)
    (arg : Option Value) :
    (∃ r U, convertCall c arg q = .ok () r ∧ Swept p r (c :: erased) U) ∨
      ∃ v cause r, arg = some v ∧ convertCall c arg q = .error cause r ∧ Stuck q v ∧
        Swept p r erased fun o => T o ∨ o ∈ reached q v := by
  cases arg with
  | none =>
    obtain ⟨r, hrun, hr⟩ := hs.tagInsts_eraseInst hp hc [] (by simp)
    exact .inl ⟨r, _, action_bind_eq_ok.2 ⟨[], q, rfl, hrun⟩, hr⟩
  | some v =>
    rcases targets_cases v q with ⟨cause, u, htargets, hu, huntyped⟩ | ⟨xs, u, htargets, hu, hxs⟩
    · have hno : ¬ q.IsPointer v := fun ⟨t, w, hrun, _⟩ => huntyped t w hrun
      refine .inr ⟨v, cause, u, rfl, action_bind_eq_error.2 (.inl htargets), .inl huntyped, ?_⟩
      rw [reached, if_neg hno]
      exact (hs.grows hu).congr (by simp)
    · have hlive : u.hasInst = q.hasInst := funext hu.quiet.hasInst
      by_cases hall : ∀ x ∈ xs, q.hasInst x
      · -- Once all that was asked for has been tagged, nothing stands in the way of erasing the call.
        obtain ⟨r, hrun, hr⟩ := (hs.grows hu).tagInsts_eraseInst hp (hlive ▸ hc) xs (hlive ▸ hall)
        exact .inl ⟨r, _, action_bind_eq_ok.2 ⟨xs, u, htargets, hrun⟩, hr⟩
      · obtain ⟨hv, rfl⟩ := hxs.resolve_right hall
        obtain ⟨r, hr, hcases⟩ := (hs.grows hu).tagInsts_cases (storedInsts q v)
        rw [hlive] at hr hcases
        obtain ⟨hgone, cause, hrun⟩ := hcases.resolve_left fun h => hall h.1
        refine .inr ⟨v, cause, r, rfl, ?_, .inr ⟨hv, hgone⟩, ?_⟩
        · exact action_bind_eq_error.2 (.inr ⟨_, u, htargets, action_bind_eq_error.2 (.inl hrun)⟩)
        · rwa [reached, if_pos hv]

/-- Calls that have been converted are gone. -/
theorem Swept.of_convertCalls (hp : p.Consistent) {calls : List (Handle .inst × Option Value)} (hs : Swept p q erased T)
    (hlive : ∀ x ∈ calls, q.hasInst x.1) (hn : (calls.map Prod.fst).Nodup)
    (hrun : calls.forM (fun x => convertCall x.1 x.2) q = .ok () r) :
    ∃ U, Swept p r ((calls.map Prod.fst).reverse ++ erased) U := by
  induction calls generalizing q erased T with
  | nil =>
    cases hrun
    exact ⟨T, hs⟩
  | cons x calls ih =>
    obtain ⟨hx, hn⟩ := List.nodup_cons.1 hn
    obtain ⟨hc, hlive⟩ := List.forall_mem_cons.1 hlive
    obtain ⟨⟨⟩, u, hfirst, hrest⟩ := action_bind_eq_ok.1 hrun
    rcases hs.convertCall_cases hp hc x.2 with ⟨u', U, hrun', hu⟩ | ⟨v, cause, u', -, hrun', -⟩
    · cases hfirst.symm.trans hrun'
      have hlive' : ∀ y ∈ calls, u.hasInst y.1 := by
        intro y hy
        have hne : y.1 ≠ x.1 := fun heq => hx (heq ▸ List.mem_map_of_mem hy)
        obtain ⟨hold, hkept⟩ := hs.hasInst.1 (hlive y hy)
        exact hu.hasInst.2 ⟨hold, List.not_mem_cons_of_ne_of_not_mem hne hkept⟩
      obtain ⟨V, hr⟩ := ih hu hlive' hn hrest
      refine ⟨V, ?_⟩
      rwa [List.map_cons, List.reverse_cons, List.append_assoc]
    · cases hfirst.symm.trans hrun'

/-! ## The sweep -/

/-- No marker call is gone, the tags are the same, and all functions are there. -/
structure Intact (p q : Program) : Prop where
  calls     : ∀ c, callsMarker p c → q.hasInst c
  tags      : ∀ h, q.instMetadata? h tag = p.instMetadata? h tag
  functions : ∀ g, p.hasFunction g → q.hasFunction g

/-- In a program without repetitions there is one node that tags instructions. -/
theorem IsTagNode.unique (hp : p.Uniqued) {m n : Handle .node} (hm : IsTagNode p m) (hn : IsTagNode p n) : m = n := by
  obtain ⟨one, number, type, hnode, hone, hnumber, htype⟩ := hm
  obtain ⟨one', number', type', hnode', hone', hnumber', htype'⟩ := hn
  obtain rfl := Interned.handle_unique hp.types.nodup htype htype'
  obtain rfl := Interned.handle_unique hp.constants.nodup hnumber hnumber'
  obtain rfl := Interned.handle_unique hp.nodes.nodup hone hone'
  exact Interned.handle_unique hp.nodes.nodup hnode hnode'

/-- What has been tagged, and nothing erased, has the tags that it had if and only if all of it had this tag. -/
theorem Swept.tags_eq_iff (hq : Swept p q [] T) (hlive : ∀ h, T h → p.hasInst h) (hu : q.Uniqued) :
    (∀ h, q.instMetadata? h tag = p.instMetadata? h tag) ↔
      ∀ h, T h → ∃ node, p.instMetadata? h tag = some node ∧ IsTagNode q node := by
  have htagged : ∀ h, T h → ∃ node, IsTagNode q node ∧ q.instMetadata? h tag = some node := by
    intro h hT
    obtain ⟨i, hi⟩ := Option.isSome_iff_exists.1 (hlive h hT)
    obtain ⟨node, hnode, hinst⟩ := hq.tagged h List.not_mem_nil hT
    refine ⟨node, hnode, ?_⟩
    rw [instMetadata?, hinst, hi, Option.map_some, Option.bind_some, find?_tagWith]
  constructor
  · intro hsame h hT
    obtain ⟨node, hnode, htag⟩ := htagged h hT
    exact ⟨node, hsame h ▸ htag, hnode⟩
  · intro hhad h
    by_cases hT : T h
    · obtain ⟨node, hnode, htag⟩ := htagged h hT
      obtain ⟨node', htag', hnode'⟩ := hhad h hT
      rw [htag, htag', hnode.unique hu hnode']
    · rw [instMetadata?, hq.kept h List.not_mem_nil hT, instMetadata?]

/-- A sweep that is refused stops at one marker call. -/
theorem sweep_stops (hp : p.Consistent) (hrun : sweep p = .error cause q) :
    ∃ done c v rest r U, markerCalls p = done ++ (c, some v) :: rest ∧
      done.forM (fun x => convertCall x.1 x.2) p = .ok () r ∧ Swept p r (done.map Prod.fst).reverse U ∧
      Stuck r v ∧ Swept r q [] (· ∈ reached r v) := by
  have hlive : ∀ x ∈ markerCalls p, p.hasInst x.1 := by
    intro x hx
    obtain ⟨m, args, hk, -, -⟩ := (mem_markerCalls hp).1 hx
    exact hasInst_of_instKind? hk
  have hn := nodup_markerCalls hp
  have hrun : ((markerCalls p).forM (fun x => convertCall x.1 x.2) >>= fun _ => (markers p).forM dropMarker >>= fun _ =>
      pure (markerCalls p).length : Edit ProgramError Nat) p = .error cause q := hrun
  rcases action_bind_eq_error.1 hrun with hcalls | ⟨⟨⟩, u, hcalls, hrest⟩
  · -- The calls are converted up to one for which this fails.
    obtain ⟨done, ⟨c, arg⟩, rest, r, hsplit, hdone, hx⟩ := exists_of_action_forM_eq_error hcalls
    rw [hsplit] at hlive hn
    rw [List.map_append, List.map_cons, List.nodup_append] at hn
    obtain ⟨hndone, -, hdisjoint⟩ := hn
    obtain ⟨U, hr⟩ := Swept.of_convertCalls hp (swept_refl p)
      (fun y hy => hlive y (List.mem_append_left _ hy)) hndone hdone
    rw [List.append_nil] at hr
    have hc : r.hasInst c := by
      refine hr.hasInst.2 ⟨hlive (c, arg) (List.mem_append_right _ List.mem_cons_self), fun hmem => ?_⟩
      exact hdisjoint c (List.mem_reverse.1 hmem) c List.mem_cons_self rfl
    have hconsistent : r.Consistent := consistent_steps hr.steps hp
    rcases (swept_refl r).convertCall_cases hconsistent hc arg with
      ⟨q', U', hrun', -⟩ | ⟨v, cause', q', rfl, hrun', hstuck, hq⟩
    · cases hx.symm.trans hrun'
    · cases hx.symm.trans hrun'
      exact ⟨done, c, v, rest, r, U, hsplit, hdone, hr, hstuck, hq.congr (by simp)⟩
  · -- Markers that nothing uses can always be deleted.
    obtain ⟨U, hu⟩ := Swept.of_convertCalls hp (swept_refl p) hlive hn hcalls
    obtain ⟨w, hdrop, -⟩ := hu.dropMarkers hp
    rcases action_bind_eq_error.1 hrest with hrest | ⟨⟨⟩, w', -, ⟨⟩⟩
    cases hrest.symm.trans hdrop

/-- A sweep that is refused has come to a marker call that is stuck. The calls before it, in the order of the program,
have been converted and are gone. Of what the stuck one asks for, the instructions are tagged that come before one that
is gone, and everything else is as the converted calls have left it. No function is gone. So the sweep has left
everything as it was if and only if there were no calls before, and what is tagged now was tagged before. -/
theorem sweep_refused (hp : p.Reachable) (hrun : sweep p = .error cause q) :
    ∃ done c v rest r U, markerCalls p = done ++ (c, some v) :: rest ∧
      done.forM (fun x => convertCall x.1 x.2) p = .ok () r ∧ Swept p r (done.map Prod.fst).reverse U ∧
      Stuck r v ∧ Swept r q [] (· ∈ reached r v) ∧ (∀ g, q.hasFunction g = p.hasFunction g) ∧
      (∀ h, q.hasInst h ↔ p.hasInst h ∧ h ∉ done.map Prod.fst) ∧
      (Intact p q ↔ done = [] ∧
        ∀ h ∈ reached p v, ∃ node, p.instMetadata? h tag = some node ∧ IsTagNode q node) := by
  obtain ⟨done, c, v, rest, r, U, hsplit, hdone, hr, hstuck, hq⟩ := sweep_stops hp.consistent hrun
  have hfunctions : ∀ g, q.hasFunction g = p.hasFunction g := by
    intro g
    rw [hasFunction, hq.function, Option.isSome_map, hr.function, Option.isSome_map, hasFunction]
  have hinsts : ∀ h, q.hasInst h ↔ p.hasInst h ∧ h ∉ done.map Prod.fst := by
    intro h
    rw [hq.hasInst, hr.hasInst, List.mem_reverse]
    simp
  have hcall : ∀ x ∈ done, callsMarker p x.1 := by
    intro x hx
    have hmem : x ∈ markerCalls p := hsplit ▸ List.mem_append_left _ hx
    exact callsMarker_iff.2 ⟨x.2, (mem_markerCalls hp.consistent).1 hmem⟩
  have huniqued : q.Uniqued := Steps.uniqued (hr.steps.trans hq.steps) hp.uniqued
  have hreached : ∀ h ∈ reached r v, r.hasInst h := by
    intro h hh
    unfold reached at hh
    split at hh
    · exact List.mem_takeWhile_imp hh
    · cases hh
  refine ⟨done, c, v, rest, r, U, hsplit, hdone, hr, hstuck, hq, hfunctions, hinsts, fun hintact => ?_, ?_⟩
  · -- A call that was converted is gone, so nothing is left as it was unless there was none.
    have hnone : done = [] := by
      rw [List.eq_nil_iff_forall_not_mem]
      intro x hx
      exact ((hinsts x.1).1 (hintact.calls x.1 (hcall x hx))).2 (List.mem_map_of_mem hx)
    subst hnone
    cases hdone
    exact ⟨rfl, (hq.tags_eq_iff hreached huniqued).1 hintact.tags⟩
  · rintro ⟨rfl, hhad⟩
    cases hdone
    refine ⟨fun x hx => (hinsts x).2 ⟨?_, by simp⟩, (hq.tags_eq_iff hreached huniqued).2 hhad, fun g hg => ?_⟩
    · obtain ⟨arg, m, args, hk, -⟩ := callsMarker_iff.1 hx
      exact hasInst_of_instKind? hk
    · rwa [hfunctions]

/-- Two slots, of which the first one has a sum stored in it. Some slots are marked, and something is erased then. -/
def marked (slots : List (Handle .inst)) (gone : Handle .inst) : Program :=
  (([.type .void, .type (.float 32), .type (.function ⟨0⟩ [⟨1⟩]), .addFunction "main" ⟨2⟩, .append ⟨0⟩ (.alloca ⟨1⟩),
      .append ⟨0⟩ (.binary .fadd (.argument ⟨0⟩ 0) (.argument ⟨0⟩ 0)), .append ⟨0⟩ (.store (.inst ⟨0⟩) (.inst ⟨1⟩)),
      .append ⟨0⟩ (.alloca ⟨1⟩)] : List ProgramOp) ++
    slots.map (fun s => ProgramOp.markPointer (.inst s)) ++ [ProgramOp.eraseInst gone]).foldl
      ProgramOp.apply (.empty "marked")

/-- If only the second slot was marked and is gone, the sweep stops before it does anything. -/
theorem sweep_refused_marked :
    ∃ cause q, sweep (marked [⟨3⟩] ⟨3⟩) = .error cause q ∧ Intact (marked [⟨3⟩] ⟨3⟩) q := by
  have hp : (marked [⟨3⟩] ⟨3⟩).Reachable := reachable_foldl _ _
  have hcalls : markerCalls (marked [⟨3⟩] ⟨3⟩) = [(⟨4⟩, some (.inst ⟨3⟩))] := by decide +kernel
  have hreached : reached (marked [⟨3⟩] ⟨3⟩) (.inst ⟨3⟩) = [] := by decide +kernel
  obtain ⟨cause, q, hrun, -⟩ : ∃ cause q, sweep (marked [⟨3⟩] ⟨3⟩) = .error cause q ∧ True := by decide +kernel
  obtain ⟨done, c, v, rest, r, U, hsplit, -, -, -, -, -, -, hintact⟩ := sweep_refused hp hrun
  rw [hcalls] at hsplit
  refine ⟨cause, q, hrun, hintact.2 ?_⟩
  cases done with
  | nil =>
    obtain ⟨⟨-, hv⟩, -⟩ : (⟨4⟩ = c ∧ Value.inst ⟨3⟩ = v) ∧ [] = rest := by simpa using hsplit
    rw [← hv, hreached]
    exact ⟨rfl, by simp⟩
  | cons x done => simp at hsplit

/-- If both slots were marked and the second one is gone, the first call is erased and the sum is tagged before the
sweep stops. -/
theorem sweep_stops_halfway :
    (marked [⟨0⟩, ⟨3⟩] ⟨3⟩).Reachable ∧ callsMarker (marked [⟨0⟩, ⟨3⟩] ⟨3⟩) ⟨4⟩ ∧
      ¬ isTagged (marked [⟨0⟩, ⟨3⟩] ⟨3⟩) ⟨1⟩ ∧
      ∃ cause q, sweep (marked [⟨0⟩, ⟨3⟩] ⟨3⟩) = .error cause q ∧ ¬ q.hasInst ⟨4⟩ ∧ isTagged q ⟨1⟩ :=
  ⟨reachable_foldl _ _, by decide +kernel, by decide +kernel, by decide +kernel⟩

end Precise

end ShaderModule

import ShaderModule.Proofs.Precise.Calls

/-!
# Marking and sweeping tags directly

When the marker calls on a pointer are swept up right after they were made, calls and marker are gone
again. What is left of them are tags on the instructions whose results are stored through the pointer.
-/

namespace ShaderModule

open Program

/-- Whether the result of an instruction is stored through a pointer, wherever that may be. -/
def Program.StoredThrough (p : Program) (ptr : Value) (h : Handle .inst) : Prop :=
  ∃ x, p.instKind? x = some (.store ptr (.inst h))

namespace Precise

variable {p q r : Program} {m : Handle .function} {ptr : Value} {calls : List (Handle .inst)}

/-- `q` is `p` with tags on the instructions whose results are stored through a pointer. -/
structure TagsStored (p q : Program) (ptr : Value) : Prop where
  grown    : p.Extends q
  globals  : q.globals = p.globals
  order    : q.functions.order = p.functions.order
  function : ∀ g, q.function? g = p.function? g
  tagged   : ∀ h, p.StoredThrough ptr h →
    ∃ i node, p.inst? h = some i ∧ IsTagNode q node ∧ q.inst? h = some (tagWith node i)
  others   : ∀ h, ¬ p.StoredThrough ptr h → q.inst? h = p.inst? h

theorem Pristine.inst?_of_storedThrough (hp : Pristine p) {h : Handle .inst} (hh : p.StoredThrough ptr h) :
    ∃ i, p.inst? h = some i := by
  obtain ⟨x, hk⟩ := hh
  have hlive := hp.live x (.inst h) (uses_value_of_store hk)
  exact Option.isSome_iff_exists.1 hlive

namespace Called

variable (hq : Called p q m ptr calls)

include hq

/-- What was there is none of the calls. -/
theorem not_mem_calls {h : Handle .inst} {i : Inst} (hi : p.inst? h = some i) : h ∉ calls := by
  intro hh
  cases (hq.fresh h hh).symm.trans hi

/-- Besides the calls, instructions do what they did. -/
theorem instKind?_eq_some {h : Handle .inst} {k : InstKind} :
    q.instKind? h = some k ↔ p.instKind? h = some k ∨ h ∈ calls ∧ k = .call m [ptr] := by
  by_cases hh : h ∈ calls
  · have hnone : p.instKind? h = none := by rw [instKind?, hq.fresh h hh, Option.map_none]
    simp [hq.call h hh, hnone, hh, eq_comm]
  · simp [instKind?, hq.inst h hh, hh]

/-- The calls store nothing. -/
theorem storedThrough_iff {v : Value} {h : Handle .inst} : q.StoredThrough v h ↔ p.StoredThrough v h := by
  simp [StoredThrough, hq.instKind?_eq_some]

/-- Functions that were there have kept their types. -/
theorem function?_kept {g : Handle .function} {x : Function} (hx : p.function? g = some x) :
    ∃ y, q.function? g = some y ∧ y.type = x.type := by
  have hgm : g ≠ m := by
    rintro rfl
    cases hq.new.symm.trans hx
  obtain ⟨y, hy, rfl⟩ := Option.map_eq_some_iff.1 ((hq.function g hgm).trans hx)
  exact ⟨y, hy, rfl⟩

variable (hp : Pristine p)

include hp

/-- Only the marker is named like one. -/
theorem eq_marker {g : Handle .function} {y : Function} (hy : q.function? g = some y) (hname : isMarkerName y.name) :
    g = m := by
  by_contra hgm
  have hx := hq.function g hgm
  rw [hy, Option.map_some] at hx
  have hother := hp.names g _ hx.symm
  exact hother hname

theorem namesMarkers : NamesMarkers q := by
  intro g y hy hname
  obtain rfl := hq.eq_marker hp hy hname
  obtain ⟨x, hx, -, hshape⟩ := hq.marker
  cases hx.symm.trans hy
  exact hshape

/-- There is no other marker. -/
theorem isMarker_iff {g : Handle .function} : isMarker q g ↔ g = m := by
  rw [(hq.namesMarkers hp).isMarker_iff]
  constructor
  · rintro ⟨y, hy, hname⟩
    exact hq.eq_marker hp hy hname
  · rintro rfl
    obtain ⟨x, hx, hname, -⟩ := hq.marker
    exact ⟨x, hx, hname⟩

/-- Only the calls use the marker. -/
theorem mem_calls_of_uses {h : Handle .inst} (huses : q.uses (.function m) h) : h ∈ calls := by
  by_contra hh
  have hlive := hp.live h (.function m) (by rwa [uses, instKind?, hq.inst h hh] at huses)
  rw [isLive, hasFunction, hq.new] at hlive
  cases hlive

/-- There are no other marker calls. -/
theorem isMarkerCall_iff {c : Handle .inst} {v : Value} : IsMarkerCall q c v ↔ c ∈ calls ∧ v = ptr := by
  constructor
  · rintro ⟨g, hk, hg⟩
    obtain rfl := (hq.isMarker_iff hp).1 hg
    have hc := hq.mem_calls_of_uses hp (uses_callee_of_call hk)
    have hcall := (hq.call c hc).symm.trans hk
    simp only [Option.some.injEq, InstKind.call.injEq, List.cons.injEq] at hcall
    exact ⟨hc, hcall.2.1.symm⟩
  · rintro ⟨hc, rfl⟩
    exact ⟨m, hq.call c hc, (hq.isMarker_iff hp).2 rfl⟩

/-- While calls are swept up, the pointer is known to be one, and what is stored through it is found. -/
theorem targets_eq (hc : p.Consistent) (hptr : p.IsPointer ptr) {u : Program} {erased : List (Handle .inst)}
    {T : Handle .inst → Prop} (hu : Swept q u erased T) (herased : ∀ c ∈ erased, ∃ v, IsMarkerCall q c v) :
    ∃ hs r, targets ptr u = .ok hs r ∧ u.Grows r ∧ ∀ h, h ∈ hs ↔ q.StoredThrough ptr h := by
  have herased : ∀ c ∈ erased, c ∈ calls := by
    intro c hce
    obtain ⟨v, hv⟩ := herased c hce
    exact ((hq.isMarkerCall_iff hp).1 hv).1
  have hptr : u.IsPointer ptr := by
    refine hptr.extend (hq.steps.toExtends.trans hu.grown) (hu.edits.globals.trans hq.globals) ?_ ?_
    · intro o i _ hi
      have hcalls := hq.not_mem_calls hi
      rcases hu.inst?_cases (fun he => hcalls (herased o he)) with heq | ⟨node, heq⟩
      · exact ⟨i, by rw [heq, hq.inst o hcalls, hi], rfl⟩
      · exact ⟨tagWith node i, by rw [heq, hq.inst o hcalls, hi, Option.map_some], rfl⟩
    · intro g x hx
      obtain ⟨y, hy, hxy⟩ := hq.function?_kept hx
      exact ⟨_, (hu.function g).trans (congrArg _ hy), hxy⟩
  obtain ⟨t, r, hrun, hpointee⟩ := hptr
  have hgrow : u.Grows r := grows_of_valueType hrun
  have hr : Swept q r erased T := hu.grows hgrow
  refine ⟨storedInsts r ptr, r, ?_, hgrow, fun h => ?_⟩
  · rw [targets_of_valueType hrun, if_pos hpointee]
  · refine hr.mem_storedInsts (consistent_steps hq.steps hc) fun c hce => ?_
    exact ⟨m, [ptr], hq.call c (herased c hce)⟩

/-- A program whose markers have just been called can be swept. -/
theorem sweepable (hc : p.Consistent) (hptr : p.IsPointer ptr) : Sweepable q q.StoredThrough where
  consistent := consistent_steps hq.steps hc
  names      := hq.namesMarkers hp
  called     := by
    intro h g hg huses
    obtain rfl := (hq.isMarker_iff hp).1 hg
    exact ⟨ptr, hq.call h (hq.mem_calls_of_uses hp huses)⟩
  live       := by
    intro v h _ hh
    obtain ⟨i, hi⟩ := hp.inst?_of_storedThrough (hq.storedThrough_iff.1 hh)
    have hcalls := hq.not_mem_calls hi
    refine ⟨?_, fun w hw => hcalls ((hq.isMarkerCall_iff hp).1 hw).1⟩
    rw [hasInst, hq.inst h hcalls, hi]
    rfl
  targets    := by
    rintro v ⟨c, g, hk, hg⟩ u erased T hu herased
    obtain ⟨-, rfl⟩ := (hq.isMarkerCall_iff hp).1 ⟨g, hk, hg⟩
    exact hq.targets_eq hp hc hptr hu herased

/-- The sweep takes the calls back and tags what is stored through the pointer. -/
theorem sweep_eq (hc : p.Consistent) (hptr : p.IsPointer ptr)
    (hcalls : ∀ h, p.StoredThrough ptr h → calls ≠ []) :
    ∃ r, sweep q = .ok calls.length r ∧ TagsStored p r ptr := by
  have hsweep := hq.sweepable hp hc hptr
  obtain ⟨u, r, hrun, hu, hr, hinst, hfunction⟩ := hsweep.sweep_eq
  have hmem : ∀ c, c ∈ ((markerCalls q).map Prod.fst).reverse ↔ c ∈ calls := by
    intro c
    simp only [hsweep.mem_calls, hq.isMarkerCall_iff hp, exists_eq_right]
  have hperm : ((markerCalls q).map Prod.fst).reverse.Perm calls :=
    (List.perm_ext_iff_of_nodup (List.nodup_reverse.2 (nodup_markerCalls hsweep.consistent)) hq.nodup).2 hmem
  have hlength : (markerCalls q).length = calls.length := by simpa using hperm.length_eq
  -- The sweep takes back just what the marking added: the calls, and the marker once nothing calls it.
  have hsame : ∀ g, r.function? g = p.function? g := by
    intro g
    rw [hfunction]
    by_cases hgm : g = m
    · rw [if_pos ((hq.isMarker_iff hp).2 hgm), hgm, hq.new]
    · rw [if_neg (mt (hq.isMarker_iff hp).1 hgm), hu.function, ← hq.function g hgm]
      simp only [hmem]
  refine ⟨r, hlength ▸ hrun, ?_⟩
  constructor
  case grown => exact hq.steps.toExtends.trans (hu.grown.trans hr.steps.toExtends)
  case globals => exact hr.globals.trans (hu.edits.globals.trans hq.globals)
  case order =>
    have hsteps : p.Steps r := hq.steps.trans (hu.steps.trans hr.steps)
    exact hc.order.order_congr (consistent_steps hsteps hc).order fun g => congrArg Option.isSome (hsame g)
  case function => exact hsame
  case tagged =>
    intro h hh
    obtain ⟨i, hi⟩ := hp.inst?_of_storedThrough hh
    have hnot := hq.not_mem_calls hi
    obtain ⟨c, hcall⟩ := List.exists_mem_of_ne_nil _ (hcalls h hh)
    obtain ⟨g, hk, hg⟩ := (hq.isMarkerCall_iff hp).2 ⟨hcall, rfl⟩
    obtain ⟨node, hnode, htagged⟩ :=
      hu.tagged h (mt (hmem h).1 hnot) ⟨ptr, ⟨c, g, hk, hg⟩, hq.storedThrough_iff.2 hh⟩
    refine ⟨i, node, hi, hnode.extend hr.steps.toExtends, ?_⟩
    rw [hinst, htagged, hq.inst h hnot, hi, Option.map_some]
  case others =>
    intro h hh
    rw [hinst]
    by_cases hcall : h ∈ calls
    · rw [hu.gone h ((hmem h).2 hcall), hq.fresh h hcall]
    · rw [hu.kept h (mt (hmem h).1 hcall), hq.inst h hcall]
      rintro ⟨v, ⟨c, g, hk, hg⟩, hstored⟩
      obtain ⟨-, rfl⟩ := (hq.isMarkerCall_iff hp).1 ⟨g, hk, hg⟩
      exact hh (hq.storedThrough_iff.1 hstored)

end Called

/-- Marking a pointer in a program without markers makes one call right after the instruction, at the start of the
argument's function, or at the start of each function that stores through the global. Sweeping the calls up
undoes this and tags the instructions whose results are stored through the pointer. -/
theorem sweep_markPointer (hp : p.Reachable) (hpristine : Pristine p) (hptr : p.IsPointer ptr)
    (hvalue : (∃ h, ptr = .inst h) ∨ (∃ f index, ptr = .argument f index) ∨ ∃ g, ptr = .global g) :
    ∃ calls marked swept, markPointer ptr p = .ok calls marked ∧ (∀ c ∈ calls, IsMarkerCall marked c ptr) ∧
      Placed p marked calls ptr ∧ sweep marked = .ok calls.length swept ∧ TagsStored p swept ptr := by
  obtain ⟨calls, m, marked, hmark, hcalled, hplaced⟩ := markPointer_placed hp.consistent hpristine hptr hvalue
  have hcalls : ∀ h, p.StoredThrough ptr h → calls ≠ [] := fun h ⟨x, hk⟩ => hplaced.ne_nil hp.consistent hk
  obtain ⟨swept, hsweep, htags⟩ := hcalled.sweep_eq hpristine hp.consistent hptr hcalls
  refine ⟨calls, marked, swept, hmark, fun c hc => ?_, hplaced, hsweep, htags⟩
  exact (hcalled.isMarkerCall_iff hpristine).2 ⟨hc, rfl⟩

/-- A function that stores a sum and a product in a global, one that only loads it, and one that stores a
difference and an argument there. What the first one loads is tagged. -/
def accumulating : Program :=
  ([.type .void, .type (.float 32), .type (.function ⟨0⟩ [⟨1⟩]),
    .addGlobal ⟨"total", ⟨1⟩, .default, .internal, false, none⟩,
    .addFunction "add" ⟨2⟩, .addFunction "look" ⟨2⟩, .addFunction "reset" ⟨2⟩,
    .append ⟨0⟩ (.binary .fadd (.argument ⟨0⟩ 0) (.argument ⟨0⟩ 0)),
    .append ⟨0⟩ (.store (.global ⟨0⟩) (.inst ⟨0⟩)), .append ⟨0⟩ (.load (.global ⟨0⟩)), .tagInst ⟨2⟩,
    .append ⟨0⟩ (.binary .fmul (.inst ⟨2⟩) (.inst ⟨0⟩)), .append ⟨0⟩ (.store (.global ⟨0⟩) (.inst ⟨3⟩)),
    .append ⟨1⟩ (.load (.global ⟨0⟩)),
    .append ⟨2⟩ (.binary .fsub (.argument ⟨2⟩ 0) (.argument ⟨2⟩ 0)),
    .append ⟨2⟩ (.store (.global ⟨0⟩) (.inst ⟨6⟩)), .append ⟨2⟩ (.store (.global ⟨0⟩) (.argument ⟨2⟩ 0))] :
    List ProgramOp).foldl ProgramOp.apply (.empty "accumulating")

/-- The global is marked in the first function and in the last one. -/
theorem sweep_markPointer_accumulating :
    ∃ c d marked swept, markPointer (.global ⟨0⟩) accumulating = .ok [c, d] marked ∧
      marked.body ⟨0⟩ = c :: accumulating.body ⟨0⟩ ∧ marked.body ⟨1⟩ = accumulating.body ⟨1⟩ ∧
      marked.body ⟨2⟩ = d :: accumulating.body ⟨2⟩ ∧
      sweep marked = .ok 2 swept ∧ TagsStored accumulating swept (.global ⟨0⟩) := by
  have hp : accumulating.Reachable := reachable_foldl _ _
  have hptr : accumulating.IsPointer (.global ⟨0⟩) := by decide
  have hstorers : accumulating.storers (.global ⟨0⟩) = [⟨0⟩, ⟨2⟩] := by decide
  obtain ⟨calls, marked, swept, hmark, -, hplaced, hsweep, htags⟩ :=
    sweep_markPointer hp (by decide) hptr (.inr (.inr ⟨⟨0⟩, rfl⟩))
  obtain ⟨hopened, hothers⟩ := hplaced
  rw [hstorers] at hopened hothers
  cases hopened with
  | cons hfirst hopened =>
    cases hopened with
    | cons hlast hopened =>
      cases hopened
      exact ⟨_, _, marked, swept, hmark, hfirst, hothers ⟨1⟩ (by decide), hlast, hsweep, htags⟩

end Precise

end ShaderModule

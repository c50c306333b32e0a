import ShaderModule.Proofs.Precise.Direct

/-!
# What the sweep leaves: `convert_precise_marker_calls`

In a program whose operands are all there and are no marker calls, the sweep can convert the calls one after
another, and it does not matter in which order: what each of them asks to be tagged is known beforehand. What
is left of the program is described at once, and sweeping it again changes nothing.
-/

namespace ShaderModule

open Program

namespace Precise

variable {p q r : Program} {erased : List (Handle .inst)} {T : Handle .inst → Prop} {v : Value} {h c : Handle .inst}

/-! ## Marker calls -/

/-- Whether an instruction is a call of a marker. -/
def callsMarker (p : Program) (h : Handle .inst) : Bool :=
  match p.instKind? h with
  | some (.call m _) => isMarker p m
  | _ => false

theorem callsMarker_iff : callsMarker p c ↔ ∃ arg, CallsMarker p c arg := by
  unfold callsMarker
  constructor
  · intro hc
    split at hc
    · next m args hk => exact ⟨args.head?, m, args, hk, hc, rfl⟩
    · cases hc
  · rintro ⟨arg, m, args, hk, hm, -⟩
    simpa only [hk] using hm

/-- What a call is on. -/
def firstArgument? : InstKind → Option Value
  | .call _ args => args.head?
  | _ => none

theorem CallsMarker.uses (hc : CallsMarker p c (some v)) : p.uses v c := by
  obtain ⟨m, args, hk, -, hhead⟩ := hc
  exact uses_iff.2 ⟨_, hk, List.mem_cons_of_mem _ (List.mem_of_mem_head? hhead)⟩

/-- There are as many marker calls as the sweep finds. -/
theorem length_markerCalls (hp : p.Consistent) :
    (markerCalls p).length = (p.insts.live.filter (callsMarker p)).length := by
  have hmem : ∀ c, c ∈ (markerCalls p).map Prod.fst ↔ c ∈ p.insts.live.filter (callsMarker p) := by
    intro c
    rw [← List.mem_reverse, mem_calls hp, ← callsMarker_iff, List.mem_filter, Slots.mem_live]
    refine (and_iff_right_of_imp fun hc => ?_).symm
    obtain ⟨arg, m, args, hk, -⟩ := callsMarker_iff.1 hc
    exact hasInst_of_instKind? hk
  have hperm := (List.perm_ext_iff_of_nodup (nodup_markerCalls hp) (p.insts.nodup_live.filter _)).2 hmem
  simpa using hperm.length_eq

/-! ## Programs that can be swept -/

/-- What instructions refer to is there and is no marker call. No marker is called on a value whose type is missing,
that is, one that another program has given out. -/
structure Grounded (p : Program) : Prop where
  live  : ∀ h v, p.uses v h → p.isLive v
  apart : ∀ h c, p.uses (.inst c) h → ¬ callsMarker p c
  typed : ∀ c v, CallsMarker p c (some v) → p.HasKnownType v

/-- The instructions that a marker call on a value asks to tag: those whose results are stored through a
pointer, or else the one that computes the value. -/
def Requests (p : Program) (v : Value) (h : Handle .inst) : Prop :=
  (p.IsPointer v ∧ p.StoredThrough v h) ∨ (¬ p.IsPointer v ∧ v = .inst h)

/-- An instruction that some marker call asks to tag. -/
def Requested (p : Program) (h : Handle .inst) : Prop := ∃ c v, CallsMarker p c (some v) ∧ Requests p v h

namespace Grounded

variable (hp : Grounded p)

include hp

/-- What is asked for is there and is no marker call. -/
theorem live_of_requests (hc : CallsMarker p c (some v)) (hv : Requests p v h) :
    p.hasInst h ∧ ∀ arg, ¬ CallsMarker p h arg := by
  have huses : ∃ x, p.uses (.inst h) x := by
    rcases hv with ⟨-, x, hk⟩ | ⟨-, rfl⟩
    · exact ⟨x, uses_value_of_store hk⟩
    · exact ⟨c, hc.uses⟩
  obtain ⟨x, hx⟩ := huses
  exact ⟨hp.live x _ hx, fun arg harg => hp.apart x h hx (callsMarker_iff.2 ⟨arg, harg⟩)⟩

/-- What a marker call asks for can be found out at any time, whichever other ones are gone. -/
theorem targets_eq (hconsistent : p.Consistent) (hc : CallsMarker p c (some v)) (hs : Swept p q erased T)
    (herased : ∀ c ∈ erased, ∃ arg, CallsMarker p c arg) :
    ∃ hs r, targets v q = .ok hs r ∧ q.Grows r ∧ ∀ h, h ∈ hs ↔ Requests p v h := by
  have hkept : ∀ o i, v = .inst o → p.inst? o = some i → ∃ j, q.inst? o = some j ∧ j.type = i.type := by
    rintro o i rfl hi
    obtain ⟨j, hj, -, htype⟩ := hs.inst?_of_not_mem hi fun he =>
      hp.apart c o hc.uses (callsMarker_iff.2 (herased o he))
    exact ⟨j, hj, htype⟩
  obtain ⟨t, r, hrun, hpointer⟩ := (hp.typed c v hc).extend hs.grown hs.edits.globals hkept fun g x hx =>
    ⟨_, (hs.function g).trans (congrArg _ hx), rfl⟩
  have hgrow : q.Grows r := grows_of_valueType hrun
  have hr : Swept p r erased T := hs.grows hgrow
  have hcalls : ∀ c ∈ erased, ∃ m args, p.instKind? c = some (.call m args) := by
    intro c hce
    obtain ⟨arg, m, args, hk, -⟩ := herased c hce
    exact ⟨m, args, hk⟩
  refine ⟨_, r, targets_of_valueType hrun, hgrow, fun h => ?_⟩
  by_cases hv : p.IsPointer v
  · rw [if_pos (hpointer.2 hv), hr.mem_storedInsts hconsistent hcalls]
    simp [Requests, StoredThrough, hv]
  · rw [if_neg (mt hpointer.1 hv), Option.mem_toList, Value.inst?_eq_some]
    simp [Requests, hv]

theorem convertible (hconsistent : p.Consistent) : Convertible p (Requests p) where
  consistent := hconsistent
  live _ _ _ := hp.live_of_requests
  targets _ _ hc _ _ _ := hp.targets_eq hconsistent hc

end Grounded

instance : Decidable (Grounded p) :=
  decidable_of_iff ((∀ h ∈ p.insts.live, ∀ v, p.uses v h → p.isLive v) ∧
      (∀ h ∈ p.insts.live, ∀ c, p.uses (.inst c) h → ¬ callsMarker p c) ∧
      ∀ c ∈ p.insts.live, callsMarker p c → ∀ v ∈ (p.instKind? c).bind firstArgument?, p.HasKnownType v) <| by
    constructor
    · rintro ⟨hlive, hapart, htyped⟩
      refine ⟨fun h v huses => hlive h (mem_live_of_uses huses) v huses,
        fun h c huses => hapart h (mem_live_of_uses huses) c huses, fun c v hc => ?_⟩
      refine htyped c (mem_live_of_uses hc.uses) (callsMarker_iff.2 ⟨_, hc⟩) v ?_
      obtain ⟨m, args, hk, -, hhead⟩ := hc
      simpa [hk, firstArgument?] using hhead
    · rintro ⟨hlive, hapart, htyped⟩
      refine ⟨fun h _ v huses => hlive h v huses, fun h _ c huses => hapart h c huses, fun c _ hc v hv => ?_⟩
      obtain ⟨arg, m, args, hk, hm, -⟩ := callsMarker_iff.1 hc
      exact htyped c v ⟨m, args, hk, hm, by simpa [hk, firstArgument?] using hv⟩

/-! ## What is left -/

/-- `r` is `p` after the sweep. Marker calls are gone from the program and from the bodies, what they asked for is
tagged, and markers that nothing uses any more are gone as well. Everything else is as it was. -/
structure Converted (p r : Program) : Prop where
  grown    : p.Extends r
  rest     : r = { p with
    types := r.types, constants := r.constants, nodes := r.nodes, functions := r.functions, insts := r.insts }
  gone     : ∀ h, callsMarker p h → r.inst? h = none
  tagged   : ∀ h, Requested p h →
    ∃ i node, p.inst? h = some i ∧ IsTagNode r node ∧ r.inst? h = some (tagWith node i)
  kept     : ∀ h, ¬ callsMarker p h → ¬ Requested p h → r.inst? h = p.inst? h
  tags     : ∀ h, isTagged r h ↔ r.hasInst h ∧ (isTagged p h ∨ Requested p h)
  dropped  : ∀ m, isMarker p m → (∀ h, ¬ r.uses (.function m) h) → r.function? m = none
  function : ∀ g, (isMarker p g → ∃ h, r.uses (.function g) h) →
    r.function? g = (p.function? g).map fun x => { x with body := x.body.filter (¬ callsMarker p ·) }

/-- Whatever order the sweep takes, what is left is the same. -/
theorem Grounded.sweep_eq (hg : Grounded p) (hp : p.Consistent) :
    ∃ r, sweep p = .ok (p.insts.live.filter (callsMarker p)).length r ∧ r.Consistent ∧ Converted p r := by
  obtain ⟨q, r, hrun, hq, hr, hinst, hfunction⟩ := (hg.convertible hp).sweep_eq
  have hedits : p.Edits (fun _ => False) r := hq.edits.trans hr
  have hmem : ∀ h, h ∈ ((markerCalls p).map Prod.fst).reverse ↔ callsMarker p h := fun h =>
    (mem_calls hp).trans callsMarker_iff.symm
  have hunused : ∀ m, q.users (.function m) = [] ↔ ∀ h, ¬ r.uses (.function m) h := by
    intro m
    simp only [users_eq_nil_iff (consistent_steps hq.steps hp), uses, instKind?, hinst]
  -- The sweep erases nothing that is asked for: a call of a marker gives nothing.
  have hrequested : ∀ h, Requested p h → p.hasInst h ∧ ¬ callsMarker p h := by
    rintro h ⟨c, v, hc, hv⟩
    obtain ⟨hlive, hother⟩ := hg.live_of_requests hc hv
    exact ⟨hlive, fun hh => (callsMarker_iff.1 hh).elim hother⟩
  refine ⟨r, length_markerCalls hp ▸ hrun, consistent_steps hedits.steps hp, ?_⟩
  constructor
  case grown => exact hedits.steps.toExtends
  case rest => exact hedits.rest
  case gone => exact fun h hh => (hinst h).trans (hq.gone h ((hmem h).2 hh))
  case tagged =>
    intro h hh
    obtain ⟨hlive, hcall⟩ := hrequested h hh
    obtain ⟨i, hi⟩ := Option.isSome_iff_exists.1 hlive
    obtain ⟨node, hnode, htagged⟩ := hq.tagged h (mt (hmem h).1 hcall) hh
    exact ⟨i, node, hi, hnode.extend hr.steps.toExtends, by rw [hinst, htagged, hi, Option.map_some]⟩
  case kept => exact fun h hcall hh => (hinst h).trans (hq.kept h (mt (hmem h).1 hcall) hh)
  case tags =>
    intro h
    have htags := hq.tags h
    rwa [isTagged, instMetadata?, Program.hasInst, ← hinst] at htags
  case dropped =>
    intro m hm hm'
    rw [hfunction, if_pos ⟨hm, (hunused m).2 hm'⟩]
  case function =>
    intro g hused
    rw [hfunction, if_neg, hq.function]
    · simp only [hmem, decide_not]
    · rintro ⟨hm, hnone⟩
      obtain ⟨h, hh⟩ := hused hm
      exact (hunused g).1 hnone h hh

/-! ## Sweeping again -/

/-- There is nothing to sweep in a program that calls no marker and uses every marker in some other way. -/
theorem sweep_of_no_calls (hp : p.Consistent) (hcalls : ∀ c, ¬ callsMarker p c)
    (hused : ∀ m, isMarker p m → ∃ h, p.uses (.function m) h) : sweep p = .ok 0 p := by
  have hnone : markerCalls p = [] := by
    rw [List.eq_nil_iff_forall_not_mem]
    exact fun x hx => hcalls x.1 (callsMarker_iff.2 ⟨x.2, (mem_markerCalls hp).1 hx⟩)
  have hdrop : ∀ m ∈ markers p, dropMarker m p = .ok () p := by
    intro m hm
    obtain ⟨h, hh⟩ := hused m (List.mem_filter.1 hm).2
    have hne : p.users (.function m) ≠ [] := fun hnil => (users_eq_nil_iff hp).1 hnil h hh
    refine action_bind_eq_ok.2 ⟨p, p, rfl, ?_⟩
    rw [if_neg (mt List.isEmpty_iff.1 hne)]
    rfl
  have hdrops : ∀ ms : List (Handle .function), (∀ m ∈ ms, dropMarker m p = .ok () p) →
      ms.forM dropMarker p = .ok () p := by
    intro ms hms
    induction ms with
    | nil => rfl
    | cons m ms ih =>
      obtain ⟨hm, hms⟩ := List.forall_mem_cons.1 hms
      exact action_bind_eq_ok.2 ⟨(), p, hm, ih hms⟩
  refine action_bind_eq_ok.2 ⟨p, p, rfl, ?_⟩
  rw [hnone]
  exact action_bind_eq_ok.2 ⟨(), p, rfl, action_bind_eq_ok.2 ⟨(), p, hdrops _ hdrop, rfl⟩⟩

namespace Converted

variable (hr : Converted p r)

include hr

/-- What is left does what it did. -/
theorem instKind? (h : Handle .inst) : r.instKind? h = if callsMarker p h then none else p.instKind? h := by
  split
  · next hcall => rw [Program.instKind?, hr.gone h hcall, Option.map_none]
  · next hcall =>
    by_cases hh : Requested p h
    · obtain ⟨i, node, hi, -, htagged⟩ := hr.tagged h hh
      rw [Program.instKind?, Program.instKind?, hi, htagged]
      rfl
    · rw [Program.instKind?, hr.kept h hcall hh, Program.instKind?]

/-- Only markers that are still used are left. -/
theorem uses_of_function? {m : Handle .function} {y : Function} (hy : r.function? m = some y) (hm : isMarker p m) :
    ∃ h, r.uses (.function m) h := by
  by_contra hnone
  cases hy.symm.trans (hr.dropped m hm (not_exists.1 hnone))

/-- No function becomes a marker by losing its body. -/
theorem isMarker_of_isMarker (hnames : ∀ g x, p.function? g = some x → isMarkerName x.name → x.isDeclaration)
    {m : Handle .function} (hm : isMarker r m) : isMarker p m := by
  by_contra hnot
  obtain ⟨y, hy, hmarks⟩ := (Option.any_eq_true _ _).1 hm
  have hfunction := hr.function m fun hm => absurd hm hnot
  rw [hy] at hfunction
  obtain ⟨x, hx, rfl⟩ := Option.map_eq_some_iff.1 hfunction.symm
  simp only [Bool.and_eq_true] at hmarks
  obtain ⟨⟨-, hname⟩, htag⟩ := hmarks
  refine hnot ((Option.any_eq_true _ _).2 ⟨x, hx, ?_⟩)
  simp only [Bool.and_eq_true]
  exact ⟨⟨hnames m x hx hname, hname⟩, htag⟩

/-- A second sweep finds nothing to do. -/
theorem sweep_again (hc : r.Consistent)
    (hnames : ∀ g x, p.function? g = some x → isMarkerName x.name → x.isDeclaration) : sweep r = .ok 0 r := by
  refine sweep_of_no_calls hc (fun c hcall => ?_) fun m hm => ?_
  · obtain ⟨arg, m, args, hk, hm, -⟩ := callsMarker_iff.1 hcall
    have hm : isMarker p m := hr.isMarker_of_isMarker hnames hm
    rw [hr.instKind?] at hk
    split at hk
    · cases hk
    · next hnot => exact hnot (callsMarker_iff.2 ⟨_, m, args, hk, hm, rfl⟩)
  · obtain ⟨y, hy, -⟩ := (Option.any_eq_true _ _).1 hm
    exact hr.uses_of_function? hy (hr.isMarker_of_isMarker hnames hm)

end Converted

/-- The sweep succeeds and counts the marker calls, and it is known what it leaves. Sweeping once more changes
nothing, unless a function that is named like a marker had a body. -/
theorem sweep_converts (hp : p.Reachable) (hg : Grounded p) :
    ∃ r, sweep p = .ok (p.insts.live.filter (callsMarker p)).length r ∧ Converted p r ∧
      ((∀ g x, p.function? g = some x → isMarkerName x.name → x.isDeclaration) → sweep r = .ok 0 r) := by
  obtain ⟨r, hrun, hconsistent, hr⟩ := hg.sweep_eq hp.consistent
  exact ⟨r, hrun, hr, hr.sweep_again hconsistent⟩

/-- A slot with a sum stored in it is marked, and so are a product and an argument. The marker of the latter two is
passed to a function as well. -/
def noted : Program :=
  ([.type .void, .type (.float 32), .type (.function ⟨0⟩ [⟨1⟩]), .type (.function ⟨0⟩ [⟨2⟩]),
    .addFunction "main" ⟨2⟩, .addFunction "visit" ⟨3⟩, .addFunction "dx.attribute.precise.value" ⟨2⟩,
    .node (.string "value"), .setFunctionMetadata ⟨2⟩ tag (some ⟨0⟩),
    .append ⟨0⟩ (.alloca ⟨1⟩), .append ⟨0⟩ (.binary .fadd (.argument ⟨0⟩ 0) (.argument ⟨0⟩ 0)),
    .append ⟨0⟩ (.store (.inst ⟨0⟩) (.inst ⟨1⟩)), .append ⟨0⟩ (.binary .fmul (.inst ⟨1⟩) (.inst ⟨1⟩)),
    .append ⟨0⟩ (.call ⟨2⟩ [.inst ⟨3⟩]), .append ⟨0⟩ (.call ⟨2⟩ [.argument ⟨0⟩ 0]),
    .append ⟨0⟩ (.call ⟨1⟩ [.function ⟨2⟩]), .markPointer (.inst ⟨0⟩)] :
    List ProgramOp).foldl ProgramOp.apply (.empty "noted")

/-- The sum and the product are tagged, and the marker that is still passed stays. -/
theorem sweep_converts_noted :
    ∃ r, sweep noted = .ok 3 r ∧ Converted noted r ∧ sweep r = .ok 0 r ∧
      r.body ⟨0⟩ = [⟨0⟩, ⟨1⟩, ⟨2⟩, ⟨3⟩, ⟨6⟩] := by
  have hp : noted.Reachable := reachable_foldl _ _
  have hg : Grounded noted := by decide +kernel
  have hcount : (noted.insts.live.filter (callsMarker noted)).length = 3 := by decide +kernel
  have hlive : ∀ g ∈ noted.functions.live, ∀ x ∈ noted.function? g, isMarkerName x.name → x.isDeclaration := by
    decide +kernel
  have hnames : ∀ g x, noted.function? g = some x → isMarkerName x.name → x.isDeclaration := fun g x hx =>
    hlive g (Slots.mem_live.2 (Option.isSome_of_eq_some hx)) x hx
  have hbody : (noted.body ⟨0⟩).filter (¬ callsMarker noted ·) = [⟨0⟩, ⟨1⟩, ⟨2⟩, ⟨3⟩, ⟨6⟩] := by decide +kernel
  have hmain : ¬ isMarker noted ⟨0⟩ := by decide +kernel
  obtain ⟨r, hrun, hr, hagain⟩ := sweep_converts hp hg
  rw [hcount] at hrun
  refine ⟨r, hrun, hr, hagain hnames, ?_⟩
  rw [← hbody, Program.body, hr.function ⟨0⟩ fun h => absurd h hmain, Program.body]
  cases noted.function? ⟨0⟩ <;> rfl

end Precise

end ShaderModule

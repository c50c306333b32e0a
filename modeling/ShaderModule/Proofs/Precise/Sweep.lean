import ShaderModule.Proofs.Precise.Edits
import ShaderModule.Proofs.Precise.Marks
import ShaderModule.Proofs.Table.Ordered

/-!
# What the sweep does: `convert_precise_marker_calls`

Call by call the sweep tags what a marker call asks for and erases the call. In between a program is
known by the calls that are gone and the instructions that have been tagged.
-/

namespace ShaderModule

namespace Precise

open Program

variable {p q r : Program} {f : Handle .function} {erased : List (Handle .inst)}
  {T : Handle .inst → Prop}

/-! ## Tags -/

/-- Tags an instruction by a node. -/
def tagWith (node : Handle .node) (i : Inst) : Inst := { i with metadata := i.metadata.set tag (some node) }

/-- A node that tags instructions is a tuple of the number one. -/
def IsTagNode (p : Program) (node : Handle .node) : Prop :=
  ∃ one number type, p.node? node = some (.tuple [some one]) ∧ p.node? one = some (.value (.constant number)) ∧
    p.constant? number = some (.int type 1) ∧ p.type? type = some (.int 32)

theorem IsTagNode.extend {node : Handle .node} (h : IsTagNode p node) (hext : p.Extends q) :
    IsTagNode q node := by
  obtain ⟨one, number, type, hnode, hone, hnumber, htype⟩ := h
  exact ⟨one, number, type, hext.node? hnode, hext.node? hone, hext.constant? hnumber, hext.type? htype⟩

theorem isTagNode_tagNode (p : Program) : IsTagNode (tagNode p).2 (tagNode p).1 := by
  let u : Program := (Build.type (.int 32) p).2
  let number : Handle .constant := (Build.int 32 1 p).1
  let w : Program := (Build.int 32 1 p).2
  let one : Handle .node := (Build.value (.constant number) w).1
  let r : Program := (Build.value (.constant number) w).2
  have hu : u.Extends w := (Build.growing_constant _ u).toExtends
  have hw : w.Extends r := (Build.growing_node _ w).toExtends
  have hr : r.Extends (tagNode p).2 := (Build.growing_node _ r).toExtends
  refine ⟨one, number, (Build.type (.int 32) p).1, Build.node?_node _ r, hr.node? (Build.node?_node _ w), ?_, ?_⟩
  · exact (hw.trans hr).constant? (Build.constant?_constant _ u)
  · exact (hu.trans (hw.trans hr)).type? (Build.type?_type _ p)

/-- Of two tags the later one stays. -/
theorem tagWith_tagWith (m n : Handle .node) (i : Inst) : tagWith n (tagWith m i) = tagWith n i :=
  congrArg (fun a => { i with metadata := a }) (Ordered.insert_insert i.metadata tag m n)

theorem find?_tagWith (node : Handle .node) (i : Inst) : (tagWith node i).metadata.find? tag = some node := by
  simp [tagWith, Attachments.set, Ordered.find?_insert]

/-- Tagging an instruction changes this instruction only. -/
theorem tagInst_eq {h : Handle .inst} (hh : p.hasInst h) :
    ∃ node q, tagInst h p = .ok () q ∧ IsTagNode q node ∧ q.functions = p.functions ∧
      ∀ x, q.inst? x = if x = h then (p.inst? x).map (tagWith node) else p.inst? x := by
  let u : Program := (tagNode p).2
  let node : Handle .node := (tagNode p).1
  let q : Program := { u with insts := u.insts.modify h (tagWith node) }
  have hu : p.Quiet u := (growing_tagNode p).quiet
  have hinst := hu.inst?
  have hset : setInstMetadata h tag (some node) u = .ok () q :=
    if_pos ((congrArg Option.isSome (hinst h)).trans hh)
  refine ⟨node, q, action_bind_eq_ok.2 ⟨_, u, edit_eq tagNode p, hset⟩, isTagNode_tagNode p, hu.functions, ?_⟩
  intro x
  rw [← hinst]
  exact Slots.get?_modify _ _ _ _

/-! ## In between -/

/-- `q` is `p` with some instructions erased and some tagged. -/
structure Swept (p q : Program) (erased : List (Handle .inst)) (T : Handle .inst → Prop) : Prop where
  edits    : p.Edits (fun _ => False) q
  function : ∀ g, q.function? g = (p.function? g).map fun x => { x with body := x.body.filter (· ∉ erased) }
  gone     : ∀ h ∈ erased, q.inst? h = none
  kept     : ∀ h ∉ erased, ¬ T h → q.inst? h = p.inst? h
  tagged   : ∀ h ∉ erased, T h → ∃ node, IsTagNode q node ∧ q.inst? h = (p.inst? h).map (tagWith node)

theorem swept_refl (p : Program) : Swept p p [] fun _ => False where
  edits    := .refl p
  function := fun g => by cases p.function? g <;> simp
  gone     := by simp
  kept     := fun _ _ _ => rfl
  tagged   := fun _ _ => False.elim

namespace Swept

variable (hs : Swept p q erased T)

include hs

theorem steps : p.Steps q := hs.edits.steps

theorem grown : p.Extends q := hs.steps.toExtends

theorem inst?_cases {h : Handle .inst} (hh : h ∉ erased) :
    q.inst? h = p.inst? h ∨ ∃ node, q.inst? h = (p.inst? h).map (tagWith node) := by
  by_cases hT : T h
  · obtain ⟨node, -, hinst⟩ := hs.tagged h hh hT
    exact .inr ⟨node, hinst⟩
  · exact .inl (hs.kept h hh hT)

/-- What stays does the same and has a result of the same type. -/
theorem insts (h : Handle .inst) : (q.inst? h).map (fun i => (i.kind, i.type)) =
    if h ∈ erased then none else (p.inst? h).map fun i => (i.kind, i.type) := by
  split
  · next hh => rw [hs.gone h hh, Option.map_none]
  · next hh =>
    rcases hs.inst?_cases hh with hinst | ⟨node, hinst⟩
    · rw [hinst]
    · rw [hinst, Option.map_map]
      rfl

theorem instKind? (h : Handle .inst) : q.instKind? h = if h ∈ erased then none else p.instKind? h := by
  have := congrArg (Option.map Prod.fst) (hs.insts h)
  rw [Option.map_map] at this
  rw [Program.instKind?, Program.instKind?]
  refine this.trans ?_
  split
  · rfl
  · rw [Option.map_map]
    rfl

theorem hasInst {h : Handle .inst} : q.hasInst h ↔ p.hasInst h ∧ h ∉ erased := by
  have := congrArg Option.isSome (hs.insts h)
  rw [Option.isSome_map] at this
  rw [Program.hasInst, Program.hasInst, this]
  by_cases he : h ∈ erased <;> simp [he]

theorem tags (h : Handle .inst) : isTagged q h ↔ q.hasInst h ∧ (isTagged p h ∨ T h) := by
  unfold isTagged instMetadata? Program.hasInst
  by_cases he : h ∈ erased
  · simp [hs.gone h he]
  · by_cases hT : T h
    · obtain ⟨node, -, hinst⟩ := hs.tagged h he hT
      cases hi : p.inst? h <;> simp [hinst, hi, hT, find?_tagWith]
    · cases hi : p.inst? h <;> simp [hs.kept h he hT, hi, hT]

theorem inst?_of_not_mem {h : Handle .inst} {i : Inst} (hi : p.inst? h = some i) (hh : h ∉ erased) :
    ∃ j, q.inst? h = some j ∧ j.kind = i.kind ∧ j.type = i.type := by
  have := hs.insts h
  rw [if_neg hh, hi] at this
  obtain ⟨j, hj, heq⟩ := Option.map_eq_some_iff.1 this
  exact ⟨j, hj, congrArg Prod.fst heq, congrArg Prod.snd heq⟩

theorem congr {U : Handle .inst → Prop} (h : ∀ o, T o ↔ U o) : Swept p q erased U := by
  have hTU : T = U := funext fun o => propext (h o)
  exact hTU ▸ hs

/-- Types and nodes may be entered in between. -/
theorem grows (hq : q.Grows r) : Swept p r erased T := by
  have hinst := hq.quiet.inst?
  have hfunction := hq.quiet.function?
  constructor
  case edits => exact hs.edits.trans hq.edits
  case function => exact fun g => (hfunction g).trans (hs.function g)
  case gone => exact fun h hh => (hinst h).trans (hs.gone h hh)
  case kept => exact fun h hh hT => (hinst h).trans (hs.kept h hh hT)
  case tagged =>
    intro h hh hT
    obtain ⟨node, hnode, heq⟩ := hs.tagged h hh hT
    exact ⟨node, hnode.extend hq.toExtends, (hinst h).trans heq⟩

/-- One more instruction is tagged. -/
theorem tagInst {h : Handle .inst} (hh : q.hasInst h) :
    ∃ r, tagInst h q = .ok () r ∧ Swept p r erased fun o => T o ∨ o = h := by
  obtain ⟨node, r, hrun, hnode, hfunctions, hinst⟩ := tagInst_eq hh
  have hr : q.Edits (fun _ => False) r := edits_of_ok (edits_tagInst h) hrun
  have hne : ∀ x, ¬ q.hasInst x → x ≠ h := fun x hx heq => hx (heq ▸ hh)
  refine ⟨r, hrun, ?_⟩
  constructor
  case edits => exact hs.edits.trans hr
  case function =>
    intro g
    rw [← hs.function, function?, hfunctions, function?]
  case gone =>
    intro x hx
    rw [hinst, if_neg (hne x (by simp [Program.hasInst, hs.gone x hx])), hs.gone x hx]
  case kept =>
    intro x hx hT
    obtain ⟨hT, hxh⟩ := not_or.1 hT
    rw [hinst, if_neg hxh, hs.kept x hx hT]
  case tagged =>
    intro x hx hT
    by_cases hxh : x = h
    · refine ⟨node, hnode, ?_⟩
      rw [hinst, if_pos hxh]
      rcases hs.inst?_cases hx with heq | ⟨node', heq⟩
      · rw [heq]
      · rw [heq, Option.map_map]
        exact congrArg (Option.map · _) (funext (tagWith_tagWith node' node))
    · obtain ⟨node', hnode', heq⟩ := hs.tagged x hx (hT.resolve_right hxh)
      exact ⟨node', hnode'.extend hr.steps.toExtends, by rw [hinst, if_neg hxh, heq]⟩

/-- One more instruction is erased. -/
theorem eraseInst (hp : p.Consistent) {c : Handle .inst} (hc : q.hasInst c) :
    ∃ r, discard (eraseInst c) q = .ok () r ∧ Swept p r (c :: erased) T := by
  obtain ⟨i, hi⟩ := Option.isSome_iff_exists.1 hc
  have hcq : q.Consistent := consistent_steps hs.steps hp
  obtain ⟨r, hrun, hspliced, hinst⟩ := eraseInst_eq hcq hi
  have hr : q.Edits (fun _ => False) r := edits_of_ok (edits_eraseInst c) hrun
  refine ⟨r, action_bind_eq_ok.2 ⟨i, r, hrun, rfl⟩, ?_⟩
  constructor
  case edits => exact hs.edits.trans hr
  case function =>
    intro g
    rw [hspliced.function, hs.function, Option.map_map]
    refine congrArg (Option.map · _) (funext fun x => ?_)
    simp [flatMap_filter_ne, List.filter_filter]
  case gone =>
    intro h hh
    rw [hinst]
    split
    · rfl
    · next hne => exact hs.gone h ((List.mem_cons.1 hh).resolve_left hne)
  case kept =>
    intro h hh hT
    rw [List.mem_cons, not_or] at hh
    obtain ⟨hhc, hh⟩ := hh
    rw [hinst, if_neg hhc, hs.kept h hh hT]
  case tagged =>
    intro h hh hT
    rw [List.mem_cons, not_or] at hh
    obtain ⟨hhc, hh⟩ := hh
    obtain ⟨node, hnode, heq⟩ := hs.tagged h hh hT
    exact ⟨node, hnode.extend hr.steps.toExtends, by rw [hinst, if_neg hhc, heq]⟩

/-- Some more instructions are tagged. -/
theorem tagInsts {hs' : List (Handle .inst)} (hlive : ∀ h ∈ hs', q.hasInst h) :
    ∃ r, hs'.forM Precise.tagInst q = .ok () r ∧ Swept p r erased fun o => T o ∨ o ∈ hs' := by
  induction hs' generalizing q T with
  | nil => exact ⟨q, rfl, hs.congr (by simp)⟩
  | cons h hs' ih =>
    obtain ⟨r, hrun, hr⟩ := hs.tagInst (hlive h List.mem_cons_self)
    have hrest : ∀ x ∈ hs', r.hasInst x := by
      intro x hx
      exact hr.hasInst.2 (hs.hasInst.1 (hlive x (List.mem_cons_of_mem _ hx)))
    obtain ⟨u, hruns, hu⟩ := ih hr hrest
    exact ⟨u, action_bind_eq_ok.2 ⟨(), r, hrun, hruns⟩, hu.congr (by simp [or_assoc])⟩

/-- What a call asks for is tagged, and the call is erased. -/
theorem tagInsts_eraseInst (hp : p.Consistent) {c : Handle .inst} (hc : q.hasInst c) (hs' : List (Handle .inst))
    (hlive : ∀ h ∈ hs', q.hasInst h) :
    ∃ r, (do hs'.forM Precise.tagInst; discard (Program.eraseInst c) : Edit ProgramError Unit) q = .ok () r ∧
      Swept p r (c :: erased) fun o => T o ∨ o ∈ hs' := by
  obtain ⟨u, htags, hu⟩ := hs.tagInsts hlive
  obtain ⟨r, herase, hr⟩ := hu.eraseInst hp (hu.hasInst.2 (hs.hasInst.1 hc))
  exact ⟨r, action_bind_eq_ok.2 ⟨(), u, htags, herase⟩, hr⟩

end Swept

/-! ## Calls and markers -/

theorem nodup_markerCalls (hp : p.Consistent) : ((markerCalls p).map Prod.fst).Nodup := by
  refine nodup_fst_filterMap (nodup_code hp) fun h e he => ?_
  split at he
  · split at he
    · cases he
      rfl
    · cases he
  · cases he

theorem users_eq_nil_iff (hp : p.Consistent) {v : Value} : p.users v = [] ↔ ∀ h, ¬ p.uses v h := by
  simp only [List.eq_nil_iff_forall_not_mem, mem_users hp]

/-- A declaration is deleted if nothing uses it. -/
theorem dropMarker_eq {m : Handle .function} (hm : ∃ x, q.function? m = some x ∧ x.body = []) :
    ∃ r, dropMarker m q = .ok () r ∧ r.insts = q.insts ∧
      ∀ g, r.function? g = if g = m ∧ q.users (.function m) = [] then none else q.function? g := by
  obtain ⟨x, hx, hbody⟩ := hm
  by_cases husers : q.users (.function m) = []
  · refine ⟨{ q with functions := q.functions.erase m }, ?_, rfl, fun g => ?_⟩
    · refine action_bind_eq_ok.2 ⟨q, q, rfl, ?_⟩
      rw [if_pos (List.isEmpty_iff.2 husers)]
      exact action_bind_eq_ok.2 ⟨x, _, by simp [eraseFunction, hx, hbody], rfl⟩
    · by_cases hg : g = m
      · simp [hg, husers, function?]
      · simp [hg, function?, Slots.get?_erase_of_ne hg]
  · refine ⟨q, ?_, rfl, fun g => by simp [husers]⟩
    refine action_bind_eq_ok.2 ⟨q, q, rfl, ?_⟩
    rw [if_neg (mt List.isEmpty_iff.1 husers)]
    rfl

/-- Of some declarations those that nothing uses are deleted, and nothing else is. -/
theorem dropMarkers_eq {ms : List (Handle .function)} (hq : q.Consistent) (hn : ms.Nodup)
    (hms : ∀ m ∈ ms, ∃ x, q.function? m = some x ∧ x.body = []) :
    ∃ r, ms.forM dropMarker q = .ok () r ∧ r.insts = q.insts ∧
      ∀ g, r.function? g = if g ∈ ms ∧ q.users (.function g) = [] then none else q.function? g := by
  induction ms generalizing q with
  | nil => exact ⟨q, rfl, rfl, fun _ => by simp⟩
  | cons m ms ih =>
    obtain ⟨hm, hn⟩ := List.nodup_cons.1 hn
    obtain ⟨r, hrun, hinsts, hfunction⟩ := dropMarker_eq (hms m List.mem_cons_self)
    have hr : q.Edits (fun _ => False) r := edits_of_ok (edits_dropMarker m) hrun
    have hconsistent : r.Consistent := consistent_steps hr.steps hq
    -- Deleting a declaration changes no instruction, so what is used stays used.
    have husers : ∀ v, r.users v = [] ↔ q.users v = [] := by
      intro v
      rw [users_eq_nil_iff hconsistent, users_eq_nil_iff hq]
      simp only [uses, instKind?, inst?, hinsts]
    have hbodies : ∀ g ∈ ms, ∃ x, r.function? g = some x ∧ x.body = [] := by
      intro g hg
      have hne : g ≠ m := fun heq => hm (heq ▸ hg)
      rw [hfunction, if_neg fun h => hne h.1]
      exact hms g (List.mem_cons_of_mem _ hg)
    obtain ⟨u, hruns, hinsts', hu⟩ := ih hconsistent hn hbodies
    refine ⟨u, action_bind_eq_ok.2 ⟨(), r, hrun, hruns⟩, hinsts'.trans hinsts, fun g => ?_⟩
    rw [hu, hfunction]
    by_cases hg : g = m
    · subst hg
      simp [hm]
    · simp [hg, husers]

/-- When calls have been converted, the markers that nothing uses can be deleted. -/
theorem Swept.dropMarkers (hq : Swept p q erased T) (hp : p.Consistent) :
    ∃ r, (markers p).forM dropMarker q = .ok () r ∧ r.insts = q.insts ∧
      ∀ g, r.function? g = if isMarker p g ∧ q.users (.function g) = [] then none else q.function? g := by
  have hmarker : ∀ m, isMarker p m → ∃ x, p.function? m = some x ∧ x.body = [] := by
    intro m hm
    obtain ⟨x, hx, hmarks⟩ := (Option.any_eq_true _ _).1 hm
    simp only [Bool.and_eq_true, Function.isDeclaration, List.isEmpty_iff] at hmarks
    exact ⟨x, hx, hmarks.1.1⟩
  have hmarkers : ∀ m, m ∈ markers p ↔ isMarker p m := by
    intro m
    refine List.mem_filter.trans (and_iff_right_of_imp fun hm => ?_)
    obtain ⟨x, hx, -⟩ := hmarker m hm
    exact (hp.order.exact m).2 ⟨x, hx⟩
  have hbodies : ∀ m ∈ markers p, ∃ x, q.function? m = some x ∧ x.body = [] := by
    intro m hm
    obtain ⟨x, hx, hbody⟩ := hmarker m ((hmarkers m).1 hm)
    exact ⟨_, (hq.function m).trans (congrArg _ hx), by simp [hbody]⟩
  have hnodup : (markers p).Nodup := hp.order.nodup.filter _
  obtain ⟨r, hdrop, hinsts, hfunction⟩ := dropMarkers_eq (consistent_steps hq.steps hp) hnodup hbodies
  refine ⟨r, hdrop, hinsts, fun g => ?_⟩
  rw [hfunction, if_congr (and_congr_left' (hmarkers g)) rfl rfl]

/-! ## What a call asks for -/

theorem mem_storedInsts (hp : p.Consistent) {ptr : Value} {h : Handle .inst} :
    h ∈ storedInsts p ptr ↔ ∃ x, p.instKind? x = some (.store ptr (.inst h)) := by
  simp only [storedInsts, List.mem_filterMap, mem_users hp]
  constructor
  · rintro ⟨x, -, heq⟩
    split at heq
    · next target value hk =>
      split at heq
      · next htarget =>
        rw [Value.inst?_eq_some.1 heq, htarget] at hk
        exact ⟨x, hk⟩
      · cases heq
    · cases heq
  · rintro ⟨x, hk⟩
    exact ⟨x, uses_address_of_store hk, by simp [hk, Value.inst?]⟩

/-- Erasing calls takes nothing from what is stored through a pointer. -/
theorem Swept.mem_storedInsts (hs : Swept p q erased T) (hp : p.Consistent)
    (herased : ∀ c ∈ erased, ∃ m args, p.instKind? c = some (.call m args)) {ptr : Value} {h : Handle .inst} :
    h ∈ storedInsts q ptr ↔ ∃ x, p.instKind? x = some (.store ptr (.inst h)) := by
  rw [Precise.mem_storedInsts (consistent_steps hs.steps hp)]
  refine exists_congr fun x => ?_
  rw [hs.instKind?]
  split
  · next hx =>
    obtain ⟨m, args, hk⟩ := herased x hx
    simp [hk]
  · rfl

/-- What is asked for shows in the type of the value. -/
theorem targets_of_valueType {v : Value} {t : Handle .type} (hrun : valueType v q = .ok t r) :
    targets v q = .ok (if (r.pointee? t).isSome then storedInsts r v else v.inst?.toList) r :=
  action_bind_eq_ok.2 ⟨t, r, hrun, action_bind_eq_ok.2 ⟨r, r, rfl, rfl⟩⟩

/-! ## One call -/

/-- A call of a marker, with its first argument. -/
def CallsMarker (p : Program) (c : Handle .inst) (arg : Option Value) : Prop :=
  ∃ m args, p.instKind? c = some (.call m args) ∧ isMarker p m ∧ args.head? = arg

/-- A program whose marker calls can be converted: what they ask for, given by `A`, is there to be tagged, and
can be found out whenever the sweep comes to them. -/
structure Convertible (p : Program) (A : Value → Handle .inst → Prop) : Prop where
  consistent : p.Consistent
  live       : ∀ c v h, CallsMarker p c (some v) → A v h → p.hasInst h ∧ ∀ arg, ¬ CallsMarker p h arg
  targets    : ∀ c v, CallsMarker p c (some v) → ∀ q erased T, Swept p q erased T →
    (∀ c ∈ erased, ∃ arg, CallsMarker p c arg) → ∃ hs r, targets v q = .ok hs r ∧ q.Grows r ∧ ∀ h, h ∈ hs ↔ A v h

/-- The sweep finds all marker calls, each with its first argument. -/
theorem mem_markerCalls (hp : p.Consistent) {x : Handle .inst × Option Value} :
    x ∈ markerCalls p ↔ CallsMarker p x.1 x.2 := by
  obtain ⟨c, arg⟩ := x
  simp only [markerCalls, List.mem_filterMap, mem_code hp]
  constructor
  · rintro ⟨h, -, heq⟩
    split at heq
    · next callee args hk =>
      split at heq
      · next hm =>
        cases heq
        exact ⟨callee, args, hk, hm, rfl⟩
      · cases heq
    · cases heq
  · rintro ⟨m, args, hk, hm, rfl⟩
    exact ⟨c, hasInst_of_instKind? hk, by simp [hk, hm]⟩

/-- The calls themselves. -/
theorem mem_calls (hp : p.Consistent) {c : Handle .inst} :
    c ∈ ((markerCalls p).map Prod.fst).reverse ↔ ∃ arg, CallsMarker p c arg := by
  simp [mem_markerCalls hp]

namespace Convertible

variable {A : Value → Handle .inst → Prop} (hp : Convertible p A)

include hp

/-- One marker call is converted. -/
theorem convertCall_eq (hs : Swept p q erased T) (herased : ∀ c ∈ erased, ∃ arg, CallsMarker p c arg)
    {c : Handle .inst} {arg : Option Value} (hc : CallsMarker p c arg) (hce : c ∉ erased) :
    ∃ r, convertCall c arg q = .ok () r ∧ Swept p r (c :: erased) fun h => T h ∨ ∃ v ∈ arg, A v h := by
  have hcq : q.hasInst c := by
    obtain ⟨m, args, hk, -, -⟩ := hc
    exact hs.hasInst.2 ⟨hasInst_of_instKind? hk, hce⟩
  cases arg with
  | none =>
    obtain ⟨r, hrun, hr⟩ := hs.tagInsts_eraseInst hp.consistent hcq [] (by simp)
    exact ⟨r, action_bind_eq_ok.2 ⟨[], q, rfl, hrun⟩, hr.congr (by simp)⟩
  | some v =>
    obtain ⟨hs', r, htargets, hgrow, hasks⟩ := hp.targets c v hc q erased T hs herased
    have hr : Swept p r erased T := hs.grows hgrow
    have hlive : ∀ h ∈ hs', r.hasInst h := by
      intro h hh
      obtain ⟨hlive, hother⟩ := hp.live c v h hc ((hasks h).1 hh)
      refine hr.hasInst.2 ⟨hlive, fun he => ?_⟩
      obtain ⟨arg, harg⟩ := herased h he
      exact hother arg harg
    have hcr : r.hasInst c := hr.hasInst.2 (hs.hasInst.1 hcq)
    obtain ⟨u, hrun, hu⟩ := hr.tagInsts_eraseInst hp.consistent hcr hs' hlive
    exact ⟨u, action_bind_eq_ok.2 ⟨hs', r, htargets, hrun⟩, hu.congr fun h => by simp [hasks]⟩

/-- All marker calls are converted, one after another. -/
theorem convertCalls_eq {calls : List (Handle .inst × Option Value)}
    (hs : Swept p q erased T) (herased : ∀ c ∈ erased, ∃ arg, CallsMarker p c arg)
    (hcalls : ∀ x ∈ calls, CallsMarker p x.1 x.2)
    (hn : (calls.map Prod.fst).Nodup) (hdisjoint : ∀ x ∈ calls, x.1 ∉ erased) :
    ∃ r, calls.forM (fun x => convertCall x.1 x.2) q = .ok () r ∧
      Swept p r ((calls.map Prod.fst).reverse ++ erased)
        fun h => T h ∨ ∃ x ∈ calls, ∃ v ∈ x.2, A v h := by
  induction calls generalizing q erased T with
  | nil => exact ⟨q, rfl, hs.congr (by simp)⟩
  | cons x calls ih =>
    obtain ⟨hx, hn⟩ := List.nodup_cons.1 hn
    have hc := hcalls x List.mem_cons_self
    obtain ⟨r, hrun, hr⟩ := hp.convertCall_eq hs herased hc (hdisjoint x List.mem_cons_self)
    obtain ⟨u, hruns, hu⟩ := ih hr
      (by
        intro c hce
        rcases List.mem_cons.1 hce with rfl | hce
        · exact ⟨x.2, hc⟩
        · exact herased c hce)
      (fun y hy => hcalls y (List.mem_cons_of_mem _ hy)) hn
      (by
        intro y hy hye
        rcases List.mem_cons.1 hye with heq | hye
        · exact hx (heq ▸ List.mem_map_of_mem hy)
        · exact hdisjoint y (List.mem_cons_of_mem _ hy) hye)
    -- The calls erased so far are listed with the latest one in front.
    refine ⟨u, action_bind_eq_ok.2 ⟨(), r, hrun, hruns⟩, ?_⟩
    have herased : ((x :: calls).map Prod.fst).reverse ++ erased =
        (calls.map Prod.fst).reverse ++ x.1 :: erased := by simp
    rw [herased]
    refine hu.congr fun h => ?_
    simp [or_assoc]

/-! ## All calls -/

/-- After all marker calls are converted, what they ask for is tagged. -/
theorem convertAll_eq :
    ∃ q, (markerCalls p).forM (fun x => convertCall x.1 x.2) p = .ok () q ∧
      Swept p q ((markerCalls p).map Prod.fst).reverse fun h => ∃ c v, CallsMarker p c (some v) ∧ A v h := by
  obtain ⟨q, hrun, hq⟩ := hp.convertCalls_eq (swept_refl p) (by simp)
    (fun x hx => (mem_markerCalls hp.consistent).1 hx) (nodup_markerCalls hp.consistent) (by simp)
  rw [List.append_nil] at hq
  refine ⟨q, hrun, hq.congr fun h => ?_⟩
  rw [false_or]
  constructor
  · rintro ⟨⟨c, arg⟩, hx, v, rfl, hasks⟩
    exact ⟨c, v, (mem_markerCalls hp.consistent).1 hx, hasks⟩
  · rintro ⟨c, v, hc, hasks⟩
    exact ⟨(c, some v), (mem_markerCalls hp.consistent).2 hc, v, rfl, hasks⟩

/-- The sweep erases the marker calls, tags what they ask for, and deletes the markers that nothing uses. -/
theorem sweep_eq :
    ∃ q r, sweep p = .ok (markerCalls p).length r ∧
      Swept p q ((markerCalls p).map Prod.fst).reverse
        (fun h => ∃ c v, CallsMarker p c (some v) ∧ A v h) ∧
      q.Edits (fun _ => False) r ∧ (∀ h, r.inst? h = q.inst? h) ∧
      ∀ g, r.function? g = if isMarker p g ∧ q.users (.function g) = [] then none else q.function? g := by
  obtain ⟨q, hconvert, hq⟩ := hp.convertAll_eq
  obtain ⟨r, hdrop, hinsts, hfunction⟩ := hq.dropMarkers hp.consistent
  refine ⟨q, r, ?_, hq, edits_of_ok (.forM edits_dropMarker _) hdrop, fun h => ?_, hfunction⟩
  · refine action_bind_eq_ok.2 ⟨p, p, rfl, action_bind_eq_ok.2 ⟨(), q, hconvert, ?_⟩⟩
    exact action_bind_eq_ok.2 ⟨(), r, hdrop, rfl⟩
  · rw [inst?, hinsts, inst?]

end Convertible

/-! ## Markers that are called only -/

/-- A call of a marker. -/
def IsMarkerCall (p : Program) (c : Handle .inst) (v : Value) : Prop :=
  ∃ m, p.instKind? c = some (.call m [v]) ∧ isMarker p m

/-- A program that can be swept: markers are only called, with one argument, and what the calls ask for, given
by `A`, can be found out whenever the sweep comes to them. -/
structure Sweepable (p : Program) (A : Value → Handle .inst → Prop) : Prop where
  consistent : p.Consistent
  names      : NamesMarkers p
  called     : ∀ h m, isMarker p m → p.uses (.function m) h → ∃ v, p.instKind? h = some (.call m [v])
  live       : ∀ v h, Marked p v → A v h → p.hasInst h ∧ ∀ w, ¬ IsMarkerCall p h w
  targets    : ∀ v, Marked p v → ∀ q erased T, Swept p q erased T →
    (∀ c ∈ erased, ∃ w, IsMarkerCall p c w) → ∃ hs r, targets v q = .ok hs r ∧ q.Grows r ∧ ∀ h, h ∈ hs ↔ A v h

theorem IsMarkerCall.callsMarker {c : Handle .inst} {v : Value} (h : IsMarkerCall p c v) :
    CallsMarker p c (some v) := by
  obtain ⟨m, hk, hm⟩ := h
  exact ⟨m, [v], hk, hm, rfl⟩

namespace Sweepable

variable {A : Value → Handle .inst → Prop} (hp : Sweepable p A)

include hp

theorem callsMarker_iff {c : Handle .inst} {arg : Option Value} :
    CallsMarker p c arg ↔ ∃ v, arg = some v ∧ IsMarkerCall p c v := by
  constructor
  · rintro ⟨m, args, hk, hm, rfl⟩
    obtain ⟨v, hcall⟩ := hp.called c m hm (uses_callee_of_call hk)
    cases hk.symm.trans hcall
    exact ⟨v, rfl, m, hcall, hm⟩
  · rintro ⟨v, rfl, hv⟩
    exact hv.callsMarker

/-- The calls themselves. -/
theorem mem_calls {c : Handle .inst} :
    c ∈ ((markerCalls p).map Prod.fst).reverse ↔ ∃ v, IsMarkerCall p c v := by
  rw [Precise.mem_calls hp.consistent]
  simp only [hp.callsMarker_iff]
  exact ⟨fun ⟨_, v, _, hv⟩ => ⟨v, hv⟩, fun ⟨v, hv⟩ => ⟨_, v, rfl, hv⟩⟩

theorem convertible : Convertible p A where
  consistent := hp.consistent
  live c v h hc hasks := by
    obtain ⟨_, ⟨⟩, m, hk, hm⟩ := hp.callsMarker_iff.1 hc
    obtain ⟨hlive, hother⟩ := hp.live _ h ⟨c, m, hk, hm⟩ hasks
    refine ⟨hlive, fun arg harg => ?_⟩
    obtain ⟨w, -, hw⟩ := hp.callsMarker_iff.1 harg
    exact hother w hw
  targets c v hc q erased T hs herased := by
    obtain ⟨_, ⟨⟩, m, hk, hm⟩ := hp.callsMarker_iff.1 hc
    refine hp.targets v ⟨c, m, hk, hm⟩ q erased T hs fun c hce => ?_
    obtain ⟨arg, harg⟩ := herased c hce
    obtain ⟨w, -, hw⟩ := hp.callsMarker_iff.1 harg
    exact ⟨w, hw⟩

/-- The sweep erases the marker calls, tags what they ask for, and deletes the markers. -/
theorem sweep_eq :
    ∃ q r, sweep p = .ok (markerCalls p).length r ∧
      Swept p q ((markerCalls p).map Prod.fst).reverse (fun h => ∃ v, Marked p v ∧ A v h) ∧
      q.Edits (fun _ => False) r ∧ (∀ h, r.inst? h = q.inst? h) ∧
      ∀ g, r.function? g = if isMarker p g then none else q.function? g := by
  obtain ⟨q, r, hrun, hq, hr, hinst, hfunction⟩ := hp.convertible.sweep_eq
  have hunused : ∀ m, isMarker p m → q.users (.function m) = [] := by
    intro m hm
    refine (users_eq_nil_iff (consistent_steps hq.steps hp.consistent)).2 fun h huses => ?_
    obtain ⟨k, hk, hmem⟩ := uses_iff.1 huses
    rw [hq.instKind?] at hk
    split at hk
    · cases hk
    · next he =>
      obtain ⟨v, hcall⟩ := hp.called h m hm (uses_iff.2 ⟨k, hk, hmem⟩)
      exact he (hp.mem_calls.2 ⟨v, m, hcall, hm⟩)
  refine ⟨q, r, hrun, hq.congr fun h => ?_, hr, hinst, fun g => ?_⟩
  · simp only [hp.callsMarker_iff, Option.some.injEq]
    constructor
    · rintro ⟨c, v, ⟨_, rfl, m, hk, hm⟩, hasks⟩
      exact ⟨v, ⟨c, m, hk, hm⟩, hasks⟩
    · rintro ⟨v, ⟨c, m, hk, hm⟩, hasks⟩
      exact ⟨c, v, ⟨v, rfl, m, hk, hm⟩, hasks⟩
  · rw [hfunction, if_congr (and_iff_left_of_imp (hunused g)) rfl rfl]

end Sweepable

/-! ## Calls on slots and on values that are no pointers -/

/-- The instructions that a marker call on a value asks to tag. -/
inductive Asks (p : Program) (f : Handle .function) : Value → Handle .inst → Prop
  | stored {s x h : Handle .inst} (hs : p.IsSlot f s)
      (hstore : p.instKind? x = some (.store (.inst s) (.inst h))) : Asks p f (.inst s) h
  | argument {h : Handle .inst} (hh : ¬ p.IsSlot f h) : Asks p f (.inst h) h

theorem wanted_inst_iff {h : Handle .inst} :
    Wanted p f (.inst h) ↔ ∃ v, Marked p v ∧ Asks p f v h := by
  constructor
  · rintro (⟨hs, hm, hstore⟩ | ⟨hv, hm⟩)
    · exact ⟨_, hm, .stored hs hstore⟩
    · exact ⟨_, hm, .argument (hv h rfl)⟩
  · rintro ⟨v, hm, hs, hstore⟩
    · exact .stored hs hm hstore
    · exact .argument (by rintro s ⟨⟩; assumption) hm

theorem hasInst_of_scalar {h : Handle .inst} (hh : p.Scalar (.inst h)) : p.hasInst h := by
  obtain ⟨t, r, hrun, -⟩ := hh
  exact isLive_iff.2 ⟨t, r, hrun⟩

namespace Prepared

variable (hp : Prepared p f)

include hp

/-- A marker call has no result. -/
theorem not_scalar_of_markerCall {c : Handle .inst} {v : Value} (hc : IsMarkerCall p c v) :
    ¬ p.Scalar (.inst c) := by
  rintro ⟨t, r, hrun, ty, hty, -, hne⟩
  obtain ⟨m, hk, hm⟩ := hc
  obtain ⟨i, hi, hkind⟩ := exists_inst_of_instKind? hk
  simp only [valueType, hi, EStateM.Result.ok.injEq] at hrun
  obtain ⟨rfl, rfl⟩ := hrun
  refine not_hasResult_of_call hp.tidy.consistent hk (hp.isAnnotator hm) ?_
  intro j hj
  cases hi.symm.trans hj
  rw [hty]
  simpa using hne

/-- What is asked for is computed by an instruction that has a result. -/
theorem scalar_of_asks {v : Value} {h : Handle .inst} (hm : Marked p v) (ha : Asks p f v h) :
    p.Scalar (.inst h) := by
  cases ha with
  | stored hs hstore => exact hp.stores _ _ _ hstore hs
  | argument hh =>
    rcases hp.marks _ hm with ⟨s, heq, hs⟩ | hscalar
    · cases heq
      exact absurd hs hh
    · exact hscalar

end Prepared

section Targets

variable (hp : Prepared p f) (hs : Swept p q erased T) (herased : ∀ c ∈ erased, ∃ v, IsMarkerCall p c v)

include hp hs herased

/-- A call on a slot asks for what is stored to it. -/
theorem targets_slot {s : Handle .inst} (hslot : p.IsSlot f s) :
    ∃ hs, targets (.inst s) q = .ok hs q ∧ ∀ h, h ∈ hs ↔ Asks p f (.inst s) h := by
  obtain ⟨t, hk⟩ := hslot.2
  obtain ⟨i, hi, htyped⟩ := exists_inst_of_alloca hp.tidy.consistent hk
  have hkept : s ∉ erased := by
    intro he
    obtain ⟨v, m, hcall, -⟩ := herased s he
    cases hk.symm.trans hcall
  obtain ⟨j, hj, -, htype⟩ := hs.inst?_of_not_mem hi hkept
  have hpointee : (q.pointee? j.type).isSome := by
    rw [pointee?, htype, hs.grown.type? htyped]
    rfl
  have hcalls : ∀ c ∈ erased, ∃ m args, p.instKind? c = some (.call m args) := by
    intro c hc
    obtain ⟨v, m, hcall, -⟩ := herased c hc
    exact ⟨m, [v], hcall⟩
  have hrun : valueType (.inst s) q = .ok j.type q := by simp [valueType, hj]
  refine ⟨storedInsts q (.inst s), ?_, fun h => ?_⟩
  · rw [targets_of_valueType hrun, if_pos hpointee]
  · rw [hs.mem_storedInsts hp.tidy.consistent hcalls]
    constructor
    · rintro ⟨x, hstore⟩
      exact .stored hslot hstore
    · intro hasks
      cases hasks with
      | stored _ hstore => exact ⟨_, hstore⟩
      | argument hh => exact absurd hslot hh

/-- A value that is no pointer still is none, since the erased calls have no result. -/
theorem scalar_swept {v : Value} (hscalar : p.Scalar v) : q.Scalar v := by
  refine hscalar.extend hs.grown ?_ ?_
  · rintro o i rfl hi
    have hkept : o ∉ erased := by
      intro he
      obtain ⟨w, hw⟩ := herased o he
      exact hp.not_scalar_of_markerCall hw hscalar
    obtain ⟨j, hj, -, htype⟩ := hs.inst?_of_not_mem hi hkept
    exact ⟨j, hj, htype⟩
  · exact fun g x hx => ⟨_, (hs.function g).trans (congrArg _ hx), rfl⟩

/-- A call on a value that is no pointer asks for the value itself. -/
theorem targets_scalar {v : Value} (hscalar : p.Scalar v) :
    ∃ hs r, targets v q = .ok hs r ∧ q.Grows r ∧ ∀ h, h ∈ hs ↔ Asks p f v h := by
  obtain ⟨t, r, hrun, ty, hty, hpointee, -⟩ := scalar_swept hp hs herased hscalar
  refine ⟨v.inst?.toList, r, ?_, grows_of_valueType hrun, ?_⟩
  · rw [targets_of_valueType hrun, if_neg (by simp [pointee?, hty, hpointee])]
  · intro h
    rw [Option.mem_toList, Value.inst?_eq_some]
    constructor
    · rintro rfl
      exact .argument fun hslot => not_scalar_of_isSlot hp.tidy.consistent hslot hscalar
    · rintro (⟨hslot, -⟩ | -)
      · exact absurd hscalar (not_scalar_of_isSlot hp.tidy.consistent hslot)
      · rfl

/-- What a call asks for can be found out at any time. -/
theorem targets_eq {v : Value} (hv : Marked p v) :
    ∃ hs r, targets v q = .ok hs r ∧ q.Grows r ∧ ∀ h, h ∈ hs ↔ Asks p f v h := by
  rcases hp.marks v hv with ⟨s, rfl, hslot⟩ | hscalar
  · obtain ⟨hs, hrun, hasks⟩ := targets_slot hp hs herased hslot
    exact ⟨hs, q, hrun, .refl q, hasks⟩
  · exact targets_scalar hp hs herased hscalar

end Targets

/-- A prepared program can be swept. -/
theorem Prepared.sweepable (hp : Prepared p f) : Sweepable p (Asks p f) where
  consistent := hp.tidy.consistent
  names      := hp.names
  called     := hp.called
  live       := by
    intro v h hv hasks
    have hscalar := hp.scalar_of_asks hv hasks
    exact ⟨hasInst_of_scalar hscalar, fun w hw => hp.not_scalar_of_markerCall hw hscalar⟩
  targets    := fun _ hv _ _ _ hs herased => targets_eq hp hs herased hv

/-- The sweep tags what is wanted and leaves neither a marker call nor a marker. -/
theorem sweep_eq (hp : Prepared p f) :
    ∃ n r, sweep p = .ok n r ∧
      (∀ h, isTagged r h ↔ r.hasInst h ∧ (isTagged p h ∨ Wanted p f (.inst h))) ∧
      (∀ h, Wanted p f (.inst h) → r.hasInst h) ∧ (∀ h, r.hasInst h → p.hasInst h) ∧
      ∀ g x, r.function? g = some x → ¬ isMarkerName x.name := by
  have hsweep := hp.sweepable
  obtain ⟨q, r, hrun, hq, -, hinst, hfunction⟩ := hsweep.sweep_eq
  have hsame : ∀ h, r.hasInst h = q.hasInst h := fun h => by rw [Program.hasInst, hinst, Program.hasInst]
  refine ⟨(markerCalls p).length, r, hrun, ?_, ?_, ?_, ?_⟩
  · intro h
    rw [hsame, wanted_inst_iff, ← hq.tags, isTagged, isTagged, instMetadata?, instMetadata?, hinst]
  · intro h hwanted
    obtain ⟨v, hm, hasks⟩ := wanted_inst_iff.1 hwanted
    obtain ⟨hlive, hother⟩ := hsweep.live v h hm hasks
    rw [hsame, hq.hasInst]
    refine ⟨hlive, fun he => ?_⟩
    obtain ⟨w, hw⟩ := hsweep.mem_calls.1 he
    exact hother w hw
  · intro h hlive
    rw [hsame] at hlive
    exact (hq.hasInst.1 hlive).1
  · intro g x hx hname
    rw [hfunction] at hx
    split at hx
    · cases hx
    · next hg =>
      rw [hq.function] at hx
      obtain ⟨y, hy, rfl⟩ := Option.map_eq_some_iff.1 hx
      exact hg (hp.names.isMarker_iff.2 ⟨y, hy, hname⟩)

end Precise

end ShaderModule

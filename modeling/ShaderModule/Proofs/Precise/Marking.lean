import ShaderModule.Proofs.Precise.Sweep

/-!
# Marking slots: `mark_precise_attribute_on_ptr_with_function_call`

A marker call on a slot is a new instruction right after the slot, and its marker may be a new function.
Everything else stays as it was, so that slots can be marked one after another.
-/

namespace ShaderModule

namespace Program

variable {p q : Program} {m : Handle .function} {name : String}

theorem functionNamed?_congr (h : q.functions = p.functions) (name : String) :
    q.functionNamed? name = p.functionNamed? name := by
  simp only [functionNamed?, function?, h]

/-- The function behind a name has that name. -/
theorem exists_of_functionNamed? (h : p.functionNamed? name = some m) :
    ∃ x, p.function? m = some x ∧ x.name = name := by
  have hm := List.find?_some h
  obtain ⟨x, hx, hname⟩ := (Option.any_eq_true _ _).1 hm
  exact ⟨x, hx, by simpa using hname⟩

end Program

namespace Precise

open Program

variable {p q r : Program} {f m : Handle .function}

/-! ## What is entered meanwhile -/

/-- `q` is `p` with types and nodes entered, and possibly with other functions. -/
structure Prepares (p q : Program) : Prop where
  rest  : q = { p with types := q.types, nodes := q.nodes, functions := q.functions }
  types : p.types.entries <+: q.types.entries
  nodes : p.nodes.entries <+: q.nodes.entries

theorem Prepares.refl (p : Program) : Prepares p p := ⟨rfl, List.prefix_refl _, List.prefix_refl _⟩

theorem Prepares.trans (h : Prepares p q) (k : Prepares q r) : Prepares p r := by
  refine ⟨?_, h.types.trans k.types, h.nodes.trans k.nodes⟩
  have hk := k.rest
  rw [h.rest] at hk
  exact hk

theorem Prepares.toExtends (h : Prepares p q) : p.Extends q := by
  have hconstants : q.constants = p.constants := by rw [h.rest]
  exact ⟨h.types, hconstants ▸ List.prefix_refl _, h.nodes⟩

theorem prepares_type (t : Ty) (p : Program) : Prepares p (Build.type t p).2 :=
  ⟨rfl, (Build.growing_type t p).types, List.prefix_refl _⟩

theorem prepares_node (n : Node) (p : Program) : Prepares p (Build.node n p).2 :=
  ⟨rfl, List.prefix_refl _, (Build.growing_node n p).nodes⟩

/-! ## The marker -/

/-- `q` is `p` with the marker `m` in it. -/
structure Declared (p q : Program) (m : Handle .function) : Prop where
  steps   : p.Steps q
  grown   : p.Extends q
  globals : q.globals = p.globals
  insts   : q.insts = p.insts
  marker  : ∃ x, q.function? m = some x ∧ isMarkerName x.name ∧ MarkerShape q x
  kept    : ∀ g x, p.function? g = some x → q.function? g = some x
  others  : ∀ g, p.function? g = none → g ≠ m → q.function? g = none

/-- A tagged marker is left alone. -/
theorem tagMarker_of_tagged {x : Function} (hx : p.function? m = some x)
    (htag : (x.metadata.find? tag).isSome) : tagMarker m p = .ok () p := by
  refine action_bind_eq_ok.2 ⟨p, p, rfl, ?_⟩
  rw [if_neg]
  · rfl
  · simpa [functionMetadata?, hx, ← Option.isSome_iff_ne_none] using htag

/-- A function that has no tag is tagged as a marker. -/
theorem tagMarker_untagged {x : Function} (hx : p.function? m = some x) (htag : x.metadata.find? tag = none) :
    ∃ node q, tagMarker m p = .ok () q ∧ Prepares p q ∧
      q.functions = p.functions.modify m fun y => { y with metadata := y.metadata.set tag (some node) } := by
  let u : Program := (Build.string tag p).2
  let w : Program := (Build.tuple [some (Build.string tag p).1] u).2
  let node : Handle .node := (Build.tuple [some (Build.string tag p).1] u).1
  have hw : Prepares p w := (prepares_node _ p).trans (prepares_node _ u)
  let q : Program := { w with
    functions := w.functions.modify m fun y => { y with metadata := y.metadata.set tag (some node) } }
  have hset : setFunctionMetadata m tag (some node) w = .ok () q := if_pos (Option.isSome_of_eq_some hx)
  refine ⟨node, q, action_bind_eq_ok.2 ⟨p, p, rfl, ?_⟩, ⟨rfl, hw.types, hw.nodes⟩, rfl⟩
  rw [if_pos (by simp [functionMetadata?, hx, htag])]
  exact action_bind_eq_ok.2 ⟨_, u, edit_eq _ p, action_bind_eq_ok.2 ⟨_, w, edit_eq _ u, hset⟩⟩

/-- Contents may be entered before the marker is declared. -/
theorem Declared.after_grows (hp : p.Grows q) (hr : Declared q r m) : Declared p r m := by
  have hfunction := hp.quiet.function?
  constructor
  case steps => exact hp.quiet.steps.trans hr.steps
  case grown => exact hp.toExtends.trans hr.grown
  case globals => exact hr.globals.trans hp.globals
  case insts => exact hr.insts.trans hp.quiet.insts
  case marker => exact hr.marker
  case kept => exact fun g x hx => hr.kept g x ((hfunction g).trans hx)
  case others => exact fun g hg => hr.others g ((hfunction g).trans hg)

theorem isMarkerName_append (name : String) : isMarkerName (markerBeginning ++ name) := by
  simp [isMarkerName]

/-- The marker of a name is found or declared. -/
theorem exists_ensureMarker (hnames : NamesMarkers p)
    {name : String} (hname : isMarkerName name) {sig void param : Handle .type}
    (hsig : p.type? sig = some (.function void [param])) (hvoid : p.type? void = some .void) :
    ∃ m u q, ensureFunction name sig p = .ok m u ∧ tagMarker m u = .ok () q ∧ Declared p q m := by
  cases hfind : p.functionNamed? name with
  | some m =>
    obtain ⟨x, hx, rfl⟩ := exists_of_functionNamed? hfind
    have hshape : MarkerShape p x := hnames m x hx hname
    refine ⟨m, p, p, by simp [ensureFunction, hfind], tagMarker_of_tagged hx hshape.tagged, ?_⟩
    exact ⟨.refl, .refl p, rfl, rfl, ⟨x, hx, hname, hshape⟩, fun _ _ => id, fun _ hg _ => hg⟩
  | none =>
    let m : Handle .function := p.functions.next
    let x : Function := ⟨name, sig, [], .empty⟩
    let u : Program := { p with functions := p.functions.push x }
    have hu : Prepares p u := ⟨rfl, List.prefix_refl _, List.prefix_refl _⟩
    have hensure : ensureFunction name sig p = .ok m u := by
      simp [ensureFunction, addFunction, hfind, hsig, Ty.signature?, u, x, m]
    obtain ⟨node, q, htag, hq, hfunctions⟩ := tagMarker_untagged (p := u) (Slots.get?_push_next _ x) rfl
    replace hq := hu.trans hq
    have hext : p.Extends q := hq.toExtends
    have hglobals : q.globals = p.globals := by rw [hq.rest]
    have hinsts : q.insts = p.insts := by rw [hq.rest]
    have hfunctions : q.functions =
        p.functions.push { x with metadata := x.metadata.set tag (some node) } :=
      hfunctions.trans (Listed.modify_push_next _ _ _)
    have hother : ∀ g, g ≠ m → q.function? g = p.function? g := by
      intro g hg
      rw [function?, hfunctions]
      exact Slots.get?_push_of_ne hg
    refine ⟨m, u, q, hensure, htag, ?_, hext, hglobals, hinsts, ?_, ?_, ?_⟩
    · exact (steps_of_ok (edits_ensureFunction _ _) hensure).trans (steps_of_ok (edits_tagMarker m) htag)
    · refine ⟨_, by rw [function?, hfunctions]; exact Slots.get?_push_next _ _, hname, rfl, ?_, void, param, ?_, ?_⟩
      · simp [Attachments.set, Ordered.find?_insert]
      · simp [hext.type? hsig, Ty.signature?, x]
      · exact hext.type? hvoid
    · intro g y hy
      have hne : g ≠ m := fun heq => Slots.ne_next_of_get? hy heq
      rw [hother g hne, hy]
    · intro g hg hne
      rw [hother g hne, hg]

/-- The type of the marker for a pointer type. -/
def markerSignature (type : Handle .type) : Build (Handle .type) := do
  let void ← Build.type .void
  Build.type (.function void [type])

theorem prepares_markerSignature (type : Handle .type) (p : Program) : Prepares p (markerSignature type p).2 :=
  (prepares_type .void p).trans (prepares_type _ _)

theorem growing_markerSignature (type : Handle .type) : Build.Growing (markerSignature type) :=
  .bind (Build.growing_type _) fun _ => Build.growing_type _

theorem type?_markerSignature (type : Handle .type) (p : Program) :
    ∃ void, (markerSignature type p).2.type? (markerSignature type p).1 = some (.function void [type]) ∧
      (markerSignature type p).2.type? void = some .void := by
  let u : Program := (Build.type .void p).2
  let void : Handle .type := (Build.type .void p).1
  have hu : u.Grows (markerSignature type p).2 := Build.growing_type _ u
  exact ⟨void, Build.type?_type _ u, hu.type? (Build.type?_type _ p)⟩

/-- The function of a name, declared if there is none, with a tag. -/
def ensureMarker (name : String) (signature : Handle .type) : Edit ProgramError (Handle .function) := do
  let f ← ensureFunction name signature
  tagMarker f
  return f

theorem marker_of_pointer {type pointee : Handle .type} (hpointee : p.pointee? type = some pointee) :
    marker type p = EStateM.adaptExcept .program
      (ensureMarker (markerBeginning ++ p.typeText pointee) (markerSignature type p).1) (markerSignature type p).2 := by
  simp only [marker, get_bind_eq, hpointee]
  rfl

/-- The marker of a pointer type is the function of its name, found or declared, with a tag. -/
theorem marker_eq_ok {type pointee : Handle .type} (hpointee : p.pointee? type = some pointee) :
    marker type p = .ok m q ↔ ∃ u, ensureFunction (markerBeginning ++ p.typeText pointee) (markerSignature type p).1
      (markerSignature type p).2 = .ok m u ∧ tagMarker m u = .ok () q := by
  have hrun : marker type p = .ok m q ↔ ensureMarker (markerBeginning ++ p.typeText pointee)
      (markerSignature type p).1 (markerSignature type p).2 = .ok m q :=
    marker_of_pointer hpointee ▸ adaptExcept_eq_ok
  rw [hrun, ensureMarker, action_bind_eq_ok]
  constructor
  · rintro ⟨f, u, hensure, h⟩
    obtain ⟨_, w, htag, ⟨⟩⟩ := action_bind_eq_ok.1 h
    exact ⟨u, hensure, htag⟩
  · rintro ⟨u, hensure, htag⟩
    exact ⟨m, u, hensure, action_bind_eq_ok.2 ⟨(), q, htag, rfl⟩⟩

theorem marker_of_not_pointer {type : Handle .type} (hpointee : p.pointee? type = none) :
    marker type p = .error (.notAPointer (p.typeText type)) p := by
  simp only [marker, get_bind_eq, hpointee]
  rfl

/-- The marker of a pointer type is there. -/
theorem marker_eq (hnames : NamesMarkers p)
    {type pointee : Handle .type} (hpointee : p.pointee? type = some pointee) :
    ∃ m q, marker type p = .ok m q ∧ Declared p q m := by
  have hgrow : p.Grows (markerSignature type p).2 := growing_markerSignature type p
  have hfunction := hgrow.quiet.function?
  have hnames' : NamesMarkers (markerSignature type p).2 := by
    intro g x hx hname
    exact (hnames g x (hfunction g ▸ hx) hname).extend hgrow.toExtends
  obtain ⟨void, hsig, hvoid⟩ := type?_markerSignature type p
  have hname : isMarkerName (markerBeginning ++ p.typeText pointee) := isMarkerName_append _
  obtain ⟨m, u, q, hensure, htag, hq⟩ := exists_ensureMarker hnames' hname hsig hvoid
  exact ⟨m, q, (marker_eq_ok hpointee).2 ⟨u, hensure, htag⟩, hq.after_grows hgrow⟩

/-! ## The call -/

/-- `q` is `p` with one more marker call, `c`, right after the slot `s`. -/
structure Marking (p q : Program) (f : Handle .function) (s c : Handle .inst) (m : Handle .function) :
    Prop where
  steps    : p.Steps q
  grown    : p.Extends q
  globals  : q.globals = p.globals
  marker   : ∃ x, q.function? m = some x ∧ isMarkerName x.name ∧ MarkerShape q x
  function : ∀ g x, p.function? g = some x →
    q.function? g = some { x with body := x.body.flatMap fun y => if y = s then [y, c] else [y] }
  others   : ∀ g, p.function? g = none → g ≠ m → q.function? g = none
  fresh    : p.inst? c = none
  call     : ∃ type, q.inst? c = some (annotating f type m (.inst s))
  inst     : ∀ x, x ≠ c → q.inst? x = p.inst? x

/-- A pointer that an instruction computes is marked by a new call right after the instruction. -/
theorem markPointer_inst_eq (hp : p.Consistent) (hnames : NamesMarkers p) {s : Handle .inst} {i : Inst}
    (hi : p.inst? s = some i) {t : Handle .type} (hpointee : p.pointee? i.type = some t) :
    ∃ c m q, markPointer (.inst s) p = .ok [c] q ∧ Marking p q i.parent s c m := by
  obtain ⟨m, u, hmarker, hu⟩ := marker_eq hnames hpointee
  have hcu : u.Consistent := consistent_steps hu.steps hp
  have hi' : u.inst? s = some i := by rwa [inst?, hu.insts]
  obtain ⟨x, hx, hname, hshape⟩ := hu.marker
  obtain ⟨void, param, hsig, hvoid⟩ := hshape.unary
  obtain ⟨q, hinsert, hspliced, hinst, -⟩ := insertAfter_unary hcu hi' ⟨x, [param], hx, hsig, rfl⟩ (.inst s)
  refine ⟨u.insts.next, m, q, ?_, ?_⟩
  · have htype : valueType (.inst s) p = .ok i.type p := by simp [valueType, hi]
    refine action_bind_eq_ok.2 ⟨i.type, p, adaptExcept_eq_ok.2 htype, action_bind_eq_ok.2 ⟨m, u, hmarker, ?_⟩⟩
    exact action_bind_eq_ok.2 ⟨u.insts.next, q, adaptExcept_eq_ok.2 hinsert, rfl⟩
  · constructor
    case steps => exact hu.steps.trans (steps_of_ok (edits_insertAfter _ _) hinsert)
    case grown => exact hu.grown.trans hspliced.toExtends
    case globals => exact hspliced.globals.trans hu.globals
    case marker =>
      refine ⟨_, (hspliced.function m).trans (congrArg _ hx), hname, ?_⟩
      obtain ⟨hbody, htag, hunary⟩ := hshape.extend hspliced.toExtends
      exact ⟨by simp [hbody], htag, hunary⟩
    case function => exact fun g y hy => (hspliced.function g).trans (congrArg _ (hu.kept g y hy))
    case others =>
      intro g hg hne
      rw [hspliced.function, hu.others g hg hne]
      rfl
    case fresh =>
      rw [Option.eq_none_iff_forall_ne_some]
      intro j hj
      rw [hu.insts] at hj
      exact Slots.ne_next_of_get? hj rfl
    case call => exact ⟨void, by rw [hinst, if_pos rfl]⟩
    case inst =>
      intro x hx
      rw [hinst, if_neg hx, inst?, hu.insts, inst?]

/-- A slot is marked by a new call right after it. -/
theorem markPointer_eq (hp : p.Consistent)
    (hnames : NamesMarkers p)
    {s : Handle .inst} (hs : p.IsSlot f s) :
    ∃ c m q, markPointer (.inst s) p = .ok [c] q ∧ Marking p q f s c m := by
  obtain ⟨hlisted, t, hk⟩ := hs
  obtain ⟨i, hi, htyped⟩ := exists_inst_of_alloca hp hk
  obtain ⟨j, hj, rfl⟩ := inst?_of_mem_body hp hlisted
  cases hi.symm.trans hj
  have hpointee : p.pointee? i.type = some t := by simp [pointee?, htyped, Ty.pointee?]
  exact markPointer_inst_eq hp hnames hi hpointee

/-- A program with a function whose slots can be marked: the slots hold no pointers, all operands are
there and have a type, those of the function's instructions come earlier, and its slots are its own. -/
structure Markable (p : Program) (f : Handle .function) : Prop where
  consistent : p.Consistent
  live       : ∀ h v, p.uses v h → p.isLive v
  results    : ∀ h o, p.uses (.inst o) h → ∀ i, p.inst? o = some i → ∃ ty, p.type? i.type = some ty ∧ ty ≠ .void
  earlier    : p.UsesEarlier [] (p.body f)
  own        : ∀ s, p.IsSlot f s → ∀ h, p.uses (.inst s) h → h ∈ p.body f
  slots      : ∀ s t, (s, t) ∈ p.slots f → p.ScalarType t
  stores     : ∀ x s v, p.instKind? x = some (.store (.inst s) v) → p.IsSlot f s → p.Scalar v
  names      : NamesMarkers p
  marks      : ∀ v, Marked p v → (∃ s, v = .inst s ∧ p.IsSlot f s) ∨ p.Scalar v
  called     : ∀ h m, isMarker p m → p.uses (.function m) h → ∃ v, p.instKind? h = some (.call m [v])

/-- When all slots are marked, they can be promoted. -/
theorem Markable.prepared (hp : Markable p f) : Prepared p f := by
  have hresult : ∀ h o, p.uses (.inst o) h → p.HasResult o := by
    intro h o huses i hi
    obtain ⟨ty, hty, hne⟩ := hp.results h o huses i hi
    rw [hty]
    simpa using hne
  have hplain : p.Plain f := by
    intro x s o hk hs ho
    exact not_scalar_of_isSlot hp.consistent ho (hp.stores x s (.inst o) hk hs)
  have hwell : p.WellFormed f := by
    refine ⟨fun h _ v => hp.live h v, fun h _ o => hresult h o, hp.earlier, hp.own⟩
  have hapart : p.Apart f := fun h _ o huses => ⟨hp.live h _ huses, fun _ => ⟨hresult h o huses, .inr hplain⟩⟩
  exact ⟨⟨hp.consistent, hwell, hapart⟩, hp.names, hp.slots, hp.stores, hp.marks, hp.called⟩

namespace Marking

variable {s c : Handle .inst} (hq : Marking p q f s c m)

include hq

theorem instKind?_call : q.instKind? c = some (.call m [.inst s]) := by
  obtain ⟨type, hinst⟩ := hq.call
  simp [instKind?, hinst, annotating]

theorem instKind?_of_ne {x : Handle .inst} (hx : x ≠ c) : q.instKind? x = p.instKind? x := by
  rw [instKind?, hq.inst x hx, instKind?]

theorem ne_call_of_hasInst {x : Handle .inst} (hx : p.hasInst x) : x ≠ c := by
  rintro rfl
  rw [hasInst, hq.fresh] at hx
  cases hx

/-- What was done before still is, and only a call is new. -/
theorem instKind?_eq_some {x : Handle .inst} {k : InstKind} :
    q.instKind? x = some k ↔ p.instKind? x = some k ∨ x = c ∧ k = .call m [.inst s] := by
  by_cases hx : x = c
  · subst hx
    have hnone : p.instKind? x = none := by rw [instKind?, hq.fresh, Option.map_none]
    simp [hq.instKind?_call, hnone, eq_comm]
  · simp [hq.instKind?_of_ne hx, hx]

theorem uses_iff {x : Handle .inst} {v : Value} :
    q.uses v x ↔ p.uses v x ∨ x = c ∧ (v = .function m ∨ v = .inst s) := by
  simp only [Program.uses_iff, hq.instKind?_eq_some]
  constructor
  · rintro ⟨k, hk | ⟨hx, rfl⟩, hv⟩
    · exact .inl ⟨k, hk, hv⟩
    · exact .inr ⟨hx, by simpa [InstKind.operands] using hv⟩
  · rintro (⟨k, hk, hv⟩ | ⟨hx, hv⟩)
    · exact ⟨k, .inl hk, hv⟩
    · exact ⟨_, .inr ⟨hx, rfl⟩, by simpa [InstKind.operands] using hv⟩

theorem inst?_kept {x : Handle .inst} {i : Inst} (hi : p.inst? x = some i) : q.inst? x = some i := by
  rw [hq.inst x (hq.ne_call_of_hasInst (Option.isSome_of_eq_some hi)), hi]

/-- In every body the call comes right after the slot. -/
theorem body (g : Handle .function) :
    q.body g = (p.body g).flatMap fun y => if y = s then [y, c] else [y] := by
  cases hg : p.function? g with
  | some x => simp [Program.body, hg, hq.function g x hg]
  | none =>
    have hempty : q.body g = [] := by
      by_cases hgm : g = m
      · obtain ⟨x, hx, -, hshape⟩ := hq.marker
        simp [Program.body, hgm, hx, hshape.body]
      · simp [Program.body, hq.others g hg hgm]
    rw [hempty]
    simp [Program.body, hg]

theorem mem_body {g : Handle .function} {x : Handle .inst} :
    x ∈ q.body g ↔ x ∈ p.body g ∨ x = c ∧ s ∈ p.body g := by
  rw [hq.body, List.mem_flatMap]
  constructor
  · rintro ⟨y, hy, hx⟩
    by_cases hys : y = s
    · rw [if_pos hys] at hx
      simp only [List.mem_cons, List.not_mem_nil, or_false] at hx
      rcases hx with rfl | rfl
      · exact .inl hy
      · exact .inr ⟨rfl, hys ▸ hy⟩
    · rw [if_neg hys, List.mem_singleton] at hx
      exact .inl (hx ▸ hy)
  · rintro (hx | ⟨rfl, hs⟩)
    · refine ⟨x, hx, ?_⟩
      split <;> simp
    · exact ⟨s, hs, by simp⟩

/-- The slots are the same. -/
theorem mem_slots_iff {x : Handle .inst} {t : Handle .type} : (x, t) ∈ q.slots f ↔ (x, t) ∈ p.slots f := by
  simp only [mem_slots, hq.mem_body, hq.instKind?_eq_some, reduceCtorEq, and_false, or_false]
  constructor
  · rintro ⟨hx | ⟨rfl, -⟩, hk⟩
    · exact ⟨hx, hk⟩
    · exact absurd rfl (hq.ne_call_of_hasInst (hasInst_of_instKind? hk))
  · rintro ⟨hx, hk⟩
    exact ⟨.inl hx, hk⟩

theorem isSlot_iff {x : Handle .inst} : q.IsSlot f x ↔ p.IsSlot f x := by
  have hslots := fun t => hq.mem_slots_iff (x := x) (t := t)
  simp only [mem_slots] at hslots
  simp only [IsSlot, ← exists_and_left, hslots]

theorem store_iff {x : Handle .inst} {ptr v : Value} :
    q.instKind? x = some (.store ptr v) ↔ p.instKind? x = some (.store ptr v) := by
  simp [hq.instKind?_eq_some]

theorem load_iff {x : Handle .inst} {ptr : Value} :
    q.instKind? x = some (.load ptr) ↔ p.instKind? x = some (.load ptr) := by
  simp [hq.instKind?_eq_some]

/-- Values that are no pointers stay so. -/
theorem scalar {v : Value} (hv : p.Scalar v) : q.Scalar v := by
  refine hv.extend hq.grown ?_ ?_
  · exact fun o i _ hi => ⟨i, hq.inst?_kept hi, rfl⟩
  · exact fun g x hx => ⟨_, hq.function g x hx, rfl⟩

/-- Nothing is tagged by it. -/
theorem isTagged_iff {o : Handle .inst} : isTagged q o ↔ isTagged p o := by
  unfold isTagged instMetadata?
  by_cases ho : o = c
  · obtain ⟨type, hinst⟩ := hq.call
    subst ho
    rw [hinst, hq.fresh]
    exact Iff.rfl
  · rw [hq.inst o ho]

/-- The call uses the slot, which stands before it. -/
theorem usesEarlier {hs seen seen' : List (Handle .inst)} (hearlier : p.UsesEarlier seen hs)
    (hlive : ∀ x ∈ hs, p.hasInst x) (hseen : seen ⊆ seen') :
    q.UsesEarlier seen' (hs.flatMap fun y => if y = s then [y, c] else [y]) := by
  induction hs generalizing seen seen' with
  | nil => trivial
  | cons x hs ih =>
    obtain ⟨hx, hearlier⟩ := hearlier
    have hlive' : ∀ y ∈ hs, p.hasInst y := fun y hy => hlive y (List.mem_cons_of_mem _ hy)
    have hxc := hq.ne_call_of_hasInst (hlive x List.mem_cons_self)
    have hfirst : ∀ o, q.uses (.inst o) x → o ∈ seen' := by
      intro o huses
      exact hseen (hx o ((hq.uses_iff.1 huses).resolve_right fun h => hxc h.1))
    rw [List.flatMap_cons, usesEarlier_append]
    by_cases hxs : x = s
    · have hcall : ∀ o, q.uses (.inst o) c → o ∈ seen' ++ [x] := by
        intro o huses
        rcases hq.uses_iff.1 huses with huses | ⟨-, ho | ho⟩
        · exact absurd rfl (hq.ne_call_of_hasInst (Slots.mem_live.1 (mem_live_of_uses huses)))
        · cases ho
        · cases ho
          simp [hxs]
      rw [if_pos hxs]
      refine ⟨⟨hfirst, hcall, trivial⟩, ih hearlier hlive' ?_⟩
      exact List.append_subset.2 ⟨List.subset_append_of_subset_left _ hseen, by simp⟩
    · rw [if_neg hxs]
      refine ⟨⟨hfirst, trivial⟩, ih hearlier hlive' ?_⟩
      exact List.append_subset.2 ⟨List.subset_append_of_subset_left _ hseen, by simp⟩

/-- The call stores nothing. -/
theorem storedValues_eq {ptr : Value} {hs : List (Handle .inst)} (hlive : ∀ x ∈ hs, p.hasInst x) :
    q.storedValues ptr (hs.flatMap fun y => if y = s then [y, c] else [y]) = p.storedValues ptr hs := by
  have hcall : q.storedValues ptr [c] = [] := by
    simp [storedValues_singleton, hq.instKind?_call, storedThrough?]
  induction hs with
  | nil => rfl
  | cons x hs ih =>
    have hxc := hq.ne_call_of_hasInst (hlive x List.mem_cons_self)
    have hfirst : q.storedValues ptr [x] = p.storedValues ptr [x] := by
      rw [storedValues_singleton, storedValues_singleton, hq.instKind?_of_ne hxc]
    have hcons : p.storedValues ptr (x :: hs) = p.storedValues ptr [x] ++ p.storedValues ptr hs :=
      storedValues_append ptr [x] hs
    rw [List.flatMap_cons, storedValues_append, ih fun y hy => hlive y (List.mem_cons_of_mem _ hy), hcons,
      ← hfirst]
    by_cases hxs : x = s
    · have hpair : q.storedValues ptr [x, c] = q.storedValues ptr [x] ++ q.storedValues ptr [c] :=
        storedValues_append ptr [x] [c]
      rw [if_pos hxs, hpair, hcall, List.append_nil]
    · rw [if_neg hxs]

/-- The body after the call is put in is cut where it was cut before. -/
theorem body_split {o : Handle .inst} {pre post : List (Handle .inst)} (hbody : p.body f = pre ++ o :: post) :
    ∃ post', q.body f = (pre.flatMap fun y => if y = s then [y, c] else [y]) ++ o :: post' := by
  rw [hq.body, hbody, List.flatMap_append, List.flatMap_cons]
  by_cases hos : o = s
  · exact ⟨c :: _, by rw [if_pos hos]; rfl⟩
  · exact ⟨_, by rw [if_neg hos]; rfl⟩

/-! ### Markers -/

theorem names (hnames : NamesMarkers p) : NamesMarkers q := by
  intro g y hy hname
  cases hg : p.function? g with
  | some x =>
    cases (hq.function g x hg).symm.trans hy
    obtain ⟨hbody, htag, hunary⟩ := (hnames g x hg hname).extend hq.grown
    exact ⟨by simp [hbody], htag, hunary⟩
  | none =>
    obtain ⟨x, hx, -, hshape⟩ := hq.marker
    by_cases hgm : g = m
    · subst hgm
      cases hx.symm.trans hy
      exact hshape
    · cases (hq.others g hg hgm).symm.trans hy

/-- Functions that were there are markers as before. -/
theorem isMarker_iff (hnames : NamesMarkers p) {g : Handle .function} (hg : p.isLive (.function g)) :
    isMarker q g ↔ isMarker p g := by
  obtain ⟨x, hx⟩ := Option.isSome_iff_exists.1 hg
  rw [(hq.names hnames).isMarker_iff, hnames.isMarker_iff, hx, hq.function g x hx]
  simp

theorem isMarker (hnames : NamesMarkers p) : isMarker q m := by
  obtain ⟨x, hx, hname, -⟩ := hq.marker
  exact (hq.names hnames).isMarker_iff.2 ⟨x, hx, hname⟩

variable (hp : Markable p f)

include hp

/-- Besides what was marked before, the slot is marked. -/
theorem marked_iff {v : Value} : Marked q v ↔ Marked p v ∨ v = .inst s := by
  constructor
  · rintro ⟨x, g, hk, hg⟩
    rcases hq.instKind?_eq_some.1 hk with hk | ⟨-, hcall⟩
    · have hlive := hp.live x (.function g) (uses_callee_of_call hk)
      exact .inl ⟨x, g, hk, (hq.isMarker_iff hp.names hlive).1 hg⟩
    · cases hcall
      exact .inr rfl
  · rintro (⟨x, g, hk, hg⟩ | rfl)
    · have hlive := hp.live x (.function g) (uses_callee_of_call hk)
      exact ⟨x, g, hq.instKind?_eq_some.2 (.inl hk), (hq.isMarker_iff hp.names hlive).2 hg⟩
    · exact ⟨c, m, hq.instKind?_call, hq.isMarker hp.names⟩

/-- What is used is there, also what the call uses. -/
theorem isLive_of_uses (hs : p.IsSlot f s) {h : Handle .inst} {v : Value} (huses : q.uses v h) : q.isLive v := by
  have hkept : ∀ {o : Handle .inst}, p.hasInst o → q.hasInst o := by
    intro o ho
    obtain ⟨i, hi⟩ := Option.isSome_iff_exists.1 ho
    exact Option.isSome_of_eq_some (hq.inst?_kept hi)
  rcases hq.uses_iff.1 huses with huses | ⟨-, rfl | rfl⟩
  · refine isLive_extend (hp.live h v huses) hq.grown hq.globals (fun o _ => hkept) ?_
    exact fun g x hx => ⟨_, hq.function g x hx, rfl⟩
  · obtain ⟨x, hx, -⟩ := hq.marker
    exact Option.isSome_of_eq_some hx
  · exact hkept (hasInst_of_isSlot hs)

/-- What is used has a result: the call uses the slot, whose result is its address. -/
theorem type_of_uses (hs : p.IsSlot f s) {h o : Handle .inst} (huses : q.uses (.inst o) h) {i : Inst}
    (hi : q.inst? o = some i) : ∃ ty, q.type? i.type = some ty ∧ ty ≠ .void := by
  rcases hq.uses_iff.1 huses with huses | ⟨-, ho | ho⟩
  · rw [hq.inst o (hq.ne_call_of_hasInst (hp.live h _ huses))] at hi
    obtain ⟨ty, hty, hne⟩ := hp.results h o huses i hi
    exact ⟨ty, hq.grown.type? hty, hne⟩
  · cases ho
  · cases ho
    obtain ⟨-, t, hk⟩ := hs
    obtain ⟨j, hj, htyped⟩ := exists_inst_of_alloca hp.consistent hk
    cases hi.symm.trans (hq.inst?_kept hj)
    exact ⟨_, hq.grown.type? htyped, by simp⟩

/-- Another slot can be marked after it. -/
theorem markable (hs : p.IsSlot f s) : Markable q f := by
  constructor
  case consistent => exact consistent_steps hq.steps hp.consistent
  case live => exact fun h v => hq.isLive_of_uses hp hs
  case results => exact fun h o huses i => hq.type_of_uses hp hs huses
  case earlier =>
    rw [hq.body]
    refine hq.usesEarlier hp.earlier (fun x hx => ?_) (List.Subset.refl _)
    obtain ⟨i, hi, -⟩ := inst?_of_mem_body hp.consistent hx
    exact Option.isSome_of_eq_some hi
  case own =>
    intro s' hs' h huses
    rcases hq.uses_iff.1 huses with huses | ⟨rfl, -⟩
    · exact hq.mem_body.2 (.inl (hp.own s' (hq.isSlot_iff.1 hs') h huses))
    · exact hq.mem_body.2 (.inr ⟨rfl, hs.1⟩)
  case slots => exact fun x t hx => (hp.slots x t (hq.mem_slots_iff.1 hx)).extend hq.grown
  case stores =>
    intro x s' v hk hs'
    exact hq.scalar (hp.stores x s' v (hq.store_iff.1 hk) (hq.isSlot_iff.1 hs'))
  case names => exact hq.names hp.names
  case marks =>
    intro v hv
    rcases (hq.marked_iff hp).1 hv with hv | rfl
    · rcases hp.marks v hv with ⟨x, rfl, hx⟩ | hscalar
      · exact .inl ⟨x, rfl, hq.isSlot_iff.2 hx⟩
      · exact .inr (hq.scalar hscalar)
    · exact .inl ⟨s, rfl, hq.isSlot_iff.2 hs⟩
  case called =>
    intro h g hg huses
    rcases hq.uses_iff.1 huses with huses | ⟨rfl, hgm | hgm⟩
    · obtain ⟨v, hk⟩ := hp.called h g ((hq.isMarker_iff hp.names (hp.live h _ huses)).1 hg) huses
      exact ⟨v, hq.instKind?_eq_some.2 (.inl hk)⟩
    · cases hgm
      exact ⟨_, hq.instKind?_call⟩
    · cases hgm

/-- Values stand for the same instructions. -/
theorem resolvesTo_iff {promoted : Handle .inst → Prop} {v : Value} {h : Handle .inst} :
    q.ResolvesTo f promoted v h ↔ p.ResolvesTo f promoted v h := by
  have hlive : ∀ {pre o post}, p.body f = pre ++ o :: post → ∀ x ∈ pre, p.hasInst x := by
    intro pre o post hbody x hx
    obtain ⟨i, hi, -⟩ := inst?_of_mem_body (g := f) hp.consistent (h := x) (by simp [hbody, hx])
    exact Option.isSome_of_eq_some hi
  constructor
  · intro hv
    induction hv with
    | here hno => exact .here fun slot hslot hk => hno slot hslot (hq.load_iff.2 hk)
    | @stored o slot h v pre' post' hslot hk hbody' hlast hv ih =>
      have hk := hq.load_iff.1 hk
      have ho : o ∈ p.body f := by
        rcases hq.mem_body.1 (show o ∈ q.body f by simp [hbody']) with ho | ⟨rfl, -⟩
        · exact ho
        · exact absurd rfl (hq.ne_call_of_hasInst (hasInst_of_instKind? hk))
      obtain ⟨pre, post, hbody⟩ := List.append_of_mem ho
      obtain ⟨post'', hsplit⟩ := hq.body_split hbody
      obtain ⟨rfl, -⟩ := split_unique (consistent_steps hq.steps hp.consistent) hbody' hsplit
      rw [hq.storedValues_eq (hlive hbody)] at hlast
      exact .stored hslot hk hbody hlast ih
  · intro hv
    induction hv with
    | here hno => exact .here fun slot hslot hk => hno slot hslot (hq.load_iff.1 hk)
    | stored hslot hk hbody hlast hv ih =>
      obtain ⟨post', hsplit⟩ := hq.body_split hbody
      rw [← hq.storedValues_eq (hlive hbody)] at hlast
      exact .stored hslot (hq.load_iff.2 hk) hsplit hlast ih

end Marking

end Precise

end ShaderModule

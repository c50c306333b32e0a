import ShaderModule.Precise
import ShaderModule.Proofs.Program.Promotions
import ShaderModule.Proofs.Program.Resolve

/-!
# What marker calls ask for

A marker call on a slot asks for the values that are stored to the slot, any other marker call for its
argument. While slots are promoted the calls change, but the instructions that compute what they ask
for stay the same.
-/

namespace ShaderModule

namespace Program

variable {p q : Program} {f : Handle .function}

/-! ## Values that are no pointers -/

/-- A type of the program that is neither a pointer nor `void`. -/
def ScalarType (p : Program) (t : Handle .type) : Prop :=
  ∃ ty, p.type? t = some ty ∧ ty.pointee? = none ∧ ty ≠ .void

/-- A value of such a type. -/
def Scalar (p : Program) (v : Value) : Prop := ∃ t q, valueType v p = .ok t q ∧ q.ScalarType t

theorem ScalarType.extend {t : Handle .type} (h : p.ScalarType t) (hext : p.Extends q) : q.ScalarType t := by
  obtain ⟨ty, hty, hpointee⟩ := h
  exact ⟨ty, hext.type? hty, hpointee⟩

theorem edit_eq {ε α : Type} (b : Build α) (p : Program) :
    (b.edit p : EStateM.Result ε Program α) = .ok (b p).1 (b p).2 := rfl

/-- A value keeps its type. Where the type is entered anew, its components may have other handles. -/
theorem valueType_extend {v : Value} {t : Handle .type} {u : Program} {ty : Ty}
    (hrun : valueType v p = .ok t u) (hty : u.type? t = some ty) (hext : p.Extends q)
    (hinst : ∀ o i, v = .inst o → p.inst? o = some i → ∃ j, q.inst? o = some j ∧ j.type = i.type)
    (hfunction : ∀ g x, p.function? g = some x → ∃ y, q.function? g = some y ∧ y.type = x.type)
    (hglobal : ∀ g x, v = .global g → p.global? g = some x → q.global? g = some x) :
    ∃ t' r ty', valueType v q = .ok t' r ∧ r.type? t' = some ty' ∧ ty'.pointee? = ty.pointee? ∧
      (ty' = .void ↔ ty = .void) := by
  have hsame {r : Program} {t' : Handle .type} (hrun' : valueType v q = .ok t' r)
      (hty' : r.type? t' = some ty) : ∃ t' r ty', valueType v q = .ok t' r ∧ r.type? t' = some ty' ∧
        ty'.pointee? = ty.pointee? ∧ (ty' = .void ↔ ty = .void) :=
    ⟨t', r, ty, hrun', hty', rfl, Iff.rfl⟩
  -- Only the types of globals and of bytes are entered anew.
  cases valueType_eq_ok_iff.1 hrun with
  | inst hi =>
    obtain ⟨j, hj, hij⟩ := hinst _ _ rfl hi
    exact hsame (valueType_eq_ok_iff.2 (hij ▸ .inst hj)) (hext.type? hty)
  | @global g x hg =>
    cases (Build.type?_type _ p).symm.trans hty
    exact hsame (valueType_eq_ok_iff.2 (.global (hglobal g x rfl hg))) (Build.type?_type _ q)
  | function hf =>
    obtain ⟨y, hy, hxy⟩ := hfunction _ _ hf
    exact hsame (valueType_eq_ok_iff.2 (hxy ▸ .function hy)) (hext.type? hty)
  | argument hf hsig ht =>
    obtain ⟨y, hy, hxy⟩ := hfunction _ _ hf
    obtain ⟨xty, hx, hsig⟩ := Option.bind_eq_some_iff.1 hsig
    have hx' : q.type? y.type = some xty := hxy ▸ hext.type? hx
    have hsig' := Option.bind_eq_some_iff.2 ⟨xty, hx', hsig⟩
    exact hsame (valueType_eq_ok_iff.2 (.argument hy hsig' ht)) (hext.type? hty)
  | constant hc ht => exact hsame (valueType_eq_ok_iff.2 (.constant (hext.constant? hc) ht)) (hext.type? hty)
  | @bytes c data hc =>
    cases (Build.type?_type _ _).symm.trans hty
    refine ⟨_, _, _, valueType_eq_ok_iff.2 (.bytes (hext.constant? hc)), Build.type?_type _ _, rfl, ?_⟩
    exact iff_of_false (by simp) (by simp)

/-- A value that is no pointer stays so. -/
theorem Scalar.extend {v : Value} (hv : p.Scalar v) (hext : p.Extends q)
    (hinst : ∀ o i, v = .inst o → p.inst? o = some i → ∃ j, q.inst? o = some j ∧ j.type = i.type)
    (hfunction : ∀ g x, p.function? g = some x → ∃ y, q.function? g = some y ∧ y.type = x.type) :
    q.Scalar v := by
  obtain ⟨t, u, hrun, ty, hty, hpointee, hne⟩ := hv
  have hglobal : ∀ g x, v = .global g → p.global? g = some x → q.global? g = some x := by
    rintro g x rfl hg
    simp only [valueType, hg, edit_eq, EStateM.Result.ok.injEq] at hrun
    obtain ⟨rfl, rfl⟩ := hrun
    cases (Build.type?_type _ p).symm.trans hty
    cases hpointee
  obtain ⟨t', r, ty', hrun', hty', hpointee', hvoid⟩ := valueType_extend hrun hty hext hinst hfunction hglobal
  exact ⟨t', r, hrun', ty', hty', hpointee'.trans hpointee, fun hty => hne (hvoid.1 hty)⟩

namespace Promoted

variable {slot : Handle .inst} {type : Handle .type}
  {annotations : List (Handle .inst × Handle .function)} {calls : Handle .inst → List (Handle .inst)}
  (hq : p.Promoted q f slot type annotations calls) (hr : p.Ready f slot type annotations)

include hq hr

/-- What is used by something that stays, is no load of the slot and not the slot, stays. -/
theorem not_concerns_of_uses (hw : p.WellFormed f) (ha : p.Apart f) {h o : Handle .inst}
    (huses : p.uses (.inst o) h) (hne : o ≠ slot) (hload : p.instKind? o ≠ some (.load (.inst slot))) :
    ¬ p.concerns slot o := by
  by_cases hh : h ∈ p.body f
  · obtain ⟨pre, post, hbody⟩ := List.append_of_mem hh
    exact hr.not_concerns hbody huses hne hload
  · exact hq.not_concerns_outside hr hw ha hh huses hload

omit hr in
/-- A value that stays keeps its type. -/
theorem scalar {v : Value} (hv : p.Scalar v) (hc : ∀ o, v = .inst o → ¬ p.concerns slot o) : q.Scalar v := by
  refine hv.extend hq.spliced.toExtends ?_ ?_
  · rintro o i rfl hi
    exact ⟨_, hq.inst?_of_not_concerns hi (hc o rfl), rfl⟩
  · intro g x hx
    exact ⟨_, (hq.spliced.function g).trans (congrArg _ hx), rfl⟩

end Promoted

end Program

namespace Precise

open Program

variable {p q : Program} {f : Handle .function}

/-- Whether a function could be a marker by its name. -/
def isMarkerName (name : String) : Bool := markerBeginning.toList.isPrefixOf name.toList

/-- The arguments of marker calls. -/
def Marked (p : Program) (v : Value) : Prop :=
  ∃ c m, p.instKind? c = some (.call m [v]) ∧ isMarker p m

/-- What a function that is named like a marker has to be: a tagged declaration that takes one argument
and gives no result. -/
structure MarkerShape (p : Program) (x : Function) : Prop where
  body   : x.body = []
  tagged : (x.metadata.find? tag).isSome
  unary  : ∃ void param, (p.type? x.type).bind Ty.signature? = some (void, [param]) ∧
    p.type? void = some .void

theorem MarkerShape.extend {x : Function} (hx : MarkerShape p x) (hext : p.Extends q) : MarkerShape q x := by
  obtain ⟨hbody, htag, void, param, hsig, hvoid⟩ := hx
  obtain ⟨ty, hty, hsig⟩ := Option.bind_eq_some_iff.1 hsig
  exact ⟨hbody, htag, void, param, by simp [hext.type? hty, hsig], hext.type? hvoid⟩

/-- Whatever is named like a marker is one. -/
def NamesMarkers (p : Program) : Prop :=
  ∀ g x, p.function? g = some x → isMarkerName x.name → MarkerShape p x

/-- Whether a function is a marker shows in its name. -/
theorem NamesMarkers.isMarker_iff (hnames : NamesMarkers p) {m : Handle .function} :
    isMarker p m ↔ ∃ x, p.function? m = some x ∧ isMarkerName x.name := by
  unfold isMarker
  rw [Option.any_eq_true]
  constructor
  · rintro ⟨x, hx, h⟩
    simp only [Bool.and_eq_true] at h
    exact ⟨x, hx, h.1.2⟩
  · rintro ⟨x, hx, hname⟩
    obtain ⟨hbody, htag, -⟩ := hnames m x hx hname
    refine ⟨x, hx, ?_⟩
    simp only [Function.isDeclaration, hbody, List.isEmpty_nil, Bool.true_and, Bool.and_eq_true]
    exact ⟨hname, htag⟩

/-- A program in which marker calls are made only on slots of the function and on values that are no
pointers, and in which the slots of the function hold such values only. -/
structure Prepared (p : Program) (f : Handle .function) : Prop where
  tidy   : p.Tidy f
  names  : NamesMarkers p
  slots  : ∀ s t, (s, t) ∈ p.slots f → p.ScalarType t
  stores : ∀ x s v, p.instKind? x = some (.store (.inst s) v) → p.IsSlot f s → p.Scalar v
  marks  : ∀ v, Marked p v → (∃ s, v = .inst s ∧ p.IsSlot f s) ∨ p.Scalar v
  called : ∀ h m, isMarker p m → p.uses (.function m) h → ∃ v, p.instKind? h = some (.call m [v])

theorem hasInst_of_isTagged {h : Handle .inst} (htag : isTagged p h) : p.hasInst h := by
  unfold isTagged instMetadata? at htag
  cases hi : p.inst? h with
  | none => simp [hi] at htag
  | some i => simp [hasInst, hi]

theorem hasInst_of_isSlot {s : Handle .inst} (hs : p.IsSlot f s) : p.hasInst s :=
  hasInst_of_instKind? hs.2.choose_spec

/-- The address of a slot is a pointer. -/
theorem not_scalar_of_isSlot (hp : p.Consistent) {s : Handle .inst} (hs : p.IsSlot f s) :
    ¬ p.Scalar (.inst s) := by
  rintro ⟨t, r, hrun, ty, hty, hpointee, -⟩
  obtain ⟨-, type, hk⟩ := hs
  obtain ⟨i, hi, htyped⟩ := exists_inst_of_alloca hp hk
  simp only [valueType, hi, EStateM.Result.ok.injEq] at hrun
  obtain ⟨rfl, rfl⟩ := hrun
  cases hty.symm.trans htyped
  cases hpointee

/-- The values that marker calls ask for. -/
inductive Wanted (p : Program) (f : Handle .function) : Value → Prop
  | stored {s x : Handle .inst} {v : Value} (hs : p.IsSlot f s) (hm : Marked p (.inst s))
      (hstore : p.instKind? x = some (.store (.inst s) v)) : Wanted p f v
  | argument {v : Value} (hv : ∀ s, v = .inst s → ¬ p.IsSlot f s) (hm : Marked p v) : Wanted p f v

namespace Prepared

variable (hp : Prepared p f)

include hp

theorem plain : p.Plain f := by
  intro x s o hk hs ho
  exact not_scalar_of_isSlot hp.tidy.consistent ho (hp.stores x s (.inst o) hk hs)

/-- No instruction stores a marker. -/
theorem not_stored {x : Handle .inst} {ptr : Value} {m : Handle .function} (hm : isMarker p m) :
    p.instKind? x ≠ some (.store ptr (.function m)) := by
  intro hk
  obtain ⟨v, hcall⟩ := hp.called x m hm (uses_value_of_store hk)
  cases hk.symm.trans hcall

/-- Markers annotate. -/
theorem isAnnotator {m : Handle .function} (hm : isMarker p m) : p.isAnnotator m := by
  obtain ⟨x, hx, hname⟩ := hp.names.isMarker_iff.1 hm
  obtain ⟨hbody, -, void, param, hsig, hvoid⟩ := hp.names m x hx hname
  simp [Program.isAnnotator, hx, Function.isDeclaration, hbody, hsig, hvoid]

end Prepared

section Promotion

variable {slot : Handle .inst} {type : Handle .type}
  {annotations : List (Handle .inst × Handle .function)} {calls : Handle .inst → List (Handle .inst)}
  (hp : Prepared p f) (hq : p.Promoted q f slot type annotations calls)
  (hr : p.Ready f slot type annotations) (hcq : q.Consistent)

include hp hq hr

/-- The value that comes in the place of one that is no pointer is none. -/
theorem scalar_resolve {v : Value} (hv : p.Scalar v)
    (hc : ∀ o, v = .inst o → p.instKind? o ≠ some (.load (.inst slot)) → ¬ p.concerns slot o) :
    q.Scalar ((p.traceOf slot type (p.body f)).resolve v) := by
  rcases hr.resolve_cases v with ⟨heq, hno⟩ | ⟨o, rfl, hload, hknown⟩
  · rw [heq]
    exact hq.scalar hv fun o ho => hc o ho (hno o ho)
  · rcases hknown.source with heq | ⟨x, -, hk⟩
    · rw [heq]
      obtain hslot := hp.slots slot type (mem_slots.2 ⟨hr.listed, hr.alloca⟩)
      refine ⟨type, q, ?_, hslot.extend hq.spliced.toExtends⟩
      simp [valueType, hq.undefined]
    · exact hq.scalar (hp.stores x slot _ hk hr.isSlot) hknown.settled

omit hr in
/-- Promotion makes and loses no markers. -/
theorem isMarker_eq (m : Handle .function) : isMarker q m = isMarker p m := by
  simp only [isMarker, hq.spliced.function]
  cases hx : p.function? m with
  | none => rfl
  | some x =>
    by_cases hname : isMarkerName x.name
    · obtain ⟨hbody, -⟩ := hp.names m x hx hname
      simp [Function.isDeclaration, hbody]
    · have hother : markerBeginning.toList.isPrefixOf x.name.toList = false := Bool.eq_false_iff.2 hname
      simp [hother]

omit hq in
/-- What stands for a stored value is no slot. -/
theorem not_isSlot_resolve {x s o : Handle .inst} {v : Value} (hs : p.IsSlot f s)
    (hk : p.instKind? x = some (.store (.inst s) v))
    (hv : (p.traceOf slot type (p.body f)).resolve v = .inst o) : ¬ p.IsSlot f o := by
  intro ho
  rw [(hr.resolve_eq_slot_iff hp.plain ho v).1 hv] at hk
  exact hp.plain x s o hk hs ho

include hcq

/-- Marker calls on other values stay; instead of one on the slot there are some on what is stored. -/
theorem marked_iff {u : Value} :
    Marked q u ↔ (∃ v, Marked p v ∧ v ≠ .inst slot ∧ (p.traceOf slot type (p.body f)).resolve v = u) ∨
      Marked p (.inst slot) ∧
        ∃ x v, p.instKind? x = some (.store (.inst slot) v) ∧ (p.traceOf slot type (p.body f)).resolve v = u := by
  constructor
  · rintro ⟨c, m, hk, hm⟩
    rw [isMarker_eq hp hq] at hm
    -- A marker call is an old one on another value, or one of those put in the place of a store.
    rcases hq.kind_cases hr hcq hk with ⟨hc, k, hk', hmap⟩ | ⟨x, v, a, hv, ha, -, -, -, hcall⟩
    · cases k with
      | call callee args =>
        obtain ⟨rfl, hargs⟩ := InstKind.call.inj hmap
        obtain ⟨v, rfl, rfl⟩ := List.map_eq_singleton_iff.1 hargs.symm
        refine .inl ⟨v, ⟨c, m, hk', hm⟩, ?_, rfl⟩
        rintro rfl
        exact hc (by simp [concerns, uses, hk', InstKind.operands])
      | _ => cases hmap
    · cases hcall
      have hcall := ((mem_annotations hr.consistent hr.promotable).1 ha).1
      exact .inr ⟨⟨a.1, a.2, hcall, hm⟩, x, hr.mem_stores_iff.1 hv⟩
  · rintro (⟨v, ⟨c, m, hk, hm⟩, hne, rfl⟩ | ⟨⟨c, m, hk, hm⟩, x, v, hstore, rfl⟩)
    · have hc : ¬ p.concerns slot c := by
        have hcne : c ≠ slot := by
          rintro rfl
          cases hk.symm.trans hr.alloca
        simp [concerns, uses, hk, InstKind.operands, hcne, Ne.symm hne]
      exact ⟨c, m, hq.instKind?_of_not_concerns hk hc, (isMarker_eq hp hq m).trans hm⟩
    · have ha : (c, m) ∈ annotations.reverse :=
        List.mem_reverse.2 ((mem_annotations hr.consistent hr.promotable).2 ⟨hk, hp.isAnnotator hm⟩)
      obtain ⟨c', -, -, t, -, hinst⟩ :=
        exists_forall₂ (hq.annotated x _ (hr.mem_stores_iff.2 ⟨v, hstore, rfl⟩)) ha
      exact ⟨c', m, by simp [instKind?, hinst, annotating], (isMarker_eq hp hq m).trans hm⟩

/-- What is wanted stands in the place of what was wanted. -/
theorem wanted_iff {u : Value} :
    Wanted q f u ↔ ∃ v, Wanted p f v ∧ (p.traceOf slot type (p.body f)).resolve v = u := by
  constructor
  · rintro (⟨hs, hm, hk⟩ | ⟨hu, hm⟩)
    · obtain ⟨hs, hne⟩ := (hq.isSlot_iff hr).1 hs
      obtain ⟨v, hold, rfl⟩ := (hq.store_iff hr hp.plain hcq hs hne).1 hk
      refine ⟨v, ?_, rfl⟩
      rcases (marked_iff hp hq hr hcq).1 hm with ⟨w, hmarked, -, hw⟩ | ⟨-, y, w, hstore, hw⟩
      · rw [(hr.resolve_eq_slot_iff hp.plain hs w).1 hw] at hmarked
        exact .stored hs hmarked hold
      · exact absurd hs (not_isSlot_resolve hp hr hr.isSlot hstore hw)
    · rcases (marked_iff hp hq hr hcq).1 hm with ⟨v, hmarked, hne, rfl⟩ | ⟨hmarked, x, v, hstore, rfl⟩
      · refine ⟨v, .argument ?_ hmarked, rfl⟩
        rintro s rfl hs
        have hsame := (hr.resolve_eq_slot_iff hp.plain hs _).2 rfl
        exact hu s hsame ((hq.isSlot_iff hr).2 ⟨hs, fun heq => hne (heq ▸ rfl)⟩)
      · exact ⟨v, .stored hr.isSlot hmarked hstore, rfl⟩
  · rintro ⟨v, @⟨s, x, _, hs, hm, hk⟩ | ⟨hv, hm⟩, rfl⟩
    · by_cases hne : s = slot
      · subst hne
        refine .argument ?_ ((marked_iff hp hq hr hcq).2 (.inr ⟨hm, x, v, hk, rfl⟩))
        intro o ho hslot
        exact not_isSlot_resolve hp hr hs hk ho ((hq.isSlot_iff hr).1 hslot).1
      · have hsame := (hr.resolve_eq_slot_iff hp.plain hs _).2 rfl
        refine .stored ((hq.isSlot_iff hr).2 ⟨hs, hne⟩) ?_ ((hq.store_iff hr hp.plain hcq hs hne).2 ⟨v, hk, rfl⟩)
        exact (marked_iff hp hq hr hcq).2 (.inl ⟨_, hm, by simpa using hne, hsame⟩)
    · have hne : v ≠ .inst slot := fun heq => hv slot heq hr.isSlot
      refine .argument ?_ ((marked_iff hp hq hr hcq).2 (.inl ⟨v, hm, hne, rfl⟩))
      intro o ho hslot
      obtain ⟨hslot, -⟩ := (hq.isSlot_iff hr).1 hslot
      exact hv o ((hr.resolve_eq_slot_iff hp.plain hslot v).1 ho) hslot

omit hcq in
/-- An operand that is no pointer is resolved to a value that is none. -/
theorem scalar_resolve_operand {h : Handle .inst} {k : InstKind} {v : Value} (hk : p.instKind? h = some k)
    (hmem : v ∈ k.operands) (hv : p.Scalar v) : q.Scalar ((p.traceOf slot type (p.body f)).resolve v) := by
  refine scalar_resolve hp hq hr hv ?_
  rintro o rfl hload
  refine hq.not_concerns_of_uses hr hp.tidy.wellFormed hp.tidy.apart (uses_iff.2 ⟨k, hk, hmem⟩) ?_ hload
  rintro rfl
  exact not_scalar_of_isSlot hp.tidy.consistent hr.isSlot hv

omit hq hcq in
/-- Nothing but a marker is resolved to it, since markers are not stored. -/
theorem eq_function_of_resolve {m : Handle .function} (hm : isMarker p m) {v : Value}
    (hv : (p.traceOf slot type (p.body f)).resolve v = .function m) : v = .function m :=
  hr.eq_of_resolve (fun _ => nofun) (fun _ => hp.not_stored hm) hv

/-- What uses a marker still is a call of it. -/
theorem called_promoted {h : Handle .inst} {m : Handle .function} (hm : isMarker q m)
    (huses : q.uses (.function m) h) : ∃ v, q.instKind? h = some (.call m [v]) := by
  rw [isMarker_eq hp hq] at hm
  obtain ⟨k, hk, hmem⟩ := uses_iff.1 huses
  rcases hq.kind_cases hr hcq hk with ⟨-, k, hk', rfl⟩ | ⟨x, v, a, hv, ha, -, -, -, rfl⟩
  · rw [InstKind.operands_mapOperands (resolve_function _)] at hmem
    obtain ⟨w, hw, heq⟩ := List.mem_map.1 hmem
    obtain ⟨v, hcall⟩ := hp.called h m hm (uses_iff.2 ⟨k, hk', eq_function_of_resolve hp hr hm heq ▸ hw⟩)
    cases hk'.symm.trans hcall
    exact ⟨_, hk⟩
  · rcases List.mem_cons.1 hmem with heq | hmem
    · cases heq
      exact ⟨v, hk⟩
    · obtain ⟨w, hstore, hw⟩ := hr.mem_stores_iff.1 hv
      rw [eq_function_of_resolve hp hr hm (hw.trans (List.mem_singleton.1 hmem).symm)] at hstore
      exact absurd hstore (hp.not_stored hm)

omit hcq in
/-- The next promotion finds the program prepared as well. -/
theorem prepared_promoted (hsteps : p.Steps q) : Prepared q f := by
  have hcq : q.Consistent := consistent_steps hsteps hr.consistent
  constructor
  case tidy => exact hp.tidy.promotion ⟨hr, hq, hsteps⟩
  case names =>
    intro g y hy hname
    rw [hq.spliced.function] at hy
    obtain ⟨x, hx, rfl⟩ := Option.map_eq_some_iff.1 hy
    obtain ⟨hbody, htag, hunary⟩ := (hp.names g x hx hname).extend hq.spliced.toExtends
    exact ⟨by simp [hbody], htag, hunary⟩
  case slots =>
    intro s t hs
    obtain ⟨hlisted, hk, -⟩ := (hq.alloca_iff hr).1 (mem_slots.1 hs)
    exact (hp.slots s t (mem_slots.2 ⟨hlisted, hk⟩)).extend hq.spliced.toExtends
  case stores =>
    intro x s u hk hs
    obtain ⟨hs, hne⟩ := (hq.isSlot_iff hr).1 hs
    obtain ⟨v, hold, rfl⟩ := (hq.store_iff hr hp.plain hcq hs hne).1 hk
    exact scalar_resolve_operand hp hq hr hold (by simp [InstKind.operands]) (hp.stores x s v hold hs)
  case marks =>
    intro u hu
    -- A marked value was marked before, or was stored to the promoted slot while that was marked.
    rcases (marked_iff hp hq hr hcq).1 hu with ⟨v, hm, hne, rfl⟩ | ⟨-, x, v, hk, rfl⟩
    · rcases hp.marks v hm with ⟨s, rfl, hs⟩ | hv
      · have hs' : q.IsSlot f s := (hq.isSlot_iff hr).2 ⟨hs, fun heq => hne (heq ▸ rfl)⟩
        exact .inl ⟨s, (hr.resolve_eq_slot_iff hp.plain hs _).2 rfl, hs'⟩
      · obtain ⟨c, m, hk, -⟩ := hm
        exact .inr (scalar_resolve_operand hp hq hr hk (by simp [InstKind.operands]) hv)
    · exact .inr (scalar_resolve_operand hp hq hr hk (by simp [InstKind.operands])
        (hp.stores x slot v hk hr.isSlot))
  case called => exact fun h m => called_promoted hp hq hr hcq

omit hp in
/-- What stays keeps its tag, and what is new has none. -/
theorem isTagged_promoted (o : Handle .inst) :
    isTagged q o ↔ isTagged p o ∧ q.hasInst o := by
  unfold isTagged instMetadata? hasInst
  cases hi : q.inst? o with
  | none => simp
  | some i =>
    simp only [Option.bind_some, Option.isSome_some, and_true]
    have hk : q.instKind? o = some i.kind := by simp [instKind?, hi]
    rcases hq.kind_cases hr hcq hk with ⟨hc, k, hk', -⟩ | ⟨x, v, a, -, -, hcall, -, hle, -⟩
    · obtain ⟨j, hj, -⟩ := exists_inst_of_instKind? hk'
      cases hi.symm.trans (hq.inst?_of_not_concerns hj hc)
      simp [hj, Inst.mapKind]
    · obtain ⟨w, b, -, -, -, t, -, hinst⟩ := hq.exists_call hcall
      cases hi.symm.trans hinst
      have hnone : p.inst? o = none := by
        by_contra hsome
        obtain ⟨j, hj⟩ := Option.ne_none_iff_exists'.1 hsome
        exact absurd (Slots.lt_next_of_get? hj) (Nat.not_lt_of_le hle)
      simp only [hnone, Option.bind_none, Option.isSome_none]
      exact iff_of_eq rfl

end Promotion

/-! ## All promotions -/

/-- The instructions that compute what marker calls ask for. -/
def Sought (p : Program) (f : Handle .function) (h : Handle .inst) : Prop :=
  ∃ v, Wanted p f v ∧ p.ResolvesTo f (p.CanPromote f) v h

theorem prepared_promotions (hp : Prepared p f) (h : Promotions f p q) : Prepared q f := by
  induction h with
  | refl => exact hp
  | tail _ hstep ih =>
    obtain ⟨hr, hq, hsteps⟩ := hstep
    exact prepared_promoted ih hq hr hsteps

/-- Whatever slots are promoted, the same instructions are sought. -/
theorem sought_promotions (hp : Prepared p f) (h : Promotions f p q) (o : Handle .inst) :
    Sought q f o ↔ Sought p f o := by
  induction h with
  | refl => exact Iff.rfl
  | @tail q r hbefore hstep ih =>
    have hp := prepared_promotions hp hbefore
    obtain ⟨hr, hq, hsteps⟩ := hstep
    have hcq := consistent_steps hsteps hr.consistent
    rw [← ih]
    constructor
    · rintro ⟨u, hu, ho⟩
      obtain ⟨v, hv, rfl⟩ := (wanted_iff hp hq hr hcq).1 hu
      exact ⟨v, hv, (hq.resolvesTo_iff hr hp.plain hcq).1 ho⟩
    · rintro ⟨v, hv, ho⟩
      exact ⟨_, (wanted_iff hp hq hr hcq).2 ⟨v, hv, rfl⟩, (hq.resolvesTo_iff hr hp.plain hcq).2 ho⟩

/-- Slots stay slots as long as they are there. -/
theorem isSlot_promotions (h : Promotions f p q) {s : Handle .inst} :
    q.IsSlot f s ↔ p.IsSlot f s ∧ q.hasInst s := by
  induction h with
  | refl =>
    rw [iff_self_and]
    exact hasInst_of_isSlot
  | @tail q r hbefore hstep ih =>
    obtain ⟨hr, hq, -⟩ := hstep
    rw [hq.isSlot_iff hr, ih, and_assoc]
    refine and_congr_right fun hs => ?_
    constructor
    · rintro ⟨hlive, hne⟩
      exact hasInst_of_isSlot ((hq.isSlot_iff hr).2 ⟨ih.2 ⟨hs, hlive⟩, hne⟩)
    · intro hlive
      obtain ⟨j, hj⟩ := Option.isSome_iff_exists.1 hlive
      obtain ⟨hc, i, hi, -⟩ := hq.exists_old hj ((Promotions.steps hbefore).lt_next (hasInst_of_isSlot hs))
      refine ⟨Option.isSome_of_eq_some hi, ?_⟩
      rintro rfl
      exact hc (by simp [concerns])

/-- A slot that can be promoted can be as long as it is there. -/
theorem canPromote_promotions (hp : Prepared p f) (h : Promotions f p q) {s : Handle .inst} :
    q.CanPromote f s ↔ p.CanPromote f s ∧ q.IsSlot f s := by
  induction h with
  | refl =>
    rw [iff_self_and]
    exact fun hs => hs.1
  | @tail q r hbefore hstep ih =>
    have hp := prepared_promotions hp hbefore
    obtain ⟨hr, hq, hsteps⟩ := hstep
    have hcq := consistent_steps hsteps hr.consistent
    rw [hq.canPromote_iff hr hp.plain hcq, hq.isSlot_iff hr, ih, and_assoc]

/-- A slot that cannot be promoted stays. -/
theorem isSlot_of_not_canPromote (hp : Prepared p f) (h : Promotions f p q) {s : Handle .inst}
    (hs : p.IsSlot f s) (hno : ¬ p.CanPromote f s) : q.IsSlot f s := by
  induction h with
  | refl => exact hs
  | @tail q r hbefore hstep ih =>
    obtain ⟨hr, hq, -⟩ := hstep
    refine (hq.isSlot_iff hr).2 ⟨ih, ?_⟩
    rintro rfl
    exact hno ((canPromote_promotions hp hbefore).1 hr.canPromote).1

/-- Promotion succeeds, and the slots that are gone after it are those that could be promoted. -/
theorem promote_prepared (hp : Prepared p f) : ∃ n q, promote f p = .ok n q ∧ Promotions f p q ∧
    (∀ s, ¬ q.CanPromote f s) ∧ ∀ s, p.CanPromote f s ↔ p.IsSlot f s ∧ ¬ q.hasInst s := by
  obtain ⟨n, q, hrun, hq, hleft⟩ := hp.tidy.promote_eq
  have hnone : ∀ s, ¬ q.CanPromote f s := by
    rintro s ⟨⟨hlisted, t, hk⟩, hpromotable⟩
    obtain ⟨r, hbefore, hafter, hescape⟩ := hleft (s, t) (mem_slots.2 ⟨hlisted, hk⟩)
    have hr := prepared_promotions hp hbefore
    have := ((canPromote_promotions hr hafter).1 ⟨⟨hlisted, t, hk⟩, hpromotable⟩).1.2
    rw [hescape] at this
    cases this
  refine ⟨n, q, hrun, hq, hnone, fun s => ?_⟩
  constructor
  · intro hs
    refine ⟨hs.1, fun hlive => hnone s ?_⟩
    exact (canPromote_promotions hp hq).2 ⟨hs, (isSlot_promotions hq).2 ⟨hs.1, hlive⟩⟩
  · rintro ⟨hs, hgone⟩
    by_contra hno
    exact hgone (hasInst_of_isSlot (isSlot_of_not_canPromote hp hq hs hno))

/-- Instructions that stay keep their tags, and new ones have none. -/
theorem isTagged_promotions (h : Promotions f p q) (o : Handle .inst) :
    isTagged q o ↔ isTagged p o ∧ q.hasInst o := by
  induction h with
  | refl =>
    rw [iff_self_and]
    exact hasInst_of_isTagged
  | @tail q r hbefore hstep ih =>
    obtain ⟨hr, hq, hsteps⟩ := hstep
    rw [isTagged_promoted hq hr (consistent_steps hsteps hr.consistent), ih, and_assoc]
    refine and_congr_right fun htag => ?_
    rw [and_iff_right_iff_imp]
    intro hlive
    obtain ⟨j, hj⟩ := Option.isSome_iff_exists.1 hlive
    obtain ⟨-, i, hi, -⟩ := hq.exists_old hj ((Promotions.steps hbefore).lt_next (hasInst_of_isTagged htag))
    exact Option.isSome_of_eq_some hi

/-- After promotion what is sought is what is wanted. -/
theorem sought_iff (hnone : ∀ s, ¬ p.CanPromote f s) (h : Handle .inst) :
    Sought p f h ↔ Wanted p f (.inst h) := by
  constructor
  · rintro ⟨v, hv, hvh⟩
    cases hvh with
    | here => exact hv
    | stored hslot => exact absurd hslot (hnone _)
  · intro hwanted
    exact ⟨_, hwanted, .here fun s hs => absurd hs (hnone s)⟩

end Precise

end ShaderModule

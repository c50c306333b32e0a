import ShaderModule.Proofs.Program.Promotions
import ShaderModule.Proofs.Program.Resolve

/-!
# All slots at once

Slots are promoted one after another, each in the code that the promotions before it have left. If no slot
holds the address of another, this is the same as promoting all of them at once: which slots can be promoted,
what is stored to them and what annotates them can be read off the code before the first promotion.
-/

namespace ShaderModule

namespace Program

variable {p q r : Program} {f : Handle .function}

/-! ## What the slots of a function hold -/

/-- Slots of types that are no pointers, to which values of their types are stored. -/
structure TypedSlots (p : Program) (f : Handle .function) : Prop where
  types  : ∀ s t, (s, t) ∈ p.slots f → p.pointee? t = none
  stores : ∀ s t, (s, t) ∈ p.slots f → ∀ x v, p.instKind? x = some (.store (.inst s) v) → p.HasType v t

instance : Decidable (p.TypedSlots f) :=
  decidable_of_iff ((∀ s ∈ p.slots f, p.pointee? s.2 = none) ∧
      ∀ s ∈ p.slots f, ∀ x ∈ p.insts.live, ∀ v ∈ (p.instKind? x).bind (storedThrough? (.inst s.1)),
        p.HasType v s.2) <| by
    simp only [Option.mem_def, Option.bind_eq_some_iff, storedThrough?_eq_some, Prod.forall]
    constructor
    · rintro ⟨htypes, hstores⟩
      exact ⟨htypes, fun s t hs x v hk =>
        hstores s t hs x (Slots.mem_live.2 (hasInst_of_instKind? hk)) v ⟨_, hk, rfl⟩⟩
    · rintro ⟨htypes, hstores⟩
      exact ⟨htypes, fun s t hs x _ v ⟨k, hk, heq⟩ => hstores s t hs x v (heq ▸ hk)⟩

/-- Such slots hold no addresses of slots: these are pointers. -/
theorem TypedSlots.plain (ht : p.TypedSlots f) (hp : p.Consistent) : p.Plain f := by
  rintro x s o hk ⟨hs, t, halloca⟩ ⟨-, t', ho⟩
  have hslot : (s, t) ∈ p.slots f := mem_slots.2 ⟨hs, halloca⟩
  obtain ⟨r, hrun⟩ := ht.stores s t hslot x (.inst o) hk
  obtain ⟨i, hi, htyped⟩ := exists_inst_of_alloca hp ho
  simp only [valueType, hi, EStateM.Result.ok.injEq] at hrun
  have hnone := ht.types s t hslot
  rw [← hrun.1, pointee?, htyped] at hnone
  cases hnone

/-- A well-formed function whose slots hold no addresses of its slots. -/
structure Flat (p : Program) (f : Handle .function) : Prop where
  consistent : p.Consistent
  wellFormed : p.WellFormed f
  plain      : p.Plain f

/-! ## Annotations -/

/-- The function that an instruction of the given kind annotates a slot by. -/
def annotator? (p : Program) (slot : Value) : InstKind → Option (Handle .function)
  | .call callee args => if args = [slot] ∧ p.isAnnotator callee then some callee else none
  | _ => none

theorem annotator?_eq_some {slot : Value} {k : InstKind} {callee : Handle .function} :
    p.annotator? slot k = some callee ↔ k = .call callee [slot] ∧ p.isAnnotator callee := by
  cases k with
  | call g args =>
    simp only [annotator?, Option.ite_none_right_eq_some, Option.some.injEq, InstKind.call.injEq]
    constructor
    · rintro ⟨⟨rfl, hg⟩, rfl⟩
      exact ⟨⟨rfl, rfl⟩, hg⟩
    · rintro ⟨⟨rfl, rfl⟩, hg⟩
      exact ⟨⟨rfl, hg⟩, rfl⟩
  | alloca _ | load _ | store _ _ | binary _ _ _ | ret _ => simp [annotator?]

/-- The functions that a slot is annotated by, call by call in the order of the code. -/
def annotators (p : Program) (slot : Value) : List (Handle .function) :=
  p.code.filterMap fun h => (p.instKind? h).bind (p.annotator? slot)

/-- They are what the annotations of a slot that can be promoted call. -/
theorem annotators_eq_map {slot : Value} {annotations : List (Handle .inst × Handle .function)}
    (h : p.promotable? slot = some annotations) : p.annotators slot = annotations.map Prod.snd := by
  rw [(promotable?_eq_some_iff.1 h).2, slotUses, users, List.filterMap_filterMap, List.map_filterMap,
    List.filterMap_filter, annotators]
  refine List.filterMap_congr fun x _ => Option.ext fun callee => ?_
  cases hk : p.instKind? x with
  | none => simp
  | some k =>
    rw [Option.bind_some, annotator?_eq_some, ← slotUse_eq_annotate]
    cases huse : p.slotUse slot k with
    | annotate g =>
      obtain ⟨rfl, -⟩ := slotUse_eq_annotate.1 huse
      simp [uses, hk, InstKind.operands, huse]
    | load | store | escape => simp [huse]

/-! ## Slots that are promoted -/

/-- A slot that in the body of its function is only loaded from, annotated, and given other values. -/
def Promotable (p : Program) (f : Handle .function) (slot : Handle .inst) : Prop :=
  p.IsSlot f slot ∧ ∀ h ∈ p.body f, ∀ k, p.instKind? h = some k → .inst slot ∈ k.operands →
    k = .load (.inst slot) ∨ (∃ v, v ≠ .inst slot ∧ k = .store (.inst slot) v) ∨
      ∃ callee, k = .call callee [.inst slot] ∧ p.isAnnotator callee

/-- If slots are used in their function only, these are those that can be promoted. -/
theorem canPromote_iff_promotable (hp : p.Consistent) (hw : p.WellFormed f) {slot : Handle .inst} :
    p.CanPromote f slot ↔ p.Promotable f slot := by
  refine and_congr_right fun hs => ?_
  constructor
  · intro h x _ k hk hmem
    obtain ⟨annotations, h⟩ := Option.isSome_iff_exists.1 h
    exact use_of_promotable hp h hk hmem
  · intro h
    rw [promotable?_isSome_iff hp]
    intro x k hk hmem
    have hx : x ∈ p.body f := hw.own slot hs x (uses_iff.2 ⟨k, hk, hmem⟩)
    rcases h x hx k hk hmem with rfl | ⟨v, hv, rfl⟩ | ⟨callee, rfl, hc⟩
    · simp [slotUse]
    · simp [slotUse, hv]
    · simp [slotUse, hc]

/-- Whether an instruction is one of some slots or uses one of them. -/
def concernsAny (p : Program) (slots : List (Handle .inst)) (h : Handle .inst) : Bool :=
  slots.any fun s => p.concerns s h

theorem lt_next_of_concernsAny {slots : List (Handle .inst)} (hslots : ∀ s ∈ slots, p.IsSlot f s)
    {h : Handle .inst} (hc : p.concernsAny slots h) : h < p.insts.next := by
  obtain ⟨s, hs, hc⟩ := List.any_eq_true.1 hc
  refine Slots.lt_next_of_mem_live ?_
  rcases Bool.or_eq_true_iff.1 hc with heq | huses
  · obtain ⟨-, t, hk⟩ := hslots s hs
    exact of_decide_eq_true heq ▸ Slots.mem_live.2 (hasInst_of_instKind? hk)
  · exact mem_live_of_uses huses

/-- `q` is `p` after some slots of a function were promoted at once. The slots and all that uses them are gone.
In the place of a store to one of them stand calls of what annotated it, in reverse order, on the stored value.
Other instructions stay, with their operands resolved: a load of one of the slots stands for the value that was
stored to it last in `p`, resolved in turn, or for an undefined one. -/
structure PromotedAll (p q : Program) (f : Handle .function) (slots : List (Handle .inst))
    (resolve : Value → Value) (calls : Handle .inst → List (Handle .inst)) : Prop where
  spliced   : p.Spliced q fun h => if p.concernsAny slots h then calls h else [h]
  kept      : ∀ h, h < p.insts.next → q.inst? h =
    if p.concernsAny slots h then none else (p.inst? h).map (·.mapKind (·.mapOperands resolve))
  annotated : ∀ s ∈ slots, ∀ x v, p.instKind? x = some (.store (.inst s) v) →
    List.Forall₂ (fun c callee => p.Carried q f c ⟨x, callee, resolve v⟩) (calls x)
      (p.annotators (.inst s)).reverse
  others    : ∀ x, (∀ s ∈ slots, ∀ v, p.instKind? x ≠ some (.store (.inst s) v)) → calls x = []
  settled   : ∀ v, (∀ s ∈ slots, ∀ o, v = .inst o → p.instKind? o ≠ some (.load (.inst s))) → resolve v = v
  loads     : ∀ s ∈ slots, ∀ o pre post, p.body f = pre ++ o :: post →
    p.instKind? o = some (.load (.inst s)) →
      ∃ c type, p.instKind? s = some (.alloca type) ∧ q.constant? c = some (.undef type) ∧
        resolve (.inst o) = ((p.storedValues (.inst s) pre).getLast?.map resolve).getD (.constant c)

theorem promotedAll_nil (p : Program) (f : Handle .function) : p.PromotedAll p f [] id fun _ => [] where
  spliced   := (Spliced.refl p).congr fun _ => rfl
  kept h _  := by
    cases hi : p.inst? h <;> simp [concernsAny, InstKind.mapOperands_id, Inst.mapKind]
  annotated := by simp
  others    := by simp
  settled   := by simp
  loads     := by simp

/-! ## One promotion before the others -/

namespace Promoted

variable {slot : Handle .inst} {type : Handle .type}
  {annotations : List (Handle .inst × Handle .function)} {calls : Handle .inst → List (Handle .inst)}
  (hq : p.Promoted q f slot type annotations calls) (hr : p.Ready f slot type annotations)
  (hplain : p.Plain f) (hcq : q.Consistent)

include hq hr hplain

/-- Other slots are annotated by the same calls before and after. -/
theorem annotators_eq {s : Handle .inst} (hs : p.IsSlot f s) (hne : s ≠ slot) :
    q.annotators (.inst s) = p.annotators (.inst s) := by
  have hsettled := hr.resolve_eq_slot_iff hplain hs
  have hbody : q.body f ≠ [] := List.ne_nil_of_mem ((hq.isSlot_iff hr).2 ⟨hs, hne⟩).1
  rw [annotators, annotators, hq.spliced.code, List.filterMap_flatMap, List.filterMap_eq_flatMap_toList]
  refine List.flatMap_congr fun x hx => ?_
  obtain ⟨i, hi⟩ := Option.isSome_iff_exists.1 ((mem_code hr.consistent).1 hx)
  have hk : p.instKind? x = some i.kind := by simp [instKind?, hi]
  split
  · next hc =>
    have hnew : (calls x).filterMap (fun h => (q.instKind? h).bind (q.annotator? (.inst s))) = [] := by
      rw [List.filterMap_eq_nil_iff]
      intro c hcall
      obtain ⟨v, a, hv, -, -, t, -, hinst⟩ := hq.exists_call hcall
      have hne : v ≠ .inst s := by
        rintro rfl
        exact hr.not_isSlot_of_known hplain (hr.knownAll.stores (x, _) hv) hs
      simp [instKind?, hinst, annotating, annotator?, hne]
    have hold : p.annotator? (.inst s) i.kind = none := by
      rw [Option.eq_none_iff_forall_ne_some]
      intro callee hcallee
      rw [(annotator?_eq_some.1 hcallee).1] at hk
      exact hr.not_concerns_of_uses_slot hplain hs hne (uses_argument_of_call hk) hc
    rw [hnew, hk, Option.bind_some, hold]
    rfl
  · next hc =>
    have hsame : q.annotator? (.inst s) (i.kind.mapOperands (p.traceOf slot type (p.body f)).resolve) =
        p.annotator? (.inst s) i.kind := by
      refine Option.ext fun callee => ?_
      rw [annotator?_eq_some, annotator?_eq_some, ← slotUse_eq_annotate, ← slotUse_eq_annotate,
        slotUse_mapOperands hsettled (hq.isAnnotator_eq hr hbody)]
    rw [List.filterMap_eq_flatMap_toList, List.flatMap_singleton, hq.instKind?_of_not_concerns hk hc, hk,
      Option.bind_some, Option.bind_some, hsame]

include hcq

/-- Other slots concern the same instructions before and after. -/
theorem concernsAny_eq {slots : List (Handle .inst)} (hslots : ∀ s ∈ slots, p.IsSlot f s ∧ s ≠ slot) :
    q.concernsAny slots = p.concernsAny slots := by
  funext h
  refine Bool.eq_iff_iff.2 ?_
  simp only [concernsAny, List.any_eq_true, concerns, Bool.or_eq_true]
  refine exists_congr fun s => and_congr_right fun hs => or_congr_right ?_
  exact hq.uses_slot_iff hr hplain hcq (hslots s hs).1 (hslots s hs).2

variable {slots : List (Handle .inst)} {resolve : Value → Value} {calls' : Handle .inst → List (Handle .inst)}
  (hslots : ∀ s ∈ slots, p.IsSlot f s ∧ s ≠ slot) (h : q.PromotedAll r f slots resolve calls')

include hslots h

/-- A new call stays, and sees through the loads of the other slots. -/
theorem carried {c : Handle .inst} {o : Order} (hc : p.Carried q f c o) :
    p.Carried r f c ⟨o.anchor, o.callee, resolve o.value⟩ := by
  obtain ⟨hle, t, hvoid, hinst⟩ := hc
  have hold : ¬ q.concernsAny slots c := by
    rw [hq.concernsAny_eq hr hplain hcq hslots]
    exact fun hc => Nat.not_lt_of_le hle (lt_next_of_concernsAny (fun s hs => (hslots s hs).1) hc)
  refine ⟨hle, t, hvoid, ?_⟩
  rw [h.kept c (Slots.lt_next_of_get? hinst), if_neg hold, hinst]
  rfl

/-- What the splices of one promotion and the others come to. -/
theorem spliced_all : p.Spliced r fun x =>
    if p.concernsAny (slot :: slots) x then if p.concerns slot x then calls x else calls' x else [x] := by
  refine (hq.spliced.trans h.spliced).congr fun x => ?_
  by_cases hc : p.concerns slot x
  · have hkept : ∀ c ∈ calls x, (if q.concernsAny slots c then calls' c else [c]) = [c] := by
      intro c hcall
      obtain ⟨v, a, -, -, hle, -⟩ := hq.exists_call hcall
      rw [hq.concernsAny_eq hr hplain hcq hslots]
      exact if_neg fun hc => Nat.not_lt_of_le hle (lt_next_of_concernsAny (fun s hs => (hslots s hs).1) hc)
    rw [if_pos hc, List.flatMap_congr hkept]
    simp [concernsAny, hc]
  · rw [if_neg hc, List.flatMap_singleton, hq.concernsAny_eq hr hplain hcq hslots]
    simp [concernsAny, hc]

/-- In the place of each store stand the calls that annotate its slot. -/
theorem annotated_all (hnext : p.insts.next.index ≤ q.insts.next.index) {s x : Handle .inst}
    (hs : s ∈ slot :: slots) {v : Value} (hk : p.instKind? x = some (.store (.inst s) v)) :
    List.Forall₂ (fun c callee =>
        p.Carried r f c ⟨x, callee, resolve ((p.traceOf slot type (p.body f)).resolve v)⟩)
      (if p.concerns slot x then calls x else calls' x) (p.annotators (.inst s)).reverse := by
  have huses : p.uses (.inst s) x := uses_address_of_store hk
  rcases List.mem_cons.1 hs with rfl | hs
  · have hc : p.concerns s x := by simp [concerns, huses]
    rw [if_pos hc, annotators_eq_map hr.promotable, ← List.map_reverse, List.forall₂_map_right_iff]
    exact (hq.annotated x _ (hr.mem_stores_iff.2 ⟨v, hk, rfl⟩)).imp fun c a hcarried =>
      hq.carried hr hplain hcq hslots h hcarried
  · obtain ⟨hslot, hne⟩ := hslots s hs
    have hcalls := h.annotated s hs x _ ((hq.store_iff hr hplain hcq hslot hne).2 ⟨v, hk, rfl⟩)
    rw [if_neg (hr.not_concerns_of_uses_slot hplain hslot hne huses), ← hq.annotators_eq hr hplain hslot hne]
    refine hcalls.imp ?_
    rintro c callee ⟨hle, t, hvoid, hinst⟩
    rw [type?, hq.spliced.types] at hvoid
    exact ⟨Nat.le_trans hnext hle, t, hvoid, hinst⟩

/-- A load is resolved to what was stored last in the program before all promotions. -/
theorem loads_all {s o : Handle .inst} (hs : s ∈ slot :: slots) {pre post : List (Handle .inst)}
    (hbody : p.body f = pre ++ o :: post) (hk : p.instKind? o = some (.load (.inst s))) :
    ∃ c t, p.instKind? s = some (.alloca t) ∧ r.constant? c = some (.undef t) ∧
      resolve ((p.traceOf slot type (p.body f)).resolve (.inst o)) =
        ((p.storedValues (.inst s) pre).getLast?.map
          (resolve ∘ (p.traceOf slot type (p.body f)).resolve)).getD (.constant c) := by
  rcases List.mem_cons.1 hs with rfl | hs
  · refine ⟨p.undefined type, type, hr.alloca, h.spliced.toExtends.constant? hq.undefined, ?_⟩
    rw [hr.resolve_load hbody hk]
    cases (p.storedValues (.inst s) pre).getLast? with
    | none => exact h.settled _ fun _ _ _ => nofun
    | some v => rfl
  · -- The load is still there after the first promotion, with the same stores before it.
    obtain ⟨hslot, hne⟩ := hslots s hs
    have hc := hr.not_concerns_of_uses_slot hplain hslot hne
      (uses_of_load hk)
    have hother : p.instKind? o ≠ some (.load (.inst slot)) := by
      rw [hk]
      simpa using hne
    have hpre : ∀ x ∈ pre, x ∈ p.body f := by
      intro x hx
      simp [hbody, hx]
    obtain ⟨c, t, halloca, hundef, hload⟩ :=
      h.loads s hs o _ _ (hq.body_split hbody hc) ((hq.load_iff hr hplain hcq hslot hne).2 hk)
    have hslot' : p.instKind? s = some (.alloca t) :=
      ((hq.alloca_iff hr).1 ⟨((hq.isSlot_iff hr).2 ⟨hslot, hne⟩).1, halloca⟩).2.1
    refine ⟨c, t, hslot', hundef, ?_⟩
    rw [hr.resolve_of_not_load hother, hload, hq.storedValues_eq hr hplain hslot hne hpre, List.getLast?_map,
      Option.map_map]

/-- A promotion and, after it, that of some other slots at once is the promotion of all of them at once. -/
theorem promotedAll (hnext : p.insts.next.index ≤ q.insts.next.index) :
    p.PromotedAll r f (slot :: slots) (resolve ∘ (p.traceOf slot type (p.body f)).resolve)
      fun x => if p.concerns slot x then calls x else calls' x where
  spliced   := hq.spliced_all hr hplain hcq hslots h
  kept x hx := by
    rw [h.kept x (Nat.lt_of_lt_of_le hx hnext), hq.concernsAny_eq hr hplain hcq hslots, hq.kept x hx]
    by_cases hc : p.concerns slot x
    · simp [concernsAny, hc]
    · cases p.inst? x <;> simp [concernsAny, hc, Inst.mapKind, InstKind.mapOperands_mapOperands]
  annotated s hs x v hk := hq.annotated_all hr hplain hcq hslots h hnext hs hk
  others x hno := by
    split
    · refine hq.others x fun hstore => ?_
      obtain ⟨v, hk⟩ := hr.mem_stores.1 hstore
      exact hno slot List.mem_cons_self v hk
    · refine h.others x fun s hs u hk => ?_
      obtain ⟨hslot, hne⟩ := hslots s hs
      obtain ⟨v, hk, -⟩ := (hq.store_iff hr hplain hcq hslot hne).1 hk
      exact hno s (List.mem_cons_of_mem _ hs) v hk
  settled v hno := by
    have hsame : (p.traceOf slot type (p.body f)).resolve v = v := by
      rcases hr.resolve_cases v with ⟨heq, -⟩ | ⟨o, ho, hload, -⟩
      · exact heq
      · exact absurd hload (hno slot List.mem_cons_self o ho)
    rw [Function.comp_apply, hsame]
    refine h.settled v fun s hs o ho hk => ?_
    obtain ⟨hslot, hne⟩ := hslots s hs
    exact hno s (List.mem_cons_of_mem _ hs) o ho ((hq.load_iff hr hplain hcq hslot hne).1 hk)
  loads s hs o pre post hbody hk := hq.loads_all hr hplain hcq hslots h hs hbody hk

end Promoted

/-! ## All promotions -/

theorem Flat.promoted {slot : Handle .inst} {type : Handle .type}
    {annotations : List (Handle .inst × Handle .function)} {calls : Handle .inst → List (Handle .inst)}
    (hp : p.Flat f) (hr : p.Ready f slot type annotations) (hq : p.Promoted q f slot type annotations calls)
    (hsteps : p.Steps q) : q.Flat f := by
  have hcq : q.Consistent := consistent_steps hsteps hp.consistent
  refine ⟨hcq, hq.wellFormed_of_own hr hp.wellFormed fun s hs h huses => ?_, hq.plain hr hcq hp.plain⟩
  obtain ⟨hs, hne⟩ := (hq.isSlot_iff hr).1 hs
  have huses := (hq.uses_slot_iff hr hp.plain hcq hs hne).1 huses
  exact hq.mem_body_kept (hp.wellFormed.own s hs h huses) (hr.not_concerns_of_uses_slot hp.plain hs hne huses)

/-- Those of some slots that can be promoted. -/
def promotableOf (p : Program) (slots : List (Handle .inst × Handle .type)) : List (Handle .inst) :=
  (slots.map Prod.fst).filter fun s => (p.promotable? (.inst s)).isSome

theorem mem_promotableOf_slots {s : Handle .inst} : s ∈ p.promotableOf (p.slots f) ↔ p.CanPromote f s := by
  simp only [promotableOf, List.mem_filter, List.mem_map, Prod.exists, exists_and_right, exists_eq_right,
    mem_slots, CanPromote, IsSlot, exists_and_left]

/-- The other slots that can be promoted are the same before and after a promotion. -/
theorem Promoted.promotableOf_eq {slot : Handle .inst} {type : Handle .type}
    {annotations : List (Handle .inst × Handle .function)} {calls : Handle .inst → List (Handle .inst)}
    (hq : p.Promoted q f slot type annotations calls) (hr : p.Ready f slot type annotations)
    (hplain : p.Plain f) (hcq : q.Consistent) {slots : List (Handle .inst × Handle .type)}
    (hslots : ∀ s ∈ slots, p.IsSlot f s.1 ∧ s.1 ≠ slot) : q.promotableOf slots = p.promotableOf slots := by
  refine List.filter_congr fun x hx => Bool.eq_iff_iff.2 ?_
  obtain ⟨s, hs, rfl⟩ := List.mem_map.1 hx
  obtain ⟨hslot, hne⟩ := hslots s hs
  have hcan := hq.canPromote_iff hr hplain hcq (s := s.1)
  simpa [CanPromote, (hq.isSlot_iff hr).2 ⟨hslot, hne⟩, hslot, hne] using hcan

/-- Promoting some slots one after another promotes at once those that can be promoted before. -/
theorem Flat.promoteSlots {slots : List (Handle .inst × Handle .type)} (hp : p.Flat f)
    (hn : (slots.map Prod.fst).Nodup)
    (hslots : ∀ s ∈ slots, s.1 ∈ p.body f ∧ p.instKind? s.1 = some (.alloca s.2)) :
    ∃ promoted q resolve calls, slots.mapM (fun s => promoteSlot f s.1 s.2) p = .ok promoted q ∧
      promoted.count true = (p.promotableOf slots).length ∧
      p.PromotedAll q f (p.promotableOf slots) resolve calls ∧
      ∀ s, q.CanPromote f s ↔ p.CanPromote f s ∧ s ∉ slots.map Prod.fst := by
  -- The rest of the slots is promoted in the program that the first promotion leaves, which is flat again.
  induction slots generalizing p with
  | nil => exact ⟨[], p, id, fun _ => [], rfl, rfl, promotedAll_nil p f, by simp⟩
  | cons s slots ih =>
    obtain ⟨hs, hn⟩ := List.nodup_cons.1 hn
    obtain ⟨hlisted, halloca⟩ := hslots s List.mem_cons_self
    have hrest := fun x hx => hslots x (List.mem_cons_of_mem s hx)
    rcases hp.wellFormed.promoteSlot_cases hp.consistent hlisted halloca with
      ⟨hnone, hrun⟩ | ⟨r, annotations, calls, hrun, hr, hq, hsteps⟩
    · obtain ⟨promoted, q, resolve, calls, hruns, hcount, hall, hleft⟩ := ih hp hn hrest
      have hable : p.promotableOf (s :: slots) = p.promotableOf slots := by simp [promotableOf, hnone]
      have hno : ¬ p.CanPromote f s.1 := by simp [CanPromote, hnone]
      refine ⟨false :: promoted, q, resolve, calls, action_mapM_cons hrun hruns, ?_, hable ▸ hall, ?_⟩
      · rw [hable, ← hcount]
        simp
      · intro x
        rw [hleft, List.map_cons, List.mem_cons, not_or, and_congr_right_iff]
        intro hx
        have hne : x ≠ s.1 := fun heq => hno (heq ▸ hx)
        exact (and_iff_right hne).symm
    · have hkept : ∀ x ∈ slots, p.IsSlot f x.1 ∧ x.1 ≠ s.1 := by
        intro x hx
        obtain ⟨hlisted, halloca⟩ := hrest x hx
        exact ⟨⟨hlisted, x.2, halloca⟩, fun heq => hs (heq ▸ List.mem_map_of_mem hx)⟩
      have hf := hp.promoted hr hq hsteps
      obtain ⟨promoted, q, resolve, calls', hruns, hcount, hall, hleft⟩ := ih hf hn fun x hx =>
        (hq.alloca_iff hr).2 ⟨(hrest x hx).1, (hrest x hx).2, (hkept x hx).2⟩
      have hable : p.promotableOf (s :: slots) = s.1 :: r.promotableOf slots := by
        rw [hq.promotableOf_eq hr hp.plain hf.consistent hkept]
        simp [promotableOf, hr.promotable]
      have hslots' : ∀ x ∈ r.promotableOf slots, p.IsSlot f x ∧ x ≠ s.1 := by
        intro x hx
        obtain ⟨y, hy, rfl⟩ := List.mem_map.1 (List.mem_filter.1 hx).1
        exact hkept y hy
      refine ⟨true :: promoted, q, _, _, action_mapM_cons hrun hruns, ?_,
        hable ▸ hq.promotedAll hr hp.plain hf.consistent hslots' hall (next_le_of_steps hsteps), ?_⟩
      · rw [hable, List.length_cons, ← hcount, List.count_cons_self]
      · intro x
        rw [hleft, hq.canPromote_iff hr hp.plain hf.consistent, List.map_cons, List.mem_cons, not_or, and_assoc]

/-- Where no slot can be promoted nothing happens. -/
theorem promote_of_none (hnone : ∀ s, ¬ p.CanPromote f s) : promote f p = .ok 0 p := by
  have hruns : ∀ slots : List (Handle .inst × Handle .type), (∀ s ∈ slots, s ∈ p.slots f) →
      slots.mapM (fun s => promoteSlot f s.1 s.2) p = .ok (slots.map fun _ => false) p := by
    intro slots hslots
    induction slots with
    | nil => rfl
    | cons s slots ih =>
      obtain ⟨hs, hslots⟩ := List.forall_mem_cons.1 hslots
      obtain ⟨hlisted, halloca⟩ := mem_slots.1 hs
      have hs : p.promotable? (.inst s.1) = none := by
        rw [← Option.not_isSome_iff_eq_none]
        exact fun hsome => hnone s.1 ⟨⟨hlisted, s.2, halloca⟩, hsome⟩
      exact action_mapM_cons (promoteSlot_of_none hs) (ih hslots)
  refine action_bind_eq_ok.2 ⟨p, p, rfl, action_bind_eq_ok.2 ⟨_, p, hruns _ fun _ => id, ?_⟩⟩
  have hcount : ((p.slots f).map fun _ => false).count true = 0 := by simp [List.count_eq_zero]
  rw [hcount]
  rfl

/-- Promotion promotes at once all slots that the original body only loads from, annotates and gives other values;
after that there are none left. -/
theorem promote_promotedAll (hp : p.Reachable) (hw : p.WellFormed f) (ht : p.TypedSlots f) :
    ∃ slots resolve calls q, promote f p = .ok slots.length q ∧ slots.Nodup ∧
      (∀ s, s ∈ slots ↔ p.Promotable f s) ∧ p.PromotedAll q f slots resolve calls ∧ promote f q = .ok 0 q := by
  have hc := hp.consistent
  have hslots : ∀ s ∈ p.slots f, s.1 ∈ p.body f ∧ p.instKind? s.1 = some (.alloca s.2) := fun _ => mem_slots.1
  obtain ⟨promoted, q, resolve, calls, hruns, hcount, hall, hleft⟩ :=
    Flat.promoteSlots ⟨hc, hw, ht.plain hc⟩ (nodup_slots hc) hslots
  refine ⟨p.promotableOf (p.slots f), resolve, calls, q, ?_, (nodup_slots hc).filter _, fun s => ?_, hall, ?_⟩
  · rw [← hcount]
    exact action_bind_eq_ok.2 ⟨p, p, rfl, action_bind_eq_ok.2 ⟨promoted, q, hruns, rfl⟩⟩
  · rw [mem_promotableOf_slots, canPromote_iff_promotable hc hw]
  · refine promote_of_none fun s hs => ?_
    obtain ⟨hs, hno⟩ := (hleft s).1 hs
    obtain ⟨hlisted, t, halloca⟩ := hs.1
    exact hno (List.mem_map.2 ⟨(s, t), mem_slots.2 ⟨hlisted, halloca⟩, rfl⟩)

/-- Both slots are promoted, and what is loaded from the second is the argument that was stored in the first. -/
theorem promote_promotedAll_summing :
    ∃ slots resolve calls q, promote ⟨1⟩ summing = .ok 2 q ∧ slots.Perm [⟨0⟩, ⟨1⟩] ∧
      summing.PromotedAll q ⟨1⟩ slots resolve calls ∧ resolve (.inst ⟨6⟩) = .argument ⟨1⟩ 0 ∧
      promote ⟨1⟩ q = .ok 0 q := by
  have hp : summing.Reachable := reachable_foldl _ _
  have hw : summing.WellFormed ⟨1⟩ := by decide
  obtain ⟨slots, resolve, calls, q, hrun, hn, hmem, hall, hagain⟩ :=
    promote_promotedAll hp hw (by decide : summing.TypedSlots ⟨1⟩)
  have hperm : slots.Perm [⟨0⟩, ⟨1⟩] := by
    refine (List.perm_ext_iff_of_nodup hn (by decide)).2 fun s => ?_
    have hable : summing.promotableOf (summing.slots ⟨1⟩) = [⟨0⟩, ⟨1⟩] := by decide
    rw [hmem, ← canPromote_iff_promotable hp.consistent hw, ← mem_promotableOf_slots, hable]
  have hslots : ⟨0⟩ ∈ slots ∧ ⟨1⟩ ∈ slots := by simp [hperm.mem_iff]
  obtain ⟨_, _, -, -, hsecond⟩ :=
    hall.loads ⟨1⟩ hslots.2 ⟨6⟩ [⟨0⟩, ⟨1⟩, ⟨2⟩, ⟨3⟩, ⟨4⟩, ⟨5⟩] [⟨7⟩, ⟨8⟩] (by decide) (by decide)
  obtain ⟨_, _, -, -, hfirst⟩ :=
    hall.loads ⟨0⟩ hslots.1 ⟨4⟩ [⟨0⟩, ⟨1⟩, ⟨2⟩, ⟨3⟩] [⟨5⟩, ⟨6⟩, ⟨7⟩, ⟨8⟩] (by decide) (by decide)
  have hvalue : resolve (.inst ⟨6⟩) = .argument ⟨1⟩ 0 := by
    calc resolve (.inst ⟨6⟩) = resolve (.inst ⟨4⟩) := hsecond
      _ = resolve (.argument ⟨1⟩ 0) := hfirst
      _ = .argument ⟨1⟩ 0 := hall.settled _ fun _ _ _ => nofun
  rw [hperm.length_eq] at hrun
  exact ⟨slots, resolve, calls, q, hrun, hperm, hall, hvalue, hagain⟩

end Program

end ShaderModule

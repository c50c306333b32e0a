import Mathlib.Data.List.Nodup
import ShaderModule.Proofs.Program.Splice

/-!
# What promotion does to code: `promote_slot`

Promoting a slot leaves out the slot and everything that uses it, sees through its loads in all
operands, and puts the annotations of the slot, now of the stored value, in the place of every
store.
-/

namespace ShaderModule

theorem Value.inst?_eq_some {v : Value} {h : Handle .inst} : v.inst? = some h ↔ v = .inst h := by
  cases v <;> simp [Value.inst?]

/-! ## Replacing several values -/

namespace InstKind

theorem mapOperands_mapOperands (f g : Value → Value) (k : InstKind) :
    (k.mapOperands f).mapOperands g = k.mapOperands (g ∘ f) := by
  cases k with
  | ret value => cases value <;> rfl
  | call callee args => simp [mapOperands]
  | _ => rfl

theorem mapOperands_id (k : InstKind) : k.mapOperands id = k := by
  cases k with
  | ret value => cases value <;> rfl
  | call callee args => simp [mapOperands]
  | _ => rfl

end InstKind

/-- The first replacement for a value, or the value itself. -/
def forward (ls : List (Handle .inst × Value)) (v : Value) : Value :=
  ((ls.find? fun l => decide (Value.inst l.1 = v)).map Prod.snd).getD v

theorem SlotTrace.resolve_eq (t : SlotTrace) (v : Value) : t.resolve v = forward t.loads v := rfl

theorem forward_cons (l : Handle .inst × Value) (ls : List (Handle .inst × Value)) (v : Value) :
    forward (l :: ls) v = if Value.inst l.1 = v then l.2 else forward ls v := by
  by_cases hl : Value.inst l.1 = v <;> simp [forward, hl]

theorem forward_of_not_mem {ls : List (Handle .inst × Value)} {v : Value}
    (h : ∀ l ∈ ls, Value.inst l.1 ≠ v) : forward ls v = v := by
  have hnone : ls.find? (fun l => decide (Value.inst l.1 = v)) = none := by
    rw [List.find?_eq_none]
    intro l hl
    simpa using h l hl
  simp [forward, hnone]

/-- A value is replaced by what one of its entries gives, if it has any. -/
theorem forward_cases (ls : List (Handle .inst × Value)) (v : Value) :
    (∃ l ∈ ls, v = .inst l.1 ∧ forward ls v = l.2) ∨ ((∀ l ∈ ls, Value.inst l.1 ≠ v) ∧ forward ls v = v) := by
  cases hfind : ls.find? (fun l => decide (Value.inst l.1 = v)) with
  | none =>
    have hnone : ∀ l ∈ ls, Value.inst l.1 ≠ v := by
      intro l hl
      simpa using List.find?_eq_none.1 hfind l hl
    exact .inr ⟨hnone, forward_of_not_mem hnone⟩
  | some l =>
    refine .inl ⟨l, List.mem_of_find?_eq_some hfind, ?_, by simp [forward, hfind]⟩
    have := List.find?_some hfind
    simpa using (of_decide_eq_true this).symm

theorem forward_of_mem {ls : List (Handle .inst × Value)} (hn : (ls.map Prod.fst).Nodup)
    {l : Handle .inst × Value} (hl : l ∈ ls) : forward ls (.inst l.1) = l.2 := by
  rcases forward_cases ls (.inst l.1) with ⟨m, hm, heq, hforward⟩ | ⟨hnone, -⟩
  · rw [hforward, List.inj_on_of_nodup_map hn hm hl (Value.inst.inj heq).symm]
  · exact absurd rfl (hnone l hl)

/-- Replacing values one after another replaces them all at once, if no replacement is one of them. -/
theorem foldl_replace {ls : List (Handle .inst × Value)} (k : InstKind)
    (h : ∀ l ∈ ls, ∀ m ∈ ls, l.2 ≠ .inst m.1) :
    ls.foldl (fun k l => k.replace (.inst l.1) l.2) k = k.mapOperands (forward ls) := by
  induction ls generalizing k with
  | nil => exact (InstKind.mapOperands_id k).symm
  | cons l ls ih =>
    rw [List.foldl_cons, ih _ fun x hx y hy => h x (List.mem_cons_of_mem _ hx) y (List.mem_cons_of_mem _ hy),
      InstKind.replace, InstKind.mapOperands_mapOperands]
    congr 1
    funext v
    by_cases hv : v = .inst l.1
    · have hsettled : forward ls l.2 = l.2 := by
        refine forward_of_not_mem fun m hm => ?_
        exact Ne.symm (h l List.mem_cons_self m (List.mem_cons_of_mem _ hm))
      simp [forward_cons, hv, hsettled]
    · have hne : Value.inst l.1 ≠ v := Ne.symm hv
      simp [forward_cons, hv, hne]

namespace Program

variable {p q : Program}

/-! ## Users -/

theorem mem_code (hp : p.Consistent) {h : Handle .inst} : h ∈ p.code ↔ p.hasInst h := by
  simp only [code, List.mem_flatMap]
  constructor
  · rintro ⟨g, -, hh⟩
    obtain ⟨i, hi, -⟩ := inst?_of_mem_body hp hh
    simp [hasInst, hi]
  · intro hh
    obtain ⟨i, hi⟩ := Option.isSome_iff_exists.1 hh
    obtain ⟨g, hg, -⟩ := hp.parent h i hi
    exact ⟨i.parent, (hp.order.exact _).2 ⟨g, hg⟩, mem_body_of_inst? hp hi⟩

/-- Pairs that are made of elements of a list, each with its element in front, differ in front. -/
theorem nodup_fst_filterMap {α β : Type} {f : α → Option (α × β)} {xs : List α} (hn : xs.Nodup)
    (hf : ∀ x e, f x = some e → e.1 = x) : ((xs.filterMap f).map Prod.fst).Nodup := by
  rw [List.map_filterMap]
  refine hn.filterMap ?_
  intro x x' y hx hx'
  obtain ⟨e, he, rfl⟩ := Option.map_eq_some_iff.1 hx
  obtain ⟨e', he', heq⟩ := Option.map_eq_some_iff.1 hx'
  rw [← hf x e he, ← hf x' e' he', heq]

theorem nodup_code (hp : p.Consistent) : p.code.Nodup := by
  refine List.nodup_flatMap.2 ⟨fun g _ => nodup_body hp g, ?_⟩
  refine hp.order.nodup.imp ?_
  intro g g' hne x hx hx'
  obtain ⟨i, hi, rfl⟩ := inst?_of_mem_body hp hx
  obtain ⟨j, hj, rfl⟩ := inst?_of_mem_body hp hx'
  cases hi.symm.trans hj
  exact hne rfl

theorem uses_iff {v : Value} {h : Handle .inst} :
    p.uses v h ↔ ∃ k, p.instKind? h = some k ∧ v ∈ k.operands := by
  unfold uses
  cases p.instKind? h <;> simp

section

variable {h : Handle .inst} {callee : Handle .function} {args : List Value} {ptr v : Value}

theorem uses_of_load (hk : p.instKind? h = some (.load ptr)) : p.uses ptr h :=
  uses_iff.2 ⟨_, hk, List.mem_cons_self⟩

theorem uses_address_of_store (hk : p.instKind? h = some (.store ptr v)) : p.uses ptr h :=
  uses_iff.2 ⟨_, hk, List.mem_cons_self⟩

theorem uses_value_of_store (hk : p.instKind? h = some (.store ptr v)) : p.uses v h :=
  uses_iff.2 ⟨_, hk, List.mem_cons_of_mem _ List.mem_cons_self⟩

theorem uses_callee_of_call (hk : p.instKind? h = some (.call callee args)) : p.uses (.function callee) h :=
  uses_iff.2 ⟨_, hk, List.mem_cons_self⟩

theorem uses_argument_of_call (hk : p.instKind? h = some (.call callee [v])) : p.uses v h :=
  uses_iff.2 ⟨_, hk, List.mem_cons_of_mem _ List.mem_cons_self⟩

end

theorem hasInst_of_instKind? {h : Handle .inst} {k : InstKind} (hk : p.instKind? h = some k) :
    p.hasInst h := by
  unfold instKind? at hk
  obtain ⟨i, hi, -⟩ := Option.map_eq_some_iff.1 hk
  simp [hasInst, hi]

theorem mem_users (hp : p.Consistent) {v : Value} {h : Handle .inst} : h ∈ p.users v ↔ p.uses v h := by
  rw [users, List.mem_filter, mem_code hp, and_iff_right_iff_imp]
  intro huses
  obtain ⟨k, hk, -⟩ := uses_iff.1 huses
  exact hasInst_of_instKind? hk

/-- A slot can be promoted if nothing else is done with it, and its annotations are the calls. -/
theorem promotable?_eq_some_iff {slot : Value} {annotations : List (Handle .inst × Handle .function)} :
    p.promotable? slot = some annotations ↔
      (∀ u ∈ p.slotUses slot, u.2 ≠ .escape) ∧
        annotations = (p.slotUses slot).filterMap fun u =>
          match u.2 with
          | .annotate callee => some (u.1, callee)
          | _ => none := by
  simp only [promotable?]
  by_cases hany : (p.slotUses slot).any fun u => decide (u.2 = .escape)
  · rw [if_pos hany]
    obtain ⟨u, hu, hescape⟩ := List.any_eq_true.1 hany
    simp only [reduceCtorEq, false_iff, not_and]
    intro hall
    exact absurd (of_decide_eq_true hescape) (hall u hu)
  · rw [if_neg hany]
    have hall : ∀ u ∈ p.slotUses slot, u.2 ≠ .escape := by
      intro u hu hescape
      exact hany (List.any_eq_true.2 ⟨u, hu, decide_eq_true hescape⟩)
    simp only [Option.some.injEq, eq_comm]
    exact ⟨fun h => ⟨hall, h⟩, fun h => h.2⟩

theorem mem_slotUses (hp : p.Consistent) {slot : Value} {x : Handle .inst} {use : SlotUse} :
    (x, use) ∈ p.slotUses slot ↔
      ∃ k, p.instKind? x = some k ∧ slot ∈ k.operands ∧ p.slotUse slot k = use := by
  simp only [slotUses, List.mem_filterMap, mem_users hp, uses_iff, Option.map_eq_some_iff, Prod.mk.injEq]
  constructor
  · rintro ⟨y, ⟨k, hk, hslot⟩, k', hk', rfl, rfl⟩
    cases hk.symm.trans hk'
    exact ⟨k, hk, hslot, rfl⟩
  · rintro ⟨k, hk, hslot, huse⟩
    exact ⟨x, ⟨k, hk, hslot⟩, k, hk, rfl, huse⟩

/-- What is done with a slot that can be promoted. -/
theorem use_of_promotable (hp : p.Consistent) {slot : Value}
    {annotations : List (Handle .inst × Handle .function)} (h : p.promotable? slot = some annotations)
    {x : Handle .inst} {k : InstKind} (hk : p.instKind? x = some k) (hslot : slot ∈ k.operands) :
    k = .load slot ∨ (∃ v, v ≠ slot ∧ k = .store slot v) ∨
      ∃ callee, k = .call callee [slot] ∧ p.isAnnotator callee := by
  have huse : p.slotUse slot k ≠ .escape :=
    (promotable?_eq_some_iff.1 h).1 (x, _) ((mem_slotUses hp).2 ⟨k, hk, hslot, rfl⟩)
  cases k with
  | load ptr =>
    simp only [slotUse, ne_eq, ite_eq_right_iff, not_forall] at huse
    exact .inl (by rw [huse.1])
  | store ptr v =>
    simp only [slotUse, ne_eq, ite_eq_right_iff, not_forall] at huse
    exact .inr (.inl ⟨v, huse.1.2, by rw [huse.1.1]⟩)
  | call callee args =>
    simp only [slotUse, ne_eq, ite_eq_right_iff, not_forall] at huse
    exact .inr (.inr ⟨callee, by rw [huse.1.1], huse.1.2⟩)
  | alloca _ | binary _ _ _ | ret _ => exact absurd rfl huse

theorem slotUse_eq_annotate {slot : Value} {k : InstKind} {callee : Handle .function} :
    p.slotUse slot k = .annotate callee ↔ k = .call callee [slot] ∧ p.isAnnotator callee := by
  cases k with
  | load ptr => by_cases h : ptr = slot <;> simp [slotUse, h]
  | store ptr v => by_cases h : ptr = slot ∧ v ≠ slot <;> simp [slotUse, h]
  | call callee' args =>
    by_cases h : args = [slot] ∧ p.isAnnotator callee'
    · simp only [slotUse, h, and_self, if_true, SlotUse.annotate.injEq, InstKind.call.injEq, and_true]
      constructor
      · rintro rfl
        exact ⟨rfl, h.2⟩
      · exact fun h => h.1
    · simp only [slotUse, h, if_false, reduceCtorEq, InstKind.call.injEq, false_iff]
      rintro ⟨⟨rfl, hargs⟩, hannotator⟩
      exact h ⟨hargs, hannotator⟩
  | alloca _ | binary _ _ _ | ret _ => simp [slotUse]

/-- The annotations of a slot that can be promoted are the calls among its users. -/
theorem mem_annotations (hp : p.Consistent) {slot : Value}
    {annotations : List (Handle .inst × Handle .function)} (h : p.promotable? slot = some annotations)
    {x : Handle .inst} {callee : Handle .function} :
    (x, callee) ∈ annotations ↔ p.instKind? x = some (.call callee [slot]) ∧ p.isAnnotator callee := by
  rw [(promotable?_eq_some_iff.1 h).2]
  simp only [List.mem_filterMap, Prod.exists, mem_slotUses hp]
  constructor
  · rintro ⟨y, use, ⟨k, hk, hslot, rfl⟩, heq⟩
    split at heq
    · next callee' huse =>
      cases heq
      obtain ⟨rfl, hannotator⟩ := slotUse_eq_annotate.1 huse
      exact ⟨hk, hannotator⟩
    · cases heq
  · rintro ⟨hk, hannotator⟩
    exact ⟨x, .annotate callee, ⟨_, hk, by simp [InstKind.operands],
      slotUse_eq_annotate.2 ⟨rfl, hannotator⟩⟩, rfl⟩

/-- No annotation is listed twice. -/
theorem nodup_annotations (hp : p.Consistent) {slot : Value}
    {annotations : List (Handle .inst × Handle .function)} (h : p.promotable? slot = some annotations) :
    (annotations.map Prod.fst).Nodup := by
  have hfst : ∀ x y : Handle .inst, ∀ use : SlotUse,
      Option.map Prod.fst (match use with
        | .annotate callee => some (x, callee)
        | _ => none) = some y → x = y := by
    intro x y use heq
    split at heq
    · exact Option.some.inj heq
    · cases heq
  rw [(promotable?_eq_some_iff.1 h).2, slotUses, List.filterMap_filterMap, List.map_filterMap]
  refine List.Nodup.filterMap ?_ ((nodup_code hp).filter _)
  intro x x' y hx hx'
  have key : ∀ z, y ∈ Option.map Prod.fst ((Option.map (fun k => (z, p.slotUse slot k))
      (p.instKind? z)).bind fun u => match u.2 with
        | .annotate callee => some (u.1, callee)
        | _ => none) → z = y := by
    intro z hz
    cases hk : p.instKind? z with
    | none => simp [hk] at hz
    | some k =>
      rw [hk] at hz
      exact hfst z y _ hz
  exact (key x hx).trans (key x' hx').symm

/-! ## The trace of a slot -/

/-- Whether an instruction stores to a slot. -/
def storesTo (slot : Value) : InstKind → Bool
  | .store ptr _ => decide (ptr = slot)
  | _ => false

theorem any_storesTo {slot : Value} {h : Handle .inst} :
    (p.instKind? h).any (storesTo slot) ↔ ∃ v, p.instKind? h = some (.store slot v) := by
  cases p.instKind? h with
  | none => simp
  | some k =>
    cases k with
    | store ptr v => simp [storesTo]
    | alloca _ | load _ | binary _ _ _ | call _ _ | ret _ => simp [storesTo]

/-- The trace of a slot, continued over some more instructions. -/
def continueTrace (p : Program) (slot : Value) (t : SlotTrace) (hs : List (Handle .inst)) : SlotTrace :=
  hs.foldl (fun t h => t.step slot h (p.instKind? h)) t

variable {slot : Value} {t : SlotTrace}

theorem continueTrace_append (hs hs' : List (Handle .inst)) :
    p.continueTrace slot t (hs ++ hs') = p.continueTrace slot (p.continueTrace slot t hs) hs' :=
  List.foldl_append

theorem loads_step (h : Handle .inst) :
    (t.step slot h (p.instKind? h)).loads =
      t.loads ++ if p.instKind? h = some (.load slot) then [(h, t.current)] else [] := by
  cases p.instKind? h with
  | none => simp [SlotTrace.step]
  | some k =>
    cases k with
    | load ptr => by_cases hptr : ptr = slot <;> simp [SlotTrace.step, hptr]
    | store ptr v => by_cases hptr : ptr = slot <;> simp [SlotTrace.step, hptr]
    | alloca _ | binary _ _ _ | call _ _ | ret _ => simp [SlotTrace.step]

/-- The loads are all instructions that load from the slot. -/
theorem loads_continueTrace (hs : List (Handle .inst)) :
    (p.continueTrace slot t hs).loads.map Prod.fst =
      t.loads.map Prod.fst ++ hs.filter fun h => decide (p.instKind? h = some (.load slot)) := by
  induction hs generalizing t with
  | nil => simp [continueTrace]
  | cons h hs ih =>
    show (p.continueTrace slot (t.step slot h (p.instKind? h)) hs).loads.map Prod.fst = _
    rw [ih, loads_step]
    by_cases hload : p.instKind? h = some (.load slot) <;> simp [hload]

theorem stores_step (h : Handle .inst) :
    (t.step slot h (p.instKind? h)).stores.map Prod.fst =
      t.stores.map Prod.fst ++ if (p.instKind? h).any (storesTo slot) then [h] else [] := by
  cases p.instKind? h with
  | none => simp [SlotTrace.step]
  | some k =>
    cases k with
    | load ptr => by_cases hptr : ptr = slot <;> simp [SlotTrace.step, hptr, storesTo]
    | store ptr v => by_cases hptr : ptr = slot <;> simp [SlotTrace.step, hptr, storesTo]
    | alloca _ | binary _ _ _ | call _ _ | ret _ => simp [SlotTrace.step, storesTo]

/-- The stores are all instructions that store to the slot. -/
theorem stores_continueTrace (hs : List (Handle .inst)) :
    (p.continueTrace slot t hs).stores.map Prod.fst =
      t.stores.map Prod.fst ++ hs.filter fun h => (p.instKind? h).any (storesTo slot) := by
  induction hs generalizing t with
  | nil => simp [continueTrace]
  | cons h hs ih =>
    show (p.continueTrace slot (t.step slot h (p.instKind? h)) hs).stores.map Prod.fst = _
    rw [ih, stores_step]
    by_cases hstore : (p.instKind? h).any (storesTo slot) <;> simp [hstore]

/-- All values that a trace knows of have the property. -/
structure TraceAll (t : SlotTrace) (P : Value → Prop) : Prop where
  current : P t.current
  loads   : ∀ l ∈ t.loads, P l.2
  stores  : ∀ s ∈ t.stores, P s.2

theorem TraceAll.resolve {P : Value → Prop} (h : TraceAll t P) {v : Value}
    (hv : (∀ l ∈ t.loads, Value.inst l.1 ≠ v) → P v) : P (t.resolve v) := by
  rw [SlotTrace.resolve_eq]
  rcases forward_cases t.loads v with ⟨l, hl, -, heq⟩ | ⟨hnone, heq⟩
  · rw [heq]
    exact h.loads l hl
  · rw [heq]
    exact hv hnone

/-- A trace keeps to a property if the slot is only given values that have it. -/
theorem TraceAll.step {P : Value → Prop} (ht : TraceAll t P) {h : Handle .inst}
    (hstore : ∀ v, p.instKind? h = some (.store slot v) → (∀ l ∈ t.loads, Value.inst l.1 ≠ v) → P v) :
    TraceAll (t.step slot h (p.instKind? h)) P := by
  cases hk : p.instKind? h with
  | none => exact ht
  | some k =>
    cases k with
    | load ptr =>
      simp only [SlotTrace.step]
      split
      · refine ⟨ht.current, ?_, ht.stores⟩
        intro l hl
        rcases List.mem_append.1 hl with hl | hl
        · exact ht.loads l hl
        · rw [List.mem_singleton.1 hl]
          exact ht.current
      · exact ht
    | store ptr v =>
      simp only [SlotTrace.step]
      split
      · next hptr =>
        have hv : P (t.resolve v) := ht.resolve (hstore v (hptr ▸ hk))
        refine ⟨hv, ht.loads, ?_⟩
        intro s hs
        rcases List.mem_append.1 hs with hs | hs
        · exact ht.stores s hs
        · rw [List.mem_singleton.1 hs]
          exact hv
      · exact ht
    | alloca _ | binary _ _ _ | call _ _ | ret _ => exact ht

theorem TraceAll.continue {P : Value → Prop} {hs : List (Handle .inst)} (ht : TraceAll t P)
    (hstore : ∀ pre h post v, hs = pre ++ h :: post → p.instKind? h = some (.store slot v) →
      (∀ l ∈ (p.continueTrace slot t pre).loads, Value.inst l.1 ≠ v) → P v) :
    TraceAll (p.continueTrace slot t hs) P := by
  induction hs generalizing t with
  | nil => exact ht
  | cons h hs ih =>
    refine ih (ht.step fun v => hstore [] h hs v rfl) ?_
    rintro pre x post v rfl
    exact hstore (h :: pre) x post v rfl

/-! ## The edits of a promotion -/

/-- Puts the values of some loads in their place and erases them, one after another. -/
def forwardLoads (ls : List (Handle .inst × Value)) : Edit ProgramError Unit :=
  ls.forM fun (load, value) => do
    modify fun p => p.replaceUses (.inst load) value
    discard (eraseInst load)

/-- One load is forwarded by leaving it out and seeing through it elsewhere. -/
theorem forwardLoad_eq (hp : p.Consistent) {l : Handle .inst × Value} (hlive : p.hasInst l.1) :
    ∃ q, forwardLoads [l] p = .ok () q ∧ q.Consistent ∧ p.Spliced q (fun x => if x = l.1 then [] else [x]) ∧
      ∀ x, q.inst? x = if x = l.1 then none else (p.inst? x).map (·.mapKind (·.replace (.inst l.1) l.2)) := by
  have hp' : (p.replaceUses (.inst l.1) l.2).Consistent := hp.replace _ _
  obtain ⟨i, hi⟩ := Option.isSome_iff_exists.1 hlive
  have hi' : (p.replaceUses (.inst l.1) l.2).inst? l.1 =
      some (i.mapKind (·.replace (.inst l.1) l.2)) := by
    rw [inst?_replaceUses, hi]
    rfl
  obtain ⟨q, hq, hspliced, hinst⟩ := eraseInst_eq hp' hi'
  refine ⟨q, ?_, consistent_of_ok hp' (edits_eraseInst _) hq, ?_, ?_⟩
  · refine action_bind_eq_ok.2 ⟨(), q, ?_, rfl⟩
    exact action_bind_eq_ok.2 ⟨(), _, rfl, action_bind_eq_ok.2 ⟨_, q, hq, rfl⟩⟩
  · refine ((spliced_replaceUses p _ _).trans hspliced).congr ?_
    intro x
    exact List.flatMap_singleton _ _
  · intro x
    rw [hinst, inst?_replaceUses]

theorem forwardLoads_cons_eq_ok {l : Handle .inst × Value} {ls : List (Handle .inst × Value)} {r : Program} :
    forwardLoads (l :: ls) p = .ok () r ↔
      ∃ q, forwardLoads [l] p = .ok () q ∧ forwardLoads ls q = .ok () r := by
  rw [← List.singleton_append, forwardLoads, List.forM_eq_forM, List.forM_append, action_bind_eq_ok]
  exact ⟨fun ⟨(), q, h⟩ => ⟨q, h⟩, fun ⟨q, h⟩ => ⟨(), q, h⟩⟩

theorem forwardLoads_eq {ls : List (Handle .inst × Value)} (hp : p.Consistent)
    (hn : (ls.map Prod.fst).Nodup) (hlive : ∀ h ∈ ls.map Prod.fst, p.hasInst h) :
    ∃ q, forwardLoads ls p = .ok () q ∧ q.Consistent ∧
      p.Spliced q (fun x => if x ∈ ls.map Prod.fst then [] else [x]) ∧
      ∀ x, q.inst? x = if x ∈ ls.map Prod.fst then none
        else (p.inst? x).map (·.mapKind fun k => ls.foldl (fun k l => k.replace (.inst l.1) l.2) k) := by
  induction ls generalizing p with
  | nil =>
    refine ⟨p, rfl, hp, (Spliced.refl p).congr fun _ => rfl, ?_⟩
    intro x
    cases p.inst? x <;> rfl
  | cons l ls ih =>
    obtain ⟨hnot, hn⟩ := List.nodup_cons.1 hn
    obtain ⟨q, hq, hcq, hspliced, hinst⟩ := forwardLoad_eq hp (hlive l.1 (by simp))
    have hlive' : ∀ x ∈ ls.map Prod.fst, q.hasInst x := by
      intro x hx
      have hne : x ≠ l.1 := fun heq => hnot (heq ▸ hx)
      have hx' : p.hasInst x := hlive x (by simpa using .inr (by simpa using hx))
      rw [hasInst, hinst, if_neg hne]
      simpa [hasInst] using hx'
    obtain ⟨r, hr, hcr, hspliced', hinst'⟩ := ih hcq hn hlive'
    have hrest {x : Handle .inst} (hx : x ≠ l.1) : x ∈ (l :: ls).map Prod.fst ↔ x ∈ ls.map Prod.fst := by
      rw [List.map_cons, List.mem_cons, or_iff_right hx]
    refine ⟨r, forwardLoads_cons_eq_ok.2 ⟨q, hq, hr⟩, hcr, (hspliced.trans hspliced').congr ?_, ?_⟩
    · intro x
      by_cases hx : x = l.1
      · simp [hx]
      · rw [if_congr (hrest hx) rfl rfl]
        simp [hx]
    · intro x
      rw [hinst', hinst]
      by_cases hx : x = l.1
      · simp [hx]
      · rw [if_congr (hrest hx) rfl rfl]
        cases p.inst? x <;> simp [hx, Inst.mapKind]

/-! ## When a slot is promoted -/

/-- The instructions that are used in a list come before their uses: in the list, or in `seen`. -/
def UsesEarlier (p : Program) : List (Handle .inst) → List (Handle .inst) → Prop
  | _, [] => True
  | seen, h :: hs => (∀ o, p.uses (.inst o) h → o ∈ seen) ∧ UsesEarlier p (seen ++ [h]) hs

theorem usesEarlier_append {seen hs hs' : List (Handle .inst)} :
    p.UsesEarlier seen (hs ++ hs') ↔ p.UsesEarlier seen hs ∧ p.UsesEarlier (seen ++ hs) hs' := by
  induction hs generalizing seen with
  | nil => simp [UsesEarlier]
  | cons h hs ih => simp [UsesEarlier, ih, and_assoc]

theorem usesEarlier_of_forall {seen hs : List (Handle .inst)}
    (h : ∀ x ∈ hs, ∀ o, p.uses (.inst o) x → o ∈ seen) : p.UsesEarlier seen hs := by
  induction hs generalizing seen with
  | nil => trivial
  | cons x hs ih =>
    refine ⟨h x List.mem_cons_self, ih ?_⟩
    intro y hy o huses
    exact List.mem_append_left _ (h y (List.mem_cons_of_mem _ hy) o huses)

/-- What an instruction uses stands before it. -/
theorem UsesEarlier.mem {pre post : List (Handle .inst)} {h o : Handle .inst}
    (hearlier : p.UsesEarlier [] (pre ++ h :: post)) (huses : p.uses (.inst o) h) : o ∈ pre := by
  have := (usesEarlier_append.1 hearlier).2.1 o huses
  simpa using this

/-- An instruction that has a result. -/
def HasResult (p : Program) (h : Handle .inst) : Prop :=
  ∀ i, p.inst? h = some i → p.type? i.type ≠ some .void

theorem exists_inst_of_instKind? {h : Handle .inst} {k : InstKind} (hk : p.instKind? h = some k) :
    ∃ i, p.inst? h = some i ∧ i.kind = k :=
  Option.map_eq_some_iff.1 hk

/-- A slot is a pointer to what it holds. -/
theorem exists_inst_of_alloca (hp : p.Consistent) {h : Handle .inst} {type : Handle .type}
    (hk : p.instKind? h = some (.alloca type)) :
    ∃ i, p.inst? h = some i ∧ p.type? i.type = some (.pointer type .default) := by
  obtain ⟨i, hi, hkind⟩ := exists_inst_of_instKind? hk
  have htyped := hp.typed h i hi
  rw [Inst.Typed, hkind] at htyped
  exact ⟨i, hi, htyped⟩

/-- An annotation gives nothing, as the function that it calls. -/
theorem exists_inst_of_annotation (hp : p.Consistent) {h : Handle .inst} {callee : Handle .function}
    {args : List Value} (hk : p.instKind? h = some (.call callee args)) (hc : p.isAnnotator callee) :
    ∃ i g params, p.inst? h = some i ∧ p.type? i.type = some .void ∧ p.function? callee = some g ∧
      (p.type? g.type).bind Ty.signature? = some (i.type, params) ∧ params.length = args.length := by
  obtain ⟨i, hi, hkind⟩ := exists_inst_of_instKind? hk
  have htyped := hp.typed h i hi
  rw [Inst.Typed, hkind] at htyped
  simp only [isAnnotator, Option.any_eq_true, Bool.and_eq_true, decide_eq_true_eq] at hc
  obtain ⟨g, hg, -, sig, hsig, hvoid⟩ := hc
  obtain ⟨params, hparams, hlen⟩ := htyped.2 g hg
  cases hsig.symm.trans hparams
  exact ⟨i, g, params, hi, hvoid, hg, hparams, hlen⟩

/-- A store has no result. -/
theorem not_hasResult_of_store (hp : p.Consistent) {h : Handle .inst} {ptr v : Value}
    (hk : p.instKind? h = some (.store ptr v)) : ¬ p.HasResult h := by
  obtain ⟨i, hi, hkind⟩ := exists_inst_of_instKind? hk
  have htyped := hp.typed h i hi
  rw [Inst.Typed, hkind] at htyped
  exact fun hresult => hresult i hi htyped

/-- An annotation has no result. -/
theorem not_hasResult_of_call (hp : p.Consistent) {h : Handle .inst} {callee : Handle .function}
    {args : List Value} (hk : p.instKind? h = some (.call callee args)) (hc : p.isAnnotator callee) :
    ¬ p.HasResult h := by
  obtain ⟨i, -, -, hi, hvoid, -⟩ := exists_inst_of_annotation hp hk hc
  exact fun hresult => hresult i hi hvoid

/-- Whether an instruction is a slot or uses it. -/
def concerns (p : Program) (slot h : Handle .inst) : Bool := decide (h = slot) || p.uses (.inst slot) h

/-- The constant that a slot holds before anything is stored to it. -/
def undefined (p : Program) (type : Handle .type) : Handle .constant := (Build.constant (.undef type) p).1

/-- The trace of a slot over some instructions. -/
def traceOf (p : Program) (slot : Handle .inst) (type : Handle .type) (hs : List (Handle .inst)) : SlotTrace :=
  p.continueTrace (.inst slot) ⟨.constant (p.undefined type), [], []⟩ hs

theorem loads_traceOf (slot : Handle .inst) (type : Handle .type) (hs : List (Handle .inst)) :
    (p.traceOf slot type hs).loads.map Prod.fst =
      hs.filter fun h => decide (p.instKind? h = some (.load (.inst slot))) := by
  rw [traceOf, loads_continueTrace]
  rfl

theorem stores_traceOf (slot : Handle .inst) (type : Handle .type) (hs : List (Handle .inst)) :
    (p.traceOf slot type hs).stores.map Prod.fst =
      hs.filter fun h => (p.instKind? h).any (storesTo (.inst slot)) := by
  rw [traceOf, stores_continueTrace]
  rfl

/-- A slot of a function that can be promoted, with its annotations. -/
structure Ready (p : Program) (f : Handle .function) (slot : Handle .inst) (type : Handle .type)
    (annotations : List (Handle .inst × Handle .function)) : Prop where
  consistent : p.Consistent
  listed     : slot ∈ p.body f
  alloca     : p.instKind? slot = some (.alloca type)
  promotable : p.promotable? (.inst slot) = some annotations
  own        : ∀ h, p.uses (.inst slot) h → h ∈ p.body f
  earlier    : p.UsesEarlier [] (p.body f)
  results    : ∀ h ∈ p.body f, ∀ o, p.uses (.inst o) h → p.HasResult o

/-- `q` is `p` after a slot was promoted. What has become of the stores is given by `calls`. -/
structure Promoted (p q : Program) (f : Handle .function) (slot : Handle .inst) (type : Handle .type)
    (annotations : List (Handle .inst × Handle .function))
    (calls : Handle .inst → List (Handle .inst)) : Prop where
  spliced   : p.Spliced q fun h => if p.concerns slot h then calls h else [h]
  undefined : q.constant? (p.undefined type) = some (.undef type)
  kept      : ∀ h, h < p.insts.next → q.inst? h =
    if p.concerns slot h then none
    else (p.inst? h).map (·.mapKind (·.mapOperands (p.traceOf slot type (p.body f)).resolve))
  annotated : ∀ x v, (x, v) ∈ (p.traceOf slot type (p.body f)).stores →
    List.Forall₂ (fun c a => p.Carried q f c ⟨x, a.2, v⟩) (calls x) annotations.reverse
  others    : ∀ x, x ∉ (p.traceOf slot type (p.body f)).stores.map Prod.fst → calls x = []

/-- A value that a trace over `pre` knows of is not about to disappear, is computed in `pre`, and was
stored to the slot unless it is what the slot held at first. -/
structure Known (p : Program) (f : Handle .function) (slot : Handle .inst) (type : Handle .type)
    (pre : List (Handle .inst)) (v : Value) : Prop where
  settled : ∀ o, v = .inst o → ¬ p.concerns slot o
  earlier : ∀ o, v = .inst o → o ∈ pre
  source  : v = .constant (p.undefined type) ∨
    ∃ h ∈ p.body f, p.instKind? h = some (.store (.inst slot) v)

namespace Ready

variable {f : Handle .function} {slot : Handle .inst} {type : Handle .type}
  {annotations : List (Handle .inst × Handle .function)} (hr : p.Ready f slot type annotations)

include hr

theorem nodup : (p.body f).Nodup := nodup_body hr.consistent f

theorem mem_loads {h : Handle .inst} : h ∈ (p.traceOf slot type (p.body f)).loads.map Prod.fst ↔
    p.instKind? h = some (.load (.inst slot)) := by
  rw [loads_traceOf, List.mem_filter, decide_eq_true_eq, and_iff_right_iff_imp]
  intro hk
  exact hr.own h (uses_of_load hk)

theorem mem_stores {h : Handle .inst} : h ∈ (p.traceOf slot type (p.body f)).stores.map Prod.fst ↔
    ∃ v, p.instKind? h = some (.store (.inst slot) v) := by
  rw [stores_traceOf, List.mem_filter, any_storesTo, and_iff_right_iff_imp]
  rintro ⟨v, hk⟩
  exact hr.own h (uses_address_of_store hk)

theorem nodup_loads : ((p.traceOf slot type (p.body f)).loads.map Prod.fst).Nodup := by
  rw [loads_traceOf]
  exact hr.nodup.filter _

theorem nodup_stores : ((p.traceOf slot type (p.body f)).stores.map Prod.fst).Nodup := by
  rw [stores_traceOf]
  exact hr.nodup.filter _

/-- What concerns a slot is the slot, a load from it, a store to it or an annotation of it. -/
theorem concerns_iff {h : Handle .inst} : p.concerns slot h ↔
    h = slot ∨ h ∈ (p.traceOf slot type (p.body f)).loads.map Prod.fst ∨
      h ∈ annotations.map Prod.fst ∨ h ∈ (p.traceOf slot type (p.body f)).stores.map Prod.fst := by
  rw [hr.mem_loads, hr.mem_stores, concerns, Bool.or_eq_true, decide_eq_true_eq, uses_iff]
  refine or_congr_right ?_
  have hnote : h ∈ annotations.map Prod.fst ↔
      ∃ callee, p.instKind? h = some (.call callee [.inst slot]) ∧ p.isAnnotator callee := by
    rw [List.mem_map]
    constructor
    · rintro ⟨⟨x, callee⟩, hx, rfl⟩
      exact ⟨callee, (mem_annotations hr.consistent hr.promotable).1 hx⟩
    · rintro ⟨callee, hcall⟩
      exact ⟨(h, callee), (mem_annotations hr.consistent hr.promotable).2 hcall, rfl⟩
  rw [hnote]
  constructor
  · rintro ⟨k, hk, hslot⟩
    rcases use_of_promotable hr.consistent hr.promotable hk hslot with rfl | ⟨v, -, rfl⟩ | ⟨callee, rfl, hc⟩
    · exact .inl hk
    · exact .inr (.inr ⟨v, hk⟩)
    · exact .inr (.inl ⟨callee, hk, hc⟩)
  · rintro (hk | ⟨callee, hk, -⟩ | ⟨v, hk⟩)
    · exact ⟨_, hk, by simp [InstKind.operands]⟩
    · exact ⟨_, hk, by simp [InstKind.operands]⟩
    · exact ⟨_, hk, by simp [InstKind.operands]⟩

/-- The slot itself is not what is stored to it. -/
theorem stored_ne_slot {h : Handle .inst} {v : Value} (hk : p.instKind? h = some (.store (.inst slot) v)) :
    v ≠ .inst slot := by
  rcases use_of_promotable hr.consistent hr.promotable hk List.mem_cons_self with
    hload | ⟨w, hne, heq⟩ | ⟨callee, hcall, -⟩
  · cases hload
  · cases heq
    exact hne
  · cases hcall

/-- Whatever an instruction uses and is not replaced stays. -/
theorem not_concerns {pre post : List (Handle .inst)} {h o : Handle .inst} (hbody : p.body f = pre ++ h :: post)
    (huses : p.uses (.inst o) h) (hslot : o ≠ slot) (hload : p.instKind? o ≠ some (.load (.inst slot))) :
    ¬ p.concerns slot o := by
  have hresult : p.HasResult o := hr.results h (by simp [hbody]) o huses
  rw [hr.concerns_iff]
  rintro (heq | hmem | hnote | hstore)
  · exact hslot heq
  · exact hload (hr.mem_loads.1 hmem)
  · obtain ⟨⟨x, callee⟩, hx, rfl⟩ := List.mem_map.1 hnote
    obtain ⟨hcall, hc⟩ := (mem_annotations hr.consistent hr.promotable).1 hx
    exact not_hasResult_of_call hr.consistent hcall hc hresult
  · obtain ⟨v, hv⟩ := hr.mem_stores.1 hstore
    exact not_hasResult_of_store hr.consistent hv hresult

theorem mem_pre {pre post : List (Handle .inst)} {h o : Handle .inst} (hbody : p.body f = pre ++ h :: post)
    (huses : p.uses (.inst o) h) : o ∈ pre := by
  have hearlier := hr.earlier
  rw [hbody] at hearlier
  exact hearlier.mem huses

/-- All values that a trace knows of are known in that sense. -/
theorem known {pre post : List (Handle .inst)} (hbody : p.body f = pre ++ post) :
    TraceAll (p.traceOf slot type pre) (p.Known f slot type pre) := by
  refine TraceAll.continue ⟨⟨?_, ?_, .inl rfl⟩, by simp, by simp⟩ ?_
  · rintro o ⟨⟩
  · rintro o ⟨⟩
  rintro pre' h post' v rfl hk hloads
  have hbody' : p.body f = pre' ++ h :: (post' ++ post) := by simpa using hbody
  have hmem : h ∈ p.body f := by simp [hbody]
  have huses : ∀ {o}, v = .inst o → p.uses (.inst o) h := by
    rintro o rfl
    exact uses_value_of_store hk
  refine ⟨?_, ?_, .inr ⟨h, hmem, hk⟩⟩
  · rintro o rfl
    refine hr.not_concerns hbody' (huses rfl) ?_ ?_
    · rintro rfl
      exact hr.stored_ne_slot hk rfl
    · intro hload
      have hmem : o ∈ (p.traceOf slot type pre').loads.map Prod.fst := by
        rw [loads_traceOf, List.mem_filter, decide_eq_true_eq]
        exact ⟨hr.mem_pre hbody' (huses rfl), hload⟩
      obtain ⟨l, hl, hlo⟩ := List.mem_map.1 hmem
      exact hloads l hl (congrArg Value.inst hlo)
  · rintro o rfl
    exact List.mem_append_left _ (hr.mem_pre hbody' (huses rfl))

theorem knownAll : TraceAll (p.traceOf slot type (p.body f)) (p.Known f slot type (p.body f)) :=
  hr.known (List.append_nil _).symm

/-- No value that is about to be stored or loaded is itself replaced. -/
theorem forward_settled {v : Value} (hv : ∀ o, v = .inst o → ¬ p.concerns slot o) :
    forward (p.traceOf slot type (p.body f)).loads v = v := by
  refine forward_of_not_mem ?_
  rintro l hl rfl
  exact hv l.1 rfl (hr.concerns_iff.2 (.inr (.inl (List.mem_map_of_mem hl))))

theorem lt_next {h : Handle .inst} (hh : p.concerns slot h) : h < p.insts.next := by
  have hlive : ∃ k, p.instKind? h = some k := by
    rcases hr.concerns_iff.1 hh with rfl | hload | hnote | hstore
    · exact ⟨_, hr.alloca⟩
    · exact ⟨_, hr.mem_loads.1 hload⟩
    · obtain ⟨⟨x, callee⟩, hx, rfl⟩ := List.mem_map.1 hnote
      exact ⟨_, ((mem_annotations hr.consistent hr.promotable).1 hx).1⟩
    · obtain ⟨v, hk⟩ := hr.mem_stores.1 hstore
      exact ⟨_, hk⟩
  obtain ⟨k, hk⟩ := hlive
  obtain ⟨i, hi, -⟩ := exists_inst_of_instKind? hk
  exact Slots.lt_next_of_get? hi

/-- Besides the loads, what concerns the slot are the annotations, the stores and the slot itself. -/
theorem concerns_iff_load_or {h : Handle .inst} : p.concerns slot h ↔
    h ∈ (p.traceOf slot type (p.body f)).loads.map Prod.fst ∨
      h ∈ annotations.map Prod.fst ++ ((p.traceOf slot type (p.body f)).stores.map Prod.fst ++ [slot]) := by
  rw [hr.concerns_iff, List.mem_append, List.mem_append, List.mem_singleton]
  tauto

theorem call_of_mem_annotations {h : Handle .inst} (hh : h ∈ annotations.map Prod.fst) :
    ∃ callee, p.instKind? h = some (.call callee [.inst slot]) := by
  obtain ⟨⟨x, callee⟩, hx, rfl⟩ := List.mem_map.1 hh
  exact ⟨callee, ((mem_annotations hr.consistent hr.promotable).1 hx).1⟩

/-- They are all there, and none of them is a load. -/
theorem kind_of_mem {h : Handle .inst}
    (hh : h ∈ annotations.map Prod.fst ++ ((p.traceOf slot type (p.body f)).stores.map Prod.fst ++ [slot])) :
    ∃ k, p.instKind? h = some k ∧ k ≠ .load (.inst slot) := by
  rw [List.mem_append, List.mem_append, List.mem_singleton] at hh
  rcases hh with hnote | hstore | rfl
  · obtain ⟨callee, hk⟩ := hr.call_of_mem_annotations hnote
    exact ⟨_, hk, nofun⟩
  · obtain ⟨v, hk⟩ := hr.mem_stores.1 hstore
    exact ⟨_, hk, nofun⟩
  · exact ⟨_, hr.alloca, nofun⟩

/-- They are different instructions, since they do different things. -/
theorem nodup_besides_loads :
    (annotations.map Prod.fst ++ ((p.traceOf slot type (p.body f)).stores.map Prod.fst ++ [slot])).Nodup := by
  have hstore : ∀ x ∈ (p.traceOf slot type (p.body f)).stores.map Prod.fst, x ≠ slot := by
    rintro x hx rfl
    obtain ⟨v, hk⟩ := hr.mem_stores.1 hx
    cases hr.alloca.symm.trans hk
  have hnote : ∀ x ∈ annotations.map Prod.fst,
      ∀ y ∈ (p.traceOf slot type (p.body f)).stores.map Prod.fst ++ [slot], x ≠ y := by
    rintro x hx y hy rfl
    obtain ⟨callee, hcall⟩ := hr.call_of_mem_annotations hx
    rcases List.mem_append.1 hy with hy | hy
    · obtain ⟨v, hk⟩ := hr.mem_stores.1 hy
      cases hcall.symm.trans hk
    · rw [List.mem_singleton.1 hy] at hcall
      cases hr.alloca.symm.trans hcall
  refine List.nodup_append.2 ⟨nodup_annotations hr.consistent hr.promotable, ?_, hnote⟩
  refine List.nodup_append.2 ⟨hr.nodup_stores, List.nodup_singleton slot, ?_⟩
  intro x hx y hy
  exact List.mem_singleton.1 hy ▸ hstore x hx

/-- Everything that concerns the slot can be erased once the annotations are inserted. -/
theorem clear_eq {q : Program} (hq : q.Consistent) (hold : ∀ x, x < p.insts.next → q.inst? x = p.inst? x) :
    ∃ q₁ q₂ q₃ q₄, forwardLoads (p.traceOf slot type (p.body f)).loads q = .ok () q₁ ∧
      eraseInsts (annotations.map Prod.fst) q₁ = .ok () q₂ ∧
      eraseInsts ((p.traceOf slot type (p.body f)).stores.map Prod.fst) q₂ = .ok () q₃ ∧
      eraseInsts [slot] q₃ = .ok () q₄ ∧
      q.Spliced q₄ (fun x => if p.concerns slot x then [] else [x]) ∧
      ∀ x, q₄.inst? x = if p.concerns slot x then none
        else (q.inst? x).map (·.mapKind (·.mapOperands (p.traceOf slot type (p.body f)).resolve)) := by
  have hlive : ∀ {x k}, p.instKind? x = some k → q.hasInst x := by
    intro x k hk
    obtain ⟨i, hi, -⟩ := exists_inst_of_instKind? hk
    rw [hasInst, hold x (Slots.lt_next_of_get? hi), hi]
    rfl
  obtain ⟨q₁, h₁, c₁, s₁, i₁⟩ := forwardLoads_eq hq hr.nodup_loads fun x hx => hlive (hr.mem_loads.1 hx)
  obtain ⟨q₄, h₄, s₄, i₄⟩ := eraseInsts_eq c₁ hr.nodup_besides_loads fun x hx => by
    obtain ⟨k, hk, hne⟩ := hr.kind_of_mem hx
    rw [hasInst, i₁, if_neg]
    · simpa [hasInst] using hlive hk
    · intro hload
      cases hk.symm.trans (hr.mem_loads.1 hload)
      exact hne rfl
  obtain ⟨q₂, h₂, h₄⟩ := eraseInsts_append_eq_ok.1 h₄
  obtain ⟨q₃, h₃, h₄⟩ := eraseInsts_append_eq_ok.1 h₄
  refine ⟨q₁, q₂, q₃, q₄, h₁, h₂, h₃, h₄, (s₁.trans s₄).congr ?_, ?_⟩
  · intro x
    rw [if_congr hr.concerns_iff_load_or rfl rfl]
    by_cases hload : x ∈ (p.traceOf slot type (p.body f)).loads.map Prod.fst
    · rw [if_pos hload, if_pos (Or.inl hload)]
      rfl
    · rw [if_neg hload, List.flatMap_singleton]
      simp only [hload, false_or]
  · intro x
    have hsettled : ∀ l ∈ (p.traceOf slot type (p.body f)).loads,
        ∀ m ∈ (p.traceOf slot type (p.body f)).loads, l.2 ≠ .inst m.1 := by
      intro l hl m hm heq
      exact (hr.knownAll.loads l hl).settled m.1 heq (hr.concerns_iff.2 (.inr (.inl (List.mem_map_of_mem hm))))
    rw [i₄, i₁, if_congr hr.concerns_iff_load_or rfl rfl]
    simp only [foldl_replace _ hsettled]
    by_cases hload : x ∈ (p.traceOf slot type (p.body f)).loads.map Prod.fst
    · rw [if_pos hload, if_pos (Or.inl hload), ite_self]
    · simp only [hload, false_or, if_false]
      rfl

end Ready

/-- For each store, the calls of all annotations on the stored value. -/
def storeOrders (stores : List (Handle .inst × Value)) (annotations : List (Handle .inst × Handle .function)) :
    List Order :=
  stores.flatMap fun s => annotations.map fun a => ⟨s.1, a.2, s.2⟩

section storeOrders

variable {stores : List (Handle .inst × Value)} {annotations : List (Handle .inst × Handle .function)}

theorem mem_storeOrders {o : Order} :
    o ∈ storeOrders stores annotations ↔ ∃ s ∈ stores, ∃ a ∈ annotations, o = ⟨s.1, a.2, s.2⟩ := by
  simp only [storeOrders, List.mem_flatMap, List.mem_map, eq_comm]

theorem insertOrders_storeOrders (stores : List (Handle .inst × Value))
    (annotations : List (Handle .inst × Handle .function)) :
    insertOrders (storeOrders stores annotations) =
      stores.forM fun (store, value) =>
        annotations.forM fun (_, callee) => discard (insertAfter store (.call callee [value])) := by
  unfold storeOrders
  induction stores with
  | nil => rfl
  | cons s stores ih =>
    simp only [insertOrders, List.forM_eq_forM, List.flatMap_cons, List.forM_append, List.forM_map,
      List.forM_cons] at ih ⊢
    rw [ih]

theorem filter_storeOrders_of_not_mem {x : Handle .inst} (hx : x ∉ stores.map Prod.fst) :
    (storeOrders stores annotations).filter (fun o => decide (o.anchor = x)) = [] := by
  rw [List.filter_eq_nil_iff]
  intro o ho heq
  obtain ⟨s, hs, a, -, rfl⟩ := mem_storeOrders.1 ho
  exact hx (of_decide_eq_true heq ▸ List.mem_map_of_mem hs)

/-- The orders for one store are those for its value. -/
theorem filter_storeOrders (hn : (stores.map Prod.fst).Nodup) {x : Handle .inst} {v : Value}
    (hx : (x, v) ∈ stores) :
    (storeOrders stores annotations).filter (fun o => decide (o.anchor = x)) =
      annotations.map fun a => ⟨x, a.2, v⟩ := by
  induction stores with
  | nil => cases hx
  | cons s stores ih =>
    obtain ⟨hs, hn⟩ := List.nodup_cons.1 hn
    rw [storeOrders, List.flatMap_cons, List.filter_append, ← storeOrders]
    rcases List.mem_cons.1 hx with rfl | hx
    · rw [filter_storeOrders_of_not_mem hs, List.append_nil, List.filter_eq_self]
      intro o ho
      obtain ⟨a, -, rfl⟩ := List.mem_map.1 ho
      exact decide_eq_true rfl
    · have hne : s.1 ≠ x := fun heq => hs (heq ▸ List.mem_map_of_mem hx)
      rw [ih hn hx]
      simp [List.filter_map, hne]

end storeOrders

theorem unary_of_call (hp : p.Consistent) {h : Handle .inst} {callee : Handle .function} {v : Value}
    (hk : p.instKind? h = some (.call callee [v])) (hc : p.isAnnotator callee) :
    ∃ type, p.Unary callee type ∧ p.type? type = some .void := by
  obtain ⟨i, g, params, -, hvoid, hg, hparams, hlen⟩ := exists_inst_of_annotation hp hk hc
  exact ⟨i.type, ⟨g, params, hg, hparams, hlen⟩, hvoid⟩

namespace Ready

variable {f : Handle .function} {slot : Handle .inst} {type : Handle .type}
  {annotations : List (Handle .inst × Handle .function)} (hr : p.Ready f slot type annotations)

include hr

/-- Every annotation can be inserted behind every store. -/
theorem feasible {o : Order} (ho : o ∈ storeOrders (p.traceOf slot type (p.body f)).stores annotations) :
    p.Feasible f o := by
  obtain ⟨s, hs, a, ha, rfl⟩ := mem_storeOrders.1 ho
  obtain ⟨v, hstore⟩ := hr.mem_stores.1 (List.mem_map_of_mem hs)
  obtain ⟨hcall, hc⟩ := (mem_annotations hr.consistent hr.promotable).1 ha
  have hbody : s.1 ∈ p.body f := hr.own _ (uses_address_of_store hstore)
  exact ⟨inst?_of_mem_body hr.consistent hbody, unary_of_call hr.consistent hcall hc⟩

/-- A call that was ordered is new, so it does not concern the slot. -/
theorem not_concerns_of_carried {q : Program} {c : Handle .inst} {o : Order} (hc : p.Carried q f c o) :
    ¬ p.concerns slot c :=
  fun hconcerns => Nat.not_lt_of_le hc.1 (hr.lt_next hconcerns)

/-- Once everything that concerns the slot is erased, only the calls are left where a store was. -/
theorem flatMap_clear {calls : Handle .inst → List (Handle .inst)}
    (hfresh : ∀ x, ∀ c ∈ calls x, ¬ p.concerns slot c)
    (hothers : ∀ x, x ∉ (p.traceOf slot type (p.body f)).stores.map Prod.fst → calls x = []) (x : Handle .inst) :
    (x :: calls x).flatMap (fun c => if p.concerns slot c then [] else [c]) =
      if p.concerns slot x then calls x else [x] := by
  have hkept : (calls x).flatMap (fun c => if p.concerns slot c then [] else [c]) = calls x := by
    rw [List.flatMap_congr fun c hc => if_neg (hfresh x c hc)]
    simp
  rw [List.flatMap_cons, hkept]
  by_cases hx : p.concerns slot x
  · rw [if_pos hx, if_pos hx, List.nil_append]
  · have hnone : calls x = [] := by
      refine hothers x fun hstore => hx ?_
      exact hr.concerns_iff.2 (.inr (.inr (.inr hstore)))
    rw [if_neg hx, if_neg hx, hnone, List.append_nil]

end Ready

/-- A slot that is ready is promoted. -/
theorem promoteSlot_eq {f : Handle .function} {slot : Handle .inst} {type : Handle .type}
    {annotations : List (Handle .inst × Handle .function)} (hr : p.Ready f slot type annotations) :
    ∃ q calls, promoteSlot f slot type p = .ok true q ∧ p.Promoted q f slot type annotations calls := by
  let trace := p.traceOf slot type (p.body f)
  -- The undefined value is recorded first, then the calls are inserted, then what concerns the slot is erased.
  let r : Program := (Build.constant (.undef type) p).2
  have hquiet : p.Quiet r := (Build.growing_constant _ p).quiet
  have hgrown : p.Spliced r ([·]) := .of_rest rfl hquiet.constants
  obtain ⟨q, calls, hq, hspliced, hold, hcalls⟩ :=
    insertOrders_eq (hr.consistent.quiet hquiet) fun o => hr.feasible
  have hcq : q.Consistent :=
    consistent_of_ok (hr.consistent.quiet hquiet) (.forM (fun o => .discard (edits_insertAfter _ _)) _) hq
  obtain ⟨q₁, q₂, q₃, q₄, h₁, h₂, h₃, h₄, hcleared, hinst⟩ := hr.clear_eq hcq hold
  rw [insertOrders_storeOrders] at hq
  have hfresh : ∀ x, ∀ c ∈ calls x, ¬ p.concerns slot c := by
    intro x c hc
    obtain ⟨o, -, hcarried⟩ := exists_forall₂ (hcalls x).flip hc
    exact hr.not_concerns_of_carried hcarried
  have hothers : ∀ x, x ∉ trace.stores.map Prod.fst → calls x = [] := by
    intro x hx
    have := hcalls x
    rw [filter_storeOrders_of_not_mem hx] at this
    exact List.forall₂_nil_right_iff.1 this
  refine ⟨q₄, calls, ?_, ?_⟩
  · refine action_bind_eq_ok.2 ⟨p, p, rfl, ?_⟩
    simp only [hr.promotable]
    refine action_bind_eq_ok.2 ⟨p.undefined type, r, rfl, action_bind_eq_ok.2 ⟨r, r, rfl, ?_⟩⟩
    refine action_bind_eq_ok.2 ⟨(), q, hq, action_bind_eq_ok.2 ⟨(), q₁, h₁, ?_⟩⟩
    refine action_bind_eq_ok.2 ⟨(), q₂, h₂, action_bind_eq_ok.2 ⟨(), q₃, h₃, ?_⟩⟩
    exact action_bind_eq_ok.2 ⟨(), q₄, h₄, rfl⟩
  constructor
  case spliced =>
    refine ((hgrown.trans hspliced).trans hcleared).congr ?_
    intro x
    rw [List.flatMap_singleton]
    exact hr.flatMap_clear hfresh hothers x
  case undefined =>
    exact (hspliced.trans hcleared).toExtends.constant? (Build.constant?_constant _ p)
  case kept =>
    intro h hh
    rw [hinst, hold h hh]
    rfl
  case annotated =>
    intro x v hx
    have := hcalls x
    rw [filter_storeOrders hr.nodup_stores hx, ← List.map_reverse, List.forall₂_map_right_iff] at this
    refine this.imp ?_
    rintro c a ⟨hle, t, hvoid, hc⟩
    refine ⟨hle, t, hvoid, ?_⟩
    have hnew : ¬ p.concerns slot c := hr.not_concerns_of_carried ⟨hle, t, hvoid, hc⟩
    have hv : trace.resolve v = v := hr.forward_settled (hr.knownAll.stores (x, v) hx).settled
    rw [hinst, if_neg hnew, hc]
    simp [Inst.mapKind, annotating, InstKind.mapOperands, trace] at hv ⊢
    exact hv
  case others => exact hothers

end Program

end ShaderModule

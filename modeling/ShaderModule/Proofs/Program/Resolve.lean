import Mathlib.Data.List.Induction
import ShaderModule.Proofs.Program.WellFormed

/-!
# Seeing through promotable slots

Which instruction computes a value, if the slots that can be promoted are seen through: a load of such
a slot stands for what the last store before it has stored. Promoting one of these slots does not
change the answer.
-/

namespace ShaderModule

namespace Program

variable {p q : Program} {f : Handle .function}

/-- What an instruction stores through a pointer, if it does. -/
def storedThrough? (ptr : Value) : InstKind → Option Value
  | .store target value => if target = ptr then some value else none
  | _ => none

theorem storedThrough?_eq_some {ptr v : Value} {k : InstKind} :
    storedThrough? ptr k = some v ↔ k = .store ptr v := by
  cases k with
  | store target value => by_cases htarget : target = ptr <;> simp [storedThrough?, htarget]
  | alloca _ | load _ | binary _ _ _ | call _ _ | ret _ => simp [storedThrough?]

/-- If a pointer is the only value that becomes it, the same is stored through it, mapped. -/
theorem storedThrough?_mapOperands {f : Value → Value} {ptr : Value} (hf : ∀ v, f v = ptr ↔ v = ptr)
    (k : InstKind) : storedThrough? ptr (k.mapOperands f) = (storedThrough? ptr k).map f := by
  cases k with
  | store target value =>
    by_cases htarget : target = ptr <;> simp [storedThrough?, InstKind.mapOperands, hf, htarget]
  | alloca _ | load _ | binary _ _ _ | call _ _ | ret _ => rfl

/-- The values that some instructions store through a pointer, in order. -/
def storedValues (p : Program) (ptr : Value) (hs : List (Handle .inst)) : List Value :=
  hs.filterMap fun h => (p.instKind? h).bind (storedThrough? ptr)

theorem storedValues_append (ptr : Value) (hs hs' : List (Handle .inst)) :
    p.storedValues ptr (hs ++ hs') = p.storedValues ptr hs ++ p.storedValues ptr hs' :=
  List.filterMap_append

theorem mem_storedValues {ptr v : Value} {hs : List (Handle .inst)} :
    v ∈ p.storedValues ptr hs ↔ ∃ h ∈ hs, p.instKind? h = some (.store ptr v) := by
  simp [storedValues, Option.bind_eq_some_iff, storedThrough?_eq_some]

theorem storedValues_singleton (ptr : Value) (h : Handle .inst) :
    p.storedValues ptr [h] = ((p.instKind? h).bind (storedThrough? ptr)).toList := by
  cases hv : (p.instKind? h).bind (storedThrough? ptr) <;> simp [storedValues, hv]

/-- The slots of a function that can be promoted. -/
def CanPromote (p : Program) (f : Handle .function) (slot : Handle .inst) : Prop :=
  p.IsSlot f slot ∧ (p.promotable? (.inst slot)).isSome

/-- The instruction that computes a value. A load of a promoted slot stands for the value of the last
store to the slot before it; if there is none, no instruction computes the value. -/
inductive ResolvesTo (p : Program) (f : Handle .function) (promoted : Handle .inst → Prop) :
    Value → Handle .inst → Prop
  | here {o : Handle .inst} (hno : ∀ slot, promoted slot → p.instKind? o ≠ some (.load (.inst slot))) :
      ResolvesTo p f promoted (.inst o) o
  | stored {o slot h : Handle .inst} {v : Value} {pre post : List (Handle .inst)}
      (hslot : promoted slot) (hk : p.instKind? o = some (.load (.inst slot)))
      (hbody : p.body f = pre ++ o :: post) (hlast : (p.storedValues (.inst slot) pre).getLast? = some v)
      (hv : ResolvesTo p f promoted v h) : ResolvesTo p f promoted (.inst o) h

/-- An instruction stands at one place of a body only. -/
theorem split_unique (hp : p.Consistent) {o : Handle .inst} {pre post pre' post' : List (Handle .inst)}
    (hbody : p.body f = pre ++ o :: post) (hbody' : p.body f = pre' ++ o :: post') :
    pre = pre' ∧ post = post' := by
  have hnodup := nodup_body hp f
  rw [hbody, List.nodup_append] at hnodup
  obtain ⟨-, hpost, hdisjoint⟩ := hnodup
  have hpre : o ∉ pre := fun ho => hdisjoint o ho o List.mem_cons_self rfl
  have := (List.append_cons_inj_of_notMem hpre (List.nodup_cons.1 hpost).1).1 (hbody.symm.trans hbody')
  exact ⟨this.1, this.2.2⟩

/-- No other instruction computes the value. -/
theorem ResolvesTo.unique (hp : p.Consistent) {promoted : Handle .inst → Prop} {v : Value}
    {h h' : Handle .inst} (hv : p.ResolvesTo f promoted v h) (hv' : p.ResolvesTo f promoted v h') :
    h = h' := by
  induction hv with
  | here hno =>
    cases hv' with
    | here => rfl
    | stored hslot hk => exact absurd hk (hno _ hslot)
  | stored hslot hk hbody hlast hv ih =>
    cases hv' with
    | here hno => exact absurd hk (hno _ hslot)
    | stored hslot' hk' hbody' hlast' hv' =>
      cases hk.symm.trans hk'
      obtain ⟨rfl, -⟩ := split_unique hp hbody hbody'
      cases hlast.symm.trans hlast'
      exact ih hv'

theorem promotable?_isSome_iff (hp : p.Consistent) {v : Value} :
    (p.promotable? v).isSome ↔
      ∀ h k, p.instKind? h = some k → v ∈ k.operands → p.slotUse v k ≠ .escape := by
  have hsome : (p.promotable? v).isSome ↔ ∀ u ∈ p.slotUses v, u.2 ≠ .escape := by
    rw [Option.isSome_iff_exists]
    constructor
    · rintro ⟨annotations, h⟩
      exact (promotable?_eq_some_iff.1 h).1
    · intro h
      exact ⟨_, promotable?_eq_some_iff.2 ⟨h, rfl⟩⟩
  rw [hsome]
  constructor
  · intro H h k hk hv
    exact H (h, _) ((mem_slotUses hp).2 ⟨k, hk, hv, rfl⟩)
  · rintro H ⟨h, use⟩ hu
    obtain ⟨k, hk, hv, rfl⟩ := (mem_slotUses hp).1 hu
    exact H h k hk hv

/-- If a slot is the only operand that becomes the slot, it is used as before. -/
theorem slotUse_mapOperands {f : Value → Value} {slot : Value} (hf : ∀ v, f v = slot ↔ v = slot)
    {k : InstKind} (hannotator : ∀ g, q.isAnnotator g = p.isAnnotator g) :
    q.slotUse slot (k.mapOperands f) = p.slotUse slot k := by
  cases k with
  | load ptr => simp only [InstKind.mapOperands, slotUse, hf]
  | store ptr value => simp only [InstKind.mapOperands, slotUse, hf, ne_eq]
  | call callee args =>
    have hargs : args.map f = [slot] ↔ args = [slot] := by
      cases args with
      | nil => simp
      | cons v vs => cases vs <;> simp [hf]
    simp only [InstKind.mapOperands, slotUse, hargs, hannotator]
  | alloca _ | binary _ _ _ | ret _ => rfl

section Slot

variable {slot : Handle .inst} {type : Handle .type}
  {annotations : List (Handle .inst × Handle .function)} {calls : Handle .inst → List (Handle .inst)}

namespace Ready

variable (hr : p.Ready f slot type annotations)

include hr

theorem isSlot : p.IsSlot f slot := ⟨hr.listed, type, hr.alloca⟩

theorem canPromote : p.CanPromote f slot := ⟨hr.isSlot, Option.isSome_of_eq_some hr.promotable⟩

/-- What the slot holds after part of a body is the last stored value, with the loads in it seen
through. -/
theorem current_eq {pre : List (Handle .inst)} : ∀ {post : List (Handle .inst)}, p.body f = pre ++ post →
    (p.traceOf slot type pre).current = (((p.storedValues (.inst slot) pre).getLast?).map
      (p.traceOf slot type (p.body f)).resolve).getD (.constant (p.undefined type)) := by
  -- From the back: the last instruction is a store to the slot, or the slot keeps what it holds.
  induction pre using List.reverseRecOn with
  | nil => exact fun _ => rfl
  | append_singleton pre x ih =>
    intro post hbody
    have hbody' : p.body f = pre ++ x :: post := by simpa using hbody
    rw [traceOf_concat, storedValues_append, storedValues_singleton]
    cases hk : p.instKind? x with
    | none => simpa [SlotTrace.step] using ih hbody'
    | some k =>
      by_cases hstore : ∃ v, k = .store (.inst slot) v
      · obtain ⟨v, rfl⟩ := hstore
        have hpre : ∀ o, v = .inst o → o ∈ pre := by
          rintro o rfl
          exact hr.mem_pre hbody' (uses_value_of_store hk)
        simp [SlotTrace.step, storedThrough?, hr.resolve_prefix hbody' hpre]
      · have hnone : storedThrough? (.inst slot) k = none := by
          rw [Option.eq_none_iff_forall_ne_some]
          exact fun v hv => hstore ⟨v, storedThrough?_eq_some.1 hv⟩
        have hcurrent : ((p.traceOf slot type pre).step (.inst slot) x (some k)).current =
            (p.traceOf slot type pre).current := by
          cases k with
          | load ptr => by_cases hptr : ptr = .inst slot <;> simp [SlotTrace.step, hptr]
          | store ptr v =>
            have hptr : ptr ≠ .inst slot := fun heq => hstore ⟨v, by rw [heq]⟩
            simp [SlotTrace.step, hptr]
          | alloca _ | binary _ _ _ | call _ _ | ret _ => rfl
        rw [hcurrent, ih hbody']
        simp [hnone]

/-- That is what a load becomes. -/
theorem resolve_load {o : Handle .inst} {pre post : List (Handle .inst)} (hbody : p.body f = pre ++ o :: post)
    (hk : p.instKind? o = some (.load (.inst slot))) :
    (p.traceOf slot type (p.body f)).resolve (.inst o) =
      (((p.storedValues (.inst slot) pre).getLast?).map
        (p.traceOf slot type (p.body f)).resolve).getD (.constant (p.undefined type)) := by
  have hmem : (o, (p.traceOf slot type pre).current) ∈ (p.traceOf slot type (p.body f)).loads := by
    have hstep : (o, (p.traceOf slot type pre).current) ∈ (p.traceOf slot type (pre ++ [o])).loads := by
      rw [traceOf_concat, loads_step, if_pos hk]
      simp
    have hbody' : p.body f = (pre ++ [o]) ++ post := by simpa using hbody
    rw [hbody', traceOf, continueTrace_append]
    exact (continueTrace_isPrefix post).1.subset hstep
  rw [← hr.current_eq hbody, SlotTrace.resolve_eq, forward_of_mem hr.nodup_loads hmem]

theorem resolve_of_not_load {o : Handle .inst} (hno : p.instKind? o ≠ some (.load (.inst slot))) :
    (p.traceOf slot type (p.body f)).resolve (.inst o) = .inst o := by
  rcases hr.resolve_cases (.inst o) with ⟨heq, -⟩ | ⟨o', ho, hload, -⟩
  · exact heq
  · cases ho
    exact absurd hload hno

theorem resolve_of_not_inst {v : Value} (hno : ∀ o, v ≠ .inst o) :
    (p.traceOf slot type (p.body f)).resolve v = v := by
  rcases hr.resolve_cases v with ⟨heq, -⟩ | ⟨o, ho, -⟩
  · exact heq
  · exact absurd ho (hno o)

/-- Nothing becomes a load of the slot. -/
theorem not_load_of_resolve {v : Value} {o : Handle .inst}
    (hv : (p.traceOf slot type (p.body f)).resolve v = .inst o) :
    p.instKind? o ≠ some (.load (.inst slot)) := by
  rcases hr.resolve_cases v with ⟨heq, hno⟩ | ⟨-, -, -, hknown⟩
  · exact hno o (heq.symm.trans hv)
  · intro hk
    refine hknown.settled o hv ?_
    simp [concerns, uses, hk, InstKind.operands]

/-- What was stored before an instruction was computed before it. -/
theorem earlier_of_stored {o o' : Handle .inst} {pre post : List (Handle .inst)}
    (hbody : p.body f = pre ++ o :: post) {ptr : Value}
    (hlast : (p.storedValues ptr pre).getLast? = some (.inst o')) :
    ∃ pre' post', p.body f = pre' ++ o' :: post' ∧ pre'.length < pre.length := by
  obtain ⟨y, hy, hstore⟩ := mem_storedValues.1 (List.mem_of_getLast? hlast)
  obtain ⟨pre₁, pre₂, rfl⟩ := List.append_of_mem hy
  have hbody₁ : p.body f = pre₁ ++ y :: (pre₂ ++ o :: post) := by simpa using hbody
  have huses : p.uses (.inst o') y := uses_value_of_store hstore
  obtain ⟨pre₃, pre₄, rfl⟩ := List.append_of_mem (hr.mem_pre hbody₁ huses)
  refine ⟨pre₃, pre₄ ++ y :: (pre₂ ++ o :: post), by simpa using hbody₁, ?_⟩
  simp only [List.length_append, List.length_cons]
  omega

/-- What computes that which an instruction becomes computes the instruction. -/
theorem resolvesTo_of_resolve_inst {h : Handle .inst} (n : Nat) {o : Handle .inst}
    {pre post : List (Handle .inst)} (hbody : p.body f = pre ++ o :: post) (hlt : pre.length < n)
    (hv : p.ResolvesTo f (p.CanPromote f) ((p.traceOf slot type (p.body f)).resolve (.inst o)) h) :
    p.ResolvesTo f (p.CanPromote f) (.inst o) h := by
  -- A load may become another load of the slot, but only one that stands before it.
  induction n generalizing o pre post with
  | zero => exact absurd hlt (Nat.not_lt_zero _)
  | succ n ih =>
    by_cases hk : p.instKind? o = some (.load (.inst slot))
    · rw [hr.resolve_load hbody hk] at hv
      cases hlast : (p.storedValues (.inst slot) pre).getLast? with
      | none =>
        rw [hlast] at hv
        cases hv
      | some w =>
        rw [hlast] at hv
        refine .stored hr.canPromote hk hbody hlast ?_
        by_cases hw : ∃ o', w = .inst o'
        · obtain ⟨o', rfl⟩ := hw
          obtain ⟨pre', post', hbody', hshorter⟩ := hr.earlier_of_stored hbody hlast
          exact ih hbody' (by omega) hv
        · rwa [Option.map_some, Option.getD_some,
            hr.resolve_of_not_inst fun o' ho' => hw ⟨o', ho'⟩] at hv
    · rwa [hr.resolve_of_not_load hk] at hv

/-- What computes that which a value becomes computes the value. -/
theorem resolvesTo_of_resolve {v : Value} {h : Handle .inst}
    (hv : p.ResolvesTo f (p.CanPromote f) ((p.traceOf slot type (p.body f)).resolve v) h) :
    p.ResolvesTo f (p.CanPromote f) v h := by
  by_cases hload : ∃ o, v = .inst o ∧ p.instKind? o = some (.load (.inst slot))
  · obtain ⟨o, rfl, hk⟩ := hload
    obtain ⟨pre, post, hbody⟩ :=
      List.append_of_mem (hr.own o (uses_of_load hk))
    exact hr.resolvesTo_of_resolve_inst _ hbody (Nat.lt_succ_self _) hv
  · rcases hr.resolve_cases v with ⟨heq, -⟩ | ⟨o, ho, hk, -⟩
    · rwa [heq] at hv
    · exact absurd ⟨o, ho, hk⟩ hload

variable (hplain : p.Plain f)

include hplain

/-- Other slots are seen as before. -/
theorem resolve_eq_slot_iff {s : Handle .inst} (hs : p.IsSlot f s) (v : Value) :
    (p.traceOf slot type (p.body f)).resolve v = .inst s ↔ v = .inst s := by
  constructor
  · exact hr.resolve_eq_slot hplain hs
  · rintro rfl
    rcases hr.resolve_cases (.inst s) with ⟨heq, -⟩ | ⟨o, ho, hload, -⟩
    · exact heq
    · cases ho
      obtain ⟨-, t, halloca⟩ := hs
      cases halloca.symm.trans hload

/-- What uses another slot stays. -/
theorem not_concerns_of_uses_slot {s h : Handle .inst} (hs : p.IsSlot f s) (hne : s ≠ slot)
    (huses : p.uses (.inst s) h) : ¬ p.concerns slot h := by
  obtain ⟨k, hk, hmem⟩ := uses_iff.1 huses
  intro hc
  rcases Bool.or_eq_true_iff.1 hc with heq | hslot
  · rw [of_decide_eq_true heq, hr.alloca] at hk
    cases hk
    cases hmem
  · obtain ⟨k', hk', hmem'⟩ := uses_iff.1 hslot
    cases hk.symm.trans hk'
    rcases use_of_promotable hr.consistent hr.promotable hk hmem' with
      rfl | ⟨v, -, rfl⟩ | ⟨callee, rfl, -⟩
    · simp [InstKind.operands, hne] at hmem
    · have hv : Value.inst s = v := by simpa [InstKind.operands, hne] using hmem
      subst hv
      exact hplain h slot s hk hr.isSlot hs
    · simp [InstKind.operands, hne] at hmem

/-- No address of a slot is put in the place of anything. -/
theorem not_isSlot_of_known {s : Handle .inst} (hknown : p.Known f slot type (p.body f) (.inst s)) :
    ¬ p.IsSlot f s := by
  rcases hknown.source with hconstant | ⟨x, -, hk⟩
  · cases hconstant
  · exact hplain x slot s hk hr.isSlot

end Ready

namespace Promoted

variable (hq : p.Promoted q f slot type annotations calls)

include hq

/-- Around an instruction that stays, the body is rewritten before and after it. -/
theorem body_split {o : Handle .inst} {pre post : List (Handle .inst)} (hbody : p.body f = pre ++ o :: post)
    (hc : ¬ p.concerns slot o) :
    q.body f = (pre.flatMap fun x => if p.concerns slot x then calls x else [x]) ++
      o :: post.flatMap fun x => if p.concerns slot x then calls x else [x] := by
  rw [hq.spliced.body, hbody, List.flatMap_append, List.flatMap_cons, if_neg hc]
  rfl

variable (hr : p.Ready f slot type annotations) (hplain : p.Plain f)

include hr hplain

/-- What is stored to another slot is what was stored before, with the loads seen through. -/
theorem storedValues_eq {s : Handle .inst} (hs : p.IsSlot f s) (hne : s ≠ slot)
    {pre : List (Handle .inst)} (hpre : ∀ x ∈ pre, x ∈ p.body f) :
    q.storedValues (.inst s) (pre.flatMap fun x => if p.concerns slot x then calls x else [x]) =
      (p.storedValues (.inst s) pre).map (p.traceOf slot type (p.body f)).resolve := by
  induction pre with
  | nil => rfl
  | cons x pre ih =>
    have hone : q.storedValues (.inst s) (if p.concerns slot x then calls x else [x]) =
        (p.storedValues (.inst s) [x]).map (p.traceOf slot type (p.body f)).resolve := by
      split
      · next hc =>
        -- Whatever concerns the promoted slot stores nothing to another one, and neither do the calls.
        have hnew : q.storedValues (.inst s) (calls x) = [] := by
          rw [storedValues, List.filterMap_eq_nil_iff]
          intro c hcall
          obtain ⟨v, a, -, -, -, t, -, hinst⟩ := hq.exists_call hcall
          simp [instKind?, hinst, annotating, storedThrough?]
        have hold : (p.instKind? x).bind (storedThrough? (.inst s)) = none := by
          rw [Option.eq_none_iff_forall_ne_some]
          intro v hv
          obtain ⟨k, hk, hstored⟩ := Option.bind_eq_some_iff.1 hv
          rw [storedThrough?_eq_some.1 hstored] at hk
          have huses : p.uses (.inst s) x := uses_address_of_store hk
          exact hr.not_concerns_of_uses_slot hplain hs hne huses hc
        rw [hnew, storedValues_singleton, hold]
        rfl
      · next hc =>
        obtain ⟨i, hi, -⟩ := inst?_of_mem_body hr.consistent (hpre x List.mem_cons_self)
        have hk : p.instKind? x = some i.kind := by simp [instKind?, hi]
        rw [storedValues_singleton, storedValues_singleton, hq.instKind?_of_not_concerns hk hc, hk,
          Option.bind_some, Option.bind_some,
          storedThrough?_mapOperands (hr.resolve_eq_slot_iff hplain hs), Option.toList_map]
    have hrest := ih fun y hy => hpre y (List.mem_cons_of_mem _ hy)
    rw [List.flatMap_cons, storedValues_append, hone, hrest, ← List.map_append, ← storedValues_append]
    rfl

variable (hcq : q.Consistent)

include hcq

/-- A user of another slot does with it what it did before. -/
theorem kind_of_uses_slot {s h : Handle .inst} (hs : p.IsSlot f s) {k : InstKind}
    (hk : q.instKind? h = some k) (hmem : .inst s ∈ k.operands) :
    ¬ p.concerns slot h ∧ ∃ k', p.instKind? h = some k' ∧
      k = k'.mapOperands (p.traceOf slot type (p.body f)).resolve := by
  rcases hq.kind_cases hr hcq hk with hold | ⟨x, v, a, hv, -, -, -, -, rfl⟩
  · exact hold
  · have hv' : Value.inst s = v := by simpa [InstKind.operands] using hmem
    subst hv'
    exact absurd hs (hr.not_isSlot_of_known hplain (hr.knownAll.stores (x, _) hv))

/-- Which other slots can be promoted does not change. -/
theorem canPromote_iff {s : Handle .inst} : q.CanPromote f s ↔ p.CanPromote f s ∧ s ≠ slot := by
  simp only [CanPromote, hq.isSlot_iff hr]
  rw [and_assoc, and_assoc, and_comm (a := (p.promotable? (.inst s)).isSome = true)]
  refine and_congr_right fun hs => and_congr_right fun hne => ?_
  have hbody : q.body f ≠ [] := List.ne_nil_of_mem ((hq.isSlot_iff hr).2 ⟨hs, hne⟩).1
  have hsettled := hr.resolve_eq_slot_iff hplain hs
  have huse : ∀ k : InstKind, q.slotUse (.inst s) (k.mapOperands (p.traceOf slot type (p.body f)).resolve) =
      p.slotUse (.inst s) k := fun k => slotUse_mapOperands hsettled (hq.isAnnotator_eq hr hbody)
  rw [promotable?_isSome_iff hcq, promotable?_isSome_iff hr.consistent]
  constructor
  · intro H h k hk hmem
    have hc := hr.not_concerns_of_uses_slot hplain hs hne (uses_iff.2 ⟨k, hk, hmem⟩)
    rw [← huse]
    refine H h _ (hq.instKind?_of_not_concerns hk hc) ?_
    rw [InstKind.operands_mapOperands (resolve_function _)]
    exact List.mem_map.2 ⟨_, hmem, (hsettled _).2 rfl⟩
  · intro H h k hk hmem
    obtain ⟨-, k', hk', rfl⟩ := hq.kind_of_uses_slot hr hplain hcq hs hk hmem
    rw [InstKind.operands_mapOperands (resolve_function _)] at hmem
    obtain ⟨v, hv, heq⟩ := List.mem_map.1 hmem
    rw [huse]
    exact H h k' hk' ((hsettled v).1 heq ▸ hv)

/-- A load of another slot loads from it before and after. -/
theorem load_iff {s o : Handle .inst} (hs : p.IsSlot f s) (hne : s ≠ slot) :
    q.instKind? o = some (.load (.inst s)) ↔ p.instKind? o = some (.load (.inst s)) := by
  constructor
  · intro hk
    obtain ⟨-, k, hk', hmap⟩ := hq.kind_of_uses_slot hr hplain hcq hs hk (by simp [InstKind.operands])
    cases k with
    | load ptr =>
      have hptr := InstKind.load.inj hmap
      rwa [(hr.resolve_eq_slot_iff hplain hs ptr).1 hptr.symm] at hk'
    | _ => cases hmap
  · intro hk
    have hc := hr.not_concerns_of_uses_slot hplain hs hne (uses_of_load hk)
    rw [hq.instKind?_of_not_concerns hk hc, InstKind.mapOperands,
      (hr.resolve_eq_slot_iff hplain hs _).2 rfl]

/-- What is stored to another slot is stored to it before and after. -/
theorem store_iff {s x : Handle .inst} {u : Value} (hs : p.IsSlot f s) (hne : s ≠ slot) :
    q.instKind? x = some (.store (.inst s) u) ↔
      ∃ v, p.instKind? x = some (.store (.inst s) v) ∧ (p.traceOf slot type (p.body f)).resolve v = u := by
  have hsettled := hr.resolve_eq_slot_iff hplain hs
  constructor
  · intro hk
    obtain ⟨-, k, hk', hmap⟩ := hq.kind_of_uses_slot hr hplain hcq hs hk (by simp [InstKind.operands])
    cases k with
    | store ptr v =>
      obtain ⟨hptr, rfl⟩ := InstKind.store.inj hmap
      rw [(hsettled ptr).1 hptr.symm] at hk'
      exact ⟨v, hk', rfl⟩
    | _ => cases hmap
  · rintro ⟨v, hk, rfl⟩
    have hc := hr.not_concerns_of_uses_slot hplain hs hne (uses_address_of_store hk)
    rw [hq.instKind?_of_not_concerns hk hc, InstKind.mapOperands, (hsettled _).2 rfl]

/-- Another slot is used by the same instructions before and after. -/
theorem uses_slot_iff {s h : Handle .inst} (hs : p.IsSlot f s) (hne : s ≠ slot) :
    q.uses (.inst s) h ↔ p.uses (.inst s) h := by
  have hsettled := hr.resolve_eq_slot_iff hplain hs
  constructor
  · intro huses
    obtain ⟨k, hk, hmem⟩ := uses_iff.1 huses
    obtain ⟨-, k', hk', rfl⟩ := hq.kind_of_uses_slot hr hplain hcq hs hk hmem
    rw [InstKind.operands_mapOperands (resolve_function _)] at hmem
    obtain ⟨v, hv, heq⟩ := List.mem_map.1 hmem
    exact uses_iff.2 ⟨k', hk', (hsettled v).1 heq ▸ hv⟩
  · intro huses
    have hc := hr.not_concerns_of_uses_slot hplain hs hne huses
    obtain ⟨k, hk, hmem⟩ := uses_iff.1 huses
    refine uses_iff.2 ⟨_, hq.instKind?_of_not_concerns hk hc, ?_⟩
    rw [InstKind.operands_mapOperands (resolve_function _)]
    exact List.mem_map.2 ⟨_, hmem, (hsettled _).2 rfl⟩

/-- What computes a value computes what the value has become. -/
theorem resolvesTo_resolve {v : Value} {h : Handle .inst} (hv : p.ResolvesTo f (p.CanPromote f) v h) :
    q.ResolvesTo f (q.CanPromote f) ((p.traceOf slot type (p.body f)).resolve v) h := by
  induction hv with
  | here hno =>
    rw [hr.resolve_of_not_load (hno slot hr.canPromote)]
    refine .here fun s hs hk => ?_
    obtain ⟨hs, hne⟩ := (hq.canPromote_iff hr hplain hcq).1 hs
    exact hno s hs ((hq.load_iff hr hplain hcq hs.1 hne).1 hk)
  | @stored o s h v pre post hs hk hbody hlast hv ih =>
    by_cases hne : s = slot
    · subst hne
      rw [hr.resolve_load hbody hk, hlast]
      exact ih
    · have hother : p.instKind? o ≠ some (.load (.inst slot)) := by
        rw [hk]
        simpa using hne
      have hc := hr.not_concerns_of_uses_slot hplain hs.1 hne (uses_of_load hk)
      have hpre : ∀ x ∈ pre, x ∈ p.body f := by
        intro x hx
        simp [hbody, hx]
      have hlast' := congrArg List.getLast? (hq.storedValues_eq hr hplain hs.1 hne hpre)
      rw [List.getLast?_map, hlast] at hlast'
      rw [hr.resolve_of_not_load hother]
      exact .stored ((hq.canPromote_iff hr hplain hcq).2 ⟨hs, hne⟩)
        ((hq.load_iff hr hplain hcq hs.1 hne).2 hk) (hq.body_split hbody hc) hlast' ih

/-- No other instruction computes what the value has become. -/
theorem resolvesTo_back {u : Value} {h : Handle .inst} (hv : q.ResolvesTo f (q.CanPromote f) u h)
    (hu : ∀ o, u = .inst o → p.instKind? o ≠ some (.load (.inst slot))) :
    p.ResolvesTo f (p.CanPromote f) u h := by
  induction hv with
  | @here o hno =>
    refine .here fun s hs hk => ?_
    by_cases hne : s = slot
    · exact hu o rfl (hne ▸ hk)
    · exact hno s ((hq.canPromote_iff hr hplain hcq).2 ⟨hs, hne⟩) ((hq.load_iff hr hplain hcq hs.1 hne).2 hk)
  | @stored o s h v pre' post' hs hk hbody' hlast hv ih =>
    obtain ⟨hs, hne⟩ := (hq.canPromote_iff hr hplain hcq).1 hs
    -- The load is an old instruction, since all new ones are calls.
    have ho : o ∈ p.body f := by
      rcases hq.mem_body.1 (show o ∈ q.body f by simp [hbody']) with ⟨ho, -⟩ | ⟨x, -, -, hcall⟩
      · exact ho
      · obtain ⟨w, a, -, -, -, t, -, hinst⟩ := hq.exists_call hcall
        simp [instKind?, hinst, annotating] at hk
    have hk := (hq.load_iff hr hplain hcq hs.1 hne).1 hk
    have hc := hr.not_concerns_of_uses_slot hplain hs.1 hne (uses_of_load hk)
    obtain ⟨pre, post, hbody⟩ := List.append_of_mem ho
    obtain ⟨rfl, -⟩ := split_unique hcq hbody' (hq.body_split hbody hc)
    have hpre : ∀ x ∈ pre, x ∈ p.body f := by
      intro x hx
      simp [hbody, hx]
    rw [hq.storedValues_eq hr hplain hs.1 hne hpre, List.getLast?_map] at hlast
    obtain ⟨w, hw, rfl⟩ := Option.map_eq_some_iff.1 hlast
    refine .stored hs hk hbody hw (hr.resolvesTo_of_resolve (ih ?_))
    exact fun o ho => hr.not_load_of_resolve ho

/-- An instruction computes a value if and only if it computes what the value has become. -/
theorem resolvesTo_iff {v : Value} {h : Handle .inst} :
    q.ResolvesTo f (q.CanPromote f) ((p.traceOf slot type (p.body f)).resolve v) h ↔
      p.ResolvesTo f (p.CanPromote f) v h := by
  constructor
  · intro hv
    exact hr.resolvesTo_of_resolve
      (hq.resolvesTo_back hr hplain hcq hv fun o ho => hr.not_load_of_resolve ho)
  · exact hq.resolvesTo_resolve hr hplain hcq

end Promoted

end Slot

end Program

end ShaderModule

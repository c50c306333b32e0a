import ShaderModule.Proofs.Program.Promotion

/-!
# Well-formed functions

The body of a function is well formed if all its operands are there, its instructions use results
of earlier ones, and nobody else uses its slots. Promoting a slot keeps a body well formed, provided
that other functions stay away from what a promotion may erase.
-/

namespace ShaderModule

namespace InstKind

/-- Replacing operands by a map that leaves functions alone maps the operands. -/
theorem operands_mapOperands {f : Value → Value} (hf : ∀ g, f (.function g) = .function g) (k : InstKind) :
    (k.mapOperands f).operands = k.operands.map f := by
  cases k with
  | ret value => cases value <;> rfl
  | call callee args => simp [mapOperands, operands, hf]
  | _ => rfl

end InstKind

namespace Program

variable {p q : Program}

/-- Whether what a value refers to is there. -/
def isLive (p : Program) : Value → Bool
  | .inst h => p.hasInst h
  | .global h => p.hasGlobal h
  | .function h => p.hasFunction h
  | .argument h index =>
    (p.function? h).any fun g =>
      ((p.type? g.type).bind Ty.signature?).any fun s => decide (index.toNat < s.2.length)
  | .constant h => (p.constant? h).isSome

/-- A value stays live. -/
theorem isLive_extend {v : Value} (hv : p.isLive v) (hext : p.Extends q) (hglobals : q.globals = p.globals)
    (hinst : ∀ o, v = .inst o → p.hasInst o → q.hasInst o)
    (hfunction : ∀ g x, p.function? g = some x → ∃ y, q.function? g = some y ∧ y.type = x.type) :
    q.isLive v := by
  cases v with
  | inst o => exact hinst o rfl hv
  | global g =>
    simp only [isLive, hasGlobal, global?, hglobals] at hv ⊢
    exact hv
  | function g =>
    obtain ⟨x, hx⟩ := Option.isSome_iff_exists.1 hv
    obtain ⟨y, hy, -⟩ := hfunction g x hx
    exact Option.isSome_of_eq_some hy
  | argument g index =>
    simp only [isLive, Option.any_eq_true, Option.bind_eq_some_iff] at hv ⊢
    obtain ⟨x, hx, s, ⟨ty, hty, hs⟩, hlt⟩ := hv
    obtain ⟨y, hy, htype⟩ := hfunction g x hx
    exact ⟨y, hy, s, ⟨ty, htype ▸ hext.type? hty, hs⟩, hlt⟩
  | constant c =>
    obtain ⟨k, hk⟩ := Option.isSome_iff_exists.1 hv
    exact Option.isSome_of_eq_some (hext.constant? hk)

/-- A value of a type. -/
def HasType (p : Program) (v : Value) (t : Handle .type) : Prop := ∃ q, valueType v p = .ok t q

/-- What is live are the values that have a type. -/
theorem isLive_iff {v : Value} : p.isLive v ↔ ∃ t, p.HasType v t := by
  simp only [HasType, valueType_eq_ok_iff]
  constructor
  · intro hv
    cases v with
    | inst h =>
      obtain ⟨i, hi⟩ := Option.isSome_iff_exists.1 hv
      exact ⟨_, _, .inst hi⟩
    | global h =>
      obtain ⟨g, hg⟩ := Option.isSome_iff_exists.1 hv
      exact ⟨_, _, .global hg⟩
    | function h =>
      obtain ⟨f, hf⟩ := Option.isSome_iff_exists.1 hv
      exact ⟨_, _, .function hf⟩
    | argument h index =>
      simp only [isLive, Option.any_eq_true, decide_eq_true_eq] at hv
      obtain ⟨f, hf, s, hsig, hlt⟩ := hv
      exact ⟨_, _, .argument hf hsig (List.getElem?_eq_getElem hlt)⟩
    | constant h =>
      obtain ⟨c, hc⟩ := Option.isSome_iff_exists.1 hv
      cases c with
      | bytes data => exact ⟨_, _, .bytes hc⟩
      | int | float | undef | zero => exact ⟨_, _, .constant hc rfl⟩
  · rintro ⟨t, q, htype⟩
    cases htype with
    | inst hi => exact Option.isSome_of_eq_some hi
    | global hg => exact Option.isSome_of_eq_some hg
    | function hf => exact Option.isSome_of_eq_some hf
    | argument hf hsig ht =>
      have hlt := (List.getElem?_eq_some_iff.1 ht).1
      simp [isLive, hf, hsig, hlt]
    | constant hc => exact Option.isSome_of_eq_some hc
    | bytes hc => exact Option.isSome_of_eq_some hc

/-- The slots of a function. -/
def IsSlot (p : Program) (f : Handle .function) (h : Handle .inst) : Prop :=
  h ∈ p.body f ∧ ∃ type, p.instKind? h = some (.alloca type)

/-- A body whose operands are live; those that are instructions have a result, come earlier in the body,
and, if they are slots, are used nowhere else. -/
structure WellFormed (p : Program) (f : Handle .function) : Prop where
  live    : ∀ h ∈ p.body f, ∀ v, p.uses v h → p.isLive v
  results : ∀ h ∈ p.body f, ∀ o, p.uses (.inst o) h → p.HasResult o
  earlier : p.UsesEarlier [] (p.body f)
  own     : ∀ slot, p.IsSlot f slot → ∀ h, p.uses (.inst slot) h → h ∈ p.body f

/-- Slots of the function do not hold addresses of its slots. -/
def Plain (p : Program) (f : Handle .function) : Prop :=
  ∀ x slot o, p.instKind? x = some (.store (.inst slot) (.inst o)) → p.IsSlot f slot → ¬ p.IsSlot f o

/-- Other functions use live instructions, and of this function none that has no result; nor one that
is a load, unless no slot of the function holds the address of another. -/
def Apart (p : Program) (f : Handle .function) : Prop :=
  ∀ h, h ∉ p.body f → ∀ o, p.uses (.inst o) h → p.hasInst o ∧
    (o ∈ p.body f → p.HasResult o ∧ ((∀ ptr, p.instKind? o ≠ some (.load ptr)) ∨ p.Plain f))

theorem mem_slots {f : Handle .function} {h : Handle .inst} {type : Handle .type} :
    (h, type) ∈ p.slots f ↔ h ∈ p.body f ∧ p.instKind? h = some (.alloca type) := by
  simp only [slots, List.mem_filterMap]
  constructor
  · rintro ⟨x, hx, heq⟩
    split at heq
    · next hk =>
      cases heq
      exact ⟨hx, hk⟩
    · cases heq
  · rintro ⟨hh, hk⟩
    exact ⟨h, hh, by simp [hk]⟩

/-! ## Checking bodies -/

section Check

variable {f : Handle .function} {h : Handle .inst}

theorem forall_uses_iff {P : Value → Prop} :
    (∀ v, p.uses v h → P v) ↔ ∀ k ∈ p.instKind? h, ∀ v ∈ k.operands, P v := by
  simp only [uses_iff, Option.mem_def]
  exact ⟨fun H k hk v hv => H v ⟨k, hk, hv⟩, fun H v ⟨k, hk, hv⟩ => H k hk v hv⟩

theorem forall_usesInst_iff {P : Handle .inst → Prop} :
    (∀ o, p.uses (.inst o) h → P o) ↔ ∀ k ∈ p.instKind? h, ∀ v ∈ k.operands, ∀ o ∈ v.inst?, P o := by
  rw [← forall_uses_iff (P := fun v => ∀ o ∈ v.inst?, P o)]
  constructor
  · rintro H (o | _ | _ | _ | _) huses x hx
    · cases hx
      exact H o huses
    all_goals cases hx
  · exact fun H o huses => H _ huses o rfl

/-- What is not there uses nothing. -/
theorem mem_live_of_uses {v : Value} (huses : p.uses v h) : h ∈ p.insts.live := by
  obtain ⟨k, hk, -⟩ := uses_iff.1 huses
  exact Slots.mem_live.2 (hasInst_of_instKind? hk)

instance {P : Value → Prop} [DecidablePred P] : Decidable (∀ v, p.uses v h → P v) :=
  decidable_of_iff _ forall_uses_iff.symm

instance {P : Handle .inst → Prop} [DecidablePred P] : Decidable (∀ o, p.uses (.inst o) h → P o) :=
  decidable_of_iff _ forall_usesInst_iff.symm

instance : DecidablePred p.HasResult := fun h =>
  decidable_of_iff (∀ i ∈ p.inst? h, p.type? i.type ≠ some .void) Iff.rfl

instance {v : Value} {t : Handle .type} : Decidable (p.HasType v t) :=
  decidable_of_iff (∃ t' q, valueType v p = .ok t' q ∧ t' = t) <| by
    constructor
    · rintro ⟨_, q, hrun, rfl⟩
      exact ⟨q, hrun⟩
    · rintro ⟨q, hrun⟩
      exact ⟨t, q, hrun, rfl⟩

instance : DecidablePred (p.IsSlot f) := fun h =>
  decidable_of_iff (h ∈ (p.slots f).map Prod.fst) <| by
    simp only [List.mem_map, Prod.exists, exists_and_right, exists_eq_right, mem_slots, IsSlot,
      exists_and_left]

instance decidableUsesEarlier : ∀ seen hs, Decidable (p.UsesEarlier seen hs)
  | _, [] => .isTrue trivial
  | seen, h :: hs =>
    have := decidableUsesEarlier (seen ++ [h]) hs
    inferInstanceAs (Decidable ((∀ o, p.uses (.inst o) h → o ∈ seen) ∧ p.UsesEarlier (seen ++ [h]) hs))

instance : Decidable (p.WellFormed f) :=
  decidable_of_iff ((∀ h ∈ p.body f, ∀ v, p.uses v h → p.isLive v) ∧
      (∀ h ∈ p.body f, ∀ o, p.uses (.inst o) h → p.HasResult o) ∧ p.UsesEarlier [] (p.body f) ∧
      ∀ h ∈ p.insts.live, ∀ o, p.uses (.inst o) h → p.IsSlot f o → h ∈ p.body f) <| by
    constructor
    · rintro ⟨hlive, hresults, hearlier, hown⟩
      exact ⟨hlive, hresults, hearlier,
        fun slot hslot h huses => hown h (mem_live_of_uses huses) slot huses hslot⟩
    · rintro ⟨hlive, hresults, hearlier, hown⟩
      exact ⟨hlive, hresults, hearlier, fun h _ o huses hslot => hown o hslot h huses⟩

/-- The instructions that give the pointer and the value of a store. -/
def storeOfInsts? : InstKind → Option (Handle .inst × Handle .inst)
  | .store (.inst ptr) (.inst value) => some (ptr, value)
  | _ => none

theorem storeOfInsts?_eq_some {k : InstKind} {ptr value : Handle .inst} :
    storeOfInsts? k = some (ptr, value) ↔ k = .store (.inst ptr) (.inst value) := by
  unfold storeOfInsts?
  split <;> simp_all

instance : Decidable (p.Plain f) :=
  decidable_of_iff (∀ x ∈ p.insts.live, ∀ s ∈ (p.instKind? x).bind storeOfInsts?,
      p.IsSlot f s.1 → ¬ p.IsSlot f s.2) <| by
    simp only [Option.mem_def, Option.bind_eq_some_iff, Prod.forall, storeOfInsts?_eq_some]
    constructor
    · intro H x slot o hk
      exact H x (Slots.mem_live.2 (hasInst_of_instKind? hk)) slot o ⟨_, hk, rfl⟩
    · rintro H x - slot o ⟨k, hk, rfl⟩
      exact H x slot o hk

instance : Decidable (p.Apart f) :=
  decidable_of_iff (∀ h ∈ p.insts.live, h ∈ p.body f ∨ ∀ o, p.uses (.inst o) h → p.hasInst o ∧
      (o ∈ p.body f → p.HasResult o ∧
        ((∀ k ∈ p.instKind? o, ∀ ptr ∈ k.operands, k ≠ .load ptr) ∨ p.Plain f))) <| by
    have hload : ∀ o, (∀ k ∈ p.instKind? o, ∀ ptr ∈ k.operands, k ≠ .load ptr) ↔
        ∀ ptr, p.instKind? o ≠ some (.load ptr) := by
      intro o
      constructor
      · intro H ptr hk
        exact H _ hk ptr (by simp [InstKind.operands]) rfl
      · rintro H k hk ptr - rfl
        exact H ptr hk
    simp only [hload]
    constructor
    · intro H h hh o huses
      exact (H h (mem_live_of_uses huses)).resolve_left hh o huses
    · exact fun H h _ => or_iff_not_imp_left.2 (H h)

end Check

/-! ## Values of a trace -/

section Trace

variable {slot : Value} {t : SlotTrace}

/-- Instructions that have nothing to do with the slot leave its trace alone. -/
theorem continueTrace_of_unused {hs : List (Handle .inst)} (h : ∀ x ∈ hs, ¬ p.uses slot x) :
    p.continueTrace slot t hs = t := by
  induction hs generalizing t with
  | nil => rfl
  | cons x hs ih =>
    have hx := h x List.mem_cons_self
    have hstep : t.step slot x (p.instKind? x) = t := by
      rw [uses_iff] at hx
      cases hk : p.instKind? x with
      | none => rfl
      | some k =>
        have hk' : slot ∉ k.operands := fun hslot => hx ⟨k, hk, hslot⟩
        cases k with
        | load ptr =>
          have hne : ptr ≠ slot := by simpa [InstKind.operands, eq_comm] using hk'
          simp [SlotTrace.step, hne]
        | store ptr v =>
          have hne : ptr ≠ slot := by
            rintro rfl
            simp [InstKind.operands] at hk'
          simp [SlotTrace.step, hne]
        | alloca _ | binary _ _ _ | call _ _ | ret _ => rfl
    show p.continueTrace slot (t.step slot x (p.instKind? x)) hs = t
    rw [hstep]
    exact ih fun y hy => h y (List.mem_cons_of_mem _ hy)

/-- A trace only grows. -/
theorem continueTrace_isPrefix (hs : List (Handle .inst)) :
    t.loads <+: (p.continueTrace slot t hs).loads ∧ t.stores <+: (p.continueTrace slot t hs).stores := by
  induction hs generalizing t with
  | nil => exact ⟨List.prefix_refl _, List.prefix_refl _⟩
  | cons x hs ih =>
    have hstep : t.loads <+: (t.step slot x (p.instKind? x)).loads ∧
        t.stores <+: (t.step slot x (p.instKind? x)).stores := by
      cases p.instKind? x with
      | none => exact ⟨List.prefix_refl _, List.prefix_refl _⟩
      | some k =>
        cases k with
        | load ptr =>
          simp only [SlotTrace.step]
          split
          · exact ⟨List.prefix_append _ _, List.prefix_refl _⟩
          · exact ⟨List.prefix_refl _, List.prefix_refl _⟩
        | store ptr v =>
          simp only [SlotTrace.step]
          split
          · exact ⟨List.prefix_refl _, List.prefix_append _ _⟩
          · exact ⟨List.prefix_refl _, List.prefix_refl _⟩
        | alloca _ | binary _ _ _ | call _ _ | ret _ => exact ⟨List.prefix_refl _, List.prefix_refl _⟩
    obtain ⟨hloads, hstores⟩ := ih (t := t.step slot x (p.instKind? x))
    exact ⟨hstep.1.trans hloads, hstep.2.trans hstores⟩

end Trace

theorem forward_append_of_mem {ls ms : List (Handle .inst × Value)} {v : Value}
    (h : ∀ m ∈ ms, v = .inst m.1 → m.1 ∈ ls.map Prod.fst) : forward (ls ++ ms) v = forward ls v := by
  unfold forward
  rw [List.find?_append]
  cases hfind : ls.find? (fun l => decide (Value.inst l.1 = v)) with
  | some l => rfl
  | none =>
    have hnone : ms.find? (fun l => decide (Value.inst l.1 = v)) = none := by
      rw [List.find?_eq_none]
      intro m hm hv
      have hv : Value.inst m.1 = v := by simpa using hv
      obtain ⟨l, hl, hlm⟩ := List.mem_map.1 (h m hm hv.symm)
      have := List.find?_eq_none.1 hfind l hl
      simp [hlm, hv] at this
    rw [hnone]
    rfl

theorem traceOf_concat {slot : Handle .inst} {type : Handle .type} {pre : List (Handle .inst)}
    (x : Handle .inst) : p.traceOf slot type (pre ++ [x]) =
      (p.traceOf slot type pre).step (.inst slot) x (p.instKind? x) :=
  continueTrace_append pre [x]

/-- What a store to the slot stores is seen through by the trace before it. -/
theorem mem_stores_of_store {f : Handle .function} {slot : Handle .inst} {type : Handle .type}
    {pre post : List (Handle .inst)} {h : Handle .inst} {v : Value} (hbody : p.body f = pre ++ h :: post)
    (hk : p.instKind? h = some (.store (.inst slot) v)) :
    (h, (p.traceOf slot type pre).resolve v) ∈ (p.traceOf slot type (p.body f)).stores := by
  rw [hbody, traceOf, continueTrace_append]
  have hstep : (h, (p.traceOf slot type pre).resolve v) ∈
      ((p.traceOf slot type pre).step (.inst slot) h (p.instKind? h)).stores := by
    simp [hk, SlotTrace.step]
  exact (continueTrace_isPrefix post).2.subset hstep

namespace Ready

variable {f : Handle .function} {slot : Handle .inst} {type : Handle .type}
  {annotations : List (Handle .inst × Handle .function)} (hr : p.Ready f slot type annotations)
  {pre post : List (Handle .inst)}

include hr

theorem mem_body_of_concerns {x : Handle .inst} (hx : p.concerns slot x) : x ∈ p.body f := by
  rcases Bool.or_eq_true_iff.1 hx with hx | hx
  · rw [of_decide_eq_true hx]
    exact hr.listed
  · exact hr.own x hx

/-- What is computed in the first part of a body is seen through by the trace of that part. -/
theorem resolve_prefix (hbody : p.body f = pre ++ post) {v : Value} (hv : ∀ o, v = .inst o → o ∈ pre) :
    (p.traceOf slot type (p.body f)).resolve v = (p.traceOf slot type pre).resolve v := by
  rw [SlotTrace.resolve_eq, SlotTrace.resolve_eq, hbody, traceOf, continueTrace_append]
  obtain ⟨⟨rest, hrest⟩, -⟩ := continueTrace_isPrefix (t := p.traceOf slot type pre) post
  rw [traceOf] at hrest ⊢
  rw [← hrest]
  refine forward_append_of_mem ?_
  intro m hm hvm
  have hload : m.1 ∈ (p.traceOf slot type (p.body f)).loads.map Prod.fst := by
    rw [hbody, traceOf, continueTrace_append, ← hrest]
    exact List.mem_map_of_mem (List.mem_append_right _ hm)
  have hpre : m.1 ∈ (p.traceOf slot type pre).loads.map Prod.fst := by
    rw [loads_traceOf, List.mem_filter, decide_eq_true_eq]
    exact ⟨hv m.1 hvm, hr.mem_loads.1 hload⟩
  exact hpre

/-- The trace lists what is stored to the slot, with the loads seen through. -/
theorem mem_stores_iff {x : Handle .inst} {v : Value} :
    (x, v) ∈ (p.traceOf slot type (p.body f)).stores ↔
      ∃ w, p.instKind? x = some (.store (.inst slot) w) ∧ (p.traceOf slot type (p.body f)).resolve w = v := by
  have key : ∀ w, p.instKind? x = some (.store (.inst slot) w) →
      (x, (p.traceOf slot type (p.body f)).resolve w) ∈ (p.traceOf slot type (p.body f)).stores := by
    intro w hk
    obtain ⟨pre, post, hbody⟩ :=
      List.append_of_mem (hr.own x (uses_address_of_store hk))
    rw [hr.resolve_prefix hbody]
    · exact mem_stores_of_store hbody hk
    · rintro o rfl
      exact hr.mem_pre hbody (uses_value_of_store hk)
  constructor
  · intro hv
    obtain ⟨w, hk⟩ := hr.mem_stores.1 (List.mem_map_of_mem hv)
    have hsame := List.inj_on_of_nodup_map hr.nodup_stores hv (key w hk) rfl
    exact ⟨w, hk, (congrArg Prod.snd hsame).symm⟩
  · rintro ⟨w, hk, rfl⟩
    exact key w hk

/-- Loads of the slot become something that is known, and nothing else changes. -/
theorem resolve_cases (v : Value) :
    (p.traceOf slot type (p.body f)).resolve v = v ∧
        (∀ o, v = .inst o → p.instKind? o ≠ some (.load (.inst slot))) ∨
      ∃ o, v = .inst o ∧ p.instKind? o = some (.load (.inst slot)) ∧
        p.Known f slot type (p.body f) ((p.traceOf slot type (p.body f)).resolve v) := by
  rw [SlotTrace.resolve_eq]
  rcases forward_cases (p.traceOf slot type (p.body f)).loads v with ⟨l, hl, rfl, heq⟩ | ⟨hnone, heq⟩
  · refine .inr ⟨l.1, rfl, hr.mem_loads.1 (List.mem_map_of_mem hl), ?_⟩
    rw [heq]
    exact hr.knownAll.loads l hl
  · refine .inl ⟨heq, ?_⟩
    rintro o rfl hload
    obtain ⟨l, hl, hlo⟩ := List.mem_map.1 (hr.mem_loads.2 hload)
    exact hnone l hl (congrArg Value.inst hlo)

/-- Nothing else becomes a value that is no constant and that is not stored into the slot. -/
theorem eq_of_resolve {v w : Value} (hw : ∀ c, w ≠ .constant c)
    (hstored : ∀ x, p.instKind? x ≠ some (.store (.inst slot) w))
    (hv : (p.traceOf slot type (p.body f)).resolve v = w) : v = w := by
  rcases hr.resolve_cases v with ⟨heq, -⟩ | ⟨load, -, -, hknown⟩
  · exact heq.symm.trans hv
  · rw [hv] at hknown
    rcases hknown.source with hconstant | ⟨x, -, hk⟩
    · exact absurd hconstant (hw _)
    · exact absurd hk (hstored x)

/-- If slots hold no addresses, the operands that are slots are not replaced, and no others become
slots. -/
theorem resolve_eq_slot (hp : p.Plain f) {v : Value} {o : Handle .inst} (ho : p.IsSlot f o)
    (hv : (p.traceOf slot type (p.body f)).resolve v = .inst o) : v = .inst o :=
  hr.eq_of_resolve (fun _ => nofun) (fun x hk => hp x slot o hk ⟨hr.listed, type, hr.alloca⟩ ho) hv

end Ready

theorem resolve_function (t : SlotTrace) (g : Handle .function) : t.resolve (.function g) = .function g :=
  forward_of_not_mem fun _ _ => nofun

/-! ## The program after a promotion -/

/-- An annotation uses its function and the stored value. -/
theorem Carried.uses {f : Handle .function} {c : Handle .inst} {v : Value} {o : Order}
    (hc : p.Carried q f c o) (huses : q.uses v c) :
    v = .function o.callee ∨ v = o.value := by
  obtain ⟨-, t, -, hinst⟩ := hc
  obtain ⟨k, hk, hv⟩ := uses_iff.1 huses
  obtain ⟨i, hi, rfl⟩ := exists_inst_of_instKind? hk
  cases hinst.symm.trans hi
  simpa [annotating, InstKind.operands] using hv

/-- What an instruction of the promoted program may use: live values, computed before it. -/
structure Usable (p q : Program) (slot : Handle .inst) (pre : List (Handle .inst)) (v : Value) : Prop where
  live : q.isLive v
  inst : ∀ o, v = .inst o → o ∈ pre ∧ ¬ p.concerns slot o ∧ q.HasResult o

namespace Promoted

variable {f : Handle .function} {slot : Handle .inst} {type : Handle .type}
  {annotations : List (Handle .inst × Handle .function)} {calls : Handle .inst → List (Handle .inst)}
  (hq : p.Promoted q f slot type annotations calls)

include hq

/-- What is not concerned stays, and sees through the loads. -/
theorem inst?_of_not_concerns {h : Handle .inst} {i : Inst} (hi : p.inst? h = some i)
    (hc : ¬ p.concerns slot h) :
    q.inst? h = some (i.mapKind (·.mapOperands (p.traceOf slot type (p.body f)).resolve)) := by
  rw [hq.kept h (Slots.lt_next_of_get? hi), if_neg hc, hi]
  rfl

theorem instKind?_of_not_concerns {h : Handle .inst} {k : InstKind} (hk : p.instKind? h = some k)
    (hc : ¬ p.concerns slot h) :
    q.instKind? h = some (k.mapOperands (p.traceOf slot type (p.body f)).resolve) := by
  obtain ⟨i, hi, rfl⟩ := exists_inst_of_instKind? hk
  rw [instKind?, hq.inst?_of_not_concerns hi hc]
  rfl

theorem hasInst_of_not_concerns {h : Handle .inst} (hh : p.hasInst h) (hc : ¬ p.concerns slot h) :
    q.hasInst h := by
  obtain ⟨i, hi⟩ := Option.isSome_iff_exists.1 hh
  rw [hasInst, hq.inst?_of_not_concerns hi hc]
  rfl

/-- An old instruction that is still there was not concerned. -/
theorem exists_old {h : Handle .inst} {i : Inst} (hi : q.inst? h = some i) (hlt : h < p.insts.next) :
    ¬ p.concerns slot h ∧ ∃ j, p.inst? h = some j ∧
      i = j.mapKind (·.mapOperands (p.traceOf slot type (p.body f)).resolve) := by
  rw [hq.kept h hlt] at hi
  split at hi
  · cases hi
  · next hc =>
    obtain ⟨j, hj, rfl⟩ := Option.map_eq_some_iff.1 hi
    exact ⟨hc, j, hj, rfl⟩

theorem mem_body {g : Handle .function} {h : Handle .inst} :
    h ∈ q.body g ↔ (h ∈ p.body g ∧ ¬ p.concerns slot h) ∨
      ∃ x ∈ p.body g, p.concerns slot x ∧ h ∈ calls x := by
  rw [hq.spliced.body, List.mem_flatMap]
  constructor
  · rintro ⟨x, hx, hh⟩
    split at hh
    · next hc => exact .inr ⟨x, hx, hc, hh⟩
    · next hc =>
      rw [List.mem_singleton.1 hh]
      exact .inl ⟨hx, hc⟩
  · rintro (⟨hh, hc⟩ | ⟨x, hx, hc, hh⟩)
    · exact ⟨h, hh, by rw [if_neg hc]; exact List.mem_singleton_self h⟩
    · exact ⟨x, hx, by rwa [if_pos hc]⟩

/-- What a new instruction is. -/
theorem exists_call {x c : Handle .inst} (hc : c ∈ calls x) :
    ∃ v a, (x, v) ∈ (p.traceOf slot type (p.body f)).stores ∧ a ∈ annotations ∧
      p.Carried q f c ⟨x, a.2, v⟩ := by
  by_cases hx : x ∈ (p.traceOf slot type (p.body f)).stores.map Prod.fst
  · obtain ⟨⟨y, v⟩, hy, rfl⟩ := List.mem_map.1 hx
    obtain ⟨a, ha, hcarried⟩ := exists_forall₂ (hq.annotated y v hy).flip hc
    exact ⟨v, a, hy, List.mem_reverse.1 ha, hcarried⟩
  · rw [hq.others x hx] at hc
    cases hc

/-- Values that stay are as live as before. -/
theorem isLive {v : Value} (hv : p.isLive v) (hsettled : ∀ o, v = .inst o → ¬ p.concerns slot o) :
    q.isLive v := by
  refine isLive_extend hv hq.spliced.toExtends hq.spliced.globals ?_ ?_
  · exact fun o ho hlive => hq.hasInst_of_not_concerns hlive (hsettled o ho)
  · exact fun g x hx => ⟨_, (hq.spliced.function g).trans (congrArg _ hx), rfl⟩

theorem hasResult {o : Handle .inst} (ho : p.HasResult o) (hlive : p.hasInst o)
    (hc : ¬ p.concerns slot o) : q.HasResult o := by
  obtain ⟨i, hi⟩ := Option.isSome_iff_exists.1 hlive
  intro j hj
  rw [hq.inst?_of_not_concerns hi hc] at hj
  cases hj
  show q.type? i.type ≠ _
  rw [type?, hq.spliced.types]
  exact ho i hi

theorem usable_of_known (hw : p.WellFormed f) {pre : List (Handle .inst)} {v : Value}
    (hv : p.Known f slot type pre v) : Usable p q slot pre v := by
  rcases hv.source with rfl | ⟨h, hh, hk⟩
  · exact ⟨Option.isSome_of_eq_some hq.undefined, by rintro o ⟨⟩⟩
  · have huses : p.uses v h := uses_value_of_store hk
    refine ⟨hq.isLive (hw.live h hh v huses) hv.settled, ?_⟩
    rintro o rfl
    have hc := hv.settled o rfl
    exact ⟨hv.earlier o rfl, hc,
      hq.hasResult (hw.results h hh o huses) (hw.live h hh _ huses) hc⟩

/-- What an old instruction uses is what it used before, resolved. -/
theorem uses_kept {h : Handle .inst} {v : Value} (hlt : h < p.insts.next) (huses : q.uses v h) :
    ∃ w, p.uses w h ∧ v = (p.traceOf slot type (p.body f)).resolve w := by
  obtain ⟨k, hk, hv⟩ := uses_iff.1 huses
  obtain ⟨i, hi, rfl⟩ := exists_inst_of_instKind? hk
  obtain ⟨-, j, hj, rfl⟩ := hq.exists_old hi hlt
  rw [show (Inst.mapKind _ j).kind = j.kind.mapOperands _ from rfl,
    InstKind.operands_mapOperands (resolve_function _)] at hv
  obtain ⟨w, hw, rfl⟩ := List.mem_map.1 hv
  exact ⟨w, uses_iff.2 ⟨j.kind, by simp [instKind?, hj], hw⟩, rfl⟩

theorem mem_body_kept {h : Handle .inst} (hh : h ∈ p.body f) (hc : ¬ p.concerns slot h) : h ∈ q.body f :=
  hq.mem_body.2 (.inl ⟨hh, hc⟩)

variable (hr : p.Ready f slot type annotations)

include hr

/-- What an instruction of the promoted program does: what it did before, with the loads seen through,
or it is an annotation that has come in the place of a store. -/
theorem kind_cases (hcq : q.Consistent) {h : Handle .inst} {k : InstKind} (hk : q.instKind? h = some k) :
    (¬ p.concerns slot h ∧ ∃ k', p.instKind? h = some k' ∧
        k = k'.mapOperands (p.traceOf slot type (p.body f)).resolve) ∨
      ∃ x v a, (x, v) ∈ (p.traceOf slot type (p.body f)).stores ∧ a ∈ annotations ∧ h ∈ calls x ∧
        h ∈ q.body f ∧ p.insts.next.index ≤ h.index ∧ k = .call a.2 [v] := by
  obtain ⟨i, hi, rfl⟩ := exists_inst_of_instKind? hk
  rcases hq.mem_body.1 (mem_body_of_inst? hcq hi) with ⟨hh, -⟩ | ⟨x, -, hx, hh⟩
  · obtain ⟨j, hj, -⟩ := inst?_of_mem_body hr.consistent hh
    obtain ⟨hc, j, hj, rfl⟩ := hq.exists_old hi (Slots.lt_next_of_get? hj)
    exact .inl ⟨hc, j.kind, by simp [instKind?, hj], rfl⟩
  · obtain ⟨v, a, hv, ha, hle, t, -, hinst⟩ := hq.exists_call hh
    cases hi.symm.trans hinst
    have hmem : h ∈ q.body f := hq.mem_body.2 (.inr ⟨x, hr.mem_body_of_concerns hx, hx, hh⟩)
    exact .inr ⟨x, v, a, hv, ha, hh, hmem, hle, rfl⟩

/-- Every operand but the slot becomes something usable. -/
theorem usable_resolve (hw : p.WellFormed f) {pre post : List (Handle .inst)} {h : Handle .inst} {v : Value}
    (hbody : p.body f = pre ++ h :: post) (huses : p.uses v h) (hne : v ≠ .inst slot) :
    Usable p q slot pre ((p.traceOf slot type pre).resolve v) := by
  have hh : h ∈ p.body f := by simp [hbody]
  have hknown := hr.known hbody
  have hall : TraceAll (p.traceOf slot type pre) (Usable p q slot pre) :=
    ⟨hq.usable_of_known hw hknown.current, fun l hl => hq.usable_of_known hw (hknown.loads l hl),
      fun s hs => hq.usable_of_known hw (hknown.stores s hs)⟩
  refine hall.resolve fun hloads => ?_
  have hsettled : ∀ o, v = .inst o → ¬ p.concerns slot o := by
    rintro o rfl
    refine hr.not_concerns hbody huses (fun heq => hne (congrArg Value.inst heq)) ?_
    intro hload
    have hmem : o ∈ (p.traceOf slot type pre).loads.map Prod.fst := by
      rw [loads_traceOf, List.mem_filter, decide_eq_true_eq]
      exact ⟨hr.mem_pre hbody huses, hload⟩
    obtain ⟨l, hl, hlo⟩ := List.mem_map.1 hmem
    exact hloads l hl (congrArg Value.inst hlo)
  refine ⟨hq.isLive (hw.live h hh v huses) hsettled, ?_⟩
  rintro o rfl
  have hc := hsettled o rfl
  exact ⟨hr.mem_pre hbody huses, hc, hq.hasResult (hw.results h hh o huses) (hw.live h hh _ huses) hc⟩

/-- All that a new body uses is usable. -/
theorem usable (hw : p.WellFormed f) {pre post : List (Handle .inst)} {x h : Handle .inst} {v : Value}
    (hbody : p.body f = pre ++ x :: post)
    (hh : h ∈ if p.concerns slot x then calls x else [x]) (huses : q.uses v h) :
    Usable p q slot pre v := by
  have hx : x ∈ p.body f := by simp [hbody]
  -- A call uses what it calls and the stored value; an instruction that stays uses what it used before, resolved.
  split at hh
  · obtain ⟨w, a, hw', ha, hcarried⟩ := hq.exists_call hh
    obtain ⟨u, hstore⟩ := hr.mem_stores.1 (List.mem_map_of_mem hw')
    have hu : p.uses u x := uses_value_of_store hstore
    rcases hcarried.uses huses with rfl | rfl
    · have hcall := ((mem_annotations hr.consistent hr.promotable).1 ha).1
      have ha' : a.1 ∈ p.body f := hr.own a.1 (uses_argument_of_call hcall)
      exact ⟨hq.isLive (hw.live a.1 ha' _ (uses_callee_of_call hcall)) (by rintro o ⟨⟩), by rintro o ⟨⟩⟩
    · -- A store has one value only.
      have hsame := (List.inj_on_of_nodup_map hr.nodup_stores hw' (mem_stores_of_store hbody hstore) rfl)
      cases hsame
      exact hq.usable_resolve hr hw hbody hu (hr.stored_ne_slot hstore)
  · next hc =>
    rw [List.mem_singleton] at hh
    subst hh
    obtain ⟨j, hj, -⟩ := inst?_of_mem_body hr.consistent hx
    obtain ⟨w, hw', rfl⟩ := hq.uses_kept (Slots.lt_next_of_get? hj) huses
    have hne : w ≠ .inst slot := by
      rintro rfl
      exact hc (by simp [concerns, hw'])
    have hpre : ∀ o, w = .inst o → o ∈ pre := by
      rintro o rfl
      exact hr.mem_pre hbody hw'
    rw [hr.resolve_prefix hbody hpre]
    exact hq.usable_resolve hr hw hbody hw' hne

/-- What was computed before an instruction and stays is computed before what comes of it. -/
theorem usesEarlier (hw : p.WellFormed f) : ∀ (post : List (Handle .inst)) (pre : List (Handle .inst)),
    p.body f = pre ++ post →
      q.UsesEarlier (pre.flatMap fun x => if p.concerns slot x then calls x else [x])
        (post.flatMap fun x => if p.concerns slot x then calls x else [x])
  | [], _, _ => trivial
  | x :: post, pre, hbody => by
    rw [List.flatMap_cons, usesEarlier_append]
    constructor
    · refine usesEarlier_of_forall ?_
      intro h hh o huses
      obtain ⟨ho, hc, -⟩ := (hq.usable hr hw hbody hh huses).inst o rfl
      exact List.mem_flatMap.2 ⟨o, ho, by rw [if_neg hc]; exact List.mem_singleton_self o⟩
    · have := usesEarlier hw post (pre ++ [x]) (by simpa using hbody)
      simpa using this

/-- The slots that remain are the others that were there. -/
theorem alloca_iff {x : Handle .inst} {t : Handle .type} :
    (x ∈ q.body f ∧ q.instKind? x = some (.alloca t)) ↔
      x ∈ p.body f ∧ p.instKind? x = some (.alloca t) ∧ x ≠ slot := by
  constructor
  · rintro ⟨hx, hk⟩
    rcases hq.mem_body.1 hx with ⟨hx, hc⟩ | ⟨y, -, -, hx⟩
    · obtain ⟨i, hi, -⟩ := inst?_of_mem_body hr.consistent hx
      have hkind : p.instKind? x = some i.kind := by simp [instKind?, hi]
      rw [hq.instKind?_of_not_concerns hkind hc] at hk
      refine ⟨hx, ?_, ?_⟩
      · cases hi' : i.kind with
        | alloca t' =>
          rw [hi'] at hk hkind
          exact hkind.trans hk
        | _ =>
          rw [hi'] at hk
          cases hk
      · rintro rfl
        exact hc (by simp [concerns])
    · obtain ⟨v, a, -, -, -, t', -, hinst⟩ := hq.exists_call hx
      simp [instKind?, hinst, annotating] at hk
  · rintro ⟨hx, hk, hne⟩
    have hc : ¬ p.concerns slot x := by
      simp [concerns, hne, uses, hk, InstKind.operands]
    exact ⟨hq.mem_body_kept hx hc, hq.instKind?_of_not_concerns hk hc⟩

theorem isSlot_iff {x : Handle .inst} : q.IsSlot f x ↔ p.IsSlot f x ∧ x ≠ slot := by
  have key := fun t => hq.alloca_iff hr (x := x) (t := t)
  constructor
  · rintro ⟨hx, t, hk⟩
    obtain ⟨hx, hk, hne⟩ := (key t).1 ⟨hx, hk⟩
    exact ⟨⟨hx, t, hk⟩, hne⟩
  · rintro ⟨⟨hx, t, hk⟩, hne⟩
    obtain ⟨hx, hk⟩ := (key t).2 ⟨hx, hk, hne⟩
    exact ⟨hx, t, hk⟩

/-- No promotion makes a slot hold the address of another. -/
theorem plain (hcq : q.Consistent) (hp : p.Plain f) : q.Plain f := by
  intro x slot' o hk hslot' ho
  obtain ⟨hslot', -⟩ := (hq.isSlot_iff hr).1 hslot'
  obtain ⟨ho, -⟩ := (hq.isSlot_iff hr).1 ho
  rcases hq.kind_cases hr hcq hk with ⟨-, k, hk, hmap⟩ | ⟨y, v, a, -, -, -, -, -, hcall⟩
  · cases k with
    | store ptr v =>
      obtain ⟨hptr, hv⟩ := InstKind.store.inj hmap
      rw [hr.resolve_eq_slot hp hslot' hptr.symm, hr.resolve_eq_slot hp ho hv.symm] at hk
      exact hp x slot' o hk hslot' ho
    | _ => cases hmap
  · cases hcall

/-- What other functions use is not resolved, or was stored in a function whose slots hold no addresses. -/
theorem uses_outside (ha : p.Apart f) {h : Handle .inst} (hh : h ∉ p.body f)
    (hlt : h < p.insts.next) {o : Handle .inst} (huses : q.uses (.inst o) h) :
    p.uses (.inst o) h ∧ p.instKind? o ≠ some (.load (.inst slot)) ∨
      p.Plain f ∧ p.Known f slot type (p.body f) (.inst o) := by
  obtain ⟨w, hw', hv⟩ := hq.uses_kept hlt huses
  rcases hr.resolve_cases w with ⟨heq, hno⟩ | ⟨load, rfl, hload, hknown⟩
  · have hsame : w = .inst o := heq.symm.trans hv.symm
    exact .inl ⟨hsame ▸ hw', hno o hsame⟩
  · have hmem := hr.own load (uses_of_load hload)
    have hplain := ((ha h hh load hw').2 hmem).2.resolve_left fun hno => hno _ hload
    exact .inr ⟨hplain, hv ▸ hknown⟩

/-- The body of a function stays well formed when one of its slots is promoted, if the other slots are still
used in it only. -/
theorem wellFormed_of_own (hw : p.WellFormed f)
    (hown : ∀ s, q.IsSlot f s → ∀ h, q.uses (.inst s) h → h ∈ q.body f) : q.WellFormed f := by
  have husable : ∀ h ∈ q.body f, ∀ v, q.uses v h → ∃ pre, Usable p q slot pre v := by
    intro h hh v huses
    rw [hq.spliced.body] at hh
    obtain ⟨x, hx, hh⟩ := List.mem_flatMap.1 hh
    obtain ⟨pre, post, hbody⟩ := List.append_of_mem hx
    exact ⟨pre, hq.usable hr hw hbody hh huses⟩
  refine ⟨fun h hh v huses => ?_, fun h hh o huses => ?_, ?_, hown⟩
  · obtain ⟨pre, husable⟩ := husable h hh v huses
    exact husable.live
  · obtain ⟨pre, husable⟩ := husable h hh _ huses
    exact (husable.inst o rfl).2.2
  · have := hq.usesEarlier hr hw (p.body f) [] rfl
    rwa [List.flatMap_nil, ← hq.spliced.body] at this

/-- They are if other functions stay away from them. -/
theorem wellFormed (hcq : q.Consistent) (hw : p.WellFormed f) (ha : p.Apart f) : q.WellFormed f := by
  refine hq.wellFormed_of_own hr hw fun slot' hslot h huses => ?_
  obtain ⟨hslot, -⟩ := (hq.isSlot_iff hr).1 hslot
  obtain ⟨k, hk, -⟩ := uses_iff.1 huses
  rcases hq.kind_cases hr hcq hk with ⟨hc, k', hk', -⟩ | ⟨x, v, a, -, -, -, hmem, -, -⟩
  · by_cases hh : h ∈ p.body f
    · exact hq.mem_body_kept hh hc
    · obtain ⟨i, hi, -⟩ := exists_inst_of_instKind? hk'
      rcases hq.uses_outside hr ha hh (Slots.lt_next_of_get? hi) huses with ⟨huses, -⟩ | ⟨hplain, hknown⟩
      · exact absurd (hw.own slot' hslot h huses) hh
      · rcases hknown.source with hconstant | ⟨x, -, hstore⟩
        · cases hconstant
        · exact absurd hslot (hplain x slot slot' hstore ⟨hr.listed, type, hr.alloca⟩)
  · exact hmem

/-- What is used elsewhere and not replaced stays. -/
theorem not_concerns_outside (hw : p.WellFormed f) (ha : p.Apart f) {h o : Handle .inst}
    (hh : h ∉ p.body f) (huses : p.uses (.inst o) h) (hload : p.instKind? o ≠ some (.load (.inst slot))) :
    ¬ p.concerns slot o := by
  have hresult := fun hmem => ((ha h hh o huses).2 hmem).1
  rw [hr.concerns_iff]
  rintro (rfl | hmem | hnote | hstore)
  · exact hh (hw.own o ⟨hr.listed, type, hr.alloca⟩ h huses)
  · exact hload (hr.mem_loads.1 hmem)
  · obtain ⟨⟨y, callee⟩, hy, rfl⟩ := List.mem_map.1 hnote
    obtain ⟨hcall, hannotator⟩ := (mem_annotations hr.consistent hr.promotable).1 hy
    have hmem := hr.own y (uses_argument_of_call hcall)
    exact not_hasResult_of_call hr.consistent hcall hannotator (hresult hmem)
  · obtain ⟨v, hk⟩ := hr.mem_stores.1 hstore
    have hmem := hr.own o (uses_address_of_store hk)
    exact not_hasResult_of_store hr.consistent hk (hresult hmem)

/-- A load that is still there was a load before. -/
theorem exists_load (hcq : q.Consistent) {o : Handle .inst} {ptr : Value}
    (hk : q.instKind? o = some (.load ptr)) : ∃ ptr', p.instKind? o = some (.load ptr') := by
  rcases hq.kind_cases hr hcq hk with ⟨-, k, hk, hmap⟩ | ⟨y, v, a, -, -, -, -, -, hcall⟩
  · cases k with
    | load ptr' => exact ⟨ptr', hk⟩
    | _ => cases hmap
  · cases hcall

/-- Other functions still stay away from what a promotion may erase. -/
theorem apart (hcq : q.Consistent) (hw : p.WellFormed f) (ha : p.Apart f) : q.Apart f := by
  intro h hh o huses
  obtain ⟨k, hk, -⟩ := uses_iff.1 huses
  rcases hq.kind_cases hr hcq hk with ⟨hc, k', hk', -⟩ | ⟨x, v, a, -, -, -, hmem, -, -⟩
  · have hh : h ∉ p.body f := fun hmem => hh (hq.mem_body_kept hmem hc)
    obtain ⟨i, hi, -⟩ := exists_inst_of_instKind? hk'
    -- What another function uses it used before, or it used a load of the slot.
    rcases hq.uses_outside hr ha hh (Slots.lt_next_of_get? hi) huses with ⟨huses, hload⟩ | ⟨hplain, hknown⟩
    · obtain ⟨hlive, hfree⟩ := ha h hh o huses
      have hco := hq.not_concerns_outside hr hw ha hh huses hload
      refine ⟨hq.hasInst_of_not_concerns hlive hco, fun ho => ?_⟩
      rcases hq.mem_body.1 ho with ⟨ho, -⟩ | ⟨y, -, -, hcall⟩
      · refine ⟨hq.hasResult (hfree ho).1 hlive hco, (hfree ho).2.imp ?_ (hq.plain hr hcq)⟩
        intro hno ptr hk
        obtain ⟨ptr', hk'⟩ := hq.exists_load hr hcq hk
        exact hno ptr' hk'
      · -- A new handle was not in use before.
        obtain ⟨v, a, -, -, hle, -⟩ := hq.exists_call hcall
        obtain ⟨j, hj⟩ := Option.isSome_iff_exists.1 hlive
        exact absurd (Slots.lt_next_of_get? hj) (Nat.not_lt_of_le hle)
    · rcases hknown.source with hconstant | ⟨x, hx, hstore⟩
      · cases hconstant
      have huses : p.uses (.inst o) x := uses_value_of_store hstore
      have hlive : p.hasInst o := hw.live x hx _ huses
      have hco := hknown.settled o rfl
      exact ⟨hq.hasInst_of_not_concerns hlive hco,
        fun _ => ⟨hq.hasResult (hw.results x hx o huses) hlive hco, .inr (hq.plain hr hcq hplain)⟩⟩
  · exact absurd hmem hh

/-- The bodies of other functions stay. -/
theorem body_of_ne {g : Handle .function} (hg : g ≠ f) : q.body g = p.body g := by
  have hsame : ∀ x ∈ p.body g, (if p.concerns slot x then calls x else [x]) = [x] := by
    intro x hx
    refine if_neg fun hc => hg ?_
    obtain ⟨i, hi, rfl⟩ := inst?_of_mem_body hr.consistent hx
    obtain ⟨j, hj, hparent⟩ := inst?_of_mem_body hr.consistent (hr.mem_body_of_concerns hc)
    cases hi.symm.trans hj
    exact hparent
  rw [hq.spliced.body, List.flatMap_congr hsame]
  simp

/-- Unless the body becomes empty, the same functions are annotators. -/
theorem isAnnotator_eq (hne : q.body f ≠ []) (g : Handle .function) :
    q.isAnnotator g = p.isAnnotator g := by
  refine hq.spliced.isAnnotator ?_
  by_cases hg : g = f
  · subst hg
    have hslot : p.body g ≠ [] := List.ne_nil_of_mem hr.listed
    rw [List.isEmpty_eq_false_iff.2 hslot, List.isEmpty_eq_false_iff.2 hne]
  · rw [hq.body_of_ne hr hg]

end Promoted

end Program

end ShaderModule

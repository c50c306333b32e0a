import ShaderModule.Proofs.Program.Meaning
import ShaderModule.Proofs.Shader.Steps

/-!
# Promoting all slots of a function: `promote_allocas`

The slots of a function are promoted one after another, each in the code that the promotions before
it have left. What every single promotion keeps is kept by all of them.
-/

namespace ShaderModule

namespace Program

variable {p q r : Program} {f : Handle .function}

section

variable {slot : Handle .inst} {type : Handle .type} {annotations : List (Handle .inst × Handle .function)}

theorem WellFormed.ready (hw : p.WellFormed f) (hp : p.Consistent) (hslot : slot ∈ p.body f)
    (halloca : p.instKind? slot = some (.alloca type))
    (hpromotable : p.promotable? (.inst slot) = some annotations) : p.Ready f slot type annotations where
  consistent := hp
  listed     := hslot
  alloca     := halloca
  promotable := hpromotable
  own        := hw.own slot ⟨hslot, type, halloca⟩
  earlier    := hw.earlier
  results    := hw.results

/-- A slot that cannot be promoted is left alone. -/
theorem promoteSlot_of_none (hnone : p.promotable? (.inst slot) = none) :
    promoteSlot f slot type p = .ok false p := by
  refine action_bind_eq_ok.2 ⟨p, p, rfl, ?_⟩
  simp only [hnone]
  rfl

/-- A slot is promoted if it can be. -/
theorem WellFormed.promoteSlot_cases (hw : p.WellFormed f) (hp : p.Consistent) (hslot : slot ∈ p.body f)
    (halloca : p.instKind? slot = some (.alloca type)) :
    (p.promotable? (.inst slot) = none ∧ promoteSlot f slot type p = .ok false p) ∨
      ∃ q annotations calls, promoteSlot f slot type p = .ok true q ∧ p.Ready f slot type annotations ∧
        p.Promoted q f slot type annotations calls ∧ p.Steps q := by
  cases hpromotable : p.promotable? (.inst slot) with
  | none => exact .inl ⟨rfl, promoteSlot_of_none hpromotable⟩
  | some annotations =>
    have hr := hw.ready hp hslot halloca hpromotable
    obtain ⟨q, calls, hrun, hq⟩ := promoteSlot_eq hr
    exact .inr ⟨q, annotations, calls, hrun, hr, hq, steps_of_ok (edits_promoteSlot f slot type) hrun⟩

end

/-- A function in which slots can be promoted without further ado. -/
structure Tidy (p : Program) (f : Handle .function) : Prop where
  consistent : p.Consistent
  wellFormed : p.WellFormed f
  apart      : p.Apart f

/-- `q` is `p` after some slot of the function was promoted. -/
inductive Promotion (f : Handle .function) (p q : Program) : Prop
  | intro {slot : Handle .inst} {type : Handle .type} {annotations : List (Handle .inst × Handle .function)}
      {calls : Handle .inst → List (Handle .inst)} (ready : p.Ready f slot type annotations)
      (promoted : p.Promoted q f slot type annotations calls) (steps : p.Steps q)

/-- `q` is `p` after some slots of the function were promoted. -/
abbrev Promotions (f : Handle .function) : Program → Program → Prop := Relation.ReflTransGen (Promotion f)

theorem Promotions.steps (h : Promotions f p q) : p.Steps q := by
  induction h with
  | refl => exact .refl
  | tail _ hstep ih =>
    obtain ⟨-, -, hsteps⟩ := hstep
    exact ih.trans hsteps

/-- Slots are never added. -/
theorem Promotions.alloca (h : Promotions f p q) {x : Handle .inst} {t : Handle .type} (hx : x ∈ q.body f)
    (hk : q.instKind? x = some (.alloca t)) : x ∈ p.body f ∧ p.instKind? x = some (.alloca t) := by
  induction h with
  | refl => exact ⟨hx, hk⟩
  | tail _ hstep ih =>
    obtain ⟨hr, hq, -⟩ := hstep
    obtain ⟨hx, hk, -⟩ := (hq.alloca_iff hr).1 ⟨hx, hk⟩
    exact ih hx hk

namespace Tidy

theorem promotion (ht : p.Tidy f) (h : Promotion f p q) : q.Tidy f := by
  obtain ⟨hr, hq, hsteps⟩ := h
  have hcq : q.Consistent := consistent_steps hsteps hr.consistent
  exact ⟨hcq, hq.wellFormed hr hcq ht.wellFormed ht.apart, hq.apart hr hcq ht.wellFormed ht.apart⟩

theorem promotions (ht : p.Tidy f) (h : Promotions f p q) : q.Tidy f := by
  induction h with
  | refl => exact ht
  | tail _ hstep ih => exact ih.promotion hstep

/-- Promoting some slots always succeeds, and leaves only those that could not be promoted at some time. -/
theorem promoteSlots {slots : List (Handle .inst × Handle .type)} (ht : p.Tidy f)
    (hn : (slots.map Prod.fst).Nodup)
    (hslots : ∀ s ∈ slots, s.1 ∈ p.body f ∧ p.instKind? s.1 = some (.alloca s.2)) :
    ∃ promoted q, slots.mapM (fun s => promoteSlot f s.1 s.2) p = .ok promoted q ∧ Promotions f p q ∧
      ∀ s ∈ slots, s.1 ∈ q.body f → q.instKind? s.1 = some (.alloca s.2) →
        ∃ r, Promotions f p r ∧ Promotions f r q ∧ r.promotable? (.inst s.1) = none := by
  induction slots generalizing p with
  | nil => exact ⟨[], p, rfl, .refl, by simp⟩
  | cons s slots ih =>
    obtain ⟨hs, hn⟩ := List.nodup_cons.1 hn
    obtain ⟨hlisted, halloca⟩ := hslots s List.mem_cons_self
    have hrest := fun x hx => hslots x (List.mem_cons_of_mem s hx)
    rcases ht.wellFormed.promoteSlot_cases ht.consistent hlisted halloca with
      ⟨hnone, hrun⟩ | ⟨r, annotations, calls, hrun, hr, hq, hsteps⟩
    · obtain ⟨promoted, q, hruns, hsteps, hleft⟩ := ih ht hn hrest
      refine ⟨false :: promoted, q, action_mapM_cons hrun hruns, hsteps, ?_⟩
      intro x hx
      rcases List.mem_cons.1 hx with rfl | hx
      · exact fun _ _ => ⟨p, .refl, hsteps, hnone⟩
      · exact hleft x hx
    · -- A promotion leaves the other slots, so the rest of them is promoted in what it leaves.
      have hstep : Promotion f p r := ⟨hr, hq, hsteps⟩
      have hkept : ∀ x ∈ slots, x.1 ∈ r.body f ∧ r.instKind? x.1 = some (.alloca x.2) := by
        intro x hx
        obtain ⟨hlisted, halloca⟩ := hrest x hx
        refine (hq.alloca_iff hr).2 ⟨hlisted, halloca, ?_⟩
        exact fun heq => hs (heq ▸ List.mem_map_of_mem hx)
      obtain ⟨promoted, q, hruns, hsteps, hleft⟩ := ih (ht.promotion hstep) hn hkept
      refine ⟨true :: promoted, q, action_mapM_cons hrun hruns, .head hstep hsteps, ?_⟩
      intro x hx hin hkind
      rcases List.mem_cons.1 hx with rfl | hx
      · exact absurd rfl ((hq.alloca_iff hr).1 (hsteps.alloca hin hkind)).2.2
      · obtain ⟨r', hbefore, hafter, hnone⟩ := hleft x hx hin hkind
        exact ⟨r', .head hstep hbefore, hafter, hnone⟩

end Tidy

theorem nodup_slots (hp : p.Consistent) : ((p.slots f).map Prod.fst).Nodup := by
  refine nodup_fst_filterMap (nodup_body hp f) fun h e he => ?_
  split at he
  · cases he
    rfl
  · cases he

/-- Promotion always succeeds, and leaves only slots that could not be promoted at some time. -/
theorem Tidy.promote_eq (ht : p.Tidy f) : ∃ n q, promote f p = .ok n q ∧ Promotions f p q ∧
    ∀ s ∈ q.slots f, ∃ r, Promotions f p r ∧ Promotions f r q ∧ r.promotable? (.inst s.1) = none := by
  obtain ⟨promoted, q, hrun, hsteps, hleft⟩ :=
    ht.promoteSlots (nodup_slots ht.consistent) fun _ hs => mem_slots.1 hs
  refine ⟨promoted.count true, q, ?_, hsteps, ?_⟩
  · exact action_bind_eq_ok.2 ⟨p, p, rfl, action_bind_eq_ok.2 ⟨promoted, q, hrun, rfl⟩⟩
  · intro s hs
    obtain ⟨hlisted, halloca⟩ := mem_slots.1 hs
    exact hleft s (mem_slots.2 (hsteps.alloca hlisted halloca)) hlisted halloca

theorem traceOfRun_eq {D : Type} (I : Interp D) (ht : p.Tidy f) (h : Promotions f p q) :
    q.traceOfRun I f = p.traceOfRun I f := by
  induction h with
  | refl => rfl
  | tail hsteps hstep ih =>
    obtain ⟨hr, hq, -⟩ := hstep
    exact (hq.traceOfRun_eq hr (ht.promotions hsteps).wellFormed).trans ih

/-- In a tidy program no instruction refers to one that is gone. -/
theorem Tidy.hasInst_of_uses (ht : p.Tidy f) {h o : Handle .inst} (huses : p.uses (.inst o) h) :
    p.hasInst o := by
  by_cases hh : h ∈ p.body f
  · exact ht.wellFormed.live h hh _ huses
  · exact (ht.apart h hh o huses).1

/-- Promotion keeps the meaning of a function. -/
theorem promote_meaning (hp : p.Reachable) (hw : p.WellFormed f) (ha : p.Apart f) :
    ∃ n q, promote f p = .ok n q ∧ q.WellFormed f ∧ q.Apart f ∧
      (∀ h o, q.uses (.inst o) h → q.hasInst o) ∧
      ∀ (D : Type) (I : Interp D), q.traceOfRun I f = p.traceOfRun I f := by
  have ht : p.Tidy f := ⟨hp.consistent, hw, ha⟩
  obtain ⟨n, q, hrun, hsteps, -⟩ := ht.promote_eq
  have htq := ht.promotions hsteps
  exact ⟨n, q, hrun, htq.wellFormed, htq.apart, fun h o => htq.hasInst_of_uses,
    fun D I => traceOfRun_eq I ht hsteps⟩

/-- A function with an annotated slot, what is loaded from it being stored in another; a third function
uses a sum that it computes. -/
def summing : Program :=
  ([.type .void, .type (.float 32), .type (.pointer ⟨1⟩ .default), .type (.function ⟨0⟩ [⟨2⟩]),
    .type (.function ⟨1⟩ [⟨1⟩]), .addFunction "note" ⟨3⟩, .addFunction "sum" ⟨4⟩,
    .addFunction "other" ⟨4⟩, .append ⟨1⟩ (.alloca ⟨1⟩), .append ⟨1⟩ (.alloca ⟨1⟩),
    .append ⟨1⟩ (.call ⟨0⟩ [.inst ⟨0⟩]), .append ⟨1⟩ (.store (.inst ⟨0⟩) (.argument ⟨1⟩ 0)),
    .append ⟨1⟩ (.load (.inst ⟨0⟩)), .append ⟨1⟩ (.store (.inst ⟨1⟩) (.inst ⟨4⟩)),
    .append ⟨1⟩ (.load (.inst ⟨1⟩)), .append ⟨1⟩ (.binary .fadd (.inst ⟨4⟩) (.inst ⟨6⟩)),
    .append ⟨1⟩ (.ret (some (.inst ⟨7⟩))), .append ⟨2⟩ (.ret (some (.inst ⟨7⟩)))] :
    List ProgramOp).foldl ProgramOp.apply (.empty "summing")

theorem promote_meaning_summing :
    ∃ n q, promote ⟨1⟩ summing = .ok n q ∧ q.WellFormed ⟨1⟩ ∧ q.Apart ⟨1⟩ ∧
      (∀ h o, q.uses (.inst o) h → q.hasInst o) ∧
      ∀ (D : Type) (I : Interp D), q.traceOfRun I ⟨1⟩ = summing.traceOfRun I ⟨1⟩ :=
  promote_meaning (reachable_foldl _ _) (by decide) (by decide)

/-- A function that keeps the address of a slot in another one, from where two functions take it, one
to annotate it, the other to load from it. -/
def crossing : Program :=
  ([.type .void, .type (.float 32), .type (.pointer ⟨1⟩ .default), .type (.function ⟨0⟩ [⟨2⟩]),
    .type (.function ⟨0⟩ [⟨1⟩]), .type (.function ⟨0⟩ []), .addFunction "note" ⟨3⟩,
    .addFunction "other" ⟨4⟩, .addFunction "reader" ⟨5⟩, .addFunction "main" ⟨5⟩,
    .append ⟨3⟩ (.alloca ⟨2⟩), .append ⟨3⟩ (.alloca ⟨1⟩), .append ⟨3⟩ (.store (.inst ⟨0⟩) (.inst ⟨1⟩)),
    .append ⟨3⟩ (.load (.inst ⟨0⟩)), .constant (.undef ⟨1⟩), .append ⟨3⟩ (.call ⟨1⟩ [.constant ⟨0⟩]),
    .append ⟨1⟩ (.call ⟨0⟩ [.inst ⟨3⟩]), .append ⟨2⟩ (.load (.inst ⟨3⟩))] : List ProgramOp).foldl
      ProgramOp.apply (.empty "crossing")

/-- There promotion leaves a load from the erased slot, and with the annotation the whole body of a
function goes, so that the call of it is not seen any more. -/
theorem promote_crossing :
    crossing.Reachable ∧ crossing.WellFormed ⟨3⟩ ∧
      ∃ n q, promote ⟨3⟩ crossing = .ok n q ∧ (q.uses (.inst ⟨1⟩) ⟨6⟩ ∧ ¬ q.hasInst ⟨1⟩) ∧
        q.traceOfRun .blank ⟨3⟩ ≠ crossing.traceOfRun .blank ⟨3⟩ :=
  ⟨reachable_foldl _ _, by decide, by decide +kernel⟩

end Program

end ShaderModule

import ShaderModule.Proofs.Program.Step
import ShaderModule.Proofs.Table.Slots

/-!
# Bodies and instructions belong together

In every reachable program the instructions listed in the body of a function are exactly the
instructions of that function, each listed once, and their types are those of their results.
-/

namespace ShaderModule

namespace Program

/-- Every function is listed, and lists its own instructions, each once; every instruction is listed. -/
structure Consistent (p : Program) : Prop where
  order  : p.functions.InOrder
  listed : ∀ f g, p.function? f = some g → ∀ h ∈ g.body, ∃ i, p.inst? h = some i ∧ i.parent = f
  nodup  : ∀ f g, p.function? f = some g → g.body.Nodup
  parent : ∀ h i, p.inst? h = some i → ∃ g, p.function? i.parent = some g ∧ h ∈ g.body
  typed  : ∀ h i, p.inst? h = some i → i.Typed p

variable {p q : Program}

theorem consistent_empty (name : String) : (empty name).Consistent := by
  have hfunction : ∀ f, (empty name).function? f = none := fun _ => rfl
  have hinst : ∀ h, (empty name).inst? h = none := fun _ => rfl
  constructor
  case order => exact Listed.inOrder_empty
  case listed =>
    intro f g hg
    rw [hfunction] at hg
    cases hg
  case nodup =>
    intro f g hg
    rw [hfunction] at hg
    cases hg
  case parent =>
    intro h i hi
    rw [hinst] at hi
    cases hi
  case typed =>
    intro h i hi
    rw [hinst] at hi
    cases hi

/-- An instruction keeps its type while functions keep theirs. -/
theorem typed_mono {i : Inst} (h : i.Typed p) (hext : p.Extends q)
    (hnext : p.functions.next.index ≤ q.functions.next.index)
    (hfunctions : ∀ c, c < p.functions.next → ∀ g, q.function? c = some g →
      ∃ g', p.function? c = some g' ∧ g'.type = g.type) : i.Typed q := by
  unfold Inst.Typed at *
  split at h
  · exact hext.type? h
  · exact hext.type? h
  · exact hext.type? h
  · obtain ⟨hlt, hsig⟩ := h
    refine ⟨Nat.lt_of_lt_of_le hlt hnext, ?_⟩
    intro g hg
    obtain ⟨g', hg', htype⟩ := hfunctions _ hlt g hg
    obtain ⟨params, hparams, hlen⟩ := hsig g' hg'
    refine ⟨params, ?_, hlen⟩
    rw [Option.bind_eq_some_iff] at hparams ⊢
    obtain ⟨t, ht, hs⟩ := hparams
    exact ⟨t, htype ▸ hext.type? ht, hs⟩
  · trivial
  · trivial

namespace Consistent

variable (hp : p.Consistent)

include hp

theorem quiet (h : p.Quiet q) : q.Consistent := by
  have hfunction := h.function?
  have hinst := h.inst?
  constructor
  case order => exact h.functions ▸ hp.order
  case listed => simpa only [hfunction, hinst] using hp.listed
  case nodup => simpa only [hfunction] using hp.nodup
  case parent => simpa only [hfunction, hinst] using hp.parent
  case typed =>
    intro i x hx
    rw [hinst] at hx
    refine typed_mono (hp.typed i x hx) h.toExtends (Nat.le_of_eq (by rw [h.functions])) ?_
    intro c _ g hg
    exact ⟨g, hfunction c ▸ hg, rfl⟩

theorem declare (name : String) (type : Handle .type) :
    Consistent { p with functions := p.functions.push ⟨name, type, [], .empty⟩ } := by
  constructor
  case order => exact hp.order.push _
  case listed =>
    intro f g hg h hh
    rcases Slots.get?_push_eq_some.1 hg with ⟨-, rfl⟩ | hg
    · cases hh
    · exact hp.listed f g hg h hh
  case nodup =>
    intro f g hg
    rcases Slots.get?_push_eq_some.1 hg with ⟨-, rfl⟩ | hg
    · exact .nil
    · exact hp.nodup f g hg
  case parent =>
    intro h i hi
    obtain ⟨g, hg, hh⟩ := hp.parent h i hi
    exact ⟨g, Slots.get?_push_eq_some.2 (.inr hg), hh⟩
  case typed =>
    intro h i hi
    refine typed_mono (hp.typed h i hi) ?_ ?_ ?_
    · exact ⟨List.prefix_refl _, List.prefix_refl _, List.prefix_refl _⟩
    · simp [Slots.next_push]
    · intro c hc g hg
      rcases Slots.get?_push_eq_some.1 hg with ⟨rfl, -⟩ | hg
      · exact absurd hc (Nat.lt_irrefl _)
      · exact ⟨g, hg, rfl⟩

theorem eraseFunction {h : Handle .function} {f : Function} (hf : p.function? h = some f) :
    Consistent { p with
      functions := p.functions.erase h, insts := f.body.foldl Slots.erase p.insts } := by
  constructor
  case order => exact hp.order.erase h
  case listed =>
    intro k g hg x hx
    obtain ⟨hne, hg⟩ := Slots.get?_erase_eq_some.1 hg
    obtain ⟨i, hi, hparent⟩ := hp.listed k g hg x hx
    refine ⟨i, Slots.get?_foldl_erase.2 ⟨?_, hi⟩, hparent⟩
    -- An instruction has one parent only.
    intro hmem
    obtain ⟨j, hj, hparent'⟩ := hp.listed h f hf x hmem
    cases hi.symm.trans hj
    exact hne (hparent.symm.trans hparent')
  case nodup =>
    intro k g hg
    exact hp.nodup k g (Slots.get?_erase_eq_some.1 hg).2
  case parent =>
    intro x i hi
    obtain ⟨hx, hi⟩ := Slots.get?_foldl_erase.1 hi
    obtain ⟨g, hg, hmem⟩ := hp.parent x i hi
    refine ⟨g, Slots.get?_erase_eq_some.2 ⟨?_, hg⟩, hmem⟩
    rintro rfl
    cases hf.symm.trans hg
    exact hx hmem
  case typed =>
    intro x i hi
    obtain ⟨-, hi⟩ := Slots.get?_foldl_erase.1 hi
    refine typed_mono (hp.typed x i hi) ?_ ?_ ?_
    · exact ⟨List.prefix_refl _, List.prefix_refl _, List.prefix_refl _⟩
    · simp
    · intro c _ g hg
      exact ⟨g, (Slots.get?_erase_eq_some.1 hg).2, rfl⟩

theorem attachFunction (h : Handle .function) (attach : Attachments → Attachments) :
    Consistent { p with
      functions := p.functions.modify h fun f => { f with metadata := attach f.metadata } } := by
  have hfunction : ∀ k g, (p.functions.modify h fun f => { f with metadata := attach f.metadata }).get? k =
      some g → ∃ g', p.function? k = some g' ∧ g'.body = g.body ∧ g'.type = g.type := by
    intro k g hg
    rcases Slots.get?_modify_eq_some.1 hg with ⟨-, hg⟩ | ⟨-, g', hg', rfl⟩
    · exact ⟨g, hg, rfl, rfl⟩
    · exact ⟨g', hg', rfl, rfl⟩
  constructor
  case order => exact hp.order.modify _ _
  case listed =>
    intro k g hg x hx
    obtain ⟨g', hg', hbody, -⟩ := hfunction k g hg
    exact hp.listed k g' hg' x (hbody ▸ hx)
  case nodup =>
    intro k g hg
    obtain ⟨g', hg', hbody, -⟩ := hfunction k g hg
    exact hbody ▸ hp.nodup k g' hg'
  case parent =>
    intro x i hi
    obtain ⟨g, hg, hx⟩ := hp.parent x i hi
    by_cases hk : i.parent = h
    · exact ⟨{ g with metadata := attach g.metadata },
        Slots.get?_modify_eq_some.2 (.inr ⟨hk, g, hg, rfl⟩), hx⟩
    · exact ⟨g, Slots.get?_modify_eq_some.2 (.inl ⟨hk, hg⟩), hx⟩
  case typed =>
    intro x i hi
    refine typed_mono (hp.typed x i hi) ?_ ?_ ?_
    · exact ⟨List.prefix_refl _, List.prefix_refl _, List.prefix_refl _⟩
    · simp
    · intro c _ g hg
      obtain ⟨g', hg', -, htype⟩ := hfunction c g hg
      exact ⟨g', hg', htype⟩

theorem place (pos : Nat) {i : Inst} (hparent : p.hasFunction i.parent) (htyped : i.Typed p) :
    (placeInst pos i p).2.Consistent := by
  have hfunction : ∀ k g, (placeInst pos i p).2.function? k = some g →
      (k ≠ i.parent ∧ p.function? k = some g) ∨ (k = i.parent ∧ ∃ g', p.function? k = some g' ∧
        { g' with body := g'.body.take pos ++ p.insts.next :: g'.body.drop pos } = g) := by
    intro k g hg
    exact Slots.get?_modify_eq_some.1 hg
  -- Wherever it is put, the body has the new instruction and those that it had.
  have hperm : ∀ g : Function,
      (g.body.take pos ++ p.insts.next :: g.body.drop pos).Perm (p.insts.next :: g.body) := by
    intro g
    refine List.perm_middle.trans ?_
    rw [List.take_append_drop]
  have hmem : ∀ (g : Function) x, x ∈ g.body.take pos ++ p.insts.next :: g.body.drop pos ↔
      x = p.insts.next ∨ x ∈ g.body := by
    intro g x
    rw [(hperm g).mem_iff, List.mem_cons]
  constructor
  case order => exact hp.order.modify _ _
  case listed =>
    intro k g hg x hx
    rcases hfunction k g hg with ⟨-, hg⟩ | ⟨rfl, g', hg', rfl⟩
    · obtain ⟨j, hj, hpj⟩ := hp.listed k g hg x hx
      exact ⟨j, Slots.get?_push_eq_some.2 (.inr hj), hpj⟩
    · rcases (hmem g' x).1 hx with rfl | hx
      · exact ⟨i, Slots.get?_push_eq_some.2 (.inl ⟨rfl, rfl⟩), rfl⟩
      · obtain ⟨j, hj, hpj⟩ := hp.listed _ g' hg' x hx
        exact ⟨j, Slots.get?_push_eq_some.2 (.inr hj), hpj⟩
  case nodup =>
    intro k g hg
    rcases hfunction k g hg with ⟨-, hg⟩ | ⟨rfl, g', hg', rfl⟩
    · exact hp.nodup k g hg
    · have hnext : p.insts.next ∉ g'.body := by
        intro hx
        obtain ⟨j, hj, -⟩ := hp.listed _ g' hg' _ hx
        exact Slots.ne_next_of_get? hj rfl
      exact (hperm g').nodup_iff.2 (List.nodup_cons.2 ⟨hnext, hp.nodup _ g' hg'⟩)
  case parent =>
    intro x j hj
    rcases Slots.get?_push_eq_some.1 hj with ⟨rfl, rfl⟩ | hj
    · obtain ⟨g, hg⟩ := Option.isSome_iff_exists.1 hparent
      exact ⟨_, Slots.get?_modify_eq_some.2 (.inr ⟨rfl, g, hg, rfl⟩), (hmem g _).2 (.inl rfl)⟩
    · obtain ⟨g, hg, hx⟩ := hp.parent x j hj
      by_cases hk : j.parent = i.parent
      · exact ⟨_, Slots.get?_modify_eq_some.2 (.inr ⟨hk, g, hg, rfl⟩), (hmem g x).2 (.inr hx)⟩
      · exact ⟨g, Slots.get?_modify_eq_some.2 (.inl ⟨hk, hg⟩), hx⟩
  case typed =>
    intro x j hj
    have hj : j.Typed p := by
      rcases Slots.get?_push_eq_some.1 hj with ⟨-, rfl⟩ | hj
      · exact htyped
      · exact hp.typed x j hj
    refine typed_mono hj ?_ ?_ ?_
    · exact ⟨List.prefix_refl _, List.prefix_refl _, List.prefix_refl _⟩
    · simp [placeInst]
    · intro c _ g hg
      rcases hfunction c g hg with ⟨-, hg⟩ | ⟨-, g', hg', rfl⟩
      · exact ⟨g, hg, rfl⟩
      · exact ⟨g', hg', rfl⟩

theorem eraseInst {h : Handle .inst} {i : Inst} (hi : p.inst? h = some i) :
    Consistent { p with
      insts := p.insts.erase h
      functions := p.functions.modify i.parent fun f => { f with body := f.body.filter (· ≠ h) } } := by
  have hfunction : ∀ k g,
      (p.functions.modify i.parent fun f => { f with body := f.body.filter (· ≠ h) }).get? k = some g →
        ∃ g', p.function? k = some g' ∧ g'.type = g.type ∧ g.body.Sublist g'.body ∧ h ∉ g.body := by
    intro k g hg
    rcases Slots.get?_modify_eq_some.1 hg with ⟨hne, hg⟩ | ⟨-, g', hg', rfl⟩
    · refine ⟨g, hg, rfl, .refl _, ?_⟩
      intro hh
      obtain ⟨j, hj, hparent⟩ := hp.listed k g hg h hh
      cases hi.symm.trans hj
      exact hne hparent.symm
    · exact ⟨g', hg', rfl, List.filter_sublist, by simp⟩
  constructor
  case order => exact hp.order.modify _ _
  case listed =>
    intro k g hg x hx
    obtain ⟨g', hg', -, hsub, hh⟩ := hfunction k g hg
    obtain ⟨j, hj, hparent⟩ := hp.listed k g' hg' x (hsub.subset hx)
    refine ⟨j, Slots.get?_erase_eq_some.2 ⟨?_, hj⟩, hparent⟩
    rintro rfl
    exact hh hx
  case nodup =>
    intro k g hg
    obtain ⟨g', hg', -, hsub, -⟩ := hfunction k g hg
    exact (hp.nodup k g' hg').sublist hsub
  case parent =>
    intro x j hj
    obtain ⟨hne, hj⟩ := Slots.get?_erase_eq_some.1 hj
    obtain ⟨g, hg, hx⟩ := hp.parent x j hj
    by_cases hk : j.parent = i.parent
    · refine ⟨_, Slots.get?_modify_eq_some.2 (.inr ⟨hk, g, hg, rfl⟩), ?_⟩
      simpa using ⟨hx, hne⟩
    · exact ⟨g, Slots.get?_modify_eq_some.2 (.inl ⟨hk, hg⟩), hx⟩
  case typed =>
    intro x j hj
    obtain ⟨-, hj⟩ := Slots.get?_erase_eq_some.1 hj
    refine typed_mono (hp.typed x j hj) ?_ ?_ ?_
    · exact ⟨List.prefix_refl _, List.prefix_refl _, List.prefix_refl _⟩
    · simp
    · intro c _ g hg
      obtain ⟨g', hg', htype, -⟩ := hfunction c g hg
      exact ⟨g', hg', htype⟩

/-- Instructions may change in what their types do not depend on. -/
theorem changeInsts {insts : Slots .inst Inst} (hback : ∀ h j, insts.get? h = some j →
      ∃ i, p.inst? h = some i ∧ j.parent = i.parent ∧ (i.Typed p → j.Typed p))
    (hforth : ∀ h i, p.inst? h = some i → ∃ j, insts.get? h = some j ∧ j.parent = i.parent) :
    Consistent { p with insts } := by
  constructor
  case order => exact hp.order
  case listed =>
    intro k g hg x hx
    obtain ⟨i, hi, hparent⟩ := hp.listed k g hg x hx
    obtain ⟨j, hj, hsame⟩ := hforth x i hi
    exact ⟨j, hj, hsame.trans hparent⟩
  case nodup => exact hp.nodup
  case parent =>
    intro x j hj
    obtain ⟨i, hi, hsame, -⟩ := hback x j hj
    obtain ⟨g, hg, hx⟩ := hp.parent x i hi
    exact ⟨g, hsame ▸ hg, hx⟩
  case typed =>
    intro x j hj
    obtain ⟨i, hi, -, htyped⟩ := hback x j hj
    exact htyped (hp.typed x i hi)

theorem attachInst (h : Handle .inst) (attach : Attachments → Attachments) :
    Consistent { p with insts := p.insts.modify h fun i => { i with metadata := attach i.metadata } } := by
  refine hp.changeInsts ?_ ?_
  · intro x j hj
    rcases Slots.get?_modify_eq_some.1 hj with ⟨-, hj⟩ | ⟨-, i, hi, rfl⟩
    · exact ⟨j, hj, rfl, id⟩
    · exact ⟨i, hi, rfl, id⟩
  · intro x i hi
    by_cases hx : x = h
    · exact ⟨_, Slots.get?_modify_eq_some.2 (.inr ⟨hx, i, hi, rfl⟩), rfl⟩
    · exact ⟨i, Slots.get?_modify_eq_some.2 (.inl ⟨hx, hi⟩), rfl⟩

theorem replace (old new : Value) : (p.replaceUses old new).Consistent := by
  refine hp.changeInsts ?_ ?_
  · intro x j hj
    obtain ⟨i, hi, rfl⟩ := Slots.get?_mapAll_eq_some.1 hj
    refine ⟨i, hi, rfl, ?_⟩
    intro htyped
    unfold Inst.Typed at *
    cases hk : i.kind with
    | call callee args =>
      simp only [hk, InstKind.replace, InstKind.mapOperands, List.length_map] at htyped ⊢
      exact htyped
    | alloca _ | store _ _ | ret _ =>
      simp only [hk, InstKind.replace, InstKind.mapOperands] at htyped ⊢
      exact htyped
    | load _ | binary _ _ _ => simp only [InstKind.replace, InstKind.mapOperands]
  · intro x i hi
    exact ⟨_, Slots.get?_mapAll_eq_some.2 ⟨i, hi, rfl⟩, rfl⟩

end Consistent

/-- No step disturbs the agreement of bodies and instructions. -/
theorem consistent_step (h : Step p q) (hp : p.Consistent) : q.Consistent := by
  cases h with
  | quiet h => exact hp.quiet h
  | declare => exact hp.declare _ _
  | eraseFunction hf => exact hp.eraseFunction hf
  | attachFunction h attach => exact hp.attachFunction h attach
  | place pos hparent htyped => exact hp.place pos hparent htyped
  | eraseInst hi => exact hp.eraseInst hi
  | attachInst h attach => exact hp.attachInst h attach
  | replace old new => exact hp.replace old new

theorem consistent_steps (h : p.Steps q) (hp : p.Consistent) : q.Consistent := by
  induction h with
  | refl => exact hp
  | tail _ hstep ih => exact consistent_step hstep ih

/-- Handles of instructions are not issued twice. -/
theorem next_le_of_step (h : Step p q) : p.insts.next.index ≤ q.insts.next.index := by
  cases h with
  | quiet h => simp [h.insts]
  | eraseFunction hf => simp [Slots.next_foldl_erase]
  | place pos hparent htyped =>
    simp only [placeInst, Slots.next_push]
    omega
  | declare | attachFunction | eraseInst | attachInst | replace => simp [replaceUses]

theorem next_le_of_steps (h : p.Steps q) : p.insts.next.index ≤ q.insts.next.index := by
  induction h with
  | refl => exact Nat.le_refl _
  | tail _ hstep ih => exact Nat.le_trans ih (next_le_of_step hstep)

/-- An instruction that is there has an older handle than all that come later. -/
theorem Steps.lt_next (h : p.Steps q) {o : Handle .inst} (ho : p.hasInst o) : o < q.insts.next := by
  obtain ⟨i, hi⟩ := Option.isSome_iff_exists.1 ho
  exact Nat.lt_of_lt_of_le (Slots.lt_next_of_get? hi) (next_le_of_steps h)

end Program

end ShaderModule

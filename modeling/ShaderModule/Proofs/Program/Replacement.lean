import ShaderModule.Proofs.Program.Promotion
import ShaderModule.Proofs.Shader.Steps

/-!
# Users and replacement: `users` / `replace_all_uses_with`

The users of a value are found along the bodies, by all operands; a replacement goes over the table of
instructions, by the operands that it reaches. Both see the same instructions, except for the callees of calls:
a function that is called is used, but a replacement does not reach it there.
-/

namespace ShaderModule

/-! ## Operands of one instruction -/

namespace InstKind

/-- Whether an instruction calls a value. -/
def calls (v : Value) : InstKind → Bool
  | .call callee _ => decide (v = .function callee)
  | _ => false

variable {k : InstKind} {v old new : Value}

theorem calls_iff : k.calls v ↔ ∃ callee args, k = .call callee args ∧ v = .function callee := by
  cases k with
  | call callee args => simp [calls]
  | alloca _ | load _ | store _ _ | binary _ _ _ | ret _ => simp [calls]

/-- What is used is called or can be replaced. -/
theorem mem_operands_iff : v ∈ k.operands ↔ k.calls v ∨ v ∈ k.replaceable := by
  cases k with
  | call callee args => simp [operands, replaceable, calls]
  | alloca _ | load _ | store _ _ | binary _ _ _ | ret _ => simp [replaceable, calls]

theorem calls_replace : (k.replace old new).calls v = k.calls v := by
  cases k <;> rfl

theorem mem_replaceable_replace : v ∈ (k.replace old new).replaceable ↔
    v ≠ old ∧ v ∈ k.replaceable ∨ v = new ∧ old ∈ k.replaceable := by
  rw [replace, replaceable_mapOperands, List.mem_map]
  constructor
  · rintro ⟨w, hw, rfl⟩
    by_cases hold : w = old
    · subst hold
      exact .inr ⟨if_pos rfl, hw⟩
    · rw [if_neg hold]
      exact .inl ⟨hold, hw⟩
  · rintro (⟨hne, hv⟩ | ⟨rfl, hold⟩)
    · exact ⟨v, hv, if_neg hne⟩
    · exact ⟨old, hold, if_pos rfl⟩

theorem mapOperands_congr {f g : Value → Value} (h : ∀ w ∈ k.replaceable, f w = g w) :
    k.mapOperands f = k.mapOperands g := by
  cases k with
  | call callee args => exact congrArg (call callee) (List.map_congr_left h)
  | ret value => exact congrArg ret (Option.map_congr fun w hw => h w (Option.mem_toList.2 hw))
  | alloca _ => rfl
  | load ptr => simp only [mapOperands, h ptr (by simp [replaceable, operands])]
  | store ptr value | binary _ ptr value =>
    simp only [mapOperands, h ptr (by simp [replaceable, operands]), h value (by simp [replaceable, operands])]

/-- Where there is nothing to replace nothing changes. -/
theorem replace_of_not_mem (h : old ∉ k.replaceable) : k.replace old new = k := by
  have hkeep : ∀ w ∈ k.replaceable, (if w = old then new else w) = id w := by
    intro w hw
    refine if_neg ?_
    rintro rfl
    exact h hw
  rw [replace, mapOperands_congr hkeep, mapOperands_id]

end InstKind

/-! ## Uses in a program -/

theorem Slots.values_eq {kind : Kind} {α : Type} (s : Slots kind α) : s.values = s.live.filterMap s.get? := by
  have hcells : s.cells = (List.range s.cells.length).map fun i => s.get? ⟨i⟩ := by
    refine List.ext_getElem (by simp) fun i hi _ => ?_
    simp [get?, hi]
  rw [values, live, List.filterMap_filter, List.filterMap_map]
  conv_lhs => rw [hcells]
  rw [List.filterMap_map]
  refine List.filterMap_congr fun i _ => ?_
  cases hi : s.get? ⟨i⟩ <;> simp [hi]

namespace Program

variable {p : Program} {v old new : Value} {h : Handle .inst}

/-- Whether an instruction calls a value. -/
def calls (p : Program) (v : Value) (h : Handle .inst) : Bool := (p.instKind? h).any (InstKind.calls v)

/-- Whether a replacement of a value reaches an instruction. -/
def reaches (p : Program) (v : Value) (h : Handle .inst) : Bool :=
  (p.instKind? h).any fun k => decide (v ∈ k.replaceable)

theorem calls_iff :
    p.calls v h ↔ ∃ callee args, p.instKind? h = some (.call callee args) ∧ v = .function callee := by
  simp only [calls, Option.any_eq_true, InstKind.calls_iff]
  constructor
  · rintro ⟨_, hk, callee, args, rfl, hv⟩
    exact ⟨callee, args, hk, hv⟩
  · rintro ⟨callee, args, hk, hv⟩
    exact ⟨_, hk, callee, args, rfl, hv⟩

/-- An instruction uses a value if it calls it or a replacement of it reaches the instruction. -/
theorem uses_eq (p : Program) (v : Value) (h : Handle .inst) : p.uses v h = (p.calls v h || p.reaches v h) := by
  unfold uses calls reaches
  cases p.instKind? h with
  | none => rfl
  | some k =>
    rw [Bool.eq_iff_iff]
    simp [InstKind.mem_operands_iff]

/-! ## What a replacement does -/

theorem instKind?_replaceUses (p : Program) (old new : Value) (h : Handle .inst) :
    (p.replaceUses old new).instKind? h = (p.instKind? h).map (·.replace old new) := by
  simp only [instKind?, inst?_replaceUses, Option.map_map]
  rfl

theorem calls_replaceUses : (p.replaceUses old new).calls v h = p.calls v h := by
  rw [calls, calls, instKind?_replaceUses]
  cases p.instKind? h with
  | none => rfl
  | some k => exact InstKind.calls_replace

theorem reaches_replaceUses : (p.replaceUses old new).reaches v h =
    (decide (v ≠ old) && p.reaches v h || decide (v = new) && p.reaches old h) := by
  rw [reaches, reaches, reaches, instKind?_replaceUses]
  cases p.instKind? h with
  | none => simp
  | some k =>
    rw [Bool.eq_iff_iff]
    simp [InstKind.mem_replaceable_replace]

/-- The instructions touched are those that the replacement reaches. -/
theorem replaceCount_eq (hp : p.Consistent) (old : Value) : p.replaceCount old = p.code.countP (p.reaches old) := by
  have hperm : p.insts.live.Perm p.code := by
    refine (List.perm_ext_iff_of_nodup p.insts.nodup_live (nodup_code hp)).2 fun h => ?_
    rw [mem_code hp, Slots.mem_live]
    rfl
  rw [replaceCount, Slots.values_eq, List.countP_filterMap, hperm.countP_eq]
  refine List.countP_congr fun h _ => ?_
  simp only [reaches, instKind?, inst?]
  cases p.insts.get? h <;> simp

/-- Of the users of a value those that call it remain. -/
theorem users_old_replaceUses (hne : old ≠ new) :
    (p.replaceUses old new).users old = p.code.filter (p.calls old) := by
  refine List.filter_congr fun h _ => ?_
  rw [uses_eq, calls_replaceUses, reaches_replaceUses]
  simp [hne]

/-- The users of the new value are its own and those of the old one that the replacement reaches. -/
theorem users_new_replaceUses (hne : old ≠ new) :
    (p.replaceUses old new).users new = p.code.filter fun h => p.reaches old h || p.uses new h := by
  refine List.filter_congr fun h _ => ?_
  rw [uses_eq, uses_eq, calls_replaceUses, reaches_replaceUses]
  simp [hne.symm, Bool.or_comm, Bool.or_left_comm]

/-- An instruction that the replacement does not reach stays as it is. -/
theorem inst?_replaceUses_of_not_reaches (hh : ¬ p.reaches old h) :
    (p.replaceUses old new).inst? h = p.inst? h := by
  rw [inst?_replaceUses]
  cases hi : p.inst? h with
  | none => rfl
  | some i =>
    have hold : old ∉ i.kind.replaceable := by
      intro hmem
      exact hh (by simp [reaches, instKind?, hi, hmem])
    rw [Option.map_some, Inst.mapKind, InstKind.replace_of_not_mem hold]

/-- `q` is `p` with the uses of one value taken over by another: the instructions that used the old value are
touched, it has no users any more, the new one has its own and those of the old one, in the order of the code,
and whatever did not use the old value is as before. -/
structure TakesOver (p q : Program) (old new : Value) (touched : Nat) : Prop where
  touched : touched = (p.users old).length
  emptied : q.users old = []
  joined  : q.users new = p.code.filter fun h => p.uses old h || p.uses new h
  kept    : ∀ h, ¬ p.uses old h → q.inst? h = p.inst? h

/-- Replacing a value hands all its uses over if and only if nothing calls it. -/
theorem takesOver_iff (hp : p.Reachable) (hne : old ≠ new) :
    TakesOver p (replaceAll old new p).2 old new (replaceAll old new p).1 ↔
      ∀ h callee args, p.instKind? h = some (.call callee args) → old ≠ .function callee := by
  show TakesOver p (p.replaceUses old new) old new (p.replaceCount old) ↔ _
  have hcalls : (∀ h callee args, p.instKind? h = some (.call callee args) → old ≠ .function callee) ↔
      ∀ h, ¬ p.calls old h := by
    simp only [calls_iff, not_exists, not_and]
  rw [hcalls]
  constructor
  · intro htaken h hcall
    obtain ⟨callee, args, hk, -⟩ := calls_iff.1 hcall
    have hmem : h ∈ p.code.filter (p.calls old) :=
      List.mem_filter.2 ⟨(mem_code hp.consistent).2 (hasInst_of_instKind? hk), hcall⟩
    rw [← users_old_replaceUses hne, htaken.emptied] at hmem
    cases hmem
  · intro hno
    -- Without calls of it, replacement reaches every use.
    have huses : p.uses old = p.reaches old := by
      funext h
      rw [uses_eq, Bool.eq_false_iff.2 (hno h), Bool.false_or]
    refine ⟨?_, ?_, ?_, ?_⟩
    · rw [replaceCount_eq hp.consistent, List.countP_eq_length_filter, users, huses]
    · rw [users_old_replaceUses hne, List.filter_eq_nil_iff]
      exact fun h _ => hno h
    · rw [users_new_replaceUses hne, huses]
    · intro h hh
      exact inst?_replaceUses_of_not_reaches (huses ▸ hh)

/-- A function that adds a value to what another function makes of it; a third one has the same type. -/
def calling : Program :=
  ([.type (.float 32), .type (.function ⟨0⟩ [⟨0⟩]), .addFunction "first" ⟨1⟩, .addFunction "second" ⟨1⟩,
    .addFunction "main" ⟨1⟩, .append ⟨2⟩ (.binary .fmul (.argument ⟨2⟩ 0) (.argument ⟨2⟩ 0)),
    .append ⟨2⟩ (.call ⟨0⟩ [.inst ⟨0⟩]), .append ⟨2⟩ (.binary .fadd (.inst ⟨0⟩) (.inst ⟨1⟩)),
    .append ⟨2⟩ (.ret (some (.inst ⟨2⟩)))] : List ProgramOp).foldl ProgramOp.apply (.empty "calling")

/-- The result of the call takes over all uses of its argument, its own included. -/
theorem takesOver_iff_calling :
    calling.users (.inst ⟨0⟩) = [⟨1⟩, ⟨2⟩] ∧ calling.users (.inst ⟨1⟩) = [⟨2⟩] ∧
      TakesOver calling (replaceAll (.inst ⟨0⟩) (.inst ⟨1⟩) calling).2 (.inst ⟨0⟩) (.inst ⟨1⟩)
        (replaceAll (.inst ⟨0⟩) (.inst ⟨1⟩) calling).1 :=
  ⟨by decide, by decide, (takesOver_iff (reachable_foldl _ _) (by decide)).2 fun _ _ _ _ => nofun⟩

/-- A function that is called has a user, but replacing it by another function of its type touches nothing. -/
theorem replaceAll_calling :
    calling.Reachable ∧ calling.users (.function ⟨0⟩) = [⟨1⟩] ∧
      (replaceAll (.function ⟨0⟩) (.function ⟨1⟩) calling).1 = 0 ∧
      (replaceAll (.function ⟨0⟩) (.function ⟨1⟩) calling).2.users (.function ⟨0⟩) = [⟨1⟩] ∧
      ¬ TakesOver calling (replaceAll (.function ⟨0⟩) (.function ⟨1⟩) calling).2 (.function ⟨0⟩) (.function ⟨1⟩)
        (replaceAll (.function ⟨0⟩) (.function ⟨1⟩) calling).1 :=
  ⟨reachable_foldl _ _, by decide, by decide, by decide, fun h => absurd h.emptied (by decide)⟩

end Program

end ShaderModule

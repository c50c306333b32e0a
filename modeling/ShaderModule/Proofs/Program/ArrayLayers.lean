import Mathlib.Algebra.BigOperators.Group.List.Basic
import ShaderModule.Program.Ty
import ShaderModule.Proofs.Table.Interned

/-!
# Array layers: `strip_arrays`

A type may lie under array layers, each of some length. Taking the layers off gives the type and the product of the
lengths. The product is clamped at every layer, but it comes out as if it were clamped once, however large the lengths
are.
-/

namespace ShaderModule

/-! ## Clamped products -/

/-- A factor may be clamped before it is multiplied: the product is too large all the same, unless it vanishes. -/
theorem min_mul_min (a b bound : Nat) : min (min a bound * b) bound = min (a * b) bound := by
  rcases Nat.eq_zero_or_pos b with rfl | hb
  · simp
  · rcases Nat.le_total a bound with ha | ha
    · rw [Nat.min_eq_left ha]
    · have hbound : bound ≤ bound * b := Nat.le_mul_of_pos_right bound hb
      have hproduct : bound ≤ a * b := Nat.le_trans hbound (Nat.mul_le_mul_right b ha)
      rw [Nat.min_eq_right ha, Nat.min_eq_right hbound, Nat.min_eq_right hproduct]

theorem toNat_clamp64 (n : Nat) : (UInt64.ofNatClamp n).toNat = min n (UInt64.size - 1) := by
  rcases Nat.lt_or_ge n UInt64.size with hn | hn
  · rw [UInt64.toNat_ofNatClamp_of_lt hn]
    omega
  · rw [UInt64.toNat_ofNatClamp_of_le hn]
    omega

theorem toNat_clamp32 (n : Nat) : (UInt32.ofNatClamp n).toNat = min n (UInt32.size - 1) := by
  rcases Nat.lt_or_ge n UInt32.size with hn | hn
  · rw [UInt32.toNat_ofNatClamp_of_lt hn]
    omega
  · rw [UInt32.toNat_ofNatClamp_of_le hn]
    omega

theorem clamp64_mul (a b : Nat) : UInt64.ofNatClamp ((UInt64.ofNatClamp a).toNat * b) = UInt64.ofNatClamp (a * b) := by
  rw [← UInt64.toNat_inj, toNat_clamp64, toNat_clamp64, toNat_clamp64]
  exact min_mul_min a b _

namespace TypeTable

variable {types : TypeTable} {core core' h : Handle .type} {lengths lengths' : List UInt64}

/-! ## Layers -/

/-- A type is a core that is no array, under array layers of these lengths, the outermost one first. -/
inductive Layered (types : TypeTable) (core : Handle .type) : List UInt64 → Handle .type → Prop where
  | core {t : Ty} (ht : types.get? core = some t) (hno : ∀ element length, t ≠ .array element length) :
      Layered types core [] core
  | layer {h element : Handle .type} {length : UInt64} {lengths : List UInt64}
      (hh : types.get? h = some (.array element length)) (hinner : Layered types core lengths element) :
      Layered types core (length :: lengths) h

theorem Layered.issued (h' : types.Layered core lengths h) : (types.get? h).isSome := by
  cases h' with
  | core ht => exact Option.isSome_of_eq_some ht
  | layer hh => exact Option.isSome_of_eq_some hh

/-- A type has its layers and its core only once. -/
theorem Layered.unique (h₁ : types.Layered core lengths h) (h₂ : types.Layered core' lengths' h) :
    core = core' ∧ lengths = lengths' := by
  induction h₁ generalizing lengths' with
  | core ht hno =>
    cases h₂ with
    | core => exact ⟨rfl, rfl⟩
    | layer hh => exact absurd (Option.some.inj (ht.symm.trans hh)) (hno _ _)
  | layer hh _ ih =>
    cases h₂ with
    | core ht hno => exact absurd (Option.some.inj (ht.symm.trans hh)) (hno _ _)
    | layer hh' hinner =>
      cases hh.symm.trans hh'
      obtain ⟨hcore, hlengths⟩ := ih hinner
      exact ⟨hcore, hlengths ▸ rfl⟩

/-- The core and the types of the layers are all different, for they have different numbers of layers. -/
theorem Layered.exists_handles (h' : types.Layered core lengths h) :
    ∃ hs : List (Handle .type), hs.length = lengths.length + 1 ∧ hs.Nodup ∧
      ∀ x ∈ hs, ∃ inner, types.Layered core inner x ∧ inner.length ≤ lengths.length := by
  induction h' with
  | core ht hno =>
    refine ⟨[core], rfl, List.nodup_singleton core, fun x hx => ⟨[], ?_, Nat.zero_le _⟩⟩
    rw [List.mem_singleton.1 hx]
    exact .core ht hno
  | @layer h element length lengths hh hinner ih =>
    obtain ⟨hs, hlength, hnodup, hlayered⟩ := ih
    have hlayer : types.Layered core (length :: lengths) h := .layer hh hinner
    refine ⟨h :: hs, by simp [hlength], List.nodup_cons.2 ⟨fun hmem => ?_, hnodup⟩, fun x hx => ?_⟩
    · obtain ⟨inner, hinner', hle⟩ := hlayered h hmem
      rw [← (hlayer.unique hinner').2] at hle
      exact absurd hle (Nat.not_succ_le_self _)
    · rcases List.mem_cons.1 hx with rfl | hx
      · exact ⟨_, hlayer, Nat.le_refl _⟩
      · obtain ⟨inner, hinner', hle⟩ := hlayered x hx
        exact ⟨inner, hinner', Nat.le_succ_of_le hle⟩

theorem Layered.length_lt (h' : types.Layered core lengths h) : lengths.length < types.entries.length := by
  obtain ⟨hs, hlength, hnodup, hlayered⟩ := h'.exists_handles
  have hissued : ∀ x ∈ hs, (types.get? x).isSome := by
    intro x hx
    obtain ⟨inner, hinner, -⟩ := hlayered x hx
    exact hinner.issued
  have hle := Interned.length_le_of_nodup hnodup hissued
  omega

/-! ## Taking the layers off -/

theorem Layered.peel_eq (h' : types.Layered core lengths h) {depth : Nat} (hdepth : lengths.length ≤ depth)
    (count : UInt64) : types.peel depth h count =
      (core, UInt64.ofNatClamp (count.toNat * (lengths.map UInt64.toNat).prod)) := by
  induction h' generalizing depth count with
  | core ht hno =>
    have hcount : UInt64.ofNatClamp (count.toNat * (List.map UInt64.toNat []).prod) = count := by simp
    rw [hcount]
    cases depth with
    | zero => rfl
    | succ depth =>
      rw [peel]
      split
      · next hh => exact absurd (Option.some.inj (ht.symm.trans hh)) (hno _ _)
      · rfl
  | layer hh _ ih =>
    cases depth with
    | zero => cases hdepth
    | succ depth =>
      rw [peel, hh]
      simp only
      rw [ih (Nat.le_of_succ_le_succ hdepth), clamp64_mul, Nat.mul_assoc, List.map_cons, List.prod_cons]

/-- Taking all layers off gives the core and the product of the lengths, clamped once. -/
theorem Layered.stripArrays_eq (h' : types.Layered core lengths h) :
    types.stripArrays h = (core, UInt64.ofNatClamp (lengths.map UInt64.toNat).prod) := by
  have hpeel := h'.peel_eq (Nat.le_of_lt h'.length_lt) 1
  rwa [UInt64.toNat_one, Nat.one_mul] at hpeel

end TypeTable

end ShaderModule

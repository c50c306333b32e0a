import Mathlib.Data.List.Induction
import ShaderModule.Proofs.Program.DebugRelocation

/-!
# Records indexed once: `append_global_variable` / `replace_global_variable`

An index that is built from debug information lists each record once, and so it stays while records are added
to it. A record that replaces another one can come to stand in the index a second time: that happens if and
only if both are indexed already.
-/

namespace ShaderModule

/-- With one element in the place of another there is still no repetition if and only if it was not in the list
elsewhere. -/
theorem Renewed.nodup_iff {α : Type} {a b : α} {as bs : List α} (h : Renewed [b] a as bs) (hn : as.Nodup) :
    bs.Nodup ↔ (a ∈ as → a = b) := by
  obtain ⟨rest, has, hbs⟩ := h.perm
  obtain ⟨hb, hrest⟩ := List.nodup_cons.1 (has.nodup_iff.1 hn)
  rw [hbs.nodup_iff, List.nodup_cons, has.mem_iff]
  constructor
  · rintro ⟨ha, -⟩ hmem
    exact (List.mem_cons.1 hmem).resolve_right ha
  · intro hsame
    refine ⟨fun ha => ?_, hrest⟩
    exact hb (hsame (List.mem_cons_of_mem b ha) ▸ ha)

namespace DebugIndex

variable {x : DebugIndex} {old new : Handle .debugVariable}

theorem nodup_add (hx : x.records.Nodup) (h : Handle .debugVariable) : (x.add h).records.Nodup := by
  by_cases hh : h ∈ x.records
  · rwa [add, if_pos hh]
  · rw [add_of_not_mem hh]
    exact (renewed_concat h x.records).nodup hx hh

theorem nodup_foldl_add (hx : x.records.Nodup) (hs : List (Handle .debugVariable)) :
    (hs.foldl add x).records.Nodup := by
  induction hs generalizing x with
  | nil => exact hx
  | cons h hs ih => exact ih (nodup_add hx h)

/-- Whatever the units list, and however often, the index lists each record once. -/
theorem nodup_build (d : DebugInfo) : (build d).records.Nodup :=
  nodup_foldl_add (x := ⟨d.unitHandles, []⟩) List.nodup_nil _

theorem replace_of_not_mem (hold : old ∉ x.records) : x.replace old new = x.add new := by
  rw [replace, findIdx?_eq_none_iff.2 hold]

/-! ## Runs of changes -/

/-- A change of the index by its user. -/
inductive Change where
  | add (h : Handle .debugVariable)
  | replace (old new : Handle .debugVariable)
deriving DecidableEq, Repr

namespace Change

def apply (x : DebugIndex) : Change → DebugIndex
  | .add h => x.add h
  | .replace old new => x.replace old new

/-- A record that is indexed already is put in the place of another one. -/
def Repeats (x : DebugIndex) : Change → Prop
  | .add _ => False
  | .replace old new => old ∈ x.records ∧ new ∈ x.records ∧ new ≠ old

/-- Only such a change makes the index list a record twice. -/
theorem nodup_apply_iff (hx : x.records.Nodup) (c : Change) : (c.apply x).records.Nodup ↔ ¬ c.Repeats x := by
  cases c with
  | add h => exact iff_of_true (nodup_add hx h) id
  | replace old new =>
    show (x.replace old new).records.Nodup ↔ ¬ (old ∈ x.records ∧ new ∈ x.records ∧ new ≠ old)
    by_cases hold : old ∈ x.records
    · rw [(renewed_replace hold new).2.nodup_iff hx]
      simp [hold]
    · rw [replace_of_not_mem hold]
      exact iff_of_true (nodup_add hx new) fun h => hold h.1

end Change

/-- Along a run of changes no record is ever listed twice if and only if none of them puts an indexed record in
the place of another one. -/
theorem nodup_changes_iff (d : DebugInfo) (cs : List Change) :
    (∀ pre, pre <+: cs → (pre.foldl Change.apply (build d)).records.Nodup) ↔
      ∀ pre c, pre ++ [c] <+: cs → ¬ c.Repeats (pre.foldl Change.apply (build d)) := by
  constructor
  · intro hnodup pre c hpre
    have hbefore := hnodup pre ((List.prefix_append pre [c]).trans hpre)
    have hafter := hnodup (pre ++ [c]) hpre
    rw [List.foldl_concat] at hafter
    exact (c.nodup_apply_iff hbefore).1 hafter
  · intro hno pre
    induction pre using List.reverseRecOn with
    | nil => exact fun _ => nodup_build d
    | append_singleton pre c ih =>
      intro hpre
      have hbefore := ih ((List.prefix_append pre [c]).trans hpre)
      rw [List.foldl_concat]
      exact (c.nodup_apply_iff hbefore).2 (hno pre c hpre)

end DebugIndex

/-- A unit that lists two records. -/
def DebugInfo.paired : DebugInfo where
  types   := [⟨.basic, "float", "a.hlsl", 0, 32, 32, 0, none, none⟩]
  records := [⟨"a", "a", "a.hlsl", 1, ⟨0⟩, false, true, none⟩, ⟨"b", "b", "a.hlsl", 2, ⟨0⟩, false, true, none⟩]
  units   := [⟨"a.hlsl", "dxc", [⟨0⟩, ⟨1⟩]⟩]

/-- The second record in the place of the first is listed twice. -/
theorem DebugIndex.replace_paired :
    (DebugIndex.build .paired).records = [⟨0⟩, ⟨1⟩] ∧
      ([Change.replace ⟨0⟩ ⟨1⟩].foldl Change.apply (.build .paired)).records = [⟨1⟩, ⟨1⟩] := by decide

end ShaderModule

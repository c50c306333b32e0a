import Mathlib.Data.List.Nodup
import Mathlib.Data.List.Perm.Subperm
import ShaderModule.Table.Interned

/-!
# Exact lookups

The lookup of an interned table is exact if it is the inverse of the entries: no content stands twice, and each one is
looked up under the handle behind which it stands. Interning reads the lookup to decide what is new, so an exact table
stays exact, and in an exact table a content that was entered is found again under its handle, however the table has
grown.
-/

namespace ShaderModule

namespace Interned

variable {kind : Kind} {α : Type} {t u : Interned kind α} {a b : α} {h : Handle kind}

/-- Different handles that a table has issued are no more than its entries. -/
theorem length_le_of_nodup {hs : List (Handle kind)} (hnodup : hs.Nodup)
    (hissued : ∀ h ∈ hs, (t.get? h).isSome) : hs.length ≤ t.entries.length := by
  have hindex : (hs.map Handle.index).Nodup := hnodup.map fun _ _ => Handle.ext_iff.2
  have hsubset : hs.map Handle.index ⊆ List.range t.entries.length := by
    intro i hi
    obtain ⟨h, hh, rfl⟩ := List.mem_map.1 hi
    obtain ⟨a, ha⟩ := Option.isSome_iff_exists.1 (hissued h hh)
    exact List.mem_range.2 (List.getElem?_eq_some_iff.1 ha).1
  simpa using (hindex.subperm hsubset).length_le

/-- Behind the handles stands what stood there before, and behind the new one what is entered. -/
theorem get?_enter_eq_some : (t.enter a).2.get? h = some b ↔ (h = (t.enter a).1 ∧ b = a) ∨ t.get? h = some b := by
  simp only [get?, enter, List.getElem?_append, Handle.ext_iff]
  split
  · next hlt =>
    have hne : h.index ≠ t.entries.length := Nat.ne_of_lt hlt
    simp [hne]
  · next hge =>
    rw [List.getElem?_eq_none (Nat.le_of_not_lt hge), List.getElem?_singleton]
    have hiff : h.index - t.entries.length = 0 ↔ h.index = t.entries.length := by omega
    by_cases heq : h.index = t.entries.length <;> simp [hiff, heq, eq_comm]

variable [DecidableEq α]

/-- The table of some contents, entered one after another. -/
def ofList (as : List α) : Interned kind α := as.foldl (fun t a => (t.intern a).2) empty

/-- The lookup is the inverse of the entries. -/
structure Exact (t : Interned kind α) : Prop where
  nodup : t.entries.Nodup
  keys  : (t.lookup.map Prod.fst).Nodup
  found : ∀ a h, t.find? a = some h ↔ t.get? h = some a

theorem exact_empty : (empty : Interned kind α).Exact where
  nodup := .nil
  keys  := .nil
  found := by simp [find?, get?, empty]

/-- A content that the lookup does not have is no key of it. -/
theorem find?_eq_none_iff : t.find? a = none ↔ a ∉ t.lookup.map Prod.fst := by
  simp only [find?, Option.map_eq_none_iff, List.find?_eq_none, decide_eq_true_eq, List.mem_map, not_exists, not_and]

namespace Exact

/-- A content that is not looked up does not stand in the table. -/
theorem not_mem (ht : t.Exact) (ha : t.find? a = none) : a ∉ t.entries := by
  intro hmem
  obtain ⟨i, hi⟩ := List.mem_iff_getElem?.1 hmem
  have hfound : t.find? a = some ⟨i⟩ := (ht.found a ⟨i⟩).2 hi
  cases ha.symm.trans hfound

/-- Entering what the lookup does not have keeps the lookup exact. -/
theorem enter (ht : t.Exact) (ha : t.find? a = none) : (t.enter a).2.Exact where
  nodup := by
    refine List.nodup_append.2 ⟨ht.nodup, List.nodup_singleton a, ?_⟩
    rintro b hb c hc rfl
    exact ht.not_mem ha (List.mem_singleton.1 hc ▸ hb)
  keys := List.nodup_cons.2 ⟨find?_eq_none_iff.1 ha, ht.keys⟩
  found b h := by
    rw [find?_enter, get?_enter_eq_some, ← ht.found]
    by_cases hab : a = b
    · subst hab
      simp [ha, eq_comm]
    · simp [hab, Ne.symm hab]

/-- So does interning. -/
theorem intern (ht : t.Exact) (a : α) : (t.intern a).2.Exact := by
  unfold Interned.intern
  split
  · exact ht
  · next ha => exact ht.enter ha

end Exact

/-! ## Entering again -/

/-- A content that was entered gets the same handle from an exact table that has grown since. -/
theorem intern_of_isPrefix (hu : u.Exact) (hp : (t.intern a).2.entries <+: u.entries) :
    u.intern a = ((t.intern a).1, u) :=
  intern_of_find? ((hu.found a _).2 (get?_of_isPrefix hp (get?_intern t a)))

end Interned

end ShaderModule

import Mathlib.Order.Defs.Unbundled
import ShaderModule.Handle
import ShaderModule.Table.Ordered

/-!
# Ordered maps stay in order

Every operation on an ordered map keeps its entries in the order of their keys, and entering the
entries of a map one after another gives the map again. What is in the map already is entered
without a change.
-/

namespace ShaderModule

instance Handle.isStrictTotalOrder {kind : Kind} : IsStrictTotalOrder (Handle kind) (· < ·) where
  trichotomous _ _ hab hba := ext_iff.2 (Nat.le_antisymm (Nat.not_lt.1 hba) (Nat.not_lt.1 hab))
  irrefl a := Nat.lt_irrefl a.index
  trans _ _ _ := Nat.lt_trans

namespace Ordered

variable {κ α : Type} [LT κ] {m : Ordered κ α}

theorem sorted_empty : (empty : Ordered κ α).Sorted := .nil

theorem sorted_mapValues (h : m.Sorted) (f : α → α) : (m.mapValues f).Sorted := by
  unfold Sorted mapValues
  rw [List.pairwise_map]
  exact h

variable [DecidableEq κ]

theorem sorted_erase (h : m.Sorted) (k : κ) : (m.erase k).Sorted := List.Pairwise.filter _ h

theorem sorted_modify (h : m.Sorted) (k : κ) (f : α → α) : (m.modify k f).Sorted := by
  unfold Sorted modify
  rw [List.pairwise_map]
  refine h.imp ?_
  intro a b hab
  split <;> split <;> exact hab

/-! ## Values -/

section Values

variable [DecidableLT κ]

theorem map_insertEntry (f : α → α) (k : κ) (a : α) (es : List (κ × α)) :
    (insertEntry k a es).map (fun e => (e.1, f e.2)) =
      insertEntry k (f a) (es.map fun e => (e.1, f e.2)) := by
  induction es with
  | nil => rfl
  | cons e es ih =>
    rw [List.map_cons]
    unfold insertEntry
    split
    · rfl
    · split
      · rfl
      · rw [List.map_cons, ih]

/-- Changing values goes together with entering. -/
theorem mapValues_insert (f : α → α) (m : Ordered κ α) (k : κ) (a : α) :
    (m.insert k a).mapValues f = (m.mapValues f).insert k (f a) :=
  congrArg Ordered.mk (map_insertEntry f k a m.entries)

theorem mapValues_foldl_insert (f : α → α) (es : List (κ × α)) (m : Ordered κ α) :
    (es.foldl (fun m e => m.insert e.1 e.2) m).mapValues f =
      (es.map fun e => (e.1, f e.2)).foldl (fun m e => m.insert e.1 e.2) (m.mapValues f) := by
  induction es generalizing m with
  | nil => rfl
  | cons e es ih => rw [List.foldl_cons, List.map_cons, List.foldl_cons, ih, mapValues_insert]

end Values

section

variable {kind : Kind}

/-- The map of some entries, entered one after another. -/
def ofList (es : List (Handle kind × α)) : Ordered (Handle kind) α :=
  es.foldl (fun m e => m.insert e.1 e.2) .empty

theorem mapValues_ofList (f : α → α) (es : List (Handle kind × α)) :
    (ofList es).mapValues f = ofList (es.map fun e => (e.1, f e.2)) :=
  mapValues_foldl_insert f es .empty

end

/-! ## Entering -/

variable [IsStrictTotalOrder κ (· < ·)]

/-- In an ordered map a key is found with the value that it is listed with. -/
theorem find?_of_mem (h : m.Sorted) {k : κ} {a : α} (hm : (k, a) ∈ m.entries) :
    m.find? k = some a := by
  obtain ⟨es⟩ := m
  induction es with
  | nil => cases hm
  | cons e es ih =>
    obtain ⟨hlt, hes⟩ := List.pairwise_cons.1 h
    rcases List.mem_cons.1 hm with rfl | hm
    · simp [find?]
    · have hne : e.1 ≠ k := by
        rintro rfl
        exact irrefl_of (· < ·) _ (hlt (e.1, a) hm)
      simpa [find?, List.find?_cons, hne] using ih hes hm

variable [DecidableLT κ]

theorem pairwise_insertEntry (k : κ) (a : α) :
    ∀ {es : List (κ × α)}, es.Pairwise (fun a b => a.1 < b.1) →
      (insertEntry k a es).Pairwise fun a b => a.1 < b.1
  | [], _ => List.pairwise_singleton _ _
  | e :: es, h => by
    obtain ⟨he, hes⟩ := List.pairwise_cons.1 h
    unfold insertEntry
    split
    · next hlt =>
      refine List.pairwise_cons.2 ⟨?_, h⟩
      intro x hx
      rcases List.mem_cons.1 hx with rfl | hx
      · exact hlt
      · exact trans_of (· < ·) hlt (he x hx)
    · next hnlt =>
      split
      · next heq =>
        refine List.pairwise_cons.2 ⟨?_, hes⟩
        intro x hx
        rw [← heq]
        exact he x hx
      · next hne =>
        refine List.pairwise_cons.2 ⟨?_, pairwise_insertEntry k a hes⟩
        intro x hx
        rcases mem_insertEntry hx with rfl | hx
        · exact ((trichotomous_of (· < ·) k e.1).resolve_left hnlt).resolve_left (Ne.symm hne)
        · exact he x hx

theorem sorted_insert (h : m.Sorted) (k : κ) (a : α) : (m.insert k a).Sorted :=
  pairwise_insertEntry k a h

/-- An entry whose key comes after all others is entered at the end. -/
theorem insertEntry_of_lt {k : κ} {a : α} :
    ∀ {es : List (κ × α)}, (∀ e ∈ es, e.1 < k) → insertEntry k a es = es ++ [(k, a)]
  | [], _ => rfl
  | e :: es, h => by
    have he : e.1 < k := h e List.mem_cons_self
    have hnlt : ¬ k < e.1 := fun hlt => irrefl_of (· < ·) k (trans_of (· < ·) hlt he)
    have hne : e.1 ≠ k := fun heq => irrefl_of (· < ·) k (heq ▸ he)
    unfold insertEntry
    rw [if_neg hnlt, if_neg hne, insertEntry_of_lt fun x hx => h x (List.mem_cons_of_mem _ hx)]
    rfl

/-- Entering entries in order appends them. -/
theorem foldl_insert :
    ∀ {es : List (κ × α)} {m : Ordered κ α},
      (m.entries ++ es).Pairwise (fun a b => a.1 < b.1) →
      es.foldl (fun m e => m.insert e.1 e.2) m = ⟨m.entries ++ es⟩
  | [], m, _ => by simp
  | e :: es, m, h => by
    have hlast : m.insert e.1 e.2 = ⟨m.entries ++ [e]⟩ := by
      unfold insert
      rw [insertEntry_of_lt]
      intro x hx
      exact (List.pairwise_append.1 h).2.2 x hx e List.mem_cons_self
    rw [List.foldl_cons, hlast, foldl_insert]
    · rw [List.append_assoc]
      rfl
    · rw [List.append_assoc]
      exact h

/-- A map in order is found again by entering its entries. -/
theorem foldl_insert_entries (h : m.Sorted) :
    m.entries.foldl (fun m e => m.insert e.1 e.2) .empty = m :=
  foldl_insert (m := .empty) h

/-! ## What changes nothing -/

theorem insertEntry_of_mem {k : κ} {a : α} :
    ∀ {es : List (κ × α)}, es.Pairwise (fun a b => a.1 < b.1) → (k, a) ∈ es → insertEntry k a es = es
  | e :: es, h, hmem => by
    obtain ⟨he, hes⟩ := List.pairwise_cons.1 h
    unfold insertEntry
    rcases List.mem_cons.1 hmem with rfl | hmem
    · rw [if_neg (irrefl_of (· < ·) k), if_pos rfl]
    · have hlt : e.1 < k := he _ hmem
      have hnlt : ¬ k < e.1 := fun hgt => irrefl_of (· < ·) k (trans_of (· < ·) hgt hlt)
      have hne : e.1 ≠ k := fun heq => irrefl_of (· < ·) k (heq ▸ hlt)
      rw [if_neg hnlt, if_neg hne, insertEntry_of_mem hes hmem]

theorem insertEntry_insertEntry (k : κ) (a b : α) :
    ∀ es : List (κ × α), insertEntry k b (insertEntry k a es) = insertEntry k b es
  | [] => by simp [insertEntry, irrefl_of (· < ·) k]
  | e :: es => by
    by_cases hlt : k < e.1
    · simp [insertEntry, hlt, irrefl_of (· < ·) k]
    · by_cases heq : e.1 = k
      · simp [insertEntry, heq, irrefl_of (· < ·) k]
      · simp [insertEntry, hlt, heq, insertEntry_insertEntry k a b es]

/-- Of two values entered under one key the later one stays. -/
theorem insert_insert (m : Ordered κ α) (k : κ) (a b : α) : (m.insert k a).insert k b = m.insert k b :=
  congrArg Ordered.mk (insertEntry_insertEntry k a b m.entries)

omit [LT κ] [IsStrictTotalOrder κ (· < ·)] [DecidableLT κ] in
theorem mem_entries_of_find? {k : κ} {a : α} (h : m.find? k = some a) : (k, a) ∈ m.entries := by
  obtain ⟨⟨j, b⟩, he, rfl⟩ := Option.map_eq_some_iff.1 h
  have hj : j = k := by simpa using List.find?_some he
  exact hj ▸ List.mem_of_find?_eq_some he

/-- Entering what is there already leaves an ordered map as it is. -/
theorem insert_of_find? (h : m.Sorted) {k : κ} {a : α} (hk : m.find? k = some a) : m.insert k a = m :=
  congrArg Ordered.mk (insertEntry_of_mem h (mem_entries_of_find? hk))

omit [LT κ] [IsStrictTotalOrder κ (· < ·)] [DecidableLT κ] in
/-- Erasing what is not there leaves a map as it is. -/
theorem erase_of_find? {k : κ} (hk : m.find? k = none) : m.erase k = m := by
  simp only [find?, Option.map_eq_none_iff, List.find?_eq_none, decide_eq_true_eq] at hk
  refine congrArg Ordered.mk (List.filter_eq_self.2 ?_)
  intro e he
  simpa using hk e he

end Ordered

end ShaderModule

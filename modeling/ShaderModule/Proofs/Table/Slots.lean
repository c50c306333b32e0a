import Mathlib.Data.List.Sort
import Mathlib.Logic.Relation
import Mathlib.Tactic.Tauto
import ShaderModule.Proofs.Table.Ordered
import ShaderModule.Table.Listed

/-!
# Slots over time

However a table of slots is changed, a handle once issued is not issued again, and the handle of what was
erased finds nothing from then on. The order list that is kept beside the slots, with new handles at its end and
without those of what is erased, goes on listing the handles of what is there in increasing order.
-/

namespace ShaderModule

namespace Slots

variable {kind : Kind} {α : Type} (s : Slots kind α)

@[simp] theorem next_modify (h : Handle kind) (f : α → α) : (s.modify h f).next = s.next := by
  simp [next, modify]

@[simp] theorem next_erase (h : Handle kind) : (s.erase h).next = s.next := by
  simp [next, erase]

@[simp] theorem next_mapAll (f : α → α) : (s.mapAll f).next = s.next := by
  simp [next, mapAll]

theorem next_foldl_erase (hs : List (Handle kind)) : (hs.foldl erase s).next = s.next := by
  induction hs generalizing s with
  | nil => rfl
  | cons h hs ih => simp [ih]

theorem next_push (a : α) : (s.push a).next.index = s.next.index + 1 := by
  simp [next, push]

variable {s}

theorem lt_next_of_get? {h : Handle kind} {a : α} (ha : s.get? h = some a) : h < s.next :=
  lt_next_of_mem_live (mem_live.2 (Option.isSome_of_eq_some ha))

theorem ne_next_of_get? {h : Handle kind} {a : α} (ha : s.get? h = some a) : h ≠ s.next := by
  rintro rfl
  exact Nat.lt_irrefl _ (lt_next_of_get? ha)

/-- What is found after an erasure was there before, under another handle. -/
theorem get?_erase_eq_some {g h : Handle kind} {a : α} :
    (s.erase g).get? h = some a ↔ h ≠ g ∧ s.get? h = some a := by
  by_cases hgh : h = g
  · subst hgh
    simp
  · simp [get?_erase_of_ne hgh, hgh]

/-- Of several erasures only the handles matter. -/
theorem get?_foldl_erase_eq (hs : List (Handle kind)) (s : Slots kind α) (g : Handle kind) :
    (hs.foldl erase s).get? g = if g ∈ hs then none else s.get? g := by
  induction hs generalizing s with
  | nil => simp
  | cons h hs ih =>
    rw [List.foldl_cons, ih]
    by_cases hg : g = h
    · simp [hg]
    · simp [hg, get?_erase_of_ne hg]

/-- Of several erasures, what is found was there before, under none of their handles. -/
theorem get?_foldl_erase {hs : List (Handle kind)} {h : Handle kind} {a : α} :
    (hs.foldl erase s).get? h = some a ↔ h ∉ hs ∧ s.get? h = some a := by
  by_cases hh : h ∈ hs <;> simp [get?_foldl_erase_eq, hh]

/-- What is found after an entry is the new entity or was there before. -/
theorem get?_push_eq_some {h : Handle kind} {a b : α} :
    (s.push a).get? h = some b ↔ (h = s.next ∧ b = a) ∨ s.get? h = some b := by
  by_cases hnext : h = s.next
  · subst hnext
    have hnone : s.get? s.next ≠ some b := fun hb => ne_next_of_get? hb rfl
    simp [hnone, eq_comm]
  · simp [get?_push_of_ne hnext, hnext]

theorem get?_modify_eq_some {g h : Handle kind} {f : α → α} {b : α} :
    (s.modify g f).get? h = some b ↔
      (h ≠ g ∧ s.get? h = some b) ∨ (h = g ∧ ∃ a, s.get? h = some a ∧ f a = b) := by
  rw [get?_modify]
  by_cases hgh : h = g
  · simp [hgh]
  · simp [hgh]

theorem get?_mapAll_eq_some {h : Handle kind} {f : α → α} {b : α} :
    (s.mapAll f).get? h = some b ↔ ∃ a, s.get? h = some a ∧ f a = b := by
  simp

/-! ## Tables as functions -/

section

variable {t : Slots kind α}

/-- A table is known by how many handles it has issued and what is behind them. -/
theorem eq_of_get? (hnext : s.next = t.next) (h : ∀ g, s.get? g = t.get? g) : s = t := by
  obtain ⟨xs⟩ := s
  obtain ⟨ys⟩ := t
  have hlength : xs.length = ys.length := congrArg Handle.index hnext
  congr 1
  refine List.ext_getElem hlength fun i hx hy => ?_
  simpa [get?, hx, hy] using h ⟨i⟩

/-- An entity that is changed right after it was entered might as well have been entered so. -/
theorem modify_push_next (s : Slots kind α) (a : α) (f : α → α) : (s.push a).modify s.next f = s.push (f a) := by
  refine eq_of_get? (Handle.ext_iff.2 (by simp [next_push])) fun h => ?_
  rw [get?_modify]
  by_cases hh : h = s.next
  · simp [hh]
  · simp [hh, get?_push_of_ne hh]

theorem erase_of_get? {h : Handle kind} (hh : s.get? h = none) : s.erase h = s := by
  refine eq_of_get? (next_erase s h) fun g => ?_
  by_cases hg : g = h
  · rw [hg, get?_erase_self, hh]
  · rw [get?_erase_of_ne hg]

end

/-! ## Chains of changes -/

/-- One change of a table. -/
inductive Change : Slots kind α → Slots kind α → Prop where
  | push (s : Slots kind α) (a : α) : Change s (s.push a)
  | erase (s : Slots kind α) (h : Handle kind) : Change s (s.erase h)
  | modify (s : Slots kind α) (h : Handle kind) (f : α → α) : Change s (s.modify h f)
  | mapAll (s : Slots kind α) (f : α → α) : Change s (s.mapAll f)

/-- Any number of changes. -/
abbrev Changes : Slots kind α → Slots kind α → Prop := Relation.ReflTransGen Change

/-- The handle was issued, and its entity has been erased. -/
def Erased (s : Slots kind α) (h : Handle kind) : Prop := h < s.next ∧ s.get? h = none

section

variable {t : Slots kind α} {h : Handle kind}

theorem Changes.foldl_erase (s : Slots kind α) (hs : List (Handle kind)) : s.Changes (hs.foldl Slots.erase s) := by
  induction hs generalizing s with
  | nil => exact .refl
  | cons h hs ih => exact .head (.erase s h) (ih _)

theorem Change.next_le (h : s.Change t) : s.next.index ≤ t.next.index := by
  cases h with
  | push a => simp [next_push]
  | erase | modify | mapAll => simp

theorem Changes.next_le (h : s.Changes t) : s.next.index ≤ t.next.index := by
  induction h with
  | refl => exact Nat.le_refl _
  | tail _ hchange ih => exact Nat.le_trans ih hchange.next_le

/-- Nothing is entered behind a handle that was issued before. -/
theorem Change.erased (hc : s.Change t) (he : s.Erased h) : t.Erased h := by
  refine ⟨Nat.lt_of_lt_of_le he.1 hc.next_le, ?_⟩
  cases hc with
  | push a =>
    have hne : h ≠ s.next := by
      rintro rfl
      exact Nat.lt_irrefl _ he.1
    rw [get?_push_of_ne hne]
    exact he.2
  | erase g =>
    by_cases hg : h = g
    · rw [hg]
      exact s.get?_erase_self g
    · rw [get?_erase_of_ne hg]
      exact he.2
  | modify g f => simp [get?_modify, he.2]
  | mapAll f => simp [he.2]

theorem Changes.erased (hc : s.Changes t) (he : s.Erased h) : t.Erased h := by
  induction hc with
  | refl => exact he
  | tail _ hchange ih => exact hchange.erased ih

/-- What was there has a handle that counts as issued from then on. -/
theorem Changes.lt_next (hc : s.Changes t) (hh : (s.get? h).isSome) : h < t.next :=
  Nat.lt_of_lt_of_le (lt_next_of_mem_live (mem_live.2 hh)) hc.next_le

end

end Slots

/-! ## Order lists -/

namespace Listed

variable {kind : Kind} {α : Type} {s t : Listed kind α} {h : Handle kind}

open Slots

/-- A table is known by how many handles it has issued, what is behind them and its order list. -/
theorem ext_slots (hslots : s.toSlots = t.toSlots) (horder : s.order = t.order) : s = t := by
  obtain ⟨slots, order⟩ := s
  cases hslots
  cases horder
  rfl

/-- An entity that is changed right after it was entered might as well have been entered so. -/
theorem modify_push_next (s : Listed kind α) (a : α) (f : α → α) : (s.push a).modify s.next f = s.push (f a) :=
  ext_slots (Slots.modify_push_next s.toSlots a f) rfl

/-- The table of some entities, entered one after another. -/
def ofList (as : List α) : Listed kind α := as.foldl push empty

/-! ### Erasing what may be gone -/

/-- What erasing the entity behind a handle leaves, if it is still there. -/
def drop (s : Listed kind α) (h : Handle kind) : Listed kind α := if (s.get? h).isSome then s.erase h else s

theorem drop_of_get? {a : α} (hh : s.get? h = some a) : s.drop h = s.erase h := by simp [drop, hh]

theorem drop_of_none (hh : s.get? h = none) : s.drop h = s := by simp [drop, hh]

@[simp] theorem toSlots_drop (s : Listed kind α) (h : Handle kind) : (s.drop h).toSlots = s.toSlots.erase h := by
  cases hh : s.get? h with
  | none => rw [drop_of_none hh, erase_of_get? hh]
  | some a => rw [drop_of_get? hh, toSlots_erase]

theorem toSlots_foldl_drop (hs : List (Handle kind)) (s : Listed kind α) :
    (hs.foldl drop s).toSlots = hs.foldl Slots.erase s.toSlots := by
  induction hs generalizing s with
  | nil => rfl
  | cons h hs ih => rw [List.foldl_cons, ih, toSlots_drop, List.foldl_cons]

/-- Of the handles listed those are taken out that are dropped and still have an entity. -/
theorem order_foldl_drop (hs : List (Handle kind)) (s : Listed kind α) :
    (hs.foldl drop s).order = s.order.filter fun g => g ∉ hs ∨ s.get? g = none := by
  induction hs generalizing s with
  | nil => simp
  | cons h hs ih =>
    rw [List.foldl_cons, ih]
    cases hh : s.get? h with
    | none =>
      rw [drop_of_none hh]
      refine List.filter_congr fun g _ => ?_
      by_cases hg : g = h <;> simp [hg, hh]
    | some a =>
      rw [drop_of_get? hh, erase, List.filter_filter]
      refine List.filter_congr fun g _ => ?_
      by_cases hg : g = h <;> simp [hg, hh, get?_erase_of_ne]

/-! ### Order lists that are right -/

/-- The order list contains the handles of what is there and no others, in increasing order. -/
structure InOrder (s : Listed kind α) : Prop where
  exact  : ∀ h, h ∈ s.order ↔ ∃ a, s.get? h = some a
  sorted : s.order.Pairwise (· < ·)

theorem inOrder_empty : (empty : Listed kind α).InOrder where
  exact _ := by simp [empty, Slots.empty, get?]
  sorted  := .nil

namespace InOrder

variable (hs : s.InOrder)

include hs

theorem mem_iff : h ∈ s.order ↔ (s.get? h).isSome := by rw [hs.exact, Option.isSome_iff_exists]

theorem nodup : s.order.Nodup := by
  refine hs.sorted.imp ?_
  rintro a b hab rfl
  exact Nat.lt_irrefl _ hab

/-- There is one such list only, and what is there decides which. -/
theorem order_congr (ht : t.InOrder) (hsame : ∀ h, (t.get? h).isSome = (s.get? h).isSome) : t.order = s.order :=
  List.Pairwise.eq_of_mem_iff (r := (· < ·)) ht.sorted hs.sorted fun h => by rw [ht.mem_iff, hs.mem_iff, hsame]

/-- It is the list of the handles with an entity, from the first slot to the last. -/
theorem order_eq_live : s.order = s.live :=
  List.Pairwise.eq_of_mem_iff (r := (· < ·)) hs.sorted s.live_sorted fun h => by rw [hs.mem_iff, mem_live]

theorem push (a : α) : (s.push a).InOrder where
  exact h := by
    simp only [Listed.push, get?_push_eq_some, List.mem_append, List.mem_singleton, hs.exact]
    constructor
    · rintro (⟨b, hb⟩ | rfl)
      · exact ⟨b, .inr hb⟩
      · exact ⟨a, .inl ⟨rfl, rfl⟩⟩
    · rintro ⟨b, ⟨rfl, -⟩ | hb⟩
      · exact .inr rfl
      · exact .inl ⟨b, hb⟩
  sorted := by
    refine List.pairwise_append.2 ⟨hs.sorted, List.pairwise_singleton _ _, fun h hh k hk => ?_⟩
    rw [List.mem_singleton.1 hk]
    exact lt_next_of_mem_live (mem_live.2 (hs.mem_iff.1 hh))

theorem erase (g : Handle kind) : (s.erase g).InOrder where
  exact h := by
    simp only [Listed.erase, get?_erase_eq_some, List.mem_filter, decide_eq_true_eq, hs.exact, exists_and_left,
      and_comm]
  sorted := hs.sorted.filter _

theorem drop (g : Handle kind) : (s.drop g).InOrder := by
  unfold Listed.drop
  split
  · exact hs.erase g
  · exact hs

theorem modify (g : Handle kind) (f : α → α) : (s.modify g f).InOrder where
  exact h := by
    rw [order_modify, hs.mem_iff, toSlots_modify, get?_modify, ← Option.isSome_iff_exists]
    split <;> simp
  sorted := hs.sorted

end InOrder

end Listed

end ShaderModule

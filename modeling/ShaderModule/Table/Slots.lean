import ShaderModule.Handle

/-!
# Slots with tombstones

Entities that can be erased live in slots. Erasing leaves an empty slot behind, so a handle that
outlives its entity finds nothing rather than a newer entity.
-/

namespace ShaderModule

/-- A table in which an erased entity leaves its slot empty. -/
structure Slots (kind : Kind) (α : Type) where
  cells : List (Option α)
deriving DecidableEq, Repr

namespace Slots

variable {kind : Kind} {α : Type}

def empty : Slots kind α := ⟨[]⟩

instance : Inhabited (Slots kind α) := ⟨empty⟩

/-- The entity behind a handle; nothing if it was erased or never issued. -/
def get? (s : Slots kind α) (h : Handle kind) : Option α :=
  s.cells[h.index]?.join

/-- The handle that the next entity gets (`from_index`). -/
def next (s : Slots kind α) : Handle kind := ⟨s.cells.length⟩

def push (s : Slots kind α) (a : α) : Slots kind α := ⟨s.cells ++ [some a]⟩

def erase (s : Slots kind α) (h : Handle kind) : Slots kind α := ⟨s.cells.set h.index none⟩

/-- Changes the entity behind a handle, if it is still there. -/
def modify (s : Slots kind α) (h : Handle kind) (f : α → α) : Slots kind α :=
  ⟨s.cells.modify h.index (Option.map f)⟩

/-- Changes every entity. -/
def mapAll (s : Slots kind α) (f : α → α) : Slots kind α := ⟨s.cells.map (Option.map f)⟩

/-- The entities, in the order of their handles. -/
def values (s : Slots kind α) : List α := s.cells.filterMap id

/-- The handles of the entities, in increasing order. -/
def live (s : Slots kind α) : List (Handle kind) :=
  ((List.range s.cells.length).map Handle.mk).filter fun h => (s.get? h).isSome

theorem mem_live {s : Slots kind α} {h : Handle kind} : h ∈ s.live ↔ (s.get? h).isSome := by
  simp only [live, List.mem_filter, List.mem_map, List.mem_range, and_iff_right_iff_imp]
  intro hs
  refine ⟨h.index, ?_, rfl⟩
  rcases Nat.lt_or_ge h.index s.cells.length with hlt | hge
  · exact hlt
  · simp [get?, List.getElem?_eq_none hge] at hs

theorem live_sorted (s : Slots kind α) : s.live.Pairwise (· < ·) := by
  refine List.Pairwise.filter _ ?_
  rw [List.pairwise_map]
  exact List.pairwise_lt_range

theorem nodup_live (s : Slots kind α) : s.live.Nodup := by
  refine s.live_sorted.imp ?_
  intro a b hab heq
  subst heq
  exact Nat.lt_irrefl _ hab

theorem lt_next_of_mem_live {s : Slots kind α} {h : Handle kind} (hm : h ∈ s.live) : h < s.next := by
  simp only [live, List.mem_filter, List.mem_map, List.mem_range] at hm
  obtain ⟨⟨i, hi, rfl⟩, -⟩ := hm
  exact hi

@[simp] theorem get?_push_next (s : Slots kind α) (a : α) : (s.push a).get? s.next = some a := by
  simp [get?, push, next]

theorem get?_push_of_ne {s : Slots kind α} {a : α} {h : Handle kind} (hne : h ≠ s.next) :
    (s.push a).get? h = s.get? h := by
  have hi : h.index ≠ s.cells.length := fun he => hne (Handle.ext_iff.2 he)
  simp only [get?, push]
  rcases Nat.lt_or_gt_of_ne hi with hlt | hgt
  · rw [List.getElem?_append_left hlt]
  · rw [List.getElem?_eq_none (by simp; omega), List.getElem?_eq_none (by omega)]

@[simp] theorem get?_erase_self (s : Slots kind α) (h : Handle kind) :
    (s.erase h).get? h = none := by
  simp only [get?, erase]
  rcases Nat.lt_or_ge h.index s.cells.length with hlt | hge
  · simp [List.getElem?_set_self hlt]
  · rw [List.getElem?_eq_none (by simpa using hge)]; rfl

theorem get?_erase_of_ne {s : Slots kind α} {g h : Handle kind} (hne : h ≠ g) :
    (s.erase g).get? h = s.get? h := by
  have hi : g.index ≠ h.index := fun he => hne (Handle.ext_iff.2 he.symm)
  simp [get?, erase, List.getElem?_set_ne hi]

theorem get?_modify (s : Slots kind α) (g h : Handle kind) (f : α → α) :
    (s.modify g f).get? h = if h = g then (s.get? h).map f else s.get? h := by
  simp only [get?, modify, List.getElem?_modify]
  by_cases hgh : h = g
  · subst hgh
    cases s.cells[h.index]? with
    | none => simp
    | some o => cases o <;> simp
  · have hi : g.index ≠ h.index := fun he => hgh (Handle.ext_iff.2 he.symm)
    simp [hi, hgh]

@[simp] theorem get?_mapAll (s : Slots kind α) (h : Handle kind) (f : α → α) :
    (s.mapAll f).get? h = (s.get? h).map f := by
  simp only [get?, mapAll, List.getElem?_map]
  cases s.cells[h.index]? with
  | none => rfl
  | some o => cases o <;> rfl

end Slots

end ShaderModule

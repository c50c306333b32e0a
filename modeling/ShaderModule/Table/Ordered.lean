/-!
# Ordered maps

Side-tables keyed by a handle or a name are listed in the order of their keys. The map is a list
of entries that insertion keeps sorted, so maps with the same entries are the same map.
-/

namespace ShaderModule

/-- A finite map whose entries stand in the order of their keys. -/
structure Ordered (κ α : Type) where
  entries : List (κ × α)
deriving DecidableEq, Repr

namespace Ordered

variable {κ α : Type}

def empty : Ordered κ α := ⟨[]⟩

instance : Inhabited (Ordered κ α) := ⟨empty⟩

def isEmpty (m : Ordered κ α) : Bool := m.entries.isEmpty

def size (m : Ordered κ α) : Nat := m.entries.length

def keys (m : Ordered κ α) : List κ := m.entries.map Prod.fst

/-- Changes every value and no key. -/
def mapValues (f : α → α) (m : Ordered κ α) : Ordered κ α :=
  ⟨m.entries.map fun e => (e.1, f e.2)⟩

variable [DecidableEq κ]

def find? (m : Ordered κ α) (k : κ) : Option α :=
  (m.entries.find? fun e => decide (e.1 = k)).map Prod.snd

def contains (m : Ordered κ α) (k : κ) : Bool := (m.find? k).isSome

def erase (m : Ordered κ α) (k : κ) : Ordered κ α :=
  ⟨m.entries.filter fun e => decide (e.1 ≠ k)⟩

/-- Changes the value under `k`, if there is one. -/
def modify (m : Ordered κ α) (k : κ) (f : α → α) : Ordered κ α :=
  ⟨m.entries.map fun e => if e.1 = k then (e.1, f e.2) else e⟩

variable [LT κ] [DecidableLT κ]

/-- Puts an entry at the place of its key, over an entry with the same key. -/
def insertEntry (k : κ) (a : α) : List (κ × α) → List (κ × α)
  | [] => [(k, a)]
  | e :: es =>
    if k < e.1 then (k, a) :: e :: es
    else if e.1 = k then (k, a) :: es
    else e :: insertEntry k a es

def insert (m : Ordered κ α) (k : κ) (a : α) : Ordered κ α := ⟨insertEntry k a m.entries⟩

omit [DecidableEq κ] [DecidableLT κ] in
/-- The keys stand in strictly increasing order. -/
def Sorted (m : Ordered κ α) : Prop := m.entries.Pairwise fun a b => a.1 < b.1

theorem mem_insertEntry {k : κ} {a : α} {es : List (κ × α)} {e : κ × α}
    (h : e ∈ insertEntry k a es) : e = (k, a) ∨ e ∈ es := by
  induction es with
  | nil => simpa [insertEntry] using h
  | cons x xs ih =>
    unfold insertEntry at h
    split at h
    · simpa using h
    · split at h
      · rcases List.mem_cons.1 h with h | h
        · exact Or.inl h
        · exact Or.inr (List.mem_cons_of_mem _ h)
      · rcases List.mem_cons.1 h with h | h
        · exact Or.inr (h ▸ List.mem_cons_self)
        · exact (ih h).imp id (List.mem_cons_of_mem _)

/-- Looking a key up after an insertion finds the new value under that key only. -/
theorem find?_insert (m : Ordered κ α) (k j : κ) (a : α) :
    (m.insert k a).find? j = if j = k then some a else m.find? j := by
  obtain ⟨es⟩ := m
  simp only [find?, insert]
  induction es with
  | nil => by_cases h : j = k <;> simp [insertEntry, h, eq_comm]
  | cons x xs ih =>
    unfold insertEntry
    split
    · by_cases h : j = k
      · simp [h]
      · simp [h, Ne.symm h]
    · split
      · next hxk =>
        by_cases h : j = k
        · simp [h]
        · simp [h, Ne.symm h, hxk]
      · next hxk =>
        by_cases hj : x.1 = j
        · have hjk : j ≠ k := fun h => hxk (hj.trans h)
          simp [hj, hjk]
        · simpa [List.find?_cons, hj] using ih

omit [LT κ] [DecidableLT κ] in
/-- A key that was erased is not found, and every other one is found as before. -/
theorem find?_erase (m : Ordered κ α) (k j : κ) :
    (m.erase k).find? j = if j = k then none else m.find? j := by
  obtain ⟨es⟩ := m
  simp only [find?, erase]
  induction es with
  | nil => simp
  | cons x xs ih =>
    by_cases hxk : x.1 = k
    · by_cases hj : j = k
      · simp [hj]
      · have hxj : x.1 ≠ j := fun h => hj (h.symm.trans hxk)
        simpa [hxk, hj, List.find?_cons, hxj, Ne.symm hj] using ih
    · by_cases hxj : x.1 = j
      · have hj : j ≠ k := fun h => hxk (hxj.trans h)
        simp [hxj, hj]
      · simpa [hxk, hxj, List.find?_cons] using ih

end Ordered

end ShaderModule

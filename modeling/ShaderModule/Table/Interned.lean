import ShaderModule.Handle

/-!
# Interned tables

An interned table issues one handle per distinct content. It only grows at its end, so a handle
once issued denotes the same content for ever. Beside the entries it keeps a lookup by content, so
that asking for a content again gives the handle that it already has.
-/

namespace ShaderModule

/-- An append-only table with a lookup of its handles by content (`TypeTable`). Constants and metadata
nodes are kept in the same way. -/
structure Interned (kind : Kind) (α : Type) where
  entries : List α
  /-- The handle of each content that was entered. -/
  lookup  : List (α × Handle kind)
  /-- The lookup leads to entries with the content looked up. -/
  sound   : ∀ e ∈ lookup, entries[e.2.index]? = some e.1
deriving DecidableEq, Repr

namespace Interned

variable {kind : Kind} {α : Type}

def empty : Interned kind α := ⟨[], [], List.forall_mem_nil _⟩

instance : Inhabited (Interned kind α) := ⟨empty⟩

/-- The content behind a handle, if the table has issued it. -/
def get? (t : Interned kind α) (h : Handle kind) : Option α :=
  t.entries[h.index]?

theorem sound_enter (t : Interned kind α) (a : α) :
    ∀ e ∈ (a, Handle.mk t.entries.length) :: t.lookup, (t.entries ++ [a])[e.2.index]? = some e.1 := by
  refine List.forall_mem_cons.2 ⟨by simp, fun e he => ?_⟩
  have hentry := t.sound e he
  rw [List.getElem?_append_left (List.getElem?_eq_some_iff.1 hentry).1, hentry]

/-- Enters a content at the end of the table, and its handle into the lookup. -/
def enter (t : Interned kind α) (a : α) : Handle kind × Interned kind α :=
  (⟨t.entries.length⟩, ⟨t.entries ++ [a], (a, ⟨t.entries.length⟩) :: t.lookup, t.sound_enter a⟩)

/-- A table that grew at its end still has every content where it was. -/
theorem get?_of_isPrefix {t u : Interned kind α} (hp : t.entries <+: u.entries) {h : Handle kind}
    {a : α} (ha : t.get? h = some a) : u.get? h = some a := by
  obtain ⟨rest, hrest⟩ := hp
  have hlt : h.index < t.entries.length := (List.getElem?_eq_some_iff.1 ha).1
  simp only [get?, ← hrest, List.getElem?_append_left hlt]
  exact ha

/-- Without repeated contents, a content has only one handle. -/
theorem handle_unique {t : Interned kind α} (hn : t.entries.Nodup) {g h : Handle kind} {a : α}
    (hg : t.get? g = some a) (hh : t.get? h = some a) : g = h := by
  obtain ⟨hlt, -⟩ := List.getElem?_eq_some_iff.1 hg
  exact Handle.ext_iff.2 ((List.getElem?_inj hlt hn).1 (hg.trans hh.symm))

variable [DecidableEq α]

/-- The handle that the lookup has for a content. -/
def find? (t : Interned kind α) (a : α) : Option (Handle kind) :=
  (t.lookup.find? fun e => decide (e.1 = a)).map Prod.snd

/-- The handle of a content, which is entered if the lookup does not have it (`intern`, `push_metadata`). -/
def intern (t : Interned kind α) (a : α) : Handle kind × Interned kind α :=
  match t.find? a with
  | some h => (h, t)
  | none => t.enter a

theorem get?_of_find? {t : Interned kind α} {a : α} {h : Handle kind} (hf : t.find? a = some h) :
    t.get? h = some a := by
  obtain ⟨e, he, rfl⟩ := Option.map_eq_some_iff.1 hf
  have hkey : e.1 = a := by simpa using List.find?_some he
  exact hkey ▸ t.sound e (List.mem_of_find?_eq_some he)

/-- The handle given out denotes the content asked for. -/
@[simp] theorem get?_intern (t : Interned kind α) (a : α) :
    (t.intern a).2.get? (t.intern a).1 = some a := by
  unfold intern
  split
  · next h hf => exact get?_of_find? hf
  · simp [get?, enter]

/-- The table that interning leaves keeps every entry where it was. -/
theorem entries_isPrefix_intern (t : Interned kind α) (a : α) :
    t.entries <+: (t.intern a).2.entries := by
  unfold intern
  split
  · exact List.prefix_refl _
  · exact List.prefix_append _ _

/-- A content that the lookup has is found again, and nothing is entered. -/
theorem intern_of_find? {t : Interned kind α} {a : α} {h : Handle kind} (hf : t.find? a = some h) :
    t.intern a = (h, t) := by
  simp [intern, hf]

/-- What is entered is found under its handle, and everything else as before. -/
theorem find?_enter (t : Interned kind α) (a b : α) :
    (t.enter a).2.find? b = if a = b then some (t.enter a).1 else t.find? b := by
  by_cases hab : a = b <;> simp [find?, enter, hab]

end Interned

end ShaderModule

/-!
# Numbered enumerations

The fixed vocabularies of a shader (resource kinds, semantics, topologies and so on) are stored as
numbers. A numbered enumeration lists its members, gives each a number and a name, and decodes a
number to the only member that carries it.
-/

namespace ShaderModule

/-- A finite vocabulary whose members are stored as 32-bit numbers. -/
class Numbered (α : Type) where
  /-- Every member, in the order of the numbers. -/
  all : List α
  /-- The number a member is stored as. -/
  code : α → UInt32
  /-- The name of a member. -/
  name : α → String
  mem_all : ∀ a, a ∈ all
  nodup_code : (all.map code).Nodup

namespace Numbered

variable {α : Type} [Numbered α]

/-- The member stored as `n`, if any (`from_u32`). -/
def ofCode? (n : UInt32) : Option α :=
  (all : List α).find? fun a => code a == n

theorem code_injective {a b : α} (h : code a = code b) : a = b := by
  obtain ⟨i, hi, rfl⟩ := List.getElem_of_mem (mem_all a)
  obtain ⟨j, hj, rfl⟩ := List.getElem_of_mem (mem_all b)
  have hi : i < ((all : List α).map code).length := by simpa using hi
  have hj : j < ((all : List α).map code).length := by simpa using hj
  have hij : ((all : List α).map code)[i] = ((all : List α).map code)[j] := by simpa using h
  have : i = j := (List.getElem_inj nodup_code).1 hij
  subst this
  rfl

theorem code_of_ofCode? {n : UInt32} {a : α} (h : ofCode? n = some a) : code a = n := by
  simpa using List.find?_some h

@[simp] theorem ofCode?_code (a : α) : ofCode? (code a) = some a := by
  cases h : (ofCode? (code a) : Option α) with
  | none =>
    have := List.find?_eq_none.1 h a (mem_all a)
    simp at this
  | some b => exact congrArg some (code_injective (code_of_ofCode? h))

end Numbered

end ShaderModule

/-!
# Handles

Every entity of a program lives in a table of its kind and is addressed by its position there.
A handle carries the kind in its type, so that a global cannot be looked up among functions.
-/

namespace ShaderModule

/-- The kinds of entities that are addressed by handles (`define_handle`). -/
inductive Kind where
  | type
  | constant
  | global
  | function
  | inst
  | node
  | debugType
  | debugVariable
  | debugUnit
deriving DecidableEq, Repr

/-- How messages name a handle of the kind. -/
def Kind.label : Kind → String
  | .type => "TypeId"
  | .constant => "ConstId"
  | .global => "GlobalId"
  | .function => "FunctionId"
  | .inst => "InstId"
  | .node => "MdId"
  | .debugType => "DiTypeId"
  | .debugVariable => "DiGlobalVariableId"
  | .debugUnit => "DiCompileUnitId"

/-- The position of an entity in the table of its kind (`define_handle`). -/
structure Handle (kind : Kind) where
  index : Nat
deriving DecidableEq, Repr

namespace Handle

variable {kind : Kind}

instance : Inhabited (Handle kind) := ⟨⟨0⟩⟩

instance : LawfulBEq (Handle kind) := inferInstance

/-- Handles are ordered by position, which is the order of creation. -/
instance : LT (Handle kind) := ⟨fun a b => a.index < b.index⟩

instance : DecidableLT (Handle kind) := fun a b => inferInstanceAs (Decidable (a.index < b.index))

theorem lt_def {a b : Handle kind} : a < b ↔ a.index < b.index := Iff.rfl

theorem ext_iff {a b : Handle kind} : a = b ↔ a.index = b.index := by
  cases a; cases b; simp

/-- The handle as messages show it: the label of its kind around its position. -/
def text (h : Handle kind) : String :=
  kind.label ++ "(" ++ toString h.index ++ ")"

end Handle

end ShaderModule

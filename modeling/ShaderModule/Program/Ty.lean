import ShaderModule.Table.Interned

/-!
# Types

A type refers to its components by handle, and equal types share one handle, so side-tables key on
a type by its handle. In a table that was filled bottom-up the components of a type stand before
the type itself; rendering and the removal of array layers follow the handles downwards.
-/

namespace ShaderModule

/-- Where a pointer points to: ordinary memory, or memory shared by a thread group. -/
inductive AddressSpace where
  | default
  | groupShared
deriving DecidableEq, Repr

/-- The number of an address space in the text of a pointer type (`to_raw`). -/
def AddressSpace.code : AddressSpace → Nat
  | .default => 0
  | .groupShared => 3

/-- One level of a type over the handles of its components (`Type`). -/
inductive Ty where
  | void
  | int (bits : UInt32)
  | float (bits : UInt32)
  | vector (element : Handle .type) (length : UInt32)
  | array (element : Handle .type) (length : UInt64)
  | struct (name : String) (fields : List (Handle .type))
  | pointer (pointee : Handle .type) (space : AddressSpace)
  | function (result : Handle .type) (params : List (Handle .type))
deriving DecidableEq, Repr

namespace Ty

/-- The handles a type refers to. -/
def components : Ty → List (Handle .type)
  | .void | .int _ | .float _ => []
  | .vector element _ | .array element _ => [element]
  | .struct _ fields => fields
  | .pointer pointee _ => [pointee]
  | .function result params => result :: params

/-- The type pointed to (`pointee_type`). -/
def pointee? : Ty → Option (Handle .type)
  | .pointer pointee _ => some pointee
  | _ => none

/-- The result and parameter types of a function type. -/
def signature? : Ty → Option (Handle .type × List (Handle .type))
  | .function result params => some (result, params)
  | _ => none

/-- The name of a named aggregate. -/
def structName? : Ty → Option String
  | .struct name _ => some name
  | _ => none

end Ty

/-- The uniqued types of a program (`TypeTable`). -/
abbrev TypeTable := Interned .type Ty

namespace TypeTable

/-- Every type stands after the types it refers to. -/
def WellFounded (types : TypeTable) : Prop :=
  ∀ (h : Handle .type) (t : Ty), types.get? h = some t → ∀ c ∈ t.components, c < h

/-- The text of a type, descending through at most `depth` levels (`name`). -/
def render (types : TypeTable) : Nat → Handle .type → String
  | 0, _ => ""
  | depth + 1, h =>
    match types.get? h with
    | none => ""
    | some .void => "void"
    | some (.int bits) => "i" ++ toString bits.toNat
    | some (.float bits) =>
      if bits = 16 then "half" else if bits = 32 then "float" else if bits = 64 then "double"
      else "f" ++ toString bits.toNat
    | some (.vector element length) =>
      "<" ++ toString length.toNat ++ " x " ++ render types depth element ++ ">"
    | some (.array element length) =>
      "[" ++ toString length.toNat ++ " x " ++ render types depth element ++ "]"
    | some (.struct name _) => "%" ++ name
    | some (.pointer pointee .default) => render types depth pointee ++ "*"
    | some (.pointer pointee .groupShared) => render types depth pointee ++ " addrspace(3)*"
    | some (.function result params) =>
      render types depth result ++ " (" ++ ", ".intercalate (params.map (render types depth)) ++ ")"

/-- The text of a type, as in `<4 x float>` or `%struct.S addrspace(3)*` (`type_name`). Components stand
before the type, so it has no more levels than types up to itself. -/
def typeText (types : TypeTable) (h : Handle .type) : String := types.render (h.index + 1) h

/-- Peels at most `depth` array layers off a type and multiplies their lengths onto `count`, clamping
at the largest 64-bit number. -/
def peel (types : TypeTable) : Nat → Handle .type → UInt64 → Handle .type × UInt64
  | 0, h, count => (h, count)
  | depth + 1, h, count =>
    match types.get? h with
    | some (.array element length) =>
      peel types depth element (UInt64.ofNatClamp (count.toNat * length.toNat))
    | _ => (h, count)

/-- The type under all array layers, and the number of its elements in all of them together
(`strip_arrays`). Every layer is another type, so there are no more layers than types. -/
def stripArrays (types : TypeTable) (h : Handle .type) : Handle .type × UInt64 :=
  types.peel types.entries.length h 1

end TypeTable

end ShaderModule

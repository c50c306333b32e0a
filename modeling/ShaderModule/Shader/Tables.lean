import ShaderModule.Shader.Annotations
import ShaderModule.Shader.Options
import ShaderModule.Shader.Profile
import ShaderModule.Shader.Props

/-!
# Side-tables

What a shader module knows about its program beyond the program itself.
-/

namespace ShaderModule

/-- The properties of functions, by function. -/
abbrev PropsTable := Ordered (Handle .function) StageProps

/-- The side-tables of a shader module (`HlTables`). -/
structure Tables where
  profile       : Option Profile
  options       : Options
  entry         : Option (Handle .function)
  entryName     : String
  resources     : Registry
  signatures    : Signatures
  rootSignature : List UInt8
  props         : PropsTable
  resourceTypes : ResourceTypes
  types         : TypeSystem
  /-- The recorded globals of group-shared memory, in module order. -/
  shared        : List (Handle .global)
  /-- The globals that are kept even if nothing uses them. -/
  used          : List (Handle .global)
deriving DecidableEq, Repr

namespace Tables

def empty : Tables where
  profile       := none
  options       := .unset
  entry         := none
  entryName     := ""
  resources     := .empty
  signatures    := .empty
  rootSignature := []
  props         := .empty
  resourceTypes := .empty
  types         := .empty
  shared        := []
  used          := []

/-- The tables without a global in the shared and used lists and among the clip planes (`forget_global`). -/
def forgetGlobal (t : Tables) (g : Handle .global) : Tables :=
  { t with
    shared := t.shared.filter (· ≠ g)
    used   := t.used.filter (· ≠ g)
    props  := t.props.mapValues (StageProps.forgetGlobal g) }

/-- The tables without the records bound to one of some globals (`remove_bound_to`). -/
def unbind (t : Tables) (globals : List (Handle .global)) : Tables :=
  { t with resources := t.resources.unbind globals }

/-- The tables without a function (`remove_function`): its properties and annotation, and its place as
entry and as patch-constant function. -/
def forgetFunction (t : Tables) (f : Handle .function) : Tables :=
  { t with
    entry := if t.entry = some f then none else t.entry
    props := (t.props.erase f).mapValues (StageProps.forgetFunction f)
    types := t.types.forgetFunction f }

end Tables

end ShaderModule

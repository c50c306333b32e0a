import ShaderModule.Handle

/-!
# Debug information

Source-level descriptions of globals: types, variable records and compile units that list the
records in declaration order. The index is a snapshot of the listed records, against which
records are looked up by the global they describe.
-/

namespace ShaderModule

/-- What a source-level type is (`DiTypeTag`). -/
inductive DebugTag where
  | basic
  | composite
  | member
deriving DecidableEq, Repr

def DebugTag.name : DebugTag → String
  | .basic => "Basic"
  | .composite => "Composite"
  | .member => "Member"

/-- A source-level type (`DiType`). -/
structure DebugType where
  tag    : DebugTag
  name   : String
  file   : String
  line   : UInt32
  size   : UInt64
  align  : UInt64
  offset : UInt64
  scope  : Option (Handle .debugType)
  /-- The type that a member has. -/
  base   : Option (Handle .debugType)
deriving DecidableEq, Repr

/-- The description that stands for a type that was never entered. -/
def DebugType.unknown : DebugType := ⟨.basic, "", "", 0, 0, 0, 0, none, none⟩

/-- A record that describes a global (`DiGlobalVariable`). -/
structure DebugVariable where
  name         : String
  linkageName  : String
  file         : String
  line         : UInt32
  type         : Handle .debugType
  isLocal      : Bool
  isDefinition : Bool
  /-- The global described; nothing once the global was optimised away. -/
  target       : Option (Handle .global)
deriving DecidableEq, Repr

/-- A compile unit with its records (`DiCompileUnit`). -/
structure DebugUnit where
  file     : String
  producer : String
  /-- The variable records in declaration order. -/
  globals  : List (Handle .debugVariable)
deriving DecidableEq, Repr

/-- All debug information of a program. -/
structure DebugInfo where
  types   : List DebugType
  records : List DebugVariable
  units   : List DebugUnit
deriving DecidableEq, Repr

namespace DebugInfo

def empty : DebugInfo := ⟨[], [], []⟩

def type (d : DebugInfo) (h : Handle .debugType) : DebugType := d.types[h.index]?.getD .unknown

/-- The record behind a handle (`global_variable`). -/
def record? (d : DebugInfo) (h : Handle .debugVariable) : Option DebugVariable :=
  d.records[h.index]?

/-- The records that a unit lists. -/
def listed (d : DebugInfo) (u : Handle .debugUnit) : List (Handle .debugVariable) :=
  (d.units[u.index]?.map DebugUnit.globals).getD []

def unitHandles (d : DebugInfo) : List (Handle .debugUnit) :=
  (List.range d.units.length).map Handle.mk

/-- Enters a compile unit (`add_compile_unit`). -/
def addUnit (d : DebugInfo) (u : DebugUnit) : Handle .debugUnit × DebugInfo :=
  (⟨d.units.length⟩, { d with units := d.units ++ [u] })

/-- Enters a type (`add_type`, `create_member_type`). -/
def addType (d : DebugInfo) (t : DebugType) : Handle .debugType × DebugInfo :=
  (⟨d.types.length⟩, { d with types := d.types ++ [t] })

/-- Enters a variable record that no unit lists yet (`create_global_variable`). -/
def addVariable (d : DebugInfo) (v : DebugVariable) : Handle .debugVariable × DebugInfo :=
  (⟨d.records.length⟩, { d with records := d.records ++ [v] })

/-- Changes the list of one unit. -/
def relist (d : DebugInfo) (u : Handle .debugUnit)
    (f : List (Handle .debugVariable) → List (Handle .debugVariable)) : DebugInfo :=
  { d with units := d.units.modify u.index fun x => { x with globals := f x.globals } }

/-- Enters a variable record at the end of a unit's list (`add_global_variable`). -/
def declare (d : DebugInfo) (u : Handle .debugUnit) (v : DebugVariable) :
    Handle .debugVariable × DebugInfo :=
  let (h, d) := d.addVariable v
  (h, d.relist u (· ++ [h]))

end DebugInfo

/-- The units and the variable records known at the time the index was built, and the records entered since
(`DebugInfoFinder`). -/
structure DebugIndex where
  units   : List (Handle .debugUnit)
  records : List (Handle .debugVariable)
deriving DecidableEq, Repr

namespace DebugIndex

/-- Adds a record, unless it is there already (`append_global_variable`). -/
def add (x : DebugIndex) (h : Handle .debugVariable) : DebugIndex :=
  if h ∈ x.records then x else { x with records := x.records ++ [h] }

/-- Puts `new` in the first place of `old`; if `old` is not indexed, adds `new`
(`replace_global_variable`). -/
def replace (x : DebugIndex) (old new : Handle .debugVariable) : DebugIndex :=
  match x.records.findIdx? fun h => decide (h = old) with
  | some i => { x with records := x.records.set i new }
  | none => x.add new

/-- The index of all records that the units list (`process_module`). -/
def build (d : DebugInfo) : DebugIndex :=
  (d.unitHandles.flatMap d.listed).foldl add ⟨d.unitHandles, []⟩

/-- The first indexed record that describes a global (`find_global_variable_debug_info`). -/
def find? (x : DebugIndex) (d : DebugInfo) (g : Handle .global) : Option (Handle .debugVariable) :=
  x.records.find? fun h => (d.record? h).any fun v => decide (v.target = some g)

end DebugIndex

end ShaderModule

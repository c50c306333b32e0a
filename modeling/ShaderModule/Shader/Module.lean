import ShaderModule.DebugRelocation
import ShaderModule.Precise
import ShaderModule.Record.Load

/-!
# Shader modules

A shader module is a program with its side-tables. The tables are written into the metadata of the
program and read back from there. The index of debug information is built when it is first asked
for and kept from then on.
-/

namespace ShaderModule

/-- The data layout of modules in high-level form (`LEGACY_DATA_LAYOUT`). -/
def legacyDataLayout : String :=
  "e-m:e-p:32:32-i1:32:32-i8:32:32-i16:32:32-i32:32:32-i64:64:64-f16:32:32-f32:32:32-f64:64:64-" ++
    "n8:16:32:64"

/-- A program with its side-tables and the index of its debug records, once it was built (`HlModule`). -/
structure Shader where
  program : Program
  tables  : Tables
  index   : Option DebugIndex
deriving DecidableEq, Repr

/-- An action on a shader module that may fail, leaving the module it had reached. -/
abbrev Act (α : Type) := EStateM ShaderError Shader α

namespace Shader

/-- A module over a program, with empty side-tables (`new`). -/
def ofProgram (p : Program) : Shader := ⟨p, .empty, none⟩

/-- The module as it is found when its program is opened again: only the program is kept. -/
def reopen (s : Shader) : Shader := ofProgram s.program

/-- An edit of the program inside a module. -/
def onProgram {α : Type} (e : Edit ShaderError α) : Act α := fun s =>
  match e s.program with
  | .ok a p => .ok a { s with program := p }
  | .error cause p => .error cause { s with program := p }

/-- An edit of the program that fails for the program's own reasons. -/
def host {α : Type} (e : Edit ProgramError α) : Act α := onProgram (Program.lift e)

/-- A change of the side-tables. -/
def onTables (f : Tables → Tables) : Act Unit := modify fun s => { s with tables := f s.tables }

/-! ## Metadata -/

/-- Writes the side-tables into the metadata of the program (`emit_hl_metadata`). -/
def emit : Act Unit := do
  let t := (← get).tables
  onProgram t.emit

/-- Replaces the side-tables by those in the metadata of the program (`load_hl_metadata`). -/
def load : Act Unit := fun s =>
  match Tables.load s.program with
  | .ok t => .ok () { s with tables := t }
  | .error cause => .error cause s

/-- Takes the metadata of side-tables out of the program (`clear_hl_metadata`). The tables stay. -/
def clear : Act Unit := modify fun s => { s with program := s.program.clearGroups }

/-! ## Debug information -/

/-- The debug index, built now if it was not before (`debug_info_finder`). -/
def debugIndex : Act DebugIndex := fun s =>
  let x := s.index.getD (.build s.program.debug)
  .ok x { s with index := some x }

def setDebugIndex (x : DebugIndex) : Act Unit := modify fun s => { s with index := some x }

/-- Adds a debug record to the index (`append_global_variable`); says whether it is new there. -/
def addDebugRecord (h : Handle .debugVariable) : Act Bool := do
  let x ← debugIndex
  setDebugIndex (x.add h)
  return h ∉ x.records

/-- Puts one debug record in the place of another one in the index (`replace_global_variable`). -/
def replaceDebugRecord (old new : Handle .debugVariable) : Act Unit := do
  let x ← debugIndex
  setDebugIndex (x.replace old new)

/-- The debug record that describes a global (`find_global_variable_debug_info`). -/
def findDebugInfo (g : Handle .global) : Act (Option (Handle .debugVariable)) := do
  let x ← debugIndex
  return x.find? (← get).program.debug g

/-- An action on the program and an index of its debug records, which is kept from then on. -/
def onDebug {α : Type} (x : DebugIndex) (a : DebugAct α) : Act α := fun s =>
  match a (s.program, x) with
  | .ok r (p, x) => .ok r { s with program := p, index := some x }
  | .error cause (p, x) => .error cause { s with program := p, index := some x }

/-- Moves debug information, in the program and in the index (`module_and_finder`). -/
def relocate (move : DebugAct (Handle .debugVariable)) : Act (Handle .debugVariable) := do
  let x ← debugIndex
  onDebug x move

/-- Gives a piece of a global a debug record of its own (`create_element_global_variable_debug_info`). -/
def splitDebugInfo (whole piece : Handle .global) (place : Placement) (suffix : String) :
    Act (Handle .debugVariable) :=
  relocate (Program.splitDebugInfo whole piece place suffix)

/-- Hands the debug record of a global on to its replacement (`update_global_variable_debug_info`). -/
def replaceDebugInfo (old new : Handle .global) : Act (Handle .debugVariable) :=
  relocate (Program.replaceDebugInfo old new)

end Shader

end ShaderModule

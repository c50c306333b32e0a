import ShaderModule.Shader.Error

/-!
# Moving debug information

When a global is split into pieces or replaced by another one, its debug records follow. A piece
gets a record of its own just before the record of the whole; a replacement takes over the record
of what it replaces. The records, the lists of the units and the index are edited one after another, once
all checks have passed.
-/

namespace ShaderModule

/-- Where a piece lies within the whole, in bits (`ElementGeometry`). -/
structure Placement where
  size   : UInt64
  align  : UInt64
  offset : UInt64
deriving DecidableEq, Repr

namespace DebugIndex

/-- The first indexed unit that lists a record, and the position of the record there (`compile_unit_slot`). -/
def slot? (x : DebugIndex) (d : DebugInfo) (h : Handle .debugVariable) :
    Option (Handle .debugUnit × Nat) :=
  x.units.findSome? fun u =>
    ((d.listed u).findIdx? fun k => decide (k = h)).map fun pos => (u, pos)

/-- The record that describes a global, with its contents and where it is listed. -/
def locate (x : DebugIndex) (d : DebugInfo) (g : Handle .global) :
    Except ShaderError (Handle .debugVariable × DebugVariable × Handle .debugUnit × Nat) :=
  match x.find? d g with
  | none => .error (.missingDebugInfo g)
  | some h =>
    match d.record? h, x.slot? d h with
    | some v, some (u, pos) => .ok (h, v, u, pos)
    | none, _ => .error (.missingDebugInfo g)
    | some _, none => .error (.detachedDebugInfo g)

end DebugIndex

/-- An action on a program and the index of its debug records. It may fail, leaving what it had reached. -/
abbrev DebugAct (α : Type) := EStateM ShaderError (Program × DebugIndex) α

namespace DebugAct

/-- Looks for the record that describes a global (`find_global_variable_debug_info`, `compile_unit_slot`). -/
def locate (g : Handle .global) :
    DebugAct (Handle .debugVariable × DebugVariable × Handle .debugUnit × Nat) := fun s =>
  match s.2.locate s.1.debug g with
  | .ok found => .ok found s
  | .error cause => .error cause s

/-- The name of a global (`global_name`). -/
def globalName (g : Handle .global) : DebugAct String := fun s =>
  match s.1.global? g with
  | some x => .ok x.name s
  | none => .error (.program (.unknownGlobal g)) s

/-- Fails unless the global is there. -/
def requireGlobal (g : Handle .global) : DebugAct Unit := fun s =>
  if s.1.hasGlobal g then .ok () s else .error (.program (.unknownGlobal g)) s

/-- Enters something into the debug information of the program. -/
def enter {α : Type} (f : DebugInfo → α × DebugInfo) : DebugAct α := fun s =>
  .ok (f s.1.debug).1 ({ s.1 with debug := (f s.1.debug).2 }, s.2)

/-- Changes the list of one unit. -/
def relist (u : Handle .debugUnit) (f : List (Handle .debugVariable) → List (Handle .debugVariable)) :
    DebugAct Unit := modify fun s => ({ s.1 with debug := s.1.debug.relist u f }, s.2)

/-- Changes the index. -/
def reindex (f : DebugIndex → DebugIndex) : DebugAct Unit := modify fun s => (s.1, f s.2)

end DebugAct

namespace Program

open DebugAct

/-- Gives a piece of a global a debug record: a member of the whole's type, named like the whole with
a suffix, and listed just before it (`create_element_global_variable_debug_info`). -/
def splitDebugInfo (whole piece : Handle .global) (place : Placement) (suffix : String) :
    DebugAct (Handle .debugVariable) := do
  let (_, v, u, pos) ← locate whole
  let name ← globalName piece
  let t := (← get).1.debug.type v.type
  let type ← enter (·.addType
    { tag    := .member
      name   := t.name ++ suffix
      file   := t.file
      line   := t.line
      size   := place.size
      align  := place.align
      offset := place.offset
      scope  := t.scope
      base   := some v.type })
  let h ← enter (·.addVariable
    { name         := v.name ++ suffix
      linkageName  := name
      file         := v.file
      line         := v.line
      type         := type
      isLocal      := false
      isDefinition := true
      target       := some piece })
  relist u fun hs => hs.take pos ++ h :: hs.drop pos
  reindex (·.add h)
  return h

/-- Hands the debug record of a global on to its replacement: a copy that describes the new global takes
the place of the old record in its unit and in the index (`update_global_variable_debug_info`). -/
def replaceDebugInfo (old new : Handle .global) : DebugAct (Handle .debugVariable) := do
  let (r, v, u, pos) ← locate old
  requireGlobal new
  let h ← enter (·.addVariable { v with target := some new })
  relist u fun hs => hs.set pos h
  reindex (·.replace r h)
  return h

end Program

end ShaderModule

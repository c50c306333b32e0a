import ShaderModule.Shader.Module

/-!
# Removing globals and functions

A global or a function that is removed here goes out of the side-tables as well as out of the
program, so that the tables never refer to something that is gone. A global comes into the list of
group-shared memory in module order, and leaves it when it is removed.
-/

namespace ShaderModule

namespace Shader

/-- Forgets a global (`forget_global`) and erases it from the program, if it is still there. -/
def dropGlobal (g : Handle .global) : Act Unit := do
  onTables fun t => t.forgetGlobal g
  if (← get).program.hasGlobal g then
    discard (host (Program.eraseGlobal g))

/-- Removes the records bound to some globals and erases the globals that had one; counts these
(`remove_resources`). -/
def removeResources (globals : List (Handle .global)) : Act Nat := do
  let bound := (← get).tables.resources.boundAmong globals
  onTables fun t => t.unbind globals
  bound.forM dropGlobal
  return bound.length

/-- Takes a global out of every side-table and erases it from the program (`remove_global`). -/
def removeGlobal (g : Handle .global) : Act Unit := do
  onTables fun t => (t.unbind [g]).forgetGlobal g
  discard (host (Program.eraseGlobal g))

/-- Takes a function out of every side-table and erases it from the program (`remove_function`). -/
def removeFunction (f : Handle .function) : Act Unit := do
  onTables fun t => t.forgetFunction f
  discard (host (Program.eraseFunction f))

/-- Records a group-shared global, keeping the list in module order; says whether it is new there
(`add_group_shared_variable`). -/
def addShared (g : Handle .global) : Act Bool := fun s =>
  if !(s.program.global? g).any Global.isShared then .error (.notGroupShared g) s
  else if g ∈ s.tables.shared then .ok false s
  else
    let listed := s.program.globals.order.filter fun h => h = g ∨ h ∈ s.tables.shared
    .ok true { s with tables := { s.tables with shared := listed } }

end Shader

end ShaderModule

import ShaderModule.Record.Annotations
import ShaderModule.Record.Props
import ShaderModule.Record.Resource
import ShaderModule.Record.Signature
import ShaderModule.Shader.Error
import ShaderModule.Shader.Tables

/-!
# Writing side-tables

The side-tables are written into the reserved metadata entries of the program. What the tables refer
to must still be in the program; nothing is written otherwise. A group without records has no
entry.
-/

namespace ShaderModule

def Version.layout : Layout Version :=
  .inOrder "version"
    [(Cell.word "major version").field (·.major) fun x a => { x with major := a },
      (Cell.word "minor version").field (·.minor) fun x a => { x with minor := a }]
    ⟨0, 0⟩

def Options.layout : Layout Options :=
  .inOrder "options" [(Cell.word "options word").field (·.bits) fun x a => { x with bits := a }] .unset

/-- The serialized root signature. -/
def rootSignatureLayout : Layout (List UInt8) :=
  .inOrder "root signature" [(Cell.bytes "serialized root signature").field id fun _ a => a] []

namespace TypeSystem

/-- The structs in one tuple and the functions in another (`emit_type_system`). -/
def write (t : TypeSystem) : Build (List (Handle .node)) := do
  let structs ← t.structs.entries.mapM StructInfo.layout.write
  let functions ← t.functions.entries.mapM FunctionInfo.layout.write
  let structs ← Build.tuple (structs.map some)
  let functions ← Build.tuple (functions.map some)
  return [structs, functions]

end TypeSystem

/-- All annotated types in one tuple, or nothing (`emit_resource_types`). -/
def ResourceTypes.write (t : ResourceTypes) : Build (List (Handle .node)) := do
  let entries ← Ordered.entries t |>.mapM ResourceTypes.layout.write
  return (← Cell.listOperand entries).toList

namespace Tables

variable (t : Tables)

def entryPoint : EntryPoint := ⟨t.entry, t.entryName, t.signatures⟩

/-! ## What is referred to -/

/-- The entities that the tables refer to, each with the group that it is written in (`check_references`). -/
def references : List (Group × Entity) :=
  t.entry.toList.map (fun f => (.entryPoints, .function f)) ++
    t.resources.globals.map (fun g => (.resources, .global g)) ++
    t.props.entries.flatMap (fun e =>
      (e.1 :: e.2.functions).map (fun f => (.functionProps, .function f)) ++
        e.2.globals.map fun g => (.functionProps, .global g)) ++
    t.types.functions.keys.map (fun f => (.annotations, .function f)) ++
    t.used.map fun g => (.used, .global g)

end Tables

/-- Whether an entity is in the program. -/
def Program.has (p : Program) : Entity → Bool
  | .global h => p.hasGlobal h
  | .function h => p.hasFunction h

namespace Tables

variable (t : Tables)

/-- The first reference to something that is not in the program (`check_references`). -/
def dangling? (p : Program) : Option (Group × Entity) :=
  t.references.find? fun r => !p.has r.2

/-! ## Writing -/

/-- Builds the records of every group, in the order in which they are written (`emit`). -/
def build : Build (List (Group × List (Handle .node))) := do
  let version ← Version.layout.write .current
  let profile ← t.profile.toList.mapM Profile.layout.write
  let entryPoint ← EntryPoint.layout.write t.entryPoint
  let resources ← Registry.layout.write t.resources.renumber
  let annotations ← t.types.write
  let props ← t.props.entries.mapM fun e => StageProps.write e.1 e.2
  let options ← Options.layout.write t.options
  let resourceTypes ← t.resourceTypes.write
  let rootSignature ←
    if t.rootSignature.isEmpty then pure []
    else (fun h => [h]) <$> rootSignatureLayout.write t.rootSignature
  let used ← t.used.mapM fun g => Build.value (.global g)
  return [(.version, [version]), (.profile, profile), (.entryPoints, [entryPoint]),
    (.resources, [resources]), (.annotations, annotations), (.functionProps, props),
    (.options, [options]), (.resourceTypes, resourceTypes), (.rootSignature, rootSignature),
    (.used, used)]

/-- Makes a group's operands its entry; a group without operands has none (`push_or_clear`). -/
def setGroup (p : Program) (g : Group × List (Handle .node)) : Program :=
  if g.2.isEmpty then p.removeNamed g.1.name else p.setNamed g.1.name g.2

/-- Writes the side-tables into the program (`emit`). -/
def emit : Edit ShaderError Unit := fun p =>
  match t.dangling? p with
  | some (group, entity) => .error (.dangling group entity) p
  | none =>
    let (groups, q) := t.build p
    .ok () (groups.foldl setGroup q)

end Tables

/-- Takes every reserved entry out of the program (`clear_hl_metadata`). -/
def Program.clearGroups (p : Program) : Program :=
  Group.all.foldl (fun p g => p.removeNamed g.name) p

end ShaderModule

import ShaderModule.Program.Edit
import ShaderModule.Shader.Error

/-!
# Precise values

A value that must not be reassociated is tagged by metadata on the instruction that computes it.
What still lives in memory is marked by a call of a marker function on the pointer, which register
promotion carries over to the stored values; the sweep turns every marker call into tags and
deletes it.
-/

namespace ShaderModule

namespace Precise

/-- The kind under which tags are attached to instructions and markers (`PRECISE_MD_KIND`). -/
def tag : String := "dx.precise"

/-- How the names of the marker functions begin (`PRECISE_MARKER_PREFIX`); the text of the marked type
follows. -/
def markerBeginning : String := "dx.attribute.precise."

variable (p : Program)

/-- Whether an instruction is tagged (`has_precise_attribute_with_metadata`). -/
def isTagged (h : Handle .inst) : Bool := (p.instMetadata? h tag).isSome

/-- Whether a function is tagged itself or holds a tagged instruction (`has_precise_attribute`). -/
def isPrecise (f : Handle .function) : Bool :=
  (p.functionMetadata? f tag).isSome || (p.body f).any (isTagged p)

/-- Whether a function is a marker (`is_precise_marker_function`): declared only, named like a marker, and
tagged. -/
def isMarker (f : Handle .function) : Bool :=
  (p.function? f).any fun x =>
    x.isDeclaration && markerBeginning.toList.isPrefixOf x.name.toList &&
      (x.metadata.find? tag).isSome

/-- The node that tags an instruction: a tuple of the number one. -/
def tagNode : Build (Handle .node) := do
  let one ← Build.value (.constant (← Build.int 32 1))
  Build.tuple [some one]

/-- Tags an instruction (`mark_precise_attribute_with_metadata`). -/
def tagInst (h : Handle .inst) : Edit ProgramError Unit := do
  let node ← tagNode
  Program.setInstMetadata h tag (some node)

/-- Takes the tag of an instruction away (`clear_precise_attribute_with_metadata`). -/
def untagInst (h : Handle .inst) : Edit ProgramError Unit := Program.setInstMetadata h tag none

/-! ## Marking what a pointer points to -/

/-- Tags a function as a marker, unless it has a tag already. -/
def tagMarker (marker : Handle .function) : Edit ProgramError Unit := do
  if ((← get).functionMetadata? marker tag).isNone then
    let kind ← Build.string tag
    let node ← Build.tuple [some kind]
    Program.setFunctionMetadata marker tag (some node)

/-- The marker function for pointers of a type, declared if need be (`marker_function`). It is named after
the type pointed to. -/
def marker (type : Handle .type) : Edit ShaderError (Handle .function) := do
  let p ← get
  let some pointee := p.pointee? type | throw (.notAPointer (p.typeText type))
  let name := markerBeginning ++ p.typeText pointee
  let void ← Build.type .void
  let signature ← Build.type (.function void [type])
  Program.lift do
    let f ← Program.ensureFunction name signature
    tagMarker f
    return f

/-- Whether an instruction stores through a pointer. -/
def storesThrough (ptr : Value) (h : Handle .inst) : Bool :=
  match p.instKind? h with
  | some (.store target _) => target = ptr
  | _ => false

/-- The functions with a store through a pointer, in module order (`storing_functions`). -/
def storingFunctions (ptr : Value) : List (Handle .function) :=
  (((p.users ptr).filter (storesThrough p ptr)).filterMap fun h =>
    (p.inst? h).map Inst.parent).eraseDups

/-- Marks what a pointer points to, by marker calls on the pointer: after the instruction that computes it,
at the start of the function whose argument it is, or at the start of every function that stores through
the global (`mark_precise_attribute_on_ptr_with_function_call`). -/
def markPointer (ptr : Value) : Edit ShaderError (List (Handle .inst)) := do
  let type ← Program.lift (Program.valueType ptr)
  let callee ← marker type
  let call := InstKind.call callee [ptr]
  match ptr with
  | .inst slot => return [← Program.lift (Program.insertAfter slot call)]
  | .argument function _ => return [← Program.lift (Program.insertAt function 0 call)]
  | .global _ =>
    Program.lift ((storingFunctions (← get) ptr).mapM fun f => Program.insertAt f 0 call)
  | .function _ | .constant _ => throw (.notAPointer ((← get).typeText type))

/-! ## The sweep -/

/-- The markers of a program, in module order. -/
def markers : List (Handle .function) := p.functions.order.filter (isMarker p)

/-- The marker calls with their first arguments, in function then program order. -/
def markerCalls : List (Handle .inst × Option Value) :=
  p.code.filterMap fun h =>
    match p.instKind? h with
    | some (.call callee args) => if isMarker p callee then some (h, args.head?) else none
    | _ => none

/-- The instructions that compute the values stored through a pointer (`defining_inst`). -/
def storedInsts (ptr : Value) : List (Handle .inst) :=
  (p.users ptr).filterMap fun h =>
    match p.instKind? h with
    | some (.store target value) => if target = ptr then value.inst? else none
    | _ => none

/-- The instructions that a marker call on a value asks to tag. -/
def targets (arg : Value) : Edit ProgramError (List (Handle .inst)) := do
  let type ← Program.valueType arg
  let p ← get
  return if (p.pointee? type).isSome then storedInsts p arg else arg.inst?.toList

/-- Tags what one marker call asks to tag, and deletes the call: the body of the loop of the sweep. -/
def convertCall (call : Handle .inst) (arg : Option Value) : Edit ProgramError Unit := do
  let hs ← match arg with
    | some v => targets v
    | none => pure []
  hs.forM tagInst
  discard (Program.eraseInst call)

/-- Deletes a marker that nothing uses any more. -/
def dropMarker (f : Handle .function) : Edit ProgramError Unit := do
  if ((← get).users (.function f)).isEmpty then
    discard (Program.eraseFunction f)

/-- Converts every marker call into tags, deletes the calls and the markers left without any, and counts
the calls (`convert_precise_marker_calls`). -/
def sweep : Edit ProgramError Nat := do
  let p ← get
  let calls := markerCalls p
  calls.forM fun (call, arg) => convertCall call arg
  (markers p).forM dropMarker
  return calls.length

end Precise

end ShaderModule

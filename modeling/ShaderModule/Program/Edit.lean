import ShaderModule.Program.Basic

/-!
# Editing a program

Globals, functions and instructions come and go; their handles are never issued again. An edit
that is refused changes no entity: all it may leave behind is a type that was entered while the
result type of an instruction was worked out.
-/

namespace ShaderModule

namespace Program

/-! ## Globals -/

/-- Enters a global at the end of the module (`add_global`). -/
def addGlobal (g : Global) : Build (Handle .global) := fun p =>
  (p.globals.next, { p with globals := p.globals.push g })

/-- Changes a global, if it is there (`global_mut`). -/
def modifyGlobal (h : Handle .global) (f : Global → Global) (p : Program) : Program :=
  { p with globals := p.globals.modify h f }

/-- Erases a global (`erase_global`). What refers to it is left dangling. -/
def eraseGlobal (h : Handle .global) : Edit ProgramError Global := fun p =>
  match p.global? h with
  | some g => .ok g { p with globals := p.globals.erase h }
  | none => .error (.unknownGlobal h) p

/-! ## Functions -/

/-- Declares a function (`add_function`). Its type must be a function type and its name must be new. -/
def addFunction (name : String) (type : Handle .type) : Edit ProgramError (Handle .function) :=
  fun p =>
    if ((p.type? type).bind Ty.signature?).isNone then
      .error (.notAFunctionType (p.typeText type)) p
    else if (p.functionNamed? name).isSome then
      .error (.duplicateFunction name) p
    else
      .ok p.functions.next { p with functions := p.functions.push ⟨name, type, [], .empty⟩ }

/-- The function of that name, declared with `type` if there is none (`get_or_insert_function`). -/
def ensureFunction (name : String) (type : Handle .type) : Edit ProgramError (Handle .function) :=
  fun p =>
    match p.functionNamed? name with
    | some h => .ok h p
    | none => addFunction name type p

/-- Erases a function together with the instructions of its body (`erase_function`). -/
def eraseFunction (h : Handle .function) : Edit ProgramError Function := fun p =>
  match p.function? h with
  | some f =>
    .ok f { p with functions := p.functions.erase h, insts := f.body.foldl Slots.erase p.insts }
  | none => .error (.unknownFunction h) p

/-- Attaches a node to a function under a kind, or takes the attachment away (`set_function_metadata`). -/
def setFunctionMetadata (h : Handle .function) (kind : String) (node : Option (Handle .node)) :
    Edit ProgramError Unit := fun p =>
  if p.hasFunction h then
    .ok () { p with
      functions := p.functions.modify h fun f => { f with metadata := f.metadata.set kind node } }
  else .error (.unknownFunction h) p

/-! ## Types of values -/

/-- The type of a value (`value_type`). A global is a pointer to what it stores, and bytes are an array of
`i8`. -/
def valueType : Value → Edit ProgramError (Handle .type)
  | .inst h => fun p =>
    match p.inst? h with
    | some i => .ok i.type p
    | none => .error (.unknownInst h) p
  | .global h => fun p =>
    match p.global? h with
    | some g => (Build.type (.pointer g.type g.space)).edit p
    | none => .error (.unknownGlobal h) p
  | .function h => fun p =>
    match p.function? h with
    | some f => .ok f.type p
    | none => .error (.unknownFunction h) p
  | .argument h index => fun p =>
    match p.function? h with
    | none => .error (.unknownFunction h) p
    | some f =>
      match (p.type? f.type).bind Ty.signature? with
      | none => .error (.notAFunctionType (p.typeText f.type)) p
      | some (_, params) =>
        match params[index.toNat]? with
        | some t => .ok t p
        | none => .error (.unknownArgument h index) p
  | .constant h => fun p =>
    match p.constant? h with
    | some (.int t _) | some (.float t _) | some (.undef t) | some (.zero t) => .ok t p
    | some (.bytes data) => (Build.bytesType data.length).edit p
    | none => .error (.unknownConstant h) p

/-- The type that a pointer value points to. -/
def pointeeOf (ptr : Value) : Edit ProgramError (Handle .type) := do
  let type ← valueType ptr
  let p ← get
  match p.pointee? type with
  | some t => return t
  | none => throw (.notAPointerType (p.typeText type))

/-- The type of the result of an instruction (`result_type`). A store and a return give `void`, a binary
operation the type of its left operand. -/
def resultType : InstKind → Edit ProgramError (Handle .type)
  | .alloca allocated => Build.type (.pointer allocated .default)
  | .load ptr => pointeeOf ptr
  | .store ptr _ => do
    let _ ← pointeeOf ptr
    Build.type .void
  | .binary _ lhs _ => valueType lhs
  | .call callee args => do
    let p ← get
    let some f := p.function? callee | throw (.unknownFunction callee)
    let some (result, params) := (p.type? f.type).bind Ty.signature?
      | throw (.notAFunctionType (p.typeText f.type))
    if params.length = args.length then return result
    else throw (.argumentCount callee params.length args.length)
  | .ret _ => Build.type .void

/-! ## Instructions -/

/-- Enters a new instruction and lists it at a position of its function's body, or at the end if the
body is shorter. -/
def placeInst (pos : Nat) (i : Inst) : Build (Handle .inst) := fun p =>
  let h := p.insts.next
  (h, { p with
    insts := p.insts.push i
    functions := p.functions.modify i.parent fun f =>
      { f with body := f.body.take pos ++ h :: f.body.drop pos } })

/-- Inserts an instruction at a position of a function (`insert_inst_at`). -/
def insertAt (function : Handle .function) (pos : Nat) (kind : InstKind) :
    Edit ProgramError (Handle .inst) := do
  unless (← get).hasFunction function do throw (.unknownFunction function)
  let type ← resultType kind
  placeInst pos ⟨function, kind, type, .empty⟩

/-- Inserts an instruction at the end of a function (`append_inst`). -/
def append (function : Handle .function) (kind : InstKind) : Edit ProgramError (Handle .inst) := do
  let some f := (← get).function? function | throw (.unknownFunction function)
  insertAt function f.body.length kind

/-- The function of an instruction and its position there (`position_of`). -/
def position? (p : Program) (anchor : Handle .inst) : Option (Handle .function × Nat) := do
  let i ← p.inst? anchor
  let pos ← (p.body i.parent).findIdx? fun h => decide (h = anchor)
  return (i.parent, pos)

/-- Inserts an instruction right after another one (`insert_inst_after`). -/
def insertAfter (anchor : Handle .inst) (kind : InstKind) : Edit ProgramError (Handle .inst) := do
  let some (function, pos) := (← get).position? anchor | throw (.unknownInst anchor)
  insertAt function (pos + 1) kind

/-- Inserts an instruction right before another one (`insert_inst_before`). -/
def insertBefore (anchor : Handle .inst) (kind : InstKind) : Edit ProgramError (Handle .inst) := do
  let some (function, pos) := (← get).position? anchor | throw (.unknownInst anchor)
  insertAt function pos kind

/-- Erases an instruction and takes it out of its function's body (`erase_inst`). -/
def eraseInst (h : Handle .inst) : Edit ProgramError Inst := fun p =>
  match p.inst? h with
  | some i =>
    .ok i { p with
      insts := p.insts.erase h
      functions := p.functions.modify i.parent fun f => { f with body := f.body.filter (· ≠ h) } }
  | none => .error (.unknownInst h) p

/-- Attaches a node to an instruction under a kind, or takes the attachment away (`set_inst_metadata`). -/
def setInstMetadata (h : Handle .inst) (kind : String) (node : Option (Handle .node)) :
    Edit ProgramError Unit := fun p =>
  if p.hasInst h then
    .ok () { p with
      insts := p.insts.modify h fun i => { i with metadata := i.metadata.set kind node } }
  else .error (.unknownInst h) p

/-! ## Uses -/

/-- Whether an instruction has the value as an operand. -/
def uses (p : Program) (v : Value) (h : Handle .inst) : Bool :=
  (p.instKind? h).any fun k => decide (v ∈ k.operands)

/-- The instructions that have the value as an operand, in function then program order (`users`). -/
def users (p : Program) (v : Value) : List (Handle .inst) := p.code.filter (p.uses v)

/-- Puts `new` for `old` in the replaceable operands of every instruction. -/
def replaceUses (p : Program) (old new : Value) : Program :=
  { p with insts := p.insts.mapAll fun i => { i with kind := i.kind.replace old new } }

/-- The number of instructions that replacing a value touches. -/
def replaceCount (p : Program) (old : Value) : Nat :=
  p.insts.values.countP fun i => decide (old ∈ i.kind.replaceable)

/-- Replaces a value wherever replacement reaches it, and counts the instructions touched
(`replace_all_uses_with`). -/
def replaceAll (old new : Value) : Build Nat := fun p => (p.replaceCount old, p.replaceUses old new)

end Program

end ShaderModule

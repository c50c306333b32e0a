import ShaderModule.Table.Interned
import ShaderModule.Table.Listed
import ShaderModule.Table.Ordered
import ShaderModule.Program.Ty
import ShaderModule.Program.Inst
import ShaderModule.Program.Debug
import ShaderModule.Program.Error

/-!
# Programs

A program holds uniqued types, constants and metadata nodes, erasable globals, functions and
instructions, named metadata, and debug information. Two kinds of actions work on it: a `Build`
cannot fail, an `Edit` can. Both are functions from the program before to the program after; a
failed edit says which program it leaves behind.
-/

namespace ShaderModule

/-- A program with everything that its entities refer to (`Module`). -/
structure Program where
  name      : String
  types     : TypeTable
  constants : Interned .constant Constant
  nodes     : Interned .node Node
  globals   : Listed .global Global
  functions : Listed .function Function
  insts     : Slots .inst Inst
  /-- The operand list of each named metadata entry. -/
  named     : Ordered String (List (Handle .node))
  debug     : DebugInfo
deriving DecidableEq, Repr

/-- An action on a program that always succeeds. -/
abbrev Build (α : Type) := StateM Program α

/-- An action on a program that may fail, leaving the program it had reached. -/
abbrev Edit (ε α : Type) := EStateM ε Program α

/-- A build as an edit that succeeds. -/
def Build.edit {ε α : Type} (b : Build α) : Edit ε α := fun p =>
  match b p with
  | (a, q) => .ok a q

instance {ε : Type} : MonadLift Build (Edit ε) := ⟨Build.edit⟩

namespace Program

def empty (name : String) : Program where
  name      := name
  types     := .empty
  constants := .empty
  nodes     := .empty
  globals   := .empty
  functions := .empty
  insts     := .empty
  named     := .empty
  debug     := .empty

variable (p : Program)

/-! ## Looking things up -/

def type? (h : Handle .type) : Option Ty := p.types.get? h

def constant? (h : Handle .constant) : Option Constant := p.constants.get? h

def node? (h : Handle .node) : Option Node := p.nodes.get? h

def global? (h : Handle .global) : Option Global := p.globals.get? h

def function? (h : Handle .function) : Option Function := p.functions.get? h

def inst? (h : Handle .inst) : Option Inst := p.insts.get? h

/-- Whether a global is there and was not erased (`contains_global`). -/
def hasGlobal (h : Handle .global) : Bool := (p.global? h).isSome

/-- Whether a function is there and was not erased (`contains_function`). -/
def hasFunction (h : Handle .function) : Bool := (p.function? h).isSome

/-- Whether an instruction is there and was not erased (`contains_inst`). -/
def hasInst (h : Handle .inst) : Bool := (p.inst? h).isSome

/-- The text of a type (`type_name`). -/
def typeText (h : Handle .type) : String := p.types.typeText h

/-- The type that a pointer type points to (`pointee_type`). -/
def pointee? (h : Handle .type) : Option (Handle .type) := (p.type? h).bind Ty.pointee?

/-- The first global of that name, in module order (`global_by_name`). -/
def globalNamed? (name : String) : Option (Handle .global) :=
  p.globals.order.find? fun h => (p.global? h).any (·.name == name)

/-- The function of that name (`function_by_name`). -/
def functionNamed? (name : String) : Option (Handle .function) :=
  p.functions.order.find? fun h => (p.function? h).any (·.name == name)

/-- The instructions of a function in program order; none for a function that is gone. -/
def body (h : Handle .function) : List (Handle .inst) := ((p.function? h).map Function.body).getD []

/-- The instructions of all functions, function by function. -/
def code : List (Handle .inst) := p.functions.order.flatMap p.body

/-- What an instruction does, if it is still there. -/
def instKind? (h : Handle .inst) : Option InstKind := (p.inst? h).map Inst.kind

/-- What is attached to a function under a kind (`function_metadata`). -/
def functionMetadata? (h : Handle .function) (kind : String) : Option (Handle .node) :=
  (p.function? h).bind fun f => f.metadata.find? kind

/-- What is attached to an instruction under a kind (`inst_metadata`). -/
def instMetadata? (h : Handle .inst) (kind : String) : Option (Handle .node) :=
  (p.inst? h).bind fun i => i.metadata.find? kind

/-- The operands of a named metadata entry (`named_metadata`). -/
def named? (name : String) : Option (List (Handle .node)) := p.named.find? name

end Program

/-! ## Entering uniqued contents -/

namespace Build

/-- The handle of a type (`intern_type`). -/
def type (t : Ty) : Build (Handle .type) := fun p =>
  let r := p.types.intern t
  (r.1, { p with types := r.2 })

/-- The handle of a constant (`constant`). -/
def constant (c : Constant) : Build (Handle .constant) := fun p =>
  let r := p.constants.intern c
  (r.1, { p with constants := r.2 })

/-- The handle of a metadata node (`push_metadata`). -/
def node (n : Node) : Build (Handle .node) := fun p =>
  let r := p.nodes.intern n
  (r.1, { p with nodes := r.2 })

/-- The type of an array of bytes. -/
def bytesType (length : Nat) : Build (Handle .type) := do
  type (.array (← type (.int 8)) (UInt64.ofNat length))

/-- An integer constant of the given width (`const_int`). -/
def int (bits : UInt32) (value : Int64) : Build (Handle .constant) := do
  constant (.int (← type (.int bits)) value)

/-- A truth value as an integer of one bit (`const_bool`). -/
def bool (b : Bool) : Build (Handle .constant) := int 1 (if b then 1 else 0)

/-- A constant of type `float`, kept in double precision (`const_f32`). -/
def single (x : Single) : Build (Handle .constant) := do
  constant (.float (← type (.float 32)) x.widen)

/-- The node of a text (`md_string`). -/
def string (text : String) : Build (Handle .node) := node (.string text)

/-- The node of a reference to a value (`md_value`). -/
def value (v : Value) : Build (Handle .node) := node (.value v)

/-- The node of a tuple (`md_tuple`). -/
def tuple (operands : List Operand) : Build (Handle .node) := node (.tuple operands)

end Build

/-! ## Named metadata -/

namespace Program

/-- Replaces the operand list of an entry, making the entry if need be (`set_named_metadata`). -/
def setNamed (p : Program) (name : String) (operands : List (Handle .node)) : Program :=
  { p with named := p.named.insert name operands }

/-- Adds an operand at the end of an entry, making the entry if need be (`add_named_metadata_operand`). -/
def addNamed (p : Program) (name : String) (operand : Handle .node) : Program :=
  p.setNamed name (((p.named? name).getD []) ++ [operand])

/-- Takes an entry out (`remove_named_metadata`). -/
def removeNamed (p : Program) (name : String) : Program :=
  { p with named := p.named.erase name }

end Program

end ShaderModule

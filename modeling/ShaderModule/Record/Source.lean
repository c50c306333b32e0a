import ShaderModule.Numbered
import ShaderModule.Program.Basic
import ShaderModule.Record.Fault
import ShaderModule.Record.Group

/-!
# Reading operands

The operands of a metadata record are untyped: any of them may be null, dangling or of the wrong
kind. Each reader takes an operand for what its field should hold and reports a fault otherwise.
-/

namespace ShaderModule

/-- What records are read from: a program, at the minor version of its metadata (`Reader`). -/
structure Source where
  program : Program
  minor   : UInt32

namespace Source

variable (s : Source)

def node (h : Handle .node) : Except Fault Node :=
  match s.program.node? h with
  | some n => .ok n
  | none => .error (.danglingNode h)

/-- The operands of a tuple (`tuple`). -/
def operands (h : Handle .node) : Except Fault (List Operand) := do
  match ← s.node h with
  | .tuple ops => return ops
  | _ => throw (.notATuple h)

/-- The operands of a tuple that is left out when it has none (`opt_tuple`). -/
def list : Operand → Except Fault (List Operand)
  | some h => s.operands h
  | none => .ok []

/-- The fields of a record (`record`). Only metadata of a newer minor version may have further fields, and
they are cut off. -/
def record (what : String) (arity : Nat) (h : Handle .node) : Except Fault (List Operand) := do
  let ops ← s.operands h
  if ops.length < arity ∨ arity < ops.length ∧ s.minor ≤ Version.current.minor then
    throw (.fieldCount what ops.length arity)
  return ops.take arity

/-- A node that must be there (`required`). -/
def required (what : String) : Operand → Except Fault Node
  | some h => s.node h
  | none => .error (.null what)

/-- A reference to a value (`value`). -/
def value (what : String) (op : Operand) : Except Fault Value := do
  match ← s.required what op with
  | .value v => return v
  | _ => throw (.unexpected what .value)

/-- A constant (`constant`). -/
def constant (what : String) (op : Operand) : Except Fault Constant := do
  match ← s.value what op with
  | .constant h =>
    match s.program.constant? h with
    | some c => return c
    | none => throw (.unknownConstant what h)
  | _ => throw (.unexpected what .constant)

/-- An integer (`int`). -/
def int (what : String) (op : Operand) : Except Fault Int64 := do
  match (← s.constant what op).int? with
  | some n => return n
  | none => throw (.unexpected what .integer)

/-- The 32-bit word that an integer stands for, if it is in range (`as_u32`). -/
def word? (n : Int64) : Option UInt32 :=
  if 0 ≤ n.toInt ∧ n.toInt.toNat < UInt32.size then some (UInt32.ofNat n.toInt.toNat) else none

/-- A word (`u32`). -/
def word (what : String) (op : Operand) : Except Fault UInt32 := do
  match (← s.constant what op).int?.bind word? with
  | some n => return n
  | none => throw (.unexpected what .word)

/-- A word that may be unset, which is written as minus one (`opt_u32`). -/
def optionalWord (what : String) (op : Operand) : Except Fault (Option UInt32) := do
  let n ← s.int what op
  if n = -1 then return none
  match word? n with
  | some w => return some w
  | none => throw (.outOfRange what n)

/-- A truth value (`bool`). -/
def bool (what : String) (op : Operand) : Except Fault Bool := do
  let n ← s.int what op
  if n = 0 then return false
  else if n = 1 then return true
  else throw (.notABoolean what n)

/-- A single-precision number (`f32`). -/
def single (what : String) (op : Operand) : Except Fault Single := do
  match (← s.constant what op).float? with
  | some x => return x.narrow
  | none => throw (.unexpected what .float)

/-- A member of a numbered enumeration (`enumerated`). -/
def member {α : Type} [Numbered α] (what : String) (op : Operand) : Except Fault α := do
  let n ← s.word what op
  match Numbered.ofCode? n with
  | some a => return a
  | none => throw (.unknownCode what n)

/-- A text (`string`). -/
def string (what : String) (op : Operand) : Except Fault String := do
  match ← s.required what op with
  | .string text => return text
  | _ => throw (.unexpected what .string)

/-- An array of bytes (`bytes`). -/
def bytes (what : String) (op : Operand) : Except Fault (List UInt8) := do
  match ← s.constant what op with
  | .bytes data => return data
  | _ => throw (.unexpected what .bytes)

/-- A global that is still in the program (`global`). -/
def global (what : String) (op : Operand) : Except Fault (Handle .global) := do
  match ← s.value what op with
  | .global h => if s.program.hasGlobal h then return h else throw (.erasedGlobal what h)
  | _ => throw (.unexpected what .global)

/-- A function that is still in the program (`function`). -/
def function (what : String) (op : Operand) : Except Fault (Handle .function) := do
  match ← s.value what op with
  | .function h => if s.program.hasFunction h then return h else throw (.erasedFunction what h)
  | _ => throw (.unexpected what .function)

/-- A type, which is carried as an undefined constant of the type (`ty`). -/
def placeholder (what : String) (op : Operand) : Except Fault (Handle .type) := do
  match ← s.constant what op with
  | .undef type => return type
  | _ => throw (.unexpected what .placeholder)

/-- Reads what an operand holds unless it is null (`opt_string`, `opt_global`, `opt_function`). -/
def optional {α : Type} (read : Operand → Except Fault α) : Operand → Except Fault (Option α)
  | none => .ok none
  | some h => some <$> read (some h)

end Source

end ShaderModule

import ShaderModule.Program.Value
import ShaderModule.Program.Ty
import ShaderModule.Table.Ordered

/-!
# Instructions, functions and globals

A function is one straight list of instructions. Every operand position of an instruction counts
as a use; all of them except the callee of a call can be replaced.
-/

namespace ShaderModule

inductive BinaryOp where
  | add | sub | mul | fadd | fsub | fmul | fdiv
deriving DecidableEq, Repr

inductive InstKind where
  | alloca (allocated : Handle .type)
  | load (ptr : Value)
  | store (ptr value : Value)
  | binary (op : BinaryOp) (lhs rhs : Value)
  | call (callee : Handle .function) (args : List Value)
  | ret (value : Option Value)
deriving DecidableEq, Repr

namespace InstKind

/-- The operands in order; the callee of a call comes first (`operands`). -/
def operands : InstKind → List Value
  | .alloca _ => []
  | .load ptr => [ptr]
  | .store ptr value => [ptr, value]
  | .binary _ lhs rhs => [lhs, rhs]
  | .call callee args => .function callee :: args
  | .ret value => value.toList

/-- The operands that replacement reaches: all but the callee. -/
def replaceable : InstKind → List Value
  | .call _ args => args
  | k => k.operands

/-- Applies `f` to every replaceable operand. -/
def mapOperands (f : Value → Value) : InstKind → InstKind
  | .alloca allocated => .alloca allocated
  | .load ptr => .load (f ptr)
  | .store ptr value => .store (f ptr) (f value)
  | .binary op lhs rhs => .binary op (f lhs) (f rhs)
  | .call callee args => .call callee (args.map f)
  | .ret value => .ret (value.map f)

theorem replaceable_mapOperands (f : Value → Value) (k : InstKind) :
    (k.mapOperands f).replaceable = k.replaceable.map f := by
  cases k with
  | ret value => cases value <;> rfl
  | _ => rfl

/-- Puts `new` for `old` wherever replacement reaches it (`replace_operand`). -/
def replace (old new : Value) : InstKind → InstKind :=
  mapOperands fun v => if v = old then new else v

end InstKind

/-- Metadata attached to an entity, one node for each kind of attachment. -/
abbrev Attachments := Ordered String (Handle .node)

/-- Attaches a node under a kind, or takes the attachment away. -/
def Attachments.set (a : Attachments) (kind : String) : Option (Handle .node) → Attachments
  | some node => Ordered.insert a kind node
  | none => Ordered.erase a kind

/-- An instruction in the body of a function (`Instruction`). -/
structure Inst where
  parent   : Handle .function
  kind     : InstKind
  /-- The type of the result; `void` where there is none. -/
  type     : Handle .type
  metadata : Attachments
deriving DecidableEq, Repr

structure Function where
  name     : String
  type     : Handle .type
  /-- The instructions in program order. -/
  body     : List (Handle .inst)
  metadata : Attachments
deriving DecidableEq, Repr

/-- A function without a body is only declared (`is_declaration`). -/
def Function.isDeclaration (f : Function) : Bool := f.body.isEmpty

inductive Linkage where
  | external
  | internal
deriving DecidableEq, Repr

/-- A global variable (`GlobalVariable`). -/
structure Global where
  name        : String
  /-- The type of the stored value; the global itself is a pointer to it. -/
  type        : Handle .type
  space       : AddressSpace
  linkage     : Linkage
  isConstant  : Bool
  initializer : Option (Handle .constant)
deriving DecidableEq, Repr

namespace Global

/-- Storage private to the module, in ordinary memory (`is_static_global`). -/
def isStatic (g : Global) : Bool := g.linkage == .internal && g.space == .default

/-- Storage shared by a thread group (`is_shared_memory_global`). -/
def isShared (g : Global) : Bool := g.space == .groupShared

end Global

end ShaderModule

import ShaderModule.Handle
import ShaderModule.Floating

/-!
# Constants, values and metadata nodes

Constants and metadata nodes are uniqued by content. A metadata node is a string, a reference to a
value, or a tuple whose operands may be null.
-/

namespace ShaderModule

/-- A uniqued constant. -/
inductive Constant where
  | int (type : Handle .type) (value : Int64)
  | float (type : Handle .type) (value : Double)
  /-- An array of bytes, for data that is carried without being looked into. -/
  | bytes (data : List UInt8)
  | undef (type : Handle .type)
  | zero (type : Handle .type)
deriving DecidableEq, Repr

namespace Constant

/-- The number of an integer constant (`as_int`). -/
def int? : Constant → Option Int64
  | .int _ value => some value
  | _ => none

/-- The number of a floating-point constant (`as_f64`). -/
def float? : Constant → Option Double
  | .float _ value => some value
  | _ => none

end Constant

/-- What an instruction or a metadata node may refer to. -/
inductive Value where
  | inst (h : Handle .inst)
  | global (h : Handle .global)
  | function (h : Handle .function)
  | argument (function : Handle .function) (index : UInt32)
  | constant (h : Handle .constant)
deriving DecidableEq, Repr

/-- The instruction that computes a value, if one does. -/
def Value.inst? : Value → Option (Handle .inst)
  | .inst h => some h
  | _ => none

/-- An operand of a metadata tuple; null is how an absent part is written. -/
abbrev Operand := Option (Handle .node)

/-- A metadata node (`Metadata`). -/
inductive Node where
  | string (text : String)
  | value (v : Value)
  | tuple (operands : List Operand)
deriving DecidableEq, Repr

end ShaderModule

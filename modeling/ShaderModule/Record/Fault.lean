import ShaderModule.Handle
import ShaderModule.Hex

/-!
# Faults in metadata

Why a record cannot be read. Each fault names the field it was found in.
-/

namespace ShaderModule

/-- What a field may be required to be. -/
inductive Expected where
  | value
  | constant
  | integer
  | word
  | float
  | string
  | bytes
  | global
  | function
  | placeholder
deriving DecidableEq, Repr

def Expected.phrase : Expected → String
  | .value => "a value reference"
  | .constant => "a constant"
  | .integer => "an integer"
  | .word => "a 32-bit unsigned integer"
  | .float => "a float"
  | .string => "a string"
  | .bytes => "a byte array"
  | .global => "a global"
  | .function => "a function"
  | .placeholder => "a type placeholder"

/-- What is wrong with a record (`malformed`). -/
inductive Fault where
  | danglingNode (node : Handle .node)
  | notATuple (node : Handle .node)
  /-- Something that must be there is null. -/
  | null (what : String)
  /-- Several things that must be there are null. -/
  | nulls (what : String)
  | fieldCount (what : String) (found expected : Nat)
  /-- A record is asked for a field that it does not have. -/
  | noField (what : String) (position : Nat)
  | unexpected (what : String) (expected : Expected)
  | unknownConstant (what : String) (constant : Handle .constant)
  | outOfRange (what : String) (value : Int64)
  | notABoolean (what : String) (value : Int64)
  | unknownCode (what : String) (code : UInt32)
  | erasedGlobal (what : String) (global : Handle .global)
  | erasedFunction (what : String) (function : Handle .function)
  | unknownStage (abbreviation : String)
  /-- A record of a list carries another id than its position. -/
  | wrongId (list : String) (position : Nat) (id : UInt32)
  /-- An element of a signature carries another id than its position. -/
  | outOfOrder (signature : String) (id : UInt32)
  | noHeader
  | reservedOptions (bits : UInt32)
  | noVersion
  | operandCount (expected found : Nat)
  | notOneOperand (found : Nat)
  | versionFields (found : Nat)
deriving DecidableEq, Repr

/-- What is told of a fault to people. -/
def Fault.reason : Fault → String
  | .danglingNode node => "dangling node " ++ node.text
  | .notATuple node => node.text ++ " is not a tuple"
  | .null what => what ++ " is null"
  | .nulls what => what ++ " are null"
  | .fieldCount what found expected =>
    what ++ " has " ++ toString found ++ " fields, expected " ++ toString expected
  | .noField what position => what ++ " has no field at position " ++ toString position
  | .unexpected what expected => what ++ " is not " ++ expected.phrase
  | .unknownConstant what constant => what ++ " refers to unknown " ++ constant.text
  | .outOfRange what value => what ++ " is out of range: " ++ toString value.toInt
  | .notABoolean what value => what ++ " is not a boolean: " ++ toString value.toInt
  | .unknownCode what code => what ++ " has unknown value " ++ toString code.toNat
  | .erasedGlobal what global => what ++ " refers to erased " ++ global.text
  | .erasedFunction what function => what ++ " refers to erased " ++ function.text
  | .unknownStage abbreviation => "unknown shader kind `" ++ abbreviation ++ "`"
  | .wrongId list position id =>
    list ++ " record at position " ++ toString position ++ " carries id " ++ toString id.toNat
  | .outOfOrder signature id =>
    signature ++ " signature element " ++ toString id.toNat ++ " out of order"
  | .noHeader => "function properties record without a header"
  | .reservedOptions bits => "reserved option bits in 0x" ++ Hex.ofNat bits.toNat
  | .noVersion => "module carries no HL metadata version"
  | .operandCount expected found =>
    "expected " ++ toString expected ++ " operands, found " ++ toString found
  | .notOneOperand found => "expected one operand, found " ++ toString found
  | .versionFields found => "expected 2 fields, found " ++ toString found

end ShaderModule

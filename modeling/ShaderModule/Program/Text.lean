import ShaderModule.Hex
import ShaderModule.Program.Basic

/-!
# Text of constants, values and instructions
-/

namespace ShaderModule

def BinaryOp.name : BinaryOp → String
  | .add => "Add"
  | .sub => "Sub"
  | .mul => "Mul"
  | .fadd => "FAdd"
  | .fsub => "FSub"
  | .fmul => "FMul"
  | .fdiv => "FDiv"

namespace Program

variable (p : Program)

def constantText (h : Handle .constant) : String :=
  match p.constant? h with
  | some (.int type value) => p.typeText type ++ " " ++ toString value.toInt
  | some (.float type value) => p.typeText type ++ " 0x" ++ Hex.padded 16 value.bits.toNat
  | some (.bytes data) => "bytes " ++ Hex.ofBytes data
  | some (.undef type) => "undef " ++ p.typeText type
  | some (.zero type) => "zero " ++ p.typeText type
  | none => "?"

def valueText : Value → String
  | .inst h => "%" ++ toString h.index
  | .global h => "@" ++ toString h.index
  | .function h => "fn" ++ toString h.index
  | .argument f index => "arg(" ++ toString f.index ++ "," ++ toString index.toNat ++ ")"
  | .constant h => p.constantText h

/-- A word and its operands, separated by commas. -/
def kindText : InstKind → String
  | .alloca type => "alloca " ++ p.typeText type
  | .load ptr => line "load" [ptr]
  | .store ptr value => line "store" [ptr, value]
  | .binary op lhs rhs => line op.name [lhs, rhs]
  | .call callee args => line "call" (.function callee :: args)
  | .ret none => "ret"
  | .ret (some value) => line "ret" [value]
where
  line (word : String) (operands : List Value) : String :=
    word ++ " " ++ ", ".intercalate (operands.map p.valueText)

/-- An instruction with its number and the type of its result, and the mark if it has metadata of the
given kind. -/
def instText? (kind mark : String) (h : Handle .inst) : Option String :=
  (p.inst? h).map fun i =>
    "%" ++ toString h.index ++ " = " ++ p.kindText i.kind ++ " : " ++ p.typeText i.type ++
      (if (i.metadata.find? kind).isSome then mark else "")

end Program

end ShaderModule

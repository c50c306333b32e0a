import ShaderModule.Handle

/-!
# Failures of program edits
-/

namespace ShaderModule

/-- Why an edit of a program was refused (`IrError`). -/
inductive ProgramError where
  | unknownGlobal (h : Handle .global)
  | unknownFunction (h : Handle .function)
  | unknownInst (h : Handle .inst)
  | unknownConstant (h : Handle .constant)
  | duplicateFunction (name : String)
  | notAFunctionType (type : String)
  | notAPointerType (type : String)
  | unknownArgument (function : Handle .function) (index : UInt32)
  | argumentCount (callee : Handle .function) (expected actual : Nat)
deriving DecidableEq, Repr

/-- The name of the cause, by which callers tell failures apart. -/
def ProgramError.kind : ProgramError → String
  | .unknownGlobal _ => "UnknownGlobal"
  | .unknownFunction _ => "UnknownFunction"
  | .unknownInst _ => "UnknownInstruction"
  | .unknownConstant _ => "UnknownConstant"
  | .duplicateFunction _ => "DuplicateFunction"
  | .notAFunctionType _ => "NotAFunctionType"
  | .notAPointerType _ => "NotAPointerType"
  | .unknownArgument _ _ => "UnknownArgument"
  | .argumentCount _ _ _ => "ArgumentCount"

/-- What is told to people. -/
def ProgramError.message : ProgramError → String
  | .unknownGlobal h => "unknown or erased global " ++ h.text
  | .unknownFunction h => "unknown or erased function " ++ h.text
  | .unknownInst h => "unknown or erased instruction " ++ h.text
  | .unknownConstant h => "unknown constant " ++ h.text
  | .duplicateFunction name => "function `" ++ name ++ "` already exists"
  | .notAFunctionType type => "type `" ++ type ++ "` is not a function type"
  | .notAPointerType type => "type `" ++ type ++ "` is not a pointer type"
  | .unknownArgument function index =>
    "argument " ++ toString index.toNat ++ " is out of range for " ++ function.text
  | .argumentCount callee expected actual =>
    "call to " ++ callee.text ++ " expects " ++ toString expected ++ " arguments, got " ++
      toString actual

end ShaderModule

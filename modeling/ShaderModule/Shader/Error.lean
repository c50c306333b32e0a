import ShaderModule.Hex
import ShaderModule.Program.Basic
import ShaderModule.Record.Fault
import ShaderModule.Record.Group
import ShaderModule.Shader.Resource

/-!
# Failures of shader modules
-/

namespace ShaderModule

/-- Something that a side-table refers to. -/
inductive Entity where
  | global (h : Handle .global)
  | function (h : Handle .function)
deriving DecidableEq, Repr

def Entity.text : Entity → String
  | .global h => h.text
  | .function h => h.text

/-- Why an operation on a shader module was refused (`HlError`). -/
inductive ShaderError where
  | indexOutOfRange (cls : ResourceClass) (index : UInt32) (length : Nat)
  | missingProps (function : Handle .function)
  | missingDebugInfo (global : Handle .global)
  | detachedDebugInfo (global : Handle .global)
  | malformed (group : Group) (fault : Fault)
  | unsupportedVersion (version : Version)
  | dangling (group : Group) (entity : Entity)
  | invalidProfile (text : String)
  | reservedOptions (bits : UInt32)
  | notGroupShared (global : Handle .global)
  | notAPointer (type : String)
  | program (cause : ProgramError)
deriving DecidableEq, Repr

namespace ShaderError

/-- The name of the cause, by which callers tell failures apart. -/
def kind : ShaderError → String
  | .indexOutOfRange _ _ _ => "ResourceIndexOutOfRange"
  | .missingProps _ => "MissingFunctionProps"
  | .missingDebugInfo _ => "MissingDebugInfo"
  | .detachedDebugInfo _ => "DetachedDebugInfo"
  | .malformed _ _ => "MalformedMetadata"
  | .unsupportedVersion _ => "UnsupportedVersion"
  | .dangling _ _ => "DanglingReference"
  | .invalidProfile _ => "InvalidShaderModel"
  | .reservedOptions _ => "ReservedOptionBits"
  | .notGroupShared _ => "NotGroupShared"
  | .notAPointer _ => "NotAPointer"
  | .program cause => "Ir." ++ cause.kind

/-- What is told to people. -/
def message : ShaderError → String
  | .indexOutOfRange cls index length =>
    Numbered.name cls ++ " index " ++ toString index.toNat ++ " is out of range (collection holds " ++
      toString length ++ " records)"
  | .missingProps function => "function " ++ function.text ++ " has no shader-stage properties"
  | .missingDebugInfo global => "global " ++ global.text ++ " has no debug info"
  | .detachedDebugInfo global =>
    "debug info for global " ++ global.text ++ " is not listed by any compile unit"
  | .malformed group fault => "malformed `" ++ group.name ++ "` metadata: " ++ fault.reason
  | .unsupportedVersion version =>
    "unsupported HL metadata version " ++ toString version.major.toNat ++ "." ++
      toString version.minor.toNat ++ " (this codec reads major version " ++
      toString Version.current.major.toNat ++ ")"
  | .dangling group entity =>
    "`" ++ group.name ++ "` refers to " ++ entity.text ++ ", which is no longer in the module"
  | .invalidProfile text => "invalid shader model `" ++ text ++ "`"
  | .reservedOptions bits => "option bits 0x" ++ Hex.ofNat bits.toNat ++ " are reserved"
  | .notGroupShared global => "global " ++ global.text ++ " is not in group-shared memory"
  | .notAPointer type => "precise marker target has non-pointer type `" ++ type ++ "`"
  | .program cause => cause.message

/-- Whether the error is a rejection of the metadata of a module (`is_malformed_metadata`). -/
def rejectsMetadata : ShaderError → Bool
  | .malformed _ _ | .unsupportedVersion _ => true
  | _ => false

end ShaderError

/-- An edit of a program as a step of an operation on the shader module around it. -/
def Program.lift {α : Type} (e : Edit ProgramError α) : Edit ShaderError α :=
  EStateM.adaptExcept .program e

end ShaderModule

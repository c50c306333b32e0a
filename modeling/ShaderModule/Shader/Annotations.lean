import ShaderModule.Shader.Signature
import ShaderModule.Table.Ordered

/-!
# Annotations of types and functions

What the source says about a type or a function beyond its shape: the resource that a type stands
for, the names and offsets of the fields of a struct, how a function's parameters are passed.
-/

namespace ShaderModule

/-- How a function parameter is passed (`InputQualifier`). -/
inductive Qualifier where
  | inward
  | outward
  | inOut
  | inputPatch
  | outputPatch
  | outStream0
  | outStream1
  | outStream2
  | outStream3
  | inputPrimitive
deriving DecidableEq, Repr

instance : Numbered Qualifier where
  all := [.inward, .outward, .inOut, .inputPatch, .outputPatch, .outStream0, .outStream1,
    .outStream2, .outStream3, .inputPrimitive]
  code a := UInt32.ofNat a.ctorIdx
  name
    | .inward => "In"
    | .outward => "Out"
    | .inOut => "InOut"
    | .inputPatch => "InputPatch"
    | .outputPatch => "OutputPatch"
    | .outStream0 => "OutStream0"
    | .outStream1 => "OutStream1"
    | .outStream2 => "OutStream2"
    | .outStream3 => "OutStream3"
    | .inputPrimitive => "InputPrimitive"
  mem_all a := by cases a <;> decide
  nodup_code := by decide

/-- How a matrix is packed into registers (`MatrixOrientation`). -/
inductive Orientation where
  | undefined
  | rowMajor
  | columnMajor
deriving DecidableEq, Repr

instance : Numbered Orientation where
  all := [.undefined, .rowMajor, .columnMajor]
  code a := UInt32.ofNat a.ctorIdx
  name
    | .undefined => "Undefined"
    | .rowMajor => "RowMajor"
    | .columnMajor => "ColumnMajor"
  mem_all a := by cases a <;> decide
  nodup_code := by decide

/-- The annotation of a field (`FieldAnnotation`). -/
structure FieldInfo where
  name        : String
  offset      : UInt32
  component   : ComponentType
  orientation : Orientation
  semantic    : Option String
  precise     : Bool
deriving DecidableEq, Repr

/-- The annotation of a struct (`StructAnnotation`). -/
structure StructInfo where
  fields : List FieldInfo
  size   : UInt32
deriving DecidableEq, Repr

/-- The annotation of a parameter or of a result (`ParameterAnnotation`). -/
structure ParamInfo where
  qualifier     : Qualifier
  semantic      : Option String
  interpolation : Interpolation
  precise       : Bool
  orientation   : Orientation
deriving DecidableEq, Repr

/-- The annotation of a parameter about which nothing is said. -/
def ParamInfo.plain : ParamInfo := ⟨.inward, none, .undefined, false, .undefined⟩

/-- The annotation of a function (`FunctionAnnotation`). -/
structure FunctionInfo where
  result : ParamInfo
  params : List ParamInfo
deriving DecidableEq, Repr

/-- The annotated structs and functions. -/
structure TypeSystem where
  structs   : Ordered (Handle .type) StructInfo
  functions : Ordered (Handle .function) FunctionInfo
deriving DecidableEq, Repr

namespace TypeSystem

def empty : TypeSystem := ⟨.empty, .empty⟩

def isEmpty (t : TypeSystem) : Bool := t.structs.isEmpty && t.functions.isEmpty

/-- Annotates a struct, over what it may have (`add_struct_annotation`). -/
def annotateStruct (t : TypeSystem) (h : Handle .type) (a : StructInfo) : TypeSystem :=
  { t with structs := t.structs.insert h a }

/-- Annotates a function, over what it may have (`add_function_annotation`). -/
def annotateFunction (t : TypeSystem) (h : Handle .function) (a : FunctionInfo) :
    TypeSystem :=
  { t with functions := t.functions.insert h a }

/-- The annotations without that of a function (`remove_function_annotation`). -/
def forgetFunction (t : TypeSystem) (h : Handle .function) : TypeSystem :=
  { t with functions := t.functions.erase h }

end TypeSystem

/-- The class and the kind of the resource that a type stands for (`ResourceTypeAnnotations`). -/
abbrev ResourceTypes := Ordered (Handle .type) (ResourceClass × ResourceKind)

namespace ResourceTypes

/-- The class that a type stands for (`resource_class`). -/
def cls (t : ResourceTypes) (h : Handle .type) : ResourceClass :=
  ((Ordered.find? t h).map Prod.fst).getD .invalid

/-- The kind that a type stands for (`resource_kind`). -/
def kind (t : ResourceTypes) (h : Handle .type) : ResourceKind :=
  ((Ordered.find? t h).map Prod.snd).getD .invalid

end ResourceTypes

end ShaderModule

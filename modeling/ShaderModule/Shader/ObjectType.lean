import ShaderModule.Program.Basic
import ShaderModule.Shader.Annotations

/-!
# Object types

Some structs stand for objects of the shading language: textures, buffers, samplers, patches and
output streams. A type is recognised by its annotation or by the name of its struct.
-/

namespace ShaderModule

namespace ObjectType

/-- The names of the object classes (`HLSL_OBJECT_NAMES`). -/
def names : List String :=
  ["SamplerState", "SamplerComparisonState", "Texture1D", "Texture1DArray", "Texture2D",
    "Texture2DArray", "Texture2DMS", "Texture2DMSArray", "Texture3D", "TextureCube",
    "TextureCubeArray", "RWTexture1D", "RWTexture1DArray", "RWTexture2D", "RWTexture2DArray",
    "RWTexture3D", "Buffer", "RWBuffer", "ByteAddressBuffer", "RWByteAddressBuffer",
    "StructuredBuffer", "RWStructuredBuffer", "AppendStructuredBuffer", "ConsumeStructuredBuffer",
    "ConstantBuffer", "TextureBuffer", "RasterizerOrderedBuffer",
    "RasterizerOrderedByteAddressBuffer", "RasterizerOrderedStructuredBuffer",
    "RasterizerOrderedTexture1D", "RasterizerOrderedTexture1DArray", "RasterizerOrderedTexture2D",
    "RasterizerOrderedTexture2DArray", "RasterizerOrderedTexture3D", "InputPatch", "OutputPatch",
    "PointStream", "LineStream", "TriangleStream"]

/-- How the struct names of output streams begin (`STREAM_OUTPUT_PREFIXES`). -/
def streamBeginnings : List String :=
  ["class.PointStream", "class.LineStream", "class.TriangleStream"]

/-- Whether a text begins with another one. -/
def begins (beginning text : String) : Bool := beginning.toList.isPrefixOf text.toList

/-- A text without a beginning, if it has that beginning. -/
def dropBeginning? (beginning text : List Char) : Option (List Char) :=
  if beginning.isPrefixOf text then some (text.drop beginning.length) else none

/-- The class that a struct name speaks of: what stands before the template arguments, without a
leading `class.` or `struct.`. -/
def className (name : String) : String :=
  let text := name.toList
  let bare := (dropBeginning? "class.".toList text <|> dropBeginning? "struct.".toList text).getD text
  String.ofList (bare.takeWhile (· ≠ '<'))

/-- Whether a struct of that name is an object (`is_hlsl_object_type`). The helper types of slicing are
none. -/
def isObjectName (name : String) : Bool :=
  !"_slice_type".toList.isSuffixOf name.toList && names.contains (className name)

/-- Whether a struct of that name is an output stream (`is_stream_output_type`). -/
def isStreamName (name : String) : Bool := streamBeginnings.any fun b => begins b name

end ObjectType

namespace Program

/-- The name of a struct type (`struct_name`). -/
def structName? (p : Program) (h : Handle .type) : Option String := (p.type? h).bind Ty.structName?

/-- Whether a type is an output stream (`is_stream_output_type`). -/
def isStreamType (p : Program) (h : Handle .type) : Bool :=
  (p.structName? h).any ObjectType.isStreamName

/-- Whether a type is a pointer to an output stream (`is_stream_output_ptr_type`). -/
def isStreamPointer (p : Program) (h : Handle .type) : Bool := (p.pointee? h).any p.isStreamType

/-- Whether a type is an object (`is_hlsl_object_type`): every annotated type is, and so is every struct
named like one. -/
def isObjectType (p : Program) (annotated : ResourceTypes) (h : Handle .type) : Bool :=
  annotated.contains h || (p.structName? h).any ObjectType.isObjectName

end Program

end ShaderModule

import ShaderModule.Shader.Resource

/-!
# Signatures

The elements that a shader takes in, puts out, and passes on for each patch. The id of an element
is its position in its signature.
-/

namespace ShaderModule

/-- What an element means to the pipeline (`SemanticKind`). -/
inductive Semantic where
  | arbitrary
  | vertexId
  | instanceId
  | position
  | renderTargetArrayIndex
  | viewportArrayIndex
  | clipDistance
  | cullDistance
  | outputControlPointId
  | domainLocation
  | primitiveId
  | gsInstanceId
  | sampleIndex
  | isFrontFace
  | coverage
  | innerCoverage
  | target
  | depth
  | depthLessEqual
  | depthGreaterEqual
  | stencilRef
  | dispatchThreadId
  | groupId
  | groupIndex
  | groupThreadId
  | tessFactor
  | insideTessFactor
  | invalid
deriving DecidableEq, Repr

instance : Numbered Semantic where
  all := [.arbitrary, .vertexId, .instanceId, .position, .renderTargetArrayIndex,
    .viewportArrayIndex, .clipDistance, .cullDistance, .outputControlPointId, .domainLocation,
    .primitiveId, .gsInstanceId, .sampleIndex, .isFrontFace, .coverage, .innerCoverage, .target,
    .depth, .depthLessEqual, .depthGreaterEqual, .stencilRef, .dispatchThreadId, .groupId,
    .groupIndex, .groupThreadId, .tessFactor, .insideTessFactor, .invalid]
  code a := UInt32.ofNat a.ctorIdx
  name
    | .arbitrary => "Arbitrary"
    | .vertexId => "VertexId"
    | .instanceId => "InstanceId"
    | .position => "Position"
    | .renderTargetArrayIndex => "RenderTargetArrayIndex"
    | .viewportArrayIndex => "ViewportArrayIndex"
    | .clipDistance => "ClipDistance"
    | .cullDistance => "CullDistance"
    | .outputControlPointId => "OutputControlPointId"
    | .domainLocation => "DomainLocation"
    | .primitiveId => "PrimitiveId"
    | .gsInstanceId => "GsInstanceId"
    | .sampleIndex => "SampleIndex"
    | .isFrontFace => "IsFrontFace"
    | .coverage => "Coverage"
    | .innerCoverage => "InnerCoverage"
    | .target => "Target"
    | .depth => "Depth"
    | .depthLessEqual => "DepthLessEqual"
    | .depthGreaterEqual => "DepthGreaterEqual"
    | .stencilRef => "StencilRef"
    | .dispatchThreadId => "DispatchThreadId"
    | .groupId => "GroupId"
    | .groupIndex => "GroupIndex"
    | .groupThreadId => "GroupThreadId"
    | .tessFactor => "TessFactor"
    | .insideTessFactor => "InsideTessFactor"
    | .invalid => "Invalid"
  mem_all a := by cases a <;> decide
  nodup_code := by decide

/-- How an element is interpolated between vertices (`InterpolationMode`). -/
inductive Interpolation where
  | undefined
  | constant
  | linear
  | linearCentroid
  | linearNoperspective
  | linearNoperspectiveCentroid
  | linearSample
  | linearNoperspectiveSample
  | invalid
deriving DecidableEq, Repr

instance : Numbered Interpolation where
  all := [.undefined, .constant, .linear, .linearCentroid, .linearNoperspective,
    .linearNoperspectiveCentroid, .linearSample, .linearNoperspectiveSample, .invalid]
  code a := UInt32.ofNat a.ctorIdx
  name
    | .undefined => "Undefined"
    | .constant => "Constant"
    | .linear => "Linear"
    | .linearCentroid => "LinearCentroid"
    | .linearNoperspective => "LinearNoperspective"
    | .linearNoperspectiveCentroid => "LinearNoperspectiveCentroid"
    | .linearSample => "LinearSample"
    | .linearNoperspectiveSample => "LinearNoperspectiveSample"
    | .invalid => "Invalid"
  mem_all a := by cases a <;> decide
  nodup_code := by decide

/-- One element of a signature (`SignatureElement`). -/
structure Element where
  /-- The position in its signature, set when the element is appended. -/
  id              : UInt32
  semanticName    : String
  semanticIndices : List UInt32
  semantic        : Semantic
  component       : ComponentType
  interpolation   : Interpolation
  rows            : UInt32
  cols            : UInt32
  /-- Where the element is packed; nothing until it is. -/
  startRow        : Option UInt32
  startCol        : Option UInt32
  stream          : UInt32
deriving DecidableEq, Repr

inductive SignatureKind where
  | input
  | output
  | patchConstant
deriving DecidableEq, Repr

def SignatureKind.name : SignatureKind → String
  | .input => "Input"
  | .output => "Output"
  | .patchConstant => "PatchConstant"

abbrev Signature := List Element

/-- Appends an element with its position as id, and gives the id (`append_element`). -/
def Signature.push (s : Signature) (e : Element) : UInt32 × Signature :=
  let id := UInt32.ofNat s.length
  (id, s ++ [{ e with id }])

/-- The three signatures of a module (`SignatureSet`). -/
structure Signatures where
  input         : Signature
  output        : Signature
  patchConstant : Signature
deriving DecidableEq, Repr

namespace Signatures

def empty : Signatures := ⟨[], [], []⟩

def get (s : Signatures) : SignatureKind → Signature
  | .input => s.input
  | .output => s.output
  | .patchConstant => s.patchConstant

def set (s : Signatures) (kind : SignatureKind) (x : Signature) : Signatures :=
  match kind with
  | .input => { s with input := x }
  | .output => { s with output := x }
  | .patchConstant => { s with patchConstant := x }

@[simp] theorem get_set (s : Signatures) (kind : SignatureKind) (x : Signature) :
    (s.set kind x).get kind = x := by
  cases kind <;> rfl

end Signatures

end ShaderModule

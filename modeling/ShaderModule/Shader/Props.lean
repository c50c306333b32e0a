import ShaderModule.Shader.Profile
import ShaderModule.Handle
import ShaderModule.Floating

/-!
# Stage properties

What a function declares for the shader stage it is the entry of. A record holds the properties of
exactly one stage.
-/

namespace ShaderModule

/-- The primitives that a geometry shader takes in; a patch of control points has 1 to 32 of them. -/
inductive InputPrimitive where
  | undefined
  | point
  | line
  | triangle
  | lineWithAdjacency
  | triangleWithAdjacency
  /-- One control point more than the number says. -/
  | controlPointPatch (extra : Fin 32)
deriving DecidableEq, Repr

instance : Numbered InputPrimitive where
  all := [.undefined, .point, .line, .triangle, .lineWithAdjacency, .triangleWithAdjacency] ++
    (List.finRange 32).map .controlPointPatch
  code
    | .undefined => 0
    | .point => 1
    | .line => 2
    | .triangle => 3
    | .lineWithAdjacency => 6
    | .triangleWithAdjacency => 7
    | .controlPointPatch extra => UInt32.ofNat (8 + extra.val)
  name
    | .undefined => "Undefined"
    | .point => "Point"
    | .line => "Line"
    | .triangle => "Triangle"
    | .lineWithAdjacency => "LineWithAdjacency"
    | .triangleWithAdjacency => "TriangleWithAdjacency"
    | .controlPointPatch extra => "ControlPointPatch" ++ toString (extra.val + 1)
  mem_all a := by cases a <;> simp
  nodup_code := by decide

/-- The primitives that an output stream is made of (`PrimitiveTopology`). -/
inductive Topology where
  | undefined
  | pointList
  | lineList
  | lineStrip
  | triangleList
  | triangleStrip
deriving DecidableEq, Repr

instance : Numbered Topology where
  all := [.undefined, .pointList, .lineList, .lineStrip, .triangleList, .triangleStrip]
  code a := UInt32.ofNat a.ctorIdx
  name
    | .undefined => "Undefined"
    | .pointList => "PointList"
    | .lineList => "LineList"
    | .lineStrip => "LineStrip"
    | .triangleList => "TriangleList"
    | .triangleStrip => "TriangleStrip"
  mem_all a := by cases a <;> decide
  nodup_code := by decide

/-- The domain that a patch is tessellated over (`TessellatorDomain`). -/
inductive TessDomain where
  | undefined
  | isoLine
  | tri
  | quad
deriving DecidableEq, Repr

instance : Numbered TessDomain where
  all := [.undefined, .isoLine, .tri, .quad]
  code a := UInt32.ofNat a.ctorIdx
  name
    | .undefined => "Undefined"
    | .isoLine => "IsoLine"
    | .tri => "Tri"
    | .quad => "Quad"
  mem_all a := by cases a <;> decide
  nodup_code := by decide

/-- How the edges of a patch are divided (`TessellatorPartitioning`). -/
inductive TessPartitioning where
  | undefined
  | integer
  | pow2
  | fractionalOdd
  | fractionalEven
deriving DecidableEq, Repr

instance : Numbered TessPartitioning where
  all := [.undefined, .integer, .pow2, .fractionalOdd, .fractionalEven]
  code a := UInt32.ofNat a.ctorIdx
  name
    | .undefined => "Undefined"
    | .integer => "Integer"
    | .pow2 => "Pow2"
    | .fractionalOdd => "FractionalOdd"
    | .fractionalEven => "FractionalEven"
  mem_all a := by cases a <;> decide
  nodup_code := by decide

/-- The primitives that tessellation puts out (`TessellatorOutputPrimitive`). -/
inductive TessOutput where
  | undefined
  | point
  | line
  | triangleCw
  | triangleCcw
deriving DecidableEq, Repr

instance : Numbered TessOutput where
  all := [.undefined, .point, .line, .triangleCw, .triangleCcw]
  code a := UInt32.ofNat a.ctorIdx
  name
    | .undefined => "Undefined"
    | .point => "Point"
    | .line => "Line"
    | .triangleCw => "TriangleCw"
    | .triangleCcw => "TriangleCcw"
  mem_all a := by cases a <;> decide
  nodup_code := by decide

/-- The number of output streams of a geometry shader (`NUM_OUTPUT_STREAMS`). -/
def streamCount : Nat := 4

/-- The number of clip planes that a vertex shader may declare (`NUM_CLIP_PLANES`). -/
def planeCount : Nat := 6

/-- The largest tessellation factor where none is declared, which is 64 (`DEFAULT_MAX_TESS_FACTOR`). -/
def defaultMaxTessFactor : Single := ⟨0x42800000⟩

structure ComputeProps where
  threads : Vector UInt32 3
deriving DecidableEq, Repr

structure GeometryProps where
  inputPrimitive : InputPrimitive
  maxVertexCount : UInt32
  instanceCount  : UInt32
  /-- The topology of each stream; `undefined` for a stream that is not used. -/
  topologies     : Vector Topology streamCount
deriving DecidableEq, Repr

structure HullProps where
  patchConstant       : Option (Handle .function)
  domain              : TessDomain
  partitioning        : TessPartitioning
  outputPrimitive     : TessOutput
  inputControlPoints  : UInt32
  outputControlPoints : UInt32
  maxTessFactor       : Single
deriving DecidableEq, Repr

structure DomainProps where
  domain             : TessDomain
  inputControlPoints : UInt32
deriving DecidableEq, Repr

structure VertexProps where
  /-- The globals that hold the equations of the clip planes. -/
  clipPlanes : Vector (Option (Handle .global)) planeCount
deriving DecidableEq, Repr

structure PixelProps where
  earlyDepthStencil : Bool
deriving DecidableEq, Repr

/-- The properties of one stage (`StageProps`, `FunctionProps`). -/
inductive StageProps where
  | compute (props : ComputeProps)
  | geometry (props : GeometryProps)
  | hull (props : HullProps)
  | domain (props : DomainProps)
  | vertex (props : VertexProps)
  | pixel (props : PixelProps)
deriving DecidableEq, Repr

/-! ## What each stage starts from -/

def ComputeProps.initial : ComputeProps := ⟨Vector.replicate 3 1⟩

def GeometryProps.initial : GeometryProps := ⟨.undefined, 0, 1, Vector.replicate streamCount .undefined⟩

def HullProps.initial : HullProps := ⟨none, .undefined, .undefined, .undefined, 0, 0, defaultMaxTessFactor⟩

def DomainProps.initial : DomainProps := ⟨.undefined, 0⟩

def VertexProps.initial : VertexProps := ⟨Vector.replicate planeCount none⟩

def PixelProps.initial : PixelProps := ⟨false⟩

namespace StageProps

/-- The stage that a record is of (`shader_kind`). -/
def stage : StageProps → Stage
  | .compute _ => .compute
  | .geometry _ => .geometry
  | .hull _ => .hull
  | .domain _ => .domain
  | .vertex _ => .vertex
  | .pixel _ => .pixel

/-- The record that a stage starts from (`default_for`). -/
def initial : Stage → StageProps
  | .compute => .compute .initial
  | .geometry => .geometry .initial
  | .hull => .hull .initial
  | .domain => .domain .initial
  | .vertex => .vertex .initial
  | .pixel => .pixel .initial

@[simp] theorem stage_initial (s : Stage) : (initial s).stage = s := by cases s <;> rfl

/-- The record as one of the given stage, if it is one (`stage_accessors`). -/
def as? (p : StageProps) (s : Stage) : Option StageProps := if p.stage = s then some p else none

/-- What is said of a record that was taken for one of another stage. -/
def mismatch (wanted found : Stage) : String :=
  Numbered.name wanted ++ " properties read from a " ++ Numbered.name found ++ " record"

/-- The record as one of the given stage (`stage_accessors`); otherwise the reason why it is none. -/
def expect (p : StageProps) (s : Stage) : Except String StageProps :=
  if p.stage = s then .ok p else .error (mismatch s p.stage)

/-- The functions that a record refers to. -/
def functions : StageProps → List (Handle .function)
  | .hull props => props.patchConstant.toList
  | _ => []

/-- The globals that a record refers to. -/
def globals : StageProps → List (Handle .global)
  | .vertex props => props.clipPlanes.toList.filterMap id
  | _ => []

/-- Clears the clip planes that are the given global (`forget_global`). -/
def forgetGlobal (g : Handle .global) : StageProps → StageProps
  | .vertex props =>
    .vertex ⟨props.clipPlanes.map fun plane => if plane = some g then none else plane⟩
  | p => p

/-- Clears the patch-constant function if it is the given one (`remove_function`). -/
def forgetFunction (f : Handle .function) : StageProps → StageProps
  | .hull props =>
    .hull { props with
      patchConstant := if props.patchConstant = some f then none else props.patchConstant }
  | p => p

end StageProps

end ShaderModule

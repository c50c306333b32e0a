import ShaderModule.Record.Layout
import ShaderModule.Shader.Props

/-!
# Records of stage properties

A record of stage properties begins with the function and the stage; the stage decides the layout
of the rest.
-/

namespace ShaderModule

/-- Function and stage (`HEADER_FIELDS`). The stage is known before the record is read. -/
def StageProps.header {σ : Type} (stage : Stage) : List (Slot (Handle .function × σ)) :=
  [(Cell.function "function").field (·.1) fun x a => (a, x.2),
    { since := 0
      put   := fun _ => pure (Cell.wordOperand (Numbered.code stage))
      get   := fun _ _ x => .ok x }]

/-- The layout of the properties of a stage, read from first to last (`emit_payload`, `load_payload`). -/
def StageProps.layout {σ : Type} (stage : Stage) (slots : List (Slot σ)) (initial : σ) :
    Layout (Handle .function × σ) :=
  .inOrder "function properties" (header stage ++ slots.map Slot.second) (default, initial)

/-- A field that keeps one entry of a vector. -/
def Cell.entry {α ρ : Type} {n : Nat} (c : Cell α) (view : ρ → Vector α n)
    (update : ρ → Vector α n → ρ) (i : Fin n) : Slot ρ :=
  c.field (fun x => (view x)[i]) fun x a => update x ((view x).set i a)

def ComputeProps.layout : Layout (Handle .function × ComputeProps) :=
  StageProps.layout .compute
    [(Cell.word "num threads x").entry (·.threads) (fun x v => { x with threads := v }) 0,
      (Cell.word "num threads y").entry (·.threads) (fun x v => { x with threads := v }) 1,
      (Cell.word "num threads z").entry (·.threads) (fun x v => { x with threads := v }) 2]
    .initial

/-- The topologies of the streams are read before the other properties. -/
def GeometryProps.layout : Layout (Handle .function × GeometryProps) :=
  { StageProps.layout .geometry
      ([(Cell.member "input primitive").field (·.inputPrimitive)
          fun x a => { x with inputPrimitive := a },
        (Cell.word "max vertex count").field (·.maxVertexCount)
          fun x a => { x with maxVertexCount := a },
        (Cell.word "instance count").field (·.instanceCount)
          fun x a => { x with instanceCount := a }] ++
        (List.finRange streamCount).map
          ((Cell.member "stream topology").entry (·.topologies)
            fun x v => { x with topologies := v }))
      .initial with
    order := [0, 1, 5, 6, 7, 8, 2, 3, 4] }

/-- The largest tessellation factor came in with minor version 1. -/
def HullProps.layout : Layout (Handle .function × HullProps) :=
  StageProps.layout .hull
    [(Cell.optionalFunction "patch constant function").field (·.patchConstant)
        fun x a => { x with patchConstant := a },
      (Cell.member "domain").field (·.domain) fun x a => { x with domain := a },
      (Cell.member "partitioning").field (·.partitioning) fun x a => { x with partitioning := a },
      (Cell.member "output primitive").field (·.outputPrimitive)
        fun x a => { x with outputPrimitive := a },
      (Cell.word "input control points").field (·.inputControlPoints)
        fun x a => { x with inputControlPoints := a },
      (Cell.word "output control points").field (·.outputControlPoints)
        fun x a => { x with outputControlPoints := a },
      ((Cell.single "max tessellation factor").field (·.maxTessFactor)
        fun x a => { x with maxTessFactor := a }).added 1]
    .initial

def DomainProps.layout : Layout (Handle .function × DomainProps) :=
  StageProps.layout .domain
    [(Cell.member "domain").field (·.domain) fun x a => { x with domain := a },
      (Cell.word "input control points").field (·.inputControlPoints)
        fun x a => { x with inputControlPoints := a }]
    .initial

def VertexProps.layout : Layout (Handle .function × VertexProps) :=
  StageProps.layout .vertex
    ((List.finRange planeCount).map
      ((Cell.optionalGlobal "clip plane").entry (·.clipPlanes) fun x v => { x with clipPlanes := v }))
    .initial

def PixelProps.layout : Layout (Handle .function × PixelProps) :=
  StageProps.layout .pixel
    [(Cell.bool "early depth stencil").field (·.earlyDepthStencil)
      fun x a => { x with earlyDepthStencil := a }]
    .initial

namespace StageProps

/-- Builds the record of the properties of a function (`emit` of the properties). -/
def write (f : Handle .function) : StageProps → Build (Handle .node)
  | .compute props => ComputeProps.layout.write (f, props)
  | .geometry props => GeometryProps.layout.write (f, props)
  | .hull props => HullProps.layout.write (f, props)
  | .domain props => DomainProps.layout.write (f, props)
  | .vertex props => VertexProps.layout.write (f, props)
  | .pixel props => PixelProps.layout.write (f, props)

/-- The stage in the header of a record. -/
def readStage (s : Source) (h : Handle .node) : Except Fault Stage := do
  match ← s.operands h with
  | _ :: stage :: _ => s.member "shader kind" stage
  | _ => throw .noHeader

/-- Reads a record that begins with its function and its stage (`load` of the properties). -/
def read (s : Source) (h : Handle .node) : Except Fault (Handle .function × StageProps) := do
  match ← readStage s h with
  | .compute => Prod.map id .compute <$> ComputeProps.layout.read s h
  | .geometry => Prod.map id .geometry <$> GeometryProps.layout.read s h
  | .hull => Prod.map id .hull <$> HullProps.layout.read s h
  | .domain => Prod.map id .domain <$> DomainProps.layout.read s h
  | .vertex => Prod.map id .vertex <$> VertexProps.layout.read s h
  | .pixel => Prod.map id .pixel <$> PixelProps.layout.read s h

end StageProps

end ShaderModule

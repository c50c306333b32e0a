import ShaderModule.Numbered
import ShaderModule.Handle

/-!
# Resources

A resource record binds a global of the program to a range of registers. The records of a module
stand in four lists, one for each class; the id of a record is its position in its list.
-/

namespace ShaderModule

/-- The classes of resources. The last is the answer for a type that is no resource. -/
inductive ResourceClass where
  | srv
  | uav
  | cbuffer
  | sampler
  | invalid
deriving DecidableEq, Repr

instance : Numbered ResourceClass where
  all := [.srv, .uav, .cbuffer, .sampler, .invalid]
  code a := UInt32.ofNat a.ctorIdx
  name
    | .srv => "Srv"
    | .uav => "Uav"
    | .cbuffer => "CBuffer"
    | .sampler => "Sampler"
    | .invalid => "Invalid"
  mem_all a := by cases a <;> decide
  nodup_code := by decide

/-- The shapes of resources. The first is the answer for a type that is no resource. -/
inductive ResourceKind where
  | invalid
  | texture1D
  | texture2D
  | texture2DMS
  | texture3D
  | textureCube
  | texture1DArray
  | texture2DArray
  | texture2DMSArray
  | textureCubeArray
  | typedBuffer
  | rawBuffer
  | structuredBuffer
  | cbuffer
  | sampler
  | tbuffer
deriving DecidableEq, Repr

instance : Numbered ResourceKind where
  all := [.invalid, .texture1D, .texture2D, .texture2DMS, .texture3D, .textureCube,
    .texture1DArray, .texture2DArray, .texture2DMSArray, .textureCubeArray, .typedBuffer,
    .rawBuffer, .structuredBuffer, .cbuffer, .sampler, .tbuffer]
  code a := UInt32.ofNat a.ctorIdx
  name
    | .invalid => "Invalid"
    | .texture1D => "Texture1D"
    | .texture2D => "Texture2D"
    | .texture2DMS => "Texture2DMS"
    | .texture3D => "Texture3D"
    | .textureCube => "TextureCube"
    | .texture1DArray => "Texture1DArray"
    | .texture2DArray => "Texture2DArray"
    | .texture2DMSArray => "Texture2DMSArray"
    | .textureCubeArray => "TextureCubeArray"
    | .typedBuffer => "TypedBuffer"
    | .rawBuffer => "RawBuffer"
    | .structuredBuffer => "StructuredBuffer"
    | .cbuffer => "CBuffer"
    | .sampler => "Sampler"
    | .tbuffer => "TBuffer"
  mem_all a := by cases a <;> decide
  nodup_code := by decide

/-- The kinds of samplers. -/
inductive SamplerKind where
  | default
  | comparison
  | mono
  | invalid
deriving DecidableEq, Repr

instance : Numbered SamplerKind where
  all := [.default, .comparison, .mono, .invalid]
  code a := UInt32.ofNat a.ctorIdx
  name
    | .default => "Default"
    | .comparison => "Comparison"
    | .mono => "Mono"
    | .invalid => "Invalid"
  mem_all a := by cases a <;> decide
  nodup_code := by decide

/-- The types of the components of a vector, a texel or a signature element. -/
inductive ComponentType where
  | invalid
  | i1
  | i16
  | u16
  | i32
  | u32
  | i64
  | u64
  | f16
  | f32
  | f64
  | snormF16
  | unormF16
  | snormF32
  | unormF32
  | snormF64
  | unormF64
deriving DecidableEq, Repr

instance : Numbered ComponentType where
  all := [.invalid, .i1, .i16, .u16, .i32, .u32, .i64, .u64, .f16, .f32, .f64, .snormF16,
    .unormF16, .snormF32, .unormF32, .snormF64, .unormF64]
  code a := UInt32.ofNat a.ctorIdx
  name
    | .invalid => "Invalid"
    | .i1 => "I1"
    | .i16 => "I16"
    | .u16 => "U16"
    | .i32 => "I32"
    | .u32 => "U32"
    | .i64 => "I64"
    | .u64 => "U64"
    | .f16 => "F16"
    | .f32 => "F32"
    | .f64 => "F64"
    | .snormF16 => "SNormF16"
    | .unormF16 => "UNormF16"
    | .snormF32 => "SNormF32"
    | .unormF32 => "UNormF32"
    | .snormF64 => "SNormF64"
    | .unormF64 => "UNormF64"
  mem_all a := by cases a <;> decide
  nodup_code := by decide

/-- Whether a component takes eight bytes (`is_64_bit`). -/
def ComponentType.isWide : ComponentType → Bool
  | .i64 | .u64 | .f64 | .snormF64 | .unormF64 => true
  | _ => false

/-- How a global is bound to registers (`ResourceBinding`). -/
structure Binding where
  /-- The position in the list of its class, set when the record is listed. -/
  id         : UInt32
  global     : Handle .global
  name       : String
  space      : UInt32
  lowerBound : UInt32
  /-- The number of registers; the largest number stands for an unbounded array. -/
  rangeSize  : UInt32
deriving DecidableEq, Repr

/-- A binding together with what its class adds (`BoundResource`). -/
structure Bound (π : Type) extends Binding where
  payload : π
deriving DecidableEq, Repr

/-- What a constant buffer adds to its binding (`CBuffer`). -/
structure ConstantBuffer where
  size : UInt32
deriving DecidableEq, Repr

/-- What a sampler adds to its binding. -/
structure Sampler where
  kind : SamplerKind
deriving DecidableEq, Repr

/-- What a read-only or read-write view of memory adds to its binding (`Resource`). -/
structure View where
  /-- Set by the list when the record is listed. -/
  cls               : ResourceClass
  kind              : ResourceKind
  component         : ComponentType
  /-- The stride of the elements of a structured buffer. -/
  stride            : UInt32
  /-- The number of samples of a multisampled texture. -/
  samples           : UInt32
  globallyCoherent  : Bool
  hasCounter        : Bool
  rasterizerOrdered : Bool
deriving DecidableEq, Repr

namespace Bound

variable {π : Type}

/-- Gives every record its position as id (`renumber`). -/
def renumber (records : List (Bound π)) : List (Bound π) :=
  records.mapIdx fun i r => { r with id := UInt32.ofNat i }

/-- Lists a record at the end with its position as id, and gives the id (`add`). -/
def push (records : List (Bound π)) (r : Bound π) : UInt32 × List (Bound π) :=
  let id := UInt32.ofNatClamp records.length
  (id, records ++ [{ r with id }])

@[simp] theorem length_renumber (records : List (Bound π)) :
    (renumber records).length = records.length := by
  simp [renumber]

/-- After renumbering, the id of a record is its position. -/
theorem id_renumber (records : List (Bound π)) (i : Nat) (h : i < (renumber records).length) :
    ((renumber records)[i]).id = UInt32.ofNat i := by
  simp [renumber]

/-- Renumbered records are bound to the same globals. -/
theorem map_global_renumber (records : List (Bound π)) :
    (renumber records).map (fun r => r.global) = records.map fun r => r.global := by
  refine List.ext_getElem (by simp) ?_
  intro i h₁ h₂
  simp [renumber]

/-- Listing a record leaves the records before it as they are. -/
theorem isPrefix_push (records : List (Bound π)) (r : Bound π) : records <+: (push records r).2 :=
  List.prefix_append _ _

/-- Drops the records bound to one of the globals and renumbers the rest (`remove_bound_to`). -/
def unbind (globals : List (Handle .global)) (records : List (Bound π)) : List (Bound π) :=
  renumber (records.filter fun r => r.global ∉ globals)

/-- The globals of the records bound to one of the globals, a global once for each record. -/
def boundAmong (globals : List (Handle .global)) (records : List (Bound π)) :
    List (Handle .global) :=
  (records.map fun r => r.global).filter (· ∈ globals)

end Bound

/-- The four lists of a registry, each by what its records add to a binding (`ResourceList`). -/
inductive Listing : Type → Type where
  | cbuffers : Listing ConstantBuffer
  | samplers : Listing Sampler
  | srvs : Listing View
  | uavs : Listing View

namespace Listing

variable {π : Type}

/-- The class of the resources of a list (`class`). -/
def cls : Listing π → ResourceClass
  | .cbuffers => .cbuffer
  | .samplers => .sampler
  | .srvs => .srv
  | .uavs => .uav

/-- What a record adds once it is listed: a view takes on the class of its list. -/
def classed (k : Listing π) (payload : π) : π :=
  match k with
  | .cbuffers | .samplers => payload
  | .srvs => { payload with cls := .srv }
  | .uavs => { payload with cls := .uav }

end Listing

/-- The resource records of a module (`ResourceRegistry`). -/
structure Registry where
  cbuffers : List (Bound ConstantBuffer)
  samplers : List (Bound Sampler)
  srvs     : List (Bound View)
  uavs     : List (Bound View)
deriving DecidableEq, Repr

namespace Registry

def empty : Registry := ⟨[], [], [], []⟩

def isEmpty (r : Registry) : Bool :=
  r.cbuffers.isEmpty && r.samplers.isEmpty && r.srvs.isEmpty && r.uavs.isEmpty

/-- The records of one list. -/
def list {π : Type} (r : Registry) : Listing π → List (Bound π)
  | .cbuffers => r.cbuffers
  | .samplers => r.samplers
  | .srvs => r.srvs
  | .uavs => r.uavs

/-- Replaces the records of one list. -/
def setList {π : Type} (r : Registry) (k : Listing π) (records : List (Bound π)) : Registry :=
  match k with
  | .cbuffers => { r with cbuffers := records }
  | .samplers => { r with samplers := records }
  | .srvs => { r with srvs := records }
  | .uavs => { r with uavs := records }

@[simp] theorem list_setList {π : Type} (r : Registry) (k : Listing π) (records : List (Bound π)) :
    (r.setList k records).list k = records := by
  cases k <;> rfl

/-- Lists a record at the end of one list, and gives its id (`add_cbuffer`, `add_sampler`, `add_srv`,
`add_uav`). -/
def add {π : Type} (r : Registry) (k : Listing π) (x : Bound π) : UInt32 × Registry :=
  let (id, records) := Bound.push (r.list k) { x with payload := k.classed x.payload }
  (id, r.setList k records)

/-- The globals among the given ones that a record is bound to, each once, in the order in which the lists
show them first (`remove_bound_to`). -/
def boundAmong (r : Registry) (globals : List (Handle .global)) : List (Handle .global) :=
  (Bound.boundAmong globals r.cbuffers ++ Bound.boundAmong globals r.samplers ++
    Bound.boundAmong globals r.srvs ++ Bound.boundAmong globals r.uavs).eraseDups

/-- Drops every record bound to one of the globals (`remove_bound_to`). -/
def unbind (r : Registry) (globals : List (Handle .global)) : Registry where
  cbuffers := Bound.unbind globals r.cbuffers
  samplers := Bound.unbind globals r.samplers
  srvs     := Bound.unbind globals r.srvs
  uavs     := Bound.unbind globals r.uavs

/-- The globals that the records are bound to. -/
def globals (r : Registry) : List (Handle .global) :=
  r.cbuffers.map (fun x => x.global) ++ r.samplers.map (fun x => x.global) ++
    r.srvs.map (fun x => x.global) ++ r.uavs.map (fun x => x.global)

end Registry

end ShaderModule

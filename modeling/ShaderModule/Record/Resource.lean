import ShaderModule.Record.Layout
import ShaderModule.Shader.Resource

/-!
# Records of resources

A resource record begins with the binding and goes on with what its class adds. Its id must be its
position in the list of its class.
-/

namespace ShaderModule

/-- The fields of a binding, of the record at a position of the list of a class (`binding_fields`,
`load_binding`). -/
def Bound.slots {π : Type} (cls : ResourceClass) (pos : Nat) : List (Slot (Bound π)) :=
  [(Cell.word "resource id").field (·.id) fun x a => { x with id := a },
    (Cell.global "resource global").field (·.global) fun x a => { x with global := a },
    (Cell.string "resource name").field (·.name) fun x a => { x with name := a },
    (Cell.word "register space").field (·.space) fun x a => { x with space := a },
    (Cell.word "lower bound").field (·.lowerBound) fun x a => { x with lowerBound := a },
    ((Cell.word "range size").field (·.rangeSize) fun x a => { x with rangeSize := a }).checked
      fun x => if x.id.toNat = pos then none else some (.wrongId (Numbered.name cls) pos x.id)]

/-- A field of what the class adds. -/
def Cell.extra {α π : Type} (c : Cell α) (view : π → α) (update : π → α → π) : Slot (Bound π) :=
  c.field (fun x => view x.payload) fun x a => { x with payload := update x.payload a }

/-- A record in which nothing is set but what the class adds. -/
def Bound.blank {π : Type} (payload : π) : Bound π := ⟨⟨0, default, "", 0, 0, 0⟩, payload⟩

def View.blank (cls : ResourceClass) : View := ⟨cls, .invalid, .invalid, 0, 0, false, false, false⟩

/-- The fields that views of both classes have. -/
def View.slots : List (Slot (Bound View)) :=
  [(Cell.member "resource kind").extra (·.kind) fun x a => { x with kind := a },
    (Cell.member "component type").extra (·.component) fun x a => { x with component := a },
    (Cell.word "element stride").extra (·.stride) fun x a => { x with stride := a }]

/-- A read-only view (`SRV_FIELDS`). -/
def View.srvLayout (pos : Nat) : Layout (Bound View) :=
  .inOrder "resource record"
    (Bound.slots .srv pos ++ View.slots ++
      [(Cell.word "sample count").extra (·.samples) fun x a => { x with samples := a }])
    (.blank (.blank .srv))

/-- A read-write view (`uav_fields`). The last flag came in with minor version 1 and is read right after
the binding. -/
def View.uavLayout (pos : Nat) : Layout (Bound View) where
  what := "resource record"
  slots :=
    Bound.slots .uav pos ++ View.slots ++
      [(Cell.bool "globally coherent").extra (·.globallyCoherent)
          fun x a => { x with globallyCoherent := a },
        (Cell.bool "has counter").extra (·.hasCounter) fun x a => { x with hasCounter := a },
        ((Cell.bool "rasterizer ordered").extra (·.rasterizerOrdered)
          fun x a => { x with rasterizerOrdered := a }).added 1]
  order := [0, 1, 2, 3, 4, 5, 11, 6, 7, 8, 9, 10]
  blank := .blank (.blank .uav)

/-- A constant buffer (`CBUFFER_FIELDS`). -/
def ConstantBuffer.layout (pos : Nat) : Layout (Bound ConstantBuffer) :=
  .inOrder "resource record"
    (Bound.slots .cbuffer pos ++
      [(Cell.word "cbuffer size").extra (·.size) fun x a => { x with size := a }])
    (.blank ⟨0⟩)

/-- A sampler (`SAMPLER_FIELDS`). -/
def Sampler.layout (pos : Nat) : Layout (Bound Sampler) :=
  .inOrder "resource record"
    (Bound.slots .sampler pos ++
      [(Cell.member "sampler kind").extra (·.kind) fun x a => { x with kind := a }])
    (.blank ⟨.default⟩)

/-- The list of one class (`emit_list`, `load_list`). -/
def Bound.cell {π : Type} (cls : ResourceClass) (layout : Nat → Layout (Bound π)) :
    Cell (List (Bound π)) :=
  (Cell.list (fun i => Numbered.name cls ++ " record " ++ toString i) layout).late

/-- The four lists (`emit` and `load` of the resources). -/
def Registry.layout : Layout Registry :=
  .inOrder "resource table"
    [(Bound.cell .srv View.srvLayout).field (·.srvs) fun x a => { x with srvs := a },
      (Bound.cell .uav View.uavLayout).field (·.uavs) fun x a => { x with uavs := a },
      (Bound.cell .cbuffer ConstantBuffer.layout).field (·.cbuffers)
        fun x a => { x with cbuffers := a },
      (Bound.cell .sampler Sampler.layout).field (·.samplers) fun x a => { x with samplers := a }]
    .empty

/-- The registry with the ids that its records are written with: their positions (`emit_list`). -/
def Registry.renumber (r : Registry) : Registry where
  cbuffers := Bound.renumber r.cbuffers
  samplers := Bound.renumber r.samplers
  srvs     := Bound.renumber r.srvs
  uavs     := Bound.renumber r.uavs

end ShaderModule

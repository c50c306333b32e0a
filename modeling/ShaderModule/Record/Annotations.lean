import ShaderModule.Record.Layout
import ShaderModule.Shader.Annotations

/-!
# Records of annotations
-/

namespace ShaderModule

/-- A field of a struct (`emit_field`, `load_field`). -/
def FieldInfo.layout : Layout FieldInfo :=
  .inOrder "field annotation"
    [(Cell.string "field name").field (·.name) fun x a => { x with name := a },
      (Cell.word "cbuffer offset").field (·.offset) fun x a => { x with offset := a },
      (Cell.member "component type").field (·.component) fun x a => { x with component := a },
      (Cell.member "matrix orientation").field (·.orientation)
        fun x a => { x with orientation := a },
      (Cell.optionalString "field semantic").field (·.semantic) fun x a => { x with semantic := a },
      (Cell.bool "field precise").field (·.precise) fun x a => { x with precise := a }]
    ⟨"", 0, .invalid, .undefined, none, false⟩

/-- A parameter (`emit_parameter`, `load_parameter`). The orientation came in with minor version 1 and is
read first. -/
def ParamInfo.layout : Layout ParamInfo where
  what := "parameter annotation"
  slots :=
    [(Cell.member "input qualifier").field (·.qualifier) fun x a => { x with qualifier := a },
      (Cell.optionalString "parameter semantic").field (·.semantic)
        fun x a => { x with semantic := a },
      (Cell.member "interpolation mode").field (·.interpolation)
        fun x a => { x with interpolation := a },
      (Cell.bool "parameter precise").field (·.precise) fun x a => { x with precise := a },
      ((Cell.member "matrix orientation").field (·.orientation)
        fun x a => { x with orientation := a }).added 1]
  order := [4, 0, 1, 2, 3]
  blank := .plain

/-- An annotated struct (`emit_type_system`, `load_type_system`). The size is read last. -/
def StructInfo.layout : Layout (Handle .type × StructInfo) where
  what := "struct annotation"
  slots :=
    [(Cell.placeholder "annotated struct").field (·.1) fun x a => (a, x.2),
      (Cell.word "cbuffer size").field (·.2.size) fun x a => (x.1, { x.2 with size := a }),
      (Cell.list (fun _ => "field annotation") fun _ => FieldInfo.layout).field (·.2.fields)
        fun x a => (x.1, { x.2 with fields := a })]
  order := [0, 2, 1]
  blank := (default, ⟨[], 0⟩)

/-- An annotated function (`emit_type_system`, `load_type_system`). The annotation of its result is read
last. -/
def FunctionInfo.layout : Layout (Handle .function × FunctionInfo) where
  what := "function annotation"
  slots :=
    [(Cell.function "annotated function").field (·.1) fun x a => (a, x.2),
      (Cell.record "parameter annotation" ParamInfo.layout).field (·.2.result)
        fun x a => (x.1, { x.2 with result := a }),
      (Cell.list (fun _ => "parameter annotation") fun _ => ParamInfo.layout).field
        (·.2.params) fun x a => (x.1, { x.2 with params := a })]
  order := [0, 2, 1]
  blank := (default, ⟨.plain, []⟩)

/-- A type that stands for a resource (`emit_resource_types`, `load_resource_types`). -/
def ResourceTypes.layout : Layout (Handle .type × ResourceClass × ResourceKind) :=
  .inOrder "resource type annotation"
    [(Cell.placeholder "annotated type").field (·.1) fun x a => (a, x.2),
      (Cell.member "resource class").field (·.2.1) fun x a => (x.1, a, x.2.2),
      (Cell.member "resource kind").field (·.2.2) fun x a => (x.1, x.2.1, a)]
    (default, .invalid, .invalid)

end ShaderModule

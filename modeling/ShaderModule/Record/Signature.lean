import ShaderModule.Record.Layout
import ShaderModule.Shader.Profile
import ShaderModule.Shader.Signature

/-!
# Records of profiles, signatures and entry points
-/

namespace ShaderModule

/-- A stage, kept as its abbreviation (`prefix`, `from_prefix`). -/
def Cell.stage : Cell Stage :=
  Cell.plain (fun s => some <$> Build.string s.abbreviation) fun s op => do
    let text ← s.string "shader kind" op
    match Stage.ofAbbreviation? text with
    | some stage => return stage
    | none => throw (.unknownStage text)

/-- The profile (`emit_shader_model`, `load_shader_model`). -/
def Profile.layout : Layout Profile :=
  .inOrder "shader model"
    [Cell.stage.field (·.stage) fun x a => { x with stage := a },
      (Cell.word "major").field (·.major) fun x a => { x with major := a },
      (Cell.word "minor").field (·.minor) fun x a => { x with minor := a }]
    ⟨.pixel, 0, 0⟩

/-- An element at a position of a signature (`emit_element`, `load_element`). Its indices come first in
both orders, and its id must be the position. -/
def Element.layout (kind : SignatureKind) (pos : Nat) : Layout Element where
  what := "signature element"
  slots :=
    [(Cell.word "element id").field (·.id) fun x a => { x with id := a },
      (Cell.string "semantic name").field (·.semanticName) fun x a => { x with semanticName := a },
      (Cell.member "component type").field (·.component) fun x a => { x with component := a },
      (Cell.member "semantic kind").field (·.semantic) fun x a => { x with semantic := a },
      (Cell.words "semantic indices" "semantic index").early.field (·.semanticIndices)
        fun x a => { x with semanticIndices := a },
      (Cell.member "interpolation mode").field (·.interpolation)
        fun x a => { x with interpolation := a },
      (Cell.word "rows").field (·.rows) fun x a => { x with rows := a },
      (Cell.word "cols").field (·.cols) fun x a => { x with cols := a },
      (Cell.optionalWord "start row").field (·.startRow) fun x a => { x with startRow := a },
      (Cell.optionalWord "start col").field (·.startCol) fun x a => { x with startCol := a },
      ((Cell.word "output stream").field (·.stream) fun x a => { x with stream := a }).checked
        fun x => if x.id.toNat = pos then none else some (.outOfOrder kind.name x.id)]
  order := [4, 0, 1, 2, 3, 5, 6, 7, 8, 9, 10]
  blank := ⟨0, "", [], .arbitrary, .invalid, .undefined, 0, 0, none, none, 0⟩

/-- The elements of one signature (`emit_signature`). -/
def Signature.cell (kind : SignatureKind) : Cell Signature :=
  (Cell.list (fun _ => "signature element") (Element.layout kind)).late

def Signatures.layout : Layout Signatures :=
  .inOrder "signature list"
    [(Signature.cell .input).field (·.input) fun x a => { x with input := a },
      (Signature.cell .output).field (·.output) fun x a => { x with output := a },
      (Signature.cell .patchConstant).field (·.patchConstant)
        fun x a => { x with patchConstant := a }]
    .empty

/-- The entry point of a module with its signatures. -/
structure EntryPoint where
  function   : Option (Handle .function)
  name       : String
  signatures : Signatures
deriving DecidableEq, Repr

def EntryPoint.unset : EntryPoint := ⟨none, "", .empty⟩

/-- The entry point (`emit_entry_point`, `load_entry_point`). -/
def EntryPoint.layout : Layout EntryPoint :=
  .inOrder "entry point"
    [(Cell.optionalFunction "entry function").field (·.function) fun x a => { x with function := a },
      (Cell.string "entry name").field (·.name) fun x a => { x with name := a },
      (Cell.record "signature list" Signatures.layout).early.field (·.signatures)
        fun x a => { x with signatures := a }]
    .unset

end ShaderModule

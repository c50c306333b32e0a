/-!
# Reserved metadata groups

The side-tables of a module are kept in ten named metadata entries, one for each group of records.
-/

namespace ShaderModule

/-- The reserved groups (`RESERVED_NAMES`). -/
inductive Group where
  | version
  | profile
  | entryPoints
  | resources
  | annotations
  | functionProps
  | options
  | resourceTypes
  | rootSignature
  | used
deriving DecidableEq, Repr

namespace Group

/-- The name of the metadata entry that holds a group. -/
def name : Group → String
  | .version => "dx.version"
  | .profile => "dx.shaderModel"
  | .entryPoints => "dx.entryPoints"
  | .resources => "dx.resources"
  | .annotations => "dx.typeAnnotations"
  | .functionProps => "dx.fnprops"
  | .options => "dx.options"
  | .resourceTypes => "dx.resource.type.annotation"
  | .rootSignature => "dx.rootSignature"
  | .used => "dx.used"

def all : List Group :=
  [.version, .profile, .entryPoints, .resources, .annotations, .functionProps, .options,
    .resourceTypes, .rootSignature, .used]

theorem mem_all (g : Group) : g ∈ all := by cases g <;> decide

theorem name_injective {g h : Group} (e : g.name = h.name) : g = h := by
  cases g <;> cases h <;> first | rfl | exact absurd e (by decide)

end Group

/-- A version of the record layouts (`MetadataVersion`). A new minor version only adds fields at the end of
records. -/
structure Version where
  major : UInt32
  minor : UInt32
deriving DecidableEq, Repr

/-- The version that is written, and the newest that is fully understood (`HL_METADATA_VERSION`). -/
def Version.current : Version := ⟨1, 1⟩

end ShaderModule

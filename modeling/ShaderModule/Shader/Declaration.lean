import ShaderModule.Shader.Module

/-!
# Declaring what a module knows

The side-tables are filled in one declaration at a time: the profile, the options and the entry
point, resources, signatures, properties of functions, annotations. A declaration does not look at
the program; that what it refers to exists is checked when the tables are written.
-/

namespace ShaderModule

/-- The profile that a text names (`from_str`). -/
def Profile.read (text : String) : Except ShaderError Profile :=
  match parse? text with
  | some p => .ok p
  | none => .error (.invalidProfile text)

/-- The options of a word, in which no reserved bit may be set (`from_raw`). -/
def Options.ofBits (bits : UInt32) : Except ShaderError Options :=
  match ofBits? bits with
  | some o => .ok o
  | none => .error (.reservedOptions (reserved bits))

namespace Shader

/-! ## Profile, options and entry point -/

/-- Sets the profile (`set_shader_model`). -/
def setProfile (x : Profile) : Act Unit := onTables fun t => { t with profile := some x }

/-- Sets the options (`set_options`). -/
def setOptions (x : Options) : Act Unit := onTables fun t => { t with options := x }

/-- Sets the entry function, or none (`set_entry_function`). -/
def setEntry (f : Option (Handle .function)) : Act Unit := onTables fun t => { t with entry := f }

/-- Sets the name of the entry point (`set_entry_function_name`). -/
def setEntryName (name : String) : Act Unit := onTables fun t => { t with entryName := name }

/-- Replaces the list of globals that are kept even if nothing uses them (`used_globals_mut`). -/
def setUsed (gs : List (Handle .global)) : Act Unit := onTables fun t => { t with used := gs }

/-! ## Resources -/

variable {π : Type}

/-- Lists a resource record, and gives the id it got (`add_cbuffer`, `add_sampler`, `add_srv`, `add_uav`). -/
def addResource (k : Listing π) (x : Bound π) : Act UInt32 := fun s =>
  let (id, resources) := s.tables.resources.add k x
  .ok id { s with tables := { s.tables with resources } }

/-- The record of a list at an index (`cbuffer`, `sampler`, `srv`, `uav`). -/
def resource (s : Shader) (k : Listing π) (index : UInt32) : Except ShaderError (Bound π) :=
  match (s.tables.resources.list k)[index.toNat]? with
  | some x => .ok x
  | none => .error (.indexOutOfRange k.cls index (s.tables.resources.list k).length)

/-- Changes the record of a list at an index (`cbuffer_mut`, `sampler_mut`, `srv_mut`, `uav_mut`). -/
def modifyResource (k : Listing π) (index : UInt32) (change : Bound π → Bound π) : Act Unit := fun s =>
  match s.resource k index with
  | .ok x =>
    let r := s.tables.resources
    let records := (r.list k).set index.toNat (change x)
    .ok () { s with tables := { s.tables with resources := r.setList k records } }
  | .error cause => .error cause s

/-! ## Signatures -/

/-- Appends an element to a signature, and gives the id it got (`append_element`). -/
def appendElement (kind : SignatureKind) (e : Element) : Act UInt32 := fun s =>
  let (id, elements) := (s.tables.signatures.get kind).push e
  .ok id { s with tables := { s.tables with signatures := s.tables.signatures.set kind elements } }

/-- Hands a signature over (`release_signature`); an empty one stays behind. -/
def releaseSignature (kind : SignatureKind) : Act Signature := fun s =>
  .ok (s.tables.signatures.get kind)
    { s with tables := { s.tables with signatures := s.tables.signatures.set kind [] } }

/-- Sets the serialized root signature (`root_signature_mut`). -/
def setRootSignature (bytes : List UInt8) : Act Unit :=
  onTables fun t => { t with rootSignature := bytes }

/-- Hands the root signature over (`release_root_signature`); an empty one stays behind. -/
def releaseRootSignature : Act (List UInt8) := fun s =>
  .ok s.tables.rootSignature { s with tables := { s.tables with rootSignature := [] } }

/-! ## Properties of functions -/

/-- Gives a function properties, in place of those it may have (`add_function_props`). -/
def addProps (f : Handle .function) (x : StageProps) : Act Unit :=
  onTables fun t => { t with props := t.props.insert f x }

/-- The properties of a function (`function_props`). -/
def propsOf (s : Shader) (f : Handle .function) : Except ShaderError StageProps :=
  match s.tables.props.find? f with
  | some props => .ok props
  | none => .error (.missingProps f)

/-- Changes the properties of a function if they are of the given stage (`function_props_mut`); says
whether they are. -/
def modifyProps (f : Handle .function) (stage : Stage) (change : StageProps → StageProps) :
    Act Bool := fun s =>
  match s.propsOf f with
  | .error cause => .error cause s
  | .ok props =>
    if props.stage = stage then
      .ok true { s with tables := { s.tables with props := s.tables.props.modify f change } }
    else .ok false s

/-! ## Annotations -/

/-- Says what resource a type stands for (`add_resource_type_annotation`). -/
def annotateType (h : Handle .type) (cls : ResourceClass) (kind : ResourceKind) : Act Unit :=
  onTables fun t => { t with resourceTypes := t.resourceTypes.insert h (cls, kind) }

/-- A change of the annotations of structs and functions. -/
def onTypes (f : TypeSystem → TypeSystem) : Act Unit :=
  onTables fun t => { t with types := f t.types }

/-- Annotates a struct (`add_struct_annotation`). -/
def annotateStruct (h : Handle .type) (a : StructInfo) : Act Unit :=
  onTypes fun t => t.annotateStruct h a

/-- Changes the annotation of a struct, if it has one (`struct_annotation_mut`). -/
def modifyStruct (h : Handle .type) (change : StructInfo → StructInfo) : Act Unit :=
  onTypes fun t => { t with structs := t.structs.modify h change }

/-- Annotates a function (`add_function_annotation`). -/
def annotateFunction (f : Handle .function) (a : FunctionInfo) : Act Unit :=
  onTypes fun t => t.annotateFunction f a

/-- Changes the annotation of a function, if it has one (`function_annotation_mut`). -/
def modifyFunction (f : Handle .function) (change : FunctionInfo → FunctionInfo) : Act Unit :=
  onTypes fun t => { t with functions := t.functions.modify f change }

/-- Takes the annotation of a function away, and gives it (`remove_function_annotation`). -/
def dropFunctionInfo (f : Handle .function) : Act (Option FunctionInfo) := do
  let a := (← get).tables.types.functions.find? f
  onTypes fun t => t.forgetFunction f
  return a

/-- Hands the annotations of structs and functions over (`release_type_system`); none stay behind. -/
def releaseTypes : Act TypeSystem := do
  let t := (← get).tables.types
  onTypes fun _ => .empty
  return t

end Shader

end ShaderModule

import ShaderModule.Record.Emit

/-!
# Reading side-tables

The side-tables are read back from the reserved metadata entries of a program. Metadata of another
major version is refused; in that of an older minor version the newer fields take their initial
values, and in that of a newer one further fields are overlooked.
-/

namespace ShaderModule

namespace Program

variable (p : Program)

/-- Reports the faults of a group (`malformed`). -/
def within {α : Type} (g : Group) : Except Fault α → Except ShaderError α :=
  Except.mapError (.malformed g)

/-- The only operand of a group's entry, if there is an entry (`single_operand`). -/
def single? (g : Group) : Except Fault (Option (Handle .node)) :=
  match p.named? g.name with
  | none => .ok none
  | some [h] => .ok (some h)
  | some ops => .error (.notOneOperand ops.length)

/-- The version of the metadata (`load_version`). -/
def readVersion : Except ShaderError Version := do
  let some h ← within .version (p.single? .version) | throw (.malformed .version .noVersion)
  let s : Source := ⟨p, Version.current.minor⟩
  let ops ← within .version (s.operands h)
  match ops with
  | major :: minor :: _ =>
    let major ← within .version (s.word "major version" major)
    let minor ← within .version (s.word "minor version" minor)
    if major ≠ Version.current.major then throw (.unsupportedVersion ⟨major, minor⟩)
    let _ ← within .version (Source.record ⟨p, minor⟩ "version" 2 h)
    return ⟨major, minor⟩
  | _ => throw (.malformed .version (.versionFields ops.length))

/-- Reads the record of a group that has one, or takes the given value. -/
def readGroup {α : Type} (g : Group) (absent : α) (read : Handle .node → Except Fault α) :
    Except ShaderError α :=
  within g do
    match ← p.single? g with
    | some h => read h
    | none => return absent

/-- Reads the records of a group that has any number of them. -/
def readOperands {α : Type} (g : Group) (absent : α)
    (read : List (Handle .node) → Except Fault α) : Except ShaderError α :=
  within g (match p.named? g.name with
    | some hs => read hs
    | none => .ok absent)

/-- The group-shared globals in module order (`is_shared_memory_global`). -/
def sharedGlobals : List (Handle .global) :=
  p.globals.order.filter fun h => (p.global? h).any Global.isShared

end Program

/-- The entries of a tuple, none of them null, entered one after another. -/
def Source.readTable {κ α : Type} [DecidableEq κ] [LT κ] [DecidableLT κ] (s : Source)
    (l : Layout (κ × α)) (h : Handle .node) : Except Fault (Ordered κ α) := do
  (← s.operands h).foldlM
    (fun table op => do
      match op with
      | some h =>
        let (k, a) ← l.read s h
        return table.insert k a
      | none => throw (.null l.what))
    .empty

/-- The annotations of structs and functions (`load_type_system`). -/
def TypeSystem.read (s : Source) : List (Handle .node) → Except Fault TypeSystem
  | [structs, functions] => do
    return ⟨← s.readTable StructInfo.layout structs,
      ← s.readTable FunctionInfo.layout functions⟩
  | ops => .error (.operandCount 2 ops.length)

/-- The properties of functions, each record under its function (`load` of the properties). -/
def PropsTable.read (s : Source) (hs : List (Handle .node)) : Except Fault PropsTable :=
  hs.foldlM (fun table h => do
    let (f, props) ← StageProps.read s h
    return table.insert f props) .empty

/-- The options word (`load_options`). Reserved bits are a fault unless the metadata is of a newer version. -/
def Options.read (s : Source) (h : Handle .node) : Except Fault Options := do
  let options ← Options.layout.read s h
  if s.minor > Version.current.minor then return .ofBitsKnown options.bits
  match Options.ofBits? options.bits with
  | some known => return known
  | none => throw (.reservedOptions options.bits)

/-- The side-tables that a program carries in its metadata (`load`). -/
def Tables.load (p : Program) : Except ShaderError Tables := do
  let version ← p.readVersion
  let s : Source := ⟨p, version.minor⟩
  let profile ← p.readGroup .profile none fun h => some <$> Profile.layout.read s h
  let entry ← p.readGroup .entryPoints .unset fun h => EntryPoint.layout.read s h
  let resources ← p.readGroup .resources .empty fun h => Registry.layout.read s h
  let types ← p.readOperands .annotations .empty (TypeSystem.read s)
  let props ← p.readOperands .functionProps .empty (PropsTable.read s)
  let options ← p.readGroup .options .unset (Options.read s)
  let resourceTypes ← p.readGroup .resourceTypes .empty (s.readTable ResourceTypes.layout)
  let rootSignature ← p.readGroup .rootSignature [] fun h => rootSignatureLayout.read s h
  let used ← p.readOperands .used [] fun hs => hs.mapM fun h => s.global "used global" (some h)
  return {
    profile
    options
    entry := entry.function
    entryName := entry.name
    resources
    signatures := entry.signatures
    rootSignature
    props
    resourceTypes
    types
    shared := p.sharedGlobals
    used }

end ShaderModule

import ShaderModule.Program.Basic
import ShaderModule.Shader.Annotations
import ShaderModule.Shader.ObjectType

/-!
# Packing into registers

How much room a value takes in a constant buffer, and how many rows and columns a parameter takes
in a signature. Both look through arrays, and both read the shape of a matrix off its layout.
-/

namespace ShaderModule

namespace Program

/-- The rows and columns of a matrix struct, which holds one array of row vectors (`matrix_shape`). -/
def matrixShape? (p : Program) (h : Handle .type) : Option (UInt32 × UInt32) :=
  match p.type? h with
  | some (.struct name [body]) =>
    if ObjectType.begins "class.matrix." name then
      match p.type? body with
      | some (.array element rows) =>
        match p.type? element with
        | some (.vector _ cols) =>
          if rows.toNat < UInt32.size then some (rows.toUInt32, cols) else none
        | _ => none
      | _ => none
    else none
  | _ => none

/-- The bytes that one element of a constant-buffer field takes (`legacy_cbuffer_field_element_size`). A
row of a matrix takes a register of 16 bytes, the last row only its columns; a matrix without an
orientation and a struct that is neither annotated nor a matrix take nothing. -/
def fieldElementSize (p : Program) (types : TypeSystem) (field : FieldInfo)
    (h : Handle .type) : UInt32 :=
  let core := (p.types.stripArrays h).1
  let component : UInt32 := if field.component.isWide then 8 else 4
  match p.type? core with
  | some (.vector _ length) => component * length
  | some (.struct _ _) =>
    match types.structs.find? core, p.matrixShape? core, field.orientation with
    | some a, _, _ => a.size
    | none, some (rows, cols), .rowMajor => packed rows cols component
    | none, some (rows, cols), .columnMajor => packed cols rows component
    | none, _, _ => 0
  | _ => component
where
  /-- The extent of so many packed rows of so many columns. -/
  packed (rows cols component : UInt32) : UInt32 :=
    (if rows = 0 then 0 else rows - 1) * 16 + cols * component

/-- The signature rows and columns of a type that is no array. A matrix is turned over unless it is
row-major. -/
def coreShape (p : Program) (orientation : Orientation) (core : Handle .type) : UInt32 × UInt32 :=
  match p.matrixShape? core with
  | some (rows, cols) => if orientation = .rowMajor then (rows, cols) else (cols, rows)
  | none =>
    match p.type? core with
    | some (.vector _ length) => (1, length)
    | _ => (1, 1)

/-- The signature rows and columns that a parameter takes (`parameter_rows_and_cols`). Arrays multiply the
rows. -/
def paramShape (p : Program) (param : ParamInfo) (h : Handle .type) : UInt32 × UInt32 :=
  let (core, count) := p.types.stripArrays h
  let (rows, cols) := p.coreShape param.orientation core
  (UInt32.ofNatClamp (rows.toNat * (UInt32.ofNatClamp count.toNat).toNat), cols)

end Program

end ShaderModule

import ShaderModule.Record.Source

/-!
# Record layouts

A layout says once how a record is kept in metadata, for the writer and for the reader: which
fields it has, in which minor version each came in, and how the value of a field becomes an operand
and is read back. A field that the metadata is too old for keeps the value of the blank record.

Two orders are part of a layout. Writing goes through the fields from first to last, but builds
the parts nested in a record before the record's own operands; this decides the numbers of the
nodes. Reading goes through the fields in an order of its own; this decides which of several faults
is reported.
-/

namespace ShaderModule

/-- How a value is kept in one operand. -/
structure Cell (α : Type) where
  /-- Builds the parts of the operand, and says how to make the operand of them. -/
  put : α → Build (Build Operand)
  get : Source → Operand → Except Fault α

/-- One field of a record. -/
structure Slot (ρ : Type) where
  /-- The minor version that the field came in with. -/
  since : UInt32
  put   : ρ → Build (Build Operand)
  /-- Sets the field to what the operand holds. -/
  get   : Source → Operand → ρ → Except Fault ρ

structure Layout (ρ : Type) where
  /-- What faults call the record. -/
  what  : String
  slots : List (Slot ρ)
  /-- The positions of the fields in the order in which they are read. -/
  order : List Nat
  blank : ρ

/-! ## Records -/

namespace Layout

variable {ρ : Type} (l : Layout ρ)

/-- The number of fields at a minor version. -/
def arity (minor : UInt32) : Nat := l.slots.countP fun f => f.since ≤ minor

/-- Builds the record: the parts of its fields, then the operands, then their tuple (`tuple`). -/
def write (x : ρ) : Build (Handle .node) := do
  let operands ← l.slots.mapM fun f => f.put x
  Build.tuple (← operands.mapM id)

/-- Reads the field at a position into a record, unless the metadata is too old for the field. -/
def readField (s : Source) (ops : List Operand) (x : ρ) (i : Nat) : Except Fault ρ :=
  match l.slots[i]?, ops[i]? with
  | some f, some op => f.get s op x
  | some f, none => if s.minor < f.since then .ok x else .error (.noField l.what i)
  | none, _ => .ok x

/-- Reads the fields of a record that has the right number of operands (`record`). -/
def read (s : Source) (h : Handle .node) : Except Fault ρ := do
  let ops ← s.record l.what (l.arity s.minor) h
  l.order.foldlM (l.readField s ops) l.blank

end Layout

/-- A layout whose fields are read from first to last. -/
def Layout.inOrder {ρ : Type} (what : String) (slots : List (Slot ρ)) (blank : ρ) : Layout ρ :=
  ⟨what, slots, List.range slots.length, blank⟩

/-! ## Fields -/

/-- A field that keeps one part of a record in a cell. -/
def Cell.field {α ρ : Type} (c : Cell α) (view : ρ → α) (update : ρ → α → ρ) : Slot ρ where
  since := 0
  put x := c.put (view x)
  get s op x := (update x) <$> c.get s op

namespace Slot

variable {ρ : Type}

/-- The field as one that came in with a minor version. -/
def added (minor : UInt32) (f : Slot ρ) : Slot ρ := { f with since := minor }

/-- The field with a check of the record as far as it is read. -/
def checked (f : Slot ρ) (fault? : ρ → Option Fault) : Slot ρ :=
  { f with
    get := fun s op x => do
      let y ← f.get s op x
      match fault? y with
      | some fault => throw fault
      | none => return y }

/-- The field of the second part of a pair. -/
def second {σ : Type} (f : Slot ρ) : Slot (σ × ρ) where
  since := f.since
  put x := f.put x.2
  get s op x := (fun y => (x.1, y)) <$> f.get s op x.2

end Slot

/-! ## Cells -/

namespace Cell

variable {α : Type}

/-- A cell whose operand has no parts. -/
def plain (make : α → Build Operand) (get : Source → Operand → Except Fault α) : Cell α where
  put x := pure (make x)
  get   := get

/-- A reference to a constant. -/
def constantOperand (c : Build (Handle .constant)) : Build Operand := do
  return some (← Build.value (.constant (← c)))

/-- A word as an operand (`u32`). -/
def wordOperand (n : UInt32) : Build Operand :=
  constantOperand (Build.int 32 (Int64.ofNat n.toNat))

/-- A word (`u32`). -/
def word (what : String) : Cell UInt32 := plain wordOperand fun s => s.word what

/-- A word that may be unset, which is written as minus one (`opt_u32`). -/
def optionalWord (what : String) : Cell (Option UInt32) :=
  plain
    (fun
      | some n => wordOperand n
      | none => constantOperand (Build.int 32 (-1)))
    fun s => s.optionalWord what

/-- A truth value (`bool`). -/
def bool (what : String) : Cell Bool :=
  plain (fun b => constantOperand (Build.bool b)) fun s => s.bool what

/-- A single-precision number (`f32`). -/
def single (what : String) : Cell Single :=
  plain (fun x => constantOperand (Build.single x)) fun s => s.single what

/-- A member of a numbered enumeration, which is written as its number (`to_u32`, `enumerated`). -/
def member [Numbered α] (what : String) : Cell α :=
  plain (fun a => wordOperand (Numbered.code a)) fun s => s.member what

/-- A text (`string`). -/
def string (what : String) : Cell String :=
  plain (fun text => some <$> Build.string text) fun s => s.string what

/-- A string that may be missing, which is written as null (`opt_string`). -/
def optionalString (what : String) : Cell (Option String) :=
  plain
    (fun
      | some text => some <$> Build.string text
      | none => pure none)
    fun s => Source.optional (s.string what)

/-- A reference to a value as an operand (`value`). -/
def valueOperand (v : Value) : Build Operand := some <$> Build.value v

/-- A global (`value`, `global`). -/
def global (what : String) : Cell (Handle .global) :=
  plain (fun h => valueOperand (.global h)) fun s => s.global what

/-- A global that may be missing, which is written as null (`opt_value`, `opt_global`). -/
def optionalGlobal (what : String) : Cell (Option (Handle .global)) :=
  plain
    (fun
      | some h => valueOperand (.global h)
      | none => pure none)
    fun s => Source.optional (s.global what)

/-- A function (`value`, `function`). -/
def function (what : String) : Cell (Handle .function) :=
  plain (fun h => valueOperand (.function h)) fun s => s.function what

/-- A function that may be missing, which is written as null (`opt_value`, `opt_function`). -/
def optionalFunction (what : String) : Cell (Option (Handle .function)) :=
  plain
    (fun
      | some h => valueOperand (.function h)
      | none => pure none)
    fun s => Source.optional (s.function what)

/-- Bytes; the constant is a part (`const_bytes`, `bytes`). -/
def bytes (what : String) : Cell (List UInt8) where
  put data := do
    let c ← Build.constant (.bytes data)
    return valueOperand (.constant c)
  get s := s.bytes what

/-- A type, carried as an undefined constant of the type; the constant is a part (`undef`, `ty`). -/
def placeholder (what : String) : Cell (Handle .type) where
  put type := do
    let c ← Build.constant (.undef type)
    return valueOperand (.constant c)
  get s := s.placeholder what

/-- A tuple of words, which is there also when it is empty. -/
def words (whole each : String) : Cell (List UInt32) :=
  plain
    (fun ns => do return some (← Build.tuple (← ns.mapM wordOperand)))
    fun s op =>
      match op with
      | some h => do (← s.operands h).mapM (s.word each)
      | none => .error (.nulls whole)

/-- A record nested in a record. -/
def record (missing : String) (l : Layout α) : Cell α :=
  plain (fun x => some <$> l.write x) fun s op =>
    match op with
    | some h => l.read s h
    | none => .error (.null missing)

/-- A tuple of nodes, or null if there are none (`list`). -/
def listOperand (hs : List (Handle .node)) : Build Operand :=
  if hs.isEmpty then pure none else some <$> Build.tuple (hs.map some)

/-- Reads one record of a list. -/
def readEntry (missing : Nat → String) (layout : Nat → Layout α) (s : Source) (i : Nat) :
    Operand → Except Fault α
  | some h => (layout i).read s h
  | none => .error (.null (missing i))

/-- A list of records, which is null if there are none. The records are parts. A layout may depend on
the position in the list. -/
def list (missing : Nat → String) (layout : Nat → Layout α) : Cell (List α) where
  put xs := do
    let hs ← xs.zipIdx.mapM fun (x, i) => (layout i).write x
    return listOperand hs
  get s op := do
    (← s.list op).zipIdx.mapM fun (op, i) => readEntry missing layout s i op

/-- The cell with the whole operand built at the time of the parts. -/
def early (c : Cell α) : Cell α :=
  { c with put := fun x => do return pure (← (← c.put x)) }

/-- The cell with the parts built at the time of the operand. -/
def late (c : Cell α) : Cell α :=
  { c with put := fun x => pure do (← c.put x) }

end Cell

end ShaderModule

import ShaderModule.Program.Basic

/-!
# Editing metadata along a path

Nodes never change, so an edit deep inside a tuple builds every tuple on the way anew, from the
innermost outwards. The old nodes stay where they are.
-/

namespace ShaderModule

/-- A change of a list of operands at one position. -/
inductive OperandEdit where
  | set (op : Operand)
  | insert (op : Operand)
  | remove
  /-- Keeps only the operands before the position. -/
  | truncate
deriving DecidableEq, Repr

def OperandEdit.apply (ops : List Operand) (pos : Nat) : OperandEdit → List Operand
  | .set op => ops.set pos op
  | .insert op => ops.insertIdx pos op
  | .remove => ops.eraseIdx pos
  | .truncate => ops.take pos

/-- Makes a change at the end of a path through tuples; a path that leads nowhere changes nothing. -/
def OperandEdit.along (edit : OperandEdit) : List Nat → List Operand → Build (List Operand)
  | [], ops => pure ops
  | [pos], ops => pure (edit.apply ops pos)
  | pos :: path, ops => fun p =>
    match (ops[pos]?.join).bind p.node? with
    | some (.tuple inner) =>
      let (inner, p) := edit.along path inner p
      let (h, p) := Build.tuple inner p
      (ops.set pos (some h), p)
    | _ => (ops, p)

/-- Makes a change at the end of a path into a named metadata entry. -/
def Program.editNamed (name : String) (path : List Nat) (edit : OperandEdit) : Build Unit := fun p =>
  let (ops, p) := edit.along path (((p.named? name).getD []).map some) p
  ((), p.setNamed name (ops.filterMap id))

end ShaderModule

import ShaderModule.Program.Edit

/-!
# Register promotion

A stack slot is promoted when every use of it is a load from it, a store to it, or an annotation: a
call of a declared `void` function on the slot alone. Loads become the value stored last before
them, and slot, stores and loads disappear. Annotations follow the value: each is issued anew after
every store, on the stored value.
-/

namespace ShaderModule

/-- What an instruction does with a slot that it has as an operand. -/
inductive SlotUse where
  | load
  | store
  | annotate (callee : Handle .function)
  | escape
deriving DecidableEq, Repr

/-- What one pass of `promote_slot` over a body finds out about a slot. -/
structure SlotTrace where
  /-- What a load would give now. -/
  current : Value
  /-- The loads so far and what each gives. -/
  loads   : List (Handle .inst × Value)
  /-- The stores so far and what each stores. -/
  stores  : List (Handle .inst × Value)
deriving DecidableEq, Repr

namespace SlotTrace

/-- The value with loads of the slot seen through. -/
def resolve (t : SlotTrace) (v : Value) : Value :=
  ((t.loads.find? fun l => decide (Value.inst l.1 = v)).map Prod.snd).getD v

/-- Takes one more instruction into account. -/
def step (slot : Value) (t : SlotTrace) (h : Handle .inst) : Option InstKind → SlotTrace
  | some (.load ptr) => if ptr = slot then { t with loads := t.loads ++ [(h, t.current)] } else t
  | some (.store ptr value) =>
    if ptr = slot then
      { t with current := t.resolve value, stores := t.stores ++ [(h, t.resolve value)] }
    else t
  | _ => t

end SlotTrace

namespace Program

variable (p : Program)

/-- Whether a function is declared only and has the result type `void` (`returns_void`). -/
def isAnnotator (f : Handle .function) : Bool :=
  (p.function? f).any fun x =>
    x.isDeclaration &&
      ((p.type? x.type).bind Ty.signature?).any fun s => decide (p.type? s.1 = some .void)

/-- What an instruction of the given kind does with a slot. -/
def slotUse (slot : Value) : InstKind → SlotUse
  | .load ptr => if ptr = slot then .load else .escape
  | .store ptr value => if ptr = slot ∧ value ≠ slot then .store else .escape
  | .call callee args => if args = [slot] ∧ p.isAnnotator callee then .annotate callee else .escape
  | _ => .escape

/-- The users of a slot with what they do with it. -/
def slotUses (slot : Value) : List (Handle .inst × SlotUse) :=
  (p.users slot).filterMap fun h => (p.instKind? h).map fun k => (h, p.slotUse slot k)

/-- The annotations of a slot, if it can be promoted. -/
def promotable? (slot : Value) : Option (List (Handle .inst × Handle .function)) :=
  let uses := p.slotUses slot
  if uses.any fun u => u.2 = .escape then none
  else some (uses.filterMap fun u =>
    match u.2 with
    | .annotate callee => some (u.1, callee)
    | _ => none)

/-- The trace of a slot over a body, `initial` being what it holds before the first store. -/
def slotTrace (slot : Value) (initial : Value) (body : List (Handle .inst)) : SlotTrace :=
  body.foldl (fun t h => t.step slot h (p.instKind? h)) ⟨initial, [], []⟩

/-- The slots that a body allocates, with the types of what they hold. -/
def slots (f : Handle .function) : List (Handle .inst × Handle .type) :=
  (p.body f).filterMap fun h =>
    match p.instKind? h with
    | some (.alloca type) => some (h, type)
    | _ => none

/-- Erases some instructions one after another. -/
def eraseInsts (hs : List (Handle .inst)) : Edit ProgramError Unit :=
  hs.forM fun h => discard (eraseInst h)

/-- Promotes one slot of a function (`promote_slot`); says whether it could be. -/
def promoteSlot (f : Handle .function) (slot : Handle .inst) (type : Handle .type) :
    Edit ProgramError Bool := do
  let address := Value.inst slot
  let some annotations := (← get).promotable? address | return false
  let undefined ← Build.constant (.undef type)
  let p ← get
  let trace := p.slotTrace address (.constant undefined) (p.body f)
  trace.stores.forM fun (store, value) =>
    annotations.forM fun (_, callee) => discard (insertAfter store (.call callee [value]))
  trace.loads.forM fun (load, value) => do
    modify fun p => p.replaceUses (.inst load) value
    discard (eraseInst load)
  eraseInsts (annotations.map Prod.fst)
  eraseInsts (trace.stores.map Prod.fst)
  eraseInsts [slot]
  return true

/-- Promotes every slot of a function that can be (`promote_allocas`), and counts them. -/
def promote (f : Handle .function) : Edit ProgramError Nat := do
  let promoted ← ((← get).slots f).mapM fun (slot, type) => promoteSlot f slot type
  return promoted.count true

end Program

end ShaderModule

import ShaderModule.Table.Slots

/-!
# Slots with an order list

Globals and functions are walked in module order. Their slots come with a list of handles for that: a new
handle goes to its end, and the handle of what is erased is taken out of it.
-/

namespace ShaderModule

/-- Slots with a list of the handles of what they hold (`global_order`, `function_order`). -/
structure Listed (kind : Kind) (α : Type) extends Slots kind α where
  order : List (Handle kind)
deriving DecidableEq, Repr

namespace Listed

variable {kind : Kind} {α : Type}

def empty : Listed kind α := ⟨.empty, []⟩

instance : Inhabited (Listed kind α) := ⟨empty⟩

/-- Fills the next slot, and adds its handle at the end of the list. -/
def push (s : Listed kind α) (a : α) : Listed kind α := ⟨s.toSlots.push a, s.order ++ [s.next]⟩

/-- Empties a slot, and takes its handle out of the list. -/
def erase (s : Listed kind α) (h : Handle kind) : Listed kind α :=
  ⟨s.toSlots.erase h, s.order.filter (· ≠ h)⟩

/-- Changes the entity behind a handle, if it is still there. -/
def modify (s : Listed kind α) (h : Handle kind) (f : α → α) : Listed kind α :=
  ⟨s.toSlots.modify h f, s.order⟩

@[simp] theorem toSlots_push (s : Listed kind α) (a : α) : (s.push a).toSlots = s.toSlots.push a := rfl

@[simp] theorem toSlots_erase (s : Listed kind α) (h : Handle kind) :
    (s.erase h).toSlots = s.toSlots.erase h := rfl

@[simp] theorem toSlots_modify (s : Listed kind α) (h : Handle kind) (f : α → α) :
    (s.modify h f).toSlots = s.toSlots.modify h f := rfl

@[simp] theorem order_modify (s : Listed kind α) (h : Handle kind) (f : α → α) :
    (s.modify h f).order = s.order := rfl

end Listed

end ShaderModule

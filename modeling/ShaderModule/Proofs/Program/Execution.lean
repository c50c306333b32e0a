import ShaderModule.Program.Promotion

/-!
# Running a function

A function runs through its body once, in order. What the program cannot decide by itself, such as the
values of arguments or what lies in foreign memory, is left to an interpretation. What can be
observed of a run is its trace: stores outside the slots of the function, calls, and returns.
-/

namespace ShaderModule

/-- The address of a slot, or some other datum. -/
inductive Datum (D : Type) where
  | slot (h : Handle .inst)
  | other (d : D)
deriving DecidableEq

inductive Event (D : Type) where
  | store (ptr : D) (value : Datum D)
  | call (callee : Handle .function) (args : List (Datum D))
  | ret (value : Option (Datum D))
deriving DecidableEq

/-- What a program refers to and does not define. No part of an interpretation gives the address of a
slot; the results of loads and calls may depend on the trace so far. -/
structure Interp (D : Type) where
  /-- What an instruction has in place of a result until it has run. -/
  unset    : D
  global   : Handle .global → D
  function : Handle .function → D
  argument : Handle .function → UInt32 → D
  constant : Constant → D
  binary   : BinaryOp → Datum D → Datum D → D
  load     : List (Event D) → D → D
  call     : List (Event D) → Handle .function → List (Datum D) → D

/-- Nothing is told apart. -/
def Interp.blank : Interp Unit where
  unset        := ()
  global _     := ()
  function _   := ()
  argument _ _ := ()
  constant _   := ()
  binary _ _ _ := ()
  load _ _     := ()
  call _ _ _   := ()

/-- The state of a run. -/
structure Run (D : Type) where
  /-- The results of the instructions. -/
  results : Handle .inst → Datum D
  /-- The contents of the slots. -/
  cells   : Handle .inst → Datum D
  trace   : List (Event D)

namespace Run

variable {D : Type} (I : Interp D)

def initial : Run D := ⟨fun _ => .other I.unset, fun _ => .other I.unset, []⟩

variable (r : Run D)

def setResult (h : Handle .inst) (d : Datum D) : Run D :=
  { r with results := fun x => if x = h then d else r.results x }

def setCell (h : Handle .inst) (d : Datum D) : Run D :=
  { r with cells := fun x => if x = h then d else r.cells x }

def emit (e : Event D) : Run D := { r with trace := r.trace ++ [e] }

/-- The value of an operand. -/
def eval (p : Program) : Value → Datum D
  | .inst h => r.results h
  | .global h => .other (I.global h)
  | .function h => .other (I.function h)
  | .argument f index => .other (I.argument f index)
  | .constant h => .other (((p.constant? h).map I.constant).getD I.unset)

/-- What a load gives. -/
def read : Datum D → Datum D
  | .slot s => r.cells s
  | .other d => .other (I.load r.trace d)

/-- A store to a slot changes the slot; any other store can be seen. -/
def write (ptr value : Datum D) : Run D :=
  match ptr with
  | .slot s => r.setCell s value
  | .other d => r.emit (.store d value)

/-- Runs one instruction. Operands are evaluated by `ev`, and calls with one argument of the functions
that are `silent` leave no trace. -/
def step (silent : Handle .function → Bool) (ev : Value → Datum D) (h : Handle .inst) : InstKind → Run D
  | .alloca type => (r.setResult h (.slot h)).setCell h (.other (I.constant (.undef type)))
  | .load ptr => r.setResult h (r.read I (ev ptr))
  | .store ptr value => r.write (ev ptr) (ev value)
  | .binary op lhs rhs => r.setResult h (.other (I.binary op (ev lhs) (ev rhs)))
  | .call callee args =>
    let called := r.setResult h (.other (I.call r.trace callee (args.map ev)))
    if args.length = 1 ∧ silent callee then called else called.emit (.call callee (args.map ev))
  | .ret value => r.emit (.ret (value.map ev))

/-! ## What a step depends on -/

section Step

variable {I} {r} {r' : Run D} {p : Program} {silent silent' : Handle .function → Bool}
  {ev ev' : Value → Datum D} {h slot : Handle .inst} {k : InstKind}

/-- Of a run, the value of an operand depends on the result that it names. -/
theorem eval_congr {v : Value} (h : ∀ o, v = .inst o → r.results o = r'.results o) :
    r.eval I p v = r'.eval I p v := by
  cases v with
  | inst o => exact h o rfl
  | _ => rfl

/-- Mapping the operands and evaluating them is evaluating what they are mapped to. -/
theorem step_mapOperands (f : Value → Value) :
    r.step I silent ev h (k.mapOperands f) = r.step I silent (ev ∘ f) h k := by
  cases k with
  | ret value => cases value <;> rfl
  | call callee args => simp [step, InstKind.mapOperands]
  | _ => rfl

theorem step_congr (hev : ∀ v ∈ k.operands, ev v = ev' v)
    (hsilent : ∀ callee args, k = .call callee args → silent callee = silent' callee) :
    r.step I silent ev h k = r.step I silent' ev' h k := by
  cases k with
  | alloca type => rfl
  | load ptr => simp [step, hev ptr (by simp [InstKind.operands])]
  | store ptr value =>
    simp [step, hev ptr (by simp [InstKind.operands]), hev value (by simp [InstKind.operands])]
  | binary op lhs rhs =>
    simp [step, hev lhs (by simp [InstKind.operands]), hev rhs (by simp [InstKind.operands])]
  | call callee args =>
    have hargs : args.map ev = args.map ev' :=
      List.map_congr_left fun v hv => hev v (List.mem_cons_of_mem _ hv)
    simp [step, hargs, hsilent callee args rfl]
  | ret value =>
    cases value with
    | none => rfl
    | some v => simp [step, hev v (by simp [InstKind.operands])]

/-- A step gives a result to its own instruction only. -/
theorem results_step_of_ne {x : Handle .inst} (hx : x ≠ h) :
    (r.step I silent ev h k).results x = r.results x := by
  cases k with
  | alloca type => simp [step, setCell, setResult, hx]
  | load ptr => simp [step, setResult, hx]
  | store ptr value =>
    simp only [step, write]
    split <;> rfl
  | binary op lhs rhs => simp [step, setResult, hx]
  | call callee args =>
    simp only [step]
    split <;> simp [emit, setResult, hx]
  | ret value => rfl

/-- A slot changes only when it is allocated or given as an operand. -/
theorem cells_step_of_ne (hslot : slot ≠ h) (hev : ∀ v ∈ k.operands, ev v ≠ .slot slot) :
    (r.step I silent ev h k).cells slot = r.cells slot := by
  cases k with
  | alloca type => simp [step, setCell, setResult, hslot]
  | store ptr value =>
    have hptr := hev ptr (by simp [InstKind.operands])
    simp only [step, write]
    split
    · next s hs =>
      have hne : slot ≠ s := by
        rintro rfl
        exact hptr hs
      simp [setCell, hne]
    · rfl
  | call callee args =>
    simp only [step]
    split <;> rfl
  | load _ | binary _ _ _ | ret _ => rfl

end Step

/-! ## Runs that differ in one slot -/

section Slot

variable {I} {r} {r' : Run D} {p : Program} {silent : Handle .function → Bool} {ev : Value → Datum D}
  {h slot : Handle .inst} {k : InstKind}

/-- Runs that have the same trace, the same contents of all slots but one, and the same results where
it matters. -/
structure Agrees (slot : Handle .inst) (P : Handle .inst → Prop) (r r' : Run D) : Prop where
  trace   : r.trace = r'.trace
  cells   : ∀ s, s ≠ slot → r.cells s = r'.cells s
  results : ∀ x, P x → r.results x = r'.results x

namespace Agrees

variable {P Q : Handle .inst → Prop}

theorem trans {s : Run D} (h₁ : Agrees slot P r r') (h₂ : Agrees slot P r' s) : Agrees slot P r s := by
  refine ⟨h₁.trace.trans h₂.trace, ?_, ?_⟩
  · intro x hx
    exact (h₁.cells x hx).trans (h₂.cells x hx)
  · intro x hx
    exact (h₁.results x hx).trans (h₂.results x hx)

theorem symm (ha : Agrees slot P r r') : Agrees slot P r' r :=
  ⟨ha.trace.symm, fun x hx => (ha.cells x hx).symm, fun x hx => (ha.results x hx).symm⟩

theorem mono (ha : Agrees slot Q r r') (h : ∀ x, P x → Q x) : Agrees slot P r r' :=
  ⟨ha.trace, ha.cells, fun x hx => ha.results x (h x hx)⟩

/-- A result that does not matter may change. -/
theorem setResult_self (hh : ¬ P h) (d : Datum D) : Agrees slot P r (r.setResult h d) := by
  refine ⟨rfl, fun _ _ => rfl, ?_⟩
  intro x hx
  have hne : x ≠ h := fun heq => hh (heq ▸ hx)
  simp [Run.setResult, hne]

/-- So may the contents of the slot. -/
theorem setCell_self (d : Datum D) : Agrees slot P r (r.setCell slot d) := by
  refine ⟨rfl, ?_, fun _ _ => rfl⟩
  intro s hs
  simp [Run.setCell, hs]

theorem setResult (ha : Agrees slot P r r') (d : Datum D) :
    Agrees slot P (r.setResult h d) (r'.setResult h d) := by
  refine ⟨ha.trace, ha.cells, ?_⟩
  intro x hx
  by_cases hxh : x = h
  · simp [Run.setResult, hxh]
  · simpa [Run.setResult, hxh] using ha.results x hx

theorem setCell (ha : Agrees slot P r r') (s : Handle .inst) (d : Datum D) :
    Agrees slot P (r.setCell s d) (r'.setCell s d) := by
  refine ⟨ha.trace, ?_, ha.results⟩
  intro x hx
  by_cases hxs : x = s
  · simp [Run.setCell, hxs]
  · simpa [Run.setCell, hxs] using ha.cells x hx

theorem emit (ha : Agrees slot P r r') (e : Event D) : Agrees slot P (r.emit e) (r'.emit e) :=
  ⟨congrArg (· ++ [e]) ha.trace, ha.cells, ha.results⟩

/-- They still agree after a step that has nothing to do with that slot. -/
theorem step (ha : Agrees slot P r r') (hev : ∀ v ∈ k.operands, ev v ≠ .slot slot) :
    Agrees slot P (r.step I silent ev h k) (r'.step I silent ev h k) := by
  cases k with
  | alloca type => exact (ha.setResult _).setCell _ _
  | load ptr =>
    have hread : r.read I (ev ptr) = r'.read I (ev ptr) := by
      have hptr := hev ptr (by simp [InstKind.operands])
      cases hd : ev ptr with
      | slot s => exact ha.cells s fun hs => hptr (by rw [hd, hs])
      | other d => exact congrArg (fun t => Datum.other (I.load t d)) ha.trace
    simp only [Run.step, hread]
    exact ha.setResult _
  | store ptr value =>
    simp only [Run.step, write]
    split
    · exact ha.setCell _ _
    · exact ha.emit _
  | binary op lhs rhs => exact ha.setResult _
  | call callee args =>
    simp only [Run.step, ha.trace]
    split
    · exact ha.setResult _
    · exact (ha.setResult _).emit _
  | ret value => exact ha.emit _

end Agrees

/-- The address of a slot is to be found nowhere but as the result of the slot itself. -/
structure Hides (slot : Handle .inst) (r : Run D) : Prop where
  results : ∀ x, r.results x = .slot slot → x = slot
  cells   : ∀ s, r.cells s ≠ .slot slot

namespace Hides

theorem eval (hh : r.Hides slot) {v : Value} (hv : r.eval I p v = .slot slot) : v = .inst slot := by
  cases v with
  | inst o => rw [hh.results o hv]
  | _ => cases hv

theorem setResult (hh : r.Hides slot) {d : Datum D} (hd : d = .slot slot → h = slot) :
    (r.setResult h d).Hides slot := by
  refine ⟨?_, hh.cells⟩
  intro x hx
  by_cases hxh : x = h
  · rw [hxh]
    exact hd (by simpa [Run.setResult, hxh] using hx)
  · exact hh.results x (by simpa [Run.setResult, hxh] using hx)

theorem setCell (hh : r.Hides slot) {s : Handle .inst} {d : Datum D} (hd : d ≠ .slot slot) :
    (r.setCell s d).Hides slot := by
  refine ⟨hh.results, ?_⟩
  intro x
  by_cases hxs : x = s
  · simpa [Run.setCell, hxs] using hd
  · simpa [Run.setCell, hxs] using hh.cells x

theorem emit (hh : r.Hides slot) (e : Event D) : (r.emit e).Hides slot := ⟨hh.results, hh.cells⟩

/-- An address stays hidden as long as it is not stored. -/
theorem step (hh : r.Hides slot) (hstore : ∀ ptr v, k = .store ptr v → ev v ≠ .slot slot) :
    (r.step I silent ev h k).Hides slot := by
  cases k with
  | alloca type =>
    refine (hh.setResult ?_).setCell (by simp)
    rintro ⟨⟩
    rfl
  | load ptr =>
    refine hh.setResult fun hd => ?_
    cases hptr : ev ptr with
    | slot s =>
      rw [hptr] at hd
      exact absurd hd (hh.cells s)
    | other d =>
      rw [hptr] at hd
      cases hd
  | store ptr value =>
    simp only [Run.step, write]
    split
    · exact hh.setCell (hstore _ _ rfl)
    · exact hh.emit _
  | binary op lhs rhs => exact hh.setResult (by simp)
  | call callee args =>
    simp only [Run.step]
    split
    · exact hh.setResult (by simp)
    · exact (hh.setResult (by simp)).emit _
  | ret value => exact hh.emit _

end Hides

end Slot

end Run

namespace Program

variable {D : Type} (p : Program) (I : Interp D)

/-- Runs an instruction of the program. -/
def runInst (r : Run D) (h : Handle .inst) : Run D :=
  match p.instKind? h with
  | some kind => r.step I p.isAnnotator (r.eval I p) h kind
  | none => r

/-- Runs some instructions in order. -/
def runInsts (r : Run D) (hs : List (Handle .inst)) : Run D := hs.foldl (p.runInst I) r

/-- The trace of a run of a function. Annotations are not seen. -/
def traceOfRun (f : Handle .function) : List (Event D) := (p.runInsts I (.initial I) (p.body f)).trace

end Program

end ShaderModule

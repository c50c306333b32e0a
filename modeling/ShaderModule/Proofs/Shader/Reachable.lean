import ShaderModule.Program.Promotion
import ShaderModule.Proofs.Program.Along
import ShaderModule.Shader.Declaration
import ShaderModule.Shader.Removal

/-!
# Reachable modules

The operations that a client can call, in any order and with any arguments, on a program and on a
shader module around it. An operation that is refused leaves the module it had reached. What holds
of every reachable module is proved by a step lemma over the operations.
-/

namespace ShaderModule

/-! ## Operations on programs -/

inductive ProgramOp where
  | type (t : Ty)
  | constant (c : Constant)
  | node (n : Node)
  | addGlobal (g : Global)
  | modifyGlobal (h : Handle .global) (change : Global → Global)
  | eraseGlobal (h : Handle .global)
  | addFunction (name : String) (type : Handle .type)
  | ensureFunction (name : String) (type : Handle .type)
  | eraseFunction (h : Handle .function)
  | setFunctionMetadata (h : Handle .function) (kind : String) (node : Option (Handle .node))
  | valueType (v : Value)
  | insertAt (function : Handle .function) (pos : Nat) (kind : InstKind)
  | append (function : Handle .function) (kind : InstKind)
  | insertAfter (anchor : Handle .inst) (kind : InstKind)
  | insertBefore (anchor : Handle .inst) (kind : InstKind)
  | eraseInst (h : Handle .inst)
  | setInstMetadata (h : Handle .inst) (kind : String) (node : Option (Handle .node))
  | replaceAll (old new : Value)
  | setNamed (name : String) (operands : List (Handle .node))
  | addNamed (name : String) (operand : Handle .node)
  | removeNamed (name : String)
  | changeDebug (change : DebugInfo → DebugInfo)
  | promote (function : Handle .function)
  | tagInst (h : Handle .inst)
  | untagInst (h : Handle .inst)
  | markPointer (ptr : Value)
  | sweep

namespace ProgramOp

/-- The program that an operation leaves. -/
def apply (p : Program) : ProgramOp → Program
  | .type t => (Build.type t p).2
  | .constant c => (Build.constant c p).2
  | .node n => (Build.node n p).2
  | .addGlobal g => (Program.addGlobal g p).2
  | .modifyGlobal h change => p.modifyGlobal h change
  | .eraseGlobal h => after (Program.eraseGlobal h p)
  | .addFunction name t => after (Program.addFunction name t p)
  | .ensureFunction name t => after (Program.ensureFunction name t p)
  | .eraseFunction h => after (Program.eraseFunction h p)
  | .setFunctionMetadata h kind n => after (Program.setFunctionMetadata h kind n p)
  | .valueType v => after (Program.valueType v p)
  | .insertAt function pos kind => after (Program.insertAt function pos kind p)
  | .append function kind => after (Program.append function kind p)
  | .insertAfter anchor kind => after (Program.insertAfter anchor kind p)
  | .insertBefore anchor kind => after (Program.insertBefore anchor kind p)
  | .eraseInst h => after (Program.eraseInst h p)
  | .setInstMetadata h kind n => after (Program.setInstMetadata h kind n p)
  | .replaceAll old new => (Program.replaceAll old new p).2
  | .setNamed name operands => p.setNamed name operands
  | .addNamed name operand => p.addNamed name operand
  | .removeNamed name => p.removeNamed name
  | .changeDebug change => { p with debug := change p.debug }
  | .promote function => after (Program.promote function p)
  | .tagInst h => after (Precise.tagInst h p)
  | .untagInst h => after (Precise.untagInst h p)
  | .markPointer ptr => after (Precise.markPointer ptr p)
  | .sweep => after (Precise.sweep p)

end ProgramOp

/-! ## Operations on shader modules -/

inductive ShaderOp : Type 1 where
  | program (op : ProgramOp)
  | setProfile (x : Profile)
  | setOptions (x : Options)
  | setEntry (f : Option (Handle .function))
  | setEntryName (name : String)
  | setUsed (gs : List (Handle .global))
  | addResource {π : Type} (k : Listing π) (x : Bound π)
  | modifyResource {π : Type} (k : Listing π) (index : UInt32) (change : Bound π → Bound π)
  | removeResources (globals : List (Handle .global))
  | removeGlobal (g : Handle .global)
  | removeFunction (f : Handle .function)
  | addShared (g : Handle .global)
  | appendElement (kind : SignatureKind) (e : Element)
  | releaseSignature (kind : SignatureKind)
  | setRootSignature (bytes : List UInt8)
  | releaseRootSignature
  | addProps (f : Handle .function) (x : StageProps)
  | modifyProps (f : Handle .function) (stage : Stage) (change : StageProps → StageProps)
  | annotateType (h : Handle .type) (cls : ResourceClass) (kind : ResourceKind)
  | annotateStruct (h : Handle .type) (a : StructInfo)
  | modifyStruct (h : Handle .type) (change : StructInfo → StructInfo)
  | annotateFunction (f : Handle .function) (a : FunctionInfo)
  | modifyFunction (f : Handle .function) (change : FunctionInfo → FunctionInfo)
  | dropFunctionInfo (f : Handle .function)
  | releaseTypes
  | emit
  | load
  | clear
  | debugIndex
  | addDebugRecord (h : Handle .debugVariable)
  | replaceDebugRecord (old new : Handle .debugVariable)
  | splitDebugInfo (whole piece : Handle .global) (place : Placement) (suffix : String)
  | replaceDebugInfo (old new : Handle .global)
  | reopen

namespace ShaderOp

/-- The module that an operation leaves. -/
def apply (s : Shader) : ShaderOp → Shader
  | .program op => { s with program := op.apply s.program }
  | .setProfile x => after (Shader.setProfile x s)
  | .setOptions x => after (Shader.setOptions x s)
  | .setEntry f => after (Shader.setEntry f s)
  | .setEntryName name => after (Shader.setEntryName name s)
  | .setUsed gs => after (Shader.setUsed gs s)
  | .addResource k x => after (Shader.addResource k x s)
  | .modifyResource k index change => after (Shader.modifyResource k index change s)
  | .removeResources globals => after (Shader.removeResources globals s)
  | .removeGlobal g => after (Shader.removeGlobal g s)
  | .removeFunction f => after (Shader.removeFunction f s)
  | .addShared g => after (Shader.addShared g s)
  | .appendElement kind e => after (Shader.appendElement kind e s)
  | .releaseSignature kind => after (Shader.releaseSignature kind s)
  | .setRootSignature bytes => after (Shader.setRootSignature bytes s)
  | .releaseRootSignature => after (Shader.releaseRootSignature s)
  | .addProps f x => after (Shader.addProps f x s)
  | .modifyProps f stage change => after (Shader.modifyProps f stage change s)
  | .annotateType h cls kind => after (Shader.annotateType h cls kind s)
  | .annotateStruct h a => after (Shader.annotateStruct h a s)
  | .modifyStruct h change => after (Shader.modifyStruct h change s)
  | .annotateFunction f a => after (Shader.annotateFunction f a s)
  | .modifyFunction f change => after (Shader.modifyFunction f change s)
  | .dropFunctionInfo f => after (Shader.dropFunctionInfo f s)
  | .releaseTypes => after (Shader.releaseTypes s)
  | .emit => after (Shader.emit s)
  | .load => after (Shader.load s)
  | .clear => after (Shader.clear s)
  | .debugIndex => after (Shader.debugIndex s)
  | .addDebugRecord h => after (Shader.addDebugRecord h s)
  | .replaceDebugRecord old new => after (Shader.replaceDebugRecord old new s)
  | .splitDebugInfo whole piece place suffix => after (Shader.splitDebugInfo whole piece place suffix s)
  | .replaceDebugInfo old new => after (Shader.replaceDebugInfo old new s)
  | .reopen => s.reopen

end ShaderOp

/-! ## What actions leave -/

namespace Shader

variable {α : Type}

theorem after_onProgram (e : Edit ShaderError α) (s : Shader) :
    after (onProgram e s) = { s with program := after (e s.program) } := by
  simp only [onProgram]
  cases e s.program <;> rfl

theorem after_onDebug (x : DebugIndex) (a : DebugAct α) (s : Shader) :
    after (onDebug x a s) =
      { s with program := (after (a (s.program, x))).1, index := some (after (a (s.program, x))).2 } := by
  simp only [onDebug]
  cases a (s.program, x) <;> rfl

end Shader

/-! ## Runs -/

/-- What holds at first, and is kept by operations that are allowed where they come to, holds after all of them. -/
theorem foldl_of_allowed {σ : Type} {α : Type*} {step : σ → α → σ} {allowed : σ → α → Prop} {P : σ → Prop}
    (hstep : ∀ s op, P s → allowed s op → P (step s op)) {ops : List α} {s : σ} (h : P s)
    (hops : ∀ i (hi : i < ops.length), allowed ((ops.take i).foldl step s) ops[i]) : P (ops.foldl step s) := by
  induction ops generalizing s with
  | nil => exact h
  | cons op ops ih =>
    refine ih (hstep s op h (hops 0 (Nat.zero_lt_succ _))) fun i hi => ?_
    exact hops (i + 1) (Nat.succ_lt_succ hi)

/-- A module that some operations lead to, one after another, from an empty program. -/
def Shader.Reachable (s : Shader) : Prop :=
  ∃ (name : String) (ops : List ShaderOp), s = ops.foldl ShaderOp.apply (.ofProgram (.empty name))

/-- A program of a reachable module. -/
def Program.Reachable (p : Program) : Prop := ∃ s : Shader, s.Reachable ∧ s.program = p

theorem Program.reachable_foldl (name : String) (ops : List ProgramOp) :
    (ops.foldl ProgramOp.apply (.empty name)).Reachable := by
  have key : ∀ (ops : List ProgramOp) (s : Shader),
      ((ops.map ShaderOp.program).foldl ShaderOp.apply s).program = ops.foldl ProgramOp.apply s.program := by
    intro ops
    induction ops with
    | nil => exact fun s => rfl
    | cons op ops ih => exact fun s => ih _
  exact ⟨_, ⟨name, ops.map .program, rfl⟩, key ops _⟩

/-- What holds of empty modules and is kept by every operation holds of every reachable module. -/
theorem Shader.Reachable.induction {P : Shader → Prop} (hempty : ∀ name, P (.ofProgram (.empty name)))
    (hstep : ∀ s op, P s → P (ShaderOp.apply s op)) {s : Shader} (h : s.Reachable) : P s := by
  obtain ⟨name, ops, rfl⟩ := h
  exact foldl_of_allowed (fun s op hs (_ : True) => hstep s op hs) (hempty name) fun _ _ => trivial

end ShaderModule

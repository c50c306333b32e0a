import Mathlib.Data.String.Basic
import ShaderModule.Proofs.Precise.Edits
import ShaderModule.Proofs.Program.Consistent
import ShaderModule.Proofs.Program.DebugRelocation
import ShaderModule.Proofs.Record.Emission
import ShaderModule.Proofs.Shader.Reachable

/-!
# Reachable programs

The program of a reachable module comes from an empty one by steps, for every operation on a module
is a chain of steps of its program. The named entries of the program stay in order meanwhile. More
generally, an operation on a module goes along any relation that what it does to the program goes along.
-/

namespace ShaderModule

open Program

/-! ## Operations on programs -/

/-- Whether an operation is an edit that erases no function. The others change globals, named entries or debug
information, or may erase functions. -/
def ProgramOp.editsOnly : ProgramOp → Bool
  | .addGlobal _ | .modifyGlobal _ _ | .eraseGlobal _ | .eraseFunction _ | .setNamed _ _ | .addNamed _ _
  | .removeNamed _ | .changeDebug _ | .sweep => false
  | _ => true

namespace Program

/-- `q` comes from `p` by steps, and its globals and named entries are in order if those of `p` are. -/
structure Evolves (p q : Program) : Prop where
  steps   : p.Steps q
  globals : p.globals.InOrder → q.globals.InOrder
  sorted  : p.named.Sorted → q.named.Sorted

variable {p q r : Program}

theorem Evolves.refl (p : Program) : p.Evolves p := ⟨.refl, id, id⟩

theorem Evolves.trans (h : p.Evolves q) (k : q.Evolves r) : p.Evolves r :=
  ⟨h.steps.trans k.steps, k.globals ∘ h.globals, k.sorted ∘ h.sorted⟩

instance : Std.Refl Evolves := ⟨Evolves.refl⟩

instance : IsTrans Program Evolves := ⟨fun _ _ _ => Evolves.trans⟩

theorem Edits.evolves {kept : Handle .function → Prop} (h : p.Edits kept q) : p.Evolves q :=
  ⟨h.steps, fun hp => h.globals ▸ hp, fun hp => h.named ▸ hp⟩

/-- A change that leaves contents and code alone. -/
theorem quiet_of_same (htypes : q.types = p.types) (hconstants : q.constants = p.constants)
    (hnodes : q.nodes = p.nodes) (hfunctions : q.functions = p.functions) (hinsts : q.insts = p.insts) :
    p.Quiet q := by
  refine ⟨⟨?_, ?_, ?_⟩, hfunctions, hinsts, fun hp => ⟨?_, ?_, ?_⟩⟩
  · exact htypes ▸ List.prefix_refl _
  · exact hconstants ▸ List.prefix_refl _
  · exact hnodes ▸ List.prefix_refl _
  · exact htypes ▸ hp.types
  · exact hconstants ▸ hp.constants
  · exact hnodes ▸ hp.nodes

/-- A change of globals or debug information. -/
theorem evolves_of_same (htypes : q.types = p.types) (hconstants : q.constants = p.constants)
    (hnodes : q.nodes = p.nodes) (hfunctions : q.functions = p.functions) (hinsts : q.insts = p.insts)
    (hnamed : q.named = p.named) (hglobals : p.globals.InOrder → q.globals.InOrder) : p.Evolves q :=
  ⟨(quiet_of_same htypes hconstants hnodes hfunctions hinsts).steps, hglobals, fun hp => hnamed ▸ hp⟩

theorem evolves_setNamed (p : Program) (name : String) (operands : List (Handle .node)) :
    p.Evolves (p.setNamed name operands) := by
  have hquiet : p.Quiet (p.setNamed name operands) := quiet_of_same rfl rfl rfl rfl rfl
  exact ⟨hquiet.steps, id, fun hp => Ordered.sorted_insert hp name operands⟩

theorem evolves_removeNamed (p : Program) (name : String) : p.Evolves (p.removeNamed name) := by
  have hquiet : p.Quiet (p.removeNamed name) := quiet_of_same rfl rfl rfl rfl rfl
  exact ⟨hquiet.steps, id, fun hp => Ordered.sorted_erase hp name⟩

theorem after_eraseGlobal (h : Handle .global) (p : Program) :
    after (eraseGlobal h p) = { p with globals := p.globals.drop h } := by
  unfold eraseGlobal
  split
  · next hg =>
    rw [Listed.drop_of_get? hg]
    rfl
  · next hnone =>
    rw [Listed.drop_of_none hnone]
    rfl

theorem evolves_eraseGlobal (h : Handle .global) (p : Program) : p.Evolves (after (eraseGlobal h p)) := by
  rw [after_eraseGlobal]
  exact evolves_of_same rfl rfl rfl rfl rfl rfl fun hp => hp.drop h

theorem evolves_eraseFunction (h : Handle .function) (p : Program) :
    p.Evolves (after (eraseFunction h p)) := by
  have hedits : p.Edits (fun _ => False) (after (eraseFunction h p)) := edits_eraseFunction id p
  exact hedits.evolves

theorem edits_apply (kept : Handle .function → Prop) (op : ProgramOp) (hop : op.editsOnly) (p : Program) :
    p.Edits kept (op.apply p) := by
  cases op with
  | type t => exact (Build.growing_type t p).edits
  | constant c => exact (Build.growing_constant c p).edits
  | node n => exact (Build.growing_node n p).edits
  | addFunction name t => exact edits_addFunction name t p
  | ensureFunction name t => exact edits_ensureFunction name t p
  | setFunctionMetadata h kind n => exact edits_setFunctionMetadata h kind n p
  | valueType v => exact (grows_valueType v p).edits
  | insertAt function pos kind => exact edits_insertAt function pos kind p
  | append function kind => exact edits_append function kind p
  | insertAfter anchor kind => exact edits_insertAfter anchor kind p
  | insertBefore anchor kind => exact edits_insertBefore anchor kind p
  | eraseInst h => exact edits_eraseInst h p
  | setInstMetadata h kind n => exact edits_setInstMetadata h kind n p
  | replaceAll old new => exact edits_replaceUses old new p
  | promote function => exact edits_promote function p
  | tagInst h => exact Precise.edits_tagInst h p
  | untagInst h => exact edits_setInstMetadata h Precise.tag none p
  | markPointer ptr => exact Precise.edits_markPointer ptr p
  | _ => cases hop

theorem evolves_apply (op : ProgramOp) (p : Program) : p.Evolves (op.apply p) := by
  cases op with
  | addGlobal g => exact evolves_of_same rfl rfl rfl rfl rfl rfl fun hp => hp.push g
  | modifyGlobal h change => exact evolves_of_same rfl rfl rfl rfl rfl rfl fun hp => hp.modify h change
  | eraseGlobal h => exact evolves_eraseGlobal h p
  | eraseFunction h => exact evolves_eraseFunction h p
  | setNamed name operands => exact evolves_setNamed p name operands
  | addNamed name operand => exact evolves_setNamed p name _
  | removeNamed name => exact evolves_removeNamed p name
  | changeDebug change => exact evolves_of_same rfl rfl rfl rfl rfl rfl id
  | sweep => exact (Precise.edits_sweep p).evolves
  | _ => exact (edits_apply (fun _ => False) _ rfl p).evolves

end Program

/-! ## Operations on modules -/

section

variable {R : Program → Program → Prop} [Std.Refl R] [IsTrans Program R]
  (hremove : ∀ name p, R p (p.removeNamed name))

include hremove

theorem Program.along_clearGroups (p : Program) : R p p.clearGroups := by
  unfold clearGroups
  generalize Group.all = gs
  induction gs generalizing p with
  | nil => exact refl_of R p
  | cons g gs ih => exact trans_of R (hremove g.name p) (ih _)

theorem Tables.along_setGroups (hset : ∀ name operands p, R p (p.setNamed name operands))
    (groups : List (Group × List (Handle .node))) (p : Program) : R p (groups.foldl setGroup p) := by
  induction groups generalizing p with
  | nil => exact refl_of R p
  | cons g groups ih =>
    refine trans_of R ?_ (ih _)
    unfold setGroup
    split
    · exact hremove g.1.name p
    · exact hset g.1.name g.2 p

/-- Writing side-tables enters contents and changes named entries. -/
theorem Tables.along_emit (hset : ∀ name operands p, R p (p.setNamed name operands)) {t : Tables}
    (hbuild : ∀ p, R p (t.build p).2) : Along R t.emit := by
  intro p
  unfold emit
  split
  · exact refl_of R p
  · have hbuilt := hbuild p
    generalize t.build p = built at hbuilt
    obtain ⟨groups, q⟩ := built
    exact trans_of R hbuilt (along_setGroups hremove hset groups q)

end

namespace Tables

theorem growing_build (t : Tables) : Build.Growing t.build := t.stable_build.growing

theorem evolves_emit (t : Tables) : Along Program.Evolves t.emit := by
  refine along_emit (fun name p => evolves_removeNamed p name) (fun name operands p => evolves_setNamed p name operands)
    fun p => ?_
  have hedits : p.Edits (fun _ => False) (t.build p).2 := (growing_build t p).edits
  exact hedits.evolves

end Tables

namespace Shader

variable {s : Shader} {α : Type} {R : Program → Program → Prop}

/-- A relation between the programs of modules. -/
def OnPrograms (R : Program → Program → Prop) (s s' : Shader) : Prop := R s.program s'.program

instance [Std.Refl R] : Std.Refl (OnPrograms R) := ⟨fun s => refl_of R s.program⟩

instance [IsTrans Program R] : IsTrans Shader (OnPrograms R) := ⟨fun _ _ _ => trans_of R⟩

theorem along_onProgram {e : Edit ShaderError α} (he : Along R e) : Along (OnPrograms R) (onProgram e) := by
  intro s
  have hs := he s.program
  simp only [onProgram]
  cases hr : e s.program with
  | ok a p =>
    rw [hr] at hs
    exact hs
  | error cause p =>
    rw [hr] at hs
    exact hs

theorem along_host {e : Edit ProgramError α} (he : Along R e) : Along (OnPrograms R) (host e) :=
  along_onProgram (.adaptExcept he)

variable [Std.Refl R]

theorem along_onTables (f : Tables → Tables) : Along (OnPrograms R) (onTables f) :=
  .modify fun s => refl_of R s.program

variable [IsTrans Program R]

theorem along_removeResources (herase : ∀ g, Along R (eraseGlobal g)) (globals : List (Handle .global)) :
    Along (OnPrograms R) (removeResources globals) := by
  have hdrop : ∀ g, Along (OnPrograms R) (dropGlobal g) := by
    intro g
    refine .bind (along_onTables _) fun _ => .bind .get fun s => ?_
    split
    · exact .discard (along_host (herase g))
    · exact .pure _
  refine .bind .get fun s => .bind (along_onTables _) fun _ => ?_
  exact .bind (.forM hdrop _) fun _ => .pure _

/-- A move of debug information changes nothing else. -/
theorem along_relocate {move : DebugAct (Handle .debugVariable)} (hmove : Along Redescribed move)
    (hdebug : ∀ p debug, R p { p with debug }) : Along (OnPrograms R) (relocate move) := by
  refine .bind (fun s => refl_of R s.program) fun x s => ?_
  obtain ⟨debug, hq⟩ := hmove (s.program, x)
  rw [after_onDebug, hq]
  exact hdebug s.program debug

/-- An operation on a module does to its program what the operations on programs do: it is one of them, it erases a
global or a function, it writes the side-tables or takes them out, or it moves debug information. -/
theorem along_apply (hglobal : ∀ g, Along R (eraseGlobal g)) (hfunction : ∀ f, Along R (eraseFunction f))
    (hremove : ∀ name p, R p (p.removeNamed name)) (hemit : ∀ t : Tables, Along R t.emit)
    (hdebug : ∀ p debug, R p { p with debug }) (op : ShaderOp) (s : Shader)
    (hhost : ∀ host, op = .program host → R s.program (host.apply s.program)) :
    R s.program (op.apply s).program := by
  cases op with
  | program op => exact hhost op rfl
  | removeResources globals => exact along_removeResources hglobal globals s
  | removeGlobal g =>
    have hremoved : Along (OnPrograms R) (removeGlobal g) :=
      .bind (along_onTables _) fun _ => .discard (along_host (hglobal g))
    exact hremoved s
  | removeFunction f =>
    have hremoved : Along (OnPrograms R) (removeFunction f) :=
      .bind (along_onTables _) fun _ => .discard (along_host (hfunction f))
    exact hremoved s
  | emit =>
    have hwritten : Along (OnPrograms R) emit := .bind .get fun s => along_onProgram (hemit s.tables)
    exact hwritten s
  | splitDebugInfo whole piece place suffix => exact along_relocate (redescribed_splitDebugInfo whole piece place suffix) hdebug s
  | replaceDebugInfo old new => exact along_relocate (redescribed_replaceDebugInfo old new) hdebug s
  | clear => exact along_clearGroups hremove s.program
  | load =>
    simp only [ShaderOp.apply, load]
    split <;> exact refl_of R _
  | modifyResource k index change =>
    simp only [ShaderOp.apply, modifyResource]
    split <;> exact refl_of R _
  | addShared g =>
    simp only [ShaderOp.apply, addShared]
    split
    · exact refl_of R _
    · split <;> exact refl_of R _
  | modifyProps f stage change =>
    simp only [ShaderOp.apply, modifyProps]
    split
    · exact refl_of R _
    · split <;> exact refl_of R _
  | _ => exact refl_of R _

/-- Every operation on a module makes its program evolve. -/
theorem evolves_apply (op : ShaderOp) (s : Shader) : s.program.Evolves (op.apply s).program :=
  along_apply evolves_eraseGlobal evolves_eraseFunction (fun name p => evolves_removeNamed p name)
    Tables.evolves_emit (fun _ _ => evolves_of_same rfl rfl rfl rfl rfl rfl id) op s
    fun host _ => Program.evolves_apply host s.program

end Shader

namespace Program.Reachable

variable {p : Program}

/-- A reachable program evolves from an empty one. -/
theorem evolves (h : p.Reachable) : ∃ name, (empty name).Evolves p := by
  obtain ⟨s, hs, rfl⟩ := h
  refine hs.induction (P := fun s => ∃ name, (empty name).Evolves s.program) (fun name => ⟨name, .refl _⟩) ?_
  rintro s op ⟨name, hevolves⟩
  exact ⟨name, hevolves.trans (Shader.evolves_apply op s)⟩

theorem consistent (h : p.Reachable) : p.Consistent := by
  obtain ⟨name, hevolves⟩ := h.evolves
  exact consistent_steps hevolves.steps (consistent_empty name)

/-- A reachable program has no type, constant or node twice. -/
theorem uniqued (h : p.Reachable) : p.Uniqued := by
  obtain ⟨name, hevolves⟩ := h.evolves
  exact hevolves.steps.uniqued ⟨Interned.exact_empty, Interned.exact_empty, Interned.exact_empty⟩

/-- The globals of a reachable program are listed in order. -/
theorem globals_inOrder (h : p.Reachable) : p.globals.InOrder := by
  obtain ⟨name, hevolves⟩ := h.evolves
  exact hevolves.globals Listed.inOrder_empty

/-- The named entries of a reachable program are in order. -/
theorem sorted (h : p.Reachable) : p.named.Sorted := by
  obtain ⟨name, hevolves⟩ := h.evolves
  exact hevolves.sorted Ordered.sorted_empty

end Program.Reachable

end ShaderModule

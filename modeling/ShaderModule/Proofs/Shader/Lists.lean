import ShaderModule.Proofs.Shader.Capacity
import ShaderModule.Proofs.Shader.Removal

/-!
# Operations and lists

Few operations of a module have to do with the lists that it keeps: the records of resources, the elements of
signatures and the globals of group-shared memory. All others leave these lists alone, and the globals of the
program with them.
-/

namespace ShaderModule

/-- The lists of a module and the globals of its program are those of another one. -/
structure Shader.SameLists (s s' : Shader) : Prop where
  resources  : s'.tables.resources = s.tables.resources
  signatures : s'.tables.signatures = s.tables.signatures
  shared     : s'.tables.shared = s.tables.shared
  globals    : s'.program.globals = s.program.globals

/-- Whether an operation is about the lists of a module, or about its program alone. -/
def ShaderOp.isAboutLists : ShaderOp → Bool
  | .program _ | .addResource _ _ | .modifyResource _ _ _ | .removeResources _ | .removeGlobal _ | .addShared _
  | .appendElement _ _ | .releaseSignature _ | .load | .reopen => true
  | _ => false

theorem Tables.globals_emit (t : Tables) (p : Program) : (after (t.emit p)).globals = p.globals := by
  unfold emit
  split
  · rfl
  · have hgrow : p.Edits (fun _ => False) (t.build p).2 := (growing_build t p).edits
    have hglobals : (t.build p).2.globals = p.globals := hgrow.globals
    generalize t.build p = built at hglobals
    obtain ⟨groups, q⟩ := built
    obtain ⟨named, hrest⟩ := foldl_setGroup_rest groups q
    show (groups.foldl setGroup q).globals = p.globals
    rw [hrest]
    exact hglobals

theorem Program.globals_clearGroups (p : Program) : p.clearGroups.globals = p.globals := by
  unfold clearGroups
  generalize Group.all = gs
  induction gs generalizing p with
  | nil => rfl
  | cons g gs ih => exact ih _

theorem Program.globals_eraseFunction (f : Handle .function) (p : Program) :
    (after (eraseFunction f p)).globals = p.globals := by
  have hedits : p.Edits (fun _ => False) (after (eraseFunction f p)) := edits_eraseFunction id p
  exact hedits.globals

theorem Registry.setList_list {π : Type} (r : Registry) (k : Listing π) : r.setList k (r.list k) = r := by
  cases k <;> rfl

namespace Shader

variable {s s' : Shader}

theorem SameLists.refl (s : Shader) : s.SameLists s := ⟨rfl, rfl, rfl, rfl⟩

instance : IsTrans Shader SameLists := ⟨fun _ _ _ h h' =>
  ⟨h'.resources.trans h.resources, h'.signatures.trans h.signatures, h'.shared.trans h.shared,
    h'.globals.trans h.globals⟩⟩

/-- A move of debug information has nothing to do with the lists. -/
theorem sameLists_relocate {move : DebugAct (Handle .debugVariable)} (hmove : Along Program.Redescribed move) :
    Along SameLists (relocate move) := by
  refine .bind (fun _ => ⟨rfl, rfl, rfl, rfl⟩) fun x s => ?_
  obtain ⟨debug, hdebug⟩ := hmove (s.program, x)
  rw [after_onDebug, hdebug]
  exact ⟨rfl, rfl, rfl, rfl⟩

/-- What is not about lists leaves them alone. -/
theorem sameLists_apply {op : ShaderOp} (hop : op.isAboutLists = false) (s : Shader) :
    s.SameLists (op.apply s) := by
  cases op with
  | program | addResource | modifyResource | removeResources | removeGlobal | addShared | appendElement
  | releaseSignature | load | reopen => cases hop
  | removeFunction f =>
    simp only [ShaderOp.apply, after_removeFunction]
    exact ⟨rfl, rfl, rfl, Program.globals_eraseFunction f s.program⟩
  | modifyProps f stage change =>
    simp only [ShaderOp.apply, modifyProps]
    split
    · exact .refl s
    · split <;> exact ⟨rfl, rfl, rfl, rfl⟩
  | emit =>
    show SameLists s (after (onProgram s.tables.emit s))
    rw [after_onProgram]
    exact ⟨rfl, rfl, rfl, s.tables.globals_emit s.program⟩
  | clear => exact ⟨rfl, rfl, rfl, s.program.globals_clearGroups⟩
  | splitDebugInfo whole piece place suffix => exact sameLists_relocate (Program.redescribed_splitDebugInfo whole piece place suffix) s
  | replaceDebugInfo old new => exact sameLists_relocate (Program.redescribed_replaceDebugInfo old new) s
  | _ => exact ⟨rfl, rfl, rfl, rfl⟩

/-! ## Operations on one list -/

theorem addShared_apply (s : Shader) (g : Handle .global) :
    ∃ shared, (ShaderOp.addShared g).apply s = { s with tables := { s.tables with shared } } := by
  simp only [ShaderOp.apply, addShared]
  split
  · exact ⟨s.tables.shared, rfl⟩
  · split <;> exact ⟨_, rfl⟩

theorem resource_eq_ok {π : Type} {k : Listing π} {index : UInt32} {x : Bound π} :
    s.resource k index = .ok x ↔ (s.tables.resources.list k)[index.toNat]? = some x := by
  unfold resource
  cases (s.tables.resources.list k)[index.toNat]? <;> simp

/-- A change of a record replaces it in its list, if there is one at the index. -/
theorem modifyResource_apply {π : Type} (s : Shader) (k : Listing π) (index : UInt32)
    (change : Bound π → Bound π) : (ShaderOp.modifyResource k index change).apply s = { s with
      tables := { s.tables with
        resources := s.tables.resources.setList k ((s.tables.resources.list k).modify index.toNat change) } } := by
  simp only [ShaderOp.apply, modifyResource]
  cases hx : s.resource k index with
  | ok x =>
    obtain ⟨hlt, rfl⟩ := List.getElem?_eq_some_iff.1 (resource_eq_ok.1 hx)
    rw [List.modify_eq_set_getElem?, List.getElem?_eq_getElem hlt]
    rfl
  | error cause =>
    have hnone : (s.tables.resources.list k)[index.toNat]? = none := by
      refine Option.eq_none_iff_forall_ne_some.2 fun x hsome => ?_
      rw [resource_eq_ok.2 hsome] at hx
      cases hx
    rw [List.modify_eq_set_getElem?, hnone, Option.map_eq_map, Option.map_none, Option.getD_none,
      Registry.setList_list]
    rfl

/-! ## Writing and reading -/

theorem emit_eq_ok : emit s = .ok () s' ↔
    ∃ q, s.tables.emit s.program = .ok () q ∧ s' = { s with program := q } := by
  show onProgram s.tables.emit s = _ ↔ _
  unfold onProgram
  cases s.tables.emit s.program <;> simp [eq_comm]

theorem load_eq_ok : load s = .ok () s' ↔ ∃ t, Tables.load s.program = .ok t ∧ s' = { s with tables := t } := by
  unfold load
  cases Tables.load s.program <;> simp [eq_comm]

/-- What was written is read again in normal form, if no reserved option is set and handles of nodes fit into
a word. -/
theorem load_of_emit (horderly : s.tables.Orderly) (hoptions : Options.reserved s.tables.options.bits = 0)
    (hemit : emit s = .ok () s') (hnodes : s'.program.nodes.entries.length ≤ UInt32.size) :
    load s' = .ok () { s' with tables := s.tables.normal s.program } := by
  obtain ⟨q, hq, rfl⟩ := emit_eq_ok.1 hemit
  have hbounded := Tables.bounded_of_emit horderly hq hnodes
  have hwell := horderly.wellFormed hoptions hbounded.resources hbounded.signatures
  exact load_eq_ok.2 ⟨_, Tables.load_of_emit hwell hq, rfl⟩

/-! ## Removals -/

theorem removed_apply (s : Shader) (gs : List (Handle .global)) :
    Removed gs s ((ShaderOp.removeResources gs).apply s) := by
  obtain ⟨s', hrun, hs'⟩ := removeResources_eq s gs
  simpa only [ShaderOp.apply, hrun, after] using hs'

theorem removeGlobal_apply (s : Shader) (g : Handle .global) : (ShaderOp.removeGlobal g).apply s = { s with
    tables := (s.tables.unbind [g]).forgetGlobal g
    program := { s.program with globals := s.program.globals.drop g } } := by
  simp only [ShaderOp.apply, after_removeGlobal, Program.after_eraseGlobal]

end Shader

end ShaderModule

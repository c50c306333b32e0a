import ShaderModule.Proofs.Program.Splice
import ShaderModule.Proofs.Shader.Steps

/-!
# Handles, bodies and order lists

What is known about the entities of a program is kept in several places: the tables of globals, functions
and instructions, the order lists of globals and functions, the bodies of functions and the parents of
instructions. They agree after every run of operations. A handle whose entity was erased finds nothing for
ever after and is not given out again, and to insert or erase an instruction does not move the others.
-/

namespace ShaderModule

/-- What an operation does to the table of globals. -/
def ProgramOp.onGlobals (s : Listed .global Global) : ProgramOp → Listed .global Global
  | .addGlobal g => s.push g
  | .modifyGlobal h change => s.modify h change
  | .eraseGlobal h => s.drop h
  | _ => s

namespace Program

variable {p q r : Program}

/-! ## Steps as changes of tables -/

/-- A step changes the tables of functions and instructions as tables are changed. -/
theorem Step.changes (h : p.Step q) : p.functions.Changes q.functions.toSlots ∧ p.insts.Changes q.insts := by
  cases h with
  | quiet h =>
    rw [h.functions, h.insts]
    exact ⟨.refl, .refl⟩
  | declare => exact ⟨.single (.push _ _), .refl⟩
  | eraseFunction => exact ⟨.single (.erase _ _), .foldl_erase _ _⟩
  | attachFunction => exact ⟨.single (.modify _ _ _), .refl⟩
  | place => exact ⟨.single (.modify _ _ _), .single (.push _ _)⟩
  | eraseInst => exact ⟨.single (.modify _ _ _), .single (.erase _ _)⟩
  | attachInst => exact ⟨.refl, .single (.modify _ _ _)⟩
  | replace => exact ⟨.refl, .single (.mapAll _ _)⟩

theorem Steps.changes (h : p.Steps q) : p.functions.Changes q.functions.toSlots ∧ p.insts.Changes q.insts := by
  induction h with
  | refl => exact ⟨.refl, .refl⟩
  | tail _ hstep ih => exact ⟨ih.1.trans hstep.changes.1, ih.2.trans hstep.changes.2⟩

/-- No operation changes globals but those that are about one. -/
theorem globals_apply (op : ProgramOp) (p : Program) : (op.apply p).globals = op.onGlobals p.globals := by
  cases op with
  | addGlobal g => rfl
  | modifyGlobal h change => rfl
  | eraseGlobal h =>
    show (after (eraseGlobal h p)).globals = p.globals.drop h
    rw [after_eraseGlobal]
  | eraseFunction h =>
    have hedits : p.Edits (fun _ => False) (after (eraseFunction h p)) := edits_eraseFunction id p
    exact hedits.globals
  | setNamed name operands => rfl
  | addNamed name operand => rfl
  | removeNamed name => rfl
  | changeDebug change => rfl
  | sweep => exact (Precise.edits_sweep p).globals
  | _ => exact (edits_apply (fun _ => False) _ rfl p).globals

/-- An operation changes the table of globals as tables are changed. -/
theorem changes_globals (op : ProgramOp) (p : Program) : p.globals.Changes (op.apply p).globals.toSlots := by
  rw [globals_apply]
  cases op with
  | addGlobal g => exact .single (.push _ _)
  | modifyGlobal h change => exact .single (.modify _ _ _)
  | eraseGlobal h =>
    rw [ProgramOp.onGlobals, Listed.toSlots_drop]
    exact .single (.erase _ _)
  | _ => exact .refl

/-! ## Names of functions -/

/-- No two functions have one name. -/
def NamedApart (p : Program) : Prop :=
  ∀ f g x y, p.function? f = some x → p.function? g = some y → x.name = y.name → f = g

/-- Functions that had their names before still differ in them. -/
theorem NamedApart.of_names (hp : p.NamedApart)
    (h : ∀ f y, q.function? f = some y → ∃ x, p.function? f = some x ∧ x.name = y.name) : q.NamedApart := by
  intro f g x y hx hy hname
  obtain ⟨x', hx', hfx⟩ := h f x hx
  obtain ⟨y', hy', hgy⟩ := h g y hy
  exact hp f g x' y' hx' hy' (hfx.trans (hname.trans hgy.symm))

theorem NamedApart.modify (hp : p.NamedApart) {h : Handle .function} {change : Function → Function}
    (hq : q.functions = p.functions.modify h change) (hname : ∀ f, (change f).name = f.name) :
    q.NamedApart := by
  refine hp.of_names fun f y hy => ?_
  rw [function?, hq] at hy
  rcases Slots.get?_modify_eq_some.1 hy with ⟨-, hy⟩ | ⟨-, x, hx, rfl⟩
  · exact ⟨y, hy, rfl⟩
  · exact ⟨x, hx, (hname x).symm⟩

/-- There is no function of a name that is not found, if all of them are listed. -/
theorem ne_of_functionNamed? (horder : p.functions.InOrder) {name : String} (hnone : p.functionNamed? name = none)
    {f : Handle .function} {x : Function} (hx : p.function? f = some x) : x.name ≠ name := by
  have hno := List.find?_eq_none.1 hnone f ((horder.exact f).2 ⟨x, hx⟩)
  simpa [hx] using hno

theorem hasFunction_of_functionNamed? {name : String} {f : Handle .function}
    (hf : p.functionNamed? name = some f) : p.hasFunction f := by
  have hnamed := List.find?_some hf
  obtain ⟨x, hx, -⟩ := (Option.any_eq_true _ _).1 hnamed
  exact Option.isSome_of_eq_some hx

theorem NamedApart.declare (hp : p.NamedApart) (horder : p.functions.InOrder) {name : String}
    (hname : p.functionNamed? name = none) (type : Handle .type) :
    NamedApart { p with functions := p.functions.push ⟨name, type, [], .empty⟩ } := by
  intro f g x y hx hy hsame
  rcases Slots.get?_push_eq_some.1 hx with ⟨rfl, rfl⟩ | hx <;>
    rcases Slots.get?_push_eq_some.1 hy with ⟨rfl, rfl⟩ | hy
  · rfl
  · exact absurd hsame.symm (ne_of_functionNamed? horder hname hy)
  · exact absurd hsame (ne_of_functionNamed? horder hname hx)
  · exact hp f g x y hx hy hsame

theorem NamedApart.step (hp : p.NamedApart) (horder : p.functions.InOrder) (h : p.Step q) : q.NamedApart := by
  cases h with
  | quiet h => exact hp.of_names fun f y hy => ⟨y, (h.function? f).symm.trans hy, rfl⟩
  | declare htype hname => exact hp.declare horder hname _
  | eraseFunction hf => exact hp.of_names fun f y hy => ⟨y, (Slots.get?_erase_eq_some.1 hy).2, rfl⟩
  | attachFunction h attach => exact hp.modify rfl fun _ => rfl
  | place pos => exact hp.modify rfl fun _ => rfl
  | eraseInst hi => exact hp.modify rfl fun _ => rfl
  | attachInst | replace => exact hp

theorem NamedApart.steps (hp : p.NamedApart) (hc : p.Consistent) (h : p.Steps q) : q.NamedApart := by
  induction h with
  | refl => exact hp
  | tail hsteps hstep ih => exact ih.step (consistent_steps hsteps hc).order hstep

/-! ## Agreement -/

/-- The tables, order lists, bodies and parents of a program agree. -/
structure Agrees (p : Program) : Prop where
  globals   : p.globals.InOrder
  functions : p.functions.InOrder
  names     : p.NamedApart
  listed    : ∀ f, ∀ h ∈ p.body f, ∃ i, p.inst? h = some i ∧ i.parent = f
  placed    : ∀ h, p.hasInst h → ∃! place : Handle .function × Nat, (p.body place.1)[place.2]? = some h

/-- An instruction has one place only. -/
theorem Consistent.placed (hp : p.Consistent) {h : Handle .inst} (hh : p.hasInst h) :
    ∃! place : Handle .function × Nat, (p.body place.1)[place.2]? = some h := by
  obtain ⟨i, hi⟩ := Option.isSome_iff_exists.1 hh
  obtain ⟨n, hn⟩ := List.mem_iff_getElem?.1 (mem_body_of_inst? hp hi)
  refine ⟨(i.parent, n), hn, ?_⟩
  rintro ⟨f, m⟩ hm
  obtain ⟨j, hj, rfl⟩ := inst?_of_mem_body hp (List.mem_of_getElem? hm)
  cases hi.symm.trans hj
  have hlt : m < (p.body i.parent).length := (List.getElem?_eq_some_iff.1 hm).1
  rw [(List.getElem?_inj hlt (nodup_body hp i.parent)).1 (hm.trans hn.symm)]

end Program

/-! ## Handles -/

/-- A handle of a kind whose entities can be erased. -/
inductive Item where
  | global (h : Handle .global)
  | function (h : Handle .function)
  | inst (h : Handle .inst)
deriving DecidableEq, Repr

namespace Program

variable {p q r : Program} {x : Item}

def Finds (p : Program) : Item → Prop
  | .global h => p.hasGlobal h
  | .function h => p.hasFunction h
  | .inst h => p.hasInst h

/-- The handle has been given out at some time. -/
def Issued (p : Program) : Item → Prop
  | .global h => h < p.globals.next
  | .function h => h < p.functions.next
  | .inst h => h < p.insts.next

/-- The handle was given out, and its entity has been erased since. -/
def Erased (p : Program) (x : Item) : Prop := p.Issued x ∧ ¬ p.Finds x

/-- The tables of `q` come from those of `p` by changes. -/
structure Later (p q : Program) : Prop where
  globals   : p.globals.Changes q.globals.toSlots
  functions : p.functions.Changes q.functions.toSlots
  insts     : p.insts.Changes q.insts

theorem later_apply (op : ProgramOp) (p : Program) : p.Later (op.apply p) where
  globals   := changes_globals op p
  functions := (evolves_apply op p).steps.changes.1
  insts     := (evolves_apply op p).steps.changes.2

theorem Later.trans (h : p.Later q) (k : q.Later r) : p.Later r :=
  ⟨h.globals.trans k.globals, h.functions.trans k.functions, h.insts.trans k.insts⟩

theorem later_foldl (ops : List ProgramOp) (p : Program) : p.Later (ops.foldl ProgramOp.apply p) := by
  induction ops generalizing p with
  | nil => exact ⟨.refl, .refl, .refl⟩
  | cons op ops ih => exact (later_apply op p).trans (ih _)

theorem erased_iff {kind : Kind} {α : Type} {s : Slots kind α} {h : Handle kind} :
    (h < s.next ∧ ¬ (s.get? h).isSome) ↔ s.Erased h := by
  simp [Slots.Erased]

/-- What was erased stays so. -/
theorem Later.erased (h : p.Later q) (hx : p.Erased x) : q.Erased x := by
  cases x with
  | global g => exact erased_iff.2 (h.globals.erased (erased_iff.1 hx))
  | function f => exact erased_iff.2 (h.functions.erased (erased_iff.1 hx))
  | inst i => exact erased_iff.2 (h.insts.erased (erased_iff.1 hx))

theorem Later.issued (h : p.Later q) (hx : p.Finds x) : q.Issued x := by
  cases x with
  | global g => exact h.globals.lt_next hx
  | function f => exact h.functions.lt_next hx
  | inst i => exact h.insts.lt_next hx

end Program

/-! ## Handles that are given out -/

/-- What an action gives out, if it succeeds. -/
def outcome? {ε σ α : Type} : EStateM.Result ε σ α → Option α
  | .ok a _ => some a
  | .error _ _ => none

theorem outcome?_eq_some {ε σ α : Type} {r : EStateM.Result ε σ α} {a : α} :
    outcome? r = some a ↔ ∃ s, r = .ok a s := by
  cases r <;> simp [outcome?]

theorem mem_map_outcome? {ε σ α : Type} {r : EStateM.Result ε σ α} {f : α → Item} {x : Item} :
    x ∈ ((outcome? r).map f).toList ↔ ∃ a s, r = .ok a s ∧ f a = x := by
  simp [outcome?_eq_some]

/-- The handles of globals, functions and instructions that an operation gives out. -/
def ProgramOp.issues (p : Program) : ProgramOp → List Item
  | .addGlobal g => [.global (Program.addGlobal g p).1]
  | .addFunction name t => ((outcome? (Program.addFunction name t p)).map .function).toList
  | .ensureFunction name t => ((outcome? (Program.ensureFunction name t p)).map .function).toList
  | .insertAt function pos kind => ((outcome? (Program.insertAt function pos kind p)).map .inst).toList
  | .append function kind => ((outcome? (Program.append function kind p)).map .inst).toList
  | .insertAfter anchor kind => ((outcome? (Program.insertAfter anchor kind p)).map .inst).toList
  | .insertBefore anchor kind => ((outcome? (Program.insertBefore anchor kind p)).map .inst).toList
  | .markPointer ptr => ((outcome? (Precise.markPointer ptr p)).getD []).map .inst
  | _ => []

namespace Program

variable {p q : Program} {x : Item}

section

variable {name : String} {type : Handle .type} {f : Handle .function}

theorem addFunction_eq_ok (hf : addFunction name type p = .ok f q) : f = p.functions.next := by
  unfold addFunction at hf
  split at hf
  · cases hf
  · split at hf
    · cases hf
    · cases hf
      rfl

/-- The function of a name was there, or it is new and has the type asked for. -/
theorem ensureFunction_cases (hf : ensureFunction name type p = .ok f q) :
    (p.functionNamed? name = some f ∧ q = p) ∨ (p.functionNamed? name = none ∧ f = p.functions.next ∧
      q = { p with functions := p.functions.push ⟨name, type, [], .empty⟩ }) := by
  unfold ensureFunction at hf
  split at hf
  · next hnamed =>
    cases hf
    exact .inl ⟨hnamed, rfl⟩
  · next hnamed =>
    unfold addFunction at hf
    split at hf
    · cases hf
    · split at hf
      · cases hf
      · cases hf
        exact .inr ⟨hnamed, rfl, rfl⟩

theorem ensureFunction_eq_ok (hf : ensureFunction name type p = .ok f q) :
    p.hasFunction f ∨ f = p.functions.next := by
  rcases ensureFunction_cases hf with ⟨hnamed, -⟩ | ⟨-, hnext, -⟩
  · exact .inl (hasFunction_of_functionNamed? hnamed)
  · exact .inr hnext

end

/-- An instruction is inserted under the next handle, or the insertion is refused. Contents may have been
entered while the type was worked out. -/
inductive Inserts (p : Program) : EStateM.Result ProgramError Program (Handle .inst) → Prop where
  | refused {q : Program} (hq : p.Quiet q) (e : ProgramError) : Inserts p (.error e q)
  | placed {q : Program} (hq : p.Quiet q) (pos : Nat) (i : Inst) : Inserts p (.ok q.insts.next (placeInst pos i q).2)

theorem inserts_insertAt (f : Handle .function) (pos : Nat) (kind : InstKind) (p : Program) :
    Inserts p (insertAt f pos kind p) := by
  cases hf : p.hasFunction f with
  | false =>
    rw [insertAt_of_not hf]
    exact .refused (.refl p) _
  | true =>
    have hgrows := grows_resultType kind p
    rw [insertAt_eq hf]
    cases hr : resultType kind p with
    | error e q =>
      rw [hr] at hgrows
      exact .refused (Grows.quiet hgrows) e
    | ok type q =>
      rw [hr] at hgrows
      exact .placed (Grows.quiet hgrows) pos _

theorem inserts_append (f : Handle .function) (kind : InstKind) (p : Program) :
    Inserts p (append f kind p) := by
  simp only [append, get_bind_eq]
  cases p.function? f with
  | some g => exact inserts_insertAt f g.body.length kind p
  | none => exact .refused (.refl p) _

theorem inserts_insertAfter (anchor : Handle .inst) (kind : InstKind) (p : Program) :
    Inserts p (insertAfter anchor kind p) := by
  rw [insertAfter_eq]
  split
  · exact inserts_insertAt _ _ kind p
  · exact .refused (.refl p) _

theorem inserts_insertBefore (anchor : Handle .inst) (kind : InstKind) (p : Program) :
    Inserts p (insertBefore anchor kind p) := by
  simp only [insertBefore, get_bind_eq]
  cases p.position? anchor with
  | some place => exact inserts_insertAt place.1 place.2 kind p
  | none => exact .refused (.refl p) _

theorem Inserts.eq_next {r : EStateM.Result ProgramError Program (Handle .inst)} {h : Handle .inst}
    (hr : Inserts p r) (hh : r = .ok h q) : h = p.insts.next := by
  cases hr with
  | refused hq e => cases hh
  | placed hq pos i =>
    cases hh
    rw [hq.insts]

/-- Instructions that are inserted one after another have handles that are all new. -/
theorem next_le_of_mapM {α : Type} {f : α → Edit ProgramError (Handle .inst)}
    (hins : ∀ a p, Inserts p (f a p)) (hsteps : ∀ a, Along (Edits fun _ => False) (f a)) {as : List α}
    {hs : List (Handle .inst)} (hrun : as.mapM f p = .ok hs q) : ∀ h ∈ hs, p.insts.next.index ≤ h.index := by
  induction as generalizing p hs with
  | nil =>
    rw [List.mapM_nil] at hrun
    cases hrun
    exact List.forall_mem_nil _
  | cons a as ih =>
    rw [List.mapM_cons] at hrun
    obtain ⟨h, r, hh, hrun⟩ := action_bind_eq_ok.1 hrun
    obtain ⟨hs', r', hhs, hrun⟩ := action_bind_eq_ok.1 hrun
    cases hrun
    have hle := next_le_of_steps (steps_of_ok (hsteps a) hh)
    refine List.forall_mem_cons.2 ⟨Nat.le_of_eq (by rw [(hins a p).eq_next hh]), fun k hk => ?_⟩
    exact Nat.le_trans hle (ih hhs k hk)

theorem next_le_of_markPointer {ptr : Value} {hs : List (Handle .inst)}
    (hrun : Precise.markPointer ptr p = .ok hs q) : ∀ h ∈ hs, p.insts.next.index ≤ h.index := by
  obtain ⟨type, p₁, htype, hrun⟩ := action_bind_eq_ok.1 hrun
  obtain ⟨callee, p₂, hcallee, hrun⟩ := action_bind_eq_ok.1 hrun
  have hgrows := grows_of_valueType (adaptExcept_eq_ok.1 htype)
  have hsteps : p.Steps p₂ := hgrows.quiet.steps.trans (steps_of_ok (Precise.edits_marker type) hcallee)
  have hone {r : EStateM.Result ProgramError Program (Handle .inst)} {h : Handle .inst} {q' : Program}
      (hr : Inserts p₂ r) (hh : r = .ok h q') : ∀ k ∈ [h], p.insts.next.index ≤ k.index := by
    rw [List.forall_mem_singleton, hr.eq_next hh]
    exact next_le_of_steps hsteps
  cases ptr with
  | inst slot =>
    obtain ⟨h, p₃, hh, hrun⟩ := action_bind_eq_ok.1 hrun
    cases hrun
    exact hone (inserts_insertAfter _ _ _) (adaptExcept_eq_ok.1 hh)
  | argument function index =>
    obtain ⟨h, p₃, hh, hrun⟩ := action_bind_eq_ok.1 hrun
    cases hrun
    exact hone (inserts_insertAt _ _ _ _) (adaptExcept_eq_ok.1 hh)
  | global g =>
    obtain ⟨_, _, hget, hrun⟩ := action_bind_eq_ok.1 hrun
    cases hget
    have hnew := next_le_of_mapM (fun f => inserts_insertAt f 0 _) (fun f => edits_insertAt f 0 _)
      (adaptExcept_eq_ok.1 hrun)
    exact fun h hh => Nat.le_trans (next_le_of_steps hsteps) (hnew h hh)
  | function f =>
    obtain ⟨_, _, hget, hrun⟩ := action_bind_eq_ok.1 hrun
    cases hrun
  | constant c =>
    obtain ⟨_, _, hget, hrun⟩ := action_bind_eq_ok.1 hrun
    cases hrun

/-- What an operation gives out was there before or has never been given out. -/
theorem finds_or_new_of_mem_issues {op : ProgramOp} (hx : x ∈ op.issues p) : p.Finds x ∨ ¬ p.Issued x := by
  have hinst {r : EStateM.Result ProgramError Program (Handle .inst)} (hr : Inserts p r)
      (hx : x ∈ ((outcome? r).map .inst).toList) : p.Finds x ∨ ¬ p.Issued x := by
    obtain ⟨h, q, hh, rfl⟩ := mem_map_outcome?.1 hx
    cases hr.eq_next hh
    exact .inr (Nat.lt_irrefl _)
  cases op with
  | addGlobal g =>
    cases List.mem_singleton.1 hx
    exact .inr (Nat.lt_irrefl _)
  | addFunction name t =>
    obtain ⟨f, q, hf, rfl⟩ := mem_map_outcome?.1 hx
    cases addFunction_eq_ok hf
    exact .inr (Nat.lt_irrefl _)
  | ensureFunction name t =>
    obtain ⟨f, q, hf, rfl⟩ := mem_map_outcome?.1 hx
    rcases ensureFunction_eq_ok hf with hlive | rfl
    · exact .inl hlive
    · exact .inr (Nat.lt_irrefl _)
  | insertAt f pos kind => exact hinst (inserts_insertAt f pos kind p) hx
  | append f kind => exact hinst (inserts_append f kind p) hx
  | insertAfter anchor kind => exact hinst (inserts_insertAfter anchor kind p) hx
  | insertBefore anchor kind => exact hinst (inserts_insertBefore anchor kind p) hx
  | markPointer ptr =>
    simp only [ProgramOp.issues, List.mem_map] at hx
    obtain ⟨h, hh, rfl⟩ := hx
    cases hout : outcome? (Precise.markPointer ptr p) with
    | none =>
      rw [hout] at hh
      cases hh
    | some hs =>
      rw [hout] at hh
      obtain ⟨q, hrun⟩ := outcome?_eq_some.1 hout
      exact .inr (Nat.not_lt.2 (next_le_of_markPointer hrun h hh))
  | _ => cases hx

/-! ## Single instructions -/

/-- The instruction that an operation inserts or erases, if it is made for that. -/
def target? (p : Program) : ProgramOp → Option (Handle .inst)
  | .insertAt _ _ _ | .append _ _ | .insertAfter _ _ | .insertBefore _ _ => some p.insts.next
  | .eraseInst h => some h
  | _ => none

theorem filter_ne_insert (h : Handle .inst) (pos : Nat) (hs : List (Handle .inst)) :
    (hs.take pos ++ h :: hs.drop pos).filter (· ≠ h) = hs.filter (· ≠ h) := by
  conv_rhs => rw [← List.take_append_drop pos hs]
  simp only [List.filter_append, List.filter_cons, ne_eq, not_true_eq_false, decide_false, Bool.false_eq_true, if_false]

/-- An insertion leaves the other instructions as they stand. -/
theorem Inserts.filter_body {r : EStateM.Result ProgramError Program (Handle .inst)} (hr : Inserts p r)
    (f : Handle .function) :
    ((after r).body f).filter (· ≠ p.insts.next) = (p.body f).filter (· ≠ p.insts.next) := by
  cases hr with
  | refused hq e => exact congrArg _ (hq.body f)
  | placed hq pos i =>
    rename_i q
    rw [← hq.body f, ← hq.insts]
    have hfunction := (inserted_placeInst q pos i).function f
    simp only [after, body, hfunction]
    split
    · cases q.function? f with
      | none => rfl
      | some x => exact filter_ne_insert _ _ _
    · rfl

/-- So does an erasure. -/
theorem Consistent.filter_body_eraseInst (hp : p.Consistent) (h : Handle .inst) (f : Handle .function) :
    ((after (Program.eraseInst h p)).body f).filter (· ≠ h) = (p.body f).filter (· ≠ h) := by
  cases hi : p.inst? h with
  | none => rw [Program.eraseInst, hi, after]
  | some i =>
    obtain ⟨q, hrun, hq, -⟩ := eraseInst_eq hp hi
    rw [hrun, after, hq.body, flatMap_filter_ne, List.filter_filter]
    simp

theorem Consistent.filter_body (hp : p.Consistent) {op : ProgramOp} {h : Handle .inst}
    (ht : p.target? op = some h) (f : Handle .function) :
    ((op.apply p).body f).filter (· ≠ h) = (p.body f).filter (· ≠ h) := by
  cases op with
  | insertAt g pos kind =>
    cases ht
    exact (inserts_insertAt g pos kind p).filter_body f
  | append g kind =>
    cases ht
    exact (inserts_append g kind p).filter_body f
  | insertAfter anchor kind =>
    cases ht
    exact (inserts_insertAfter anchor kind p).filter_body f
  | insertBefore anchor kind =>
    cases ht
    exact (inserts_insertBefore anchor kind p).filter_body f
  | eraseInst x =>
    cases ht
    exact hp.filter_body_eraseInst h f
  | _ => cases ht

/-! ## Runs -/

theorem agrees_foldl (name : String) (ops : List ProgramOp) :
    Agrees (ops.foldl ProgramOp.apply (empty name)) := by
  have hreach := reachable_foldl name ops
  have hconsistent := hreach.consistent
  obtain ⟨name', hevolves⟩ := hreach.evolves
  have hempty : (empty name').NamedApart := nofun
  refine ⟨hreach.globals_inOrder, hconsistent.order, hempty.steps (consistent_empty name') hevolves.steps, ?_, ?_⟩
  · exact fun f h hh => inst?_of_mem_body hconsistent hh
  · exact fun h => hconsistent.placed

/-- Whatever operations lead to a program, its tables, order lists, bodies and parents agree. Whatever further
ones do, a handle that finds nothing any more finds nothing later and is not given out again, and an
instruction that is inserted or erased leaves the others in their order, in every body. -/
theorem agrees_of_run (name : String) (ops later : List ProgramOp) :
    let p := ops.foldl ProgramOp.apply (empty name)
    let q := later.foldl ProgramOp.apply p
    p.Agrees ∧
      (∀ x, p.Finds x → ¬ q.Finds x → q.Erased x) ∧
      (∀ x, p.Erased x → ¬ q.Finds x ∧ ∀ op : ProgramOp, x ∉ op.issues q) ∧
      ∀ op h, p.target? op = some h →
        ∀ f, ((op.apply p).body f).filter (· ≠ h) = (p.body f).filter (· ≠ h) := by
  intro p q
  have hlater : p.Later q := later_foldl later p
  have hp : p.Reachable := reachable_foldl name ops
  refine ⟨agrees_foldl name ops, fun x hx hno => ⟨hlater.issued hx, hno⟩, fun x hx => ?_,
    fun op h ht => hp.consistent.filter_body ht⟩
  obtain ⟨hissued, hgone⟩ := hlater.erased hx
  exact ⟨hgone, fun op hop => (finds_or_new_of_mem_issues hop).elim hgone (fun hnew => hnew hissued)⟩

end Program

end ShaderModule

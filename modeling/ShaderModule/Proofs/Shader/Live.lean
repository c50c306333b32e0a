import ShaderModule.Proofs.Record.Loading
import ShaderModule.Proofs.Shader.Orderly
import ShaderModule.Proofs.Shader.Steps

/-!
# References stay alive

The side-tables of a module refer to globals and functions of its program in many places. If only what
is in the program is put into them, and what they mention is removed by the operations of the module and
not behind its back, then all they mention is in the program at any time, and they can be written.
-/

namespace ShaderModule

/-! ## What the records of resources are bound to -/

namespace Registry

variable {r : Registry} {g : Handle .global} {gs : List (Handle .global)} {π : Type} {k : Listing π}

theorem mem_globals : g ∈ r.globals ↔ g ∈ r.cbuffers.map (fun x => x.global) ∨
    g ∈ r.samplers.map (fun x => x.global) ∨ g ∈ r.srvs.map (fun x => x.global) ∨
      g ∈ r.uavs.map fun x => x.global := by
  simp only [globals, List.mem_append, or_assoc]

theorem mem_globals_of_list (h : g ∈ (r.list k).map fun x => x.global) : g ∈ r.globals := by
  rw [mem_globals]
  cases k with
  | cbuffers => exact .inl h
  | samplers => exact .inr (.inl h)
  | srvs => exact .inr (.inr (.inl h))
  | uavs => exact .inr (.inr (.inr h))

theorem mem_globals_setList {xs : List (Bound π)} (h : g ∈ (r.setList k xs).globals) :
    g ∈ r.globals ∨ g ∈ xs.map fun x => x.global := by
  rw [mem_globals] at h ⊢
  cases k <;> simp only [setList] at h <;> tauto

theorem mem_globals_add {x : Bound π} (h : g ∈ (r.add k x).2.globals) : g ∈ r.globals ∨ g = x.global := by
  rcases mem_globals_setList h with h | h
  · exact .inl h
  · simp only [List.map_append, List.mem_append, List.map_cons, List.map_nil,
      List.mem_singleton] at h
    exact h.imp_left mem_globals_of_list

theorem mem_globals_unbind : g ∈ (r.unbind gs).globals ↔ g ∈ r.globals ∧ g ∉ gs := by
  have h : ∀ {π : Type} (xs : List (Bound π)), g ∈ (Bound.unbind gs xs).map (fun x => x.global) ↔
      g ∈ xs.map (fun x => x.global) ∧ g ∉ gs := by
    intro π xs
    simp only [Bound.unbind, Bound.map_global_renumber, List.mem_map, List.mem_filter, decide_eq_true_eq]
    constructor
    · rintro ⟨x, ⟨hx, hgs⟩, rfl⟩
      exact ⟨⟨x, hx, rfl⟩, hgs⟩
    · rintro ⟨⟨x, hx, rfl⟩, hgs⟩
      exact ⟨x, ⟨hx, hgs⟩, rfl⟩
  simp only [mem_globals, unbind, h]
  tauto

theorem mem_of_boundAmong (h : g ∈ r.boundAmong gs) : g ∈ gs := by
  simp only [boundAmong, List.mem_eraseDups, List.mem_append, Bound.boundAmong, List.mem_filter,
    decide_eq_true_eq] at h
  tauto

end Registry

/-! ## What the properties of stages refer to -/

namespace StageProps

variable {x : StageProps} {g h : Handle .global} {f : Handle .function}

theorem mem_globals_forgetGlobal (hg : h ∈ (x.forgetGlobal g).globals) : h ∈ x.globals ∧ h ≠ g := by
  cases x with
  | vertex props =>
    simp only [forgetGlobal, globals, Vector.toList_map, List.mem_filterMap, List.mem_map, id] at hg ⊢
    obtain ⟨_, ⟨plane, hplane, rfl⟩, heq⟩ := hg
    split at heq
    · cases heq
    · next hne =>
      subst heq
      exact ⟨⟨_, hplane, rfl⟩, fun heq => hne (congrArg some heq)⟩
  | _ => cases hg

@[simp] theorem functions_forgetGlobal : (x.forgetGlobal g).functions = x.functions := by
  cases x <;> rfl

theorem mem_functions_forgetFunction {f' : Handle .function} (hf : f' ∈ (x.forgetFunction f).functions) :
    f' ∈ x.functions ∧ f' ≠ f := by
  cases x with
  | hull props =>
    simp only [forgetFunction, functions] at hf ⊢
    split at hf
    · cases hf
    · next hne =>
      refine ⟨hf, ?_⟩
      rintro rfl
      exact hne (Option.mem_toList.1 hf)
  | _ => cases hf

@[simp] theorem globals_forgetFunction : (x.forgetFunction f).globals = x.globals := by
  cases x <;> rfl

end StageProps

/-! ## What tables mention -/

namespace Tables

variable {t t' : Tables} {g : Handle .global} {gs : List (Handle .global)} {f : Handle .function} {e : Entity}
  {new : List Entity}

/-- The places where tables mention globals. -/
theorem mem_mentions_global : .global g ∈ t.mentions ↔ g ∈ t.resources.globals ∨
    (∃ x ∈ t.props.entries, g ∈ x.2.globals) ∨ g ∈ t.used ∨ g ∈ t.shared := by
  rw [mentions, map_references]
  simp [EntryPoint.refs, Registry.refs, StageProps.refs]

/-- The places where tables mention functions. -/
theorem mem_mentions_function : .function f ∈ t.mentions ↔ t.entry = some f ∨
    (∃ x ∈ t.props.entries, f = x.1 ∨ f ∈ x.2.functions) ∨ f ∈ t.types.functions.keys := by
  rw [mentions, map_references]
  simp [EntryPoint.refs, Registry.refs, StageProps.refs, entryPoint]

theorem mem_mentions_unbind (he : e ∈ (t.unbind gs).mentions) : e ∈ t.mentions := by
  cases e with
  | global h =>
    rw [mem_mentions_global] at he ⊢
    exact he.imp_left fun h => (Registry.mem_globals_unbind.1 h).1
  | function f =>
    rw [mem_mentions_function] at he ⊢
    exact he

/-- A global that was forgotten is mentioned by resource records at most. -/
theorem mem_mentions_forgetGlobal (he : e ∈ (t.forgetGlobal g).mentions) :
    e ∈ t.mentions ∧ (e = .global g → g ∈ t.resources.globals) := by
  cases e with
  | global h =>
    rw [mem_mentions_global] at he ⊢
    simp only [forgetGlobal, Ordered.mapValues, List.mem_map, List.mem_filter, decide_eq_true_eq] at he
    rcases he with he | ⟨-, ⟨x, hx, rfl⟩, he⟩ | ⟨he, hne⟩ | ⟨he, hne⟩
    · exact ⟨.inl he, fun heq => Entity.global.inj heq ▸ he⟩
    · obtain ⟨he, hne⟩ := StageProps.mem_globals_forgetGlobal he
      exact ⟨.inr (.inl ⟨x, hx, he⟩), fun heq => absurd (Entity.global.inj heq) hne⟩
    · exact ⟨.inr (.inr (.inl he)), fun heq => absurd (Entity.global.inj heq) hne⟩
    · exact ⟨.inr (.inr (.inr he)), fun heq => absurd (Entity.global.inj heq) hne⟩
  | function f =>
    rw [mem_mentions_function] at he ⊢
    refine ⟨he.imp_right (Or.imp_left ?_), by simp⟩
    simp only [forgetGlobal, Ordered.mapValues, List.mem_map]
    rintro ⟨-, ⟨x, hx, rfl⟩, he⟩
    exact ⟨x, hx, by simpa using he⟩

/-- A function that was forgotten is mentioned nowhere. -/
theorem mem_mentions_forgetFunction (he : e ∈ (t.forgetFunction f).mentions) :
    e ∈ t.mentions ∧ e ≠ .function f := by
  cases e with
  | global g =>
    rw [mem_mentions_global] at he ⊢
    refine ⟨he.imp_right (Or.imp_left ?_), by simp⟩
    simp only [forgetFunction, Ordered.mapValues, Ordered.erase, List.mem_map, List.mem_filter]
    rintro ⟨-, ⟨x, ⟨hx, -⟩, rfl⟩, he⟩
    exact ⟨x, hx, by simpa using he⟩
  | function h =>
    rw [mem_mentions_function] at he ⊢
    simp only [forgetFunction, TypeSystem.forgetFunction, Ordered.mapValues, Ordered.erase, Ordered.keys,
      List.mem_map, List.mem_filter, decide_eq_true_eq] at he
    rcases he with he | ⟨-, ⟨x, ⟨hx, hne⟩, rfl⟩, he⟩ | ⟨x, ⟨hx, hne⟩, rfl⟩
    · split at he
      · cases he
      · next hne =>
        refine ⟨.inl he, ?_⟩
        rintro ⟨⟩
        exact hne he
    · rcases he with rfl | he
      · exact ⟨.inr (.inl ⟨x, hx, .inl rfl⟩), fun heq => hne (Entity.function.inj heq)⟩
      · obtain ⟨he, hne⟩ := StageProps.mem_functions_forgetFunction he
        exact ⟨.inr (.inl ⟨x, hx, .inr he⟩), fun heq => hne (Entity.function.inj heq)⟩
    · exact ⟨.inr (.inr (List.mem_map.2 ⟨x, hx, rfl⟩)), fun heq => hne (Entity.function.inj heq)⟩

/-- At every place, what is mentioned was mentioned there before or is new. -/
structure Gains (t t' : Tables) (new : List Entity) : Prop where
  entry : ∀ e ∈ t'.entryPoint.refs, e ∈ t.entryPoint.refs ∨ e ∈ new
  resources : ∀ g ∈ t'.resources.globals, g ∈ t.resources.globals ∨ .global g ∈ new
  props : ∀ x ∈ t'.props.entries, ∀ e ∈ StageProps.refs x,
    (∃ y ∈ t.props.entries, e ∈ StageProps.refs y) ∨ e ∈ new
  types : ∀ f ∈ t'.types.functions.keys, f ∈ t.types.functions.keys ∨ .function f ∈ new
  used : ∀ g ∈ t'.used, g ∈ t.used ∨ .global g ∈ new
  shared : ∀ g ∈ t'.shared, g ∈ t.shared ∨ .global g ∈ new

/-- Nothing is mentioned that was not. -/
theorem Gains.refl (t : Tables) (new : List Entity) : t.Gains t new where
  entry _ := .inl
  resources _ := .inl
  props x hx _ he := .inl ⟨x, hx, he⟩
  types _ := .inl
  used _ := .inl
  shared _ := .inl

theorem Gains.of_mem_mentions (h : t.Gains t' new) (he : e ∈ t'.mentions) : e ∈ t.mentions ∨ e ∈ new := by
  simp only [mentions, map_references, Registry.refs, List.mem_append, List.mem_map, List.mem_flatMap] at he ⊢
  rcases he with ((((he | ⟨g, hg, rfl⟩) | ⟨x, hx, he⟩) | ⟨f, hf, rfl⟩) | ⟨g, hg, rfl⟩) | ⟨g, hg, rfl⟩
  · exact (h.entry e he).imp_left fun h => .inl (.inl (.inl (.inl (.inl h))))
  · exact (h.resources g hg).imp_left fun h => .inl (.inl (.inl (.inl (.inr ⟨g, h, rfl⟩))))
  · exact (h.props x hx e he).imp_left fun h => .inl (.inl (.inl (.inr h)))
  · exact (h.types f hf).imp_left fun h => .inl (.inl (.inr ⟨f, h, rfl⟩))
  · exact (h.used g hg).imp_left fun h => .inl (.inr ⟨g, h, rfl⟩)
  · exact (h.shared g hg).imp_left fun h => .inr ⟨g, h, rfl⟩

end Tables

/-! ## What removals leave -/

theorem after_discard {ε σ α : Type} (a : EStateM ε σ α) (s : σ) : after (discard a s) = after (a s) := by
  show after ((a >>= fun _ => pure ()) s) = after (a s)
  simp only [bind, EStateM.bind]
  cases a s <;> rfl

namespace Program

variable {p : Program} {e : Entity}

/-- Erasing a global leaves every other entity. -/
theorem has_eraseGlobal {g : Handle .global} (h : p.has e) (hne : e ≠ .global g) :
    (after (eraseGlobal g p)).has e := by
  unfold eraseGlobal
  split
  · cases e with
    | global g' =>
      have hg : g' ≠ g := fun heq => hne (congrArg _ heq)
      simpa only [after, has, hasGlobal, global?, Listed.toSlots_erase, Slots.get?_erase_of_ne hg] using h
    | function f => exact h
  · exact h

/-- Erasing a function leaves every other entity. -/
theorem has_eraseFunction {f : Handle .function} (h : p.has e) (hne : e ≠ .function f) :
    (after (eraseFunction f p)).has e := by
  unfold eraseFunction
  split
  · cases e with
    | global g => exact h
    | function f' =>
      have hf : f' ≠ f := fun heq => hne (congrArg _ heq)
      simpa only [after, has, hasFunction, function?, Listed.toSlots_erase, Slots.get?_erase_of_ne hf] using h
  · exact h

end Program

namespace Shader

variable {s : Shader} {α : Type}

/-- All that the side-tables of a module mention is in its program. -/
def Live (s : Shader) : Prop := ∀ e ∈ s.tables.mentions, s.program.has e

theorem after_host (e : Edit ProgramError α) (s : Shader) :
    after (host e s) = { s with program := after (e s.program) } := by
  simp only [host, onProgram, Program.lift, EStateM.adaptExcept]
  cases e s.program <;> rfl

/-- A global is dropped whether or not it is in the program. -/
theorem dropGlobal_eq (g : Handle .global) (s : Shader) : dropGlobal g s = .ok () { s with
    tables := s.tables.forgetGlobal g, program := { s.program with globals := s.program.globals.drop g } } := by
  show (if s.program.hasGlobal g then discard (host (Program.eraseGlobal g)) else pure () : Act Unit)
    { s with tables := s.tables.forgetGlobal g } = _
  unfold Program.hasGlobal
  cases hg : s.program.global? g with
  | none =>
    rw [Listed.drop_of_none hg]
    rfl
  | some x =>
    rw [Listed.drop_of_get? hg]
    refine action_bind_eq_ok.2 ⟨x, { s with tables := _, program := _ }, ?_, rfl⟩
    simp [host, onProgram, Program.lift, EStateM.adaptExcept, Program.eraseGlobal, hg]

theorem after_removeGlobal (g : Handle .global) (s : Shader) : after (removeGlobal g s) =
    { s with
      tables := (s.tables.unbind [g]).forgetGlobal g
      program := after (Program.eraseGlobal g s.program) } := by
  show after (discard (host (Program.eraseGlobal g))
    { s with tables := (s.tables.unbind [g]).forgetGlobal g }) = _
  rw [after_discard, after_host]

theorem after_removeFunction (f : Handle .function) (s : Shader) : after (removeFunction f s) =
    { s with tables := s.tables.forgetFunction f, program := after (Program.eraseFunction f s.program) } := by
  show after (discard (host (Program.eraseFunction f)) { s with tables := s.tables.forgetFunction f }) = _
  rw [after_discard, after_host]

theorem live_of_gains {t : Tables} {new : List Entity} (h : s.Live) (hnew : ∀ e ∈ new, s.program.has e)
    (ht : s.tables.Gains t new) : Live { s with tables := t } :=
  fun e he => (ht.of_mem_mentions he).elim (h e) (hnew e)

theorem live_removeGlobal (h : s.Live) (g : Handle .global) : (after (removeGlobal g s)).Live := by
  rw [after_removeGlobal]
  intro e he
  obtain ⟨he, hglobal⟩ := Tables.mem_mentions_forgetGlobal he
  refine Program.has_eraseGlobal (h e (Tables.mem_mentions_unbind he)) fun heq => ?_
  exact (Registry.mem_globals_unbind.1 (hglobal heq)).2 List.mem_cons_self

theorem live_removeFunction (h : s.Live) (f : Handle .function) : (after (removeFunction f s)).Live := by
  rw [after_removeFunction]
  intro e he
  obtain ⟨he, hne⟩ := Tables.mem_mentions_forgetFunction he
  exact Program.has_eraseFunction (h e he) hne

/-! ### Removing resources -/

/-- What is mentioned is there, and no resource record is bound to one of some globals. -/
def Unbound (gs : List (Handle .global)) (s : Shader) : Prop :=
  s.Live ∧ ∀ g ∈ gs, g ∉ s.tables.resources.globals

/-- `P` is kept from one module to another. -/
def Keeps (P : Shader → Prop) (s s' : Shader) : Prop := P s → P s'

instance (P : Shader → Prop) : Std.Refl (Keeps P) := ⟨fun _ => id⟩

instance (P : Shader → Prop) : IsTrans Shader (Keeps P) := ⟨fun _ _ _ h h' => h' ∘ h⟩

/-- No resource record is bound to a global that is dropped, so it is mentioned nowhere then. -/
theorem unbound_dropGlobal {gs : List (Handle .global)} {g : Handle .global} (hg : g ∈ gs) :
    Along (Keeps (Unbound gs)) (dropGlobal g) := by
  rintro s ⟨hlive, hunbound⟩
  rw [dropGlobal_eq, ← Program.after_eraseGlobal]
  refine ⟨fun e he => ?_, hunbound⟩
  obtain ⟨he, hglobal⟩ := Tables.mem_mentions_forgetGlobal he
  exact Program.has_eraseGlobal (hlive e he) fun heq => hunbound g hg (hglobal heq)

theorem live_removeResources (h : s.Live) (gs : List (Handle .global)) :
    (after (removeResources gs s)).Live := by
  have hunbound : Unbound gs { s with tables := s.tables.unbind gs } :=
    ⟨fun e he => h e (Tables.mem_mentions_unbind he), fun g hg hmem => (Registry.mem_globals_unbind.1 hmem).2 hg⟩
  have hdrop : Along (Keeps (Unbound gs)) ((s.tables.resources.boundAmong gs).forM dropGlobal) :=
    .forM_of_mem fun g hg => unbound_dropGlobal (Registry.mem_of_boundAmong hg)
  have hall : Along (Keeps (Unbound gs)) (do
      (s.tables.resources.boundAmong gs).forM dropGlobal
      return (s.tables.resources.boundAmong gs).length) := .bind hdrop fun _ => .pure _
  exact (hall _ hunbound).1

/-! ### Operations that leave globals and functions alone -/

/-- A program in which the entities are the same ones. -/
theorem live_of_has {p : Program} (h : s.Live) (hp : ∀ e, p.has e = s.program.has e) :
    Live { s with program := p } :=
  fun e he => (hp e).trans (h e he)

end Shader

namespace Program

theorem has_of_same {p q : Program} (hglobals : q.globals = p.globals) (hfunctions : q.functions = p.functions)
    (e : Entity) : q.has e = p.has e := by
  cases e with
  | global g => simp only [has, hasGlobal, global?, hglobals]
  | function f => simp only [has, hasFunction, function?, hfunctions]

theorem has_clearGroups (p : Program) (e : Entity) : p.clearGroups.has e = p.has e := by
  unfold clearGroups
  generalize Group.all = gs
  induction gs generalizing p with
  | nil => rfl
  | cons g gs ih => exact (ih _).trans (has_of_same rfl rfl e)

end Program

theorem Tables.has_emit (t : Tables) (p : Program) (e : Entity) : (after (t.emit p)).has e = p.has e := by
  unfold emit
  split
  · rfl
  · have hgrow := (growing_build t p).has e
    generalize t.build p = built at hgrow
    obtain ⟨groups, q⟩ := built
    obtain ⟨named, hrest⟩ := foldl_setGroup_rest groups q
    show (groups.foldl setGroup q).has e = p.has e
    rw [hrest]
    exact (Program.has_of_same rfl rfl e).trans hgrow

namespace Shader

variable {s : Shader} {α : Type}

theorem live_emit (h : s.Live) : (after (emit s)).Live := by
  show (after (onProgram s.tables.emit s)).Live
  rw [after_onProgram]
  exact live_of_has h (s.tables.has_emit s.program)

theorem live_load (h : s.Live) : (after (load s)).Live := by
  simp only [load]
  cases hload : Tables.load s.program with
  | ok t => exact Tables.has_of_load hload
  | error cause => exact h

theorem live_relocate {move : DebugAct (Handle .debugVariable)} (hmove : Along Program.Redescribed move) (h : s.Live) :
    (after (relocate move s)).Live := by
  have hplain : Along (Keeps Live) (relocate move) := by
    refine .bind (fun _ hs => hs) fun x s hs => ?_
    obtain ⟨debug, hdebug⟩ := hmove (s.program, x)
    rw [after_onDebug, hdebug]
    exact live_of_has hs (Program.has_of_same rfl rfl)
  exact hplain s h

theorem live_addShared (h : s.Live) (g : Handle .global) : (after (addShared g s)).Live := by
  simp only [addShared]
  split
  · exact h
  · next hshared =>
    split
    · exact h
    · have hg : s.program.has (.global g) := by
        cases hget : s.program.global? g with
        | none => simp [hget] at hshared
        | some _ => simp [Program.has, Program.hasGlobal, hget]
      refine live_of_gains h (List.forall_mem_singleton.2 hg)
        { Tables.Gains.refl _ _ with shared := fun g' hg' => ?_ }
      simp only [List.mem_filter, decide_eq_true_eq] at hg'
      rcases hg'.2 with rfl | hmem
      · exact .inr List.mem_cons_self
      · exact .inl hmem

end Shader

/-! ## Runs -/

/-- The entities that the properties of a stage refer to. -/
def StageProps.entities (x : StageProps) : List Entity :=
  x.functions.map .function ++ x.globals.map .global

namespace ShaderOp

/-- The entities that an operation puts into the side-tables, also where it changes a record in its
place. -/
def puts (s : Shader) : ShaderOp → List Entity
  | .setEntry f => f.toList.map .function
  | .setUsed gs => gs.map .global
  | .addResource _ x => [.global x.global]
  | .modifyResource k index change =>
    match s.resource k index with
    | .ok x => [.global (change x).global]
    | .error _ => []
  | .addProps f x => .function f :: x.entities
  | .modifyProps f stage change =>
    match s.propsOf f with
    | .ok x => if x.stage = stage then (change x).entities else []
    | .error _ => []
  | .annotateFunction f _ => [.function f]
  | _ => []

/-- The operation on the program alone that an operation may be. -/
def host? : ShaderOp → Option ProgramOp
  | .program op => some op
  | _ => none

/-- An operation puts only what is in the program into the tables, and if it is one on the program alone,
it leaves there what the tables mention. -/
structure Careful (s : Shader) (op : ShaderOp) : Prop where
  puts   : ∀ e ∈ op.puts s, s.program.has e
  spares : ∀ host ∈ op.host?, ∀ e ∈ s.tables.mentions, s.program.has e → (host.apply s.program).has e

instance (s : Shader) (op : ShaderOp) : Decidable (op.Careful s) :=
  decidable_of_iff ((∀ e ∈ op.puts s, s.program.has e) ∧
      ∀ host ∈ op.host?, ∀ e ∈ s.tables.mentions, s.program.has e → (host.apply s.program).has e)
    ⟨fun h => ⟨h.1, h.2⟩, fun h => ⟨h.puts, h.spares⟩⟩

end ShaderOp

/-- A module that a run of careful operations leads to, from one over any program with empty tables. -/
inductive Shader.Run : Shader → Prop where
  | start (p : Program) : Run (.ofProgram p)
  | step {s : Shader} (op : ShaderOp) (h : Run s) (hop : op.Careful s) : Run (op.apply s)

namespace Shader

variable {s : Shader}

/-- Operations that are careful one after another make a run. -/
theorem Run.foldl {ops : List ShaderOp} (h : s.Run)
    (hops : ∀ i (hi : i < ops.length), ops[i].Careful ((ops.take i).foldl ShaderOp.apply s)) :
    (ops.foldl ShaderOp.apply s).Run :=
  foldl_of_allowed (fun _ op hs hop => hs.step op hop) h hops

theorem Run.orderly (h : s.Run) : s.tables.Orderly := by
  induction h with
  | start p => exact Tables.orderly_empty
  | step op _ _ ih => exact orderly_apply op ih

theorem live_modifyResource {π : Type} (h : s.Live) (k : Listing π) (index : UInt32) (change : Bound π → Bound π)
    (hputs : ∀ e ∈ (ShaderOp.modifyResource k index change).puts s, s.program.has e) :
    (after (modifyResource k index change s)).Live := by
  simp only [modifyResource, ShaderOp.puts] at hputs ⊢
  cases hx : s.resource k index with
  | error cause => exact h
  | ok x =>
    rw [hx] at hputs
    refine live_of_gains h hputs { Tables.Gains.refl _ _ with resources := fun g hg => ?_ }
    rcases Registry.mem_globals_setList hg with hg | hg
    · exact .inl hg
    · obtain ⟨y, hy, rfl⟩ := List.mem_map.1 hg
      rcases List.mem_or_eq_of_mem_set hy with hy | rfl
      · exact .inl (Registry.mem_globals_of_list (List.mem_map.2 ⟨y, hy, rfl⟩))
      · exact .inr List.mem_cons_self

theorem live_modifyProps (h : s.Live) (hsorted : Ordered.Sorted s.tables.props) (f : Handle .function)
    (stage : Stage) (change : StageProps → StageProps)
    (hputs : ∀ e ∈ (ShaderOp.modifyProps f stage change).puts s, s.program.has e) :
    (after (modifyProps f stage change s)).Live := by
  simp only [modifyProps, ShaderOp.puts] at hputs ⊢
  cases hx : s.propsOf f with
  | error cause => exact h
  | ok x =>
    rw [hx] at hputs
    simp only at hputs ⊢
    split
    · next hstage =>
      rw [if_pos hstage] at hputs
      refine live_of_gains h hputs { Tables.Gains.refl _ _ with props := fun y hy e he => ?_ }
      obtain ⟨⟨f', z⟩, hz, rfl⟩ := List.mem_map.1 hy
      split at he
      · next heq =>
        have hfind := Ordered.find?_of_mem hsorted hz
        simp only [propsOf, ← heq, hfind] at hx
        cases hx
        rcases List.mem_cons.1 he with rfl | he
        · exact .inl ⟨_, hz, List.mem_cons_self⟩
        · exact .inr he
      · exact .inl ⟨_, hz, he⟩
    · exact h

/-- A careful operation leaves all that is mentioned in the program. -/
theorem live_apply {op : ShaderOp} (h : s.Live) (hsorted : Ordered.Sorted s.tables.props) (hop : op.Careful s) :
    (op.apply s).Live := by
  cases op with
  | program op => exact fun e he => hop.spares op rfl e he (h e he)
  | setEntry f => exact live_of_gains h hop.puts { Tables.Gains.refl _ _ with entry := fun e he => .inr he }
  | setUsed gs =>
    exact live_of_gains h hop.puts
      { Tables.Gains.refl _ _ with used := fun g hg => .inr (List.mem_map.2 ⟨g, hg, rfl⟩) }
  | addResource k x =>
    refine live_of_gains h hop.puts
      { Tables.Gains.refl _ _ with resources := fun g hg => (Registry.mem_globals_add hg).imp_right ?_ }
    rintro rfl
    exact List.mem_cons_self
  | modifyResource k index change => exact live_modifyResource h k index change hop.puts
  | removeResources globals => exact live_removeResources h globals
  | removeGlobal g => exact live_removeGlobal h g
  | removeFunction f => exact live_removeFunction h f
  | addShared g => exact live_addShared h g
  | addProps f x =>
    refine live_of_gains h hop.puts { Tables.Gains.refl _ _ with props := fun y hy e he => ?_ }
    rcases Ordered.mem_insertEntry hy with rfl | hy
    · exact .inr he
    · exact .inl ⟨y, hy, he⟩
  | modifyProps f stage change => exact live_modifyProps h hsorted f stage change hop.puts
  | annotateFunction f a =>
    refine live_of_gains h hop.puts { Tables.Gains.refl _ _ with types := fun f' hf => ?_ }
    obtain ⟨y, hy, rfl⟩ := List.mem_map.1 hf
    rcases Ordered.mem_insertEntry hy with rfl | hy
    · exact .inr List.mem_cons_self
    · exact .inl (List.mem_map.2 ⟨y, hy, rfl⟩)
  | modifyFunction f change =>
    refine live_of_gains h (List.forall_mem_nil _) { Tables.Gains.refl _ _ with types := fun f' hf => .inl ?_ }
    obtain ⟨y, hy, rfl⟩ := List.mem_map.1 hf
    obtain ⟨z, hz, rfl⟩ := List.mem_map.1 hy
    refine List.mem_map.2 ⟨z, hz, ?_⟩
    split <;> rfl
  | dropFunctionInfo f =>
    refine live_of_gains h (List.forall_mem_nil _) { Tables.Gains.refl _ _ with types := fun f' hf => .inl ?_ }
    obtain ⟨y, hy, rfl⟩ := List.mem_map.1 hf
    exact List.mem_map.2 ⟨y, List.mem_of_mem_filter hy, rfl⟩
  | releaseTypes =>
    exact live_of_gains h (List.forall_mem_nil _)
      { Tables.Gains.refl _ _ with types := fun f hf => absurd hf List.not_mem_nil }
  | emit => exact live_emit h
  | load => exact live_load h
  | clear => exact live_of_has h s.program.has_clearGroups
  | splitDebugInfo whole piece place suffix => exact live_relocate (Program.redescribed_splitDebugInfo whole piece place suffix) h
  | replaceDebugInfo old new => exact live_relocate (Program.redescribed_replaceDebugInfo old new) h
  | reopen => exact fun e he => absurd he List.not_mem_nil
  | _ => exact h

theorem Run.live (h : s.Run) : s.Live := by
  induction h with
  | start p => exact fun e he => absurd he List.not_mem_nil
  | step _ h hop ih => exact live_apply ih h.orderly.props hop

/-- Tables that mention only what is in the program are written into it. -/
theorem exists_emit (h : s.Live) : ∃ s', emit s = .ok () s' := by
  obtain ⟨hlive, -⟩ := Tables.forall_mentions_iff.1 h
  obtain ⟨q, hq⟩ := Tables.exists_emit (Tables.dangling?_eq_none_iff.2 hlive)
  refine ⟨{ s with program := q }, ?_⟩
  show onProgram s.tables.emit s = _
  simp only [onProgram, hq]

/-- All that the tables mention is in the program wherever a run of careful operations has come to, and
so the tables can be written there. Reading tables and removing things are always careful. -/
theorem live_of_run (h : s.Run) : (∀ e ∈ s.tables.mentions, s.program.has e) ∧ ∃ s', emit s = .ok () s' :=
  ⟨h.live, exists_emit h.live⟩

end Shader

/-- A program with three functions and four globals, the first of them group-shared. -/
def Program.populated : Program :=
  ([.type (.float 32), .type .void, .type (.function ⟨1⟩ []), .addFunction "main" ⟨2⟩,
    .addFunction "patch" ⟨2⟩, .addFunction "vertex" ⟨2⟩,
    .addGlobal ⟨"shared", ⟨0⟩, .groupShared, .internal, false, none⟩,
    .addGlobal ⟨"view", ⟨0⟩, .default, .external, true, none⟩,
    .addGlobal ⟨"plane", ⟨0⟩, .default, .external, true, none⟩,
    .addGlobal ⟨"spare", ⟨0⟩, .default, .external, true, none⟩] : List ProgramOp).foldl
      ProgramOp.apply (.empty "populated")

/-- Operations that refer to all of them but the last, erase that one, remove some of the others, and write
the tables and read them. -/
def Shader.busyOps : List ShaderOp :=
  [.setEntry (some ⟨0⟩),
    .addResource .srvs ⟨⟨0, ⟨1⟩, "view", 0, 0, 1⟩, ⟨.srv, .typedBuffer, .f32, 0, 0, false, false, false⟩⟩,
    .addProps ⟨0⟩ (.hull { HullProps.initial with patchConstant := some ⟨1⟩ }),
    .addProps ⟨2⟩ (.vertex ⟨VertexProps.initial.clipPlanes.set 0 (some ⟨2⟩)⟩),
    .annotateFunction ⟨1⟩ ⟨.plain, []⟩, .addShared ⟨0⟩, .setUsed [⟨1⟩, ⟨2⟩], .program (.eraseGlobal ⟨3⟩),
    .removeFunction ⟨1⟩, .removeGlobal ⟨2⟩, .removeResources [⟨1⟩], .emit, .load]

def Shader.busy : Shader := Shader.busyOps.foldl ShaderOp.apply (.ofProgram .populated)

theorem Shader.live_of_run_busy :
    (∀ e ∈ busy.tables.mentions, busy.program.has e) ∧ ∃ s', emit busy = .ok () s' := by
  have hrun : busy.Run := (Run.start .populated).foldl (by decide +kernel)
  exact live_of_run hrun

end ShaderModule

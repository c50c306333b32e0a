import ShaderModule.Proofs.Shader.Capacity
import ShaderModule.Proofs.Shader.Live

/-!
# What survives

Whatever is done to a program after side-tables were written into it, the tables are read back from it as
long as no reserved entry is written and nothing that the tables refer to is erased. For contents keep
their handles, and no operation erases more or writes other entries than it says.
-/

namespace ShaderModule

/-! ## What an operation says it does -/

namespace ProgramOp

/-- The name of the entry that an operation writes or removes. -/
def entry? : ProgramOp → Option String
  | .setNamed name _ | .addNamed name _ | .removeNamed name => some name
  | _ => none

/-- What an operation erases. The sweep erases markers that have no calls any more. -/
def erases (p : Program) : ProgramOp → List Entity
  | .eraseGlobal h => [.global h]
  | .eraseFunction h => [.function h]
  | .sweep => (p.functions.live.filter fun f => !(after (Precise.sweep p)).hasFunction f).map .function
  | _ => []

/-- An operation writes no reserved entry and erases nothing that the tables refer to. -/
structure Spares (t : Tables) (p : Program) (op : ProgramOp) : Prop where
  entries  : ∀ name ∈ op.entry?, name ∉ Group.all.map Group.name
  entities : ∀ e ∈ op.erases p, e ∉ t.references.map Prod.snd

instance (t : Tables) (p : Program) (op : ProgramOp) : Decidable (op.Spares t p) :=
  decidable_of_iff ((∀ name ∈ op.entry?, name ∉ Group.all.map Group.name) ∧
      ∀ e ∈ op.erases p, e ∉ t.references.map Prod.snd)
    ⟨fun h => ⟨h.1, h.2⟩, fun h => ⟨h.entries, h.entities⟩⟩

end ProgramOp

namespace Program

variable {p q r : Program} {erased : List Entity} {entry : Option String}

/-- All that `p` has is left in `q`, apart from some entities, and so are its entries, apart from one. -/
structure Leaves (erased : List Entity) (entry : Option String) (p q : Program) : Prop where
  entities : ∀ e ∉ erased, p.has e → q.has e
  entries  : ∀ name ∉ entry, q.named? name = p.named? name

theorem Edits.leaves (h : p.Edits (fun f => .function f ∉ erased) q) : p.Leaves erased entry q where
  entities e he hp := by
    cases e with
    | global g => simpa only [has, hasGlobal, global?, h.globals] using hp
    | function f => exact h.functions f he hp
  entries name _ := by rw [named?, h.named, named?]

/-- Globals and functions are the same ones, also if they changed. -/
theorem leaves_of_has (hhas : ∀ e, p.has e → q.has e) (hnamed : ∀ name ∉ entry, q.named? name = p.named? name) :
    p.Leaves erased entry q :=
  ⟨fun e _ => hhas e, hnamed⟩

theorem named?_setNamed_of_ne {name other : String} (h : other ≠ name) (operands : List (Handle .node)) :
    (p.setNamed name operands).named? other = p.named? other := by
  simp only [setNamed, named?, Ordered.find?_insert, h, if_false]

theorem leaves_setNamed (name : String) (operands : List (Handle .node)) :
    p.Leaves erased (some name) (p.setNamed name operands) :=
  leaves_of_has (fun e => (has_of_same rfl rfl e).trans) fun _ h =>
    named?_setNamed_of_ne (fun heq => h (congrArg some heq.symm)) operands

theorem leaves_removeNamed (name : String) : p.Leaves erased (some name) (p.removeNamed name) := by
  refine leaves_of_has (fun e => (has_of_same rfl rfl e).trans) fun other h => ?_
  have hne : other ≠ name := fun heq => h (congrArg some heq.symm)
  simp only [removeNamed, named?, Ordered.find?_erase, hne, if_false]

theorem leaves_eraseGlobal (h : Handle .global) : p.Leaves [.global h] entry (after (eraseGlobal h p)) := by
  refine ⟨fun e he hp => has_eraseGlobal hp (fun heq => he (heq ▸ List.mem_cons_self)), fun name _ => ?_⟩
  unfold eraseGlobal
  split <;> rfl

/-- No operation erases more, or writes another entry, than it says. -/
theorem leaves_apply (op : ProgramOp) (p : Program) : p.Leaves (op.erases p) op.entry? (op.apply p) := by
  cases op with
  | addGlobal g =>
    refine leaves_of_has (fun e he => ?_) fun _ _ => rfl
    cases e with
    | global h =>
      have hne : h ≠ p.globals.next := by
        rintro rfl
        exact Nat.lt_irrefl _ (Slots.lt_next_of_mem_live (Slots.mem_live.2 he))
      simpa only [ProgramOp.apply, addGlobal, has, hasGlobal, global?, Listed.toSlots_push, Slots.get?_push_of_ne hne]
        using he
    | function f => exact he
  | modifyGlobal h change =>
    refine leaves_of_has (fun e he => ?_) fun _ _ => rfl
    cases e with
    | global g => exact (isSome_get?_modify p.globals.toSlots h g change).trans he
    | function f => exact he
  | eraseGlobal h => exact leaves_eraseGlobal h
  | eraseFunction h => exact (edits_eraseFunction (fun hh => hh List.mem_cons_self) p).leaves
  | setNamed name operands => exact leaves_setNamed name operands
  | addNamed name operand => exact leaves_setNamed name _
  | removeNamed name => exact leaves_removeNamed name
  | changeDebug change => exact leaves_of_has (fun e => (has_of_same rfl rfl e).trans) fun _ _ => rfl
  | sweep =>
    -- Whether the sweep erases a function is part of what it says.
    have hsweep : p.Edits (fun _ => False) (after (Precise.sweep p)) := Precise.edits_sweep p
    refine Edits.leaves ⟨hsweep.steps, fun f hf hp => ?_, hsweep.rest⟩
    by_contra hgone
    refine hf (List.mem_map.2 ⟨f, List.mem_filter.2 ⟨Slots.mem_live.2 hp, ?_⟩, rfl⟩)
    exact Bool.not_eq_true' _ ▸ Bool.eq_false_iff.2 hgone
  | _ => exact (edits_apply _ _ rfl p).leaves

/-! ## Runs -/

/-- Some entities are carried over to `q`, and so are all contents and all reserved entries. -/
structure Carries (entities : List Entity) (p q : Program) : Prop where
  contents : p.Extends q
  entries  : ∀ g : Group, q.named? g.name = p.named? g.name
  entities : ∀ e ∈ entities, p.has e → q.has e

/-- Operations one after another, of which none writes a reserved entry or erases what the tables refer to. -/
inductive Unrelated (t : Tables) (p : Program) : Program → Prop where
  | refl : Unrelated t p p
  | step {q : Program} (op : ProgramOp) (h : Unrelated t p q) (hop : op.Spares t q) : Unrelated t p (op.apply q)

variable {t : Tables}

/-- Operations that are unrelated to the tables one after another make an unrelated run. -/
theorem Unrelated.foldl {ops : List ProgramOp} (h : p.Unrelated t q)
    (hops : ∀ i (hi : i < ops.length), ops[i].Spares t ((ops.take i).foldl ProgramOp.apply q)) :
    p.Unrelated t (ops.foldl ProgramOp.apply q) :=
  foldl_of_allowed (fun _ op hq hop => hq.step op hop) h hops

theorem carries_apply {op : ProgramOp} (hop : op.Spares t p) :
    p.Carries (t.references.map Prod.snd) (op.apply p) := by
  have hleaves := leaves_apply op p
  refine ⟨(evolves_apply op p).steps.toExtends, fun g => hleaves.entries g.name ?_, fun e he => ?_⟩
  · intro hname
    exact hop.entries g.name hname (List.mem_map.2 ⟨g, Group.mem_all g, rfl⟩)
  · exact hleaves.entities e fun herased => hop.entities e herased he

theorem Unrelated.carries (h : p.Unrelated t q) : p.Carries (t.references.map Prod.snd) q := by
  induction h with
  | refl => exact ⟨.refl p, fun _ => rfl, fun _ _ => id⟩
  | step op _ hop ih =>
    have hstep := carries_apply hop
    exact ⟨ih.contents.trans hstep.contents, fun g => (hstep.entries g).trans (ih.entries g),
      fun e he hp => hstep.entities e he (ih.entities e he hp)⟩

end Program

namespace Tables

variable {t : Tables} {p q r : Program} {nodes : Group → List (Handle .node)}

/-- The list of group-shared globals is not kept in nodes. -/
theorem Kept.shared (h : t.Kept q nodes) (shared : List (Handle .global)) :
    Kept { t with shared } q nodes :=
  ⟨h.version, h.profile, h.entry, h.resources, h.types, h.props, h.options, h.resourceTypes, h.rootSignature,
    h.used⟩

/-- The tables are read from every program that what they were written into is carried over to. -/
theorem load_of_carries (ht : t.WellFormed) (h : t.emit p = .ok () q)
    (hr : q.Carries (t.references.map Prod.snd) r) :
    load r = .ok { t.normal p with shared := r.sharedGlobals } := by
  obtain ⟨nodes, built, hkept, hext, hnamed, hglobals, hfunctions, hlive⟩ := kept_of_emit ht h
  have hhas : ∀ e ∈ t.references.map Prod.snd, r.has e := by
    intro e he
    refine hr.entities e he ?_
    rw [Program.has_of_same hglobals hfunctions]
    exact dangling?_eq_none.1 (dangling?_eq_none_iff.2 hlive) e he
  have hrlive : t.Live r := dangling?_eq_none_iff.1 (dangling?_eq_none.2 hhas)
  refine load_of_kept (hkept.shared _) (hext.trans hr.contents) (fun g => ?_) ?_ rfl
  · rw [hr.entries, hnamed]
  · refine ⟨hrlive.entry, ?_, hrlive.props, hrlive.types, hrlive.used⟩
    intro e he
    rw [normal, Registry.refs, Registry.globals_normal] at he
    exact hrlive.resources e he

end Tables

/-- Side-tables that were written into a program are read from it in normal form, and read the same after any
run of operations on the program that writes no reserved entry and erases nothing they refer to, but for the
group-shared globals, which are always those of the program. -/
theorem Shader.load_persists {s : Shader} (hs : s.Reachable)
    (hoptions : Options.reserved s.tables.options.bits = 0) {p q r : Program} (h : s.tables.emit p = .ok () q)
    (hnodes : q.nodes.entries.length ≤ UInt32.size) (hrun : q.Unrelated s.tables r) :
    Tables.load q = .ok (s.tables.normal p) ∧
      Tables.load r = .ok { s.tables.normal p with shared := r.sharedGlobals } := by
  have hbounded := Tables.bounded_of_emit hs.orderly h hnodes
  have hwell := hs.orderly.wellFormed hoptions hbounded.resources hbounded.signatures
  exact ⟨Tables.load_of_emit hwell h, Tables.load_of_carries hwell h hrun.carries⟩

/-- Operations of all kinds on what the sample was written into: a slot of the entry function is marked,
promoted and swept, and globals, functions and entries come and go. -/
def Shader.sampleLaterOps : List ProgramOp :=
  [.constant (.zero ⟨0⟩), .append ⟨0⟩ (.alloca ⟨0⟩), .append ⟨0⟩ (.binary .fadd (.constant ⟨9⟩) (.constant ⟨9⟩)),
    .append ⟨0⟩ (.store (.inst ⟨0⟩) (.inst ⟨1⟩)), .append ⟨0⟩ (.load (.inst ⟨0⟩)), .markPointer (.inst ⟨0⟩),
    .promote ⟨0⟩, .sweep, .replaceAll (.constant ⟨9⟩) (.constant ⟨0⟩), .addFunction "helper" ⟨2⟩, .eraseFunction ⟨2⟩,
    .addGlobal ⟨"scratch", ⟨0⟩, .default, .internal, false, none⟩, .eraseGlobal ⟨2⟩,
    .addGlobal ⟨"later", ⟨0⟩, .groupShared, .internal, false, none⟩, .setNamed "other" [⟨0⟩], .addNamed "other" ⟨1⟩,
    .removeNamed "other"]

/-- The new group-shared global is all that is read otherwise. -/
theorem Shader.load_persists_sample :
    ∃ q r, sample.tables.emit sample.program = .ok () q ∧ r = sampleLaterOps.foldl ProgramOp.apply q ∧
      Tables.load q = .ok (sample.tables.normal sample.program) ∧
        Tables.load r = .ok { sample.tables.normal sample.program with shared := [⟨0⟩, ⟨3⟩] } := by
  let q := after (sample.tables.emit sample.program)
  have hq : sample.tables.emit sample.program = .ok () q := by
    obtain ⟨q', hq'⟩ := Tables.exists_emit (by decide : sample.tables.dangling? sample.program = none)
    simp only [q, hq']
    rfl
  have hrun : q.Unrelated sample.tables (sampleLaterOps.foldl ProgramOp.apply q) :=
    Program.Unrelated.refl.foldl (by decide +kernel)
  have hload := load_persists ⟨"sample", sampleOps, rfl⟩ (by decide) hq (by decide +kernel) hrun
  have hshared : (sampleLaterOps.foldl ProgramOp.apply q).sharedGlobals = [⟨0⟩, ⟨3⟩] := by decide +kernel
  rw [hshared] at hload
  exact ⟨q, _, hq, rfl, hload⟩

end ShaderModule

import Mathlib.Data.Finset.Insert
import Mathlib.Data.List.Sort
import ShaderModule.Proofs.Shader.Arena
import ShaderModule.Proofs.Shader.Lists

/-!
# The list of group-shared globals: `add_group_shared_variable`

The list is made anew whenever a global is recorded and whenever tables are read, and shortened in its place
when globals are removed. In all these ways it lists one set of globals, in module order and each once.
-/

namespace ShaderModule

/-! ## Globals in group-shared memory -/

namespace Program

variable {p q : Program} {g : Handle .global}

/-- Whether a global is there and in group-shared memory. -/
def isShared (p : Program) (g : Handle .global) : Bool := (p.global? g).any Global.isShared

theorem isShared_iff : p.isShared g ↔ ∃ x, p.global? g = some x ∧ x.isShared := by
  rw [isShared, Option.any_eq_true]

theorem isShared_of_globals (h : q.globals = p.globals) (g : Handle .global) : q.isShared g = p.isShared g := by
  rw [isShared, isShared, global?, global?, h]

variable (hp : p.globals.InOrder)

include hp

theorem mem_order_of_isShared (h : p.isShared g) : g ∈ p.globals.order := by
  obtain ⟨x, hx, -⟩ := isShared_iff.1 h
  exact (hp.exact g).2 ⟨x, hx⟩

theorem mem_sharedGlobals : g ∈ p.sharedGlobals ↔ p.isShared g :=
  List.mem_filter.trans ⟨fun h => h.2, fun h => ⟨mem_order_of_isShared hp h, h⟩⟩

theorem sorted_sharedGlobals : p.sharedGlobals.Pairwise (· < ·) := hp.sorted.filter _

end Program

namespace ProgramOp

variable {p : Program} {op : ProgramOp} {g : Handle .global}

/-- Whether an operation leaves a global there and in its address space. -/
def sparesGlobal (p : Program) (g : Handle .global) : ProgramOp → Bool
  | .eraseGlobal h => h ≠ g
  | .modifyGlobal h change => h ≠ g ∨ (p.global? g).all fun x => (change x).space = x.space
  | _ => true

/-- A global that is spared stays in group-shared memory. -/
theorem isShared_apply (hop : op.sparesGlobal p g) (hg : p.isShared g) : (op.apply p).isShared g := by
  obtain ⟨x, hx, hspace⟩ := Program.isShared_iff.1 hg
  rw [Program.isShared, Program.global?, Program.globals_apply]
  cases op with
  | addGlobal y => exact (Slots.get?_push_of_ne (Slots.ne_next_of_get? hx)).symm ▸ hg
  | eraseGlobal h =>
    have hne : g ≠ h := Ne.symm (of_decide_eq_true hop)
    rw [onGlobals, Listed.toSlots_drop, Slots.get?_erase_of_ne hne]
    exact hg
  | modifyGlobal h change =>
    rw [onGlobals, Listed.toSlots_modify, Slots.get?_modify]
    split
    · next heq =>
      subst heq
      have hchange : (change x).space = x.space := by simpa [sparesGlobal, hx] using hop
      rw [show p.globals.get? g = some x from hx]
      simpa only [Option.map_some, Option.any_some, Global.isShared, hchange] using hspace
    · exact hg
  | _ => exact hg

end ProgramOp

/-! ## The set of recorded globals -/

namespace ShaderOp

/-- An operation on the program alone leaves every listed global there and in its address space. -/
def SparesShared (s : Shader) (op : ShaderOp) : Prop :=
  ∀ host ∈ op.host?, ∀ g ∈ s.tables.shared, host.sparesGlobal s.program g

instance (s : Shader) (op : ShaderOp) : Decidable (op.SparesShared s) :=
  inferInstanceAs (Decidable (∀ host ∈ op.host?, ∀ g ∈ s.tables.shared, host.sparesGlobal s.program g))

/-- The globals that are recorded after an operation, if those of a set were recorded before. -/
def recorded (s : Shader) (S : Finset (Handle .global)) : ShaderOp → Finset (Handle .global)
  | .addShared g => if s.program.isShared g then insert g S else S
  | .removeGlobal g => S.erase g
  | .removeResources gs => S \ s.bound gs
  | .load =>
    match Tables.load s.program with
    | .ok _ => s.program.sharedGlobals.toFinset
    | .error _ => S
  | .reopen => ∅
  | _ => S

/-- A module and its recorded globals after an operation. -/
def track (x : Shader × Finset (Handle .global)) (op : ShaderOp) : Shader × Finset (Handle .global) :=
  (op.apply x.1, op.recorded x.1 x.2)

end ShaderOp

namespace Shader

variable {s s' s'' : Shader} {S : Finset (Handle .global)} {g : Handle .global}

/-- A run of operations that spare the listed globals, from a module with empty tables over any program whose globals
are in order, and the globals that are recorded after it. -/
inductive Recording : Shader → Finset (Handle .global) → Prop where
  | start (p : Program) (hp : p.globals.InOrder) : Recording (.ofProgram p) ∅
  | step {s : Shader} {S : Finset (Handle .global)} (op : ShaderOp) (h : Recording s S) (hop : op.SparesShared s) :
    Recording (op.apply s) (op.recorded s S)

/-- The list of a module holds the globals of a set in order, and all of these are in group-shared memory. -/
structure ListsShared (s : Shader) (S : Finset (Handle .global)) : Prop where
  order  : s.program.globals.InOrder
  sorted : s.tables.shared.Pairwise (· < ·)
  exact  : ∀ g, g ∈ s.tables.shared ↔ g ∈ S
  memory : ∀ g ∈ S, s.program.isShared g

namespace ListsShared

/-- What is listed does not depend on how it came into the list. -/
theorem shared_eq (h : s.ListsShared S) : s.tables.shared = s.program.globals.order.filter (· ∈ S) := by
  refine List.Pairwise.eq_of_mem_iff (r := (· < ·)) h.sorted (h.order.sorted.filter _) fun g => ?_
  rw [h.exact, List.mem_filter, decide_eq_true_eq]
  exact ⟨fun hg => ⟨Program.mem_order_of_isShared h.order (h.memory g hg), hg⟩, fun hg => hg.2⟩

theorem of_same (h : s.ListsShared S) (hshared : s'.tables.shared = s.tables.shared)
    (hglobals : s'.program.globals = s.program.globals) : s'.ListsShared S where
  order := hglobals ▸ h.order
  sorted := hshared ▸ h.sorted
  exact := hshared ▸ h.exact
  memory g hg := (Program.isShared_of_globals hglobals g).trans (h.memory g hg)

/-- Globals that are there may be left out of the list. -/
theorem of_filter {D : Finset (Handle .global)} (h : s.ListsShared S) (horder : s'.program.globals.InOrder)
    (hshared : s'.tables.shared = s.tables.shared.filter (· ∉ D))
    (hglobals : ∀ g ∉ D, s'.program.global? g = s.program.global? g) : s'.ListsShared (S \ D) where
  order := horder
  sorted := hshared ▸ h.sorted.filter _
  exact g := by rw [hshared, List.mem_filter, h.exact, decide_eq_true_eq, Finset.mem_sdiff]
  memory g hg := by
    obtain ⟨hS, hD⟩ := Finset.mem_sdiff.1 hg
    rw [Program.isShared, hglobals g hD]
    exact h.memory g hS

end ListsShared

/-! ### Operations on the list -/

/-- The module with all globals of a set listed that are there. -/
def withShared (s : Shader) (S : Finset (Handle .global)) : Shader :=
  { s with tables := { s.tables with shared := s.program.globals.order.filter (· ∈ S) } }

theorem ListsShared.withShared_eq (h : s.ListsShared S) : s.withShared S = s := by
  rw [withShared, ← h.shared_eq]

theorem listsShared_withShared (horder : s.program.globals.InOrder) (hS : ∀ g ∈ S, s.program.isShared g) :
    (s.withShared S).ListsShared S where
  order := horder
  sorted := horder.sorted.filter _
  exact g := by
    refine List.mem_filter.trans ⟨fun hg => of_decide_eq_true hg.2, fun hg => ?_⟩
    exact ⟨Program.mem_order_of_isShared horder (hS g hg), decide_eq_true hg⟩
  memory := hS

/-- A global in group-shared memory is added to the set, and any other one is refused. -/
theorem addShared_eq (h : s.ListsShared S) (g : Handle .global) : addShared g s =
    if s.program.isShared g then .ok (decide (g ∉ S)) (s.withShared (insert g S))
    else .error (.notGroupShared g) s := by
  unfold addShared
  cases hg : s.program.isShared g with
  | false =>
    rw [Program.isShared] at hg
    simp [hg]
  | true =>
    rw [Program.isShared] at hg
    simp only [hg, Bool.not_true, Bool.false_eq_true, if_false, if_true]
    by_cases hmem : g ∈ S
    · rw [if_pos ((h.exact g).2 hmem), Finset.insert_eq_of_mem hmem, h.withShared_eq]
      simp [hmem]
    · rw [if_neg (mt (h.exact g).1 hmem)]
      simp [hmem, withShared, h.exact]

/-- Tables that are empty list nothing. -/
theorem listsShared_empty {p : Program} (hp : p.globals.InOrder) : ListsShared (.ofProgram p) ∅ where
  order := hp
  sorted := .nil
  exact g := ⟨fun hg => absurd hg List.not_mem_nil, fun hg => absurd hg (Finset.notMem_empty g)⟩
  memory g hg := absurd hg (Finset.notMem_empty g)

/-- The tables that are read list all group-shared globals. -/
theorem listsShared_load (horder : s.program.globals.InOrder) {t : Tables} (h : Tables.load s.program = .ok t) :
    ListsShared { s with tables := t } s.program.sharedGlobals.toFinset := by
  have hshared : t.shared = s.program.sharedGlobals :=
    congrArg Tables.shared (Tables.wellFormed_of_load h).2.1.symm
  constructor
  case order => exact horder
  case sorted => exact hshared ▸ Program.sorted_sharedGlobals horder
  case exact => simp [hshared]
  case memory => simp [Program.mem_sharedGlobals horder]

/-- An operation makes of the list that of the set after it. -/
theorem ListsShared.apply (h : s.ListsShared S) {op : ShaderOp} (hop : op.SparesShared s) :
    (op.apply s).ListsShared (op.recorded s S) := by
  have horder := (evolves_apply op s).globals h.order
  cases op with
  | program op =>
    refine ⟨horder, h.sorted, h.exact, fun g hg => ?_⟩
    exact ProgramOp.isShared_apply (hop op rfl g ((h.exact g).2 hg)) (h.memory g hg)
  | addShared g =>
    have hrun := addShared_eq h g
    simp only [ShaderOp.apply, ShaderOp.recorded, hrun]
    split
    · next hg =>
      refine listsShared_withShared h.order fun g' hg' => ?_
      rcases Finset.mem_insert.1 hg' with rfl | hg'
      · exact hg
      · exact h.memory g' hg'
    · exact h
  | removeGlobal g =>
    rw [removeGlobal_apply] at horder ⊢
    rw [ShaderOp.recorded, Finset.erase_eq]
    refine h.of_filter horder ?_ fun g' hg' => ?_
    · simp [Tables.forgetGlobal, Tables.unbind]
    · simp only [Program.global?, Listed.toSlots_drop, Slots.get?_erase_of_ne (Finset.notMem_singleton.1 hg')]
  | removeResources gs =>
    have hremoved := removed_apply s gs
    exact h.of_filter horder hremoved.shared fun g hg => (hremoved.globals g).trans (if_neg hg)
  | load =>
    simp only [ShaderOp.apply, ShaderOp.recorded, load]
    cases hload : Tables.load s.program with
    | error cause => exact h
    | ok t => exact listsShared_load h.order hload
  | reopen => exact listsShared_empty h.order
  | addResource k x => exact h.of_same rfl rfl
  | modifyResource k index change =>
    rw [modifyResource_apply]
    exact h.of_same rfl rfl
  | appendElement kind e => exact h.of_same rfl rfl
  | releaseSignature kind => exact h.of_same rfl rfl
  | _ => exact h.of_same (sameLists_apply rfl s).shared (sameLists_apply rfl s).globals

/-- Globals are added to the set one after another. -/
theorem foldl_addShared (h : s.ListsShared S) (gs : List (Handle .global)) :
    gs.foldl (fun s g => (ShaderOp.addShared g).apply s) s =
      s.withShared (S ∪ gs.toFinset.filter fun g => s.program.isShared g) := by
  induction gs generalizing s S with
  | nil => simpa using h.withShared_eq.symm
  | cons g gs ih =>
    have hrun : (ShaderOp.addShared g).apply s = s.withShared (ShaderOp.recorded s S (.addShared g)) := by
      simp only [ShaderOp.apply, ShaderOp.recorded, addShared_eq h g]
      split
      · rfl
      · exact h.withShared_eq.symm
    have hnext : ((ShaderOp.addShared g).apply s).ListsShared (ShaderOp.recorded s S (.addShared g)) :=
      h.apply fun _ hhost => by cases hhost
    rw [List.foldl_cons, ih hnext, hrun]
    show s.withShared (_ ∪ gs.toFinset.filter fun g => s.program.isShared g) = _
    rw [List.toFinset_cons, Finset.filter_insert, ShaderOp.recorded]
    split
    · rw [Finset.insert_union, Finset.union_insert]
    · rfl

/-! ### Writing and reading -/

/-- Reading what was written lists the globals of the set again if there are no others to list. -/
theorem ListsShared.load_eq_iff (h : s.ListsShared S) (hemit : emit s = .ok () s') (hload : load s' = .ok () s'') :
    s''.tables.shared = s.tables.shared ↔ ∀ g, s.program.isShared g → g ∈ S := by
  obtain ⟨q, hq, rfl⟩ := emit_eq_ok.1 hemit
  obtain ⟨t, ht, rfl⟩ := load_eq_ok.1 hload
  have hglobals : q.globals = s.program.globals := by
    have := s.tables.globals_emit s.program
    rwa [hq] at this
  have hread : ListsShared { s with program := q, tables := t } q.sharedGlobals.toFinset :=
    listsShared_load (s := { s with program := q }) (hglobals ▸ h.order) ht
  have hmem : ∀ g, g ∈ t.shared ↔ s.program.isShared g := by
    intro g
    rw [hread.exact, List.mem_toFinset, Program.mem_sharedGlobals hread.order]
    exact Bool.eq_iff_iff.1 (Program.isShared_of_globals hglobals g)
  constructor
  · intro heq g hg
    exact (h.exact g).1 (heq ▸ (hmem g).2 hg)
  · intro hall
    refine List.Pairwise.eq_of_mem_iff (r := (· < ·)) hread.sorted h.sorted fun g => ?_
    rw [hmem, h.exact]
    exact ⟨hall g, h.memory g⟩

/-! ## Runs -/

theorem Recording.listsShared (h : s.Recording S) : s.ListsShared S := by
  induction h with
  | start p hp => exact listsShared_empty hp
  | step op _ hop ih => exact ih.apply hop

theorem Recording.orderly (h : s.Recording S) : s.tables.Orderly := by
  induction h with
  | start p hp => exact Tables.orderly_empty
  | step op _ _ ih => exact orderly_apply op ih

/-- Operations that spare the listed globals one after another make a run. -/
theorem Recording.foldl {ops : List ShaderOp} {x : Shader × Finset (Handle .global)} (h : x.1.Recording x.2)
    (hops : ∀ i (hi : i < ops.length), ops[i].SparesShared ((ops.take i).foldl ShaderOp.track x).1) :
    (ops.foldl ShaderOp.track x).1.Recording (ops.foldl ShaderOp.track x).2 :=
  foldl_of_allowed (P := fun x : Shader × Finset (Handle .global) => x.1.Recording x.2)
    (fun _ op hx hop => hx.step op hop) h hops

/-- Wherever a run has come to, the list is that of the recorded globals in module order, which is the
order of their handles. So a global in group-shared memory is new in it unless it is recorded, and any
other one is refused without a change; in which order globals are added, and how often, does not matter;
and after tables were written and read the list is the same if no global in group-shared memory had been
left out. -/
theorem shared_of_recording (h : s.Recording S) :
    (s.tables.shared = s.program.globals.order.filter (· ∈ S) ∧ s.tables.shared.Pairwise (· < ·) ∧
      s.tables.shared.Nodup ∧ ∀ g, g ∈ s.tables.shared ↔ g ∈ S) ∧
    (∀ g, addShared g s =
      if s.program.isShared g then .ok (decide (g ∉ S)) (s.withShared (insert g S))
      else .error (.notGroupShared g) s) ∧
    (∀ gs hs : List (Handle .global), (∀ g, g ∈ gs ↔ g ∈ hs) →
      gs.foldl (fun s g => (ShaderOp.addShared g).apply s) s =
        hs.foldl (fun s g => (ShaderOp.addShared g).apply s) s) ∧
    ∀ s', emit s = .ok () s' →
      (∀ s'', load s' = .ok () s'' →
        (s''.tables.shared = s.tables.shared ↔ ∀ g, s.program.isShared g → g ∈ S)) ∧
      (Options.reserved s.tables.options.bits = 0 → s'.program.nodes.entries.length ≤ UInt32.size →
        ∃ s'', load s' = .ok () s'') := by
  have hlists := h.listsShared
  refine ⟨⟨hlists.shared_eq, hlists.sorted, ?_, hlists.exact⟩, addShared_eq hlists, fun gs hs hsame => ?_, fun s' hemit => ?_⟩
  · rw [hlists.shared_eq]
    exact hlists.order.nodup.filter _
  · have hset : gs.toFinset = hs.toFinset := by
      ext g
      rw [List.mem_toFinset, List.mem_toFinset, hsame]
    rw [foldl_addShared hlists, foldl_addShared hlists, hset]
  · exact ⟨fun s'' => hlists.load_eq_iff hemit,
      fun hoptions hnodes => ⟨_, load_of_emit h.orderly hoptions hemit hnodes⟩⟩

end Shader

/-- A program with four globals, all but the second of them group-shared. -/
def Program.tiled : Program :=
  ([.type (.float 32), .addGlobal ⟨"tile", ⟨0⟩, .groupShared, .internal, false, none⟩,
    .addGlobal ⟨"view", ⟨0⟩, .default, .external, true, none⟩,
    .addGlobal ⟨"sums", ⟨0⟩, .groupShared, .internal, false, none⟩,
    .addGlobal ⟨"spare", ⟨0⟩, .groupShared, .internal, false, none⟩] : List ProgramOp).foldl
      ProgramOp.apply (.empty "tiled")

/-- Globals are recorded out of order and repeatedly, among them one that is new and one that cannot be; the
tables are read in between, and recorded globals are removed, one with a resource and one that is gone already. -/
def Shader.tilingOps : List ShaderOp :=
  [.addResource .uavs ⟨⟨0, ⟨2⟩, "sums", 0, 0, 1⟩, ⟨.uav, .rawBuffer, .i32, 0, 0, false, false, false⟩⟩,
    .addShared ⟨2⟩, .addShared ⟨0⟩, .addShared ⟨1⟩, .addShared ⟨2⟩, .emit, .load, .removeGlobal ⟨3⟩,
    .program (.addGlobal ⟨"late", ⟨0⟩, .groupShared, .internal, false, none⟩), .removeResources [⟨2⟩, ⟨0⟩],
    .removeGlobal ⟨3⟩, .addShared ⟨4⟩, .program (.modifyGlobal ⟨0⟩ fun g => { g with name := "tiles" }),
    .program (.addGlobal ⟨"later", ⟨0⟩, .groupShared, .internal, false, none⟩)]

/-- The module after these operations, and the globals that are recorded then. -/
def Shader.tiling : Shader × Finset (Handle .global) := tilingOps.foldl ShaderOp.track (.ofProgram .tiled, ∅)

/-- The last global is not recorded, so it is new in the list and turns up in it when tables are read. -/
theorem Shader.shared_of_recording_tiling :
    tiling.1.tables.shared = [⟨0⟩, ⟨4⟩] ∧ addShared ⟨5⟩ tiling.1 = .ok true (tiling.1.withShared {⟨0⟩, ⟨4⟩, ⟨5⟩}) ∧
      addShared ⟨2⟩ tiling.1 = .error (.notGroupShared ⟨2⟩) tiling.1 ∧
      ∃ s' s'', emit tiling.1 = .ok () s' ∧ load s' = .ok () s'' ∧ s''.tables.shared ≠ [⟨0⟩, ⟨4⟩] := by
  have hrecorded : tiling.2 = {⟨0⟩, ⟨4⟩} := by decide +kernel
  have htiled : Program.tiled.globals.InOrder := (Program.reachable_foldl "tiled" _).globals_inOrder
  have hrun : tiling.1.Recording tiling.2 := Recording.foldl (.start .tiled htiled) (by decide +kernel)
  rw [hrecorded] at hrun
  obtain ⟨⟨hlist, -⟩, hadd, -, hemit⟩ := shared_of_recording hrun
  have hshared : tiling.1.tables.shared = [⟨0⟩, ⟨4⟩] := by
    rw [hlist]
    decide +kernel
  refine ⟨hshared, ?_, ?_, ?_⟩
  · rw [hadd, if_pos (by decide +kernel)]
    exact congrArg₂ _ (by decide) (congrArg _ (by decide))
  · rw [hadd, if_neg (by decide +kernel)]
  · have hlive : ∀ e ∈ tiling.1.tables.mentions, tiling.1.program.has e := by decide +kernel
    have hwrite : emit tiling.1 = .ok () (after (emit tiling.1)) := by
      obtain ⟨s', hs'⟩ := exists_emit hlive
      rw [hs', after]
    obtain ⟨hsame, hload⟩ := hemit _ hwrite
    obtain ⟨s'', hread⟩ := hload (by decide +kernel) (by decide +kernel)
    have hlost : (⟨5⟩ : Handle .global) ∉ ({⟨0⟩, ⟨4⟩} : Finset (Handle .global)) := by decide
    refine ⟨_, s'', hwrite, hread, fun heq => hlost ?_⟩
    exact (hsame s'' hread).1 (heq.trans hshared.symm) _ (by decide +kernel)

end ShaderModule

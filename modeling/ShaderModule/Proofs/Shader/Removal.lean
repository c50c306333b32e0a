import Mathlib.Data.Finset.Card
import Mathlib.Data.Finset.Dedup
import ShaderModule.Proofs.Shader.Live
import ShaderModule.Proofs.Table.Slots

/-!
# What removing resources leaves: `remove_resources`

Removing takes the records bound to some globals out of the four lists, and the globals that had one out of
the program and out of the tables. What is left depends only on which globals were given, so removals can be
done in any order, one by one or all at once.
-/

namespace ShaderModule

/-- Of equal elements the first one is kept. -/
theorem nodup_eraseDups {α : Type} [DecidableEq α] (xs : List α) : xs.eraseDups.Nodup := by
  induction hn : xs.length using Nat.strong_induction_on generalizing xs with
  | _ n ih =>
    cases xs with
    | nil => simp
    | cons x xs =>
      rw [List.eraseDups_cons, List.nodup_cons]
      refine ⟨by simp, ih _ ?_ _ rfl⟩
      have := List.length_filter_le (fun b => !b == x) xs
      simp only [List.length_cons] at hn
      omega

/-! ## Lists of records -/

namespace Bound

variable {π : Type} {gs hs : List (Handle .global)} {xs ys : List (Bound π)}

/-- A record apart from its id. -/
def unnumbered (x : Bound π) : Bound π := { x with id := 0 }

theorem getElem?_renumber (xs : List (Bound π)) (i : Nat) :
    (renumber xs)[i]? = xs[i]?.map fun x => { x with id := UInt32.ofNat i } := by
  simp [renumber]

theorem map_unnumbered_renumber (xs : List (Bound π)) :
    (renumber xs).map unnumbered = xs.map unnumbered := by
  refine List.ext_getElem (by simp) fun i _ _ => ?_
  simp [renumber, unnumbered]

/-- Ids apart, renumbering only looks at the records. -/
theorem renumber_congr (h : xs.map unnumbered = ys.map unnumbered) : renumber xs = renumber ys := by
  refine List.ext_getElem? fun i => ?_
  have hi := congrArg (fun l => l[i]?.map fun x : Bound π => { x with id := UInt32.ofNat i }) h
  simpa [getElem?_renumber, Function.comp_def, unnumbered] using hi

theorem map_unnumbered_filter (P : Handle .global → Bool) (xs : List (Bound π)) :
    (xs.filter fun x => P x.global).map unnumbered = (xs.map unnumbered).filter fun x => P x.global := by
  rw [List.filter_map]
  rfl

/-- Of records that are dropped in two steps those are left that no step drops. -/
theorem unbind_unbind (gs hs : List (Handle .global)) (xs : List (Bound π)) :
    unbind hs (unbind gs xs) = unbind (gs ++ hs) xs := by
  refine renumber_congr ?_
  rw [map_unnumbered_filter fun g => decide (g ∉ hs), unbind, map_unnumbered_renumber,
    ← map_unnumbered_filter fun g => decide (g ∉ hs), List.filter_filter]
  simp [Bool.and_comm]

end Bound

namespace Registry

variable {r r' : Registry} {gs hs : List (Handle .global)} {g : Handle .global} {π : Type}

/-- A registry is known by its lists. -/
theorem eq_of_list (h : ∀ {π : Type} (k : Listing π), r.list k = r'.list k) : r = r' := by
  obtain ⟨cbuffers, samplers, srvs, uavs⟩ := r
  congr
  · exact h .cbuffers
  · exact h .samplers
  · exact h .srvs
  · exact h .uavs

@[simp] theorem list_unbind (r : Registry) (gs : List (Handle .global)) (k : Listing π) :
    (r.unbind gs).list k = Bound.unbind gs (r.list k) := by
  cases k <;> rfl

theorem unbind_unbind (r : Registry) (gs hs : List (Handle .global)) :
    (r.unbind gs).unbind hs = r.unbind (gs ++ hs) := by
  refine eq_of_list fun k => ?_
  rw [list_unbind, list_unbind, list_unbind, Bound.unbind_unbind]

theorem mem_boundAmong : g ∈ r.boundAmong gs ↔ g ∈ gs ∧ g ∈ r.globals := by
  simp only [boundAmong, List.mem_eraseDups, List.mem_append, Bound.boundAmong, List.mem_filter,
    decide_eq_true_eq, mem_globals]
  tauto

theorem nodup_boundAmong (r : Registry) (gs : List (Handle .global)) : (r.boundAmong gs).Nodup :=
  nodup_eraseDups _

end Registry

/-! ## Tables and globals -/

/-- Stage properties without some globals among their clip planes. -/
def StageProps.clearPlanes (D : Finset (Handle .global)) : StageProps → StageProps
  | .vertex props => .vertex ⟨props.clipPlanes.map (Option.filter (· ∉ D))⟩
  | x => x

/-- Tables without some globals in the shared and used lists and among the clip planes. -/
def Tables.forgetGlobals (t : Tables) (D : Finset (Handle .global)) : Tables :=
  { t with
    shared := t.shared.filter (· ∉ D)
    used   := t.used.filter (· ∉ D)
    props  := t.props.mapValues (StageProps.clearPlanes D) }

namespace StageProps

variable {D E : Finset (Handle .global)}

theorem clearPlanes_empty (x : StageProps) : x.clearPlanes ∅ = x := by
  cases x with
  | vertex props =>
    have hid : Option.filter (fun g : Handle .global => decide (g ∉ (∅ : Finset (Handle .global)))) = id := by
      funext plane
      cases plane <;> simp [Option.filter]
    rw [clearPlanes, hid, Vector.map_id]
  | _ => rfl

theorem clearPlanes_clearPlanes (x : StageProps) : (x.clearPlanes D).clearPlanes E = x.clearPlanes (D ∪ E) := by
  cases x with
  | vertex props =>
    simp only [clearPlanes, Vector.map_map, Finset.mem_union, not_or]
    congr 3
    funext plane
    cases plane <;> simp [Option.filter_filter]
  | _ => rfl

theorem forgetGlobal_eq (g : Handle .global) : forgetGlobal g = clearPlanes {g} := by
  funext x
  cases x with
  | vertex props =>
    simp only [forgetGlobal, clearPlanes]
    congr 3
    funext plane
    cases plane with
    | none => rfl
    | some h => by_cases hg : h = g <;> simp [Option.filter, hg]
  | _ => rfl

end StageProps

namespace Tables

variable {D E : Finset (Handle .global)}

theorem forgetGlobals_empty (t : Tables) : t.forgetGlobals ∅ = t := by
  simp [forgetGlobals, Ordered.mapValues, StageProps.clearPlanes_empty]

theorem forgetGlobals_forgetGlobals (t : Tables) :
    (t.forgetGlobals D).forgetGlobals E = t.forgetGlobals (D ∪ E) := by
  simp [forgetGlobals, Ordered.mapValues, List.filter_filter, Function.comp_def, Bool.and_comm,
    StageProps.clearPlanes_clearPlanes]

theorem forgetGlobal_eq (t : Tables) (g : Handle .global) : t.forgetGlobal g = t.forgetGlobals {g} := by
  simp [forgetGlobal, forgetGlobals, StageProps.forgetGlobal_eq]

/-- Globals may be forgotten one after another. -/
theorem foldl_forgetGlobal (gs : List (Handle .global)) (t : Tables) :
    gs.foldl forgetGlobal t = t.forgetGlobals gs.toFinset := by
  induction gs generalizing t with
  | nil => exact (forgetGlobals_empty t).symm
  | cons g gs ih => rw [List.foldl_cons, ih, forgetGlobal_eq, forgetGlobals_forgetGlobals, List.toFinset_cons,
      Finset.insert_eq]

end Tables

namespace Shader

variable {s s' s'' : Shader} {gs hs : List (Handle .global)}

theorem forM_dropGlobal (gs : List (Handle .global)) (s : Shader) : gs.forM dropGlobal s = .ok () { s with
    tables := gs.foldl Tables.forgetGlobal s.tables
    program := { s.program with globals := gs.foldl Listed.drop s.program.globals } } := by
  induction gs generalizing s with
  | nil => rfl
  | cons g gs ih => exact action_bind_eq_ok.2 ⟨(), _, dropGlobal_eq g s, ih _⟩

/-- The globals among the given ones that a resource record is bound to. -/
def bound (s : Shader) (gs : List (Handle .global)) : Finset (Handle .global) :=
  gs.toFinset.filter (· ∈ s.tables.resources.globals)

/-- What is left of a module without the records bound to some globals: in each list the other records in
their order, with their positions as ids, and nothing of the globals that had a record. They go out of the order
list as far as they were still there. -/
structure Removed (gs : List (Handle .global)) (s s' : Shader) : Prop where
  records : ∀ {π : Type} (k : Listing π) (i : Nat), (s'.tables.resources.list k)[i]? =
    ((s.tables.resources.list k).filter fun x => x.global ∉ gs)[i]?.map fun x => { x with id := UInt32.ofNat i }
  globals : ∀ g, s'.program.global? g = if g ∈ s.bound gs then none else s.program.global? g
  next    : s'.program.globals.next = s.program.globals.next
  order   : s'.program.globals.order =
    s.program.globals.order.filter fun g => g ∉ s.bound gs ∨ s.program.global? g = none
  shared  : s'.tables.shared = s.tables.shared.filter (· ∉ s.bound gs)
  used    : s'.tables.used = s.tables.used.filter (· ∉ s.bound gs)
  props   : s'.tables.props = s.tables.props.mapValues (StageProps.clearPlanes (s.bound gs))
  rest    : s' = { s with
    program := { s.program with globals := s'.program.globals }
    tables  := { s.tables with
      resources := s'.tables.resources, shared := s'.tables.shared
      used := s'.tables.used, props := s'.tables.props } }

theorem mem_bound {g : Handle .global} : g ∈ s.bound gs ↔ g ∈ gs ∧ g ∈ s.tables.resources.globals := by
  simp [bound]

theorem toFinset_boundAmong (s : Shader) (gs : List (Handle .global)) :
    (s.tables.resources.boundAmong gs).toFinset = s.bound gs := by
  ext g
  rw [List.mem_toFinset, Registry.mem_boundAmong, mem_bound]

/-- Resources are removed without fail, and the globals that had one are counted. -/
theorem removeResources_eq (s : Shader) (gs : List (Handle .global)) :
    ∃ s', removeResources gs s = .ok (s.bound gs).card s' ∧ Removed gs s s' := by
  -- Each global is listed once, however many records it has, so the list is as long as the set.
  let hs := s.tables.resources.boundAmong gs
  have hbound : hs.toFinset = s.bound gs := toFinset_boundAmong s gs
  have hcard : hs.length = (s.bound gs).card := by
    rw [← hbound, List.toFinset_card_of_nodup (Registry.nodup_boundAmong _ gs)]
  have hrun : removeResources gs s = .ok hs.length { s with
      tables := hs.foldl Tables.forgetGlobal (s.tables.unbind gs)
      program := { s.program with globals := hs.foldl Listed.drop s.program.globals } } := by
    refine action_bind_eq_ok.2 ⟨s, s, rfl, action_bind_eq_ok.2 ⟨(), _, rfl, ?_⟩⟩
    exact action_bind_eq_ok.2 ⟨(), _, forM_dropGlobal _ _, rfl⟩
  rw [hcard, Tables.foldl_forgetGlobal, hbound] at hrun
  refine ⟨_, hrun, ?_⟩
  constructor
  case records =>
    intro π k i
    show ((s.tables.resources.unbind gs).list k)[i]? = _
    rw [Registry.list_unbind, Bound.unbind, Bound.getElem?_renumber]
  case globals =>
    intro g
    rw [← hbound]
    simp only [Program.global?, Listed.toSlots_foldl_drop, Slots.get?_foldl_erase_eq, List.mem_toFinset]
  case next => rw [Listed.toSlots_foldl_drop, Slots.next_foldl_erase]
  case order =>
    rw [← hbound]
    simp only [Listed.order_foldl_drop, List.mem_toFinset]
    rfl
  case shared => rfl
  case used => rfl
  case props => rfl
  case rest => rfl

namespace Removed

theorem resources (h : Removed gs s s') : s'.tables.resources = s.tables.resources.unbind gs := by
  refine Registry.eq_of_list fun k => List.ext_getElem? fun i => ?_
  rw [h.records, Registry.list_unbind, Bound.unbind, Bound.getElem?_renumber]

/-- There is only one such module. -/
theorem unique (h : Removed gs s s') (h' : Removed gs s s'') : s' = s'' := by
  have hslots : s'.program.globals.toSlots = s''.program.globals.toSlots :=
    Slots.eq_of_get? (h.next.trans h'.next.symm) fun g => (h.globals g).trans (h'.globals g).symm
  have hglobals := Listed.ext_slots hslots (h.order.trans h'.order.symm)
  rw [h.rest, h'.rest, hglobals, h.resources, h'.resources, h.shared, h'.shared, h.used, h'.used, h.props,
    h'.props]

/-- Only which globals are given matters. -/
theorem congr (h : Removed gs s s') (hgs : ∀ g, g ∈ gs ↔ g ∈ hs) : Removed hs s s' := by
  have hbound : s.bound gs = s.bound hs := by
    ext g
    rw [mem_bound, mem_bound, hgs]
  constructor
  case records =>
    intro π k i
    simpa only [hgs] using h.records k i
  case globals => exact hbound ▸ h.globals
  case next => exact h.next
  case order => exact hbound ▸ h.order
  case shared => exact hbound ▸ h.shared
  case used => exact hbound ▸ h.used
  case props => exact hbound ▸ h.props
  case rest => exact h.rest

/-- What had a record can be told apart by the removal that took it away. -/
theorem bound_append (h : Removed gs s s') (hs : List (Handle .global)) :
    s.bound (gs ++ hs) = s.bound gs ∪ s'.bound hs ∧ Disjoint (s.bound gs) (s'.bound hs) := by
  have hmem : ∀ g, g ∈ s'.bound hs ↔ g ∈ hs ∧ g ∈ s.tables.resources.globals ∧ g ∉ gs := by
    intro g
    rw [mem_bound, h.resources, Registry.mem_globals_unbind]
  constructor
  · ext g
    simp only [Finset.mem_union, hmem, mem_bound, List.mem_append]
    tauto
  · rw [Finset.disjoint_left]
    intro g hg hg'
    exact ((hmem g).1 hg').2.2 (mem_bound.1 hg).1

/-- One removal after another is the removal of all. -/
theorem append (h : Removed gs s s') (h' : Removed hs s' s'') : Removed (gs ++ hs) s s'' := by
  obtain ⟨hbound, -⟩ := h.bound_append hs
  constructor
  case records =>
    intro π k i
    rw [h'.resources, h.resources, Registry.unbind_unbind, Registry.list_unbind, Bound.unbind,
      Bound.getElem?_renumber]
  case globals =>
    intro g
    rw [h'.globals, h.globals, hbound]
    by_cases hg : g ∈ s'.bound hs <;> simp [hg]
  case next => exact h'.next.trans h.next
  case order =>
    rw [h'.order, h.order, hbound, List.filter_filter]
    refine List.filter_congr fun g _ => ?_
    rw [h.globals]
    by_cases hg : g ∈ s.bound gs <;> by_cases hg' : g ∈ s'.bound hs <;> simp [hg, hg']
  case shared =>
    rw [h'.shared, h.shared, hbound]
    exact congrArg Tables.shared (Tables.forgetGlobals_forgetGlobals s.tables)
  case used =>
    rw [h'.used, h.used, hbound]
    exact congrArg Tables.used (Tables.forgetGlobals_forgetGlobals s.tables)
  case props =>
    rw [h'.props, h.props, hbound]
    exact congrArg Tables.props (Tables.forgetGlobals_forgetGlobals s.tables)
  case rest =>
    have hrest := h'.rest
    rw [h.rest] at hrest
    exact hrest

end Removed

/-- Removing resources never fails. It takes the records bound to a given global out of the four lists and the
globals that had one out of the module, and counts these. Two removals come to the same in either order
and at once, and the counts add up. -/
theorem removed_of_removeResources (s : Shader) (gs : List (Handle .global)) :
    ∃ s', removeResources gs s = .ok (s.bound gs).card s' ∧ Removed gs s s' ∧
      ∀ hs, ∃ u t, removeResources hs s' = .ok (s'.bound hs).card t ∧
        removeResources hs s = .ok (s.bound hs).card u ∧ removeResources gs u = .ok (u.bound gs).card t ∧
        removeResources (gs ++ hs) s = .ok ((s.bound gs).card + (s'.bound hs).card) t ∧
        (s.bound gs).card + (s'.bound hs).card = (s.bound hs).card + (u.bound gs).card := by
  obtain ⟨s', hrun, hs'⟩ := removeResources_eq s gs
  refine ⟨s', hrun, hs', fun hs => ?_⟩
  obtain ⟨t, hrunt, ht⟩ := removeResources_eq s' hs
  obtain ⟨u, hrunu, hu⟩ := removeResources_eq s hs
  obtain ⟨t', hrunt', ht'⟩ := removeResources_eq u gs
  obtain ⟨t'', hrunt'', ht''⟩ := removeResources_eq s (gs ++ hs)
  have hcomm : ∀ g, g ∈ hs ++ gs ↔ g ∈ gs ++ hs := by simp [or_comm]
  obtain rfl := (hs'.append ht).unique ht''
  obtain rfl := (hs'.append ht).unique ((hu.append ht').congr hcomm)
  obtain ⟨hbound, hdisjoint⟩ := hs'.bound_append hs
  obtain ⟨hbound', hdisjoint'⟩ := hu.bound_append gs
  have hsame : s.bound (hs ++ gs) = s.bound (gs ++ hs) := by
    ext g
    rw [mem_bound, mem_bound, hcomm]
  have hcard := Finset.card_union_of_disjoint hdisjoint
  have hcard' := Finset.card_union_of_disjoint hdisjoint'
  rw [← hbound] at hcard
  rw [← hbound', hsame] at hcard'
  exact ⟨u, t, hrunt, hrunu, hrunt', hcard ▸ hrunt'', hcard.symm.trans hcard'⟩

end Shader

end ShaderModule

import Mathlib.Data.List.Perm.Basic
import ShaderModule.DebugRelocation
import ShaderModule.Proofs.Program.Along
import ShaderModule.Proofs.Table.Slots

/-!
# Debug information in step

When debug records follow the pieces of globals (`create_element_global_variable_debug_info`) and their
replacements (`update_global_variable_debug_info`), the index over them, the lists of the units and the
globals described stay in step: the index holds what the units list, each record once, and
no global has two records.
-/

namespace ShaderModule

/-! ## Putting one element in the place of others -/

/-- `bs` is `as` with `a` in the place of a stretch of elements that are gone. -/
def Renewed {α : Type} (gone : List α) (a : α) (as bs : List α) : Prop :=
  ∃ pre post, as = pre ++ gone ++ post ∧ bs = pre ++ a :: post

section

variable {α : Type} {gone as bs : List α} {a b : α}

theorem renewed_insert (a : α) (as : List α) (n : Nat) : Renewed [] a as (as.take n ++ a :: as.drop n) :=
  ⟨as.take n, as.drop n, by simp, rfl⟩

theorem renewed_concat (a : α) (as : List α) : Renewed [] a as (as ++ [a]) := ⟨as, [], by simp, rfl⟩

theorem renewed_set {n : Nat} (hn : as[n]? = some b) (a : α) : Renewed [b] a as (as.set n a) := by
  obtain ⟨hlt, rfl⟩ := List.getElem?_eq_some_iff.1 hn
  refine ⟨as.take n, as.drop (n + 1), ?_, ?_⟩
  · rw [List.append_assoc, List.singleton_append, ← List.drop_eq_getElem_cons hlt, List.take_append_drop]
  · rw [List.set_eq_take_append_cons_drop, if_pos hlt]

/-- What stands before and after does not matter. -/
theorem Renewed.within (h : Renewed gone a as bs) (pre post : List α) :
    Renewed gone a (pre ++ as ++ post) (pre ++ bs ++ post) := by
  obtain ⟨pre', post', rfl, rfl⟩ := h
  exact ⟨pre ++ pre', post' ++ post, by simp, by simp⟩

theorem Renewed.perm (h : Renewed gone a as bs) : ∃ rest, as.Perm (gone ++ rest) ∧ bs.Perm (a :: rest) := by
  obtain ⟨pre, post, rfl, rfl⟩ := h
  refine ⟨pre ++ post, ?_, List.perm_middle⟩
  rw [← List.append_assoc]
  exact List.perm_append_comm.append_right post

/-- Two lists with the same elements still have the same elements if the same is renewed in both. -/
theorem Renewed.perm_of_perm {as' bs' : List α} (h : Renewed gone a as bs) (h' : Renewed gone a as' bs')
    (hperm : as.Perm as') : bs.Perm bs' := by
  obtain ⟨rest, has, hbs⟩ := h.perm
  obtain ⟨rest', has', hbs'⟩ := h'.perm
  have hrest : rest.Perm rest' := (List.perm_append_left_iff gone).1 (has.symm.trans (hperm.trans has'))
  exact hbs.trans ((hrest.cons a).trans hbs'.symm)

/-- Of a list without repetition there remains what is not gone, and the new element. -/
theorem Renewed.mem_iff (h : Renewed gone a as bs) (hn : as.Nodup) : b ∈ bs ↔ b = a ∨ b ∈ as ∧ b ∉ gone := by
  obtain ⟨rest, has, hbs⟩ := h.perm
  have hdisjoint := (List.nodup_append.1 (has.nodup_iff.1 hn)).2.2
  rw [hbs.mem_iff, List.mem_cons, has.mem_iff, List.mem_append]
  constructor
  · rintro (rfl | hb)
    · exact .inl rfl
    · exact .inr ⟨.inr hb, fun hgone => hdisjoint b hgone b hb rfl⟩
  · rintro (rfl | ⟨hb | hb, hgone⟩)
    · exact .inl rfl
    · exact absurd hb hgone
    · exact .inr hb

theorem Renewed.nodup (h : Renewed gone a as bs) (hn : as.Nodup) (ha : a ∉ as) : bs.Nodup := by
  obtain ⟨rest, has, hbs⟩ := h.perm
  have hrest : rest.Nodup := (List.nodup_append.1 (has.nodup_iff.1 hn)).2.1
  refine hbs.nodup_iff.2 (List.nodup_cons.2 ⟨fun hmem => ha ?_, hrest⟩)
  exact has.mem_iff.2 (List.mem_append_right gone hmem)

end

/-! ## Records and the globals that they describe -/

namespace DebugInfo

variable {d d' : DebugInfo} {h k : Handle .debugVariable} {g : Handle .global}

/-- The records that the units list, unit by unit. -/
def allListed (d : DebugInfo) : List (Handle .debugVariable) := d.unitHandles.flatMap d.listed

/-- The global that a record describes. -/
def target? (d : DebugInfo) (h : Handle .debugVariable) : Option (Handle .global) :=
  (d.record? h).bind DebugVariable.target

/-- No two of the records describe one global. -/
def Apart (d : DebugInfo) (hs : List (Handle .debugVariable)) : Prop :=
  ∀ h ∈ hs, ∀ k ∈ hs, d.target? h ≠ none → d.target? h = d.target? k → h = k

instance (d : DebugInfo) (hs : List (Handle .debugVariable)) : Decidable (d.Apart hs) :=
  inferInstanceAs (Decidable (∀ h ∈ hs, ∀ k ∈ hs, _ → _ → _))

/-- Every listed record exists and is listed once, and a global is described by one listed record at most. -/
structure WellListed (d : DebugInfo) : Prop where
  known : ∀ h ∈ d.allListed, (d.record? h).isSome
  nodup : d.allListed.Nodup
  apart : d.Apart d.allListed

theorem mem_allListed : h ∈ d.allListed ↔ ∃ u ∈ d.unitHandles, h ∈ d.listed u := List.mem_flatMap

theorem allListed_eq (d : DebugInfo) : d.allListed = d.units.flatMap DebugUnit.globals := by
  have hunits : ∀ us : List DebugUnit, ((List.range us.length).map Handle.mk).flatMap
      (fun u : Handle .debugUnit => (us[u.index]?.map DebugUnit.globals).getD []) = us.flatMap DebugUnit.globals := by
    intro us
    rw [List.flatMap_map]
    induction us with
    | nil => rfl
    | cons u us ih =>
      rw [List.length_cons, List.range_succ_eq_map, List.flatMap_cons, List.flatMap_map, List.flatMap_cons]
      exact congrArg _ ih
  exact hunits d.units

/-- A change of the list of one unit, which is not empty, changes the lists of all units there. -/
theorem allListed_relist {u : Handle .debugUnit} (hu : d.listed u ≠ [])
    (f : List (Handle .debugVariable) → List (Handle .debugVariable)) :
    ∃ pre post, d.allListed = pre ++ d.listed u ++ post ∧
      (d.relist u f).allListed = pre ++ f (d.listed u) ++ post := by
  cases hx : d.units[u.index]? with
  | none => simp [listed, hx] at hu
  | some x =>
    obtain ⟨hlt, hx'⟩ := List.getElem?_eq_some_iff.1 hx
    have hsplit : d.units = d.units.take u.index ++ x :: d.units.drop (u.index + 1) := by
      rw [← hx', ← List.drop_eq_getElem_cons hlt, List.take_append_drop]
    have hlisted : d.listed u = x.globals := by simp [listed, hx]
    refine ⟨(d.units.take u.index).flatMap DebugUnit.globals,
      (d.units.drop (u.index + 1)).flatMap DebugUnit.globals, ?_, ?_⟩
    · rw [allListed_eq, congrArg (List.flatMap DebugUnit.globals) hsplit, hlisted, List.flatMap_append,
        List.flatMap_cons, List.append_assoc]
    · rw [allListed_eq, relist, List.modify_eq_take_cons_drop hlt, hlisted, hx', List.flatMap_append,
        List.flatMap_cons, List.append_assoc]

theorem unitHandles_relist (d : DebugInfo) (u : Handle .debugUnit)
    (f : List (Handle .debugVariable) → List (Handle .debugVariable)) :
    (d.relist u f).unitHandles = d.unitHandles := by
  simp [unitHandles, relist]

/-- Entering a record leaves the others as they are. -/
theorem record?_addVariable (d : DebugInfo) (v : DebugVariable) (k : Handle .debugVariable) :
    (d.addVariable v).2.record? k = if k = (d.addVariable v).1 then some v else d.record? k := by
  obtain ⟨i⟩ := k
  simp only [record?, addVariable, Handle.mk.injEq]
  rcases Nat.lt_trichotomy i d.records.length with hlt | rfl | hgt
  · rw [List.getElem?_append_left hlt, if_neg (Nat.ne_of_lt hlt)]
  · simp
  · rw [List.getElem?_eq_none (by simp; omega), List.getElem?_eq_none (Nat.le_of_lt hgt), if_neg (Nat.ne_of_gt hgt)]

end DebugInfo

/-! ## The index -/

namespace DebugIndex

variable {d d' : DebugInfo} {x y : DebugIndex} {h k r : Handle .debugVariable} {g g' : Handle .global}

/-- The index holds the records that the units list, each once, and finds one for a global at most. -/
structure InStep (x : DebugIndex) (d : DebugInfo) : Prop where
  units : x.units = d.unitHandles
  nodup : x.records.Nodup
  perm  : x.records.Perm d.allListed
  known : ∀ h ∈ x.records, (d.record? h).isSome
  apart : d.Apart x.records

/-- A record has no position in a list that it is not in. -/
theorem findIdx?_eq_none_iff {hs : List (Handle .debugVariable)} :
    hs.findIdx? (fun k => decide (k = h)) = none ↔ h ∉ hs := by
  rw [List.findIdx?_eq_none_iff]
  simp only [decide_eq_false_iff_not]
  exact ⟨fun hall hmem => hall h hmem rfl, fun hh k hk hkh => hh (hkh ▸ hk)⟩

/-- A record that is not in the index is added at its end. -/
theorem add_of_not_mem (hh : h ∉ x.records) : x.add h = { x with records := x.records ++ [h] } := if_neg hh

theorem foldl_add {hs : List (Handle .debugVariable)} (hn : hs.Nodup) (hnew : ∀ h ∈ hs, h ∉ x.records) :
    hs.foldl add x = { x with records := x.records ++ hs } := by
  induction hs generalizing x with
  | nil => simp
  | cons h hs ih =>
    obtain ⟨hh, hn⟩ := List.nodup_cons.1 hn
    obtain ⟨hx, hnew⟩ := List.forall_mem_cons.1 hnew
    rw [List.foldl_cons, add_of_not_mem hx, ih hn]
    · simp
    · intro k hk hmem
      rcases List.mem_append.1 hmem with hmem | hmem
      · exact hnew k hk hmem
      · exact hh (List.mem_singleton.1 hmem ▸ hk)

/-- An index that is built anew is in step. -/
theorem inStep_build (hd : d.WellListed) : (build d).InStep d := by
  have hbuild : build d = ⟨d.unitHandles, d.allListed⟩ := by
    have hall := foldl_add (x := ⟨d.unitHandles, []⟩) hd.nodup (by simp)
    exact hall
  rw [hbuild]
  exact ⟨rfl, hd.nodup, .refl _, hd.known, hd.apart⟩

theorem find?_eq (x : DebugIndex) (d : DebugInfo) (g : Handle .global) :
    x.find? d g = x.records.find? fun h => decide (d.target? h = some g) := by
  refine congrArg (x.records.find? ·) (funext fun h => ?_)
  cases hv : d.record? h <;> simp [DebugInfo.target?, hv]

/-- The record that is found for a global is the one that describes it. -/
theorem find?_eq_some_iff (hapart : d.Apart x.records) :
    x.find? d g = some h ↔ h ∈ x.records ∧ d.target? h = some g := by
  rw [find?_eq]
  constructor
  · intro hf
    exact ⟨List.mem_of_find?_eq_some hf, by simpa using List.find?_some hf⟩
  · rintro ⟨hmem, htarget⟩
    cases hf : x.records.find? fun h => decide (d.target? h = some g) with
    | none => simpa [htarget] using List.find?_eq_none.1 hf h hmem
    | some k =>
      have hk : d.target? k = some g := by simpa using List.find?_some hf
      rw [hapart k (List.mem_of_find?_eq_some hf) h hmem (by simp [hk]) (hk.trans htarget.symm)]

theorem find?_eq_none_iff : x.find? d g = none ↔ ∀ h ∈ x.records, d.target? h ≠ some g := by
  rw [find?_eq]
  simp

/-- A record that the units list has its place in one of them. -/
theorem InStep.slot?_eq (hx : x.InStep d) (hh : h ∈ x.records) :
    ∃ u pos, x.slot? d h = some (u, pos) ∧ (d.listed u)[pos]? = some h := by
  have hsome : (x.slot? d h).isSome := by
    obtain ⟨u, hu, hmem⟩ := DebugInfo.mem_allListed.1 (hx.perm.mem_iff.1 hh)
    rw [slot?, List.findSome?_isSome_iff]
    refine ⟨u, hx.units ▸ hu, ?_⟩
    rw [Option.isSome_map, List.findIdx?_isSome, List.any_eq_true]
    exact ⟨h, hmem, by simp⟩
  obtain ⟨⟨u, pos⟩, hslot⟩ := Option.isSome_iff_exists.1 hsome
  refine ⟨u, pos, hslot, ?_⟩
  obtain ⟨v, -, hv⟩ := List.exists_of_findSome?_eq_some hslot
  obtain ⟨n, hn, heq⟩ := Option.map_eq_some_iff.1 hv
  cases heq
  obtain ⟨hlt, hfound, -⟩ := List.findIdx?_eq_some_iff_getElem.1 hn
  rw [List.getElem?_eq_getElem hlt, of_decide_eq_true hfound]

theorem InStep.locate_eq (hx : x.InStep d) (hr : x.find? d g = some r) :
    ∃ v u pos, x.locate d g = .ok (r, v, u, pos) ∧ (d.listed u)[pos]? = some r := by
  obtain ⟨hmem, -⟩ := (find?_eq_some_iff hx.apart).1 hr
  obtain ⟨v, hv⟩ := Option.isSome_iff_exists.1 (hx.known r hmem)
  obtain ⟨u, pos, hslot, hpos⟩ := hx.slot?_eq hmem
  exact ⟨v, u, pos, by simp only [locate, hr, hv, hslot], hpos⟩

theorem locate_of_none (hg : x.find? d g = none) : x.locate d g = .error (.missingDebugInfo g) := by
  rw [locate, hg]

/-! ### One record for another -/

/-- A new record `h`, which describes `g`, stands in the place of those that are gone, in the list of a unit
and in the index. -/
structure Moved (d : DebugInfo) (x : DebugIndex) (gone : List (Handle .debugVariable))
    (h : Handle .debugVariable) (g : Handle .global) (d' : DebugInfo) (y : DebugIndex) : Prop where
  units   : y.units = x.units
  handles : d'.unitHandles = d.unitHandles
  listed  : Renewed gone h d.allListed d'.allListed
  indexed : Renewed gone h x.records y.records
  fresh   : d.record? h = none
  target  : d'.target? h = some g
  kept    : ∀ k, k ≠ h → d'.record? k = d.record? k

namespace Moved

variable {gone : List (Handle .debugVariable)} (hm : Moved d x gone h g d' y) (hx : x.InStep d)

include hm hx

theorem not_mem : h ∉ x.records := by
  intro hmem
  have hknown := hx.known h hmem
  rw [hm.fresh] at hknown
  cases hknown

/-- The records that were there describe what they did. -/
theorem target?_eq (hk : k ∈ x.records) : d'.target? k = d.target? k := by
  have hne : k ≠ h := fun heq => hm.not_mem hx (heq ▸ hk)
  rw [DebugInfo.target?, DebugInfo.target?, hm.kept k hne]

theorem mem_iff : k ∈ y.records ↔ k = h ∨ k ∈ x.records ∧ k ∉ gone := hm.indexed.mem_iff hx.nodup

/-- If nothing described the global before, index and units stay in step. -/
theorem inStep (hfree : ∀ k ∈ x.records, d.target? k ≠ some g) : y.InStep d' where
  units := hm.units.trans (hx.units.trans hm.handles.symm)
  nodup := hm.indexed.nodup hx.nodup (hm.not_mem hx)
  perm  := hm.indexed.perm_of_perm hm.listed hx.perm
  known k hk := by
    rcases (hm.mem_iff hx).1 hk with rfl | ⟨hk, -⟩
    · obtain ⟨v, hv, -⟩ := Option.bind_eq_some_iff.1 hm.target
      exact Option.isSome_of_eq_some hv
    · rw [hm.kept k fun heq => hm.not_mem hx (heq ▸ hk)]
      exact hx.known k hk
  apart a ha b hb hsome heq := by
    rcases (hm.mem_iff hx).1 ha with rfl | ⟨ha, -⟩ <;> rcases (hm.mem_iff hx).1 hb with rfl | ⟨hb, -⟩
    · rfl
    · rw [hm.target?_eq hx hb, hm.target] at heq
      exact absurd heq.symm (hfree b hb)
    · rw [hm.target?_eq hx ha, hm.target] at heq
      exact absurd heq (hfree a ha)
    · rw [hm.target?_eq hx ha] at hsome heq
      rw [hm.target?_eq hx hb] at heq
      exact hx.apart a ha b hb hsome heq

variable (hfree : ∀ k ∈ x.records, d.target? k ≠ some g)

include hfree

theorem find?_target : y.find? d' g = some h :=
  (find?_eq_some_iff (hm.inStep hx hfree).apart).2 ⟨(hm.mem_iff hx).2 (.inl rfl), hm.target⟩

/-- The records of other globals are found as before, unless they are gone. -/
theorem find?_other (hg : g' ≠ g) (hgone : ∀ k ∈ gone, d.target? k ≠ some g') :
    y.find? d' g' = x.find? d g' := by
  refine Option.ext fun k => ?_
  rw [find?_eq_some_iff (hm.inStep hx hfree).apart, find?_eq_some_iff hx.apart, hm.mem_iff hx]
  constructor
  · rintro ⟨rfl | ⟨hk, -⟩, htarget⟩
    · exact absurd (Option.some.inj (hm.target.symm.trans htarget)).symm hg
    · exact ⟨hk, (hm.target?_eq hx hk).symm.trans htarget⟩
  · rintro ⟨hk, htarget⟩
    exact ⟨.inr ⟨hk, fun hmem => hgone k hmem htarget⟩, (hm.target?_eq hx hk).trans htarget⟩

/-- A record that is gone is not found any more. -/
theorem find?_gone (hr : x.find? d g' = some r) (hgone : r ∈ gone) : y.find? d' g' = none := by
  obtain ⟨hmem, htarget⟩ := (find?_eq_some_iff hx.apart).1 hr
  have hg : g' ≠ g := by
    rintro rfl
    exact hfree r hmem htarget
  rw [find?_eq_none_iff]
  intro k hk hk'
  rcases (hm.mem_iff hx).1 hk with rfl | ⟨hk, hno⟩
  · exact hg (Option.some.inj (hk'.symm.trans hm.target))
  · rw [hm.target?_eq hx hk] at hk'
    have hkr := hx.apart k hk r hmem (by simp [hk']) (hk'.trans htarget.symm)
    exact hno (hkr ▸ hgone)

end Moved

/-- A record is entered and put into the list of a unit; the index follows. -/
theorem moved_of_relist (d d₁ : DebugInfo) (hunits : d₁.units = d.units) (hrecords : d₁.records = d.records)
    {v : DebugVariable} (hv : v.target = some g) {u : Handle .debugUnit} {pos : Nat}
    (hpos : (d.listed u)[pos]? = some r) {gone : List (Handle .debugVariable)}
    (f : List (Handle .debugVariable) → List (Handle .debugVariable))
    (hf : Renewed gone (d₁.addVariable v).1 (d.listed u) (f (d.listed u))) (hy : y.units = x.units)
    (hindexed : Renewed gone (d₁.addVariable v).1 x.records y.records) :
    Moved d x gone (d₁.addVariable v).1 g ((d₁.addVariable v).2.relist u f) y where
  units   := hy
  handles := by
    rw [DebugInfo.unitHandles_relist]
    show (List.range d₁.units.length).map Handle.mk = _
    rw [hunits]
    rfl
  listed  := by
    have hlisted : (d₁.addVariable v).2.listed u = d.listed u := by
      show (d₁.units[u.index]?.map DebugUnit.globals).getD [] = _
      rw [hunits]
      rfl
    have hall : (d₁.addVariable v).2.allListed = d.allListed := by
      rw [DebugInfo.allListed_eq, DebugInfo.allListed_eq, ← hunits]
      rfl
    have hne : (d₁.addVariable v).2.listed u ≠ [] := by
      rw [hlisted]
      exact List.ne_nil_of_mem (List.mem_of_getElem? hpos)
    -- Only the list of this unit changes, somewhere within the lists of all of them.
    obtain ⟨pre, post, hbefore, hafter⟩ := DebugInfo.allListed_relist hne f
    rw [hafter, ← hall, hbefore, hlisted]
    exact hf.within pre post
  indexed := hindexed
  fresh   := by
    show d.records[d₁.records.length]? = none
    rw [hrecords, List.getElem?_eq_none (Nat.le_refl _)]
  target  := by
    show ((d₁.addVariable v).2.record? (d₁.addVariable v).1).bind DebugVariable.target = _
    rw [DebugInfo.record?_addVariable, if_pos rfl]
    exact hv
  kept k hk := by
    show (d₁.addVariable v).2.record? k = _
    rw [DebugInfo.record?_addVariable, if_neg hk, DebugInfo.record?, hrecords]
    rfl

/-- A record of the index is replaced where it is. -/
theorem renewed_replace (hr : r ∈ x.records) (h : Handle .debugVariable) :
    (x.replace r h).units = x.units ∧ Renewed [r] h x.records (x.replace r h).records := by
  have hsome : (x.records.findIdx? fun k => decide (k = r)).isSome := by
    rw [List.findIdx?_isSome, List.any_eq_true]
    exact ⟨r, hr, by simp⟩
  obtain ⟨n, hn⟩ := Option.isSome_iff_exists.1 hsome
  obtain ⟨hlt, hfound, -⟩ := List.findIdx?_eq_some_iff_getElem.1 hn
  rw [replace, hn]
  exact ⟨rfl, renewed_set (by rw [List.getElem?_eq_getElem hlt, of_decide_eq_true hfound]) h⟩

end DebugIndex

/-! ## Moves -/

namespace DebugAct

variable {p : Program} {x : DebugIndex} {g : Handle .global}

theorem looks_locate (g : Handle .global) : Along (· = ·) (locate g) := by
  intro s
  simp only [locate]
  split <;> rfl

theorem looks_globalName (g : Handle .global) : Along (· = ·) (globalName g) := by
  intro s
  simp only [globalName]
  split <;> rfl

theorem looks_requireGlobal (g : Handle .global) : Along (· = ·) (requireGlobal g) := by
  intro s
  simp only [requireGlobal]
  split <;> rfl

theorem neverFails_enter {α : Type} (f : DebugInfo → α × DebugInfo) : NeverFails (enter f) := fun _ => ⟨_, _, rfl⟩

end DebugAct

namespace Program

open DebugAct

variable {p : Program} {x : DebugIndex} {r : Handle .debugVariable} {v : DebugVariable} {u : Handle .debugUnit}
  {pos : Nat}

/-- Nothing is edited before the last check of a move, and nothing fails after it. -/
theorem atomic_splitDebugInfo (whole piece : Handle .global) (place : Placement) (suffix : String) :
    Atomic (splitDebugInfo whole piece place suffix) := by
  refine .bind (looks_locate whole) fun found => .bind (looks_globalName piece) fun name => .bind .get fun s => ?_
  refine (NeverFails.bind (neverFails_enter _) fun type => .bind (neverFails_enter _) fun h => ?_).atomic
  exact .bind (.modify _) fun _ => .bind (.modify _) fun _ => .pure h

theorem atomic_replaceDebugInfo (old new : Handle .global) : Atomic (replaceDebugInfo old new) := by
  refine .bind (looks_locate old) fun found => .bind (looks_requireGlobal new) fun _ => ?_
  refine (NeverFails.bind (neverFails_enter _) fun h => ?_).atomic
  exact .bind (.modify _) fun _ => .bind (.modify _) fun _ => .pure h

/-- Of the program at most the debug information has changed. -/
def Redescribed (s t : Program × DebugIndex) : Prop := ∃ debug, t.1 = { s.1 with debug }

instance : Std.Refl Redescribed := ⟨fun s => ⟨s.1.debug, rfl⟩⟩

instance : IsTrans (Program × DebugIndex) Redescribed := by
  refine ⟨?_⟩
  rintro ⟨p, x⟩ ⟨q, y⟩ ⟨r, z⟩ ⟨debug, rfl⟩ ⟨debug', rfl⟩
  exact ⟨debug', rfl⟩

theorem redescribed_enter {α : Type} (f : DebugInfo → α × DebugInfo) : Along Redescribed (enter f) := fun _ => ⟨_, rfl⟩

theorem redescribed_relist (u : Handle .debugUnit) (f : List (Handle .debugVariable) → List (Handle .debugVariable)) :
    Along Redescribed (relist u f) := fun _ => ⟨_, rfl⟩

theorem redescribed_reindex (f : DebugIndex → DebugIndex) : Along Redescribed (reindex f) := fun s => ⟨s.1.debug, rfl⟩

theorem redescribed_splitDebugInfo (whole piece : Handle .global) (place : Placement) (suffix : String) :
    Along Redescribed (splitDebugInfo whole piece place suffix) :=
  .bind (.of_eq (looks_locate whole)) fun _ => .bind (.of_eq (looks_globalName piece)) fun _ => .bind .get fun _ =>
    .bind (redescribed_enter _) fun _ => .bind (redescribed_enter _) fun h =>
      .bind (redescribed_relist _ _) fun _ => .bind (redescribed_reindex _) fun _ => .pure h

theorem redescribed_replaceDebugInfo (old new : Handle .global) : Along Redescribed (replaceDebugInfo old new) :=
  .bind (.of_eq (looks_locate old)) fun _ => .bind (.of_eq (looks_requireGlobal new)) fun _ =>
    .bind (redescribed_enter _) fun h =>
      .bind (redescribed_relist _ _) fun _ => .bind (redescribed_reindex _) fun _ => .pure h

theorem splitDebugInfo_eq {whole piece : Handle .global} (place : Placement) (suffix : String)
    (hlocate : x.locate p.debug whole = .ok (r, v, u, pos)) {g : Global} (hg : p.global? piece = some g) :
    ∃ (t : DebugType) (w : DebugVariable), w.target = some piece ∧
      splitDebugInfo whole piece place suffix (p, x) =
        let e := (p.debug.addType t).2.addVariable w
        .ok e.1 ({ p with debug := e.2.relist u fun hs => hs.take pos ++ e.1 :: hs.drop pos }, x.add e.1) := by
  have hfound : locate whole (p, x) = .ok (r, v, u, pos) (p, x) := by simp only [locate, hlocate]
  have hname : globalName piece (p, x) = .ok g.name (p, x) := by simp only [globalName, hg]
  refine ⟨_, _, ?_, action_bind_eq_ok.2 ⟨_, _, hfound, action_bind_eq_ok.2 ⟨_, _, hname, rfl⟩⟩⟩
  rfl

theorem replaceDebugInfo_eq {old new : Handle .global} (hlocate : x.locate p.debug old = .ok (r, v, u, pos))
    (hnew : p.hasGlobal new) :
    replaceDebugInfo old new (p, x) =
      let e := p.debug.addVariable { v with target := some new }
      .ok e.1 ({ p with debug := e.2.relist u fun hs => hs.set pos e.1 }, x.replace r e.1) := by
  have hfound : locate old (p, x) = .ok (r, v, u, pos) (p, x) := by simp only [locate, hlocate]
  have hthere : requireGlobal new (p, x) = .ok () (p, x) := if_pos hnew
  exact action_bind_eq_ok.2 ⟨_, _, hfound, action_bind_eq_ok.2 ⟨_, _, hthere, rfl⟩⟩

end Program

/-- A move of debug information: a piece of a global gets a record, or the record of a global goes over to its
replacement. -/
inductive Relocation where
  | split (whole piece : Handle .global) (place : Placement) (suffix : String)
  | replace (old new : Handle .global)
deriving DecidableEq, Repr

namespace Relocation

/-- The global whose record is looked for. -/
def source : Relocation → Handle .global
  | .split whole _ _ _ => whole
  | .replace old _ => old

/-- The global that gets a record. -/
def target : Relocation → Handle .global
  | .split _ piece _ _ => piece
  | .replace _ new => new

def replaces : Relocation → Bool
  | .split _ _ _ _ => false
  | .replace _ _ => true

def run : Relocation → DebugAct (Handle .debugVariable)
  | .split whole piece place suffix => Program.splitDebugInfo whole piece place suffix
  | .replace old new => Program.replaceDebugInfo old new

/-- The program and the index that a move leaves. -/
def apply (s : Program × DebugIndex) (m : Relocation) : Program × DebugIndex := after (m.run s)

/-- The global that is to get a record is there, and no indexed record describes it yet. -/
def Fits (m : Relocation) (s : Program × DebugIndex) : Prop :=
  s.1.hasGlobal m.target ∧ ∀ h ∈ s.2.records, s.1.debug.target? h ≠ some m.target

instance (m : Relocation) (s : Program × DebugIndex) : Decidable (m.Fits s) :=
  inferInstanceAs (Decidable (_ ∧ _))

variable {m : Relocation} {p : Program} {x : DebugIndex} {r : Handle .debugVariable}

theorem run_of_none (hr : x.find? p.debug m.source = none) :
    m.run (p, x) = .error (.missingDebugInfo m.source) (p, x) := by
  have hmissing : DebugAct.locate m.source (p, x) = .error (.missingDebugInfo m.source) (p, x) := by
    simp only [DebugAct.locate, DebugIndex.locate_of_none hr]
  cases m with
  | split whole piece place suffix => exact action_bind_eq_error.2 (.inl hmissing)
  | replace old new => exact action_bind_eq_error.2 (.inl hmissing)

/-- A move finds the record and puts the new one before it, or in its place. -/
theorem run_of_some (hx : x.InStep p.debug) (hlive : p.hasGlobal m.target)
    (hr : x.find? p.debug m.source = some r) :
    ∃ h q y, m.run (p, x) = .ok h (q, y) ∧
      DebugIndex.Moved p.debug x (if m.replaces then [r] else []) h m.target q.debug y := by
  obtain ⟨v, u, pos, hlocate, hpos⟩ := hx.locate_eq hr
  have hmem : r ∈ x.records := ((DebugIndex.find?_eq_some_iff hx.apart).1 hr).1
  -- The index knows only records that are there, and the new one is not yet.
  have hfresh : ⟨p.debug.records.length⟩ ∉ x.records := by
    intro hmem
    have hknown := hx.known _ hmem
    rw [DebugInfo.record?, List.getElem?_eq_none (Nat.le_refl _)] at hknown
    cases hknown
  cases m with
  | split whole piece place suffix =>
    obtain ⟨g, hg⟩ := Option.isSome_iff_exists.1 hlive
    replace hg : p.global? piece = some g := hg
    replace hlocate : x.locate p.debug whole = .ok (r, v, u, pos) := hlocate
    obtain ⟨t, w, hw, hrun⟩ := Program.splitDebugInfo_eq place suffix hlocate hg
    have hadd := DebugIndex.add_of_not_mem hfresh
    refine ⟨_, _, _, hrun, ?_⟩
    refine DebugIndex.moved_of_relist p.debug (p.debug.addType t).2 rfl rfl hw hpos
      (fun hs => hs.take pos ++ _ :: hs.drop pos) (renewed_insert _ _ pos) ?_ ?_
    · show (x.add ⟨p.debug.records.length⟩).units = x.units
      rw [hadd]
    · show Renewed [] ⟨p.debug.records.length⟩ x.records (x.add ⟨p.debug.records.length⟩).records
      rw [hadd]
      exact renewed_concat _ _
  | replace old new =>
    obtain ⟨hunits, hindexed⟩ := DebugIndex.renewed_replace hmem ⟨p.debug.records.length⟩
    refine ⟨_, _, _, Program.replaceDebugInfo_eq hlocate hlive, ?_⟩
    exact DebugIndex.moved_of_relist p.debug p.debug rfl rfl rfl hpos (fun hs => hs.set pos _) (renewed_set hpos _)
      hunits hindexed

end Relocation

/-! ## Runs of moves -/

/-- `t` is reached from `s` by moves that fit, between which anything but debug information may change in the
program. -/
inductive Relocated (s : Program × DebugIndex) : Program × DebugIndex → Prop where
  | refl : Relocated s s
  | move {t : Program × DebugIndex} (ht : Relocated s t) {m : Relocation} (hm : m.Fits t) :
      Relocated s (m.apply t)
  | edit {t : Program × DebugIndex} (ht : Relocated s t) {p : Program} (hp : p.debug = t.1.debug) :
      Relocated s (p, t.2)

namespace Relocation

variable {m : Relocation} {s t : Program × DebugIndex}

/-- A move that fits keeps index and units in step. -/
theorem inStep_apply (hs : s.2.InStep s.1.debug) (hm : m.Fits s) : (m.apply s).2.InStep (m.apply s).1.debug := by
  obtain ⟨p, x⟩ := s
  unfold apply
  cases hr : x.find? p.debug m.source with
  | none =>
    rw [run_of_none hr]
    exact hs
  | some r =>
    obtain ⟨h, q, y, hrun, hmoved⟩ := run_of_some hs hm.1 hr
    rw [hrun]
    exact hmoved.inStep hs hm.2

end Relocation

/-- So does a run of moves. -/
theorem Relocated.inStep {s t : Program × DebugIndex} (h : Relocated s t) (hs : s.2.InStep s.1.debug) :
    t.2.InStep t.1.debug := by
  induction h with
  | refl => exact hs
  | move _ hm ih => exact Relocation.inStep_apply ih hm
  | edit _ hp ih => exact hp ▸ ih

/-- Whatever moves follow one another, the index holds just what the units list, each record once, and one for
a global at most. The next move that fits is never refused because a record is in no unit; if it succeeds, its
record is found for the global that it was made for, a global that was replaced has none any more, and for all
others what was found is still found. -/
theorem relocated_inStep {p q : Program} {x : DebugIndex} (hp : p.debug.WellListed)
    (hrun : Relocated (p, .build p.debug) (q, x)) :
    x.records.Nodup ∧ x.records.Perm q.debug.allListed ∧ q.debug.Apart x.records ∧
      ∀ m : Relocation, m.Fits (q, x) →
        (∀ g t, m.run (q, x) ≠ .error (.detachedDebugInfo g) t) ∧
        (x.find? q.debug m.source = none → m.run (q, x) = .error (.missingDebugInfo m.source) (q, x)) ∧
        (x.find? q.debug m.source ≠ none → ∃ h t, m.run (q, x) = .ok h t) ∧
        ∀ h q' y, m.run (q, x) = .ok h (q', y) →
          q.debug.record? h = none ∧ y.find? q'.debug m.target = some h ∧
          (m.replaces → y.find? q'.debug m.source = none) ∧
          ∀ g, g ≠ m.target → (m.replaces → g ≠ m.source) → y.find? q'.debug g = x.find? q.debug g := by
  have hx : x.InStep q.debug := hrun.inStep (DebugIndex.inStep_build hp)
  refine ⟨hx.nodup, hx.perm, hx.apart, fun m hm => ?_⟩
  cases hr : x.find? q.debug m.source with
  | none =>
    have herror := Relocation.run_of_none hr
    refine ⟨?_, fun _ => herror, fun hsome => absurd rfl hsome, ?_⟩ <;> simp [herror]
  | some r =>
    obtain ⟨h, q', y, hok, hmoved⟩ := Relocation.run_of_some hx hm.1 hr
    refine ⟨by simp [hok], by simp, fun _ => ⟨_, _, hok⟩, ?_⟩
    intro h' q'' y' hok'
    cases hok.symm.trans hok'
    refine ⟨hmoved.fresh, hmoved.find?_target hx hm.2, fun hreplaces => ?_, fun g hg hsource => ?_⟩
    · exact hmoved.find?_gone hx hm.2 hr (by simp [hreplaces])
    · refine hmoved.find?_other hx hm.2 hg fun k hk hk' => ?_
      -- Only the record that is replaced is gone, and it describes the global replaced.
      obtain ⟨-, htarget⟩ := (DebugIndex.find?_eq_some_iff hx.apart).1 hr
      cases hreplaces : m.replaces with
      | false => simp [hreplaces] at hk
      | true =>
        rw [hreplaces, if_pos rfl, List.mem_singleton] at hk
        subst hk
        exact hsource hreplaces (Option.some.inj (hk'.symm.trans htarget))

/-- A program with five globals, the first of which is described by the only record. -/
def Program.described : Program :=
  let g (name : String) : Global := ⟨name, ⟨0⟩, .default, .internal, false, none⟩
  { Program.empty "described" with
    globals := .ofList [g "whole", g "half", g "quarter", g "new half", g "new whole"]
    debug :=
      { types   := [⟨.composite, "S", "a.hlsl", 3, 64, 32, 0, none, none⟩]
        records := [⟨"whole", "whole", "a.hlsl", 7, ⟨0⟩, false, true, some ⟨0⟩⟩]
        units   := [⟨"a.hlsl", "dxc", [⟨0⟩]⟩] } }

/-- A half is split off, a quarter is split off that half, and the half is replaced; then the whole is
replaced. -/
theorem relocated_inStep_described :
    let moves : List Relocation :=
      [.split ⟨0⟩ ⟨1⟩ ⟨32, 32, 32⟩ ".y", .split ⟨1⟩ ⟨2⟩ ⟨16, 16, 0⟩ ".lo", .replace ⟨1⟩ ⟨3⟩]
    let t := moves.foldl Relocation.apply (Program.described, .build Program.described.debug)
    let next : Relocation := .replace ⟨0⟩ ⟨4⟩
    t.1.debug.allListed = [⟨2⟩, ⟨3⟩, ⟨0⟩] ∧ t.2.records = [⟨0⟩, ⟨3⟩, ⟨2⟩] ∧ t.2.records.Perm t.1.debug.allListed ∧
      ∃ h q y, next.run t = .ok h (q, y) ∧ y.find? q.debug ⟨4⟩ = some h ∧ y.find? q.debug ⟨0⟩ = none ∧
        y.find? q.debug ⟨3⟩ = t.2.find? t.1.debug ⟨3⟩ := by
  intro moves t next
  have hrun : Relocated (Program.described, .build Program.described.debug) t :=
    .move (.move (.move .refl (m := .split ⟨0⟩ ⟨1⟩ ⟨32, 32, 32⟩ ".y") (by decide))
      (m := .split ⟨1⟩ ⟨2⟩ ⟨16, 16, 0⟩ ".lo") (by decide)) (m := .replace ⟨1⟩ ⟨3⟩) (by decide)
  obtain ⟨-, hperm, -, hnext⟩ :=
    relocated_inStep (p := Program.described) ⟨by decide, by decide, by decide⟩ hrun
  obtain ⟨-, -, hok, hmoved⟩ := hnext next (by decide)
  obtain ⟨h, ⟨q, y⟩, hok⟩ := hok (by decide)
  obtain ⟨-, hfound, hgone, hother⟩ := hmoved h q y hok
  exact ⟨by decide, by decide, hperm, h, q, y, hok, hfound, hgone rfl,
    hother ⟨3⟩ (by decide) (fun _ => by decide)⟩

end ShaderModule

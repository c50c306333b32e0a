import ShaderModule.Proofs.Program.Along
import ShaderModule.Proofs.Program.DebugRelocation
import ShaderModule.Shader.Module

/-!
# A global split into many pieces: `create_element_global_variable_debug_info`

Each piece of a global gets a record just before the record of the whole. The whole goes on being found, one
position further on, so the records of the pieces come to stand in the order in which they were split off.
-/

namespace ShaderModule

/-- A piece of a global: the global that it becomes, where it lies in the whole and how it is named there. -/
structure Piece where
  global : Handle .global
  place  : Placement
  suffix : String
deriving DecidableEq, Repr

namespace Piece

/-- The type of a piece of a global whose record is `v` and has the type `t`. -/
def memberType (e : Piece) (v : DebugVariable) (t : DebugType) : DebugType where
  tag    := .member
  name   := t.name ++ e.suffix
  file   := t.file
  line   := t.line
  size   := e.place.size
  align  := e.place.align
  offset := e.place.offset
  scope  := t.scope
  base   := some v.type

/-- The record of a piece which as a global is called `name`. -/
def record (e : Piece) (v : DebugVariable) (name : String) (type : Handle .debugType) : DebugVariable where
  name         := v.name ++ e.suffix
  linkageName  := name
  file         := v.file
  line         := v.line
  type         := type
  isLocal      := false
  isDefinition := true
  target       := some e.global

end Piece

/-! ## Lists of units -/

namespace DebugInfo

variable {d : DebugInfo} {u u' : Handle .debugUnit}

/-- Only the list that is there matters. -/
theorem relist_congr {f f' : List (Handle .debugVariable) → List (Handle .debugVariable)}
    (hf : f (d.listed u) = f' (d.listed u)) : d.relist u f = d.relist u f' := by
  have hunits : d.units.modify u.index (fun x => { x with globals := f x.globals }) =
      d.units.modify u.index fun x => { x with globals := f' x.globals } := by
    refine List.ext_getElem? fun i => ?_
    rw [List.getElem?_modify, List.getElem?_modify]
    by_cases hi : u.index = i
    · subst hi
      cases hx : d.units[u.index]? with
      | none => rfl
      | some x =>
        have hlisted : d.listed u = x.globals := by simp [listed, hx]
        rw [hlisted] at hf
        simp [hf]
    · simp [hi]
  rw [relist, relist, hunits]

theorem listed_relist_of_ne (h : u' ≠ u) (f : List (Handle .debugVariable) → List (Handle .debugVariable)) :
    (d.relist u f).listed u' = d.listed u' := by
  have hindex : u.index ≠ u'.index := fun heq => h (Handle.ext_iff.2 heq.symm)
  rw [listed, relist, List.getElem?_modify_ne _ _ hindex]
  rfl

theorem listed_relist_self (h : d.listed u ≠ [])
    (f : List (Handle .debugVariable) → List (Handle .debugVariable)) :
    (d.relist u f).listed u = f (d.listed u) := by
  cases hx : d.units[u.index]? with
  | none => simp [listed, hx] at h
  | some x => simp [listed, relist, hx]

end DebugInfo

/-! ## The record of the whole -/

namespace DebugIndex

variable {x : DebugIndex} {d d' : DebugInfo} {g : Handle .global} {w h k : Handle .debugVariable}
  {u : Handle .debugUnit} {pos : Nat} {before after : List (Handle .debugVariable)}

/-- A record stands where nothing before it is the same. -/
theorem findIdx?_eq_some_iff {hs : List (Handle .debugVariable)} :
    hs.findIdx? (fun k => decide (k = w)) = some pos ↔
      ∃ before after, hs = before ++ w :: after ∧ w ∉ before ∧ before.length = pos := by
  constructor
  · intro hpos
    obtain ⟨hlt, hw, hbefore⟩ := List.findIdx?_eq_some_iff_getElem.1 hpos
    have hw : hs[pos] = w := of_decide_eq_true hw
    refine ⟨hs.take pos, hs.drop (pos + 1), ?_, fun hmem => ?_, List.length_take_of_le (Nat.le_of_lt hlt)⟩
    · rw [← hw, ← List.drop_eq_getElem_cons hlt, List.take_append_drop]
    · obtain ⟨j, hj, hjw⟩ := List.getElem_of_mem hmem
      rw [List.length_take] at hj
      rw [List.getElem_take] at hjw
      exact hbefore j (by omega) (decide_eq_true hjw)
  · rintro ⟨before, after, rfl, hw, rfl⟩
    rw [List.findIdx?_append, findIdx?_eq_none_iff.2 hw, List.findIdx?_cons, decide_eq_true rfl]
    simp

theorem slot?_eq_some_iff :
    x.slot? d w = some (u, pos) ↔
      ∃ us us', x.units = us ++ u :: us' ∧ (∀ u' ∈ us, w ∉ d.listed u') ∧
        ∃ before after, d.listed u = before ++ w :: after ∧ w ∉ before ∧ before.length = pos := by
  have hnone (u' : Handle .debugUnit) :
      ((d.listed u').findIdx? fun k => decide (k = w)).map (fun n => (u', n)) = none ↔ w ∉ d.listed u' := by
    rw [Option.map_eq_none_iff, findIdx?_eq_none_iff]
  rw [slot?, List.findSome?_eq_some_iff]
  constructor
  · rintro ⟨us, u', us', hunits, hslot, hfirst⟩
    obtain ⟨n, hn, heq⟩ := Option.map_eq_some_iff.1 hslot
    obtain ⟨rfl, rfl⟩ := Prod.mk.inj heq
    exact ⟨us, us', hunits, fun v hv => (hnone v).1 (hfirst v hv), findIdx?_eq_some_iff.1 hn⟩
  · rintro ⟨us, us', hunits, hfirst, hlisted⟩
    refine ⟨us, u, us', hunits, ?_, fun v hv => (hnone v).2 (hfirst v hv)⟩
    rw [findIdx?_eq_some_iff.2 hlisted]
    rfl

/-- The record found for a global is found as well when others follow it. -/
theorem find?_append (hfound : x.find? d g = some w) (hkept : ∀ k ∈ x.records, d'.record? k = d.record? k)
    (hs : List (Handle .debugVariable)) :
    DebugIndex.find? { x with records := x.records ++ hs } d' g = some w := by
  have hw : w ∈ x.records := List.mem_of_find?_eq_some hfound
  obtain ⟨hdescribes, ks, ks', hks, hfirst⟩ := List.find?_eq_some_iff_append.1 hfound
  refine List.find?_eq_some_iff_append.2 ⟨?_, ks, ks' ++ hs, ?_, fun k hk => ?_⟩
  · rw [hkept w hw]
    exact hdescribes
  · rw [hks, List.append_assoc, List.cons_append]
  · rw [hkept k (hks ▸ List.mem_append_left _ hk)]
    exact hfirst k hk

/-- `w` is the record found for the global `g`, a record `v` of type `t`, and stands after `before` in `u`, the
first unit that lists it. -/
structure Whole (x : DebugIndex) (d : DebugInfo) (g : Handle .global) (w : Handle .debugVariable)
    (v : DebugVariable) (t : DebugType) (u : Handle .debugUnit)
    (before after : List (Handle .debugVariable)) : Prop where
  known  : ∀ k ∈ x.records, (d.record? k).isSome
  found  : x.find? d g = some w
  record : d.record? w = some v
  type   : d.types[v.type.index]? = some t
  units  : ∃ us us', x.units = us ++ u :: us' ∧ ∀ u' ∈ us, w ∉ d.listed u'
  listed : d.listed u = before ++ w :: after
  first  : w ∉ before

namespace Whole

variable {v : DebugVariable} {t : DebugType} (hw : Whole x d g w v t u before after)

include hw

theorem mem : w ∈ x.records := List.mem_of_find?_eq_some hw.found

theorem lt_length (hk : k ∈ x.records) : k.index < d.records.length :=
  (List.getElem?_eq_some_iff.1 (Option.eq_some_of_isSome (hw.known k hk))).1

/-- The record that is entered next is not indexed yet. -/
theorem next_not_mem : ⟨d.records.length⟩ ∉ x.records := fun hmem => Nat.lt_irrefl _ (hw.lt_length hmem)

theorem locate : x.locate d g = .ok (w, v, u, before.length) := by
  obtain ⟨us, us', hunits, hfirst⟩ := hw.units
  have hslot : x.slot? d w = some (u, before.length) :=
    slot?_eq_some_iff.2 ⟨us, us', hunits, hfirst, before, after, hw.listed, hw.first, rfl⟩
  simp only [DebugIndex.locate, hw.found, hw.record, hslot]

end Whole

end DebugIndex

/-! ## One piece -/

namespace DebugInfo

/-- With a type and a record for a piece; the record stands in the list `hs` of the unit. -/
def withPiece (d : DebugInfo) (e : Piece) (v : DebugVariable) (t : DebugType) (name : String)
    (u : Handle .debugUnit) (hs : List (Handle .debugVariable)) : DebugInfo where
  types   := d.types ++ [e.memberType v t]
  records := d.records ++ [e.record v name ⟨d.types.length⟩]
  units   := (d.relist u fun _ => hs).units

/-- The list that a unit is given last counts. -/
theorem units_relist_withPiece (d : DebugInfo) (e : Piece) (v : DebugVariable) (t : DebugType) (name : String)
    (u : Handle .debugUnit) (hs hs' : List (Handle .debugVariable)) :
    ((d.withPiece e v t name u hs).relist u fun _ => hs').units = (d.relist u fun _ => hs').units := by
  simp only [relist, withPiece, List.modify_modify_eq]
  rfl

end DebugInfo

section

variable {p : Program} {x : DebugIndex} {whole : Handle .global} {w h : Handle .debugVariable}
  {v : DebugVariable} {t : DebugType} {u : Handle .debugUnit} {before after : List (Handle .debugVariable)}

open DebugIndex

theorem Program.splitDebugInfo_whole (hw : Whole x p.debug whole w v t u before after) {e : Piece} {g : Global}
    (hg : p.global? e.global = some g) (hh : h = ⟨p.debug.records.length⟩) :
    Program.splitDebugInfo whole e.global e.place e.suffix (p, x) =
      .ok h ({ p with debug := p.debug.withPiece e v t g.name u (before ++ h :: w :: after) },
        { x with records := x.records ++ [h] }) := by
  subst hh
  have htype : p.debug.type v.type = t := by
    rw [DebugInfo.type, hw.type]
    rfl
  have hunits : (p.debug.relist u fun hs => hs.take before.length ++ ⟨p.debug.records.length⟩ ::
      hs.drop before.length) = p.debug.relist u fun _ => before ++ ⟨p.debug.records.length⟩ :: w :: after :=
    DebugInfo.relist_congr (by rw [hw.listed, List.take_left, List.drop_left])
  have hfound : DebugAct.locate whole (p, x) = .ok (w, v, u, before.length) (p, x) := by
    simp only [DebugAct.locate, hw.locate]
  have hname : DebugAct.globalName e.global (p, x) = .ok g.name (p, x) := by simp only [DebugAct.globalName, hg]
  refine action_bind_eq_ok.2 ⟨_, _, hfound, action_bind_eq_ok.2 ⟨_, _, hname, ?_⟩⟩
  rw [DebugInfo.withPiece, ← hunits, ← add_of_not_mem hw.next_not_mem, ← htype]
  rfl

/-- The whole is found as before, one position further on. -/
theorem DebugIndex.Whole.withPiece {d : DebugInfo} (hw : Whole x d whole w v t u before after) (e : Piece)
    (name : String) (hh : h = ⟨d.records.length⟩) :
    Whole { x with records := x.records ++ [h] } (d.withPiece e v t name u (before ++ h :: w :: after)) whole
      w v t u (before ++ [h]) after := by
  have hkept (k : Handle .debugVariable) (hk : k ∈ x.records) :
      (d.withPiece e v t name u (before ++ h :: w :: after)).record? k = d.record? k :=
    List.getElem?_append_left (hw.lt_length hk)
  have hne : d.listed u ≠ [] := by simp [hw.listed]
  have hlisted : (d.withPiece e v t name u (before ++ h :: w :: after)).listed u = before ++ h :: w :: after :=
    DebugInfo.listed_relist_self hne fun _ => _
  have hother {u' : Handle .debugUnit} (hu : u' ≠ u) :
      (d.withPiece e v t name u (before ++ h :: w :: after)).listed u' = d.listed u' :=
    DebugInfo.listed_relist_of_ne hu fun _ => _
  have hnew : w ≠ h := fun heq => hw.next_not_mem (hh ▸ heq ▸ hw.mem)
  constructor
  case known =>
    intro k hk
    rcases List.mem_append.1 hk with hk | hk
    · rw [hkept k hk]
      exact hw.known k hk
    · rw [List.mem_singleton.1 hk, hh]
      simp [DebugInfo.record?, DebugInfo.withPiece]
  case found => exact find?_append hw.found hkept [h]
  case record => exact (hkept w hw.mem).trans hw.record
  case type => exact (List.getElem?_append_left (List.getElem?_eq_some_iff.1 hw.type).1).trans hw.type
  case units =>
    -- The piece is put beside the whole, so no unit before that one has come to list the whole.
    obtain ⟨us, us', hunits, hfirst⟩ := hw.units
    refine ⟨us, us', hunits, fun u' hu' => ?_⟩
    have hu : u' ≠ u := by
      rintro rfl
      exact hfirst _ hu' (by simp [hw.listed])
    rw [hother hu]
    exact hfirst u' hu'
  case listed => simp [hlisted]
  case first => simpa [hnew] using hw.first

/-! ## All pieces -/

/-- The records `hs` were entered for the pieces `es` one after another, each with a type of its own, and put into
the list of `u` between `before` and `after`; nothing else has changed. -/
structure Program.Split (p : Program) (x : DebugIndex) (v : DebugVariable) (t : DebugType) (u : Handle .debugUnit)
    (before after : List (Handle .debugVariable)) (es : List Piece) (hs : List (Handle .debugVariable))
    (q : Program) (y : DebugIndex) : Prop where
  program : q = { p with debug := q.debug }
  index   : y = { x with records := x.records ++ hs }
  units   : q.debug.units = (p.debug.relist u fun _ => before ++ hs ++ after).units
  types   : q.debug.types = p.debug.types ++ es.map fun e => e.memberType v t
  handles : hs = (List.range' p.debug.records.length es.length).map Handle.mk
  kept    : p.debug.records <+: q.debug.records
  entered : ∀ i (e : Piece), es[i]? = some e → ∃ h g, hs[i]? = some h ∧ p.global? e.global = some g ∧
    q.debug.record? h = some (e.record v g.name ⟨p.debug.types.length + i⟩)

namespace Program.Split

theorem nil (hu : p.debug.listed u = before ++ after) : p.Split x v t u before after [] [] p x where
  program := rfl
  index   := by simp
  units   := by
    have hlist : p.debug.relist u (fun _ => before ++ [] ++ after) = p.debug.relist u id :=
      DebugInfo.relist_congr (by simp [hu])
    rw [hlist]
    exact (List.modify_id _ _).symm
  types   := by simp
  handles := by simp
  kept    := List.prefix_refl _
  entered := by simp

theorem cons {e : Piece} {es : List Piece} {hs : List (Handle .debugVariable)} {g : Global}
    {q q' : Program} {y : DebugIndex} (hh : h = ⟨p.debug.records.length⟩)
    (hg : p.global? e.global = some g)
    (hq : q = { p with debug := p.debug.withPiece e v t g.name u (before ++ h :: after) })
    (htail : q.Split { x with records := x.records ++ [h] } v t u (before ++ [h]) after es hs q' y) :
    p.Split x v t u before after (e :: es) (h :: hs) q' y := by
  subst hq hh
  refine ⟨htail.program, ?_, ?_, ?_, ?_, (List.prefix_append _ _).trans htail.kept, ?_⟩
  · rw [htail.index, List.append_assoc, List.singleton_append]
  · rw [htail.units, DebugInfo.units_relist_withPiece, List.append_assoc before, List.singleton_append]
  · rw [htail.types, DebugInfo.withPiece, List.append_assoc, List.singleton_append, List.map_cons]
  · rw [htail.handles, DebugInfo.withPiece, List.length_append, List.length_singleton, List.length_cons,
      List.range'_succ, List.map_cons]
  · intro i k hk
    cases i with
    | zero =>
      cases hk
      refine ⟨_, g, rfl, hg, ?_⟩
      obtain ⟨rest, hrest⟩ := htail.kept
      rw [DebugInfo.record?, ← hrest]
      simp [DebugInfo.withPiece]
    | succ i =>
      obtain ⟨h', g', hh', hg', hrecord⟩ := htail.entered i k hk
      refine ⟨h', g', hh', hg', hrecord.trans ?_⟩
      simp only [DebugInfo.withPiece, List.length_append, List.length_singleton]
      rw [Nat.add_right_comm, Nat.add_assoc _ i 1]

end Program.Split

end

namespace Shader

variable {s s' : Shader} {x : DebugIndex}

theorem relocate_eq (hx : s.index = some x) (move : DebugAct (Handle .debugVariable)) :
    relocate move s = onDebug x move s := by
  obtain ⟨p, tables, index⟩ := s
  subst hx
  rfl

/-- A move that fails leaves the module as it was, if the index has been built and nothing is edited before the move
is sure to succeed. -/
theorem eq_of_relocate_eq_error (hx : s.index = some x) {move : DebugAct (Handle .debugVariable)} (hmove : Atomic move)
    {cause : ShaderError} (h : relocate move s = .error cause s') : s' = s := by
  rw [relocate_eq hx, onDebug] at h
  cases hr : move (s.program, x) with
  | ok k t =>
    rw [hr] at h
    cases h
  | error cause t =>
    rw [hr, hmove _ _ _ hr] at h
    cases h
    rw [← hx]

theorem mapM_splitDebugInfo {whole : Handle .global} {w : Handle .debugVariable} {v : DebugVariable}
    {t : DebugType} {u : Handle .debugUnit} {before after : List (Handle .debugVariable)} (es : List Piece)
    (hes : ∀ e ∈ es, s.program.hasGlobal e.global) (hx : s.index = some x)
    (hw : x.Whole s.program.debug whole w v t u before after) :
    ∃ hs q y, es.mapM (fun e => splitDebugInfo whole e.global e.place e.suffix) s =
        .ok hs { s with program := q, index := some y } ∧
      s.program.Split x v t u before (w :: after) es hs q y := by
  -- Each piece that is split off is one more record before that of the whole.
  induction es generalizing s x before with
  | nil =>
    refine ⟨[], s.program, x, ?_, .nil hw.listed⟩
    rw [← hx]
    rfl
  | cons e es ih =>
    obtain ⟨he, hes⟩ := List.forall_mem_cons.1 hes
    obtain ⟨g, hg⟩ := Option.isSome_iff_exists.1 he
    obtain ⟨h, hh⟩ : ∃ h : Handle .debugVariable, h = ⟨s.program.debug.records.length⟩ := ⟨_, rfl⟩
    have hfirst := relocate_eq hx (Program.splitDebugInfo whole e.global e.place e.suffix)
    rw [onDebug, Program.splitDebugInfo_whole hw hg hh] at hfirst
    let p := { s.program with debug := s.program.debug.withPiece e v t g.name u (before ++ h :: w :: after) }
    obtain ⟨hs, q, y, hrest, htail⟩ := ih (s := ⟨p, s.tables, some { x with records := x.records ++ [h] }⟩) hes rfl
      (hw.withPiece e g.name hh)
    exact ⟨h :: hs, q, y, action_mapM_cons hfirst hrest, .cons hh hg rfl htail⟩

/-- However many pieces a global is split into, their records come to stand directly before the record of the
whole, in the order of the splits, and at the end of the index. Nothing else is changed, and nothing at all by a
move that fails. -/
theorem splitDebugInfo_pieces (hx : s.index = some x) :
    (∀ whole w v t u pos, (∀ h ∈ x.records, (s.program.debug.record? h).isSome) →
      x.find? s.program.debug whole = some w → x.slot? s.program.debug w = some (u, pos) →
      s.program.debug.record? w = some v → s.program.debug.types[v.type.index]? = some t →
      ∀ es : List Piece, (∀ e ∈ es, s.program.hasGlobal e.global) →
        ∃ hs q y, es.mapM (fun e => splitDebugInfo whole e.global e.place e.suffix) s =
            .ok hs { s with program := q, index := some y } ∧
          s.program.Split x v t u ((s.program.debug.listed u).take pos) ((s.program.debug.listed u).drop pos)
            es hs q y) ∧
      ∀ whole piece place suffix cause s', splitDebugInfo whole piece place suffix s = .error cause s' ∨
        replaceDebugInfo whole piece s = .error cause s' → s' = s := by
  refine ⟨fun whole w v t u pos hknown hfound hslot hv ht es hes => ?_, ?_⟩
  · obtain ⟨us, us', hunits, hfirst, before, after, hlisted, hbefore, rfl⟩ := DebugIndex.slot?_eq_some_iff.1 hslot
    rw [hlisted, List.take_left, List.drop_left]
    exact mapM_splitDebugInfo es hes hx ⟨hknown, hfound, hv, ht, ⟨us, us', hunits, hfirst⟩, hlisted, hbefore⟩
  · rintro whole piece place suffix cause s' (h | h)
    · exact eq_of_relocate_eq_error hx (Program.atomic_splitDebugInfo whole piece place suffix) h
    · exact eq_of_relocate_eq_error hx (Program.atomic_replaceDebugInfo whole piece) h

/-- A second unit lists the record of the whole too, and in the first one a record stands before it. -/
def describedTwice : Shader :=
  let d := Program.described.debug
  let p : Program :=
    { Program.described with
      debug := { d with
        records := d.records ++ [⟨"other", "other", "a.hlsl", 5, ⟨0⟩, false, true, some ⟨4⟩⟩]
        units   := [⟨"a.hlsl", "dxc", [⟨1⟩, ⟨0⟩]⟩, ⟨"b.hlsl", "dxc", [⟨0⟩]⟩] } }
  { ofProgram p with index := some (.build p.debug) }

/-- Two pieces go between the other record and the whole in the first unit. -/
theorem splitDebugInfo_pieces_describedTwice :
    let es : List Piece := [⟨⟨1⟩, ⟨32, 32, 0⟩, ".x"⟩, ⟨⟨2⟩, ⟨32, 32, 32⟩, ".y"⟩]
    ∃ hs q y, es.mapM (fun e => splitDebugInfo ⟨0⟩ e.global e.place e.suffix) describedTwice =
        .ok hs { describedTwice with program := q, index := some y } ∧
      hs = [⟨2⟩, ⟨3⟩] ∧ q.debug.units.map DebugUnit.globals = [[⟨1⟩, ⟨2⟩, ⟨3⟩, ⟨0⟩], [⟨0⟩]] ∧
      y.records = [⟨1⟩, ⟨0⟩, ⟨2⟩, ⟨3⟩] := by
  intro es
  obtain ⟨hs, q, y, hrun, hsplit⟩ := (splitDebugInfo_pieces (s := describedTwice) rfl).1 ⟨0⟩ ⟨0⟩ _ _ ⟨0⟩ 1
    (by decide) (by decide) (by decide) rfl rfl es (by decide)
  have hhs : hs = [⟨2⟩, ⟨3⟩] := hsplit.handles
  refine ⟨hs, q, y, hrun, hhs, ?_, ?_⟩
  · rw [hsplit.units, hhs]
    decide
  · rw [hsplit.index, hhs]
    decide

end Shader

end ShaderModule

import ShaderModule.Proofs.Shader.Lists

/-!
# Refused removals: `remove_global` / `remove_function`

A global or a function that is removed goes out of the side-tables first and is erased from the program then.
If the program does not have it any more, the removal is refused, and the tables have forgotten it all the same.
Such a refusal changes nothing only if there was nothing to forget.
-/

namespace ShaderModule

namespace Ordered

variable {κ α : Type} {m : Ordered κ α} {k : κ} {f : α → α}

theorem mapValues_eq_self_iff : m.mapValues f = m ↔ ∀ e ∈ m.entries, f e.2 = e.2 := by
  obtain ⟨es⟩ := m
  have hmap : es.map (fun e => (e.1, f e.2)) = es ↔ ∀ e ∈ es, (e.1, f e.2) = e := by
    simpa using List.map_inj_left (l := es) (f := fun e => (e.1, f e.2)) (g := id)
  rw [mapValues, mk.injEq, hmap]
  exact forall₂_congr fun e _ => by simp [Prod.ext_iff]

variable [DecidableEq κ]

theorem erase_eq_self_iff : m.erase k = m ↔ k ∉ m.keys := by
  obtain ⟨es⟩ := m
  rw [erase, mk.injEq, List.filter_eq_self]
  simp only [keys, List.mem_map, decide_eq_true_eq, not_exists, not_and]

/-- Whatever is done to the other values, an entry that is erased is missing. -/
theorem mapValues_erase_eq_self_iff :
    (m.erase k).mapValues f = m ↔ k ∉ m.keys ∧ ∀ e ∈ m.entries, f e.2 = e.2 := by
  constructor
  · intro h
    have hkeys : (m.erase k).keys = m.keys := by
      have := congrArg keys h
      simpa [keys, mapValues, Function.comp_def] using this
    have hk : k ∉ m.keys := by
      rw [← hkeys]
      simp [keys, erase]
    rw [erase_eq_self_iff.2 hk] at h
    exact ⟨hk, mapValues_eq_self_iff.1 h⟩
  · rintro ⟨hk, hf⟩
    rw [erase_eq_self_iff.2 hk, mapValues_eq_self_iff.2 hf]

end Ordered

/-! ## What is forgotten -/

namespace StageProps

variable {x : StageProps} {g : Handle .global} {f : Handle .function}

theorem forgetGlobal_eq_self_iff : x.forgetGlobal g = x ↔ g ∉ x.globals := by
  cases x with
  | vertex props =>
    obtain ⟨planes⟩ := props
    have hmap : planes.map (fun plane => if plane = some g then none else plane) = planes ↔
        ∀ plane ∈ planes, (if plane = some g then none else plane) = plane := by
      rw [← planes.map_id, Vector.map_map, Vector.map_inj_left, planes.map_id]
      rfl
    have hplane : ∀ plane : Option (Handle .global),
        (if plane = some g then none else plane) = plane ↔ plane ≠ some g := by
      rintro (_ | h) <;> simp
    have hmem : g ∈ planes.toList.filterMap id ↔ some g ∈ planes := by simp
    rw [forgetGlobal, vertex.injEq, VertexProps.mk.injEq, hmap, globals, hmem]
    simp only [hplane]
    exact ⟨fun h hg => h _ hg rfl, fun h plane hp heq => h (heq ▸ hp)⟩
  | _ => simp [forgetGlobal, globals]

theorem forgetFunction_eq_self_iff : x.forgetFunction f = x ↔ f ∉ x.functions := by
  cases x with
  | hull props =>
    obtain ⟨patchConstant⟩ := props
    cases patchConstant <;> simp [forgetFunction, functions, eq_comm]
  | _ => simp [forgetFunction, functions]

end StageProps

namespace Bound

variable {π : Type} {gs : List (Handle .global)} {xs : List (Bound π)}

theorem renumber_eq_self_iff : renumber xs = xs ↔ ∀ i x, xs[i]? = some x → x.id = UInt32.ofNat i := by
  rw [List.ext_getElem?_iff]
  refine forall_congr' fun i => ?_
  rw [getElem?_renumber]
  cases hx : xs[i]? with
  | none => simp
  | some x =>
    have hid : { x with id := UInt32.ofNat i } = x ↔ x.id = UInt32.ofNat i := by
      obtain ⟨⟨⟩, _⟩ := x
      simp [eq_comm]
    simp [hid]

/-- Records stay as they are if none is dropped and their ids are their positions. -/
theorem unbind_eq_self_iff :
    unbind gs xs = xs ↔ (∀ x ∈ xs, x.global ∉ gs) ∧ ∀ i x, xs[i]? = some x → x.id = UInt32.ofNat i := by
  have hfilter : xs.filter (fun x => x.global ∉ gs) = xs ↔ ∀ x ∈ xs, x.global ∉ gs := by simp
  constructor
  · intro h
    have hlength : (xs.filter fun x => x.global ∉ gs).length = xs.length := by
      rw [← length_renumber]
      exact congrArg List.length h
    have hkept := List.filter_sublist.eq_of_length hlength
    rw [unbind, hkept] at h
    exact ⟨hfilter.1 hkept, renumber_eq_self_iff.1 h⟩
  · rintro ⟨hkept, hids⟩
    rw [unbind, hfilter.2 hkept, renumber_eq_self_iff.2 hids]

end Bound

namespace Registry

variable {r : Registry} {gs : List (Handle .global)}

/-- The id of every record is its position, as far as positions are told apart by ids. -/
def Positioned (r : Registry) : Prop :=
  ∀ {π : Type} (k : Listing π) (i : Nat) (x : Bound π), (r.list k)[i]? = some x → x.id = UInt32.ofNat i

theorem forall_mem_globals_iff {P : Handle .global → Prop} :
    (∀ g ∈ r.globals, P g) ↔ ∀ {π : Type} (k : Listing π), ∀ x ∈ r.list k, P x.global := by
  constructor
  · intro h π k x hx
    exact h _ (mem_globals_of_list (List.mem_map_of_mem hx))
  · intro h g hg
    rw [mem_globals] at hg
    simp only [List.mem_map] at hg
    rcases hg with ⟨x, hx, rfl⟩ | ⟨x, hx, rfl⟩ | ⟨x, hx, rfl⟩ | ⟨x, hx, rfl⟩
    · exact h .cbuffers x hx
    · exact h .samplers x hx
    · exact h .srvs x hx
    · exact h .uavs x hx

theorem unbind_eq_self_iff : r.unbind gs = r ↔ (∀ g ∈ r.globals, g ∉ gs) ∧ r.Positioned := by
  have hlists : r.unbind gs = r ↔ ∀ {π : Type} (k : Listing π), Bound.unbind gs (r.list k) = r.list k := by
    constructor
    · intro h π k
      rw [← list_unbind, h]
    · intro h
      exact eq_of_list fun k => (list_unbind r gs k).trans (h k)
  rw [hlists, forall_mem_globals_iff]
  constructor
  · intro h
    exact ⟨fun k => (Bound.unbind_eq_self_iff.1 (h k)).1, fun k => (Bound.unbind_eq_self_iff.1 (h k)).2⟩
  · rintro ⟨hkept, hids⟩ π k
    exact Bound.unbind_eq_self_iff.2 ⟨hkept k, hids k⟩

end Registry

namespace Tables

variable {t : Tables} {e : Entity}

/-- The tables as a removal leaves them. -/
def forget (t : Tables) : Entity → Tables
  | .global g => (t.unbind [g]).forgetGlobal g
  | .function f => t.forgetFunction f

/-- Forgetting a global renumbers the records as well. -/
theorem forget_global_eq_self_iff {g : Handle .global} :
    t.forget (.global g) = t ↔ .global g ∉ t.mentions ∧ t.resources.Positioned := by
  have hfields : t.forget (.global g) = t ↔ t.resources.unbind [g] = t.resources ∧
      t.props.mapValues (StageProps.forgetGlobal g) = t.props ∧ t.used.filter (· ≠ g) = t.used ∧
        t.shared.filter (· ≠ g) = t.shared := by
    obtain ⟨⟩ := t
    simp only [forget, unbind, forgetGlobal, mk.injEq]
    tauto
  have hlist : ∀ gs : List (Handle .global), gs.filter (· ≠ g) = gs ↔ g ∉ gs := by
    intro gs
    rw [List.filter_eq_self]
    simp only [decide_eq_true_eq]
    exact ⟨fun h hg => h g hg rfl, fun h x hx heq => h (heq ▸ hx)⟩
  have hbound : (∀ h ∈ t.resources.globals, h ∉ [g]) ↔ g ∉ t.resources.globals := by
    constructor
    · exact fun h hg => h g hg List.mem_cons_self
    · rintro h x hx heq
      exact h (List.mem_singleton.1 heq ▸ hx)
  rw [hfields, Registry.unbind_eq_self_iff, hbound, Ordered.mapValues_eq_self_iff, hlist, hlist,
    mem_mentions_global]
  simp only [StageProps.forgetGlobal_eq_self_iff, not_or, not_exists, not_and]
  tauto

theorem forget_function_eq_self_iff {f : Handle .function} :
    t.forget (.function f) = t ↔ .function f ∉ t.mentions := by
  have hfields : t.forget (.function f) = t ↔ t.entry ≠ some f ∧
      (t.props.erase f).mapValues (StageProps.forgetFunction f) = t.props ∧
        t.types.functions.erase f = t.types.functions := by
    obtain ⟨_, _, entry, _, _, _, _, _, _, types⟩ := t
    obtain ⟨⟩ := types
    have hentry : (if entry = some f then none else entry) = entry ↔ entry ≠ some f := by
      cases entry <;> simp [eq_comm]
    simp only [forget, forgetFunction, TypeSystem.forgetFunction, mk.injEq, TypeSystem.mk.injEq, hentry]
    tauto
  have hkeys : f ∉ Ordered.keys t.props ↔ ∀ x ∈ t.props.entries, f ≠ x.1 := by
    simp only [Ordered.keys, List.mem_map, not_exists, not_and]
    exact forall₂_congr fun x _ => ne_comm
  rw [hfields, Ordered.mapValues_erase_eq_self_iff, Ordered.erase_eq_self_iff, mem_mentions_function, hkeys]
  simp only [StageProps.forgetFunction_eq_self_iff, not_or, not_exists, not_and]
  constructor
  · rintro ⟨hentry, ⟨hkey, hprops⟩, hinfo⟩
    exact ⟨hentry, fun x hx => ⟨hkey x hx, hprops x hx⟩, hinfo⟩
  · rintro ⟨hentry, hprops, hinfo⟩
    exact ⟨hentry, ⟨fun x hx => (hprops x hx).1, fun x hx => (hprops x hx).2⟩, hinfo⟩

/-- Tables stay as they are if there is nothing to forget and, for a global, nothing to renumber. -/
theorem forget_eq_self_iff :
    t.forget e = t ↔ e ∉ t.mentions ∧ ∀ g, e = .global g → t.resources.Positioned := by
  cases e with
  | global g => simp [forget_global_eq_self_iff]
  | function f => simp [forget_function_eq_self_iff]

end Tables

namespace Shader

/-- Takes an entity out of every side-table and erases it from the program. -/
def remove : Entity → Act Unit
  | .global g => removeGlobal g
  | .function f => removeFunction f

/-- Why an entity cannot be removed that the program does not have. -/
def missing : Entity → ShaderError
  | .global g => .program (.unknownGlobal g)
  | .function f => .program (.unknownFunction f)

variable {s : Shader} {e : Entity} {α : Type}

theorem discard_host (a : Edit ProgramError α) (s : Shader) : discard (host a) s =
    match a s.program with
    | .ok _ p => .ok () { s with program := p }
    | .error cause p => .error (.program cause) { s with program := p } := by
  show (host a >>= fun _ => pure ()) s = _
  simp only [bind, EStateM.bind, host, onProgram, Program.lift, EStateM.adaptExcept]
  cases a s.program <;> rfl

/-- What is in the program is removed. -/
theorem remove_of_has (h : s.program.has e) : ∃ p, remove e s = .ok () { s with
    tables := s.tables.forget e, program := p } := by
  cases e with
  | global g =>
    obtain ⟨x, hx⟩ := Option.isSome_iff_exists.1 h
    refine ⟨{ s.program with globals := s.program.globals.erase g }, ?_⟩
    refine (discard_host (Program.eraseGlobal g) { s with tables := s.tables.forget (.global g) }).trans ?_
    simp only [Program.eraseGlobal, hx]
  | function f =>
    obtain ⟨x, hx⟩ := Option.isSome_iff_exists.1 h
    refine ⟨{ s.program with
      functions := s.program.functions.erase f, insts := x.body.foldl Slots.erase s.program.insts }, ?_⟩
    refine (discard_host (Program.eraseFunction f) { s with tables := s.tables.forget (.function f) }).trans ?_
    simp only [Program.eraseFunction, hx]

/-- What is not in the program is forgotten at least. -/
theorem remove_of_not_has (h : ¬ s.program.has e) :
    remove e s = .error (missing e) { s with tables := s.tables.forget e } := by
  cases e with
  | global g =>
    have hnone : s.program.global? g = none := Option.not_isSome_iff_eq_none.1 h
    refine (discard_host (Program.eraseGlobal g) { s with tables := s.tables.forget (.global g) }).trans ?_
    simp only [Program.eraseGlobal, hnone, missing]
  | function f =>
    have hnone : s.program.function? f = none := Option.not_isSome_iff_eq_none.1 h
    refine (discard_host (Program.eraseFunction f) { s with tables := s.tables.forget (.function f) }).trans ?_
    simp only [Program.eraseFunction, hnone, missing]

/-- A removal is refused if the program does not have the entity, and it is for this reason only. The program and
the debug index are as before then, and the tables have forgotten the entity. So refusals in a module leave it as it
was if and only if there are none, or the tables do not mention the entity and, for a global, ids are positions. -/
theorem refusal_unchanged_iff (s : Shader) (e : Entity) :
    (∀ cause s', remove e s = .error cause s' ↔
      ¬ s.program.has e ∧ cause = missing e ∧ s' = { s with tables := s.tables.forget e }) ∧
    ((∀ cause s', remove e s = .error cause s' → s' = s) ↔
      s.program.has e ∨ e ∉ s.tables.mentions ∧ ∀ g, e = .global g → s.tables.resources.Positioned) := by
  have hrefused : ∀ cause s', remove e s = .error cause s' ↔
      ¬ s.program.has e ∧ cause = missing e ∧ s' = { s with tables := s.tables.forget e } := by
    intro cause s'
    by_cases h : s.program.has e
    · obtain ⟨p, hrun⟩ := remove_of_has h
      simp [hrun, h]
    · rw [remove_of_not_has h, EStateM.Result.error.injEq, eq_comm, @eq_comm _ _ s']
      simp [h]
  refine ⟨hrefused, ?_⟩
  have hunchanged : { s with tables := s.tables.forget e } = s ↔ s.tables.forget e = s.tables := by
    obtain ⟨⟩ := s
    simp
  rw [← Tables.forget_eq_self_iff, ← hunchanged]
  simp only [hrefused]
  constructor
  · intro h
    by_cases hhas : s.program.has e
    · exact .inl hhas
    · exact .inr (h _ _ ⟨hhas, rfl, rfl⟩)
  · rintro (hhas | hsame) cause s' ⟨hnot, -, rfl⟩
    · exact absurd hhas hnot
    · exact hsame

/-- A module whose constant buffer and entry function are gone from the program, erased behind its back. -/
def bereft : Shader :=
  ([.program (.type .void), .program (.type (.float 32)), .program (.type (.function ⟨0⟩ [])),
    .program (.addGlobal ⟨"constants", ⟨1⟩, .default, .external, false, none⟩),
    .program (.addFunction "main" ⟨2⟩), .addResource .cbuffers ⟨⟨0, ⟨0⟩, "constants", 0, 0, 1⟩, ⟨4⟩⟩,
    .setUsed [⟨0⟩], .setEntry (some ⟨0⟩), .program (.eraseGlobal ⟨0⟩), .program (.eraseFunction ⟨0⟩)] :
    List ShaderOp).foldl ShaderOp.apply (.ofProgram (.empty "bereft"))

/-- Removing them is refused, but the record, the place among the used globals and the entry are lost. -/
theorem remove_bereft :
    bereft.Reachable ∧ bereft.tables.resources.cbuffers.length = 1 ∧ bereft.tables.used = [⟨0⟩] ∧
      bereft.tables.entry = some ⟨0⟩ ∧
      (∃ s', removeGlobal ⟨0⟩ bereft = .error (.program (.unknownGlobal ⟨0⟩)) s' ∧ s' ≠ bereft ∧
        s'.tables.resources.cbuffers = [] ∧ s'.tables.used = []) ∧
      ∃ s', removeFunction ⟨0⟩ bereft = .error (.program (.unknownFunction ⟨0⟩)) s' ∧ s' ≠ bereft ∧
        s'.tables.entry = none := by
  refine ⟨⟨_, _, rfl⟩, by decide, by decide, by decide, ?_, ?_⟩
  · exact ⟨_, remove_of_not_has (e := .global ⟨0⟩) (by decide), by decide, by decide, by decide⟩
  · exact ⟨_, remove_of_not_has (e := .function ⟨0⟩) (by decide), by decide, by decide⟩

end Shader

end ShaderModule

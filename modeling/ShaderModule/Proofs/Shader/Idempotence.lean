import ShaderModule.Proofs.Shader.Capacity
import ShaderModule.Proofs.Shader.Steps

/-!
# Writing again

Once side-tables were written into a program, writing them again changes nothing: all contents have their
handles already, and every entry holds what it should. The same goes for the tables that are read from the
program, since what reading them changes is not written.
-/

namespace ShaderModule

/-- A registry in normal form has its ids already. -/
theorem Registry.renumber_normal (r : Registry) : r.normal.renumber = r.normal := by
  have hmap : ∀ {π : Type} (f : π → π) (xs : List (Bound π)),
      Bound.renumber ((Bound.renumber xs).map fun x => { x with payload := f x.payload }) =
        (Bound.renumber xs).map fun x => { x with payload := f x.payload } := by
    intro π f xs
    refine List.ext_getElem (by simp) fun i hi hi' => ?_
    simp [Bound.renumber]
  have hid : ∀ {π : Type} (xs : List (Bound π)), Bound.renumber (Bound.renumber xs) = Bound.renumber xs := by
    intro π xs
    simpa using hmap id xs
  simp only [normal, renumber, hid, hmap]

namespace Tables

variable {t : Tables} {p q : Program}

/-! ## Entries that are there already -/

theorem setGroup_of_named? (hp : p.named.Sorted) {g : Group × List (Handle .node)}
    (hg : p.named? g.1.name = if g.2.isEmpty then none else some g.2) : setGroup p g = p := by
  unfold setGroup
  split
  · next hnil =>
    rw [if_pos hnil] at hg
    rw [Program.removeNamed, Ordered.erase_of_find? hg]
  · next hcons =>
    rw [if_neg hcons] at hg
    rw [Program.setNamed, Ordered.insert_of_find? hp hg]

/-- Entering groups whose entries hold their nodes already changes nothing. -/
theorem foldl_setGroup_of_named? (hp : p.named.Sorted) {gs : List (Group × List (Handle .node))}
    (hgs : ∀ g ∈ gs, p.named? g.1.name = if g.2.isEmpty then none else some g.2) : gs.foldl setGroup p = p := by
  induction gs with
  | nil => rfl
  | cons g gs ih =>
    rw [List.foldl_cons, setGroup_of_named? hp (hgs g List.mem_cons_self)]
    exact ih fun g' hg' => hgs g' (List.mem_cons_of_mem _ hg')

/-- Tables that were written into a program are written into it again without a change. -/
theorem emit_again (hu : q.Uniqued) (hq : q.named.Sorted) (h : t.emit p = .ok () q) : t.emit q = .ok () q := by
  obtain ⟨nodes, hentered⟩ := entered_of_emit h
  obtain ⟨hnone, -⟩ := emit_eq_ok.1 h
  have hbuild : t.build q = ((t.build p).1, q) := t.stable_build.again p q hu hentered.grows
  refine emit_eq_ok.2 ⟨?_, ?_⟩
  · rw [dangling?_eq_none] at hnone ⊢
    intro e he
    have hrest := (written_of_emit h).rest
    rw [hrest]
    exact hnone e he
  · rw [hbuild, hentered.build]
    refine foldl_setGroup_of_named? hq ?_
    intro g hg
    obtain ⟨g, -, rfl⟩ := List.mem_map.1 hg
    exact hentered.named g

/-! ## Tables in normal form -/

theorem buildGroup_normal (t : Tables) (p : Program) (g : Group) : (t.normal p).buildGroup g = t.buildGroup g := by
  cases g with
  | resources =>
    show List.singleton <$> Registry.layout.write t.resources.normal.renumber = _
    rw [Registry.renumber_normal, Registry.write_normal]
    rfl
  | _ => rfl

/-- Tables and their normal form are written alike. -/
theorem emit_normal (t : Tables) (p : Program) : (t.normal p).emit = t.emit := by
  have hbuild : (t.normal p).build = t.build := by
    rw [build_eq, build_eq]
    simp only [buildGroup_normal]
  have hreferences : (t.normal p).references = t.references := by
    simp only [references, normal, Registry.globals_normal]
  funext r
  simp only [emit, dangling?, hbuild, hreferences]

end Tables

/-- Writing side-tables is idempotent: after one time the same tables are written without a change to any
part of the program, and so are the tables that are read from it. -/
theorem Shader.emit_idempotent {s : Shader} (hs : s.Reachable)
    (hoptions : Options.reserved s.tables.options.bits = 0) {p q : Program} (hp : p.Reachable)
    (h : s.tables.emit p = .ok () q) :
    s.tables.emit q = .ok () q ∧ ∀ t, Tables.load q = .ok t → t.emit q = .ok () q := by
  have hevolves : p.Evolves (after (s.tables.emit p)) := Tables.evolves_emit s.tables p
  rw [h] at hevolves
  have hagain := Tables.emit_again (hevolves.steps.uniqued hp.uniqued) (hevolves.sorted hp.sorted) h
  refine ⟨hagain, fun t hload => ?_⟩
  have hbounded := Tables.bounded_of_load h hload
  have hwell := hs.orderly.wellFormed hoptions hbounded.resources hbounded.signatures
  rw [Tables.load_of_emit hwell h] at hload
  cases hload
  rwa [Tables.emit_normal]

/-- What is read back from the sample differs from what was written, and is written alike. -/
theorem Shader.emit_idempotent_sample :
    ∃ q t, sample.tables.emit sample.program = .ok () q ∧ sample.tables.emit q = .ok () q ∧
      Tables.load q = .ok t ∧ t ≠ sample.tables ∧ t.emit q = .ok () q := by
  have hs : sample.Reachable := ⟨"sample", sampleOps, rfl⟩
  have hoptions : Options.reserved sample.tables.options.bits = 0 := by decide
  have hwell : sample.tables.WellFormed := by
    refine hs.orderly.wellFormed hoptions ⟨?_, ?_, ?_, ?_⟩ ?_
    · decide
    · decide
    · decide
    · decide
    · rintro (_ | _ | _) <;> decide
  obtain ⟨q, hq⟩ := Tables.exists_emit (by decide : sample.tables.dangling? sample.program = none)
  have hload : Tables.load q = .ok (sample.tables.normal sample.program) := Tables.load_of_emit hwell hq
  obtain ⟨hagain, hloaded⟩ := emit_idempotent hs hoptions ⟨sample, hs, rfl⟩ hq
  exact ⟨q, _, hq, hagain, hload, by decide, hloaded _ hload⟩

end ShaderModule

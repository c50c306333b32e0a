import ShaderModule.Proofs.Program.Trees
import ShaderModule.Proofs.Shader.Steps

/-!
# One handle for each content

In every reachable module the tables of types, constants and metadata nodes hold no content twice, every
content is looked up under its handle, and handles denote their contents for ever. So the handles of types
and nodes, each of which refers to its parts by handle only, are equal just when the whole types or trees
behind them are.
-/

namespace ShaderModule

/-! ## Trees of any sort -/

section Sorts

variable {τ : Type} {kind : Kind} {build : τ → Build (Handle kind)} {stands : Program → τ → Handle kind → Prop}

/-- Trees of a sort are entered in such a way that what comes out stands for the tree, a handle stands for no
other tree, and a tree that is there is found. -/
structure Build.Faithful (build : τ → Build (Handle kind)) (stands : Program → τ → Handle kind → Prop) : Prop where
  growing : ∀ t, Growing (build t)
  entered : ∀ t {p q}, (build t p).2.Extends q → stands q t (build t p).1
  unique  : ∀ {p t u h}, stands p t h → stands p u h → t = u
  again   : ∀ {p}, p.Uniqued → ∀ t {h}, stands p t h → build t p = (h, p)

theorem NodeTree.faithful_build : Build.Faithful NodeTree.build Program.IsNode where
  growing   := growing_build
  entered t := t.isNode_build
  unique    := Program.IsNode.tree_eq
  again hp  := build_eq hp

theorem TypeExpr.faithful_build : Build.Faithful TypeExpr.build Program.IsType where
  growing   := growing_build
  entered t := t.isType_build
  unique    := Program.IsType.tree_eq
  again hp  := build_eq hp

namespace Build.Faithful

variable (hb : Build.Faithful build stands) {p q : Program} {t u : τ} {h k : Handle kind}

include hb

/-- A handle keeps standing for its tree. -/
theorem extend (hp : p.Uniqued) (hext : p.Extends q) (ht : stands p t h) : stands q t h := by
  have hentered := hb.entered t (p := p) (q := q)
  rw [hb.again hp t ht] at hentered
  exact hentered hext

/-- Handles are equal if they stand for equal trees, and only then. -/
theorem eq_iff (hp : p.Uniqued) (ht : stands p t h) (hu : stands p u k) : h = k ↔ t = u := by
  constructor
  · rintro rfl
    exact hb.unique ht hu
  · rintro rfl
    exact congrArg Prod.fst ((hb.again hp t ht).symm.trans (hb.again hp t hu))

end Build.Faithful

end Sorts

/-! ## Runs -/

namespace Shader

variable {s : Shader}

theorem evolves_foldl (ops : List ShaderOp) (s : Shader) :
    s.program.Evolves (ops.foldl ShaderOp.apply s).program := by
  induction ops generalizing s with
  | nil => exact .refl _
  | cons op ops ih => exact (evolves_apply op s).trans (ih _)

/-- Between `s` and what becomes of it, handles of a sort of trees are equal just when the trees are, whether
the trees are entered at these two times or stand there already, and to enter a tree again changes nothing. -/
structure OneHandle {τ : Type} {kind : Kind} (build : τ → Build (Handle kind))
    (stands : Program → τ → Handle kind → Prop) (s : Shader) (later : List ShaderOp) : Prop where
  entered : ∀ t u,
    let r := build t s.program
    let q := (later.foldl ShaderOp.apply { s with program := r.2 }).program
    (r.1 = (build u q).1 ↔ t = u) ∧ build t q = (r.1, q)
  there : ∀ t u h k, stands s.program t h →
    let q := (later.foldl ShaderOp.apply s).program
    stands q u k → (h = k ↔ t = u) ∧ build t q = (h, q)

theorem oneHandle_of_faithful {τ : Type} {kind : Kind} {build : τ → Build (Handle kind)}
    {stands : Program → τ → Handle kind → Prop} (hb : Build.Faithful build stands) (hs : s.program.Uniqued)
    (later : List ShaderOp) : s.OneHandle build stands later where
  entered t u := by
    intro r q
    have hsteps : r.2.Steps q := (evolves_foldl later { s with program := r.2 }).steps
    have hq : q.Uniqued := hsteps.uniqued ((hb.growing t s.program).uniqued hs)
    have ht : stands q t r.1 := hb.entered t hsteps.toExtends
    -- The second tree may enter contents of its own, which leave the first one where it is.
    have hgrow := hb.growing u q
    have hu : stands (build u q).2 u (build u q).1 := hb.entered u (.refl _)
    exact ⟨hb.eq_iff (hgrow.uniqued hq) (hb.extend hq hgrow.toExtends ht) hu, hb.again hq t ht⟩
  there t u h k ht := by
    intro q hu
    have hsteps : s.program.Steps q := (evolves_foldl later s).steps
    have hq : q.Uniqued := hsteps.uniqued hs
    have ht := hb.extend hs hsteps.toExtends ht
    exact ⟨hb.eq_iff hq ht hu, hb.again hq t ht⟩

/-- Whatever operations lead to a module, contents and handles of its types, constants and nodes belong together
one to one, in the tables and in the lookups by content; whatever operations follow, every handle denotes what
it did; and one tree of metadata, and one type expression, has one handle at all times. -/
theorem uniquing_of_run (name : String) (ops later : List ShaderOp) :
    let s := ops.foldl ShaderOp.apply (.ofProgram (.empty name))
    let s' := later.foldl ShaderOp.apply s
    (s.program.types.Exact ∧ s.program.constants.Exact ∧ s.program.nodes.Exact) ∧
      ((∀ h t, s.program.type? h = some t → s'.program.type? h = some t) ∧
        (∀ h c, s.program.constant? h = some c → s'.program.constant? h = some c) ∧
        ∀ h n, s.program.node? h = some n → s'.program.node? h = some n) ∧
      s.OneHandle NodeTree.build Program.IsNode later ∧ s.OneHandle TypeExpr.build Program.IsType later := by
  intro s s'
  have hreach : s.program.Reachable := ⟨s, ⟨name, ops, rfl⟩, rfl⟩
  have hs : s.program.Uniqued := hreach.uniqued
  have hext : s.program.Extends s'.program := (evolves_foldl later s).steps.toExtends
  refine ⟨⟨hs.types, hs.constants, hs.nodes⟩, ⟨?_, ?_, ?_⟩, ?_, ?_⟩
  · exact fun h t => hext.type?
  · exact fun h c => hext.constant?
  · exact fun h n => hext.node?
  · exact oneHandle_of_faithful NodeTree.faithful_build hs later
  · exact oneHandle_of_faithful TypeExpr.faithful_build hs later

end Shader

end ShaderModule

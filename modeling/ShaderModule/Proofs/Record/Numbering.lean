import ShaderModule.Proofs.Record.Shape
import ShaderModule.Proofs.Table.Slots

/-!
# Loading goes by shape

Every group is read from the operands of its entry by a reader that goes by shape, and the version by its
header. So programs with metadata of the same shape are loaded with the same tables, or refused alike,
whatever the numbers of their nodes and constants.
-/

namespace ShaderModule

variable {R : Handle .node → Handle .node → Prop} {p q : Program}

/-! ## Entries of several nodes -/

section Entries

variable {s s' : Source} {hs ks : List (Handle .node)}

theorem TypeSystem.agree_read (h : s.Alike R s') (hks : List.Forall₂ R hs ks) :
    Agree Fault.Alike Eq (read s hs) (read s' ks) := by
  match hks with
  | .nil => exact .error rfl
  | .cons _ .nil => exact .error rfl
  | .cons hstructs (.cons hfunctions .nil) =>
    refine ((Source.goesByShape_readTable StructInfo.goesByShape_layout).agree h (.some hstructs)).bindSame ?_
    intro structs
    refine ((Source.goesByShape_readTable FunctionInfo.goesByShape_layout).agree h (.some hfunctions)).bindSame ?_
    exact fun functions => .ok rfl
  | .cons _ (.cons _ (.cons _ hks)) =>
    simp only [read, List.length_cons, hks.length_eq]
    exact .error rfl

theorem PropsTable.agree_read (h : s.Alike R s') (hks : List.Forall₂ R hs ks) :
    Agree Fault.Alike Eq (read s hs) (read s' ks) := by
  refine .foldlM hks (fun table m n hmn => ?_) _
  exact (StageProps.goesByShape_read.agree h (.some hmn)).bindSame fun _ => .ok rfl

theorem agree_used (h : s.Alike R s') (hks : List.Forall₂ R hs ks) :
    Agree Fault.Alike Eq (hs.mapM fun m => s.global "used global" (some m))
      (ks.mapM fun n => s'.global "used global" (some n)) :=
  .mapM hks fun _ _ hmn => (Source.goesByShape_global _).agree h (.some hmn)

end Entries

/-! ## Groups -/

namespace Program

variable {α : Type}

theorem agree_within {β : Type} {S : α → β → Prop} {x : Except Fault α} {y : Except Fault β} (g : Group)
    (h : Agree Fault.Alike S x y) : Agree ShaderError.Alike S (within g x) (within g y) :=
  h.mapError fun _ _ => .malformed

theorem agree_readOperands (h : p.Alike R q) (g : Group) (absent : α)
    {read read' : List (Handle .node) → Except Fault α}
    (hread : ∀ {hs ks}, List.Forall₂ R hs ks → Agree Fault.Alike Eq (read hs) (read' ks)) :
    Agree ShaderError.Alike Eq (p.readOperands g absent read) (q.readOperands g absent read') := by
  refine agree_within g ?_
  have hentry := h.entries g
  generalize p.named? g.name = hs, q.named? g.name = ks at hentry ⊢
  cases hentry with
  | none => exact .ok rfl
  | some hks => exact hread hks

/-- The entry of a group that is read from one node. -/
theorem agree_readGroup {s s' : Source} (h : s.Alike R s') (g : Group) (absent : α)
    {read : Source → Handle .node → Except Fault α} (hread : GoesByShape some read) :
    Agree ShaderError.Alike Eq (s.program.readGroup g absent (read s)) (s'.program.readGroup g absent (read s')) := by
  rw [Group.readGroup_eq, Group.readGroup_eq]
  refine agree_readOperands h.program g absent fun {hs ks} hks => ?_
  match hks with
  | .nil => exact .error rfl
  | .cons hmn .nil => exact hread.agree h (.some hmn)
  | .cons _ (.cons _ hks) =>
    simp only [List.length_cons, hks.length_eq]
    exact .error rfl

/-! ## The version -/

/-- Both headers declare the same version, with as many operands after it. -/
theorem agree_header (h : p.Alike R q) :
    Agree Fault.Alike (fun x y => x.1 = y.1 ∧ x.2.length = y.2.length) p.header q.header := by
  have hs : Source.Alike R ⟨p, Version.current.minor⟩ ⟨q, Version.current.minor⟩ := ⟨h, rfl⟩
  have hsingle : Agree Fault.Alike (Option.Rel R) (p.single? .version) (q.single? .version) := by
    unfold single?
    have hentry := h.entries .version
    generalize p.named? Group.version.name = hs, q.named? Group.version.name = ks at hentry ⊢
    match hentry with
    | .none => exact .ok .none
    | .some .nil => exact .error rfl
    | .some (.cons hmn .nil) => exact .ok (.some hmn)
    | .some (.cons _ (.cons _ hks)) =>
      simp only [List.length_cons, hks.length_eq]
      exact .error rfl
  refine hsingle.bind fun found found' hfound => ?_
  cases hfound with
  | none => exact .error rfl
  | some hmn =>
    refine (Source.agree_operands hs hmn).bind fun xs ys hxy => ?_
    match hxy with
    | .nil => exact .error rfl
    | .cons _ .nil => exact .error rfl
    | .cons hmajor (.cons hminor hextra) =>
      refine ((Source.goesByShape_word _).agree hs hmajor).bindSame fun major => ?_
      refine ((Source.goesByShape_word _).agree hs hminor).bindSame fun minor => ?_
      exact .ok ⟨rfl, hextra.length_eq⟩

theorem agree_judge (v : Version) (extra : Nat) : Agree ShaderError.Alike Eq (judge v extra) (judge v extra) := by
  unfold judge
  split
  · exact .error (.unsupportedVersion v)
  · split
    · exact .ok rfl
    · exact .error (.malformed rfl)

theorem agree_readVersion (h : p.Alike R q) : Agree ShaderError.Alike Eq p.readVersion q.readVersion := by
  rw [readVersion_eq, readVersion_eq]
  refine (agree_within .version (agree_header h)).bind ?_
  rintro ⟨v, extra⟩ ⟨_, extra'⟩ ⟨rfl, hlength⟩
  simp only [hlength]
  exact agree_judge v extra'.length

end Program

/-! ## Loading -/

namespace Tables

open Program (agree_readVersion agree_readGroup agree_readOperands)

/-- Programs with metadata of the same shape are loaded alike. -/
theorem agree_load (h : p.Alike R q) : Agree ShaderError.Alike Eq (load p) (load q) := by
  refine (agree_readVersion h).bindSame fun v => ?_
  have hs : Source.Alike R ⟨p, v.minor⟩ ⟨q, v.minor⟩ := ⟨h, rfl⟩
  refine (agree_readGroup hs _ _ (Profile.goesByShape_layout.map some)).bindSame fun profile => ?_
  refine (agree_readGroup hs _ _ EntryPoint.goesByShape_layout).bindSame fun entry => ?_
  refine (agree_readGroup hs _ _ Registry.goesByShape_layout).bindSame fun resources => ?_
  refine (agree_readOperands h _ _ (TypeSystem.agree_read hs)).bindSame fun types => ?_
  refine (agree_readOperands h _ _ (PropsTable.agree_read hs)).bindSame fun props => ?_
  refine (agree_readGroup hs _ _ Options.goesByShape_read).bindSame fun options => ?_
  refine (agree_readGroup hs _ _
    (Source.goesByShape_readTable ResourceTypes.goesByShape_layout)).bindSame fun resourceTypes => ?_
  refine (agree_readGroup hs _ _ goesByShape_rootSignatureLayout).bindSame fun rootSignature => ?_
  refine (agree_readOperands h _ _ (agree_used hs)).bindSame fun used => ?_
  rw [h.shared]
  exact .ok rfl

/-- Loading goes by the shape of the metadata. Programs of the same shape are loaded with the same tables, or
both are refused: for the fault of the same group, which differs in numbers of nodes and constants only, or
for the same version. -/
theorem load_alike (h : p.Alike R q) :
    (∃ t, load p = .ok t ∧ load q = .ok t) ∨
    (∃ g f f', load p = .error (.malformed g f) ∧ load q = .error (.malformed g f') ∧
      f.unnumbered = f'.unnumbered) ∨
    ∃ v, load p = .error (.unsupportedVersion v) ∧ load q = .error (.unsupportedVersion v) := by
  have hload := agree_load h
  generalize load p = x, load q = y at hload ⊢
  cases hload with
  | ok ht => exact .inl ⟨_, rfl, congrArg _ ht.symm⟩
  | error he =>
    cases he with
    | malformed hf => exact .inr (.inl ⟨_, _, _, rfl, rfl, hf⟩)
    | unsupportedVersion v => exact .inr (.inr ⟨v, rfl, rfl⟩)

end Tables

/-- A program of the current version with a table of resources, which keeps one global in use. One of its
nodes is a table without resources, and one is a tuple that holds itself. -/
def Program.compact (resources : Handle .node) : Program :=
  { Program.empty "compact" with
    types     := .ofList [.int 32]
    constants := .ofList [.int ⟨0⟩ 1]
    nodes     := .ofList [.value (.constant ⟨0⟩), .value (.global ⟨0⟩), .tuple [some ⟨0⟩, some ⟨0⟩],
      .tuple [none, none, none, none], .tuple [some ⟨4⟩, none, none, none]]
    globals   := .ofList [⟨"view", ⟨0⟩, .default, .external, true, none⟩]
    named     := ⟨[("dx.resources", [resources]), ("dx.used", [⟨1⟩]), ("dx.version", [⟨2⟩])]⟩ }

/-- The same program with other constants and nodes before and after, and its own in another order. -/
def Program.renumbered (resources : Handle .node) : Program :=
  { Program.compact resources with
    constants := .ofList [.int ⟨0⟩ 9, .int ⟨0⟩ 1]
    nodes     := .ofList [.string "spare", .tuple [some ⟨1⟩, none, none, none], .value (.global ⟨0⟩),
      .tuple [some ⟨4⟩, some ⟨4⟩], .value (.constant ⟨1⟩), .tuple [none, none, none, none],
      .value (.constant ⟨0⟩)]
    named     := ⟨[("dx.resources", [resources]), ("dx.used", [⟨2⟩]), ("dx.version", [⟨3⟩])]⟩ }

/-- The nodes of the one that stand for nodes of the other, and two numbers without a node. -/
inductive Program.Renumbering : Handle .node → Handle .node → Prop
  | one : Renumbering ⟨0⟩ ⟨4⟩
  | view : Renumbering ⟨1⟩ ⟨2⟩
  | version : Renumbering ⟨2⟩ ⟨3⟩
  | table : Renumbering ⟨3⟩ ⟨5⟩
  | cycle : Renumbering ⟨4⟩ ⟨1⟩
  | missing : Renumbering ⟨7⟩ ⟨8⟩

/-- Both programs are alike if their tables of resources are related. -/
theorem Program.Renumbering.alike {m n : Handle .node} (h : Renumbering m n) :
    Alike Renumbering (compact m) (renumbered n) where
  hasGlobal _   := rfl
  hasFunction _ := rfl
  shared        := rfl
  nodes _ _ h'  := by
    cases h' with
    | one => exact .some (.value (.constant rfl))
    | view => exact .some (.value (.same (by simp)))
    | version => exact .some (.tuple (.cons (.some .one) (.cons (.some .one) .nil)))
    | table => exact .some (.tuple (.cons .none (.cons .none (.cons .none (.cons .none .nil)))))
    | cycle => exact .some (.tuple (.cons (.some .cycle) (.cons .none (.cons .none (.cons .none .nil)))))
    | missing => exact .none
  entries g := by
    cases g with
    | version => exact .some (.cons .version .nil)
    | used => exact .some (.cons .view .nil)
    | resources => exact .some (.cons h .nil)
    | _ => exact .none

/-- With the empty table both are loaded; with the tuple that holds itself, or with a number without a node,
both are refused. -/
theorem Tables.load_alike_renumbered :
    load (.renumbered ⟨5⟩) = .ok { Tables.empty with used := [⟨0⟩] } ∧
    (∃ f, load (.renumbered ⟨1⟩) = .error (.malformed .resources f) ∧
      f.unnumbered = .fieldCount "resource record" 4 10) ∧
    ∃ f, load (.renumbered ⟨8⟩) = .error (.malformed .resources f) ∧
      f.unnumbered = (Fault.danglingNode ⟨7⟩).unnumbered := by
  have htable : load (.compact ⟨3⟩) = .ok { Tables.empty with used := [⟨0⟩] } := by decide
  have hcycle : load (.compact ⟨4⟩) =
      .error (.malformed .resources (.fieldCount "resource record" 4 10)) := by decide
  have hmissing : load (.compact ⟨7⟩) = .error (.malformed .resources (.danglingNode ⟨7⟩)) := by decide
  refine ⟨?_, ?_, ?_⟩
  · rcases load_alike Program.Renumbering.table.alike with ⟨t, hp, hq⟩ | ⟨g, f, f', hp, -⟩ | ⟨v, hp, -⟩
    · exact hq.trans (hp.symm.trans htable)
    · cases htable.symm.trans hp
    · cases htable.symm.trans hp
  · rcases load_alike Program.Renumbering.cycle.alike with ⟨t, hp, -⟩ | ⟨g, f, f', hp, hq, hf⟩ | ⟨v, hp, -⟩
    · cases hcycle.symm.trans hp
    · cases hcycle.symm.trans hp
      exact ⟨f', hq, hf.symm⟩
    · cases hcycle.symm.trans hp
  · rcases load_alike Program.Renumbering.missing.alike with ⟨t, hp, -⟩ | ⟨g, f, f', hp, hq, hf⟩ | ⟨v, hp, -⟩
    · cases hmissing.symm.trans hp
    · cases hmissing.symm.trans hp
      exact ⟨f', hq, hf.symm⟩
    · cases hmissing.symm.trans hp

end ShaderModule

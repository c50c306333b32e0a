import ShaderModule.Proofs.Shader.Orderly

/-!
# Writing and reading side-tables: `emit_hl_metadata` / `load_hl_metadata`

What a reachable module writes into a program is read back in normal form, whatever the program
carried before. What is read can be written again at once, and reads the same then.
-/

namespace ShaderModule

/-- There is an id for every record of a list and for every element of a signature. -/
structure Tables.Bounded (t : Tables) : Prop where
  resources  : t.resources.Bounded
  signatures : ∀ kind, (t.signatures.get kind).length ≤ UInt32.size

/-- If the side-tables of a reachable module can be written into a program at all, they are read back
from it in normal form. -/
theorem Shader.load_normal {s : Shader} (hs : s.Reachable)
    (hoptions : Options.reserved s.tables.options.bits = 0) (hbounded : s.tables.Bounded)
    {p q : Program} (h : s.tables.emit p = .ok () q) : Tables.load q = .ok (s.tables.normal p) := by
  have hwell : s.tables.WellFormed :=
    hs.orderly.wellFormed hoptions hbounded.resources hbounded.signatures
  exact Tables.load_of_emit hwell h

/-- A compute shader with group-shared memory, views of two classes and an element to put out. -/
def Shader.sampleOps : List ShaderOp :=
  [.program (.type (.float 32)), .program (.type .void), .program (.type (.function ⟨1⟩ [])),
    .program (.addFunction "main" ⟨2⟩),
    .program (.addGlobal ⟨"shared", ⟨0⟩, .groupShared, .internal, false, none⟩),
    .program (.addGlobal ⟨"view", ⟨0⟩, .default, .external, true, none⟩),
    .setEntry (some ⟨0⟩), .setEntryName "main", .setUsed [⟨1⟩],
    .addResource .uavs
      ⟨⟨7, ⟨1⟩, "view", 0, 0, 1⟩, ⟨.srv, .typedBuffer, .f32, 0, 4, true, false, false⟩⟩,
    .addResource .srvs
      ⟨⟨9, ⟨1⟩, "view", 0, 0, 1⟩, ⟨.uav, .typedBuffer, .f32, 0, 0, true, true, false⟩⟩,
    .appendElement .output
      ⟨3, "SV_Target", [0], .target, .f32, .undefined, 1, 4, none, some 0, 0⟩]

def Shader.sample : Shader := Shader.sampleOps.foldl ShaderOp.apply (.ofProgram (.empty "sample"))

/-- Of the sample, the ids, the classes, the fields that a class lacks and the group-shared global
come out otherwise than they were put in. -/
theorem Shader.load_normal_sample :
    ∃ q, sample.tables.emit sample.program = .ok () q ∧
      Tables.load q = .ok (sample.tables.normal sample.program) := by
  have hdangling : sample.tables.dangling? sample.program = none := by decide
  have hemit : ∃ q, sample.tables.emit sample.program = .ok () q := by
    unfold Tables.emit
    rw [hdangling]
    exact ⟨_, rfl⟩
  obtain ⟨q, hq⟩ := hemit
  refine ⟨q, hq, load_normal ⟨"sample", sampleOps, rfl⟩ ?_ ?_ hq⟩
  · decide
  · refine ⟨⟨?_, ?_, ?_, ?_⟩, ?_⟩
    · decide
    · decide
    · decide
    · decide
    · rintro (_ | _ | _) <;> decide

/-- Side-tables that were read from a program can be written into it, and are then read as before. -/
theorem Tables.load_again {p : Program} {t : Tables} (h : load p = .ok t) :
    ∃ q, t.emit p = .ok () q ∧ load q = .ok t := by
  obtain ⟨hwell, hnormal, hlive⟩ := wellFormed_of_load h
  have hemit : ∃ q, t.emit p = .ok () q := by
    unfold emit
    rw [dangling?_eq_none_iff.2 hlive]
    exact ⟨_, rfl⟩
  obtain ⟨q, hq⟩ := hemit
  refine ⟨q, hq, ?_⟩
  rw [load_of_emit hwell hq, hnormal]

/-- A program with metadata of minor version 0, where one node is both a part of the version and the
options word. -/
def Program.older : Program :=
  ([.type (.int 32), .constant (.int ⟨0⟩ 1), .constant (.int ⟨0⟩ 0), .node (.value (.constant ⟨0⟩)),
    .node (.value (.constant ⟨1⟩)), .node (.tuple [some ⟨0⟩, some ⟨1⟩]), .node (.tuple [some ⟨0⟩]),
    .addGlobal ⟨"shared", ⟨0⟩, .groupShared, .internal, false, none⟩,
    .setNamed "dx.version" [⟨2⟩], .setNamed "dx.options" [⟨3⟩]] : List ProgramOp).foldl
      ProgramOp.apply (.empty "older")

theorem Tables.load_again_older :
    ∃ q, Tables.emit { Tables.empty with options := ⟨1⟩, shared := [⟨0⟩] } .older = .ok () q ∧
      load q = .ok { Tables.empty with options := ⟨1⟩, shared := [⟨0⟩] } :=
  load_again (p := .older) (by decide)

end ShaderModule

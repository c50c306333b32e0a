import ShaderModule.Proofs.Record.Loading
import ShaderModule.Proofs.Shader.Capacity

/-!
# Metadata of any kind and of any version

Whatever a program carries under the reserved names, loading it gives tables or rejects the metadata,
and never goes by the end of a record. Metadata of a newer minor version may have more fields than are
known; what is known is read from it as if there were no more. Metadata of minor version 0 lacks the
fields that came in with minor version 1; these are read as their initial values and all others as they
were written.
-/

namespace ShaderModule

/-! ## Any metadata -/

theorem ShaderError.IsFault.rejectsMetadata {e : ShaderError} (h : e.IsFault) : e.rejectsMetadata := by
  obtain ⟨g, f, rfl, -⟩ := h
  rfl

namespace Tables

variable {p : Program}

/-- A program that cannot be loaded is rejected for its metadata. -/
theorem rejectsMetadata_of_load {e : ShaderError} (h : load p = .error e) : e.rejectsMetadata := by
  rcases load_eq_error h with h | ⟨v, extra, -, -, rfl⟩
  · exact h.rejectsMetadata
  · rfl

/-- Loading is safe: no field is looked for beyond the end of a record, the metadata is at worst
rejected, as of an unsupported version just if it declares another major version, and whatever the
tables mention is in the program. -/
theorem load_safe (p : Program) :
    (∀ g what i, load p ≠ .error (.malformed g (.noField what i))) ∧
    (∀ e, load p = .error e → e.rejectsMetadata) ∧
    (∀ v, load p = .error (.unsupportedVersion v) ↔ (∃ extra, p.Declares v extra) ∧ v.major ≠ 1) ∧
    ∀ t, load p = .ok t → ∀ e ∈ t.mentions, p.has e := by
  refine ⟨?_, fun e => rejectsMetadata_of_load, ?_, fun t => has_of_load⟩
  · intro g what i h
    rcases load_eq_error h with ⟨g', f, heq, hf⟩ | ⟨v, extra, -, -, heq⟩
    · cases heq
      exact hf what i rfl
    · cases heq
  · intro v
    constructor
    · intro h
      rcases load_eq_error h with ⟨g, f, heq, -⟩ | ⟨w, extra, hw, hmajor, heq⟩
      · cases heq
      · cases heq
        exact ⟨⟨extra, hw⟩, hmajor⟩
    · rintro ⟨⟨extra, hv⟩, hmajor⟩
      exact load_of_other_major hv hmajor

end Tables

/-- A program with a sampler and an options word in metadata of the current version. -/
def Program.bare : Program :=
  ([.type (.int 32), .constant (.int ⟨0⟩ 1), .constant (.int ⟨0⟩ 0), .constant (.int ⟨0⟩ 9),
    .addGlobal ⟨"view", ⟨0⟩, .default, .external, true, none⟩,
    .node (.value (.constant ⟨0⟩)), .node (.value (.constant ⟨1⟩)), .node (.value (.global ⟨0⟩)),
    .node (.string "view"), .node (.tuple [some ⟨0⟩, some ⟨0⟩]), .node (.tuple [some ⟨1⟩]),
    .node (.tuple [some ⟨1⟩, some ⟨2⟩, some ⟨3⟩, some ⟨1⟩, some ⟨1⟩, some ⟨0⟩, some ⟨1⟩]),
    .node (.tuple [some ⟨6⟩]), .node (.tuple [none, none, none, some ⟨7⟩]),
    .setNamed "dx.version" [⟨4⟩], .setNamed "dx.options" [⟨5⟩], .setNamed "dx.resources" [⟨8⟩]] :
      List ProgramOp).foldl ProgramOp.apply (.empty "bare")

/-- The same program with more operands in its records, of minor version 9. -/
def Program.extended : Program :=
  ([.node (.value (.constant ⟨2⟩)), .node (.tuple [some ⟨0⟩, some ⟨9⟩, none]),
    .node (.tuple [some ⟨1⟩, some ⟨99⟩]),
    .node (.tuple [some ⟨1⟩, some ⟨2⟩, some ⟨3⟩, some ⟨1⟩, some ⟨1⟩, some ⟨0⟩, some ⟨1⟩, none, some ⟨4⟩]),
    .node (.tuple [some ⟨12⟩]), .node (.tuple [none, none, none, some ⟨13⟩, some ⟨99⟩]),
    .setNamed "dx.version" [⟨10⟩], .setNamed "dx.options" [⟨11⟩], .setNamed "dx.resources" [⟨14⟩]] :
      List ProgramOp).foldl ProgramOp.apply .bare

/-- The same program with metadata of another major version, and a group of nodes that are not there. -/
def Program.foreign : Program :=
  ([.node (.tuple [some ⟨9⟩, some ⟨0⟩]), .setNamed "dx.version" [⟨15⟩], .setNamed "dx.resources" [⟨99⟩]] :
    List ProgramOp).foldl ProgramOp.apply .extended

/-- The tables of the program with a sampler. -/
def Tables.bare : Tables :=
  { Tables.empty with
    resources := { Registry.empty with samplers := [⟨⟨0, ⟨0⟩, "view", 0, 0, 1⟩, ⟨.default⟩⟩] } }

theorem Tables.load_safe_bare :
    (load .bare = .ok .bare ∧ ∀ e ∈ Tables.bare.mentions, Program.bare.has e) ∧
    (∃ e, load (Program.bare.setNamed "dx.resources" [⟨99⟩]) = .error e ∧ e.rejectsMetadata) ∧
    load .foreign = .error (.unsupportedVersion ⟨9, 1⟩) := by
  have hbare : load .bare = .ok .bare := by decide
  have hbroken : load (Program.bare.setNamed "dx.resources" [⟨99⟩]) =
      .error (.malformed .resources (.danglingNode ⟨99⟩)) := by decide
  refine ⟨⟨hbare, (load_safe .bare).2.2.2 _ hbare⟩, ⟨_, hbroken, (load_safe _).2.1 _ hbroken⟩, ?_⟩
  refine ((load_safe .foreign).2.2.1 _).2 ⟨⟨[], ⟨15⟩, some ⟨9⟩, some ⟨0⟩, ?_⟩, by decide⟩
  decide

namespace Tables

variable {p : Program}

/-- Metadata of the current version is loaded as before if its records get further operands and its
minor version is raised. -/
theorem load_of_longer {q : Program} {t : Tables} {n : UInt32} {extra extra' : List Operand}
    (h : load p = .ok t) (hp : p.Declares ⟨1, 1⟩ extra) (hn : 2 ≤ n) (hq : q.Declares ⟨1, n⟩ extra')
    (hrecast : p.Recast q fun _ a b => a ≤ b) : load q = .ok t := by
  have hnewer : ¬ n ≤ Version.current.minor := fun hle => absurd (UInt32.le_trans hn hle) (by decide)
  have haccepts : ∀ (k : RecordKind) m, k.arity Version.current.minor ≤ m → k.Accepts n m := by
    intro k m hm
    refine ⟨?_, fun hle => absurd hle hnewer⟩
    rwa [k.arity_of_current_le (UInt32.le_of_lt (UInt32.not_le.1 hnewer))]
  have hpv : p.readVersion = .ok .current := by
    obtain ⟨w, hw, -⟩ := load_eq_ok.1 h
    obtain ⟨extra'', hw', -⟩ := Program.readVersion_eq_ok.1 hw
    obtain ⟨rfl, -⟩ := hp.unique hw'
    exact hw
  have hqv : q.readVersion = .ok ⟨1, n⟩ :=
    Program.readVersion_eq_ok.2 ⟨extra', hq, rfl, haccepts .version _ (Nat.le_add_left 2 _)⟩
  have hzero : n ≠ 0 := by
    rintro rfl
    exact absurd hn (by decide)
  rw [load_of_recast h hpv hqv hrecast haccepts, asOf_of_ne_zero hzero]

/-- What cannot be loaded is rejected. -/
theorem exists_rejection (h : ∀ t, load p ≠ .ok t) : ∃ e, load p = .error e ∧ e.rejectsMetadata := by
  cases hload : load p with
  | error e => exact ⟨e, rfl, rejectsMetadata_of_load hload⟩
  | ok t => exact absurd hload (h t)

/-- Metadata in which a record has fewer operands than its arity is rejected, and so is metadata of a
known version in which one has more. -/
theorem load_of_wrong_length {v : Version} {extra : List Operand} (hv : p.Declares v extra)
    {k : RecordKind} {xs : List Operand} (hx : p.Visits v.minor k xs)
    (hlen : xs.length < k.arity v.minor ∨ v.minor ≤ 1 ∧ k.arity v.minor < xs.length) :
    ∃ e, load p = .error e ∧ e.rejectsMetadata := by
  refine exists_rejection fun t h => ?_
  have hnot : ¬ k.Accepts v.minor xs.length := RecordKind.not_accepts.2 (hlen.imp_right And.symm)
  exact hnot (accepts_of_load h hv hx)

/-- The same of a version without its two words. -/
theorem load_of_short_version {h : Handle .node} {xs : List Operand}
    (hnamed : p.named? Group.version.name = some [h]) (hx : p.tuple? (some h) = some xs)
    (hlen : xs.length < 2) : ∃ e, load p = .error e ∧ e.rejectsMetadata := by
  refine exists_rejection fun t hload => ?_
  obtain ⟨v, hv, -⟩ := load_eq_ok.1 hload
  obtain ⟨extra, ⟨h', major, minor, hnamed', hx', -⟩, -⟩ := Program.readVersion_eq_ok.1 hv
  rw [hnamed] at hnamed'
  cases hnamed'
  rw [hx] at hx'
  cases hx'
  rw [List.length_cons, List.length_cons] at hlen
  omega

/-- The same of a record of properties without its function and its stage. It has no arity, for that is
the one of its stage. -/
theorem load_of_short_header {hs : List (Handle .node)} (hnamed : p.named? Group.functionProps.name = some hs)
    {h : Handle .node} (hmem : h ∈ hs) {xs : List Operand} (hx : p.tuple? (some h) = some xs)
    (hlen : xs.length < 2) : ∃ e, load p = .error e ∧ e.rejectsMetadata := by
  refine exists_rejection fun t hload => ?_
  obtain ⟨stage, hstage⟩ := exists_stage_of_load hload hnamed hmem
  exact absurd (Program.length_of_stage? hstage hx) (Nat.not_le.2 hlen)

/-- The rule of further fields. Operands after those that the current version knows, in any of the
records, do not change what is loaded once the minor version is beyond the known ones. At the known
ones every record that is come to has just the operands of its arity, or the metadata is rejected, and
it is rejected at every version if a record has fewer. -/
theorem load_trailing (p : Program) :
    (∀ (q : Program) (t : Tables) (n : UInt32) (extra extra' : List Operand), load p = .ok t →
      p.Declares ⟨1, 1⟩ extra → 2 ≤ n → q.Declares ⟨1, n⟩ extra' → (p.Recast q fun _ a b => a ≤ b) →
        load q = .ok t) ∧
    (∀ (v : Version) (extra : List Operand) (k : RecordKind) (xs : List Operand), p.Declares v extra →
      p.Visits v.minor k xs →
      (xs.length < k.arity v.minor ∨ v.minor ≤ 1 ∧ k.arity v.minor < xs.length) →
        ∃ e, load p = .error e ∧ e.rejectsMetadata) ∧
    (∀ (h : Handle .node) (xs : List Operand), p.named? Group.version.name = some [h] →
      p.tuple? (some h) = some xs → xs.length < 2 → ∃ e, load p = .error e ∧ e.rejectsMetadata) ∧
    ∀ (hs : List (Handle .node)) (h : Handle .node) (xs : List Operand),
      p.named? Group.functionProps.name = some hs → h ∈ hs → p.tuple? (some h) = some xs →
        xs.length < 2 → ∃ e, load p = .error e ∧ e.rejectsMetadata :=
  ⟨fun _ _ _ _ _ => load_of_longer, fun _ _ _ _ hv hx => load_of_wrong_length hv hx,
    fun _ _ => load_of_short_version, fun _ _ _ hnamed hmem => load_of_short_header hnamed hmem⟩

theorem load_trailing_extended :
    load .extended = .ok .bare ∧
    (∃ e, load (Program.extended.setNamed "dx.version" [⟨4⟩]) = .error e ∧ e.rejectsMetadata) ∧
    (∃ e, load (Program.bare.setNamed "dx.version" [⟨5⟩]) = .error e ∧ e.rejectsMetadata) ∧
    ∃ e, load (Program.extended.setNamed "dx.fnprops" [⟨5⟩]) = .error e ∧ e.rejectsMetadata := by
  refine ⟨?_, ?_, ?_, ?_⟩
  · exact (load_trailing .bare).1 .extended .bare 9 [] [none] (by decide)
      ⟨⟨4⟩, some ⟨0⟩, some ⟨0⟩, by decide⟩ (by decide) ⟨⟨10⟩, some ⟨0⟩, some ⟨9⟩, by decide⟩ (by decide)
  · refine (load_trailing _).2.1 ⟨1, 1⟩ [] .options [some ⟨1⟩, some ⟨99⟩] ⟨⟨4⟩, some ⟨0⟩, some ⟨0⟩, by decide⟩
      ⟨.options, [⟨11⟩], 0, ⟨11⟩, by decide, rfl, .here (by decide)⟩ (by decide)
  · exact (load_trailing _).2.2.1 ⟨5⟩ [some ⟨1⟩] (by decide) (by decide) (by decide)
  · exact (load_trailing _).2.2.2 [⟨5⟩] ⟨5⟩ [some ⟨1⟩] (by decide) (by decide) (by decide) (by decide)

end Tables

namespace Shader

/-- What a reachable module wrote is read at minor version 0, if its records are cut to what that version
has, with the initial values of the fields that were cut off and with all else as it was. Handles are
words, so no program has more nodes than there are words. -/
theorem load_older {s : Shader} (hs : s.Reachable) (hoptions : Options.reserved s.tables.options.bits = 0)
    {p q r : Program} (h : s.tables.emit p = .ok () q) (hnodes : q.nodes.entries.length ≤ UInt32.size)
    (hcut : q.Recast r RecordKind.Cut) (hv : r.Declares ⟨1, 0⟩ []) :
    Tables.load r = .ok ((s.tables.normal p).asOf 0) := by
  have hbounded := Tables.bounded_of_emit hs.orderly h hnodes
  have hwell := hs.orderly.wellFormed hoptions hbounded.resources hbounded.signatures
  have hrv : r.readVersion = .ok ⟨1, 0⟩ := Program.readVersion_eq_ok.2 ⟨[], hv, rfl, by decide⟩
  exact Tables.load_of_recast (Tables.load_of_emit hwell h) (Tables.readVersion_of_emit hwell h) hrv hcut
    fun _ _ => RecordKind.Cut.accepts

/-- A hull shader with a rasterizer-ordered view and a column-major parameter, which writes metadata. -/
def hullOps : List ShaderOp :=
  [.program (.type (.float 32)), .program (.type .void), .program (.type (.function ⟨1⟩ [])),
    .program (.addFunction "main" ⟨2⟩),
    .program (.addGlobal ⟨"view", ⟨0⟩, .default, .external, true, none⟩),
    .addResource .uavs
      ⟨⟨7, ⟨0⟩, "view", 0, 0, 1⟩, ⟨.srv, .typedBuffer, .f32, 0, 4, true, false, true⟩⟩,
    .addProps ⟨0⟩ (.hull { HullProps.initial with maxTessFactor := ⟨0x41800000⟩ }),
    .annotateFunction ⟨0⟩ ⟨{ ParamInfo.plain with orientation := .rowMajor },
      [{ ParamInfo.plain with qualifier := .outward, orientation := .columnMajor }]⟩]

def hull : Shader := hullOps.foldl ShaderOp.apply (.ofProgram (.empty "hull"))

end Shader

/-- What the hull shader writes. -/
def Program.hull : Program := after (Shader.hull.tables.emit Shader.hull.program)

/-- The same with the records cut. -/
def Program.olderHull : Program :=
  ([.node (.tuple [some ⟨5⟩, some ⟨6⟩, some ⟨7⟩, some ⟨5⟩, some ⟨5⟩, some ⟨0⟩, some ⟨8⟩, some ⟨9⟩,
      some ⟨5⟩, some ⟨10⟩, some ⟨11⟩]),
    .node (.tuple [some ⟨27⟩]), .node (.tuple [none, some ⟨28⟩, none, none]),
    .node (.tuple [some ⟨0⟩, none, some ⟨5⟩, some ⟨11⟩]),
    .node (.tuple [some ⟨5⟩, none, some ⟨5⟩, some ⟨11⟩]), .node (.tuple [some ⟨30⟩]),
    .node (.tuple [some ⟨17⟩, some ⟨31⟩, some ⟨32⟩]), .node (.tuple [some ⟨33⟩]),
    .node (.tuple [some ⟨17⟩, some ⟨23⟩, none, some ⟨5⟩, some ⟨5⟩, some ⟨5⟩, some ⟨5⟩, some ⟨5⟩]),
    .node (.tuple [some ⟨0⟩, some ⟨5⟩]),
    .setNamed "dx.resources" [⟨29⟩], .setNamed "dx.typeAnnotations" [⟨21⟩, ⟨34⟩],
    .setNamed "dx.fnprops" [⟨35⟩], .setNamed "dx.version" [⟨36⟩]] :
      List ProgramOp).foldl ProgramOp.apply .hull

theorem Shader.load_older_hull :
    Tables.load .olderHull = .ok ((hull.tables.normal hull.program).asOf 0) ∧
      (hull.tables.normal hull.program).asOf 0 ≠ hull.tables.normal hull.program := by
  have hemit : hull.tables.emit hull.program = .ok () .hull := by
    obtain ⟨q, hq⟩ := Tables.exists_emit (show hull.tables.dangling? hull.program = none by decide)
    rw [Program.hull, hq]
    rfl
  have hnodes : Program.hull.nodes.entries.length ≤ UInt32.size := by decide +kernel
  have hcut : Program.hull.Recast .olderHull RecordKind.Cut := by decide +kernel
  have hversion : Program.olderHull.Declares ⟨1, 0⟩ [] := ⟨⟨36⟩, some ⟨0⟩, some ⟨5⟩, by decide +kernel⟩
  exact ⟨load_older ⟨"hull", hullOps, rfl⟩ (by decide) hemit hnodes hcut hversion, by decide⟩

end ShaderModule

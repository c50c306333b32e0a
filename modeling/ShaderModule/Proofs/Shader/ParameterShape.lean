import ShaderModule.Proofs.Program.ArrayLayers
import ShaderModule.Proofs.Shader.Reachable
import ShaderModule.Shader.Packing

/-!
# Rows and columns of parameters: `parameter_rows_and_cols`

A parameter takes as many rows as what lies under its array layers, times the lengths of the layers. Rows are clamped to
what a word holds three times on the way, and it comes out as if they were clamped once.
-/

namespace ShaderModule

namespace Program

variable {p : Program} {h core : Handle .type}

/-! ## Matrices -/

/-- A struct stands for a matrix of so many rows and columns: it is called so, and what it holds is one array of
vectors. -/
def IsMatrix (p : Program) (h : Handle .type) (rows : UInt64) (cols : UInt32) : Prop :=
  ∃ name body row element, p.type? h = some (.struct name [body]) ∧ ObjectType.begins "class.matrix." name ∧
    p.type? body = some (.array row rows) ∧ p.type? row = some (.vector element cols)

theorem IsMatrix.unique {rows rows' : UInt64} {cols cols' : UInt32} (h₁ : p.IsMatrix h rows cols)
    (h₂ : p.IsMatrix h rows' cols') : rows = rows' ∧ cols = cols' := by
  obtain ⟨name, body, row, element, hstruct, -, hbody, hrow⟩ := h₁
  obtain ⟨name', body', row', element', hstruct', -, hbody', hrow'⟩ := h₂
  cases hstruct.symm.trans hstruct'
  cases hbody.symm.trans hbody'
  cases hrow.symm.trans hrow'
  exact ⟨rfl, rfl⟩

/-- The shape of a matrix is known if a word holds the number of its rows. -/
theorem matrixShape?_eq_some_iff {r c : UInt32} :
    p.matrixShape? h = some (r, c) ↔ ∃ rows, p.IsMatrix h rows c ∧ rows.toNat < UInt32.size ∧ rows.toUInt32 = r := by
  unfold matrixShape? IsMatrix
  constructor
  · intro hshape
    split at hshape
    · next name body hstruct =>
      split at hshape
      · next hname =>
        split at hshape
        · next row rows hbody =>
          split at hshape
          · next element cols hrow =>
            split at hshape
            · next hrows =>
              cases hshape
              exact ⟨rows, ⟨name, body, row, element, hstruct, hname, hbody, hrow⟩, hrows, rfl⟩
            · cases hshape
          · cases hshape
        · cases hshape
      · cases hshape
    · cases hshape
  · rintro ⟨rows, ⟨name, body, row, element, hstruct, hname, hbody, hrow⟩, hrows, rfl⟩
    simp [hstruct, hname, hbody, hrow, hrows]

/-! ## The shape of what is no array -/

/-- The rows and columns of a type that is no array. A matrix is turned over unless it is row-major, but with more rows
than a word holds it is as good as any other struct. -/
inductive HasShape (p : Program) (orientation : Orientation) (core : Handle .type) : Nat → Nat → Prop where
  | rowMajor {rows : UInt64} {cols : UInt32} (hmatrix : p.IsMatrix core rows cols) (hrows : rows.toNat < UInt32.size)
      (horientation : orientation = .rowMajor) : HasShape p orientation core rows.toNat cols.toNat
  | turned {rows : UInt64} {cols : UInt32} (hmatrix : p.IsMatrix core rows cols) (hrows : rows.toNat < UInt32.size)
      (horientation : orientation ≠ .rowMajor) : HasShape p orientation core cols.toNat rows.toNat
  | vector {element : Handle .type} {length : UInt32} (hvector : p.type? core = some (.vector element length)) :
      HasShape p orientation core 1 length.toNat
  | other (hmatrix : ∀ rows cols, p.IsMatrix core rows cols → UInt32.size ≤ rows.toNat)
      (hvector : ∀ element length, p.type? core ≠ some (.vector element length)) : HasShape p orientation core 1 1

theorem hasShape_coreShape (p : Program) (orientation : Orientation) (core : Handle .type) :
    p.HasShape orientation core (p.coreShape orientation core).1.toNat (p.coreShape orientation core).2.toNat := by
  unfold coreShape
  cases hshape : p.matrixShape? core with
  | some shape =>
    obtain ⟨r, c⟩ := shape
    obtain ⟨rows, hmatrix, hrows, rfl⟩ := matrixShape?_eq_some_iff.1 hshape
    have hsame : rows.toUInt32.toNat = rows.toNat := by
      rw [UInt64.toNat_toUInt32, Nat.mod_eq_of_lt hrows]
    by_cases horientation : orientation = .rowMajor
    · simp only [if_pos horientation, hsame]
      exact .rowMajor hmatrix hrows horientation
    · simp only [if_neg horientation, hsame]
      exact .turned hmatrix hrows horientation
  | none =>
    have hmatrix : ∀ rows cols, p.IsMatrix core rows cols → UInt32.size ≤ rows.toNat := by
      intro rows cols hmatrix
      by_contra hrows
      have hsome := matrixShape?_eq_some_iff.2 ⟨rows, hmatrix, Nat.lt_of_not_le hrows, rfl⟩
      rw [hshape] at hsome
      cases hsome
    simp only
    split
    · next hvector => exact .vector hvector
    · next hvector => exact .other hmatrix hvector

theorem HasShape.eq_coreShape {orientation : Orientation} {r c : Nat} (hshape : p.HasShape orientation core r c) :
    r = (p.coreShape orientation core).1.toNat ∧ c = (p.coreShape orientation core).2.toNat := by
  unfold coreShape
  cases hshape with
  | @rowMajor rows cols hmatrix hrows horientation =>
    rw [matrixShape?_eq_some_iff.2 ⟨rows, hmatrix, hrows, rfl⟩]
    simp [horientation, Nat.mod_eq_of_lt hrows]
  | @turned rows cols hmatrix hrows horientation =>
    rw [matrixShape?_eq_some_iff.2 ⟨rows, hmatrix, hrows, rfl⟩]
    simp [horientation, Nat.mod_eq_of_lt hrows]
  | vector hvector =>
    have hnone : p.matrixShape? core = none := by simp [matrixShape?, hvector]
    simp [hnone, hvector]
  | other hmatrix hvector =>
    have hnone : p.matrixShape? core = none := by
      rw [Option.eq_none_iff_forall_ne_some]
      intro shape hsome
      obtain ⟨rows, hrows, hlt, -⟩ := matrixShape?_eq_some_iff.1 hsome
      exact absurd (hmatrix rows _ hrows) (Nat.not_le_of_lt hlt)
    simp [hnone]

/-- A type has one shape, and only one. -/
theorem hasShape_iff {orientation : Orientation} {r c : Nat} :
    p.HasShape orientation core r c ↔
      r = (p.coreShape orientation core).1.toNat ∧ c = (p.coreShape orientation core).2.toNat := by
  refine ⟨HasShape.eq_coreShape, ?_⟩
  rintro ⟨rfl, rfl⟩
  exact p.hasShape_coreShape orientation core

/-! ## The shape of a parameter -/

/-- Under array layers, a parameter has the columns of the core, and its rows as often as the lengths of the layers
multiply to. The rows are clamped once, to the largest number that a word holds. -/
theorem paramShape_layered {lengths : List UInt64} (hlayers : p.types.Layered core lengths h) (param : ParamInfo) :
    ∃ r c, (∀ r' c', p.HasShape param.orientation core r' c' ↔ r' = r ∧ c' = c) ∧
      (p.paramShape param h).1.toNat = min (r * (lengths.map UInt64.toNat).prod) (UInt32.size - 1) ∧
      (p.paramShape param h).2.toNat = c := by
  refine ⟨_, _, fun _ _ => hasShape_iff, ?_, ?_⟩
  · have hword : UInt32.size - 1 ≤ UInt64.size - 1 := by decide
    simp only [paramShape, hlayers.stripArrays_eq, toNat_clamp32, toNat_clamp64, Nat.min_assoc,
      Nat.min_eq_right hword]
    rw [Nat.mul_comm, min_mul_min, Nat.mul_comm]
  · simp only [paramShape, hlayers.stripArrays_eq]

/-- A row-major matrix of 3 rows and 4 columns in arrays, and one with more rows than a word holds. -/
def arranged : Program :=
  [.type (.float 32), .type (.vector ⟨0⟩ 4), .type (.array ⟨1⟩ 3), .type (.struct "class.matrix.float.3.4" [⟨2⟩]),
    .type (.array ⟨3⟩ 0), .type (.array ⟨4⟩ 1099511627776), .type (.array ⟨5⟩ 1099511627776),
    .type (.array ⟨1⟩ 4294967296), .type (.struct "class.matrix.float.4294967296.4" [⟨7⟩])].foldl ProgramOp.apply
    (.empty "m")

/-- A parameter whose matrices are packed row by row. -/
def byRows : ParamInfo := { ParamInfo.plain with orientation := .rowMajor }

/-- Nothing is left of a product that was too large when an array without elements follows. -/
theorem paramShape_layered_vanishing :
    arranged.types.Layered ⟨3⟩ [1099511627776, 1099511627776, 0] ⟨6⟩ ∧
      (arranged.paramShape byRows ⟨6⟩).1.toNat = 0 ∧ (arranged.paramShape byRows ⟨6⟩).2.toNat = 4 := by
  have hlayers : arranged.types.Layered ⟨3⟩ [1099511627776, 1099511627776, 0] ⟨6⟩ :=
    .layer rfl (.layer rfl (.layer rfl (.core rfl nofun)))
  have hmatrix : arranged.IsMatrix ⟨3⟩ 3 4 := ⟨_, _, _, _, rfl, by decide, rfl, rfl⟩
  obtain ⟨r, c, hshape, hrows, hcols⟩ := paramShape_layered hlayers byRows
  obtain ⟨-, hc⟩ := (hshape _ _).1 (.rowMajor hmatrix (by decide) rfl)
  refine ⟨hlayers, ?_, ?_⟩
  · rw [hrows]
    simp
  · rw [hcols, ← hc]
    rfl

/-- More rows than a word holds are not clamped: the struct does not count as a matrix. -/
theorem paramShape_overfull :
    arranged.Reachable ∧ arranged.types.Layered ⟨8⟩ [] ⟨8⟩ ∧ arranged.IsMatrix ⟨8⟩ 4294967296 4 ∧
      arranged.paramShape byRows ⟨8⟩ = (1, 1) :=
  ⟨reachable_foldl _ _, .core rfl nofun, ⟨_, _, _, _, rfl, by decide, rfl, rfl⟩, by decide⟩

end Program

end ShaderModule

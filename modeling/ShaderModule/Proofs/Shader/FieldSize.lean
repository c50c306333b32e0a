import Mathlib.Logic.Relation
import Mathlib.Order.Bounds.Basic
import ShaderModule.Proofs.Shader.ParameterShape

/-!
# Sizes of constant-buffer fields: `legacy_cbuffer_field_element_size`

One element of a field takes what is under its array layers. A row of components starts at a register of 16 bytes of its
own, so what vectors and matrices take reaches up to the end of the component that ends last. An annotation goes before
what the layout would give.
-/

namespace ShaderModule

/-! ## Where components end -/

/-- Where the components of so many rows of so many columns end. Each row starts at the next register. -/
def componentEnds (rows cols bytes : Nat) : Set Nat := {e | ∃ i < rows, ∃ j < cols, e = 16 * i + (j + 1) * bytes}

section

variable {rows cols bytes : Nat}

theorem componentEnds_one (cols bytes : Nat) :
    componentEnds 1 cols bytes = {e | ∃ j < cols, e = (j + 1) * bytes} := by
  ext e
  simp [componentEnds]

/-- The last component of the last row ends last. -/
theorem isGreatest_componentEnds (hrows : 1 ≤ rows) (hcols : 1 ≤ cols) :
    IsGreatest (componentEnds rows cols bytes) (16 * (rows - 1) + cols * bytes) := by
  constructor
  · refine ⟨rows - 1, by omega, cols - 1, by omega, ?_⟩
    rw [Nat.sub_add_cancel hcols]
  · rintro e ⟨i, hi, j, hj, rfl⟩
    have hrow : (j + 1) * bytes ≤ cols * bytes := Nat.mul_le_mul_right bytes hj
    omega

/-- A word that holds the end of the last component up to overflow holds it if and only if there is no overflow. -/
theorem isGreatest_word_iff (hrows : 1 ≤ rows) (hcols : 1 ≤ cols) {n : UInt32}
    (hn : n.toNat = (16 * (rows - 1) + cols * bytes) % UInt32.size) :
    IsGreatest (componentEnds rows cols bytes) n.toNat ↔ ∀ e ∈ componentEnds rows cols bytes, e < UInt32.size := by
  have hgreatest : IsGreatest (componentEnds rows cols bytes) _ := isGreatest_componentEnds hrows hcols
  constructor
  · intro h e he
    exact Nat.lt_of_le_of_lt (h.2 he) n.toNat_lt
  · intro h
    rw [hn, Nat.mod_eq_of_lt (h _ hgreatest.1)]
    exact hgreatest

/-- No word holds the end of the last component if there are too many rows or columns to be counted in one. -/
theorem isGreatest_overfull_iff (hrows : 1 ≤ rows) (hcols : 1 ≤ cols) (hbytes : 1 ≤ bytes)
    (hmany : UInt32.size ≤ rows ∨ UInt32.size ≤ cols) (n : UInt32) :
    IsGreatest (componentEnds rows cols bytes) n.toNat ↔ ∀ e ∈ componentEnds rows cols bytes, e < UInt32.size := by
  have hgreatest : IsGreatest (componentEnds rows cols bytes) _ := isGreatest_componentEnds hrows hcols
  have hsize : UInt32.size = 4294967296 := rfl
  have hcol : cols ≤ cols * bytes := Nat.le_mul_of_pos_right cols hbytes
  refine iff_of_false (fun h => ?_) fun h => ?_
  · have hlt := n.toNat_lt
    rw [h.unique hgreatest] at hlt
    omega
  · have hlt := h _ hgreatest.1
    omega

end

/-- The bytes of one component of a field. -/
def FieldInfo.componentBytes (field : FieldInfo) : Nat := if field.component.isWide then 8 else 4

namespace Orientation

/-- The rows and columns in which a matrix is packed, if it has an orientation. -/
def packed? : Orientation → Nat → Nat → Option (Nat × Nat)
  | .rowMajor, rows, cols => some (rows, cols)
  | .columnMajor, rows, cols => some (cols, rows)
  | .undefined, _, _ => none

/-- The other orientation. -/
def turned : Orientation → Orientation
  | .rowMajor => .columnMajor
  | .columnMajor => .rowMajor
  | .undefined => .undefined

theorem packed?_eq_some_iff {o : Orientation} {rows cols R C : Nat} :
    o.packed? rows cols = some (R, C) ↔
      (o = .rowMajor ∧ R = rows ∧ C = cols) ∨ (o = .columnMajor ∧ R = cols ∧ C = rows) := by
  cases o <;> simp [packed?, eq_comm]

theorem packed?_eq_none_iff {o : Orientation} {rows cols : Nat} : o.packed? rows cols = none ↔ o = .undefined := by
  cases o <;> simp [packed?]

/-- A matrix is packed as its transpose is in the other orientation. -/
theorem packed?_turned (o : Orientation) (rows cols : Nat) : o.turned.packed? cols rows = o.packed? rows cols := by
  cases o <;> rfl

end Orientation

namespace TypeTable

/-- The second type is an array of the first one. -/
def ArrayOf (types : TypeTable) (inner outer : Handle .type) : Prop :=
  ∃ length, types.get? outer = some (.array inner length)

variable {types : TypeTable} {core inner outer : Handle .type} {lengths : List UInt64}

theorem Layered.fst_stripArrays (h : types.Layered core lengths inner) : (types.stripArrays inner).1 = core := by
  rw [h.stripArrays_eq]

/-- A core is under no array layers. -/
theorem Layered.of_core (h : types.Layered core lengths inner) : types.Layered core [] core := by
  induction h with
  | core ht hno => exact .core ht hno
  | layer _ _ ih => exact ih

/-- More array layers leave the core what it is. -/
theorem Layered.arrays (h : types.Layered core lengths inner) (ha : Relation.ReflTransGen types.ArrayOf inner outer) :
    ∃ lengths', types.Layered core lengths' outer := by
  induction ha with
  | refl => exact ⟨lengths, h⟩
  | tail _ hlayer ih =>
    obtain ⟨length, hlength⟩ := hlayer
    obtain ⟨lengths', hlayered⟩ := ih
    exact ⟨length :: lengths', .layer hlength hlayered⟩

end TypeTable

namespace Program

variable {p : Program} {types : TypeSystem} {field field' : FieldInfo} {h h' core core' : Handle .type}
  {lengths lengths' : List UInt64}

/-! ## What a field takes -/

theorem toNat_packed (rows cols component : UInt32) :
    (fieldElementSize.packed rows cols component).toNat =
      (16 * (rows.toNat - 1) + cols.toNat * component.toNat) % UInt32.size := by
  have hrows : (if rows = 0 then 0 else rows - 1).toNat = rows.toNat - 1 := by
    split
    · next hzero => simp [hzero]
    · next hzero =>
      have hpos : 1 ≤ rows := by
        have hne : rows.toNat ≠ 0 := fun heq => hzero (UInt32.toNat_inj.1 heq)
        rw [UInt32.le_iff_toNat_le]
        show 1 ≤ rows.toNat
        omega
      rw [UInt32.toNat_sub_of_le _ _ hpos]
      rfl
  rw [fieldElementSize.packed, UInt32.toNat_add, UInt32.toNat_mul, UInt32.toNat_mul, hrows, ← Nat.add_mod,
    Nat.mul_comm 16]
  rfl

theorem toNat_component (field : FieldInfo) :
    (if field.component.isWide then 8 else 4 : UInt32).toNat = field.componentBytes := by
  unfold FieldInfo.componentBytes
  split <;> rfl

/-- Array layers do not matter. -/
theorem fieldElementSize_of_layered (hlayers : p.types.Layered core lengths h) :
    p.fieldElementSize types field h = p.fieldElementSize types field core := by
  rw [fieldElementSize, fieldElementSize, hlayers.fst_stripArrays, hlayers.of_core.fst_stripArrays]

theorem fieldElementSize_annotated (hlayers : p.types.Layered core lengths h) {name : String}
    {fields : List (Handle .type)} (hcore : p.type? core = some (.struct name fields)) {a : StructInfo}
    (ha : types.structs.find? core = some a) : p.fieldElementSize types field h = a.size := by
  simp only [fieldElementSize, hlayers.fst_stripArrays, hcore, ha]

theorem toNat_fieldElementSize_vector (hlayers : p.types.Layered core lengths h) {element : Handle .type} {n : UInt32}
    (hcore : p.type? core = some (.vector element n)) :
    (p.fieldElementSize types field h).toNat = (n.toNat * field.componentBytes) % UInt32.size := by
  simp only [fieldElementSize, hlayers.fst_stripArrays, hcore]
  rw [UInt32.toNat_mul, toNat_component, Nat.mul_comm]

/-- A matrix without an annotation takes what its packed rows and columns take. -/
theorem toNat_fieldElementSize_matrix (hlayers : p.types.Layered core lengths h)
    (hnone : types.structs.find? core = none) {rows : UInt64} {cols : UInt32} (hmatrix : p.IsMatrix core rows cols)
    {R C : Nat} (hpacked : field.orientation.packed? rows.toNat cols.toNat = some (R, C))
    (hrows : rows.toNat < UInt32.size) :
    (p.fieldElementSize types field h).toNat = (16 * (R - 1) + C * field.componentBytes) % UInt32.size := by
  have hshape : p.matrixShape? core = some (rows.toUInt32, cols) :=
    matrixShape?_eq_some_iff.2 ⟨rows, hmatrix, hrows, rfl⟩
  have hsame : rows.toUInt32.toNat = rows.toNat := by
    rw [UInt64.toNat_toUInt32, Nat.mod_eq_of_lt hrows]
  obtain ⟨name, body, row, element, hstruct, -⟩ := hmatrix
  rcases Orientation.packed?_eq_some_iff.1 hpacked with ⟨horientation, rfl, rfl⟩ | ⟨horientation, rfl, rfl⟩
  · simp only [fieldElementSize, hlayers.fst_stripArrays, hstruct, hnone, hshape, horientation]
    rw [toNat_packed, toNat_component, hsame]
  · simp only [fieldElementSize, hlayers.fst_stripArrays, hstruct, hnone, hshape, horientation]
    rw [toNat_packed, toNat_component, hsame]

theorem fieldElementSize_undefined (hlayers : p.types.Layered core lengths h)
    (hnone : types.structs.find? core = none) {rows : UInt64} {cols : UInt32} (hmatrix : p.IsMatrix core rows cols)
    (hrows : rows.toNat < UInt32.size) (horientation : field.orientation = .undefined) :
    p.fieldElementSize types field h = 0 := by
  have hshape : p.matrixShape? core = some (rows.toUInt32, cols) :=
    matrixShape?_eq_some_iff.2 ⟨rows, hmatrix, hrows, rfl⟩
  obtain ⟨name, body, row, element, hstruct, -⟩ := hmatrix
  simp only [fieldElementSize, hlayers.fst_stripArrays, hstruct, hnone, hshape, horientation]

/-- The size of a matrix is where its last component ends, unless that is too far for a word. -/
theorem isGreatest_fieldElementSize_matrix (hlayers : p.types.Layered core lengths h)
    (hnone : types.structs.find? core = none) {rows : UInt64} {cols : UInt32} (hmatrix : p.IsMatrix core rows cols)
    {R C : Nat} (hpacked : field.orientation.packed? rows.toNat cols.toNat = some (R, C)) (hR : 1 ≤ R) (hC : 1 ≤ C) :
    IsGreatest (componentEnds R C field.componentBytes) (p.fieldElementSize types field h).toNat ↔
      ∀ e ∈ componentEnds R C field.componentBytes, e < UInt32.size := by
  rcases Nat.lt_or_ge rows.toNat UInt32.size with hrows | hrows
  · exact isGreatest_word_iff hR hC (toNat_fieldElementSize_matrix hlayers hnone hmatrix hpacked hrows)
  -- Too many rows make it no matrix, and what it takes is 0. But then some end is too far for a word as well.
  · have hbytes : 1 ≤ field.componentBytes := by
      unfold FieldInfo.componentBytes
      split <;> decide
    refine isGreatest_overfull_iff hR hC hbytes ?_ _
    rcases Orientation.packed?_eq_some_iff.1 hpacked with ⟨-, rfl, rfl⟩ | ⟨-, rfl, rfl⟩
    · exact .inl hrows
    · exact .inr hrows

/-- The size of a vector is where its last component ends, unless that is too far for a word. -/
theorem isGreatest_fieldElementSize_vector (hlayers : p.types.Layered core lengths h) {element : Handle .type}
    {n : UInt32} (hcore : p.type? core = some (.vector element n)) (hn : 1 ≤ n.toNat) :
    IsGreatest {e | ∃ j < n.toNat, e = (j + 1) * field.componentBytes} (p.fieldElementSize types field h).toNat ↔
      ∀ j < n.toNat, (j + 1) * field.componentBytes < UInt32.size := by
  have hsize : (p.fieldElementSize types field h).toNat =
      (16 * (1 - 1) + n.toNat * field.componentBytes) % UInt32.size := by
    simpa using toNat_fieldElementSize_vector hlayers hcore
  -- A vector is one row.
  rw [← componentEnds_one, isGreatest_word_iff (Nat.le_refl 1) hn hsize, componentEnds_one]
  constructor
  · exact fun hfit j hj => hfit _ ⟨j, hj, rfl⟩
  · rintro hfit e ⟨j, hj, rfl⟩
    exact hfit j hj

/-- A matrix takes as much as its transpose does in the other orientation. -/
theorem fieldElementSize_turned (hlayers : p.types.Layered core lengths h)
    (hlayers' : p.types.Layered core' lengths' h') (hnone : types.structs.find? core = none)
    (hnone' : types.structs.find? core' = none) {rows rows' : UInt64} {cols cols' : UInt32}
    (hmatrix : p.IsMatrix core rows cols) (hmatrix' : p.IsMatrix core' rows' cols')
    (hrows : rows'.toNat = cols.toNat) (hcols : cols'.toNat = rows.toNat)
    (horientation : field'.orientation = field.orientation.turned)
    (hwide : field'.component.isWide = field.component.isWide) :
    p.fieldElementSize types field' h' = p.fieldElementSize types field h := by
  have hfit : rows.toNat < UInt32.size := hcols ▸ cols'.toNat_lt
  have hfit' : rows'.toNat < UInt32.size := hrows ▸ cols.toNat_lt
  have hpacked : field'.orientation.packed? rows'.toNat cols'.toNat =
      field.orientation.packed? rows.toNat cols.toNat := by
    rw [horientation, hrows, hcols, Orientation.packed?_turned]
  have hbytes : field'.componentBytes = field.componentBytes := by
    rw [FieldInfo.componentBytes, FieldInfo.componentBytes, hwide]
  cases hshape : field.orientation.packed? rows.toNat cols.toNat with
  | some shape =>
    rw [hshape] at hpacked
    rw [← UInt32.toNat_inj, toNat_fieldElementSize_matrix hlayers hnone hmatrix hshape hfit,
      toNat_fieldElementSize_matrix hlayers' hnone' hmatrix' hpacked hfit', hbytes]
  | none =>
    rw [hshape] at hpacked
    rw [fieldElementSize_undefined hlayers hnone hmatrix hfit (Orientation.packed?_eq_none_iff.1 hshape),
      fieldElementSize_undefined hlayers' hnone' hmatrix' hfit' (Orientation.packed?_eq_none_iff.1 hpacked)]

/-- The size of one element of a field. It is the same under any more array layers. A struct with an annotation takes
what is recorded there. Without one, a matrix with an orientation reaches to the end of the component that ends last,
and so does a vector, exactly if no end is too far for a word. And a matrix takes as much as its transpose does in the
other orientation. -/
theorem fieldElementSize_extent (types : TypeSystem) (field : FieldInfo) (hlayers : p.types.Layered core lengths h) :
    (∀ outer, Relation.ReflTransGen p.types.ArrayOf h outer →
      p.fieldElementSize types field outer = p.fieldElementSize types field h) ∧
    (∀ name fields a, p.type? core = some (.struct name fields) → types.structs.find? core = some a →
      p.fieldElementSize types field h = a.size) ∧
    (∀ rows cols R C, types.structs.find? core = none → p.IsMatrix core rows cols →
      field.orientation.packed? rows.toNat cols.toNat = some (R, C) → 1 ≤ R → 1 ≤ C →
      (IsGreatest (componentEnds R C field.componentBytes) (p.fieldElementSize types field h).toNat ↔
        ∀ e ∈ componentEnds R C field.componentBytes, e < UInt32.size)) ∧
    (∀ element n, p.type? core = some (.vector element n) → 1 ≤ n.toNat →
      (IsGreatest {e | ∃ j < n.toNat, e = (j + 1) * field.componentBytes} (p.fieldElementSize types field h).toNat ↔
        ∀ j < n.toNat, (j + 1) * field.componentBytes < UInt32.size)) ∧
    ∀ core' lengths' h' field' rows cols rows' cols', p.types.Layered core' lengths' h' →
      types.structs.find? core = none → types.structs.find? core' = none →
      p.IsMatrix core rows cols → p.IsMatrix core' rows' cols' → rows'.toNat = cols.toNat → cols'.toNat = rows.toNat →
      field'.orientation = field.orientation.turned → field'.component.isWide = field.component.isWide →
      p.fieldElementSize types field' h' = p.fieldElementSize types field h := by
  refine ⟨fun outer houter => ?_, fun name fields a hcore ha => fieldElementSize_annotated hlayers hcore ha,
    fun rows cols R C hnone hmatrix hpacked => isGreatest_fieldElementSize_matrix hlayers hnone hmatrix hpacked,
    fun element n hcore hn => isGreatest_fieldElementSize_vector hlayers hcore hn,
    fun core' lengths' h' field' rows cols rows' cols' hlayers' hnone hnone' =>
      fieldElementSize_turned hlayers hlayers' hnone hnone'⟩
  obtain ⟨lengths', houter⟩ := hlayers.arrays houter
  rw [fieldElementSize_of_layered houter, fieldElementSize_of_layered hlayers]

/-- How doubles are packed. -/
def doubles (orientation : Orientation) : FieldInfo := ⟨"doubles", 0, .f64, orientation, none, false⟩

/-- A matrix of 3 rows and 2 columns of doubles, an array of arrays of it, and its transpose. -/
def transposing : Program :=
  [.type (.float 64), .type (.vector ⟨0⟩ 2), .type (.array ⟨1⟩ 3), .type (.struct "class.matrix.double.3.2" [⟨2⟩]),
    .type (.array ⟨3⟩ 5), .type (.array ⟨4⟩ 7), .type (.vector ⟨0⟩ 3), .type (.array ⟨6⟩ 2),
    .type (.struct "class.matrix.double.2.3" [⟨7⟩])].foldl ProgramOp.apply (.empty "transposing")

theorem fieldElementSize_extent_transposing :
    (transposing.fieldElementSize .empty (doubles .columnMajor) ⟨5⟩ =
        transposing.fieldElementSize .empty (doubles .columnMajor) ⟨4⟩) ∧
      IsGreatest (componentEnds 2 3 8) (transposing.fieldElementSize .empty (doubles .columnMajor) ⟨4⟩).toNat ∧
      (transposing.fieldElementSize .empty (doubles .rowMajor) ⟨8⟩ =
        transposing.fieldElementSize .empty (doubles .columnMajor) ⟨4⟩) ∧
      IsGreatest {e | ∃ j < 3, e = (j + 1) * 8} (transposing.fieldElementSize .empty (doubles .undefined) ⟨6⟩).toNat ∧
      transposing.fieldElementSize ⟨Ordered.empty.insert ⟨3⟩ ⟨[], 24⟩, .empty⟩ (doubles .rowMajor) ⟨4⟩ = 24 := by
  have hlayers : transposing.types.Layered ⟨3⟩ [5] ⟨4⟩ := .layer rfl (.core rfl nofun)
  have hmatrix : transposing.IsMatrix ⟨3⟩ 3 2 := ⟨_, _, _, _, rfl, by decide, rfl, rfl⟩
  have hturned : transposing.IsMatrix ⟨8⟩ 2 3 := ⟨_, _, _, _, rfl, by decide, rfl, rfl⟩
  obtain ⟨harrays, -, hextent, -, htranspose⟩ := fieldElementSize_extent .empty (doubles .columnMajor) hlayers
  have hvectors : transposing.types.Layered ⟨6⟩ [] ⟨6⟩ := .core rfl nofun
  obtain ⟨-, -, -, hvector, -⟩ := fieldElementSize_extent .empty (doubles .undefined) hvectors
  obtain ⟨-, hannotated, -⟩ :=
    fieldElementSize_extent ⟨Ordered.empty.insert ⟨3⟩ ⟨[], 24⟩, .empty⟩ (doubles .rowMajor) hlayers
  refine ⟨harrays ⟨5⟩ (.single ⟨7, rfl⟩), ?_, ?_, ?_, hannotated _ _ ⟨[], 24⟩ rfl (by decide)⟩
  · refine (hextent 3 2 2 3 rfl hmatrix rfl (by decide) (by decide)).2 ?_
    rintro e ⟨i, hi, j, hj, rfl⟩
    have hsize : UInt32.size = 4294967296 := rfl
    have hbytes : (doubles .columnMajor).componentBytes = 8 := rfl
    rw [hsize, hbytes]
    omega
  · exact htranspose ⟨8⟩ [] ⟨8⟩ (doubles .rowMajor) 3 2 2 3 (.core rfl nofun) rfl rfl hmatrix hturned rfl rfl rfl rfl
  · refine (hvector ⟨0⟩ 3 rfl (by decide)).2 fun j hj => ?_
    have hsize : UInt32.size = 4294967296 := rfl
    have hbytes : (doubles .undefined).componentBytes = 8 := rfl
    have hlength : (3 : UInt32).toNat = 3 := rfl
    rw [hsize, hbytes]
    omega

end Program

end ShaderModule

import ShaderModule.Shader.Declaration

/-!
# Texts of profiles: `from_str` / `fmt`

A text names a profile if it is the abbreviation of a stage and two decimal numerals, joined by underscores. Such a
text is read as what it names, and any other is refused. A profile is written as one of the texts that name it.
-/

namespace ShaderModule

namespace Numeral

/-- A numeral of a number: decimal digits, at least one, with a plus sign before them or not. Zeros may lead. -/
def Denotes (text : List Char) (n : Nat) : Prop :=
  ∃ sign digits, (sign = [] ∨ sign = ['+']) ∧ text = sign ++ digits ∧ digits ≠ [] ∧ (∀ c ∈ digits, c.isDigit) ∧
    Nat.ofDigitChars 10 digits 0 = n

variable {text ds : List Char} {m n : Nat}

/-- Reading on from a number appends digits to it. -/
theorem foldlM_digits_eq_some_iff :
    ds.foldlM (fun n c => if c.isDigit then some (n * 10 + (c.toNat - '0'.toNat)) else none) m = some n ↔
      (∀ c ∈ ds, c.isDigit) ∧ Nat.ofDigitChars 10 ds m = n := by
  induction ds generalizing m with
  | nil => simp
  | cons c ds ih =>
    rw [List.foldlM_cons, List.forall_mem_cons, Nat.ofDigitChars_cons, Nat.mul_comm 10]
    by_cases hc : c.isDigit
    · simpa [hc] using ih
    · simp [hc]

theorem digits?_eq_some_iff :
    digits? ds = some n ↔ ds ≠ [] ∧ (∀ c ∈ ds, c.isDigit) ∧ Nat.ofDigitChars 10 ds 0 = n := by
  rw [← foldlM_digits_eq_some_iff]
  cases ds <;> simp [digits?]

/-- What is read as a number is a numeral of it. -/
theorem parse?_eq_some_iff {n : UInt32} : parse? text = some n ↔ Denotes text n.toNat := by
  have hfits : ∀ m, (if m < UInt32.size then some (UInt32.ofNat m) else none) = some n ↔ m = n.toNat := by
    intro m
    split
    · next hm =>
      rw [Option.some.injEq, ← UInt32.toNat_inj, UInt32.toNat_ofNat_of_lt' hm]
    · next hm =>
      refine iff_of_false nofun ?_
      rintro rfl
      exact hm n.toNat_lt_size
  have hread : parse? text = some n ↔
      digits? (if text.head? = some '+' then text.tail else text) = some n.toNat := by
    simp only [parse?, Option.bind_eq_bind, Option.bind_eq_some_iff, hfits, exists_eq_right]
  rw [hread, digits?_eq_some_iff]
  constructor
  · intro h
    split at h
    · next hplus =>
      obtain ⟨rest, rfl⟩ := List.head?_eq_some_iff.1 hplus
      exact ⟨['+'], rest, .inr rfl, rfl, h⟩
    · exact ⟨[], text, .inl rfl, rfl, h⟩
  · rintro ⟨sign, digits, hsign, htext, hne, hdigits, hvalue⟩
    rcases hsign with rfl | rfl
    · -- A digit is no plus sign.
      have hhead : digits.head? ≠ some '+' := fun h => absurd (hdigits _ (List.mem_of_mem_head? h)) (by decide)
      rw [htext, List.nil_append, if_neg hhead]
      exact ⟨hne, hdigits, hvalue⟩
    · rw [htext]
      exact ⟨hne, hdigits, hvalue⟩

theorem denotes_toDigits (n : Nat) : Denotes (Nat.toDigits 10 n) n :=
  ⟨[], _, .inl rfl, rfl, Nat.toDigits_ne_nil,
    fun _ hc => Nat.isDigit_of_mem_toDigits (by decide) (by decide) hc, Nat.ofDigitChars_ten_toDigits⟩

theorem underscore_not_mem (h : Denotes text n) : '_' ∉ text := by
  obtain ⟨sign, digits, hsign, rfl, -, hdigits, -⟩ := h
  rw [List.mem_append]
  rintro (hmem | hmem)
  · rcases hsign with rfl | rfl
    · cases hmem
    · exact absurd hmem (by decide)
  · exact absurd (hdigits _ hmem) (by decide)

end Numeral

theorem Stage.ofAbbreviation?_eq_some_iff {text : String} {s : Stage} :
    ofAbbreviation? text = some s ↔ text = s.abbreviation := by
  constructor
  · intro h
    unfold ofAbbreviation? at h
    have hs := List.find?_some h
    exact (beq_iff_eq.1 hs).symm
  · rintro rfl
    exact ofAbbreviation?_abbreviation s

namespace Profile

/-- The text is the abbreviation of the stage and numerals of the two parts of the version, with underscores between
them and nothing else. -/
def Names (text : String) (p : Profile) : Prop :=
  ∃ major minor, text.toList = p.stage.abbreviation.toList ++ '_' :: (major ++ '_' :: minor) ∧
    Numeral.Denotes major p.major.toNat ∧ Numeral.Denotes minor p.minor.toNat

variable {text : String} {p : Profile}

theorem pieces_eq_splitOn (separator : Char) (cs : List Char) : pieces separator cs = cs.splitOn separator := by
  induction cs with
  | nil => simp [pieces]
  | cons c cs ih =>
    rw [pieces, ih, List.splitOn_cons_eq_if_modifyHead]
    cases hcs : cs.splitOn separator with
    | nil => exact absurd hcs (List.splitOn_ne_nil _ _)
    | cons p ps => simp

/-- Between three pieces stand two separators. -/
theorem eq_of_pieces {separator : Char} {cs a b c : List Char} (h : pieces separator cs = [a, b, c]) :
    cs = a ++ separator :: (b ++ separator :: c) := by
  rw [pieces_eq_splitOn] at h
  have hjoin : [separator].intercalate (cs.splitOn separator) = cs := List.intercalate_splitOn separator
  rw [h] at hjoin
  simpa using hjoin.symm

theorem pieces_of_not_mem {separator : Char} {a b c : List Char} (ha : separator ∉ a) (hb : separator ∉ b)
    (hc : separator ∉ c) : pieces separator (a ++ separator :: (b ++ separator :: c)) = [a, b, c] := by
  rw [pieces_eq_splitOn, List.splitOn_append_cons_self_of_not_mem ha, List.splitOn_append_cons_self_of_not_mem hb,
    List.splitOn_eq_singleton hc]

/-- A text is read as the profile that it names. -/
theorem parse?_eq_some_iff : parse? text = some p ↔ Names text p := by
  constructor
  · intro h
    unfold parse? at h
    split at h
    · next stage major minor hpieces =>
      obtain ⟨s, hs, h⟩ := Option.bind_eq_some_iff.1 h
      obtain ⟨m, hm, h⟩ := Option.bind_eq_some_iff.1 h
      obtain ⟨n, hn, h⟩ := Option.bind_eq_some_iff.1 h
      cases h
      have hstage : stage = s.abbreviation.toList := by
        rw [← Stage.ofAbbreviation?_eq_some_iff.1 hs, String.toList_ofList]
      refine ⟨major, minor, ?_, Numeral.parse?_eq_some_iff.1 hm, Numeral.parse?_eq_some_iff.1 hn⟩
      rw [eq_of_pieces hpieces, hstage]
    · cases h
  · rintro ⟨major, minor, htext, hmajor, hminor⟩
    have hstage : '_' ∉ p.stage.abbreviation.toList := by cases p.stage <;> decide
    have hpieces := pieces_of_not_mem hstage (Numeral.underscore_not_mem hmajor) (Numeral.underscore_not_mem hminor)
    have hread := Stage.ofAbbreviation?_abbreviation p.stage
    simp [parse?, htext, hpieces, hread, Numeral.parse?_eq_some_iff.2 hmajor, Numeral.parse?_eq_some_iff.2 hminor]

theorem names_text (p : Profile) : Names p.text p := by
  refine ⟨_, _, ?_, Numeral.denotes_toDigits p.major.toNat, Numeral.denotes_toDigits p.minor.toNat⟩
  simp [text, Nat.toString_eq_repr, Nat.toList_repr]

/-- A profile is read back from its text. A text is read as what it names, and it is refused if it names nothing. -/
theorem read_eq_ok_iff_names :
    (∀ p, read p.text = .ok p) ∧ ∀ text, (∀ p, read text = .ok p ↔ Names text p) ∧
      ∀ cause, read text = .error cause ↔ cause = .invalidProfile text ∧ ∀ p, ¬ Names text p := by
  have hok : ∀ text p, read text = .ok p ↔ Names text p := by
    intro text p
    rw [← parse?_eq_some_iff, read]
    cases parse? text <;> simp
  refine ⟨fun p => (hok _ _).2 (names_text p), fun text => ⟨hok text, fun cause => ?_⟩⟩
  simp only [← parse?_eq_some_iff, read]
  cases parse? text with
  | none => simp [eq_comm]
  | some p => simp

end Profile

end ShaderModule

/-!
# Floating-point words

Floating-point numbers are kept as their bit patterns: a sign, an exponent field and a fraction
field. Single precision widens to double precision exactly, and double precision narrows to the
nearest single, a tie going to the even fraction. Widening loses nothing: narrowing undoes it.
-/

namespace ShaderModule

/-- A single-precision number as its 32 bits: sign, 8 bits of exponent, 23 bits of fraction. -/
structure Single where
  bits : UInt32
deriving DecidableEq, Repr

/-- A double-precision number as its 64 bits: sign, 11 bits of exponent, 52 bits of fraction. -/
structure Double where
  bits : UInt64
deriving DecidableEq, Repr

/-- The integer nearest to `m` shifted down by `s` bits, a tie going to the even one. -/
def roundShift (m s : Nat) : Nat :=
  let floor := m >>> s
  let rest := m - floor <<< s
  if 2 * rest > 1 <<< s ∨ 2 * rest = 1 <<< s ∧ floor % 2 = 1 then floor + 1 else floor

theorem roundShift_shiftLeft (m s : Nat) : roundShift (m <<< s) s = m := by
  have hp : 0 < 1 <<< s := by
    rw [Nat.one_shiftLeft]
    exact Nat.two_pow_pos s
  have hdown : (m <<< s) >>> s = m := Nat.shiftLeft_shiftRight m s
  simp only [roundShift, hdown, Nat.sub_self]
  split
  · next h => omega
  · rfl

namespace Double

def sign (x : Double) : Nat := x.bits.toNat >>> 63
def exponent (x : Double) : Nat := x.bits.toNat >>> 52 % 0x800
def fraction (x : Double) : Nat := x.bits.toNat % 0x10000000000000

def ofFields (sign exponent fraction : Nat) : Double :=
  ⟨UInt64.ofNat (sign <<< 63 + exponent <<< 52 + fraction)⟩

/-- The nearest single. A fraction of a not-a-number keeps its upper bits, and becomes the quiet one
where they are all zero. -/
def narrow (x : Double) : Single :=
  if x.exponent = 0x7FF then
    let payload := x.fraction >>> 29
    let payload := if x.fraction ≠ 0 ∧ payload = 0 then 0x400000 else payload
    ⟨UInt32.ofNat (x.sign <<< 31 + 0x7F800000 + payload)⟩
  else
    let rounded := roundShift (0x10000000000000 + x.fraction) (29 + (897 - x.exponent))
    let magnitude := (x.exponent - 897) <<< 23 + rounded
    ⟨UInt32.ofNat (x.sign <<< 31 + min magnitude 0x7F800000)⟩

end Double

namespace Single

def sign (x : Single) : Nat := x.bits.toNat >>> 31
def exponent (x : Single) : Nat := x.bits.toNat >>> 23 % 0x100
def fraction (x : Single) : Nat := x.bits.toNat % 0x800000

/-- The same number in double precision. A subnormal single is shifted up to its leading bit. -/
def widen (x : Single) : Double :=
  if x.exponent = 0xFF then Double.ofFields x.sign 0x7FF (x.fraction <<< 29)
  else if x.exponent = 0 then
    if x.fraction = 0 then Double.ofFields x.sign 0 0
    else
      let k := x.fraction.log2
      Double.ofFields x.sign (k + 874) ((x.fraction - 1 <<< k) <<< (52 - k))
  else Double.ofFields x.sign (x.exponent + 896) (x.fraction <<< 29)

end Single

/-! ## Fields -/

theorem Double.toNat_ofFields {s e f : Nat} (hs : s < 2) (he : e < 0x800)
    (hf : f < 0x10000000000000) :
    (Double.ofFields s e f).bits.toNat = s <<< 63 + e <<< 52 + f := by
  simp only [Double.ofFields, UInt64.toNat_ofNat', Nat.shiftLeft_eq]
  omega

theorem Double.fields_ofFields {s e f : Nat} (hs : s < 2) (he : e < 0x800)
    (hf : f < 0x10000000000000) :
    (Double.ofFields s e f).sign = s ∧ (Double.ofFields s e f).exponent = e ∧
      (Double.ofFields s e f).fraction = f := by
  have hn := Double.toNat_ofFields hs he hf
  simp only [Nat.shiftLeft_eq] at hn
  simp only [Double.sign, Double.exponent, Double.fraction, Nat.shiftRight_eq_div_pow, hn]
  omega

theorem Single.fields (x : Single) :
    x.sign < 2 ∧ x.exponent < 0x100 ∧ x.fraction < 0x800000 ∧
      x.bits.toNat = x.sign <<< 31 + x.exponent <<< 23 + x.fraction := by
  have := x.bits.toNat_lt
  simp only [Single.sign, Single.exponent, Single.fraction, Nat.shiftRight_eq_div_pow,
    Nat.shiftLeft_eq]
  omega

/-! ## Narrowing undoes widening -/

/-- Narrowing a double with the given fields, when it is no infinity or not-a-number. -/
theorem Double.narrow_ofFields {s e f : Nat} (hs : s < 2) (he : e < 0x7FF)
    (hf : f < 0x10000000000000) :
    (Double.ofFields s e f).narrow =
      ⟨UInt32.ofNat (s <<< 31 +
        min ((e - 897) <<< 23 + roundShift (0x10000000000000 + f) (29 + (897 - e))) 0x7F800000)⟩ := by
  obtain ⟨h1, h2, h3⟩ := Double.fields_ofFields hs (by omega : e < 0x800) hf
  simp only [Double.narrow, h1, h2, h3]
  rw [if_neg (by omega)]

/-- Narrowing an infinity or a not-a-number whose fraction has zeros below its upper 23 bits. -/
theorem Double.narrow_ofFields_special {s f : Nat} (hs : s < 2) (hf : f < 0x800000) :
    (Double.ofFields s 0x7FF (f <<< 29)).narrow = ⟨UInt32.ofNat (s <<< 31 + 0x7F800000 + f)⟩ := by
  have hlt : f <<< 29 < 0x10000000000000 := by
    rw [Nat.shiftLeft_eq]
    omega
  obtain ⟨h1, h2, h3⟩ := Double.fields_ofFields hs (by omega : 0x7FF < 0x800) hlt
  have hback : (f <<< 29) >>> 29 = f := Nat.shiftLeft_shiftRight f 29
  simp only [Double.narrow, h1, h2, h3, hback, if_true]
  split
  · next h =>
    rw [Nat.shiftLeft_eq] at h
    omega
  · rfl

section Subnormal

variable {n k : Nat} (hk : k < 23)

include hk

/-- The leading bit of a subnormal fraction is moved to the hidden place. -/
theorem shiftLeft_hidden : (1 <<< k) <<< (52 - k) = 0x10000000000000 := by
  rw [Nat.one_shiftLeft, Nat.shiftLeft_eq, ← Nat.pow_add, show k + (52 - k) = 52 by omega]

/-- Normalizing a subnormal fraction shifts it. -/
theorem normalized_significand (hlo : 1 <<< k ≤ n) :
    0x10000000000000 + (n - 1 <<< k) <<< (52 - k) = n <<< (52 - k) := by
  rw [← shiftLeft_hidden hk, Nat.shiftLeft_eq (1 <<< k), Nat.shiftLeft_eq (n - 1 <<< k), Nat.shiftLeft_eq n,
    ← Nat.add_mul, Nat.add_sub_cancel' hlo]

/-- The bits below the leading one fit into the fraction. -/
theorem normalized_fraction_lt (hlo : 1 <<< k ≤ n) (hhi : n < 1 <<< (k + 1)) :
    (n - 1 <<< k) <<< (52 - k) < 0x10000000000000 := by
  have hrest : n - 1 <<< k < 1 <<< k := by
    rw [Nat.shiftLeft_succ] at hhi
    omega
  rw [← shiftLeft_hidden hk, Nat.shiftLeft_eq (1 <<< k), Nat.shiftLeft_eq (n - 1 <<< k)]
  exact Nat.mul_lt_mul_of_pos_right hrest (Nat.two_pow_pos _)

end Subnormal

/-- Widening and narrowing back gives the same bits, for every pattern. -/
theorem Single.narrow_widen (x : Single) : x.widen.narrow = x := by
  obtain ⟨hs, he, hf, hx⟩ := x.fields
  have back : ∀ n : Nat, n = x.bits.toNat → (⟨UInt32.ofNat n⟩ : Single) = x := by
    rintro n rfl
    simp
  rw [Nat.shiftLeft_eq, Nat.shiftLeft_eq] at hx
  unfold Single.widen
  split
  · -- An infinity or no number.
    rw [Double.narrow_ofFields_special hs hf]
    refine back _ ?_
    rw [Nat.shiftLeft_eq]
    omega
  · split
    · split
      · -- A zero.
        rw [Double.narrow_ofFields hs (by omega) (by omega)]
        refine back _ ?_
        have : roundShift (0x10000000000000 + 0) (29 + (897 - 0)) = 0 := by decide +kernel
        rw [this, Nat.shiftLeft_eq, Nat.shiftLeft_eq]
        omega
      · -- A subnormal number, which is a normal one when widened.
        next hpos =>
        have hk : x.fraction.log2 < 23 := (Nat.log2_lt hpos).2 hf
        have hlo : 1 <<< x.fraction.log2 ≤ x.fraction := by
          rw [Nat.one_shiftLeft]
          exact Nat.log2_self_le hpos
        have hhi : x.fraction < 1 <<< (x.fraction.log2 + 1) := by
          rw [Nat.one_shiftLeft]
          exact Nat.lt_log2_self
        generalize x.fraction.log2 = k at *
        rw [Double.narrow_ofFields hs (by omega) (normalized_fraction_lt hk hlo hhi)]
        refine back _ ?_
        rw [normalized_significand hk hlo, show 29 + (897 - (k + 874)) = 52 - k by omega, roundShift_shiftLeft,
          Nat.shiftLeft_eq, Nat.shiftLeft_eq]
        omega
    · -- A normal number.
      rw [Double.narrow_ofFields hs (by omega) (by rw [Nat.shiftLeft_eq]; omega)]
      refine back _ ?_
      have hsum : 0x10000000000000 + x.fraction <<< 29 = (0x800000 + x.fraction) <<< 29 := by
        rw [Nat.shiftLeft_eq, Nat.shiftLeft_eq]
        omega
      rw [hsum, show 29 + (897 - (x.exponent + 896)) = 29 by omega, roundShift_shiftLeft,
        Nat.shiftLeft_eq, Nat.shiftLeft_eq]
      omega

end ShaderModule

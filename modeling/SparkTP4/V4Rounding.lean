import Mathlib.Tactic.NormNum
import SparkTP4.V4Transcode

/-!
# The integer roundings of the V4 kernel

The kernel rounds on the bits of an fp32 number: to e4m3 by shifting its mantissa, to
bf16 by adding a half less the parity. Both cut low bits off the place of the number in
a stretch of the target format, so both are its nearest code, the even one of two.
-/

namespace V4Transcode

open BinaryFormat

variable {a : F32} {x : ℕ}

/-! ## Bits -/

theorem F32.bits_eq (h : a.mag < 2 ^ 31) : a.bits = a.sign.toNat * 2 ^ 31 + a.mag := by
  rw [F32.bits, ← Nat.shiftLeft_add_eq_or_of_lt h, Nat.shiftLeft_eq]

theorem F32.bits_sign (h : a.mag < 2 ^ 31) : (a.bits >>> 31) &&& 1 = a.sign.toNat := by
  have hsign : a.sign.toNat < 2 := Bool.toNat_lt _
  rw [F32.bits_eq h, Nat.shiftRight_eq_div_pow, show (1 : ℕ) = 2 ^ 1 - 1 from rfl,
    Nat.and_two_pow_sub_one_eq_mod]
  omega

theorem F32.bits_mag (h : a.mag < 2 ^ 31) : a.bits &&& 0x7FFFFFFF = a.mag := by
  rw [F32.bits_eq h, show 0x7FFFFFFF = 2 ^ 31 - 1 from rfl, Nat.and_two_pow_sub_one_eq_mod]
  omega

theorem F32.ofBits_of_lt (h : x < 2 ^ 31) : F32.ofBits x = ⟨false, x⟩ := by
  rw [F32.ofBits, Nat.shiftRight_eq_div_pow, Nat.div_eq_of_lt h,
    show 0x7FFFFFFF = 2 ^ 31 - 1 from rfl, Nat.and_two_pow_sub_one_eq_mod, Nat.mod_eq_of_lt h]
  simp

/-- The mantissa with its hidden bit. -/
theorem mantissa_eq (x : ℕ) : (x &&& 0x7FFFFF) ||| 0x800000 = 2 ^ 23 + x % 2 ^ 23 := by
  have hlt : x % 2 ^ 23 < 2 ^ 23 := Nat.mod_lt _ (Nat.two_pow_pos 23)
  rw [show 0x7FFFFF = 2 ^ 23 - 1 from rfl, Nat.and_two_pow_sub_one_eq_mod, Nat.or_comm,
    show 0x800000 = 1 <<< 23 from rfl, ← Nat.shiftLeft_add_eq_or_of_lt hlt]
  rfl

/-! ## Values -/

theorem binary32_normal (h : 2 ^ 23 ≤ x) :
    binary32.value x = (2 ^ 23 + x % 2 ^ 23 : ℕ) * 2 ^ ((x / 2 ^ 23 : ℕ) - 150 : ℤ) := by
  have hlt : x % 2 ^ 23 < 2 ^ 23 := Nat.mod_lt _ (Nat.two_pow_pos 23)
  have hstretch : binary32.InStretch (x / 2 ^ 23 - 1) (2 ^ 23 + x % 2 ^ 23) := by
    refine ⟨.inr (Nat.le_add_right _ _), ?_⟩
    show 2 ^ 23 + x % 2 ^ 23 ≤ 2 ^ 24
    omega
  have hcode : x = (x / 2 ^ 23 - 1) * 2 ^ 23 + (2 ^ 23 + x % 2 ^ 23) := by omega
  have hexp : (-149 : ℤ) + (x / 2 ^ 23 - 1 : ℕ) = (x / 2 ^ 23 : ℕ) - 150 := by omega
  rw [← hexp]
  conv_lhs => rw [hcode]
  exact value_stretch hstretch

theorem binary32_subnormal (h : x < 2 ^ 23) : binary32.value x = x * 2 ^ (-149 : ℤ) := by
  have hstretch : binary32.InStretch 0 x := by
    refine ⟨.inl rfl, ?_⟩
    show x ≤ 2 ^ 24
    omega
  have hvalue := value_stretch hstretch
  rwa [Nat.zero_mul, Nat.zero_add] at hvalue

/-! ## To e4m3 -/

/-- The code `v41cE4m3Rn` computes of a magnitude. -/
def e4m3Code (x : ℕ) : ℕ :=
  if x = 0 then 0
  else if 121 ≤ x / 2 ^ 23 then shiftEven (2 ^ 23 + x % 2 ^ 23) 19 + (x / 2 ^ 23 - 121) * 8
  else shiftEven (2 ^ 23 + x % 2 ^ 23) (Min.min (141 - x / 2 ^ 23) 30 - 1)

theorem v41cE4m3Rn_eq (h : a.mag < 2 ^ 31) :
    v41cE4m3Rn a = (a.sign.toNat <<< 7) ||| e4m3Code a.mag := by
  unfold v41cE4m3Rn e4m3Code shiftEven
  dsimp only
  rw [F32.bits_sign h, F32.bits_mag h, mantissa_eq]
  generalize a.mag = x
  simp only [Nat.shiftRight_eq_div_pow, Nat.one_shiftLeft, Nat.and_two_pow_sub_one_eq_mod,
    Nat.and_one_is_mod]
  by_cases hzero : x = 0
  · simp only [hzero, if_true]
  by_cases hnormal : 121 ≤ x / 2 ^ 23
  · have hexp : (-6 : ℤ) ≤ (x / 2 ^ 23 : ℕ) - 127 := by omega
    have hfield : (((x / 2 ^ 23 : ℕ) : ℤ) - 127 + 6).toNat = x / 2 ^ 23 - 121 := by omega
    simp only [if_neg hzero, if_pos hnormal, if_pos hexp, hfield, Nat.shiftLeft_eq]
  · have hexp : ¬(-6 : ℤ) ≤ (x / 2 ^ 23 : ℕ) - 127 := by omega
    have hshift : (Min.min (14 - (((x / 2 ^ 23 : ℕ) : ℤ) - 127)) 30).toNat =
        Min.min (141 - x / 2 ^ 23) 30 - 1 + 1 := by omega
    simp only [if_neg hzero, if_neg hnormal, if_neg hexp, hshift, Nat.add_sub_cancel, Nat.add_zero]

/-- Below the least half of a subnormal the code is 0: the shift, which is capped, leaves no
bit of the mantissa. -/
theorem e4m3Code_of_lt (h : x < 111 * 2 ^ 23) : e4m3Code x = 0 := by
  have hlt : x % 2 ^ 23 < 2 ^ 23 := Nat.mod_lt _ (Nat.two_pow_pos 23)
  have hfield : ¬121 ≤ x / 2 ^ 23 := by omega
  have hcap : Min.min (141 - x / 2 ^ 23) 30 - 1 = 29 := by omega
  have hkeep : (2 ^ 23 + x % 2 ^ 23) / 2 ^ (29 + 1) = 0 := Nat.div_eq_of_lt (by omega)
  have hcut : (2 ^ 23 + x % 2 ^ 23) % 2 ^ (29 + 1) = 2 ^ 23 + x % 2 ^ 23 :=
    Nat.mod_eq_of_lt (by omega)
  have hdown : ¬(2 ^ 29 < 2 ^ 23 + x % 2 ^ 23 ∨ 2 ^ 23 + x % 2 ^ 23 = 2 ^ 29 ∧ 0 % 2 = 1) := by
    omega
  unfold e4m3Code
  rw [if_neg hfield, hcap, shiftEven, hkeep, hcut, if_neg hdown, ite_self]

/-- **The code is the nearest**, the even one of two. -/
theorem isNearestEven_e4m3Code (x : ℕ) : e4m3.IsNearestEven (binary32.value x) (e4m3Code x) := by
  have hfrac : 0 < e4m3.frac := Nat.succ_pos 2
  have hlt : x % 2 ^ 23 < 2 ^ 23 := Nat.mod_lt _ (Nat.two_pow_pos 23)
  by_cases hsmall : x < 111 * 2 ^ 23
  · -- less than half of the least subnormal
    have hvalue : binary32.value x < 2 ^ (-16 : ℤ) := by
      refine (value_lt_value.mpr hsmall).trans_eq ?_
      rw [binary32_normal (by norm_num)]
      norm_num
    have hnonneg := binary32.value_nonneg x
    norm_num at hvalue
    have hscale : binary32.value x / 2 ^ (-9 : ℤ) = binary32.value x * 512 := by
      rw [div_eq_mul_inv]
      norm_num
    have hround : IsRoundEven (binary32.value x / 2 ^ (-9 : ℤ)) 0 := by
      rw [IsRoundEven, Nat.cast_zero, sub_zero, hscale, abs_of_nonneg (by positivity)]
      exact ⟨by linarith, fun h => by linarith⟩
    have hunit : binary32.value x = binary32.value x / 2 ^ (-9 : ℤ) * 2 ^ (e4m3.emin + (0 : ℕ)) :=
      (div_mul_cancel₀ _ (zpow_ne_zero _ two_ne_zero)).symm
    have hhi : binary32.value x / 2 ^ (-9 : ℤ) ≤ 2 ^ (e4m3.frac + 1) := by
      show _ ≤ (2 : ℚ) ^ 4
      rw [hscale]
      linarith
    rw [e4m3Code_of_lt hsmall]
    exact isNearestEven_of_stretch hfrac hunit (.inl rfl) hhi hround
  have hcode := binary32_normal (x := x) (by omega)
  have hmlo : (2 ^ 23 : ℚ) ≤ (2 ^ 23 + x % 2 ^ 23 : ℕ) := by exact_mod_cast Nat.le_add_right _ _
  have hmhi : ((2 ^ 23 + x % 2 ^ 23 : ℕ) : ℚ) ≤ 2 ^ 24 := by
    exact_mod_cast (by omega : 2 ^ 23 + x % 2 ^ 23 ≤ 2 ^ 24)
  by_cases hnormal : 121 ≤ x / 2 ^ 23
  · -- a normal number keeps four bits of its mantissa
    have hround := isRoundEven_shiftEven (2 ^ 23 + x % 2 ^ 23) 19
    have hexp : ((x / 2 ^ 23 : ℕ) - 150 : ℤ) + (19 + 1 : ℕ) =
        e4m3.emin + (x / 2 ^ 23 - 121 : ℕ) := by
      show _ = (-9 : ℤ) + _
      omega
    rw [mul_zpow_shift _ _ (19 + 1), hexp] at hcode
    have hlo : (2 : ℚ) ^ e4m3.frac ≤ (2 ^ 23 + x % 2 ^ 23 : ℕ) / 2 ^ (19 + 1) := by
      show (2 : ℚ) ^ 3 ≤ _
      rw [le_div_iff₀ (by positivity)]
      exact le_trans (by norm_num) hmlo
    have hhi : ((2 ^ 23 + x % 2 ^ 23 : ℕ) : ℚ) / 2 ^ (19 + 1) ≤ 2 ^ (e4m3.frac + 1) := by
      show _ ≤ (2 : ℚ) ^ 4
      rw [div_le_iff₀ (by positivity)]
      exact hmhi.trans (by norm_num)
    rw [e4m3Code, if_neg (by omega), if_pos hnormal, Nat.add_comm]
    exact isNearestEven_of_stretch hfrac hcode (.inr hlo) hhi hround
  · -- a subnormal number keeps fewer
    have hcap : Min.min (141 - x / 2 ^ 23) 30 - 1 = 140 - x / 2 ^ 23 := by omega
    have hround := isRoundEven_shiftEven (2 ^ 23 + x % 2 ^ 23) (140 - x / 2 ^ 23)
    have hexp : ((x / 2 ^ 23 : ℕ) - 150 : ℤ) + (140 - x / 2 ^ 23 + 1 : ℕ) =
        e4m3.emin + (0 : ℕ) := by
      show _ = (-9 : ℤ) + _
      omega
    rw [mul_zpow_shift _ _ (140 - x / 2 ^ 23 + 1), hexp] at hcode
    have hhi : ((2 ^ 23 + x % 2 ^ 23 : ℕ) : ℚ) / 2 ^ (140 - x / 2 ^ 23 + 1) ≤
        2 ^ (e4m3.frac + 1) := by
      have hshift : (2 : ℚ) ^ 21 ≤ 2 ^ (140 - x / 2 ^ 23 + 1) :=
        pow_le_pow_right₀ one_le_two (by omega)
      show _ ≤ (2 : ℚ) ^ 4
      rw [div_le_iff₀ (by positivity)]
      calc _ ≤ (2 ^ 24 : ℚ) := hmhi
        _ ≤ 2 ^ 4 * 2 ^ 21 := by norm_num
        _ ≤ 2 ^ 4 * 2 ^ (140 - x / 2 ^ 23 + 1) := mul_le_mul_of_nonneg_left hshift (by norm_num)
    rw [e4m3Code, if_neg (by omega), if_neg hnormal, hcap, ← Nat.zero_add (shiftEven _ _),
      ← Nat.zero_mul (2 ^ e4m3.frac)]
    exact isNearestEven_of_stretch hfrac hcode (.inl rfl) hhi hround

/-! ## To bf16 -/

theorem v41cBf16_eq (h : a.mag < 2 ^ 31) :
    v41cBf16 a = a.sign.toNat * 2 ^ 15 + shiftEven a.mag 15 := by
  have heven : Even (a.sign.toNat * 2 ^ 15) := (Nat.even_pow.mpr ⟨even_two, by simp⟩).mul_left _
  unfold v41cBf16
  dsimp only
  rw [F32.bits_eq h, Nat.shiftRight_eq_div_pow, Nat.shiftRight_eq_div_pow, Nat.and_one_is_mod,
    show 0x7FFF = 2 ^ 15 - 1 from rfl, shiftEven_eq_carry _ 15, ← shiftEven_add heven]
  rw [Nat.mul_assoc, ← pow_add]

/-- **Adding a half less the parity rounds to the nearest bf16**, the even one of two. -/
theorem isNearestEven_bf16 (x : ℕ) :
    bfloat16.IsNearestEven (binary32.value x) (shiftEven x 15) := by
  obtain ⟨j, r, rfl, hlo, hhi⟩ := binary32.exists_stretch x
  have hvalue := value_stretch ⟨hlo, hhi.le⟩
  have hround := isRoundEven_shiftEven r 15
  have hexp : binary32.emin + j + (15 + 1 : ℕ) = bfloat16.emin + j := by
    show (-149 : ℤ) + j + 16 = -133 + j
    ring
  rw [mul_zpow_shift _ _ (15 + 1), hexp] at hvalue
  have heven : Even (j * 2 ^ bfloat16.frac) :=
    (Nat.even_pow.mpr ⟨even_two, Nat.succ_ne_zero 6⟩).mul_left j
  have hsplit : j * 2 ^ binary32.frac = j * 2 ^ bfloat16.frac * 2 ^ (15 + 1) := by
    rw [Nat.mul_assoc, ← pow_add]
    rfl
  conv => arg 3; rw [hsplit, shiftEven_add heven]
  refine isNearestEven_of_stretch (Nat.succ_pos 6) hvalue (hlo.imp_right fun h => ?_) ?_ hround
  · show (2 : ℚ) ^ 7 ≤ _
    have hr : (2 ^ 23 : ℚ) ≤ r := by exact_mod_cast h
    rw [le_div_iff₀ (by positivity)]
    exact le_trans (by norm_num) hr
  · show _ ≤ (2 : ℚ) ^ 8
    have hr : (r : ℚ) ≤ 2 ^ 24 := by exact_mod_cast hhi.le
    rw [div_le_iff₀ (by positivity)]
    exact hr.trans (by norm_num)

end V4Transcode

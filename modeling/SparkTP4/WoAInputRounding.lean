import SparkTP4.V4TranscodeExact
import SparkTP4.WoAInput

/-!
# The roundings of a row

Four facts carry the row. The exponent `e` is that of the fp32 product, rounded up
(`exponent_spec`). No value of the row exceeds `448 * 2 ^ e` (`amax_le`): the bf16 number
after `448 * 2 ^ e` is larger by a 224th, which the product does not lose. The product of
`448 * 2 ^ e` itself is rounded to `2 ^ e`, although the constant is a little above `1/448`
(`exponent_le`), so a row that has been rounded gets no larger exponent. And adding
`1.5 * 2 ^ 23` rounds to an integer, the even one of two, on the stretch of e4m3 the number
lies in (`e4m3Round_eq`).
-/

namespace WoAInput

open BinaryFormat V4Transcode

variable {a b : F32} {f : ℕ → F32} {x : ℕ → ℕ} {i : ℕ} {e : ℤ} {n w : ℕ}

/-! ## Powers of two -/

theorem ofBits_power (hn : 0 < n) (hn' : n < 256) : (F32.ofBits (n <<< 23)).sign = false ∧
    (F32.ofBits (n <<< 23)).magnitude = 2 ^ (n - 127 : ℤ) := by
  rw [Nat.shiftLeft_eq, F32.ofBits_of_lt (by omega)]
  exact ⟨rfl, value_power hn⟩

theorem pow2_spec (hlo : -127 < e) (hhi : e < 129) :
    (pow2 e).sign = false ∧ (pow2 e).magnitude = 2 ^ e := by
  have h := ofBits_power (show 0 < (e + 127).toNat by omega) (show (e + 127).toNat < 256 by omega)
  rw [show (((e + 127).toNat : ℕ) : ℤ) - 127 = e by omega] at h
  exact h

/-! ## bf16 words -/

theorem ofBf16_eq (w : ℕ) : ofBf16 w = ⟨w / 2 ^ 15 % 2 = 1, w % 2 ^ 15 * 2 ^ 16⟩ := by
  have hsign : (w <<< 16) >>> 31 = w / 2 ^ 15 := by
    rw [Nat.shiftLeft_eq, Nat.shiftRight_eq_div_pow]
    omega
  have hmag : (w <<< 16) &&& 0x7FFFFFFF = w % 2 ^ 15 * 2 ^ 16 := by
    rw [Nat.shiftLeft_eq, show 0x7FFFFFFF = 2 ^ 31 - 1 from rfl, Nat.and_two_pow_sub_one_eq_mod]
    omega
  rw [ofBf16, F32.ofBits, hsign, hmag, Nat.and_one_is_mod]

/-- A bf16 code with sixteen zeros after it is the fp32 code of the same number. -/
theorem value_bf16 (c : ℕ) : binary32.value (c * 2 ^ 16) = bfloat16.value c := by
  obtain ⟨j, r, rfl, hlo, hhi⟩ := bfloat16.exists_stretch c
  have hr : r < 256 := hhi
  have hstretch : binary32.InStretch j (r * 2 ^ 16) := by
    refine ⟨hlo.imp_right fun h => ?_, ?_⟩
    · have h7 : 2 ^ 7 ≤ r := h
      show 2 ^ 23 ≤ r * 2 ^ 16
      omega
    · show r * 2 ^ 16 ≤ 2 ^ 24
      omega
  have hcode : (j * 2 ^ bfloat16.frac + r) * 2 ^ 16 = j * 2 ^ binary32.frac + r * 2 ^ 16 := by
    show (j * 2 ^ 7 + r) * 2 ^ 16 = j * 2 ^ 23 + r * 2 ^ 16
    ring
  rw [hcode, value_stretch hstretch, value_stretch ⟨hlo, hhi.le⟩]
  show ((r * 2 ^ 16 : ℕ) : ℚ) * 2 ^ ((-149 : ℤ) + j) = r * 2 ^ ((-133 : ℤ) + j)
  have hexp : (-133 : ℤ) + j = (16 : ℕ) + (-149 + j) := by
    push_cast
    ring
  rw [hexp, zpow_add₀ two_ne_zero ((16 : ℕ) : ℤ), zpow_natCast, Nat.cast_mul, Nat.cast_pow,
    Nat.cast_ofNat, mul_assoc]

theorem magnitude_ofBf16 (w : ℕ) : (ofBf16 w).magnitude = bfloat16.value (w % 2 ^ 15) := by
  rw [ofBf16_eq]
  exact value_bf16 _

/-- The word of a number that bf16 holds. -/
theorem ofBf16_toBf16 {c : ℕ} (hval : bfloat16.value c = a.magnitude) (hc : c < 2 ^ 15) :
    ofBf16 a.toBf16 = a := by
  have hword : a.toBf16 = a.sign.toNat * 32768 + c := by
    rw [F32.toBf16, ← hval, round_value (Nat.succ_pos 6)]
  have hmod : (a.sign.toNat * 32768 + c) % 2 ^ 15 = c := by omega
  have hdiv : (a.sign.toNat * 32768 + c) / 2 ^ 15 = a.sign.toNat := by omega
  refine F32.ext_magnitude ?_ ?_
  · rw [ofBf16_eq, hword, hdiv]
    cases a.sign <;> rfl
  · rw [magnitude_ofBf16, hword, hmod, hval]

/-! ## The constants -/

/-- The fp32 constant of the source is above `1/448`. -/
theorem const_inv : (F32.const (1 / 448)).sign = false ∧
    (F32.const (1 / 448)).magnitude = 9586981 * 2 ^ (-32 : ℤ) := by
  have hconst : F32.const (1 / 448) = ⟨false, 0x3B124925⟩ := by decide +kernel
  rw [hconst]
  refine ⟨rfl, ?_⟩
  show binary32.value 0x3B124925 = _
  rw [binary32_normal (by norm_num)]
  norm_num

/-- The floor of the source. -/
theorem const_floor : (F32.const (1 / 10000)).sign = false ∧
    2 ^ (-14 : ℤ) ≤ (F32.const (1 / 10000)).magnitude ∧
      (F32.const (1 / 10000)).magnitude ≤ 27 * 2 ^ (-18 : ℤ) := by
  have hconst : F32.const (1 / 10000) = ⟨false, 0x38D1B717⟩ := by decide +kernel
  rw [hconst]
  have hvalue : (⟨false, 0x38D1B717⟩ : F32).magnitude = 13743895 * 2 ^ (-37 : ℤ) := by
    show binary32.value 0x38D1B717 = _
    rw [binary32_normal (by norm_num)]
    norm_num
  rw [hvalue]
  exact ⟨rfl, by norm_num, by norm_num⟩

/-! ## The exponent -/

/-- What is used of a row: its numbers are finite ones of bf16. -/
def Bf16Row (f : ℕ → F32) : Prop :=
  ∀ i < 32, ∃ c ≤ 0x7F7F, (f i).magnitude = bfloat16.value c

theorem bf16Row_ofBf16 (hx : ∀ i < 32, Finite (x i)) : Bf16Row fun i => ofBf16 (x i) :=
  fun i hi => ⟨x i % 2 ^ 15, by have := (hx i hi).2; omega, magnitude_ofBf16 (x i)⟩

theorem rowAmax_spec (hf : Bf16Row f) : (rowAmax f).sign = false ∧
    (∀ i < 32, (f i).magnitude ≤ (rowAmax f).magnitude) ∧
      ∃ c ≤ 0x7F7F, (rowAmax f).magnitude = bfloat16.value c := by
  have hsigns : ∀ y ∈ (List.range 32).map fun i => (f i).abs, y.sign = false := by
    simp [F32.abs]
  obtain ⟨hsign, hle, hmem⟩ := F32.amax_spec hsigns
  refine ⟨hsign, fun i hi => ?_, ?_⟩
  · exact hle (f i).abs (List.mem_map.mpr ⟨i, List.mem_range.mpr hi, rfl⟩)
  · obtain hzero | hmem := hmem
    · exact ⟨0, by simp, by rw [value_zero]; exact hzero⟩
    · obtain ⟨i, hi, heq⟩ := List.mem_map.mp hmem
      obtain ⟨c, hc, hval⟩ := hf i (List.mem_range.mp hi)
      exact ⟨c, hc, by rw [rowAmax, ← heq, F32.magnitude_abs, hval]⟩

/-- The product the exponent is taken from. -/
def scaleOf (f : ℕ → F32) : F32 := ((rowAmax f).max (.const (1 / 10000))).mul (.const (1 / 448))

/-- The product is the rounded one, of the largest magnitude or the floor. -/
theorem scaleOf_spec (hf : Bf16Row f) : (scaleOf f).sign = false ∧
    ∃ q : ℚ, (rowAmax f).magnitude ≤ q ∧ (F32.const (1 / 10000)).magnitude ≤ q ∧
      (q = (rowAmax f).magnitude ∨ q = (F32.const (1 / 10000)).magnitude) ∧
      binary32.IsNearestEven (q * (9586981 * 2 ^ (-32 : ℤ))) (scaleOf f).mag := by
  obtain ⟨hsign, -, -⟩ := rowAmax_spec hf
  obtain ⟨hfloor, -, -⟩ := const_floor
  obtain ⟨hinvSign, hinv⟩ := const_inv
  have hprod (y : F32) (hy : (rowAmax f).max (.const (1 / 10000)) = y) (hs : y.sign = false) :
      (scaleOf f).sign = false ∧
        binary32.IsNearestEven (y.magnitude * (9586981 * 2 ^ (-32 : ℤ))) (scaleOf f).mag := by
    rw [scaleOf, hy]
    refine ⟨?_, ?_⟩
    · show (y.sign ^^ (F32.const (1 / 448)).sign) = false
      rw [hs, hinvSign]
      rfl
    · show binary32.IsNearestEven _
        (binary32.round (y.magnitude * (F32.const (1 / 448)).magnitude))
      rw [hinv]
      exact isNearestEven_round (Nat.succ_pos 22)
        (mul_nonneg y.magnitude_nonneg (mul_nonneg (by norm_num) (zpow_nonneg two_pos.le _)))
  obtain ⟨heq, hcmp⟩ | ⟨heq, hcmp⟩ := F32.max_cases (rowAmax f) (.const (1 / 10000))
  · rw [F32.value_of_sign hsign, F32.value_of_sign hfloor] at hcmp
    obtain ⟨hs, hnear⟩ := hprod _ heq hsign
    exact ⟨hs, _, le_rfl, hcmp, .inl rfl, hnear⟩
  · rw [F32.value_of_sign hsign, F32.value_of_sign hfloor] at hcmp
    obtain ⟨hs, hnear⟩ := hprod _ heq hfloor
    exact ⟨hs, _, hcmp.le, le_rfl, .inr rfl, hnear⟩

/-- **The exponent is that of the product, rounded up.** -/
theorem exponent_spec (hf : Bf16Row f) : -22 ≤ exponent f ∧ exponent f ≤ 120 ∧
    (exponent f + 126).toNat * 2 ^ 23 < (scaleOf f).mag ∧
      (scaleOf f).mag ≤ (exponent f + 127).toNat * 2 ^ 23 := by
  obtain ⟨hsign, q, -, hlo, hq, hnear⟩ := scaleOf_spec hf
  obtain ⟨-, -, c, hc, hval⟩ := rowAmax_spec hf
  obtain ⟨-, hfloor, hfloor'⟩ := const_floor
  have hmin : 104 * 2 ^ 23 + 1 ≤ (scaleOf f).mag := by
    refine hnear.ge ?_
    have hle : (2 : ℚ) ^ (-14 : ℤ) ≤ q := hfloor.trans hlo
    rw [value_power_succ (by norm_num)]
    norm_num at hle ⊢
    linarith
  have hmax : (scaleOf f).mag ≤ 247 * 2 ^ 23 := by
    refine hnear.le ?_
    have hle : q ≤ 255 * 2 ^ (120 : ℕ) := by
      obtain rfl | rfl := hq
      · rw [hval, ← value_0x7F7F]
        exact value_le_value.mpr hc
      · exact hfloor'.trans (by norm_num)
    rw [value_power (by norm_num)]
    norm_num at hle ⊢
    linarith
  have hbits : (scaleOf f).bits = (scaleOf f).mag := by
    rw [F32.bits_eq (by omega), hsign, Bool.toNat_false, Nat.zero_mul, Nat.zero_add]
  have hexp : exponent f = ((scaleOf f).mag / 2 ^ 23 % 2 ^ 8 : ℕ) - 127 +
      if (scaleOf f).mag % 2 ^ 23 ≠ 0 then 1 else 0 := by
    rw [← hbits, ← Nat.and_two_pow_sub_one_eq_mod, ← Nat.and_two_pow_sub_one_eq_mod,
      ← Nat.shiftRight_eq_div_pow]
    rfl
  rw [hexp]
  split_ifs with hrest
  · omega
  · omega

/-- **No number of a row is too large for its exponent.** The bf16 number after `448 * 2 ^ e` is
`450 * 2 ^ e`, and its product is rounded to more than `2 ^ e`. -/
theorem amax_le (hf : Bf16Row f) : (rowAmax f).magnitude ≤ 448 * 2 ^ exponent f := by
  obtain ⟨hlo, hhi, -, hmag⟩ := exponent_spec hf
  obtain ⟨-, q, hq, -, -, hnear⟩ := scaleOf_spec hf
  obtain ⟨-, -, c, -, hval⟩ := rowAmax_spec hf
  generalize exponent f = e at hlo hhi hmag ⊢
  by_contra hgt
  rw [not_le] at hgt
  have hpos : (0 : ℚ) < 2 ^ e := zpow_pos two_pos e
  have hbf16 (r : ℕ) (hr : 128 ≤ r) (hr' : r ≤ 256) :
      bfloat16.value ((e + 134).toNat * 2 ^ bfloat16.frac + r) = 2 * r * 2 ^ e := by
    have hstretch : bfloat16.InStretch (e + 134).toNat r := ⟨.inr hr, hr'⟩
    have hexp : (-133 : ℤ) + (e + 134).toNat = e + 1 := by omega
    rw [value_stretch hstretch]
    show (r : ℚ) * 2 ^ ((-133 : ℤ) + (e + 134).toNat) = _
    rw [hexp, zpow_add_one₀ two_ne_zero]
    ring
  -- the magnitude is at least the next number
  have hnext : 450 * 2 ^ e ≤ (rowAmax f).magnitude := by
    have h224 := hbf16 224 (by simp) (by simp)
    have h225 := hbf16 225 (by simp) (by simp)
    have hlt : (e + 134).toNat * 2 ^ bfloat16.frac + 224 < c := by
      rw [← value_lt_value (F := bfloat16), ← hval, h224]
      norm_num at hgt ⊢
      linarith
    rw [hval]
    refine le_trans ?_ (value_le_value.mpr (Nat.succ_le_of_lt hlt))
    rw [Nat.succ_eq_add_one, Nat.add_assoc, h225]
    norm_num
  -- so the product is above the power of two
  have habove : (e + 127).toNat * 2 ^ 23 + 1 ≤ (scaleOf f).mag := by
    refine hnear.ge ?_
    have hexp : (((e + 127).toNat : ℕ) : ℤ) - 127 = e := by omega
    rw [value_power_succ (by omega), hexp]
    have hle := hnext.trans hq
    norm_num at hle ⊢
    linarith
  omega

theorem row_le (hf : Bf16Row f) (hi : i < 32) : (f i).magnitude ≤ 448 * 2 ^ exponent f :=
  ((rowAmax_spec hf).2.1 i hi).trans (amax_le hf)

/-- What is below the middle of two values is not rounded up. -/
theorem le_of_two_mul_lt {F : BinaryFormat} {q : ℚ} {c c' : ℕ} (h : F.IsNearestEven q c)
    (hq : 2 * q < F.value c' + F.value (c' + 1)) : c ≤ c' := by
  by_contra hlt
  rw [not_le] at hlt
  have hval : F.value (c' + 1) ≤ F.value c := value_le_value.mpr hlt
  have hstep : F.value c' < F.value (c' + 1) := value_lt_value.mpr (Nat.lt_succ_self c')
  have hnear := h.nearest c'
  rw [abs_of_nonpos (by linarith)] at hnear
  obtain hle | hge := le_total q (F.value c')
  · rw [abs_of_nonpos (by linarith)] at hnear
    linarith
  · rw [abs_of_nonneg (by linarith)] at hnear
    linarith

/-- **A row within `448 * 2 ^ e` has no larger exponent**: the product of the bound is rounded to
`2 ^ e`. -/
theorem exponent_le (hf : Bf16Row f) (he : -22 ≤ e)
    (hle : (rowAmax f).magnitude ≤ 448 * 2 ^ e) : exponent f ≤ e := by
  obtain ⟨-, -, hmag, -⟩ := exponent_spec hf
  obtain ⟨-, q, -, -, hq, hnear⟩ := scaleOf_spec hf
  obtain ⟨-, -, hfloor⟩ := const_floor
  have hpos : (2 : ℚ) ^ (-22 : ℤ) ≤ 2 ^ e := zpow_le_zpow_right₀ one_le_two he
  have hbound : q ≤ 448 * 2 ^ e := by
    obtain rfl | rfl := hq
    · exact hle
    · norm_num at hpos hfloor
      linarith
  have hcode : (scaleOf f).mag ≤ (e + 127).toNat * 2 ^ 23 := by
    refine le_of_two_mul_lt hnear ?_
    have hexp : (((e + 127).toNat : ℕ) : ℤ) - 127 = e := by omega
    rw [value_power (by omega), value_power_succ (by omega), hexp]
    have hpow : (0 : ℚ) < 2 ^ e := zpow_pos two_pos e
    norm_num
    linarith
  omega

/-! ## The quotient -/

/-- **The clamp changes nothing.** -/
theorem quotient_le (hf : Bf16Row f) (hi : i < 32) : (quotient f i).magnitude ≤ 448 := by
  obtain ⟨hlo, hhi, -, -⟩ := exponent_spec hf
  obtain ⟨-, hpow⟩ := pow2_spec (e := exponent f) (by omega) (by omega)
  have hle := row_le hf hi
  have hnear : binary32.IsNearestEven ((f i).magnitude / (pow2 (exponent f)).magnitude)
      (quotient f i).mag :=
    isNearestEven_round (Nat.succ_pos 22)
      (div_nonneg (f i).magnitude_nonneg (pow2 (exponent f)).magnitude_nonneg)
  rw [← magnitude_const_448]
  refine value_le_value.mpr (hnear.le ?_)
  show _ ≤ (F32.const 448).magnitude
  rw [magnitude_const_448, hpow, div_le_iff₀ (zpow_pos two_pos _)]
  exact hle

/-- Dividing by a power of two is multiplying with its inverse, rounding included. -/
theorem mul_inv_eq (hlo : -127 < e) (hhi : e < 127) (a : F32) :
    a.mul (.ofBits ((127 - e).toNat <<< 23)) = a.div (pow2 e) := by
  obtain ⟨hsign, hpow⟩ := pow2_spec hlo (by omega)
  obtain ⟨hsign', hpow'⟩ := ofBits_power (n := (127 - e).toNat) (by omega) (by omega)
  have hexp : (((127 - e).toNat : ℕ) : ℤ) - 127 = -e := by omega
  rw [F32.mul, F32.div, hsign, hsign', hpow, hpow', hexp, zpow_neg, div_eq_mul_inv]

/-! ## The emulated rounding -/

theorem magnitude_magic :
    (F32.const 12582912).sign = false ∧ (F32.const 12582912).magnitude = 12582912 := by
  refine ⟨F32.sign_const (by norm_num), ?_⟩
  rw [F32.magnitude_const (m := 3) (i := 22) (by norm_num) (by norm_num) (by norm_num)]
  norm_num

theorem add_of_pos {y : ℚ} (hy : 0 < y) (h : a.value + b.value = y) :
    add a b = ⟨false, binary32.round y⟩ := by
  unfold add
  dsimp only
  rw [h, if_neg hy.ne', abs_of_pos hy, decide_eq_false (not_lt.mpr hy.le)]

theorem add_of_zero (h : a.value + b.value = 0) : add a b = ⟨a.sign && b.sign, 0⟩ := by
  have hround : binary32.round 0 = 0 := by
    have hvalue := round_value (F := binary32) (Nat.succ_pos 22) 0
    rwa [value_zero] at hvalue
  unfold add
  dsimp only
  rw [h, if_pos rfl, abs_zero, hround]

/-- **Adding and subtracting `1.5 * 2 ^ 23` rounds to an integer**, the even one of two. -/
theorem magic_spec (hs : a.sign = false) (ha : a.magnitude ≤ 16) :
    (add (add a (.const 12582912)) (F32.const 12582912).neg).sign = false ∧
      (add (add a (.const 12582912)) (F32.const 12582912).neg).magnitude =
        roundEven a.magnitude := by
  obtain ⟨hmsign, hmagic⟩ := magnitude_magic
  have hnonneg := a.magnitude_nonneg
  have hround := isRoundEven_roundEven hnonneg
  generalize roundEven a.magnitude = k at hround ⊢
  have hk : k ≤ 16 := by
    have hnear := abs_le.mp hround.1
    have hcast : (k : ℚ) < 17 := by linarith
    exact Nat.lt_succ_iff.mp (by exact_mod_cast hcast)
  -- the sum lies where the unit is one
  have hsum : a.value + (F32.const 12582912).value = a.magnitude + 12582912 := by
    rw [F32.value_of_sign hs, F32.value_of_sign hmsign, hmagic]
  have hshift : IsRoundEven (a.magnitude + 12582912) (12582912 + k) := by
    have hdiff : a.magnitude + 12582912 - ((12582912 + k : ℕ) : ℚ) = a.magnitude - k := by
      push_cast
      ring
    rw [IsRoundEven, hdiff]
    exact ⟨hround.1, fun h => Even.add (by decide) (hround.2 h)⟩
  have hnear : binary32.IsNearestEven (a.magnitude + 12582912)
      (149 * 2 ^ binary32.frac + (12582912 + k)) := by
    refine isNearestEven_of_stretch (Nat.succ_pos 22) ?_ (.inr ?_) ?_ hshift
    · show _ = _ * (2 : ℚ) ^ ((-149 : ℤ) + 149)
      norm_num
    · show (2 : ℚ) ^ 23 ≤ _
      linarith
    · show _ ≤ (2 : ℚ) ^ 24
      linarith
  have hcode := hnear.unique (isNearestEven_round (Nat.succ_pos 22) (by linarith))
  have hfirst : add a (.const 12582912) = ⟨false, 149 * 2 ^ binary32.frac + (12582912 + k)⟩ := by
    rw [add_of_pos (by linarith) hsum, hcode]
  have hvalue : (add a (.const 12582912)).value = 12582912 + k := by
    have hstretch : binary32.InStretch 149 (12582912 + k) := by
      refine ⟨.inr ?_, ?_⟩
      · show 2 ^ 23 ≤ 12582912 + k
        omega
      · show 12582912 + k ≤ 2 ^ 24
        omega
    rw [hfirst]
    refine (value_stretch hstretch).trans ?_
    show ((12582912 + k : ℕ) : ℚ) * 2 ^ ((-149 : ℤ) + 149) = _
    push_cast
    norm_num
  have hneg : (F32.const 12582912).neg.value = -12582912 := by
    have hsign : (F32.const 12582912).neg.sign = true := by
      show (!(F32.const 12582912).sign) = true
      rw [hmsign]
      rfl
    rw [F32.value, if_pos hsign, F32.magnitude_neg, hmagic]
  have hdiff : (add a (.const 12582912)).value + (F32.const 12582912).neg.value = k := by
    rw [hvalue, hneg]
    ring
  obtain rfl | hpos := Nat.eq_zero_or_pos k
  · rw [Nat.cast_zero] at hdiff
    rw [add_of_zero hdiff, hfirst, Nat.cast_zero]
    exact ⟨rfl, value_zero binary32⟩
  · rw [add_of_pos (by exact_mod_cast hpos) hdiff]
    refine ⟨rfl, ?_⟩
    have hrep := value_round_dyadic (m := k) (i := 0) (by omega) (by simp)
    rw [zpow_zero, mul_one] at hrep
    exact hrep

/-- A magnitude with the sign bit of a number. -/
theorem ofBits_or_sign {m : ℕ} (hm : m < 2 ^ 31) (ha : a.mag < 2 ^ 31) :
    F32.ofBits (m ||| (a.bits &&& 0x80000000)) = ⟨a.sign, m⟩ := by
  have hsign : a.bits &&& 0x80000000 = a.sign.toNat <<< 31 := by
    have hbit : (a.bits.testBit 31).toNat = a.sign.toNat := by
      rw [Nat.toNat_testBit, F32.bits_eq ha]
      have hlt : a.sign.toNat < 2 := Bool.toNat_lt _
      omega
    rw [show 0x80000000 = 2 ^ 31 from rfl, Nat.and_two_pow, hbit, Nat.shiftLeft_eq]
  have hbits : m ||| (a.bits &&& 0x80000000) = (⟨a.sign, m⟩ : F32).bits := by
    rw [hsign, Nat.lor_comm]
    rfl
  have hs := F32.bits_sign (a := ⟨a.sign, m⟩) hm
  have hmag := F32.bits_mag (a := ⟨a.sign, m⟩) hm
  rw [hbits, F32.ofBits, hs, hmag]
  cases a.sign <;> rfl

/-- The stretch of e4m3 a number lies in, and its place there. -/
theorem e4m3_place (ha : a.mag < 136 * 2 ^ 23) :
    (a.mag / 2 ^ 23 - 121 = 0 ∨ 8 ≤ a.magnitude * 2 ^ (9 - (a.mag / 2 ^ 23 - 121 : ℕ) : ℤ)) ∧
      a.magnitude * 2 ^ (9 - (a.mag / 2 ^ 23 - 121 : ℕ) : ℤ) ≤ 16 ∧
      ∃ m : ℕ, ∃ i : ℤ, m ≤ 2 ^ 24 ∧ -149 ≤ i ∧
        a.magnitude * 2 ^ (9 - (a.mag / 2 ^ 23 - 121 : ℕ) : ℤ) = m * 2 ^ i := by
  generalize hj : a.mag / 2 ^ 23 - 121 = j
  have hpos : (0 : ℚ) < 2 ^ (9 - j : ℤ) := zpow_pos two_pos _
  refine ⟨?_, ?_, ?_⟩
  · obtain rfl | hj0 := Nat.eq_zero_or_pos j
    · exact .inl rfl
    · right
      have hle : (j + 121) * 2 ^ 23 ≤ a.mag := by omega
      have hval := value_le_value (F := binary32) |>.mpr hle
      rw [value_power (by omega)] at hval
      have hexp : (2 : ℚ) ^ (((j + 121 : ℕ) : ℤ) - 127) * 2 ^ (9 - j : ℤ) = 8 := by
        rw [← zpow_add₀ two_ne_zero, show ((j + 121 : ℕ) : ℤ) - 127 + (9 - j) = 3 by omega]
        norm_num
      rw [← hexp]
      exact mul_le_mul_of_nonneg_right hval hpos.le
  · have hle : a.mag ≤ (j + 122) * 2 ^ 23 := by omega
    have hval := value_le_value (F := binary32) |>.mpr hle
    rw [value_power (by omega)] at hval
    have hexp : (2 : ℚ) ^ (((j + 122 : ℕ) : ℤ) - 127) * 2 ^ (9 - j : ℤ) = 16 := by
      rw [← zpow_add₀ two_ne_zero, show ((j + 122 : ℕ) : ℤ) - 127 + (9 - j) = 4 by omega]
      norm_num
    rw [← hexp]
    exact mul_le_mul_of_nonneg_right hval hpos.le
  · obtain ⟨l, r, hcode, hlo, hhi⟩ := binary32.exists_stretch a.mag
    have hcode' : a.mag = l * 2 ^ 23 + r := hcode
    have hlo' : l = 0 ∨ 2 ^ 23 ≤ r := hlo
    have hhi' : r < 2 ^ 24 := hhi
    refine ⟨r, -149 + l + (9 - j), hhi'.le, by omega, ?_⟩
    have hmag : a.magnitude = r * 2 ^ ((-149 : ℤ) + l) := by
      rw [F32.magnitude, hcode]
      exact value_stretch ⟨hlo, hhi.le⟩
    rw [hmag, mul_assoc, ← zpow_add₀ two_ne_zero]

/-- **The emulated rounding** of a number of at most 448: its sign, and the nearest e4m3 value. -/
theorem e4m3Round_spec (ha : a.magnitude ≤ 448) : ∃ c ≤ 126, (e4m3Round a).sign = a.sign ∧
    (e4m3Round a).magnitude = e4m3.value c ∧ e4m3.IsNearestEven a.magnitude c := by
  have hlt : a.mag < 136 * 2 ^ 23 := by
    have h512 : binary32.value (136 * 2 ^ 23) = 512 := by
      rw [value_power (by norm_num)]
      norm_num
    rw [← value_lt_value (F := binary32), h512]
    exact lt_of_le_of_lt ha (by norm_num)
  obtain ⟨hlo, hhi, m, i, hm, hi, hdyadic⟩ := e4m3_place hlt
  have hbits : a.abs.bits = a.mag := by
    have hshape := F32.bits_eq (a := a.abs) (show a.abs.mag < 2 ^ 31 by show a.mag < _; omega)
    rw [hshape]
    simp [F32.abs]
  have hea : Max.max ((((a.abs.bits >>> 23) &&& 0xFF : ℕ) : ℤ) - 127) (-6) =
      (a.mag / 2 ^ 23 - 121 : ℕ) - 6 := by
    rw [hbits, Nat.shiftRight_eq_div_pow, show 0xFF = 2 ^ 8 - 1 from rfl,
      Nat.and_two_pow_sub_one_eq_mod]
    omega
  generalize hj : a.mag / 2 ^ 23 - 121 = j at hlo hhi hdyadic hea
  have hj14 : j ≤ 14 := by omega
  obtain ⟨hulpSign, hulp⟩ := ofBits_power (n := j + 118) (by omega) (by omega)
  obtain ⟨hinvSign, hinv⟩ := ofBits_power (n := 136 - j) (by omega) (by omega)
  rw [show ((136 - j : ℕ) : ℤ) - 127 = 9 - j by omega] at hinv
  rw [show ((j + 118 : ℕ) : ℤ) - 127 = -9 + j by omega] at hulp
  -- the place is exact
  have hplaceSign : (a.abs.mul (.ofBits ((136 - j) <<< 23))).sign = false := by
    show (false ^^ _) = false
    rw [hinvSign]
    rfl
  have hplace : (a.abs.mul (.ofBits ((136 - j) <<< 23))).magnitude =
      a.magnitude * 2 ^ (9 - j : ℤ) := by
    rw [hdyadic]
    refine F32.magnitude_mul hm hi ?_
    rw [F32.magnitude_abs, hinv, hdyadic]
  -- it is rounded to an integer
  obtain ⟨hroundSign, hround⟩ := magic_spec hplaceSign (hplace.trans_le hhi)
  rw [hplace] at hround
  have hint := isRoundEven_roundEven (mul_nonneg a.magnitude_nonneg (zpow_nonneg two_pos.le
    (9 - j : ℤ)))
  generalize roundEven (a.magnitude * 2 ^ (9 - j : ℤ)) = k at hround hint
  have hfrac : (2 : ℚ) ^ e4m3.frac = 8 := by
    show (2 : ℚ) ^ 3 = 8
    norm_num
  have hfrac' : (2 : ℚ) ^ (e4m3.frac + 1) = 16 := by
    show (2 : ℚ) ^ 4 = 16
    norm_num
  rw [← hfrac] at hlo
  rw [← hfrac'] at hhi
  have hstretch := hint.inStretch hlo hhi
  have hk : k ≤ 16 := hstretch.2
  have hnear : e4m3.IsNearestEven a.magnitude (j * 2 ^ e4m3.frac + k) := by
    refine isNearestEven_of_stretch (Nat.succ_pos 2) ?_ hlo hhi hint
    show _ = _ * (2 : ℚ) ^ ((-9 : ℤ) + j)
    rw [mul_assoc, ← zpow_add₀ two_ne_zero, show (9 - j : ℤ) + (-9 + j) = 0 by ring, zpow_zero,
      mul_one]
  -- and put back
  have hq : ((add (add (a.abs.mul (.ofBits ((136 - j) <<< 23))) (.const 12582912))
      (F32.const 12582912).neg).mul (.ofBits ((j + 118) <<< 23))).magnitude =
      e4m3.value (j * 2 ^ e4m3.frac + k) := by
    rw [value_stretch hstretch]
    refine F32.magnitude_mul (by omega) ?_ ?_
    · show -149 ≤ (-9 : ℤ) + j
      omega
    · rw [hround, hulp]
      rfl
  have hqSign : ((add (add (a.abs.mul (.ofBits ((136 - j) <<< 23))) (.const 12582912))
      (F32.const 12582912).neg).mul (.ofBits ((j + 118) <<< 23))).sign = false := by
    show (_ ^^ _) = false
    rw [hroundSign, hulpSign]
    rfl
  have hc : j * 2 ^ e4m3.frac + k ≤ 126 := hnear.le (ha.trans_eq value_126.symm)
  have hround' : e4m3Round a = ⟨a.sign, ((add (add (a.abs.mul (.ofBits ((136 - j) <<< 23)))
      (.const 12582912)) (F32.const 12582912).neg).mul (.ofBits ((j + 118) <<< 23))).mag⟩ := by
    have hmax : e4m3.value (j * 2 ^ e4m3.frac + k) ≤ 448 := by
      rw [← value_126]
      exact value_le_value.mpr hc
    have hqlt := mag_lt (hq.trans_le hmax)
    unfold e4m3Round
    dsimp only
    rw [hea, show ((j : ℤ) - 6 - 3 + 127).toNat = j + 118 by omega,
      show (127 - ((j : ℤ) - 6 - 3)).toNat = 136 - j by omega, F32.bits_eq hqlt, hqSign,
      Bool.toNat_false, Nat.zero_mul, Nat.zero_add]
    exact ofBits_or_sign hqlt (mag_lt ha)
  refine ⟨_, hc, ?_, ?_, hnear⟩
  · rw [hround']
  · rw [hround']
    exact hq

/-- The emulated rounding is the conversion. -/
theorem e4m3Round_eq (ha : a.magnitude ≤ 448) : e4m3Round a = .ofE4m3 a.toE4m3 := by
  obtain ⟨c, hc, hsign, hmag, hnear⟩ := e4m3Round_spec ha
  have hcode := hnear.unique (isNearestEven_round (Nat.succ_pos 2) a.magnitude_nonneg)
  have hbyte : a.toE4m3 = a.sign.toNat * 128 + c := by rw [F32.toE4m3, ← hcode]
  refine F32.ext_magnitude ?_ ?_
  · rw [hsign, hbyte]
    show a.sign = decide (128 ≤ a.sign.toNat * 128 + c)
    cases a.sign with
    | false => simpa using by omega
    | true => simp
  · rw [hmag, magnitude_ofE4m3, hbyte]
    congr 1
    omega

/-! ## Rows -/

/-- **A row of the kernel** is the row of the reference. -/
theorem qdqRow_eq (hf : Bf16Row f) (hi : i < 32) : qdqRow f i = product f i := by
  obtain ⟨hlo, hhi, -, -⟩ := exponent_spec hf
  have hle := quotient_le hf hi
  show (e4m3Round (clamp ((f i).mul (.ofBits ((127 - exponent f).toNat <<< 23))))).mul
    (pow2 (exponent f)) = (F32.ofE4m3 (clamp (quotient f i)).toE4m3).mul (pow2 (exponent f))
  rw [mul_inv_eq (by omega) (by omega)]
  show (e4m3Round (clamp (quotient f i))).mul _ = _
  rw [clamp_eq hle, e4m3Round_eq hle]

/-- The byte of a number of at most 448. -/
theorem toE4m3_spec (ha : a.magnitude ≤ 448) : ∃ c ≤ 126, e4m3.IsNearestEven a.magnitude c ∧
    (F32.ofE4m3 a.toE4m3).sign = a.sign ∧ (F32.ofE4m3 a.toE4m3).magnitude = e4m3.value c := by
  obtain ⟨c, hc, hsign, hmag, hnear⟩ := e4m3Round_spec ha
  rw [e4m3Round_eq ha] at hsign hmag
  exact ⟨c, hc, hnear, hsign, hmag⟩

/-- The product of an e4m3 value and the power of two of a row is exact, and bf16 holds it. -/
theorem mul_pow2_spec {c : ℕ} (hlo : -22 ≤ e) (hhi : e ≤ 120) (hc : c ≤ 126)
    (ha : a.magnitude = e4m3.value c) : (a.mul (pow2 e)).sign = a.sign ∧
      (a.mul (pow2 e)).magnitude = e4m3.value c * 2 ^ e ∧
      ∃ c' < 2 ^ 15, bfloat16.value c' = e4m3.value c * 2 ^ e := by
  obtain ⟨hsign, hpow⟩ := pow2_spec (e := e) (by omega) (by omega)
  obtain ⟨n, j, hn, -, hval⟩ := e4m3_dyadic (c := c) (by omega)
  have hdyadic : e4m3.value c * 2 ^ e = n * 2 ^ ((-9 : ℤ) + j + e) := by
    rw [hval, mul_assoc, ← zpow_add₀ two_ne_zero]
  refine ⟨?_, ?_, ?_⟩
  · show (a.sign ^^ (pow2 e).sign) = a.sign
    rw [hsign, Bool.xor_false]
  · rw [hdyadic]
    refine F32.magnitude_mul (by omega) (by omega) ?_
    rw [ha, hpow, hdyadic]
  · obtain ⟨c', hc'⟩ := bfloat16.exists_value_eq (show n ≤ 2 ^ 8 by omega)
      (show (-133 : ℤ) ≤ -9 + j + e by omega)
    refine ⟨c', ?_, hc'.trans hdyadic.symm⟩
    have hstretch : bfloat16.InStretch 255 128 :=
      ⟨.inr (show 128 ≤ 128 by simp), show 128 ≤ 256 by simp⟩
    have htop : bfloat16.value (2 ^ 15) = 2 ^ (129 : ℤ) := by
      refine (value_stretch hstretch).trans ?_
      show ((128 : ℕ) : ℚ) * 2 ^ ((-133 : ℤ) + 255) = _
      norm_num
    have hmax : e4m3.value c ≤ 448 := by
      rw [← value_126]
      exact value_le_value.mpr hc
    have hpow' : (2 : ℚ) ^ e ≤ 2 ^ (120 : ℤ) := zpow_le_zpow_right₀ one_le_two hhi
    rw [← value_lt_value (F := bfloat16), hc', ← hdyadic, htop]
    calc e4m3.value c * 2 ^ e ≤ 448 * 2 ^ (120 : ℤ) :=
          mul_le_mul hmax hpow' (zpow_nonneg two_pos.le e) (by norm_num)
      _ < 2 ^ (129 : ℤ) := by norm_num

/-- **A rounded number**: its sign, and an e4m3 value times the power of two, which bf16 holds. -/
theorem product_spec (hf : Bf16Row f) (hi : i < 32) : (product f i).sign = (f i).sign ∧
    ∃ c ≤ 126, (product f i).magnitude = e4m3.value c * 2 ^ exponent f ∧
      ∃ c' < 2 ^ 15, bfloat16.value c' = (product f i).magnitude := by
  obtain ⟨hlo, hhi, -, -⟩ := exponent_spec hf
  obtain ⟨hpowSign, -⟩ := pow2_spec (e := exponent f) (by omega) (by omega)
  have hle := quotient_le hf hi
  obtain ⟨c, hc, -, hsign, hmag⟩ := toE4m3_spec hle
  obtain ⟨hs, hm, hbf16⟩ := mul_pow2_spec hlo hhi hc hmag
  have hquot : (quotient f i).sign = (f i).sign := by
    show ((f i).sign ^^ (pow2 (exponent f)).sign) = _
    rw [hpowSign, Bool.xor_false]
  unfold product
  rw [clamp_eq hle]
  exact ⟨(hs.trans hsign).trans hquot, c, hc, hm, by rw [hm]; exact hbf16⟩

/-- The word of a rounded number is the number. -/
theorem ofBf16_product (hf : Bf16Row f) (hi : i < 32) :
    ofBf16 (product f i).toBf16 = product f i := by
  obtain ⟨-, c, -, -, c', hc', hval⟩ := product_spec hf hi
  exact ofBf16_toBf16 hval hc'

theorem rowAmax_le {y : ℚ} (hy : 0 ≤ y) (h : ∀ i < 32, (f i).magnitude ≤ y) :
    (rowAmax f).magnitude ≤ y := by
  have hsigns : ∀ z ∈ (List.range 32).map fun i => (f i).abs, z.sign = false := by
    simp [F32.abs]
  obtain ⟨-, -, hzero | hmem⟩ := F32.amax_spec hsigns
  · exact hzero.trans_le hy
  · obtain ⟨i, hi, heq⟩ := List.mem_map.mp hmem
    rw [rowAmax, ← heq, F32.magnitude_abs]
    exact h i (List.mem_range.mp hi)

/-- **A row of e4m3 values times a power of two is not rounded**, if no number is too large for
the power. -/
theorem product_of_exact (hf : Bf16Row f) (he : -22 ≤ e)
    (h : ∀ i < 32, ∃ c ≤ 126, (f i).magnitude = e4m3.value c * 2 ^ e) (hi : i < 32) :
    product f i = f i := by
  have hbound (j : ℕ) (hj : j < 32) : (f j).magnitude ≤ 448 * 2 ^ e := by
    obtain ⟨c, hc, hval⟩ := h j hj
    rw [hval, ← value_126]
    exact mul_le_mul_of_nonneg_right (value_le_value.mpr hc) (zpow_nonneg two_pos.le e)
  have hle := exponent_le hf he
    (rowAmax_le (mul_nonneg (by norm_num) (zpow_nonneg two_pos.le e)) hbound)
  obtain ⟨hlo, hhi, -, -⟩ := exponent_spec hf
  obtain ⟨hpowSign, hpow⟩ := pow2_spec (e := exponent f) (by omega) (by omega)
  obtain ⟨c, hc, hval⟩ := h i hi
  obtain ⟨n, j, hn, -, hdyadic⟩ := e4m3_dyadic (c := c) (by omega)
  have hmax := row_le hf hi
  -- the quotient has the bits of the number
  have hratio : (f i).magnitude / (pow2 (exponent f)).magnitude =
      n * 2 ^ ((-9 : ℤ) + j + (e - exponent f)) := by
    rw [hval, hpow, hdyadic, mul_div_assoc, ← zpow_sub₀ two_ne_zero, mul_assoc,
      ← zpow_add₀ two_ne_zero]
  have hquot : (quotient f i).magnitude = n * 2 ^ ((-9 : ℤ) + j + (e - exponent f)) := by
    show binary32.value (binary32.round ((f i).magnitude / (pow2 (exponent f)).magnitude)) = _
    rw [hratio]
    exact value_round_dyadic (by omega) (by omega)
  obtain ⟨c', hc'⟩ := e4m3.exists_value_eq (show n ≤ 2 ^ 4 by omega)
    (show (-9 : ℤ) ≤ -9 + j + (e - exponent f) by omega)
  have hle448 := quotient_le hf hi
  obtain ⟨c'', hc'', hnear, hsign, hmag⟩ := toE4m3_spec hle448
  have hcode : c'' = c' := by
    rw [hquot, ← hc'] at hnear
    exact hnear.unique (e4m3.isNearestEven_value c')
  obtain ⟨hs, hm, -⟩ := mul_pow2_spec hlo hhi hc'' hmag
  unfold product
  rw [clamp_eq hle448]
  refine F32.ext_magnitude ?_ ?_
  · rw [hs, hsign]
    show ((f i).sign ^^ (pow2 (exponent f)).sign) = _
    rw [hpowSign, Bool.xor_false]
  · rw [hm, hcode, hc', ← hratio, hpow, div_mul_cancel₀ _ (zpow_ne_zero _ two_ne_zero)]

/-- **Rounding twice is rounding once.** -/
theorem referenceRow_idem (hx : ∀ i < 32, Finite (x i))
    (hfin : ∀ i < 32, Finite (referenceRow x i)) (hi : i < 32) :
    referenceRow (referenceRow x) i = referenceRow x i := by
  have hf := bf16Row_ofBf16 hx
  have hf' := bf16Row_ofBf16 hfin
  obtain ⟨hlo, -, -, -⟩ := exponent_spec hf
  have hword (j : ℕ) (hj : j < 32) : ofBf16 (referenceRow x j) =
      product (fun i => ofBf16 (x i)) j := ofBf16_product hf hj
  have hsame := product_of_exact hf' hlo
    (fun j hj => by
      obtain ⟨-, c, hc, hval, -⟩ := product_spec hf hj
      exact ⟨c, hc, by rw [hword j hj, hval]⟩) hi
  show (product (fun i => ofBf16 (referenceRow x i)) i).toBf16 = _
  rw [hsame, hword i hi]
  rfl

end WoAInput

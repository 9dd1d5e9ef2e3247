import Mathlib.Data.Int.Log
import Mathlib.Tactic.NormNum
import SparkTP4.WoATwin

/-!
# A wo_a twin is exact

A twin that is made rebuilds its weight whatever the exponents are: the builder compares,
and its element at an offset is scaled with the exponent the kernels find for that
offset (`rebuilt_entry`).

That a checkpoint weight has a twin rests on the exponent of a block lying between two
bounds (`exists_exponent`). It is at most the exponent of the checkpoint, so every e4m3
value has room for the shift; and it is large enough for the largest value of the block
to stay within 448. For the second, a value that is too large is so by a fourteenth, the
distance from 448 to the next number of four bits, which neither the rounding of the
division nor `log2` may lose.
-/

namespace WoATwin

open BinaryFormat FloatDatum

variable {log2 : ℚ → ℚ} {w : Weight} {t : Twin}

/-! ## A twin rebuilds its weight -/

theorem ceilLog2_bounds {d : FloatDatum} {e : ℤ} (h : ceilLog2 log2 d = some e) :
    -127 ≤ e ∧ e ≤ 127 := by
  cases d with
  | nan => exact nomatch h
  | inf s =>
    obtain rfl : 127 = e := Option.some.inj h
    simp
  | fin s x =>
    obtain rfl : min (max ⌈log2 x⌉ (-127)) 127 = e := Option.some.inj h
    exact ⟨le_min (le_max_right _ _) (by simp), min_le_right _ _⟩

/-- An exponent survives its byte. -/
theorem exponentByte_sub {e : ℤ} (hlo : -127 ≤ e) (hhi : e ≤ 127) :
    (exponentByte (some e) : ℤ) - 127 = e := by
  show (((e + 127).toNat % 256 : ℕ) : ℤ) - 127 = e
  omega

theorem mul_nan (d : FloatDatum) : d.mul .nan = .nan := by
  cases d <;> rfl

/-- **An element that compares equal is rebuilt.** -/
theorem back_eq {p : ℕ} (h : (back log2 w p).same (w p).datum = true) :
    ∃ e, exponentAt log2 w p = some e ∧ back log2 w p = (w p).datum := by
  cases he : exponentAt log2 w p with
  | none =>
    rw [back, he, exp2, mul_nan] at h
    exact nomatch h
  | some e =>
    refine ⟨e, rfl, ?_⟩
    have hpos : (2 : ℚ) ^ e ≠ 0 := zpow_ne_zero e two_ne_zero
    cases hd : (w p).datum with
    | nan =>
      rw [hd] at h
      cases hb : back log2 w p <;> rw [hb] at h <;> exact nomatch h
    | inf s =>
      have hq : quotient log2 w p = .inf s := by
        rw [quotient, hd, he]
        simp [exp2, FloatDatum.div]
      rw [back, quantized, hq, toE4m3, ofE4m3_nan] at h
      exact nomatch h
    | fin s x =>
      rw [hd] at h
      have hq : HasSign s (quotient log2 w p) := by
        rw [quotient, hd, he]
        simpa [exp2, FloatDatum.div, fp32, hpos] using hasSign_rounded
      have hback : HasSign s (back log2 w p) := by
        rw [back, he]
        exact hq.e4m3.mul.toBf16
      exact hback.eq_of_same h

theorem makeTwin_eq_some (h : makeTwin log2 w = some t) :
    (∀ p < size, (back log2 w p).same (w p).datum = true) ∧ t.values = quantized log2 w ∧
      t.exponents = exponentBytes log2 w := by
  unfold makeTwin at h
  split_ifs at h with hall
  have ht := (Option.some.inj h).symm
  exact ⟨hall, by rw [ht], by rw [ht]⟩

/-- **The one layout**: what a kernel rebuilds of the byte of an element and the byte of its block
is the element. -/
theorem rebuilt_entry (h : makeTwin log2 w = some t) {g r c : ℕ} (hg : g < 2) (hr : r < 1024)
    (hc : c < 4096) :
    rebuilt (t.values ((g * 1024 + r) * 4096 + c))
        (t.exponents ((g * 32 + r / 32) * 128 + c / 32)) =
      w.entry g r c := by
  obtain ⟨hall, hvalues, hexponents⟩ := makeTwin_eq_some h
  have hp : (g * 1024 + r) * 4096 + c < size := by
    unfold size
    omega
  obtain ⟨e, he, hback⟩ := back_eq (hall _ hp)
  -- the block of the element, in the view and in the memory of the exponents
  have hview : exponentAt log2 w ((g * 1024 + r) * 4096 + c) =
      exponent log2 w g (r / 32) (c / 32) := by
    rw [exponentAt, show ((g * 1024 + r) * 4096 + c) / 4194304 = g by omega,
      show ((g * 1024 + r) * 4096 + c) / 131072 % 32 = r / 32 by omega,
      show ((g * 1024 + r) * 4096 + c) / 32 % 128 = c / 32 by omega]
  have hbyte : t.exponents ((g * 32 + r / 32) * 128 + c / 32) = exponentByte (some e) := by
    rw [hexponents, ← he, hview, exponentBytes,
      show ((g * 32 + r / 32) * 128 + c / 32) / 4096 = g by omega,
      show ((g * 32 + r / 32) * 128 + c / 32) / 128 % 32 = r / 32 by omega,
      show ((g * 32 + r / 32) * 128 + c / 32) % 128 = c / 32 by omega]
  have hblock := he
  rw [hview, exponent] at hblock
  obtain ⟨hlo, hhi⟩ := ceilLog2_bounds hblock
  rw [rebuilt, hbyte, exponentByte_sub hlo hhi, hvalues, ← he]
  exact hback

/-- **A twin that is made rebuilds its weight.** -/
theorem rebuilds_of_makeTwin (h : makeTwin log2 w = some t) : Rebuilds t w where
  small := by
    intro tile htile group hgroup split hsplit i hi kk hkk nn hnn
    have hrow : tile * 64 + nn < 1024 := by omega
    have hcol : split * 512 + i * 128 + kk < 4096 := by omega
    rw [← rebuilt_entry h hgroup hrow hcol, ← Nat.add_right_comm]
    rfl
  mid := by
    intro row hrow pidN hpid g hg pidK hpidK step hstep kk hkk nn hnn
    unfold midTile
    dsimp only
    have hbounds : pidN * row.2.bn + nn < 1024 ∧
        pidK * (4096 / row.2.splitK) + step * 128 + kk < 4096 := by
      simp only [midCfg, List.mem_cons, List.not_mem_nil, or_false] at hrow
      rcases hrow with rfl | rfl | rfl | rfl | rfl <;> dsimp only at * <;> omega
    have hentry := rebuilt_entry h hg hbounds.1 hbounds.2
    generalize pidN * row.2.bn + nn = n, pidK * (4096 / row.2.splitK) + step * 128 + kk = k at *
    rw [← hentry, ← show g * 1024 * 4096 + n * 4096 + k = (g * 1024 + n) * 4096 + k by omega,
      ← show g * 32 * 128 + n / 32 * 128 + k / 32 = (g * 32 + n / 32) * 128 + k / 32 by omega]
  dequant := by
    intro g hg rb hrb cb hcb i hi j hj
    have hrow : rb * 32 + i < 1024 := by omega
    have hcol : cb * 32 + j < 4096 := by omega
    have hentry := rebuilt_entry h hg hrow hcol
    have hoff : g * 1024 * 4096 + (rb * 32 + i) * 4096 + (cb * 32 + j) =
        (g * 1024 + (rb * 32 + i)) * 4096 + (cb * 32 + j) := by omega
    have hblock : g * 32 * 128 + rb * 128 + cb =
        (g * 32 + (rb * 32 + i) / 32) * 128 + (cb * 32 + j) / 32 := by omega
    unfold dequantStore
    dsimp only
    rw [hoff, hblock]
    exact hentry
  whole := by
    intro p hp
    unfold size at hp
    refine ⟨p / 4194304, by omega, p / 131072 % 32, by omega, p / 32 % 128, by omega,
      p / 4096 % 32, by omega, p % 32, by omega, ?_⟩
    show p / 4194304 * 1024 * 4096 + (p / 131072 % 32 * 32 + p / 4096 % 32) * 4096 +
      (p / 32 % 128 * 32 + p % 32) = p
    omega

/-! ## Numbers of few bits -/

theorem bfloat16_top : bfloat16.value 0x7F80 = 2 ^ (128 : ℤ) := by
  have hstretch : bfloat16.InStretch 254 (2 ^ 7) := ⟨.inr le_rfl, by show 2 ^ 7 ≤ 2 ^ 8; simp⟩
  have hvalue := value_stretch hstretch
  have hcode : 254 * 2 ^ bfloat16.frac + 2 ^ 7 = 0x7F80 := rfl
  rw [hcode] at hvalue
  rw [hvalue]
  show ((2 ^ 7 : ℕ) : ℚ) * 2 ^ ((-133 : ℤ) + 254) = 2 ^ (128 : ℤ)
  rw [Nat.cast_pow, Nat.cast_ofNat, ← zpow_natCast, ← zpow_add₀ two_ne_zero]
  norm_num

theorem e4m3_top : e4m3.value 126 = 448 := by
  have hstretch : e4m3.InStretch 14 14 :=
    ⟨.inr (by show 2 ^ 3 ≤ 14; simp), by show 14 ≤ 2 ^ 4; simp⟩
  have hvalue := value_stretch hstretch
  have hcode : 14 * 2 ^ e4m3.frac + 14 = 126 := rfl
  rw [hcode] at hvalue
  rw [hvalue]
  show (14 : ℚ) * 2 ^ ((-9 : ℤ) + 14) = 448
  norm_num

/-- The distance from fourteen to the next number of four bits. -/
theorem fifteen_le {r : ℕ} (hr : r ≤ 15) {i : ℤ} (h : 14 < (r : ℚ) * 2 ^ i) :
    15 ≤ (r : ℚ) * 2 ^ i := by
  have hcast : (r : ℚ) ≤ 15 := by exact_mod_cast hr
  obtain hneg | hpos := lt_or_ge i 0
  · have hhalf : (2 : ℚ) ^ i ≤ 2 ^ (-1 : ℤ) := zpow_le_zpow_right₀ one_le_two (by omega)
    have hmul : (r : ℚ) * 2 ^ i ≤ 15 * 2 ^ (-1 : ℤ) :=
      mul_le_mul hcast hhalf (zpow_nonneg two_pos.le _) (by norm_num)
    norm_num at hmul
    linarith
  · lift i to ℕ using hpos
    rw [zpow_natCast] at h ⊢
    have hnat : 14 < r * 2 ^ i := by exact_mod_cast h
    exact_mod_cast hnat

/-! ## The exponent of a block -/

/-- The fp32 quotient of a division by 448 of a number no larger than `448 * 2 ^ k`. -/
theorem exists_ratio {x : ℚ} {k : ℤ} (hk : -127 ≤ k) (hk' : k ≤ 127) (hx : 0 ≤ x)
    (hle : x ≤ 448 * 2 ^ k) : ∃ y, (FloatDatum.fin false x).div (.fin false 448) = .fin false y ∧
      y ≤ 2 ^ k ∧ ∀ z, (∃ c, binary32.value c = z) → z ≤ x / 448 → z ≤ y := by
  have hratio : x / 448 ≤ 2 ^ k := by
    rw [div_le_iff₀ (by norm_num)]
    linarith
  have hround : binary32.IsNearestEven (x / 448) (binary32.round (x / 448)) :=
    isNearestEven_round (Nat.succ_pos 22) (div_nonneg hx (by norm_num))
  obtain ⟨c, hc⟩ := binary32.exists_value_eq (m := 1) Nat.one_le_two_pow
    (show (-149 : ℤ) ≤ k by omega)
  rw [Nat.cast_one, one_mul] at hc
  have hpow : binary32.value (binary32.round (x / 448)) ≤ 2 ^ k := by
    rw [← hc, value_le_value]
    exact hround.le (hc ▸ hratio)
  refine ⟨_, ?_, hpow, ?_⟩
  · have hlt : (2 : ℚ) ^ k < 2 ^ (128 : ℤ) := zpow_lt_zpow_right₀ one_lt_two (by omega)
    have hfin : binary32.round (x / 448) < 0x7F800000 := by
      rw [← binary32.value_strictMono.lt_iff_lt, binary32_top]
      exact hpow.trans_lt hlt
    simp [FloatDatum.div, fp32, rounded, hfin]
  · rintro z ⟨c', rfl⟩ hz
    exact value_le_value.mpr (hround.ge hz)

/-- **The exponent of a block** is no larger than the checkpoint's, and large enough for the
largest value. -/
theorem exists_exponent (hlog : IsLog2 log2) (hsep : Separates log2) {x : ℚ} {k : ℤ}
    (hk : -127 ≤ k) (hk' : k ≤ 127) (hle : x ≤ 448 * 2 ^ k)
    (hx : x = 0 ∨ ∃ c, x = e4m3.value c * 2 ^ k) :
    ∃ e, ceilLog2 log2 ((FloatDatum.max (.fin false x) (.fin false (2 ^ (-126 : ℤ)))).div
      (.fin false 448)) = some e ∧ -127 ≤ e ∧ e ≤ k ∧ x ≤ 448 * 2 ^ e := by
  have hfloor : (2 : ℚ) ^ (-126 : ℤ) ≤ 448 * 2 ^ k := by
    have hpow : (2 : ℚ) ^ (-127 : ℤ) ≤ 2 ^ k := zpow_le_zpow_right₀ one_le_two hk
    have htwo : (2 : ℚ) ^ (-126 : ℤ) = 2 * 2 ^ (-127 : ℤ) := by norm_num
    linarith [zpow_pos (two_pos (α := ℚ)) (-127)]
  have hnonneg : (0 : ℚ) ≤ Max.max x (2 ^ (-126 : ℤ)) :=
    (zpow_nonneg two_pos.le _).trans (le_max_right _ _)
  obtain ⟨y, hdiv, hy, hge⟩ := exists_ratio hk hk' hnonneg (max_le hle hfloor)
  -- the quotient is not tiny
  have hlow : (2 : ℚ) ^ (-135 : ℤ) ≤ y := by
    refine hge _ ?_ ?_
    · obtain ⟨c, hc⟩ := binary32.exists_value_eq (m := 1) Nat.one_le_two_pow
        (show (-149 : ℤ) ≤ -135 by simp)
      exact ⟨c, by rw [hc, Nat.cast_one, one_mul]⟩
    · rw [le_div_iff₀ (by norm_num)]
      refine le_trans ?_ (le_max_right _ _)
      norm_num
  have hpos : 0 < y := (zpow_pos two_pos _).trans_le hlow
  have hupper : ⌈log2 y⌉ ≤ k := by
    rw [Int.ceil_le, ← hlog.exact k]
    exact hlog.mono y _ hpos hy
  have hlower : -135 ≤ ⌈log2 y⌉ := by
    have hlog2 : ((-135 : ℤ) : ℚ) ≤ log2 y := by
      rw [← hlog.exact (-135)]
      exact hlog.mono _ _ (zpow_pos two_pos _) hlow
    exact_mod_cast hlog2.trans (Int.le_ceil _)
  -- the largest value fits
  have hfits : x ≤ 448 * 2 ^ ⌈log2 y⌉ := by
    have hceil := Int.le_ceil (log2 y)
    by_contra hbig
    rw [not_le] at hbig
    obtain rfl | ⟨c, hc⟩ := hx
    · exact absurd hbig (not_lt.mpr (mul_nonneg (by norm_num) (zpow_nonneg two_pos.le _)))
    obtain ⟨r, hr, i, -, hvalue⟩ := e4m3_dyadic c
    generalize ⌈log2 y⌉ = l at *
    have hscaled : x = r * 2 ^ (i + k - 5 - l) * (2 ^ 5 * 2 ^ l) := by
      rw [hc, hvalue, ← zpow_natCast, ← zpow_add₀ two_ne_zero, mul_assoc, mul_assoc,
        ← zpow_add₀ two_ne_zero, ← zpow_add₀ two_ne_zero]
      congr 2
      push_cast
      ring
    have hunit : (0 : ℚ) < 2 ^ 5 * 2 ^ l := mul_pos (by norm_num) (zpow_pos two_pos _)
    have hgap : 15 ≤ (r : ℚ) * 2 ^ (i + k - 5 - l) := by
      refine fifteen_le hr ?_
      rw [hscaled, show (448 : ℚ) * 2 ^ l = 14 * (2 ^ 5 * 2 ^ l) by ring] at hbig
      exact lt_of_mul_lt_mul_right hbig hunit.le
    have hbeyond : 17 / 16 * 2 ^ l ≤ Max.max x (2 ^ (-126 : ℤ)) / 448 := by
      rw [le_div_iff₀ (by norm_num)]
      refine le_trans ?_ (le_max_left _ _)
      rw [hscaled]
      refine le_trans ?_ (mul_le_mul_of_nonneg_right hgap hunit.le)
      have hl : (0 : ℚ) < 2 ^ l := zpow_pos two_pos _
      linarith
    have hrep : ∃ c, binary32.value c = 17 / 16 * 2 ^ l := by
      obtain ⟨c, hc⟩ := binary32.exists_value_eq (m := 17) (by show 17 ≤ 2 ^ 24; simp)
        (show (-149 : ℤ) ≤ l - 4 by omega)
      refine ⟨c, ?_⟩
      rw [hc, zpow_sub₀ two_ne_zero]
      norm_num
      ring
    exact absurd hceil (not_le.mpr (hsep l y (hge _ hrep hbeyond)))
  refine ⟨min (max ⌈log2 y⌉ (-127)) 127, ?_, ?_, ?_, ?_⟩
  · rw [max_fin, hdiv]
    rfl
  · omega
  · omega
  · refine hfits.trans (mul_le_mul_of_nonneg_left ?_ (by norm_num))
    exact zpow_le_zpow_right₀ one_le_two (by omega)

/-! ## The elements of a block -/

/-- A finite bf16 number is a value of the format below its infinity. -/
theorem Bf16.datum_fin {b : Bf16} {s : Bool} {x : ℚ} (h : b.datum = .fin s x) :
    ∃ c < 0x7F80, bfloat16.value c = x := by
  unfold Bf16.datum decode at h
  split_ifs at h with hlt
  injection h with _ hx
  exact ⟨b.code, hlt, hx⟩

/-- **An element is recovered** under every exponent between the bounds. -/
theorem back_of_exponent {p c : ℕ} {k e : ℤ} {s : Bool}
    (hd : (w p).datum = .fin s (e4m3.value c * 2 ^ k)) (he : exponentAt log2 w p = some e)
    (hlo : -127 ≤ e) (hle : e ≤ k) (hfit : e4m3.value c * 2 ^ k ≤ 448 * 2 ^ e) :
    (∃ s x, quotient log2 w p = .fin s x ∧ x ≤ 448) ∧ (back log2 w p).same (w p).datum = true := by
  obtain ⟨r, hr, i, hi, hvalue⟩ := e4m3_dyadic c
  have hpos : (0 : ℚ) < 2 ^ e := zpow_pos two_pos e
  have hone : (1 : ℚ) ≤ 2 ^ (128 : ℤ) := one_le_zpow₀ one_le_two (by simp)
  -- the quotient has the same bits
  have hshift : e4m3.value c * 2 ^ k / 2 ^ e = r * 2 ^ (i + (k - e)) := by
    rw [hvalue, mul_div_assoc, ← zpow_sub₀ two_ne_zero, mul_assoc, ← zpow_add₀ two_ne_zero]
  have hmax : (r : ℚ) * 2 ^ (i + (k - e)) ≤ 448 := by
    rwa [← hshift, div_le_iff₀ hpos]
  have hquot : quotient log2 w p = .fin s (r * 2 ^ (i + (k - e))) := by
    have hrep := binary32.exists_value_eq (show r ≤ 2 ^ 24 by omega)
      (show (-149 : ℤ) ≤ i + (k - e) by omega)
    rw [quotient, hd, he]
    show (if (2 : ℚ) ^ e = 0 then _ else fp32 (s ^^ false) (e4m3.value c * 2 ^ k / 2 ^ e)) = _
    rw [if_neg hpos.ne', Bool.xor_false, hshift, fp32_of_lt hrep]
    have hexp : (448 : ℚ) < 2 ^ (128 : ℤ) := by norm_num
    exact hmax.trans_lt hexp
  -- so it is an e4m3 value
  obtain ⟨c', hc'⟩ := e4m3.exists_value_eq (show r ≤ 2 ^ 4 by omega)
    (show (-9 : ℤ) ≤ i + (k - e) by omega)
  have hlt : c' < 127 := by
    rw [← hc', ← e4m3_top, value_le_value] at hmax
    omega
  have hbyte : ofE4m3 (quantized log2 w p) = .fin s (r * 2 ^ (i + (k - e))) := by
    rw [quantized, hquot, ← hc']
    show ofE4m3 (s.toNat * 128 + Min.min (e4m3.round (e4m3.value c')) 127) = _
    rw [round_value (Nat.succ_pos 2), min_eq_left hlt.le, ofE4m3_byte hlt]
  -- and the product is the element
  obtain ⟨b, hb, hval⟩ := Bf16.datum_fin hd
  have hprod : (r : ℚ) * 2 ^ (i + (k - e)) * 2 ^ e = e4m3.value c * 2 ^ k := by
    rw [← hshift, div_mul_cancel₀ _ hpos.ne']
  have hrep : ∃ c, binary32.value c = bfloat16.value b := by
    rw [hval, hvalue, mul_assoc, ← zpow_add₀ two_ne_zero]
    exact binary32.exists_value_eq (show r ≤ 2 ^ 24 by omega) (show (-149 : ℤ) ≤ i + k by omega)
  have hfin : bfloat16.value b < 2 ^ (128 : ℤ) := by
    rw [← bfloat16_top]
    exact value_lt_value.mpr hb
  have hback : back log2 w p = .fin s (bfloat16.value b) := by
    rw [back, hbyte, he]
    show (fp32 (s ^^ false) ((r : ℚ) * 2 ^ (i + (k - e)) * 2 ^ e)).toBf16 = _
    rw [Bool.xor_false, hprod, ← hval, fp32_of_lt hrep hfin]
    exact rounded_of_value (Nat.succ_pos 6) hb rfl
  refine ⟨⟨s, _, hquot, hmax⟩, ?_⟩
  rw [hback, hd, hval]
  exact same_self

/-- The magnitude of a number. -/
def magnitude : FloatDatum → ℚ
  | .fin _ x => x
  | _ => 0

/-- **The largest magnitude of a block** of numbers. -/
theorem exists_blockAmax {g rb cb : ℕ}
    (h : ∀ i < 32, ∀ j < 32, ∃ s x, wf w g rb i cb j = .fin s x) :
    ∃ x, blockAmax w g rb cb = .fin false x ∧
      (x = 0 ∨ ∃ i < 32, ∃ j < 32, x = magnitude (wf w g rb i cb j)) ∧
      ∀ i < 32, ∀ j < 32, magnitude (wf w g rb i cb j) ≤ x := by
  have hlist : ((List.range 32).flatMap fun i => (List.range 32).map fun j =>
      (wf w g rb i cb j).abs) =
      ((List.range 32).flatMap fun i => (List.range 32).map fun j =>
        magnitude (wf w g rb i cb j)).map (.fin false) := by
    rw [List.map_flatMap]
    refine List.flatMap_congr fun i hi => ?_
    rw [List.map_map]
    refine List.map_congr_left fun j hj => ?_
    obtain ⟨s, x, hx⟩ := h i (List.mem_range.mp hi) j (List.mem_range.mp hj)
    rw [Function.comp_apply, hx]
    rfl
  obtain ⟨x, hfold, -, hall, hmem⟩ := foldl_max_fin
    ((List.range 32).flatMap fun i => (List.range 32).map fun j =>
      magnitude (wf w g rb i cb j)) 0
  refine ⟨x, ?_, hmem.imp_right fun hin => ?_, fun i hi j hj => hall _ ?_⟩
  · rw [blockAmax, hlist, hfold]
  · obtain ⟨i, hi, hin⟩ := List.mem_flatMap.mp hin
    obtain ⟨j, hj, rfl⟩ := List.mem_map.mp hin
    exact ⟨i, List.mem_range.mp hi, j, List.mem_range.mp hj, rfl⟩
  · exact List.mem_flatMap.mpr ⟨i, List.mem_range.mpr hi,
      List.mem_map.mpr ⟨j, List.mem_range.mpr hj, rfl⟩⟩

/-! ## The twin of a checkpoint weight -/

section Checkpoint

variable (hlog : IsLog2 log2) (hsep : Separates log2)

include hlog hsep

/-- **A block of a checkpoint weight.** -/
theorem block_recovered {g rb cb : ℕ} {k : ℤ} (hk : -127 ≤ k) (hk' : k ≤ 127)
    (h : ∀ i < 32, ∀ j < 32, ∃ s, ∃ c ≤ 126, wf w g rb i cb j = .fin s (e4m3.value c * 2 ^ k)) :
    ∃ e, exponent log2 w g rb cb = some e ∧ -127 ≤ e ∧ e ≤ 127 ∧
      ∀ p, exponentAt log2 w p = exponent log2 w g rb cb →
        (∃ i < 32, ∃ j < 32, (w p).datum = wf w g rb i cb j) →
          (∃ s x, quotient log2 w p = .fin s x ∧ x ≤ 448) ∧
            (back log2 w p).same (w p).datum = true := by
  obtain ⟨x, hamax, hmem, hall⟩ := exists_blockAmax fun i hi j hj =>
    have ⟨s, _, _, hc⟩ := h i hi j hj
    ⟨s, _, hc⟩
  have hvalue : x = 0 ∨ ∃ c ≤ 126, x = e4m3.value c * 2 ^ k := by
    refine hmem.imp_right ?_
    rintro ⟨i, hi, j, hj, rfl⟩
    obtain ⟨s, c, hc126, hc⟩ := h i hi j hj
    exact ⟨c, hc126, by rw [hc]; rfl⟩
  have hle : x ≤ 448 * 2 ^ k := by
    obtain rfl | ⟨c, hc, rfl⟩ := hvalue
    · exact mul_nonneg (by norm_num) (zpow_nonneg two_pos.le k)
    · rw [← e4m3_top]
      exact mul_le_mul_of_nonneg_right (value_le_value.mpr hc) (zpow_nonneg two_pos.le k)
  have hvalue : x = 0 ∨ ∃ c, x = e4m3.value c * 2 ^ k := hvalue.imp_right fun ⟨c, _, hc⟩ => ⟨c, hc⟩
  obtain ⟨e, he, hlo, hek, hfit⟩ := exists_exponent hlog hsep hk hk' hle hvalue
  refine ⟨e, ?_, hlo, hek.trans hk', ?_⟩
  · rw [exponent, hamax]
    exact he
  · rintro p hp ⟨i, hi, j, hj, hd⟩
    obtain ⟨s, c, -, hc⟩ := h i hi j hj
    have hmag := hall i hi j hj
    rw [hc] at hd hmag
    refine back_of_exponent hd ?_ hlo hek (le_trans hmag hfit)
    rw [hp, exponent, hamax]
    exact he

/-- **A checkpoint weight has a twin.** -/
theorem hasTwin_of_checkpoint (h : Checkpoint w) : ∃ t, HasTwin log2 w t := by
  have hblock (g : ℕ) (hg : g < 2) (rb : ℕ) (hrb : rb < 32) (cb : ℕ) (hcb : cb < 128) :
      ∃ e, exponent log2 w g rb cb = some e ∧ -127 ≤ e ∧ e ≤ 127 ∧
        ∀ p, exponentAt log2 w p = exponent log2 w g rb cb →
          (∃ i < 32, ∃ j < 32, (w p).datum = wf w g rb i cb j) →
            (∃ s x, quotient log2 w p = .fin s x ∧ x ≤ 448) ∧
            (back log2 w p).same (w p).datum = true := by
    obtain ⟨k, hk, hk', hall⟩ := h g hg rb hrb cb hcb
    refine block_recovered hlog hsep hk hk' fun i hi j hj => ?_
    obtain ⟨b, -, hb, hd⟩ := hall i hi j hj
    exact ⟨_, b % 128, by omega, hd⟩
  have helement (p : ℕ) (hp : p < size) :
      (∃ s x, quotient log2 w p = .fin s x ∧ x ≤ 448) ∧
        (back log2 w p).same (w p).datum = true := by
    unfold size at hp
    obtain ⟨e, -, -, -, hall⟩ := hblock (p / 4194304) (by omega) (p / 131072 % 32) (by omega)
      (p / 32 % 128) (by omega)
    refine hall p rfl ⟨p / 4096 % 32, by omega, p % 32, by omega, ?_⟩
    rw [wf, show (((p / 4194304 * 32 + p / 131072 % 32) * 32 + p / 4096 % 32) * 128 +
      p / 32 % 128) * 32 + p % 32 = p by omega]
  have hmade : makeTwin log2 w = some ⟨quantized log2 w, exponentBytes log2 w⟩ :=
    if_pos fun p hp => (helement p hp).2
  refine ⟨_, hmade, fun g hg rb hrb cb hcb => ?_, fun p hp => (helement p hp).1,
    rebuilds_of_makeTwin hmade⟩
  obtain ⟨e, he, hlo, hhi, -⟩ := hblock g hg rb hrb cb hcb
  exact ⟨e, he, by omega, by omega⟩

end Checkpoint

/-! ## Two logarithms -/

/-- `log2` rounded down. -/
def floorLog2 (x : ℚ) : ℚ := Int.log 2 x

theorem isLog2_floorLog2 : IsLog2 floorLog2 where
  exact j := by
    have hlog : Int.log 2 ((2 : ℕ) ^ j : ℚ) = j := Int.log_zpow Nat.one_lt_two j
    rw [floorLog2, ← Nat.cast_ofNat (R := ℚ), hlog]
  mono x y hx hxy := Int.cast_le.mpr (Int.log_mono_right hx hxy)

/-- A `log2` that is linear between powers of two. -/
def linearLog2 (x : ℚ) : ℚ := Int.log 2 x + (x / 2 ^ Int.log 2 x - 1)

theorem log_two_bounds {x : ℚ} (hx : 0 < x) :
    (2 : ℚ) ^ Int.log 2 x ≤ x ∧ x < 2 * 2 ^ Int.log 2 x := by
  have hlo := Int.zpow_log_le_self Nat.one_lt_two hx
  have hhi := Int.lt_zpow_succ_log_self Nat.one_lt_two x
  rw [Nat.cast_ofNat, zpow_add_one₀ two_ne_zero, mul_comm] at hhi
  exact ⟨by exact_mod_cast hlo, hhi⟩

theorem isLog2_linearLog2 : IsLog2 linearLog2 where
  exact j := by
    have hlog : Int.log 2 ((2 : ℕ) ^ j : ℚ) = j := Int.log_zpow Nat.one_lt_two j
    rw [Nat.cast_ofNat] at hlog
    rw [linearLog2, hlog, div_self (zpow_ne_zero j two_ne_zero), sub_self, add_zero]
  mono x y hx hxy := by
    have hpos (j : ℤ) : (0 : ℚ) < 2 ^ j := zpow_pos two_pos j
    obtain ⟨-, hhi⟩ := log_two_bounds hx
    obtain ⟨hlo, -⟩ := log_two_bounds (hx.trans_le hxy)
    have hmono : Int.log 2 x ≤ Int.log 2 y := Int.log_mono_right hx hxy
    unfold linearLog2
    obtain heq | hlt := hmono.eq_or_lt
    · rw [heq]
      linarith [div_le_div_of_nonneg_right hxy (hpos (Int.log 2 y)).le]
    · have hx2 : x / 2 ^ Int.log 2 x < 2 := (div_lt_iff₀ (hpos _)).mpr hhi
      have hy1 : 1 ≤ y / 2 ^ Int.log 2 y := (one_le_div₀ (hpos _)).mpr hlo
      have hcast : (Int.log 2 x : ℚ) + 1 ≤ Int.log 2 y := by exact_mod_cast hlt
      linarith

theorem separates_linearLog2 : Separates linearLog2 := by
  intro j x hx
  have hpos (j : ℤ) : (0 : ℚ) < 2 ^ j := zpow_pos two_pos j
  have hle : (2 : ℚ) ^ j ≤ x := le_trans (by linarith [hpos j]) hx
  obtain ⟨hlo, -⟩ := log_two_bounds ((hpos j).trans_le hle)
  have hj : j ≤ Int.log 2 x :=
    (Int.zpow_le_iff_le_log Nat.one_lt_two ((hpos j).trans_le hle)).mp hle
  unfold linearLog2
  obtain rfl | hlt := hj.eq_or_lt
  · have hratio : 17 / 16 ≤ x / 2 ^ Int.log 2 x := (le_div_iff₀ (hpos _)).mpr hx
    linarith
  · have hone : 1 ≤ x / 2 ^ Int.log 2 x := (one_le_div₀ (hpos _)).mpr hlo
    have hcast : (j : ℚ) < Int.log 2 x := by exact_mod_cast hlt
    linarith

/-! ## The round trip -/

/-- The weight of ones. -/
def ones : Weight := fun _ => ⟨false, 0x3F80, by decide⟩

theorem ones_datum (p : ℕ) : (ones p).datum = .fin false 1 := by
  show decode bfloat16 0x7F80 false 0x3F80 = _
  decide +kernel

theorem checkpoint_ones : Checkpoint ones := by
  refine fun g _ rb _ cb _ => ⟨0, by simp, by simp, fun i _ j _ => ⟨56, by simp, by simp, ?_⟩⟩
  rw [wf, ones_datum]
  decide +kernel

/-- **The round trip**, with a `log2` that is above `j` from `17/16 * 2 ^ j` on. -/
theorem twin_exact (hlog : IsLog2 log2) (hsep : Separates log2) : RoundTrip log2 where
  made _ h := hasTwin_of_checkpoint hlog hsep h
  exact _ _ h := rebuilds_of_makeTwin h

/-- The weight of ones has a twin. -/
theorem twin_exact_ones : ∃ t, HasTwin linearLog2 ones t :=
  (twin_exact isLog2_linearLog2 separates_linearLog2).made ones checkpoint_ones

theorem exponent_ones : exponent floorLog2 ones 0 0 0 = some (-9) := by
  have hwf (i j : ℕ) : wf ones 0 0 i 0 j = .fin false 1 := ones_datum _
  obtain ⟨x, hamax, hmem, hall⟩ := @exists_blockAmax ones 0 0 0
    fun i _ j _ => ⟨false, 1, hwf i j⟩
  have hone : (1 : ℚ) ≤ x := by simpa [hwf, magnitude] using hall 0 (by simp) 0 (by simp)
  obtain rfl : x = 1 := by
    obtain rfl | ⟨i, -, j, -, rfl⟩ := hmem
    · exact absurd hone (by norm_num)
    · rw [hwf, magnitude]
  have hmax : Max.max (1 : ℚ) (2 ^ (-126 : ℤ)) = 1 := max_eq_left (by norm_num)
  rw [exponent, hamax]
  show ceilLog2 floorLog2 ((FloatDatum.max _ _).div _) = _
  rw [max_fin, hmax]
  decide +kernel

/-- **Exact on powers of two and monotone is not enough**: a `log2` that rounds down makes the
exponent of a block of ones so small that its values exceed 448. -/
theorem not_roundTrip_floorLog2 : ¬∀ log2, IsLog2 log2 → RoundTrip log2 := by
  intro h
  obtain ⟨t, ht⟩ := (h floorLog2 isLog2_floorLog2).made ones checkpoint_ones
  obtain ⟨s, x, hq, hx⟩ := ht.le 0 (by simp [size])
  have hquot : quotient floorLog2 ones 0 = .fin false 512 := by
    rw [quotient, ones_datum, exponentAt, exponent_ones]
    decide +kernel
  rw [hquot] at hq
  injection hq with _ hval
  rw [← hval] at hx
  exact absurd hx (by norm_num)

end WoATwin

import Mathlib.Data.List.Perm.Basic
import Mathlib.Tactic.IntervalCases
import SparkTP4.V4Rounding

/-!
# The transcode is exact

The product of an e2m1 value and an e4m3 scale is a dyadic number of at most six bits.
So every product the transcode forms is exact, and the one division is all it rounds.
The exponent is taken from that quotient. A value that landed above 448 would be at
least 57 eighths of the power of two it is divided by, and a quotient that large is
not rounded down to the power of two: the clamp changes nothing
(`magnitude_scaled_le`).
-/

namespace V4Transcode

open BinaryFormat

variable {a b : F32} {m : ℕ} {i : ℤ} {q : ℚ}

/-! ## Exact operations -/

theorem F32.ext_magnitude (hs : a.sign = b.sign) (hm : a.magnitude = b.magnitude) : a = b := by
  obtain ⟨sa, ma⟩ := a
  obtain ⟨sb, mb⟩ := b
  have hmag : ma = mb := binary32.value_strictMono.injective hm
  simp only at hs
  rw [hs, hmag]

/-- A dyadic number of at most 24 bits is not rounded. -/
theorem value_round_dyadic (hm : m ≤ 2 ^ 24) (hi : -149 ≤ i) :
    binary32.value (binary32.round (m * 2 ^ i)) = m * 2 ^ i :=
  value_round_of_mem (Nat.succ_pos 22) (exists_value_eq _ hm hi)

theorem F32.magnitude_mul (hm : m ≤ 2 ^ 24) (hi : -149 ≤ i)
    (h : a.magnitude * b.magnitude = m * 2 ^ i) : (a.mul b).magnitude = m * 2 ^ i := by
  show binary32.value (binary32.round (a.magnitude * b.magnitude)) = _
  rw [h, value_round_dyadic hm hi]

theorem F32.magnitude_const (hm : m ≤ 2 ^ 24) (hi : -149 ≤ i) (h : |q| = m * 2 ^ i) :
    (F32.const q).magnitude = m * 2 ^ i := by
  show binary32.value (binary32.round |q|) = _
  rw [h, value_round_dyadic hm hi]

theorem F32.sign_const (hq : 0 ≤ q) : (F32.const q).sign = false :=
  decide_eq_false (not_lt.mpr hq)

theorem F32.sign_const_of_neg (hq : q < 0) : (F32.const q).sign = true := decide_eq_true hq

theorem F32.magnitude_nonneg (a : F32) : 0 ≤ a.magnitude := binary32.value_nonneg _

@[simp] theorem F32.magnitude_neg (a : F32) : a.neg.magnitude = a.magnitude := rfl

@[simp] theorem F32.magnitude_abs (a : F32) : a.abs.magnitude = a.magnitude := rfl

theorem F32.value_of_sign (h : a.sign = false) : a.value = a.magnitude := by
  simp [F32.value, h]

/-! ## Decoding -/

/-- The e2m1 magnitudes, as an odd number or zero times a power of two. -/
theorem e2m1_dyadic {c : ℕ} (hc : c < 8) : ∃ w : ℕ, ∃ u : ℤ, w ≤ 3 ∧ -1 ≤ u ∧ u ≤ 2 ∧
    e2m1Table.getD c 0 = w * 2 ^ u := by
  interval_cases c
  · exact ⟨0, 0, by norm_num, by norm_num, by norm_num, by norm_num [e2m1Table]⟩
  · exact ⟨1, -1, by norm_num, by norm_num, by norm_num, by norm_num [e2m1Table]⟩
  · exact ⟨1, 0, by norm_num, by norm_num, by norm_num, by norm_num [e2m1Table]⟩
  · exact ⟨3, -1, by norm_num, by norm_num, by norm_num, by norm_num [e2m1Table]⟩
  · exact ⟨1, 1, by norm_num, by norm_num, by norm_num, by norm_num [e2m1Table]⟩
  · exact ⟨3, 0, by norm_num, by norm_num, by norm_num, by norm_num [e2m1Table]⟩
  · exact ⟨1, 2, by norm_num, by norm_num, by norm_num, by norm_num [e2m1Table]⟩
  · exact ⟨3, 1, by norm_num, by norm_num, by norm_num, by norm_num [e2m1Table]⟩

theorem const_e2m1 {c : ℕ} (hc : c < 8) :
    (F32.const (e2m1Table.getD c 0)).sign = false ∧
      (F32.const (e2m1Table.getD c 0)).magnitude = e2m1Table.getD c 0 := by
  obtain ⟨w, u, hw, hlo, -, hval⟩ := e2m1_dyadic hc
  have hnonneg : 0 ≤ e2m1Table.getD c 0 := by rw [hval]; positivity
  refine ⟨F32.sign_const hnonneg, ?_⟩
  rw [F32.magnitude_const (by omega) (by omega) ((abs_of_nonneg hnonneg).trans hval), hval]

/-- The kernel reads the e2m1 magnitudes without a table. -/
theorem v41cMag_eq {c : ℕ} (hc : c < 8) : v41cMag c = F32.const (e2m1Table.getD c 0) := by
  have htable := const_e2m1 hc
  by_cases hlt : c < 4
  · have hhalf : (F32.const (1 / 2)).magnitude = (1 : ℕ) * 2 ^ (-1 : ℤ) :=
      F32.magnitude_const (by norm_num) (by norm_num) (by norm_num [abs_of_pos])
    have hcast : (F32.const c).magnitude = c * 2 ^ (0 : ℤ) :=
      F32.magnitude_const (by omega) (by norm_num) (by simp)
    have hprod : (F32.const c).magnitude * (F32.const (1 / 2)).magnitude = c * 2 ^ (-1 : ℤ) := by
      rw [hcast, hhalf]
      norm_num
    rw [v41cMag, if_pos hlt]
    refine F32.ext_magnitude ?_ ?_
    · rw [htable.1]
      show ((F32.const c).sign ^^ (F32.const (1 / 2)).sign) = false
      rw [F32.sign_const (Nat.cast_nonneg c), F32.sign_const (by norm_num)]
      rfl
    · rw [htable.2, F32.magnitude_mul (by omega) (by norm_num) hprod]
      interval_cases c <;> norm_num [e2m1Table]
  · interval_cases c <;> simp [v41cMag, e2m1Table]

/-- A scale is a number of four bits. -/
theorem e4m3_dyadic {c : ℕ} (hc : c < 128) : ∃ n : ℕ, ∃ j : ℕ, n < 16 ∧ j < 15 ∧
    e4m3.value c = n * 2 ^ (-9 + j : ℤ) := by
  obtain ⟨j, n, hcode, hlo, hhi⟩ := e4m3.exists_stretch c
  have hn : n < 16 := hhi
  have hj : c = j * 8 + n := hcode
  have hstart : j = 0 ∨ 8 ≤ n := hlo
  refine ⟨n, j, hn, by omega, ?_⟩
  rw [hcode]
  exact value_stretch ⟨hlo, hhi.le⟩

theorem magnitude_ofE4m3 {sb : ℕ} : (F32.ofE4m3 sb).magnitude = e4m3.value (sb % 128) := by
  obtain ⟨n, j, hn, -, hval⟩ := e4m3_dyadic (Nat.mod_lt sb (by norm_num : 0 < 128))
  show binary32.value (binary32.round (e4m3.value (sb % 128))) = _
  rw [hval]
  exact value_round_dyadic (by omega) (by omega)

/-- The two branches of the integer decoding, for the code of a magnitude. -/
theorem e4m3_branches {c : ℕ} (hc : c < 128) :
    (if c / 8 = 0 then (F32.const (c % 8 : ℕ)).mul (.const (1 / 512))
      else F32.ofBits (((c / 8 + 120) <<< 23) ||| ((c % 8) <<< 20))) =
      ⟨false, binary32.round (e4m3.value c)⟩ := by
  have hvalue : (⟨false, binary32.round (e4m3.value c)⟩ : F32).magnitude = e4m3.value c := by
    obtain ⟨n, j, hn, -, hval⟩ := e4m3_dyadic hc
    show binary32.value (binary32.round (e4m3.value c)) = _
    rw [hval]
    exact value_round_dyadic (by omega) (by omega)
  split_ifs with he
  · -- a subnormal scale is multiplied
    have hsmall : c < 8 := by omega
    have hstretch : e4m3.InStretch 0 c := ⟨.inl rfl, show c ≤ 16 by omega⟩
    have hcode := value_stretch hstretch
    rw [Nat.zero_mul, Nat.zero_add] at hcode
    have hcast : (F32.const (c : ℕ)).magnitude = c * 2 ^ (0 : ℤ) :=
      F32.magnitude_const (by omega) (by norm_num) (by simp)
    have hunit : (F32.const (1 / 512)).magnitude = (1 : ℕ) * 2 ^ (-9 : ℤ) :=
      F32.magnitude_const (by norm_num) (by norm_num) (by norm_num [abs_of_pos])
    have hprod : (F32.const (c : ℕ)).magnitude * (F32.const (1 / 512)).magnitude =
        c * 2 ^ (-9 : ℤ) := by
      rw [hcast, hunit]
      norm_num
    rw [Nat.mod_eq_of_lt hsmall]
    refine F32.ext_magnitude ?_ ?_
    · show ((F32.const c).sign ^^ (F32.const (1 / 512)).sign) = false
      rw [F32.sign_const (Nat.cast_nonneg c), F32.sign_const (by norm_num)]
      rfl
    · rw [hvalue, F32.magnitude_mul (by omega) (by norm_num) hprod, hcode]
      rfl
  · -- the bits of a normal scale are put in place
    have hbits : ((c / 8 + 120) <<< 23) ||| ((c % 8) <<< 20) =
        (c / 8 + 119) * 2 ^ 23 + (2 ^ 23 + c % 8 * 2 ^ 20) := by
      have hlow : (c % 8) <<< 20 < 2 ^ 23 := by
        rw [Nat.shiftLeft_eq]
        omega
      rw [← Nat.shiftLeft_add_eq_or_of_lt hlow, Nat.shiftLeft_eq, Nat.shiftLeft_eq]
      ring
    have hin : binary32.InStretch (c / 8 + 119) (2 ^ 23 + c % 8 * 2 ^ 20) :=
      ⟨.inr (Nat.le_add_right _ _), show 2 ^ 23 + c % 8 * 2 ^ 20 ≤ 2 ^ 24 by omega⟩
    have hin' : e4m3.InStretch (c / 8 - 1) (8 + c % 8) :=
      ⟨.inr (Nat.le_add_right _ _), show 8 + c % 8 ≤ 16 by omega⟩
    have hcode : c = (c / 8 - 1) * 2 ^ 3 + (8 + c % 8) := by omega
    have hexp : (-149 : ℤ) + (c / 8 + 119 : ℕ) = -9 + (c / 8 - 1 : ℕ) + (-20) := by omega
    rw [hbits, F32.ofBits_of_lt (by omega)]
    refine F32.ext_magnitude rfl ?_
    rw [hvalue]
    conv_rhs => rw [hcode]
    show binary32.value _ = e4m3.value ((c / 8 - 1) * 2 ^ e4m3.frac + (8 + c % 8))
    rw [value_stretch hin']
    refine (value_stretch hin).trans ?_
    show _ * 2 ^ ((-149 : ℤ) + _) = _ * 2 ^ ((-9 : ℤ) + _)
    rw [hexp, zpow_add₀ two_ne_zero]
    push_cast
    ring

/-- **The integer decoding of a scale** is the framework's. -/
theorem v41cE4m3Value_eq {sb : ℕ} (hsb : sb < 256) : v41cE4m3Value sb = F32.ofE4m3 sb := by
  have hfield : (sb >>> 3) &&& 15 = sb % 128 / 8 := by
    rw [Nat.shiftRight_eq_div_pow, show 15 = 2 ^ 4 - 1 from rfl, Nat.and_two_pow_sub_one_eq_mod]
    omega
  have hfrac : sb &&& 7 = sb % 128 % 8 := by
    rw [show 7 = 2 ^ 3 - 1 from rfl, Nat.and_two_pow_sub_one_eq_mod]
    omega
  have hbit : (sb &&& 128 ≠ 0) ↔ 128 ≤ sb := by
    have hall : ∀ b < 256, (b &&& 128 ≠ 0) ↔ 128 ≤ b := by decide +kernel
    exact hall sb hsb
  have hmag := e4m3_branches (Nat.mod_lt sb (by norm_num : 0 < 128))
  unfold v41cE4m3Value F32.ofE4m3
  dsimp only
  rw [hfield, hfrac, hmag]
  by_cases hneg : 128 ≤ sb
  · rw [if_pos (hbit.mpr hneg)]
    simp [F32.neg, hneg]
  · rw [if_neg (fun h => hneg (hbit.mp h))]
    simp [hneg]

/-- **The kernel decodes the record** as the reference does. -/
theorem v41cValue_eq {r : Record} (hr : ∀ i, r.scales i < 256) : v41cValue r = decodeRecords r := by
  funext k
  have hlow : codeAt r k &&& 7 < 8 := Nat.and_lt_two_pow _ (by norm_num : 7 < 2 ^ 3)
  unfold v41cValue decodeRecords
  dsimp only
  rw [v41cMag_eq hlow, v41cE4m3Value_eq (hr (k / 16))]

/-- **Every value of a record is exact**: a number of six bits. -/
theorem magnitude_decodeRecords (r : Record) (k : ℕ) : ∃ p : ℕ, ∃ i : ℤ, p ≤ 45 ∧ -10 ≤ i ∧ i ≤ 7 ∧
    (decodeRecords r k).magnitude = p * 2 ^ i ∧
    (decodeRecords r k).magnitude =
      e2m1Table.getD (codeAt r k &&& 7) 0 * e4m3.value (r.scales (k / 16) % 128) := by
  have hlow : codeAt r k &&& 7 < 8 := Nat.and_lt_two_pow _ (by norm_num : 7 < 2 ^ 3)
  obtain ⟨w, u, hw, hulo, huhi, hval⟩ := e2m1_dyadic hlow
  obtain ⟨n, j, hn, hj, hscale⟩ :=
    e4m3_dyadic (Nat.mod_lt (r.scales (k / 16)) (by norm_num : 0 < 128))
  have hbound : w * n ≤ 45 := (Nat.mul_le_mul hw (Nat.lt_succ_iff.mp hn)).trans (by norm_num)
  have hprod : e2m1Table.getD (codeAt r k &&& 7) 0 * e4m3.value (r.scales (k / 16) % 128) =
      (w * n : ℕ) * 2 ^ (u + (-9 + j)) := by
    rw [hval, hscale, mul_mul_mul_comm, ← zpow_add₀ two_ne_zero, Nat.cast_mul]
  have hmag : (decodeRecords r k).magnitude = (w * n : ℕ) * 2 ^ (u + (-9 + j)) := by
    have hcode : (if codeAt r k &&& 8 ≠ 0 then (F32.const (e2m1Table.getD (codeAt r k &&& 7) 0)).neg
        else F32.const (e2m1Table.getD (codeAt r k &&& 7) 0)).magnitude =
        e2m1Table.getD (codeAt r k &&& 7) 0 := by
      split_ifs
      · exact (const_e2m1 hlow).2
      · exact (const_e2m1 hlow).2
    unfold decodeRecords
    refine F32.magnitude_mul (hbound.trans (by norm_num)) (by omega) ?_
    rw [hcode, magnitude_ofE4m3, hprod]
  exact ⟨w * n, u + (-9 + j), hbound, by omega, by omega, hmag, hmag.trans hprod.symm⟩

/-! ## The largest magnitude of a group -/

theorem F32.max_cases (a b : F32) :
    a.max b = a ∧ b.value ≤ a.value ∨ a.max b = b ∧ a.value < b.value := by
  unfold F32.max
  split_ifs with h
  · exact .inr ⟨rfl, h⟩
  · exact .inl ⟨rfl, not_lt.mp h⟩

/-- The maximum of magnitudes is one of them, and no smaller than any. -/
theorem F32.amax_spec {xs : List F32} (hxs : ∀ x ∈ xs, x.sign = false) :
    (F32.amax xs).sign = false ∧ (∀ x ∈ xs, x.magnitude ≤ (F32.amax xs).magnitude) ∧
      ((F32.amax xs).magnitude = 0 ∨ F32.amax xs ∈ xs) := by
  -- from the left, with the maximum so far
  suffices h : ∀ acc : F32, acc.sign = false →
      (xs.foldl F32.max acc).sign = false ∧ acc.magnitude ≤ (xs.foldl F32.max acc).magnitude ∧
        (∀ x ∈ xs, x.magnitude ≤ (xs.foldl F32.max acc).magnitude) ∧
        (xs.foldl F32.max acc = acc ∨ xs.foldl F32.max acc ∈ xs) by
    obtain ⟨hsign, -, hle, hmem⟩ := h ⟨false, 0⟩ rfl
    refine ⟨hsign, hle, hmem.imp_left fun heq => ?_⟩
    rw [F32.amax, heq]
    exact value_zero binary32
  induction xs with
  | nil => exact fun acc hacc => ⟨hacc, le_rfl, fun x hx => absurd hx List.not_mem_nil, .inl rfl⟩
  | cons x xs ih =>
    intro acc hacc
    have hx := hxs x List.mem_cons_self
    have hrest := ih fun y hy => hxs y (List.mem_cons_of_mem x hy)
    rw [List.foldl_cons]
    obtain ⟨heq, hle⟩ | ⟨heq, hlt⟩ := F32.max_cases acc x
    · rw [F32.value_of_sign hx, F32.value_of_sign hacc] at hle
      obtain ⟨hsign, hacc', hall, hmem⟩ := hrest acc hacc
      rw [heq]
      exact ⟨hsign, hacc', List.forall_mem_cons.mpr ⟨hle.trans hacc', hall⟩,
        hmem.imp_right (List.mem_cons_of_mem x)⟩
    · rw [F32.value_of_sign hx, F32.value_of_sign hacc] at hlt
      obtain ⟨hsign, hx', hall, hmem⟩ := hrest x hx
      rw [heq]
      refine ⟨hsign, hlt.le.trans hx', List.forall_mem_cons.mpr ⟨hx', hall⟩, .inr ?_⟩
      exact List.mem_cons.mpr hmem

/-- What is used of the values of a record: each is a number of six bits. -/
def SixBits (v : ℕ → F32) : Prop :=
  ∀ k, ∃ p : ℕ, ∃ i : ℤ, p ≤ 45 ∧ -10 ≤ i ∧ i ≤ 7 ∧ (v k).magnitude = p * 2 ^ i

theorem sixBits_decodeRecords (r : Record) : SixBits (decodeRecords r) := fun k => by
  obtain ⟨p, i, hp, hlo, hhi, hval, -⟩ := magnitude_decodeRecords r k
  exact ⟨p, i, hp, hlo, hhi, hval⟩

variable {v : ℕ → F32} {t : ℕ}

/-- The largest magnitude of a group is one of six bits too. -/
theorem groupAmax_spec (hv : SixBits v) (t : ℕ) : (groupAmax v t).sign = false ∧
    (∀ j < 64, (v (t * 64 + j)).magnitude ≤ (groupAmax v t).magnitude) ∧
    ∃ p : ℕ, ∃ i : ℤ, p ≤ 45 ∧ i ≤ 7 ∧ (groupAmax v t).magnitude = p * 2 ^ i := by
  have hsigns : ∀ x ∈ (List.range 64).map fun j => (v (t * 64 + j)).abs, x.sign = false := by
    rw [List.forall_mem_map]
    exact fun j _ => rfl
  obtain ⟨hsign, hle, hmem⟩ := F32.amax_spec hsigns
  refine ⟨hsign, fun j hj => ?_, ?_⟩
  · exact hle (v (t * 64 + j)).abs (List.mem_map.mpr ⟨j, List.mem_range.mpr hj, rfl⟩)
  · obtain hzero | hmem := hmem
    · exact ⟨0, 0, by norm_num, by norm_num, by simpa [groupAmax] using hzero⟩
    · obtain ⟨j, -, hj⟩ := List.mem_map.mp hmem
      obtain ⟨p, i, hp, -, hi, hval⟩ := hv (t * 64 + j)
      refine ⟨p, i, hp, hi, ?_⟩
      rw [groupAmax, ← hj, F32.magnitude_abs, hval]

/-! ## The exponent -/

/-- The quotient the exponent is taken from. -/
def groupScale (v : ℕ → F32) (t : ℕ) : F32 :=
  ((groupAmax v t).max (.const (1 / 10000))).div (.const 448)

theorem magnitude_const_448 : (F32.const 448).magnitude = 448 := by
  rw [F32.magnitude_const (m := 7) (i := 6) (by norm_num) (by norm_num) (by norm_num)]
  norm_num

/-- The rounded `1e-4` is between two powers of two. -/
theorem magnitude_floor : (2 : ℚ) ^ (-14 : ℤ) ≤ (F32.const (1 / 10000)).magnitude ∧
    (F32.const (1 / 10000)).magnitude ≤ 2 ^ (-13 : ℤ) := by
  have hnear := isNearestEven_round (F := binary32) (Nat.succ_pos 22)
    (abs_nonneg (1 / 10000 : ℚ))
  have habs : |(1 / 10000 : ℚ)| = 1 / 10000 := abs_of_pos (by norm_num)
  obtain ⟨lo, hlo⟩ := exists_value_eq binary32 (m := 1) Nat.one_le_two_pow (i := -14) (by decide)
  obtain ⟨hi, hhi⟩ := exists_value_eq binary32 (m := 1) Nat.one_le_two_pow (i := -13) (by decide)
  rw [Nat.cast_one, one_mul] at hlo hhi
  constructor
  · rw [← hlo]
    refine value_le_value.mpr (hnear.ge ?_)
    rw [hlo, habs]
    norm_num
  · rw [← hhi]
    refine value_le_value.mpr (hnear.le ?_)
    rw [hhi, habs]
    norm_num

/-- The quotient is the rounded one, of a number no smaller than the largest magnitude. -/
theorem groupScale_spec (hv : SixBits v) (t : ℕ) : (groupScale v t).sign = false ∧
    ∃ q : ℚ, (groupAmax v t).magnitude ≤ q ∧ 2 ^ (-14 : ℤ) ≤ q ∧ q ≤ 45 * 2 ^ 7 ∧
      binary32.IsNearestEven (q / 448) (groupScale v t).mag := by
  obtain ⟨hsign, -, p, i, hp, hi, hval⟩ := groupAmax_spec hv t
  have hfloor := magnitude_floor
  have hfloorSign : (F32.const (1 / 10000)).sign = false := F32.sign_const (by norm_num)
  have hconstSign : (F32.const 448).sign = false := F32.sign_const (by norm_num)
  have hle : (groupAmax v t).magnitude ≤ 45 * 2 ^ 7 := by
    have hpow : (2 : ℚ) ^ i ≤ 2 ^ (7 : ℤ) := zpow_le_zpow_right₀ one_le_two hi
    have hp' : (p : ℚ) ≤ 45 := by exact_mod_cast hp
    rw [hval]
    exact mul_le_mul hp' hpow (zpow_nonneg two_pos.le _) (by norm_num)
  -- the quotient of the larger of the two
  have hquot : ∀ x : F32, (groupAmax v t).max (.const (1 / 10000)) = x → x.sign = false →
      (groupScale v t).sign = false ∧
        binary32.IsNearestEven (x.magnitude / 448) (groupScale v t).mag := fun x hx hs => by
    rw [groupScale, hx]
    refine ⟨?_, ?_⟩
    · show (x.sign ^^ (F32.const 448).sign) = false
      rw [hs, hconstSign]
      rfl
    · show binary32.IsNearestEven _ (binary32.round (x.magnitude / (F32.const 448).magnitude))
      rw [magnitude_const_448]
      exact isNearestEven_round (Nat.succ_pos 22) (div_nonneg x.magnitude_nonneg (by norm_num))
  obtain ⟨heq, hcmp⟩ | ⟨heq, hcmp⟩ := F32.max_cases (groupAmax v t) (.const (1 / 10000))
  · rw [F32.value_of_sign hsign, F32.value_of_sign hfloorSign] at hcmp
    obtain ⟨hs, hnear⟩ := hquot _ heq hsign
    exact ⟨hs, _, le_rfl, hfloor.1.trans hcmp, hle, hnear⟩
  · rw [F32.value_of_sign hsign, F32.value_of_sign hfloorSign] at hcmp
    obtain ⟨hs, hnear⟩ := hquot _ heq hfloorSign
    exact ⟨hs, _, hcmp.le, hfloor.1, hfloor.2.trans (by norm_num), hnear⟩

/-- Power of two `e - 127`, as a code. -/
theorem value_power {e : ℕ} (he : 0 < e) : binary32.value (e * 2 ^ 23) = 2 ^ (e - 127 : ℤ) := by
  rw [binary32_normal (by omega), Nat.mul_mod_left, Nat.mul_div_cancel _ (by norm_num),
    Nat.add_zero, Nat.cast_pow, Nat.cast_ofNat, ← zpow_natCast, ← zpow_add₀ two_ne_zero]
  congr 1
  push_cast
  ring

/-- The code after it. -/
theorem value_power_succ {e : ℕ} (he : 0 < e) :
    binary32.value (e * 2 ^ 23 + 1) = (1 + 1 / 2 ^ 23) * 2 ^ (e - 127 : ℤ) := by
  have hmod : (e * 2 ^ 23 + 1) % 2 ^ 23 = 1 := by omega
  have hdiv : (e * 2 ^ 23 + 1) / 2 ^ 23 = e := by omega
  have hexp : (e : ℤ) - 127 = (e - 150) + (23 : ℕ) := by
    push_cast
    ring
  rw [binary32_normal (by omega), hmod, hdiv, hexp, zpow_add₀ two_ne_zero, zpow_natCast]
  push_cast
  ring

/-- **The exponent is that of the quotient, rounded up**: bounds for it, and the code of the
quotient is no larger than that of the power of two. -/
theorem groupExponent_spec (hv : SixBits v) (t : ℕ) : 104 ≤ groupExponent v t ∧
    groupExponent v t ≤ 131 ∧ (groupScale v t).mag ≤ groupExponent v t * 2 ^ 23 := by
  obtain ⟨hsign, q, -, hlo, hhi, hnear⟩ := groupScale_spec hv t
  have hmin : 104 * 2 ^ 23 ≤ (groupScale v t).mag := by
    refine hnear.ge ?_
    rw [value_power (by norm_num), le_div_iff₀ (by norm_num)]
    refine le_trans ?_ hlo
    norm_num
  have hmax : (groupScale v t).mag ≤ 131 * 2 ^ 23 := by
    refine hnear.le ?_
    rw [value_power (by norm_num), div_le_iff₀ (by norm_num)]
    refine hhi.trans ?_
    norm_num
  have hbits : (groupScale v t).bits = (groupScale v t).mag := by
    rw [F32.bits_eq (by omega), hsign, Bool.toNat_false, Nat.zero_mul, Nat.zero_add]
  have hexp : groupExponent v t = (groupScale v t).mag / 2 ^ 23 % 2 ^ 8 +
      if (groupScale v t).mag % 2 ^ 23 ≠ 0 then 1 else 0 := by
    rw [← hbits, ← Nat.and_two_pow_sub_one_eq_mod, ← Nat.and_two_pow_sub_one_eq_mod,
      ← Nat.shiftRight_eq_div_pow]
    rfl
  rw [hexp]
  split_ifs with hrest
  · omega
  · omega

/-! ## Scaling -/

/-- **No value is too large for the exponent.** Above 448 it is at least 57 eighths of the power
of two, and the quotient is rounded to more than the power. -/
theorem groupAmax_le (hv : SixBits v) (t : ℕ) :
    (groupAmax v t).magnitude ≤ 448 * 2 ^ (groupExponent v t - 127 : ℤ) := by
  obtain ⟨hlo, -, hmag⟩ := groupExponent_spec hv t
  obtain ⟨-, q, hq, -, -, hnear⟩ := groupScale_spec hv t
  obtain ⟨-, -, p, i, hp, -, hval⟩ := groupAmax_spec hv t
  generalize groupExponent v t = e at hlo hmag ⊢
  by_contra! hgt
  have hp' : (p : ℚ) ≤ 45 := by exact_mod_cast hp
  -- in eighths
  have hunit : (448 : ℚ) * 2 ^ (e - 127 : ℤ) = 56 * 2 ^ (e - 124 : ℤ) := by
    rw [show (e - 124 : ℤ) = e - 127 + 3 by ring, zpow_add₀ two_ne_zero]
    norm_num
    ring
  have hpos : (0 : ℚ) < 2 ^ (e - 124 : ℤ) := zpow_pos two_pos _
  have hbelow : (e - 124 : ℤ) < i := by
    by_contra! hi
    have hpow : (2 : ℚ) ^ i ≤ 2 ^ (e - 124 : ℤ) := zpow_le_zpow_right₀ one_le_two hi
    have hle : (p : ℚ) * 2 ^ i ≤ 45 * 2 ^ (e - 124 : ℤ) :=
      mul_le_mul hp' hpow (zpow_nonneg two_pos.le _) (by norm_num)
    rw [hunit, hval] at hgt
    linarith
  obtain ⟨n, hn⟩ := Int.le.dest hbelow.le
  have hint : (p : ℚ) * 2 ^ i = (p * 2 ^ n : ℕ) * 2 ^ (e - 124 : ℤ) := by
    rw [← hn, zpow_add₀ two_ne_zero, zpow_natCast]
    push_cast
    ring
  have heighths : 57 ≤ p * 2 ^ n := by
    rw [hunit, hval, hint] at hgt
    have hcast := lt_of_mul_lt_mul_right hgt hpos.le
    exact_mod_cast hcast
  have hlarge : (57 : ℚ) * 2 ^ (e - 124 : ℤ) ≤ q := by
    refine le_trans ?_ hq
    rw [hval, hint]
    exact mul_le_mul_of_nonneg_right (by exact_mod_cast heighths) hpos.le
  -- so the quotient is above the power of two
  have habove : e * 2 ^ 23 + 1 ≤ (groupScale v t).mag := by
    refine hnear.ge ?_
    have hT : (0 : ℚ) < 2 ^ (e - 127 : ℤ) := zpow_pos two_pos _
    rw [value_power_succ (by omega), le_div_iff₀ (by norm_num)]
    norm_num at hunit ⊢
    linarith
  omega

theorem magnitude_groupInverse (hv : SixBits v) (t : ℕ) : (groupInverse v t).sign = false ∧
    (groupInverse v t).magnitude = 2 ^ (127 - groupExponent v t : ℤ) := by
  obtain ⟨hlo, hhi, -⟩ := groupExponent_spec hv t
  unfold groupInverse
  generalize groupExponent v t = e at hlo hhi ⊢
  rw [Nat.shiftLeft_eq, F32.ofBits_of_lt (by omega)]
  refine ⟨rfl, ?_⟩
  show binary32.value ((254 - e) * 2 ^ 23) = _
  rw [value_power (by omega)]
  congr 1
  omega

/-- **Scaling is exact.** -/
theorem magnitude_scaled (hv : SixBits v) (k : ℕ) :
    (scaled v k).magnitude = (v k).magnitude * 2 ^ (127 - groupExponent v (k / 64) : ℤ) := by
  obtain ⟨p, i, hp, hlo, -, hval⟩ := hv k
  obtain ⟨-, hhi, -⟩ := groupExponent_spec hv (k / 64)
  have hinverse := (magnitude_groupInverse hv (k / 64)).2
  have hprod : (v k).magnitude * (groupInverse v (k / 64)).magnitude =
      p * 2 ^ (i + (127 - groupExponent v (k / 64) : ℤ)) := by
    rw [hval, hinverse, zpow_add₀ two_ne_zero, mul_assoc]
  rw [scaled, F32.magnitude_mul (hp.trans (by norm_num)) (by omega) hprod, hval, mul_assoc,
    ← zpow_add₀ two_ne_zero]

/-- **No scaled value exceeds 448.** -/
theorem magnitude_scaled_le (hv : SixBits v) (k : ℕ) : (scaled v k).magnitude ≤ 448 := by
  obtain ⟨-, hle, -⟩ := groupAmax_spec hv (k / 64)
  have hk' := hle (k % 64) (Nat.mod_lt k (by norm_num))
  rw [Nat.div_add_mod'] at hk'
  rw [magnitude_scaled hv]
  calc (v k).magnitude * 2 ^ (127 - groupExponent v (k / 64) : ℤ)
      ≤ 448 * 2 ^ (groupExponent v (k / 64) - 127 : ℤ) *
        2 ^ (127 - groupExponent v (k / 64) : ℤ) :=
        mul_le_mul_of_nonneg_right (hk'.trans (groupAmax_le hv _)) (zpow_nonneg two_pos.le _)
    _ = 448 := by
        rw [mul_assoc, ← zpow_add₀ two_ne_zero]
        norm_num

/-- The clamp does not change a value within its bounds. -/
theorem clamp_eq (h : a.magnitude ≤ 448) : clamp a = a := by
  have hbound : |a.value| ≤ 448 := by
    unfold F32.value
    split_ifs
    · rwa [abs_neg, abs_of_nonneg a.magnitude_nonneg]
    · rwa [abs_of_nonneg a.magnitude_nonneg]
  have hlower : (F32.const (-448)).value = -448 := by
    have hmag : (F32.const (-448)).magnitude = 448 := by
      rw [F32.magnitude_const (m := 7) (i := 6) (by norm_num) (by norm_num) (by norm_num)]
      norm_num
    have hsign : (F32.const (-448)).sign = true := F32.sign_const_of_neg (by norm_num)
    rw [F32.value, hsign, if_pos rfl, hmag]
  have hupper : (F32.const 448).value = 448 := by
    rw [F32.value_of_sign (F32.sign_const (by norm_num)), magnitude_const_448]
  have habs := abs_le.mp hbound
  have hmax : a.max (.const (-448)) = a := by
    rw [F32.max, hlower, if_neg (not_lt.mpr habs.1)]
  rw [clamp, hmax, F32.min, hupper, if_neg (not_lt.mpr habs.2)]

/-! ## The bytes -/

theorem mag_lt (h : a.magnitude ≤ 448) : a.mag < 2 ^ 31 := by
  have hcode : binary32.value (135 * 2 ^ 23 + 12 * 2 ^ 19) = 448 := by
    rw [binary32_normal (by norm_num)]
    norm_num
  have hle : a.mag ≤ 135 * 2 ^ 23 + 12 * 2 ^ 19 := value_le_value.mp (h.trans_eq hcode.symm)
  omega

theorem value_126 : e4m3.value 126 = 448 := by
  have hstretch : e4m3.InStretch 14 14 := ⟨.inr (show 8 ≤ 14 by norm_num), show 14 ≤ 16 by norm_num⟩
  refine (value_stretch hstretch).trans ?_
  show (14 : ℕ) * (2 : ℚ) ^ ((-9 : ℤ) + (14 : ℕ)) = 448
  norm_num

/-- The byte of a number of at most 448 is its sign and the nearest code, which is finite. -/
theorem v41cE4m3Rn_spec (h : a.magnitude ≤ 448) : ∃ c ≤ 126,
    v41cE4m3Rn a = a.sign.toNat * 128 + c ∧ e4m3.IsNearestEven a.magnitude c := by
  have hnear := isNearestEven_e4m3Code a.mag
  have hc : e4m3Code a.mag ≤ 126 := hnear.le (h.trans_eq value_126.symm)
  refine ⟨e4m3Code a.mag, hc, ?_, hnear⟩
  rw [v41cE4m3Rn_eq (mag_lt h), ← Nat.shiftLeft_add_eq_or_of_lt (by omega), Nat.shiftLeft_eq]

theorem v41cE4m3Rn_eq_toE4m3 (h : a.magnitude ≤ 448) : v41cE4m3Rn a = a.toE4m3 := by
  obtain ⟨c, -, heq, hnear⟩ := v41cE4m3Rn_spec h
  rw [heq, F32.toE4m3, hnear.unique (isNearestEven_round (Nat.succ_pos 2) a.magnitude_nonneg)]

/-- The word of a number no larger than the largest bf16 is its sign and the nearest code. -/
theorem v41cBf16_spec (h : a.magnitude ≤ bfloat16.value 0x7F7F) : ∃ c ≤ 0x7F7F,
    v41cBf16 a = a.sign.toNat * 32768 + c ∧ bfloat16.IsNearestEven a.magnitude c := by
  have hnear := isNearestEven_bf16 a.mag
  have hlt : a.mag < 2 ^ 31 := by
    have hlast : bfloat16.IsNearestEven _ (shiftEven (2 ^ 31) 15) := isNearestEven_bf16 (2 ^ 31)
    by_contra hge
    have hmono : binary32.value (2 ^ 31) ≤ a.magnitude := value_le_value.mpr (not_lt.mp hge)
    have hle := hlast.le (hmono.trans h)
    have hcode : shiftEven (2 ^ 31) 15 = 2 ^ 15 := by decide
    omega
  exact ⟨shiftEven a.mag 15, hnear.le h, v41cBf16_eq hlt, hnear⟩

theorem v41cBf16_eq_toBf16 (h : a.magnitude ≤ bfloat16.value 0x7F7F) : v41cBf16 a = a.toBf16 := by
  obtain ⟨c, -, heq, hnear⟩ := v41cBf16_spec h
  rw [heq, F32.toBf16, hnear.unique (isNearestEven_round (Nat.succ_pos 6) a.magnitude_nonneg)]

/-- The even and the odd numbers below an even bound. -/
theorem range_two_mul_perm (n : ℕ) : (List.range (2 * n)).Perm
    ((List.range n).map (2 * ·) ++ (List.range n).map (2 * · + 1)) := by
  have hnodup : ((List.range n).map (2 * ·) ++ (List.range n).map (2 * · + 1)).Nodup := by
    refine List.nodup_append.mpr ⟨?_, ?_, ?_⟩
    · exact List.nodup_range.map fun i j h => by simpa using h
    · exact List.nodup_range.map fun i j h => by simpa using h
    · intro x hx y hy
      obtain ⟨i, -, rfl⟩ := List.mem_map.mp hx
      obtain ⟨j, -, rfl⟩ := List.mem_map.mp hy
      omega
  refine (List.perm_ext_iff_of_nodup List.nodup_range hnodup).mpr fun x => ?_
  rw [List.mem_append, List.mem_map, List.mem_map, List.mem_range]
  constructor
  · intro hx
    obtain h | h := Nat.mod_two_eq_zero_or_one x
    · exact .inl ⟨x / 2, List.mem_range.mpr (by omega), by omega⟩
    · exact .inr ⟨x / 2, List.mem_range.mpr (by omega), by omega⟩
  · rintro (⟨i, hi, rfl⟩ | ⟨i, hi, rfl⟩)
    · have := List.mem_range.mp hi
      omega
    · have := List.mem_range.mp hi
      omega

theorem mapIdx_map_range {α β : Type*} (f : ℕ → α → β) (g : ℕ → α) (n : ℕ) :
    ((List.range n).map g).mapIdx f = (List.range n).map fun i => f i (g i) :=
  List.ext_getElem (by simp) fun i _ _ => by simp

theorem value_0x7F7F : bfloat16.value 0x7F7F = 255 * 2 ^ 120 := by
  have hstretch : bfloat16.InStretch 253 255 :=
    ⟨.inr (show 128 ≤ 255 by norm_num), show 255 ≤ 256 by norm_num⟩
  refine (value_stretch hstretch).trans ?_
  show (255 : ℕ) * (2 : ℚ) ^ ((-133 : ℤ) + (253 : ℕ)) = _
  norm_num

theorem magnitude_le_bf16 (hv : SixBits v) (k : ℕ) : (v k).magnitude ≤ bfloat16.value 0x7F7F := by
  obtain ⟨p, i, hp, -, hi, hval⟩ := hv k
  have hpow : (2 : ℚ) ^ i ≤ 2 ^ (7 : ℤ) := zpow_le_zpow_right₀ one_le_two hi
  have hp' : (p : ℚ) ≤ 45 := by exact_mod_cast hp
  rw [hval, value_0x7F7F]
  calc (p : ℚ) * 2 ^ i ≤ 45 * 2 ^ (7 : ℤ) :=
        mul_le_mul hp' hpow (zpow_nonneg two_pos.le _) (by norm_num)
    _ ≤ 255 * 2 ^ 120 := by norm_num

/-- What a live lane loads is what the reference gathers. -/
theorem v41cLoad_live (t : Token) : v41cLoad t true = gatherRecords t := by
  simp only [v41cLoad, gatherRecords, if_true, Nat.add_assoc]

/-- **The kernel stores the bytes of the reference**, the high bytes of the rope words after all
low ones. -/
theorem v41cRows_perm (t : Token) (slot : ℕ) :
    (v41cRows t true slot).Perm (transcodeTokens t slot) := by
  have hv := sixBits_decodeRecords (gatherRecords t)
  have hvalue : v41cValue (gatherRecords t) = decodeRecords (gatherRecords t) :=
    v41cValue_eq fun i => t.byte_lt _
  unfold v41cRows transcodeTokens writeV4Rows v4Rows
  dsimp only
  rw [v41cLoad_live, hvalue]
  generalize decodeRecords (gatherRecords t) = v at hv
  simp only [Bool.not_true, Bool.false_eq_true, if_false]
  rw [List.mapIdx_append, mapIdx_map_range, mapIdx_map_range, List.length_map, List.length_range]
  have hq : ∀ k, v41cE4m3Rn (clamp (scaled v k)) % 256 = (clamp (scaled v k)).toE4m3 := fun k => by
    have hclamp := magnitude_scaled_le hv k
    rw [clamp_eq hclamp]
    obtain ⟨c, hc, heq, -⟩ := v41cE4m3Rn_spec hclamp
    have hsign : (scaled v k).sign.toNat < 2 := Bool.toNat_lt _
    rw [← v41cE4m3Rn_eq_toE4m3 hclamp, heq]
    omega
  have hrope : ∀ k, v41cBf16 (v k) = (v k).toBf16 := fun k =>
    v41cBf16_eq_toBf16 (magnitude_le_bf16 hv k)
  -- the seven exponents and the zero after them
  have hexps : (List.range 7).map (fun g => groupExponent v g % 256) ++ [0] =
      (List.range 8).map fun g => (if g < 7 then groupExponent v g else 0) % 256 := rfl
  have hword : ∀ w, w &&& 255 = wordByte w 0 := fun w => Nat.and_two_pow_sub_one_eq_mod w 8
  have hword' : ∀ w, (w >>> 8) &&& 255 = wordByte w 1 := fun w =>
    Nat.and_two_pow_sub_one_eq_mod (w >>> 8) 8
  -- the rope words of the reference, low bytes first
  have hsplit := (range_two_mul_perm 64).map fun i =>
    (slot / 64 * 37440 + slot % 64 * 576 + (i + 448), wordByte (v (448 + i / 2)).toBf16 (i % 2))
  rw [List.map_append, List.map_map, List.map_map] at hsplit
  have hlow : (List.range' 448 64).map (fun k => (slot / 64 * 37440 + slot % 64 * 576 + 448 +
      (k - 448) * 2, v41cBf16 (v k) &&& 255)) = (List.range 64).map
      ((fun i => (slot / 64 * 37440 + slot % 64 * 576 + (i + 448),
        wordByte (v (448 + i / 2)).toBf16 (i % 2))) ∘ (2 * ·)) := by
    rw [List.range'_eq_map_range, List.map_map]
    refine List.map_congr_left fun i _ => Prod.ext ?_ ?_
    · simp only [Function.comp_apply]
      omega
    · simp only [Function.comp_apply]
      rw [hrope, hword, Nat.mul_div_cancel_left i two_pos, Nat.mul_mod_right]
  have hhigh : (List.range' 448 64).map (fun k => (slot / 64 * 37440 + slot % 64 * 576 + 448 +
      (k - 448) * 2 + 1, (v41cBf16 (v k) >>> 8) &&& 255)) = (List.range 64).map
      ((fun i => (slot / 64 * 37440 + slot % 64 * 576 + (i + 448),
        wordByte (v (448 + i / 2)).toBf16 (i % 2))) ∘ (2 * · + 1)) := by
    rw [List.range'_eq_map_range, List.map_map]
    refine List.map_congr_left fun i _ => Prod.ext ?_ ?_
    · simp only [Function.comp_apply]
      omega
    · simp only [Function.comp_apply]
      rw [hrope, hword', show (2 * i + 1) / 2 = i by omega, show (2 * i + 1) % 2 = 1 by omega]
  rw [hexps, mapIdx_map_range, hlow, hhigh]
  simp only [hq, Nat.add_assoc _ (_ / 64 * 64), Nat.div_add_mod']
  refine List.Perm.append_right _ ?_
  rw [List.append_assoc]
  exact List.Perm.append_left _ hsplit.symm

/-- **The transcode.** For every token of an FP4 cache whose scales are not NaN: every value is
exact; in each of the seven groups the exponent fits a byte, scaling is exact, no scaled value
exceeds 448 and the clamp changes none. The e4m3 byte of every fp32 number of at most 448 is its
sign and the nearest code, the even one of two, never the NaN; the same holds of the bf16 word of
every number no larger than the largest bf16. A live lane stores the 584 bytes of the reference
at their addresses, one that is not live stores nothing. -/
theorem transcode_exact :
    (∀ t : Token, ∀ k < 512, (decodeRecords (gatherRecords t) k).magnitude =
      e2m1Table.getD (codeAt (gatherRecords t) k &&& 7) 0 *
        e4m3.value ((gatherRecords t).scales (k / 16) % 128)) ∧
    (∀ t : Token, ∀ g < 7, groupExponent (decodeRecords (gatherRecords t)) g < 256 ∧
      ∀ j < 64,
        (scaled (decodeRecords (gatherRecords t)) (g * 64 + j)).magnitude =
          (decodeRecords (gatherRecords t) (g * 64 + j)).magnitude *
            2 ^ (127 - groupExponent (decodeRecords (gatherRecords t)) g : ℤ) ∧
        (scaled (decodeRecords (gatherRecords t)) (g * 64 + j)).magnitude ≤ 448 ∧
        clamp (scaled (decodeRecords (gatherRecords t)) (g * 64 + j)) =
          scaled (decodeRecords (gatherRecords t)) (g * 64 + j)) ∧
    (∀ a : F32, a.magnitude ≤ 448 → ∃ c ≤ 126, v41cE4m3Rn a = a.sign.toNat * 128 + c ∧
      e4m3.IsNearestEven a.magnitude c) ∧
    (∀ a : F32, a.magnitude ≤ bfloat16.value 0x7F7F → ∃ c ≤ 0x7F7F,
      v41cBf16 a = a.sign.toNat * 32768 + c ∧ bfloat16.IsNearestEven a.magnitude c) ∧
    ∀ (t : Token) (slot : ℕ), (v41cRows t true slot).Perm (transcodeTokens t slot) ∧
      (transcodeTokens t slot).length = 584 ∧ v41cRows t false slot = [] := by
  refine ⟨fun t k _ => ?_, fun t g _ => ?_, fun a h => v41cE4m3Rn_spec h,
    fun a h => v41cBf16_spec h, fun t slot => ⟨v41cRows_perm t slot, ?_, rfl⟩⟩
  · obtain ⟨_, _, -, -, -, -, hval⟩ := magnitude_decodeRecords (gatherRecords t) k
    exact hval
  · have hv := sixBits_decodeRecords (gatherRecords t)
    obtain ⟨-, hhi, -⟩ := groupExponent_spec hv g
    refine ⟨by omega, fun j hj => ?_⟩
    have hle := magnitude_scaled_le hv (g * 64 + j)
    have hscaled := magnitude_scaled hv (g * 64 + j)
    have hgroup : (g * 64 + j) / 64 = g := by omega
    rw [hgroup] at hscaled
    exact ⟨hscaled, hle, clamp_eq hle⟩
  · simp [transcodeTokens, writeV4Rows, v4Rows]

/-- A cache of ones. -/
def onesToken : Token where
  src _ := 0x38
  stride := 17
  pbs := 1
  tok := 3
  byte_lt _ := by decide
  not_nan _ _ := by decide

/-- Zero with a sign keeps it, and one is a bf16. -/
theorem transcode_exact_ones :
    (∃ c ≤ 126, v41cE4m3Rn ⟨true, 0⟩ = 128 + c ∧ e4m3.IsNearestEven 0 c) ∧
    (∃ c ≤ 0x7F7F, v41cBf16 ⟨false, 127 * 2 ^ 23⟩ = 0 + c ∧ bfloat16.IsNearestEven 1 c) ∧
    (v41cRows onesToken true 65).Perm (transcodeTokens onesToken 65) := by
  obtain ⟨-, -, he4m3, hbf16, hrows⟩ := transcode_exact
  have hzero : (⟨true, 0⟩ : F32).magnitude = 0 := value_zero binary32
  have hone : (⟨false, 127 * 2 ^ 23⟩ : F32).magnitude = 1 := by
    refine (value_power (by norm_num)).trans ?_
    norm_num
  have hnegZero := he4m3 ⟨true, 0⟩ (by rw [hzero]; norm_num)
  have hword := hbf16 ⟨false, 127 * 2 ^ 23⟩ (by rw [hone, value_0x7F7F]; norm_num)
  rw [hzero] at hnegZero
  rw [hone] at hword
  exact ⟨hnegZero, by simpa using hword, (hrows onesToken 65).1⟩

end V4Transcode

import Mathlib.Algebra.Order.Floor.Semiring
import Mathlib.Algebra.Order.Field.Power
import Mathlib.Data.Nat.Size
import Mathlib.Data.Rat.Floor
import Mathlib.Tactic.Linarith
import Mathlib.Tactic.Positivity
import Mathlib.Tactic.Ring

/-!
# Binary floating-point formats

The magnitudes of a binary format are coded by natural numbers: the fraction in the
low bits, the exponent field above them. Counted in units of the least positive
magnitude the value of a code is a natural number (`units`), linear in the code on
each *stretch* – the subnormal codes with the first normal binade, then one binade
after the other – and strictly increasing throughout. So the order of the codes is
the order of their values, and rounding is rounding to an integer on the stretch the
number lies in (`isNearestEven_of_stretch`): neither a subnormal nor a carry into
the next binade is a case of its own.

The exponent is not bounded here. A number no larger than the largest finite value
is rounded to a finite code (`IsNearestEven.le`).
-/

/-- A binary format: the number of fraction bits, and the exponent of the least positive
magnitude. -/
structure BinaryFormat where
  frac : ℕ
  emin : ℤ

namespace BinaryFormat

/-- IEEE binary32. -/
def binary32 : BinaryFormat := ⟨23, -149⟩

/-- IEEE binary16. -/
def binary16 : BinaryFormat := ⟨10, -24⟩

/-- bfloat16. -/
def bfloat16 : BinaryFormat := ⟨7, -133⟩

/-- OCP e4m3. -/
def e4m3 : BinaryFormat := ⟨3, -9⟩

variable {F : BinaryFormat} {j r c c' : ℕ} {q x : ℚ}

/-- The value of a code, in units of the least positive magnitude. -/
def units (F : BinaryFormat) (c : ℕ) : ℕ :=
  if c / 2 ^ F.frac = 0 then c % 2 ^ F.frac
  else (2 ^ F.frac + c % 2 ^ F.frac) * 2 ^ (c / 2 ^ F.frac - 1)

/-- The value of a code. -/
def value (F : BinaryFormat) (c : ℕ) : ℚ := F.units c * 2 ^ F.emin

/-! ## Stretches -/

/-- Code `j * 2 ^ frac + r` is the `r`-th of its stretch. -/
def InStretch (F : BinaryFormat) (j r : ℕ) : Prop := (j = 0 ∨ 2 ^ F.frac ≤ r) ∧ r ≤ 2 ^ (F.frac + 1)

/-- **On a stretch the value is linear in the code**, its end included. -/
theorem units_stretch (h : F.InStretch j r) : F.units (j * 2 ^ F.frac + r) = r * 2 ^ j := by
  obtain ⟨hlo, hhi⟩ := h
  have hpos := Nat.two_pow_pos F.frac
  rw [pow_succ] at hhi
  unfold units
  by_cases hsub : r < 2 ^ F.frac
  · -- a subnormal code
    obtain rfl : j = 0 := hlo.resolve_right (not_le.mpr hsub)
    rw [Nat.zero_mul, Nat.zero_add, Nat.div_eq_of_lt hsub, if_pos rfl, Nat.mod_eq_of_lt hsub,
      pow_zero, Nat.mul_one]
  obtain ⟨m, rfl⟩ := Nat.exists_eq_add_of_le (not_lt.mp hsub)
  by_cases hend : m < 2 ^ F.frac
  · have hcode : j * 2 ^ F.frac + (2 ^ F.frac + m) = m + 2 ^ F.frac * (j + 1) := by ring
    rw [hcode, Nat.add_mul_div_left _ _ hpos, Nat.div_eq_of_lt hend, Nat.zero_add,
      if_neg (Nat.succ_ne_zero j), Nat.add_mul_mod_self_left, Nat.mod_eq_of_lt hend,
      Nat.add_sub_cancel]
  · -- the end of the stretch is the start of the next binade
    obtain rfl : m = 2 ^ F.frac := by omega
    have hcode : j * 2 ^ F.frac + (2 ^ F.frac + 2 ^ F.frac) = 0 + 2 ^ F.frac * (j + 2) := by ring
    rw [hcode, Nat.add_mul_div_left _ _ hpos, Nat.zero_div, Nat.zero_add,
      if_neg (Nat.succ_ne_zero _), Nat.zero_add, Nat.mul_mod_right, Nat.add_zero,
      show j + 2 - 1 = j + 1 from rfl, pow_succ]
    ring

/-- Every code is in a stretch, not at its end. -/
theorem exists_stretch (F : BinaryFormat) (c : ℕ) : ∃ j r, c = j * 2 ^ F.frac + r ∧
    (j = 0 ∨ 2 ^ F.frac ≤ r) ∧ r < 2 ^ (F.frac + 1) := by
  have hpos := Nat.two_pow_pos F.frac
  have hdiv := Nat.div_add_mod' c (2 ^ F.frac)
  have hmod := Nat.mod_lt c hpos
  rw [pow_succ]
  by_cases hsub : c / 2 ^ F.frac = 0
  · refine ⟨0, c, by simp, .inl rfl, ?_⟩
    rw [hsub, Nat.zero_mul, Nat.zero_add] at hdiv
    omega
  · obtain ⟨e, he⟩ := Nat.exists_eq_succ_of_ne_zero hsub
    rw [he, Nat.succ_mul] at hdiv
    exact ⟨e, 2 ^ F.frac + c % 2 ^ F.frac, by omega, .inr (Nat.le_add_right _ _), by omega⟩

/-- **The order of the codes is the order of their values.** -/
theorem units_strictMono (F : BinaryFormat) : StrictMono F.units := by
  refine strictMono_nat_of_lt_succ fun c => ?_
  obtain ⟨j, r, rfl, hlo, hhi⟩ := F.exists_stretch c
  have hnext : F.InStretch j (r + 1) := ⟨hlo.imp_right Nat.le_succ_of_le, hhi⟩
  rw [units_stretch ⟨hlo, hhi.le⟩, Nat.add_assoc, units_stretch hnext]
  exact Nat.mul_lt_mul_of_pos_right (Nat.lt_succ_self r) (Nat.two_pow_pos j)

theorem value_strictMono (F : BinaryFormat) : StrictMono F.value := fun c c' h => by
  have hunits : (F.units c : ℚ) < F.units c' := Nat.cast_lt.mpr (F.units_strictMono h)
  exact mul_lt_mul_of_pos_right hunits (zpow_pos two_pos _)

theorem value_le_value : F.value c ≤ F.value c' ↔ c ≤ c' := F.value_strictMono.le_iff_le

theorem value_lt_value : F.value c < F.value c' ↔ c < c' := F.value_strictMono.lt_iff_lt

theorem value_nonneg (F : BinaryFormat) (c : ℕ) : 0 ≤ F.value c :=
  mul_nonneg (Nat.cast_nonneg _) (zpow_nonneg two_pos.le _)

@[simp] theorem value_zero (F : BinaryFormat) : F.value 0 = 0 := by simp [value, units]

theorem value_stretch (h : F.InStretch j r) :
    F.value (j * 2 ^ F.frac + r) = r * 2 ^ (F.emin + j) := by
  rw [value, units_stretch h, zpow_add₀ two_ne_zero, zpow_natCast, Nat.cast_mul, Nat.cast_pow,
    Nat.cast_ofNat]
  ring

/-- The numbers with few enough bits are values. -/
theorem exists_units_eq (F : BinaryFormat) {m : ℕ} (hm : m ≤ 2 ^ (F.frac + 1)) (j : ℕ) :
    ∃ c, F.units c = m * 2 ^ j := by
  induction j generalizing m with
  | zero => exact ⟨_, units_stretch ⟨.inl rfl, hm⟩⟩
  | succ j ih =>
    by_cases hnormal : 2 ^ F.frac ≤ m
    · exact ⟨_, units_stretch ⟨.inr hnormal, hm⟩⟩
    · -- there is room for one more bit
      obtain ⟨c, hc⟩ := ih (show 2 * m ≤ 2 ^ (F.frac + 1) by rw [pow_succ]; omega)
      exact ⟨c, by rw [hc, pow_succ]; ring⟩

/-- **A dyadic number with few enough bits is a value.** -/
theorem exists_value_eq (F : BinaryFormat) {m : ℕ} (hm : m ≤ 2 ^ (F.frac + 1)) {i : ℤ}
    (hi : F.emin ≤ i) : ∃ c, F.value c = m * 2 ^ i := by
  obtain ⟨j, rfl⟩ := Int.le.dest hi
  obtain ⟨c, hc⟩ := F.exists_units_eq hm j
  refine ⟨c, ?_⟩
  rw [value, hc, zpow_add₀ two_ne_zero, zpow_natCast, Nat.cast_mul, Nat.cast_pow, Nat.cast_ofNat]
  ring

/-! ## Rounding to an integer -/

/-- The integer nearest to a number, the even one of two. -/
def IsRoundEven (x : ℚ) (r : ℕ) : Prop := |x - r| ≤ 1 / 2 ∧ (|x - r| = 1 / 2 → Even r)

/-- The integer nearest to a nonnegative number. -/
def roundEven (x : ℚ) : ℕ :=
  let k := ⌊x⌋₊
  if x - k < 1 / 2 then k else if 1 / 2 < x - k then k + 1 else k + k % 2

theorem isRoundEven_roundEven (hx : 0 ≤ x) : IsRoundEven x (roundEven x) := by
  have hlo := Nat.floor_le hx
  have hhi := Nat.lt_floor_add_one x
  unfold roundEven IsRoundEven
  dsimp only
  split_ifs with hdown hup
  · have habs : |x - ⌊x⌋₊| = x - ⌊x⌋₊ := abs_of_nonneg (by linarith)
    rw [habs]
    exact ⟨hdown.le, fun h => absurd h hdown.ne⟩
  · have habs : |x - (⌊x⌋₊ + 1 : ℕ)| = ⌊x⌋₊ + 1 - x := by
      push_cast
      rw [abs_of_nonpos (by linarith)]
      ring
    rw [habs]
    exact ⟨by linarith, fun h => by linarith⟩
  · -- a tie
    have htie : x = ⌊x⌋₊ + 1 / 2 := by linarith
    have heven : Even (⌊x⌋₊ + ⌊x⌋₊ % 2) := by rw [Nat.even_iff]; omega
    refine ⟨?_, fun _ => heven⟩
    obtain h | h := Nat.mod_two_eq_zero_or_one ⌊x⌋₊
    · rw [h, Nat.add_zero, abs_of_nonneg (by linarith)]
      linarith
    · rw [h]
      push_cast
      rw [abs_of_nonpos (by linarith)]
      linarith

/-- No integer is nearer, and one as near says that the choice is even. -/
theorem IsRoundEven.nearest (h : IsRoundEven x r) (n : ℕ) :
    |x - r| ≤ |x - n| ∧ (n ≠ r → |x - r| = |x - n| → Even r) := by
  by_cases hn : n = r
  · exact ⟨hn ▸ le_rfl, fun hne => absurd hn hne⟩
  have hone : (1 : ℚ) ≤ |(n : ℚ) - r| := by
    have : (1 : ℤ) ≤ |(n : ℤ) - r| := Int.one_le_abs (sub_ne_zero.mpr (by exact_mod_cast hn))
    exact_mod_cast this
  have htri := abs_sub_le (n : ℚ) x r
  rw [abs_sub_comm (n : ℚ) x] at htri
  exact ⟨by linarith [h.1], fun _ heq => h.2 (by linarith [h.1])⟩

/-- The number without its `s + 1` low bits: rounded up when they are above a half, or a half
and what is kept is odd. -/
def shiftEven (m s : ℕ) : ℕ :=
  m / 2 ^ (s + 1) + if 2 ^ s < m % 2 ^ (s + 1) ∨
    m % 2 ^ (s + 1) = 2 ^ s ∧ m / 2 ^ (s + 1) % 2 = 1 then 1 else 0

/-- **Rounding off low bits** rounds the quotient. -/
theorem isRoundEven_shiftEven (m s : ℕ) : IsRoundEven (m / 2 ^ (s + 1)) (shiftEven m s) := by
  have hhalf : (0 : ℚ) < 2 ^ s := pow_pos two_pos s
  have hlt := Nat.mod_lt m (Nat.two_pow_pos (s + 1))
  have hdiv := Nat.div_add_mod' m (2 ^ (s + 1))
  unfold shiftEven
  generalize m / 2 ^ (s + 1) = k, m % 2 ^ (s + 1) = l at hlt hdiv ⊢
  -- what is cut off, as a fraction
  have hcut : (m : ℚ) / 2 ^ (s + 1) - k = l / 2 ^ s / 2 := by
    rw [← hdiv, pow_succ]
    push_cast
    rw [pow_succ]
    field_simp
    ring
  have hfrac : (l : ℚ) / 2 ^ s < 2 := by
    rw [div_lt_iff₀ hhalf, ← pow_succ']
    exact_mod_cast hlt
  have hnonneg : (0 : ℚ) ≤ l / 2 ^ s := by positivity
  unfold IsRoundEven
  by_cases habove : 2 ^ s < l
  · have hone : (1 : ℚ) < l / 2 ^ s := by
      rw [lt_div_iff₀ hhalf, one_mul]
      exact_mod_cast habove
    rw [if_pos (.inl habove)]
    push_cast
    rw [← sub_sub, hcut, abs_of_nonpos (by linarith)]
    exact ⟨by linarith, fun h => by linarith⟩
  by_cases htie : l = 2 ^ s
  · have hone : (l : ℚ) / 2 ^ s = 1 := by
      rw [htie, Nat.cast_pow, Nat.cast_ofNat, div_self hhalf.ne']
    obtain heven | hodd := Nat.mod_two_eq_zero_or_one k
    · have hdown : ¬(2 ^ s < l ∨ l = 2 ^ s ∧ k % 2 = 1) := by simp [htie, heven]
      simp only [if_neg hdown, Nat.add_zero]
      rw [hcut, hone]
      exact ⟨by norm_num, fun _ => Nat.even_iff.mpr heven⟩
    · rw [if_pos (.inr ⟨htie, hodd⟩)]
      push_cast
      rw [← sub_sub, hcut, hone]
      exact ⟨by norm_num, fun _ => (Nat.odd_iff.mpr hodd).add_one⟩
  · have hone : (l : ℚ) / 2 ^ s < 1 := by
      rw [div_lt_iff₀ hhalf, one_mul]
      exact_mod_cast lt_of_le_of_ne (not_lt.mp habove) htie
    have hdown : ¬(2 ^ s < l ∨ l = 2 ^ s ∧ k % 2 = 1) := by simp [habove, htie]
    simp only [if_neg hdown, Nat.add_zero]
    rw [hcut, abs_of_nonneg (by linarith)]
    exact ⟨by linarith, fun h => by linarith⟩

/-- Bits above the cut stay as they are, when they leave the parity alone. -/
theorem shiftEven_add {k : ℕ} (hk : Even k) (m s : ℕ) :
    shiftEven (k * 2 ^ (s + 1) + m) s = k + shiftEven m s := by
  have hdiv : (k * 2 ^ (s + 1) + m) / 2 ^ (s + 1) = k + m / 2 ^ (s + 1) := by
    rw [Nat.add_comm, Nat.add_mul_div_right _ _ (Nat.two_pow_pos _), Nat.add_comm]
  have hmod : (k * 2 ^ (s + 1) + m) % 2 ^ (s + 1) = m % 2 ^ (s + 1) := Nat.mul_add_mod' _ _ _
  have hparity : (k + m / 2 ^ (s + 1)) % 2 = m / 2 ^ (s + 1) % 2 := by
    rw [Nat.add_mod, Nat.even_iff.mp hk, Nat.zero_add, Nat.mod_mod]
  rw [shiftEven, shiftEven, hdiv, hmod, hparity, Nat.add_assoc]

/-- The same by a carry: a half less one is added, and the parity. -/
theorem shiftEven_eq_carry (m s : ℕ) :
    (m + (2 ^ s - 1) + m / 2 ^ (s + 1) % 2) / 2 ^ (s + 1) = shiftEven m s := by
  have hhalf := Nat.two_pow_pos s
  have hlt := Nat.mod_lt m (Nat.two_pow_pos (s + 1))
  have hdiv := Nat.div_add_mod' m (2 ^ (s + 1))
  have hparity := Nat.mod_lt (m / 2 ^ (s + 1)) two_pos
  have hpow : 2 ^ (s + 1) = 2 * 2 ^ s := pow_succ' 2 s
  unfold shiftEven
  generalize m / 2 ^ (s + 1) = k, m % 2 ^ (s + 1) = l at hlt hdiv hparity ⊢
  have hsum : m + (2 ^ s - 1) + k % 2 = l + (2 ^ s - 1) + k % 2 + k * 2 ^ (s + 1) := by omega
  rw [hsum, Nat.add_mul_div_right _ _ (Nat.two_pow_pos _), Nat.add_comm k]
  congr 1
  split_ifs with hup
  · exact Nat.div_eq_of_lt_le (by omega) (by omega)
  · exact Nat.div_eq_of_lt (by omega)

/-! ## Rounding to a format -/

/-- **The code nearest to a number**, the even one of two. -/
structure IsNearestEven (F : BinaryFormat) (q : ℚ) (c : ℕ) : Prop where
  nearest : ∀ c', |q - F.value c| ≤ |q - F.value c'|
  even : ∀ c', c' ≠ c → |q - F.value c| = |q - F.value c'| → Even c

/-- What is rounded stays below every value it is below. -/
theorem IsNearestEven.le (h : F.IsNearestEven q c) (hq : q ≤ F.value c') : c ≤ c' := by
  by_contra hlt
  have hval := F.value_strictMono (not_le.mp hlt)
  have hnear := h.nearest c'
  rw [abs_of_nonpos (by linarith), abs_of_nonpos (by linarith)] at hnear
  linarith

/-- What is rounded stays above every value it is above. -/
theorem IsNearestEven.ge (h : F.IsNearestEven q c) (hq : F.value c' ≤ q) : c' ≤ c := by
  by_contra hlt
  have hval := F.value_strictMono (not_le.mp hlt)
  have hnear := h.nearest c'
  rw [abs_of_nonneg (by linarith), abs_of_nonneg (by linarith)] at hnear
  linarith

/-- Two codes nearest to one number are not neighbours, unless they are the same. -/
theorem IsNearestEven.not_below (h : F.IsNearestEven q c) (h' : F.IsNearestEven q c') :
    ¬c < c' := by
  intro hlt
  have heq : |q - F.value c| = |q - F.value c'| := le_antisymm (h.nearest c') (h'.nearest c)
  have heven := h.even c' hlt.ne' heq
  have heven' := h'.even c hlt.ne heq.symm
  have hval := F.value_strictMono hlt
  -- the number is halfway between them
  have hmid : q - F.value c = F.value c' - q := by
    obtain hsame | hopp := abs_eq_abs.mp heq
    · linarith
    · linarith
  have hbetween : c + 1 < c' := by
    obtain ⟨a, ha⟩ := heven
    obtain ⟨b, hb⟩ := heven'
    omega
  have hlo := F.value_strictMono (Nat.lt_succ_self c)
  have hhi := F.value_strictMono hbetween
  have hnear := h.nearest (c + 1)
  rw [abs_of_nonneg (by linarith), le_abs] at hnear
  obtain hnear | hnear := hnear
  · exact absurd hnear (by simp only [Nat.succ_eq_add_one] at hlo; linarith)
  · linarith

/-- **There is one such code.** -/
theorem IsNearestEven.unique (h : F.IsNearestEven q c) (h' : F.IsNearestEven q c') : c = c' :=
  le_antisymm (not_lt.mp (h'.not_below h)) (not_lt.mp (h.not_below h'))

/-- A value is nearest to itself. -/
theorem isNearestEven_value (F : BinaryFormat) (c : ℕ) : F.IsNearestEven (F.value c) c where
  nearest c' := by rw [sub_self, abs_zero]; exact abs_nonneg _
  even c' hne heq := by
    rw [sub_self, abs_zero, eq_comm, abs_eq_zero, sub_eq_zero] at heq
    exact absurd (F.value_strictMono.injective heq).symm hne

/-- A number in coarser units. -/
theorem mul_zpow_shift (x : ℚ) (i : ℤ) (s : ℕ) : x * 2 ^ i = x / 2 ^ s * 2 ^ (i + s) := by
  rw [zpow_add₀ two_ne_zero, zpow_natCast]
  field_simp

/-- Rounding to an integer stays on the stretch. -/
theorem IsRoundEven.inStretch (hr : IsRoundEven x r) (hlo : j = 0 ∨ 2 ^ F.frac ≤ x)
    (hhi : x ≤ 2 ^ (F.frac + 1)) : F.InStretch j r := by
  have hnear := abs_le.mp hr.1
  refine ⟨hlo.imp_right fun h => ?_, ?_⟩
  · have : (2 ^ F.frac : ℚ) < r + 1 := by linarith
    exact Nat.lt_succ_iff.mp (by exact_mod_cast this)
  · have : (r : ℚ) < 2 ^ (F.frac + 1) + 1 := by linarith
    exact Nat.lt_succ_iff.mp (by exact_mod_cast this)

/-- **Rounding to the format is rounding to an integer** on the stretch that holds the
number. -/
theorem isNearestEven_of_stretch (hfrac : 0 < F.frac) (hq : q = x * 2 ^ (F.emin + j))
    (hlo : j = 0 ∨ 2 ^ F.frac ≤ x) (hhi : x ≤ 2 ^ (F.frac + 1)) (hr : IsRoundEven x r) :
    F.IsNearestEven q (j * 2 ^ F.frac + r) := by
  have hu : (0 : ℚ) < 2 ^ (F.emin + j) := zpow_pos two_pos _
  have hstretch := hr.inStretch hlo hhi
  -- distances from the number to the codes of the stretch
  have hdist : ∀ n, F.InStretch j n →
      |q - F.value (j * 2 ^ F.frac + n)| = |x - n| * 2 ^ (F.emin + j) := fun n hn => by
    rw [value_stretch hn, hq, ← sub_mul, abs_mul, abs_of_pos hu]
  -- outside of the stretch, one of its ends is nearer
  have houtside : ∀ c', (∃ n, F.InStretch j n ∧ c' = j * 2 ^ F.frac + n) ∨
      |q - F.value (j * 2 ^ F.frac + r)| < |q - F.value c'| := fun c' => by
    by_cases habove : j * 2 ^ F.frac + 2 ^ (F.frac + 1) < c'
    · have hend : F.InStretch j (2 ^ (F.frac + 1)) :=
        ⟨.inr (Nat.pow_le_pow_right two_pos (Nat.le_succ _)), le_rfl⟩
      have hval := F.value_strictMono habove
      have hqend : q ≤ F.value (j * 2 ^ F.frac + 2 ^ (F.frac + 1)) := by
        rw [value_stretch hend, hq]
        exact mul_le_mul_of_nonneg_right (by exact_mod_cast hhi) hu.le
      right
      calc |q - F.value (j * 2 ^ F.frac + r)|
          ≤ |q - F.value (j * 2 ^ F.frac + 2 ^ (F.frac + 1))| := by
            rw [hdist r hstretch, hdist _ hend]
            exact mul_le_mul_of_nonneg_right (hr.nearest _).1 hu.le
        _ < |q - F.value c'| := by
            rw [abs_of_nonpos (by linarith), abs_of_nonpos (by linarith)]
            linarith
    · by_cases hbelow : j ≠ 0 ∧ c' < j * 2 ^ F.frac + 2 ^ F.frac
      · have hstart : F.InStretch j (2 ^ F.frac) :=
          ⟨.inr le_rfl, Nat.pow_le_pow_right two_pos (Nat.le_succ _)⟩
        have hval := F.value_strictMono hbelow.2
        have hqstart : F.value (j * 2 ^ F.frac + 2 ^ F.frac) ≤ q := by
          rw [value_stretch hstart, hq]
          exact mul_le_mul_of_nonneg_right (by exact_mod_cast hlo.resolve_left hbelow.1) hu.le
        right
        calc |q - F.value (j * 2 ^ F.frac + r)|
            ≤ |q - F.value (j * 2 ^ F.frac + 2 ^ F.frac)| := by
              rw [hdist r hstretch, hdist _ hstart]
              exact mul_le_mul_of_nonneg_right (hr.nearest _).1 hu.le
          _ < |q - F.value c'| := by
              rw [abs_of_nonneg (by linarith), abs_of_nonneg (by linarith)]
              linarith
      · left
        refine ⟨c' - j * 2 ^ F.frac, ⟨?_, Nat.sub_le_iff_le_add'.mpr (not_lt.mp habove)⟩, ?_⟩
        · by_cases hj : j = 0
          · exact .inl hj
          · exact .inr (by have := not_and.mp hbelow hj; omega)
        · by_cases hj : j = 0
          · simp [hj]
          · have := not_and.mp hbelow hj
            omega
  refine ⟨fun c' => ?_, fun c' hne heq => ?_⟩
  · obtain ⟨n, hn, rfl⟩ | hlt := houtside c'
    · rw [hdist r hstretch, hdist n hn]
      exact mul_le_mul_of_nonneg_right (hr.nearest n).1 hu.le
    · exact hlt.le
  · obtain ⟨n, hn, rfl⟩ | hlt := houtside c'
    · rw [hdist r hstretch, hdist n hn] at heq
      have heven := (hr.nearest n).2 (fun h => hne (by rw [h]))
        (mul_right_cancel₀ hu.ne' heq)
      exact ((Nat.even_pow.mpr ⟨even_two, hfrac.ne'⟩).mul_left j).add heven
    · exact absurd heq hlt.ne

/-- The code of a nonnegative number: its stretch is found from the number of bits of its
integer part. -/
def round (F : BinaryFormat) (q : ℚ) : ℕ :=
  let x := q / 2 ^ F.emin
  let j := ⌊x⌋₊.size - (F.frac + 1)
  j * 2 ^ F.frac + roundEven (x / 2 ^ j)

/-- **Rounding is right.** -/
theorem isNearestEven_round (hfrac : 0 < F.frac) (hq : 0 ≤ q) :
    F.IsNearestEven q (F.round q) := by
  have hu : (0 : ℚ) < 2 ^ F.emin := zpow_pos two_pos _
  have hx : 0 ≤ q / 2 ^ F.emin := div_nonneg hq hu.le
  unfold round
  dsimp only
  generalize hj : ⌊q / 2 ^ F.emin⌋₊.size - (F.frac + 1) = j
  have hpow : (0 : ℚ) < 2 ^ j := pow_pos two_pos j
  have hnonneg : 0 ≤ q / 2 ^ F.emin / 2 ^ j := div_nonneg hx hpow.le
  refine isNearestEven_of_stretch hfrac ?_ ?_ ?_ (isRoundEven_roundEven hnonneg)
  · rw [zpow_add₀ two_ne_zero, zpow_natCast]
    field_simp
  · by_cases hzero : j = 0
    · exact .inl hzero
    · right
      have hsize : F.frac + j < ⌊q / 2 ^ F.emin⌋₊.size := by omega
      have hle := (Nat.le_floor_iff hx).mp (Nat.lt_size.mp hsize)
      rw [le_div_iff₀ hpow, ← pow_add]
      exact_mod_cast hle
  · have hsize : ⌊q / 2 ^ F.emin⌋₊.size ≤ F.frac + 1 + j := by omega
    have hlt := (Nat.floor_lt hx).mp (Nat.size_le.mp hsize)
    rw [div_le_iff₀ hpow, ← pow_add]
    exact_mod_cast hlt.le

/-- A value is not rounded. -/
theorem round_value (hfrac : 0 < F.frac) (c : ℕ) : F.round (F.value c) = c :=
  (isNearestEven_round hfrac (F.value_nonneg c)).unique (F.isNearestEven_value c)

theorem value_round_of_mem (hfrac : 0 < F.frac) (h : ∃ c, F.value c = q) :
    F.value (F.round q) = q := by
  obtain ⟨c, rfl⟩ := h
  rw [round_value hfrac]

end BinaryFormat

import Mathlib.Tactic.NormNum
import SparkTP4.BinaryFormat

/-!
# Floating-point data

A datum is a number, an infinity or a NaN. A number has its sign apart from its
magnitude, so there are two zeros, and a datum of a narrow format is one of a wider
format as it stands. The operations are the exact ones followed by a rounding to the
format of the result (`rounded`), which is the only place where a format, and the code
that is its infinity, comes in: an operation whose exact result is a value of the format
is exact (`rounded_of_value`).
-/

/-- A floating-point datum. -/
inductive FloatDatum where
  | nan
  | inf (neg : Bool)
  | fin (neg : Bool) (mag : ℚ)
  deriving DecidableEq

namespace FloatDatum

open BinaryFormat

variable {F : BinaryFormat} {infinity c : ℕ} {s t : Bool} {x y a : ℚ}

/-! ## Formats -/

/-- The datum of a code. -/
def decode (F : BinaryFormat) (infinity : ℕ) (s : Bool) (c : ℕ) : FloatDatum :=
  if c < infinity then .fin s (F.value c) else if c = infinity then .inf s else .nan

/-- The nearest number of the format, the even one of two, or an infinity. -/
def rounded (F : BinaryFormat) (infinity : ℕ) (s : Bool) (x : ℚ) : FloatDatum :=
  if F.round x < infinity then .fin s (F.value (F.round x)) else .inf s

/-- A number of the format is not rounded. -/
theorem rounded_of_value (hfrac : 0 < F.frac) (hc : c < infinity) (hx : F.value c = x) :
    rounded F infinity s x = .fin s x := by
  subst hx
  rw [rounded, round_value hfrac, if_pos hc]

/-- Rounded to fp32. -/
def fp32 (s : Bool) (x : ℚ) : FloatDatum := rounded binary32 0x7F800000 s x

/-- `.to(bfloat16)` -/
def toBf16 : FloatDatum → FloatDatum
  | .nan => .nan
  | .inf s => .inf s
  | .fin s x => rounded bfloat16 0x7F80 s x

/-- `.to(float8_e4m3fn)`, as a byte: the format has no infinity, what does not fit is NaN. -/
def toE4m3 : FloatDatum → ℕ
  | .nan => 127
  | .inf s => s.toNat * 128 + 127
  | .fin s x => s.toNat * 128 + Min.min (e4m3.round x) 127

/-- The datum of an e4m3 byte. -/
def ofE4m3 (b : ℕ) : FloatDatum :=
  if b % 128 = 127 then .nan else .fin (128 ≤ b) (e4m3.value (b % 128))

/-! ## Numbers of few bits -/

theorem binary32_top : binary32.value 0x7F800000 = 2 ^ (128 : ℤ) := by
  have hstretch : binary32.InStretch 254 (2 ^ 23) := ⟨.inr le_rfl, by show 2 ^ 23 ≤ 2 ^ 24; simp⟩
  have hvalue := value_stretch hstretch
  have hcode : 254 * 2 ^ binary32.frac + 2 ^ 23 = 0x7F800000 := rfl
  rw [hcode] at hvalue
  rw [hvalue]
  show ((2 ^ 23 : ℕ) : ℚ) * 2 ^ ((-149 : ℤ) + 254) = 2 ^ (128 : ℤ)
  rw [Nat.cast_pow, Nat.cast_ofNat, ← zpow_natCast, ← zpow_add₀ two_ne_zero]
  norm_num

/-- A number of fp32 below its infinity is not rounded. -/
theorem fp32_of_lt {s : Bool} {x : ℚ} (h : ∃ c, binary32.value c = x) (hx : x < 2 ^ (128 : ℤ)) :
    fp32 s x = .fin s x := by
  obtain ⟨c, hc⟩ := h
  rw [← binary32_top, ← hc, value_lt_value] at hx
  exact rounded_of_value (Nat.succ_pos 22) hx hc

/-- An e4m3 value is a number of four bits. -/
theorem e4m3_dyadic (c : ℕ) : ∃ r : ℕ, r ≤ 15 ∧ ∃ i : ℤ, -9 ≤ i ∧ e4m3.value c = r * 2 ^ i := by
  obtain ⟨j, r, rfl, hlo, hhi⟩ := e4m3.exists_stretch c
  refine ⟨r, Nat.lt_succ_iff.mp hhi, -9 + j, by omega, ?_⟩
  exact value_stretch ⟨hlo, hhi.le⟩

/-! ## Arithmetic in fp32 -/

def abs : FloatDatum → FloatDatum
  | .nan => .nan
  | .inf _ => .inf false
  | .fin _ x => .fin false x

def mul : FloatDatum → FloatDatum → FloatDatum
  | .fin s x, .fin t y => fp32 (s ^^ t) (x * y)
  | .fin s x, .inf t => if x = 0 then .nan else .inf (s ^^ t)
  | .inf s, .fin t y => if y = 0 then .nan else .inf (s ^^ t)
  | .inf s, .inf t => .inf (s ^^ t)
  | _, _ => .nan

def div : FloatDatum → FloatDatum → FloatDatum
  | .fin s x, .fin t y =>
    if y = 0 then if x = 0 then .nan else .inf (s ^^ t) else fp32 (s ^^ t) (x / y)
  | .fin s _, .inf t => .fin (s ^^ t) 0
  | .inf s, .fin t _ => .inf (s ^^ t)
  | _, _ => .nan

/-! ## Comparisons -/

/-- A number with its sign. -/
def signed (s : Bool) (x : ℚ) : ℚ := if s then -x else x

/-- `<` -/
def lt : FloatDatum → FloatDatum → Bool
  | .fin s x, .fin t y => signed s x < signed t y
  | .fin _ _, .inf t => !t
  | .inf s, .fin _ _ => s
  | .inf s, .inf t => s && !t
  | _, _ => false

/-- `==` of one element: a NaN is equal to nothing, the zeros are equal. -/
def same : FloatDatum → FloatDatum → Bool
  | .fin s x, .fin t y => signed s x = signed t y
  | .inf s, .inf t => s = t
  | _, _ => false

theorem same_self : same (.fin s x) (.fin s x) = true := by
  simp [same]

/-- The larger, a NaN if one of the two is. -/
def max : FloatDatum → FloatDatum → FloatDatum
  | .nan, _ => .nan
  | _, .nan => .nan
  | x, y => if x.lt y then y else x

@[simp] theorem max_fin : max (.fin false x) (.fin false y) = .fin false (Max.max x y) := by
  by_cases h : x < y
  · simp [max, lt, signed, h, max_eq_right h.le]
  · simp [max, lt, signed, h, max_eq_left (not_lt.mp h)]

/-- **The largest of nonnegative numbers** is above all of them, and one of them. -/
theorem foldl_max_fin (xs : List ℚ) (a : ℚ) :
    ∃ y, (xs.map (.fin false)).foldl max (.fin false a) = .fin false y ∧
      a ≤ y ∧ (∀ x ∈ xs, x ≤ y) ∧ (y = a ∨ y ∈ xs) := by
  induction xs generalizing a with
  | nil => exact ⟨a, rfl, le_rfl, by simp, .inl rfl⟩
  | cons x xs ih =>
    obtain ⟨y, hfold, hle, hall, hmem⟩ := ih (Max.max a x)
    refine ⟨y, ?_, (le_max_left a x).trans hle, ?_, ?_⟩
    · rw [List.map_cons, List.foldl_cons, max_fin, hfold]
    · simpa [(le_max_right a x).trans hle] using hall
    · obtain rfl | hin := hmem
      · obtain h | h := max_choice a x
        · exact .inl h
        · exact .inr (by simp [h])
      · exact .inr (List.mem_cons_of_mem x hin)

/-! ## Signs -/

/-- The sign of a datum that has one is `s`. -/
def HasSign (s : Bool) : FloatDatum → Prop
  | .nan => True
  | .inf t => t = s
  | .fin t _ => t = s

theorem hasSign_rounded : HasSign s (rounded F infinity s x) := by
  unfold rounded
  split_ifs
  · rfl
  · rfl

theorem HasSign.toBf16 {d : FloatDatum} (h : HasSign s d) : HasSign s d.toBf16 := by
  cases d with
  | nan => trivial
  | inf t => exact h
  | fin t x =>
    obtain rfl : t = s := h
    exact hasSign_rounded

/-- A positive factor keeps the sign. -/
theorem HasSign.mul {d : FloatDatum} (h : HasSign s d) : HasSign s (d.mul (.fin false y)) := by
  cases d with
  | nan => trivial
  | inf t =>
    obtain rfl : t = s := h
    by_cases hy : y = 0
    · simp [FloatDatum.mul, hy, HasSign]
    · simp [FloatDatum.mul, hy, HasSign]
  | fin t x =>
    obtain rfl : t = s := h
    simpa [FloatDatum.mul, fp32] using hasSign_rounded

/-- The datum of a byte, by its sign and its code. -/
theorem ofE4m3_byte (hc : c < 127) : ofE4m3 (s.toNat * 128 + c) = .fin s (e4m3.value c) := by
  have hmod : (s.toNat * 128 + c) % 128 = c := by omega
  have hsign : decide (128 ≤ s.toNat * 128 + c) = s := by
    cases s with
    | false => simpa using hc.trans (by omega)
    | true => simp
  rw [ofE4m3, hmod, if_neg hc.ne, hsign]

theorem ofE4m3_nan : ofE4m3 (s.toNat * 128 + 127) = .nan := by
  cases s <;> rfl

/-- A conversion to e4m3 and back keeps the sign. -/
theorem HasSign.e4m3 {d : FloatDatum} (h : HasSign s d) : HasSign s (ofE4m3 d.toE4m3) := by
  cases d with
  | nan => trivial
  | inf t => exact ofE4m3_nan (s := t) ▸ trivial
  | fin t x =>
    obtain rfl : t = s := h
    show HasSign t (ofE4m3 (t.toNat * 128 + Min.min (BinaryFormat.e4m3.round x) 127))
    obtain hlt | hle := lt_or_ge (BinaryFormat.e4m3.round x) 127
    · rw [min_eq_left hlt.le, ofE4m3_byte hlt]
      rfl
    · rw [min_eq_right hle, ofE4m3_nan]
      trivial

/-- The same number of the same sign is the same datum. -/
theorem HasSign.eq_of_same {d : FloatDatum} (h : HasSign s d)
    (hsame : d.same (.fin s x) = true) : d = .fin s x := by
  cases d with
  | nan => exact nomatch hsame
  | inf t => exact nomatch hsame
  | fin t y =>
    obtain rfl : t = s := h
    cases t with
    | false => simpa [same, signed] using hsame
    | true => simpa [same, signed] using hsame

end FloatDatum

import Mathlib.Data.Int.Log
import SparkTP4.PaddedScales

/-!
# When the repair preserves the layer

The repair itself only ever sets scales of all-zero blocks (`repair_scale`): reading back
what was written, contiguous or not, gives 1.0 where it was due and the loaded scale
elsewhere. The encode hook is what goes wrong. It looks at the scales alone, so once one
of them is zero or negative it replaces those of other blocks too, and a block that is
not all zero then has the scale 1.0 instead of one the encoder would have refused.
-/

namespace PaddedScales

open BinaryFormat FloatDatum

variable {l : Layer} {bn bk a b i j : ℕ} {v : Strided} {x y : FloatDatum}

/-! ## Reading what was written -/

theorem Strided.mem_indices : (a, b) ∈ v.indices ↔ a < v.rows ∧ b < v.cols := by
  simp [Strided.indices]

/-- Two elements at one address are the same. -/
theorem Strided.address_inj {p q : ℕ × ℕ} (hp : p ∈ v.indices) (hq : q ∈ v.indices)
    (h : v.address p = v.address q) : p = q := by
  obtain ⟨hp1, hp2⟩ := Strided.mem_indices.mp hp
  obtain ⟨hq1, hq2⟩ := Strided.mem_indices.mp hq
  obtain ⟨h1, h2⟩ := v.apart _ hp1 _ hp2 _ hq1 _ hq2 h
  exact Prod.ext h1 h2

/-- An element that is not written keeps its word. -/
theorem write_of_not_mem {f : ℕ × ℕ → ℕ} {mem : ℕ → ℕ} {ps : List (ℕ × ℕ)} {q : ℕ × ℕ}
    (hq : q ∈ v.indices) (hps : ∀ p ∈ ps, p ∈ v.indices) (hnot : q ∉ ps) :
    write v f mem ps (v.address q) = mem (v.address q) := by
  induction ps generalizing mem with
  | nil => rfl
  | cons p ps ih =>
    obtain ⟨hp, hrest⟩ := List.forall_mem_cons.mp hps
    rw [List.mem_cons, not_or] at hnot
    have hne : v.address q ≠ v.address p := fun h => hnot.1 (Strided.address_inj hq hp h)
    show write v f (Function.update mem (v.address p) (f p)) ps (v.address q) = _
    rw [ih hrest hnot.2, Function.update_of_ne hne]

/-- An element that is written has the word. -/
theorem write_of_mem {f : ℕ × ℕ → ℕ} {mem : ℕ → ℕ} {ps : List (ℕ × ℕ)} {q : ℕ × ℕ}
    (hps : ∀ p ∈ ps, p ∈ v.indices) (hq : q ∈ ps) :
    write v f mem ps (v.address q) = f q := by
  induction ps generalizing mem with
  | nil => exact absurd hq List.not_mem_nil
  | cons p ps ih =>
    obtain ⟨hp, hrest⟩ := List.forall_mem_cons.mp hps
    show write v f (Function.update mem (v.address p) (f p)) ps (v.address q) = _
    by_cases hlater : q ∈ ps
    · exact ih hrest hlater
    · obtain rfl : q = p := (List.mem_cons.mp hq).resolve_right hlater
      rw [write_of_not_mem hp hrest hlater, Function.update_self]

/-- **What was written**, whatever the strides. -/
theorem repairedMem_address (ha : a < l.ws.rows) (hb : b < l.ws.cols) :
    repairedMem l bn bk (l.ws.address (a, b)) =
      if fix l bn bk (a, b) = true then one else l.scale a b := by
  have hmem : (a, b) ∈ l.ws.indices := Strided.mem_indices.mpr ⟨ha, hb⟩
  unfold repairedMem
  split_ifs with hc hfix hfix
  · exact write_of_mem (fun p hp => (List.mem_filter.mp hp).1) (List.mem_filter.mpr ⟨hmem, hfix⟩)
  · exact write_of_not_mem hmem (fun p hp => (List.mem_filter.mp hp).1)
      fun h => hfix (List.mem_filter.mp h).2
  · rw [write_of_mem (fun p hp => hp) hmem, if_pos hfix]
  · rw [write_of_mem (fun p hp => hp) hmem, if_neg hfix]

/-! ## The repair -/

theorem untiled_eq_false : untiled l bn bk = some false ↔ 0 < bn ∧ 0 < bk ∧ l.n % bn = 0 ∧
    l.k % bk = 0 ∧ l.ws.rows = l.n / bn ∧ l.ws.cols = l.k / bk := by
  unfold untiled
  split_ifs with h1 h2 h3
  · simp [h1]
  · simp [h2]
  · simp [h3]
  · simp [Nat.pos_of_ne_zero h1, Nat.pos_of_ne_zero h3, not_not.mp h2, and_assoc]

/-- The reduction over a block of a shape that tiles. -/
theorem zero_iff (ht : untiled l bn bk = some false) (ha : a < l.ws.rows) (hb : b < l.ws.cols) :
    zero l bn bk (a, b) = true ↔ ZeroBlock l bn bk a b := by
  obtain ⟨hbn, hbk, hn, hk, hrows, hcols⟩ := untiled_eq_false.mp ht
  simp only [zero, List.all_eq_true, List.mem_range]
  constructor
  · rintro h i hi j hj rfl rfl
    have hcode := h (i % bn) (Nat.mod_lt i hbn) (j % bk) (Nat.mod_lt j hbk)
    rwa [Nat.div_add_mod', Nat.div_add_mod'] at hcode
  · intro h r hr c hc
    have hi : a * bn + r < l.n := by
      have hle : (a + 1) * bn ≤ l.n / bn * bn := Nat.mul_le_mul_right bn (hrows ▸ ha)
      rw [Nat.div_mul_cancel (Nat.dvd_of_mod_eq_zero hn), Nat.add_one_mul] at hle
      omega
    have hj : b * bk + c < l.k := by
      have hle : (b + 1) * bk ≤ l.k / bk * bk := Nat.mul_le_mul_right bk (hcols ▸ hb)
      rw [Nat.div_mul_cancel (Nat.dvd_of_mod_eq_zero hk), Nat.add_one_mul] at hle
      omega
    refine h _ hi _ hj ?_ ?_
    · rw [Nat.mul_comm, Nat.mul_add_div hbn, Nat.div_eq_of_lt hr, Nat.add_zero]
    · rw [Nat.mul_comm, Nat.mul_add_div hbk, Nat.div_eq_of_lt hc, Nat.add_zero]

theorem fix_iff (ht : untiled l bn bk = some false) (ha : a < l.ws.rows) (hb : b < l.ws.cols) :
    fix l bn bk (a, b) = true ↔ Repaired l bn bk a b := by
  simp [fix, Repaired, ht, zero_iff ht ha hb]

/-- **Either there is nothing to repair, or the scales are written.** -/
theorem repair_cases (hl : l.float32 = true) :
    ((repair l bn bk).1 = l ∧ ∀ a < l.ws.rows, ∀ b < l.ws.cols, ¬Repaired l bn bk a b) ∨
      (untiled l bn bk = some false ∧
        (repair l bn bk).1 = { l with mem := repairedMem l bn bk }) := by
  unfold repair
  simp only [hl, Bool.not_true, Bool.false_eq_true, if_false]
  by_cases hbads : l.ws.indices.countP (fun p => bad (l.scale p.1 p.2)) = 0
  · rw [if_pos hbads]
    refine .inl ⟨rfl, fun a ha b hb hrep => ?_⟩
    exact List.countP_eq_zero.mp hbads (a, b) (Strided.mem_indices.mpr ⟨ha, hb⟩) hrep.2.1
  rw [if_neg hbads]
  cases ht : untiled l bn bk with
  | none => exact .inl ⟨rfl, fun a _ b _ hrep => (nomatch ht.symm.trans hrep.1)⟩
  | some t =>
    cases t with
    | true => exact .inl ⟨rfl, fun a _ b _ hrep => (nomatch ht.symm.trans hrep.1)⟩
    | false =>
      dsimp only
      by_cases hfixes : l.ws.indices.countP (fix l bn bk ·) = 0
      · rw [if_pos hfixes]
        refine .inl ⟨rfl, fun a ha b hb hrep => ?_⟩
        exact List.countP_eq_zero.mp hfixes (a, b) (Strided.mem_indices.mpr ⟨ha, hb⟩)
          ((fix_iff ht ha hb).mpr hrep)
      · rw [if_neg hfixes]
        exact .inr ⟨rfl, by simp⟩

/-- The shapes and the weight stay. -/
theorem repair_shape (hl : l.float32 = true) :
    (repair l bn bk).1.ws = l.ws ∧ (repair l bn bk).1.weight = l.weight := by
  obtain ⟨h, -⟩ | ⟨-, h⟩ := @repair_cases l bn bk hl
  · rw [h]
    exact ⟨rfl, rfl⟩
  · rw [h]
    exact ⟨rfl, rfl⟩

/-- **A scale that is repaired is 1.0.** -/
theorem repair_of_repaired (hl : l.float32 = true) (ha : a < l.ws.rows) (hb : b < l.ws.cols)
    (hrep : Repaired l bn bk a b) : (repair l bn bk).1.scale a b = one := by
  obtain ⟨-, h⟩ | ⟨ht, h⟩ := @repair_cases l bn bk hl
  · exact absurd hrep (h a ha b hb)
  · rw [h]
    show repairedMem l bn bk (l.ws.address (a, b)) = one
    rw [repairedMem_address ha hb, if_pos ((fix_iff ht ha hb).mpr hrep)]

/-- **Every other scale is the loaded one.** -/
theorem repair_of_not_repaired (hl : l.float32 = true) (ha : a < l.ws.rows) (hb : b < l.ws.cols)
    (hrep : ¬Repaired l bn bk a b) : (repair l bn bk).1.scale a b = l.scale a b := by
  obtain ⟨h, -⟩ | ⟨ht, h⟩ := @repair_cases l bn bk hl
  · rw [h]
  · rw [h]
    show repairedMem l bn bk (l.ws.address (a, b)) = l.scale a b
    rw [repairedMem_address ha hb, if_neg fun hfix => hrep ((fix_iff ht ha hb).mp hfix)]

/-! ## The hook -/

theorem scaleOf_one : scaleOf one = .fin false 1 := by decide +kernel

theorem isPow2_one : IsPow2 (.fin false 1) := ⟨0, by rw [zpow_zero]⟩

theorem positive_of_isPow2 (h : IsPow2 x) : positive x = true := by
  obtain ⟨e, rfl⟩ := h
  have hpos : (0 : ℚ) < 2 ^ e := zpow_pos two_pos e
  simpa [positive, lt, signed] using hpos

/-- A scale is zero or negative, after the repair. -/
def Fires (l : Layer) (bn bk : ℕ) : Prop := ∃ a < l.ws.rows, ∃ b < l.ws.cols,
  ¬Repaired l bn bk a b ∧ notPositive (scaleOf (l.scale a b)) = true

theorem fires_iff (hl : l.float32 = true) :
    ((repair l bn bk).1.ws.indices.any fun p =>
      notPositive (scaleOf ((repair l bn bk).1.scale p.1 p.2))) = true ↔ Fires l bn bk := by
  rw [(repair_shape hl).1, List.any_eq_true]
  constructor
  · rintro ⟨⟨a, b⟩, hmem, h⟩
    obtain ⟨ha, hb⟩ := Strided.mem_indices.mp hmem
    by_cases hrep : Repaired l bn bk a b
    · rw [repair_of_repaired hl ha hb hrep, scaleOf_one] at h
      exact absurd h (by decide +kernel)
    · rw [repair_of_not_repaired hl ha hb hrep] at h
      exact ⟨a, ha, b, hb, hrep, h⟩
  · rintro ⟨a, ha, b, hb, hrep, h⟩
    refine ⟨(a, b), Strided.mem_indices.mpr ⟨ha, hb⟩, ?_⟩
    rw [repair_of_not_repaired hl ha hb hrep]
    exact h

/-- **What the encoder is given**: 1.0 for a repaired scale, and for one that is not positive if
the hook fires. -/
theorem hooked_eq (hl : l.float32 = true) (ha : a < l.ws.rows) (hb : b < l.ws.cols) :
    (Repaired l bn bk a b → hooked (repair l bn bk).1 a b = .fin false 1) ∧
      (¬Repaired l bn bk a b → positive (scaleOf (l.scale a b)) = true →
        hooked (repair l bn bk).1 a b = scaleOf (l.scale a b)) ∧
      (¬Repaired l bn bk a b → positive (scaleOf (l.scale a b)) = false → Fires l bn bk →
        hooked (repair l bn bk).1 a b = .fin false 1) ∧
      (¬Repaired l bn bk a b → ¬Fires l bn bk →
        hooked (repair l bn bk).1 a b = scaleOf (l.scale a b)) := by
  have hfires := @fires_iff l bn bk hl
  unfold hooked
  refine ⟨fun hrep => ?_, fun hrep hpos => ?_, fun hrep hpos hf => ?_, fun hrep hf => ?_⟩
  · rw [repair_of_repaired hl ha hb hrep, scaleOf_one, ite_self]
  · rw [repair_of_not_repaired hl ha hb hrep, hpos]
    simp
  · rw [repair_of_not_repaired hl ha hb hrep, hpos, hfires.mpr hf]
    simp
  · rw [repair_of_not_repaired hl ha hb hrep, Bool.eq_false_iff.mpr fun h => hf (hfires.mp h)]
    simp

/-! ## Elements -/

/-- A code is zero, NaN, or that of another number. -/
theorem ofE4m3_cases (code : ℕ) :
    (isZero code = true ∧ ∃ s, ofE4m3 code = .fin s 0) ∨
      (isZero code = false ∧ code % 128 = 127 ∧ ofE4m3 code = .nan) ∨
        (isZero code = false ∧ code % 128 ≠ 127 ∧
          ∃ s x, 0 < x ∧ (∃ c, x = e4m3.value c) ∧ ofE4m3 code = .fin s x) := by
  have hmod : code &&& 0x7F = code % 128 := Nat.and_two_pow_sub_one_eq_mod code 7
  unfold isZero ofE4m3
  rw [hmod]
  by_cases hzero : code % 128 = 0
  · exact .inl ⟨by simp [hzero], decide (128 ≤ code), by simp [hzero]⟩
  by_cases hnan : code % 128 = 127
  · exact .inr (.inl ⟨by simp [hzero], hnan, by simp [hnan]⟩)
  · refine .inr (.inr ⟨by simp [hzero], hnan, decide (128 ≤ code), _, ?_, ⟨code % 128, rfl⟩, ?_⟩)
    · rw [← value_zero e4m3, value_lt_value]
      omega
    · rw [if_neg hnan]

theorem fp32_zero (s : Bool) : fp32 s 0 = .fin s 0 :=
  fp32_of_lt ⟨0, value_zero _⟩ (zpow_pos two_pos _)

/-- An e4m3 value is one of fp32. -/
theorem fp32_e4m3 (s : Bool) (c : ℕ) (hc : e4m3.value c < 2 ^ (128 : ℤ)) :
    fp32 s (e4m3.value c) = .fin s (e4m3.value c) := by
  obtain ⟨r, hr, i, hi, hval⟩ := e4m3_dyadic c
  refine fp32_of_lt ?_ hc
  rw [hval]
  exact binary32.exists_value_eq (show r ≤ 2 ^ 24 by omega) (show (-149 : ℤ) ≤ i by omega)

/-- A scale of 1.0 is the value itself. -/
theorem mul_one_eq (code : ℕ) : (ofE4m3 code).mul (.fin false 1) = ofE4m3 code := by
  by_cases hnan : code % 128 = 127
  · rw [ofE4m3, if_pos hnan]
    rfl
  · have hlt : e4m3.value (code % 128) < 2 ^ (128 : ℤ) := by
      have hle : e4m3.value (code % 128) ≤ e4m3.value 126 :=
        value_le_value.mpr (by have := Nat.mod_lt code (show 0 < 128 by simp); omega)
      have htop : e4m3.value 126 < 2 ^ (128 : ℤ) := by decide +kernel
      exact hle.trans_lt htop
    rw [ofE4m3, if_neg hnan]
    show fp32 (_ ^^ false) (_ * 1) = _
    rw [Bool.xor_false, mul_one, fp32_e4m3 _ _ hlt]

theorem agree_zero (s : Bool) : Agree (.fin s 0) (.fin false 0) := by
  cases s <;> exact .inr rfl

/-- A magnitude that is decoded or rounded is not negative. -/
theorem fp32_cases (s : Bool) (q : ℚ) : fp32 s q = .inf s ∨ ∃ z, 0 ≤ z ∧ fp32 s q = .fin s z := by
  unfold fp32 rounded
  split_ifs
  · exact .inr ⟨_, binary32.value_nonneg _, rfl⟩
  · exact .inl rfl

theorem scaleOf_nonneg {word : ℕ} {s : Bool} {q : ℚ} (h : scaleOf word = .fin s q) : 0 ≤ q := by
  unfold scaleOf decode at h
  split_ifs at h
  injection h with _ hq
  rw [← hq]
  exact binary32.value_nonneg _

theorem not_agree_inf {s t : Bool} {q : ℚ} : ¬Agree (.fin s q) (.inf t) := by
  rintro (h | h)
  · exact nomatch h
  · exact nomatch h

theorem not_agree_nan {s : Bool} {q : ℚ} : ¬Agree (.fin s q) .nan := by
  rintro (h | h)
  · exact nomatch h
  · exact nomatch h

/-- A positive number is not its product with a scale that is not positive. -/
theorem not_agree_mul {word : ℕ} {s : Bool} {q : ℚ} (hq : 0 < q)
    (hpos : positive (scaleOf word) = false) :
    ¬Agree (.fin s q) ((FloatDatum.fin s q).mul (scaleOf word)) := by
  cases hw : scaleOf word with
  | nan => exact not_agree_nan
  | inf t =>
    show ¬Agree _ (if q = 0 then _ else _)
    rw [if_neg hq.ne']
    exact not_agree_inf
  | fin t y =>
    have hy := scaleOf_nonneg hw
    show ¬Agree _ (fp32 (s ^^ t) (q * y))
    obtain h | ⟨z, hz, h⟩ := fp32_cases (s ^^ t) (q * y)
    · rw [h]
      exact not_agree_inf
    cases t with
    | true =>
      -- the sign is the other one
      rw [h]
      rintro (heq | hsame)
      · injection heq with hs
        cases s <;> exact nomatch hs
      · cases s with
        | false =>
          have hval : q = -z := by simpa [same, signed] using hsame
          linarith
        | true =>
          have hval : -q = z := by simpa [same, signed] using hsame
          linarith
    | false =>
      have hzero : y = 0 := by
        rw [hw] at hpos
        have hle : y ≤ 0 := by simpa [positive, lt, signed] using hpos
        exact le_antisymm hle hy
      rw [hzero, mul_zero, Bool.xor_false, fp32_zero]
      rintro (heq | hsame)
      · injection heq with _ hval
        exact hq.ne' hval
      · cases s with
        | false => exact hq.ne' (by simpa [same, signed] using hsame)
        | true => exact hq.ne' (by simpa [same, signed] using hsame)

/-- **Which elements a replaced scale changes.** -/
theorem agree_mul_iff {word code : ℕ} (hpos : positive (scaleOf word) = false) :
    Agree (ofE4m3 code) ((ofE4m3 code).mul (scaleOf word)) ↔
      ¬(isZero code = false ∧ code % 128 ≠ 127 ∨
        isZero code = true ∧ ∀ s y, scaleOf word ≠ .fin s y) := by
  obtain ⟨hzero, s, hs⟩ | ⟨hzero, hnan, hs⟩ | ⟨hzero, hnan, s, q, hq, -, hs⟩ := ofE4m3_cases code
  · rw [hs, hzero]
    cases hw : scaleOf word with
    | nan =>
      have hmul : (FloatDatum.fin s 0).mul .nan = .nan := rfl
      rw [hmul]
      simpa using not_agree_nan
    | inf t =>
      have hmul : (FloatDatum.fin s 0).mul (.inf t) = .nan := by
        show (if (0 : ℚ) = 0 then FloatDatum.nan else .inf (s ^^ t)) = _
        rw [if_pos rfl]
      rw [hmul]
      simpa using not_agree_nan
    | fin t y =>
      have hmul : (FloatDatum.fin s 0).mul (.fin t y) = .fin (s ^^ t) 0 := by
        show fp32 (s ^^ t) (0 * y) = _
        rw [zero_mul, fp32_zero]
      rw [hmul]
      simp [Agree, same, signed]
  · rw [hs, hzero, hnan]
    have hmul : FloatDatum.nan.mul (scaleOf word) = .nan := by cases scaleOf word <;> rfl
    rw [hmul]
    simp [Agree]
  · rw [hs, hzero]
    simp [hnan, not_agree_mul hq hpos]

/-! ## The claim -/

section Claim

variable {encoder : ℕ → ℕ → Scales → Option Scales}

/-- A repaired scale is that of an all-zero block. -/
theorem not_repaired (h : ¬ZeroBlock l bn bk a b) : ¬Repaired l bn bk a b := fun hrep =>
  h hrep.2.2

/-- **What the encoder returns, if anything.** -/
theorem prepare_eq_some (henc : IsEncoder encoder) (hl : l.float32 = true) {e : Scales}
    (h : prepare encoder l bn bk = some e) : ∀ a < l.ws.rows, ∀ b < l.ws.cols,
      IsPow2 (hooked (repair l bn bk).1 a b) ∧ e a b = hooked (repair l bn bk).1 a b := by
  unfold prepare at h
  dsimp only at h
  rw [(repair_shape hl).1] at h
  have hpow : ∀ a < l.ws.rows, ∀ b < l.ws.cols, IsPow2 (hooked (repair l bn bk).1 a b) := by
    by_contra hnot
    push Not at hnot
    rw [henc.raises _ _ _ hnot] at h
    exact nomatch h
  obtain ⟨g, hg, hsame⟩ := henc.keeps _ _ _ hpow
  obtain rfl : g = e := Option.some.inj (hg.symm.trans h)
  exact fun a ha b hb => ⟨hpow a ha b hb, hsame a ha b hb⟩

/-- Where the hooks do not slip the layer is preserved. -/
theorem preserved_of_not_slips (henc : IsEncoder encoder) (hl : l.float32 = true)
    (h : ¬Slips l bn bk) : Preserved l bn bk encoder where
  scale a ha b hb hzero := repair_of_not_repaired hl ha hb (not_repaired hzero)
  element e he i hi j hj hin x hx := by
    have hall := prepare_eq_some henc hl he
    obtain ⟨hpow, heq⟩ := hall _ hin.1 _ hin.2
    rw [heq]
    obtain ⟨hzero, rfl⟩ | ⟨hzero, rfl⟩ := hx
    · -- an all-zero block is zero with any power of two
      obtain ⟨k, hk⟩ := hpow
      obtain ⟨-, s, hs⟩ | ⟨hnot, -⟩ | ⟨hnot, -⟩ := ofE4m3_cases (l.weight i j)
      · rw [hs, hk]
        show Agree (fp32 (s ^^ false) (0 * 2 ^ k)) _
        rw [zero_mul, fp32_zero]
        exact agree_zero _
      · exact absurd (hzero i hi j hj rfl rfl) (by simp [hnot])
      · exact absurd (hzero i hi j hj rfl rfl) (by simp [hnot])
    · have hrep := not_repaired hzero
      obtain ⟨-, hkeep, hreplace, hquiet⟩ := @hooked_eq l bn bk _ _ hl hin.1 hin.2
      by_cases hfires : Fires l bn bk
      · cases hpos : positive (scaleOf (l.scale (i / bn) (j / bk))) with
        | true =>
          rw [hkeep hrep hpos]
          exact .inl rfl
        | false =>
          rw [hreplace hrep hpos hfires, mul_one_eq]
          by_contra hnot
          refine h ⟨fun a ha b hb hr hp => ?_, hfires, i, hi, j, hj, hin, hzero, hpos, ?_⟩
          · have hpow' := (hall a ha b hb).1
            rwa [(hooked_eq hl ha hb).2.1 hr hp] at hpow'
          · rw [agree_mul_iff hpos, not_not] at hnot
            exact hnot
      · rw [hquiet hrep hfires]
        exact .inl rfl

/-- Where they slip an element is changed. -/
theorem not_preserved_of_slips (henc : IsEncoder encoder) (hl : l.float32 = true)
    (h : Slips l bn bk) : ¬Preserved l bn bk encoder := by
  intro hpres
  obtain ⟨hpow2, hfires, i, hi, j, hj, hin, hzero, hpos, hchanges⟩ := h
  -- the encoder takes what it is given
  have hpow : ∀ a < l.ws.rows, ∀ b < l.ws.cols, IsPow2 (hooked (repair l bn bk).1 a b) := by
    intro a ha b hb
    obtain ⟨hone, hkeep, hreplace, -⟩ := @hooked_eq l bn bk _ _ hl ha hb
    by_cases hrep : Repaired l bn bk a b
    · rw [hone hrep]
      exact isPow2_one
    · cases hp : positive (scaleOf (l.scale a b)) with
      | true =>
        rw [hkeep hrep hp]
        exact hpow2 a ha b hb hrep hp
      | false =>
        rw [hreplace hrep hp hfires]
        exact isPow2_one
  obtain ⟨e, he, hsame⟩ := henc.keeps _ _ _ hpow
  have hprep : prepare encoder l bn bk = some e := by
    unfold prepare
    dsimp only
    rw [(repair_shape hl).1]
    exact he
  have hagree := hpres.element e hprep i hi j hj hin _ (.inr ⟨hzero, rfl⟩)
  obtain ⟨-, -, hreplace, -⟩ := @hooked_eq l bn bk _ _ hl hin.1 hin.2
  rw [hsame _ hin.1 _ hin.2, hreplace (not_repaired hzero) hpos hfires, mul_one_eq,
    agree_mul_iff hpos] at hagree
  exact hagree hchanges

/-- **The repair preserves the layer** exactly where the encode hook does not slip. -/
theorem preserved_iff (henc : IsEncoder encoder) (hl : l.float32 = true) :
    Preserved l bn bk encoder ↔ ¬Slips l bn bk :=
  ⟨fun h hs => not_preserved_of_slips henc hl hs h, preserved_of_not_slips henc hl⟩

end Claim

/-! ## Two layers -/

instance (x : FloatDatum) : Decidable (IsPow2 x) :=
  match x with
  | .nan => isFalse fun ⟨_, h⟩ => (nomatch h)
  | .inf _ => isFalse fun ⟨_, h⟩ => (nomatch h)
  | .fin true _ => isFalse fun ⟨_, h⟩ => (nomatch h)
  | .fin false q => decidable_of_iff (q = 2 ^ Int.log 2 q) <| by
    constructor
    · intro h
      exact ⟨Int.log 2 q, congrArg _ h⟩
    · rintro ⟨e, h⟩
      injection h with _ hq
      have hlog : Int.log 2 ((2 : ℕ) ^ e : ℚ) = e := Int.log_zpow Nat.one_lt_two e
      rw [Nat.cast_ofNat] at hlog
      rw [hq, hlog]

/-- An encoder that does what is taken of it. -/
def strictEncoder (sn sk : ℕ) (f : Scales) : Option Scales :=
  if ∀ a < sn, ∀ b < sk, IsPow2 (f a b) then some f else none

theorem isEncoder_strictEncoder : IsEncoder strictEncoder where
  keeps _ _ f h := ⟨f, if_pos h, fun _ _ _ _ => rfl⟩
  raises _ _ _ h := if_neg fun hall => by
    obtain ⟨a, ha, b, hb, hnot⟩ := h
    exact hnot (hall a ha b hb)

/-- A layer of one element, which is a block. -/
def single (code word : ℕ) : Layer where
  n := 1
  k := 1
  weight _ _ := code
  float32 := true
  ws :=
    { rows := 1
      cols := 1
      s0 := 1
      s1 := 1
      apart := by
        intro a ha b hb a' ha' b' hb' _
        exact ⟨by omega, by omega⟩ }
  mem _ := word

/-- A padded layer with a scale that is NaN is preserved. -/
theorem preserved_single : Preserved (single 0x80 0x7FC00000) 1 1 strictEncoder := by
  refine (preserved_iff isEncoder_strictEncoder rfl).mpr fun h => ?_
  obtain ⟨i, hi, j, hj, -, hzero, -⟩ := h.changes
  have hcode : isZero 0x80 = true := by decide
  exact hzero fun _ _ _ _ _ _ => hcode

theorem slips_single : Slips (single 0x38 0xC0000000) 1 1 where
  pow2 a _ b _ _ hpos := by
    have hneg : positive (scaleOf 0xC0000000) = false := by decide +kernel
    exact absurd (hneg.symm.trans hpos) Bool.false_ne_true
  fires := by
    refine ⟨0, by simp [single], 0, by simp [single], fun hrep => ?_, by decide +kernel⟩
    exact absurd (hrep.2.2 0 (by simp [single]) 0 (by simp [single]) rfl rfl) (by decide)
  changes := by
    refine ⟨0, by simp [single], 0, by simp [single], ⟨by simp [single], by simp [single]⟩,
      fun hzero => ?_, by decide +kernel, .inl ⟨by decide, by decide⟩⟩
    exact absurd (hzero 0 (by simp [single]) 0 (by simp [single]) rfl rfl) (by decide)

/-- **A one with the scale -2.0 becomes a one**: the repair leaves the scale alone, and the hook
hides it from the encoder. -/
theorem not_preserved_single :
    ¬∀ encoder, IsEncoder encoder → ∀ l : Layer, l.float32 = true → ∀ bn bk,
      Preserved l bn bk encoder := fun h =>
  not_preserved_of_slips isEncoder_strictEncoder rfl slips_single
    (h strictEncoder isEncoder_strictEncoder (single 0x38 0xC0000000) rfl 1 1)

end PaddedScales

import Mathlib.Algebra.Order.Floor.Ring
import SparkTP4.FloatDatum

/-!
# The fp8 twin of a wo_a weight

The checkpoint holds `wo_a` as e4m3 values with a power-of-two scale for each block of
32 by 32, the engine as bf16. `make_twin` recovers e4m3 values and exponents from the
bf16 weight alone and keeps them when they give the weight back; three kernels rebuild
the weight from them. `TwinRegistry` says which weight a twin is taken for; here it is
what a twin holds.

A tensor is its memory: a function of the offset of an element. The builder sees the
weight as `[2, 32, 32, 128, 32]`, the kernels compute their own offsets. `log2` of an
fp32 number is a parameter; `exp2` of an integer is exact.
-/

namespace WoATwin

open FloatDatum

/-! ## Weights and twins -/

/-- A bf16 number: its sign and the code of its magnitude. -/
structure Bf16 where
  sign : Bool
  code : ℕ
  lt : code < 2 ^ 15

/-- `.float()` -/
def Bf16.datum (b : Bf16) : FloatDatum := decode .bfloat16 0x7F80 b.sign b.code

/-- The memory of a bf16 weight `[2, 1024, 4096]`. -/
abbrev Weight := ℕ → Bf16

/-- The number of its elements. -/
def size : ℕ := 2 * 1024 * 4096

/-- The element of a group, a row and a column. -/
def Weight.entry (w : Weight) (g r c : ℕ) : FloatDatum := (w ((g * 1024 + r) * 4096 + c)).datum

/-- A twin: the memory of the e4m3 values `[2, 1024, 4096]` and of the exponents
`[2, 32, 128]`, in bytes. -/
structure Twin where
  values : ℕ → ℕ
  exponents : ℕ → ℕ

/-! ## The builder -/

section Build

variable (log2 : ℚ → ℚ) (w : Weight)

/-- An element of `wf`, the view `[2, 32, 32, 128, 32]`. -/
def wf (g rb i cb j : ℕ) : FloatDatum :=
  (w ((((g * 32 + rb) * 32 + i) * 128 + cb) * 32 + j)).datum

/-- `wf.abs().amax(dim=(2, 4))` -/
def blockAmax (g rb cb : ℕ) : FloatDatum :=
  ((List.range 32).flatMap fun i => (List.range 32).map fun j => (wf w g rb i cb j).abs).foldl
    FloatDatum.max (.fin false 0)

/-- `ceil(log2(x)).clamp(-127, 127)`, `none` for a NaN. -/
def ceilLog2 : FloatDatum → Option ℤ
  | .nan => none
  | .inf _ => some 127
  | .fin _ x => some (min (max ⌈log2 x⌉ (-127)) 127)

/-- `e` of a block. -/
def exponent (g rb cb : ℕ) : Option ℤ :=
  let amax := (blockAmax w g rb cb).max (.fin false (2 ^ (-126 : ℤ)))
  ceilLog2 log2 (amax.div (.fin false 448))

/-- `exp2` -/
def exp2 : Option ℤ → FloatDatum
  | none => .nan
  | some e => .fin false (2 ^ e)

/-- The exponent an element is scaled with: that of the block the view has it in. -/
def exponentAt (p : ℕ) : Option ℤ := exponent log2 w (p / 4194304) (p / 131072 % 32) (p / 32 % 128)

/-- `wf / scale` -/
def quotient (p : ℕ) : FloatDatum := (w p).datum.div (exp2 (exponentAt log2 w p))

/-- `q` -/
def quantized (p : ℕ) : ℕ := (quotient log2 w p).toE4m3

/-- `back` -/
def back (p : ℕ) : FloatDatum :=
  ((ofE4m3 (quantized log2 w p)).mul (exp2 (exponentAt log2 w p))).toBf16

/-- `(e + 127).to(uint8)`. Whatever a NaN gives, no twin holds it. -/
def exponentByte : Option ℤ → ℕ
  | none => 0
  | some e => (e + 127).toNat % 256

/-- The memory of the exponents. -/
def exponentBytes (b : ℕ) : ℕ := exponentByte (exponent log2 w (b / 4096) (b / 128 % 32) (b % 128))

/-- `make_twin` -/
def makeTwin : Option Twin :=
  if ∀ p < size, (back log2 w p).same (w p).datum then
    some ⟨quantized log2 w, exponentBytes log2 w⟩
  else none

end Build

/-! ## The kernels -/

section Kernels

variable (t : Twin)

/-- `(w8.to(float32) * exp2(e.to(float32) - 127.0)).to(bfloat16)`, of a byte of each memory. -/
def rebuilt (value exponent : ℕ) : FloatDatum :=
  ((ofE4m3 value).mul (exp2 (some (exponent - 127)))).toBf16

/-- `_wo_a_partial_w8`: the weight of a lane in step `i` of a program. -/
def partialTile (tile group split i kk nn : ℕ) : FloatDatum :=
  let n := tile * 64 + nn
  let offset := split * 512 + kk + i * 128
  rebuilt (t.values ((group * 1024 + n) * 4096 + offset))
    (t.exponents ((group * 32 + n / 32) * 128 + offset / 32))

/-- A row of `_MID_CFG`: `split_k`, `BM`, `BN` and the number of warps. -/
structure MidCfg where
  splitK : ℕ
  bm : ℕ
  bn : ℕ
  warps : ℕ

/-- `_MID_CFG` -/
def midCfg : List (ℕ × MidCfg) :=
  [(16, ⟨4, 16, 64, 8⟩), (32, ⟨2, 32, 32, 4⟩), (64, ⟨1, 64, 32, 4⟩), (128, ⟨1, 32, 64, 4⟩),
    (192, ⟨1, 64, 32, 4⟩)]

/-- `_wo_a_mid_kernel`: the weight of a lane in step `step` of a program. -/
def midTile (cfg : MidCfg) (pidN g pidK step kk nn : ℕ) : FloatDatum :=
  let n := pidN * cfg.bn + nn
  let k := pidK * (4096 / cfg.splitK) + step * 128 + kk
  rebuilt (t.values (g * 1024 * 4096 + n * 4096 + k))
    (t.exponents (g * 32 * 128 + n / 32 * 128 + k / 32))

/-- `_dequant_kernel`: where a lane of a program stores, and what. -/
def dequantStore (g rb cb i j : ℕ) : ℕ × FloatDatum :=
  let r := rb * 32 + i
  let c := cb * 32 + j
  let off := g * 1024 * 4096 + r * 4096 + c
  (off, rebuilt (t.values off) (t.exponents (g * 32 * 128 + rb * 128 + cb)))

end Kernels

/-! ## What is claimed -/

/-- **A checkpoint weight**: every block is e4m3 values, no NaN, times a power of two, and bf16
holds the products. -/
def Checkpoint (w : Weight) : Prop :=
  ∀ g < 2, ∀ rb < 32, ∀ cb < 128, ∃ k : ℤ, -127 ≤ k ∧ k ≤ 127 ∧ ∀ i < 32, ∀ j < 32,
    ∃ b < 256, b % 128 ≠ 127 ∧
      wf w g rb i cb j = .fin (128 ≤ b) (BinaryFormat.e4m3.value (b % 128) * 2 ^ k)

/-- **A twin rebuilds a weight**: each lane of each kernel has the element of its row and column,
and the copy is stored whole. -/
structure Rebuilds (t : Twin) (w : Weight) : Prop where
  small : ∀ tile < 16, ∀ group < 2, ∀ split < 8, ∀ i < 4, ∀ kk < 128, ∀ nn < 64,
    partialTile t tile group split i kk nn =
      w.entry group (tile * 64 + nn) (split * 512 + i * 128 + kk)
  mid : ∀ row ∈ midCfg, ∀ pidN < 1024 / row.2.bn, ∀ g < 2, ∀ pidK < row.2.splitK,
    ∀ step < 4096 / row.2.splitK / 128, ∀ kk < 128, ∀ nn < row.2.bn,
    midTile t row.2 pidN g pidK step kk nn =
      w.entry g (pidN * row.2.bn + nn) (pidK * (4096 / row.2.splitK) + step * 128 + kk)
  dequant : ∀ g < 2, ∀ rb < 32, ∀ cb < 128, ∀ i < 32, ∀ j < 32,
    (dequantStore t g rb cb i j).2 = (w (dequantStore t g rb cb i j).1).datum
  whole : ∀ p < size, ∃ g < 2, ∃ rb < 32, ∃ cb < 128, ∃ i < 32, ∃ j < 32,
    (dequantStore t g rb cb i j).1 = p

/-- **The twin of a weight**: it is made, its exponents fit a byte, no quotient exceeds 448, and
it rebuilds the weight. -/
structure HasTwin (log2 : ℚ → ℚ) (w : Weight) (t : Twin) : Prop where
  made : makeTwin log2 w = some t
  byte : ∀ g < 2, ∀ rb < 32, ∀ cb < 128, ∃ e, exponent log2 w g rb cb = some e ∧
    0 ≤ e + 127 ∧ e + 127 < 256
  le : ∀ p < size, ∃ s x, quotient log2 w p = .fin s x ∧ x ≤ 448
  rebuilds : Rebuilds t w

/-- `log2` is exact on powers of two and monotone. -/
structure IsLog2 (log2 : ℚ → ℚ) : Prop where
  exact : ∀ j : ℤ, log2 (2 ^ j) = j
  mono : ∀ x y, 0 < x → x ≤ y → log2 x ≤ log2 y

/-- **Round trip.** Every checkpoint weight has a twin, and a twin that is made of a bf16 weight
rebuilds it. -/
structure RoundTrip (log2 : ℚ → ℚ) : Prop where
  made : ∀ w, Checkpoint w → ∃ t, HasTwin log2 w t
  exact : ∀ w t, makeTwin log2 w = some t → Rebuilds t w

/-- `log2` is above `j` from `17/16 * 2 ^ j` on. -/
def Separates (log2 : ℚ → ℚ) : Prop := ∀ (j : ℤ) x, 17 / 16 * 2 ^ j ≤ x → j < log2 x

end WoATwin

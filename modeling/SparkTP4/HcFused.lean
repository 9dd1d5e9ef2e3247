import Mathlib.Data.List.FinRange
import Mathlib.Logic.Function.Basic
import SparkTP4.SlicedSum

/-!
# Hyper-connection statistics in one walk

The engine computes the mix of a batch – rows times 24 columns of weights – and the row sums
of squares with one program per row block and slice of K, and adds the slices afterwards.
`_hc_mix_fullk_kernel` walks all of K in one program per row block.

A float is its 32 bits. Of the arithmetic only what IEEE says about zeros is known, of a
tensor-core dot only what it does with a tile of zeros (`Arith`); addition is not associative.
The stock path is the one the adapter's documentation describes.
-/

namespace HcFused

/-! ## Floats -/

/-- The bits of an fp32 value. -/
abbrev Fp32 := BitVec 32

def zero : Fp32 := 0#32

def negZero : Fp32 := 0x80000000#32

/-- The exponent field is not all ones. -/
def Finite (x : Fp32) : Prop := x.toNat / 2 ^ 23 % 2 ^ 8 ≠ 255

instance (x : Fp32) : Decidable (Finite x) := inferInstanceAs (Decidable (_ ≠ _))

/-- A bf16 value: the low half is empty. -/
def Bf16 (x : Fp32) : Prop := x.toNat % 2 ^ 16 = 0

instance (x : Fp32) : Decidable (Bf16 x) := inferInstanceAs (Decidable (_ = _))

/-- `_tf32_rna`: to 10 bits of mantissa, ties away from zero. -/
def tf32Rna (x : Fp32) : Fp32 := if Finite x then (x + 0x1000#32) >>> 13 <<< 13 else x

/-- A tile. -/
abbrev Tile (m n : ℕ) := Fin m → Fin n → Fp32

variable {m n : ℕ}

def Tile.zeros : Tile m n := fun _ _ => zero

/-- Every value is +0. -/
def Tile.IsZero (a : Tile m n) : Prop := ∀ i j, a i j = zero

def Tile.IsFinite (a : Tile m n) : Prop := ∀ i j, Finite (a i j)

instance (a : Tile m n) : Decidable a.IsZero := inferInstanceAs (Decidable (∀ _ _, _))

instance (a : Tile m n) : Decidable a.IsFinite := inferInstanceAs (Decidable (∀ _ _, _))

/-- What is known of the arithmetic. -/
structure Arith where
  add : Fp32 → Fp32 → Fp32
  sub : Fp32 → Fp32 → Fp32
  mul : Fp32 → Fp32 → Fp32
  /-- `dot(a, b, acc)` on tensor cores. -/
  dot : {m : ℕ} → Tile m 64 → Tile 64 32 → Tile m 32 → Tile m 32
  add_comm : ∀ x y, add x y = add y x
  add_zero : ∀ x, x ≠ negZero → add x zero = x
  add_negZero : ∀ x, add x negZero = x
  eq_of_add_eq_negZero : ∀ x y, add x y = negZero → x = negZero ∧ y = negZero
  sub_self : ∀ x, Finite x → sub x x = zero
  dot_zero : ∀ {m : ℕ} (a : Tile m 64) (b : Tile 64 32) (acc : Tile m 32),
    a.IsZero ∧ b.IsFinite ∨ b.IsZero ∧ a.IsFinite → dot a b acc = acc

namespace Arith

variable (A : Arith)

def addTile (a b : Tile m n) : Tile m n := fun i j => A.add (a i j) (b i j)

def subTile (a b : Tile m n) : Tile m n := fun i j => A.sub (a i j) (b i j)

def big (a : Tile m n) : Tile m n := fun i j => tf32Rna (a i j)

end Arith

/-! ## The batch -/

/-- The sizes: `rows` rows in blocks of `blockM`, and `K` in slices of 64-wide chunks. -/
structure Shape where
  rows : ℕ
  blockM : ℕ
  slices : ℕ
  chunks : ℕ
  blockM_pos : 0 < blockM

/-- `MIX` -/
abbrev mix : ℕ := 24

/-- `MIX_PAD` -/
abbrev mixPad : ℕ := 32

/-- `BLOCK_K` -/
abbrev blockK : ℕ := 64

/-- `K` -/
def Shape.k (S : Shape) : ℕ := S.slices * S.chunks * blockK

section Batch

variable (A : Arith) (S : Shape) (x w : ℕ → ℕ → Fp32)

/-- The activations of row block `pid` and chunk `i`; rows beyond the batch read as zero. -/
def xTile (pid i : ℕ) : Tile S.blockM 64 := fun r c =>
  if pid * S.blockM + r < S.rows then x (pid * S.blockM + r) (i * blockK + c) else zero

/-- The weights of chunk `i`; columns beyond `MIX` read as zero. -/
def wTile (i : ℕ) : Tile 64 32 := fun c n => if (n : ℕ) < mix then w n (i * blockK + c) else zero

/-- The squares of a row of a tile, by the column; `k` counts on over the 64. -/
def squares (a : Tile m 64) (r : Fin m) (k : ℕ) : Fp32 :=
  A.mul (a r (Fin.ofNat 64 k)) (a r (Fin.ofNat 64 k))

/-! ## The stock path -/

/-- tf32x3: the three dots of a chunk, and the accumulator. -/
def tf32x3 (a : Tile m 64) (b : Tile 64 32) (acc : Tile m 32) : Tile m 32 :=
  let aBig := Arith.big a
  let aSmall := A.subTile a aBig
  let bBig := Arith.big b
  let bSmall := A.subTile b bBig
  let d := A.dot aSmall bBig Tile.zeros
  let d := A.dot aBig bSmall d
  let d := A.dot aBig bBig d
  A.addTile d acc

/-- The row sum of squares in a lane: two warps of 32 lanes, each a butterfly, and then the two
warps. -/
def xorTree (v : ℕ → Fp32) (warp lane : ℕ) : Fp32 :=
  let row := fun h => SlicedSum.butterfly A.add (fun l => v (32 * (h % 2) + l % 32)) 5 lane
  A.add (row warp) (row (warp ^^^ 1))

/-- A slice of the mix, from zero. -/
def stockMix (pid s : ℕ) : Tile S.blockM 32 :=
  (List.range S.chunks).foldl (fun acc j =>
    tf32x3 A (xTile S x pid (s * S.chunks + j)) (wTile w (s * S.chunks + j)) acc) Tile.zeros

/-- A slice of the squares, from zero. -/
def stockSq (warp lane pid s : ℕ) (r : Fin S.blockM) : Fp32 :=
  (List.range S.chunks).foldl (fun acc j =>
    A.add acc (xorTree A (squares A (xTile S x pid (s * S.chunks + j)) r) warp lane)) zero

/-- The reduce: slices in order, from zero. -/
def reduce (slices : ℕ) (part : ℕ → Fp32) : Fp32 := SlicedSum.sum A.add zero slices part

/-- The row block of a row, and the row in it. -/
def Shape.inner (S : Shape) (row : ℕ) : Fin S.blockM := ⟨row % S.blockM, Nat.mod_lt _ S.blockM_pos⟩

/-- The mix of the stock path. -/
def stockMixOut (row : ℕ) (col : Fin 32) : Fp32 :=
  reduce A S.slices fun s => stockMix A S x w (row / S.blockM) s (S.inner row) col

/-- The sum of squares of the stock path. -/
def stockSqOut (warp lane row : ℕ) : Fp32 :=
  reduce A S.slices fun s => stockSq A S x warp lane (row / S.blockM) s (S.inner row)

/-! ## One walk -/

/-- `_sq_tree`: the sums over bits 4 to 0 of the column, then over bit 5. An axis that is summed
is left at index 0. -/
def sqTree (v : ℕ → Fp32) : Fp32 :=
  let t := fun h => SlicedSum.halvings A.add (fun l => v (32 * (h % 2) + l)) 5 0
  A.add (t 0) (t 1)

/-- The registers of a program. -/
structure Regs (m : ℕ) where
  acc : Tile m 32
  tot : Tile m 32
  sq : Fin m → Fp32
  sqt : Fin m → Fp32

/-- `KB`, the chunks of a slice. -/
def Shape.kb (S : Shape) : ℕ := S.k / S.slices / blockK

/-- `NCH`, all chunks. -/
def Shape.nch (S : Shape) : ℕ := S.k / blockK

/-- One turn of the loop. -/
def walkStep (pid : ℕ) (s : Regs S.blockM) (i : ℕ) : Regs S.blockM :=
  let xt := xTile S x pid i
  let wt := wTile w i
  let wBig := Arith.big wt
  let wSmall := A.subTile wt wBig
  let d := A.dot xt wSmall Tile.zeros
  let d := A.dot xt wBig d
  let acc := A.addTile s.acc d
  let sq := fun r => A.add (s.sq r) (sqTree A (squares A xt r))
  let last := i % S.kb = S.kb - 1
  { tot := if last then A.addTile s.tot acc else s.tot
    sqt := if last then fun r => A.add (s.sqt r) (sq r) else s.sqt
    acc := if last then Tile.zeros else acc
    sq := if last then fun _ => zero else sq }

/-- The walk over K. -/
def walk (pid : ℕ) : Regs S.blockM :=
  (List.range S.nch).foldl (walkStep A S x w pid)
    ⟨Tile.zeros, Tile.zeros, fun _ => zero, fun _ => zero⟩

/-- The masked store of the totals: addresses and values. -/
def mixStores (pid : ℕ) : List (ℕ × Fp32) :=
  (List.finRange S.blockM).flatMap fun r : Fin S.blockM =>
    (List.finRange mixPad).filterMap fun n : Fin mixPad =>
    if pid * S.blockM + r < S.rows ∧ (n : ℕ) < mix then
      some ((pid * S.blockM + r) * mix + n, (walk A S x w pid).tot r n)
    else none

/-- The masked store of the sums of squares. -/
def sqStores (pid : ℕ) : List (ℕ × Fp32) :=
  (List.finRange S.blockM).filterMap fun r : Fin S.blockM =>
    if pid * S.blockM + r < S.rows then
      some (pid * S.blockM + r, (walk A S x w pid).sqt r)
    else none

/-- A memory after stores. -/
def store (mem : ℕ → Fp32) (ps : List (ℕ × Fp32)) : ℕ → Fp32 :=
  ps.foldl (fun mem p => Function.update mem p.1 p.2) mem

/-- The grid: one program per row block. -/
def Shape.programs (S : Shape) : ℕ := (S.rows + S.blockM - 1) / S.blockM

/-- The buffer of the mixes after the programs have run. -/
def mixAfter (order : List ℕ) (mem : ℕ → Fp32) : ℕ → Fp32 :=
  store mem (order.flatMap (mixStores A S x w))

/-- The buffer of the squares after the programs have run. -/
def sqAfter (order : List ℕ) (mem : ℕ → Fp32) : ℕ → Fp32 :=
  store mem (order.flatMap (sqStores A S x w))

end Batch

end HcFused

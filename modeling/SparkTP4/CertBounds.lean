import SparkTP4.BinaryFormat
import SparkTP4.StandardModel

/-!
# The bounds of the certified head

For a weight row and an input row the screen of `adapter/cert_head.py` bounds the stock
logit from both sides: by its own accumulation over a quantised copy of the weight row,
widened by the residual of the copy, group by group, and by what the two accumulations
may be off. Every operation of the screen rounds; here it is a set of results
(`StandardModel`), so that nothing is fixed about the rounding or the order in which a
reduction sums.

The tables are built in fp64 and rounded up to fp32 and fp16. The squares of bf16
numbers and of their differences are far above the underflow of fp64, so its model has
none.
-/

namespace CertBounds

open BinaryFormat FloatModel Extended

attribute [local instance] two_atLeastTwo

/-! ## Constants -/

noncomputable def inflQ : ℝ := 1 + 1 / 2 ^ 18

noncomputable def inflB : ℝ := 1 + 1 / 2 ^ 20

noncomputable def inflX : ℝ := 1 + 1 / 2 ^ 16

noncomputable def slopRel : ℝ := 1 / 2 ^ 22

noncomputable def slopAbs : ℝ := 1 / 2 ^ 126

noncomputable def xAbs : ℝ := 1 / 2 ^ 59

/-- `c_acc` -/
noncomputable def cAcc (K : ℕ) : ℝ := K / 16 * 17 * (1 / 2 ^ 23)

/-- The loop of `next_pow2`, with the power so far. -/
def nextPow2Loop (n : ℕ) : ℕ → ℕ → ℕ
  | 0, p => p
  | fuel + 1, p => if p < n then nextPow2Loop n fuel (p * 2) else p

/-- `next_pow2` -/
def nextPow2 (n : ℕ) : ℕ := nextPow2Loop n n 1

/-- The width of a group and the number of groups. -/
structure Shape where
  group : ℕ
  groups : ℕ
  group_pos : 0 < group
  group_le : group ≤ 128
  groups_pos : 0 < groups
  groups_le : groups ≤ 40

/-- The length of a row. -/
def Shape.K (s : Shape) : ℕ := s.groups * s.group

/-! ## The tables -/

/-- The number of a code, an infinity from `infinity` on. -/
noncomputable def decode (F : BinaryFormat) (infinity c : ℕ) : Extended :=
  if c < infinity then .fin (F.value c) else .inf false

/-- A number rounded up: the code next to it where the nearest one falls short. -/
def roundUp (F : BinaryFormat) (infinity : ℕ) : Extended → SetM Extended
  | .fin x => {y | ∃ c, (∀ c', |x - F.value c| ≤ |x - F.value c'|) ∧
      y = decode F infinity (if (F.value c : ℝ) < x then c + 1 else c)}
  | y => pure y

/-- `_round_up_f32` -/
def roundUpF32 : Extended → SetM Extended := roundUp binary32 0x7F800000

/-- `_round_up_f16` -/
def roundUpF16 : Extended → SetM Extended := roundUp binary16 0x7C00

/-- **A screening copy** of a weight row: any `make_mxint8` may choose. -/
structure Copy where
  q : ℕ → ℤ
  e : ℕ → ℕ
  q_le : ∀ k, |q k| ≤ 127
  e_pos : ∀ b, 1 ≤ e b
  e_le : ∀ b, e b ≤ 254

/-- `deq_rows`: the fp32 product of a code and its scale. -/
@[irreducible]
noncomputable def deqRaw (c : Copy) (k : ℕ) : SetM Extended :=
  fp32.mul (.fin (c.q k)) (decode binary32 0x7F800000 (c.e (k / 32) <<< 23))

/-- `torch.maximum` -/
noncomputable def maximum : Extended → Extended → Extended
  | .fin a, .fin b => .fin (Max.max a b)
  | .fin a, .inf s => if s then .fin a else .inf false
  | .inf s, .fin b => if s then .fin b else .inf false
  | .inf s, .inf s' => .inf (s && s')
  | _, _ => .nan

/-- The factor that covers the rounding of fp64. -/
noncomputable def infl64 : ℝ := 1 + 1 / 2 ^ 40

/-- The norm of the residual of a group, in fp64. -/
noncomputable def residualNorm (order : SumTree) (w : ℕ → ℝ) (d : ℕ → Extended) :
    SetM Extended := do
  let s ← order.sum fp64 fun k => do
    let res ← fp64.sub (.fin (w k)) (d k)
    fp64.mul res res
  let root ← fp64.sqrt s
  fp64.mul root (.fin infl64)

/-- The entry of `rt` for a group: infinite where the bf16 cast of the copy is not exact. -/
@[irreducible]
noncomputable def residualEntry (order : SumTree) (w : ℕ → ℝ) (d : ℕ → Extended)
    (isUnsafe : Prop) : SetM Extended := do
  let rg64 ← residualNorm order w d
  let rg ← roundUpF32 rg64
  roundUpF16 (open Classical in if isUnsafe then .inf false else rg)

/-- `torch.norm`, in fp64. -/
noncomputable def norm64 (order : SumTree) (d : ℕ → Extended) : SetM Extended := do
  let s ← order.sum fp64 fun k => fp64.mul (d k) (d k)
  fp64.sqrt s

/-- The entry of `nv`. -/
@[irreducible]
noncomputable def normEntry (order : SumTree) (w : ℕ → ℝ) (d : ℕ → Extended) :
    SetM Extended := do
  let nw ← norm64 order fun k => .fin (w k)
  let nd ← norm64 order d
  let nrm ← fp64.mul (maximum nw nd) (.fin infl64)
  roundUpF32 nrm

/-- The sum takes each of `n` terms once. -/
def Sums (n : ℕ) (order : SumTree) : Prop := order.leaves.Perm (List.range n)

/-- **The tables of a weight row**, as `build_tables` may build them: the copy, its bf16 cast, the
residual norm of each group and the larger of the norms. -/
structure Tables (s : Shape) (w : ℕ → ℝ) (bf16 : Extended → Extended) where
  copy : Copy
  raw : ℕ → Extended
  raw_mem : ∀ k < s.K, raw k ∈ (deqRaw copy k).run
  order : ℕ → SumTree
  order_sums : ∀ g < s.groups, Sums s.group (order g)
  rt : ℕ → Extended
  rt_mem : ∀ g < s.groups, rt g ∈ (residualEntry (order g) (fun j => w (g * s.group + j))
    (fun j => bf16 (raw (g * s.group + j))) (∃ k < s.K, bf16 (raw k) ≠ raw k)).run
  normOrder : SumTree
  normOrder_sums : Sums s.K normOrder
  nv : Extended
  nv_mem : nv ∈ (normEntry normOrder w fun k => bf16 (raw k)).run

/-- The copy as the screen reads it. -/
def Tables.d {s : Shape} {w : ℕ → ℝ} {bf16 : Extended → Extended} (t : Tables s w bf16) (k : ℕ) :
    Extended := bf16 (t.raw k)

/-! ## The norms of an input row -/

/-- `_xnorm_kernel`, for a group. -/
noncomputable def groupNorm (order : SumTree) (x : ℕ → Extended) : SetM Extended := do
  let s ← order.sum fp32 fun j => fp32.mul (x j) (x j)
  let root ← fp32.sqrt s
  let scaled ← fp32.mul root (.fin inflX)
  fp32.add scaled (.fin xAbs)

/-- `_xnorm_kernel`, for the row. -/
noncomputable def rowNorm (order : SumTree) (xg : ℕ → Extended) : SetM Extended := do
  let t ← order.sum fp32 fun g => fp32.mul (xg g) (xg g)
  let root ← fp32.sqrt t
  fp32.mul root (.fin inflX)

/-- **An input row** with the norms the kernel may compute. The groups past the last are zero. -/
structure Row (s : Shape) where
  x : ℕ → Extended
  order : ℕ → SumTree
  order_sums : ∀ g < s.groups, Sums s.group (order g)
  xg : ℕ → Extended
  xg_mem : ∀ g < s.groups, xg g ∈ (groupNorm (order g) fun j => x (g * s.group + j)).run
  xg_pad : ∀ g, s.groups ≤ g → xg g = .fin 0
  rowOrder : SumTree
  rowOrder_sums : Sums (nextPow2 s.groups) rowOrder
  xn : Extended
  xn_mem : xn ∈ (rowNorm rowOrder xg).run

/-- The row is flagged: its norm is infinite or NaN. -/
def Row.Bad {s : Shape} (r : Row s) : Prop := r.xn = .nan ∨ r.xn = .inf false

/-! ## The screen -/

/-- The residual product of the first groups. -/
noncomputable def residual (xg rt : ℕ → Extended) : ℕ → SetM Extended
  | 0 => pure (.fin 0)
  | g + 1 => do
    let qb ← residual xg rt g
    let p ← fp32.mul (xg g) (rt g)
    fp32.add qb p

/-- `tl.where(B != B, float("inf"), B)` -/
def nanToInf : Extended → Extended
  | .nan => .inf false
  | y => y

/-- The bound. -/
noncomputable def screenB (groups K : ℕ) (xg rt : ℕ → Extended) (xn nv : Extended) :
    SetM Extended := do
  let qb ← residual xg rt groups
  let q ← fp32.mul qb (.fin inflQ)
  let n ← fp32.mul xn nv
  let c ← fp32.mul (.fin (2 * cAcc K)) n
  let sum ← fp32.add q c
  let b ← fp32.mul sum (.fin inflB)
  pure (nanToInf b)

/-- An infinity where the accumulation is not finite or the bound is NaN. -/
def degrade (acc : Extended) (neg : Bool) : Extended → Extended
  | .nan => .inf neg
  | y => match acc with
    | .fin _ => y
    | _ => .inf neg

/-- **`_screen_kernel`** for a row and a column: the lower and the upper bound, from the
accumulation of the screen. -/
noncomputable def screen (bf16 : Extended → Extended) (acc b : Extended) (isStop : Bool) :
    SetM (Extended × Extended) := do
  let mag ← fp32.add acc.abs b
  let rel ← fp32.mul mag (.fin slopRel)
  let slop ← fp32.add rel (.fin slopAbs)
  let below ← fp32.sub acc b
  let lo ← fp32.sub below slop
  let above ← fp32.add acc b
  let hi ← fp32.add above slop
  let lo := degrade acc true (bf16 lo)
  let hi := degrade acc false (bf16 hi)
  pure (if isStop then .inf true else lo, if isStop then .inf false else hi)

end CertBounds

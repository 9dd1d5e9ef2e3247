import Mathlib.Algebra.BigOperators.Field
import Mathlib.Algebra.Order.Field.Basic
import Mathlib.Data.Rat.Cast.Order
import Mathlib.Order.Lattice
import Mathlib.Order.Lattice.Nat

/-!
# Block verification of drafted tokens

`block_accept_probs` (`adapter/block_verify.py`) decides, for one request, how
many of the `g` drafted tokens are kept and from which row the correction
token is drawn. It works on the target's and the draft's probability rows:
the survival weight `w` is a product of ratios that saturates at one, the
acceptance threshold `h` of a position compares the mass the target still
owes with the weight still missing, and the accepted length `tau` is the
largest position that passes its test – not the first failure. Positions
beyond the live length are treated as never drafted: their ratio and their
draft row are zero.

The arithmetic is that of an ordered field, so that the definitions run on
rationals; `floor` is the source's `1e-30`.
-/

namespace BlockVerify

variable {K V : Type} [Field K] [LinearOrder K] [Fintype V]

/-- One request's arguments: `X`, `target_probs`, `draft_probs` and `live` of
one batch row, with `g` drafted tokens. -/
structure Block (K V : Type) (g : ℕ) where
  X : ℕ → V
  targetProbs : ℕ → V → K
  draftProbs : ℕ → V → K
  /-- The number of drafts actually verified; all of them when absent. -/
  live : Option ℕ

namespace Block

variable {g : ℕ} (floor : K) (b : Block K V g)

omit [Field K] [LinearOrder K] [Fintype V] in
/-- `torch.arange(g) < live`. -/
def alive (i : ℕ) : Bool := b.live.all (fun l => i < l)

omit [Fintype V] in
/-- `p_tok / q_tok.clamp_min(1e-30)`, zero at dead positions. -/
def ratio (i : ℕ) : K :=
  if b.alive i then b.targetProbs i (b.X i) / max (b.draftProbs i (b.X i)) floor else 0

omit [Fintype V] in
/-- The survival weights `w_0 = 1`, `w_{i+1} = min(w_i * ratio_i, 1)`. -/
def w : ℕ → K
  | 0 => 1
  | i + 1 => min (w i * b.ratio floor i) 1

omit [LinearOrder K] [Fintype V] in
/-- `draft_probs * alive`. -/
def maskedDraft (i : ℕ) (x : V) : K := if b.alive i then b.draftProbs i x else 0

/-- `s` at position `i`: the mass the target row exceeds the draft row by. -/
def s (i : ℕ) : K := ∑ x, max (b.w floor i * b.targetProbs i x - b.maskedDraft i x) 0

/-- The acceptance thresholds: column `j` is the test of position `j + 1`. -/
def h (j : ℕ) : K :=
  if j + 1 < g then
    b.s floor (j + 1) / max (b.s floor (j + 1) + (1 - b.w floor (j + 1))) floor
  else b.w floor g

/-- `tau`: the largest position whose test passes, 0 if none does. -/
def tau (eta : Fin g → K) : ℕ :=
  Finset.univ.sup fun j : Fin g => if eta j ≤ b.h floor j ∧ b.alive j then (j : ℕ) + 1 else 0

omit [LinearOrder K] [Fintype V] in
/-- The draft rows with a zero row appended (`q_pad`). -/
def qPad (t : ℕ) (x : V) : K := if t < g then b.maskedDraft t x else 0

omit [Fintype V] in
/-- The residual of row `t`, before it is normalised. -/
def rawRes (t : ℕ) (x : V) : K := max (b.w floor t * b.targetProbs t x - b.qPad t x) 0

/-- The residual's mass. -/
def mass (t : ℕ) : K := ∑ x, b.rawRes floor t x

/-- `res`: the distribution of the correction token at accepted length `t`. -/
def res (t : ℕ) (x : V) : K :=
  if 0 < b.mass floor t then b.rawRes floor t x / max (b.mass floor t) floor
  else b.targetProbs t x

end Block

end BlockVerify

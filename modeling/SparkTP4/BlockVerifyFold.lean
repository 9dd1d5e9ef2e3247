import SparkTP4.GridLoop
import SparkTP4.ReduceTree
import Mathlib.Data.Int.Notation

/-!
# Block verification in three passes

`block_accept_probs` decides a batch with tensor operations; `fold` (`adapter/
block_verify_fold.py`) decides it with three kernels, between which the host reduces over the
vocabulary. The contract is that they agree bit for bit, so nothing is known of the
arithmetic: `Arith` is any operations on any type, and the three reductions are any functions
of the tensors that they reduce (`Reductions`).

A kernel sees memories: tensors are contiguous, and `X` has strides. Its vectors have `GP`
lanes, a power of two, of which the lanes from `g` on are masked. Every program of a grid
computes the weights of its request anew, and picks a lane of a vector by adding up the
vector with its other lanes replaced by zero, in an order that is not specified (`Device`).
-/

namespace BlockVerifyFold

variable {K : Type}

/-- The operations and the constants `0.0`, `1.0`, `1e-30` and `2.0`. -/
structure Arith (K : Type) where
  add : K → K → K
  sub : K → K → K
  mul : K → K → K
  div : K → K → K
  minimum : K → K → K
  maximum : K → K → K
  zero : K
  one : K
  tiny : K
  two : K
  /-- `x <= y` -/
  le : K → K → Bool
  /-- `x > y` -/
  gt : K → K → Bool

/-- What is assumed of the operations: `x + 0 = x` in both orders, and `0 * x = 0`. -/
structure Arith.Lawful (A : Arith K) : Prop where
  add_zero : ∀ x, A.add x A.zero = x
  zero_add : ∀ x, A.add A.zero x = x
  zero_mul : ∀ x, A.mul A.zero x = A.zero

/-- A batch: `X` is a memory with strides, the others are tensors. -/
structure Batch (K : Type) where
  bs : ℕ
  g : ℕ
  V : ℕ
  X : ℕ → ℕ
  sxb : ℕ
  sxg : ℕ
  targetProbs : ℕ → ℕ → ℕ → K
  draftProbs : ℕ → ℕ → ℕ → K
  eta : ℕ → ℕ → K
  gumbel : ℕ → ℕ → K

/-- `X[b, i]` -/
def Batch.token (a : Batch K) (b i : ℕ) : ℕ := a.X (b * a.sxb + i * a.sxg)

/-- The three reductions over the vocabulary, as functions of the tensors that they reduce. -/
structure Reductions (K : Type) (bs g V : ℕ) where
  /-- `terms.sum(-1)` -/
  sumTerms : (Fin bs → Fin (g - 1) → Fin V → K) → ℕ → ℕ → K
  /-- `res.sum(-1)` -/
  sumRes : (Fin bs → Fin V → K) → ℕ → K
  /-- `keys.argmax(dim=-1)` -/
  argmax : (Fin bs → Fin V → K) → ℕ → ℕ

/-! ## The tensor operations -/

section torch

variable (A : Arith K) (a : Batch K) (R : Reductions K a.bs a.g a.V) (live : Option (ℕ → ℤ))

/-- `torch.arange(g) < live` -/
def alive (live : Option (ℕ → ℤ)) (b i : ℕ) : Bool := live.all fun l => (i : ℤ) < l b

/-- `p_tok / q_tok.clamp_min(1e-30)`, zero where a live length is given and reached. -/
def ratio (b i : ℕ) : K :=
  let ratio := A.div (a.targetProbs b i (a.token b i))
    (A.maximum (a.draftProbs b i (a.token b i)) A.tiny)
  match live with
  | none => ratio
  | some _ => if alive live b i then ratio else A.zero

/-- `draft_probs * alive`, where a live length is given. -/
def maskedDraft (b i x : ℕ) : K :=
  match live with
  | none => a.draftProbs b i x
  | some _ => A.mul (a.draftProbs b i x) (if alive live b i then A.one else A.zero)

/-- `w_0 = 1`, `w_{i+1} = minimum(w_i * ratio_i, 1)` -/
def w (b : ℕ) : ℕ → K
  | 0 => A.one
  | i + 1 => A.minimum (A.mul (w b i) (ratio A a live b i)) A.one

/-- What `s` is summed from. -/
def terms (b i x : ℕ) : K :=
  A.maximum (A.sub (A.mul (w A a live b (i + 1)) (a.targetProbs b (i + 1) x))
    (maskedDraft A a live b (i + 1) x)) A.zero

/-- `s` -/
def s : ℕ → ℕ → K := R.sumTerms fun b i x => terms A a live b i x

/-- `h` -/
def h (b i : ℕ) : K :=
  if i = a.g - 1 then w A a live b (i + 1)
  else A.div (s A a R live b i) (A.maximum
    (A.add (s A a R live b i) (A.sub A.one (w A a live b (i + 1)))) A.tiny)

/-- `ok` -/
def ok (b i : ℕ) : Bool := A.le (a.eta b i) (h A a R live b i) && alive live b i

/-- `tau` -/
def tau (b : ℕ) : ℕ :=
  ((List.range a.g).map fun i => if ok A a R live b i then i + 1 else 0).foldr max 0

/-- `q_pad`: the draft rows and a row of zeros. -/
def qPad (b t x : ℕ) : K := if t < a.g then maskedDraft A a live b t x else A.zero

/-- `res`, before it is normalised. -/
def res (b x : ℕ) : K :=
  A.maximum (A.sub (A.mul (w A a live b (tau A a R live b))
    (a.targetProbs b (tau A a R live b) x)) (qPad A a live b (tau A a R live b) x)) A.zero

/-- `mass` -/
def mass : ℕ → K := R.sumRes fun b x => res A a R live b x

/-- `res / gumbel` -/
def keys (b x : ℕ) : K :=
  A.div (if A.gt (mass A a R live b) A.zero then
      A.div (res A a R live b x) (A.maximum (mass A a R live b) A.tiny)
    else a.targetProbs b (tau A a R live b) x) (a.gumbel b x)

/-- `corr` -/
def corr : ℕ → ℕ := R.argmax fun b x => keys A a R live b x

/-- `block_accept_probs`: the accepted lengths and the correction tokens. -/
def blockAcceptProbs : (ℕ → ℕ) × (ℕ → ℕ) := (tau A a R live, corr A a R live)

end torch

/-! ## Memories -/

/-- A contiguous matrix of `n` columns. -/
def contiguous2 (n : ℕ) (t : ℕ → ℕ → K) : ℕ → K := fun p => t (p / n) (p % n)

/-- A contiguous tensor whose last dimensions are `m` and `n`. -/
def contiguous3 (m n : ℕ) (t : ℕ → ℕ → ℕ → K) : ℕ → K := fun p =>
  t (p / n / m) (p / n % m) (p % n)

/-- `tl.load(mem + p, mask=m, other=other)` -/
def load {α : Type} (mem : ℕ → α) (p : ℕ) (m : Bool) (other : α) : α := if m then mem p else other

/-- The stores of program `c` to the entries `offs = c * CH + tl.arange(0, CH)` of the vocabulary,
masked by `offs < V`. -/
def chunkStores {α : Type} (CH V c : ℕ) (store : ℕ → ℕ × α) : List (ℕ × α) :=
  (List.range CH).filterMap fun o =>
    let offs := c * CH + o
    if offs < V then some (store offs) else none

/-- What the device leaves open: in which order a vector is added up, in which order the
programs of a grid store, and what a fresh buffer holds. -/
structure Device (K : Type) where
  tree : ℕ → ReduceTree
  tree_lanes : ∀ n, 0 < n → (tree n).lanes.Perm (List.range n)
  order : {α : Type} → List α → List α
  order_perm : ∀ {α : Type} (l : List α), (order l).Perm l
  empty : ℕ → K
  emptyTau : ℕ → ℕ

/-! ## The kernels -/

/-- The arguments that the kernels share. -/
structure Args (K : Type) where
  TP : ℕ → K
  DP : ℕ → K
  X : ℕ → ℕ
  sxb : ℕ
  sxg : ℕ
  /-- none without `HAS_LIVE` -/
  LIVE : Option (ℕ → ℤ)
  LIVE_SUB : ℤ
  V : ℕ
  G : ℕ
  GP : ℕ

section kernels

variable (A : Arith K) (D : Device K) (k : Args K)

/-- `tl.sum` of a vector of `GP` lanes. -/
def tlSum (v : ℕ → K) : K := (D.tree k.GP).reduce A.add v

/-- `_pick` -/
def pick (v : ℕ → K) (i : ℕ) : K := tlSum A D k fun gi => if gi = i then v gi else A.zero

/-- The lanes of `alive`. -/
def aliveLanes (b gi : ℕ) : Bool :=
  match k.LIVE with
  | none => gi < k.G
  | some live => gi < k.G && (gi : ℤ) < live b - k.LIVE_SUB

/-- The lanes of `ratio`. -/
def ratioLanes (b gi : ℕ) : K :=
  let gok : Bool := gi < k.G
  let x := load k.X (b * k.sxb + gi * k.sxg) gok 0
  let rowp := (b * (k.G + 1) + gi) * k.V
  let rowq := (b * k.G + gi) * k.V
  let pTok := load k.TP (rowp + x) gok A.zero
  let qTok := load k.DP (rowq + x) gok A.zero
  if aliveLanes k b gi then A.div pTok (A.maximum qTok A.tiny) else A.zero

/-- A turn of the loop over the weights: `cur` and the lanes of `w`. -/
def wStep (b : ℕ) (st : K × (ℕ → K)) (i : ℕ) : K × (ℕ → K) :=
  let cur := A.minimum (A.mul st.1 (pick A D k (ratioLanes A k b) i)) A.one
  (cur, fun gi => if gi = i then cur else st.2 gi)

/-- The lanes of `w` of `_scalars`. -/
def wLanes (b : ℕ) : ℕ → K :=
  ((List.range k.G).foldl (wStep A D k b) (A.one, fun _ => A.zero)).2

/-- `alive[i]` as a number: the vector with the other lanes replaced by zero, added up. -/
def aliveOne (b i : ℕ) : K :=
  tlSum A D k fun gi => if gi = i ∧ aliveLanes k b gi = true then A.one else A.zero

/-- A store of `_terms_kernel`. -/
def termsStore (b i offs : ℕ) : ℕ × K :=
  let t := k.TP ((b * (k.G + 1) + i + 1) * k.V + offs)
  let q := k.DP ((b * k.G + i + 1) * k.V + offs)
  let q := if k.LIVE.isSome then A.mul q (aliveOne A D k b (i + 1)) else q
  ((b * (k.G - 1) + i) * k.V + offs,
    A.maximum (A.sub (A.mul (pick A D k (wLanes A D k b) i) t) q) A.zero)

/-- The stores of program `(b, c)` of `_terms_kernel`. -/
def termsStores (CH b c : ℕ) : List (ℕ × K) :=
  (List.range (k.G - 1)).flatMap fun i => chunkStores CH k.V c (termsStore A D k b i)

/-- The lanes of `h` of `_decide`. -/
def hLanes (S : ℕ → K) (b gi : ℕ) : K :=
  let s := load S (b * (k.G - 1) + gi) (gi < k.G - 1) A.zero
  let den := A.maximum (A.add s (A.sub A.one (wLanes A D k b gi))) A.tiny
  if gi = k.G - 1 then wLanes A D k b gi else A.div s den

/-- `tau` of `_decide`. -/
def decideTau (ETA S : ℕ → K) (b : ℕ) : ℕ :=
  ((List.range k.GP).map fun gi =>
    let eta := load ETA (b * k.G + gi) (gi < k.G) A.two
    if A.le eta (hLanes A D k S b gi) && aliveLanes k b gi then gi + 1 else 0).foldr max 0

/-- `wt` of `_decide`. -/
def decideWt (ETA S : ℕ → K) (b : ℕ) : K :=
  let tau := decideTau A D k ETA S b
  if tau = 0 then A.one else pick A D k (wLanes A D k b) (tau - 1)

/-- A store of `_residual_kernel` to `RES`. -/
def resStore (ETA S : ℕ → K) (b offs : ℕ) : ℕ × K :=
  let tau := decideTau A D k ETA S b
  let p := k.TP ((b * (k.G + 1) + tau) * k.V + offs)
  let q := load k.DP ((b * k.G + tau) * k.V + offs) (tau < k.G) A.zero
  let q := if k.LIVE.isSome then A.mul q (aliveOne A D k b tau) else q
  (b * k.V + offs, A.maximum (A.sub (A.mul (decideWt A D k ETA S b) p) q) A.zero)

/-- The store of program `(b, c)` of `_residual_kernel` to `TAU`. -/
def tauStores (ETA S : ℕ → K) (b c : ℕ) : List (ℕ × ℕ) :=
  if c = 0 then [(b, decideTau A D k ETA S b)] else []

/-- A store of `_keys_kernel`. -/
def keysStore (RES MASS : ℕ → K) (TAU : ℕ → ℕ) (GUM : ℕ → K) (b offs : ℕ) : ℕ × K :=
  let r := RES (b * k.V + offs)
  let p := k.TP ((b * (k.G + 1) + TAU b) * k.V + offs)
  let rn := if A.gt (MASS b) A.zero then A.div r (A.maximum (MASS b) A.tiny) else p
  (b * k.V + offs, A.div rn (GUM (b * k.V + offs)))

end kernels

/-! ## The host -/

/-- The loop of `_pow2`. -/
def pow2Loop (n : ℕ) : ℕ → ℕ → ℕ
  | 0, p => p
  | fuel + 1, p => if p < n then pow2Loop n fuel (p * 2) else p

/-- `_pow2`: a power of two that is not below `n`. -/
def pow2 (n : ℕ) : ℕ := pow2Loop n n 1

/-- What a buffer holds after the programs `(b, c)` of a grid have made their stores. -/
def launch {α : Type} (D : Device K) (bs nch : ℕ) (empty : ℕ → α)
    (stores : ℕ → ℕ → List (ℕ × α)) : ℕ → α :=
  GridLoop.writeAll empty (D.order
    ((List.range bs).flatMap fun b => (List.range nch).flatMap fun c => stores b c))

section fold

variable (A : Arith K) (D : Device K) (a : Batch K) (R : Reductions K a.bs a.g a.V)
  (CHUNK : ℕ) (live : Option (ℕ → ℤ)) (liveSub : ℤ)

/-- The chunk of the vocabulary of a program. -/
def chunk : ℕ := min CHUNK (pow2 a.V)

/-- The programs of a request. -/
def chunks : ℕ := (a.V + chunk a CHUNK - 1) / chunk a CHUNK

/-- What `fold` passes to the kernels. -/
def foldArgs : Args K where
  TP := contiguous3 (a.g + 1) a.V a.targetProbs
  DP := contiguous3 a.g a.V a.draftProbs
  X := a.X
  sxb := a.sxb
  sxg := a.sxg
  LIVE := live
  LIVE_SUB := liveSub
  V := a.V
  G := a.g
  GP := max 2 (pow2 (a.g + 1))

/-- `terms` of `fold`. -/
def foldTerms : ℕ → K :=
  launch D a.bs (chunks a CHUNK) D.empty
    (termsStores A D (foldArgs a live liveSub) (chunk a CHUNK))

/-- `s` of `fold`: the sum of the terms, or zeros for a single draft. -/
def foldS : ℕ → K :=
  if 1 < a.g then
    contiguous2 (a.g - 1) (R.sumTerms fun b i x =>
      foldTerms A D a CHUNK live liveSub ((b * (a.g - 1) + i) * a.V + x))
  else fun _ => A.zero

/-- `res` of `fold`. -/
def foldRes : ℕ → K :=
  launch D a.bs (chunks a CHUNK) D.empty
    fun b c => chunkStores (chunk a CHUNK) a.V c
      (resStore A D (foldArgs a live liveSub) (contiguous2 a.g a.eta)
        (foldS A D a R CHUNK live liveSub) b)

/-- `tau` of `fold`. -/
def foldTau : ℕ → ℕ :=
  launch D a.bs (chunks a CHUNK) D.emptyTau
    (tauStores A D (foldArgs a live liveSub) (contiguous2 a.g a.eta)
      (foldS A D a R CHUNK live liveSub))

/-- `keys` of `fold`. -/
def foldKeys : ℕ → K :=
  launch D a.bs (chunks a CHUNK) D.empty
    fun b c => chunkStores (chunk a CHUNK) a.V c
      (keysStore A (foldArgs a live liveSub) (foldRes A D a R CHUNK live liveSub)
        (R.sumRes fun b x => foldRes A D a R CHUNK live liveSub (b * a.V + x))
        (foldTau A D a R CHUNK live liveSub) (contiguous2 a.V a.gumbel) b)

/-- `fold`: the accepted lengths and the correction tokens. -/
def fold : (ℕ → ℕ) × (ℕ → ℕ) :=
  (foldTau A D a R CHUNK live liveSub,
    R.argmax fun b x => foldKeys A D a R CHUNK live liveSub (b * a.V + x))

end fold

end BlockVerifyFold

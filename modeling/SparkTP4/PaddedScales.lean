import Mathlib.Logic.Function.Basic
import SparkTP4.FloatDatum

/-!
# The repair of padded block scales

With three ranks the padding leaves a rank with shards that are all zero and whose block
scales were never written. Two hooks make such a layer pass the encoder, which takes
positive powers of two only: before a layer is prepared, `_repair_padded_scales` sets a
scale that is none to 1.0 where the block of the weight is all zero; and when the layer
is encoded, `encode` sets every scale that is not positive to 1.0 as soon as one is zero
or negative, without a look at the weight.

The scales are fp32 words in a strided memory, the weight is e4m3 bytes. The encoder of
the engine is a parameter.
-/

namespace PaddedScales

open FloatDatum

/-! ## Scales and layers -/

/-- The number of an fp32 word. -/
def scaleOf (word : ℕ) : FloatDatum :=
  decode .binary32 0x7F800000 (2 ^ 31 ≤ word) (word % 2 ^ 31)

/-- `1.0` -/
def one : ℕ := 0x3F800000

/-- `f > 0` -/
def positive (x : FloatDatum) : Bool := lt (.fin false 0) x

/-- `f <= 0` -/
def notPositive (x : FloatDatum) : Bool := lt x (.fin false 0) || same x (.fin false 0)

/-- A strided matrix of fp32 words. Its elements have addresses of their own. -/
structure Strided where
  rows : ℕ
  cols : ℕ
  s0 : ℕ
  s1 : ℕ
  apart : ∀ a < rows, ∀ b < cols, ∀ a' < rows, ∀ b' < cols,
    a * s0 + b * s1 = a' * s0 + b' * s1 → a = a' ∧ b = b'

/-- The address of an element. -/
def Strided.address (v : Strided) (p : ℕ × ℕ) : ℕ := p.1 * v.s0 + p.2 * v.s1

/-- The indices of a matrix. -/
def Strided.indices (v : Strided) : List (ℕ × ℕ) :=
  (List.range v.rows).flatMap fun a => (List.range v.cols).map fun b => (a, b)

/-- `is_contiguous()` -/
def Strided.contiguous (v : Strided) : Bool := v.s0 == v.cols && v.s1 == 1

/-- A layer: the weight `[n, k]` and the scales of its blocks, with their memory. -/
structure Layer where
  n : ℕ
  k : ℕ
  weight : ℕ → ℕ → ℕ
  /-- The dtype of the scales is `float32`. -/
  float32 : Bool
  ws : Strided
  mem : ℕ → ℕ

/-- The scale of a block. -/
def Layer.scale (l : Layer) (a b : ℕ) : ℕ := l.mem (l.ws.address (a, b))

/-- The code is zero, with either sign. -/
def isZero (code : ℕ) : Bool := code &&& 0x7F == 0

/-! ## The repair -/

/-- The word is no positive power of two, by its bits. -/
def bad (word : ℕ) : Bool := !(word &&& 0x7FFFFF == 0 && positive (scaleOf word))

/-- What `_repair_padded_scales` reports: the number of bad scales, and of those that were set and
left alone. -/
inductive Note where
  | dtype
  | untiled (bad : ℕ)
  | repaired (bad fixed left : ℕ)
  | failed

section Repair

variable (l : Layer) (bn bk : ℕ)

/-- `zero`, the reduction of the weight over a block. -/
def zero (p : ℕ × ℕ) : Bool :=
  (List.range bn).all fun r => (List.range bk).all fun c =>
    isZero (l.weight (p.1 * bn + r) (p.2 * bk + c))

/-- `fix` -/
def fix (p : ℕ × ℕ) : Bool := bad (l.scale p.1 p.2) && zero l bn bk p

/-- Writing a word to each of some elements. -/
def write (v : Strided) (f : ℕ × ℕ → ℕ) (mem : ℕ → ℕ) (ps : List (ℕ × ℕ)) : ℕ → ℕ :=
  ps.foldl (fun m p => Function.update m (v.address p) (f p)) mem

/-- `f[fix] = 1.0; s.copy_(f)`. A contiguous `s` is `f` itself, another one is copied and written
back whole. -/
def repairedMem : ℕ → ℕ :=
  if l.ws.contiguous then
    write l.ws (fun _ => one) l.mem (l.ws.indices.filter (fix l bn bk ·))
  else
    write l.ws (fun p => if fix l bn bk p then one else l.scale p.1 p.2) l.mem l.ws.indices

/-- The shape tiles, if the block size divides by anything: `n % bn or k % bk or ...` raises for
a block size of zero. -/
def untiled : Option Bool :=
  if bn = 0 then none
  else if l.n % bn ≠ 0 then some true
  else if bk = 0 then none
  else some (l.k % bk ≠ 0 || l.ws.rows ≠ l.n / bn || l.ws.cols ≠ l.k / bk)

/-- `_repair_padded_scales`, and what `prepare` makes of an exception. -/
def repair : Layer × Option Note :=
  if !l.float32 then (l, some .dtype)
  else
    let bads := l.ws.indices.countP fun p => bad (l.scale p.1 p.2)
    if bads = 0 then (l, none)
    else
      match untiled l bn bk with
      | none => (l, some .failed)
      | some true => (l, some (.untiled bads))
      | some false =>
        let fixes := l.ws.indices.countP (fix l bn bk ·)
        let note := Note.repaired bads fixes
          (l.ws.indices.countP fun p => bad (l.scale p.1 p.2) && !zero l bn bk p)
        if fixes = 0 then (l, some note) else ({ l with mem := repairedMem l bn bk }, some note)

end Repair

/-! ## The encode hook -/

/-- A matrix of scales, of the shape of a layer's. -/
abbrev Scales := ℕ → ℕ → FloatDatum

/-- The scales the hooked `block_fp8_scale_to_mxfp8_e8m0` passes on. -/
def hooked (l : Layer) : Scales := fun a b =>
  if l.ws.indices.any (fun p => notPositive (scaleOf (l.scale p.1 p.2))) &&
      !positive (scaleOf (l.scale a b)) then .fin false 1
  else scaleOf (l.scale a b)

/-- A positive power of two. -/
def IsPow2 (x : FloatDatum) : Prop := ∃ e : ℤ, x = .fin false (2 ^ e)

/-- **The stock encoder** keeps scales that are positive powers of two, and raises for any other
value. -/
structure IsEncoder (encoder : ℕ → ℕ → Scales → Option Scales) : Prop where
  keeps : ∀ sn sk f, (∀ a < sn, ∀ b < sk, IsPow2 (f a b)) →
    ∃ g, encoder sn sk f = some g ∧ ∀ a < sn, ∀ b < sk, g a b = f a b
  raises : ∀ sn sk f, (∃ a < sn, ∃ b < sk, ¬IsPow2 (f a b)) → encoder sn sk f = none

/-- The hooked prepare step: what is encoded, if nothing raises. -/
def prepare (encoder : ℕ → ℕ → Scales → Option Scales) (l : Layer) (bn bk : ℕ) : Option Scales :=
  let l' := (repair l bn bk).1
  encoder l'.ws.rows l'.ws.cols (hooked l')

/-! ## What is claimed -/

section Claim

variable (l : Layer) (bn bk : ℕ)

/-- The block of an element is all zero. -/
def ZeroBlock (a b : ℕ) : Prop :=
  ∀ i < l.n, ∀ j < l.k, i / bn = a → j / bk = b → isZero (l.weight i j)

/-- The same number: a NaN agrees with a NaN, and the zeros agree. -/
def Agree (x y : FloatDatum) : Prop := x = y ∨ same x y = true

/-- The element that the loaded values and scales define: zero in an all-zero block. -/
def Defines (i j : ℕ) (x : FloatDatum) : Prop :=
  (ZeroBlock l bn bk (i / bn) (j / bk) ∧ x = .fin false 0) ∨
    (¬ZeroBlock l bn bk (i / bn) (j / bk) ∧
      x = (ofE4m3 (l.weight i j)).mul (scaleOf (l.scale (i / bn) (j / bk))))

/-- The element has a scale. -/
def InScale (i j : ℕ) : Prop := i / bn < l.ws.rows ∧ j / bk < l.ws.cols

/-- **The layer is preserved**: no scale of a block that is not all zero is repaired, and if the
encoder takes the scales, every element is the one that was loaded. -/
structure Preserved (encoder : ℕ → ℕ → Scales → Option Scales) : Prop where
  scale : ∀ a < l.ws.rows, ∀ b < l.ws.cols, ¬ZeroBlock l bn bk a b →
    (repair l bn bk).1.scale a b = l.scale a b
  element : ∀ e, prepare encoder l bn bk = some e → ∀ i < l.n, ∀ j < l.k, InScale l bn bk i j →
    ∀ x, Defines l bn bk i j x → Agree ((ofE4m3 (l.weight i j)).mul (e (i / bn) (j / bk))) x

/-- The scale of the block is repaired: it is bad, the block is all zero, and the shape tiles. -/
def Repaired (a b : ℕ) : Prop :=
  untiled l bn bk = some false ∧ bad (l.scale a b) = true ∧ ZeroBlock l bn bk a b

/-- **Where the hooks change the layer.** Apart from the scales that are repaired, every positive
scale is a power of two, and one scale is zero or negative; and a block with a scale that is not
positive holds a finite code other than zero, or a zero code while the scale is not finite. -/
structure Slips : Prop where
  pow2 : ∀ a < l.ws.rows, ∀ b < l.ws.cols, ¬Repaired l bn bk a b →
    positive (scaleOf (l.scale a b)) = true → IsPow2 (scaleOf (l.scale a b))
  fires : ∃ a < l.ws.rows, ∃ b < l.ws.cols, ¬Repaired l bn bk a b ∧
    notPositive (scaleOf (l.scale a b)) = true
  changes : ∃ i < l.n, ∃ j < l.k, InScale l bn bk i j ∧
    ¬ZeroBlock l bn bk (i / bn) (j / bk) ∧
      positive (scaleOf (l.scale (i / bn) (j / bk))) = false ∧
        (isZero (l.weight i j) = false ∧ l.weight i j % 128 ≠ 127 ∨
          isZero (l.weight i j) = true ∧
            ∀ s y, scaleOf (l.scale (i / bn) (j / bk)) ≠ .fin s y)

end Claim

end PaddedScales

import Mathlib.Data.Int.Notation
import SparkTP4.V4Transcode

/-!
# The rounding of the wo_a input

The reference rounds the attention output `o` to e4m3 before it is multiplied with
`wo_a`: in blocks of 32 along the last dimension, each with a power of two taken from
the bits of an fp32 product. `wo_a_input_fp8` does this in three ways – `reference_qdq`
in torch, a kernel that rounds `o` in place, and a tile rounded in registers – and the
dispatch decides which calls take which.

The numbers are those of `V4Transcode`: every operation is rounded to fp32. A number
whose code is that of an infinity, or beyond, is not finite. A bf16 number is its
16-bit word. The two kernels round to e4m3 in fp32 arithmetic (`e4m3Round`).
-/

namespace WoAInput

open BinaryFormat V4Transcode

/-! ## Numbers -/

/-- `+`. A sum of zero has a sign only if both numbers have. -/
def add (a b : F32) : F32 :=
  let sum := a.value + b.value
  ⟨if sum = 0 then a.sign && b.sign else sum < 0, binary32.round |sum|⟩

/-- A bf16 word in fp32. -/
def ofBf16 (w : ℕ) : F32 := .ofBits (w <<< 16)

/-- A bf16 word of a finite number. -/
def Finite (w : ℕ) : Prop := w < 2 ^ 16 ∧ w % 2 ^ 15 < 0x7F80

instance (w : ℕ) : Decidable (Finite w) := inferInstanceAs (Decidable (_ ∧ _))

/-- `((e + 127) << 23)`, read as fp32. -/
def pow2 (e : ℤ) : F32 := .ofBits ((e + 127).toNat <<< 23)

/-! ## The reference -/

/-- `_scale_exponent` -/
def scaleExponent (amax : F32) : ℤ :=
  let t := (amax.max (.const (1 / 10000))).mul (.const (1 / 448))
  let bits := t.bits
  ((bits >>> 23) &&& 0xFF : ℕ) - 127 + if bits &&& 0x7FFFFF ≠ 0 then 1 else 0

/-- The largest magnitude of a row of 32. -/
def rowAmax (f : ℕ → F32) : F32 := F32.amax ((List.range 32).map fun i => (f i).abs)

section Row

variable (f : ℕ → F32)

/-- `e` -/
def exponent : ℤ := scaleExponent (rowAmax f)

/-- `f / s` -/
def quotient (i : ℕ) : F32 := (f i).div (pow2 (exponent f))

/-- `v.to(float8_e4m3fn).float() * s`, for `v` the clamped quotient. -/
def product (i : ℕ) : F32 :=
  (F32.ofE4m3 (clamp (quotient f i)).toE4m3).mul (pow2 (exponent f))

end Row

/-- A row of `reference_qdq` -/
def referenceRow (x : ℕ → ℕ) (i : ℕ) : ℕ := (product (fun j => ofBf16 (x j)) i).toBf16

/-- A bf16 tensor `[T, G, D]`. -/
abbrev Tensor := ℕ → ℕ → ℕ → ℕ

/-- The element at a position of the tensor as one list. -/
def flat (G D : ℕ) (x : Tensor) (p : ℕ) : ℕ := x (p / D / G) (p / D % G) (p % D)

/-- `reference_qdq` -/
def referenceQdq (G D : ℕ) (x : Tensor) : Tensor := fun t g d =>
  let p := (t * G + g) * D + d
  referenceRow (fun i => flat G D x (p / 32 * 32 + i)) (p % 32)

/-! ## The kernels -/

/-- `_e4m3_round`, emulated. -/
def e4m3Round (v : F32) : F32 :=
  let a := v.abs
  let ea : ℤ := Max.max (((a.bits >>> 23) &&& 0xFF : ℕ) - 127) (-6)
  let ulp := F32.ofBits ((ea - 3 + 127).toNat <<< 23)
  let r := a.mul (.ofBits ((127 - (ea - 3)).toNat <<< 23))
  let r := add (add r (.const 12582912)) (F32.const 12582912).neg
  let q := r.mul ulp
  .ofBits (q.bits ||| (v.bits &&& 0x80000000))

/-- A row of `_qdq_rows32` -/
def qdqRow (f : ℕ → F32) (i : ℕ) : F32 :=
  let amax := (rowAmax f).max (.const (1 / 10000))
  let t := amax.mul (.const (1 / 448))
  let bits := t.bits
  let e : ℤ := ((bits >>> 23) &&& 0xFF : ℕ) - 127 + if bits &&& 0x7FFFFF ≠ 0 then 1 else 0
  let s := F32.ofBits ((e + 127).toNat <<< 23)
  let inv := F32.ofBits ((127 - e).toNat <<< 23)
  let v := (((f i).mul inv).max (.const (-448))).min (.const 448)
  (e4m3Round v).mul s

/-- `qdq_tile`: a tile of `C` columns, each row cut into rows of 32. -/
def qdqTile (C : ℕ) (x : ℕ → ℕ → ℕ) (r c : ℕ) : ℕ :=
  let p := r * C + c
  (qdqRow (fun i => ofBf16 (x ((p / 32 * 32 + i) / C) ((p / 32 * 32 + i) % C))) (p % 32)).toBf16

/-- The tile a program of `_wo_a_partial_w8` or `_wo_a_mid_kernel` loads: rows from `m0`, those
below `M`, and columns from `k0` of a group. -/
def loadTile (x : Tensor) (M m0 g k0 : ℕ) (r c : ℕ) : ℕ :=
  if m0 + r < M then x (m0 + r) g (k0 + c) else 0

/-! ### In place -/

/-- A strided view of a memory. -/
structure View where
  T : ℕ
  G : ℕ
  D : ℕ
  s0 : ℕ
  s1 : ℕ

/-- The address of an element. -/
def View.address (v : View) (t g d : ℕ) : ℕ := t * v.s0 + g * v.s1 + d

/-- What a memory holds of the tensor. -/
def View.tensor (v : View) (mem : ℕ → ℕ) : Tensor := fun t g d => mem (v.address t g d)

/-- A program of `_qdq_inplace_kernel`. -/
structure Program where
  row : ℕ
  group : ℕ
  chunk : ℕ
  deriving DecidableEq

section InPlace

variable (v : View) (nb : ℕ)

/-- The grid `(t, g, d // (nb * 32))` -/
def InGrid (p : Program) : Prop := p.row < v.T ∧ p.group < v.G ∧ p.chunk < v.D / (nb * 32)

/-- `ptr`, of the first lane. -/
def ptr (p : Program) : ℕ := p.row * v.s0 + p.group * v.s1 + p.chunk * (nb * 32)

/-- The two accesses of a program. -/
inductive Event where
  | load (p : Program)
  | store (p : Program)

/-- The memory and the tile each program has loaded. -/
structure State where
  mem : ℕ → ℕ
  tile : Program → Option (ℕ → ℕ)

/-- The result of a program, by lane. -/
def rounded (x : ℕ → ℕ) (l : ℕ) : ℕ := qdqTile 32 (fun r c => x (r * 32 + c)) (l / 32) (l % 32)

/-- One access. -/
def step (s : State) : Event → State
  | .load p => { s with tile := Function.update s.tile p (some fun l => s.mem (ptr v nb p + l)) }
  | .store p =>
    match s.tile p with
    | none => s
    | some x =>
      { s with mem := fun a =>
          if ptr v nb p ≤ a ∧ a < ptr v nb p + nb * 32 then rounded x (a - ptr v nb p)
          else s.mem a }

/-- The program of an access. -/
def Event.program : Event → Program
  | .load p => p
  | .store p => p

/-- **A launch**: every program of the grid loads once and then stores once, between the accesses
of the others. -/
def IsLaunch (events : List Event) : Prop :=
  (∀ ev ∈ events, InGrid v nb ev.program) ∧
    ∀ p, InGrid v nb p → events.filter (·.program = p) = [.load p, .store p]

/-- The memory after a launch. -/
def launch (mem : ℕ → ℕ) (events : List Event) : ℕ → ℕ :=
  (events.foldl (step v nb) ⟨mem, fun _ => none⟩).mem

end InPlace

/-! ## The dispatch -/

/-- What a call says of `o`. -/
structure Layout where
  shape : List ℕ
  strides : List ℕ
  bf16 : Bool

/-- `round_o_` takes it. -/
def Layout.accepted (l : Layout) : Bool :=
  l.shape.length == 3 && l.shape.getD 2 0 % 32 == 0 && l.bf16 &&
    (l.shape.prod == 0 || l.strides.getD 2 0 == 1)

/-- `std` -/
def Layout.std (l : Layout) : Bool :=
  l.bf16 && l.shape.drop 1 == [2, 4096] && l.strides.getD 2 0 == 1 &&
    l.strides.getD 1 0 == 4096 && 8192 ≤ l.strides.getD 0 0

/-- The kernel the stock dispatch picks: one of the two small-batch kernels, or another. -/
inductive StockKernel where
  | small
  | smallMx
  | other

/-- A call of `_apply_wo_a_bf16_matmul`: the layout of `o`, the address of the weight, the flags,
what the stock dispatch picks, and the address of the copy a dropped weight is given. -/
structure Call where
  o : Layout
  ptr : ℕ
  verify : Bool
  prefill : Bool
  kernel : StockKernel
  scratch : ℕ

/-- The flags of the two adapters, and the twins of the process. -/
structure Config where
  /-- `DSV41_WO_A_INPUT_FP8`, `QX` in `wo_a_w8` -/
  qx : Bool
  /-- `DSV41_WO_A_W8` -/
  w8 : Bool
  mid : Bool
  drop : Bool
  /-- The address has a twin. -/
  twin : ℕ → Bool
  /-- The address is that of a dropped weight. -/
  dropped : ℕ → Bool

/-- The function under `_apply_wo_a_bf16_matmul`: the stock one, `wrap` of one, or the wrapper of
`install_mid` over one. -/
inductive Dispatch where
  | stock
  | wrap (fn : Dispatch)
  | midDrop (orig : Dispatch)

/-- The attribute `_dsv41_wo_a_input_fp8` of a function. -/
def Dispatch.wrapped : Dispatch → Bool
  | .wrap _ => true
  | _ => false

section Apply

variable {O : Type} (cfg : Config) (roundO : O → O) (tile : O → O)

/-- `_partial_w8` and `wo_a_mid`: what is multiplied with the twin. -/
def multiplied (qx : Bool) (o : O) : O := if qx then tile o else o

/-- The stock dispatch, with `small` and `small_mx` in it: what is multiplied. -/
def stockOperand (c : Call) (ptr : ℕ) (o : O) : O :=
  match c.kernel with
  | .small | .smallMx => if cfg.w8 && cfg.twin ptr then multiplied tile false o else o
  | .other => o

/-- `9 <= m <= 192` in a verify graph. -/
def Call.midRows (c : Call) : Bool :=
  9 ≤ c.o.shape.getD 0 0 && c.o.shape.getD 0 0 ≤ 192 && c.verify && !c.prefill

/-- `2 <= m <= 8` -/
def Call.smallRows (c : Call) : Bool := 2 ≤ c.o.shape.getD 0 0 && c.o.shape.getD 0 0 ≤ 8

/-- `_apply_wo_a_bf16_matmul`: what is multiplied, if `o` is taken. -/
def apply (c : Call) : Dispatch → ℕ → O → Option O
  | .stock, ptr, o => some (stockOperand cfg tile c ptr o)
  | .wrap fn, ptr, o => if c.o.accepted then apply c fn ptr (roundO o) else none
  | .midDrop orig, ptr, o =>
    if cfg.dropped ptr then
      -- `_dropped_path`
      if c.o.std && c.smallRows then some (multiplied tile cfg.qx o)
      else if c.o.std && c.midRows then some (multiplied tile cfg.qx o)
      else apply c orig c.scratch o
    else if !cfg.mid then apply c orig ptr o
    else if c.midRows && cfg.twin ptr && c.o.std then some (multiplied tile cfg.qx o)
    else apply c orig ptr o

end Apply

/-! ### Installing -/

/-- The dispatch of a module, and the marks of the two adapters on it. -/
structure Module where
  dispatch : Dispatch
  inputFp8 : Bool
  woAMid : Bool

/-- A call of an installer. -/
inductive Installer where
  | inputFp8
  | mid

/-- `install_model` of `wo_a_input_fp8` and `install_mid` of `wo_a_w8`; `none` where they
raise. -/
def install (cfg : Config) (m : Module) : Installer → Option Module
  | .inputFp8 =>
    if !cfg.qx || m.inputFp8 then some m
    else if m.woAMid then none
    else some { m with dispatch := .wrap m.dispatch, inputFp8 := true }
  | .mid =>
    if !(cfg.w8 && (cfg.mid || cfg.drop)) || m.woAMid then some m
    else if cfg.qx && !m.dispatch.wrapped then none
    else some { m with dispatch := .midDrop m.dispatch, woAMid := true }

/-- The module as it is imported. -/
def Module.imported : Module := ⟨.stock, false, false⟩

/-- The installers in the order they are called. -/
def installAll (cfg : Config) (m : Module) : List Installer → Option Module
  | [] => some m
  | i :: is => (install cfg m i).bind fun n => installAll cfg n is

/-! ## What is claimed -/

/-- A row of finite numbers, with a finite result. -/
structure Good (x : ℕ → ℕ) : Prop where
  finite : ∀ i < 32, Finite (x i)
  result : ∀ i < 32, Finite (referenceRow x i)

/-- Row `c` of 32 of a tensor. -/
def row (x : Tensor) (t g c : ℕ) (i : ℕ) : ℕ := x t g (c * 32 + i)

/-- Any two rows of 32 are at the same addresses, or at different ones. -/
def View.Apart (v : View) : Prop :=
  ∀ t < v.T, ∀ g < v.G, ∀ c < v.D / 32, ∀ t' < v.T, ∀ g' < v.G, ∀ c' < v.D / 32,
    v.address t g (c * 32) = v.address t' g' (c' * 32) ∨
      v.address t g (c * 32) + 32 ≤ v.address t' g' (c' * 32) ∨
        v.address t' g' (c' * 32) + 32 ≤ v.address t g (c * 32)

/-- **The kernel in place**, for every view with a property: a launch, in any order and with either
grouping, leaves the values of the reference in every good row. -/
def InPlaceExact (P : View → Prop) : Prop :=
  ∀ v : View, P v → ∀ nb, 0 < nb → v.D % (nb * 32) = 0 → ∀ mem events, IsLaunch v nb events →
    ∀ t < v.T, ∀ g < v.G, ∀ c < v.D / 32, Good (row (v.tensor mem) t g c) → ∀ i < 32,
      launch v nb mem events (v.address t g (c * 32 + i)) =
        referenceQdq v.G v.D (v.tensor mem) t g (c * 32 + i)

/-- **The rounding of the wo_a input.** -/
structure RoundingExact (P : View → Prop) : Prop where
  inPlace : InPlaceExact P
  /-- A tile of whole rows of 32, rounded in registers. -/
  tile : ∀ (x : Tensor) (G D M m0 g k0 C : ℕ), g < G → D % 32 = 0 → k0 % 32 = 0 → C % 32 = 0 →
    k0 + C ≤ D → ∀ r c, m0 + r < M → c < C → Good (row x (m0 + r) g ((k0 + c) / 32)) →
      qdqTile C (loadTile x M m0 g k0) r c = referenceQdq G D x (m0 + r) g (k0 + c)
  /-- The emulated conversion. -/
  e4m3 : ∀ a : F32, a.magnitude ≤ 448 → ∃ c ≤ 126, (e4m3Round a).sign = a.sign ∧
    (e4m3Round a).magnitude = e4m3.value c ∧ e4m3.IsNearestEven a.magnitude c
  clamp : ∀ x : ℕ → ℕ, (∀ i < 32, Finite (x i)) → ∀ i < 32,
    clamp (quotient (fun j => ofBf16 (x j)) i) = quotient (fun j => ofBf16 (x j)) i
  /-- The product is the word it is rounded to. -/
  bf16 : ∀ x, Good x → ∀ i < 32,
    ofBf16 (referenceRow x i) = product (fun j => ofBf16 (x j)) i
  idem : ∀ x, Good x → ∀ i < 32, referenceRow (referenceRow x) i = referenceRow x i
  /-- Whatever the two roundings are, the dispatch applies one of them, once. -/
  dispatch : ∀ (O : Type) (cfg : Config) (roundO tile : O → O) (is : List Installer) (m : Module),
    cfg.qx → installAll cfg .imported is = some m → m.inputFp8 → ∀ c ptr o y,
      apply cfg roundO tile c m.dispatch ptr o = some y → y = roundO o ∨ y = tile o

end WoAInput

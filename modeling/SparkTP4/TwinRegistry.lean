import Mathlib.Data.Fintype.Pi
import Mathlib.Data.Int.Notation
import SparkTP4.Memo
import SparkTP4.Transition

/-!
# The registry of fp8 twins

The checkpoint holds `wo_a` as e4m3 values with one exponent for each block of
32 by 32, and the engine dequantizes it to bf16 at load. `wo_a_w8` keeps a twin
of every such weight – the values and the exponents – when it reproduces the
weight exactly, and serves small batches from the twin. With `DROP` the bf16
storage is released as well: the weight becomes a view of a tag of one element
and every call is served from the twin.

The twins are kept in `_TWINS`, by the address of the weight. Entries are added
by `build_twins` at the end of `load_weights`, moved to the address of a tag by
`drop_bf16`, and never removed otherwise. The model has the weights of a process
as modules of two models, each with the address it has, what its storage holds
and what it last loaded; a load edits the weights of one model one after the
other, and the allocator may give out any address that is not in use.

The three operations on single values – the exponent of a block, the rounding to
e4m3 and the product rounded to bf16 – are parameters.
-/

namespace TwinRegistry

/-! ## Twins -/

/-- The bf16 values, the e4m3 values, and the operations between them. -/
structure Fp8 (B E : Type) where
  /-- `0.0` -/
  zero : B
  /-- `ceil(log2(amax / 448))` of a block, with `amax` at least `2 ** -126` -/
  blockExponent : (Fin 32 → Fin 32 → Option B) → ℤ
  /-- `(w / exp2(e)).to(float8_e4m3fn)` -/
  quantize : B → ℤ → E
  /-- `(q.float() * exp2(e)).to(bfloat16)` -/
  dequantize : E → ℤ → B

/-- The shape `[g, r, d]` of a weight, which the source fixes as `[2, 1024, 4096]`. -/
structure Shape where
  g : ℕ
  r : ℕ
  d : ℕ

variable {B E : Type} {shape : Shape}

/-- A bf16 weight. -/
abbrev Weight (B : Type) (shape : Shape) := Fin shape.g → Fin shape.r → Fin shape.d → B

/-- A twin: the e4m3 values and one `uint8` exponent for each block. -/
structure Twin (E : Type) (shape : Shape) where
  values : Fin shape.g → Fin shape.r → Fin shape.d → E
  exponents : Fin shape.g → ℕ → ℕ → ℕ

/-- A block of 32 rows and 32 columns. -/
def block (w : Weight B shape) (g : Fin shape.g) (rb cb : ℕ) (i j : Fin 32) : Option B :=
  if h : rb * 32 + i < shape.r ∧ cb * 32 + j < shape.d then
    some (w g ⟨rb * 32 + i, h.1⟩ ⟨cb * 32 + j, h.2⟩)
  else none

/-- `e` of `make_twin` -/
def exponent (fp : Fp8 B E) (w : Weight B shape) (g : Fin shape.g) (rb cb : ℕ) : ℤ :=
  min (max (fp.blockExponent (block w g rb cb)) (-127)) 127

/-- `make_twin` -/
def makeTwin [DecidableEq B] (fp : Fp8 B E) (w : Weight B shape) : Option (Twin E shape) :=
  let e := exponent fp w
  let q := fun g r d => fp.quantize (w g r d) (e g (r / 32) (d / 32))
  let back := fun g r d => fp.dequantize (q g r d) (e g (r / 32) (d / 32))
  if back = w then some ⟨q, fun g rb cb => (e g rb cb + 127).toNat⟩ else none

/-- The weight the kernels rebuild from a twin, tile by tile, and `dequant_into_scratch`
stores. -/
def Twin.weight (fp : Fp8 B E) (t : Twin E shape) : Weight B shape :=
  fun g r d => fp.dequantize (t.values g r d) ((t.exponents g (r / 32) (d / 32) : ℤ) - 127)

/-! ## Modules -/

/-- The target model and the draft model. -/
inductive Model where
  | target
  | draft
  deriving DecidableEq

/-- The `wo_a` weight of a module. -/
structure Param (B : Type) (shape : Shape) where
  /-- `data_ptr()` -/
  ptr : ℕ
  /-- It is a zero-stride view of a tag: its bf16 storage was released. -/
  isTag : Bool
  /-- What reading the weight gives. -/
  weight : Weight B shape
  /-- What the module last loaded. -/
  loaded : Weight B shape

/-- What is fixed for a boot. -/
structure Config where
  /-- `model.modules()`, those with a `wo_a` -/
  modules : Model → List ℕ
  /-- The weight is bf16 and has as many elements as the twins are for. -/
  fits : ℕ → Bool
  /-- `MID` -/
  mid : Bool
  /-- `DROP` -/
  drop : Bool

/-- The modules of both models. -/
def Config.all (cfg : Config) : List ℕ := cfg.modules .target ++ cfg.modules .draft

/-- The state of a process. -/
structure State (B E : Type) (shape : Shape) where
  param : ℕ → Param B shape
  /-- The addresses of other live tensors. -/
  others : List ℕ
  /-- `_TWINS` -/
  twins : List (ℕ × Twin E shape)
  /-- `_DROPPED` -/
  dropped : List ℕ

/-- An address in use. -/
def State.live (cfg : Config) (s : State B E shape) (a : ℕ) : Prop :=
  a ∈ s.others ∨ ∃ i ∈ cfg.all, (s.param i).ptr = a

instance (cfg : Config) (s : State B E shape) (a : ℕ) : Decidable (s.live cfg a) :=
  inferInstanceAs (Decidable (_ ∨ _))

/-! ## Loading -/

/-- What a load does to one weight: it writes it in place, or puts it into a new storage.
A weight without an edit is left alone. -/
inductive Edit (B : Type) (shape : Shape) where
  | rewrite (w : Weight B shape)
  | replace (ptr : ℕ) (w : Weight B shape)

/-- One edit. Writing in place into a zero-stride view raises. -/
def State.edit (cfg : Config) (s : State B E shape) (i : ℕ) :
    Edit B shape → Option (State B E shape)
  | .rewrite w =>
    if (s.param i).isTag then none
    else some { s with
      param := Function.update s.param i { s.param i with weight := w, loaded := w } }
  | .replace ptr w =>
    if s.live cfg ptr then none
    else some { s with param := Function.update s.param i ⟨ptr, false, w, w⟩ }

/-- The stock `load_weights` of a model: its edits, in order. -/
def State.origLoad (cfg : Config) (m : Model) (s : State B E shape) :
    List (ℕ × Edit B shape) → Option (State B E shape)
  | [] => some s
  | (i, e) :: edits =>
    if i ∈ cfg.modules m then (s.edit cfg i e).bind fun t => State.origLoad cfg m t edits else none

/-- The twin `build_twins` makes for a module, if it makes one. -/
def candidate [DecidableEq B] (fp : Fp8 B E) (cfg : Config) (s : State B E shape) (i : ℕ) :
    Option (Twin E shape) :=
  if cfg.fits i then makeTwin fp (s.param i).weight else none

/-- `build_twins` on one module -/
def State.buildOne [DecidableEq B] (fp : Fp8 B E) (cfg : Config) (s : State B E shape) (i : ℕ) :
    State B E shape :=
  match candidate fp cfg s i with
  | none => s
  | some t => { s with twins := Memo.set s.twins (s.param i).ptr t }

/-- `build_twins` -/
def State.buildTwins [DecidableEq B] (fp : Fp8 B E) (cfg : Config) (s : State B E shape)
    (ids : List ℕ) : State B E shape :=
  ids.foldl (fun s i => s.buildOne fp cfg i) s

/-- `drop_bf16` on one module, with the address the tag gets -/
def State.dropOne [DecidableEq B] (fp : Fp8 B E) (cfg : Config) (s : State B E shape) (i tag : ℕ) :
    Option (State B E shape) :=
  if cfg.fits i then
    match Memo.get s.twins (s.param i).ptr with
    | none => some s
    | some t =>
      if t.weight fp = (s.param i).weight then
        if s.live cfg tag then none
        else some { s with
          param := Function.update s.param i
            { s.param i with ptr := tag, isTag := true, weight := fun _ _ _ => fp.zero }
          twins := Memo.set (Memo.drop s.twins (s.param i).ptr) tag t
          dropped := tag :: s.dropped }
      else some s
  else some s

/-- `drop_bf16` -/
def State.dropBf16 [DecidableEq B] (fp : Fp8 B E) (cfg : Config) (tags : ℕ → ℕ)
    (s : State B E shape) : List ℕ → Option (State B E shape)
  | [] => some s
  | i :: ids => (s.dropOne fp cfg i (tags i)).bind fun t => State.dropBf16 fp cfg tags t ids

/-- The wrapped `load_weights` -/
def State.loadWeights [DecidableEq B] (fp : Fp8 B E) (cfg : Config) (s : State B E shape)
    (m : Model) (edits : List (ℕ × Edit B shape)) (tags : ℕ → ℕ) : Option (State B E shape) :=
  (s.origLoad cfg m edits).bind fun t =>
    let t := t.buildTwins fp cfg (cfg.modules m)
    if cfg.drop then t.dropBf16 fp cfg tags (cfg.modules m) else some t

/-- What happens to a process. -/
inductive Event (B : Type) (shape : Shape) where
  /-- `load_weights` of a model, with the addresses its tags get. -/
  | load (m : Model) (edits : List (ℕ × Edit B shape)) (tags : ℕ → ℕ)
  /-- Another tensor is allocated. -/
  | alloc (a : ℕ)
  /-- Another tensor is freed. -/
  | free (a : ℕ)

/-- One event. -/
def State.next [DecidableEq B] (fp : Fp8 B E) (cfg : Config) (s : State B E shape) :
    Event B shape → Option (State B E shape)
  | .load m edits tags => s.loadWeights fp cfg m edits tags
  | .alloc a => if s.live cfg a then none else some { s with others := a :: s.others }
  | .free a => some { s with others := s.others.filter (· ≠ a) }

/-- A process before its first load: no twins, every module with a storage of its own. -/
structure Fresh (cfg : Config) (s : State B E shape) : Prop where
  twins : s.twins = []
  full : ∀ i ∈ cfg.all, (s.param i).isTag = false ∧ (s.param i).weight = (s.param i).loaded
  apart : ∀ i ∈ cfg.all, ∀ j ∈ cfg.all, i ≠ j → (s.param i).ptr ≠ (s.param j).ptr
  others : ∀ i ∈ cfg.all, (s.param i).ptr ∉ s.others

/-! ## Dispatch -/

/-- A call of the dispatch: the rows of `o`, whether its layout is the standard one, the flags,
whether the stock dispatch takes the small-batch kernels for it, and the address a dequantized
copy would get. -/
structure Call where
  rows : ℕ
  std : Bool
  verify : Bool
  prefill : Bool
  small : Bool
  scratch : ℕ

/-- `9 <= m <= 192` in a verify or draft graph -/
def Call.midRows (c : Call) : Bool :=
  decide (9 ≤ c.rows) && decide (c.rows ≤ 192) && c.verify && !c.prefill

/-- `small` or `small_mx`, or the stock path: the weight it multiplies with. -/
def State.stock (fp : Fp8 B E) (s : State B E shape) (c : Call) (ptr : ℕ) (w : Weight B shape) :
    Weight B shape :=
  if c.small then ((Memo.get s.twins ptr).map fun t => t.weight fp).getD w else w

/-- `_dropped_path` -/
def State.droppedPath (fp : Fp8 B E) (s : State B E shape) (c : Call) (t : Twin E shape) :
    Weight B shape :=
  if c.std && (decide (2 ≤ c.rows) && decide (c.rows ≤ 8) || c.midRows) then t.weight fp
  else s.stock fp c c.scratch (t.weight fp)

/-- `_apply_wo_a_bf16_matmul`: the weight a call multiplies with, if it finds what it looks
up. -/
def State.served (fp : Fp8 B E) (cfg : Config) (s : State B E shape) (c : Call) (i : ℕ) :
    Option (Weight B shape) :=
  let p := s.param i
  if p.ptr ∈ s.dropped then (Memo.get s.twins p.ptr).map (s.droppedPath fp c)
  else if cfg.mid && c.midRows && c.std then
    some (((Memo.get s.twins p.ptr).map fun t => t.weight fp).getD (s.stock fp c p.ptr p.weight))
  else some (s.stock fp c p.ptr p.weight)

/-! ## What is claimed -/

/-- **The registry is sound.** -/
structure Sound (fp : Fp8 B E) (cfg : Config) (s : State B E shape) : Prop where
  /-- An entry under the address of a weight is the weight its module last loaded. -/
  exact : ∀ i ∈ cfg.all, ∀ t, Memo.get s.twins (s.param i).ptr = some t →
    t.weight fp = (s.param i).loaded
  /-- A call multiplies with the weight its module last loaded, if the copy it may make is not
  taken for another weight. -/
  served : ∀ i ∈ cfg.all, ∀ c : Call, Memo.get s.twins c.scratch = none →
    ∀ w, s.served fp cfg c i = some w → w = (s.param i).loaded
  /-- A weight without its bf16 storage is served from its twin. -/
  dropped : ∀ i ∈ cfg.all, (s.param i).isTag = true →
    (s.param i).ptr ∈ s.dropped ∧ ∃ t, Memo.get s.twins (s.param i).ptr = some t

/-- **The condition on a load.** After the stock load, no weight of the model is left as the view
of a tag, and a weight that gets no twin lies at no address with an entry. -/
def Renewed [DecidableEq B] (fp : Fp8 B E) (cfg : Config) (s : State B E shape) :
    Event B shape → Prop
  | .load m edits _ => ∀ t, s.origLoad cfg m edits = some t → ∀ i ∈ cfg.modules m,
      (t.param i).isTag = false ∧
        (candidate fp cfg t i = none → Memo.get s.twins (t.param i).ptr = none)
  | _ => True

end TwinRegistry

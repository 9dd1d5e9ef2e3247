import SparkTP4.RowMajor

/-!
# The eager reads of the fast loader

`adapter/fast_load.py` reads the tensors of a shard that this rank will copy into host memory
(`neededNames`). With a tensor-parallel layout of the experts it reads of a routed expert's
tensor this rank's slice only (`sliceSpec`): a block of leading rows is contiguous in the file,
another dimension is cut out of whole rows, which go through the bounce buffer of the reading
thread (`readSlice`). The stock loader then narrows a stand-in of the full shape
(`TpSliceTensor`).

A file is the list of its bytes. `preadv` may transfer less than it is asked for; the number
comes from the schedule. Where the source raises, the result is `none`. The reads of a tensor
are recorded, for the accounting of `planRanges`. `int` is the conversion of a string to a
number, `none` where it raises.
-/

open RowMajor

namespace FastLoad

/-- The types of `_DTYPES`. -/
inductive Dtype where
  | F8_E4M3
  | F8_E5M2
  | F8_E8M0
  | BF16
  | F16
  | F32
  | F64
  | I8
  | U8
  | I16
  | I32
  | I64
  | BOOL
  deriving DecidableEq

/-- `_itemsize` -/
def Dtype.itemsize : Dtype → ℕ
  | .F64 | .I64 => 8
  | .F32 | .I32 => 4
  | .BF16 | .F16 | .I16 => 2
  | _ => 1

/-- An entry of the header of a shard. -/
structure Info where
  dtype : Dtype
  shape : List ℕ
  dataOffsets : ℕ × ℕ

/-- The entry has as many bytes as its shape says. -/
def Info.Valid (info : Info) : Prop :=
  info.dataOffsets.2 = info.dataOffsets.1 + info.shape.prod * info.dtype.itemsize

/-- The tensor of an entry, in a file whose data starts at `base`. -/
def Info.tensor (info : Info) (file : Bytes) (base : ℕ) : Option Tensor :=
  if h : (file.slice (base + info.dataOffsets.1) (info.shape.prod * info.dtype.itemsize)).length =
      info.shape.prod * info.dtype.itemsize then
    some ⟨info.shape, info.dtype.itemsize, _, h⟩
  else none

/-! ## The names -/

abbrev Name : Type := List Char

def draftName : Name := "mtp.".toList

def engramTable : Name := ".engram.embed.".toList

def expertsName : Name := ".experts.".toList

/-- The text after the first occurrence of `sep`. -/
def afterFirst (sep : Name) : Name → Option Name
  | [] => if sep = [] then some [] else none
  | c :: text =>
    if sep.isPrefixOf (c :: text) then some ((c :: text).drop sep.length) else afterFirst sep text

/-- `_expert_id` -/
def expertId (int : Name → Option ℤ) (name : Name) : Option ℤ :=
  (afterFirst expertsName name).bind fun text => int (text.takeWhile (· ≠ '.'))

inductive Phase where
  | target
  | draft
  deriving DecidableEq

/-- The names that the target load leaves out. -/
def Skipped (name : Name) : Bool := draftName.isPrefixOf name || (afterFirst engramTable name).isSome

/-- Routed experts `[lo, hi)` of this rank, and everything that is not a routed expert. -/
def ownedBy (int : Name → Option ℤ) (lo hi : ℕ) (name : Name) : Bool :=
  match expertId int name with
  | none => true
  | some e => lo ≤ e ∧ e < hi

/-- `needed_names`: `ep` is the expert-parallel rank and size. -/
def neededNames (int : Name → Option ℤ) (header : List (Name × Info)) (phase : Phase)
    (ep : Option (ℕ × ℕ)) (nRouted : Option ℕ) : List Name :=
  let names := header.map Prod.fst
  match phase, ep, nRouted with
  | .draft, _, _ => names.filter fun k => draftName.isPrefixOf k
  | .target, some (epRank, epSize), some n =>
    if n % epSize ≠ 0 then
      names.filter fun k => !Skipped k && (expertId int k).isNone
    else
      let perRank := n / epSize
      names.filter fun k =>
        !Skipped k && ownedBy int (epRank * perRank) ((epRank + 1) * perRank) k
  | .target, _, _ => names.filter fun k => !Skipped k && (expertId int k).isNone

/-! ## The slices -/

/-- The slice `[start, start + length)` of dimension `dim`. -/
structure Spec where
  dim : ℕ
  start : ℕ
  length : ℕ
  deriving DecidableEq

/-- `name.rsplit('.', 2)[1:]`, when there are two dots. -/
def lastParts (name : Name) : Option (Name × Name) :=
  let text := name.reverse
  let kind := text.takeWhile (· ≠ '.')
  match text.dropWhile (· ≠ '.') with
  | [] => none
  | _ :: text =>
    if '.' ∈ text then some ((text.takeWhile (· ≠ '.')).reverse, kind.reverse) else none

/-- `_TP_SLICE_DIM` -/
def tpSliceDim (proj : Name) : Option ℕ :=
  if proj = "w1".toList ∨ proj = "w3".toList then some 0
  else if proj = "w2".toList then some 1
  else none

/-- `slice_spec`: `tp` is the tensor-parallel rank and size. -/
def sliceSpec (int : Name → Option ℤ) (name : Name) (info : Info) (tp : Option (ℕ × ℕ)) :
    Option Spec :=
  match tp, expertId int name, lastParts name with
  | some (rank, size), some _, some (proj, kind) =>
    if kind = "weight".toList ∨ kind = "scale".toList then
      (tpSliceDim proj).bind fun dim =>
        match info.shape[dim]? with
        | none => none
        | some d => if d % size ≠ 0 then none else some ⟨dim, rank * (d / size), d / size⟩
    else none
  | _, _, _ => none

/-- `_slice_geometry`: the tensor as rows of bytes. -/
structure Geometry where
  outer : ℕ
  d : ℕ
  inner : ℕ

def Geometry.row (g : Geometry) : ℕ := g.d * g.inner

def sliceGeometry (info : Info) (spec : Spec) : Option Geometry :=
  (info.shape[spec.dim]?).map fun d =>
    ⟨(info.shape.take spec.dim).prod, d, (info.shape.drop (spec.dim + 1)).prod * info.dtype.itemsize⟩

/-- One planned tensor: its name, its entry in the header and the slice to read. -/
structure Entry where
  name : Name
  info : Info
  spec : Option Spec

/-- `spec_bytes`: what is read from the file, and what is kept. -/
def specBytes (info : Info) (spec : Option Spec) : Option (ℕ × ℕ) :=
  let n := info.dataOffsets.2 - info.dataOffsets.1
  match spec with
  | none => some (n, n)
  | some spec => (sliceGeometry info spec).map fun g =>
    let kept := g.outer * (spec.length * g.inner)
    (if g.outer = 1 then kept else g.outer * g.row, kept)

/-- `read_plan` -/
def readPlan (int : Name → Option ℤ) (header : List (Name × Info)) (phase : Phase)
    (ep : Option (ℕ × ℕ)) (nRouted : Option ℕ) (tp : Option (ℕ × ℕ)) (experts : Bool) :
    List Entry :=
  let names := neededNames int header phase ep nRouted
  let names := if experts then names else names.filter fun k => (expertId int k).isNone
  (header.filter fun k => k.1 ∈ names).map fun k => ⟨k.1, k.2, sliceSpec int k.1 k.2 tp⟩

/-! ## The ranges of a plan -/

/-- The bytes of the data that the plan says an entry touches. -/
def Entry.range (e : Entry) : Option (ℕ × ℕ) :=
  let a := e.info.dataOffsets.1
  let b := e.info.dataOffsets.2
  if b ≤ a then none
  else
    match e.spec.bind fun spec => (sliceGeometry e.info spec).map (spec, ·) with
    | none => some (a, b)
    | some (spec, g) =>
      if g.outer = 1 then
        some (a + spec.start * g.inner, a + (spec.start + spec.length) * g.inner)
      else some (a, b)

/-- The next range, in order: it is merged with the last one if they touch. -/
def mergeRange (merged : List (ℕ × ℕ)) (r : ℕ × ℕ) : List (ℕ × ℕ) :=
  match merged with
  | [] => [r]
  | last :: merged =>
    if r.1 ≤ last.2 then (last.1, max last.2 r.2) :: merged else r :: last :: merged

/-- `plan_ranges`; the last range first. -/
def planRanges (base : ℕ) (plan : List Entry) : List (ℕ × ℕ) :=
  let ranges := (plan.filterMap Entry.range).map fun r => (base + r.1, base + r.2)
  (ranges.mergeSort fun r r' => r.1 < r'.1 ∨ r.1 = r'.1 ∧ r.2 ≤ r'.2).foldl mergeRange []

/-! ## The reads -/

/-- What `preadv` transfers of the `want` bytes at `off`, at most. -/
abbrev Preadv : Type := ℕ → ℕ → ℕ

variable (io : Preadv) (file : Bytes)

/-- The loop of `_read_into`; every turn reads at least one byte. -/
def readLoop : ℕ → ℕ → ℕ → Option Bytes
  | 0, _, n => if n = 0 then some [] else none
  | fuel + 1, off, n =>
    if n = 0 then some []
    else
      let got := file.pread off n (io off n)
      if got = [] then none else (readLoop fuel (off + got.length) (n - got.length)).map (got ++ ·)

/-- `_read_into` -/
def readInto (off n : ℕ) : Option Bytes := readLoop io file n off n

/-- A buffer that is being filled, with the reads so far. -/
structure Filled where
  data : Bytes
  /-- record: offset and number of bytes of every read -/
  reads : List (ℕ × ℕ)

/-- `range(0, n, chunk)`, the first `k` turns: reads of at most `chunk` bytes. -/
def readChunks (chunk off n : ℕ) (flat : Bytes) : ℕ → Option Filled
  | 0 => some ⟨flat, []⟩
  | k + 1 =>
    (readChunks chunk off n flat k).bind fun r =>
      let c := k * chunk
      let want := min chunk (n - c)
      (readInto io file (off + c) want).map fun piece =>
        ⟨r.data.splice c piece, r.reads ++ [(off + c, want)]⟩

/-- The number of turns of a loop over `n` in steps of `chunk`. -/
def turns (n chunk : ℕ) : ℕ := (n + chunk - 1) / chunk

/-- The tensor of a full buffer: `flat.view(dtype).reshape(shape)`. -/
def asTensor (flat : Bytes) (dtype : Dtype) (shape : List ℕ) : Option Tensor :=
  if h : flat.length = shape.prod * dtype.itemsize then some ⟨shape, dtype.itemsize, flat, h⟩ else none

/-- A tensor that has been read, the bounce buffer of the thread afterwards, and the reads. -/
structure ReadResult where
  tensor : Tensor
  buf : Option Bytes
  /-- record: offset and number of bytes of every read -/
  reads : List (ℕ × ℕ)

/-- `_read_tensor`: `flat` is the tensor's region of a slab, or a buffer of its own. -/
def readTensor (chunk base : ℕ) (info : Info) (flat : Bytes) (buf : Option Bytes) :
    Option ReadResult :=
  let n := info.dataOffsets.2 - info.dataOffsets.1
  if n = 0 then (asTensor [] info.dtype info.shape).map fun t => ⟨t, buf, []⟩
  else if flat.length ≠ n then none
  else
    (readChunks io file chunk (base + info.dataOffsets.1) n flat (turns n chunk)).bind fun r =>
      (asTensor r.data info.dtype info.shape).map fun t => ⟨t, buf, r.reads⟩

/-- `_bounce`: the buffer of the thread, if it is long enough. -/
def bounce (chunk : ℕ) (buf : Option Bytes) (n : ℕ) : Bytes :=
  (buf.filter fun b => n ≤ b.length).getD (List.replicate (max n chunk) 0)

/-- What the loop over the rows holds. -/
structure Rows where
  data : Bytes
  buf : Bytes
  reads : List (ℕ × ℕ)

/-- The first `k` turns of the loop over the rows: whole rows are read into the bounce buffer and
the slice of each is copied. -/
def readRows (g : Geometry) (spec : Spec) (rows off : ℕ) (flat buf : Bytes) : ℕ → Option Rows
  | 0 => some ⟨flat, buf, []⟩
  | k + 1 =>
    (readRows g spec rows off flat buf k).bind fun r =>
      let r0 := k * rows
      let count := min rows (g.outer - r0)
      (readInto io file (off + r0 * g.row) (count * g.row)).map fun piece =>
        let buf := r.buf.splice 0 piece
        let kept := narrowPieces buf count g.row g.inner spec.start spec.length
        ⟨r.data.splice (r0 * (spec.length * g.inner)) kept, buf,
          r.reads ++ [(off + r0 * g.row, count * g.row)]⟩

/-- **`_read_slice`** -/
def readSlice (chunk base : ℕ) (info : Info) (spec : Spec) (flat : Bytes) (buf : Option Bytes) :
    Option ReadResult :=
  (sliceGeometry info spec).bind fun g =>
    let partShape := info.shape.set spec.dim spec.length
    let n := g.outer * (spec.length * g.inner)
    let a := info.dataOffsets.1
    if n = 0 then (asTensor [] info.dtype partShape).map fun t => ⟨t, buf, []⟩
    else if flat.length ≠ n then none
    else if g.outer = 1 then
      (readChunks io file chunk (base + a + spec.start * g.inner) n flat (turns n chunk)).bind
        fun r => (asTensor r.data info.dtype partShape).map fun t => ⟨t, buf, r.reads⟩
    else if g.d < spec.start + spec.length then none
    else
      let rows := max 1 (chunk / g.row)
      let own := bounce chunk buf (min g.outer rows * g.row)
      (readRows io file g spec rows (base + a) flat own (turns g.outer rows)).bind fun r =>
        (asTensor r.data info.dtype partShape).map fun t => ⟨t, some r.buf, r.reads⟩

/-- The read of a planned tensor. -/
def Entry.read (e : Entry) (chunk base : ℕ) (flat : Bytes) (buf : Option Bytes) : Option ReadResult :=
  match e.spec with
  | none => readTensor io file chunk base e.info flat buf
  | some spec => readSlice io file chunk base e.info spec flat buf

/-! ## The stand-in -/

/-- `TpSliceTensor`: a tensor of the full shape of which one slice is resident. -/
structure TpSliceTensor where
  part : Tensor
  fullShape : List ℕ
  dim : ℕ
  start : ℕ

/-- The slice of `full` that a `TpSliceTensor` stands for. -/
def TpSliceTensor.StandsFor (s : TpSliceTensor) (full : Tensor) : Prop :=
  s.fullShape = full.shape ∧ ∃ length, full.narrowNat s.dim s.start length = some s.part

/-- `TpSliceTensor.narrow` -/
def TpSliceTensor.narrow (s : TpSliceTensor) (dim start length : ℤ) : Option Tensor :=
  let dim := if dim < 0 then dim + s.fullShape.length else dim
  (s.part.shape[s.dim]?).bind fun resident =>
    let lo : ℤ := s.start
    let hi := lo + resident
    if dim ≠ s.dim ∨ start < lo ∨ hi < start + length ∨ length < 0 then none
    else if start = lo ∧ length = resident then some s.part
    else s.part.narrow dim (start - lo) length

end FastLoad

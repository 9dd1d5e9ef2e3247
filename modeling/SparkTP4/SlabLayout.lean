import Mathlib.Data.Char
import Mathlib.Data.List.Lex
import Mathlib.Data.List.Sort
import Mathlib.Data.Nat.Size
import Mathlib.Data.Rat.Floor
import SparkTP4.FastLoad
import SparkTP4.SharedBuffer

/-!
# The slabs of the fast loader

The eager tensors of a shard are packed into a few large host buffers, the slabs:
in the order of their names, each at a page boundary, a tensor that is larger than a
slab in a slab of its own (`slabLayout`). Each tensor is then read straight into its
region of a slab, by one of many reader threads.

The reads are those of the fast loader; here they are given as the writes they make
into the buffer they fill (`Entry.writes`), so that the writes of different readers
can be interleaved.
-/

namespace FastLoad

open SharedBuffer RowMajor

/-! ## The size of a slab -/

/-- What `float` makes of the text of `DSV41_FAST_LOAD_SLAB_MB`. -/
inductive SlabMb
  | finite (mb : ℚ)
  | posInf
  | negInf
  | nan

/-- `slab_bytes`; the argument is `none` when the text is no number. The number of bytes is
rounded down to a power of two. `int` raises on a number that is not finite. -/
def slabBytes (mb : Option SlabMb) : Option ℕ :=
  match mb.getD (.finite 256) with
  | .finite mb =>
    if mb ≤ 0 then some 0
    else
      let n := max (1 <<< 20) (mb * 2 ^ 20).floor.toNat
      some (1 <<< (n.size - 1))
  | .negInf => some 0
  | .posInf | .nan => none

/-- `_SLAB_ALIGN` -/
def slabAlign : ℕ := 4096

/-- `_align` -/
def align (n : ℕ) : ℕ := (n + slabAlign - 1) / slabAlign * slabAlign

/-! ## The layout -/

/-- A tensor in a slab: its name, its offset and the bytes kept of it. -/
structure Member where
  name : Name
  offset : ℕ
  kept : ℕ
  deriving DecidableEq

/-- The bytes of the slab that the tensor occupies. -/
def Member.region (m : Member) : Region := ⟨m.offset, m.kept⟩

/-- A slab: its size, and the tensors in it. -/
structure Slab where
  nbytes : ℕ
  members : List Member

/-- What the loop of `slab_layout` holds: the slabs that are full, the tensors of the current
one, and the offset after them. -/
structure Packing where
  out : List Slab
  cur : List Member
  used : ℕ

/-- One turn of the loop. -/
def Packing.place (slab : ℕ) (s : Packing) (sized : Name × ℕ) : Packing :=
  let (name, kept) := sized
  if kept = 0 then s
  else if slab < kept then { s with out := s.out ++ [⟨kept, [⟨name, 0, kept⟩]⟩] }
  else
    let s := if s.cur ≠ [] ∧ slab < s.used + kept then ⟨s.out ++ [⟨s.used, s.cur⟩], [], 0⟩ else s
    { s with cur := s.cur ++ [⟨name, s.used, kept⟩], used := align (s.used + kept) }

/-- The last slab, which need not be full. -/
def Packing.finish (slab : ℕ) (s : Packing) : List Slab :=
  if s.cur = [] then s.out else s.out ++ [⟨min s.used slab, s.cur⟩]

/-- The names of the plan in order, each with the bytes kept of its tensor. -/
def sizedNames (plan : List Entry) : Option (List (Name × ℕ)) :=
  (plan.mergeSort fun e e' => e.name ≤ e'.name).mapM fun e =>
    (specBytes e.info e.spec).map fun bytes => (e.name, bytes.2)

/-- `slab_layout` -/
def slabLayout (plan : List Entry) (slab : ℕ) : Option (List Slab) :=
  (sizedNames plan).map fun sized => (sized.foldl (Packing.place slab) ⟨[], [], 0⟩).finish slab

/-- The slabs of `_EagerShard.__init__`: none when the slab size is 0. -/
def eagerSlabs (mb : Option SlabMb) (plan : List Entry) : Option (List Slab) :=
  (slabBytes mb).bind fun slab => if slab = 0 then some [] else slabLayout plan slab

/-! ## The reads as writes -/

variable (io : Preadv) (file : Bytes)

/-- The writes of `_read_into` into the `n` bytes of a buffer at `start`: one for every
`preadv`. -/
def loopWrites : ℕ → ℕ → ℕ → ℕ → Option (List Write)
  | 0, _, _, n => if n = 0 then some [] else none
  | fuel + 1, start, off, n =>
    if n = 0 then some []
    else
      let got := file.pread off n (io off n)
      if got = [] then none
      else (loopWrites fuel (start + got.length) (off + got.length) (n - got.length)).map
        ((start, got) :: ·)

/-- The writes of a read in chunks, the first `k` turns. -/
def chunkWrites (chunk off n : ℕ) : ℕ → Option (List Write)
  | 0 => some []
  | k + 1 =>
    (chunkWrites chunk off n k).bind fun ws =>
      let c := k * chunk
      let want := min chunk (n - c)
      (loopWrites io file want c (off + c) want).map (ws ++ ·)

/-- The writes of the loop over the rows, the first `k` turns, and the bounce buffer after
them: whole rows go to the bounce buffer, and their slices are written. -/
def rowWrites (g : Geometry) (spec : Spec) (rows off : ℕ) (buf : Bytes) :
    ℕ → Option (List Write × Bytes)
  | 0 => some ([], buf)
  | k + 1 =>
    (rowWrites g spec rows off buf k).bind fun r =>
      let r0 := k * rows
      let count := min rows (g.outer - r0)
      (readInto io file (off + r0 * g.row) (count * g.row)).map fun piece =>
        let buf := r.2.splice 0 piece
        let kept := narrowPieces buf count g.row g.inner spec.start spec.length
        (r.1 ++ [(r0 * (spec.length * g.inner), kept)], buf)

/-- The writes of `_read_tensor`. -/
def tensorWrites (chunk base : ℕ) (info : Info) : Option (List Write) :=
  let n := info.dataOffsets.2 - info.dataOffsets.1
  if n = 0 then some []
  else chunkWrites io file chunk (base + info.dataOffsets.1) n (turns n chunk)

/-- The writes of `_read_slice`. -/
def sliceWrites (chunk base : ℕ) (info : Info) (spec : Spec) (buf : Option Bytes) :
    Option (List Write) :=
  (sliceGeometry info spec).bind fun g =>
    let n := g.outer * (spec.length * g.inner)
    let a := info.dataOffsets.1
    if n = 0 then some []
    else if g.outer = 1 then
      chunkWrites io file chunk (base + a + spec.start * g.inner) n (turns n chunk)
    else if g.d < spec.start + spec.length then none
    else
      let rows := max 1 (chunk / g.row)
      let own := bounce chunk buf (min g.outer rows * g.row)
      (rowWrites io file g spec rows (base + a) own (turns g.outer rows)).map Prod.fst

/-- The writes of the read of a planned tensor into the buffer it fills. -/
def Entry.writes (e : Entry) (chunk base : ℕ) (buf : Option Bytes) : Option (List Write) :=
  match e.spec with
  | none => tensorWrites io file chunk base e.info
  | some spec => sliceWrites io file chunk base e.info spec buf

/-! ## The readers -/

/-- A reader is the slab it writes to, by its place in the layout, and its tensor there. -/
abbrev Reader : Type := ℕ × Member

/-- The region of a slab that a reader is given: `flat.narrow(0, off, kept)`. -/
def slot (r : Reader) : Slot ℕ := ⟨r.1, r.2.region⟩

/-- The readers of a layout. -/
def Placed (slabs : List Slab) (r : Reader) : Prop :=
  ∃ slab, slabs[r.1]? = some slab ∧ r.2 ∈ slab.members

/-- The slabs as allocated. -/
def Allocated (slabs : List Slab) (mem : ℕ → Bytes) : Prop :=
  ∀ i slab, slabs[i]? = some slab → (mem i).length = slab.nbytes

end FastLoad

import Mathlib.Data.List.Basic
import Mathlib.Data.Nat.Notation
import Mathlib.Tactic.Ring

/-!
# Byte files

A file is the list of its bytes. The operations are those of positional
I/O: a *slice* is the bytes of an extent, a `pread` transfers a prefix of
the extent it is asked for, and fixed-width little-endian words sit inside
the bytes. The laws are the ones a reader of interleaved records needs: a
slice of a slice is a slice, adjacent slices concatenate, and in a
concatenation of equally long records the slice at a record boundary is the
record.
-/

/-- A string of bytes: a file's content or a buffer's. -/
abbrev Bytes : Type := List UInt8

namespace Bytes

/-- The `len` bytes of `f` from offset `off` on (fewer where `f` ends). -/
def slice (f : Bytes) (off len : ℕ) : Bytes := (f.drop off).take len

/-- A slice is as long as asked unless the file ends before. -/
theorem length_slice (f : Bytes) (off len : ℕ) :
    (f.slice off len).length = min len (f.length - off) := by
  rw [slice, List.length_take, List.length_drop]

/-- A slice inside the file has the length asked for. -/
theorem length_slice_of_le {f : Bytes} {off len : ℕ} (h : off + len ≤ f.length) :
    (f.slice off len).length = len := by
  rw [length_slice]
  omega

/-- A prefix of a slice is a slice. -/
theorem take_slice (f : Bytes) (off : ℕ) {len n : ℕ} (h : n ≤ len) :
    (f.slice off len).take n = f.slice off n := by
  rw [slice, slice, List.take_take, min_eq_left h]

/-- A suffix of a slice is a slice. -/
theorem drop_slice (f : Bytes) (off len n : ℕ) :
    (f.slice off len).drop n = f.slice (off + n) (len - n) := by
  rw [slice, slice, List.drop_take, List.drop_drop]

/-- A slice of a slice is the slice at the sum of the offsets. -/
theorem slice_slice (f : Bytes) (off : ℕ) {len start n : ℕ} (h : start + n ≤ len) :
    (f.slice off len).slice start n = f.slice (off + start) n := by
  rw [slice, drop_slice]
  exact take_slice f _ (by omega)

/-- Adjacent slices concatenate. -/
theorem slice_append_slice (f : Bytes) (off m n : ℕ) :
    f.slice off m ++ f.slice (off + m) n = f.slice off (m + n) := by
  rw [slice, slice, slice, ← List.drop_drop, ← List.take_add]

/-- An empty extent has no bytes. -/
@[simp] theorem slice_zero (f : Bytes) (off : ℕ) : f.slice off 0 = [] :=
  List.take_zero

/-- The slice of the whole string is the string. -/
theorem slice_full (f : Bytes) : f.slice 0 f.length = f :=
  List.take_length

/-- A slice within the first part of a concatenation. -/
theorem slice_append_left {f g : Bytes} {off len : ℕ} (h : off + len ≤ f.length) :
    slice (f ++ g) off len = f.slice off len := by
  rw [slice, slice, List.drop_append_of_le_length (by omega),
    List.take_append_of_le_length (by rw [List.length_drop]; omega)]

/-- A slice beyond the first part of a concatenation. -/
theorem slice_append_right (f g : Bytes) (off len : ℕ) :
    slice (f ++ g) (f.length + off) len = g.slice off len := by
  rw [slice, slice, List.drop_append, List.drop_eq_nil_of_le (by omega), List.nil_append,
    Nat.add_sub_cancel_left]

/-! ## Records of one length -/

section Records

variable {size : ℕ} {rec : ℕ → Bytes}

/-- A concatenation of equally long records is as long as their number says. -/
theorem length_records {n : ℕ} (hrec : ∀ i < n, (rec i).length = size) :
    ((List.range n).flatMap rec).length = n * size := by
  induction n with
  | zero => simp
  | succ n ih =>
    rw [List.range_succ, List.flatMap_append, List.length_append, List.flatMap_singleton,
      ih (fun i hi => hrec i (Nat.lt_succ_of_lt hi)), hrec n (Nat.lt_succ_self n), Nat.succ_mul]

/-- **A record is the slice at its boundary**: in the concatenation of `n`
equally long records, record `i` sits at `i * size`. -/
theorem slice_records {n i : ℕ} (hrec : ∀ i < n, (rec i).length = size) (hi : i < n) :
    slice ((List.range n).flatMap rec) (i * size) size = rec i := by
  induction n with
  | zero => omega
  | succ n ih =>
    have hrec' : ∀ i < n, (rec i).length = size := fun i hi => hrec i (Nat.lt_succ_of_lt hi)
    have hlen := length_records hrec'
    rw [List.range_succ, List.flatMap_append]
    rcases Nat.lt_succ_iff_lt_or_eq.mp hi with hin | rfl
    · have hle : (i + 1) * size ≤ n * size := Nat.mul_le_mul_right _ hin
      rw [slice_append_left (by rw [hlen, ← Nat.succ_mul]; exact hle), ih hrec' hin]
    · have hright := slice_append_right ((List.range i).flatMap rec) (rec i) 0 size
      rw [hlen, Nat.add_zero] at hright
      rw [List.flatMap_singleton, hright, ← hrec i hi, slice_full]

/-- The records of an extent that starts at record `lo`, cut into a first
part and the rest. -/
theorem records_append (rec : ℕ → Bytes) (m n : ℕ) :
    (List.range (m + n)).flatMap rec
      = (List.range m).flatMap rec ++ (List.range n).flatMap (fun i => rec (m + i)) := by
  rw [List.range_add, List.flatMap_append, List.flatMap_map]

end Records

/-! ## Positional reads -/

/-- `pread(fd, buf, want, off)` when `got` bytes are ready: it transfers a
prefix of the extent, never more than asked. -/
def pread (f : Bytes) (off want got : ℕ) : Bytes := f.slice off (min got want)

/-- What a `pread` transfers is the slice of the length it transfers. -/
theorem pread_eq_slice (f : Bytes) (off want got : ℕ) :
    f.pread off want got = f.slice off (f.pread off want got).length := by
  have hle : (f.pread off want got).length ≤ min got want := by
    rw [pread, length_slice]
    exact Nat.min_le_left _ _
  rw [← take_slice f off hle, ← pread, List.take_length]

/-- What a `pread` transfers lies in the file. -/
theorem length_pread_le (f : Bytes) (off want got : ℕ) :
    (f.pread off want got).length ≤ f.length - off := by
  rw [pread, length_slice]
  exact Nat.min_le_right _ _

/-- A `pread` of an extent of the file that is not short transfers it all. -/
theorem length_pread_full {f : Bytes} {off want got : ℕ} (hgot : want ≤ got)
    (hfit : off + want ≤ f.length) : (f.pread off want got).length = want := by
  rw [pread, min_eq_right hgot, length_slice_of_le hfit]

/-- A `pread` that transfers the first `start + n` bytes holds the extent at
`start` in them. -/
theorem slice_pread {f : Bytes} {off want got start n : ℕ}
    (h : start + n ≤ (f.pread off want got).length) :
    (f.pread off want got).slice start n = f.slice (off + start) n := by
  rw [pread_eq_slice]
  exact slice_slice f off h

/-! ## Overwriting -/

/-- `memcpy(out + at, piece, |piece|)` into a buffer. -/
def splice (out : Bytes) (off : ℕ) (piece : Bytes) : Bytes :=
  out.take off ++ piece ++ out.drop (off + piece.length)

/-- A copy inside the buffer keeps its length. -/
theorem length_splice {out piece : Bytes} {off : ℕ} (h : off + piece.length ≤ out.length) :
    (out.splice off piece).length = out.length := by
  simp only [splice, List.length_append, List.length_take, List.length_drop]
  omega

/-- After a copy the buffer holds what it held before the piece, then the
piece. -/
theorem take_splice {out piece : Bytes} {off : ℕ} (h : off + piece.length ≤ out.length) :
    (out.splice off piece).take (off + piece.length) = out.take off ++ piece := by
  have hlen : (out.take off ++ piece).length = off + piece.length := by
    rw [List.length_append, List.length_take]
    omega
  rw [splice, ← hlen, List.take_left]

/-! ## Little-endian words -/

/-- The `k` little-endian bytes of `n`. -/
def leBytes : ℕ → ℕ → Bytes
  | 0, _ => []
  | k + 1, n => UInt8.ofNat n :: leBytes k (n / 256)

/-- The number with the given little-endian bytes. -/
def leWord : Bytes → ℕ
  | [] => 0
  | b :: bs => b.toNat + 256 * leWord bs

@[simp] theorem length_leBytes (k n : ℕ) : (leBytes k n).length = k := by
  induction k generalizing n with
  | zero => rfl
  | succ k ih => rw [leBytes, List.length_cons, ih]

/-- A number that fits in `k` bytes is read back from them. -/
theorem leWord_leBytes {k n : ℕ} (h : n < 256 ^ k) : leWord (leBytes k n) = n := by
  induction k generalizing n with
  | zero =>
    rw [pow_zero, Nat.lt_one_iff] at h
    rw [h, leBytes, leWord]
  | succ k ih =>
    have hdiv : n / 256 < 256 ^ k := by
      rw [Nat.div_lt_iff_lt_mul (by norm_num), ← pow_succ]
      exact h
    rw [leBytes, leWord, ih hdiv, UInt8.toNat_ofNat']
    omega

/-- The word at offset `off` of a header, as `memcpy` into a `uint64_t`
reads it. -/
def le64 (f : Bytes) (off : ℕ) : ℕ := leWord (f.slice off 8)

/-- A packed list of 64-bit words, as `struct.pack('<nQ', …)` lays it out. -/
def packWords (ws : List ℕ) : Bytes := ws.flatMap (leBytes 8)

/-- Each packed word is read back at its place. -/
theorem le64_packWords {ws : List ℕ} {i w : ℕ} (tail : Bytes) (hi : ws[i]? = some w)
    (hw : w < 256 ^ 8) : le64 (packWords ws ++ tail) (i * 8) = w := by
  induction ws generalizing i with
  | nil => simp at hi
  | cons v ws ih =>
    rw [packWords, List.flatMap_cons, List.append_assoc, le64]
    cases i with
    | zero =>
      obtain rfl : v = w := by simpa using hi
      rw [Nat.zero_mul, slice_append_left (by simp)]
      have := slice_full (leBytes 8 v)
      rw [length_leBytes] at this
      rw [this, leWord_leBytes hw]
    | succ i =>
      have hoff : (i + 1) * 8 = (leBytes 8 v).length + i * 8 := by
        rw [length_leBytes]; ring
      rw [hoff, slice_append_right]
      exact ih (by simpa using hi)

/-- The length of a packed list of words. -/
theorem length_packWords (ws : List ℕ) : (packWords ws).length = 8 * ws.length := by
  induction ws with
  | nil => rfl
  | cons v ws ih =>
    rw [packWords, List.flatMap_cons, List.length_append, length_leBytes, ← packWords, ih,
      List.length_cons]
    ring

end Bytes

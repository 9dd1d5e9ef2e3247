import Mathlib.Data.Nat.Bitwise
import SparkTP4.BinaryFormat

/-!
# From FP4 records to V4 rows

A compressed KV record holds 512 e2m1 codes and an e4m3 scale for every 16 of them. A
V4 row holds the first 448 values as e4m3 bytes with a power-of-two scale for every 64
of them, and the last 64 as bf16. The reference (`v4Rows`) uses the conversions of the
framework; the kernel (`v41cRows`) decodes and rounds in integer arithmetic on the bits
of the fp32 values.

An fp32 number is its sign and the code of its magnitude. Every floating-point
operation is the exact one followed by rounding to fp32, as IEEE 754 has it; a
conversion of the framework is rounding to the nearest code, the even one of two. No
value here is infinite or NaN, so neither is modelled.
-/

namespace V4Transcode

open BinaryFormat

/-! ## fp32 -/

/-- An fp32 number: its sign, and the 31 bits of its magnitude. -/
structure F32 where
  sign : Bool
  mag : ℕ
  deriving DecidableEq

namespace F32

/-- The bits, as a bit cast gives them. -/
def bits (a : F32) : ℕ := (a.sign.toNat <<< 31) ||| a.mag

/-- The number of the bits. -/
def ofBits (b : ℕ) : F32 := ⟨(b >>> 31) &&& 1 = 1, b &&& 0x7FFFFFFF⟩

/-- The magnitude. -/
def magnitude (a : F32) : ℚ := binary32.value a.mag

def value (a : F32) : ℚ := if a.sign then -a.magnitude else a.magnitude

/-- A constant of the source. -/
def const (q : ℚ) : F32 := ⟨q < 0, binary32.round |q|⟩

def neg (a : F32) : F32 := ⟨!a.sign, a.mag⟩

def abs (a : F32) : F32 := ⟨false, a.mag⟩

def mul (a b : F32) : F32 := ⟨a.sign ^^ b.sign, binary32.round (a.magnitude * b.magnitude)⟩

def div (a b : F32) : F32 := ⟨a.sign ^^ b.sign, binary32.round (a.magnitude / b.magnitude)⟩

def max (a b : F32) : F32 := if a.value < b.value then b else a

def min (a b : F32) : F32 := if b.value < a.value then b else a

/-- The largest of the values, which are not negative. -/
def amax (xs : List F32) : F32 := xs.foldl max ⟨false, 0⟩

/-- The fp32 number of an e4m3 byte. -/
def ofE4m3 (b : ℕ) : F32 := ⟨128 ≤ b, binary32.round (e4m3.value (b % 128))⟩

/-- `.to(torch.float8_e4m3fn)`, as a byte. -/
def toE4m3 (a : F32) : ℕ := a.sign.toNat * 128 + e4m3.round a.magnitude

/-- `.to(torch.bfloat16)`, as a 16-bit word. -/
def toBf16 (a : F32) : ℕ := a.sign.toNat * 32768 + bfloat16.round a.magnitude

end F32

/-! ## Records -/

/-- A token of an FP4 cache: pages of `pbs` records, their data before their scales. A scale
is an e4m3 byte, here none that is NaN. -/
structure Token where
  src : ℕ → ℕ
  stride : ℕ
  pbs : ℕ
  tok : ℕ
  byte_lt : ∀ a, src a < 256
  not_nan : ∀ i < 32,
    src (tok / pbs * stride + (pbs * 256 + tok % pbs * 32) + i) % 128 ≠ 127

/-- The bytes of a record: 256 with two codes each, and 32 scales. -/
structure Record where
  data : ℕ → ℕ
  scales : ℕ → ℕ

/-- `gather_records` -/
def gatherRecords (t : Token) : Record :=
  let page := t.tok / t.pbs * t.stride
  let loc := t.tok % t.pbs
  { data := fun i => t.src (page + loc * 256 + i)
    scales := fun i => t.src (page + (t.pbs * 256 + loc * 32) + i) }

/-! ## The reference -/

/-- The e2m1 magnitudes. -/
def e2m1Table : List ℚ := [0, 1 / 2, 1, 3 / 2, 2, 3, 4, 6]

/-- Code `k` of a record: the low nibble of a byte first. -/
def codeAt (r : Record) (k : ℕ) : ℕ :=
  if k % 2 = 0 then r.data (k / 2) &&& 15 else r.data (k / 2) >>> 4

/-- `decode_records`: value `k`. -/
def decodeRecords (r : Record) (k : ℕ) : F32 :=
  let code := codeAt r k
  let val := F32.const (e2m1Table.getD (code &&& 7) 0)
  let val := if code &&& 8 ≠ 0 then val.neg else val
  val.mul (F32.ofE4m3 (r.scales (k / 16)))

section Rows

variable (v : ℕ → F32)

/-- The largest magnitude of group `t` of 64 values. -/
def groupAmax (t : ℕ) : F32 := F32.amax ((List.range 64).map fun j => (v (t * 64 + j)).abs)

/-- The exponent byte that is stored for a group: of the power of two that is not below
`max(amax, 1e-4) / 448`. -/
def groupExponent (t : ℕ) : ℕ :=
  let s := ((groupAmax v t).max (.const (1 / 10000))).div (.const 448)
  ((s.bits >>> 23) &&& 0xFF) + if s.bits &&& 0x7FFFFF ≠ 0 then 1 else 0

/-- The inverse of that power of two. -/
def groupInverse (t : ℕ) : F32 := .ofBits ((254 - groupExponent v t) <<< 23)

/-- Value `k` of a group, scaled. -/
def scaled (k : ℕ) : F32 := (v k).mul (groupInverse v (k / 64))

end Rows

/-- `clamp(-448, 448)` -/
def clamp (a : F32) : F32 := (a.max (.const (-448))).min (.const 448)

/-- Byte `i` of a 16-bit word. -/
def wordByte (w i : ℕ) : ℕ := (w >>> (8 * i)) % 256

/-- `v4_rows`: the 576 bytes of a row and its 8 scale bytes. -/
def v4Rows (v : ℕ → F32) : List ℕ × List ℕ :=
  ((List.range 448).map (fun k => (clamp (scaled v k)).toE4m3) ++
      (List.range 128).map fun i => wordByte (v (448 + i / 2)).toBf16 (i % 2),
    (List.range 7).map (fun t => groupExponent v t % 256) ++ [0])

/-- `write_v4_rows`: the bytes written for a slot, each with its address. -/
def writeV4Rows (slot : ℕ) (data scales : List ℕ) : List (ℕ × ℕ) :=
  let base := slot / 64 * 37440
  let loc := slot % 64
  data.mapIdx (fun i b => (base + loc * 576 + i, b)) ++
    scales.mapIdx fun i b => (base + 64 * 576 + loc * 8 + i, b)

/-- `transcode_tokens_torch`, for one token. -/
def transcodeTokens (t : Token) (slot : ℕ) : List (ℕ × ℕ) :=
  let rows := v4Rows (decodeRecords (gatherRecords t))
  writeV4Rows slot rows.1 rows.2

/-! ## The kernel -/

/-- `_v41c_e4m3_value` -/
def v41cE4m3Value (sb : ℕ) : F32 :=
  let e := (sb >>> 3) &&& 15
  let m := sb &&& 7
  let nv := F32.ofBits (((e + 120) <<< 23) ||| (m <<< 20))
  let sv := (F32.const m).mul (.const (1 / 512))
  let v := if e = 0 then sv else nv
  if sb &&& 128 ≠ 0 then v.neg else v

/-- `_v41c_e4m3_rn`. The shift of a signed word keeps its sign; the bits read from it are those
of the word without sign. -/
def v41cE4m3Rn (a : F32) : ℕ :=
  let b := a.bits
  let sign := (b >>> 31) &&& 1
  let x := b &&& 0x7FFFFFFF
  let ex : ℤ := (x >>> 23 : ℕ) - 127
  let mant := (x &&& 0x7FFFFF) ||| 0x800000
  let normal := -6 ≤ ex
  let sh := if normal then 20 else (Min.min (14 - ex) 30).toNat
  let q0 := mant >>> sh
  let rem := mant &&& ((1 <<< sh) - 1)
  let half := 1 <<< (sh - 1)
  let up := half < rem ∨ rem = half ∧ q0 &&& 1 = 1
  let code := q0 + (if up then 1 else 0) + if normal then (ex + 6).toNat <<< 3 else 0
  let code := if x = 0 then 0 else code
  (sign <<< 7) ||| code

/-- The magnitude of an e2m1 code. -/
def v41cMag (mm : ℕ) : F32 :=
  if mm < 4 then (F32.const mm).mul (.const (1 / 2))
  else if mm = 4 then .const 2
  else if mm = 5 then .const 3
  else if mm = 6 then .const 4 else .const 6

/-- Value `k` of a record. -/
def v41cValue (r : Record) (k : ℕ) : F32 :=
  let code := codeAt r k
  let mag := v41cMag (code &&& 7)
  let val := if code &&& 8 ≠ 0 then mag.neg else mag
  val.mul (v41cE4m3Value (r.scales (k / 16)))

/-- The bf16 word of a rope value, rounded on its bits. -/
def v41cBf16 (a : F32) : ℕ :=
  let ub := a.bits
  (ub + 0x7FFF + ((ub >>> 16) &&& 1)) >>> 16

/-- The record a lane loads, zero where it is not live. -/
def v41cLoad (t : Token) (live : Bool) : Record :=
  let t64 := if live then t.tok else 0
  let page := t64 / t.pbs * t.stride
  let loc := t64 % t.pbs
  { data := fun i => if live then t.src (page + loc * 256 + i) else 0
    scales := fun i => if live then t.src (page + t.pbs * 256 + loc * 32 + i) else 0 }

/-- `_v41c_rows`, for one record: the bytes it stores, each with its address. -/
def v41cRows (t : Token) (live : Bool) (slot : ℕ) : List (ℕ × ℕ) :=
  let v := v41cValue (v41cLoad t live)
  let row := slot / 64 * 37440 + slot % 64 * 576
  let scRow := slot / 64 * 37440 + 64 * 576 + slot % 64 * 8
  if !live then []
  else
    (List.range 448).map
        (fun k => (row + k / 64 * 64 + k % 64, v41cE4m3Rn (clamp (scaled v k)) % 256)) ++
      (List.range' 448 64).map (fun k => (row + 448 + (k - 448) * 2, v41cBf16 (v k) &&& 255)) ++
      (List.range' 448 64).map
        (fun k => (row + 448 + (k - 448) * 2 + 1, (v41cBf16 (v k) >>> 8) &&& 255)) ++
      (List.range 8).map fun g => (scRow + g, (if g < 7 then groupExponent v g else 0) % 256)

end V4Transcode

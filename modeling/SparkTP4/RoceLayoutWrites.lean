import SparkTP4.RoceLayoutExact

/-!
# Stripes and areas

What is posted for a message is one payload and one flag for each HCA
(`postStripe_eq`), and the payloads, one after the other, are the bytes of the
message (`postStriped_payload`, `postStriped_landing`). The area of a source and
of a slot or a phase is within its buffer (`area_within`), and two of them have no
byte in common (`area_apart`).
-/

namespace RoceLayout

open Striping TwoshotReduce GridLoop

/-! ## The bytes of a write -/

/-- The bytes of the own region that the payload is read from. -/
def Write.payload (w : Write) : List ℕ :=
  match w.source with
  | some send => List.range' send w.target.len
  | none => []

/-- The bytes of the region of the peer that the payload is written to. -/
def Write.landing (w : Write) : List ℕ :=
  match w.source with
  | some _ => List.range' w.target.off w.target.len
  | none => []

/-! ## The stripes -/

/-- The addresses of a message are 64-bit addresses, and its length is a 32-bit one. -/
structure Fits (nHca send remoteOff packs flagOff : ℕ) : Prop where
  packs_lt : packs < 2 ^ 28
  send_lt : send + packs * 16 < 2 ^ 64
  remote_lt : remoteOff + packs * 16 < 2 ^ 64
  flag_lt : flagOff + nHca * FLAG_STRIDE < 2 ^ 64

section Striped

variable {nHca send remoteOff packs flagOff : ℕ}

theorem stripeOffset_eq (hpacks : packs < 2 ^ 28) : ∀ {h}, h ≤ nHca →
    stripeOffset packs nHca h = packOffset packs nHca h
  | 0, _ => rfl
  | h + 1, hh => by
    have hle := packOffset_le (n := packs) hh
    rw [stripeOffset, stripeOffset_eq hpacks (Nat.le_of_succ_le hh)]
    exact u32_of_lt (Nat.lt_of_le_of_lt hle (Nat.lt_of_lt_of_le hpacks (by decide)))

/-- The payload of a stripe, with integers of any size. -/
def dataWrite (nHca send remoteOff packs h : ℕ) : Write :=
  ⟨h, some (send + packOffset packs nHca h * 16),
    ⟨remoteOff + packOffset packs nHca h * 16, stripePacks packs nHca h * 16⟩⟩

/-- The flag of a stripe, with integers of any size. -/
def flagWrite (flagOff h : ℕ) : Write := ⟨h, none, ⟨flagOff + h * FLAG_STRIDE, 4⟩⟩

/-- **What is posted for a stripe.** -/
theorem postStripe_eq (hfits : Fits nHca send remoteOff packs flagOff) {h : ℕ} (hh : h < nHca) :
    postStripe nHca send remoteOff packs flagOff h =
      if stripePacks packs nHca h = 0 then [flagWrite flagOff h]
      else [dataWrite nHca send remoteOff packs h, flagWrite flagOff h] := by
  have hpacks := hfits.packs_lt
  have hsend := hfits.send_lt
  have hremote := hfits.remote_lt
  have hflag := hfits.flag_lt
  have hstart := packOffset_le (n := packs) (Nat.le_of_lt hh)
  have hstop : packOffset packs nHca h + stripePacks packs nHca h ≤ packs := packOffset_le hh
  have hstride : h * FLAG_STRIDE ≤ nHca * FLAG_STRIDE := Nat.mul_le_mul_right _ (Nat.le_of_lt hh)
  unfold postStripe
  rw [stripeOffset_eq hpacks (Nat.le_of_lt hh), u32_of_lt (by omega), u64_of_lt (n := _ * 16) (by omega),
    u64_of_lt (n := h * FLAG_STRIDE) (by omega)]
  dsimp only
  rw [u64_of_lt (n := flagOff + _) (by omega), u64_of_lt (n := send + _) (by omega),
    u64_of_lt (n := remoteOff + _) (by omega)]
  by_cases hzero : stripePacks packs nHca h = 0
  · rw [if_pos hzero, if_neg (by omega)]
    rfl
  · rw [if_neg hzero, if_pos (by omega)]
    rfl

/-- A posted write is the payload of a stripe or its flag. -/
theorem mem_postStriped (hfits : Fits nHca send remoteOff packs flagOff) {w : Write}
    (hw : w ∈ postStriped nHca send remoteOff packs flagOff) :
    ∃ h < nHca, w = dataWrite nHca send remoteOff packs h ∨ w = flagWrite flagOff h := by
  obtain ⟨h, hh, hmem⟩ := List.mem_flatMap.mp hw
  have hlt := List.mem_range.mp hh
  rw [postStripe_eq hfits hlt] at hmem
  refine ⟨h, hlt, ?_⟩
  split_ifs at hmem
  · exact Or.inr (List.mem_singleton.mp hmem)
  · simpa using hmem

/-- The bytes of the stripes, one after the other, are the bytes of the message. -/
theorem stripes_bytes (hH : 0 < nHca) (base packs : ℕ) :
    (List.range nHca).flatMap (fun h =>
        List.range' (base + packOffset packs nHca h * 16) (stripePacks packs nHca h * 16))
      = List.range' base (packs * 16) := by
  have hmono : ∀ h, base + packOffset packs nHca h * 16 ≤ base + packOffset packs nHca (h + 1) * 16 :=
    fun h => Nat.add_le_add_left (Nat.mul_le_mul_right 16 (Nat.le_add_right _ _)) base
  have htile := flatMap_range'_eq (fun h => base + packOffset packs nHca h * 16) hmono nHca
  have hlast : packOffset packs nHca nHca = packs := packOffset_last hH
  have hfirst : packOffset packs nHca 0 = 0 := rfl
  simp only [hlast, hfirst, Nat.zero_mul, Nat.add_zero, Nat.add_sub_cancel_left] at htile
  rw [← htile]
  refine List.flatMap_congr (fun h _ => ?_)
  have hstep : packOffset packs nHca (h + 1) = packOffset packs nHca h + stripePacks packs nHca h :=
    rfl
  rw [hstep, Nat.add_mul, ← Nat.add_assoc, Nat.add_sub_cancel_left]

/-- A function of the payloads that gives nothing for a flag nor for an empty payload. -/
theorem flatMap_postStriped (hfits : Fits nHca send remoteOff packs flagOff)
    (f : Write → List ℕ) (hflag : ∀ h, f (flagWrite flagOff h) = [])
    (hzero : ∀ h, stripePacks packs nHca h = 0 → f (dataWrite nHca send remoteOff packs h) = []) :
    (postStriped nHca send remoteOff packs flagOff).flatMap f
      = (List.range nHca).flatMap (fun h => f (dataWrite nHca send remoteOff packs h)) := by
  unfold postStriped
  rw [List.flatMap_assoc]
  refine List.flatMap_congr (fun h hh => ?_)
  rw [postStripe_eq hfits (List.mem_range.mp hh)]
  split_ifs with hempty
  · rw [List.flatMap_singleton, hflag, hzero h hempty]
  · rw [List.flatMap_cons, List.flatMap_singleton, hflag, List.append_nil]

/-- **The payloads are the message.** -/
theorem postStriped_payload (hfits : Fits nHca send remoteOff packs flagOff) (hH : 0 < nHca) :
    (postStriped nHca send remoteOff packs flagOff).flatMap Write.payload
      = List.range' send (packs * 16) := by
  rw [flatMap_postStriped hfits Write.payload (fun _ => rfl), ← stripes_bytes hH]
  · rfl
  · intro h hempty
    show List.range' _ (stripePacks packs nHca h * 16) = []
    rw [hempty]
    rfl

/-- **They land one after the other.** -/
theorem postStriped_landing (hfits : Fits nHca send remoteOff packs flagOff) (hH : 0 < nHca) :
    (postStriped nHca send remoteOff packs flagOff).flatMap Write.landing
      = List.range' remoteOff (packs * 16) := by
  rw [flatMap_postStriped hfits Write.landing (fun _ => rfl), ← stripes_bytes hH]
  · rfl
  · intro h hempty
    show List.range' _ (stripePacks packs nHca h * 16) = []
    rw [hempty]
    rfl

end Striped

/-! ## The areas -/

/-- The buffers that peers write to. -/
inductive Buffer
  | slotPayload
  | slotFlag
  | pipePayload
  | pipeFlag
deriving DecidableEq, Repr

namespace Proxy

variable (c : Proxy)

/-- A proxy of a laid out region. -/
structure LaidOut : Prop where
  layout_eq : roceLayout c.world c.slotBytes c.pipeBytes = some c.layout
  rank_lt : c.rank < c.world
  nHca_pos : 0 < c.nHca
  nHca_le : c.nHca ≤ 2

/-- The area of a source, and of a slot or a phase `i`, in a buffer. -/
def area : Buffer → ℕ → ℕ → Region
  | .slotPayload, source, i => Region.cell c.layout.recvOff c.slotBytes (source * 2 + i)
  | .slotFlag, source, i => Region.cell c.layout.flagOff (c.nHca * FLAG_STRIDE) (source * 2 + i)
  | .pipePayload, source, i => Region.cell c.layout.pipeRecvOff c.layout.shardCap (source * 2 + i)
  | .pipeFlag, source, i =>
    Region.cell c.layout.pipeFlagOff (MAX_CHUNKS * c.nHca * FLAG_STRIDE) (i * c.world + source)

/-- The part of the region that a buffer is. -/
def part : Buffer → Region
  | .slotPayload => ⟨c.layout.recvOff, c.world * SLOTS * c.slotBytes⟩
  | .slotFlag => ⟨c.layout.flagOff, c.world * SLOTS * MAX_HCAS * FLAG_STRIDE⟩
  | .pipePayload => ⟨c.layout.pipeRecvOff, c.world * 2 * c.layout.shardCap⟩
  | .pipeFlag => ⟨c.layout.pipeFlagOff, pipeFlagBytes c.world c.pipeBytes⟩

variable {c}

theorem LaidOut.admitted (h : c.LaidOut) : Admitted c.world c.slotBytes c.pipeBytes :=
  (roceLayout_eq_some.mp h.layout_eq).1

theorem LaidOut.exact (h : c.LaidOut) : c.layout = exactLayout c.world c.slotBytes c.pipeBytes :=
  (roceLayout_eq_some.mp h.layout_eq).2

/-- **An area is in its buffer.** -/
theorem area_within (h : c.LaidOut) {b : Buffer} {source i : ℕ} (hsource : source < c.world)
    (hi : i < 2) (hpipe : b = .pipeFlag → 0 < c.pipeBytes) :
    (c.area b source i).Within (c.part b) := by
  have hindex : source * 2 + i < c.world * 2 := Region.radix_lt hsource hi
  cases b with
  | slotPayload => exact Region.cell_within hindex
  | slotFlag =>
    refine (Region.cell_within hindex).trans ?_
    have hle : c.nHca * FLAG_STRIDE ≤ MAX_HCAS * FLAG_STRIDE := Nat.mul_le_mul_right _ h.nHca_le
    unfold part
    rw [Region.within_mk, Nat.mul_assoc (c.world * SLOTS)]
    exact ⟨Nat.le_refl _, Nat.add_le_add_left (Nat.mul_le_mul_left _ hle) _⟩
  | pipePayload => exact Region.cell_within hindex
  | pipeFlag =>
    have hindex : i * c.world + source < 2 * c.world := Region.radix_lt hi hsource
    refine (Region.cell_within hindex).trans ?_
    have hle : MAX_CHUNKS * c.nHca * FLAG_STRIDE ≤ MAX_CHUNKS * MAX_HCAS * FLAG_STRIDE :=
      Nat.mul_le_mul_right _ (Nat.mul_le_mul_left _ h.nHca_le)
    unfold part pipeFlagBytes
    rw [Region.within_mk, if_neg (Nat.ne_of_gt (hpipe rfl)), Nat.mul_assoc (2 * c.world),
      Nat.mul_assoc (2 * c.world)]
    exact ⟨Nat.le_refl _, Nat.add_le_add_left (Nat.mul_le_mul_left _ hle) _⟩

/-- **Two areas of a buffer have no byte in common.** -/
theorem area_apart {b : Buffer} {source i source' i' : ℕ} (hsource : source < c.world)
    (hsource' : source' < c.world) (hi : i < 2) (hi' : i' < 2)
    (hne : (source, i) ≠ (source', i')) : (c.area b source i).Apart (c.area b source' i') := by
  have hindex : source * 2 + i ≠ source' * 2 + i' := fun heq =>
    hne (Prod.ext (Region.radix_inj hi hi' heq).1 (Region.radix_inj hi hi' heq).2)
  cases b with
  | slotPayload => exact Region.cell_apart hindex
  | slotFlag => exact Region.cell_apart hindex
  | pipePayload => exact Region.cell_apart hindex
  | pipeFlag =>
    refine Region.cell_apart (fun heq => hne ?_)
    have hinj := Region.radix_inj hsource hsource' heq
    exact Prod.ext hinj.2 hinj.1

end Proxy

end RoceLayout

import Mathlib.Data.List.Basic
import Mathlib.Tactic.Ring

/-!
# Layers that read a sliding window

A stack of layers computes one value per row and per layer. To produce its
output, a row reads its own input, the window values of the last `w` rows –
itself included – and the latents of all rows up to itself. Both kinds of
side value of a row are functions of that row's input to the layer.

The question of this module is how far an error travels. If the window
values of all rows below `s` are replaced by arbitrary ones, the wrong
values reach `w - 1` rows further at every layer, and no row at
`s + (w - 1) * l` or beyond sees them at layer `l`: the **dependency cone**
of a row is as wide as the number of layers below it. That is
`WindowNet.replay_eq_full`.
-/

variable {X KV L : Type}

/-- **A stack of layers over rows.** The side values of a row are functions
of its own input to the layer; its output reads the window and the latents
it is given. -/
structure WindowNet (X KV L : Type) where
  /-- The window value of a row, from its input to the layer. -/
  windowKV : ℕ → ℕ → X → KV
  /-- The latent of a row, from its input to the layer. -/
  latent : ℕ → ℕ → X → L
  /-- The output of a row: layer, row, own input, window, latents. -/
  layer : ℕ → ℕ → X → List (Option KV) → List L → X

namespace WindowNet

/-- The window of row `r`: the values of rows `r, r - 1, …, r - (w - 1)`,
with nothing at the positions before row `0`. -/
def window (w : ℕ) (kv : ℕ → Option KV) (r : ℕ) : List (Option KV) :=
  (List.range w).map (fun i => if i ≤ r then kv (r - i) else none)

/-- The latents a row reads: those of every row up to itself. -/
def latentsUpTo (lat : ℕ → L) (r : ℕ) : List L :=
  (List.range (r + 1)).map lat

/-- A window only reads its last `w` rows. -/
theorem window_congr {w r : ℕ} {kv kv' : ℕ → Option KV}
    (h : ∀ j, r ≤ j + (w - 1) → j ≤ r → kv j = kv' j) :
    window w kv r = window w kv' r := by
  refine List.map_congr_left (fun i hi => ?_)
  have hiw : i < w := List.mem_range.mp hi
  by_cases hir : i ≤ r
  · rw [if_pos hir, if_pos hir]
    exact h (r - i) (by omega) (by omega)
  · rw [if_neg hir, if_neg hir]

/-- The latents a row reads are those of the rows up to it. -/
theorem latentsUpTo_congr {r : ℕ} {lat lat' : ℕ → L}
    (h : ∀ j, j ≤ r → lat j = lat' j) :
    latentsUpTo lat r = latentsUpTo lat' r :=
  List.map_congr_left (fun j hj => h j (Nat.lt_succ_iff.mp (List.mem_range.mp hj)))

/-- **One pass over the stack**: the input of every row to every layer, when
the window value and the latent a row leaves behind are read through `kv`
and `lat`. -/
def pass (net : WindowNet X KV L) (w : ℕ) (embed : ℕ → X)
    (kv : ℕ → ℕ → X → Option KV) (lat : ℕ → ℕ → X → L) : ℕ → ℕ → X
  | 0, r => embed r
  | l + 1, r =>
    net.layer l r (net.pass w embed kv lat l r)
      (window w (fun j => kv l j (net.pass w embed kv lat l j)) r)
      (latentsUpTo (fun j => lat l j (net.pass w embed kv lat l j)) r)

/-- **The full computation**: every side value is the row's own. -/
def full (net : WindowNet X KV L) (w : ℕ) (embed : ℕ → X) : ℕ → ℕ → X :=
  net.pass w embed (fun l j x => some (net.windowKV l j x)) net.latent

/-- **A replay from row `s`**: the window values below `s` are `wrong`, and
the latents below `F` are the resident ones of the full computation. Nothing
else of the full computation is read, and the values this assigns to rows
below `s` are read by no row from `s` on. -/
def replay (net : WindowNet X KV L) (w : ℕ) (embed : ℕ → X) (s F : ℕ)
    (wrong : ℕ → ℕ → Option KV) : ℕ → ℕ → X :=
  net.pass w embed
    (fun l j x => if j < s then wrong l j else some (net.windowKV l j x))
    (fun l j x => net.latent l j (if j < F then net.full w embed l j else x))

variable (net : WindowNet X KV L) {w : ℕ} {embed : ℕ → X} {s F : ℕ}
  {wrong : ℕ → ℕ → Option KV}

/-- The full computation, one layer further. -/
theorem full_succ (l r : ℕ) :
    net.full w embed (l + 1) r
      = net.layer l r (net.full w embed l r)
        (window w (fun j => some (net.windowKV l j (net.full w embed l j))) r)
        (latentsUpTo (fun j => net.latent l j (net.full w embed l j)) r) := rfl

/-- The replay, one layer further. -/
theorem replay_succ (l r : ℕ) :
    net.replay w embed s F wrong (l + 1) r
      = net.layer l r (net.replay w embed s F wrong l r)
        (window w (fun j => if j < s then wrong l j
          else some (net.windowKV l j (net.replay w embed s F wrong l j))) r)
        (latentsUpTo (fun j => net.latent l j
          (if j < F then net.full w embed l j
            else net.replay w embed s F wrong l j)) r) := rfl

/-- **The step of the cone.** If layer `l` is exact on the rows from `a` on,
and `a` is at most `F`, then the next layer is exact on every row whose
window starts at `a` or beyond, or reads no replaced value at all. -/
theorem replay_succ_eq_full {l a r : ℕ} (ha : a ≤ F) (har : a ≤ r)
    (ih : ∀ j, a ≤ j → net.replay w embed s F wrong l j = net.full w embed l j)
    (hwin : ∀ j, r ≤ j + (w - 1) → s ≤ j ∧ a ≤ j) :
    net.replay w embed s F wrong (l + 1) r = net.full w embed (l + 1) r := by
  have hkv : window w (fun j => if j < s then wrong l j
        else some (net.windowKV l j (net.replay w embed s F wrong l j))) r
      = window w (fun j => some (net.windowKV l j (net.full w embed l j))) r := by
    refine window_congr (fun j hj _ => ?_)
    obtain ⟨hsj, haj⟩ := hwin j hj
    rw [if_neg (Nat.not_lt.mpr hsj), ih j haj]
  have hlat : latentsUpTo (fun j => net.latent l j
        (if j < F then net.full w embed l j else net.replay w embed s F wrong l j)) r
      = latentsUpTo (fun j => net.latent l j (net.full w embed l j)) r := by
    refine latentsUpTo_congr (fun j _ => ?_)
    by_cases hj : j < F
    · rw [if_pos hj]
    · rw [if_neg hj, ih j (le_trans ha (Nat.not_lt.mp hj))]
  rw [replay_succ, full_succ, hkv, hlat, ih r har]

/-- **The dependency cone.** Whatever the window values below `s` are, layer
`l` of the replay is exact on every row at `s + (w - 1) * l` or beyond, as
long as the cone stays within the rows whose latents are resident. -/
theorem replay_eq_full (l : ℕ) (hF : s + (w - 1) * l ≤ F) {r : ℕ}
    (hr : s + (w - 1) * l ≤ r) :
    net.replay w embed s F wrong l r = net.full w embed l r := by
  induction l generalizing r with
  | zero => rfl
  | succ l ih =>
    have hstep : (w - 1) * (l + 1) = (w - 1) * l + (w - 1) := by ring
    rw [hstep] at hF hr
    exact net.replay_succ_eq_full (a := s + (w - 1) * l) (by omega) (by omega)
      (fun j hj => ih (by omega) hj) (fun j hj => by omega)

/-- A replay from row `0` replaces no window value, so it is the full
computation. -/
theorem replay_zero_eq_full (l r : ℕ) :
    net.replay w embed 0 F wrong l r = net.full w embed l r := by
  induction l generalizing r with
  | zero => rfl
  | succ l ih =>
    exact net.replay_succ_eq_full (Nat.zero_le F) (Nat.zero_le r)
      (fun j _ => ih j) (fun j _ => ⟨Nat.zero_le j, Nat.zero_le j⟩)

end WindowNet

import Mathlib.Tactic.Linarith
import SparkTP4.WindowCone

/-!
# The SWA cone replay

When the sliding window of a cached prefix was evicted although its full KV
is still resident up to `F`, `adapter/swa_cone.py` recomputes the rows from
`s = F - N` on, reading whatever the window slots below `s` happen to hold.
The length `N` is bounded below by `min_replay_tokens`, which takes the
maximum of two bounds and rounds it up to pages:

* the *cone* bound, `(window - 1) * early_layers`, so that every row at `F`
  or beyond leaves the early layers exactly as in a full recompute;
* the *guard* bound, so that the rows whose window KV the first cache insert
  keeps are exact at every early layer as well.

The rows themselves are those of `WindowNet`: the window KV of a row is a
function of its input to the layer, the resident latents are those of the
full computation. The integers are the source's: Python integers, with
floor division.
-/

variable {X KV L : Type}

namespace SwaCone

/-- `min_replay_tokens(window, early_layers, page)`: the smallest
page-aligned replay length for which the replay is exact. -/
def minReplayTokens (window earlyLayers page : ℤ) : ℤ :=
  let cone := (window - 1) * earlyLayers
  let guard := (window - 1) * (earlyLayers - 1) + max window page + page
  let need := max cone guard;
  -(Int.fdiv (-need) page) * page

/-- `plan_window(m, full_hit, tokens, min_save, page)`: the replay start, or
`none` when the stock match is kept. -/
def planWindow (m : ℤ) (fullHit : Option ℤ) (tokens minSave page : ℤ) : Option ℤ :=
  match fullHit with
  | none => none
  | some F =>
    if tokens ≤ 0 ∨ page ≤ 0 then none
    else if Int.fmod F page ≠ 0 ∨ Int.fmod tokens page ≠ 0 then none
    else
      let s := F - tokens
      if s ≤ m ∨ s - m < minSave then none else some s

/-- The page floor of the first insert: rows from here on keep their window
KV (`page_floor` in the length rule's guard). -/
def pageFloor (x page : ℤ) : ℤ := Int.fdiv x page * page

/-- Rounding up to pages loses nothing. -/
theorem le_roundUp {need page : ℤ} (hp : 0 < page) :
    need ≤ -(Int.fdiv (-need) page) * page := by
  have hdiv : Int.fdiv (-need) page * page ≤ -need := by
    rw [Int.fdiv_eq_ediv_of_nonneg _ hp.le]
    exact Int.ediv_mul_le (-need) hp.ne'
  linarith

/-- The page floor is less than a page below its argument. -/
theorem lt_pageFloor_add {x page : ℤ} (hp : 0 < page) : x < pageFloor x page + page := by
  rw [pageFloor, Int.fdiv_eq_ediv_of_nonneg _ hp.le]
  have := Int.lt_ediv_add_one_mul_self x hp
  linarith

/-- The length rule covers the cone. -/
theorem cone_le_minReplayTokens (window earlyLayers : ℤ) {page : ℤ} (hp : 0 < page) :
    (window - 1) * earlyLayers ≤ minReplayTokens window earlyLayers page :=
  le_trans (le_max_left _ _) (le_roundUp hp)

/-- The length rule covers the guard. -/
theorem guard_le_minReplayTokens (window earlyLayers : ℤ) {page : ℤ} (hp : 0 < page) :
    (window - 1) * (earlyLayers - 1) + max window page + page
      ≤ minReplayTokens window earlyLayers page :=
  le_trans (le_max_right _ _) (le_roundUp hp)

/-- A planned replay starts `tokens` rows before the resident length, past
the stock match. -/
theorem planWindow_eq_some {m tokens minSave page s : ℤ} {F : Option ℤ}
    (h : planWindow m F tokens minSave page = some s) :
    ∃ f, F = some f ∧ s = f - tokens ∧ m < s := by
  cases F with
  | none => exact absurd h (by simp [planWindow])
  | some f =>
    simp only [planWindow] at h
    split_ifs at h with h1 h2 h3
    obtain rfl := Option.some.inj h
    exact ⟨f, rfl, rfl, by omega⟩

/-! ## Exactness of the replay -/

/-- The window KV row `r` leaves at layer `l` when the rows are computed by
`rows`. -/
def windowKVOf (net : WindowNet X KV L) (rows : ℕ → ℕ → X) (l r : ℕ) : KV :=
  net.windowKV l r (rows l r)

/-- A layer below the last early one is exact from the kept rows on, when
the replay is long enough for the guard. -/
theorem kept_row_in_cone {w E l page F N : ℕ} (hw : 1 ≤ w) (hp : 1 ≤ page) (hl : l < E)
    (hN : minReplayTokens w E page ≤ N) {r : ℕ}
    (hr : pageFloor ((F : ℤ) - 1 - max (w : ℤ) page) page ≤ r) (hNF : N ≤ F) :
    (F - N) + (w - 1) * l ≤ r := by
  have hpage : (0 : ℤ) < page := by exact_mod_cast hp
  have hguard := guard_le_minReplayTokens (w : ℤ) (E : ℤ) hpage
  have hfloor := lt_pageFloor_add (x := (F : ℤ) - 1 - max (w : ℤ) page) hpage
  have hmono : ((w : ℤ) - 1) * l ≤ ((w : ℤ) - 1) * ((E : ℤ) - 1) :=
    mul_le_mul_of_nonneg_left (by omega) (by omega)
  zify [hw, hNF]
  linarith

/-- **The SWA cone replay is exact.** Let the rows from `s = F - N` on be
recomputed with arbitrary window KV below `s`, for a replay length `N` the
length rule admits. Then every row at `F` or beyond leaves the last early
layer exactly as in a full recompute; the window KV of a replayed row is
exact at layer `l` from `s + (w - 1) * l` on; and every replayed row whose
window KV the first insert keeps is exact at all early layers, its input as
well as its window KV. -/
theorem replay_exact (net : WindowNet X KV L) (embed : ℕ → X) (wrong : ℕ → ℕ → Option KV)
    (w E page F N : ℕ) (hw : 1 ≤ w) (hp : 1 ≤ page) (hN : minReplayTokens w E page ≤ N) :
    (∀ r, F ≤ r →
      net.replay w embed (F - N) F wrong E r = net.full w embed E r) ∧
    (∀ l, l < E → ∀ r, (F - N) + (w - 1) * l ≤ r →
      windowKVOf net (net.replay w embed (F - N) F wrong) l r
        = windowKVOf net (net.full w embed) l r) ∧
    (∀ r, F - N ≤ r → pageFloor ((F : ℤ) - 1 - max (w : ℤ) page) page ≤ r → ∀ l, l < E →
      net.replay w embed (F - N) F wrong l r = net.full w embed l r ∧
      windowKVOf net (net.replay w embed (F - N) F wrong) l r
        = windowKVOf net (net.full w embed) l r) := by
  have hpage : (0 : ℤ) < page := by exact_mod_cast hp
  -- a replay longer than the prefix starts at row 0 and replaces nothing
  by_cases hNF : N ≤ F
  case neg =>
    have hall : ∀ l r, net.replay w embed (F - N) F wrong l r = net.full w embed l r := by
      intro l r
      rw [Nat.sub_eq_zero_of_le (by omega)]
      exact net.replay_zero_eq_full l r
    exact ⟨fun r _ => hall E r, fun l _ r _ => congrArg (net.windowKV l r) (hall l r),
      fun r _ _ l _ => ⟨hall l r, congrArg (net.windowKV l r) (hall l r)⟩⟩
  case pos =>
    have hcone : (w - 1) * E ≤ N := by
      have := cone_le_minReplayTokens (w : ℤ) (E : ℤ) hpage
      zify [hw]
      linarith
    have hlayer : ∀ l, l ≤ E → (F - N) + (w - 1) * l ≤ F := by
      intro l hl
      have := Nat.mul_le_mul_left (w - 1) hl
      omega
    have hrow : ∀ l, l ≤ E → ∀ r, (F - N) + (w - 1) * l ≤ r →
        net.replay w embed (F - N) F wrong l r = net.full w embed l r :=
      fun l hl r hr => net.replay_eq_full l (hlayer l hl) hr
    refine ⟨fun r hr => hrow E le_rfl r (le_trans (hlayer E le_rfl) hr), ?_, ?_⟩
    · intro l hl r hr
      exact congrArg (net.windowKV l r) (hrow l hl.le r hr)
    · intro r _ hkept l hl
      have hin := kept_row_in_cone hw hp hl hN hkept hNF
      exact ⟨hrow l hl.le r hin, congrArg (net.windowKV l r) (hrow l hl.le r hin)⟩

/-- A stack of one layer that adds up what it reads, for the concrete run
below. -/
def sumNet : WindowNet ℕ ℕ ℕ where
  windowKV _ _ x := x
  latent _ _ x := x
  layer _ _ x win lat := x + (win.map (fun v => v.getD 0)).sum + lat.sum

/-- The length rule at window `2`, one early layer and pages of one row
gives `3`; with `F = 5` the replay starts at row `2`. -/
theorem replay_exact_sumNet :
    sumNet.replay 2 id 2 5 (fun _ _ => some 100) 1 5 = sumNet.full 2 id 1 5 :=
  (replay_exact sumNet id (fun _ _ => some 100) 2 1 1 5 3 (by decide) (by decide)
    (by decide)).1 5 (by decide)

end SwaCone

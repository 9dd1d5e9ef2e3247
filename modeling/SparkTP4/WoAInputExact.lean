import SparkTP4.WoAInputRounding

/-!
# The wo_a input is rounded once

A launch of the kernel is followed at the addresses of one row of 32. What the memory
holds there, and what any program has loaded from there, is the row as it was or the
rounded row (`Follows`): rounding either gives the rounded row, so the order of the
programs does not matter, nor that several may have the same row.

The dispatch is the stock function under one wrapper that rounds, with at most the
wrapper of `wo_a_w8` around it (`dispatch_of_installAll`), whose own routes do not reach
the inner one.
-/

namespace WoAInput

open BinaryFormat V4Transcode

variable {f f' : ℕ → F32} {x y : ℕ → ℕ} {i : ℕ}

/-! ## A row depends on itself -/

theorem rowAmax_congr (h : ∀ j < 32, f j = f' j) : rowAmax f = rowAmax f' := by
  unfold rowAmax
  congr 1
  exact List.map_congr_left fun j hj => by rw [h j (List.mem_range.mp hj)]

theorem qdqRow_congr (h : ∀ j < 32, f j = f' j) (hi : i < 32) : qdqRow f i = qdqRow f' i := by
  unfold qdqRow
  rw [rowAmax_congr h, h i hi]

theorem product_congr (h : ∀ j < 32, f j = f' j) (hi : i < 32) : product f i = product f' i := by
  unfold product quotient exponent
  rw [rowAmax_congr h, h i hi]

theorem referenceRow_congr (h : ∀ j < 32, x j = y j) (hi : i < 32) :
    referenceRow x i = referenceRow y i := by
  unfold referenceRow
  rw [product_congr (fun j hj => by rw [h j hj]) hi]

theorem qdqRow_toBf16 (hx : ∀ i < 32, Finite (x i)) (hi : i < 32) :
    (qdqRow (fun j => ofBf16 (x j)) i).toBf16 = referenceRow x i := by
  rw [qdqRow_eq (bf16Row_ofBf16 hx) hi]
  rfl

theorem Good.congr (hx : Good x) (h : ∀ j < 32, x j = y j) : Good y where
  finite j hj := h j hj ▸ hx.finite j hj
  result j hj := referenceRow_congr h hj ▸ hx.result j hj

/-! ## Positions -/

/-- A row of the flat tensor is a row of the tensor. -/
theorem referenceQdq_eq (z : Tensor) {G D t g c : ℕ} (hg : g < G) (hD : D % 32 = 0)
    (hc : c < D / 32) (hi : i < 32) :
    referenceQdq G D z t g (c * 32 + i) = referenceRow (row z t g c) i := by
  obtain ⟨m, rfl⟩ : ∃ m, D = m * 32 := ⟨D / 32, by omega⟩
  have hp : (t * G + g) * (m * 32) + (c * 32 + i) = ((t * G + g) * m + c) * 32 + i := by ring
  have hdiv : (((t * G + g) * m + c) * 32 + i) / 32 = (t * G + g) * m + c := by omega
  have hmod : (((t * G + g) * m + c) * 32 + i) % 32 = i := by omega
  unfold referenceQdq
  dsimp only
  rw [hp, hdiv, hmod]
  refine referenceRow_congr (fun j hj => ?_) hi
  have hj' : ((t * G + g) * m + c) * 32 + j = m * 32 * (t * G + g) + (c * 32 + j) := by ring
  have hlt : c * 32 + j < m * 32 := by omega
  have hpos : 0 < m * 32 := by omega
  have hG : 0 < G := by omega
  rw [flat, hj', Nat.mul_add_div hpos, Nat.div_eq_of_lt hlt, Nat.add_zero, Nat.mul_add_mod,
    Nat.mod_eq_of_lt hlt, Nat.mul_comm t G, Nat.mul_add_div hG, Nat.div_eq_of_lt hg, Nat.add_zero,
    Nat.mul_add_mod, Nat.mod_eq_of_lt hg]
  rfl

/-- **A tile of whole rows** is rounded row by row. -/
theorem qdqTile_eq (z : ℕ → ℕ → ℕ) {C r k : ℕ} (hC : C % 32 = 0) (hk : k < C / 32) (hi : i < 32) :
    qdqTile C z r (k * 32 + i) = (qdqRow (fun j => ofBf16 (z r (k * 32 + j))) i).toBf16 := by
  obtain ⟨m, rfl⟩ : ∃ m, C = m * 32 := ⟨C / 32, by omega⟩
  have hp : r * (m * 32) + (k * 32 + i) = (r * m + k) * 32 + i := by ring
  have hdiv : ((r * m + k) * 32 + i) / 32 = r * m + k := by omega
  have hmod : ((r * m + k) * 32 + i) % 32 = i := by omega
  unfold qdqTile
  dsimp only
  rw [hp, hdiv, hmod]
  refine congrArg F32.toBf16 (qdqRow_congr (fun j hj => ?_) hi)
  have hj' : (r * m + k) * 32 + j = m * 32 * r + (k * 32 + j) := by ring
  have hlt : k * 32 + j < m * 32 := by omega
  have hpos : 0 < m * 32 := by omega
  rw [hj', Nat.mul_add_div hpos, Nat.div_eq_of_lt hlt, Nat.add_zero, Nat.mul_add_mod,
    Nat.mod_eq_of_lt hlt]

/-- The lanes of a program. -/
theorem rounded_eq (x : ℕ → ℕ) {k : ℕ} (hi : i < 32) :
    rounded x (k * 32 + i) = (qdqRow (fun j => ofBf16 (x (k * 32 + j))) i).toBf16 := by
  have hdiv : (k * 32 + i) / 32 = k := by omega
  have hmod : (k * 32 + i) % 32 = 0 * 32 + i := by omega
  rw [rounded, hdiv, hmod]
  refine (qdqTile_eq _ (by simp) (by simp) hi).trans ?_
  simp

/-! ## A launch, at one row -/

section Launch

variable {v : View} {nb b : ℕ} {raw : ℕ → ℕ} {s : State} {p : Program}

/-- The row as it was, or the rounded row. -/
def IsRow (raw y : ℕ → ℕ) : Prop :=
  (∀ i < 32, y i = raw i) ∨ ∀ i < 32, y i = referenceRow raw i

/-- Rounding either gives the rounded row. -/
theorem IsRow.rounded (hraw : Good raw) (hy : IsRow raw y) (hi : i < 32) :
    (qdqRow (fun j => ofBf16 (y j)) i).toBf16 = referenceRow raw i := by
  obtain h | h := hy
  · have hfin : ∀ j < 32, Finite (y j) := fun j hj => h j hj ▸ hraw.finite j hj
    rw [qdqRow_toBf16 hfin hi, referenceRow_congr h hi]
  · have hfin : ∀ j < 32, Finite (y j) := fun j hj => h j hj ▸ hraw.result j hj
    rw [qdqRow_toBf16 hfin hi, referenceRow_congr h hi,
      referenceRow_idem hraw.finite hraw.result hi]

/-- The program has the row at address `b`, as its row `k`. -/
def Covers (v : View) (nb b : ℕ) (p : Program) (k : ℕ) : Prop := k < nb ∧ ptr v nb p + k * 32 = b

/-- **The invariant**: the memory holds one of the two rows at `b`, and so does every tile that was
loaded from there. -/
structure Follows (v : View) (nb b : ℕ) (raw : ℕ → ℕ) (s : State) : Prop where
  mem : IsRow raw fun i => s.mem (b + i)
  tile : ∀ p x, s.tile p = some x → ∀ k, Covers v nb b p k → IsRow raw fun i => x (k * 32 + i)

/-- The row at `b` is rounded. -/
def Done (b : ℕ) (raw : ℕ → ℕ) (s : State) : Prop := ∀ i < 32, s.mem (b + i) = referenceRow raw i

/-- What a program does not have at `b` is elsewhere. -/
def Aligned (v : View) (nb b : ℕ) (p : Program) : Prop :=
  ∀ k < nb, ptr v nb p + k * 32 = b ∨ ptr v nb p + k * 32 + 32 ≤ b ∨ b + 32 ≤ ptr v nb p + k * 32

/-- A store of a program that has the row leaves it rounded. -/
theorem done_of_store (hraw : Good raw) (hs : Follows v nb b raw s) {k : ℕ}
    (hk : Covers v nb b p k) (ht : s.tile p ≠ none) : Done b raw (step v nb s (.store p)) := by
  obtain ⟨x, hx⟩ := Option.ne_none_iff_exists'.mp ht
  obtain ⟨hlt, hb⟩ := hk
  intro i hi
  have hrange : ptr v nb p ≤ b + i ∧ b + i < ptr v nb p + nb * 32 := by omega
  have hlane : b + i - ptr v nb p = k * 32 + i := by omega
  simp only [step, hx]
  rw [if_pos hrange, hlane, rounded_eq x hi]
  exact IsRow.rounded hraw (hs.tile p x hx k ⟨hlt, hb⟩) hi

/-- A store of another program leaves the row alone. -/
theorem mem_of_store (hp : Aligned v nb b p) (hnot : ∀ k, ¬Covers v nb b p k) (hi : i < 32) :
    (step v nb s (.store p)).mem (b + i) = s.mem (b + i) := by
  cases hx : s.tile p with
  | none => simp only [step, hx]
  | some x =>
    have hout : ¬(ptr v nb p ≤ b + i ∧ b + i < ptr v nb p + nb * 32) := by
      rintro ⟨hlo, hhi⟩
      have hk : (b + i - ptr v nb p) / 32 < nb := by omega
      have hne : ptr v nb p + (b + i - ptr v nb p) / 32 * 32 ≠ b := fun h => hnot _ ⟨hk, h⟩
      have hapart := hp _ hk
      omega
    simp only [step, hx]
    rw [if_neg hout]

theorem tile_store (p : Program) : (step v nb s (.store p)).tile = s.tile := by
  unfold step
  dsimp only
  split <;> rfl

/-- **One access keeps the invariant.** -/
theorem Follows.step (hraw : Good raw) (hs : Follows v nb b raw s) {ev : Event}
    (hev : Aligned v nb b ev.program) : Follows v nb b raw (step v nb s ev) := by
  cases ev with
  | load p =>
    refine ⟨hs.mem, fun q x hx k hk => ?_⟩
    by_cases hq : q = p
    · subst hq
      simp only [WoAInput.step, Function.update_self] at hx
      obtain rfl := Option.some.inj hx
      have hsame (i : ℕ) : ptr v nb q + (k * 32 + i) = b + i := by rw [← hk.2, Nat.add_assoc]
      simp only [hsame]
      exact hs.mem
    · simp only [WoAInput.step, Function.update_of_ne hq] at hx
      exact hs.tile q x hx k hk
  | store p =>
    refine ⟨?_, fun q x hx k hk => hs.tile q x (by rwa [tile_store] at hx) k hk⟩
    by_cases hcov : ∃ k, Covers v nb b p k
    · obtain ⟨k, hk⟩ := hcov
      by_cases ht : s.tile p = none
      · simp only [WoAInput.step, ht]
        exact hs.mem
      · exact .inr (done_of_store hraw hs hk ht)
    · have hnot : ∀ k, ¬Covers v nb b p k := fun k hk => hcov ⟨k, hk⟩
      exact hs.mem.imp (fun h i hi => (mem_of_store hev hnot hi).trans (h i hi))
        (fun h i hi => (mem_of_store hev hnot hi).trans (h i hi))

/-- **A rounded row stays.** -/
theorem Done.step (hraw : Good raw) (hs : Follows v nb b raw s) (hd : Done b raw s) {ev : Event}
    (hev : Aligned v nb b ev.program) : Done b raw (step v nb s ev) := by
  cases ev with
  | load p => exact hd
  | store p =>
    by_cases hcov : ∃ k, Covers v nb b p k
    · obtain ⟨k, hk⟩ := hcov
      by_cases ht : s.tile p = none
      · simp only [WoAInput.step, ht]
        exact hd
      · exact done_of_store hraw hs hk ht
    · have hnot : ∀ k, ¬Covers v nb b p k := fun k hk => hcov ⟨k, hk⟩
      exact fun i hi => (mem_of_store hev hnot hi).trans (hd i hi)

/-- A tile that is loaded stays loaded. -/
theorem tile_step (ht : s.tile p ≠ none) (ev : Event) : (step v nb s ev).tile p ≠ none := by
  cases ev with
  | load q =>
    by_cases hq : p = q
    · subst hq
      simp [step]
    · simpa [step, Function.update_of_ne hq] using ht
  | store q => rwa [tile_store]

/-- **A run keeps the invariant**, a loaded tile and a rounded row. -/
theorem follows_run (hraw : Good raw) (events : List Event)
    (hev : ∀ ev ∈ events, Aligned v nb b ev.program) (hs : Follows v nb b raw s) :
    Follows v nb b raw (events.foldl (step v nb) s) ∧
      (s.tile p ≠ none → (events.foldl (step v nb) s).tile p ≠ none) ∧
        (Done b raw s → Done b raw (events.foldl (step v nb) s)) := by
  induction events generalizing s with
  | nil => exact ⟨hs, id, id⟩
  | cons ev events ih =>
    obtain ⟨hhead, htail⟩ := List.forall_mem_cons.mp hev
    obtain ⟨hf, ht, hd⟩ := ih htail (hs.step hraw hhead)
    exact ⟨hf, fun h => ht (tile_step h ev), fun h => hd (h.step hraw hs hhead)⟩

/-- **A launch leaves the row rounded.** -/
theorem done_of_launch (hraw : Good raw) {mem : ℕ → ℕ} {events : List Event}
    (hrow : ∀ i < 32, mem (b + i) = raw i) (hl : IsLaunch v nb events)
    (hgrid : ∀ q, InGrid v nb q → Aligned v nb b q) {k : ℕ} (hp : InGrid v nb p)
    (hk : Covers v nb b p k) (hi : i < 32) :
    launch v nb mem events (b + i) = referenceRow raw i := by
  obtain ⟨hin, hfilter⟩ := hl
  obtain ⟨before, rest, rfl, -, -, hrest⟩ := List.filter_eq_cons_iff.mp (hfilter p hp)
  obtain ⟨between, after, rfl, -, -, -⟩ := List.filter_eq_cons_iff.mp hrest
  have haligned (l : List Event)
      (hl : ∀ ev ∈ l, ev ∈ before ++ .load p :: (between ++ .store p :: after)) :
      ∀ ev ∈ l, Aligned v nb b ev.program := fun ev h => hgrid _ (hin ev (hl ev h))
  have hstart : Follows v nb b raw ⟨mem, fun _ => none⟩ :=
    ⟨.inl hrow, fun q x hx => (nomatch hx)⟩
  -- up to the load, up to the store, and to the end
  obtain ⟨h1, -, -⟩ := follows_run (p := p) hraw before (haligned _ (by simp +contextual)) hstart
  have h2 : Follows v nb b raw (step v nb _ (.load p)) := h1.step hraw (hgrid p hp)
  obtain ⟨h3, hloaded, -⟩ := follows_run (p := p) hraw between
    (haligned _ (by simp +contextual)) h2
  have ht := hloaded (by simp [step])
  have hdone := done_of_store hraw h3 hk ht
  obtain ⟨-, -, hfinal⟩ := follows_run (p := p) hraw after (haligned _ (by simp +contextual))
    (@Follows.step _ _ _ _ _ hraw h3 (.store p) (hgrid p hp))
  rw [launch, List.foldl_append, List.foldl_cons, List.foldl_append, List.foldl_cons]
  exact hfinal hdone i hi

end Launch

/-- **The kernel in place** is exact where no two rows overlap. -/
theorem inPlaceExact_apart : InPlaceExact View.Apart := by
  intro v hv nb hnb hD mem events hl t ht g hg c hc hraw i hi
  have hD32 : v.D % 32 = 0 := by
    obtain ⟨m, hm⟩ := Nat.dvd_of_mod_eq_zero hD
    rw [hm, Nat.mul_comm nb, Nat.mul_assoc, Nat.mul_mod_right]
  have hcount : v.D / (nb * 32) * nb = v.D / 32 := by
    obtain ⟨m, hm⟩ := Nat.dvd_of_mod_eq_zero hD
    have hpos : 0 < nb * 32 := by omega
    rw [hm, Nat.mul_div_cancel_left m hpos, show nb * 32 * m = m * nb * 32 by ring,
      Nat.mul_div_cancel _ (by simp)]
  -- the rows of a program
  have hptr (q : Program) (k : ℕ) :
      ptr v nb q + k * 32 = v.address q.row q.group ((q.chunk * nb + k) * 32) := by
    unfold ptr View.address
    ring
  have haligned (q : Program) (hq : InGrid v nb q) :
      Aligned v nb (v.address t g (c * 32)) q := by
    obtain ⟨hrow, hgroup, hchunk⟩ := hq
    intro k hk
    have hlt : q.chunk * nb + k < v.D / 32 := by
      have hle : (q.chunk + 1) * nb ≤ v.D / (nb * 32) * nb := Nat.mul_le_mul_right nb hchunk
      rw [hcount, Nat.add_one_mul] at hle
      omega
    rw [hptr]
    exact hv _ hrow _ hgroup _ hlt t ht g hg c hc
  have hchunk : c / nb < v.D / (nb * 32) := by
    rw [Nat.div_lt_iff_lt_mul hnb, hcount]
    exact hc
  have hcovers : Covers v nb (v.address t g (c * 32)) ⟨t, g, c / nb⟩ (c % nb) := by
    refine ⟨Nat.mod_lt c hnb, ?_⟩
    rw [hptr, Nat.div_add_mod']
  rw [referenceQdq_eq _ hg hD32 hc hi,
    show v.address t g (c * 32 + i) = v.address t g (c * 32) + i from (Nat.add_assoc _ _ _).symm]
  refine done_of_launch hraw (fun j hj => ?_) hl haligned ⟨ht, hg, hchunk⟩ hcovers hi
  show mem (v.address t g (c * 32) + j) = mem (v.address t g (c * 32 + j))
  rw [View.address, View.address, Nat.add_assoc _ (c * 32)]

/-- **A tile in registers** is exact. -/
theorem loadTile_eq (z : Tensor) {G D M m0 g k0 C r c : ℕ} (hg : g < G) (hD : D % 32 = 0)
    (hk : k0 % 32 = 0) (hC : C % 32 = 0) (hle : k0 + C ≤ D) (hr : m0 + r < M) (hc : c < C)
    (hgood : Good (row z (m0 + r) g ((k0 + c) / 32))) :
    qdqTile C (loadTile z M m0 g k0) r c = referenceQdq G D z (m0 + r) g (k0 + c) := by
  have hload (j : ℕ) : loadTile z M m0 g k0 r (c / 32 * 32 + j) =
      row z (m0 + r) g ((k0 + c) / 32) j := by
    rw [loadTile, if_pos hr, row, show k0 + (c / 32 * 32 + j) = (k0 + c) / 32 * 32 + j by omega]
  have hcol : c = c / 32 * 32 + c % 32 := (Nat.div_add_mod' c 32).symm
  have hcol' : k0 + c = (k0 + c) / 32 * 32 + c % 32 := by omega
  have hmod : c % 32 < 32 := Nat.mod_lt c (by simp)
  calc qdqTile C (loadTile z M m0 g k0) r c
      = qdqTile C (loadTile z M m0 g k0) r (c / 32 * 32 + c % 32) := by rw [← hcol]
    _ = (qdqRow (fun j => ofBf16 (row z (m0 + r) g ((k0 + c) / 32) j)) (c % 32)).toBf16 := by
        rw [qdqTile_eq _ hC (by omega) hmod]
        simp only [hload]
    _ = referenceRow (row z (m0 + r) g ((k0 + c) / 32)) (c % 32) :=
        qdqRow_toBf16 hgood.finite hmod
    _ = referenceQdq G D z (m0 + r) g ((k0 + c) / 32 * 32 + c % 32) :=
        (referenceQdq_eq z hg hD (by omega) hmod).symm
    _ = referenceQdq G D z (m0 + r) g (k0 + c) := by rw [← hcol']

/-! ## The dispatch -/

section Dispatch

variable {cfg : Config} {m m' : Module}

/-- **What the installers make of a module**, with the rounding on: nothing, the rounding wrapper,
or the wrapper of `wo_a_w8` over it. -/
def Installed (m : Module) : Prop :=
  m = .imported ∨ m = ⟨.wrap .stock, true, false⟩ ∨ m = ⟨.midDrop (.wrap .stock), true, true⟩

theorem Installed.install (hqx : cfg.qx = true) (hm : Installed m) {k : Installer}
    (h : install cfg m k = some m') : Installed m' := by
  obtain rfl | rfl | rfl := hm
  · cases k with
    | inputFp8 =>
      simp only [WoAInput.install, Module.imported, hqx] at h
      exact .inr (.inl (Option.some.inj h).symm)
    | mid =>
      -- without the rounding wrapper the second installer raises
      simp only [WoAInput.install, Module.imported, hqx, Dispatch.wrapped] at h
      split at h
      · exact .inl (Option.some.inj h).symm
      · exact nomatch h
  · cases k with
    | inputFp8 =>
      simp only [WoAInput.install, hqx] at h
      exact .inr (.inl (Option.some.inj h).symm)
    | mid =>
      simp only [WoAInput.install, hqx, Dispatch.wrapped] at h
      split at h
      · exact .inr (.inl (Option.some.inj h).symm)
      · exact .inr (.inr (Option.some.inj h).symm)
  · cases k with
    | inputFp8 =>
      simp only [WoAInput.install, hqx] at h
      exact .inr (.inr (Option.some.inj h).symm)
    | mid =>
      simp only [WoAInput.install, Bool.or_true] at h
      exact .inr (.inr (Option.some.inj h).symm)

theorem Installed.installAll (hqx : cfg.qx = true) {ks : List Installer} (hm : Installed m)
    (h : installAll cfg m ks = some m') : Installed m' := by
  induction ks generalizing m with
  | nil =>
    obtain rfl := Option.some.inj h
    exact hm
  | cons k ks ih =>
    obtain ⟨n, hn, hrest⟩ := Option.bind_eq_some_iff.mp h
    exact ih (hm.install hqx hn) hrest

variable {O : Type} {roundO tile : O → O} {c : Call} {ptr : ℕ} {o z : O}

theorem stockOperand_eq : stockOperand cfg tile c ptr o = o := by
  unfold stockOperand
  cases c.kernel with
  | small => exact ite_self o
  | smallMx => exact ite_self o
  | other => rfl

/-- Under the rounding wrapper `o` is rounded once. -/
theorem apply_wrap (h : apply cfg roundO tile c (.wrap .stock) ptr o = some z) : z = roundO o := by
  unfold apply at h
  split_ifs at h
  rw [apply, stockOperand_eq] at h
  exact (Option.some.inj h).symm

/-- **Every route rounds `o` once**: in registers, or under the inner wrapper. -/
theorem apply_midDrop (hqx : cfg.qx = true)
    (h : apply cfg roundO tile c (.midDrop (.wrap .stock)) ptr o = some z) :
    z = roundO o ∨ z = tile o := by
  have htile (h : some (multiplied tile cfg.qx o) = some z) : z = roundO o ∨ z = tile o := by
    rw [multiplied, if_pos hqx] at h
    exact .inr (Option.some.inj h).symm
  rw [apply] at h
  split_ifs at h
  · exact htile h
  · exact htile h
  · exact .inl (apply_wrap h)
  · exact .inl (apply_wrap h)
  · exact htile h
  · exact .inl (apply_wrap h)

theorem apply_installed (hqx : cfg.qx = true) (hm : Installed m) (hin : m.inputFp8 = true)
    (h : apply cfg roundO tile c m.dispatch ptr o = some z) : z = roundO o ∨ z = tile o := by
  obtain rfl | rfl | rfl := hm
  · exact nomatch hin
  · exact .inl (apply_wrap h)
  · exact apply_midDrop hqx h

end Dispatch

/-! ## The rounding -/

/-- **The rounding of the wo_a input**, where no two rows of 32 overlap. -/
theorem rounding_exact : RoundingExact View.Apart where
  inPlace := inPlaceExact_apart
  tile z _ _ _ _ _ _ _ hg hD hk hC hle _ _ hr hc hgood :=
    loadTile_eq z hg hD hk hC hle hr hc hgood
  e4m3 _ ha := e4m3Round_spec ha
  clamp _ hx _ hi := clamp_eq (quotient_le (bf16Row_ofBf16 hx) hi)
  bf16 _ hx _ hi := ofBf16_product (bf16Row_ofBf16 hx.finite) hi
  idem _ hx _ hi := referenceRow_idem hx.finite hx.result hi
  dispatch _ _ _ _ _ _ hqx hall hin _ _ _ _ h :=
    apply_installed hqx (Installed.installAll hqx (.inl rfl) hall) hin h

/-- One row of 32. -/
def single : View := ⟨1, 1, 32, 0, 0⟩

theorem isLaunch_single : IsLaunch single 1 [.load ⟨0, 0, 0⟩, .store ⟨0, 0, 0⟩] := by
  refine ⟨?_, ?_⟩
  · simp [InGrid, single, Event.program]
  · rintro ⟨r, g, c⟩ ⟨hr, hg, hc⟩
    obtain rfl : r = 0 := Nat.lt_one_iff.mp hr
    obtain rfl : g = 0 := Nat.lt_one_iff.mp hg
    obtain rfl : c = 0 := Nat.lt_one_iff.mp hc
    rfl

/-- A row of ones stays. -/
theorem rounding_exact_ones : launch single 1 (fun _ => 0x3F80)
    [.load ⟨0, 0, 0⟩, .store ⟨0, 0, 0⟩] 5 = 0x3F80 := by
  have happart : single.Apart := by
    intro t ht g hg c hc t' ht' g' hg' c' hc'
    left
    simp only [single, Nat.lt_one_iff, Nat.div_self (Nat.succ_pos 31)] at ht hg hc ht' hg' hc'
    rw [ht, hg, hc, ht', hg', hc']
  have hgood : Good (row (single.tensor fun _ => 0x3F80) 0 0 0) :=
    ⟨by decide +kernel, by decide +kernel⟩
  refine (rounding_exact.inPlace single happart 1 (by simp) (by simp [single]) _ _
    isLaunch_single 0 (by simp [single]) 0 (by simp [single]) 0 (by simp [single]) hgood 5
    (by simp)).trans ?_
  decide +kernel

/-! ## Rows that overlap -/

/-- Two rows of which the second starts in the middle of the first. -/
def overlap : View := ⟨2, 1, 32, 16, 0⟩

/-- A million, and a one where both rows are. -/
def overlapMem (a : ℕ) : ℕ := if a = 0 then 0x4980 else if a = 16 then 0x3F80 else 0

/-- The programs one after the other. -/
def overlapEvents : List Event :=
  [.load ⟨0, 0, 0⟩, .store ⟨0, 0, 0⟩, .load ⟨1, 0, 0⟩, .store ⟨1, 0, 0⟩]

theorem isLaunch_overlap : IsLaunch overlap 1 overlapEvents := by
  refine ⟨?_, ?_⟩
  · simp [overlapEvents, InGrid, overlap, Event.program]
  · rintro ⟨r, g, c⟩ ⟨hr, hg, hc⟩
    obtain rfl : g = 0 := Nat.lt_one_iff.mp hg
    obtain rfl : c = 0 := Nat.lt_one_iff.mp hc
    have hr2 : r < 2 := hr
    interval_cases r <;> rfl

theorem good_overlap (t : ℕ) (ht : t < 2) : Good (row (overlap.tensor overlapMem) t 0 0) := by
  interval_cases t
  · exact ⟨by decide +kernel, by decide +kernel⟩
  · exact ⟨by decide +kernel, by decide +kernel⟩

/-- **Not for every view**: the first row rounds the one to zero, the second keeps it, and there is
only one place for both. -/
theorem not_inPlaceExact_overlap : ¬InPlaceExact fun _ => True := by
  intro h
  have hrow (t : ℕ) (ht : t < 2) (i : ℕ) (hi : i < 32) :=
    h overlap trivial 1 (by simp) (by simp [overlap]) overlapMem overlapEvents isLaunch_overlap t
      ht 0 (by simp [overlap]) 0 (by simp [overlap]) (good_overlap t ht) i hi
  have hfirst := hrow 0 (by simp) 16 (by simp)
  have hsecond := hrow 1 (by simp) 0 (by simp)
  have hplace : overlap.address 0 0 (0 * 32 + 16) = overlap.address 1 0 (0 * 32 + 0) := rfl
  rw [hplace, hsecond] at hfirst
  revert hfirst
  decide +kernel

end WoAInput

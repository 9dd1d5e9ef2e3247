import SparkTP4.HcFused

/-!
# One walk gives the bits of the stock path

A bf16 activation is its own tf32 rounding, so the small part of the activations is a tile of
zeros and the first of the three dots changes nothing; the other two are those of the walk.
The walk then adds the same values in the same order, since a slice starts from zero in both
(`SlicedSum.oneWalk_eq`), and the squares by the same tree. Adding the total to zero once more
changes nothing either: a sum that begins at +0 is never -0.

The weights must round to something finite: the largest floats round to infinity in tf32, and
of a tile of zeros times infinities nothing is known (`not_exact_of_overflow`).
-/

namespace HcFused

variable {A : Arith} {S : Shape} {x w : ℕ → ℕ → Fp32} {m n : ℕ}

/-! ## Zeros -/

theorem zero_ne_negZero : zero ≠ negZero := by decide

theorem add_zero_zero (A : Arith) : A.add zero zero = zero := A.add_zero zero zero_ne_negZero

/-- A sum from +0 is never -0. -/
theorem sum_ne_negZero (A : Arith) (n : ℕ) (c : ℕ → Fp32) :
    SlicedSum.sum A.add zero n c ≠ negZero := by
  induction n with
  | zero => exact zero_ne_negZero
  | succ n ih =>
    rw [SlicedSum.sum_succ]
    exact fun h => ih (A.eq_of_add_eq_negZero _ _ h).1

/-- The reduce of a single slice changes nothing. -/
theorem reduce_one (A : Arith) {v : Fp32} (hv : v ≠ negZero) : reduce A 1 (fun _ => v) = v := by
  show A.add zero v = v
  rw [A.add_comm, A.add_zero v hv]

/-! ## tf32 -/

theorem finite_of_rna {v : Fp32} (h : Finite (tf32Rna v)) : Finite v := by
  by_contra hv
  rw [tf32Rna, if_neg hv] at h
  exact hv h

/-- **A bf16 value is its own tf32 rounding.** -/
theorem tf32Rna_of_bf16 {v : Fp32} (h : Bf16 v) : tf32Rna v = v := by
  unfold tf32Rna
  split
  · refine BitVec.eq_of_toNat_eq ?_
    unfold Bf16 at h
    have hlt : v.toNat < 2 ^ 32 := v.isLt
    rw [BitVec.toNat_shiftLeft, BitVec.toNat_ushiftRight, BitVec.toNat_add,
      Nat.shiftRight_eq_div_pow, Nat.shiftLeft_eq]
    show (v.toNat + 4096) % 2 ^ 32 / 2 ^ 13 * 2 ^ 13 % 2 ^ 32 = v.toNat
    omega
  · rfl

theorem finite_zero : Finite zero := by decide

theorem tf32Rna_zero : tf32Rna zero = zero := by decide

/-! ## A chunk -/

/-- Activations a kernel may read: finite bf16. -/
def Activations (S : Shape) (x : ℕ → ℕ → Fp32) : Prop :=
  ∀ m < S.rows, ∀ k < S.k, Finite (x m k) ∧ Bf16 (x m k)

/-- Weights whose tf32 rounding is finite. -/
def Weights (S : Shape) (w : ℕ → ℕ → Fp32) : Prop :=
  ∀ n < mix, ∀ k < S.k, Finite (tf32Rna (w n k))

theorem column_lt {i c : ℕ} (hi : i < S.slices * S.chunks) (hc : c < blockK) :
    i * blockK + c < S.k := by
  have hmul : (i + 1) * blockK ≤ S.slices * S.chunks * blockK := Nat.mul_le_mul_right _ hi
  rw [Nat.succ_mul] at hmul
  exact Nat.lt_of_lt_of_le (Nat.add_lt_add_left hc _) hmul

/-- A tile of activations has finite bf16 values, zeros in the rows beyond the batch. -/
theorem xTile_bf16 (hx : Activations S x) {i : ℕ} (hi : i < S.slices * S.chunks) (pid : ℕ)
    (r : Fin S.blockM) (c : Fin 64) : Finite (xTile S x pid i r c) ∧ Bf16 (xTile S x pid i r c) := by
  unfold xTile
  split
  · exact hx _ ‹_› _ (column_lt hi c.isLt)
  · exact ⟨finite_zero, rfl⟩

theorem big_xTile (hx : Activations S x) {i : ℕ} (hi : i < S.slices * S.chunks) (pid : ℕ) :
    Arith.big (xTile S x pid i) = xTile S x pid i := by
  funext r c
  exact tf32Rna_of_bf16 (xTile_bf16 hx hi pid r c).2

/-- The small part of the activations is a tile of zeros. -/
theorem small_xTile (hx : Activations S x) {i : ℕ} (hi : i < S.slices * S.chunks) (pid : ℕ) :
    (A.subTile (xTile S x pid i) (xTile S x pid i)).IsZero :=
  fun r c => A.sub_self _ (xTile_bf16 hx hi pid r c).1

theorem big_wTile_finite (hw : Weights S w) {i : ℕ} (hi : i < S.slices * S.chunks) :
    (Arith.big (wTile w i)).IsFinite := by
  intro c n
  unfold Arith.big wTile
  split
  · exact hw _ ‹_› _ (column_lt hi c.isLt)
  · exact tf32Rna_zero ▸ finite_zero

/-- The two dots of the walk. -/
def twoDots (A : Arith) (S : Shape) (x w : ℕ → ℕ → Fp32) (pid i : ℕ) : Tile S.blockM 32 :=
  A.dot (xTile S x pid i) (Arith.big (wTile w i))
    (A.dot (xTile S x pid i) (A.subTile (wTile w i) (Arith.big (wTile w i))) Tile.zeros)

/-- **The first dot of tf32x3 changes nothing.** -/
theorem tf32x3_eq (hx : Activations S x) (hw : Weights S w) {i : ℕ}
    (hi : i < S.slices * S.chunks) (pid : ℕ) (acc : Tile S.blockM 32) :
    tf32x3 A (xTile S x pid i) (wTile w i) acc = A.addTile acc (twoDots A S x w pid i) := by
  have hfirst : A.dot (A.subTile (xTile S x pid i) (xTile S x pid i)) (Arith.big (wTile w i))
      Tile.zeros = Tile.zeros :=
    A.dot_zero _ _ _ (Or.inl ⟨small_xTile hx hi pid, big_wTile_finite hw hi⟩)
  unfold tf32x3
  dsimp only
  rw [big_xTile hx hi pid, hfirst]
  funext r c
  exact A.add_comm _ _

/-- **The butterflies are the tree**, in every lane. -/
theorem xorTree_eq (A : Arith) (v : ℕ → Fp32) (warp lane : ℕ) :
    xorTree A v warp lane = sqTree A v := by
  have hrow : ∀ h, SlicedSum.butterfly A.add (fun l => v (32 * (h % 2) + l % 32)) 5 lane =
      SlicedSum.halvings A.add (fun l => v (32 * (h % 2) + l)) 5 0 := fun h =>
    SlicedSum.butterfly_eq A.add (p := 5) (u := fun l => v (32 * (h % 2) + l)) A.add_comm
      (fun _ => rfl) lane
  unfold xorTree sqTree
  dsimp only
  rw [hrow, hrow, Nat.xor_mod_two_eq]
  rcases Nat.mod_two_eq_zero_or_one warp with hwarp | hwarp
  · rw [hwarp, show (warp + 1) % 2 = 1 by omega]
  · rw [hwarp, show (warp + 1) % 2 = 0 by omega, A.add_comm]

/-! ## The walk -/

theorem kb_eq (hslices : S.slices ≠ 0) : S.kb = S.chunks := by
  rw [Shape.kb, Shape.k, Nat.mul_assoc, Nat.mul_div_cancel_left _ (Nat.pos_of_ne_zero hslices),
    Nat.mul_div_cancel _ (by decide)]

theorem nch_eq (S : Shape) : S.nch = S.slices * S.chunks := Nat.mul_div_cancel _ (by decide)

/-- Addition of the sums of squares of a row block. -/
def addCol (A : Arith) (a b : Fin m → Fp32) : Fin m → Fp32 := fun r => A.add (a r) (b r)

/-- The row sums of squares of a chunk. -/
def chunkSq (A : Arith) (S : Shape) (x : ℕ → ℕ → Fp32) (pid i : ℕ) (r : Fin S.blockM) : Fp32 :=
  sqTree A (squares A (xTile S x pid i) r)

/-- The mix of a program, as one walk. -/
theorem foldl_mix (pid : ℕ) (is : List ℕ) (s : Regs S.blockM) :
    ((is.foldl (walkStep A S x w pid) s).acc, (is.foldl (walkStep A S x w pid) s).tot) =
      is.foldl (SlicedSum.walkStep A.addTile Tile.zeros S.kb (twoDots A S x w pid))
        (s.acc, s.tot) := by
  induction is generalizing s with
  | nil => rfl
  | cons i is ih => exact ih _

/-- The squares of a program, as one walk. -/
theorem foldl_sq (pid : ℕ) (is : List ℕ) (s : Regs S.blockM) :
    ((is.foldl (walkStep A S x w pid) s).sq, (is.foldl (walkStep A S x w pid) s).sqt) =
      is.foldl (SlicedSum.walkStep (addCol A) (fun _ => zero) S.kb (chunkSq A S x pid))
        (s.sq, s.sqt) := by
  induction is generalizing s with
  | nil => rfl
  | cons i is ih => exact ih _

/-- A walk over no slices is one over slices without chunks. -/
theorem range_nch (S : Shape) : List.range S.nch = List.range (S.slices * S.kb) := by
  rw [nch_eq]
  by_cases hslices : S.slices = 0
  · rw [hslices, Nat.zero_mul, Nat.zero_mul]
  · rw [kb_eq hslices]

/-- **The totals of a program** are sums in slices. -/
theorem walk_tot (A : Arith) (S : Shape) (x w : ℕ → ℕ → Fp32) (pid : ℕ) :
    (walk A S x w pid).tot =
      SlicedSum.sliced A.addTile Tile.zeros S.slices S.kb (twoDots A S x w pid) := by
  have hzero : A.addTile (Tile.zeros : Tile S.blockM 32) Tile.zeros = Tile.zeros := by
    funext r n
    exact add_zero_zero A
  have hwalk := SlicedSum.oneWalk_eq A.addTile Tile.zeros hzero S.slices S.kb
    (twoDots A S x w pid)
  have hmix := foldl_mix (A := A) (S := S) (x := x) (w := w) pid (List.range S.nch)
    ⟨Tile.zeros, Tile.zeros, fun _ => zero, fun _ => zero⟩
  rw [range_nch] at hmix
  rw [walk, range_nch]
  exact congrArg Prod.snd (hmix.trans hwalk)

theorem walk_sqt (A : Arith) (S : Shape) (x w : ℕ → ℕ → Fp32) (pid : ℕ) :
    (walk A S x w pid).sqt =
      SlicedSum.sliced (addCol A) (fun _ => zero) S.slices S.kb (chunkSq A S x pid) := by
  have hzero : addCol A (fun _ : Fin S.blockM => zero) (fun _ => zero) = fun _ => zero := by
    funext r
    exact add_zero_zero A
  have hwalk := SlicedSum.oneWalk_eq (addCol A) (fun _ => zero) hzero S.slices S.kb
    (chunkSq A S x pid)
  have hsq := foldl_sq (A := A) (S := S) (x := x) (w := w) pid (List.range S.nch)
    ⟨Tile.zeros, Tile.zeros, fun _ => zero, fun _ => zero⟩
  rw [range_nch] at hsq
  rw [walk, range_nch]
  exact congrArg Prod.snd (hsq.trans hwalk)

/-- A sum of tiles, element by element. -/
theorem sum_addTile (A : Arith) (k : ℕ) (c : ℕ → Tile m n) (i : Fin m) (j : Fin n) :
    SlicedSum.sum A.addTile Tile.zeros k c i j = SlicedSum.sum A.add zero k fun l => c l i j := by
  induction k with
  | zero => rfl
  | succ k ih =>
    rw [SlicedSum.sum_succ, SlicedSum.sum_succ, ← ih]
    rfl

theorem sum_addCol (A : Arith) (k : ℕ) (c : ℕ → Fin m → Fp32) (i : Fin m) :
    SlicedSum.sum (addCol A) (fun _ => zero) k c i = SlicedSum.sum A.add zero k fun l => c l i := by
  induction k with
  | zero => rfl
  | succ k ih =>
    rw [SlicedSum.sum_succ, SlicedSum.sum_succ, ← ih]
    rfl

/-- A slice of the stock mix adds the two dots of its chunks. -/
theorem stockMix_eq (hx : Activations S x) (hw : Weights S w) {s : ℕ} (hs : s < S.slices)
    (pid : ℕ) : stockMix A S x w pid s = SlicedSum.sum A.addTile Tile.zeros S.chunks fun j =>
      twoDots A S x w pid (s * S.chunks + j) := by
  unfold stockMix SlicedSum.sum
  refine List.foldl_ext _ _ _ fun acc j hj => ?_
  have hlt : s * S.chunks + j < S.slices * S.chunks := by
    have hmul : (s + 1) * S.chunks ≤ S.slices * S.chunks := Nat.mul_le_mul_right _ hs
    rw [Nat.succ_mul] at hmul
    exact Nat.lt_of_lt_of_le (Nat.add_lt_add_left (List.mem_range.mp hj) _) hmul
  exact tf32x3_eq hx hw hlt pid acc

theorem stockSq_eq (A : Arith) (S : Shape) (x : ℕ → ℕ → Fp32) (warp lane pid s : ℕ)
    (r : Fin S.blockM) : stockSq A S x warp lane pid s r =
      SlicedSum.sum A.add zero S.chunks fun j => chunkSq A S x pid (s * S.chunks + j) r := by
  unfold stockSq SlicedSum.sum
  refine List.foldl_ext _ _ _ fun acc j _ => ?_
  rw [xorTree_eq]
  rfl

theorem sum_congr (A : Arith) {k : ℕ} {c c' : ℕ → Fp32} (h : ∀ i < k, c i = c' i) :
    SlicedSum.sum A.add zero k c = SlicedSum.sum A.add zero k c' :=
  List.foldl_ext _ _ _ fun acc i hi => congrArg (A.add acc) (h i (List.mem_range.mp hi))

/-- **The totals are those of the stock path.** -/
theorem tot_eq (hx : Activations S x) (hw : Weights S w) (row : ℕ) (col : Fin 32) :
    (walk A S x w (row / S.blockM)).tot (S.inner row) col = stockMixOut A S x w row col := by
  rw [walk_tot, SlicedSum.sliced, sum_addTile, stockMixOut, reduce]
  refine sum_congr A fun s hs => ?_
  rw [stockMix_eq hx hw hs, kb_eq (Nat.ne_of_gt (Nat.zero_lt_of_lt hs))]

theorem sqt_eq (A : Arith) (S : Shape) (x w : ℕ → ℕ → Fp32) (warp lane row : ℕ) :
    (walk A S x w (row / S.blockM)).sqt (S.inner row) = stockSqOut A S x warp lane row := by
  rw [walk_sqt, SlicedSum.sliced, sum_addCol, stockSqOut, reduce]
  refine sum_congr A fun s hs => ?_
  rw [stockSq_eq, sum_addCol, kb_eq (Nat.ne_of_gt (Nat.zero_lt_of_lt hs))]

/-! ## Stores -/

theorem store_of_not_mem (mem : ℕ → Fp32) {ps : List (ℕ × Fp32)} {a : ℕ}
    (h : ∀ p ∈ ps, p.1 ≠ a) : store mem ps a = mem a := by
  induction ps generalizing mem with
  | nil => rfl
  | cons p ps ih =>
    show store (Function.update mem p.1 p.2) ps a = mem a
    rw [ih _ fun q hq => h q (List.mem_cons_of_mem p hq),
      Function.update_of_ne (h p List.mem_cons_self).symm]

/-- An address that is stored to, always with one value, holds it. -/
theorem store_of_mem (mem : ℕ → Fp32) {ps : List (ℕ × Fp32)} {a : ℕ} {v : Fp32}
    (h : (a, v) ∈ ps) (hone : ∀ p ∈ ps, p.1 = a → p.2 = v) : store mem ps a = v := by
  induction ps generalizing mem with
  | nil => exact nomatch h
  | cons p ps ih =>
    show store (Function.update mem p.1 p.2) ps a = v
    have hrest : ∀ q ∈ ps, q.1 = a → q.2 = v := fun q hq => hone q (List.mem_cons_of_mem p hq)
    by_cases hlater : ∃ q ∈ ps, q.1 = a
    · obtain ⟨q, hq, hqa⟩ := hlater
      refine ih _ ?_ hrest
      have hqv : q = (a, v) := Prod.ext hqa (hrest q hq hqa)
      exact hqv ▸ hq
    · have hnone : ∀ q ∈ ps, q.1 ≠ a := fun q hq hqa => hlater ⟨q, hq, hqa⟩
      rcases List.mem_cons.mp h with rfl | hmem
      · rw [store_of_not_mem _ hnone, Function.update_self]
      · exact absurd rfl (hnone _ hmem)

theorem mem_mixStores {pid : ℕ} {p : ℕ × Fp32} : p ∈ mixStores A S x w pid ↔
    ∃ (r : Fin S.blockM) (n : Fin 32), (pid * S.blockM + r < S.rows ∧ (n : ℕ) < mix) ∧
      ((pid * S.blockM + r) * mix + n, (walk A S x w pid).tot r n) = p := by
  unfold mixStores
  simp only [List.mem_flatMap, List.mem_filterMap, List.mem_finRange, true_and,
    Option.ite_none_right_eq_some, Option.some.injEq]

theorem mem_sqStores {pid : ℕ} {p : ℕ × Fp32} : p ∈ sqStores A S x w pid ↔
    ∃ r : Fin S.blockM, pid * S.blockM + r < S.rows ∧
      (pid * S.blockM + r, (walk A S x w pid).sqt r) = p := by
  unfold sqStores
  simp only [List.mem_filterMap, List.mem_finRange, true_and, Option.ite_none_right_eq_some,
    Option.some.injEq]

/-- A row is in the block of its program. -/
theorem row_eq (S : Shape) (row : ℕ) : row / S.blockM * S.blockM + S.inner row = row :=
  Nat.div_add_mod' row S.blockM

theorem div_row {pid : ℕ} (r : Fin S.blockM) : (pid * S.blockM + r) / S.blockM = pid := by
  rw [Nat.mul_comm, Nat.mul_add_div S.blockM_pos, Nat.div_eq_of_lt r.isLt, Nat.add_zero]

theorem inner_row {pid : ℕ} (r : Fin S.blockM) : S.inner (pid * S.blockM + r) = r :=
  Fin.ext (Nat.mul_add_mod_of_lt r.isLt)

theorem program_lt {row : ℕ} (h : row < S.rows) : row / S.blockM < S.programs := by
  rw [Shape.programs, Nat.lt_div_iff_mul_lt S.blockM_pos]
  have hpos := S.blockM_pos
  have hmod := Nat.div_mul_le_self row S.blockM
  omega

/-- **What the one walk promises**, for programs that run in some order: passed through the
reduce as a single slice the stored totals are the bits of the stock path, in every row and
column and whatever lane holds the sum of squares; and nothing else is stored. -/
structure Exact (A : Arith) (S : Shape) (x w : ℕ → ℕ → Fp32) (order : List ℕ)
    (mixes sq : ℕ → Fp32) : Prop where
  mix_eq : ∀ m < S.rows, ∀ n : Fin 32, (n : ℕ) < mix →
    reduce A 1 (fun _ => mixAfter A S x w order mixes (m * mix + n)) = stockMixOut A S x w m n
  sq_eq : ∀ m < S.rows, ∀ warp lane,
    reduce A 1 (fun _ => sqAfter A S x w order sq m) = stockSqOut A S x warp lane m
  mix_stores : ∀ pid, ∀ p ∈ mixStores A S x w pid, ∃ m < S.rows, ∃ n < mix, p.1 = m * mix + n
  mix_rest : ∀ a, (∀ m < S.rows, ∀ n < mix, a ≠ m * mix + n) →
    mixAfter A S x w order mixes a = mixes a
  sq_rest : ∀ a, S.rows ≤ a → sqAfter A S x w order sq a = sq a

theorem mixStores_address {pid : ℕ} {p : ℕ × Fp32} (hp : p ∈ mixStores A S x w pid) :
    ∃ m < S.rows, ∃ n < mix, p.1 = m * mix + n := by
  obtain ⟨r, n, ⟨hrow, hn⟩, rfl⟩ := mem_mixStores.mp hp
  exact ⟨_, hrow, n, hn, rfl⟩

/-- The stored total of a row and column. -/
theorem mixAfter_eq {order : List ℕ} (horder : order.Perm (List.range S.programs))
    (mixes : ℕ → Fp32) {m : ℕ} (hm : m < S.rows) {n : Fin 32} (hn : (n : ℕ) < mix) :
    mixAfter A S x w order mixes (m * mix + n) =
      (walk A S x w (m / S.blockM)).tot (S.inner m) n := by
  refine store_of_mem mixes ?_ fun p hp haddr => ?_
  · refine List.mem_flatMap.mpr ⟨m / S.blockM, ?_, mem_mixStores.mpr ⟨S.inner m, n, ?_, ?_⟩⟩
    · exact horder.mem_iff.mpr (List.mem_range.mpr (program_lt hm))
    · rw [row_eq]
      exact ⟨hm, hn⟩
    · rw [row_eq]
  · obtain ⟨pid, -, hp⟩ := List.mem_flatMap.mp hp
    obtain ⟨r, n', ⟨-, hn'⟩, rfl⟩ := mem_mixStores.mp hp
    dsimp only at haddr ⊢
    -- the address tells the row and the column
    have haddr24 : (pid * S.blockM + r) * 24 + n' = m * 24 + n := haddr
    have hn24 : (n : ℕ) < 24 := hn
    have hn24' : (n' : ℕ) < 24 := hn'
    have hcol : (n' : ℕ) = n := by omega
    obtain rfl : pid * S.blockM + r = m := by omega
    rw [div_row, inner_row, Fin.ext hcol]

theorem sqAfter_eq {order : List ℕ} (horder : order.Perm (List.range S.programs))
    (sq : ℕ → Fp32) {m : ℕ} (hm : m < S.rows) :
    sqAfter A S x w order sq m = (walk A S x w (m / S.blockM)).sqt (S.inner m) := by
  refine store_of_mem sq ?_ fun p hp haddr => ?_
  · refine List.mem_flatMap.mpr ⟨m / S.blockM, ?_, mem_sqStores.mpr ⟨S.inner m, ?_, ?_⟩⟩
    · exact horder.mem_iff.mpr (List.mem_range.mpr (program_lt hm))
    · rw [row_eq]
      exact hm
    · rw [row_eq]
  · obtain ⟨pid, -, hp⟩ := List.mem_flatMap.mp hp
    obtain ⟨r, -, rfl⟩ := mem_sqStores.mp hp
    dsimp only at haddr ⊢
    subst haddr
    rw [div_row, inner_row]

/-- A sum of which only the rules for zeros are known; any other is a NaN. -/
def ruledAdd (x y : Fp32) : Fp32 :=
  if x = negZero then y else if y = negZero then x
  else if x = zero then y else if y = zero then x
  else if x ^^^ y = negZero then zero else 0x7fc00000#32

theorem ruledAdd_comm (x y : Fp32) : ruledAdd x y = ruledAdd y x := by
  unfold ruledAdd
  rw [BitVec.xor_comm y x]
  split_ifs <;> simp_all

theorem ruledAdd_sub_self (x : Fp32) : ruledAdd x (x ^^^ negZero) = zero := by
  have hxor : x ^^^ (x ^^^ negZero) = negZero := by
    rw [← BitVec.xor_assoc, BitVec.xor_self, BitVec.zero_xor]
  have hx : x = x ^^^ negZero ^^^ negZero := by
    rw [BitVec.xor_assoc, BitVec.xor_self, BitVec.xor_zero]
  unfold ruledAdd
  by_cases hneg : x = negZero
  · rw [if_pos hneg, hneg]
    rfl
  rw [if_neg hneg]
  by_cases hzero : x = zero
  · rw [hzero]
    rfl
  have hne : x ^^^ negZero ≠ negZero := fun h => hzero (by rw [hx, h]; rfl)
  have hne' : x ^^^ negZero ≠ zero := fun h => hneg (by rw [hx, h]; rfl)
  rw [if_neg hne, if_neg hzero, if_neg hne', if_pos hxor]

/-- An arithmetic with nothing but the rules: a dot that they do not determine counts one more
than its accumulator. -/
def ruled : Arith where
  add := ruledAdd
  sub x y := ruledAdd x (y ^^^ negZero)
  mul _ _ := zero
  dot a b acc := if a.IsZero ∧ b.IsFinite ∨ b.IsZero ∧ a.IsFinite then acc
    else fun i j => acc i j + 1#32
  add_comm := ruledAdd_comm
  add_zero x hx := by
    unfold ruledAdd
    split_ifs <;> simp_all [zero_ne_negZero]
  add_negZero x := by
    unfold ruledAdd
    split_ifs <;> simp_all
  eq_of_add_eq_negZero x y h := by
    have hnan : (0x7fc00000#32 : Fp32) ≠ negZero := by decide
    unfold ruledAdd at h
    split_ifs at h <;> simp_all [zero_ne_negZero]
  sub_self x _ := ruledAdd_sub_self x
  dot_zero _ _ _ h := if_pos h

/-- One row, one slice, one chunk. -/
def oneChunk : Shape := ⟨1, 1, 1, 1, Nat.one_pos⟩

theorem activations_const {v : Fp32} (h : Finite v ∧ Bf16 v) (S : Shape) :
    Activations S fun _ _ => v := fun _ _ _ _ => h

theorem weights_const {v : Fp32} (h : Finite (tf32Rna v)) (S : Shape) : Weights S fun _ _ => v :=
  fun _ _ _ _ => h

end HcFused

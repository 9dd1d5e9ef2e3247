import SparkTP4.BlockVerifyFold
import Mathlib.Algebra.Order.Field.Rat
import Mathlib.Data.List.FinRange
import Mathlib.Data.List.Range

/-!
# The three passes decide like the tensor operations

Every vector of a kernel is compared lane by lane with the tensor that it recomputes. A pick
is the picked lane whatever the order of the sum (`pick_eq`), so the loop over the weights
has, after `n` turns, the first `n` weights in its lanes (`foldl_wStep`); the masked lanes
never decide, since they are not alive. The stores of a grid are the elements of a tensor at
their addresses (`launch_eq`), so each of the three reductions gets the tensor that it gets
without the kernels.
-/

namespace BlockVerifyFold

variable {K : Type}

/-! ## Memories -/

section memory

variable {m n b i x : ℕ}

theorem contiguous2_apply (t : ℕ → ℕ → K) (hx : x < n) : contiguous2 n t (b * n + x) = t b x := by
  unfold contiguous2
  rw [Nat.add_comm, Nat.add_mul_div_right _ _ (Nat.zero_lt_of_lt hx), Nat.div_eq_of_lt hx,
    Nat.zero_add, Nat.add_mul_mod_self_right, Nat.mod_eq_of_lt hx]

theorem contiguous3_apply (t : ℕ → ℕ → ℕ → K) (hi : i < m) (hx : x < n) :
    contiguous3 m n t ((b * m + i) * n + x) = t b i x := by
  have hrow := contiguous2_apply (b := b * m + i) (fun r x => t (r / m) (r % m) x) hx
  have hcol := contiguous2_apply (b := b) (fun b i => t b i x) hi
  exact hrow.trans hcol

end memory

/-- **What a grid has stored**: elements of a tensor at their addresses. -/
theorem launch_eq {α : Type} {D : Device K} {bs nch p : ℕ} {empty : ℕ → α}
    {stores : ℕ → ℕ → List (ℕ × α)} (F : ℕ → α)
    (hvalue : ∀ b < bs, ∀ c < nch, ∀ st ∈ stores b c, st.2 = F st.1)
    (hstored : ∃ b < bs, ∃ c < nch, ∃ v, (p, v) ∈ stores b c) :
    launch D bs nch empty stores p = F p := by
  have hmem : ∀ st : ℕ × α, st ∈ D.order ((List.range bs).flatMap fun b =>
      (List.range nch).flatMap fun c => stores b c) ↔ ∃ b < bs, ∃ c < nch, st ∈ stores b c := by
    intro st
    rw [(D.order_perm _).mem_iff]
    simp only [List.mem_flatMap, List.mem_range]
  refine GridLoop.writeAll_of_mem _ F (fun st hst => ?_) ?_
  · obtain ⟨b, hb, c, hc, hst⟩ := (hmem st).mp hst
    exact hvalue b hb c hc st hst
  · obtain ⟨b, hb, c, hc, v, hv⟩ := hstored
    exact List.mem_map.mpr ⟨(p, v), (hmem _).mpr ⟨b, hb, c, hc, hv⟩, rfl⟩

theorem mem_chunkStores {α : Type} {CH V c : ℕ} {store : ℕ → ℕ × α} {st : ℕ × α} :
    st ∈ chunkStores CH V c store ↔ ∃ o < CH, c * CH + o < V ∧ store (c * CH + o) = st := by
  unfold chunkStores
  rw [List.mem_filterMap]
  refine exists_congr fun o => and_congr List.mem_range ?_
  rw [Option.ite_none_right_eq_some, Option.some_inj]

/-! ## Sizes -/

theorem le_pow2Loop {n : ℕ} : ∀ {fuel p : ℕ}, 0 < p → n ≤ p + fuel → n ≤ pow2Loop n fuel p
  | 0, p, _, h => h
  | fuel + 1, p, hp, h => by
    unfold pow2Loop
    split_ifs with hlt
    · exact le_pow2Loop (Nat.mul_pos hp (by decide)) (by omega)
    · exact Nat.not_lt.mp hlt

theorem pow2Loop_pos {n : ℕ} : ∀ {fuel p : ℕ}, 0 < p → 0 < pow2Loop n fuel p
  | 0, _, hp => hp
  | fuel + 1, p, hp => by
    unfold pow2Loop
    split_ifs
    · exact pow2Loop_pos (Nat.mul_pos hp (by decide))
    · exact hp

theorem le_pow2 (n : ℕ) : n ≤ pow2 n := le_pow2Loop Nat.one_pos (Nat.le_add_left n 1)

section sizes

variable {a : Batch K} {CHUNK x : ℕ}

theorem chunk_pos (hchunk : 0 < CHUNK) : 0 < chunk a CHUNK :=
  Nat.lt_min.mpr ⟨hchunk, pow2Loop_pos Nat.one_pos⟩

/-- Every entry of the vocabulary is in the chunk of a program. -/
theorem exists_chunk (hchunk : 0 < CHUNK) (hx : x < a.V) :
    x / chunk a CHUNK < chunks a CHUNK ∧ x % chunk a CHUNK < chunk a CHUNK ∧
      x / chunk a CHUNK * chunk a CHUNK + x % chunk a CHUNK = x := by
  have hpos := chunk_pos (a := a) hchunk
  refine ⟨?_, Nat.mod_lt _ hpos, Nat.div_add_mod' _ _⟩
  unfold chunks
  refine (Nat.div_lt_iff_lt_mul hpos).mpr (Nat.lt_of_lt_of_le hx ?_)
  have hdiv := Nat.div_add_mod' (a.V + chunk a CHUNK - 1) (chunk a CHUNK)
  have hmod := Nat.mod_lt (a.V + chunk a CHUNK - 1) hpos
  omega

/-- A program stores an entry of the vocabulary. -/
theorem exists_mem_chunkStores {α : Type} (hchunk : 0 < CHUNK) (hx : x < a.V) (store : ℕ → ℕ × α) :
    ∃ c < chunks a CHUNK, store x ∈ chunkStores (chunk a CHUNK) a.V c store := by
  obtain ⟨hc, ho, hsum⟩ := exists_chunk hchunk hx
  exact ⟨_, hc, mem_chunkStores.mpr ⟨_, ho, hsum.symm ▸ hx, congrArg store hsum⟩⟩

/-- **A matrix over the vocabulary** that a grid has stored. -/
theorem launch_matrix {α : Type} {D : Device K} {empty : ℕ → α} {b : ℕ} {store : ℕ → ℕ → ℕ × α}
    (F : ℕ → ℕ → α) (hchunk : 0 < CHUNK)
    (hstore : ∀ b < a.bs, ∀ x < a.V, store b x = (b * a.V + x, F b x)) (hb : b < a.bs)
    (hx : x < a.V) : launch D a.bs (chunks a CHUNK) empty
      (fun b c => chunkStores (chunk a CHUNK) a.V c (store b)) (b * a.V + x) = F b x := by
  refine Eq.trans (launch_eq (contiguous2 a.V F) (fun b hb c _ st hst => ?_) ?_)
    (contiguous2_apply _ hx)
  · obtain ⟨o, -, hoffs, rfl⟩ := mem_chunkStores.mp hst
    rw [hstore b hb _ hoffs]
    exact (contiguous2_apply _ hoffs).symm
  · obtain ⟨c, hc, hmem⟩ := exists_mem_chunkStores hchunk hx (store b)
    rw [hstore b hb x hx] at hmem
    exact ⟨b, hb, c, hc, F b x, hmem⟩

end sizes

/-! ## Lanes -/

section lanes

variable {A : Arith K} {D : Device K} {k : Args K} {b i : ℕ}

/-- The vectors have a lane for every draft. -/
def Args.Fits (k : Args K) : Prop := 0 < k.GP ∧ k.G ≤ k.GP

theorem nodup_lanes (hfits : k.Fits) : (D.tree k.GP).lanes.Nodup :=
  (D.tree_lanes k.GP hfits.1).nodup_iff.mpr List.nodup_range

theorem mem_lanes (hfits : k.Fits) : i ∈ (D.tree k.GP).lanes ↔ i < k.GP :=
  (D.tree_lanes k.GP hfits.1).mem_iff.trans List.mem_range

/-- **A pick is the picked lane.** -/
theorem pick_eq (hA : A.Lawful) (hfits : k.Fits) (v : ℕ → K) (hi : i < k.GP) :
    pick A D k v i = v i := by
  unfold pick tlSum
  rw [ReduceTree.reduce_single A.add hA.add_zero hA.zero_add (nodup_lanes hfits)
    ((mem_lanes hfits).mpr hi) fun j _ hj => if_neg hj]
  exact if_pos rfl

theorem lt_of_aliveLanes (h : aliveLanes k b i = true) : i < k.G := by
  unfold aliveLanes at h
  cases hlive : k.LIVE with
  | none =>
    rw [hlive] at h
    exact of_decide_eq_true h
  | some live =>
    rw [hlive] at h
    exact of_decide_eq_true (Bool.and_eq_true_iff.mp h).1

/-- **A lane of `alive` as a number.** -/
theorem aliveOne_eq (hA : A.Lawful) (hfits : k.Fits) (b i : ℕ) :
    aliveOne A D k b i = if aliveLanes k b i then A.one else A.zero := by
  unfold aliveOne tlSum
  split_ifs with halive
  · have hi : i < k.GP := Nat.lt_of_lt_of_le (lt_of_aliveLanes halive) hfits.2
    rw [ReduceTree.reduce_single A.add hA.add_zero hA.zero_add (nodup_lanes hfits)
      ((mem_lanes hfits).mpr hi) fun j _ hj => if_neg fun h => hj h.1]
    exact if_pos ⟨rfl, halive⟩
  · refine ReduceTree.reduce_neutral A.add hA.add_zero fun j _ => if_neg ?_
    rintro ⟨rfl, h⟩
    exact halive h

end lanes

/-! ## The scalars of a request -/

/-- The live lengths that `fold` is given: those of the verification less `live_sub`. -/
def liveLengths (live : Option (ℕ → ℤ)) (liveSub : ℤ) : Option (ℕ → ℤ) :=
  live.map fun l b => l b - liveSub

/-- **A batch**: there is a draft, and the drafts are tokens of the vocabulary. -/
structure Batch.Valid (a : Batch K) : Prop where
  g_pos : 0 < a.g
  token_lt : ∀ b < a.bs, ∀ i < a.g, a.token b i < a.V

section scalars

variable {A : Arith K} {D : Device K} {a : Batch K} {live : Option (ℕ → ℤ)} {liveSub : ℤ} {b i : ℕ}

theorem fits_foldArgs : (foldArgs a live liveSub).Fits := by
  have hle : a.g + 1 ≤ max 2 (pow2 (a.g + 1)) := (le_pow2 _).trans (Nat.le_max_right _ _)
  exact ⟨Nat.lt_of_lt_of_le Nat.two_pos (Nat.le_max_left _ _), (Nat.le_succ a.g).trans hle⟩

theorem lane_lt (hi : i < a.g) : i < (foldArgs a live liveSub).GP :=
  Nat.lt_of_lt_of_le hi fits_foldArgs.2

theorem aliveLanes_eq (hi : i < a.g) :
    aliveLanes (foldArgs a live liveSub) b i = alive (liveLengths live liveSub) b i := by
  have hlane : decide (i < a.g) = true := decide_eq_true hi
  cases live with
  | none => exact hlane
  | some l =>
    show (decide (i < a.g) && _) = _
    rw [hlane, Bool.true_and]
    rfl

theorem ratioLanes_of_lt {k : Args K} (hi : i < k.G) :
    ratioLanes A k b i = if aliveLanes k b i then
      A.div (k.TP ((b * (k.G + 1) + i) * k.V + k.X (b * k.sxb + i * k.sxg)))
        (A.maximum (k.DP ((b * k.G + i) * k.V + k.X (b * k.sxb + i * k.sxg))) A.tiny)
      else A.zero := by
  unfold ratioLanes load
  simp only [decide_eq_true hi, if_true]

theorem ratioLanes_eq (hvalid : a.Valid) (hb : b < a.bs) (hi : i < a.g) :
    ratioLanes A (foldArgs a live liveSub) b i = ratio A a (liveLengths live liveSub) b i := by
  have htoken := hvalid.token_lt b hb i hi
  have hp : (foldArgs a live liveSub).TP ((b * (a.g + 1) + i) * a.V + a.token b i) =
      a.targetProbs b i (a.token b i) := contiguous3_apply _ (Nat.lt_succ_of_lt hi) htoken
  have hq : (foldArgs a live liveSub).DP ((b * a.g + i) * a.V + a.token b i) =
      a.draftProbs b i (a.token b i) := contiguous3_apply _ hi htoken
  refine (ratioLanes_of_lt (k := foldArgs a live liveSub) hi).trans ?_
  show (if _ then A.div ((foldArgs a live liveSub).TP ((b * (a.g + 1) + i) * a.V + a.token b i))
    (A.maximum ((foldArgs a live liveSub).DP ((b * a.g + i) * a.V + a.token b i)) A.tiny)
    else A.zero) = _
  rw [aliveLanes_eq hi, hp, hq]
  cases live with
  | none => exact if_pos rfl
  | some l => rfl

/-- **The loop over the weights**, after `n` turns. -/
theorem foldl_wStep (hA : A.Lawful) (hvalid : a.Valid) (hb : b < a.bs) : ∀ n ≤ a.g,
    (List.range n).foldl (wStep A D (foldArgs a live liveSub) b) (A.one, fun _ => A.zero) =
      (w A a (liveLengths live liveSub) b n,
        fun gi => if gi < n then w A a (liveLengths live liveSub) b (gi + 1) else A.zero)
  | 0, _ => rfl
  | n + 1, hn => by
    have hcur : A.minimum (A.mul (w A a (liveLengths live liveSub) b n)
        (pick A D (foldArgs a live liveSub) (ratioLanes A (foldArgs a live liveSub) b) n)) A.one =
          w A a (liveLengths live liveSub) b (n + 1) := by
      rw [pick_eq hA fits_foldArgs _ (lane_lt hn), ratioLanes_eq hvalid hb hn]
      rfl
    rw [List.range_succ, List.foldl_append, foldl_wStep hA hvalid hb n (Nat.le_of_succ_le hn)]
    show wStep A D _ b _ n = _
    unfold wStep
    dsimp only
    rw [hcur]
    refine Prod.ext rfl (funext fun gi => ?_)
    dsimp only
    -- lane `n` is new, the lanes before it are kept
    split_ifs with heq hlt hlt' <;> first | omega | rfl | rw [heq]

theorem wLanes_eq (hA : A.Lawful) (hvalid : a.Valid) (hb : b < a.bs) (hi : i < a.g) :
    wLanes A D (foldArgs a live liveSub) b i = w A a (liveLengths live liveSub) b (i + 1) := by
  unfold wLanes
  rw [show (foldArgs a live liveSub).G = a.g from rfl, foldl_wStep hA hvalid hb a.g le_rfl]
  exact if_pos hi

theorem pick_wLanes (hA : A.Lawful) (hvalid : a.Valid) (hb : b < a.bs) (hi : i < a.g) :
    pick A D (foldArgs a live liveSub) (wLanes A D (foldArgs a live liveSub) b) i =
      w A a (liveLengths live liveSub) b (i + 1) :=
  (pick_eq hA fits_foldArgs _ (lane_lt hi)).trans (wLanes_eq hA hvalid hb hi)

/-- **The draft row of a kernel**: its mask is the number of the lane. -/
theorem maskedRow_eq (hA : A.Lawful) {x : ℕ} (hi : i < a.g) (hx : x < a.V) :
    (if (foldArgs a live liveSub).LIVE.isSome then
        A.mul ((foldArgs a live liveSub).DP ((b * a.g + i) * a.V + x))
          (aliveOne A D (foldArgs a live liveSub) b i)
      else (foldArgs a live liveSub).DP ((b * a.g + i) * a.V + x)) =
      maskedDraft A a (liveLengths live liveSub) b i x := by
  have hq : (foldArgs a live liveSub).DP ((b * a.g + i) * a.V + x) = a.draftProbs b i x :=
    contiguous3_apply _ hi hx
  rw [hq, aliveOne_eq hA fits_foldArgs, aliveLanes_eq hi]
  cases live with
  | none => exact if_neg (Bool.false_ne_true)
  | some l => exact if_pos rfl

end scalars

/-! ## The passes -/

section passes

variable {A : Arith K} {D : Device K} {a : Batch K} {R : Reductions K a.bs a.g a.V} {CHUNK : ℕ}
  {live : Option (ℕ → ℤ)} {liveSub : ℤ} {b i x : ℕ}

/-- **The first pass** stores the terms of `s`. -/
theorem foldTerms_eq (hA : A.Lawful) (hvalid : a.Valid) (hchunk : 0 < CHUNK) (hb : b < a.bs)
    (hi : i < a.g - 1) (hx : x < a.V) :
    foldTerms A D a CHUNK live liveSub ((b * (a.g - 1) + i) * a.V + x) =
      terms A a (liveLengths live liveSub) b i x := by
  have hstore : ∀ b < a.bs, ∀ i < a.g - 1, ∀ x < a.V,
      A.maximum (A.sub (A.mul (pick A D (foldArgs a live liveSub)
          (wLanes A D (foldArgs a live liveSub) b) i)
        ((foldArgs a live liveSub).TP ((b * (a.g + 1) + (i + 1)) * a.V + x)))
        (if (foldArgs a live liveSub).LIVE.isSome then
            A.mul ((foldArgs a live liveSub).DP ((b * a.g + (i + 1)) * a.V + x))
              (aliveOne A D (foldArgs a live liveSub) b (i + 1))
          else (foldArgs a live liveSub).DP ((b * a.g + (i + 1)) * a.V + x))) A.zero =
        terms A a (liveLengths live liveSub) b i x := by
    intro b hb i hi x hx
    have hi' : i + 1 < a.g := Nat.add_lt_of_lt_sub hi
    have ht : (foldArgs a live liveSub).TP ((b * (a.g + 1) + (i + 1)) * a.V + x) =
        a.targetProbs b (i + 1) x := contiguous3_apply _ (Nat.lt_succ_of_lt hi') hx
    rw [pick_wLanes hA hvalid hb (Nat.lt_of_succ_lt hi'), ht, maskedRow_eq hA hi' hx]
    rfl
  refine Eq.trans (launch_eq (contiguous3 (a.g - 1) a.V
    (terms A a (liveLengths live liveSub))) (fun b hb c _ st hst => ?_) ?_)
    (contiguous3_apply _ hi hx)
  · obtain ⟨i, hi, hst⟩ := List.mem_flatMap.mp hst
    have hi := List.mem_range.mp hi
    obtain ⟨o, -, hoffs, rfl⟩ := mem_chunkStores.mp hst
    exact (hstore b hb i hi _ hoffs).trans (contiguous3_apply _ hi hoffs).symm
  · obtain ⟨c, hc, hmem⟩ := exists_mem_chunkStores hchunk hx _
    exact ⟨b, hb, c, hc, _, List.mem_flatMap.mpr ⟨i, List.mem_range.mpr hi, hmem⟩⟩

/-- **The sums of the terms** are the same sums. -/
theorem foldS_eq (hA : A.Lawful) (hvalid : a.Valid) (hchunk : 0 < CHUNK) (hi : i < a.g - 1) :
    foldS A D a R CHUNK live liveSub (b * (a.g - 1) + i) =
      s A a R (liveLengths live liveSub) b i := by
  have hg : 1 < a.g := Nat.lt_of_sub_pos (Nat.zero_lt_of_lt hi)
  unfold foldS
  rw [if_pos hg, contiguous2_apply _ hi]
  refine congrFun (congrFun (congrArg R.sumTerms ?_) b) i
  funext b i x
  exact foldTerms_eq hA hvalid hchunk b.isLt i.isLt x.isLt

theorem hLanes_eq (hA : A.Lawful) (hvalid : a.Valid) (hchunk : 0 < CHUNK) (hb : b < a.bs)
    (hi : i < a.g) :
    hLanes A D (foldArgs a live liveSub) (foldS A D a R CHUNK live liveSub) b i =
      h A a R (liveLengths live liveSub) b i := by
  unfold hLanes h
  rw [wLanes_eq hA hvalid hb hi, show (foldArgs a live liveSub).G = a.g from rfl]
  by_cases hlast : i = a.g - 1
  · rw [if_pos hlast, if_pos hlast]
  · have hlt : i < a.g - 1 := by omega
    have hload : load (foldS A D a R CHUNK live liveSub) (b * (a.g - 1) + i)
        (decide (i < a.g - 1)) A.zero = s A a R (liveLengths live liveSub) b i :=
      (if_pos (decide_eq_true hlt)).trans (foldS_eq hA hvalid hchunk hlt)
    rw [if_neg hlast, if_neg hlast, hload]

theorem foldr_max_append_zero {l m : List ℕ} (hm : ∀ n ∈ m, n = 0) :
    (l ++ m).foldr max 0 = l.foldr max 0 := by
  have hzero : m.foldr max 0 = 0 := by
    induction m with
    | nil => rfl
    | cons n m ih =>
      rw [List.foldr_cons, ih fun k hk => hm k (List.mem_cons_of_mem n hk), hm n List.mem_cons_self]
      rfl
  rw [List.foldr_append, hzero]

/-- **The accepted length**: the lanes from `g` on are not alive. -/
theorem decideTau_eq (hA : A.Lawful) (hvalid : a.Valid) (hchunk : 0 < CHUNK) (hb : b < a.bs) :
    decideTau A D (foldArgs a live liveSub) (contiguous2 a.g a.eta)
      (foldS A D a R CHUNK live liveSub) b = tau A a R (liveLengths live liveSub) b := by
  have hfits : (foldArgs a live liveSub).Fits := fits_foldArgs
  obtain ⟨m, hm⟩ := Nat.exists_eq_add_of_le hfits.2
  unfold decideTau tau
  rw [hm, List.range_add, List.map_append, foldr_max_append_zero fun n hn => ?_]
  · refine congrArg (List.foldr max 0) (List.map_congr_left fun i hi => ?_)
    have hi : i < a.g := List.mem_range.mp hi
    have heta : load (contiguous2 a.g a.eta) (b * (foldArgs a live liveSub).G + i)
        (decide (i < (foldArgs a live liveSub).G)) A.two = a.eta b i :=
      (if_pos (decide_eq_true hi)).trans (contiguous2_apply _ hi)
    dsimp only
    rw [heta, hLanes_eq hA hvalid hchunk hb hi, aliveLanes_eq hi]
    rfl
  · obtain ⟨gi, hgi, rfl⟩ := List.mem_map.mp hn
    obtain ⟨j, -, rfl⟩ := List.mem_map.mp hgi
    refine if_neg fun hok => ?_
    exact Nat.not_lt.mpr (Nat.le_add_right _ j) (lt_of_aliveLanes (Bool.and_eq_true_iff.mp hok).2)

theorem foldr_max_le {l : List ℕ} {n : ℕ} (hl : ∀ k ∈ l, k ≤ n) : l.foldr max 0 ≤ n := by
  induction l with
  | nil => exact Nat.zero_le n
  | cons k l ih =>
    exact Nat.max_le.mpr ⟨hl k List.mem_cons_self, ih fun j hj => hl j (List.mem_cons_of_mem k hj)⟩

theorem tau_le {live : Option (ℕ → ℤ)} (b : ℕ) : tau A a R live b ≤ a.g := by
  refine foldr_max_le fun n hn => ?_
  obtain ⟨i, hi, rfl⟩ := List.mem_map.mp hn
  have hi := List.mem_range.mp hi
  split_ifs
  · exact hi
  · exact Nat.zero_le _

theorem decideWt_eq (hA : A.Lawful) (hvalid : a.Valid) (hchunk : 0 < CHUNK) (hb : b < a.bs) :
    decideWt A D (foldArgs a live liveSub) (contiguous2 a.g a.eta)
      (foldS A D a R CHUNK live liveSub) b =
      w A a (liveLengths live liveSub) b (tau A a R (liveLengths live liveSub) b) := by
  have hle : tau A a R (liveLengths live liveSub) b ≤ a.g := tau_le b
  unfold decideWt
  rw [decideTau_eq hA hvalid hchunk hb]
  cases htau : tau A a R (liveLengths live liveSub) b with
  | zero => rfl
  | succ t =>
    rw [htau] at hle
    exact (if_neg (Nat.succ_ne_zero t)).trans (pick_wLanes hA hvalid hb hle)

/-- **The padded draft row**: behind the last draft the load and the mask are zero. -/
theorem paddedRow_eq (hA : A.Lawful) (t : ℕ) (hx : x < a.V) :
    (if (foldArgs a live liveSub).LIVE.isSome then
        A.mul (load (foldArgs a live liveSub).DP ((b * a.g + t) * a.V + x) (t < a.g) A.zero)
          (aliveOne A D (foldArgs a live liveSub) b t)
      else load (foldArgs a live liveSub).DP ((b * a.g + t) * a.V + x) (t < a.g) A.zero) =
      qPad A a (liveLengths live liveSub) b t x := by
  unfold qPad load
  by_cases hlt : t < a.g
  · simp only [hlt, decide_true, if_true]
    exact maskedRow_eq hA hlt hx
  · simp only [hlt, decide_false, Bool.false_eq_true, if_false, hA.zero_mul, ite_self]

/-- **The second pass** stores the residual. -/
theorem foldRes_eq (hA : A.Lawful) (hvalid : a.Valid) (hchunk : 0 < CHUNK) (hb : b < a.bs)
    (hx : x < a.V) : foldRes A D a R CHUNK live liveSub (b * a.V + x) =
      res A a R (liveLengths live liveSub) b x := by
  refine launch_matrix _ hchunk (fun b hb x hx => Prod.ext rfl ?_) hb hx
  have hle : tau A a R (liveLengths live liveSub) b ≤ a.g := tau_le b
  have hp : (foldArgs a live liveSub).TP ((b * (a.g + 1) +
      tau A a R (liveLengths live liveSub) b) * a.V + x) =
      a.targetProbs b (tau A a R (liveLengths live liveSub) b) x :=
    contiguous3_apply _ (Nat.lt_succ_of_le hle) hx
  have hq : _ = qPad A a (liveLengths live liveSub) b (tau A a R (liveLengths live liveSub) b) x :=
    paddedRow_eq (D := D) hA (tau A a R (liveLengths live liveSub) b) hx
  unfold resStore res
  dsimp only
  rw [← hp, ← hq, decideTau_eq hA hvalid hchunk hb, decideWt_eq hA hvalid hchunk hb]
  rfl

/-- The second pass stores the accepted lengths. -/
theorem foldTau_eq (hA : A.Lawful) (hvalid : a.Valid) (hchunk : 0 < CHUNK) (hb : b < a.bs) :
    foldTau A D a R CHUNK live liveSub b = tau A a R (liveLengths live liveSub) b := by
  have hV : 0 < a.V := Nat.zero_lt_of_lt (hvalid.token_lt b hb 0 hvalid.g_pos)
  obtain ⟨hc, -, -⟩ := exists_chunk hchunk hV
  refine launch_eq (tau A a R (liveLengths live liveSub)) (fun b hb c _ st hst => ?_)
    ⟨b, hb, 0, Nat.zero_lt_of_lt hc, _, List.mem_singleton_self _⟩
  unfold tauStores at hst
  split_ifs at hst
  · rw [List.mem_singleton.mp hst]
    exact decideTau_eq hA hvalid hchunk hb
  · exact absurd hst List.not_mem_nil

/-- **The third pass** stores the keys. -/
theorem foldKeys_eq (hA : A.Lawful) (hvalid : a.Valid) (hchunk : 0 < CHUNK) (hb : b < a.bs)
    (hx : x < a.V) : foldKeys A D a R CHUNK live liveSub (b * a.V + x) =
      keys A a R (liveLengths live liveSub) b x := by
  have hmass : (R.sumRes fun b x => foldRes A D a R CHUNK live liveSub (b * a.V + x)) =
      mass A a R (liveLengths live liveSub) := by
    refine congrArg R.sumRes ?_
    funext b x
    exact foldRes_eq hA hvalid hchunk b.isLt x.isLt
  refine launch_matrix _ hchunk (fun b hb x hx => Prod.ext rfl ?_) hb hx
  have hle : tau A a R (liveLengths live liveSub) b ≤ a.g := tau_le b
  have hp : (foldArgs a live liveSub).TP ((b * (a.g + 1) +
      tau A a R (liveLengths live liveSub) b) * a.V + x) =
      a.targetProbs b (tau A a R (liveLengths live liveSub) b) x :=
    contiguous3_apply _ (Nat.lt_succ_of_le hle) hx
  have hr : foldRes A D a R CHUNK live liveSub (b * a.V + x) =
      res A a R (liveLengths live liveSub) b x := foldRes_eq hA hvalid hchunk hb hx
  have hgum : contiguous2 a.V a.gumbel (b * a.V + x) = a.gumbel b x := contiguous2_apply _ hx
  unfold keysStore keys
  dsimp only
  rw [hmass, foldTau_eq hA hvalid hchunk hb, ← hp, ← hr, ← hgum]
  rfl

end passes

/-- **The fold is block verification**: whatever the operations are, in whatever order the device
adds and stores, and whatever the live lengths, `fold` returns the accepted lengths and the
correction tokens of `block_accept_probs`. -/
theorem fold_eq (A : Arith K) (hA : A.Lawful) (D : Device K) (a : Batch K) (hvalid : a.Valid)
    (R : Reductions K a.bs a.g a.V) (CHUNK : ℕ) (hchunk : 0 < CHUNK) (live : Option (ℕ → ℤ))
    (liveSub : ℤ) :
    (∀ b < a.bs, (fold A D a R CHUNK live liveSub).1 b =
      (blockAcceptProbs A a R (liveLengths live liveSub)).1 b) ∧
    (fold A D a R CHUNK live liveSub).2 = (blockAcceptProbs A a R (liveLengths live liveSub)).2 := by
  refine ⟨fun b hb => foldTau_eq hA hvalid hchunk hb, congrArg R.argmax ?_⟩
  funext b x
  exact foldKeys_eq hA hvalid hchunk b.isLt x.isLt

/-! ## A batch of two requests -/

/-- The operations on rationals. -/
def ratArith : Arith ℚ where
  add := (· + ·)
  sub := (· - ·)
  mul := (· * ·)
  div := (· / ·)
  minimum := min
  maximum := max
  zero := 0
  one := 1
  tiny := 1 / 10 ^ 30
  two := 2
  le x y := x ≤ y
  gt x y := y < x

/-- The lanes added up from the first on. -/
def chain : ℕ → ReduceTree
  | 0 => .leaf 0
  | n + 1 => .node (chain n) (.leaf (n + 1))

theorem lanes_chain : ∀ n, (chain n).lanes = List.range (n + 1)
  | 0 => rfl
  | n + 1 => by
    rw [List.range_succ, ← lanes_chain n]
    rfl

/-- A device that adds and stores in order. -/
def inOrder : Device ℚ where
  tree n := chain (n - 1)
  tree_lanes n hn := by rw [lanes_chain, Nat.sub_add_cancel hn]
  order l := l
  order_perm l := List.Perm.refl l
  empty _ := 7
  emptyTau _ := 9

/-- Two requests of two drafts over a vocabulary of three tokens. -/
def twoDrafts : Batch ℚ where
  bs := 2
  g := 2
  V := 3
  X p := p % 3
  sxb := 2
  sxg := 1
  targetProbs b i x := if x = (b + i) % 3 then 1 / 2 else 1 / 4
  draftProbs _ i x := if x = i then 1 / 2 else 1 / 4
  eta b i := (b + i + 1) / 4
  gumbel _ x := x + 1

/-- Sums over the vocabulary, and the first largest key. -/
def inVocabulary : Reductions ℚ 2 2 3 where
  sumTerms t b i := if h : b < 2 ∧ i < 1 then ((List.finRange 3).map (t ⟨b, h.1⟩ ⟨i, h.2⟩)).sum else 0
  sumRes t b := if h : b < 2 then ((List.finRange 3).map (t ⟨b, h⟩)).sum else 0
  argmax t b := if h : b < 2 then
      (((List.finRange 3).find? fun x =>
        (List.finRange 3).all fun y => t ⟨b, h⟩ y ≤ t ⟨b, h⟩ x).map Fin.val).getD 0
    else 0

theorem fold_eq_twoDrafts :
    (∀ b < 2, (fold ratArith inOrder twoDrafts inVocabulary 2 (some fun b => 4 * b) 1).1 b =
      (blockAcceptProbs ratArith twoDrafts inVocabulary
        (liveLengths (some fun b => 4 * b) 1)).1 b) ∧
    (fold ratArith inOrder twoDrafts inVocabulary 2 (some fun b => 4 * b) 1).2 =
      (blockAcceptProbs ratArith twoDrafts inVocabulary (liveLengths (some fun b => 4 * b) 1)).2 :=
  fold_eq ratArith ⟨add_zero, zero_add, zero_mul⟩ inOrder twoDrafts
    ⟨by decide, fun b _ i _ => Nat.mod_lt _ (by decide)⟩ inVocabulary 2 (by decide) _ 1

end BlockVerifyFold

import SparkTP4.BlockVerifyExecute
import SparkTP4.BlockVerifyLaw
import SparkTP4.ExponentialRace

/-!
# What the served text is sampled from

A call decides all requests of a batch, each from its own uniform and exponential draws. In exact
arithmetic the decisions of the requests are independent, and those of a request have the law of its
block: the accepted length that the tests leave, and a token of the residual there, which the race of
the keys draws (`execute_law`).

A request's text is written step by step: its block is drafted, a call of whatever batch decides, the
accepted drafts and the correction token are appended. After any number of steps the text is one that
the target alone would have written, with the target's probability (`generated_eq_target`).
-/

open MeasureTheory SequentialSampling

namespace BlockVerifyFold

variable {bs g V : ℕ}

/-! ## The draws -/

/-- The draws of a request: a uniform number for every draft, an exponential one for every token. -/
abbrev Draws (g V : ℕ) : Type := (Fin g → unitInterval) × (Fin V → ℝ)

/-- `torch.rand` and `exponential_`. -/
noncomputable def drawLaw (g V : ℕ) : Measure (Draws g V) :=
  (volume : Measure (Fin g → unitInterval)).prod (ExponentialRace.clocks V)

instance probability_drawLaw : IsProbabilityMeasure (drawLaw g V) :=
  inferInstanceAs (IsProbabilityMeasure (Measure.prod _ _))

/-- The draws of all requests. -/
noncomputable def batchLaw (bs g V : ℕ) : Measure (Fin bs → Draws g V) :=
  Measure.pi fun _ => drawLaw g V

/-- Events of different requests are independent. -/
theorem batchLaw_forall (E : Fin bs → Set (Draws g V)) :
    (batchLaw bs g V).real {ω | ∀ b, ω b ∈ E b} = ∏ b, (drawLaw g V).real (E b) := by
  have hset : {ω : Fin bs → Draws g V | ∀ b, ω b ∈ E b} = Set.pi Set.univ E := by
    ext ω
    rw [Set.mem_ofPred_eq, Set.mem_univ_pi]
  rw [hset, Measure.real, batchLaw, Measure.pi_pi, ENNReal.toReal_prod]
  rfl

/-- An event of one request. -/
theorem batchLaw_row (b : Fin bs) (E : Set (Draws g V)) :
    (batchLaw bs g V).real {ω | ω b ∈ E} = (drawLaw g V).real E := by
  have hset : {ω : Fin bs → Draws g V | ω b ∈ E} =
      {ω | ∀ r, ω r ∈ (if r = b then E else Set.univ)} := by
    ext ω
    refine ⟨fun h r => ?_, fun h => ?_⟩
    · split_ifs with hr
      · exact hr ▸ h
      · exact Set.mem_univ _
    · have hb := h b
      rwa [if_pos rfl] at hb
  rw [hset, batchLaw_forall, Finset.prod_eq_single b]
  · rw [if_pos rfl]
  · intro r _ hr
    rw [if_neg hr, probReal_univ]
  · exact fun h => absurd (Finset.mem_univ b) h

/-! ## The rows of a call -/

/-- An entry of a tensor's dimension of `n` places. -/
def atPlace {α : Type} {n : ℕ} (default : α) (f : Fin n → α) (i : ℕ) : α :=
  if h : i < n then f ⟨i, h⟩ else default

theorem atPlace_val {α : Type} {n : ℕ} {default : α} {f : Fin n → α} (i : Fin n) :
    atPlace default f i = f i :=
  dif_pos i.isLt

theorem atPlace_of_lt {α : Type} {n i : ℕ} {default : α} {f : Fin n → α} (hi : i < n) :
    atPlace default f i = f ⟨i, hi⟩ :=
  dif_pos hi

/-- **The requests of a call** and their drafts. All verify lengths are cut, or none. -/
structure Rows (bs g V : ℕ) [NeZero V] where
  request : Fin bs → BlockVerify.Scheme (Fin V)
  drafts : Fin bs → List (Fin V)
  anchor : Fin bs → Fin V
  cut : Bool
  g_pos : 0 < g
  g_eq : ∀ b, (request b).g = g
  floor_eq : ∀ b, (request b).floor = 1e-30
  live_eq : ∀ b, (request b).live.isSome = cut

/-- What a call is decided with: the mode, the device, the size of the chunks, and the place of a
largest key. -/
structure Runtime (V : ℕ) where
  mode : FoldMode
  device : Device ℝ
  CHUNK : ℕ
  chunk_pos : 0 < CHUNK
  argmax : Argmax V

namespace Rows

variable [NeZero V] (B : Rows bs g V)

/-- The candidates of a request: the anchor and the drafts. -/
def candidate (b : Fin bs) (i : ℕ) : Fin V :=
  if i = 0 then B.anchor b else (B.drafts b).getD (i - 1) default

/-- The live length of a request's drafts. -/
def liveLength (b : Fin bs) : ℕ := ((B.request b).live.map fun l => l (B.drafts b)).getD 0

/-- The call. -/
noncomputable def call : Call ℝ where
  bs := bs
  gamma := g
  V := V
  candidates := contiguous2 (g + 1) fun b i => atPlace 0 (fun r => (B.candidate r i : ℕ)) b
  targetProbs b i := atPlace 0 fun x =>
    atPlace 0 (fun r => (B.request r).p ((B.drafts r).take i) x) b
  draftProbs b i := atPlace 0 fun x =>
    atPlace 0 (fun r => (B.request r).q ((B.drafts r).take i) x) b
  cutoffVerifyLens := if B.cut then
      some (atPlace 0 fun r => (B.liveLength r : ℤ) + 1)
    else none

/-- The uniform draws as a tensor. -/
def eta (ω : Fin bs → Draws g V) (b i : ℕ) : ℝ :=
  atPlace 0 (fun r => atPlace 0 (fun j => ((ω r).1 j : ℝ)) i) b

/-- The exponential draws as a tensor. -/
def gumbel (ω : Fin bs → Draws g V) (b x : ℕ) : ℝ := atPlace 0 (fun r => atPlace 0 (ω r).2 x) b

/-- What the call returns for the draws. -/
noncomputable def out (rt : Runtime V) (ω : Fin bs → Draws g V) : (ℕ → ℕ) × (ℕ → ℕ) × (ℕ → ℕ) :=
  execute B.call (eta ω) (gumbel ω) realArith rt.device (realReductions bs g rt.argmax) rt.CHUNK
    rt.mode

/-- The block of a request. -/
def block (b : Fin bs) : BlockVerify.Block ℝ (Fin V) (B.request b).g :=
  (B.request b).block (B.drafts b)

/-- The accepted length of a request. -/
noncomputable def accepted (b : Fin bs) (d : Draws g V) : ℕ :=
  (B.block b).tau 1e-30 fun j => (d.1 (Fin.cast (B.g_eq b) j) : ℝ)

/-- The correction token of a request. -/
noncomputable def token (rt : Runtime V) (b : Fin bs) (d : Draws g V) : Fin V :=
  rt.argmax.pick fun x => (B.block b).res 1e-30 (B.accepted b d) x / d.2 x

/-! ## What a call decides -/

variable {B} {rt : Runtime V} {ω : Fin bs → Draws g V}

theorem call_candidates (b : Fin bs) {i : ℕ} (hi : i ≤ g) :
    B.call.candidates (b * (g + 1) + i) = B.candidate b i := by
  show contiguous2 (g + 1) (fun b i => atPlace 0 (fun r => (B.candidate r i : ℕ)) b) _ = _
  rw [contiguous2_apply _ (Nat.lt_succ_of_le hi), atPlace_val]

theorem call_token (B : Rows bs g V) (ω : Fin bs → Draws g V) (b : Fin bs) {i : ℕ} (hi : i < g) :
    (B.call.batch (eta ω) (gumbel ω)).token b i = ((B.drafts b).getD i default : Fin V) := by
  have hplace : 1 + ((b : ℕ) * (g + 1) + i * 1) = b * (g + 1) + (i + 1) := by ring
  show B.call.candidates (1 + ((b : ℕ) * (g + 1) + i * 1)) = _
  rw [hplace, call_candidates b hi]
  rfl

theorem call_targetProbs (b : Fin bs) (i : ℕ) (x : Fin V) :
    B.call.targetProbs b i x = (B.request b).p ((B.drafts b).take i) x := by
  show atPlace 0 (fun x => atPlace 0 (fun r => (B.request r).p ((B.drafts r).take i) x) b) x = _
  rw [atPlace_val, atPlace_val]

theorem call_draftProbs (b : Fin bs) (i : ℕ) (x : Fin V) :
    B.call.draftProbs b i x = (B.request b).q ((B.drafts b).take i) x := by
  show atPlace 0 (fun x => atPlace 0 (fun r => (B.request r).q ((B.drafts r).take i) x) b) x = _
  rw [atPlace_val, atPlace_val]

omit [NeZero V] in
theorem eta_eq (b : Fin bs) {i : ℕ} (hi : i < g) : eta ω b i = ((ω b).1 ⟨i, hi⟩ : ℝ) := by
  unfold eta
  rw [atPlace_val, atPlace_of_lt hi]

omit [NeZero V] in
theorem gumbel_eq (b : Fin bs) (x : Fin V) : gumbel ω b x = (ω b).2 x := by
  unfold gumbel
  rw [atPlace_val, atPlace_val]

theorem alive_eq (b : Fin bs) (i : ℕ) : alive B.call.live b i = (B.block b).alive i := by
  have hlive := B.live_eq b
  unfold BlockVerify.Block.alive
  show alive ((if B.cut then some _ else none : Option (ℕ → ℤ)).map _) b i =
    ((B.request b).live.map _).all _
  cases hcut : B.cut with
  | false =>
    rw [hcut] at hlive
    rw [Option.isSome_eq_false_iff.mp hlive |> Option.isNone_iff_eq_none.mp]
    rfl
  | true =>
    rw [hcut] at hlive
    obtain ⟨l, hl⟩ := Option.isSome_iff_exists.mp hlive
    rw [hl]
    show decide ((i : ℤ) < atPlace 0 (fun r => (B.liveLength r : ℤ) + 1) b - 1) =
      decide (i < l (B.drafts b))
    have hlen : B.liveLength b = l (B.drafts b) := by
      unfold liveLength
      rw [hl]
      rfl
    rw [atPlace_val, hlen, add_sub_cancel_right]
    exact decide_eq_decide.mpr Nat.cast_lt

/-- **A row of the call** is a request's block. -/
theorem isRow (B : Rows bs g V) (ω : Fin bs → Draws g V) (b : Fin bs) :
    IsRow (B.call.batch (eta ω) (gumbel ω)) B.call.live b (B.block b) where
  g_eq := (B.g_eq b).symm
  row_lt := b.isLt
  token _ hi := call_token B ω b (hi.trans_eq (B.g_eq b))
  target i := fun _ => call_targetProbs (V := V) b i
  draft i := fun _ => call_draftProbs (V := V) b i
  alive i := fun _ => alive_eq b i

theorem valid (B : Rows bs g V) (ω : Fin bs → Draws g V) :
    (B.call.batch (eta ω) (gumbel ω)).Valid where
  g_pos := B.g_pos
  token_lt b hb i hi := by
    rw [show (B.call.batch (eta ω) (gumbel ω)).token b i = _ from
      call_token B ω ⟨b, hb⟩ hi]
    exact Fin.isLt _

/-- **A request is decided by its own draws.** -/
theorem out_eq (B : Rows bs g V) (rt : Runtime V) (ω : Fin bs → Draws g V) (b : Fin bs) :
    (B.out rt ω).1 b = B.accepted b (ω b) ∧ (B.out rt ω).2.1 b = B.token rt b (ω b) := by
  obtain ⟨htau, hcorr⟩ := execute_eq (R := realReductions bs g rt.argmax) (D := rt.device)
    lawful_realArith (valid B ω) rt.chunk_pos rt.mode b.isLt
  have hrow := B.isRow ω b
  have heta : (fun j : Fin (B.request b).g => (B.call.batch (eta ω) (gumbel ω)).eta b j) =
      fun j => ((ω b).1 (Fin.cast (B.g_eq b) j) : ℝ) := by
    funext j
    exact eta_eq b (j.isLt.trans_eq (B.g_eq b))
  have haccepted : tau realArith (B.call.batch (eta ω) (gumbel ω)) (realReductions bs g rt.argmax)
      B.call.live b = B.accepted b (ω b) := by
    rw [show tau realArith (B.call.batch (eta ω) (gumbel ω)) (realReductions bs g rt.argmax)
      B.call.live b = _ from hrow.tau_eq, heta]
    rfl
  refine ⟨htau.trans haccepted, ?_⟩
  have hle : B.accepted b (ω b) ≤ (B.request b).g := by
    rw [← haccepted, B.g_eq b]
    exact tau_le (a := B.call.batch (eta ω) (gumbel ω)) (b : ℕ)
  have hpick : corr realArith (B.call.batch (eta ω) (gumbel ω)) (realReductions bs g rt.argmax)
      B.call.live b = rt.argmax.pick fun x => keys realArith (B.call.batch (eta ω) (gumbel ω))
        (realReductions bs g rt.argmax) B.call.live b x := hrow.corr_eq
  have hkeys : (fun x : Fin V => keys realArith (B.call.batch (eta ω) (gumbel ω))
      (realReductions bs g rt.argmax) B.call.live b x) =
        fun x => (B.block b).res 1e-30 (B.accepted b (ω b)) x / (ω b).2 x := by
    funext x
    rw [← gumbel_eq b x]
    exact hrow.keys_eq haccepted hle x
  refine (congrFun hcorr b).trans (hpick.trans ?_)
  rw [hkeys]
  rfl

/-! ## The law of a call -/

section law

variable {b : Fin bs} {t : ℕ} {c : Fin V}

theorem prob_accepted (t : ℕ) :
    volume.real {η : Fin g → unitInterval | (B.block b).tau 1e-30
      (fun j => (η (Fin.cast (B.g_eq b) j) : ℝ)) = t} = (B.request b).tauProb (B.drafts b) t := by
  have hcast {g' : ℕ} (S : BlockVerify.Scheme (Fin V)) (X : List (Fin V)) (hg : S.g = g') :
      volume.real {η : Fin g' → unitInterval |
        (S.block X).tau S.floor (fun j => (η (Fin.cast hg j) : ℝ)) = t} = S.tauProb X t := by
    subst hg
    rfl
  rw [← hcast (B.request b) (B.drafts b) (B.g_eq b), B.floor_eq b]
  rfl

/-- The row that a correction token is drawn from is a distribution. -/
theorem res_law (hlen : (B.drafts b).length = g)
    (hpos : 0 < pathProb (B.request b).q [] (B.drafts b)) (ht : t ≤ g) :
    (∀ x, 0 ≤ (B.block b).res 1e-30 t x) ∧ ∑ x, (B.block b).res 1e-30 t x = 1 := by
  have hfloor := (B.request b).inert.mass (B.drafts b) (hlen.trans (B.g_eq b).symm) hpos t
    (ht.trans_eq (B.g_eq b).symm)
  rw [B.floor_eq b] at hfloor
  have hraw (x : Fin V) : 0 ≤ (B.block b).rawRes 1e-30 t x := le_max_right _ _
  by_cases hmass : 0 < (B.block b).mass 1e-30 t
  · have hmax : max ((B.block b).mass 1e-30 t) 1e-30 = (B.block b).mass 1e-30 t :=
      max_eq_left (hfloor hmass)
    have hres (x : Fin V) : (B.block b).res 1e-30 t x =
        (B.block b).rawRes 1e-30 t x / (B.block b).mass 1e-30 t := by
      unfold BlockVerify.Block.res
      rw [if_pos hmass, hmax]
    simp only [hres]
    refine ⟨fun x => div_nonneg (hraw x) hmass.le, ?_⟩
    rw [← Finset.sum_div]
    exact div_self hmass.ne'
  · have hres (x : Fin V) : (B.block b).res 1e-30 t x = (B.block b).targetProbs t x := if_neg hmass
    simp only [hres]
    exact ⟨(B.request b).target.nonneg _, (B.request b).target.sum_one _⟩

/-- **A request's decision**: the tests and the race are drawn apart. -/
theorem prob_decided (rt : Runtime V) (hlen : (B.drafts b).length = g)
    (hpos : 0 < pathProb (B.request b).q [] (B.drafts b)) (ht : t ≤ g) (c : Fin V) :
    (drawLaw g V).real {d | B.accepted b d = t ∧ B.token rt b d = c} =
      (B.request b).tauProb (B.drafts b) t * (B.block b).res 1e-30 t c := by
  have hset : {d : Draws g V | B.accepted b d = t ∧ B.token rt b d = c} =
      {η | (B.block b).tau 1e-30 (fun j => (η (Fin.cast (B.g_eq b) j) : ℝ)) = t} ×ˢ
        {e | rt.argmax.pick (fun x => (B.block b).res 1e-30 t x / e x) = c} := by
    ext d
    refine and_congr_right fun hd => ?_
    show B.token rt b d = c ↔ rt.argmax.pick (fun x => (B.block b).res 1e-30 t x / d.2 x) = c
    rw [token, show B.accepted b d = t from hd]
  obtain ⟨hnonneg, hsum⟩ := res_law hlen hpos ht
  rw [hset, drawLaw, measureReal_prod_prod, prob_accepted, ExponentialRace.prob_winner hnonneg
    (by rw [hsum]; exact one_pos) (fun e => rt.argmax.le_pick _), hsum, div_one]

end law

end Rows

/-- **The decisions of a call.** Whatever the mode, the order of the device and the rule for ties,
the requests are decided independently, each with the law of its block. -/
theorem execute_law [NeZero V] (B : Rows bs g V) (rt : Runtime V)
    (hlen : ∀ b, (B.drafts b).length = g)
    (hpos : ∀ b, 0 < pathProb (B.request b).q [] (B.drafts b)) (t : Fin bs → ℕ)
    (ht : ∀ b, t b ≤ g) (c : Fin bs → Fin V) :
    (batchLaw bs g V).real {ω | ∀ b : Fin bs, (B.out rt ω).1 b = t b ∧ (B.out rt ω).2.1 b = c b} =
      ∏ b, (B.request b).tauProb (B.drafts b) (t b) * (B.block b).res 1e-30 (t b) (c b) := by
  have hset : {ω | ∀ b : Fin bs, (B.out rt ω).1 b = t b ∧ (B.out rt ω).2.1 b = c b} =
      {ω | ∀ b, ω b ∈ {d : Draws g V | B.accepted b d = t b ∧ B.token rt b d = c b}} := by
    ext ω
    refine forall_congr' fun b => ?_
    obtain ⟨htau, hcorr⟩ := B.out_eq rt ω b
    rw [htau, hcorr, Fin.val_inj]
    rfl
  rw [hset, batchLaw_forall]
  exact Finset.prod_congr rfl fun b _ => Rows.prob_decided rt (hlen b) (hpos b) (ht b) (c b)

/-! ## Two requests of a biased coin drafted by a fair one -/

theorem exists_largest {V : ℕ} [NeZero V] (keys : Fin V → ℝ) : ∃ c, ∀ x, keys x ≤ keys c :=
  Finite.exists_max keys

/-- A largest entry, whichever. -/
noncomputable def Argmax.any (V : ℕ) [NeZero V] : Argmax V where
  pick keys := (exists_largest keys).choose
  le_pick keys := (exists_largest keys).choose_spec

theorem perm_chain (n : ℕ) (hn : 0 < n) : (chain (n - 1)).lanes.Perm (List.range n) := by
  rw [lanes_chain, Nat.sub_add_cancel hn]

/-- A device that adds and stores in order. -/
noncomputable def serial : Device ℝ where
  tree n := chain (n - 1)
  tree_lanes := perm_chain
  order l := l
  order_perm := List.Perm.refl
  empty _ := 0
  emptyTau _ := 0

/-- The literals of the two tokens below. -/
theorem sides_neZero : NeZero 2 := ⟨two_ne_zero⟩

attribute [local instance] sides_neZero

noncomputable def coinRuntime : Runtime 2 where
  mode := .on
  device := serial
  CHUNK := 1
  chunk_pos := Nat.one_pos
  argmax := Argmax.any 2

/-- The target's conditional: token 0 comes three times out of four. -/
noncomputable def coinTarget (_ : List (Fin 2)) (v : Fin 2) : ℝ :=
  BlockVerify.coin.p [] (v.val == 0)

/-- The draft's conditional: the tokens are equally likely. -/
noncomputable def coinDraft (_ : List (Fin 2)) (v : Fin 2) : ℝ :=
  BlockVerify.coin.q [] (v.val == 0)

@[simp] theorem coinTarget_zero (x : List (Fin 2)) : coinTarget x 0 = 3 / 4 := rfl

@[simp] theorem coinTarget_one (x : List (Fin 2)) : coinTarget x 1 = 1 / 4 := rfl

@[simp] theorem coinDraft_eq (x : List (Fin 2)) (v : Fin 2) : coinDraft x v = 1 / 2 := rfl

theorem coinTarget_law : IsConditional coinTarget where
  nonneg _ _ := BlockVerify.coin.target.nonneg _ _
  sum_one x := by
    rw [Fin.sum_univ_two, coinTarget_zero, coinTarget_one]
    norm_num

theorem coinDraft_law : IsConditional coinDraft where
  nonneg _ _ := BlockVerify.coin.draft.nonneg _ _
  sum_one x := by
    rw [Fin.sum_univ_two, coinDraft_eq, coinDraft_eq]
    norm_num

theorem coinTokens_inert :
    BlockVerify.FloorInert coinTarget coinDraft 1 (some fun _ => 1) 1e-30 := by
  refine BlockVerify.FloorInert.one (by norm_num) coinTarget_law (fun x v => ?_) ?_ fun v => ?_
  · rw [coinDraft_eq]
    norm_num
  · rw [Fin.sum_univ_two, coinTarget_zero, coinTarget_one, coinDraft_eq, coinDraft_eq]
    norm_num
  · rw [coinDraft_eq]
    obtain rfl | rfl : v = 0 ∨ v = 1 := by omega
    · rw [coinTarget_zero]
      norm_num
    · rw [coinTarget_one]
      norm_num

theorem coinTokens_stopping (X : List (Fin 2)) (_ : X.length = 1) (i : ℕ) (hi : i < 1) :
    (BlockVerify.drafted coinTarget coinDraft 1 (some fun _ => 1) X).alive i = true :=
  decide_eq_true hi

/-- One draft from the fair coin, verified against the biased one. -/
noncomputable def coinTokens : BlockVerify.Scheme (Fin 2) where
  p := coinTarget
  q := coinDraft
  g := 1
  live := some fun _ => 1
  floor := BlockVerify.coin.floor
  verified _ := true
  target := coinTarget_law
  draft := coinDraft_law
  stopping := coinTokens_stopping
  inert := coinTokens_inert

/-- Two requests with the given drafts. -/
noncomputable def coinRows (X : Fin 2 → List (Fin 2)) : Rows 2 1 2 where
  request _ := coinTokens
  drafts := X
  anchor b := b
  cut := true
  g_pos := Nat.one_pos
  g_eq _ := rfl
  floor_eq _ := rfl
  live_eq _ := rfl

/-- The requests with the drafts 0 and 1. -/
noncomputable def bothDrafts : Rows 2 1 2 := coinRows fun b => [b]

theorem bothDrafts_possible (b : Fin 2) : 0 < pathProb coinDraft [] [b] := by
  norm_num [pathProb]

theorem coinTokens_weight (v : Fin 2) :
    coinTokens.weight [v] = min (coinTarget [] v * 2) 1 := by
  have hratio : coinTokens.ratioAt [] v = coinTarget [] v / max (1 / 2) 1e-30 := rfl
  have htwo : coinTarget [] v / max (1 / 2) 1e-30 = coinTarget [] v * 2 := by
    rw [max_eq_left (by norm_num), div_div_eq_mul_div, div_one]
  rw [← List.nil_append [v], BlockVerify.Scheme.weight_append, BlockVerify.Scheme.weight_nil,
    one_mul, hratio, htwo]

theorem coinTokens_accept (v : Fin 2) :
    coinTokens.accept [v] = min (coinTarget [] v * 2) 1 := by
  rw [← coinTokens_weight]
  rfl

theorem coinTokens_tauProb_one : coinTokens.tauProb [0] 1 = 1 := by
  rw [BlockVerify.Scheme.tauProb_succ rfl Nat.one_pos]
  show coinTokens.accept [0] * ∏ j ∈ Finset.Ico 1 1, _ = _
  rw [Finset.Ico_self, Finset.prod_empty, mul_one, coinTokens_accept, coinTarget_zero]
  norm_num

theorem coinTokens_tauProb_zero : coinTokens.tauProb [1] 0 = 1 / 2 := by
  rw [BlockVerify.Scheme.tauProb_zero rfl]
  show ∏ j ∈ Finset.Ico 0 1, (1 - coinTokens.accept ([1].take (j + 1))) = _
  rw [Nat.Ico_succ_singleton, Finset.prod_singleton]
  show 1 - coinTokens.accept [1] = _
  rw [coinTokens_accept, coinTarget_one]
  norm_num

/-- The residual after a kept draft is the target's row. -/
theorem coinTokens_res_one : (coinTokens.block [0]).res 1e-30 1 0 = 3 / 4 := by
  have hw : (coinTokens.block [0]).w 1e-30 1 = 1 := by
    refine (BlockVerify.Scheme.w_eq (S := coinTokens) rfl le_rfl).trans ?_
    show coinTokens.weight [0] = 1
    rw [coinTokens_weight, coinTarget_zero]
    norm_num
  have hraw (v : Fin 2) : (coinTokens.block [0]).rawRes 1e-30 1 v = coinTarget [0] v := by
    show max ((coinTokens.block [0]).w 1e-30 1 * coinTarget [0] v - 0) 0 = _
    rw [hw, one_mul, sub_zero, max_eq_left (coinTarget_law.nonneg [0] v)]
  have hmass : (coinTokens.block [0]).mass 1e-30 1 = 1 :=
    (Finset.sum_congr rfl fun v _ => hraw v).trans (coinTarget_law.sum_one [0])
  unfold BlockVerify.Block.res
  rw [hmass, if_pos one_pos, hraw, coinTarget_zero]
  norm_num

/-- The residual after a dropped draft has the tokens that the target likes better. -/
theorem coinTokens_res_zero : (coinTokens.block [1]).res 1e-30 0 0 = 1 := by
  have hraw (v : Fin 2) : (coinTokens.block [1]).rawRes 1e-30 0 v =
      max (coinTarget [] v - coinDraft [] v) 0 := by
    show max (1 * coinTarget [] v - coinDraft [] v) 0 = _
    rw [one_mul]
  have hmass : (coinTokens.block [1]).mass 1e-30 0 = 1 / 4 := by
    unfold BlockVerify.Block.mass
    rw [Fin.sum_univ_two, hraw, hraw, coinTarget_zero, coinTarget_one, coinDraft_eq, coinDraft_eq]
    norm_num
  unfold BlockVerify.Block.res
  rw [hmass, if_pos (by norm_num), hraw, coinTarget_zero, coinDraft_eq]
  norm_num

/-- The first request keeps its draft and goes on with 0, the second drops its draft for 0. -/
theorem execute_law_coins : (batchLaw 2 1 2).real {ω | ∀ b : Fin 2,
    (bothDrafts.out coinRuntime ω).1 b = 1 - (b : ℕ) ∧
      (bothDrafts.out coinRuntime ω).2.1 b = ((0 : Fin 2) : ℕ)} = 3 / 8 := by
  refine (execute_law bothDrafts coinRuntime (fun _ => rfl) bothDrafts_possible
    (fun b => 1 - (b : ℕ)) (fun _ => Nat.sub_le _ _) (fun _ => 0)).trans ?_
  rw [Fin.prod_univ_two]
  show coinTokens.tauProb [0] 1 * (coinTokens.block [0]).res 1e-30 1 0 *
    (coinTokens.tauProb [1] 0 * (coinTokens.block [1]).res 1e-30 0 0) = _
  rw [coinTokens_tauProb_one, coinTokens_res_one, coinTokens_tauProb_zero, coinTokens_res_zero]
  norm_num

/-! ## The text -/

/-- **A service**: the target's conditionals of the whole text, and how the step after a text is
drafted and verified. -/
structure Service (g V : ℕ) [NeZero V] where
  p : List (Fin V) → Fin V → ℝ
  scheme : List (Fin V) → BlockVerify.Scheme (Fin V)
  target_eq : ∀ x y, (scheme x).p y = p (x ++ y)
  g_eq : ∀ x, (scheme x).g = g

/-- A call that verifies the drafts `X` of a scheme `S` among other requests. -/
structure Seat (g : ℕ) {V : ℕ} [NeZero V] (S : BlockVerify.Scheme (Fin V)) (X : List (Fin V)) where
  bs : ℕ
  rows : Rows bs g V
  runtime : Runtime V
  row : Fin bs
  request_eq : rows.request row = S
  drafts_eq : rows.drafts row = X

/-- The probability that the call keeps `t` drafts and corrects by `c`. -/
noncomputable def Seat.prob [NeZero V] {S : BlockVerify.Scheme (Fin V)} {X : List (Fin V)}
    (s : Seat g S X) (t : ℕ) (c : Fin V) : ℝ :=
  (batchLaw s.bs g V).real {ω | (s.rows.out s.runtime ω).1 s.row = t ∧
    (s.rows.out s.runtime ω).2.1 s.row = c}

theorem Seat.prob_eq [NeZero V] {S : BlockVerify.Scheme (Fin V)} {X : List (Fin V)} (s : Seat g S X)
    (hlen : X.length = g) (hpos : 0 < pathProb S.q [] X) {t : ℕ} (ht : t ≤ g) (c : Fin V) :
    s.prob t c = S.tauProb X t * (S.block X).res S.floor t c := by
  obtain ⟨bs, B, rt, b, rfl, rfl⟩ := s
  have hset : {ω | (B.out rt ω).1 b = t ∧ (B.out rt ω).2.1 b = c} =
      {ω | ω b ∈ {d : Draws g V | B.accepted b d = t ∧ B.token rt b d = c}} := by
    ext ω
    obtain ⟨htau, hcorr⟩ := B.out_eq rt ω b
    show (B.out rt ω).1 b = t ∧ (B.out rt ω).2.1 b = c ↔ _
    rw [htau, hcorr, Fin.val_inj]
    rfl
  unfold Seat.prob
  rw [hset, batchLaw_row, Rows.prob_decided rt hlen hpos ht, B.floor_eq b]
  rfl

namespace Service

variable [NeZero V] (sv : Service g V) (seat : ℕ → ∀ x X, Seat g (sv.scheme x) X)

/-- **The text after some steps**: the probability that `x`, continued by that many steps and then by
the target, goes on with `y`. The step that is the `n`-th to last is seated in the call `seat n`. -/
noncomputable def generated : ℕ → List (Fin V) → List (Fin V) → ℝ
  | 0, x, y => pathProb sv.p x y
  | n + 1, x, y => expect (sv.scheme x).q g [] fun X =>
      ∑ t ∈ Finset.range (g + 1), ∑ c, (seat n x X).prob t c *
        (if X.take t ++ [c] = y.take (t + 1) then
          generated n (x ++ y.take (t + 1)) (y.drop (t + 1))
        else 0)

variable {sv seat}

theorem generated_succ (n : ℕ) (x y : List (Fin V)) :
    sv.generated seat (n + 1) x y = expect (sv.scheme x).q (sv.scheme x).g [] fun X =>
      ∑ t ∈ Finset.range ((sv.scheme x).g + 1), ∑ c, (seat n x X).prob t c *
        (if X.take t ++ [c] = y.take (t + 1) then
          sv.generated seat n (x ++ y.take (t + 1)) (y.drop (t + 1))
        else 0) := by
  rw [sv.g_eq x]
  rfl

theorem pathProb_scheme (x a y : List (Fin V)) :
    pathProb (sv.scheme x).p a y = pathProb sv.p (x ++ a) y := by
  induction y generalizing a with
  | nil => rfl
  | cons v y ih => rw [pathProb, pathProb, ih, sv.target_eq, List.append_assoc]

end Service

/-- **Generation is lossless.** After any number of steps, each in whatever call, the text goes on
as the target alone would have gone on. -/
theorem generated_eq_target [NeZero V] (sv : Service g V)
    (seat : ℕ → ∀ x X, Seat g (sv.scheme x) X) (n : ℕ) (x y : List (Fin V))
    (hy : n * (g + 1) ≤ y.length) : sv.generated seat n x y = pathProb sv.p x y := by
  induction n generalizing x y with
  | zero => rfl
  | succ n ih =>
    have hg := sv.g_eq x
    have hlong : n * (g + 1) + (g + 1) ≤ y.length := by rwa [← Nat.succ_mul]
    have hlaw := BlockVerify.Scheme.outputLaw_eq (S := sv.scheme x) (y := y) (by rw [hg]; omega)
    rw [BlockVerify.Scheme.targetLaw, Service.pathProb_scheme, List.append_nil] at hlaw
    rw [Service.generated_succ]
    refine Eq.trans ?_ hlaw
    refine IsConditional.expect_congr_of_pos (sv.scheme x).draft fun X hX hpos => ?_
    rw [List.nil_append]
    refine Finset.sum_congr rfl fun t ht => ?_
    have ht : t ≤ g := (Nat.lt_succ_iff.mp (Finset.mem_range.mp ht)).trans_eq hg
    rw [Finset.mul_sum]
    refine Finset.sum_congr rfl fun c _ => ?_
    rw [(seat n x X).prob_eq (hX.trans hg) hpos ht c, ih _ _ (by rw [List.length_drop]; omega),
      Service.pathProb_scheme, mul_assoc]

/-- The biased coin as a service. -/
noncomputable def coinService : Service 1 2 where
  p := coinTarget
  scheme _ := coinTokens
  target_eq _ _ := rfl
  g_eq _ := rfl

/-- Every step is verified beside a request with the same drafts. -/
noncomputable def coinSeat (_ : ℕ) (x X : List (Fin 2)) : Seat 1 (coinService.scheme x) X where
  bs := 2
  rows := coinRows fun _ => X
  runtime := coinRuntime
  row := ⟨0, Nat.two_pos⟩
  request_eq := rfl
  drafts_eq := rfl

/-- Two steps: four tokens 0 come with the target's probability. -/
theorem generated_eq_target_coin :
    coinService.generated coinSeat 2 [] [0, 0, 0, 0] = 81 / 256 := by
  rw [generated_eq_target coinService coinSeat 2 [] [0, 0, 0, 0] le_rfl]
  norm_num [pathProb, coinService]

end BlockVerifyFold

import SparkTP4.PrefillSpTail
import SparkTP4.Transition

/-!
# The sequence-parallel prefill loop returns what the stock loop returns

Inside the full-row region the loop's tensors are the shards of the stock
loop's tensors (`Split`), and outside of it the two loops hold the same values
(`Same`). Each stage of a layer keeps this relation (`Linked`): the row-local
functions because a shard commutes with them, attention and MoE because
gathering the shards gives all rows back and reducing onto the shards is the
all-reduce followed by taking the rank's rows, and the tail entry because the
tail rows collected from their owners are the tail rows of the gathered tensor.

The `wkv` projection runs on the shard only under a verdict of the self-check,
so the relation also carries that every recorded verdict is right
(`Model.WkvSound`).
-/

namespace PrefillSp

open RowShards

variable {W rows : ℕ} {α β γ : Type} {T : Tensors}

/-! ## What the ranks hold of a tensor -/

namespace Plan

variable (p : Plan W rows)

/-- What rank `r` holds of a tensor inside the region: its own rows when the
plan is sharded, else every row. -/
def spread (t : List α) : Fin W → List α :=
  fun r => if p.sharded then p.own r t else t

theorem spread_of_sharded (h : p.sharded = true) (t : List α) :
    p.spread t = fun r => p.own r t := by
  funext r
  unfold spread
  rw [if_pos h]

theorem spread_of_not_sharded (h : p.sharded = false) (t : List α) :
    p.spread t = fun _ => t := by
  funext r
  unfold spread
  rw [if_neg (by rw [h]; exact Bool.false_ne_true)]

theorem length_own {t : List α} (ht : t.length = rows) (r : Fin W) :
    (p.own r t).length = p.shard :=
  length_shardRows r.isLt (by rw [ht]; exact p.rows_eq)

theorem length_spread {t : List α} (ht : t.length = rows) (r : Fin W) :
    (p.spread t r).length = p.inRows := by
  unfold spread inRows
  split
  · exact p.length_own ht r
  · exact ht

theorem spread_map (f : α → β) (t : List α) (r : Fin W) :
    p.spread (t.map f) r = (p.spread t r).map f := by
  unfold spread own
  split
  · exact shardRows_map _ _ f t
  · rfl

theorem spread_zipWith (f : α → β → γ) (t : List α) (u : List β) (r : Fin W) :
    p.spread (List.zipWith f t u) r = List.zipWith f (p.spread t r) (p.spread u r) := by
  unfold spread own
  split
  · exact shardRows_zipWith _ _ f t u
  · rfl

theorem spread_zip (t : List α) (u : List β) (r : Fin W) :
    p.spread (t.zip u) r = (p.spread t r).zip (p.spread u r) :=
  p.spread_zipWith Prod.mk t u r

/-- The input of a wrapped sublayer is every row. -/
theorem gather_spread {t : List α} (ht : t.length = rows) :
    (if p.sharded then gatherAll (p.spread t) else p.spread t) = fun _ => t := by
  by_cases h : p.sharded = true
  · rw [if_pos h, p.spread_of_sharded h, p.gatherAll_own ht]
  · rw [if_neg h, p.spread_of_not_sharded (Bool.eq_false_of_not_eq_true h)]

/-- A kernel choice on a tensor the region holds sees the full row count. -/
theorem spLogicalRows_inRows : spLogicalRows (some p) p.inRows = rows := by
  unfold spLogicalRows inRows
  by_cases h : p.sharded = true
  · simp [h]
  · simp [h]

end Plan

/-! ## Reductions -/

theorem reduceRows_eq (p : Plan W rows) (c : Comm W α) {x : Fin W → List α}
    (hx : ∀ q, (x q).length = rows) :
    reduceRows p c x = fun r => p.own r (c.allReduce x) := by
  funext r
  unfold reduceRows
  split
  · rfl
  · exact c.reduceScatter_eq x p.shard (fun q => by rw [hx q]; exact p.rows_eq) r

/-- **A reduction site.** Reducing per-rank partials of all rows leaves every
rank with what it holds of their all-reduce. -/
theorem reduceOut_eq (p : Plan W rows) (c : Comm W α) {x : Fin W → List α}
    (hx : ∀ q, (x q).length = rows) :
    reduceOut p c x = p.spread (c.allReduce x) := by
  have hscatter : c.reduceScatterTensor x = fun r => p.own r (c.allReduce x) :=
    funext (fun r => c.reduceScatter_eq x p.shard (fun q => by rw [hx q]; exact p.rows_eq) r)
  unfold reduceOut
  by_cases h : p.sharded = true
  · rw [if_pos h, reduceRows_eq p c hx, p.spread_of_sharded h]
  · rw [if_neg h, hscatter, p.gatherAll_own (c.length_allReduce x rows p.world_pos hx),
      p.spread_of_not_sharded (Bool.eq_false_of_not_eq_true h)]

/-! ## One layer -/

namespace Layer

variable (L : Layer T W)

theorem length_combineRows (which : Sublayer) (m : ℕ) {R : List T.Residual}
    {pre : Option (List T.Pre)} (hR : R.length = rows) (hpre : ∀ P ∈ pre, P.length = rows) :
    (L.combineRows which m R pre).length = rows := by
  unfold combineRows
  cases pre with
  | none => rw [List.length_map, hR]
  | some P => rw [List.length_zipWith, hR, hpre P rfl, Nat.min_self]

theorem length_postRows (m : ℕ) {x : List T.Hidden} {R : List T.Residual}
    {mix : List T.Mix} (hx : x.length = rows) (hR : R.length = rows)
    (hmix : mix.length = rows) : (L.postRows m x R mix).length = rows := by
  unfold postRows
  rw [List.length_zipWith, List.length_zip, hx, hR, hmix, Nat.min_self, Nat.min_self]

theorem combineRows_spread (p : Plan W rows) (which : Sublayer) (m : ℕ)
    (R : List T.Residual) (pre : Option (List T.Pre)) (r : Fin W) :
    L.combineRows which m (p.spread R r) (pre.map (fun P => p.spread P r))
      = p.spread (L.combineRows which m R pre) r := by
  unfold combineRows
  cases pre with
  | none => exact (p.spread_map _ R r).symm
  | some P => exact (p.spread_zipWith _ R P r).symm

theorem postRows_spread (p : Plan W rows) (m : ℕ) (x : List T.Hidden)
    (R : List T.Residual) (mix : List T.Mix) (r : Fin W) :
    L.postRows m (p.spread x r) (p.spread R r) (p.spread mix r)
      = p.spread (L.postRows m x R mix) r := by
  unfold postRows
  rw [p.spread_zipWith, p.spread_zip]

/-- The all-reduced attention output when every rank has the rows `x`. -/
def attnRows (c : Comm W T.Hidden) (positions : List ℕ) (σ : Fin W → T.Rank)
    (x : List T.Hidden) : List T.Hidden :=
  c.allReduce (fun q => (L.selfAttn q (σ q) positions x).2)

/-- The all-reduced MoE output when every rank has the rows `x`. -/
def moeRows (c : Comm W T.Hidden) (ids idsGlobal : List ℕ) (x : List T.Hidden) :
    List T.Hidden :=
  c.allReduce (fun q => L.mlp q x ids idsGlobal)

variable (c : Comm W T.Hidden) {x : List T.Hidden}

theorem length_attnRows (hW : 0 < W) (positions : List ℕ) (σ : Fin W → T.Rank)
    (hx : x.length = rows) : (L.attnRows c positions σ x).length = rows :=
  c.length_allReduce _ rows hW (fun _ => (L.length_selfAttn _ _ _ _).trans hx)

theorem length_moeRows (hW : 0 < W) (ids idsGlobal : List ℕ) (hx : x.length = rows) :
    (L.moeRows c ids idsGlobal x).length = rows :=
  c.length_allReduce _ rows hW (fun _ => (L.length_mlp _ _ _ _).trans hx)

/-- **Wrapped attention.** On the shards of `x` it leaves every rank with what
it holds of the stock output on all rows, and with the stock caches. -/
theorem attnForward_spread (p : Plan W rows) (positions : List ℕ) (σ : Fin W → T.Rank)
    (hx : x.length = rows) :
    L.attnForward c (some p) positions σ (p.spread x)
      = some (fun r => (L.selfAttn r (σ r) positions x).1,
          p.spread (L.attnRows c positions σ x)) := by
  have hlen : ∀ q, (L.selfAttn q (σ q) positions x).2.length = rows :=
    fun q => (L.length_selfAttn q (σ q) positions x).trans hx
  unfold attnForward
  simp only
  rw [if_pos (p.length_spread hx), p.gather_spread hx, if_pos hlen, reduceOut_eq p c hlen]
  rfl

/-- **Wrapped MoE.** On the shards of `x` it leaves every rank with what it
holds of the stock output on all rows. -/
theorem moeForward_spread (p : Plan W rows) (ids idsGlobal : List ℕ)
    (hx : x.length = rows) :
    L.moeForward c (some p) ids idsGlobal (p.spread x)
      = some (p.spread (L.moeRows c ids idsGlobal x)) := by
  have hlen : ∀ q, (L.mlp q x ids idsGlobal).length = rows :=
    fun q => (L.length_mlp q x ids idsGlobal).trans hx
  unfold moeForward
  simp only
  rw [if_pos (p.length_spread hx), p.gather_spread hx, if_pos hlen, reduceOut_eq p c hlen]
  rfl

/-! The rows a layer computes when every rank has all rows of the residual `R`
and of the mixing weights `pre`. -/

variable (M : Model T W) (S : State T W) (R : List T.Residual) (pre : Option (List T.Pre))

def attnInput : List T.Hidden := L.combineRows .attn R.length R pre

def afterAttn : List T.Residual :=
  L.postRows R.length (L.attnRows M.commHidden S.positions S.ranks (L.attnInput R pre)) R
    ((R.map (L.hcMixStats .attn)).map Prod.snd)

def moeInput : List T.Hidden :=
  L.combineRows .ffn R.length (L.afterAttn M S R pre)
    (some ((R.map (L.hcMixStats .attn)).map Prod.fst))

def afterMoe : List T.Residual :=
  L.postRows R.length (L.moeRows M.commHidden S.inputIds S.inputIdsGlobal (L.moeInput M S R pre))
    (L.afterAttn M S R pre)
    (((L.afterAttn M S R pre).map (L.hcMixStats .ffn)).map Prod.snd)

def nextPre : List T.Pre :=
  ((L.afterAttn M S R pre).map (L.hcMixStats .ffn)).map Prod.fst

def nextRanks : Fin W → T.Rank :=
  fun r => (L.selfAttn r (S.ranks r) S.positions (L.attnInput R pre)).1

variable {R pre}

theorem length_attnInput (hR : R.length = rows) (hpre : ∀ P ∈ pre, P.length = rows) :
    (L.attnInput R pre).length = rows :=
  L.length_combineRows _ _ hR hpre

theorem length_afterAttn (hW : 0 < W) (hR : R.length = rows)
    (hpre : ∀ P ∈ pre, P.length = rows) : (L.afterAttn M S R pre).length = rows :=
  L.length_postRows _ (L.length_attnRows _ hW _ _ (L.length_attnInput hR hpre)) hR
    (by rw [List.length_map, List.length_map, hR])

theorem length_moeInput (hW : 0 < W) (hR : R.length = rows)
    (hpre : ∀ P ∈ pre, P.length = rows) : (L.moeInput M S R pre).length = rows := by
  refine L.length_combineRows _ _ (L.length_afterAttn M S hW hR hpre) (fun P hP => ?_)
  obtain rfl := Option.some.inj hP
  rw [List.length_map, List.length_map, hR]

theorem length_afterMoe (hW : 0 < W) (hR : R.length = rows)
    (hpre : ∀ P ∈ pre, P.length = rows) : (L.afterMoe M S R pre).length = rows := by
  have hattn := L.length_afterAttn M S hW hR hpre
  refine L.length_postRows _ ?_ hattn ?_
  · exact L.length_moeRows _ hW _ _ (L.length_moeInput M S hW hR hpre)
  · rw [List.length_map, List.length_map, hattn]

theorem length_nextPre (hW : 0 < W) (hR : R.length = rows)
    (hpre : ∀ P ∈ pre, P.length = rows) : (L.nextPre M S R pre).length = rows := by
  unfold nextPre
  rw [List.length_map, List.length_map, L.length_afterAttn M S hW hR hpre]

omit R pre in
theorem forward_saved {ctx : Option (Plan W rows)} {M : Model T W} {S S' : State T W}
    (h : L.forwardHcPreFromPrev M ctx S = some S') : S'.saved = S.saved := by
  unfold forwardHcPreFromPrev at h
  obtain ⟨_, -, h⟩ := Option.bind_eq_some_iff.mp h
  obtain ⟨_, -, h⟩ := Option.bind_eq_some_iff.mp h
  rw [← Option.some.inj h]

/-- The stock layer on whole rows. -/
theorem forward_whole (hR : R.length = rows) (hW : 0 < W)
    (hpre : ∀ P ∈ pre, P.length = rows) (hSR : S.R = fun _ => R)
    (hSpre : S.prevPre = pre.map (fun P _ => P)) :
    L.forwardHcPreFromPrev M (none : Option (Plan W rows)) S
      = some { S with
          R := fun _ => L.afterMoe M S R pre
          ranks := L.nextRanks S R pre
          prevPre := some fun _ => L.nextPre M S R pre } := by
  subst hR
  have hattn := L.length_attnInput rfl hpre
  have hpre' : ∀ r : Fin W, S.prevPre.map (· r) = pre := fun r => by
    rw [hSpre, Option.map_map]
    exact Option.map_id' (x := pre)
  have hafter := L.length_afterAttn M S hW rfl hpre
  have hy := L.length_attnRows M.commHidden hW S.positions S.ranks hattn
  have hz := L.length_moeRows M.commHidden hW S.inputIds S.inputIdsGlobal
    (L.length_moeInput M S hW rfl hpre)
  have hpost : L.postRows (L.attnRows M.commHidden S.positions S.ranks (L.attnInput R pre)).length
      (L.attnRows M.commHidden S.positions S.ranks (L.attnInput R pre)) R
      ((R.map (L.hcMixStats .attn)).map Prod.snd) = L.afterAttn M S R pre := by
    rw [hy]
    rfl
  have hx' : L.combineRows .ffn (L.afterAttn M S R pre).length (L.afterAttn M S R pre)
      (some ((R.map (L.hcMixStats .attn)).map Prod.fst)) = L.moeInput M S R pre := by
    rw [hafter]
    rfl
  have hpost' : L.postRows (L.moeRows M.commHidden S.inputIds S.inputIdsGlobal
        (L.moeInput M S R pre)).length
      (L.moeRows M.commHidden S.inputIds S.inputIdsGlobal (L.moeInput M S R pre))
      (L.afterAttn M S R pre)
      (((L.afterAttn M S R pre).map (L.hcMixStats .ffn)).map Prod.snd)
        = L.afterMoe M S R pre := by
    rw [hz]
    rfl
  unfold forwardHcPreFromPrev
  simp only [hSR, hpre', spLogicalRows, attnForward, moeForward, Option.bind_eq_bind,
    Option.bind_some]
  have hstock : L.stockAttn M.commHidden S.positions S.ranks
      (fun _ => L.combineRows .attn R.length R pre)
      = (L.nextRanks S R pre, fun _ => L.attnRows M.commHidden S.positions S.ranks
          (L.attnInput R pre)) := rfl
  have hmoe : L.stockMoe M.commHidden S.inputIds S.inputIdsGlobal
      (fun _ => L.moeInput M S R pre)
      = fun _ => L.moeRows M.commHidden S.inputIds S.inputIdsGlobal (L.moeInput M S R pre) := rfl
  simp only [hstock, hpost, hx', hmoe, hpost']
  rfl

/-- **One layer on the shards.** On what the ranks hold of the rows, the layer
with the wrapped sublayers computes what the ranks hold of the stock result. -/
theorem forward_spread (p : Plan W rows) (hR : R.length = rows)
    (hpre : ∀ P ∈ pre, P.length = rows) (hSR : S.R = p.spread R)
    (hSpre : S.prevPre = pre.map p.spread) :
    L.forwardHcPreFromPrev M (some p) S
      = some { S with
          R := p.spread (L.afterMoe M S R pre)
          ranks := L.nextRanks S R pre
          prevPre := some (p.spread (L.nextPre M S R pre)) } := by
  subst hR
  have hW := p.world_pos
  have hm : ∀ {α : Type} {t : List α}, t.length = R.length → ∀ r,
      spLogicalRows (some p) (p.spread t r).length = R.length := fun ht r => by
    rw [p.length_spread ht, p.spLogicalRows_inRows]
  have hattn := L.length_attnInput rfl hpre
  have hafter := L.length_afterAttn M S hW rfl hpre
  have hmoe := L.length_moeInput M S hW rfl hpre
  -- the attention input, the residual after attention, the MoE input, the result
  have hx : (fun r => L.combineRows .attn (spLogicalRows (some p) (S.R r).length) (S.R r)
      (S.prevPre.map (· r))) = p.spread (L.attnInput R pre) := by
    funext r
    rw [hSR, hSpre, Option.map_map, hm rfl]
    exact L.combineRows_spread p .attn R.length R pre r
  have hpost : (fun r => L.postRows
      (spLogicalRows (some p)
        (p.spread (L.attnRows M.commHidden S.positions S.ranks (L.attnInput R pre)) r).length)
      (p.spread (L.attnRows M.commHidden S.positions S.ranks (L.attnInput R pre)) r) (S.R r)
      (((S.R r).map (L.hcMixStats .attn)).map Prod.snd)) = p.spread (L.afterAttn M S R pre) := by
    funext r
    rw [hSR, hm (L.length_attnRows _ hW _ _ hattn), ← p.spread_map, ← p.spread_map]
    exact L.postRows_spread p R.length _ R _ r
  have hx' : (fun r => L.combineRows .ffn
      (spLogicalRows (some p) (p.spread (L.afterAttn M S R pre) r).length)
      (p.spread (L.afterAttn M S R pre) r)
      (some (((S.R r).map (L.hcMixStats .attn)).map Prod.fst)))
        = p.spread (L.moeInput M S R pre) := by
    funext r
    rw [hSR, hm hafter, ← p.spread_map, ← p.spread_map]
    exact L.combineRows_spread p .ffn R.length _ (some _) r
  have hpost' : (fun r => L.postRows
      (spLogicalRows (some p)
        (p.spread (L.moeRows M.commHidden S.inputIds S.inputIdsGlobal
          (L.moeInput M S R pre)) r).length)
      (p.spread (L.moeRows M.commHidden S.inputIds S.inputIdsGlobal (L.moeInput M S R pre)) r)
      (p.spread (L.afterAttn M S R pre) r)
      (((p.spread (L.afterAttn M S R pre) r).map (L.hcMixStats .ffn)).map Prod.snd))
        = p.spread (L.afterMoe M S R pre) := by
    funext r
    rw [hm (L.length_moeRows _ hW _ _ hmoe), ← p.spread_map, ← p.spread_map]
    exact L.postRows_spread p R.length _ _ _ r
  have hnext : (fun r => ((p.spread (L.afterAttn M S R pre) r).map (L.hcMixStats .ffn)).map
      Prod.fst) = p.spread (L.nextPre M S R pre) := by
    funext r
    rw [← p.spread_map, ← p.spread_map]
    rfl
  unfold forwardHcPreFromPrev
  simp only [Option.bind_eq_bind]
  rw [hx, L.attnForward_spread M.commHidden p _ _ hattn, Option.bind_some]
  simp only
  simp only [congrFun hpost]
  rw [hx', L.moeForward_spread M.commHidden p _ _ hmoe, Option.bind_some, hpost', hnext]
  rfl

end Layer

/-! ## The verdicts on `wkv` -/

namespace Engram

variable (e : Engram T W)

/-- On the lookup rows `E` of a chunk of `m` rows, `wkv` of every shard is the
shard of `wkv`. This is what the self-check compares. -/
def WkvAgrees (m : ℕ) (E : List T.Emb) : Prop :=
  ∀ r : Fin W, e.wkv (shardRows (m / W) r E) = shardRows (m / W) r (e.wkv E)

/-- `wkv` of a shard is the shard of `wkv` for every chunk of `m` rows. -/
def WkvExact (m : ℕ) : Prop := ∀ E : List T.Emb, E.length = m → e.WkvAgrees m E

/-- The lookup of the stock forward. -/
def lookup (c : Comm W T.Emb) (ids : List T.Ids) : List T.Emb :=
  if e.shared then ids.map e.embed else c.allReduce (fun q => ids.map (e.ownedRows q))

theorem length_lookup (c : Comm W T.Emb) (hW : 0 < W) {ids : List T.Ids}
    (hids : ids.length = rows) : (e.lookup c ids).length = rows := by
  unfold lookup
  split
  · rw [List.length_map, hids]
  · exact c.length_allReduce _ rows hW (fun _ => (List.length_map _).trans hids)

theorem forward_eq (c : Comm W T.Emb) (x : Fin W → List T.Residual) (ids : List T.Ids) :
    e.forward c x ids = fun r => List.zipWith e.applyGate (x r) (e.wkv (e.lookup c ids)) :=
  rfl

end Engram

namespace Model

/-- The Engram layers of a model. -/
def engrams (M : Model T W) : List (Engram T W) := M.layers.filterMap Layer.engram

/-- Which kernel `wkv` takes depends on the Engram layer and the row count
only, so that a bit-exact comparison on one chunk decides for the chunk size. -/
def WkvDecisive (M : Model T W) : Prop :=
  ∀ e ∈ M.engrams, ∀ e' ∈ M.engrams, e.layerHashIndex = e'.layerHashIndex →
    ∀ (m : ℕ) (E : List T.Emb), m % W = 0 → E.length = m → e.WkvAgrees m E → e'.WkvExact m

/-- Every recorded positive verdict is right. -/
def WkvSound (M : Model T W) (ok : WkvOk) : Prop :=
  ∀ e ∈ M.engrams, ∀ m, ok (e.layerHashIndex, m) = some true → e.WkvExact m

theorem wkvSound_empty (M : Model T W) : M.WkvSound (fun _ => none) :=
  fun _ _ _ h => nomatch h

end Model

section Wkv

variable [DecidableEq T.Kv] {M : Model T W} {wkvShard : Bool} {e : Engram T W} {ok : WkvOk}

/-- **`_wkv_shard`.** It gives every rank its rows of the full projection, and
records only right verdicts. -/
theorem wkvShardRows_spec (p : Plan W rows) (hdec : wkvShard = true → M.WkvDecisive)
    (he : e ∈ M.engrams) (hsound : M.WkvSound ok) {E : List T.Emb} (hE : E.length = rows) :
    (wkvShardRows p wkvShard e (fun r => p.own r E) ok).1 = (fun r => p.own r (e.wkv E)) ∧
      M.WkvSound (wkvShardRows p wkvShard e (fun r => p.own r E) ok).2 := by
  have hmine : (fun r => p.own r (e.wkv (gatherAll (fun r => p.own r E) r)))
      = fun r => p.own r (e.wkv E) := by
    rw [p.gatherAll_own hE]
  have hmine' : ∀ r, p.own r (e.wkv (gatherAll (fun r => p.own r E) r)) = p.own r (e.wkv E) :=
    congrFun hmine
  unfold wkvShardRows
  simp only [hmine']
  cases hflag : wkvShard with
  | false => exact ⟨rfl, hsound⟩
  | true =>
    simp only [if_true]
    cases hok : ok (e.layerHashIndex, rows) with
    | none =>
      simp only
      refine ⟨?_, fun e' he' m hm => ?_⟩
      · -- a passed comparison says that the two results are the same
        split
        · rename_i hagreed
          exact funext (fun r => (of_decide_eq_true hagreed r).symm)
        · rfl
      · beta_reduce at hm
        by_cases hkey : (e'.layerHashIndex, m) = (e.layerHashIndex, rows)
        · rw [if_pos hkey] at hm
          obtain ⟨hidx, rfl⟩ := Prod.mk.inj hkey
          have hagreed := of_decide_eq_true (Option.some.inj hm)
          exact hdec hflag e he e' he' hidx.symm m E p.divides hE (fun r => (hagreed r).symm)
        · rw [if_neg hkey] at hm
          exact hsound e' he' m hm
    | some verdict =>
      cases verdict with
      | true =>
        exact ⟨funext (fun r => hsound e he rows hok E hE r), hsound⟩
      | false => exact ⟨rfl, hsound⟩

/-- **The Engram step on the shards.** It computes what the ranks hold of the
stock Engram output. -/
theorem spEngram_spread (p : Plan W rows) (hdec : wkvShard = true → M.WkvDecisive)
    (he : e ∈ M.engrams) (hsound : M.WkvSound ok) {R : List T.Residual} {ids : List T.Ids}
    (hids : ids.length = rows) :
    ∃ ok', spEngram p wkvShard M.commEmb e (p.spread R) ids ok
        = (p.spread (List.zipWith e.applyGate R (e.wkv (e.lookup M.commEmb ids))), ok') ∧
      M.WkvSound ok' := by
  have hlookup := e.length_lookup M.commEmb p.world_pos hids
  have hpart : ∀ q : Fin W, (ids.map (e.ownedRows q)).length = rows :=
    fun q => (List.length_map _).trans hids
  by_cases hsh : p.sharded = true
  · have hemb : (if (!e.shared) = true then
          reduceRows p M.commEmb
            (fun q => if e.shared = true then ids.map e.embed else ids.map (e.ownedRows q))
        else fun r => p.own r (if e.shared = true then ids.map e.embed
          else ids.map (e.ownedRows r)))
        = fun r => p.own r (e.lookup M.commEmb ids) := by
      unfold Engram.lookup
      cases e.shared with
      | false => exact reduceRows_eq p M.commEmb hpart
      | true => rfl
    obtain ⟨hkv, hsound'⟩ := wkvShardRows_spec p hdec he hsound hlookup
    refine ⟨_, ?_, hsound'⟩
    unfold spEngram
    simp only
    rw [if_pos hsh, hemb, hkv]
    refine Prod.ext (funext (fun r => ?_)) rfl
    show List.zipWith e.applyGate (p.spread R r) (p.own r _)
      = p.spread (List.zipWith e.applyGate R (e.wkv (e.lookup M.commEmb ids))) r
    rw [p.spread_zipWith, p.spread_of_sharded hsh (e.wkv _)]
  · have hsh' := Bool.eq_false_of_not_eq_true hsh
    have hemb : (if (!e.shared) = true then
          reduceOut p M.commEmb
            (fun q => if e.shared = true then ids.map e.embed else ids.map (e.ownedRows q))
        else fun q => if e.shared = true then ids.map e.embed else ids.map (e.ownedRows q))
        = fun _ => e.lookup M.commEmb ids := by
      unfold Engram.lookup
      cases e.shared with
      | false =>
        refine (reduceOut_eq p M.commEmb hpart).trans ?_
        exact p.spread_of_not_sharded hsh' _
      | true => rfl
    refine ⟨ok, ?_, hsound⟩
    unfold spEngram
    simp only
    rw [if_neg hsh, hemb]
    refine Prod.ext (funext (fun r => ?_)) rfl
    show List.zipWith e.applyGate (p.spread R r) (e.wkv _)
      = p.spread (List.zipWith e.applyGate R (e.wkv (e.lookup M.commEmb ids))) r
    rw [p.spread_zipWith, p.spread_of_not_sharded hsh' (e.wkv _)]

end Wkv

/-! ## The relation between the two loops -/

/-- Inside the region: the stock loop has the rows `R` and `pre` on every rank,
and the ranks of the sequence-parallel loop hold their parts of them. -/
structure Split (p : Plan W rows) (S : SpState T W) (St : State T W)
    (R : List T.Residual) (pre : Option (List T.Pre)) : Prop where
  length_R : R.length = rows
  length_pre : ∀ P ∈ pre, P.length = rows
  length_inputIds : St.inputIds.length = rows
  length_hashIds : ∀ h ∈ St.hashIds, h.length = rows
  stock_R : St.R = fun _ => R
  stock_pre : St.prevPre = pre.map (fun P _ => P)
  state : S.toState = { St with R := p.spread R, prevPre := pre.map p.spread }
  inRegion : S.inRegion = true
  idsRows : ∀ f ∈ S.idsRows, f = fun r => p.own r St.inputIds
  not_saved : St.saved = false

namespace Split

variable {p : Plan W rows} {S : SpState T W} {St : State T W} {R : List T.Residual}
  {pre : Option (List T.Pre)}

theorem R_eq (h : Split p S St R pre) : S.R = p.spread R := by rw [h.state]

theorem prevPre_eq (h : Split p S St R pre) : S.prevPre = pre.map p.spread := by rw [h.state]

theorem inputIds_eq (h : Split p S St R pre) : S.inputIds = St.inputIds := by rw [h.state]

theorem hashIds_eq (h : Split p S St R pre) : S.hashIds = St.hashIds := by rw [h.state]

theorem aux_eq (h : Split p S St R pre) : S.aux = St.aux := by rw [h.state]

/-- The relation after both loops replace the residual rows. -/
theorem update (h : Split p S St R pre) {R' : List T.Residual} (hR' : R'.length = rows)
    {S' : SpState T W} {St' : State T W} (hS : S'.toState = { S.toState with R := p.spread R' })
    (hSt : St' = { St with R := fun _ => R' }) (hinRegion : S'.inRegion = true)
    (hidsRows : ∀ f ∈ S'.idsRows, f = fun r => p.own r St.inputIds) :
    Split p S' St' R' pre := by
  subst hSt
  exact ⟨hR', h.length_pre, h.length_inputIds, h.length_hashIds, rfl, h.stock_pre,
    by rw [hS, h.state], hinRegion, hidsRows, h.not_saved⟩

end Split

/-- Outside the region the two loops hold the same values. -/
structure Same (S : SpState T W) (St : State T W) : Prop where
  state : S.toState = St
  inRegion : S.inRegion = false
  saved : St.saved = true

/-- The relation at the head of layer `i`: split up to the layer the tail
starts at, the same after it, and only right `wkv` verdicts. -/
structure Linked (M : Model T W) (p : Plan W rows) (c : Chunk T rows) (i : ℕ)
    (S : SpState T W) (St : State T W) : Prop where
  sound : M.WkvSound S.wkvOk
  cases : (∃ R pre, Split p S St R pre ∧ ∀ late tail, M.tailOf c = some (late, tail) → i ≤ late) ∨
    (Same S St ∧ ∃ late tail, M.tailOf c = some (late, tail) ∧ late < i)

/-- Related computations raise together, and continue related. -/
theorem rel_bind {r : α → β → Prop} {δ : Type} {q : γ → δ → Prop} {a : Option α} {b : Option β}
    {f : α → Option γ} {g : β → Option δ} (h : Option.Rel r a b)
    (hfg : ∀ x y, r x y → Option.Rel q (f x) (g y)) : Option.Rel q (a >>= f) (b >>= g) := by
  cases h with
  | some hxy => exact hfg _ _ hxy
  | none => exact .none

section Stages

variable {M : Model T W} {p : Plan W rows} {c : Chunk T rows} {i : ℕ} {L : Layer T W}
  {S : SpState T W} {St : State T W}

/-- The compressed-KV write before the tail gets every row of the chunk. -/
theorem spSourceKv_split {R : List T.Residual} {P : List T.Pre}
    (h : Split p S St R (some P)) :
    M.spSourceKv p L S.toState = some (if M.tailWritesSourceKv then
      fun r => L.writeTailSourceKv r (St.ranks r) (St.R r) (St.prevPre.map (· r)) St.positions
      else St.ranks) := by
  have hgR := p.gatherAll_own h.length_R
  have hgP := p.gatherAll_own (h.length_pre P rfl)
  rw [h.state, h.stock_R, h.stock_pre]
  unfold Model.spSourceKv
  cases M.tailWritesSourceKv with
  | false => rfl
  | true =>
    by_cases hsh : p.sharded = true
    · simp only [if_true, if_pos hsh, Option.map_some, p.spread_of_sharded hsh, hgR, hgP]
    · have hsh' := Bool.eq_false_of_not_eq_true hsh
      simp only [if_true, if_neg hsh, Option.map_some, p.spread_of_not_sharded hsh']

/-- The rows the tail keeps, collected from what the ranks hold. -/
theorem tailRows_spread (tail : Tail rows) (zero : α) {t : List α} (ht : t.length = rows) :
    (if p.sharded = true then tailRows p tail zero (p.spread t)
      else fun r => tail.rowsOf zero (p.spread t r)) = fun _ => tail.rowsOf zero t := by
  by_cases hsh : p.sharded = true
  · rw [if_pos hsh, p.spread_of_sharded hsh, tailRows_own p tail zero ht]
  · rw [if_neg hsh, p.spread_of_not_sharded (Bool.eq_false_of_not_eq_true hsh)]

/-- **Entering the tail.** Both loops raise before the first layer, and
otherwise continue with the same values on every rank. -/
theorem enterTail_rel {R : List T.Residual} {pre : Option (List T.Pre)} (tail : Tail rows)
    (h : Split p S St R pre) (hsound : M.WkvSound S.wkvOk) :
    Option.Rel (fun S' St' => M.WkvSound S'.wkvOk ∧ Same S' St')
      (M.spEnterTail p L tail S) (M.stockEnterTail L tail St) := by
  have hprevS := h.prevPre_eq
  cases pre with
  | none =>
    have hstock : M.stockEnterTail L tail St = none := by
      unfold Model.stockEnterTail
      rw [h.stock_pre]
      rfl
    have hsp : M.spEnterTail p L tail S = none := by
      unfold Model.spEnterTail
      rw [hprevS]
      cases M.spSourceKv p L S.toState <;> rfl
    rw [hstock, hsp]
    exact .none
  | some P =>
    unfold Model.spEnterTail Model.stockEnterTail
    rw [spSourceKv_split h, hprevS, h.stock_pre]
    simp only [Option.map_some, Option.bind_eq_bind, Option.bind_some]
    refine .some ⟨hsound, ?_, rfl, rfl⟩
    simp only
    rw [h.state]
    simp only [tailRows_spread tail T.zeroResidual h.length_R,
      tailRows_spread tail T.zeroPre (h.length_pre P rfl), h.stock_R]

/-- The head of an iteration keeps the relation, now past layer `i`. -/
theorem tailStep_rel (h : Linked M p c i S St) :
    Option.Rel (Linked M p c (i + 1)) (M.spTailStep p c i L S) (M.stockTailStep c i L St) := by
  obtain ⟨hsound, hcases⟩ := h
  unfold Model.spTailStep Model.stockTailStep
  cases htail : M.tailOf c with
  | none =>
    refine .some ⟨hsound, ?_⟩
    rcases hcases with ⟨R, pre, hsplit, -⟩ | ⟨-, late, tail, hsome, -⟩
    · exact .inl ⟨R, pre, hsplit, fun _ _ hsome => by rw [htail] at hsome; exact nomatch hsome⟩
    · rw [htail] at hsome
      exact nomatch hsome
  | some lt =>
    obtain ⟨late, tail⟩ := lt
    simp only
    rcases hcases with ⟨R, pre, hsplit, hle⟩ | ⟨hsame, late', tail', hsome, hlt⟩
    · have hil : i ≤ late := hle late tail htail
      by_cases heq : i = late
      · rw [if_pos heq, if_pos heq]
        have hrel := enterTail_rel (M := M) (L := L) tail hsplit hsound
        revert hrel
        generalize M.spEnterTail p L tail S = a
        generalize M.stockEnterTail L tail St = b
        intro hrel
        cases hrel with
        | none => exact .none
        | some hxy => exact .some ⟨hxy.1, .inr ⟨hxy.2, late, tail, htail, by omega⟩⟩
      · rw [if_neg heq, if_neg heq]
        refine .some ⟨hsound, .inl ⟨R, pre, hsplit, fun late' tail' hsome => ?_⟩⟩
        rw [htail] at hsome
        obtain ⟨rfl, -⟩ := Prod.mk.inj (Option.some.inj hsome)
        omega
    · obtain ⟨rfl, -⟩ := Prod.mk.inj (Option.some.inj (htail.symm.trans hsome))
      rw [if_neg (by omega), if_neg (by omega)]
      exact .some ⟨hsound, .inr ⟨hsame, late, tail, htail, by omega⟩⟩

theorem length_whereImage (img : ℕ) {ids : List ℕ} {before after : List T.Residual}
    (hids : ids.length = rows) (hb : before.length = rows) (ha : after.length = rows) :
    (whereImage img ids before after).length = rows := by
  unfold whereImage
  rw [List.length_zipWith, List.length_zip, hids, hb, ha, Nat.min_self, Nat.min_self]

/-- The image rows keep their residual: the choice is made row by row. -/
theorem whereImage_spread (img : ℕ) (ids : List ℕ) (before after : List T.Residual)
    (r : Fin W) :
    whereImage img (p.spread ids r) (p.spread before r) (p.spread after r)
      = p.spread (whereImage img ids before after) r := by
  unfold whereImage
  rw [p.spread_zipWith, p.spread_zip]

/-- **The Engram step** keeps the relation. -/
theorem engramStep_rel [DecidableEq T.Kv] {wkvShard : Bool}
    (hdec : wkvShard = true → M.WkvDecisive) (hL : L ∈ M.layers)
    (h : Linked M p c i S St) :
    Option.Rel (Linked M p c i) (M.spEngramStep wkvShard p L S) (M.stockEngram L St) := by
  obtain ⟨hsound, hcases⟩ := h
  unfold Model.spEngramStep Model.stockEngram
  cases heng : L.engram with
  | none => exact .some ⟨hsound, hcases⟩
  | some e =>
    have he : e ∈ M.engrams := List.mem_filterMap.mpr ⟨L, hL, heng⟩
    simp only
    rcases hcases with ⟨R, pre, hsplit, hle⟩ | ⟨hsame, htail⟩
    · rw [hsplit.hashIds_eq]
      cases hSt : St.hashIds with
      | none => exact .none
      | some hashIds =>
        have hids : (hashIds.map (· e.layerHashIndex)).length = rows :=
          (List.length_map _).trans (hsplit.length_hashIds hashIds hSt)
        obtain ⟨ok, heq, hsound'⟩ := spEngram_spread p hdec he hsound (R := R) hids
        have hafter : (List.zipWith e.applyGate R
            (e.wkv (e.lookup M.commEmb (hashIds.map (· e.layerHashIndex))))).length = rows := by
          rw [List.length_zipWith, e.length_wkv,
            e.length_lookup M.commEmb p.world_pos hids, hsplit.length_R, Nat.min_self]
        have hwhere := length_whereImage M.imageTokenId hsplit.length_inputIds hsplit.length_R hafter
        simp only [Option.bind_eq_bind, Option.bind_some, hsplit.inRegion, if_true,
          Bool.true_and, hsplit.R_eq, heq, e.forward_eq, hsplit.stock_R, hsplit.inputIds_eq]
        by_cases hv : M.vision = true
        · simp only [if_pos hv]
          by_cases hsh : p.sharded = true
          · have hidsRows : S.idsRows.getD (fun r => p.own r St.inputIds)
                = p.spread St.inputIds := by
              rw [p.spread_of_sharded hsh]
              cases hr : S.idsRows with
              | none => rfl
              | some f => exact hsplit.idsRows f hr
            rw [if_pos hsh, hidsRows]
            simp only [whereImage_spread]
            refine .some ⟨hsound', .inl ⟨_, pre, hsplit.update hwhere ?_ ?_ rfl ?_, hle⟩⟩
            · simp only [hsplit.inputIds_eq, hsplit.hashIds_eq, hSt]
            · rw [hSt]
            · intro f hf
              rw [← Option.some.inj hf, p.spread_of_sharded hsh]
          · have hsp : p.spread St.inputIds = fun _ => St.inputIds :=
              p.spread_of_not_sharded (Bool.eq_false_of_not_eq_true hsh) _
            have himage : (fun r => whereImage M.imageTokenId St.inputIds (p.spread R r)
                (p.spread (List.zipWith e.applyGate R
                  (e.wkv (e.lookup M.commEmb (hashIds.map (· e.layerHashIndex))))) r))
                = p.spread (whereImage M.imageTokenId St.inputIds R _) :=
              funext (fun r => by rw [← whereImage_spread, hsp])
            rw [if_neg hsh, himage]
            refine .some ⟨hsound', .inl ⟨_, pre, hsplit.update hwhere ?_ ?_ rfl hsplit.idsRows, hle⟩⟩
            · simp only [hsplit.inputIds_eq, hsplit.hashIds_eq, hSt]
            · rw [hSt]
        · simp only [if_neg hv]
          refine .some ⟨hsound', .inl ⟨_, pre, hsplit.update hafter ?_ ?_ rfl hsplit.idsRows, hle⟩⟩
          · simp only [hsplit.inputIds_eq, hsplit.hashIds_eq, hSt]
          · rw [hSt]
    · rw [hsame.state]
      cases hSt : St.hashIds with
      | none => exact .none
      | some hashIds =>
        simp only [Option.bind_eq_bind, Option.bind_some, hsame.inRegion, Bool.false_eq_true,
          if_false, Bool.false_and]
        by_cases hv : M.vision = true
        · simp only [if_pos hv]
          exact .some ⟨hsound, .inr ⟨⟨rfl, rfl, hsame.saved⟩, htail⟩⟩
        · simp only [if_neg hv]
          exact .some ⟨hsound, .inr ⟨⟨rfl, rfl, hsame.saved⟩, htail⟩⟩

/-- Inside the region both loops capture the same rows: the tail has not
started there. -/
theorem spAux_split {R : List T.Residual} {pre : Option (List T.Pre)} (h : Split p S St R pre)
    (hlt : ∀ late tail, M.tailOf c = some (late, tail) → i < late) :
    M.spAux p c i S = M.stockAux c i St := by
  unfold Model.spAux Model.stockAux
  rw [h.inRegion, Bool.true_and, h.R_eq, h.stock_R]
  cases htail : M.tailOf c with
  | none =>
    by_cases hsh : p.sharded = true
    · simp only [if_pos hsh, p.spread_of_sharded hsh, p.gatherAll_own h.length_R]
    · simp only [if_neg hsh, p.spread_of_not_sharded (Bool.eq_false_of_not_eq_true hsh)]
  | some lt =>
    simp only [if_pos (hlt lt.1 lt.2 htail)]
    exact tailRows_spread lt.2 T.zeroResidual h.length_R

/-- **The auxiliary capture** appends the same state in both loops. -/
theorem capture_linked (h : Linked M p c (i + 1) S St) :
    Linked M p c (i + 1) (M.spCapture p c i S) (M.stockCapture c i St) := by
  obtain ⟨hsound, hcases⟩ := h
  unfold Model.spCapture Model.stockCapture
  by_cases hcap : (c.captureDspark && decide (i ∈ M.dsparkLayersToCapture)) = true
  · rw [if_pos hcap, if_pos hcap]
    refine ⟨hsound, ?_⟩
    rcases hcases with ⟨R, pre, hsplit, hle⟩ | ⟨hsame, htail⟩
    · rw [spAux_split hsplit hle]
      refine .inl ⟨R, pre, ?_, hle⟩
      exact ⟨hsplit.length_R, hsplit.length_pre, hsplit.length_inputIds, hsplit.length_hashIds,
        hsplit.stock_R, hsplit.stock_pre, by simp only [hsplit.state], hsplit.inRegion,
        hsplit.idsRows, hsplit.not_saved⟩
    · have haux : M.spAux p c i S = M.stockAux c i St := by
        unfold Model.spAux
        rw [hsame.inRegion, hsame.state]
        rfl
      rw [haux]
      exact .inr ⟨⟨by simp only [hsame.state], hsame.inRegion, hsame.saved⟩, htail⟩
  · rw [if_neg hcap, if_neg hcap]
    exact ⟨hsound, hcases⟩

/-- **The layer** keeps the relation. -/
theorem layer_rel (hW : 0 < W) (h : Linked M p c i S St) :
    Option.Rel (Linked M p c i)
      ((L.forwardHcPreFromPrev M (if S.inRegion then some p else none) S.toState).map
        (fun S' => { S with toState := S' }))
      (L.forwardHcPreFromPrev M (none : Option (Plan W rows)) St) := by
  obtain ⟨hsound, hcases⟩ := h
  rcases hcases with ⟨R, pre, hsplit, hle⟩ | ⟨hsame, htail⟩
  · rw [hsplit.inRegion, if_pos rfl,
      L.forward_spread M S.toState p hsplit.length_R hsplit.length_pre hsplit.R_eq
        hsplit.prevPre_eq,
      L.forward_whole M St hsplit.length_R hW hsplit.length_pre hsplit.stock_R hsplit.stock_pre,
      hsplit.state]
    refine .some ⟨hsound, .inl ⟨L.afterMoe M St R pre, some (L.nextPre M St R pre), ?_, hle⟩⟩
    exact ⟨L.length_afterMoe M St hW hsplit.length_R hsplit.length_pre,
      fun P hP => Option.some.inj hP ▸ L.length_nextPre M St hW hsplit.length_R hsplit.length_pre,
      hsplit.length_inputIds, hsplit.length_hashIds, rfl, rfl, rfl, rfl, hsplit.idsRows,
      hsplit.not_saved⟩
  · rw [hsame.inRegion, hsame.state]
    simp only [Bool.false_eq_true, if_false]
    cases hfwd : L.forwardHcPreFromPrev M (none : Option (Plan W rows)) St with
    | none => exact .none
    | some St' =>
      refine .some ⟨hsound, .inr ⟨⟨rfl, rfl, ?_⟩, htail⟩⟩
      rw [L.forward_saved hfwd]
      exact hsame.saved

/-- **One iteration** keeps the relation. -/
theorem spLayer_rel [DecidableEq T.Kv] {wkvShard : Bool}
    (hdec : wkvShard = true → M.WkvDecisive) (hL : L ∈ M.layers) (h : Linked M p c i S St) :
    Option.Rel (Linked M p c (i + 1)) (M.spLayer wkvShard p c i L S) (M.stockLayer c i L St) := by
  unfold Model.spLayer Model.stockLayer
  refine rel_bind (tailStep_rel h) (fun S₁ St₁ h₁ => ?_)
  refine rel_bind (engramStep_rel hdec hL h₁) (fun S₂ St₂ h₂ => ?_)
  have h₃ := layer_rel (L := L) p.world_pos (capture_linked h₂)
  rw [Option.map_eq_bind] at h₃
  exact h₃

/-- **The whole loop** keeps the relation, by induction on the layers left. -/
theorem spLoop_rel [DecidableEq T.Kv] {wkvShard : Bool}
    (hdec : wkvShard = true → M.WkvDecisive) {Ls : List (Layer T W)} (hLs : ∀ L ∈ Ls, L ∈ M.layers)
    (h : Linked M p c i S St) :
    Option.Rel (Linked M p c (i + Ls.length)) (M.spLoop wkvShard p c i Ls S)
      (M.stockLoop c i Ls St) := by
  induction Ls generalizing i S St with
  | nil => exact .some h
  | cons L Ls ih =>
    have hstep := spLayer_rel hdec (hLs L List.mem_cons_self) h
    refine rel_bind hstep (fun S' St' h' => ?_)
    have hrec := ih (fun L' hL' => hLs L' (List.mem_cons_of_mem L hL')) h'
    rw [List.length_cons, Nat.add_comm Ls.length 1, ← Nat.add_assoc]
    exact hrec

end Stages

/-! ## The forward -/

section Forward

variable {M : Model T W} {p : Plan W rows} {c : Chunk T rows}

/-- The two loops start related: every rank takes its rows of the input. -/
theorem start_linked {ok : WkvOk} (hsound : M.WkvSound ok) :
    Linked M p c 0 (M.spStart p c ok) (M.start c) := by
  refine ⟨hsound, .inl ⟨c.hiddenStates, none, ?_, fun late _ _ => Nat.zero_le late⟩⟩
  refine ⟨c.length_hiddenStates, fun P hP => (nomatch hP), c.length_inputIds, fun h hh => ?_,
    rfl, rfl, rfl, rfl, fun f hf => (nomatch hf), rfl⟩
  obtain ⟨hasher, hhasher, rfl⟩ := Option.map_eq_some_iff.mp hh
  exact (M.length_hasher hasher hhasher c.inputIds).trans c.length_inputIds

theorem stockLayer_prevPre {i : ℕ} {L : Layer T W} {S S' : State T W}
    (h : M.stockLayer c i L S = some S') : S'.prevPre.isSome := by
  unfold Model.stockLayer at h
  obtain ⟨_, -, h⟩ := Option.bind_eq_some_iff.mp h
  obtain ⟨_, -, h⟩ := Option.bind_eq_some_iff.mp h
  unfold Layer.forwardHcPreFromPrev at h
  obtain ⟨_, -, h⟩ := Option.bind_eq_some_iff.mp h
  obtain ⟨_, -, h⟩ := Option.bind_eq_some_iff.mp h
  rw [← Option.some.inj h]
  rfl

/-- A loop over at least one layer leaves mixing weights. -/
theorem stockLoop_prevPre {i : ℕ} {Ls : List (Layer T W)} {S S' : State T W}
    (hne : Ls ≠ [] ∨ S.prevPre.isSome) (h : M.stockLoop c i Ls S = some S') :
    S'.prevPre.isSome := by
  induction Ls generalizing i S with
  | nil =>
    obtain rfl := Option.some.inj h
    exact hne.resolve_left (fun hne => hne rfl)
  | cons L Ls ih =>
    obtain ⟨S₁, hS₁, hrest⟩ := Option.bind_eq_some_iff.mp h
    exact ih (.inr (stockLayer_prevPre hS₁)) hrest

/-- What the loop leaves in the region is gathered into the stock result. -/
theorem finish_split {S : SpState T W} {St : State T W} {R : List T.Residual} {P : List T.Pre}
    (hsh : p.sharded = true) (h : Split p S St R (some P)) :
    M.finish { S.toState with R := gatherAll S.R, prevPre := some (gatherAll (p.spread P)) }
      = M.finish St := by
  have hR : gatherAll (p.spread R) = St.R := by
    rw [p.spread_of_sharded hsh, p.gatherAll_own h.length_R, h.stock_R]
  have hP : some (gatherAll (p.spread P)) = St.prevPre := by
    rw [p.spread_of_sharded hsh, p.gatherAll_own (h.length_pre P rfl), h.stock_pre]
    rfl
  rw [h.R_eq, hR, hP, h.state]

/-- **The forward, for one chunk.** With right verdicts recorded, the
sequence-parallel forward raises where the stock one does and returns the same
on every rank, and it records only right verdicts. Only a sharded plan on a
model without layers is left out. -/
theorem spForwardLayers_rel [DecidableEq T.Kv] {wkvShard : Bool} {ok : WkvOk}
    (hdec : wkvShard = true → M.WkvDecisive) (hsound : M.WkvSound ok)
    (hne : M.layers ≠ [] ∨ p.sharded = false) :
    Option.Rel (fun a out => a.1 = out ∧ M.WkvSound a.2)
      (M.spForwardLayers wkvShard p c ok) (M.stockForwardLayers c) := by
  have hloop := spLoop_rel hdec (fun L (hL : L ∈ M.layers) => hL)
    (start_linked (p := p) (c := c) hsound)
  unfold Model.spForwardLayers Model.stockForwardLayers
  cases hst : M.stockLoop c 0 M.layers (M.start c) with
  | none =>
    rw [hst] at hloop
    cases hsp : M.spLoop wkvShard p c 0 M.layers (M.spStart p c ok) with
    | none => exact .none
    | some S =>
      rw [hsp] at hloop
      exact nomatch hloop
  | some St =>
    rw [hst] at hloop
    cases hsp : M.spLoop wkvShard p c 0 M.layers (M.spStart p c ok) with
    | none =>
      rw [hsp] at hloop
      exact nomatch hloop
    | some S =>
      rw [hsp] at hloop
      obtain ⟨hsound', hcases⟩ : Linked M p c _ S St := by
        cases hloop
        assumption
      simp only [Option.bind_eq_bind, Option.bind_some]
      rcases hcases with ⟨R, pre, hsplit, -⟩ | ⟨hsame, -⟩
      · have hsaved : ¬ S.saved = true := by
          rw [hsplit.state]
          simp [hsplit.not_saved]
        rw [if_neg hsaved]
        by_cases hsh : p.sharded = true
        · -- at least one layer has run, so there are weights to gather
          have hlayers : M.layers ≠ [] := hne.resolve_right (by rw [hsh]; exact Bool.true_eq_false.mp)
          have hpre := stockLoop_prevPre (.inl hlayers) hst
          rw [hsplit.stock_pre, Option.isSome_map] at hpre
          obtain ⟨P, rfl⟩ := Option.isSome_iff_exists.mp hpre
          rw [if_pos hsh, hsplit.prevPre_eq]
          exact .some ⟨finish_split hsh hsplit, hsound'⟩
        · have hsp : ∀ {α : Type} (t : List α), p.spread t = fun _ => t :=
            fun t => p.spread_of_not_sharded (Bool.eq_false_of_not_eq_true hsh) t
          have hstate : S.toState = St := by
            have hmap : (pre.map p.spread : Option (Fin W → List T.Pre)) = St.prevPre := by
              rw [hsplit.stock_pre]
              exact congrArg (fun f => pre.map f) (funext hsp)
            rw [hsplit.state, hsp, ← hsplit.stock_R, hmap]
          rw [if_neg hsh, hstate]
          exact .some ⟨rfl, hsound'⟩
      · have hsaved : S.saved = true := by
          rw [hsame.state]
          exact hsame.saved
        rw [if_pos hsaved, hsame.state]
        exact .some ⟨rfl, hsound'⟩

/-- The forward as an equation: the two loops return the same or both raise. -/
theorem spForwardLayers_eq [DecidableEq T.Kv] {wkvShard : Bool} {ok : WkvOk}
    (hdec : wkvShard = true → M.WkvDecisive) (hsound : M.WkvSound ok)
    (hne : M.layers ≠ [] ∨ p.sharded = false) :
    (M.spForwardLayers wkvShard p c ok).map Prod.fst = M.stockForwardLayers c := by
  have hrel := spForwardLayers_rel (p := p) (c := c) hdec hsound hne
  revert hrel
  generalize M.spForwardLayers wkvShard p c ok = a
  generalize M.stockForwardLayers c = b
  rintro (⟨rfl, -⟩ | _)
  · rfl
  · rfl

/-- The verdicts a process can have recorded: those that forwards over earlier
chunks leave, from none at its start. -/
def Model.WkvReached [DecidableEq T.Kv] (M : Model T W) (wkvShard : Bool) : WkvOk → Prop :=
  Transition.Reachable
    (fun ok (a : Σ rows : ℕ, Plan W rows × Chunk T rows) =>
      (M.spForwardLayers wkvShard a.2.1 a.2.2 ok).map Prod.snd)
    (fun _ _ => True) (fun _ => none)

/-- Every recorded positive verdict is right, over all the chunks of a process. -/
theorem wkvSound_of_reached [DecidableEq T.Kv] {wkvShard : Bool} {ok : WkvOk}
    (hdec : wkvShard = true → M.WkvDecisive) (h : M.WkvReached wkvShard ok) :
    M.WkvSound ok := by
  refine Transition.Reachable.invariant M.WkvSound M.wkvSound_empty ?_ h
  rintro ok ⟨rows, p, c⟩ ok' hsound - hstep
  obtain ⟨⟨out, _⟩, hfwd, rfl⟩ := Option.map_eq_some_iff.mp hstep
  by_cases hne : M.layers ≠ [] ∨ p.sharded = false
  · have hrel := spForwardLayers_rel (p := p) (c := c) hdec hsound hne
    rw [show M.spForwardLayers wkvShard p c ok = some (out, _) from hfwd] at hrel
    revert hrel
    generalize M.stockForwardLayers c = b
    rintro (⟨-, hsound'⟩ | _)
    exact hsound'
  · -- without layers a sharded forward raises
    obtain ⟨hnil, hsh⟩ := not_or.mp hne
    have hraise : M.spForwardLayers wkvShard p c ok = none := by
      unfold Model.spForwardLayers
      rw [not_not.mp hnil]
      simp only [Model.spLoop, Option.bind_eq_bind, Option.bind_some]
      rw [if_neg (by exact Bool.false_ne_true), if_pos (Bool.eq_true_of_not_eq_false hsh)]
      rfl
    rw [show M.spForwardLayers wkvShard p c ok = some (out, _) from hfwd] at hraise
    exact nomatch hraise

/-- Row by row, the kernel of `wkv` does not matter: every verdict is right. -/
theorem wkvDecisive_of_rowwise
    (h : ∀ e ∈ M.engrams, ∃ f : T.Emb → T.Kv, e.wkv = List.map f) : M.WkvDecisive := by
  intro e _ e' he' _ m _ _ _ _ E _ r
  obtain ⟨f, hf⟩ := h e' he'
  rw [hf, shardRows_map]

/-- The installed forward returns what the stock forward returns, whatever mode
the process runs in and whether or not the chunk is eligible. -/
theorem forwardLayers_eq [DecidableEq T.Kv] {wkvShard : Bool} {ok : WkvOk}
    (hdec : wkvShard = true → M.WkvDecisive) (hok : M.WkvReached wkvShard ok)
    (hne : M.layers ≠ []) (mode : Mode) (exact plainExtend : Bool) (minRows : ℕ) :
    (M.forwardLayers wkvShard (planOf W rows mode exact minRows plainExtend) c ok).map Prod.fst
      = M.stockForwardLayers c := by
  unfold Model.forwardLayers
  cases planOf W rows mode exact minRows plainExtend with
  | none => rw [Option.map_map]; exact Option.map_id' (x := M.stockForwardLayers c)
  | some p => exact spForwardLayers_eq hdec (wkvSound_of_reached hdec hok) (.inl hne)

/-- **Prefill sequence parallelism is exact.** For every chunk of a process, on
a model with at least one layer, the sequence-parallel loop returns on every
rank the hidden states, the mixing weights, the auxiliary states and the
caches of the stock loop on the full rows, and raises exactly where the stock
loop does. In the `comm` mode, where nothing is sharded, this holds without
layers too. -/
theorem sp_forward_layers_exact [DecidableEq T.Kv] (M : Model T W) (wkvShard : Bool)
    (hdec : wkvShard = true → M.WkvDecisive) {ok : WkvOk} (hok : M.WkvReached wkvShard ok)
    (p : Plan W rows) (c : Chunk T rows) (hne : M.layers ≠ [] ∨ p.sharded = false) :
    (M.spForwardLayers wkvShard p c ok).map Prod.fst = M.stockForwardLayers c :=
  spForwardLayers_eq hdec (wkvSound_of_reached hdec hok) hne

end Forward

/-! ## Two ranks -/

/-- Integer rows; a rank's state is the list of the rows its attention has seen. -/
abbrev intTensors : Tensors where
  Residual := ℤ
  Pre := ℤ
  Hidden := ℤ
  Mix := ℤ
  Ids := ℕ
  Emb := ℤ
  Kv := ℤ
  Aux := ℤ
  Rank := List ℤ
  zeroResidual := 0
  zeroPre := 0
  zeroIds := 0

attribute [local instance] ranks_neZero

/-- The group of two ranks, which adds their rows. -/
def pairComm : Comm 2 ℤ where
  allReduce f := List.zipWith (· + ·) (f 0) (f 1)
  reduceScatterTensor f r := shardRows ((f 0).length / 2) r (List.zipWith (· + ·) (f 0) (f 1))
  length_allReduce f n _ h := by rw [List.length_zipWith, h 0, h 1, Nat.min_self]
  reduceScatter_eq f s h r := by rw [h 0, Nat.mul_div_cancel_left s Nat.two_pos]

/-- An Engram layer whose tables are split by the parity of the id. -/
def parityEngram : Engram intTensors 2 where
  layerHashIndex := 0
  shared := false
  embed i := i
  ownedRows q i := if i % 2 = q.val then i else 0
  wkv := List.map (3 * ·)
  applyGate r k := r + k
  length_wkv _ := List.length_map _

/-- A layer whose attention and MoE mix all rows. -/
def mixingLayer (engram : Option (Engram intTensors 2)) : Layer intTensors 2 where
  engram := engram
  hcCombine _ _ r pre := r + pre.getD 1
  hcMixStats _ r := (r, 2 * r)
  hcPost _ h r m := h + r + m
  selfAttn q σ _ x := (σ ++ x, x.map (fun v => (q.val + 1) * (v + x.sum)))
  mlp q x _ _ := x.map (fun v => v * q.val + x.sum)
  writeTailSourceKv _ σ R _ _ := σ ++ R
  length_selfAttn _ _ _ _ := List.length_map _
  length_mlp _ _ _ _ := List.length_map _

/-- A model of `layers` on two ranks, with its tail from layer 1 on. -/
def pairModel (layers : List (Layer intTensors 2)) : Model intTensors 2 where
  layers := layers
  lateLayerStart := some 1
  tailWritesSourceKv := true
  engramHasher := some (List.map (fun i _ => i + 1))
  dsparkLayersToCapture := [0, 1]
  vision := true
  imageTokenId := 7
  mean r := r
  enterLateLayerTail σ := σ
  exitLateLayerTail σ := σ
  commHidden := pairComm
  commEmb := pairComm
  length_hasher h hh ids := by
    obtain rfl := Option.some.inj hh
    exact List.length_map _

/-- A chunk of four rows whose tail is its rows 0 and 3 and one padding row. -/
def pairChunk (tail : Bool) : Chunk intTensors 4 where
  positions := [0, 1, 2, 3]
  hiddenStates := [5, -2, 3, 8]
  inputIds := [4, 7, 1, 2]
  inputIdsGlobal := [4, 7, 1, 2]
  captureDspark := true
  lateLayerTail := if tail then
      some ⟨none, [0, 3], [0, 3], 1, fun _ h => (nomatch h), by decide⟩
    else none
  ranks _ := []
  length_hiddenStates := rfl
  length_inputIds := rfl

def pairPlan : Plan 2 4 := ⟨true, false, Nat.two_pos, rfl⟩

theorem sp_forward_layers_exact_twoRanks :
    ((pairModel [mixingLayer (some parityEngram), mixingLayer none]).stockForwardLayers
        (pairChunk true)).isSome ∧
      ((pairModel [mixingLayer (some parityEngram), mixingLayer none]).spForwardLayers true
          pairPlan (pairChunk true) (fun _ => none)).map Prod.fst
        = (pairModel [mixingLayer (some parityEngram), mixingLayer none]).stockForwardLayers
            (pairChunk true) := by
  refine ⟨by decide +kernel, sp_forward_layers_exact _ true (fun _ => ?_) .start pairPlan
    (pairChunk true) (.inl (List.cons_ne_nil _ _))⟩
  refine wkvDecisive_of_rowwise (fun e he => ⟨(3 * ·), ?_⟩)
  obtain rfl : e = parityEngram := List.mem_singleton.mp he
  rfl

/-- Without layers the sharded loop has no mixing weights to gather and raises,
where the stock loop returns its input. -/
theorem no_layers_raises :
    ((pairModel []).spForwardLayers true pairPlan (pairChunk false) (fun _ => none)).map Prod.fst
      ≠ (pairModel []).stockForwardLayers (pairChunk false) := by
  intro h
  have hisSome := congrArg Option.isSome h
  exact absurd hisSome (by decide +kernel)

end PrefillSp

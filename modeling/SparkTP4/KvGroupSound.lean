import SparkTP4.KvGroup
import SparkTP4.KvPlanExact

/-!
# The kept plan is the right one

Whatever the reader returns, new or kept, is what a fresh plan of the call would be
(`returned_current`). Two things are kept along a run.

- The kept plan is still current for the tensors it was made for (`Held`): its buffer is
  written by a plan only after the group is dropped.
- The kept plan's layer is not after the last layer that ran, and if it is that layer then its
  tensors are that layer's (`Placed`). A hit needs the layer just before, and the first layer
  of a forward is its own group start, so what is returned again was made for, or returned to,
  the previous layer of this forward, in the same group.
-/

namespace KvGroup

open KvPlan

/-! ## The first layer of a forward -/

section Groups

variable {cfg : Config}

theorem lastSource_spec {sources : List ℕ} {layer ratio k : ℕ}
    (h : lastSource cfg sources layer ratio = some k) :
    k ∈ sources ∧ k ≤ layer ∧ cfg.ratios[k]? = some ratio := by
  have hmem := List.max?_mem h
  rw [List.mem_filter, Bool.and_eq_true, decide_eq_true_iff, decide_eq_true_iff] at hmem
  exact hmem

theorem lastSource_isSome {sources : List ℕ} {layer ratio k : ℕ} (hmem : k ∈ sources)
    (hle : k ≤ layer) (hratio : cfg.ratios[k]? = some ratio) :
    ∃ k', lastSource cfg sources layer ratio = some k' := by
  refine Option.isSome_iff_exists.mp (List.isSome_max?_of_mem (a := k) ?_)
  rw [List.mem_filter, Bool.and_eq_true, decide_eq_true_iff, decide_eq_true_iff]
  exact ⟨hmem, hle, hratio⟩

theorem groupStart_eq_some {layer start : ℕ} : groupStart cfg layer = some start ↔
    ∃ ratio, cfg.ratios[layer]? = some ratio ∧ (ratio = 1 ∨ ratio = 2) ∧
      ∃ k, lastSource cfg cfg.kvSources layer ratio = some k ∧
      ∃ x, lastSource cfg cfg.indexSources layer ratio = some x ∧ max k x = start := by
  unfold groupStart
  simp only [Option.bind_eq_bind, Option.bind_eq_some_iff]
  refine exists_congr fun ratio => and_congr_right fun _ => ?_
  split
  · next h => simp [h, Option.bind_eq_some_iff]
  · next h => simp [h]

/-- **A group start has a group**, at or before the layers of its group. -/
theorem groupStart_start {layer start : ℕ} (h : groupStart cfg layer = some start) :
    start ≤ layer ∧ ∃ start', groupStart cfg start = some start' := by
  obtain ⟨ratio, -, hlow, k, hk, x, hx, rfl⟩ := groupStart_eq_some.mp h
  obtain ⟨hkmem, hkle, hkratio⟩ := lastSource_spec hk
  obtain ⟨hxmem, hxle, hxratio⟩ := lastSource_spec hx
  have hratio : cfg.ratios[max k x]? = some ratio := by
    rcases max_choice k x with h | h
    · rw [h, hkratio]
    · rw [h, hxratio]
  obtain ⟨k', hk'⟩ := lastSource_isSome hkmem (le_max_left k x) hkratio
  obtain ⟨x', hx'⟩ := lastSource_isSome hxmem (le_max_right k x) hxratio
  exact ⟨max_le hkle hxle, max k' x',
    groupStart_eq_some.mpr ⟨ratio, hratio, hlow, k', hk', x', hx', rfl⟩⟩

theorem mem_taggedLayers {layer : ℕ} :
    layer ∈ taggedLayers cfg ↔ ∃ start, groupStart cfg layer = some start := by
  refine ⟨fun h => Option.isSome_iff_exists.mp (List.mem_filter.mp h).2, fun h => ?_⟩
  obtain ⟨start, hstart⟩ := h
  obtain ⟨ratio, hratio, -⟩ := groupStart_eq_some.mp hstart
  refine List.mem_filter.mpr ⟨List.mem_range.mpr ?_, Option.isSome_iff_exists.mpr ⟨start, hstart⟩⟩
  exact (List.getElem?_eq_some_iff.mp hratio).1

/-- **The first tagged layer is its own group start.** -/
theorem groupStart_first {layer start : ℕ} (h : nextLayer cfg none = some layer)
    (hstart : groupStart cfg layer = some start) : start = layer := by
  obtain ⟨hle, hgroup⟩ := groupStart_start hstart
  have hmem := mem_taggedLayers.mpr hgroup
  obtain ⟨rest, hrest⟩ : ∃ rest, taggedLayers cfg = layer :: rest := List.head?_eq_some_iff.mp h
  have hsorted : (taggedLayers cfg).Pairwise (· < ·) := List.pairwise_lt_range.filter _
  rw [hrest] at hmem hsorted
  rcases List.mem_cons.mp hmem with heq | hin
  · exact heq
  · exact absurd ((List.pairwise_cons.mp hsorted).1 start hin) (not_lt.mpr hle)

theorem nextLayer_gt {layer layer' : ℕ} (h : nextLayer cfg (some layer) = some layer') :
    layer < layer' :=
  of_decide_eq_true (List.find?_some (p := fun l => decide (layer < l)) h)

end Groups

/-! ## What a plan of a call is -/

section Plans

variable {env : Env} {x : Contents}

/-- A block of the dedup divides the rows, and its entries have 13-bit positions. -/
theorem dedupBlock_spec {rows k : ℕ} (h : dedupBlock env rows k ≠ 0) :
    dedupBlock env rows k ∣ rows ∧ dedupBlock env rows k * k ≤ 2 ^ 13 := by
  unfold dedupBlock DEDUP_MAX_ENTRIES at h ⊢
  split at h
  · exact absurd rfl h
  · next hcond =>
    rw [if_neg hcond]
    push Not at hcond
    exact ⟨Nat.dvd_of_mod_eq_zero hcond.2.2.1, by omega⟩

/-- **The plan of a call is sound.** -/
theorem planFor_sound {empty : ℕ → ℤ} {kind : Kind} {plan : Plan}
    (h : planFor env x empty kind = some plan) : Sound x.call plan := by
  cases kind with
  | groupView =>
    obtain rfl := Option.some.inj h
    split
    · exact planGroupTorch_sound
    · next hblock =>
      obtain ⟨hdvd, hmax⟩ := dedupBlock_spec hblock
      split
      · exact dedupTriton_sound empty hmax hdvd
      · exact planDedupTorch_sound _ hmax hdvd
  | groupPage =>
    obtain rfl := Option.some.inj h
    exact groupPage_sound
  | nativePage => exact nativePageView_sound h

/-- Two plans with the same tokens, slots and pages, and the same rewritten indices of the
matrix. -/
structure Plan.Agree {nPool : ℕ} (e : KvPlan.Call nPool) (p q : Plan) : Prop where
  list : p.list = q.list
  nPages : p.nPages = q.nPages
  newIdx : ∀ i < e.rows, ∀ j < e.k, p.newIdx i j = q.newIdx i j

/-- **A plan does not depend on what uninitialised memory holds.** -/
theorem planFor_agree {empty : ℕ → ℤ} {kind : Kind} {plan : Plan}
    (h : planFor env x empty kind = some plan) (empty' : ℕ → ℤ) :
    ∃ plan', planFor env x empty' kind = some plan' ∧ Plan.Agree x.call plan plan' := by
  cases kind with
  | groupView =>
    obtain rfl := Option.some.inj h
    refine ⟨_, rfl, ?_⟩
    split
    · exact ⟨rfl, rfl, fun _ _ _ _ => rfl⟩
    · next hblock =>
      obtain ⟨hdvd, hmax⟩ := dedupBlock_spec hblock
      split
      · refine ⟨rfl, rfl, fun i hi j hj => ?_⟩
        rw [dedupTriton_newIdx _ hmax hdvd hi hj, dedupTriton_newIdx _ hmax hdvd hi hj]
      · refine ⟨rfl, rfl, fun i hi j hj => ?_⟩
        rw [planDedupTorch_newIdx _ hmax hdvd hi hj, planDedupTorch_newIdx _ hmax hdvd hi hj]
  | groupPage => exact ⟨plan, h, rfl, rfl, fun _ _ _ _ => rfl⟩
  | nativePage => exact ⟨plan, h, rfl, rfl, fun _ _ _ _ => rfl⟩

/-- The mode in a signature tells which reader made the plan. -/
theorem modeOf_injective : Function.Injective (modeOf env x) := by
  intro kind kind' h
  cases kind <;> cases kind' <;> first | rfl | cases h

end Plans

/-! ## A plan that is kept stays current -/

section Current

variable {env : Env} {x : Contents} {kind : Kind} {r : Result} {s s' : Cache}

/-- **A return stays current** as long as nothing writes its buffer. -/
theorem Current.frame (h : Current env x kind r s) (hmem : s'.mem r.view.buf = s.mem r.view.buf)
    (hwriter : s'.writer r.view.buf = s.writer r.view.buf) : Current env x kind r s' where
  planned := h.planned
  index := h.index
  pages := h.pages
  rows empty plan hplan w hw hpos := by rw [hmem]; exact h.rows empty plan hplan w hw hpos
  live := by rw [hmem]; exact h.live
  writer := hwriter.trans h.writer

/-- What a group returns. -/
def Group.result (G : Group) : Result := ⟨G.view, G.newIdx, G.plan⟩

/-- **The kept plan is current** for what it was made for, and in a buffer that exists, as the
scratches are. -/
structure Held (env : Env) (s : Cache) : Prop where
  scratch : ∀ d b, s.scratch d = some b → b.id < s.nextBuf
  buf : ∀ G, s.group = some G → G.view.buf < s.nextBuf
  mode : ∀ G, s.group = some G → G.sig.mode = modeOf env G.contents G.kind
  current : ∀ G, s.group = some G → Current env G.contents G.kind G.result s

/-- The tag is of no matter. -/
theorem Held.setTag (h : Held env s) (tag : Option (ℕ × ℕ)) : Held env { s with tag := tag } where
  scratch := h.scratch
  buf := h.buf
  mode := h.mode
  current G hG := (h.current G hG).frame rfl rfl

/-- Without a group only the scratches count. -/
theorem Held.of_none (hgroup : s.group = none)
    (hscratch : ∀ d b, s.scratch d = some b → b.id < s.nextBuf) : Held env s where
  scratch := hscratch
  buf _ hG := nomatch hgroup.symm.trans hG
  mode _ hG := nomatch hgroup.symm.trans hG
  current _ hG := nomatch hgroup.symm.trans hG

/-! ## Scratches -/

/-- What choosing a scratch leaves as it is: the tag, the group, and the buffers there are. -/
structure Extends (s s' : Cache) : Prop where
  tag : s'.tag = s.tag
  group : s'.group = s.group
  nextBuf : s.nextBuf ≤ s'.nextBuf
  mem : ∀ b < s.nextBuf, s'.mem b = s.mem b
  writer : s'.writer = s.writer

theorem Extends.refl (s : Cache) : Extends s s := ⟨rfl, rfl, le_rfl, fun _ _ => rfl, rfl⟩

/-- The kept plan is not in a buffer that is new. -/
theorem Held.extends (h : Held env s) (he : Extends s s')
    (hscratch : ∀ d b, s'.scratch d = some b → b.id < s'.nextBuf) : Held env s' where
  scratch := hscratch
  buf G hG := (h.buf G (he.group ▸ hG)).trans_le he.nextBuf
  mode G hG := h.mode G (he.group ▸ hG)
  current G hG :=
    (h.current G (he.group ▸ hG)).frame (he.mem _ (h.buf G (he.group ▸ hG)))
      (congrFun he.writer _)

theorem newScratch_spec (hscratch : ∀ d b, s.scratch d = some b → b.id < s.nextBuf)
    (device nPages k ptr : ℕ) : Extends s (s.newScratch device nPages k ptr).2 ∧
      (∀ d b, (s.newScratch device nPages k ptr).2.scratch d = some b →
        b.id < (s.newScratch device nPages k ptr).2.nextBuf) ∧
      (s.newScratch device nPages k ptr).1.id < (s.newScratch device nPages k ptr).2.nextBuf := by
  refine ⟨⟨rfl, rfl, Nat.le_succ _, fun b hb => Function.update_of_ne hb.ne _ _, rfl⟩, ?_,
    Nat.lt_succ_self _⟩
  intro d b hb
  unfold Cache.newScratch at hb ⊢
  dsimp only at hb ⊢
  by_cases hd : d = device
  · subst hd
    rw [Function.update_self] at hb
    obtain rfl := Option.some.inj hb
    exact Nat.lt_succ_self _
  · rw [Function.update_of_ne hd] at hb
    exact (hscratch d b hb).trans (Nat.lt_succ_self _)

theorem tokenScratch_spec (hscratch : ∀ d b, s.scratch d = some b → b.id < s.nextBuf)
    (device nPages k ptr : ℕ) : Extends s (s.tokenScratch device nPages k ptr).2 ∧
      (∀ d b, (s.tokenScratch device nPages k ptr).2.scratch d = some b →
        b.id < (s.tokenScratch device nPages k ptr).2.nextBuf) ∧
      (s.tokenScratch device nPages k ptr).1.id <
        (s.tokenScratch device nPages k ptr).2.nextBuf := by
  unfold Cache.tokenScratch
  split
  · next b hb =>
    split
    · exact newScratch_spec hscratch device nPages k ptr
    · exact ⟨.refl s, hscratch, hscratch device b hb⟩
  · exact newScratch_spec hscratch device nPages k ptr

/-- **The scratch of a call** is a buffer that exists. -/
theorem scratchFor_spec (hscratch : ∀ d b, s.scratch d = some b → b.id < s.nextBuf) (c : Call)
    (x : Contents) : Extends s (s.scratchFor c x).2 ∧
      (∀ d b, (s.scratchFor c x).2.scratch d = some b → b.id < (s.scratchFor c x).2.nextBuf) ∧
      ∀ b, (s.scratchFor c x).1 = some b →
        c.kind = .groupView ∧ b.id < (s.scratchFor c x).2.nextBuf := by
  unfold Cache.scratchFor
  split
  · next hkind =>
    obtain ⟨hext, hin, hid⟩ := tokenScratch_spec hscratch c.tensors.device
      (cdiv (x.call.rows * x.call.k) SUB) x.call.k c.ptr
    refine ⟨hext, hin, fun b hb => ⟨hkind, ?_⟩⟩
    obtain rfl := Option.some.inj hb
    exact hid
  · exact ⟨.refl s, hscratch, nofun⟩

end Current

/-! ## A call of the reader -/

section Read

variable {env : Env} {s : Cache} {c : Call} {x : Contents} {sig : Sig} {r : Cache × Option Result}

theorem hit_eq_some {G : Group} (h : s.hit sig = some G) : s.group = some G ∧ G.sig = sig ∧
    ∃ t, s.tag = some t ∧ t.1 ≠ t.2 ∧ G.start = some t.2 ∧ G.layer.map (· + 1) = some t.1 := by
  unfold Cache.hit at h
  split at h
  · next layer start G' htag hgroup =>
    obtain ⟨⟨hne, hsig, hstart, hlayer⟩, hG⟩ := Option.ite_none_right_eq_some.mp h
    obtain rfl := Option.some.inj hG
    exact ⟨hgroup, hsig, (layer, start), htag, hne, hstart, hlayer⟩
  · cases h

/-- What a plan that is kept leaves in its buffer. -/
theorem keep_mem (plan : Plan) (id nPages : ℕ) : (s.keep env c x sig plan id nPages).1.mem id =
    transcodeList x.pool env.rule (s.mem id) plan.list :=
  Function.update_self ..

/-- **A plan just written is current.** -/
theorem keep_current {plan : Plan} {id nPages : ℕ} (hplan : planFor env x c.empty c.kind = some plan)
    (hpages : nPages = if c.kind = .groupView then plan.nPages else max plan.nPages 1) :
    Current env x c.kind ⟨⟨id, nPages⟩, plan.newIdx, s.plans⟩
      (s.keep env c x sig plan id nPages).1 where
  planned empty := by
    obtain ⟨plan', hplan', -⟩ := planFor_agree hplan empty
    exact ⟨plan', hplan'⟩
  index empty plan' hplan' i hi j hj := by
    obtain ⟨q, hq, hagree⟩ := planFor_agree hplan empty
    obtain rfl := Option.some.inj (hplan'.symm.trans hq)
    exact hagree.newIdx i hi j hj
  pages empty plan' hplan' := by
    obtain ⟨q, hq, hagree⟩ := planFor_agree hplan empty
    obtain rfl := Option.some.inj (hplan'.symm.trans hq)
    exact hagree.nPages ▸ hpages
  rows empty plan' hplan' w hw hpos := by
    obtain ⟨q, hq, hagree⟩ := planFor_agree hplan empty
    obtain rfl := Option.some.inj (hplan'.symm.trans hq)
    rw [← hagree.list] at hw
    show readV4Row ((s.keep env c x sig plan id nPages).1.mem id) w.2 = _
    rw [keep_mem]
    exact (planFor_sound hplan).readV4Row (s.mem id) hw hpos
  live i hi j hj hlive := by
    obtain ⟨slot, hslot, hmem⟩ := (planFor_sound hplan).served i hi j hj hlive
    refine ⟨slot, hslot, ?_⟩
    show readV4Row ((s.keep env c x sig plan id nPages).1.mem id) slot = _
    rw [keep_mem]
    exact (planFor_sound hplan).readV4Row (s.mem id) hmem (Call.entry_nonneg hlive)
  writer := Function.update_self ..

/-- The cache after a plan that is kept in a buffer that exists. -/
theorem keep_held {plan : Plan} {id nPages : ℕ}
    (hscratch : ∀ d b, s.scratch d = some b → b.id < s.nextBuf)
    (hplan : planFor env x c.empty c.kind = some plan)
    (hpages : nPages = if c.kind = .groupView then plan.nPages else max plan.nPages 1)
    (hmode : sig.mode = modeOf env x c.kind) (hid : id < s.nextBuf) :
    Held env (s.keep env c x sig plan id nPages).1 where
  scratch := hscratch
  buf G hG := by
    obtain rfl := Option.some.inj hG
    exact hid
  mode G hG := by
    obtain rfl := Option.some.inj hG
    exact hmode
  current G hG := by
    obtain rfl := Option.some.inj hG
    exact keep_current hplan hpages

/-- What a call that makes its own plan leaves: a cache with that plan, or with none. -/
structure Made (env : Env) (s : Cache) (c : Call) (x : Contents) (r : Cache × Option Result) :
    Prop where
  held : Held env r.1
  tag : r.1.tag = none
  layer : ∀ G, r.1.group = some G → G.layer = s.tag.map Prod.fst
  start : ∀ G, r.1.group = some G → G.start = s.tag.map Prod.snd
  contents : ∀ G, r.1.group = some G → G.sig.tensors = c.tensors ∧ G.contents = x
  current : ∀ result, r.2 = some result → Current env x c.kind result r.1

theorem keep_made {plan : Plan} {id nPages : ℕ}
    (hscratch : ∀ d b, s.scratch d = some b → b.id < s.nextBuf)
    (hplan : planFor env x c.empty c.kind = some plan)
    (hpages : nPages = if c.kind = .groupView then plan.nPages else max plan.nPages 1)
    (htensors : sig.tensors = c.tensors) (hmode : sig.mode = modeOf env x c.kind)
    (hid : id < s.nextBuf) : Made env s c x (s.keep env c x sig plan id nPages) where
  held := keep_held hscratch hplan hpages hmode hid
  tag := rfl
  layer G hG := by
    obtain rfl := Option.some.inj hG
    rfl
  start G hG := by
    obtain rfl := Option.some.inj hG
    rfl
  contents G hG := by
    obtain rfl := Option.some.inj hG
    exact ⟨htensors, rfl⟩
  current result hresult := by
    obtain rfl := Option.some.inj hresult
    exact keep_current hplan hpages

variable (env sig) in
theorem fresh_made {buf : Option Buf}
    (hscratch : ∀ d b, s.scratch d = some b → b.id < s.nextBuf)
    (hbuf : ∀ b, buf = some b → c.kind = .groupView ∧ b.id < s.nextBuf)
    (hnone : buf = none → c.kind ≠ .groupView)
    (htensors : sig.tensors = c.tensors) (hmode : sig.mode = modeOf env x c.kind) :
    Made env s c x (s.fresh env c x sig buf) := by
  unfold Cache.fresh
  split
  · refine ⟨.of_none rfl hscratch, rfl, ?_, ?_, ?_, ?_⟩ <;> intro _ h <;> cases h
  · next plan hplan =>
    cases buf with
    | some b =>
      obtain ⟨hkind, hid⟩ := hbuf b rfl
      exact keep_made hscratch hplan (if_pos hkind).symm htensors hmode hid
    | none =>
      have hscratch' : ∀ d b, s.newPages.scratch d = some b → b.id < s.newPages.nextBuf :=
        fun d b hb => (hscratch d b hb).trans (Nat.lt_succ_self _)
      have hmade := keep_made (s := s.newPages) hscratch' hplan (if_neg (hnone rfl)).symm htensors
        hmode (Nat.lt_succ_self s.nextBuf)
      exact ⟨hmade.held, hmade.tag, hmade.layer, hmade.start, hmade.contents, hmade.current⟩

/-- What a call that returns the kept plan again goes by, and leaves. -/
structure Reused (env : Env) (s : Cache) (c : Call) (x : Contents) (r : Cache × Option Result)
    (G : Group) (t : ℕ × ℕ) : Prop where
  held : Held env r.1
  tag : r.1.tag = none
  group : s.group = some G
  tagged : s.tag = some t
  inner : t.1 ≠ t.2
  start : G.start = some t.2
  layer : G.layer.map (· + 1) = some t.1
  tensors : G.sig.tensors = c.tensors
  mode : G.sig.mode = modeOf env x c.kind
  kept : r.1.group = some { G with layer := some t.1 }
  result : r.2 = some G.result

/-- **What a call does**: it returns the kept plan again, or makes its own. -/
theorem read_cases (hs : Held env s) (h : s.read env c x = some r) :
    (∃ G t, Reused env s c x r G t) ∨ Made env s c x r := by
  obtain ⟨hext, hscratch, hbuf⟩ := scratchFor_spec hs.scratch c x
  have hnone : (s.scratchFor c x).1 = none → c.kind ≠ .groupView := by
    intro hn hkind
    unfold Cache.scratchFor at hn
    rw [hkind] at hn
    cases hn
  have hheld := hs.extends hext hscratch
  obtain ⟨-, h⟩ := Option.ite_none_left_eq_some.mp h
  dsimp only at h
  split at h
  · next G hhit =>
    obtain rfl := Option.some.inj h
    obtain ⟨hgroup, hsig, t, htag, hne, hstart, hlayer⟩ := hit_eq_some hhit
    refine .inl ⟨G, t, ?_, rfl, hext.group ▸ hgroup, hext.tag ▸ htag, hne, hstart, hlayer,
      congrArg Sig.tensors hsig, congrArg Sig.mode hsig, ?_, rfl⟩
    · refine ⟨hscratch, fun G' hG' => ?_, fun G' hG' => ?_, fun G' hG' => ?_⟩
      · obtain rfl := Option.some.inj hG'
        exact hheld.buf G hgroup
      · obtain rfl := Option.some.inj hG'
        exact hheld.mode G hgroup
      · obtain rfl := Option.some.inj hG'
        exact (hheld.current G hgroup).frame rfl rfl
    · show some { G with layer := (s.scratchFor c x).2.tag.map Prod.fst } = _
      rw [htag]
      rfl
  · obtain rfl := Option.some.inj h
    have hmade := fresh_made env ⟨c.tensors, modeOf env x c.kind,
      (s.scratchFor c x).1.map Buf.ptr⟩ hscratch hbuf hnone rfl rfl
    refine .inr ⟨hmade.held, hmade.tag, ?_, ?_, hmade.contents, hmade.current⟩
    · exact hext.tag ▸ hmade.layer
    · exact hext.tag ▸ hmade.start

end Read

/-! ## Runs -/

section Runs

variable {cfg : Config} {env : Env} {s s' : State}

/-- The last layer that has called the reader, or ended. -/
def State.last (s : State) : Option (ℕ × Memory) :=
  if s.cache.tag = none then s.inside.or s.prev else s.prev

/-- **Where a run is**: the layer that runs is the next tagged one, its tag is its own, and
the kept plan's layer is not after the last one; if it is the last one, the plan was made for
that layer's group and tensors. -/
structure Placed (cfg : Config) (s : State) : Prop where
  next : ∀ v, s.inside = some v → nextLayer cfg (s.prev.map Prod.fst) = some v.1
  tagged : ∀ t, s.cache.tag = some t →
    ∃ m, s.inside = some (t.1, m) ∧ groupStart cfg t.1 = some t.2
  recent : ∀ G l v, s.cache.group = some G → G.layer = some l → s.last = some v →
    l ≤ v.1 ∧ (l = v.1 → groupStart cfg l = G.start ∧ G.contents = v.2 G.sig.tensors)

/-- Everything a run keeps. -/
structure Inv (cfg : Config) (env : Env) (s : State) : Prop where
  held : Held env s.cache
  placed : Placed cfg s
  current : ∀ r, s.returned = some r → Current env r.contents r.kind r.result s.cache

/-- **What a hit returns was made for the same tensors with the same contents.** -/
theorem Placed.hit_contents (h : Placed cfg s) {c : Call} {v : ℕ × Memory} {G : Group}
    {r : Cache × Option Result} {t : ℕ × ℕ} (hv : s.inside = some v)
    (hkeep : Keeps cfg s (.call c)) (hit : Reused env s.cache c (v.2 c.tensors) r G t) :
    G.contents = v.2 c.tensors := by
  obtain ⟨m, hinside, hstart⟩ := h.tagged t hit.tagged
  obtain rfl : v = (t.1, m) := Option.some.inj (hv.symm.trans hinside)
  obtain ⟨l, hl, hlt⟩ := Option.map_eq_some_iff.mp hit.layer
  have hnext := h.next _ hinside
  cases hprev : s.prev with
  | none =>
    -- the first layer is its own group start, and does not hit
    rw [hprev] at hnext
    exact absurd (groupStart_first hnext hstart).symm hit.inner
  | some w =>
    rw [hprev] at hnext
    have hwt : w.1 < t.1 := nextLayer_gt hnext
    have hlast : s.last = some w := by
      unfold State.last
      rw [hit.tagged, if_neg (by simp), hprev]
    obtain ⟨hle, heq⟩ := h.recent G l w hit.group hl hlast
    have hlw : l = w.1 := by omega
    obtain ⟨hgroup, hcontents⟩ := heq hlw
    rw [hcontents, hit.tensors]
    refine (hkeep w (t.1, m) hprev hinside ?_).symm
    rw [hstart, ← hit.start, ← hgroup, hlw]

theorem read_eq_some {c : Call} {x : Contents} (h : s.read env c x = some s') :
    ∃ r, s.cache.read env c x = some r ∧ s' = { s with
      cache := r.1, returned := r.2.map fun result => ⟨c.kind, x, result⟩ } := by
  obtain ⟨r, hr, rfl⟩ := Option.map_eq_some_iff.mp h
  exact ⟨r, hr, rfl⟩

theorem last_of_tag_none (h : s.cache.tag = none) : s.last = s.inside.or s.prev := if_pos h

/-- A call inside a tagged layer. -/
theorem Inv.call (h : Inv cfg env s) {c : Call} {v : ℕ × Memory} (hv : s.inside = some v)
    (hkeep : Keeps cfg s (.call c)) (hs : s.read env c (v.2 c.tensors) = some s') :
    Inv cfg env s' := by
  obtain ⟨r, hr, rfl⟩ := read_eq_some hs
  have hlast : ∀ (htag : r.1.tag = none), State.last { s with
      cache := r.1, returned := r.2.map fun result => ⟨c.kind, v.2 c.tensors, result⟩ } = some v :=
    fun htag => by rw [last_of_tag_none htag, hv, Option.some_or]
  rcases read_cases h.held hr with ⟨G, t, hit⟩ | hmade
  · have hcontents := h.placed.hit_contents hv hkeep hit
    have hkind : G.kind = c.kind :=
      modeOf_injective (hcontents ▸ (h.held.mode G hit.group).symm.trans hit.mode)
    obtain ⟨m, hinside, hstart⟩ := h.placed.tagged t hit.tagged
    obtain rfl : v = (t.1, m) := Option.some.inj (hv.symm.trans hinside)
    refine ⟨hit.held, ⟨h.placed.next, fun t' ht' => ?_, ?_⟩, ?_⟩
    · exact nomatch hit.tag.symm.trans ht'
    · intro G' l w hG' hl hw
      obtain rfl := Option.some.inj (hit.kept.symm.trans hG')
      obtain rfl : t.1 = l := Option.some.inj hl
      obtain rfl := Option.some.inj ((hlast hit.tag).symm.trans hw)
      exact ⟨le_rfl, fun _ => ⟨hstart.trans hit.start.symm, by rw [hit.tensors]; exact hcontents⟩⟩
    · intro ret hret
      obtain ⟨result, hresult, rfl⟩ := Option.map_eq_some_iff.mp hret
      obtain rfl := Option.some.inj (hit.result.symm.trans hresult)
      have hcurrent := hit.held.current _ hit.kept
      rw [hcontents, hkind] at hcurrent
      exact hcurrent
  · refine ⟨hmade.held, ⟨h.placed.next, fun t' ht' => ?_, ?_⟩, ?_⟩
    · exact nomatch hmade.tag.symm.trans ht'
    · intro G l w hG hl hw
      obtain rfl := Option.some.inj ((hlast hmade.tag).symm.trans hw)
      obtain ⟨t, ht, htl⟩ := Option.map_eq_some_iff.mp ((hmade.layer G hG).symm.trans hl)
      obtain ⟨m, hinside, hstart⟩ := h.placed.tagged t ht
      obtain rfl : v = (t.1, m) := Option.some.inj (hv.symm.trans hinside)
      obtain ⟨htensors, hcontents⟩ := hmade.contents G hG
      refine ⟨htl.ge, fun _ => ⟨?_, ?_⟩⟩
      · rw [← htl, hstart, hmade.start G hG, ht]
        rfl
      · rw [htensors]
        exact hcontents
    · intro ret hret
      obtain ⟨result, hresult, rfl⟩ := Option.map_eq_some_iff.mp hret
      exact hmade.current result hresult

/-- A call of a layer without a tag: nothing is reused, and nothing later reuses its plan. -/
theorem Inv.untagged (h : Inv cfg env s) {c : Call} {x : Contents} (hv : s.inside = none)
    (hs : s.read env c x = some s') : Inv cfg env s' := by
  obtain ⟨r, hr, rfl⟩ := read_eq_some hs
  have htag : s.cache.tag = none := by
    by_contra hne
    obtain ⟨t, ht⟩ := Option.ne_none_iff_exists'.mp hne
    obtain ⟨m, hinside, -⟩ := h.placed.tagged t ht
    exact absurd (hv.symm.trans hinside) (by simp)
  rcases read_cases h.held hr with ⟨G, t, hit⟩ | hmade
  · exact absurd (htag.symm.trans hit.tagged) (by simp)
  · refine ⟨hmade.held, ⟨h.placed.next, fun t' ht' => ?_, fun G l w hG hl hw => ?_⟩, ?_⟩
    · exact nomatch hmade.tag.symm.trans ht'
    · rw [hmade.layer G hG, htag] at hl
      cases hl
    · intro ret hret
      obtain ⟨result, hresult, rfl⟩ := Option.map_eq_some_iff.mp hret
      exact hmade.current result hresult

/-- A layer starts. -/
theorem Inv.enter (h : Inv cfg env s) {m : Memory} (hs : step cfg env s (.enter m) = some s') :
    Inv cfg env s' := by
  obtain ⟨hv, hs⟩ := Option.ite_none_right_eq_some.mp hs
  obtain ⟨layer, hnext, hs⟩ := Option.bind_eq_some_iff.mp hs
  obtain ⟨start, hstart, hs⟩ := Option.bind_eq_some_iff.mp hs
  obtain rfl := Option.some.inj hs
  refine ⟨h.held.setTag _, ⟨fun w hw => ?_, fun t ht => ?_, ?_⟩, nofun⟩
  · obtain rfl := Option.some.inj hw
    exact hnext
  · obtain rfl := Option.some.inj ht
    exact ⟨m, rfl, hstart⟩
  · intro G l w hG hl hw
    have hlast : s.last = s.prev := by
      unfold State.last
      rw [hv, Option.none_or, ite_self]
    exact h.placed.recent G l w hG hl (hlast.trans hw)

/-- A layer ends. It has called the reader, or its number is above the kept plan's. -/
theorem Inv.leave (h : Inv cfg env s) (hkeep : Keeps cfg s .leave)
    (hs : step cfg env s .leave = some s') : Inv cfg env s' := by
  obtain ⟨v, hv, rfl⟩ := Option.map_eq_some_iff.mp hs
  refine ⟨h.held.setTag _, ⟨nofun, nofun, fun G l w hG hl hw => ?_⟩, nofun⟩
  obtain rfl := Option.some.inj hw
  by_cases htag : s.cache.tag = none
  · exact h.placed.recent G l v hG hl (by rw [last_of_tag_none htag, hv, Option.some_or])
  · have hprev : s.prev ≠ none := fun hnone => htag (hkeep hnone)
    obtain ⟨u, hu⟩ := Option.ne_none_iff_exists'.mp hprev
    have hlast : s.last = some u := (if_neg htag).trans hu
    have hlt : u.1 < v.1 := nextLayer_gt (by have := h.placed.next v hv; rwa [hu] at this)
    have hle := (h.placed.recent G l u hG hl hlast).1
    exact ⟨by omega, fun heq => by omega⟩

/-- **Every step keeps the invariant.** -/
theorem Inv.step (h : Inv cfg env s) {a : Action} (hkeep : Keeps cfg s a)
    (hs : KvGroup.step cfg env s a = some s') : Inv cfg env s' := by
  cases a with
  | enter m => exact h.enter hs
  | call c =>
    obtain ⟨v, hv, hs⟩ := Option.bind_eq_some_iff.mp hs
    exact h.call hv hkeep hs
  | leave => exact h.leave hkeep hs
  | untagged m c =>
    obtain ⟨hv, hs⟩ := Option.ite_none_right_eq_some.mp hs
    exact h.untagged hv hs
  | stop =>
    obtain rfl := Option.some.inj hs
    exact ⟨h.held.setTag _, ⟨nofun, nofun, nofun⟩, nofun⟩
  | fail scratch mem writer nextBuf =>
    obtain rfl := Option.some.inj hs
    exact ⟨.of_none rfl hkeep, ⟨nofun, nofun, nofun⟩, nofun⟩

theorem inv_initial (mem : ℕ → ℕ → UInt8) : Inv cfg env (initial mem) :=
  ⟨.of_none rfl nofun, ⟨nofun, nofun, nofun⟩, nofun⟩

/-- **Whatever the reader returns is what a fresh plan of the call gives**, and no other plan
has written to its pages since: for every arrangement of ratios and source layers, and every
sequence of forwards, as long as a layer reads the same contents as the layer of its group
that ran just before it. -/
theorem returned_current (cfg : Config) (env : Env) (mem : ℕ → ℕ → UInt8) (s : State)
    (h : Run cfg env mem s) (r : Returned) (hr : s.returned = some r) :
    Current env r.contents r.kind r.result s.cache :=
  (Transition.Reachable.invariant (Inv cfg env) (inv_initial mem)
    (fun _ _ _ hinv hkeep hs => hinv.step hkeep hs) h).current r hr

/-- Two layers of one group. -/
def pairCfg : Config := ⟨[1, 1], [0], [0]⟩

/-- No dedup, no GPU. -/
def pairEnv : Env := ⟨0, 0, false, 0, zeroRule⟩

/-- The same contents wherever they are. -/
def pairMemory : Memory := fun _ => ⟨samplePool, sampleCall⟩

/-- A call with few rows. -/
def pairCall : Call := ⟨.groupView, ⟨0, 0, [], [], 0, [], [], none⟩, fun _ => 0, 0⟩

/-- Both layers call the reader for the same tensors. -/
def pairRun : List Action :=
  [.enter pairMemory, .call pairCall, .leave, .enter pairMemory, .call pairCall]

/-- Nothing writes the tensors in between. -/
theorem pairRun_allowed (mem : ℕ → ℕ → UInt8) :
    Transition.AllowedRun (step pairCfg pairEnv) (Keeps pairCfg) (initial mem) pairRun := by
  refine ⟨trivial, fun s₁ h₁ => ?_⟩
  obtain rfl := Option.some.inj h₁
  refine ⟨nofun, fun s₂ h₂ => ?_⟩
  obtain rfl := Option.some.inj h₂
  refine ⟨fun _ => rfl, fun s₃ h₃ => ?_⟩
  obtain rfl := Option.some.inj h₃
  refine ⟨trivial, fun s₄ h₄ => ?_⟩
  obtain rfl := Option.some.inj h₄
  refine ⟨fun v w hv hw _ => ?_, fun _ _ => trivial⟩
  obtain rfl := Option.some.inj hv
  obtain rfl := Option.some.inj hw
  rfl

/-- The second layer gets the first one's plan. -/
theorem returned_current_pair : ∃ (s : State) (r : Returned), s.returned = some r ∧ r.result.plan = 0 ∧
    Current pairEnv r.contents r.kind r.result s.cache := by
  obtain ⟨s, r, hs, hr, hplan⟩ : ∃ (s : State) (r : Returned), Transition.run (step pairCfg pairEnv)
      (initial fun _ _ => 0) pairRun = some s ∧ s.returned = some r ∧ r.result.plan = 0 :=
    ⟨_, _, rfl, rfl, rfl⟩
  exact ⟨s, r, hr, hplan, returned_current pairCfg pairEnv _ s
    (Transition.Reachable.of_run hs (pairRun_allowed _)) r hr⟩

end Runs

end KvGroup

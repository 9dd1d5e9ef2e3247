import Mathlib.Data.Fin.Basic
import SparkTP4.RoceTransportRank

/-!
# The RoCE transport: the writes in flight

A write has *landed* when it has been posted and is no longer in its queue; it
stays landed (`Moves.landed`). A flag word names a landed write, so does a flag
a kernel has seen, and a kernel that has finished an operation has seen the
flags of all its peers (`NetInv`). Together with the invariants of the ranks
this is inductive (`Inv.moves`), and it orders the ranks: no rank is more than
one operation ahead of another (`Inv.op_le`), a kernel is at most two ahead of
its own proxy (`Inv.ahead`), and a write in flight is of the operation its
receiver runs or of the next one (`Inv.in_flight`).
-/

namespace RoceTransport

open Striping

variable {W H : ℕ} {V : Type} {cfg : Setting W H V} {S S' : State W H V} {r p q : Fin W}
  {h : Fin H} {n : ℕ} {part : Part}

/-! ## Landed writes -/

/-- The write for `part` of operation `n` from rank `p` to rank `q` on HCA `h`
has been posted and has landed, its flag included. -/
def Landed (cfg : Setting W H V) (S : State W H V) (p q : Fin W) (h : Fin H) (n : ℕ)
    (part : Part) : Prop :=
  (S.rank p).Posted cfg p q h n part ∧ ∀ m ∈ S.queue p q h, m.op = n → m.part ≠ part

/-- **The flags and the queues.** -/
structure NetInv (cfg : Setting W H V) (S : State W H V) : Prop where
  posted : ∀ p q h, ∀ m ∈ S.queue p q h, (S.rank p).Posted cfg p q h m.op m.part
  base : ∀ p q h, ∀ m ∈ S.queue p q h, m.base = msgBase W (cfg.op m.op).packs p q m.part
  todo : ∀ p q h, ∀ m ∈ S.queue p q h, ∀ i ∈ m.todo,
    i ∈ stripeOf W H (cfg.op m.op).packs (cfg.op m.op).chunkPacks p q h m.part
  unreleased : ∀ p q h, ∀ m ∈ S.queue p q h, m.part ≠ .one → (S.rank p).pipeDone < m.op
  distinct : ∀ p q h, (S.queue p q h).Pairwise (fun m m' => m.op = m'.op → m.part ≠ m'.part)
  flagged : ∀ p q h cell, S.flag (q, p) cell h ≠ 0 → ∃ part,
    cellOf (S.flag (q, p) cell h) part = cell ∧ Landed cfg S p q h (S.flag (q, p) cell h) part
  seen : ∀ p q h b part, Task.see b part p h ∈ (S.rank q).done →
    Landed cfg S p q h (S.rank q).op part
  finished : ∀ p q h n part, p ≠ q → cfg.Has n part → n < (S.rank q).op →
    Landed cfg S p q h n part

structure Inv (cfg : Setting W H V) (S : State W H V) : Prop where
  rank : ∀ r, RankInv cfg r (S.rank r)
  net : NetInv cfg S

theorem cellOf_injective {n : ℕ} : Function.Injective (cellOf n) := by
  rintro (- | c | c) (- | c' | c') heq <;> simp_all [cellOf]

theorem posted_le_front {R : Rank W H V} (hposted : R.Posted cfg p q h n part) : n ≤ R.front := by
  unfold Rank.front
  obtain ⟨-, -, hle | ⟨rfl, htaken, -⟩⟩ := hposted
  · split
    · exact Nat.le_succ_of_le hle
    · exact hle
  · split
    · exact Nat.le_refl _
    case h_2 hnot =>
      revert htaken hnot
      cases R.proxy with
      | post => exact fun _ hnot => absurd rfl (hnot _ _ _ _ _ _)
      | _ => exact fun htaken => htaken.elim

namespace RankStep

variable {R : Rank W H V}

/-- A step of a rank takes back no write. -/
theorem posted (hstep : RankStep cfg S r R) (hinv : ProxyInv cfg r (S.rank r))
    (hposted : (S.rank r).Posted cfg r q h n part) : R.Posted cfg r q h n part := by
  cases hstep with
  | exec t =>
    unfold Rank.Posted at hposted ⊢
    rwa [exec_lastSeq, exec_proxy]
  | timeout => exact hposted
  | finish => exact hposted
  | stay => exact hposted
  | fail => exact hposted
  | poll hidle =>
    refine ⟨hposted.1, hposted.2.1, hposted.2.2.imp_right (fun h => ?_)⟩
    rw [hidle] at h
    exact h.2.1.elim
  | fetch hproxy =>
    refine ⟨hposted.1, hposted.2.1, hposted.2.2.imp_right (fun h => ?_)⟩
    rw [hproxy] at h
    exact h.2.1.elim
  | commit | release =>
    refine ⟨hposted.1, hposted.2.1, Or.inl ?_⟩
    rcases hposted.2.2 with hle | ⟨rfl, -⟩
    · exact Nat.le_succ_of_le hle
    · exact Nat.le_refl _
  | chooseRs hproxy hkind =>
    refine ⟨hposted.1, hposted.2.1, hposted.2.2.imp_right (fun h => ?_)⟩
    obtain ⟨rfl, htaken, -⟩ := h
    have hkind' := (hinv.kind_eq hproxy).trans hkind
    rw [hproxy] at htaken
    rcases part with - | c | c
    · exact absurd (hkind'.symm.trans hposted.1.2) (by decide)
    · refine ⟨rfl, Nat.lt_succ_of_lt htaken, fun hto => ?_⟩
      exact absurd (Part.rs.inj hto.1) (Nat.ne_of_gt htaken)
    · exact ⟨rfl, htaken, fun hto => absurd hto.1 (by simp)⟩
  | chooseAg hproxy hkind =>
    refine ⟨hposted.1, hposted.2.1, hposted.2.2.imp_right (fun h => ?_)⟩
    obtain ⟨rfl, htaken, -⟩ := h
    have hkind' := (hinv.kind_eq hproxy).trans hkind
    rw [hproxy] at htaken
    rcases part with - | c | c
    · exact absurd (hkind'.symm.trans hposted.1.2) (by decide)
    · exact ⟨rfl, htaken, fun hto => absurd hto.1 (by simp)⟩
    · refine ⟨rfl, Nat.lt_succ_of_lt htaken, fun hto => ?_⟩
      exact absurd (Part.ag.inj hto.1) (Nat.ne_of_gt htaken)

/-- The flags a step adds to those the kernel has seen. -/
theorem sees (hstep : RankStep cfg S r R) {b : ℕ} (hsee : Task.see b part p h ∈ R.done) :
    R.op = (S.rank r).op ∧ (Task.see b part p h ∈ (S.rank r).done ∨
      S.flag (r, p) (cellOf (S.rank r).op part) h = (S.rank r).op) := by
  cases hstep with
  | exec t _ _ hguard =>
    rw [exec_done] at hsee
    refine ⟨exec_op, ?_⟩
    rcases List.mem_cons.mp hsee with rfl | hmem
    · exact Or.inr hguard
    · exact Or.inl hmem
  | finish => exact absurd hsee List.not_mem_nil
  | _ => exact ⟨rfl, Or.inl hsee⟩

/-- An operation a step finishes has run all its tasks. -/
theorem finished (hstep : RankStep cfg S r R) (hn : n < R.op) :
    n < (S.rank r).op ∨ n = (S.rank r).op ∧ AllDone cfg r (S.rank r).op (S.rank r).done := by
  cases hstep with
  | exec => exact Or.inl (Nat.lt_of_lt_of_le hn (Nat.le_of_eq exec_op))
  | finish hall =>
    rcases Nat.lt_or_eq_of_le (Nat.le_of_lt_succ hn) with hlt | rfl
    · exact Or.inl hlt
    · exact Or.inr ⟨rfl, hall⟩
  | _ => exact Or.inl hn

/-- A proxy releases the send buffer only when no write is in flight. -/
theorem pipeDone (hstep : RankStep cfg S r R) :
    R.pipeDone = (S.rank r).pipeDone ∨ ∀ q h, S.queue r q h = [] := by
  cases hstep with
  | exec => exact Or.inl exec_pipeDone
  | release _ _ _ _ hdrained => exact Or.inr hdrained
  | _ => exact Or.inl rfl

end RankStep

/-- A kernel that has run all its tasks has seen every flag. -/
theorem sees_of_allDone {D : List (Task W H)} (hall : AllDone cfg r n D) (hpart : cfg.Has n part) :
    Sees r D 0 part := by
  obtain ⟨-, hall⟩ := hall
  have hblock := cfg.blocks_pos r n
  rcases part with - | c | c
  · rw [show (cfg.op n).kind = .oneshot from hpart.2] at hall
    exact hall.1 0 hblock
  · rw [hpart.2.1] at hall
    exact ((hall c hpart.2.2).2.2.1 0 hblock).1
  · rw [hpart.2.1] at hall
    exact ((hall c hpart.2.2).2.2.1 0 hblock).2

section Frame

variable {R : Rank W H V}

@[simp] theorem setRank_rank_self : (S.setRank r R).rank r = R := by
  simp [State.setRank]

theorem setRank_rank_of_ne (hne : p ≠ r) : (S.setRank r R).rank p = S.rank p := by
  simp [State.setRank, hne]

/-- The queue of a posted or delivered write is the only one that changes. -/
theorem mem_write {Q : Fin W → Fin W → Fin H → List Msg} {p' q' : Fin W} {h' : Fin H} {v : List Msg}
    {m : Msg} (hm : m ∈ write Q p q h v p' q' h') :
    p' = p ∧ q' = q ∧ h' = h ∧ m ∈ v ∨ m ∈ Q p' q' h' := by
  unfold write at hm
  split_ifs at hm with heq
  · exact Or.inl ⟨heq.1, heq.2.1, heq.2.2, hm⟩
  · exact Or.inr hm

end Frame

/-! ## What a step keeps -/

/-- The proxy of rank `r` after it has posted the write to `q` on `h`. -/
theorem posted_of_post {R : Rank W H V} {upto rs ag : ℕ} {rc : Record} {cur : Part}
    {todo : List (Fin W × Fin H)} {x : Fin W × Fin H}
    (hproxy : R.proxy = .post upto rc rs ag cur (x :: todo))
    (hposted : R.Posted cfg r q h n part) :
    { R with proxy := .post upto rc rs ag cur todo }.Posted cfg r q h n part := by
  refine ⟨hposted.1, hposted.2.1, hposted.2.2.imp_right (fun ⟨heq, htaken, hto⟩ => ?_)⟩
  rw [hproxy] at htaken hto
  refine ⟨heq, ?_, fun hto' => hto ⟨hto'.1, List.mem_cons_of_mem x hto'.2⟩⟩
  rcases part with - | c | c <;> exact htaken

/-- A write that is about to be posted has not been posted. -/
theorem not_posted_of_toPost {R : Rank W H V} (hto : R.proxy.ToPost part q h) :
    ¬ R.Posted cfg r q h (R.lastSeq + 1) part := by
  rintro ⟨-, -, hle | ⟨-, -, hnot⟩⟩
  · exact absurd hle (Nat.not_succ_le_self _)
  · exact hnot hto

theorem toPost_of_proxy {R : Rank W H V} {upto rs ag : ℕ} {rc : Record}
    {todo : List (Fin W × Fin H)} (hproxy : R.proxy = .post upto rc rs ag part ((q, h) :: todo)) :
    R.proxy.ToPost part q h := by
  rw [hproxy]
  exact ⟨rfl, List.mem_cons_self⟩

namespace Moves

/-- A step takes back no posted write. -/
theorem posted (hmove : Moves cfg S S') (hrank : ∀ r, RankInv cfg r (S.rank r))
    (hposted : (S.rank p).Posted cfg p q h n part) : (S'.rank p).Posted cfg p q h n part := by
  cases hmove with
  | rank r hstep =>
    by_cases hp : p = r
    · subst hp
      rw [setRank_rank_self]
      exact hstep.posted (hrank p).proxy hposted
    · rwa [setRank_rank_of_ne hp]
  | post r hproxy =>
    show ((S.setRank r _).rank p).Posted cfg p q h n part
    by_cases hp : p = r
    · subst hp
      rw [setRank_rank_self]
      exact posted_of_post hproxy hposted
    · rwa [setRank_rank_of_ne hp]
  | pack => exact hposted
  | flag => exact hposted

/-- **How a write comes to be in a queue.** -/
theorem queued (hmove : Moves cfg S S') {m : Msg} (hm : m ∈ S'.queue p q h) :
    (∃ m' ∈ S.queue p q h, m.op = m'.op ∧ m.part = m'.part ∧ m.base = m'.base ∧
      ∀ i ∈ m.todo, i ∈ m'.todo) ∨
    ∃ upto rc rs ag part todo, (S.rank p).proxy = .post upto rc rs ag part ((q, h) :: todo) ∧
      S'.rank p = { S.rank p with proxy := .post upto rc rs ag part todo } ∧
      m = rc.msg ((S.rank p).lastSeq + 1) part p q h := by
  have hkeep : m ∈ S.queue p q h → ∃ m' ∈ S.queue p q h, m.op = m'.op ∧ m.part = m'.part ∧
      m.base = m'.base ∧ ∀ i ∈ m.todo, i ∈ m'.todo :=
    fun hold => ⟨m, hold, rfl, rfl, rfl, fun _ hi => hi⟩
  cases hmove with
  | rank => exact Or.inl (hkeep hm)
  | post r hproxy =>
    rcases mem_write hm with ⟨rfl, rfl, rfl, hv⟩ | hold
    · rcases List.mem_append.mp hv with hold | hnew
      · exact Or.inl (hkeep hold)
      · exact Or.inr ⟨_, _, _, _, _, _, hproxy, setRank_rank_self, List.mem_singleton.mp hnew⟩
    · exact Or.inl (hkeep hold)
  | @pack _ _ _ m' rest i hqueue _ =>
    rcases mem_write hm with ⟨rfl, rfl, rfl, hv⟩ | hold
    · rcases List.mem_cons.mp hv with rfl | hmem
      · exact Or.inl ⟨m', hqueue ▸ List.mem_cons_self, rfl, rfl, rfl,
          fun _ hi => List.mem_of_mem_filter hi⟩
      · exact Or.inl (hkeep (hqueue ▸ List.mem_cons_of_mem m' hmem))
    · exact Or.inl (hkeep hold)
  | @flag _ _ _ m' rest hqueue _ =>
    rcases mem_write hm with ⟨rfl, rfl, rfl, hv⟩ | hold
    · exact Or.inl (hkeep (hqueue ▸ List.mem_cons_of_mem m' hv))
    · exact Or.inl (hkeep hold)

/-- **What has landed stays landed.** -/
theorem landed (hmove : Moves cfg S S') (hrank : ∀ r, RankInv cfg r (S.rank r))
    (hlanded : Landed cfg S p q h n part) : Landed cfg S' p q h n part := by
  refine ⟨hmove.posted hrank hlanded.1, fun m hm hop hpart => ?_⟩
  rcases hmove.queued hm with ⟨m', hm', hop', hpart', -⟩ | ⟨_, _, _, _, _, _, hproxy, -, rfl⟩
  · exact hlanded.2 m' hm' (hop'.symm.trans hop) (hpart'.symm.trans hpart)
  · -- the new write had not been posted, so it had not landed
    obtain rfl : _ = n := hop
    obtain rfl : _ = part := hpart
    exact not_posted_of_toPost (toPost_of_proxy hproxy) hlanded.1

/-- A write that is posted is one of the operation that the proxy has taken up. -/
theorem posted_new {R R' : Rank W H V} (hinv : ProxyInv cfg p R) {upto rs ag : ℕ} {rc : Record}
    {todo : List (Fin W × Fin H)} (hproxy : R.proxy = .post upto rc rs ag part ((q, h) :: todo))
    (hR' : R' = { R with proxy := .post upto rc rs ag part todo }) :
    R'.Posted cfg p q h (R.lastSeq + 1) part := by
  obtain ⟨htaken, hne⟩ := hinv.toPost part q h (toPost_of_proxy hproxy)
  have hholds := hinv.holds
  rw [hproxy] at hholds
  subst hR'
  refine ⟨hinv.taken part htaken, hne, Or.inr ⟨rfl, ?_, fun hto => ?_⟩⟩
  · rw [hproxy] at htaken
    rcases part with - | c | c <;> exact htaken
  · exact (List.nodup_cons.mp hholds.2.1).1 hto.2

theorem packs_of_record {o : Op} {rc : Record} (hrc : RecordOf o rc) :
    rc.nbytes / packBytes = o.packs := by
  rw [hrc.1]
  exact Nat.mul_div_cancel o.packs (by decide)

/-- The chunk words of the record matter for chunks only. -/
theorem stripeOf_of_record {o : Op} {rc : Record} (hrc : RecordOf o rc) {chunks : ℕ}
    (hpart : HasPart o.kind chunks part) :
    stripeOf W H (rc.nbytes / packBytes) rc.chunkPacks p q h part =
      stripeOf W H o.packs o.chunkPacks p q h part := by
  rw [packs_of_record hrc]
  rcases part with - | c | c
  · rfl
  · rw [(hrc.2.2 hpart.1).1]
  · rw [(hrc.2.2 hpart.1).1]

theorem distinct (hmove : Moves cfg S S') (hinv : Inv cfg S) (p q : Fin W) (h : Fin H) :
    (S'.queue p q h).Pairwise (fun m m' => m.op = m'.op → m.part ≠ m'.part) := by
  have hold := hinv.net.distinct p q h
  cases hmove with
  | rank => exact hold
  | @post r _ _ _ rc part q' h' _ hproxy =>
    show (write S.queue r q' h' _ p q h).Pairwise _
    unfold write
    split_ifs with heq
    · obtain ⟨rfl, rfl, rfl⟩ := heq
      refine List.pairwise_append.mpr ⟨hold, List.pairwise_singleton _ _, fun m hm m' hm' => ?_⟩
      obtain rfl := List.mem_singleton.mp hm'
      intro hop hpart
      have hposted := hinv.net.posted p q h m hm
      rw [hop, hpart] at hposted
      exact not_posted_of_toPost (toPost_of_proxy hproxy) hposted
    · exact hold
  | @pack p' q' h' m rest i hqueue _ =>
    show (write S.queue p' q' h' _ p q h).Pairwise _
    unfold write
    split_ifs with heq
    · obtain ⟨rfl, rfl, rfl⟩ := heq
      rw [hqueue] at hold
      exact List.pairwise_cons.mpr (List.pairwise_cons.mp hold)
    · exact hold
  | @flag p' q' h' m rest hqueue _ =>
    show (write S.queue p' q' h' _ p q h).Pairwise _
    unfold write
    split_ifs with heq
    · obtain ⟨rfl, rfl, rfl⟩ := heq
      rw [hqueue] at hold
      exact (List.pairwise_cons.mp hold).2
    · exact hold

/-- A step is one of rank `q`, or leaves all of the rank but its proxy. -/
theorem rank_cases (hmove : Moves cfg S S') (q : Fin W) :
    RankStep cfg S q (S'.rank q) ∧ S'.queue = S.queue ∨
      S'.rank q = { S.rank q with proxy := (S'.rank q).proxy } := by
  cases hmove with
  | rank r hstep =>
    by_cases hq : q = r
    · subst hq
      rw [setRank_rank_self]
      exact Or.inl ⟨hstep, rfl⟩
    · rw [setRank_rank_of_ne hq]
      exact Or.inr rfl
  | post r hproxy =>
    have hsame : ∀ R : Rank W H V, R = { S.rank r with proxy := R.proxy } → (S.setRank r R).rank q =
        { S.rank q with proxy := ((S.setRank r R).rank q).proxy } := by
      intro R hR
      by_cases hq : q = r
      · subst hq
        rw [setRank_rank_self]
        exact hR
      · rw [setRank_rank_of_ne hq]
    exact Or.inr (hsame _ rfl)
  | pack => exact Or.inr rfl
  | flag => exact Or.inr rfl

/-- A release finds the queues of its rank empty. -/
theorem pipeDone (hmove : Moves cfg S S') (p : Fin W) :
    (S'.rank p).pipeDone = (S.rank p).pipeDone ∨ ∀ q h, S'.queue p q h = [] := by
  rcases hmove.rank_cases p with ⟨hstep, hqueue⟩ | heq
  · rw [hqueue]
    exact hstep.pipeDone
  · exact Or.inl (by rw [heq])

theorem flagged (hmove : Moves cfg S S') (hinv : Inv cfg S) (p q : Fin W) (h : Fin H) (cell : Cell)
    (hflag : S'.flag (q, p) cell h ≠ 0) : ∃ part,
      cellOf (S'.flag (q, p) cell h) part = cell ∧
        Landed cfg S' p q h (S'.flag (q, p) cell h) part := by
  have hkeep : S'.flag (q, p) cell h = S.flag (q, p) cell h → ∃ part,
      cellOf (S'.flag (q, p) cell h) part = cell ∧
        Landed cfg S' p q h (S'.flag (q, p) cell h) part := by
    intro heq
    rw [heq] at hflag ⊢
    obtain ⟨part, hcell, hlanded⟩ := hinv.net.flagged p q h cell hflag
    exact ⟨part, hcell, hmove.landed hinv.rank hlanded⟩
  cases hmove with
  | rank => exact hkeep rfl
  | post => exact hkeep rfl
  | pack => exact hkeep rfl
  | @flag p' q' h' m rest hqueue htodo =>
    by_cases heq : (q, p) = (q', p') ∧ cell = cellOf m.op m.part ∧ h = h'
    · obtain ⟨hqp, rfl, rfl⟩ := heq
      obtain ⟨rfl, rfl⟩ := Prod.mk.inj hqp
      have hvalue : write S.flag (q, p) (cellOf m.op m.part) h m.op (q, p)
          (cellOf m.op m.part) h = m.op := if_pos ⟨rfl, rfl, rfl⟩
      show ∃ part, cellOf (write S.flag _ _ h m.op _ _ h) part = _ ∧
        Landed cfg _ p q h (write S.flag _ _ h m.op _ _ h) part
      rw [hvalue]
      refine ⟨m.part, rfl, hinv.net.posted p q h m (hqueue ▸ List.mem_cons_self), ?_⟩
      -- the flag lands after the writes before it, and no other write has its name
      have hdistinct := hinv.net.distinct p q h
      rw [hqueue] at hdistinct
      intro m' hm' hop hpart
      rcases mem_write hm' with ⟨-, -, -, hrest⟩ | hold
      · exact (List.pairwise_cons.mp hdistinct).1 m' hrest hop.symm hpart.symm
      · have hhere : (write S.queue p q h rest) p q h = rest := if_pos ⟨rfl, rfl, rfl⟩
        exact (List.pairwise_cons.mp hdistinct).1 m' (hhere ▸ hm') hop.symm hpart.symm
    · exact hkeep (if_neg heq)

theorem seen (hmove : Moves cfg S S') (hinv : Inv cfg S) {b : ℕ}
    (hsee : Task.see b part p h ∈ (S'.rank q).done) :
    Landed cfg S' p q h (S'.rank q).op part := by
  suffices hlanded : Landed cfg S p q h (S'.rank q).op part from hmove.landed hinv.rank hlanded
  rcases hmove.rank_cases q with ⟨hstep, -⟩ | heq
  · obtain ⟨hop, hold | hflag⟩ := hstep.sees hsee
    · rw [hop]
      exact hinv.net.seen p q h b part hold
    · have hpos := (hinv.rank q).kernel.op_pos
      obtain ⟨part', hcell, hlanded⟩ := hinv.net.flagged p q h
        (cellOf (S.rank q).op part) (by rw [hflag]; exact Nat.ne_of_gt hpos)
      rw [hflag] at hcell hlanded
      rw [hop, ← cellOf_injective hcell]
      exact hlanded
  · rw [heq] at hsee ⊢
    exact hinv.net.seen p q h b part hsee

theorem finished (hmove : Moves cfg S S') (hinv : Inv cfg S) (hne : p ≠ q) (hpart : cfg.Has n part)
    (hn : n < (S'.rank q).op) : Landed cfg S' p q h n part := by
  suffices hlanded : Landed cfg S p q h n part from hmove.landed hinv.rank hlanded
  rcases hmove.rank_cases q with ⟨hstep, -⟩ | heq
  · rcases hstep.finished hn with hlt | ⟨rfl, hall⟩
    · exact hinv.net.finished p q h n part hne hpart hlt
    · exact hinv.net.seen p q h 0 part (sees_of_allDone hall hpart p hne h)
  · rw [heq] at hn
    exact hinv.net.finished p q h n part hne hpart hn

theorem netInv (hmove : Moves cfg S S') (hinv : Inv cfg S) : NetInv cfg S' where
  posted p q h m hm := by
    rcases hmove.queued hm with ⟨m', hm', hop, hpart, -⟩ | ⟨_, _, _, _, _, _, hproxy, hrank, rfl⟩
    · rw [hop, hpart]
      exact hmove.posted hinv.rank (hinv.net.posted p q h m' hm')
    · exact posted_new (hinv.rank p).proxy hproxy hrank
  base p q h m hm := by
    rcases hmove.queued hm with ⟨m', hm', hop, hpart, hbase, -⟩ | ⟨_, _, _, _, _, _, hproxy, -, rfl⟩
    · rw [hop, hpart, hbase]
      exact hinv.net.base p q h m' hm'
    · have hholds := (hinv.rank p).proxy.holds
      rw [hproxy] at hholds
      exact congrArg (fun packs => msgBase W packs p q _) (packs_of_record hholds.1)
  todo p q h m hm i hi := by
    rcases hmove.queued hm with ⟨m', hm', hop, hpart, -, htodo⟩ |
      ⟨_, _, _, _, part, _, hproxy, -, rfl⟩
    · rw [hop, hpart]
      exact hinv.net.todo p q h m' hm' i (htodo i hi)
    · have hproxyInv := (hinv.rank p).proxy
      have hholds := hproxyInv.holds
      have htaken := hproxyInv.taken part (hproxyInv.toPost _ _ _ (toPost_of_proxy hproxy)).1
      rw [hproxy] at hholds
      exact stripeOf_of_record hholds.1 htaken.2 ▸ hi
  unreleased p q h m hm hpart := by
    have hpipe : (S.rank p).pipeDone < m.op := by
      rcases hmove.queued hm with ⟨m', hm', hop, hpart', -⟩ | ⟨_, _, _, _, _, _, -, -, rfl⟩
      · rw [hop]
        exact hinv.net.unreleased p q h m' hm' (hpart' ▸ hpart)
      · exact Nat.lt_succ_of_le (hinv.rank p).proxy.pipeDone_le
    rcases hmove.pipeDone p with heq | hempty
    · rwa [heq]
    · rw [hempty q h] at hm
      exact absurd hm List.not_mem_nil
  distinct := hmove.distinct hinv
  flagged := hmove.flagged hinv
  seen _ _ _ _ _ := hmove.seen hinv
  finished _ _ _ _ _ := hmove.finished hinv

end Moves

/-! ## The order of the ranks -/

namespace Inv

variable (hinv : Inv cfg S)

include hinv

theorem posted_le_op (hposted : (S.rank p).Posted cfg p q h n part) : n ≤ (S.rank p).op :=
  Nat.le_trans (posted_le_front hposted)
    (Nat.le_trans (hinv.rank p).proxy.front_le (hinv.rank p).kernel.seq_le)

/-- What a rank has finished, its peers have posted. -/
theorem posted_of_finished (hne : p ≠ q) (hn : 1 ≤ n) (hlt : n < (S.rank q).op) :
    ∃ h part, (S.rank p).Posted cfg p q h n part := by
  obtain ⟨part, hpart⟩ := cfg.exists_has hn
  exact ⟨⟨0, cfg.hcas_pos⟩, part, (hinv.net.finished p q _ n part hne hpart hlt).1⟩

/-- **No rank is more than one operation ahead of another.** -/
theorem op_le (p q : Fin W) : (S.rank q).op ≤ (S.rank p).op + 1 := by
  by_cases hne : p = q
  · rw [hne]
    exact Nat.le_succ _
  · have hpos := (hinv.rank q).kernel.op_pos
    have hpos' := (hinv.rank p).kernel.op_pos
    by_contra hlt
    obtain ⟨_, _, hposted⟩ := hinv.posted_of_finished (n := (S.rank q).op - 1) hne
      (by omega) (by omega)
    have := hinv.posted_le_op hposted
    omega

/-- **A kernel is at most two operations ahead of its proxy.** -/
theorem ahead (r : Fin W) : (S.rank r).op ≤ (S.rank r).front + 2 := by
  by_contra hlt
  have hW := cfg.world_ge
  obtain ⟨q, hq⟩ : ∃ q : Fin W, q ≠ r := by
    have : Nontrivial (Fin W) := Fin.nontrivial_iff_two_le.mpr hW
    exact exists_ne r
  have hle := hinv.op_le q r
  obtain ⟨_, _, hposted⟩ := hinv.posted_of_finished (n := (S.rank r).op - 2) (Ne.symm hq)
    (by omega) (by omega)
  have := posted_le_front hposted
  omega

/-- **A write in flight is of the operation its receiver runs, or of the next
one**, and its sender has not got further. -/
theorem in_flight {m : Msg} (hm : m ∈ S.queue p q h) :
    (S.rank q).op ≤ m.op ∧ m.op ≤ (S.rank p).op ∧ (S.rank p).op ≤ (S.rank q).op + 1 := by
  have hposted := hinv.net.posted p q h m hm
  refine ⟨?_, hinv.posted_le_op hposted, hinv.op_le q p⟩
  by_contra hlt
  have hlanded := hinv.net.finished p q h m.op m.part (Ne.symm hposted.2.1) hposted.1
    (Nat.lt_of_not_le hlt)
  exact hlanded.2 m hm rfl rfl

/-- A chunk in flight is of the operation its sender runs. -/
theorem op_of_chunk {m : Msg} (hm : m ∈ S.queue p q h) (hpart : m.part ≠ .one) :
    m.op = (S.rank p).op := by
  refine Nat.le_antisymm (hinv.in_flight hm).2.1 (Nat.le_of_not_lt (fun hlt => ?_))
  have hhas := (hinv.net.posted p q h m hm).1
  have htwo : (cfg.op m.op).kind = .twoshot := by
    have hkind := hhas.2
    rcases hp : m.part with - | c | c
    · exact absurd hp hpart
    all_goals
      rw [hp] at hkind
      exact hkind.1
  exact absurd ((hinv.rank p).waited m.op hhas.1 hlt htwo)
    (Nat.not_le_of_lt (hinv.net.unreleased p q h m hm hpart))

/-- The chunks of the operations a kernel has finished have landed. -/
theorem landed_of_finished (hne : q ≠ p) (hpart : cfg.Has n part) (hchunk : part ≠ .one)
    (hlt : n < (S.rank p).op) : Landed cfg S p q h n part := by
  have htwo : (cfg.op n).kind = .twoshot := by
    rcases part with - | c | c
    · exact absurd rfl hchunk
    · exact hpart.2.1
    · exact hpart.2.1
  have hpipe := (hinv.rank p).waited n hpart.1 hlt htwo
  refine ⟨⟨hpart, hne, Or.inl (Nat.le_trans hpipe (hinv.rank p).proxy.pipeDone_le)⟩, ?_⟩
  rintro m hm rfl hpart'
  exact absurd (hinv.net.unreleased p q h m hm (hpart' ▸ hchunk)) (Nat.not_lt_of_le hpipe)

/-- A rank that gathers has received the chunks of all its peers. -/
theorem op_le_of_gather {c : ℕ} (hposted : (S.rank p).Posted cfg p q h n (.ag c)) (r : Fin W) :
    n ≤ (S.rank r).op := by
  have hhas := hposted.1
  have hpublished := (hinv.rank p).proxy.published n (.ag c) hhas (by simp)
    (hposted.2.2.imp_right (fun h => ⟨h.1, h.2.1⟩))
  rcases hpublished with hlt | ⟨heq, hmem⟩
  · have := hinv.op_le r p
    omega
  · by_cases hr : r = p
    · rw [hr, heq]
    · have hsees := ((hinv.rank p).kernel.needs _ hmem).2.1 0 (cfg.blocks_pos p _)
      have hlanded := hinv.net.seen r p h 0 (.rs c) (hsees r hr h)
      exact heq ▸ hinv.posted_le_op hlanded.1

/-- A rank whose peer has finished a two-shot operation has read all chunks of
the reduce-scatter. -/
theorem read_of_finished {c i : ℕ} (hne : p ≠ q) (hhas : cfg.Has (S.rank q).op (.rs c))
    (hlt : (S.rank q).op < (S.rank p).op)
    (hi : i ∈ (cfg.op (S.rank q).op).chunkOf W q c) : Task.read (.rs c) p i ∈ (S.rank q).done := by
  have hhas' : cfg.Has (S.rank q).op (.ag c) := hhas
  have hlanded := hinv.net.finished q p ⟨0, cfg.hcas_pos⟩ _ (.ag c) (Ne.symm hne) hhas' hlt
  have hpublished := (hinv.rank q).proxy.published _ (.ag c) hhas' (by simp)
    (hlanded.1.2.2.imp_right (fun h => ⟨h.1, h.2.1⟩))
  have hmem : Task.publish (.ag c) ∈ (S.rank q).done :=
    (hpublished.resolve_left (Nat.lt_irrefl _)).2
  have hstore := ((hinv.rank q).kernel.needs _ hmem).2.2 i hi
  exact ((hinv.rank q).kernel.needs _ hstore).2.2 p hne

end Inv

/-- **The invariant is kept by every step.** -/
theorem Inv.moves (hinv : Inv cfg S) (hmove : Moves cfg S S') : Inv cfg S' where
  rank r := by
    cases hmove with
    | rank r' hstep =>
      by_cases hr : r = r'
      · subst hr
        rw [setRank_rank_self]
        exact hstep.rankInv (hinv.rank r) (hinv.ahead r)
      · rw [setRank_rank_of_ne hr]
        exact hinv.rank r
    | post r' hproxy =>
      show RankInv cfg r ((S.setRank r' _).rank r)
      by_cases hr : r = r'
      · subst hr
        rw [setRank_rank_self]
        exact (hinv.rank r).post hproxy
      · rw [setRank_rank_of_ne hr]
        exact hinv.rank r
    | pack => exact hinv.rank r
    | flag => exact hinv.rank r
  net := hmove.netInv hinv

theorem Inv.start : Inv cfg (State.start cfg) where
  rank _ := .start
  net :=
    { posted := fun _ _ _ _ hm => absurd hm List.not_mem_nil
      base := fun _ _ _ _ hm => absurd hm List.not_mem_nil
      todo := fun _ _ _ _ hm => absurd hm List.not_mem_nil
      unreleased := fun _ _ _ _ hm => absurd hm List.not_mem_nil
      distinct := fun _ _ _ => List.Pairwise.nil
      flagged := fun _ _ _ _ hflag => absurd rfl hflag
      seen := fun _ _ _ _ _ hsee => absurd hsee List.not_mem_nil
      finished := fun _ _ _ _ _ _ hpart hlt => absurd hlt (Nat.not_lt_of_le hpart.1) }

end RoceTransport

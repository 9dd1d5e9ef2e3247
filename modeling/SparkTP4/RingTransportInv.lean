import Mathlib.Algebra.Group.Nat.Defs
import SparkTP4.RingTransport

/-!
# The ring transport: what holds in every state

A write has *landed* when it has been posted and is no longer in its queue; the writes of a queue
are numbered, so this is a number. A flag word names the last landed operation of its slot; a
kernel that has finished an operation has seen it from everywhere. So no rank is more than one
operation ahead of another (`Inv.op_le`), and a kernel is at most two ahead of its own proxy
(`Inv.op_le_posted`). A word is told from the one two operations before, and so the reads of the
slots are of the operation they are for.
-/

namespace RingTransport

open RingPaths RingPosts

/-! ## Words -/

/-- The number of an operation as a word. -/
def word (n : ℕ) : UInt32 := UInt32.ofNat n

theorem word_succ (n : ℕ) : word (n + 1) = word n + 1 := UInt32.ofNat_add n 1

theorem toNat_word (n : ℕ) : (word n).toNat = n % 2 ^ 32 := UInt32.toNat_ofNat'

@[simp] theorem slotOf_word (n : ℕ) : slotOf (word n) = n % 2 := by
  rw [slotOf, toNat_word]
  exact Nat.mod_mod_of_dvd n (by decide)

/-- Two operations that are less than `2 ^ 32` apart have different words. -/
theorem eq_of_word_eq {m n : ℕ} (h : word m = word n) (hle : m ≤ n) (hlt : n < m + 2 ^ 32) :
    m = n := by
  have heq := congrArg UInt32.toNat h
  rw [toNat_word, toNat_word] at heq
  omega

theorem toNat_word_sub {m n : ℕ} (hle : m ≤ n) (hlt : n < m + 2 ^ 32) :
    (word n - word m).toNat = n - m := by
  rw [UInt32.toNat_sub, toNat_word, toNat_word]
  omega

variable {V : Type}

/-! ## The ranks -/

/-- The last operation whose doorbell has rung. -/
def Rank.rung (R : Rank V) : ℕ := if Task.ring ∈ R.done then R.op else R.op - 1

/-- **The kernel of a rank.** -/
structure KernelInv (cfg : Setting V) (r : ℕ) (R : Rank V) : Prop where
  op_pos : 0 < R.op
  epoch : R.epoch = word (R.op - 1)
  needs : ∀ t ∈ R.done, Needs cfg r R.op R.done t
  staged : ∀ i, Task.stage i ∈ R.done → R.send (R.op % 2, i) = cfg.input r R.op i
  held : 1 < R.op → ∀ i < cfg.packs (R.op - 1),
    R.send ((R.op - 1) % 2, i) = cfg.input r (R.op - 1) i
  sized : Task.setNbytes ∈ R.done → R.slotNbytes (R.op % 2) = cfg.nbytes R.op
  sized_held : 1 < R.op → R.slotNbytes ((R.op - 1) % 2) = cfg.nbytes (R.op - 1)
  doorbell : R.doorbell = word R.rung

/-- The schedule of an operation. -/
def Setting.schedule (cfg : Setting V) (r n : ℕ) : List Act :=
  postOp (cfg.ctx r) (word n).toNat (cfg.nbytes n)

/-- What the proxy has taken up has been rung, and its schedule is the one of the operation. -/
def Proxy.Holds (cfg : Setting V) (r posted rung : ℕ) : Proxy → Prop
  | .idle | .stopped => posted ≤ rung
  | .fetch pending => 0 < pending ∧ posted + pending ≤ rung
  | .post pending todo => 0 < pending ∧ posted + pending ≤ rung ∧
      ∃ before, cfg.schedule r (posted + 1) = before ++ todo

/-- The schedule has passed a path. -/
def Proxy.Past (e : ℕ × ℕ) : Proxy → Prop
  | .post _ todo => e ∉ posted todo
  | _ => False

/-- **The proxy of a rank.** -/
structure ProxyInv (cfg : Setting V) (r : ℕ) (R : Rank V) : Prop where
  lastSeq : R.lastSeq = word R.opsPosted
  holds : R.proxy.Holds cfg r R.opsPosted R.rung
  past : ∀ p k, cfg.ring.Active r p k → R.proxy.Past (p, k) →
    R.flagWrites (p, k) = R.opsPosted + 1
  ahead : ∀ p k, cfg.ring.Active r p k → ¬R.proxy.Past (p, k) →
    R.flagWrites (p, k) = R.opsPosted

structure RankInv (cfg : Setting V) (r : ℕ) (R : Rank V) : Prop where
  kernel : KernelInv cfg r R
  proxy : ProxyInv cfg r R

/-! ## The network -/

/-- The packs that a path carries of an operation. -/
def Setting.stripe (cfg : Setting V) (p q k n : ℕ) : List ℕ :=
  Striping.stripe 0 (cfg.packs n) ((cfg.ctx p).pathCount q) k

/-- The number of operations that have landed on a path. -/
def State.landed (S : State V) (p q k : ℕ) : ℕ :=
  (S.rank p).flagWrites (q, k) - (S.queue (p, q, k)).length

/-- The last operation up to `n` that uses a slot. -/
def lastOf (n slot : ℕ) : ℕ := if n % 2 = slot then n else n - 1

/-- A pack has landed that belongs to the write of an operation. -/
def State.Arrived (S : State V) (p q k n i : ℕ) : Prop :=
  ∀ m ∈ S.queue (p, q, k), m.op = n → i ∉ m.todo ∧ ∀ e ∈ m.taken, e.1 ≠ i

/-- **The flags and the queue of a path.** -/
structure PathInv (cfg : Setting V) (S : State V) (p q k : ℕ) : Prop where
  numbered : (S.queue (p, q, k)).map Msg.op =
    List.range' (S.landed p q k + 1) (S.queue (p, q, k)).length
  length_le : (S.queue (p, q, k)).length ≤ (S.rank p).flagWrites (q, k)
  seq : ∀ m ∈ S.queue (p, q, k), m.seq = word m.op
  todo : ∀ m ∈ S.queue (p, q, k), ∀ i ∈ m.todo, i ∈ cfg.stripe p q k m.op
  taken : ∀ m ∈ S.queue (p, q, k), ∀ e ∈ m.taken,
    e.1 ∈ cfg.stripe p q k m.op ∧ e.2 = cfg.input p m.op e.1
  flagged : ∀ slot < 2,
    S.flag (q, flagAddress p q k slot) = word (lastOf (S.landed p q k) slot)
  outstanding : (S.queue (p, q, k)).length ≤ (S.rank p).outstanding ((cfg.ctx p).hca q k, q)
  seen : ∀ b t, Task.see b t p k ∈ (S.rank q).done → (S.rank q).op ≤ S.landed p q k
  finished : (S.rank q).op ≤ S.landed p q k + 1
  received : ∀ n, (S.rank q).op ≤ n → n ≤ (S.rank p).flagWrites (q, k) →
    ∀ i ∈ cfg.stripe p q k n, S.Arrived p q k n i → S.recv (q, p, n % 2, i) = cfg.input p n i

/-- **The network, and what the kernels have read from it.** -/
structure NetInv (cfg : Setting V) (S : State V) : Prop where
  path : ∀ p q k, cfg.ring.Active p q k → PathInv cfg S p q k
  quiet : ∀ p q k, ¬cfg.ring.Active p q k → S.queue (p, q, k) = []
  got : ∀ q < cfg.world, ∀ p i, Task.read p i ∈ (S.rank q).done →
    (S.rank q).got (p, i) = cfg.input p (S.rank q).op i
  result : ∀ q < cfg.world, ∀ n, 0 < n → n < (S.rank q).op → ∀ p < cfg.world, p ≠ q →
    ∀ i < cfg.packs n, (S.rank q).result n (p, i) = cfg.input p n i

structure Inv (cfg : Setting V) (S : State V) : Prop where
  rank : ∀ r < cfg.world, RankInv cfg r (S.rank r)
  net : NetInv cfg S

/-! ## The order of the ranks -/

section Order

variable {cfg : Setting V} {S : State V} {R : Rank V} {p q r k n i : ℕ}

theorem Rank.rung_le (R : Rank V) : R.rung ≤ R.op := by
  unfold Rank.rung
  split_ifs
  · exact le_rfl
  · exact Nat.sub_le _ _

theorem Rank.op_le_rung (R : Rank V) : R.op ≤ R.rung + 1 := by
  unfold Rank.rung
  split_ifs <;> omega

theorem KernelInv.seq_eq (h : KernelInv cfg r R) : R.seq = word R.op := by
  rw [Rank.seq, h.epoch, ← word_succ, Nat.sub_add_cancel h.op_pos]

/-- What has been rung is in the send slot. -/
theorem KernelInv.send_eq (h : KernelInv cfg r R) (hpos : 0 < n) (hle : n ≤ R.rung)
    (hop : R.op ≤ n + 1) (hi : i < cfg.packs n) : R.send (n % 2, i) = cfg.input r n i := by
  obtain rfl | rfl : n = R.op ∨ n = R.op - 1 := by
    have hrung := R.rung_le
    omega
  · have hring : Task.ring ∈ R.done := by
      by_contra hnot
      rw [Rank.rung, if_neg hnot] at hle
      omega
    exact h.staged i (h.needs _ (h.needs _ hring) i hi)
  · exact h.held (by omega) i hi

/-- What has been rung has its size. -/
theorem KernelInv.size_eq (h : KernelInv cfg r R) (hpos : 0 < n) (hle : n ≤ R.rung)
    (hop : R.op ≤ n + 1) : R.slotNbytes (n % 2) = cfg.nbytes n := by
  obtain rfl | rfl : n = R.op ∨ n = R.op - 1 := by
    have hrung := R.rung_le
    omega
  · have hring : Task.ring ∈ R.done := by
      by_contra hnot
      rw [Rank.rung, if_neg hnot] at hle
      omega
    exact h.sized (h.needs _ hring)
  · exact h.sized_held (by omega)

theorem ProxyInv.posted_le (h : ProxyInv cfg r R) : R.opsPosted ≤ R.rung := by
  have hholds := h.holds
  cases hproxy : R.proxy with
  | idle => rw [hproxy] at hholds; exact hholds
  | stopped => rw [hproxy] at hholds; exact hholds
  | fetch pending => rw [hproxy] at hholds; exact (Nat.le_add_right _ _).trans hholds.2
  | post pending todo => rw [hproxy] at hholds; exact (Nat.le_add_right _ _).trans hholds.2.1

/-- A path is posted for no operation that has not been rung. -/
theorem ProxyInv.writes_le (h : ProxyInv cfg r R) (ha : cfg.ring.Active r p k) :
    R.flagWrites (p, k) ≤ R.rung := by
  by_cases hpast : R.proxy.Past (p, k)
  · rw [h.past p k ha hpast]
    have hholds := h.holds
    cases hproxy : R.proxy with
    | post pending todo =>
      rw [hproxy] at hholds
      obtain ⟨hpos, hle, -⟩ := hholds
      omega
    | _ =>
      rw [hproxy] at hpast
      exact hpast.elim
  · rw [h.ahead p k ha hpast]
    exact h.posted_le

theorem ProxyInv.posted_le_writes (h : ProxyInv cfg r R) (ha : cfg.ring.Active r p k) :
    R.opsPosted ≤ R.flagWrites (p, k) ∧ R.flagWrites (p, k) ≤ R.opsPosted + 1 := by
  by_cases hpast : R.proxy.Past (p, k)
  · rw [h.past p k ha hpast]
    omega
  · rw [h.ahead p k ha hpast]
    omega

/-- There is a path between any two ranks. -/
theorem Setting.active_zero (cfg : Setting V) (hp : p < cfg.world) (hq : q < cfg.world)
    (hne : q ≠ p) : cfg.ring.Active p q 0 := by
  have hs := scheduled_of_setUp cfg.setUp hp
  refine ⟨hp, hq, hne, hs.pathCount_pos ?_ ?_⟩
  · rw [hs.world_eq]
    exact hq
  · rw [hs.rank_eq]
    exact hne

namespace Inv

variable (hinv : Inv cfg S)

include hinv

theorem landed_le (ha : cfg.ring.Active p q k) :
    S.landed p q k ≤ (S.rank p).flagWrites (q, k) ∧
      S.landed p q k + (S.queue (p, q, k)).length = (S.rank p).flagWrites (q, k) := by
  have hle := (hinv.net.path p q k ha).length_le
  unfold State.landed
  omega

theorem writes_le (ha : cfg.ring.Active p q k) :
    (S.rank p).flagWrites (q, k) ≤ (S.rank p).rung :=
  (hinv.rank p ha.rank).proxy.writes_le ha

/-- **No rank is more than one operation ahead.** -/
theorem op_le (hp : p < cfg.world) (hq : q < cfg.world) : (S.rank q).op ≤ (S.rank p).rung + 1 := by
  by_cases hne : q = p
  · rw [hne]
    exact (S.rank p).op_le_rung
  · have ha := cfg.active_zero hp hq hne
    have hfin := (hinv.net.path p q 0 ha).finished
    have hle := (hinv.landed_le ha).1
    have hwrites := hinv.writes_le ha
    omega

/-- **A kernel is at most two operations ahead of its proxy.** -/
theorem op_le_writes (ha : cfg.ring.Active p q k) :
    (S.rank p).op ≤ (S.rank p).flagWrites (q, k) + 2 := by
  have hop := hinv.op_le ha.peer ha.rank
  have hrung := (S.rank q).rung_le
  have hfin := (hinv.net.path p q k ha).finished
  have hle := (hinv.landed_le ha).1
  omega

/-- A write in a queue has not landed, and has been posted. -/
theorem op_of_mem (ha : cfg.ring.Active p q k) {m : Msg V} (hm : m ∈ S.queue (p, q, k)) :
    S.landed p q k < m.op ∧ m.op ≤ (S.rank p).flagWrites (q, k) := by
  have hmem : m.op ∈ (S.queue (p, q, k)).map Msg.op := List.mem_map_of_mem hm
  rw [(hinv.net.path p q k ha).numbered, List.mem_range'_1] at hmem
  have hsum := (hinv.landed_le ha).2
  omega

/-- **A write under way** is of the operation of its receiver, or of the next one. -/
theorem underway (ha : cfg.ring.Active p q k) {m : Msg V} (hm : m ∈ S.queue (p, q, k)) :
    (S.rank q).op ≤ m.op ∧ m.op ≤ (S.rank p).rung ∧ (S.rank p).op ≤ m.op + 1 ∧
      m.op ≤ (S.rank q).op + 1 := by
  obtain ⟨hlt, hle⟩ := hinv.op_of_mem ha hm
  have hfin := (hinv.net.path p q k ha).finished
  have hwrites := hinv.writes_le ha
  have hop := hinv.op_le ha.peer ha.rank
  have hrung := (S.rank q).rung_le
  have hrung' := (S.rank p).rung_le
  omega

/-- **The flag a wait ends with** is the one of the operation. -/
theorem landed_of_flag (ha : cfg.ring.Active p q k)
    (hflag : S.flag (q, waitAddress q p k (slotOf (S.rank q).seq)) = (S.rank q).seq) :
    (S.rank q).op ≤ S.landed p q k := by
  have hkernel := (hinv.rank q ha.peer).kernel
  have hpos := hkernel.op_pos
  change S.flag (q, flagAddress p q k (slotOf (S.rank q).seq)) = (S.rank q).seq at hflag
  rw [hkernel.seq_eq, slotOf_word,
    (hinv.net.path p q k ha).flagged _ (Nat.mod_lt _ Nat.two_pos)] at hflag
  have hfin := (hinv.net.path p q k ha).finished
  by_contra hlt
  -- otherwise the flag would still be the one of two operations before
  have hlanded : S.landed p q k = (S.rank q).op - 1 := by omega
  have hlast : lastOf (S.landed p q k) ((S.rank q).op % 2) = (S.rank q).op - 1 - 1 := by
    rw [lastOf, hlanded, if_neg]
    omega
  rw [hlast] at hflag
  have heq := eq_of_word_eq hflag (by omega) (by omega)
  omega

end Inv

end Order

end RingTransport

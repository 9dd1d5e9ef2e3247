import SparkTP4.CollectiveStreams
import Mathlib.Tactic.IntervalCases

/-!
# When the streams do not show

A collective that is on its stream past its wait is after the event of every
earlier collective (`Sched.chain`), so kernels exchange in the order of the
calls and everything between `_order_stream` and `_mark_stream` is safe. The
copies into a scratch run before `_order_stream`, and the padded gather reads
its gathered buffer after `_mark_stream`: these are ordered only where a stream
happens to order them. `transparent_iff_ordered` says that this is exactly
when every interleaving gives the results of a single stream.
-/

namespace CollectiveStreams

variable {V T : Type}

/-! ## What the host enqueues -/

/-- The call whose event call `i` waits for. -/
def waitOf (ops : List Call) : ℕ → Option ℕ
  | 0 => none
  | i + 1 => if streamOf ops (i + 1) ≠ streamOf ops i then some i else none

theorem waitOf_lt {ops : List Call} {i k : ℕ} (h : k ∈ waitOf ops i) : k < i := by
  cases i with
  | zero => cases h
  | succ i =>
    by_cases hs : streamOf ops (i + 1) ≠ streamOf ops i
    · rw [waitOf, if_pos hs] at h
      rw [← Option.some.inj h]
      exact Nat.lt_succ_self i
    · rw [waitOf, if_neg hs] at h
      cases h

theorem issue_getElem? (h : Host) (i : ℕ) (ops : List Call) (k : ℕ) :
    (issue h i ops)[k]? = ops[k]?.map (fun c => (c, c.form.items (match k with
      | 0 => h.orderStream c.stream
      | k + 1 => if c.stream ≠ streamOf ops k then some (i + k) else none))) := by
  induction ops generalizing h i k with
  | nil => rfl
  | cons c cs ih =>
    cases k with
    | zero => rfl
    | succ k =>
      show (issue (h.markStream c.stream i) (i + 1) cs)[k]? = _
      rw [ih]
      cases k with
      | zero => rfl
      | succ k =>
        refine congrArg (fun f => cs[k + 1]?.map f) (funext (fun c' => ?_))
        show (c', c'.form.items (if c'.stream ≠ streamOf cs k then some (i + 1 + k) else none))
          = (c', c'.form.items (if c'.stream ≠ streamOf cs k then some (i + (k + 1)) else none))
        rw [Nat.add_assoc, Nat.add_comm 1 k]

/-- The work of call `i`: its items wait for the call before it exactly when
that call was on another stream. -/
theorem progs_getElem? (ops : List Call) (i : ℕ) :
    (issue Host.start 0 ops)[i]?
      = ops[i]?.map (fun c => (c, c.form.items (waitOf ops i))) := by
  rw [issue_getElem?]
  cases h : ops[i]? with
  | none => rfl
  | some c =>
    cases i with
    | zero => rfl
    | succ i =>
      have hstream : streamOf ops (i + 1) = c.stream := by
        unfold streamOf
        rw [h]
        rfl
      simp only [Option.map_some, waitOf, hstream, Nat.zero_add]

theorem getElem?_of_lt {ops : List Call} {i : ℕ} (hi : i < ops.length) :
    ops[i]? = some ⟨formOf ops i, streamOf ops i⟩ := by
  unfold formOf streamOf
  rw [List.getElem?_eq_getElem hi]
  rfl

theorem finished_iff {ops : List Call} {S : State V T} {i : ℕ} (hi : i < ops.length) :
    Finished ops S i ↔ S.pc i = 7 := by
  unfold Finished
  rw [progs_getElem?, getElem?_of_lt hi]
  simp [Form.items]

/-- The calls before call `i` on its stream have run. -/
def StreamFree (ops : List Call) (S : State V T) (i : ℕ) : Prop :=
  ∀ k < i, streamOf ops k = streamOf ops i → S.pc k = 7

theorem streamReached_iff {ops : List Call} {S : State V T} {i : ℕ} (hi : i < ops.length) :
    StreamReached (issue Host.start 0 ops) S i (streamOf ops i) ↔ StreamFree ops S i := by
  unfold StreamReached StreamFree
  refine forall_congr' (fun k => forall_congr' (fun hk => ?_))
  rw [progs_getElem?, getElem?_of_lt (Nat.lt_trans hk hi)]
  simp [Form.items]

/-- Call `i` has run its item `it`. -/
def State.after (dev : Device V T) (ops : List Call) (S : State V T) (i : ℕ) (it : Item) :
    State V T :=
  { exec dev (formOf ops i) i S it with pc := Function.update S.pc i (S.pc i + 1) }

/-- **What a step can do**: the next item of a call whose stream has reached
it, and which is ready. -/
theorem step_eq_some {dev : Device V T} {ops : List Call} {S S' : State V T} {i : ℕ} :
    step dev ops S i = some S' ↔ i < ops.length ∧ StreamFree ops S i ∧
      ∃ it, ((formOf ops i).items (waitOf ops i))[S.pc i]? = some it ∧ Ready S it ∧
        S' = S.after dev ops i it := by
  unfold step
  simp only [progs_getElem?]
  by_cases hi : i < ops.length
  · rw [getElem?_of_lt hi]
    simp only [Option.map_some, hi, true_and]
    cases hit : ((formOf ops i).items (waitOf ops i))[S.pc i]? with
    | none => simp
    | some it =>
      have hreached := streamReached_iff (S := S) hi
      by_cases hok : StreamFree ops S i ∧ Ready S it
      · simp only
        rw [if_pos ⟨hreached.mpr hok.1, hok.2⟩, Option.some.injEq]
        exact ⟨fun h => ⟨hok.1, it, rfl, hok.2, h.symm⟩,
          fun ⟨_, it', h, _, hS'⟩ => by rw [hS', ← Option.some.inj h]; rfl⟩
      · simp only
        rw [if_neg (fun h => hok ⟨hreached.mp h.1, h.2⟩)]
        refine ⟨fun h => (nomatch h), fun ⟨hfree, it', h, hready, _⟩ => ?_⟩
        exact absurd ⟨hfree, Option.some.inj h ▸ hready⟩ hok
  · rw [List.getElem?_eq_none (by omega)]
    simp [hi]

theorem after_pc_self (dev : Device V T) (ops : List Call) (S : State V T) (i : ℕ) (it : Item) :
    (S.after dev ops i it).pc i = S.pc i + 1 :=
  Function.update_self _ _ _

theorem after_pc_of_ne (dev : Device V T) (ops : List Call) (S : State V T) {i j : ℕ} (it : Item)
    (h : j ≠ i) : (S.after dev ops i it).pc j = S.pc j :=
  Function.update_of_ne h _ _

/-- The items of a call, by how many have run. -/
theorem items_cases {f : Form} {w : Option ℕ} {n : ℕ} {it : Item}
    (h : (f.items w)[n]? = some it) :
    (n = 0 ∧ it = .copyIn f.source) ∨ (n = 1 ∧ it = .wait w) ∨ (n = 2 ∧ it = .load f.source) ∨
      (n = 3 ∧ it = .store f.dest) ∨ (n = 4 ∧ it = .copyOut f.outBefore) ∨
      (n = 5 ∧ it = .record) ∨ (n = 6 ∧ it = .copyOut f.outAfter) := by
  have hn : n < 7 := by
    have := (List.getElem?_eq_some_iff.mp h).1
    simpa [Form.items] using this
  interval_cases n <;> simp_all [Form.items]

/-! ## The order of the work -/

/-- What the streams and the events order: a call that has started finds the
earlier calls of its stream finished, and a call past its wait finds the event
of the call before it recorded. -/
structure Sched (ops : List Call) (S : State V T) : Prop where
  le : ∀ i, S.pc i ≤ 7
  out : ∀ i, ops.length ≤ i → S.pc i = 0
  stream : ∀ i, 0 < S.pc i → StreamFree ops S i
  wait : ∀ i, 2 ≤ S.pc (i + 1) → streamOf ops (i + 1) ≠ streamOf ops i → 6 ≤ S.pc i

theorem sched_start (dev : Device V T) (ops : List Call) : Sched ops (State.start dev) where
  le _ := Nat.zero_le 7
  out _ _ := rfl
  stream _ h := absurd h (Nat.lt_irrefl 0)
  wait _ h := absurd h (Nat.not_succ_le_zero 1)

/-- A finished call stays finished, and its stream stays free for the later. -/
theorem StreamFree.after {dev : Device V T} {ops : List Call} {S : State V T} {i j : ℕ} {it : Item}
    (h : StreamFree ops S j) (hlt : S.pc i < 7) : StreamFree ops (S.after dev ops i it) j := by
  intro k hk hs
  have hk7 := h k hk hs
  rw [after_pc_of_ne dev ops S it (fun hki => by rw [hki] at hk7; omega), hk7]

theorem Sched.step {dev : Device V T} {ops : List Call} {S S' : State V T} {i : ℕ}
    (h : Sched ops S) (hstep : step dev ops S i = some S') : Sched ops S' := by
  obtain ⟨hi, hfree, it, hit, hready, rfl⟩ := step_eq_some.mp hstep
  have hlt : S.pc i < 7 := by
    rcases items_cases hit with h | h | h | h | h | h | h <;> omega
  refine ⟨fun j => ?_, fun j hj => ?_, fun j hj => ?_, fun j hj hs => ?_⟩
  · by_cases hji : j = i
    · rw [hji, after_pc_self]
      omega
    · rw [after_pc_of_ne dev ops S it hji]
      exact h.le j
  · rw [after_pc_of_ne dev ops S it (by omega)]
    exact h.out j hj
  · refine StreamFree.after ?_ hlt
    by_cases hji : j = i
    · rw [hji]
      exact hfree
    · rw [after_pc_of_ne dev ops S it hji] at hj
      exact h.stream j hj
  · have hpc : 6 ≤ S.pc j := by
      by_cases hji : j + 1 = i
      · -- the wait is the second item of the call
        rw [hji, after_pc_self] at hj
        by_cases hw : S.pc i = 1
        · rw [hw] at hit
          obtain rfl : it = .wait (waitOf ops i) := by simpa [Form.items] using hit.symm
          rw [← hji] at hready
          simp only [waitOf, if_pos hs] at hready
          exact hready
        · exact h.wait j (by rw [hji]; omega) hs
      · rw [after_pc_of_ne dev ops S it hji] at hj
        exact h.wait j hj hs
    by_cases hji : j = i
    · rw [hji, after_pc_self]
      rw [hji] at hpc
      omega
    · rw [after_pc_of_ne dev ops S it hji]
      exact hpc

/-- **The chain of events.** A call past its wait is after the event of every
earlier call. -/
theorem Sched.chain {ops : List Call} {S : State V T} (h : Sched ops S) {i j : ℕ} (hij : i < j)
    (hj : 2 ≤ S.pc j) : 6 ≤ S.pc i := by
  induction j with
  | zero => omega
  | succ j ih =>
    have hrecorded : 6 ≤ S.pc j := by
      by_cases hs : streamOf ops (j + 1) = streamOf ops j
      · rw [h.stream (j + 1) (by omega) j (Nat.lt_succ_self j) hs.symm]
        omega
      · exact h.wait j hj hs
    rcases Nat.lt_or_eq_of_le (Nat.le_of_lt_succ hij) with hlt | rfl
    · exact ih hlt (by omega)
    · exact hrecorded

/-! ## Which buffers a path uses -/

theorem Form.source_eq {f : Form} {b : Buffer} (h : b ∈ f.source) :
    b = .alignIn ∨ b = .staged := by
  cases f with
  | allReduce t a o => cases a <;> simp_all [Form.source]
  | gatherDirect => exact nomatch h
  | gatherPadded => exact .inr (Option.some.inj h).symm
  | gatherColumns => exact nomatch h

theorem Form.outBefore_eq {f : Form} {b : Buffer} (h : b ∈ f.outBefore) : b = .alignOut := by
  cases f with
  | allReduce t a o => cases o <;> simp_all [Form.outBefore]
  | gatherDirect => exact nomatch h
  | gatherPadded => exact nomatch h
  | gatherColumns => exact nomatch h

theorem Form.outAfter_eq {f : Form} {b : Buffer} (h : b ∈ f.outAfter) : b = .gathered := by
  cases f with
  | allReduce t a o => exact nomatch h
  | gatherDirect => exact nomatch h
  | gatherPadded => exact (Option.some.inj h).symm
  | gatherColumns => exact nomatch h

/-- The kernel writes the scratch that is copied out. -/
theorem Form.mem_dest {f : Form} {b : Buffer} : b ∈ f.dest ↔ b ∈ f.outBefore ∨ b ∈ f.outAfter := by
  cases f with
  | allReduce t a o => cases o <;> simp [Form.dest, Form.outBefore, Form.outAfter]
  | gatherDirect => simp [Form.dest, Form.outBefore, Form.outAfter]
  | gatherPadded => simp [Form.dest, Form.outBefore, Form.outAfter]
  | gatherColumns => simp [Form.dest, Form.outBefore, Form.outAfter]

theorem Form.not_mem_dest_of_source {f g : Form} {b : Buffer} (hf : b ∈ f.source) :
    b ∉ g.dest := by
  intro hg
  rcases Form.mem_dest.mp hg with hg | hg
  · rcases Form.source_eq hf with rfl | rfl <;> exact nomatch Form.outBefore_eq hg
  · rcases Form.source_eq hf with rfl | rfl <;> exact nomatch Form.outAfter_eq hg

/-- How many items of a call have run when its result is there. -/
def Form.resultAt (f : Form) : ℕ :=
  if f.outAfter.isSome then 7 else if f.outBefore.isSome then 5 else 4

/-! ## What a step leaves alone -/

section Frame

variable (dev : Device V T) (ops : List Call) (S : State V T) {i j : ℕ} {it : Item}

theorem after_reg_of_ne (h : j ≠ i) : (S.after dev ops i it).reg j = S.reg j := by
  unfold State.after exec
  split <;> first | rfl | exact Function.update_of_ne h _ _

theorem after_reg (h : ∀ src, it ≠ .load src) : (S.after dev ops i it).reg = S.reg := by
  unfold State.after exec
  split <;> first | rfl | exact absurd rfl (h _)

theorem after_res_of_ne (h : j ≠ i) : (S.after dev ops i it).res j = S.res j := by
  unfold State.after exec
  split <;> first | rfl | exact Function.update_of_ne h _ _

theorem after_transport (h : ∀ src, it ≠ .load src) :
    (S.after dev ops i it).transport = S.transport := by
  unfold State.after exec
  split <;> first | rfl | exact absurd rfl (h _)

theorem after_mem {b : Buffer} (hcopy : it ≠ .copyIn (some b)) (hstore : it ≠ .store (some b)) :
    (S.after dev ops i it).mem b = S.mem b := by
  unfold State.after exec
  split
  case h_2 b' => exact Function.update_of_ne (fun h : b = b' => hcopy (by rw [h])) _ _
  case h_6 b' => exact Function.update_of_ne (fun h : b = b' => hstore (by rw [h])) _ _
  all_goals rfl

end Frame

/-! ## The values -/

/-- The transport after the first `n` calls, one after the other. -/
def seqTransport (dev : Device V T) (ops : List Call) : ℕ → T
  | 0 => dev.transport
  | n + 1 => (dev.collective (seqTransport dev ops n) (formOf ops n) (dev.input n)).1

/-- The result of call `i` when the calls run one after the other. -/
def seqResult (dev : Device V T) (ops : List Call) (i : ℕ) : V :=
  (dev.collective (seqTransport dev ops i) (formOf ops i) (dev.input i)).2

/-- The kernels have exchanged in the order of the calls, and every scratch
holds the value of the call that is between its write and its read of it. -/
structure Values (dev : Device V T) (ops : List Call) (S : State V T) : Prop where
  transport : ∃ m, (∀ i, 3 ≤ S.pc i ↔ i < m) ∧ S.transport = seqTransport dev ops m
  source : ∀ i, 1 ≤ S.pc i → S.pc i ≤ 2 → ∀ b ∈ (formOf ops i).source, S.mem b = dev.input i
  reg : ∀ i, 3 ≤ S.pc i → S.reg i = seqResult dev ops i
  before : ∀ i, S.pc i = 4 → ∀ b ∈ (formOf ops i).outBefore, S.mem b = seqResult dev ops i
  after : ∀ i, 4 ≤ S.pc i → S.pc i ≤ 6 → ∀ b ∈ (formOf ops i).outAfter,
    S.mem b = seqResult dev ops i
  res : ∀ i, (formOf ops i).resultAt ≤ S.pc i → S.res i = some (seqResult dev ops i)

theorem values_start (dev : Device V T) (ops : List Call) :
    Values dev ops (State.start dev) where
  transport := ⟨0, fun i => ⟨fun h => absurd h (Nat.not_succ_le_zero 2),
    fun h => absurd h (Nat.not_lt_zero i)⟩, rfl⟩
  source _ h := absurd h (Nat.not_succ_le_zero 0)
  reg _ h := absurd h (Nat.not_succ_le_zero 2)
  before _ h := absurd h (Nat.zero_ne_add_one 3)
  after _ h := absurd h (Nat.not_succ_le_zero 3)
  res i h := by
    unfold Form.resultAt at h
    have hpos : 0 < (State.start dev).pc i := by
      refine Nat.lt_of_lt_of_le ?_ h
      split
      · decide
      · split <;> decide
    exact absurd hpos (Nat.lt_irrefl 0)

section Step

variable {dev : Device V T} {ops : List Call} {S : State V T} {i j : ℕ} {it : Item} {b : Buffer}

/-- No call copies into a scratch that another call has yet to read. -/
theorem no_copy_clash (hsched : Sched ops S) (hcopies : CopiesOrdered ops)
    (hi : i < ops.length) (hfree : StreamFree ops S i) (hpc : S.pc i = 0) (hne : j ≠ i)
    (hj₁ : 1 ≤ S.pc j) (hj₂ : S.pc j ≤ 2) (hbi : b ∈ (formOf ops i).source)
    (hbj : b ∈ (formOf ops j).source) : False := by
  rcases Nat.lt_or_gt_of_ne hne with hlt | hgt
  · -- the earlier call has its stream's later work finished, so it has read
    obtain ⟨k, hki, hjk, hstream⟩ := hcopies i hi j hlt b hbj hbi
    have hk := hfree k hki hstream
    rcases Nat.lt_or_eq_of_le hjk with hlt' | rfl
    · have := hsched.chain hlt' (by omega)
      omega
    · omega
  · -- the later call has started, so the copy of the earlier one is done
    have hj : j < ops.length := by
      by_contra hj
      have := hsched.out j (by omega)
      omega
    obtain ⟨k, hkj, hik, hstream⟩ := hcopies j hj i hgt b hbi hbj
    have hk := hsched.stream j (by omega) k hkj hstream
    rcases Nat.lt_or_eq_of_le hik with hlt' | rfl
    · have := hsched.chain hlt' (by omega)
      omega
    · omega

/-- No call writes the gathered buffer that another call has yet to read. -/
theorem no_gather_clash (hsched : Sched ops S) (hgathers : GathersOrdered ops)
    (hi : i < ops.length) (hpc : S.pc i = 3) (hne : j ≠ i) (hj₁ : 4 ≤ S.pc j)
    (hj₂ : S.pc j ≤ 6) (hbi : b ∈ (formOf ops i).outAfter)
    (hbj : b ∈ (formOf ops j).outAfter) : False := by
  rcases Nat.lt_or_gt_of_ne hne with hlt | hgt
  · obtain ⟨k, hki, hjk, hstream⟩ := hgathers i hi j hlt b hbj hbi
    have hk : 0 < S.pc k := by
      rcases Nat.lt_or_eq_of_le (Nat.le_of_lt_succ hki) with hlt' | rfl
      · have := hsched.chain hlt' (by omega)
        omega
      · omega
    have := hsched.stream k hk j hjk hstream.symm
    omega
  · have := hsched.chain hgt (by omega)
    omega

/-- No two kernels are between their write and their event. -/
theorem no_kernel_clash (hsched : Sched ops S) (hpc : S.pc i = 3) (hne : j ≠ i)
    (hj₁ : 2 ≤ S.pc j) (hj₂ : S.pc j ≤ 5) : False := by
  rcases Nat.lt_or_gt_of_ne hne with hlt | hgt
  · have := hsched.chain hlt (by omega)
    omega
  · have := hsched.chain hgt hj₁
    omega

/-- What the kernel of call `i` reads is the caller's tensor. -/
theorem Values.loaded (h : Values dev ops S) (hpc : S.pc i = 2) :
    S.kernelInput dev i (formOf ops i).source = dev.input i := by
  cases hsrc : (formOf ops i).source with
  | none => rfl
  | some b => exact h.source i (by omega) (by omega) b hsrc

/-- The kernel of call `i` runs after exactly the kernels of the calls before. -/
theorem Values.transport_eq (h : Values dev ops S) (hsched : Sched ops S) (hpc : S.pc i = 2) :
    S.transport = seqTransport dev ops i := by
  obtain ⟨m, hm, htransport⟩ := h.transport
  have hle : m ≤ i := Nat.not_lt.mp (fun hlt => by have := (hm i).mpr hlt; omega)
  have hge : i ≤ m := by
    by_contra hlt
    have := hsched.chain (i := m) (j := i) (by omega) (by omega)
    have := (hm m).mp (by omega)
    omega
  rw [htransport, Nat.le_antisymm hle hge]

theorem Values.step_transport (h : Values dev ops S) (hsched : Sched ops S)
    (hit : ((formOf ops i).items (waitOf ops i))[S.pc i]? = some it) :
    ∃ m, (∀ k, 3 ≤ (S.after dev ops i it).pc k ↔ k < m) ∧
      (S.after dev ops i it).transport = seqTransport dev ops m := by
  obtain ⟨m, hm, htransport⟩ := h.transport
  by_cases hpc : S.pc i = 2
  · rw [hpc] at hit
    obtain rfl : it = .load (formOf ops i).source := by simpa [Form.items] using hit.symm
    have hmi : ∀ k, 3 ≤ S.pc k ↔ k < i := by
      intro k
      constructor
      · intro hk
        by_contra hge
        rcases Nat.lt_or_eq_of_le (Nat.not_lt.mp hge) with hlt | rfl
        · have := hsched.chain hlt (by omega)
          omega
        · omega
      · intro hk
        have := hsched.chain hk (by omega)
        omega
    refine ⟨i + 1, fun k => ?_, ?_⟩
    · by_cases hk : k = i
      · rw [hk, after_pc_self]
        omega
      · rw [after_pc_of_ne dev ops S _ hk, hmi k]
        omega
    · show (dev.collective S.transport (formOf ops i) _).1 = _
      rw [h.transport_eq hsched hpc, h.loaded hpc]
      rfl
  · refine ⟨m, fun k => ?_, ?_⟩
    · by_cases hk : k = i
      · rw [hk, after_pc_self, ← hm i]
        omega
      · rw [after_pc_of_ne dev ops S _ hk]
        exact hm k
    · rw [after_transport dev ops S, htransport]
      rintro src rfl
      rcases items_cases hit with h | h | h | h | h | h | h <;>
        first | exact hpc h.1 | exact nomatch h.2

theorem Values.step_reg (h : Values dev ops S) (hsched : Sched ops S)
    (hit : ((formOf ops i).items (waitOf ops i))[S.pc i]? = some it)
    (hj : 3 ≤ (S.after dev ops i it).pc j) :
    (S.after dev ops i it).reg j = seqResult dev ops j := by
  by_cases hji : j = i
  · subst hji
    rw [after_pc_self] at hj
    by_cases hpc : S.pc j = 2
    · rw [hpc] at hit
      obtain rfl : it = .load (formOf ops j).source := by simpa [Form.items] using hit.symm
      show Function.update S.reg j (dev.collective S.transport (formOf ops j) _).2 j = _
      rw [Function.update_self, h.transport_eq hsched hpc, h.loaded hpc]
      rfl
    · rw [after_reg dev ops S]
      · exact h.reg j (by omega)
      · rintro src rfl
        rcases items_cases hit with h | h | h | h | h | h | h <;>
          first | exact hpc h.1 | exact nomatch h.2
  · rw [after_reg_of_ne dev ops S hji]
    rw [after_pc_of_ne dev ops S it hji] at hj
    exact h.reg j hj

/-- A copy into a scratch is the first item of a call that reads it. -/
theorem items_copyIn (hit : ((formOf ops i).items (waitOf ops i))[S.pc i]? = some it)
    (h : it = .copyIn (some b)) : S.pc i = 0 ∧ b ∈ (formOf ops i).source := by
  subst h
  rcases items_cases hit with h | h | h | h | h | h | h
  · exact ⟨h.1, (Item.copyIn.inj h.2).symm⟩
  all_goals exact nomatch h.2

/-- A kernel's write into a scratch is the fourth item of a call that copies it
out. -/
theorem items_store (hit : ((formOf ops i).items (waitOf ops i))[S.pc i]? = some it)
    (h : it = .store (some b)) : S.pc i = 3 ∧ b ∈ (formOf ops i).dest := by
  subst h
  rcases items_cases hit with h | h | h | h | h | h | h
  case inr.inr.inr.inl => exact ⟨h.1, (Item.store.inj h.2).symm⟩
  all_goals exact nomatch h.2

theorem Values.step_source (h : Values dev ops S) (hsched : Sched ops S)
    (hcopies : CopiesOrdered ops) (hi : i < ops.length) (hfree : StreamFree ops S i)
    (hit : ((formOf ops i).items (waitOf ops i))[S.pc i]? = some it)
    (hj₁ : 1 ≤ (S.after dev ops i it).pc j) (hj₂ : (S.after dev ops i it).pc j ≤ 2)
    (hb : b ∈ (formOf ops j).source) :
    (S.after dev ops i it).mem b = dev.input j := by
  have hstore : it ≠ .store (some b) := fun h =>
    Form.not_mem_dest_of_source hb (items_store hit h).2
  by_cases hji : j = i
  · subst hji
    rw [after_pc_self] at hj₁ hj₂
    by_cases hpc : S.pc j = 0
    · rw [hpc] at hit
      obtain rfl : it = .copyIn (formOf ops j).source := by simpa [Form.items] using hit.symm
      rw [Option.mem_def.mp hb]
      exact Function.update_self _ _ _
    · rw [after_mem dev ops S (fun h => hpc (items_copyIn hit h).1) hstore]
      exact h.source j (by omega) (by omega) b hb
  · rw [after_pc_of_ne dev ops S it hji] at hj₁ hj₂
    have hcopy : it ≠ .copyIn (some b) := fun h =>
      no_copy_clash hsched hcopies hi hfree (items_copyIn hit h).1 hji hj₁ hj₂
        (items_copyIn hit h).2 hb
    rw [after_mem dev ops S hcopy hstore]
    exact h.source j hj₁ hj₂ b hb

/-- A scratch that is copied out is not copied into. -/
theorem ne_copyIn_of_mem_dest (hit : ((formOf ops i).items (waitOf ops i))[S.pc i]? = some it)
    (hb : b ∈ (formOf ops j).dest) : it ≠ .copyIn (some b) :=
  fun h => Form.not_mem_dest_of_source (items_copyIn hit h).2 hb

/-- The kernel's write puts the call's result into its scratch. -/
theorem Values.stored (h : Values dev ops S) (hpc : S.pc i = 3) (hb : b ∈ (formOf ops i).dest) :
    (S.after dev ops i (.store (formOf ops i).dest)).mem b = seqResult dev ops i := by
  rw [Option.mem_def.mp hb]
  show Function.update S.mem b (S.reg i) b = _
  rw [Function.update_self, h.reg i (by omega)]

theorem Values.step_before (h : Values dev ops S) (hsched : Sched ops S)
    (hit : ((formOf ops i).items (waitOf ops i))[S.pc i]? = some it)
    (hj : (S.after dev ops i it).pc j = 4) (hb : b ∈ (formOf ops j).outBefore) :
    (S.after dev ops i it).mem b = seqResult dev ops j := by
  have hdest : b ∈ (formOf ops j).dest := Form.mem_dest.mpr (.inl hb)
  by_cases hji : j = i
  · subst hji
    rw [after_pc_self] at hj
    have hpc : S.pc j = 3 := by omega
    rw [hpc] at hit
    obtain rfl : it = .store (formOf ops j).dest := by simpa [Form.items] using hit.symm
    exact h.stored hpc hdest
  · rw [after_pc_of_ne dev ops S it hji] at hj
    have hstore : it ≠ .store (some b) := fun h =>
      no_kernel_clash hsched (items_store hit h).1 hji (by omega) (by omega)
    rw [after_mem dev ops S (ne_copyIn_of_mem_dest hit hdest) hstore]
    exact h.before j hj b hb

theorem Values.step_after (h : Values dev ops S) (hsched : Sched ops S)
    (hgathers : GathersOrdered ops) (hi : i < ops.length)
    (hit : ((formOf ops i).items (waitOf ops i))[S.pc i]? = some it)
    (hj₁ : 4 ≤ (S.after dev ops i it).pc j) (hj₂ : (S.after dev ops i it).pc j ≤ 6)
    (hb : b ∈ (formOf ops j).outAfter) :
    (S.after dev ops i it).mem b = seqResult dev ops j := by
  have hdest : b ∈ (formOf ops j).dest := Form.mem_dest.mpr (.inr hb)
  by_cases hji : j = i
  · subst hji
    rw [after_pc_self] at hj₁ hj₂
    by_cases hpc : S.pc j = 3
    · rw [hpc] at hit
      obtain rfl : it = .store (formOf ops j).dest := by simpa [Form.items] using hit.symm
      exact h.stored hpc hdest
    · rw [after_mem dev ops S (ne_copyIn_of_mem_dest hit hdest)
        (fun h => hpc (items_store hit h).1)]
      exact h.after j (by omega) (by omega) b hb
  · rw [after_pc_of_ne dev ops S it hji] at hj₁ hj₂
    have hstore : it ≠ .store (some b) := by
      intro hst
      obtain ⟨hpc, hbi⟩ := items_store hit hst
      rcases Form.mem_dest.mp hbi with hbi | hbi
      · exact nomatch (Form.outBefore_eq hbi).symm.trans (Form.outAfter_eq hb)
      · exact no_gather_clash hsched hgathers hi hpc hji hj₁ hj₂ hbi hb
    rw [after_mem dev ops S (ne_copyIn_of_mem_dest hit hdest) hstore]
    exact h.after j hj₁ hj₂ b hb

theorem Values.step_res (h : Values dev ops S)
    (hit : ((formOf ops i).items (waitOf ops i))[S.pc i]? = some it)
    (hj : (formOf ops j).resultAt ≤ (S.after dev ops i it).pc j) :
    (S.after dev ops i it).res j = some (seqResult dev ops j) := by
  by_cases hji : j = i
  · subst hji
    rw [after_pc_self] at hj
    have hafter : (formOf ops j).outAfter ≠ none → 7 ≤ S.pc j + 1 := by
      intro hne
      unfold Form.resultAt at hj
      rwa [if_pos (Option.isSome_iff_ne_none.mpr hne)] at hj
    have hat : (formOf ops j).outAfter = none →
        (formOf ops j).resultAt = if (formOf ops j).outBefore.isSome then 5 else 4 := by
      intro heq
      unfold Form.resultAt
      rw [heq]
      rfl
    have hge : 4 ≤ (formOf ops j).resultAt := by
      unfold Form.resultAt
      split
      · decide
      · split <;> decide
    rcases items_cases hit with h' | h' | h' | h' | h' | h' | h'
    · omega
    · omega
    · omega
    · -- the kernel writes the caller's tensor
      obtain ⟨hpc, rfl⟩ := h'
      have hnone : (formOf ops j).outAfter = none := by
        by_contra hne
        have := hafter hne
        omega
      have hbefore : (formOf ops j).outBefore = none := by
        by_contra hne
        rw [hat hnone, if_pos (Option.isSome_iff_ne_none.mpr hne)] at hj
        omega
      have hdest : (formOf ops j).dest = none := by
        unfold Form.dest
        rw [hnone, hbefore]
        rfl
      rw [hdest]
      show Function.update S.res j (some (S.reg j)) j = _
      rw [Function.update_self, h.reg j (by omega)]
    · obtain ⟨hpc, rfl⟩ := h'
      cases hb : (formOf ops j).outBefore with
      | none =>
        have hnone : (formOf ops j).outAfter = none := by
          by_contra hne
          have := hafter hne
          omega
        rw [hat hnone, hb] at hj
        refine h.res j ?_
        rw [hat hnone, hb, hpc]
        exact Nat.le_refl 4
      | some b =>
        show Function.update S.res j (some (S.mem b)) j = _
        rw [Function.update_self, h.before j hpc b hb]
    · obtain ⟨hpc, rfl⟩ := h'
      have hnone : (formOf ops j).outAfter = none := by
        by_contra hne
        have := hafter hne
        omega
      refine h.res j ?_
      rw [hat hnone, hpc]
      split <;> omega
    · obtain ⟨hpc, rfl⟩ := h'
      cases hb : (formOf ops j).outAfter with
      | none =>
        refine h.res j ?_
        rw [hat hb, hpc]
        split <;> omega
      | some b =>
        show Function.update S.res j (some (S.mem b)) j = _
        rw [Function.update_self, h.after j (by omega) (by omega) b hb]
  · rw [after_res_of_ne dev ops S hji]
    rw [after_pc_of_ne dev ops S it hji] at hj
    exact h.res j hj

/-- **Every step keeps the values**, when the copies are ordered. -/
theorem Values.step {S' : State V T} (h : Values dev ops S) (hsched : Sched ops S)
    (hordered : Ordered ops) (hstep : step dev ops S i = some S') : Values dev ops S' := by
  obtain ⟨hi, hfree, it, hit, -, rfl⟩ := step_eq_some.mp hstep
  exact ⟨h.step_transport hsched hit,
    fun j hj₁ hj₂ b hb => h.step_source hsched hordered.1 hi hfree hit hj₁ hj₂ hb,
    fun j hj => h.step_reg hsched hit hj,
    fun j hj b hb => h.step_before hsched hit hj hb,
    fun j hj₁ hj₂ b hb => h.step_after hsched hordered.2 hi hit hj₁ hj₂ hb,
    fun j hj => h.step_res hit hj⟩

end Step

/-- The order of the work holds in every reachable state. -/
theorem sched_of_reachable {dev : Device V T} {ops : List Call} {S : State V T}
    (h : Reachable dev ops S) : Sched ops S :=
  Transition.Reachable.invariant (Sched ops) (sched_start dev ops)
    (fun _ _ _ hsched _ hstep => hsched.step hstep) h

/-- **The ordered direction.** When the copies are ordered, every call that has
run has its result of the sequential run, in every interleaving. -/
theorem values_of_reachable {dev : Device V T} {ops : List Call} (hordered : Ordered ops)
    {S : State V T} (h : Reachable dev ops S) : Values dev ops S := by
  have hinv : Sched ops S ∧ Values dev ops S := by
    refine Transition.Reachable.invariant (fun S => Sched ops S ∧ Values dev ops S)
      ⟨sched_start dev ops, values_start dev ops⟩ ?_ h
    rintro S i S' ⟨hsched, hvalues⟩ - hstep
    exact ⟨hsched.step hstep, hvalues.step hsched hordered hstep⟩
  exact hinv.2

theorem res_of_finished {dev : Device V T} {ops : List Call} (hordered : Ordered ops)
    {S : State V T} (h : Reachable dev ops S) {i : ℕ} (hi : i < ops.length)
    (hfin : Finished ops S i) : S.res i = some (seqResult dev ops i) := by
  refine (values_of_reachable hordered h).res i ?_
  rw [(finished_iff hi).mp hfin]
  unfold Form.resultAt
  split
  · exact Nat.le_refl 7
  · split <;> decide

/-- **The device does not get stuck**: while a call has work left, the first
such call can take its next step. -/
theorem exists_step_of_unfinished (dev : Device V T) {ops : List Call} {S : State V T}
    (hsched : Sched ops S) {i : ℕ} (hi : i < ops.length) (hpc : S.pc i ≠ 7) :
    ∃ k S', step dev ops S k = some S' := by
  induction i using Nat.strong_induction_on with
  | h i ih =>
    by_cases hall : ∀ k < i, S.pc k = 7
    · have hlt : S.pc i < 7 := Nat.lt_of_le_of_ne (hsched.le i) hpc
      have hlen : S.pc i < ((formOf ops i).items (waitOf ops i)).length := hlt
      refine ⟨i, _, step_eq_some.mpr ⟨hi, fun k hk _ => hall k hk, _,
        List.getElem?_eq_getElem hlen, ?_, rfl⟩⟩
      rcases items_cases (List.getElem?_eq_getElem hlen) with h | h | h | h | h | h | h <;> rw [h.2]
      case inr.inl =>
        cases hw : waitOf ops i with
        | none => trivial
        | some k =>
          show 6 ≤ S.pc k
          rw [hall k (waitOf_lt hw)]
          decide
      all_goals trivial
    · push Not at hall
      obtain ⟨k, hk, hne⟩ := hall
      exact ih k hk (hk.trans hi) hne

/-! ## One stream -/

section OneStream

variable (stream : ℕ) (ops : List Call)

theorem length_onOneStream : (onOneStream stream ops).length = ops.length :=
  List.length_map _

theorem formOf_onOneStream (i : ℕ) : formOf (onOneStream stream ops) i = formOf ops i := by
  unfold formOf onOneStream
  rw [List.getElem?_map, Option.map_map]
  rfl

theorem streamOf_onOneStream {i : ℕ} (hi : i < ops.length) :
    streamOf (onOneStream stream ops) i = stream := by
  unfold streamOf onOneStream
  rw [List.getElem?_map, getElem?_of_lt hi]
  rfl

/-- On one stream every access is ordered. -/
theorem ordered_onOneStream : Ordered (onOneStream stream ops) := by
  constructor
  · intro j hj i hij b _ _
    rw [length_onOneStream] at hj
    exact ⟨i, hij, Nat.le_refl i, by
      rw [streamOf_onOneStream stream ops hj, streamOf_onOneStream stream ops (hij.trans hj)]⟩
  · intro j hj i hij b _ _
    rw [length_onOneStream] at hj
    exact ⟨j, Nat.lt_succ_self j, hij, by
      rw [streamOf_onOneStream stream ops hj, streamOf_onOneStream stream ops (hij.trans hj)]⟩

theorem seqTransport_onOneStream (dev : Device V T) (n : ℕ) :
    seqTransport dev (onOneStream stream ops) n = seqTransport dev ops n := by
  induction n with
  | zero => rfl
  | succ n ih =>
    unfold seqTransport
    rw [ih, formOf_onOneStream]

theorem seqResult_onOneStream (dev : Device V T) (i : ℕ) :
    seqResult dev (onOneStream stream ops) i = seqResult dev ops i := by
  unfold seqResult
  rw [seqTransport_onOneStream, formOf_onOneStream]

end OneStream

/-! ## Runs of one call -/

section Runs

variable {dev : Device V T} {ops : List Call} {S : State V T} {i j : ℕ}

/-- The state after call `i` has run the items `its`. -/
def State.runs (dev : Device V T) (ops : List Call) (S : State V T) (i : ℕ) :
    List Item → State V T
  | [] => S
  | it :: its => State.runs dev ops (S.after dev ops i it) i its

theorem runs_pc_self (its : List Item) : (S.runs dev ops i its).pc i = S.pc i + its.length := by
  induction its generalizing S with
  | nil => rfl
  | cons it its ih =>
    show (State.runs dev ops (S.after dev ops i it) i its).pc i = _
    rw [ih, after_pc_self, List.length_cons]
    omega

theorem runs_pc_of_ne (its : List Item) (h : j ≠ i) : (S.runs dev ops i its).pc j = S.pc j := by
  induction its generalizing S with
  | nil => rfl
  | cons it its ih =>
    show (State.runs dev ops (S.after dev ops i it) i its).pc j = _
    rw [ih, after_pc_of_ne dev ops S it h]

theorem runs_reg_of_ne (its : List Item) (h : j ≠ i) :
    (S.runs dev ops i its).reg j = S.reg j := by
  induction its generalizing S with
  | nil => rfl
  | cons it its ih =>
    show (State.runs dev ops (S.after dev ops i it) i its).reg j = _
    rw [ih, after_reg_of_ne dev ops S h]

/-- A call may run its next items alone, once its stream has reached it and the
event it waits for is recorded. -/
theorem reachable_runs (its : List Item) (h : Reachable dev ops S) (hi : i < ops.length)
    (hfree : StreamFree ops S i)
    (hwait : .wait (waitOf ops i) ∈ its → ∀ k ∈ waitOf ops i, 6 ≤ S.pc k)
    (hits : its <+: ((formOf ops i).items (waitOf ops i)).drop (S.pc i)) :
    Reachable dev ops (S.runs dev ops i its) := by
  induction its generalizing S with
  | nil => exact h
  | cons it its ih =>
    obtain ⟨rest, hrest⟩ := hits
    have hit : ((formOf ops i).items (waitOf ops i))[S.pc i]? = some it := by
      rw [← Nat.add_zero (S.pc i), ← List.getElem?_drop, ← hrest]
      rfl
    have hready : Ready S it := by
      rcases items_cases hit with h' | h' | h' | h' | h' | h' | h' <;> rw [h'.2]
      case inr.inl =>
        have hwait' := hwait (by rw [h'.2]; exact List.mem_cons_self)
        cases hw : waitOf ops i with
        | none => trivial
        | some k => exact hwait' k hw
      all_goals trivial
    have hlt : S.pc i < 7 := by
      rcases items_cases hit with h' | h' | h' | h' | h' | h' | h' <;> omega
    refine ih (.step h trivial (step_eq_some.mpr ⟨hi, hfree, it, hit, hready, rfl⟩))
      (hfree.after hlt) (fun hmem k hk => ?_) ⟨rest, ?_⟩
    · rw [after_pc_of_ne dev ops S it (Nat.ne_of_lt (waitOf_lt hk))]
      exact hwait (List.mem_cons_of_mem it hmem) k hk
    · rw [after_pc_self, ← List.drop_drop, ← hrest]
      rfl

/-- The calls `m₀, …, m - 1` can run one after the other, when the calls before
them on their streams have run and the others have recorded their events. -/
theorem exists_runs_upTo (m₀ : ℕ) {m : ℕ} (h : Reachable dev ops S) (hm : m ≤ ops.length)
    (hle : m₀ ≤ m) (hzero : ∀ k, m₀ ≤ k → S.pc k = 0) (hrecorded : ∀ k < m₀, 6 ≤ S.pc k)
    (hstream : ∀ k < m₀, S.pc k = 7 ∨ ∀ l < m, m₀ ≤ l → streamOf ops k ≠ streamOf ops l) :
    ∃ S', Reachable dev ops S' ∧ (∀ k < m₀, S'.pc k = S.pc k) ∧
      (∀ k < m, m₀ ≤ k → S'.pc k = 7) ∧ ∀ k, m ≤ k → S'.pc k = 0 := by
  induction m, hle using Nat.le_induction with
  | base =>
    exact ⟨S, h, fun k _ => rfl, fun k hk hle => absurd hk (Nat.not_lt.mpr hle), hzero⟩
  | succ m hle ih =>
    obtain ⟨S', hS', hold, hdone, hrest⟩ := ih (by omega)
      (fun k hk => (hstream k hk).imp_right (fun h l hl => h l (Nat.lt_succ_of_lt hl)))
    have hpcm : S'.pc m = 0 := hrest m (Nat.le_refl m)
    have hfree : StreamFree ops S' m := by
      intro k hk hs
      rcases Nat.lt_or_ge k m₀ with hk₀ | hk₀
      · rcases hstream k hk₀ with h7 | hne
        · rw [hold k hk₀, h7]
        · exact absurd hs (hne m (Nat.lt_succ_self m) hle)
      · exact hdone k hk hk₀
    have hwait : ∀ k ∈ waitOf ops m, 6 ≤ S'.pc k := by
      intro k hk
      rcases Nat.lt_or_ge k m₀ with hk₀ | hk₀
      · rw [hold k hk₀]
        exact hrecorded k hk₀
      · rw [hdone k (waitOf_lt hk) hk₀]
        decide
    refine ⟨_, reachable_runs ((formOf ops m).items (waitOf ops m)) hS' (by omega) hfree
      (fun _ => hwait) (by rw [hpcm]; exact List.prefix_rfl),
      fun k hk => ?_, fun k hk hk₀ => ?_, fun k hk => ?_⟩
    · rw [runs_pc_of_ne _ (by omega), hold k hk]
    · rcases Nat.lt_or_eq_of_le (Nat.le_of_lt_succ hk) with hlt | rfl
      · rw [runs_pc_of_ne _ (Nat.ne_of_lt hlt), hdone k hlt hk₀]
      · rw [runs_pc_self, hpcm]
        rfl
    · rw [runs_pc_of_ne _ (by omega), hrest k (by omega)]

/-- The calls before call `m` can run one after the other. -/
theorem exists_before (ops : List Call) (dev : Device V T) {m : ℕ} (hm : m ≤ ops.length) :
    ∃ S', Reachable dev ops S' ∧ (∀ k < m, S'.pc k = 7) ∧ ∀ k, m ≤ k → S'.pc k = 0 := by
  obtain ⟨S', hS', -, hdone, hrest⟩ := exists_runs_upTo 0 (Transition.Reachable.start)
    hm (Nat.zero_le m) (fun _ _ => rfl) (fun k hk => absurd hk (Nat.not_lt_zero k))
    (fun k hk => absurd hk (Nat.not_lt_zero k))
  exact ⟨S', hS', fun k hk => hdone k hk (Nat.zero_le k), hrest⟩

end Runs

/-! ## An interleaving that shows -/

/-- The device whose collectives return their source, where call `i` has the
source `i`. -/
def echo : Device ℕ Unit where
  collective _ _ x := ((), x)
  transport := ()
  garbage := 0
  input i := i

theorem seqResult_echo (ops : List Call) (i : ℕ) : seqResult echo ops i = i := rfl

/-- A kernel that runs on its own returns what its scratch held. -/
theorem runs_result {ops : List Call} {S : State ℕ Unit} {i : ℕ} :
    (S.runs echo ops i [.store (formOf ops i).dest, .copyOut (formOf ops i).outBefore, .record,
      .copyOut (formOf ops i).outAfter]).res i = some (S.reg i) := by
  cases hf : formOf ops i with
  | allReduce t a o => cases o <;> simp [State.runs, State.after, exec, Form.dest, Form.outBefore,
      Form.outAfter]
  | gatherDirect => simp [State.runs, State.after, exec, Form.dest, Form.outBefore, Form.outAfter]
  | gatherPadded => simp [State.runs, State.after, exec, Form.dest, Form.outBefore, Form.outAfter]
  | gatherColumns => simp [State.runs, State.after, exec, Form.dest, Form.outBefore, Form.outAfter]

/-- On the device that echoes, transparency says what every call returns. -/
theorem Transparent.res_eq {ops : List Call} (h : Transparent ops) {S : State ℕ Unit}
    (hS : Reachable echo ops S) {i : ℕ} (hi : i < ops.length) (hpc : S.pc i = 7) :
    S.res i = some i := by
  have hi' : i < (onOneStream 0 ops).length := by rwa [length_onOneStream]
  obtain ⟨S', hS', hdone, -⟩ := exists_before (onOneStream 0 ops) echo
    (Nat.le_refl (onOneStream 0 ops).length)
  have hfin' : Finished (onOneStream 0 ops) S' i := (finished_iff hi').mpr (hdone i hi')
  obtain ⟨-, heq⟩ := h ℕ Unit echo 0 S S' hS hS' i hi ((finished_iff hi).mpr hpc) hfin'
  rw [heq, res_of_finished (ordered_onOneStream 0 ops) hS' hi' hfin', seqResult_onOneStream]
  rfl

/-- **A copy that is not ordered shows.** The later call copies its input into
the scratch between the copy and the kernel of the earlier one. -/
theorem copiesOrdered_of_transparent {ops : List Call} (h : Transparent ops) :
    CopiesOrdered ops := by
  intro j hj i hij b hbi hbj
  by_contra hnone
  have hne : ∀ k < j, i ≤ k → streamOf ops k ≠ streamOf ops j :=
    fun k hk hik hs => hnone ⟨k, hk, hik, hs⟩
  have hi : i < ops.length := hij.trans hj
  obtain ⟨S₀, hS₀, hdone, hrest⟩ := exists_before ops echo (Nat.le_of_lt hi)
  have hpci : S₀.pc i = 0 := hrest i (Nat.le_refl i)
  have hpcj : S₀.pc j = 0 := hrest j (Nat.le_of_lt hij)
  have hbi' := Option.mem_def.mp hbi
  -- the earlier call copies, then the later one
  let S₁ := S₀.runs echo ops i [.copyIn (formOf ops i).source]
  have hpc₁ : S₁.pc i = 1 := by rw [runs_pc_self, hpci]; rfl
  have hS₁ : Reachable echo ops S₁ :=
    reachable_runs _ hS₀ hi (fun k hk _ => hdone k hk) (fun hmem => by simp at hmem)
      (by rw [hpci]; exact ⟨_, rfl⟩)
  let S₂ := S₁.runs echo ops j [.copyIn (formOf ops j).source]
  have hpc₂ : ∀ k < i, S₂.pc k = 7 := fun k hk => by
    rw [runs_pc_of_ne _ (Nat.ne_of_lt (hk.trans hij)), runs_pc_of_ne _ (Nat.ne_of_lt hk),
      hdone k hk]
  have hS₂ : Reachable echo ops S₂ := by
    refine reachable_runs _ hS₁ hj (fun k hk hs => ?_) (fun hmem => by simp at hmem) ?_
    · have hki : k < i := Nat.not_le.mp (fun hik => hne k hk hik hs)
      rw [runs_pc_of_ne _ (Nat.ne_of_lt hki), hdone k hki]
    · rw [runs_pc_of_ne _ (Nat.ne_of_gt hij), hpcj]
      exact ⟨_, rfl⟩
  have hmem : S₂.mem b = j := by
    show (S₁.after echo ops j (.copyIn (formOf ops j).source)).mem b = j
    rw [Option.mem_def.mp hbj]
    exact Function.update_self _ _ _
  -- then the kernel of the earlier call reads what the later one copied
  let S₃ := S₂.runs echo ops i [.wait (waitOf ops i), .load (formOf ops i).source]
  have hpc₂i : S₂.pc i = 1 := by rw [runs_pc_of_ne _ (Nat.ne_of_lt hij), hpc₁]
  have hS₃ : Reachable echo ops S₃ := by
    refine reachable_runs _ hS₂ hi (fun k hk _ => hpc₂ k hk) (fun _ k hk => ?_) ?_
    · rw [hpc₂ k (waitOf_lt hk)]
      decide
    · rw [hpc₂i]
      exact ⟨_, rfl⟩
  have hreg : S₃.reg i = j := by
    show Function.update S₂.reg i (S₂.kernelInput echo i (formOf ops i).source) i = j
    rw [Function.update_self, hbi']
    exact hmem
  have hpc₃i : S₃.pc i = 3 := by rw [runs_pc_self, hpc₂i]; rfl
  have hS₄ := reachable_runs [.store (formOf ops i).dest, .copyOut (formOf ops i).outBefore,
      .record, .copyOut (formOf ops i).outAfter] hS₃ hi
    (fun k hk _ => by rw [runs_pc_of_ne _ (Nat.ne_of_lt hk), hpc₂ k hk])
    (fun hmem => by simp at hmem) (by rw [hpc₃i]; exact ⟨_, rfl⟩)
  have hres := h.res_eq hS₄ hi (by rw [runs_pc_self, hpc₃i]; rfl)
  rw [runs_result, hreg] at hres
  exact Nat.ne_of_gt hij (Option.some.inj hres)

/-- **A gathered buffer that is not ordered shows.** The kernel of the later
call writes it before the earlier one is read out. -/
theorem gathersOrdered_of_transparent {ops : List Call} (h : Transparent ops) :
    GathersOrdered ops := by
  intro j hj i hij b hbi hbj
  by_contra hnone
  have hne : ∀ k ≤ j, i < k → streamOf ops k ≠ streamOf ops i :=
    fun k hk hik hs => hnone ⟨k, Nat.lt_succ_of_le hk, hik, hs⟩
  have hi : i < ops.length := hij.trans hj
  have hpadded : ∀ {k : ℕ}, b ∈ (formOf ops k).outAfter → formOf ops k = .gatherPadded := by
    intro k hk
    cases hf : formOf ops k with
    | gatherPadded => rfl
    | allReduce t a o => rw [hf] at hk; exact nomatch hk
    | gatherDirect => rw [hf] at hk; exact nomatch hk
    | gatherColumns => rw [hf] at hk; exact nomatch hk
  have hfi := hpadded hbi
  have hfj := hpadded hbj
  -- the earlier call runs up to its event, the calls between the two run
  obtain ⟨S₀, hS₀, hdone, hrest⟩ := exists_before ops echo (Nat.le_of_lt hi)
  have hpci : S₀.pc i = 0 := hrest i (Nat.le_refl i)
  let S₁ := S₀.runs echo ops i (((formOf ops i).items (waitOf ops i)).take 6)
  have hpc₁ : S₁.pc i = 6 := by rw [runs_pc_self, hpci]; rfl
  have hS₁ : Reachable echo ops S₁ := by
    refine reachable_runs _ hS₀ hi (fun k hk _ => hdone k hk) (fun _ k hk => ?_) ?_
    · rw [hdone k (waitOf_lt hk)]
      decide
    · rw [hpci]
      exact List.take_prefix 6 _
  have hpc₁' : ∀ k < i, S₁.pc k = 7 := fun k hk => by
    rw [runs_pc_of_ne _ (Nat.ne_of_lt hk), hdone k hk]
  obtain ⟨S₂, hS₂, hold, hmid, hrest₂⟩ := exists_runs_upTo (i + 1) (m := j) hS₁
    (Nat.le_of_lt hj) hij
    (fun k hk => by rw [runs_pc_of_ne _ (by omega), hrest k (by omega)])
    (fun k hk => by
      rcases Nat.lt_or_eq_of_le (Nat.le_of_lt_succ hk) with hlt | rfl
      · rw [hpc₁' k hlt]; decide
      · rw [hpc₁])
    (fun k hk => by
      rcases Nat.lt_or_eq_of_le (Nat.le_of_lt_succ hk) with hlt | rfl
      · exact .inl (hpc₁' k hlt)
      · exact .inr (fun l hl hkl hs => hne l (Nat.le_of_lt hl) hkl hs.symm))
  have hpc₂i : S₂.pc i = 6 := by rw [hold i (Nat.lt_succ_self i), hpc₁]
  have hpc₂ : ∀ k < j, k ≠ i → S₂.pc k = 7 := fun k hk hki => by
    rcases Nat.lt_or_ge k i with hlt | hge
    · rw [hold k (Nat.lt_succ_of_lt hlt), hpc₁' k hlt]
    · exact hmid k hk (by omega)
  have hpc₂j : S₂.pc j = 0 := hrest₂ j (Nat.le_refl j)
  -- then the kernel of the later call writes the gathered buffer
  let S₃ := S₂.runs echo ops j (((formOf ops j).items (waitOf ops j)).take 4)
  have hS₃ : Reachable echo ops S₃ := by
    refine reachable_runs _ hS₂ hj (fun k hk hs => ?_) (fun _ k hk => ?_) ?_
    · exact hpc₂ k hk (fun hki => hne j (Nat.le_refl j) hij (by rw [← hs, hki]))
    · by_cases hki : k = i
      · rw [hki, hpc₂i]
      · rw [hpc₂ k (waitOf_lt hk) hki]
        decide
    · rw [hpc₂j]
      exact List.take_prefix 4 _
  have hmem : S₃.mem .gathered = j := by
    show (S₂.runs echo ops j (((formOf ops j).items (waitOf ops j)).take 4)).mem .gathered = j
    rw [hfj]
    simp [Form.items, Form.source, Form.dest, Form.outBefore, Form.outAfter, State.runs,
      State.after, exec, State.kernelInput, echo]
  have hpc₃i : S₃.pc i = 6 := by rw [runs_pc_of_ne _ (Nat.ne_of_lt hij), hpc₂i]
  have hS₄ := reachable_runs [.copyOut (formOf ops i).outAfter] hS₃ hi
    (fun k hk _ => by
      rw [runs_pc_of_ne _ (Nat.ne_of_lt (hk.trans hij)),
        hpc₂ k (hk.trans hij) (Nat.ne_of_lt hk)])
    (fun hmem => by simp at hmem) (by rw [hpc₃i]; exact ⟨_, rfl⟩)
  have hres := h.res_eq hS₄ hi (by rw [runs_pc_self, hpc₃i]; rfl)
  rw [hfi] at hres
  have hread : (S₃.runs echo ops i [.copyOut Form.gatherPadded.outAfter]).res i = some j := by
    show Function.update S₃.res i (some (S₃.mem .gathered)) i = some j
    rw [Function.update_self, hmem]
  exact Nat.ne_of_gt hij (Option.some.inj (hread.symm.trans hres))

/-- **When the streams do not show.** Every interleaving gives every call the
result of a single stream if and only if between two calls that copy into the
same scratch the stream of the later one is used, and after each padded gather
its stream is used again up to the next padded gather. -/
theorem transparent_iff_ordered (ops : List Call) : Transparent ops ↔ Ordered ops := by
  constructor
  · intro h
    exact ⟨copiesOrdered_of_transparent h, gathersOrdered_of_transparent h⟩
  · intro hordered V T dev stream S S' hS hS' i hi hfin hfin'
    have hi' : i < (onOneStream stream ops).length := by rwa [length_onOneStream]
    have hres := res_of_finished hordered hS hi hfin
    have hres' := res_of_finished (ordered_onOneStream stream ops) hS' hi' hfin'
    rw [seqResult_onOneStream] at hres'
    rw [hres, hres']
    exact ⟨rfl, rfl⟩

/-- Two all-reduces of misaligned inputs on two streams: the first one may sum
the input of the second. -/
theorem misaligned_inputs_show :
    ¬ Transparent [⟨.allReduce false false true, 0⟩, ⟨.allReduce false false true, 1⟩] := by
  intro h
  obtain ⟨k, hk, -, hstream⟩ := copiesOrdered_of_transparent h 1 (by decide) 0 (by decide)
    .alignIn rfl rfl
  obtain rfl : k = 0 := Nat.lt_one_iff.mp hk
  exact absurd hstream (by decide)

end CollectiveStreams

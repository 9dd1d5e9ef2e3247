import SparkTP4.Transition
import Mathlib.Data.Int.Notation
import Mathlib.Data.Int.Order.Basic
import Mathlib.Tactic.Common
import Mathlib.Algebra.Ring.Int.Defs

/-!
# The prefill bypass

`prefill_bypass.py` admits short requests beside the chunk of a long prompt that is
in flight. It rewrites the candidate loop of a prefill pass and wraps `add_one_req`
and `_select_prefill_admission` of the engine; the engine itself stays outside, and
what it does with a candidate (`Answer`) comes with the candidate.

For a candidate of the bypass the wrapper raises `rem_chunk_tokens` so that the
compute budget of the chunk, which is used up, does not refuse it, and puts it
back less what the engine has charged. Its own budget are the fresh tokens of the
pass (`Bounded`).
-/

namespace PrefillBypass

inductive AddReqResult where
  /-- `CONTINUE` -/
  | go
  /-- `OTHER` -/
  | other
  /-- `NO_TOKEN` -/
  | noToken
  deriving DecidableEq

/-- `DSV41_PREFILL_BYPASS`, `DSV41_PREFILL_BYPASS_SCAN` and `DSV41_PREFILL_BYPASS_SOLO`;
`install` refuses to arm with another limit. -/
structure Config where
  limit : ℤ
  scanLimit : ℕ
  solo : Bool
  limit_pos : 0 < limit
  scanLimit_pos : 0 < scanLimit

/-- What the engine's `add_one_req` does with a request. -/
inductive Answer where
  /-- raises before it commits -/
  | raises
  | refuses (result : AddReqResult)
  /-- selects an admission, of only `chunk` tokens if it `is_chunked`; commits it, with
  the rounded tokens `charge`; and returns, or raises -/
  | admits (chunk : Option ℕ) (charge : ℤ) (result : Option AddReqResult)
  deriving DecidableEq

/-- A request that the engine has admitted, with its fresh tokens. -/
structure Admitted where
  req : ℕ
  fresh : ℤ
  chunk : Option ℕ
  deriving DecidableEq

/-- The fields of a `PrefillAdder` that the adapter reads and writes. -/
structure Adder where
  remChunkTokens : Option ℤ
  canRunList : List ℕ
  newChunkedReq : Option ℕ
  dllm : Bool
  bypassPass : Bool
  bypassRemaining : ℤ
  bypassCandidate : Bool
  /-- record of the pass: what the engine has charged and admitted in the candidate loop -/
  charged : ℤ
  admitted : List Admitted

/-- `select`: an admission of the engine stands unless it is one chunk of a candidate. -/
def Adder.select (A : Adder) (chunk : Option ℕ) : Bool := !(A.bypassCandidate && chunk.isSome)

/-- `_commit_prefill_admission` -/
def Adder.commit (A : Adder) (req : ℕ) (fresh : ℤ) (chunk : Option ℕ) (charge : ℤ) : Adder :=
  { A with
    remChunkTokens := A.remChunkTokens.map (· - charge)
    canRunList := A.canRunList ++ [req]
    newChunkedReq := if chunk.isSome then some req else A.newChunkedReq
    charged := A.charged + charge
    admitted := ⟨req, fresh, chunk⟩ :: A.admitted }

/-- The engine's `add_one_req` with the patched `_select_prefill_admission`; the result
is `none` when it raises. -/
def Adder.originalAdd (A : Adder) (req : ℕ) (fresh : ℤ) : Answer → Adder × Option AddReqResult
  | .raises => (A, none)
  | .refuses result => (A, some result)
  | .admits chunk charge result =>
    if A.select chunk then (A.commit req fresh chunk charge, result) else (A, some .other)

/-- `self.can_run_list and req is self.can_run_list[-1]` -/
def Adder.added (A : Adder) (req : ℕ) : Bool := A.canRunList.getLast? = some req

/-- What `add` does after the engine has returned or raised: the debit, and `finally`. -/
def Adder.settle (A : Adder) (req : ℕ) (fresh saved allowance : ℤ) (returned : Bool) : Adder :=
  { A with
    bypassRemaining := if returned ∧ A.added req then A.bypassRemaining - fresh else A.bypassRemaining
    remChunkTokens := A.remChunkTokens.map fun rem => saved - (allowance - rem)
    bypassCandidate := false }

/-- `add`. `ceilPaged` is `ceil_paged_tokens`. -/
def Adder.add (cfg : Config) (ceilPaged : ℤ → ℤ) (A : Adder) (req : ℕ) (fresh : ℤ)
    (ignoreEos hasChunked : Bool) (answer : Answer) : Adder × Option AddReqResult :=
  match A.remChunkTokens with
  | none => A.originalAdd req fresh answer
  | some saved =>
    if A.bypassPass = false ∨ hasChunked = false then A.originalAdd req fresh answer
    else if ¬(0 ≤ fresh ∧ fresh ≤ cfg.limit) ∨ A.dllm ∨ ignoreEos then (A, some .other)
    else if A.bypassRemaining < fresh then (A, some .other)
    else
      let allowance := max saved (ceilPaged fresh)
      let r := { A with
        remChunkTokens := some allowance, bypassCandidate := true }.originalAdd req fresh answer
      (r.1.settle req fresh saved allowance r.2.isSome, r.2)

/-! ## The candidate loop -/

/-- What the engine's own checks do with a request of the waiting queue before it is
examined. -/
inductive Check where
  | pass
  | skip
  | stop
  deriving DecidableEq

/-- A request of the waiting queue, with its fresh tokens after `init_next_round_input`. -/
structure Candidate where
  req : ℕ
  check : Check
  fresh : ℤ
  ignoreEos : Bool
  answer : Answer
  deriving DecidableEq

/-- The variables of the pass that the loop only reads: `_dsv41_scan`, `_dsv41_resume`,
`_dsv41_long` and `self.chunked_req`. -/
structure Pass where
  scan : Bool
  resume : Bool
  long : Option ℕ
  chunkedReq : Option ℕ

/-- What the pass computes before its loop, from the switches of `bypass_active`, the
request `long` that was in flight, and what `add_chunked_req` has left of it. -/
def Pass.of (cfg : Config) (active resume : Bool) (long chunkedReq : Option ℕ) : Pass where
  scan := active && long.isSome && if cfg.solo then !resume else chunkedReq.isSome
  resume := resume
  long := long
  chunkedReq := chunkedReq

structure Loop where
  adder : Adder
  /-- `_dsv41_bypass_scanned` -/
  scanned : ℕ
  /-- the loop has been left, by an exception if `raised` -/
  ended : Bool
  raised : Bool

/-- `has_chunked_req` -/
def Pass.hasChunked (P : Pass) (cfg : Config) : Bool := P.chunkedReq.isSome || cfg.solo && P.scan

/-- The first `break` of the solo patches. -/
def Pass.soloStops (P : Pass) (cfg : Config) (A : Adder) : Bool :=
  cfg.solo && (P.resume || P.scan && A.canRunList.any fun r => P.long ≠ some r)

/-- The loop body after a request has been given to `add_one_req`. -/
def Loop.result (cfg : Config) (scan : Bool) (req scanned : ℕ) (r : Adder × Option AddReqResult) :
    Loop :=
  match r.2 with
  | none => ⟨r.1, scanned, true, true⟩
  | some .go => ⟨r.1, scanned, false, false⟩
  | some _ => ⟨r.1, scanned, !(scan && !r.1.added req && scanned < cfg.scanLimit), false⟩

/-- The loop body for one request of the waiting queue. -/
def Loop.step (cfg : Config) (ceilPaged : ℤ → ℤ) (P : Pass) (L : Loop) (c : Candidate) :
    Option Loop :=
  if L.ended then none
  else
    match c.check with
    | .stop => some { L with ended := true }
    | .skip => some L
    | .pass =>
      if P.soloStops cfg L.adder ∨ P.scan ∧ cfg.scanLimit ≤ L.scanned then
        some { L with ended := true }
      else
        let scanned := if P.scan then L.scanned + 1 else L.scanned
        if P.scan ∧ ¬(0 ≤ c.fresh ∧ c.fresh ≤ cfg.limit) then some { L with scanned := scanned }
        else
          some (Loop.result cfg P.scan c.req scanned
            (L.adder.add cfg ceilPaged c.req c.fresh c.ignoreEos (P.hasChunked cfg) c.answer))

/-- The adder before the loop: the chunk of the long prompt has left `rem` tokens. -/
def Adder.start (cfg : Config) (scan : Bool) (rem : Option ℤ) (dllm : Bool) (chunk : List ℕ) :
    Adder where
  remChunkTokens := rem
  canRunList := chunk
  newChunkedReq := none
  dllm := dllm
  bypassPass := scan
  bypassRemaining := if scan then cfg.limit else 0
  bypassCandidate := false
  charged := 0
  admitted := []

def Loop.start (A : Adder) : Loop := ⟨A, 0, false, false⟩

/-! ## The budget -/

section Budget

variable {cfg : Config} {ceilPaged : ℤ → ℤ} {P : Pass} {A : Adder} {L L' : Loop}

/-- The fresh tokens of the requests that the loop has admitted. -/
def Adder.freshSum (A : Adder) : ℤ := (A.admitted.map (·.fresh)).sum

/-- The budgets of a pass that began with `rem` chunk tokens beside `chunk`. -/
structure Bounded (cfg : Config) (rem : ℤ) (chunk : List ℕ) (A : Adder) : Prop where
  rem : A.remChunkTokens = some (rem - A.charged)
  candidate : A.bypassCandidate = false
  fresh : A.freshSum ≤ cfg.limit
  unchunked : A.newChunkedReq = none
  batch : A.canRunList = chunk ++ (A.admitted.map (·.req)).reverse
  whole : ∀ a ∈ A.admitted, a.chunk = none ∧ 0 ≤ a.fresh ∧ a.fresh ≤ cfg.limit

/-- What is left of the limit. -/
def Adder.Debited (cfg : Config) (A : Adder) : Prop :=
  A.freshSum + A.bypassRemaining ≤ cfg.limit ∧ 0 ≤ A.bypassRemaining

/-- What the engine can do with a candidate. -/
theorem originalAdd_cases (A : Adder) (req : ℕ) (fresh : ℤ) (answer : Answer)
    (hcandidate : A.bypassCandidate = true) :
    (A.originalAdd req fresh answer).1 = A ∨ ∃ charge result,
      A.originalAdd req fresh answer = (A.commit req fresh none charge, result) := by
  cases answer with
  | raises => exact .inl rfl
  | refuses result => exact .inl rfl
  | admits chunk charge result =>
    unfold Adder.originalAdd Adder.select
    rw [hcandidate]
    cases chunk with
    | none => exact .inr ⟨charge, result, rfl⟩
    | some n => exact .inl rfl

theorem debit_bounds (p : Prop) [Decidable p] {remaining fresh : ℤ} (hpos : 0 ≤ fresh)
    (hle : fresh ≤ remaining) :
    0 ≤ (if p then remaining - fresh else remaining) ∧
      (if p then remaining - fresh else remaining) ≤ remaining := by
  split <;> omega

/-- **`add` keeps the budgets**, also when the engine raises, and the debit unless it does. -/
theorem Bounded.add {rem : ℤ} {chunk : List ℕ} (h : Bounded cfg rem chunk A) (hd : A.Debited cfg)
    (hbypass : A.bypassPass = true) (req : ℕ) (fresh : ℤ) (ignoreEos : Bool) (answer : Answer) :
    Bounded cfg rem chunk (A.add cfg ceilPaged req fresh ignoreEos true answer).1 ∧
      ((A.add cfg ceilPaged req fresh ignoreEos true answer).2.isSome →
        (A.add cfg ceilPaged req fresh ignoreEos true answer).1.Debited cfg) := by
  have hpass : ¬(A.bypassPass = false ∨ true = false) := by
    rw [hbypass]
    simp
  unfold Adder.add
  rw [h.rem]
  dsimp only
  rw [if_neg hpass]
  split_ifs with hrefused hexceeded
  · exact ⟨h, fun _ => hd⟩
  · exact ⟨h, fun _ => hd⟩
  · have hfresh : 0 ≤ fresh ∧ fresh ≤ cfg.limit := not_not.mp fun hn => hrefused (.inl hn)
    have hle : fresh ≤ A.bypassRemaining := not_lt.mp hexceeded
    obtain ⟨hsum, hpos⟩ := hd
    generalize max (rem - A.charged) (ceilPaged fresh) = allowance
    obtain heq | ⟨charge, result, heq⟩ := originalAdd_cases { A with
      remChunkTokens := some allowance, bypassCandidate := true } req fresh answer rfl
    · rw [heq]
      refine ⟨⟨?_, rfl, h.fresh, h.unchunked, h.batch, h.whole⟩, fun _ => ⟨?_, ?_⟩⟩
      · refine congrArg some ?_
        show rem - A.charged - (allowance - allowance) = rem - A.charged
        omega
      · exact le_trans (Int.add_le_add_left (debit_bounds _ hfresh.1 hle).2 A.freshSum) hsum
      · exact (debit_bounds _ hfresh.1 hle).1
    · rw [heq]
      have hnew : fresh + A.freshSum ≤ cfg.limit := by omega
      refine ⟨⟨?_, rfl, hnew, h.unchunked, ?_, fun a ha => ?_⟩, fun hresult => ⟨?_, ?_⟩⟩
      · refine congrArg some ?_
        show rem - A.charged - (allowance - (allowance - charge)) = rem - (A.charged + charge)
        omega
      · show A.canRunList ++ [req] = chunk ++ (req :: A.admitted.map (·.req)).reverse
        rw [h.batch, List.reverse_cons, List.append_assoc]
      · obtain rfl | ha := List.mem_cons.mp ha
        · exact ⟨rfl, hfresh⟩
        · exact h.whole a ha
      · have hadded : (A.commit req fresh none charge).added req = true := by
          unfold Adder.added Adder.commit
          simp
        show fresh + A.freshSum + (if _ then A.bypassRemaining - fresh else _) ≤ _
        rw [if_pos ⟨hresult, hadded⟩]
        omega
      · exact (debit_bounds _ hfresh.1 hle).1

/-- **What the wrapper changes**: besides the budgets and the candidate flag it does at most
what the engine does at a commit. -/
theorem add_effect (A : Adder) (req : ℕ) (fresh : ℤ) (ignoreEos hasChunked : Bool)
    (answer : Answer) : ∃ B rem remaining candidate,
      (B = A ∨ ∃ chunk charge, B = A.commit req fresh chunk charge) ∧
      (A.add cfg ceilPaged req fresh ignoreEos hasChunked answer).1 = { B with
        remChunkTokens := rem, bypassRemaining := remaining, bypassCandidate := candidate } := by
  have hstock : (A.originalAdd req fresh answer).1 = A ∨
      ∃ chunk charge, (A.originalAdd req fresh answer).1 = A.commit req fresh chunk charge := by
    unfold Adder.originalAdd
    split
    · exact .inl rfl
    · exact .inl rfl
    · split
      · exact .inr ⟨_, _, rfl⟩
      · exact .inl rfl
  unfold Adder.add
  split
  · exact ⟨_, _, _, _, hstock, rfl⟩
  · rename_i saved _
    split_ifs
    · exact ⟨_, _, _, _, hstock, rfl⟩
    · exact ⟨A, _, _, _, .inl rfl, rfl⟩
    · exact ⟨A, _, _, _, .inl rfl, rfl⟩
    · have hcandidate := originalAdd_cases { A with
        remChunkTokens := some (max saved (ceilPaged fresh)), bypassCandidate := true }
          req fresh answer rfl
      dsimp only
      obtain heq | ⟨charge, result, heq⟩ := hcandidate
      · rw [heq]
        exact ⟨A, _, _, _, .inl rfl, rfl⟩
      · rw [heq]
        exact ⟨A.commit req fresh none charge, _, _, _, .inr ⟨none, charge, rfl⟩, rfl⟩

/-- **What holds in the loop of a pass that scans**: the budgets, the debit as long as the
loop goes on, and the number of requests examined. -/
structure Scanning (cfg : Config) (rem : ℤ) (chunk : List ℕ) (L : Loop) : Prop where
  bounded : Bounded cfg rem chunk L.adder
  pass : L.adder.bypassPass = true
  debited : L.ended = false → L.adder.Debited cfg
  scanned : L.scanned ≤ cfg.scanLimit

theorem Pass.hasChunked_of_scan {active resume : Bool} {long chunkedReq : Option ℕ}
    (hscan : (Pass.of cfg active resume long chunkedReq).scan = true) :
    (Pass.of cfg active resume long chunkedReq).hasChunked cfg = true := by
  unfold Pass.hasChunked
  rw [hscan]
  unfold Pass.of at hscan ⊢
  cases hsolo : cfg.solo with
  | true => simp
  | false =>
    rw [hsolo, if_neg Bool.false_ne_true, Bool.and_eq_true] at hscan
    rw [hscan.2]
    rfl

theorem Scanning.step {rem : ℤ} {chunk : List ℕ} (h : Scanning cfg rem chunk L)
    (hscan : P.scan = true) (hchunked : P.hasChunked cfg = true) {c : Candidate}
    (hstep : L.step cfg ceilPaged P c = some L') : Scanning cfg rem chunk L' := by
  unfold Loop.step at hstep
  simp only [hscan, hchunked, ↓reduceIte, true_and] at hstep
  obtain ⟨hgoing, hstep⟩ := Option.ite_none_left_eq_some.mp hstep
  have hd := h.debited (Bool.eq_false_iff.mpr hgoing)
  split at hstep
  · obtain rfl := Option.some.inj hstep
    exact ⟨h.bounded, h.pass, fun hn => absurd hn Bool.noConfusion, h.scanned⟩
  · obtain rfl := Option.some.inj hstep
    exact h
  · split_ifs at hstep with hstops hfresh
    · obtain rfl := Option.some.inj hstep
      exact ⟨h.bounded, h.pass, fun hn => absurd hn Bool.noConfusion, h.scanned⟩
    · obtain rfl := Option.some.inj hstep
      have hscanned : L.scanned < cfg.scanLimit := Nat.not_le.mp fun hle => hstops (.inr hle)
      obtain ⟨hbounded, hdebited⟩ := @Bounded.add _ ceilPaged _ _ _ h.bounded hd h.pass c.req c.fresh
        c.ignoreEos c.answer
      have hpass : (L.adder.add cfg ceilPaged c.req c.fresh c.ignoreEos true c.answer).1.bypassPass =
          true := by
        obtain ⟨B, _, _, _, rfl | ⟨_, _, rfl⟩, heq⟩ := @add_effect cfg ceilPaged
          L.adder c.req c.fresh c.ignoreEos true c.answer
        · rw [heq]
          exact h.pass
        · rw [heq]
          exact h.pass
      unfold Loop.result
      split
      · exact ⟨hbounded, hpass, fun hn => absurd hn Bool.noConfusion, hscanned⟩
      · rename_i hresult
        exact ⟨hbounded, hpass, fun _ => hdebited (by rw [hresult]; rfl), hscanned⟩
      · rename_i hresult
        exact ⟨hbounded, hpass, fun _ => hdebited (by rw [hresult]; rfl), hscanned⟩
    · obtain rfl := Option.some.inj hstep
      exact ⟨h.bounded, h.pass, fun _ => hd, Nat.not_le.mp fun hle => hstops (.inr hle)⟩

/-- The pass that resumes a parked long prompt examines no candidate. -/
theorem Loop.step_resume {A : Adder} (hsolo : cfg.solo = true) (hresume : P.resume = true)
    (hsame : L.adder = A ∧ L.scanned = 0) {c : Candidate} (hstep : L.step cfg ceilPaged P c = some L') :
    L'.adder = A ∧ L'.scanned = 0 := by
  have hstops : P.soloStops cfg L.adder = true := by
    unfold Pass.soloStops
    rw [hsolo, hresume]
    rfl
  unfold Loop.step at hstep
  obtain ⟨-, hstep⟩ := Option.ite_none_left_eq_some.mp hstep
  split at hstep
  · obtain rfl := Option.some.inj hstep
    exact hsame
  · obtain rfl := Option.some.inj hstep
    exact hsame
  · rw [if_pos (.inl hstops)] at hstep
    obtain rfl := Option.some.inj hstep
    exact hsame

/-- The loops of the candidates of one pass, with all that the engine may do with them. -/
def Pass.Reaches (P : Pass) (cfg : Config) (ceilPaged : ℤ → ℤ) (A : Adder) (L : Loop) : Prop :=
  Transition.Reachable (Loop.step cfg ceilPaged P) (fun _ _ => True) (Loop.start A) L

theorem Bounded.start (cfg : Config) (scan : Bool) (rem : ℤ) (dllm : Bool) (chunk : List ℕ) :
    Bounded cfg rem chunk (Adder.start cfg scan (some rem) dllm chunk) where
  rem := congrArg some (Int.sub_zero rem).symm
  candidate := rfl
  fresh := le_of_lt cfg.limit_pos
  unchunked := rfl
  batch := (List.append_nil chunk).symm
  whole := fun _ ha => absurd ha List.not_mem_nil

theorem Scanning.start (cfg : Config) (rem : ℤ) (dllm : Bool) (chunk : List ℕ) :
    Scanning cfg rem chunk (Loop.start (Adder.start cfg true (some rem) dllm chunk)) where
  bounded := .start ..
  pass := rfl
  debited _ := ⟨le_of_eq (Int.zero_add _), le_of_lt cfg.limit_pos⟩
  scanned := Nat.zero_le _

/-- **A pass with a chunk in flight** keeps its budgets, also the pass of the final chunk
when it may be parked. -/
theorem Pass.bounded {active resume : Bool} {long chunkedReq : Option ℕ} {rem : ℤ} {dllm : Bool}
    {chunk : List ℕ} (hactive : active = true) (hlong : long.isSome)
    (hflight : chunkedReq.isSome ∨ cfg.solo = true)
    (h : (Pass.of cfg active resume long chunkedReq).Reaches cfg ceilPaged
      (Adder.start cfg (Pass.of cfg active resume long chunkedReq).scan (some rem) dllm chunk) L) :
    Bounded cfg rem chunk L.adder ∧ L.scanned ≤ cfg.scanLimit := by
  cases hscan : (Pass.of cfg active resume long chunkedReq).scan with
  | true =>
    rw [hscan] at h
    have hscanning : Scanning cfg rem chunk L := h.invariant (Scanning cfg rem chunk)
      (.start ..)
      fun _ _ _ hinv _ hstep => hinv.step hscan (Pass.hasChunked_of_scan hscan) hstep
    exact ⟨hscanning.bounded, hscanning.scanned⟩
  | false =>
    have hresume : cfg.solo = true ∧ resume = true := by
      unfold Pass.of at hscan
      rw [hactive, hlong] at hscan
      cases hsolo : cfg.solo with
      | true => simpa [hsolo] using hscan
      | false =>
        rw [hsolo] at hscan hflight
        simp only [Bool.true_and, Bool.false_eq_true, if_false] at hscan
        rw [hscan] at hflight
        exact absurd hflight (by simp)
    obtain ⟨hadder, hscanned⟩ := h.invariant
      (fun L => L.adder = Adder.start cfg _ (some rem) dllm chunk ∧ L.scanned = 0) ⟨rfl, rfl⟩
      fun _ _ _ hinv _ hstep => Loop.step_resume hresume.1 hresume.2 hinv hstep
    exact ⟨hadder ▸ .start .., hscanned ▸ Nat.zero_le _⟩

/-- The bounds of the small configurations. -/
theorem budget_pos : (0 : ℤ) < 8 := by decide

@[inherit_doc budget_pos]
theorem page_pos : 0 < 4 := by decide

/-- At most 8 fresh tokens and 4 candidates beside a chunk, in pages of 4 tokens. -/
def smallConfig : Config := ⟨8, 4, false, budget_pos, page_pos⟩

/-- A request that is admitted, one of which the engine would take a part, and one at
whose commit it raises. -/
def mixedCandidates : List Candidate :=
  [⟨1, .pass, 3, false, .admits none 4 (some .go)⟩, ⟨2, .pass, 3, false, .admits (some 2) 4 (some .go)⟩,
    ⟨3, .pass, 4, false, .admits none 4 none⟩]

end Budget

end PrefillBypass

import Mathlib.Order.Lattice.Nat
import Mathlib.Order.Bounds.Basic
import Mathlib.Tactic.Linarith
import SparkTP4.LoopAbort
import SparkTP4.Transition

/-!
# The stop of a generation loop is exact

The detector is sound and complete at once. It reports a run of one token exactly
when the tokens at the end are equal, and otherwise a block exactly when one of the
admissible lengths makes the end that many copies of a block – the least such
length. What it keeps loses nothing: one token of the run, or the output up to the
first copy, from which the rest can be written again.

So a stream that has become periodic is stopped: once the repeats of an admissible
multiple of its period have been generated, the next check finds copies, of that
length or of a smaller one.
-/

namespace LoopAbort

open TailCopies

variable {Token : Type} [DecidableEq Token]

/-! ## One token in a row -/

/-- The last `k` tokens are equal. -/
def EndsEqual (ids : List Token) (k : ℕ) : Prop :=
  k ≤ ids.length ∧ ∃ t, ids.drop (ids.length - k) = List.replicate k t

/-- The output is `xs` followed by the maximal run of one token. -/
structure MaximalRun (ids xs : List Token) (t : Token) (run : ℕ) : Prop where
  eq : ids = xs ++ List.replicate run t
  maximal : xs.getLast? ≠ some t

omit [DecidableEq Token] in
/-- One token of the run is kept. -/
theorem MaximalRun.take_eq {ids xs : List Token} {t : Token} {run : ℕ}
    (h : MaximalRun ids xs t run) (hpos : 0 < run) :
    ids.take (ids.length - run + 1) = xs ++ [t] := by
  have hkept : ids.length - run + 1 = xs.length + 1 := by rw [h.eq]; simp
  obtain ⟨run, rfl⟩ := Nat.exists_eq_add_of_lt hpos
  rw [hkept, h.eq, List.take_append, List.take_of_length_le (Nat.le_succ _),
    Nat.add_sub_cancel_left, Nat.zero_add, List.replicate_succ]
  rfl

/-- **The loop** counts the tokens equal to `last` that come right before index `i`. -/
theorem runLoop_spec {ids : List Token} {last : Token} {i : ℕ} (hi : i ≤ ids.length) (run : ℕ) :
    ∃ m xs, runLoop ids last i run = run + m ∧ MaximalRun (ids.take i) xs last m := by
  induction i generalizing run with
  | zero => exact ⟨0, [], rfl, by simp, by simp⟩
  | succ i ih =>
    have hget : ids[i]? = some ids[i] := List.getElem?_eq_getElem hi
    have htake : ids.take (i + 1) = ids.take i ++ [ids[i]] := by
      rw [List.take_add_one, hget]
      rfl
    by_cases heq : ids[i]? = some last
    · obtain ⟨m, xs, hloop, hrun, hmax⟩ := ih (Nat.le_of_succ_le hi) (run + 1)
      refine ⟨m + 1, xs, ?_, ?_, hmax⟩
      · rw [runLoop, if_pos heq, hloop]
        ring
      · rw [htake, hrun, List.replicate_succ', List.append_assoc,
          Option.some.inj (hget.symm.trans heq)]
    · -- the loop stops here, so nothing is added to the run
      refine ⟨0, ids.take (i + 1), by rw [runLoop, if_neg heq]; rfl, by simp, ?_⟩
      rw [htake, List.getLast?_concat, ← hget]
      exact heq

theorem exists_maximalRun {ids : List Token} {t : Token} (h : ids.getLast? = some t) :
    ∃ xs, MaximalRun ids xs t (runLoop ids t (ids.length - 1) 1) := by
  obtain ⟨ys, rfl⟩ := List.getLast?_eq_some_iff.mp h
  have hlen : (ys ++ [t]).length - 1 = ys.length := by simp
  obtain ⟨m, xs, hloop, hrun, hmax⟩ :=
    @runLoop_spec _ _ (ys ++ [t]) t ys.length (by simp) 1
  rw [List.take_left] at hrun
  refine ⟨xs, ?_, hmax⟩
  rw [hlen, hloop, hrun, Nat.add_comm, List.replicate_succ', List.append_assoc]

omit [DecidableEq Token] in
/-- **The run is long enough** exactly when the last tokens are equal. -/
theorem le_run_iff {ids xs : List Token} {t : Token} {run k : ℕ} (hrun : MaximalRun ids xs t run)
    (h : ids.getLast? = some t) (hk : 0 < k) : k ≤ run ↔ EndsEqual ids k := by
  constructor
  · intro hle
    have hdrop := @drop_of_le_run _ xs t run k hle
    rw [← hrun.eq] at hdrop
    refine ⟨?_, t, hdrop⟩
    rw [hrun.eq, List.length_append, List.length_replicate]
    omega
  · rintro ⟨hle, t', hdrop⟩
    -- the token of the equal end is the last one
    have hlast : ids.getLast? = some t' := by
      rw [← List.take_append_drop (ids.length - k) ids, hdrop, List.getLast?_append,
        List.getLast?_replicate, if_neg (Nat.ne_of_gt hk)]
      rfl
    obtain rfl := Option.some.inj (h.symm.trans hlast)
    exact le_of_maximal_run hrun.eq hrun.maximal hdrop

/-- What `identicalHit` answers. -/
theorem identicalHit_eq {cfg : Config} (hcfg : 2 ≤ cfg.identical) (ids : List Token) :
    (identicalHit cfg ids = none ∧ ¬EndsEqual ids cfg.identical.toNat) ∨
      EndsEqual ids cfg.identical.toNat ∧ ∃ xs t run, MaximalRun ids xs t run ∧ 0 < run ∧
        identicalHit cfg ids = some ⟨.identical, ids.length - run + 1, 1⟩ := by
  have hcast : (cfg.identical.toNat : ℤ) = cfg.identical := Int.toNat_of_nonneg (by linarith)
  unfold identicalHit
  split_ifs with hlen
  · cases hlast : ids.getLast? with
    | none =>
      rw [List.getLast?_eq_none_iff.mp hlast] at hlen
      exact absurd hlen.2 (by simp; linarith)
    | some t =>
      obtain ⟨xs, hrun⟩ := exists_maximalRun hlast
      have hiff := le_run_iff hrun hlast (show 0 < cfg.identical.toNat by omega)
      show (ite _ _ _ = _ ∧ _) ∨ _ ∧ ∃ _ _ _, _ ∧ _ ∧ ite _ _ _ = _
      split_ifs with hle
      · exact .inr ⟨hiff.mp (by omega), xs, t, _, hrun, by omega, rfl⟩
      · exact .inl ⟨rfl, fun h => hle (by have := hiff.mpr h; omega)⟩
  · exact .inl ⟨rfl, fun h => hlen ⟨by linarith, by have := h.1; omega⟩⟩

/-! ## A block of tokens -/

/-- A length of block that counts: within the range, and the end is that many copies. -/
def Admissible (cfg : Config) (ids : List Token) (p : ℕ) : Prop :=
  cfg.ngram ≤ p ∧ p ≤ min cfg.ngramMax (ids.length / cfg.repeats) ∧
    EndsIn ids cfg.repeats.toNat p

theorem mem_periods {cfg : Config} {n p : ℕ} (hngram : 1 ≤ cfg.ngram) :
    p ∈ periods cfg n ↔ cfg.ngram ≤ p ∧ p ≤ min cfg.ngramMax (n / cfg.repeats) := by
  rw [periods, List.mem_range'_1]
  omega

/-- A period that is tried fits the output. -/
theorem mul_le_of_mem {cfg : Config} {n p : ℕ} (hrepeats : 1 ≤ cfg.repeats)
    (hp : (p : ℤ) ≤ min cfg.ngramMax (n / cfg.repeats)) : cfg.repeats.toNat * p ≤ n := by
  have hdiv : (p : ℤ) ≤ n / cfg.repeats := hp.trans (min_le_right _ _)
  have hmul := (Int.le_ediv_iff_mul_le (by linarith)).mp hdiv
  zify
  rw [Int.toNat_of_nonneg (by linarith)]
  linarith

/-- **The slices compared** are the windows counted from the end. -/
theorem unitRepeats_iff {ids : List Token} {k p : ℕ} (hk : 0 < k) (h : k * p ≤ ids.length) :
    unitRepeats ids k p = true ↔ EndsIn ids k p := by
  rw [endsIn_iff hk h, unitRepeats, List.all_eq_true]
  simp only [List.mem_range'_1, decide_eq_true_eq, window_zero]
  constructor
  · intro hall r hr
    cases r with
    | zero => exact window_zero
    | succ r => exact hall (r + 1) ⟨by omega, by omega⟩
  · intro hall r hr
    exact hall r (by omega)

/-- **The block reported** is the shortest admissible one. -/
theorem ngramHit_iff {cfg : Config} (hngram : 1 ≤ cfg.ngram) (hrepeats : 2 ≤ cfg.repeats)
    {ids : List Token} {hit : Hit} :
    ngramHit cfg ids = some hit ↔ IsLeast {p | Admissible cfg ids p} hit.period ∧
      hit = ⟨.ngram, ids.length - (cfg.repeats.toNat - 1) * hit.period, hit.period⟩ := by
  have hadm : ∀ p, Admissible cfg ids p ↔
      unitRepeats ids cfg.repeats.toNat p = true ∧ p ∈ periods cfg ids.length := by
    intro p
    rw [mem_periods hngram]
    constructor
    · rintro ⟨hlo, hhi, hends⟩
      exact ⟨(unitRepeats_iff (by omega) hends.1).mpr hends, hlo, hhi⟩
    · rintro ⟨hunit, hlo, hhi⟩
      exact ⟨hlo, hhi, (unitRepeats_iff (by omega) (mul_le_of_mem (by linarith) hhi)).mp hunit⟩
  have hleast : ∀ p, (periods cfg ids.length).find? (unitRepeats ids cfg.repeats.toNat) = some p ↔
      IsLeast {p | Admissible cfg ids p} p := by
    intro p
    rw [periods, List.find?_range'_eq_some]
    constructor
    · rintro ⟨hunit, hmem, hbefore⟩
      refine ⟨(hadm p).mpr ⟨hunit, hmem⟩, fun q hq => ?_⟩
      obtain ⟨hunit', hmem'⟩ := (hadm q).mp hq
      by_contra hlt
      have := hbefore q (by have := (List.mem_range'_1.mp hmem').1; omega) (by omega)
      rw [hunit'] at this
      exact absurd this (by simp)
    · rintro ⟨hp, hmin⟩
      obtain ⟨hunit, hmem⟩ := (hadm p).mp hp
      refine ⟨hunit, hmem, fun q hlo hlt => ?_⟩
      rw [Bool.not_eq_true', Bool.eq_false_iff]
      intro hq
      have hmem' : q ∈ periods cfg ids.length := by
        rw [periods, List.mem_range'_1] at hmem ⊢
        omega
      exact absurd (hmin ((hadm q).mpr ⟨hq, hmem'⟩)) (by omega)
  rw [ngramHit, if_pos ⟨by linarith, by linarith⟩, Option.map_eq_some_iff]
  constructor
  · rintro ⟨p, hfind, rfl⟩
    exact ⟨(hleast p).mp hfind, rfl⟩
  · rintro ⟨hmin, heq⟩
    exact ⟨hit.period, (hleast _).mpr hmin, heq.symm⟩

theorem ngramHit_eq_none_iff {cfg : Config} (hngram : 1 ≤ cfg.ngram) (hrepeats : 2 ≤ cfg.repeats)
    {ids : List Token} : ngramHit cfg ids = none ↔ ∀ p, ¬Admissible cfg ids p := by
  constructor
  · intro hnone p hp
    -- an admissible length would have a least one below it, and that one is reported
    have hleast : IsLeast {p | Admissible cfg ids p} (sInf {p | Admissible cfg ids p}) :=
      ⟨Nat.sInf_mem ⟨p, hp⟩, fun q hq => Nat.sInf_le hq⟩
    have := (@ngramHit_iff _ _ _ hngram hrepeats ids
      ⟨.ngram, ids.length - (cfg.repeats.toNat - 1) * sInf {p | Admissible cfg ids p},
        sInf {p | Admissible cfg ids p}⟩).mpr ⟨hleast, rfl⟩
    rw [hnone] at this
    exact nomatch this
  · intro hall
    rw [Option.eq_none_iff_forall_ne_some]
    intro hit hhit
    exact hall _ ((ngramHit_iff hngram hrepeats).mp hhit).1.1

/-! ## The detector -/

/-- The order of the tests, for a detector that is on. -/
theorem detect_eq {cfg : Config} (henabled : cfg.enabled = true) {ids : List Token}
    (hids : ids ≠ []) (text : Option (List Char)) : detectRepetitionDetail cfg ids text =
      (identicalHit cfg ids <|> ngramHit cfg ids <|> lineHit cfg ids text) := by
  rw [detectRepetitionDetail, henabled, if_neg (by simp), if_neg (by simpa using hids)]

omit [DecidableEq Token] in
theorem lineHit_art {cfg : Config} {ids : List Token} {text : Option (List Char)} {hit : Hit}
    (h : lineHit cfg ids text = some hit) : hit.art = .line := by
  obtain ⟨t, -, h⟩ := Option.bind_eq_some_iff.mp h
  split_ifs at h
  exact (Option.some.inj h).symm ▸ rfl

/-- **The inversion of a check**: the tests in their order, and what each answers. -/
theorem detect_cases {cfg : Config} (henabled : cfg.enabled = true) (hngram : 1 ≤ cfg.ngram)
    (hrepeats : 2 ≤ cfg.repeats) (hidentical : 2 ≤ cfg.identical) (ids : List Token)
    (text : Option (List Char)) :
    (EndsEqual ids cfg.identical.toNat ∧ ∃ xs t run, MaximalRun ids xs t run ∧ 0 < run ∧
      detectRepetitionDetail cfg ids text = some ⟨.identical, ids.length - run + 1, 1⟩) ∨
    (¬EndsEqual ids cfg.identical.toNat ∧ ∃ p, IsLeast {p | Admissible cfg ids p} p ∧
      detectRepetitionDetail cfg ids text =
        some ⟨.ngram, ids.length - (cfg.repeats.toNat - 1) * p, p⟩) ∨
    (¬EndsEqual ids cfg.identical.toNat ∧ (∀ p, ¬Admissible cfg ids p) ∧
      ∀ hit, detectRepetitionDetail cfg ids text = some hit → hit.art = .line) := by
  by_cases hids : ids = []
  · -- nothing repeats in an empty output, and nothing is tested
    subst hids
    refine .inr (.inr ⟨fun h => ?_, fun p hp => ?_, fun hit hhit => ?_⟩)
    · have := h.1
      rw [List.length_nil] at this
      omega
    · have hmul := hp.2.2.1
      rw [List.length_nil, Nat.le_zero, Nat.mul_eq_zero] at hmul
      have := hp.1
      omega
    · rw [detectRepetitionDetail, if_neg (by simp [henabled]), if_pos List.length_nil] at hhit
      exact nomatch hhit
  · rw [detect_eq henabled hids]
    cases identicalHit_eq hidentical ids with
    | inr h =>
      obtain ⟨hends, xs, t, run, hrun, hpos, heq⟩ := h
      exact .inl ⟨hends, xs, t, run, hrun, hpos, by rw [heq]; rfl⟩
    | inl h =>
      obtain ⟨heq, hends⟩ := h
      cases hn : ngramHit cfg ids with
      | some hit =>
        obtain ⟨hleast, hhit⟩ := (ngramHit_iff hngram hrepeats).mp hn
        exact .inr (.inl ⟨hends, hit.period, hleast, by rw [heq, ← hhit]; rfl⟩)
      | none =>
        refine .inr (.inr ⟨hends, (ngramHit_eq_none_iff hngram hrepeats).mp hn, fun hit hhit => ?_⟩)
        rw [heq] at hhit
        exact lineHit_art hhit

/-- **A loop is always found**, whatever the phase: where an admissible number of copies is
at the end, the check reports a hit. -/
theorem detect_isSome {cfg : Config} (henabled : cfg.enabled = true) (hngram : 1 ≤ cfg.ngram)
    (hrepeats : 2 ≤ cfg.repeats) (hidentical : 2 ≤ cfg.identical) {ids : List Token} {p : ℕ}
    (hp : Admissible cfg ids p) (text : Option (List Char)) :
    (detectRepetitionDetail cfg ids text).isSome = true := by
  obtain ⟨-, _, _, _, -, -, heq⟩ | ⟨-, _, -, heq⟩ | ⟨-, hnone, -⟩ :=
    detect_cases henabled hngram hrepeats hidentical ids text
  · rw [heq]
    rfl
  · rw [heq]
    rfl
  · exact absurd hp (hnone p)

/-! ## Streams that become periodic -/

/-- The stream repeats with period `d` from index `a` on, and `P` is a multiple of `d` among
the lengths the detector looks for. -/
structure Loops (cfg : Config) (s : ℕ → Token) (a d P : ℕ) : Prop where
  periodic : ∀ i, a ≤ i → s (i + d) = s i
  dvd : d ∣ P
  ngram_le : cfg.ngram ≤ P
  le_ngramMax : P ≤ cfg.ngramMax

omit [DecidableEq Token] in
/-- Once the repeats of the length have been generated, that length is admissible. -/
theorem Loops.admissible {cfg : Config} {s : ℕ → Token} {a d P : ℕ} (h : Loops cfg s a d P)
    (hrepeats : 2 ≤ cfg.repeats) {n : ℕ} (hn : a + cfg.repeats.toNat * P ≤ n) :
    Admissible cfg ((List.range n).map s) P := by
  refine ⟨h.ngram_le, le_min h.le_ngramMax ?_, ?_⟩
  · rw [List.length_map, List.length_range, Int.le_ediv_iff_mul_le (by linarith)]
    have hcast : (cfg.repeats.toNat : ℤ) = cfg.repeats := Int.toNat_of_nonneg (by linarith)
    have hle : cfg.repeats.toNat * P ≤ n := by omega
    zify at hle
    rw [hcast] at hle
    linarith
  · exact endsIn_of_periodic (fun i hi => eq_add_of_dvd h.periodic h.dvd hi) (by omega) hn

/-! ## Runs of a request -/

section Runs

variable {Reason : Type} {cfg : Config} {engine : Engine Token Reason}

omit [DecidableEq Token] in
@[simp] theorem outputIds_originalUpdate (k : ℕ) (req : Req Token Reason) :
    (originalUpdate engine k req).outputIds = req.outputIds := by
  unfold originalUpdate
  split <;> rfl

@[simp] theorem outputIds_loopCheck (req : Req Token Reason) :
    (loopCheck cfg engine req).outputIds = req.outputIds := by
  unfold loopCheck
  dsimp only
  split <;> rfl

/-- The check leaves the output alone. -/
@[simp] theorem outputIds_updateFinishState (k : ℕ) (req : Req Token Reason) :
    (updateFinishState cfg engine k req).outputIds = req.outputIds := by
  unfold updateFinishState
  dsimp only
  split_ifs <;> simp

/-- **A request left unfinished** by the check showed no repetition. -/
theorem detect_eq_none_of_unfinished (henabled : cfg.enabled = true) {k : ℕ}
    {req : Req Token Reason} (h : (updateFinishState cfg engine k req).finishedReason = none) :
    ∃ text, detectRepetitionDetail cfg req.outputIds text = none := by
  unfold updateFinishState at h
  dsimp only at h
  rw [henabled, if_neg (by simp)] at h
  split_ifs at h with hfin
  · rw [h] at hfin
    exact absurd hfin (by simp)
  · unfold loopCheck at h
    dsimp only at h
    rw [outputIds_originalUpdate] at h
    cases hdetect : detectRepetitionDetail cfg req.outputIds
        (if 0 < cfg.lineRepeats then decodeTail engine req.outputIds else none) with
    | none => exact ⟨_, hdetect⟩
    | some hit =>
      rw [hdetect] at h
      exact nomatch h

/-- What holds of a request along its run: its output is the stream so far, and as long as it
is unfinished the loop has not yet repeated enough. -/
structure Bounded (s : ℕ → Token) (bound : ℕ) (req : Req Token Reason) : Prop where
  output : req.outputIds = (List.range req.outputIds.length).map s
  lt : req.finishedReason = none → req.outputIds.length < bound

/-- **No such loop runs on**: whatever numbers of tokens are accepted, a request that is not
finished has not yet generated the repeats. -/
theorem bounded_of_reachable (henabled : cfg.enabled = true) (hngram : 1 ≤ cfg.ngram)
    (hrepeats : 2 ≤ cfg.repeats) (hidentical : 2 ≤ cfg.identical) {s : ℕ → Token} {a d P : ℕ}
    (hloops : Loops cfg s a d P) {req : Req Token Reason}
    (h : Transition.Reachable (step cfg engine s) (fun _ _ => True) Req.fresh req) :
    Bounded s (a + cfg.repeats.toNat * P) req := by
  have hpos : 0 < cfg.repeats.toNat * P :=
    Nat.mul_pos (by omega) (by have := hloops.ngram_le; omega)
  refine h.invariant _ ⟨rfl, fun _ => by show 0 < _; omega⟩ fun req k req' hreq _ hstep => ?_
  unfold step at hstep
  split_ifs at hstep with hfin
  obtain rfl := Option.some.inj hstep
  -- the output grows by the next tokens of the stream
  have hout : req.outputIds ++ (List.range' req.outputIds.length k).map s =
      (List.range (req.outputIds.length + k)).map s := by
    conv_lhs => rw [hreq.output]
    rw [List.length_map, List.length_range, ← List.map_append, List.range_eq_range',
      List.range_eq_range', ← @List.range'_append_1 0, Nat.zero_add]
  refine ⟨by simp [hout], fun hunfinished => ?_⟩
  obtain ⟨text, hnone⟩ := detect_eq_none_of_unfinished henabled hunfinished
  dsimp only at hnone
  by_contra hle
  rw [outputIds_updateFinishState, hout, List.length_map, List.length_range, not_lt] at hle
  have hsome := detect_isSome henabled hngram hrepeats hidentical (hloops.admissible hrepeats hle)
    text
  rw [← hout, hnone] at hsome
  exact absurd hsome (by simp)

end Runs

/-! ## The detector is exact -/

/-- **The cut is exact.** For a detector that is on: it reports a run exactly when the last
tokens are equal, and keeps one token of the maximal run; otherwise it reports a block of
length `p` exactly when `p` is the least admissible length, and the part kept with further
copies of its last `p` tokens is the whole output; and a stream that becomes periodic is
found by every check made after the repeats, so that no run of a request goes on past it. -/
theorem repetition_cut_exact {Reason : Type} {cfg : Config} (henabled : cfg.enabled = true)
    (hngram : 1 ≤ cfg.ngram) (hrepeats : 2 ≤ cfg.repeats) (hidentical : 2 ≤ cfg.identical) :
    (∀ (ids : List Token) (text : Option (List Char)),
      ((∃ hit, detectRepetitionDetail cfg ids text = some hit ∧ hit.art = .identical) ↔
        EndsEqual ids cfg.identical.toNat) ∧
      (∀ hit, detectRepetitionDetail cfg ids text = some hit → hit.art = .identical →
        ∃ xs t run, MaximalRun ids xs t run ∧ ids.take hit.finishedLen = xs ++ [t]) ∧
      (¬EndsEqual ids cfg.identical.toNat → ∀ p,
        (∃ hit, detectRepetitionDetail cfg ids text = some hit ∧ hit.art = .ngram ∧
          hit.period = p) ↔ IsLeast {p | Admissible cfg ids p} p) ∧
      (∀ hit, detectRepetitionDetail cfg ids text = some hit → hit.art = .ngram →
        hit.period ≤ hit.finishedLen ∧ hit.finishedLen ≤ ids.length ∧
        ids = ids.take hit.finishedLen ++ (List.replicate (cfg.repeats.toNat - 1)
          ((ids.take hit.finishedLen).drop (hit.finishedLen - hit.period))).flatten)) ∧
    ∀ (s : ℕ → Token) (a d P : ℕ), Loops cfg s a d P →
      (∀ n text, a + cfg.repeats.toNat * P ≤ n →
        (detectRepetitionDetail cfg ((List.range n).map s) text).isSome = true) ∧
      ∀ (engine : Engine Token Reason) (req : Req Token Reason),
        Transition.Reachable (step cfg engine s) (fun _ _ => True) Req.fresh req →
        req.finishedReason = none → req.outputIds.length < a + cfg.repeats.toNat * P := by
  refine ⟨fun ids text => ?_, fun s a d P hloops => ⟨fun n text hn => ?_, fun engine req h => ?_⟩⟩
  · obtain ⟨hends, xs, t, run, hrun, hpos, heq⟩ | ⟨hends, p, hleast, heq⟩ | ⟨hends, hnone, hline⟩ :=
      detect_cases henabled hngram hrepeats hidentical ids text
    · refine ⟨⟨fun _ => hends, fun _ => ⟨_, heq, rfl⟩⟩, fun hit hhit _ => ⟨xs, t, run, hrun, ?_⟩,
        fun h => absurd hends h, fun hit hhit hart => ?_⟩
      · obtain rfl := Option.some.inj (heq.symm.trans hhit)
        exact hrun.take_eq hpos
      · obtain rfl := Option.some.inj (heq.symm.trans hhit)
        exact Art.noConfusion hart
    · refine ⟨⟨?_, fun h => absurd h hends⟩, fun hit hhit hart => ?_, fun _ q => ⟨?_, fun hq => ?_⟩,
        fun hit hhit hart => ?_⟩
      · rintro ⟨hit, hhit, hart⟩
        obtain rfl := Option.some.inj (heq.symm.trans hhit)
        exact Art.noConfusion hart
      · obtain rfl := Option.some.inj (heq.symm.trans hhit)
        exact Art.noConfusion hart
      · rintro ⟨hit, hhit, -, rfl⟩
        obtain rfl := Option.some.inj (heq.symm.trans hhit)
        exact hleast
      · exact ⟨_, heq, rfl, hleast.unique hq⟩
      · obtain rfl := Option.some.inj (heq.symm.trans hhit)
        obtain ⟨k, hk⟩ : ∃ k, cfg.repeats.toNat = k + 1 := ⟨cfg.repeats.toNat - 1, by omega⟩
        have hends := hleast.1.2.2
        rw [hk] at hends ⊢
        exact ⟨hends.le_kept, Nat.sub_le _ _, hends.eq_take_append⟩
    · refine ⟨⟨?_, fun h => absurd h hends⟩, fun hit hhit hart => ?_,
        fun _ q => ⟨?_, fun hq => absurd hq.1 (hnone q)⟩, fun hit hhit hart => ?_⟩
      · rintro ⟨hit, hhit, hart⟩
        exact Art.noConfusion (hart.symm.trans (hline hit hhit))
      · exact Art.noConfusion (hart.symm.trans (hline hit hhit))
      · rintro ⟨hit, hhit, hart, -⟩
        exact Art.noConfusion (hart.symm.trans (hline hit hhit))
      · exact Art.noConfusion (hart.symm.trans (hline hit hhit))
  · exact detect_isSome henabled hngram hrepeats hidentical (hloops.admissible hrepeats hn) text
  · exact (bounded_of_reachable henabled hngram hrepeats hidentical hloops h).lt

/-- With the default settings, a cycle of 32 tokens is caught after its four copies. -/
theorem repetition_cut_exact_default :
    (detectRepetitionDetail (loadConfig fun _ => none) ((List.range 128).map (· % 32))
      none).isSome = true :=
  ((@repetition_cut_exact ℕ _ Unit (loadConfig fun _ => none) (by decide) (by decide) (by decide)
    (by decide)).2 (· % 32) 0 32 32
    ⟨fun i _ => Nat.add_mod_right i 32, dvd_rfl, by decide, by decide⟩).1 128 none (by decide)

/-! ## The detector switched off -/

/-- The default settings with the switch off. -/
def switchedOff : Config := loadConfig fun name => if name = "DSV41_LOOP_ABORT" then some 0 else none

/-- **Switched off**, the detector reports nothing, whatever the output repeats. -/
theorem detect_switchedOff :
    (1 ≤ switchedOff.ngram ∧ 2 ≤ switchedOff.repeats ∧ 2 ≤ switchedOff.identical) ∧
      EndsEqual (List.replicate 64 7) switchedOff.identical.toNat ∧
      detectRepetitionDetail switchedOff (List.replicate 64 7) none = none :=
  ⟨by decide +kernel, ⟨by decide +kernel, 7, by decide +kernel⟩, by decide +kernel⟩

end LoopAbort

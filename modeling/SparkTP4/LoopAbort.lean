import Mathlib.Data.Int.Order.Basic
import Mathlib.Data.List.DropRight
import SparkTP4.TailCopies

/-!
# The stop of a generation loop

The loop detector wraps the check the engine makes after each accepted step. It
looks at the tokens generated so far, from the end: the same token many times in a
row, the same block of tokens a number of times, or the same decoded line. A hit
finishes the request and names the length of the output to keep: one token of a
run, one copy of a block, everything for a line.

A token is any value that can be compared. What the engine itself decides in the
wrapped check, and the tokenizer, are parameters.
-/

namespace LoopAbort

/-! ## The configuration -/

/-- The settings, as `load_config` returns them. -/
structure Config where
  abort : ℤ
  ngram : ℤ
  ngramMax : ℤ
  repeats : ℤ
  identical : ℤ
  lineRepeats : ℤ
  lineMin : ℤ
  namedExit : Bool
  enabled : Bool
  deriving DecidableEq, Repr

/-- `_env_int`: the environment gives the integer a variable's text is read as, and nothing
for a variable that is unset, blank or no integer. -/
def envInt (env : String → Option ℤ) (name : String) (default : ℤ) : ℤ := (env name).getD default

/-- `load_config`. -/
def loadConfig (env : String → Option ℤ) : Config :=
  let abort := envInt env "DSV41_LOOP_ABORT" 1
  let ngram := envInt env "DSV41_LOOP_NGRAM" 32
  let ngramMax := envInt env "DSV41_LOOP_NGRAM_MAX" 256
  let repeats := envInt env "DSV41_LOOP_REPEATS" 4
  let identical := envInt env "DSV41_LOOP_IDENTICAL" 64
  let lineRepeats := envInt env "DSV41_LOOP_LINE_REPEATS" 8
  let lineMin := envInt env "DSV41_LOOP_LINE_MIN" 16
  let namedExit := envInt env "DSV41_LOOP_NAMED_EXIT" 1
  let ngramMax := if ngramMax < ngram then ngram else ngramMax
  let ngramOn := 0 < ngram ∧ 0 < repeats
  { abort, ngram, ngramMax, repeats, identical, lineRepeats, lineMin
    namedExit := decide (0 < namedExit)
    enabled := decide (0 < abort ∧ (ngramOn ∨ 0 < identical ∨ 0 < lineRepeats)) }

/-- The longest period is never below the shortest. -/
theorem loadConfig_ngram_le (env : String → Option ℤ) :
    (loadConfig env).ngram ≤ (loadConfig env).ngramMax := by
  simp only [loadConfig]
  split
  · exact le_rfl
  · exact le_of_not_gt ‹_›

/-- **The switch**: with a positive n-gram length and a positive number of repeats, the
detector is on exactly when its switch is. -/
theorem loadConfig_enabled {env : String → Option ℤ} (hngram : 0 < (loadConfig env).ngram)
    (hrepeats : 0 < (loadConfig env).repeats) :
    (loadConfig env).enabled = true ↔ 0 < (loadConfig env).abort := by
  show decide (_ ∧ _) = true ↔ _
  rw [decide_eq_true_iff]
  exact ⟨fun h => h.1, fun h => ⟨h, .inl ⟨hngram, hrepeats⟩⟩⟩

/-! ## Lines -/

/-- The characters `str.splitlines` ends a line at. -/
def isLineBreak (c : Char) : Bool :=
  c.toNat ∈ [0x0a, 0x0b, 0x0c, 0x0d, 0x1c, 0x1d, 0x1e, 0x85, 0x2028, 0x2029]

/-- `str.isspace` of one character. -/
def isSpace (c : Char) : Bool :=
  c.toNat ∈ [0x09, 0x0a, 0x0b, 0x0c, 0x0d, 0x1c, 0x1d, 0x1e, 0x1f, 0x20, 0x85, 0xa0, 0x1680,
    0x2000, 0x2001, 0x2002, 0x2003, 0x2004, 0x2005, 0x2006, 0x2007, 0x2008, 0x2009, 0x200a,
    0x2028, 0x2029, 0x202f, 0x205f, 0x3000]

/-- The lines of the text that follows the characters `cur` of the current line. -/
def splitlinesFrom (cur : List Char) : List Char → List (List Char)
  | [] => if cur = [] then [] else [cur]
  | c :: d :: cs =>
    -- a carriage return and a line feed are one line break
    if c.toNat = 0x0d ∧ d.toNat = 0x0a then cur :: splitlinesFrom [] cs
    else if isLineBreak c then cur :: splitlinesFrom [] (d :: cs)
    else splitlinesFrom (cur ++ [c]) (d :: cs)
  | [c] => if isLineBreak c then [cur] else [cur ++ [c]]

/-- `str.splitlines`. -/
def splitlines (text : List Char) : List (List Char) := splitlinesFrom [] text

/-- `repeated_line_suffix`: the last lines that are not blank are all the same and long
enough. -/
def repeatedLineSuffix (text : List Char) (repeats minChars : ℤ) : Bool :=
  if text = [] ∨ repeats ≤ 0 ∨ minChars ≤ 0 then false
  else
    let lines := ((splitlines text).filter fun ln => ln.any fun c => !isSpace c).map
      (List.rdropWhile isSpace)
    if (lines.length : ℤ) < repeats then false
    else match lines.getLast? with
      | none => false
      | some last =>
        if (last.length : ℤ) < minChars then false
        else (lines.drop (lines.length - repeats.toNat)).all fun ln => ln == last

/-! ## The detector -/

/-- What repeats. -/
inductive Art
  | identical
  | ngram
  | line
  deriving DecidableEq, Repr

/-- The text of the art in messages. -/
def Art.text : Art → String
  | .identical => "identical"
  | .ngram => "ngram"
  | .line => "line"

/-- A hit: what repeats, the length of the prefix to keep and the period. -/
structure Hit where
  art : Art
  finishedLen : ℕ
  period : ℕ
  deriving DecidableEq, Repr

section Detect

variable {Token : Type} [DecidableEq Token]

/-- The loop that counts the tokens equal to `last`, from the one before index `i` down. -/
def runLoop (ids : List Token) (last : Token) : ℕ → ℕ → ℕ
  | 0, run => run
  | i + 1, run => if ids[i]? = some last then runLoop ids last i (run + 1) else run

/-- The test for one token in a row. -/
def identicalHit (cfg : Config) (ids : List Token) : Option Hit :=
  if 0 < cfg.identical ∧ cfg.identical ≤ ids.length then
    ids.getLast?.bind fun last =>
      let run := runLoop ids last (ids.length - 1) 1
      if cfg.identical ≤ run then some ⟨.identical, ids.length - run + 1, 1⟩ else none
  else none

/-- The slice `ids[start:end]`, for bounds that are not negative. -/
def slice (ids : List Token) (start stop : ℕ) : List Token := (ids.drop start).take (stop - start)

/-- The test of one period: every earlier slice equals the last one. -/
def unitRepeats (ids : List Token) (repeats period : ℕ) : Bool :=
  (List.range' 1 (repeats - 1)).all fun r =>
    slice ids (ids.length - (r + 1) * period) (ids.length - r * period) =
      ids.drop (ids.length - period)

/-- The periods tried, in order: `range(ngram, max_p + 1)`. -/
def periods (cfg : Config) (n : ℕ) : List ℕ :=
  let maxP := min cfg.ngramMax (n / cfg.repeats)
  List.range' cfg.ngram.toNat (maxP + 1 - cfg.ngram).toNat

/-- The test for a block of tokens. -/
def ngramHit (cfg : Config) (ids : List Token) : Option Hit :=
  if 0 < cfg.ngram ∧ 0 < cfg.repeats then
    ((periods cfg ids.length).find? (unitRepeats ids cfg.repeats.toNat)).map fun period =>
      ⟨.ngram, ids.length - (cfg.repeats.toNat - 1) * period, period⟩
  else none

/-- The test for a line. -/
def lineHit (cfg : Config) (ids : List Token) (text : Option (List Char)) : Option Hit :=
  text.bind fun text =>
    if repeatedLineSuffix text cfg.lineRepeats cfg.lineMin then some ⟨.line, ids.length, 0⟩
    else none

/-- `detect_repetition_detail`. -/
def detectRepetitionDetail (cfg : Config) (ids : List Token) (text : Option (List Char)) :
    Option Hit :=
  if !cfg.enabled then none
  else if ids.length = 0 then none
  else identicalHit cfg ids <|> ngramHit cfg ids <|> lineHit cfg ids text

/-- `detect_repetition`. -/
def detectRepetition (cfg : Config) (ids : List Token) (text : Option (List Char)) :
    Option (String × ℕ) :=
  (detectRepetitionDetail cfg ids text).map fun hit => ("repetition", hit.finishedLen)

/-! ## The wrapped check -/

/-- Why a request is finished. -/
inductive FinishedReason (Reason : Type)
  | engine (reason : Reason)
  | abort (message : String) (status : ℕ) (errType : String)
  | matched (matched : String)

/-- The fields of `Req` that the check reads and writes. -/
structure Req (Token Reason : Type) where
  outputIds : List Token
  finishedReason : Option (FinishedReason Reason)
  finishedLen : Option ℕ

/-- What the wrapper takes from outside: the engine's own check, which from the output and
the number of accepted tokens decides whether the request is finished, and the
tokenizer's decoding, absent when there is no tokenizer and failing where it raises. -/
structure Engine (Token Reason : Type) where
  original : List Token → ℕ → Option (Reason × Option ℕ)
  decode : Option (List Token → Option (List Char))
  hasFinishAbort : Bool

variable {Reason : Type}

/-- `_decode_tail`: the text of the last `LINE_WINDOW_TOKENS` tokens. -/
def decodeTail (engine : Engine Token Reason) (ids : List Token) : Option (List Char) :=
  if ids = [] then none else engine.decode.bind fun decode => decode (ids.drop (ids.length - 512))

/-- The exit of a hit: a named error, or the stop exit where that is switched off or the
engine has none. -/
def exitReason (cfg : Config) (engine : Engine Token Reason) (ids : List Token) (hit : Hit) :
    FinishedReason Reason :=
  if cfg.namedExit && engine.hasFinishAbort then
    .abort ("loop_abort: DSV41 repetition (art=" ++ hit.art.text ++ ", period=" ++
      toString hit.period ++ ", output_tokens=" ++ toString ids.length ++ ", kept=" ++
      toString hit.finishedLen ++ ")") 500 "loop_abort"
  else .matched "repetition"

/-- The check the engine makes on its own. -/
def originalUpdate (engine : Engine Token Reason) (newAcceptedLen : ℕ) (req : Req Token Reason) :
    Req Token Reason :=
  match engine.original req.outputIds newAcceptedLen with
  | none => req
  | some (reason, len) => { req with finishedReason := some (.engine reason), finishedLen := len }

/-- What the wrapper adds to a request that the engine's check left unfinished. -/
def loopCheck (cfg : Config) (engine : Engine Token Reason) (req : Req Token Reason) :
    Req Token Reason :=
  let text := if 0 < cfg.lineRepeats then decodeTail engine req.outputIds else none
  match detectRepetitionDetail cfg req.outputIds text with
  | none => req
  | some hit =>
    { req with
      finishedReason := some (exitReason cfg engine req.outputIds hit)
      finishedLen := some hit.finishedLen }

/-- `update_finish_state`, as `install` leaves it: unwrapped when the detector is off. -/
def updateFinishState (cfg : Config) (engine : Engine Token Reason) (newAcceptedLen : ℕ)
    (req : Req Token Reason) : Req Token Reason :=
  let req := originalUpdate engine newAcceptedLen req
  if !cfg.enabled then req
  else if req.finishedReason.isSome then req
  else loopCheck cfg engine req

/-- **One step of a request** that generates the stream `s`: some number of its next tokens
is accepted, and the check is made. A finished request takes no step. -/
def step (cfg : Config) (engine : Engine Token Reason) (s : ℕ → Token) (req : Req Token Reason)
    (accepted : ℕ) : Option (Req Token Reason) :=
  if req.finishedReason.isSome then none
  else some (updateFinishState cfg engine accepted
    { req with
      outputIds := req.outputIds ++ (List.range' req.outputIds.length accepted).map s })

/-- A request before its first step. -/
def Req.fresh : Req Token Reason := ⟨[], none, none⟩

end Detect

end LoopAbort

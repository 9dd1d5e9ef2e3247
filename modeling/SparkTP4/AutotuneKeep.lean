import Mathlib.Data.Set.Function
import SparkTP4.Transition

/-!
# Keeping the autotune cache across boots

A boot keeps the cache file of the last one if the sidecars next to it say that it was tuned by
the same launch: `.launch` holds a fingerprint of the launch, `.launch-pool` a second one without
the pool size, with the text of the `.launch` that it was written next to (`sameLaunch`). A boot
that does not keep the file unlinks it, tunes again, saves, and then writes the sidecars.

Every file operation is a step, which may fail or be the last one of its boot. What the cache
holds is, for each boot that has tuned some of it, the launch of that boot.
-/

namespace AutotuneKeep

/-! ## Fingerprints -/

/-- Switches that change neither the shapes nor the kernels that are tuned. -/
def VOLATILE : List String :=
  ["DSV41_DRAFT_CAPTURE", "DSV41_DRAFT_CAPTURE_OUT", "DSV41_DRAFT_CAPTURE_TRIGGER",
    "DSV41_DRAFT_CAPTURE_MAX_GIB", "DSV41_VERIFY_CAP", "DSV41_VERIFY_CAP_MIN", "DSV41_DRAFT_TAU",
    "DSV41_BLOCK_VERIFY", "DSV41_FOLDED_FENCE", "DSV41_AUTOTUNE_KEEP", "SGLANG_RUN_ID",
    "DSV41_DRAFT_HEAD_FP8", "DSV41_ENGRAM_PREFETCH", "DSV41_ENGRAM_PREFETCH_CHECK",
    "DSV41_REPLICATED_SPLIT", "DSV41_REPLICATED_SPLIT_MAX_M", "DSV41_DRAFT_MAIN_PROJ_SPLIT",
    "DSV41_DRAFT_MAIN_PROJ_MAX_M", "DSV41_ROCE_GATHER", "DSV41_ROUTER_LIVE", "DSV41_DYN_SHARED",
    "DSV41_DYN_SHARED_RATIO", "DSV41_DYN_SHARED_FIXED", "DSV41_DYN_SHARED_MAX_M",
    "DSV41_DYN_SHARED_SERIAL", "DSV41_VERIFY_CAP_LOG", "DSV41_VERIFY_CAP_LOG_FEATURES",
    "DSV41_ROUTE_STATS", "DSV41_ROUTE_RING", "DSV41_DRAFT_TAU_POS", "DSV41_ENGRAM_DRM_NODE",
    "DSV41_ENGRAM_DRM_MIB", "DSV41_ENGRAM_DRM_LAYER", "DSV41_SWA_NATIVE_DECODE",
    "DSV41_DECODE_YIELD", "DSV41_DECODE_YIELD_RID_ARMS", "DSV41_SWA_THIN",
    "DSV41_SWA_CONE_REPLAY", "DSV41_SWA_CONE_TOKENS", "DSV41_SWA_CONE_MIN_SAVE",
    "DSV41_SWA_CONE_TEST", "DSV41_KV_LAYOUT", "DSV41_V41C_ARM", "DSV41_V41C_READER",
    "DSV41_V41C_DEDUP_ROWS", "DSV41_V41C_DEDUP_MIN_ROWS", "DSV41_V41N_TACTICS",
    "DSV41_V41N_DIAG", "DSV41_V41N_PREFILL", "DSV41_V41N_PAGE_MIN_ROWS",
    "DSV41_V41N_PAGE_CAP_MB", "DSV41_TOKENIZER_HEAP", "DSV41_TOKENIZER_TRIM2_IDLE_S",
    "DSV41_TOKENIZER_TRIM2_POLL_S", "DSV41_TOKENIZER_TRIM2_MIN_MIB",
    "DSV41_TOKENIZER_TRIM2_MIN_INTERVAL_S", "DSV41_TOKENIZER_TRIM2_MAX_BUSY_S",
    "DSV41_TOKENIZER_TRIM2_INFO_EVERY_S", "DSV41_TOKENIZER_TRIM2_BUDGET_MS",
    "DSV41_TOKENIZER_TRIM2_MAX_DEFER_S", "DSV41_TOKENIZER_TRIM2_LOG_MIN_S",
    "DSV41_TOKENIZER_TRIM2_SUMMARY_S", "DSV41_TOKENIZER_TRIM2_MS_PER_GIB"]

def PREFIXES : List String := ["SGLANG_", "DSV41_", "SPARK_", "B12X_", "NCCL_"]

/-- Options that size the KV pool only. -/
def VOLATILE_ARGS : List String := ["--max-total-tokens"]

/-- A launch: its arguments, its environment, and the environment that `DSV41_AB_BASE` records. -/
structure Launch where
  argv : List String
  environ : String → Option String
  abBase : List (String × Option String)

/-- `_argv_key`; the flag says that the next argument is an option's value. -/
def argvKey : Bool → List String → List String
  | _, [] => []
  | true, _ :: argv => argvKey false argv
  | false, a :: argv =>
    if a ∈ VOLATILE_ARGS then argvKey true argv
    else if VOLATILE_ARGS.any fun v => a.startsWith (v ++ "=") then argvKey false argv
    else a :: argvKey false argv

/-- The variables that are in a fingerprint. -/
def Launch.baseEnv (l : Launch) (key : String) : Option String :=
  if (PREFIXES.any fun p => key.startsWith p) ∧ key ∉ VOLATILE ∧ ¬ key.startsWith "DSV41_AB_" then
    l.environ key
  else none

/-- The environment of a fingerprint. -/
def Launch.env (l : Launch) : String → Option String :=
  l.abBase.foldl (fun env e => if e.1 ∈ VOLATILE then env else Function.update env e.1 e.2) l.baseEnv

/-- What is hashed: arguments and environment. -/
abbrev Payload := List String × (String → Option String)

/-- The payload with all arguments, or without those of the pool size. -/
def Launch.payload (l : Launch) (rawArgv : Bool) : Payload :=
  (if rawArgv then l.argv else argvKey false l.argv, l.env)

/-- What is in a text file. -/
abbrev Text := List Char

/-- `str.strip` -/
def strip (t : Text) : Text :=
  ((t.dropWhile Char.isWhitespace).reverse.dropWhile Char.isWhitespace).reverse

/-- `str.split` -/
def split (t : Text) : List Text := (t.splitOnP Char.isWhitespace).filter fun w => decide (w ≠ [])

/-- **A hash** gives 64 digits. -/
structure Hash where
  hash : Payload → Text
  length : ∀ p, (hash p).length = 64
  digits : ∀ p, ∀ c ∈ hash p, c.isWhitespace = false

section Fingerprints

variable (H : Hash)

/-- `launch_fingerprint()` -/
def Launch.fp (l : Launch) : Text := H.hash (l.payload false)

/-- `launch_fingerprint(raw_argv=True)` -/
def Launch.fpRaw (l : Launch) : Text := H.hash (l.payload true)

end Fingerprints

/-! ## Files -/

/-- The cache file. What an interrupted save leaves is no JSON object. -/
inductive CacheFile
  | absent
  | garbage
  | tuned (tuners : List Launch)

/-- The cache and its sidecars. -/
structure Files where
  cache : CacheFile
  launch : Option Text
  pool : Option Text

/-- Which of the files can be read. -/
structure Reads where
  cache : Bool
  launch : Bool
  pool : Bool

section Boots

variable (H : Hash)

/-- `same_launch` -/
def sameLaunch (f : Files) (reads : Reads) (l : Launch) : Bool :=
  match if reads.launch then f.launch.map strip else none with
  | none => false
  | some launch =>
    if launch ≠ [] ∧ (launch = l.fp H ∨ launch = l.fpRaw H) then true
    else match if reads.pool then f.pool.map split else none with
      | none => false
      | some pool => decide (pool = [l.fp H, launch]) && decide (launch ≠ [])

/-- Whether `_autotune_cache_digest` takes a cache file for one of this launch. -/
def loadable (f : Files) (reads : Reads) (l : Launch) : Bool :=
  match f.cache with
  | .tuned _ => reads.cache && sameLaunch H f reads l
  | _ => false

/-- Where a boot is. -/
inductive Phase
  | idle
  /-- `_autotune_cache_digest` is called: first on its own, then by the entry gate, which knows
  whether the first call has found a cache. -/
  | digest (l : Launch) (before : Option Bool)
  /-- The cache is not of this launch, and is unlinked. -/
  | unlink (l : Launch) (before : Option Bool)
  /-- Its pool sidecar is unlinked. -/
  | unlinkPool (l : Launch) (before : Option Bool)
  /-- The ranks compare their digests. -/
  | gate (l : Launch) (before : Bool)
  /-- The cache that is there has been loaded; the boot tunes what it misses. -/
  | tuning (l : Launch) (kept : Bool)
  /-- The tuning has ended. -/
  | saved (l : Launch) (kept : Bool)
  /-- `.launch` holds this text, and `.launch-pool` is written. -/
  | mark (l : Launch) (launch : Text)
  | done

/-- The files, the boot, and what the last boot has loaded. -/
structure State where
  files : Files
  phase : Phase
  loaded : Option (Launch × List Launch)

/-- After a call of `_autotune_cache_digest`. -/
def nextPhase (l : Launch) (before : Option Bool) (digest : Bool) : Phase :=
  match before with
  | none => .digest l (some digest)
  | some before => .gate l before

/-- A file that is written: all of the text, or what an interrupted write leaves. -/
def written (text : Text) (upTo : Option ℕ) : Option Text :=
  some (match upTo with
    | none => text
    | some n => text.take n)

/-- What can happen. -/
inductive Action
  | boot (l : Launch)
  /-- `_autotune_cache_digest` decides. -/
  | decide (reads : Reads)
  /-- The next file is unlinked. -/
  | unlink
  /-- The entry gate lets the cache be, or drops it; what is there is loaded. -/
  | enter (drop : Bool)
  /-- The tuning ends: the cache is saved, or a part of it, or there is nothing to save. -/
  | save (whole : Option Bool)
  /-- The `.launch` of a kept cache is read. -/
  | readLaunch
  /-- `.launch` is written, or only the first characters of it. -/
  | writeLaunch (upTo : Option ℕ)
  /-- `.launch-pool` is written, or only the first characters of it. -/
  | writePool (upTo : Option ℕ)
  /-- The boot ends, or is interrupted, or one of its file operations fails. -/
  | stop

/-- The cache after the entry gate. -/
def gated (f : Files) (drop : Bool) : Files := if drop then { f with cache := .absent } else f

/-- `cache_path.is_file()` -/
def CacheFile.isFile : CacheFile → Bool
  | .absent => false
  | _ => true

/-- Who tuned the cache that is there. -/
def CacheFile.tuners : CacheFile → List Launch
  | .tuned tuners => tuners
  | _ => []

def step (s : State) : Action → Option State
  | .boot l => match s.phase with
    | .idle => some { s with phase := .digest l none, loaded := none }
    | _ => none
  | .decide reads => match s.phase with
    | .digest l before =>
      if !s.files.cache.isFile then some { s with phase := nextPhase l before false }
      else if loadable H s.files reads l then some { s with phase := nextPhase l before true }
      else some { s with phase := .unlink l before }
    | _ => none
  | .unlink => match s.phase with
    | .unlink l before => some { s with
        files := { s.files with cache := .absent }, phase := .unlinkPool l before }
    | .unlinkPool l before => some { s with
        files := { s.files with pool := none }, phase := nextPhase l before false }
    | _ => none
  | .enter drop => match s.phase with
    | .gate l before =>
      let files := gated s.files drop
      some {
        files
        phase := .tuning l (before && files.cache.isFile)
        loaded := match files.cache with
          | .tuned tuners => some (l, tuners)
          | _ => none }
    | _ => none
  | .save whole => match s.phase with
    | .tuning l kept => some { s with
        files := { s.files with cache := match whole with
          | none => s.files.cache
          | some true => .tuned (l :: s.files.cache.tuners)
          | some false => .garbage }
        phase := .saved l kept }
    | _ => none
  | .readLaunch => match s.phase with
    | .saved l true => if s.files.cache.isFile then
        s.files.launch.map fun text => { s with phase := .mark l (strip text) }
      else none
    | _ => none
  | .writeLaunch upTo => match s.phase with
    | .saved l false => if s.files.cache.isFile then some { s with
        files := { s.files with launch := written (l.fpRaw H ++ ['\n']) upTo }
        phase := if upTo = none then .mark l (l.fpRaw H) else .saved l false }
      else none
    | _ => none
  | .writePool upTo => match s.phase with
    | .mark l launch => some { s with
        files := { s.files with pool := written (l.fp H ++ ' ' :: launch ++ ['\n']) upTo }
        phase := .done }
    | _ => none
  | .stop => some { s with phase := .idle }

/-- **No boot that has tuned afresh ends before its `.launch` is written while the sidecars
accept another launch.** All boots are among `boots`. -/
def Marked (boots : Set Launch) (s : State) : Action → Prop
  | .boot l => l ∈ boots
  | .stop => match s.phase with
    | .saved l false => s.files.cache.tuners ≠ [] → ∀ reads, ∀ l' ∈ boots,
        sameLaunch H s.files reads l' = true → l'.fp H = l.fp H
    | _ => True
  | _ => True

/-- No file has been written yet. -/
def initial : State := ⟨⟨.absent, none, none⟩, .idle, none⟩

end Boots

end AutotuneKeep

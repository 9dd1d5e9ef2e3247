import Mathlib.Data.Int.Notation
import Mathlib.Data.List.Basic
import Mathlib.Algebra.GroupWithZero.Nat

/-!
# The L2 prefetch plan

While a collective runs, the GPU's memory is idle. A side branch then prefetches into L2 the
weights that are read next. Which weights follow which collective is learned: an eager
forward records its collectives, its weight reads and a few marks (`Recorder`), and the
record is turned into windows (`windows`) and the windows into a plan (`makePlan`).

A read is named by its place in the record, so that two reads of one weight are two reads
(`Item.read`; nothing is decided by it). Budgets are in bytes and may be below zero, which
is as good as none: whoever spends one first asks for 16 bytes.
-/

namespace L2Prefetch

/-- The sub-gates, and the numbers of the other knobs. -/
structure Knobs where
  woa : Bool
  ahead : Bool
  engram : Bool
  moe : Bool
  skipN : ℤ
  mb : ℤ
  woaMb : ℤ
  engramMb : ℤ
  moeMb : ℤ
  wobMb : ℤ
  deriving DecidableEq

/-! ## Recording -/

/-- What a forward does, as the hooks see it: `linear` is an MXFP8 linear that has run,
`router` the router that has, `engramJoin` the Engram rows about to be joined. -/
inductive Call
  | collective
  | linear
  | woA (ptr nbytes : ℕ)
  | weight (ptr nbytes : ℕ) (rows : Option ℕ)
  | engramJoin
  | router

/-- A recorded event, under its tag. -/
inductive Event
  | c (idx : ℕ)
  | e (n : ℕ)
  | L (lin : ℕ)
  | m (n : ℕ)
  | w (ptr nbytes : ℕ)
  | r (ptr nbytes : ℕ) (rows : Option ℕ)
  deriving DecidableEq

/-- The counters of a forward, and its record. -/
structure Recorder where
  idx : ℕ
  lin : ℕ
  eng : ℕ
  moe : ℕ
  events : List Event

/-- A hook: it counts and records when its gate is on. -/
def Recorder.call (k : Knobs) (s : Recorder) : Call → Recorder
  | .collective => { s with idx := s.idx + 1, events := s.events ++ [.c (s.idx + 1)] }
  | .linear => if k.woa then { s with lin := s.lin + 1, events := s.events ++ [.L (s.lin + 1)] } else s
  | .woA ptr nbytes => if k.woa then { s with events := s.events ++ [.w ptr nbytes] } else s
  | .weight ptr nbytes rows => { s with events := s.events ++ [.r ptr nbytes rows] }
  | .engramJoin =>
    if k.engram then { s with eng := s.eng + 1, events := s.events ++ [.e (s.eng + 1)] } else s
  | .router => if k.moe then { s with moe := s.moe + 1, events := s.events ++ [.m (s.moe + 1)] } else s

/-- The record of a forward. -/
def record (k : Knobs) (calls : List Call) : List Event :=
  (calls.foldl (Recorder.call k) ⟨0, 0, 0, 0, []⟩).events

/-! ## Windows -/

/-- A linear or the router, or wo_a. -/
inductive ReadKind
  | r
  | w
  deriving DecidableEq

/-- A queue item: the weight that read number `read` of the record reads. -/
structure Item where
  read : ℕ
  ptr : ℕ
  nbytes : ℕ
  rows : Option ℕ
  kind : ReadKind
  deriving DecidableEq

/-- The key of a window: a collective, an Engram join, a linear, a MoE mark. -/
inductive Key
  | c (idx : ℕ)
  | e (n : ℕ)
  | l (lin : ℕ)
  | m (n : ℕ)
  deriving DecidableEq

/-- A window. -/
structure Window where
  key : Key
  budget : ℕ
  queue : List Item
  lookAhead : Bool
  deriving DecidableEq

/-- The state of `_windows`; the window that collects reads and the owner of the last linear
are places in the list. -/
structure Builder where
  windows : List Window
  cur : Option ℕ
  lastLin : Option (ℕ × ℕ × ℕ)

/-- The queue of a window. -/
def Builder.queue (s : Builder) (j : ℕ) : List Item := ((s.windows[j]?).map (·.queue)).getD []

/-- A new window, which collects from now on. -/
def Builder.begin (s : Builder) (w : Window) : Builder :=
  ⟨s.windows ++ [w], some s.windows.length, none⟩

/-- A read goes to the window that collects; before the first there is none. -/
def Builder.push (s : Builder) (it : Item) : Builder :=
  match s.cur with
  | none => s
  | some j => { s with windows := s.windows.modify j fun w => { w with queue := w.queue ++ [it] } }

/-- The first wo_a read after a linear opens a window; what was read since the linear moves
to it. -/
def Builder.split (k : Knobs) (s : Builder) : Builder :=
  match s.lastLin with
  | none => s
  | some (owner, pos, lin) =>
    if s.cur = some owner then
      { s with windows := s.windows.modify owner fun w => { w with queue := w.queue.take pos } }.begin
        ⟨.l lin, k.woaMb.toNat, (s.queue owner).drop pos, k.ahead⟩
    else s

/-- Event number `i`. -/
def Builder.event (k : Knobs) (s : Builder) (i : ℕ) : Event → Builder
  | .m n => { s with windows := s.windows ++ [⟨.m n, k.moeMb.toNat, [], false⟩] }
  | .c n => s.begin ⟨.c n, k.mb.toNat, [], k.ahead⟩
  | .e n => s.begin ⟨.e n, k.engramMb.toNat, [], true⟩
  | .L lin =>
    match s.cur with
    | none => s
    | some j => { s with lastLin := some (j, (s.queue j).length, lin) }
  | .w ptr nbytes => (if k.woa then s.split k else s).push ⟨i, ptr, nbytes, none, .w⟩
  | .r ptr nbytes rows => s.push ⟨i, ptr, nbytes, rows, .r⟩

/-- SKIP_N: weights with that many output rows or fewer leave; a window left empty looks
ahead. -/
def Window.skip (n : ℤ) (w : Window) : Window :=
  let kept := w.queue.filter fun it => it.rows.all fun rows => n < rows
  { w with queue := kept, lookAhead := w.lookAhead || (!w.queue.isEmpty && kept.isEmpty) }

/-- The windows before SKIP_N. -/
def collect (k : Knobs) (events : List Event) : List Window :=
  (events.zipIdx.foldl (fun (s : Builder) p => s.event k p.2 p.1) ⟨[], none, none⟩).windows

/-- `_windows` -/
def windows (k : Knobs) (events : List Event) : List Window :=
  if 0 < k.skipN then (collect k events).map (Window.skip k.skipN) else collect k events

/-! ## Taking from a queue -/

/-- A position in a queue: an item and an offset. -/
abbrev Pos := ℕ × ℕ

/-- The order of tuples. -/
def Pos.Before (p q : Pos) : Prop := p.1 < q.1 ∨ p.1 = q.1 ∧ p.2 < q.2

instance (p q : Pos) : Decidable (p.Before q) := inferInstanceAs (Decidable (_ ∨ _))

/-- A planned piece of a weight. -/
structure Segment where
  item : Item
  off : ℕ
  bytes : ℕ
  deriving DecidableEq

/-- Its row of the device table: address and bytes. -/
def Segment.row (s : Segment) : ℕ × ℕ := (s.item.ptr + s.off, s.bytes)

/-- The bytes of all segments. -/
def total (segs : List Segment) : ℕ := (segs.map (·.bytes)).sum

/-- The loop of `_take`, from item `i` on. -/
def takeFrom (i off left : ℕ) : List Item → List Segment × Pos
  | [] => ([], (i, off))
  | it :: q =>
    if left < 16 then ([], (i, off))
    else
      let avail := it.nbytes - off
      let take := min avail left / 16 * 16
      let out : List Segment := if 0 < take then [⟨it, off, take⟩] else []
      if left < avail then (out, (i, off + take))
      else
        let more := takeFrom (i + 1) 0 (left - take) q
        (out ++ more.1, more.2)

/-- `_take` -/
def take (q : List Item) (start : Pos) (budget : ℕ) : List Segment × Pos :=
  takeFrom start.1 start.2 budget (q.drop start.1)

/-! ## The plan -/

/-- Where MoE windows stopped, by window. -/
abbrev Cover := List (ℕ × Pos)

def Cover.get (cover : Cover) (j : ℕ) : Pos := (cover.lookup j).getD (0, 0)

/-- Whether a window is a MoE mark. -/
def Window.isMark (w : Window) : Bool :=
  match w.key with
  | .m _ => true
  | _ => false

/-- Whether a window is an attention-core window. -/
def Window.isCore (w : Window) : Bool :=
  match w.key with
  | .l _ => true
  | _ => false

/-- The inner loop of a MoE mark: the windows that follow, from number `k` on. -/
def moeScan (k left : ℕ) (cover : Cover) : List Window → List Segment × Cover
  | [] => ([], cover)
  | w :: ws =>
    if w.isMark ∨ left < 16 then ([], cover)
    else
      let more := take w.queue (0, 0) left
      let rest := moeScan (k + 1) (left - total more.1) ((k, more.2) :: cover) ws
      (more.1 ++ rest.1, rest.2)

/-- WOB: wo_a up to the window's budget, then what is read after it. -/
def wobTake (wob : ℕ) (w : Window) : List Segment :=
  let nW := w.queue.findIdx fun it => it.kind ≠ .w
  (take (w.queue.take nW) (0, 0) w.budget).1 ++ (take (w.queue.drop nW) (0, 0) wob).1

/-- A window with its own weights from `start` on, then the weights of the next window when
it looks ahead. -/
def ownTake (start : Pos) (cover : Cover) (j : ℕ) (w : Window) (rest : List Window) :
    List Segment × Pos :=
  let own := take w.queue start w.budget
  match rest with
  | [] => (own.1, (0, 0))
  | next :: _ =>
    if w.lookAhead ∧ w.queue.length ≤ own.2.1 ∧ 16 ≤ w.budget - total own.1 then
      let more := take next.queue (cover.get (j + 1)) (w.budget - total own.1)
      (own.1 ++ more.1, more.2)
    else (own.1, (0, 0))

/-- The later of where the look-ahead and the MoE window stopped. -/
def resume (start held : Pos) : Pos := if start.Before held then held else start

/-- One window: its segments, where the next one starts, the cover. -/
def windowStep (k : Knobs) (start : Pos) (cover : Cover) (j : ℕ) (w : Window)
    (rest : List Window) : List Segment × Pos × Cover :=
  if w.isMark then
    let moe := moeScan (j + 1) w.budget cover rest
    (moe.1, start, moe.2)
  else if w.isCore ∧ 0 < k.wobMb then (wobTake k.wobMb.toNat w, (0, 0), cover)
  else
    let own := ownTake (resume start (cover.get j)) cover j w rest
    (own.1, own.2, cover)

/-- An entry of the plan: the segments, and for a MoE mark the segments to demote first, with
how many of them. -/
structure Entry where
  segs : List Segment
  old : Option (List Segment × ℕ)
  deriving DecidableEq

/-- A dictionary in the order of insertion. -/
abbrev Plan := List (Key × Entry)

/-- Assignment: in place when the key is there. -/
def Plan.set (plan : Plan) (key : Key) (e : Entry) : Plan :=
  if plan.any (·.1 = key) then plan.map fun p => if p.1 = key then (key, e) else p
  else plan ++ [(key, e)]

/-- The state of the loop over the windows. -/
structure Loop where
  start : Pos
  cover : Cover
  plan : Plan
  moeItems : List (Key × List Segment)

/-- A window with segments gets an entry; that of a MoE mark waits for the others. -/
def Loop.note (s : Loop) (w : Window) (segs : List Segment) : Loop :=
  if segs = [] then s
  else if w.isMark then { s with moeItems := s.moeItems ++ [(w.key, segs)] }
  else { s with plan := s.plan.set w.key ⟨segs, none⟩ }

def Loop.window (k : Knobs) (s : Loop) (j : ℕ) (w : Window) (rest : List Window) : Loop :=
  let out := windowStep k s.start s.cover j w rest
  { s.note w out.1 with start := out.2.1, cover := out.2.2 }

/-- The loop, from window number `j` on. -/
def Loop.run (k : Knobs) : Loop → ℕ → List Window → Loop
  | s, _, [] => s
  | s, j, w :: rest => (s.window k j w rest).run k (j + 1) rest

/-- The entry of MoE item `i`: it demotes the one before, the first the last; a single one
demotes nothing. -/
def moeEntry (items : List (Key × List Segment)) (i : ℕ) (segs : List Segment) : Entry :=
  match items[(i + items.length - 1) % items.length]? with
  | some prev =>
    ⟨segs, some (if 1 < items.length then (prev.2, prev.2.length) else (segs, 0))⟩
  | none => ⟨segs, none⟩

/-- `_make_plan` -/
def makePlan (k : Knobs) (events : List Event) : Plan :=
  let s := Loop.run k ⟨(0, 0), [], [], []⟩ 0 (windows k events)
  s.moeItems.zipIdx.foldl (fun plan p => plan.set p.1.1 (moeEntry s.moeItems p.2 p.1.2)) s.plan

end L2Prefetch

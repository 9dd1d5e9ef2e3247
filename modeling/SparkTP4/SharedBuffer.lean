import Mathlib.Logic.Function.Basic
import SparkTP4.ByteFile
import SparkTP4.Region
import SparkTP4.Transition

/-!
# Jobs that write into one memory

Several jobs write into shared buffers, each into a region of its own, one write
after the other and in any interleaving. When the regions are apart, a job that has
done its writes leaves in its region what it would leave in a private buffer –
whatever the others have written by then, and whatever they write later.

The writes of a job that fills its buffer from the start are *consecutive*: each
begins where the one before ended. What they leave is then the bytes written, and
no longer depends on what the buffer held.
-/

namespace SharedBuffer

/-! ## Writes into one buffer -/

/-- A write: where it begins, and its bytes. -/
abbrev Write : Type := ℕ × Bytes

/-- The buffer after the writes, in their order. -/
def applyWrites (flat : Bytes) (ws : List Write) : Bytes :=
  ws.foldl (fun flat w => flat.splice w.1 w.2) flat

@[simp] theorem applyWrites_nil (flat : Bytes) : applyWrites flat [] = flat := rfl

@[simp] theorem applyWrites_cons (flat : Bytes) (w : Write) (ws : List Write) :
    applyWrites flat (w :: ws) = applyWrites (flat.splice w.1 w.2) ws := rfl

/-- The writes stay within the first `len` bytes. -/
def Inside (len : ℕ) (ws : List Write) : Prop := ∀ w ∈ ws, w.1 + w.2.length ≤ len

/-- The writes follow each other without a gap, from `start` to `stop`. -/
inductive Consecutive : ℕ → List Write → ℕ → Prop
  | nil (start : ℕ) : Consecutive start [] start
  | cons {start stop : ℕ} {piece : Bytes} {ws : List Write} :
      Consecutive (start + piece.length) ws stop → Consecutive start ((start, piece) :: ws) stop

theorem Consecutive.append {a b c : ℕ} {ws ws' : List Write} (h : Consecutive a ws b)
    (h' : Consecutive b ws' c) : Consecutive a (ws ++ ws') c := by
  induction h with
  | nil => exact h'
  | cons _ ih => exact .cons (ih h')

theorem Consecutive.single (start : ℕ) (piece : Bytes) :
    Consecutive start [(start, piece)] (start + piece.length) :=
  .cons (.nil _)

theorem Consecutive.le {a b : ℕ} {ws : List Write} (h : Consecutive a ws b) : a ≤ b := by
  induction h with
  | nil => exact le_rfl
  | cons _ ih => exact (Nat.le_add_right _ _).trans ih

theorem Consecutive.inside {a b : ℕ} {ws : List Write} (h : Consecutive a ws b) : Inside b ws := by
  induction h with
  | nil => exact fun w hw => absurd hw List.not_mem_nil
  | cons hrest ih =>
    intro w hw
    cases List.mem_cons.mp hw with
    | inl heq => exact heq ▸ hrest.le
    | inr hmem => exact ih w hmem

theorem Consecutive.length_flatMap {a b : ℕ} {ws : List Write} (h : Consecutive a ws b) :
    a + (ws.flatMap Prod.snd).length = b := by
  induction h with
  | nil => rfl
  | cons _ ih => rw [List.flatMap_cons, List.length_append, ← Nat.add_assoc, ih]

/-- **Consecutive writes replace** the bytes from their start to their stop. -/
theorem Consecutive.applyWrites_eq {a b : ℕ} {ws : List Write} (h : Consecutive a ws b)
    {flat : Bytes} (hflat : a ≤ flat.length) :
    applyWrites flat ws = flat.take a ++ ws.flatMap Prod.snd ++ flat.drop b := by
  induction h generalizing flat with
  | nil a => simp
  | @cons a b piece ws hrest ih =>
    have htake : (flat.take a ++ piece).length = a + piece.length := by
      rw [List.length_append, List.length_take, min_eq_left hflat]
    have hlen : a + piece.length ≤ (flat.splice a piece).length := by
      rw [Bytes.splice, List.length_append, htake]
      exact Nat.le_add_right _ _
    have hdrop : (flat.splice a piece).drop b = flat.drop b := by
      rw [Bytes.splice, List.drop_append, htake, List.drop_drop,
        List.drop_eq_nil_of_le (htake.le.trans hrest.le), List.nil_append,
        Nat.add_sub_cancel' hrest.le]
    have hkept : (flat.splice a piece).take (a + piece.length) = flat.take a ++ piece := by
      rw [Bytes.splice, List.take_left' htake]
    rw [applyWrites_cons, ih hlen, hkept, hdrop, List.flatMap_cons, List.append_assoc,
      List.append_assoc, List.append_assoc, List.append_assoc]

/-- **Filling a buffer**: what it held before does not matter. -/
theorem Consecutive.applyWrites_fill {flat : Bytes} {ws : List Write}
    (h : Consecutive 0 ws flat.length) : applyWrites flat ws = ws.flatMap Prod.snd := by
  rw [h.applyWrites_eq (Nat.zero_le _), List.drop_length, List.append_nil]
  rfl

/-! ## Writes into a region of a memory -/

/-- A write within the first part of a concatenation. -/
theorem splice_append_left {a b piece : Bytes} {off : ℕ} (h : off + piece.length ≤ a.length) :
    Bytes.splice (a ++ b) off piece = a.splice off piece ++ b := by
  rw [Bytes.splice, Bytes.splice, List.take_append_of_le_length (by omega),
    List.drop_append_of_le_length h, List.append_assoc, List.append_assoc, List.append_assoc]

/-- A write beyond the first part of a concatenation. -/
theorem splice_append_right (a b piece : Bytes) (off : ℕ) :
    Bytes.splice (a ++ b) (a.length + off) piece = a ++ b.splice off piece := by
  rw [Bytes.splice, Bytes.splice, List.take_length_add_append, Nat.add_assoc,
    List.drop_length_add_append, List.append_assoc, List.append_assoc, List.append_assoc]

/-- A region cuts a memory into what is before it, what it holds and what is after it. -/
theorem exists_split {mem : Bytes} {r : Region} (hr : r.stop ≤ mem.length) :
    ∃ before view after : Bytes, mem = before ++ (view ++ after) ∧ before.length = r.off ∧
      view.length = r.len := by
  have hstop : r.off + r.len ≤ mem.length := hr
  refine ⟨mem.take r.off, (mem.drop r.off).take r.len, (mem.drop r.off).drop r.len, ?_, ?_,
    Bytes.length_slice_of_le hstop⟩
  · rw [List.take_append_drop, List.take_append_drop]
  · rw [List.length_take, min_eq_left ((Nat.le_add_right _ _).trans hstop)]

theorem slice_split (before view after : Bytes) :
    Bytes.slice (before ++ (view ++ after)) before.length view.length = view := by
  have hright := Bytes.slice_append_right before (view ++ after) 0 view.length
  rw [Nat.add_zero, Bytes.slice_append_left (Nat.zero_add _).le, Bytes.slice_full] at hright
  exact hright

/-- **A write inside a region** is a write into what the region holds. -/
theorem slice_splice_within {mem piece : Bytes} {r : Region} (hr : r.stop ≤ mem.length) {off : ℕ}
    (hoff : off + piece.length ≤ r.len) :
    (mem.splice (r.off + off) piece).slice r.off r.len =
      (mem.slice r.off r.len).splice off piece := by
  obtain ⟨before, view, after, rfl, hbefore, hview⟩ := exists_split hr
  rw [← hview] at hoff
  have hlen := Bytes.length_splice hoff
  have hslice := slice_split before (view.splice off piece) after
  rw [hlen] at hslice
  rw [← hbefore, ← hview, splice_append_right, splice_append_left hoff, slice_split, hslice]

/-- **A write apart from a region** leaves what the region holds. -/
theorem slice_splice_apart {mem piece : Bytes} {r : Region} (hr : r.stop ≤ mem.length) {off : ℕ}
    (h : r.Apart ⟨off, piece.length⟩) :
    (mem.splice off piece).slice r.off r.len = mem.slice r.off r.len := by
  obtain ⟨before, view, after, rfl, hbefore, hview⟩ := exists_split hr
  rw [← hbefore, ← hview, slice_split]
  cases h with
  | inl hafter =>
    -- the write is in what comes after the region
    obtain ⟨k, rfl⟩ : ∃ k, off = before.length + (view.length + k) :=
      ⟨off - (before.length + view.length), by
        have : r.off + r.len ≤ off := hafter
        omega⟩
    rw [splice_append_right, splice_append_right, slice_split]
  | inr hbeforeWrite =>
    have hoff : off + piece.length ≤ before.length := hbefore ▸ hbeforeWrite
    have hslice := slice_split (before.splice off piece) view after
    rw [Bytes.length_splice hoff] at hslice
    rw [splice_append_left hoff, hslice]

/-! ## Interleaved jobs -/

section Jobs

variable {Buffer Job : Type} [DecidableEq Buffer] [DecidableEq Job]

/-- Where a job writes: a region of a buffer. -/
structure Slot (Buffer : Type) where
  buffer : Buffer
  region : Region

/-- The buffers, and what every job still has to write. -/
structure State (Buffer Job : Type) where
  mem : Buffer → Bytes
  todo : Job → List Write

/-- What a slot holds. -/
def State.view (s : State Buffer Job) (x : Slot Buffer) : Bytes :=
  (s.mem x.buffer).slice x.region.off x.region.len

/-- The next write of a job, at its place in the job's region. -/
def step (slot : Job → Slot Buffer) (s : State Buffer Job) (j : Job) : Option (State Buffer Job) :=
  match s.todo j with
  | [] => none
  | w :: ws => some
    { mem := Function.update s.mem (slot j).buffer
        ((s.mem (slot j).buffer).splice ((slot j).region.off + w.1) w.2)
      todo := Function.update s.todo j ws }

/-- **Jobs that do not meet**: the regions are within their buffers and apart, every job
writes inside its own, and nobody else writes. -/
structure Disjoint (slot : Job → Slot Buffer) (jobs : Job → Prop) (s : State Buffer Job) :
    Prop where
  fits : ∀ j, jobs j → (slot j).region.stop ≤ (s.mem (slot j).buffer).length
  apart : ∀ j k, jobs j → jobs k → j ≠ k → (slot j).buffer = (slot k).buffer →
    (slot j).region.Apart (slot k).region
  inside : ∀ j, jobs j → Inside (slot j).region.len (s.todo j)
  idle : ∀ j, ¬jobs j → s.todo j = []

variable {slot : Job → Slot Buffer} {jobs : Job → Prop} {s s' : State Buffer Job} {j : Job}

/-- The inversion of a step. -/
theorem step_eq_some (h : step slot s j = some s') : ∃ w ws, s.todo j = w :: ws ∧
    s'.mem = Function.update s.mem (slot j).buffer
      ((s.mem (slot j).buffer).splice ((slot j).region.off + w.1) w.2) ∧
    s'.todo = Function.update s.todo j ws := by
  unfold step at h
  cases htodo : s.todo j with
  | nil => rw [htodo] at h; exact nomatch h
  | cons w ws =>
    rw [htodo] at h
    obtain rfl := Option.some.inj h
    exact ⟨w, ws, rfl, rfl, rfl⟩

omit [DecidableEq Buffer] [DecidableEq Job] in
/-- A job that takes a step is one of the jobs, and its write is inside its region. -/
theorem Disjoint.write_inside (hs : Disjoint slot jobs s) {w : Write} {ws : List Write}
    (htodo : s.todo j = w :: ws) : jobs j ∧ w.1 + w.2.length ≤ (slot j).region.len ∧
      (slot j).region.off + w.1 + w.2.length ≤ (s.mem (slot j).buffer).length := by
  have hjob : jobs j := by
    by_contra hnot
    rw [hs.idle j hnot] at htodo
    exact nomatch htodo
  have hinside := hs.inside j hjob w (htodo ▸ List.mem_cons_self)
  have hfits : (slot j).region.off + (slot j).region.len ≤ _ := hs.fits j hjob
  exact ⟨hjob, hinside, by omega⟩

/-- **What one step preserves**: the layout, and for every job what its region will hold when
its writes are done. -/
theorem step_preserves (hs : Disjoint slot jobs s) (h : step slot s j = some s') :
    Disjoint slot jobs s' ∧ ∀ k, jobs k →
      applyWrites (s'.view (slot k)) (s'.todo k) = applyWrites (s.view (slot k)) (s.todo k) := by
  obtain ⟨w, ws, htodo, hmem, htodo'⟩ := step_eq_some h
  obtain ⟨hjob, hinside, hfit⟩ := hs.write_inside htodo
  have hlen : ∀ b, (s'.mem b).length = (s.mem b).length := by
    intro b
    rw [hmem]
    by_cases hb : b = (slot j).buffer
    · rw [hb, Function.update_self, Bytes.length_splice hfit]
    · rw [Function.update_of_ne hb]
  refine ⟨⟨fun k hk => ?_, hs.apart, fun k hk => ?_, fun k hk => ?_⟩, fun k hk => ?_⟩
  · rw [hlen]
    exact hs.fits k hk
  · rw [htodo']
    by_cases hkj : k = j
    · rw [hkj, Function.update_self]
      exact fun x hx => hs.inside j hjob x (htodo ▸ List.mem_cons_of_mem w hx)
    · rw [Function.update_of_ne hkj]
      exact hs.inside k hk
  · rw [htodo', Function.update_of_ne (show k ≠ j from fun hkj => hk (hkj ▸ hjob))]
    exact hs.idle k hk
  · unfold State.view
    rw [hmem, htodo']
    by_cases hkj : k = j
    · -- the job's own write
      subst hkj
      rw [Function.update_self, Function.update_self, htodo, applyWrites_cons,
        slice_splice_within (hs.fits k hk) hinside]
    · rw [Function.update_of_ne hkj]
      by_cases hbuf : (slot k).buffer = (slot j).buffer
      · have hwithin : Region.Within ⟨(slot j).region.off + w.1, w.2.length⟩ (slot j).region :=
          ⟨Nat.le_add_right _ _, by
            show (slot j).region.off + w.1 + w.2.length ≤ (slot j).region.off + (slot j).region.len
            omega⟩
        have hapart := (hs.apart k j hk hjob hkj hbuf).mono ⟨le_rfl, le_rfl⟩ hwithin
        rw [hbuf, Function.update_self, slice_splice_apart (hbuf ▸ hs.fits k hk) hapart]
      · rw [Function.update_of_ne hbuf]

/-- **In any interleaving** a job that has done its writes leaves in its region what its
writes leave in a private buffer. -/
theorem view_of_reachable {start : State Buffer Job} (hstart : Disjoint slot jobs start)
    (h : Transition.Reachable (step slot) (fun _ _ => True) start s) (hj : jobs j)
    (hdone : s.todo j = []) :
    s.view (slot j) = applyWrites (start.view (slot j)) (start.todo j) := by
  have hinv := h.invariant (fun t => Disjoint slot jobs t ∧ ∀ k, jobs k →
      applyWrites (t.view (slot k)) (t.todo k) = applyWrites (start.view (slot k)) (start.todo k))
    ⟨hstart, fun _ _ => rfl⟩ fun t a t' ⟨ht, hview⟩ _ hstep => by
      obtain ⟨ht', hkeep⟩ := step_preserves ht hstep
      exact ⟨ht', fun k hk => (hkeep k hk).trans (hview k hk)⟩
  have hview := hinv.2 j hj
  rw [hdone, applyWrites_nil] at hview
  exact hview

end Jobs

end SharedBuffer

import Mathlib.Logic.Function.Basic
import Mathlib.Data.List.Pairwise

/-!
# Copies in place by parallel lanes

A task copies one cell of a memory to another cell of the same memory: it loads its source
into a register of its own, and later stores that register to its destination. Many tasks run
at once, and their loads and stores interleave in any way. A task may be masked off – its load
then gives a constant and its store does nothing.

If the destination of a task is no other task's source and no other task's destination, the
order cannot be seen: what a task has stored is what the memory held at its source before any
of them ran. `Copying` is the invariant, over any memory, any tasks and any contents.
-/

namespace LaneCopy

variable {A T α : Type*}

/-- The memory, and the register of each task. -/
structure Cells (A T α : Type*) where
  mem : A → α
  reg : T → Option α

/-- A task's two accesses. -/
inductive Access where
  | load
  | store
  deriving DecidableEq

/-- What the tasks copy. -/
structure Tasks (A T : Type*) where
  src : T → A
  dst : T → A
  /-- The mask. -/
  active : T → Bool

variable [DecidableEq A] [DecidableEq T]

/-- A masked load. -/
def Cells.load (J : Tasks A T) (other : α) (t : T) (c : Cells A T α) : Cells A T α :=
  { c with reg := Function.update c.reg t (some (if J.active t then c.mem (J.src t) else other)) }

/-- A masked store. -/
def Cells.store (J : Tasks A T) (t : T) (c : Cells A T α) : Cells A T α :=
  match c.reg t with
  | none => c
  | some v => if J.active t then { c with mem := Function.update c.mem (J.dst t) v } else c

/-- One access of a task. -/
def Cells.access (J : Tasks A T) (other : α) (t : T) : Access → Cells A T α → Cells A T α
  | .load, c => c.load J other t
  | .store, c => c.store J t

/-- **The destinations are private**: none is read by a task, and none has two writers. -/
structure Tasks.Private (J : Tasks A T) : Prop where
  unread : ∀ t t', J.active t → J.active t' → J.src t ≠ J.dst t'
  unshared : ∀ t t', J.active t → J.active t' → J.dst t = J.dst t' → t = t'

/-- **The invariant of the copies.** `loaded` and `stored` are the tasks that have made the
access, and `mem₀` is the memory they started with. -/
structure Copying (J : Tasks A T) (mem₀ : A → α) (loaded stored : T → Prop)
    (c : Cells A T α) : Prop where
  kept : ∀ a, (∀ t, J.active t → J.dst t ≠ a) → c.mem a = mem₀ a
  reg : ∀ t, J.active t → loaded t → c.reg t = some (mem₀ (J.src t))
  mem : ∀ t, J.active t → stored t → c.mem (J.dst t) = mem₀ (J.src t)

variable {J : Tasks A T} {mem₀ : A → α} {loaded stored loaded' stored' : T → Prop}
  {c : Cells A T α}

omit [DecidableEq A] [DecidableEq T] in
theorem Copying.start (J : Tasks A T) (c : Cells A T α)
    (hl : ∀ t, J.active t → ¬ loaded t) (hs : ∀ t, J.active t → ¬ stored t) :
    Copying J c.mem loaded stored c :=
  ⟨fun _ _ => rfl, fun t ht h => absurd h (hl t ht), fun t ht h => absurd h (hs t ht)⟩

omit [DecidableEq A] [DecidableEq T] in
theorem Copying.mono (h : Copying J mem₀ loaded stored c)
    (hl : ∀ t, J.active t → loaded' t → loaded t)
    (hs : ∀ t, J.active t → stored' t → stored t) : Copying J mem₀ loaded' stored' c :=
  ⟨h.kept, fun t ht h' => h.reg t ht (hl t ht h'), fun t ht h' => h.mem t ht (hs t ht h')⟩

omit [DecidableEq A] in
/-- A load reads what the source held at the start: no task writes it. -/
theorem Copying.load (hJ : J.Private) (h : Copying J mem₀ loaded stored c) (other : α) (t : T)
    (hl : ∀ t', J.active t' → loaded' t' → loaded t' ∨ t' = t) :
    Copying J mem₀ loaded' stored (c.load J other t) where
  kept := h.kept
  mem := h.mem
  reg := by
    intro t' ht' hloaded
    show Function.update c.reg t _ t' = _
    by_cases heq : t' = t
    · subst heq
      rw [Function.update_self, if_pos ht', h.kept]
      exact fun u hu => (hJ.unread t' u ht' hu).symm
    · rw [Function.update_of_ne heq]
      exact h.reg t' ht' ((hl t' ht' hloaded).resolve_right heq)

/-- A store of a task that has loaded. -/
theorem Copying.store (hJ : J.Private) (h : Copying J mem₀ loaded stored c) (t : T)
    (hload : loaded t) (hs : ∀ t', J.active t' → stored' t' → stored t' ∨ t' = t) :
    Copying J mem₀ loaded stored' (c.store J t) := by
  by_cases ht : J.active t = true
  · have hstore :
        c.store J t = { c with mem := Function.update c.mem (J.dst t) (mem₀ (J.src t)) } := by
      unfold Cells.store
      rw [h.reg t ht hload]
      exact if_pos ht
    rw [hstore]
    refine ⟨fun a ha => ?_, h.reg, fun t' ht' hstored => ?_⟩
    · show Function.update c.mem _ _ a = _
      rw [Function.update_of_ne (ha t ht).symm, h.kept a ha]
    · show Function.update c.mem _ _ (J.dst t') = _
      by_cases heq : t' = t
      · rw [heq, Function.update_self]
      · rw [Function.update_of_ne fun hd => heq (hJ.unshared t' t ht' ht hd)]
        exact h.mem t' ht' ((hs t' ht' hstored).resolve_right heq)
  · -- a masked-off task stores nothing
    have hstore : c.store J t = c := by
      unfold Cells.store
      cases c.reg t with
      | none => rfl
      | some v => exact if_neg ht
    rw [hstore]
    refine h.mono (fun _ _ => id) fun t' ht' hstored => ?_
    exact (hs t' ht' hstored).resolve_right fun heq => ht (heq ▸ ht')

/-- **An access keeps the invariant**, a store after its load. -/
theorem Copying.access (hJ : J.Private) (h : Copying J mem₀ loaded stored c) (other : α) (t : T)
    (a : Access) (horder : a = .store → loaded t)
    (hl : ∀ t', J.active t' → loaded' t' → loaded t' ∨ (a = .load ∧ t' = t))
    (hs : ∀ t', J.active t' → stored' t' → stored t' ∨ (a = .store ∧ t' = t)) :
    Copying J mem₀ loaded' stored' (c.access J other t a) := by
  cases a with
  | load =>
    have hstep := h.load hJ other t fun t' ht' h' => (hl t' ht' h').imp_right And.right
    refine hstep.mono (fun _ _ => id) fun t' ht' h' => (hs t' ht' h').resolve_right ?_
    exact fun h' => Access.noConfusion h'.1
  | store =>
    have hstep := h.store hJ t (horder rfl) fun t' ht' h' => (hs t' ht' h').imp_right And.right
    refine hstep.mono (fun t' ht' h' => (hl t' ht' h').resolve_right ?_) fun _ _ => id
    exact fun h' => Access.noConfusion h'.1

end LaneCopy

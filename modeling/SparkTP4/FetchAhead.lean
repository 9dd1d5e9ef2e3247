import Mathlib.Data.List.Nodup
import Mathlib.Data.List.Perm.Basic
import Mathlib.Data.List.TakeDrop

/-!
# Fetching ahead along a sequence of windows

Work is divided into windows, each of which reads its own units in order. A window also
has a budget of units to fetch before they are read, and spends it in one of three ways.

* An **own** window fetches its own units, from the first that nobody holds yet; one that
  looks ahead spends what is left on the units of the next window.
* A **mark** has no units. It fetches for the windows after it, up to the next mark.
* A **split** window fetches some of its first units and some of those from a given unit
  on. It does not ask what is held.

Two numbers describe what is held: what is left of the last mark's budget, and how many
units of the coming window the look-ahead of the window before it reached. Nothing is
fetched twice exactly where every split window is `Apart` from what is held of it
(`nodup_run_iff`).
-/

namespace FetchAhead

variable {α : Type}

/-- How a window spends its budget. -/
inductive Kind
  | mark
  | own (ahead : Bool)
  | split (first second : ℕ)

/-- A window: a budget and the units it reads. -/
structure Window (α : Type) where
  kind : Kind
  budget : ℕ
  units : List α

/-- Whether the window is a mark. -/
def Window.isMark (w : Window α) : Bool :=
  match w.kind with
  | .mark => true
  | _ => false

/-- The units of the window that comes next. -/
def next : List (Window α) → List α
  | [] => []
  | w :: _ => w.units

/-- What a mark with `m` units fetches: the first `m` up to the next mark. -/
def reach : ℕ → List (Window α) → List α
  | _, [] => []
  | m, w :: ws =>
    if w.isMark then [] else w.units.take m ++ reach (m - w.units.length) ws

/-- The units held of a window when it comes: by a mark with `m` units left, or by a
look-ahead that reached `a`. -/
def Window.entry (m a : ℕ) (w : Window α) : ℕ := max a (min w.units.length m)

/-- What a window fetches of its own units. -/
def Window.fetch (m a : ℕ) (w : Window α) : List α :=
  match w.kind with
  | .mark => []
  | .own _ => (w.units.drop (w.entry m a)).take w.budget
  | .split first second => (w.units.take first).take w.budget ++ (w.units.drop first).take second

/-- What is left for looking ahead. -/
def Window.spare (m a : ℕ) (w : Window α) : ℕ :=
  match w.kind with
  | .own true => w.budget - (w.fetch m a).length
  | _ => 0

/-- The look-ahead: units of the next window, from what a mark holds on. -/
def lookAhead (m left : ℕ) (ws : List (Window α)) : List α :=
  ((next ws).drop (min (next ws).length m)).take left

/-- How far into the next window the look-ahead reaches. -/
def cursor (m left : ℕ) (ws : List (Window α)) : ℕ :=
  if left = 0 then 0 else min (next ws).length (min (next ws).length m + left)

/-- What every window fetches. -/
def run : ℕ → ℕ → List (Window α) → List (List α)
  | _, _, [] => []
  | m, a, w :: ws =>
    if w.isMark then reach w.budget ws :: run w.budget 0 ws
    else (w.fetch m a ++ lookAhead (m - w.units.length) (w.spare m a) ws) ::
      run (m - w.units.length) (cursor (m - w.units.length) (w.spare m a) ws) ws

/-! ## What is held and what is fetched -/

/-- The units held of the coming windows. -/
def held (m a : ℕ) : List (Window α) → List α
  | [] => []
  | w :: ws =>
    if w.isMark then [] else w.units.take (w.entry m a) ++ reach (m - w.units.length) ws

/-- Per window, the units held of it when it comes and those it fetches of its own. -/
def shares : ℕ → ℕ → List (Window α) → List (List α)
  | _, _, [] => []
  | m, a, w :: ws =>
    if w.isMark then shares w.budget 0 ws
    else (w.units.take (w.entry m a) ++ w.fetch m a) ::
      shares (m - w.units.length) (cursor (m - w.units.length) (w.spare m a) ws) ws

/-- Marks read nothing. -/
def MarksEmpty (ws : List (Window α)) : Prop := ∀ w ∈ ws, w.isMark → w.units = []

theorem MarksEmpty.tail {w : Window α} {ws : List (Window α)} (h : MarksEmpty (w :: ws)) :
    MarksEmpty ws := fun v hv => h v (List.mem_cons_of_mem w hv)

theorem Window.take_entry_zero (m : ℕ) (w : Window α) :
    w.units.take (w.entry m 0) = w.units.take m := by
  rw [Window.entry, Nat.zero_max, Nat.min_comm, ← List.take_eq_take_min]

theorem held_zero (m : ℕ) (ws : List (Window α)) : held m 0 ws = reach m ws := by
  cases ws with
  | nil => rfl
  | cons w ws => rw [held, reach, Window.take_entry_zero]

/-- What the look-ahead reaches is held of the next window. -/
theorem reach_append_lookAhead (m left : ℕ) {ws : List (Window α)} (h : MarksEmpty ws) :
    (reach m ws ++ lookAhead m left ws).Perm (held m (cursor m left ws) ws) := by
  by_cases hleft : left = 0
  · subst hleft
    rw [cursor, if_pos rfl, held_zero, lookAhead, List.take_zero, List.append_nil]
  cases ws with
  | nil => simp [lookAhead, reach, held, next]
  | cons w ws =>
    by_cases hw : w.isMark
    · have hempty := h w List.mem_cons_self hw
      simp [lookAhead, reach, held, next, hw, hempty]
    rw [reach, held, if_neg hw, if_neg hw, lookAhead, cursor, if_neg hleft]
    dsimp only [next]
    have hentry : w.entry m (min w.units.length (min w.units.length m + left)) =
        min w.units.length (min w.units.length m + left) := by
      rw [Window.entry]
      omega
    have hmin : w.units.take m = w.units.take (min w.units.length m) := by
      rw [Nat.min_comm, ← List.take_eq_take_min]
    rw [hentry, Nat.min_comm w.units.length (_ + left), ← List.take_eq_take_min, List.take_add,
      hmin, List.append_assoc, List.append_assoc]
    exact (List.perm_append_comm).append_left _

/-- **What is held and what is fetched from here on** is, window by window, its share. -/
theorem held_append_run (m a : ℕ) {ws : List (Window α)} (h : MarksEmpty ws) :
    (held m a ws ++ (run m a ws).flatten).Perm (shares m a ws).flatten := by
  induction ws generalizing m a with
  | nil => exact List.Perm.refl _
  | cons w ws ih =>
    by_cases hw : w.isMark
    · rw [held, run, shares, if_pos hw, if_pos hw, if_pos hw, List.nil_append, List.flatten_cons,
        ← held_zero]
      exact ih w.budget 0 h.tail
    rw [held, run, shares, if_neg hw, if_neg hw, if_neg hw, List.flatten_cons, List.flatten_cons]
    have hnext := reach_append_lookAhead (m - w.units.length) (w.spare m a) h.tail
    have hrest := ih (m - w.units.length)
      (cursor (m - w.units.length) (w.spare m a) ws) h.tail
    simp only [List.append_assoc]
    refine List.Perm.append_left _ ?_
    refine List.Perm.trans ?_ (((hnext.append_right _).trans hrest).append_left (w.fetch m a))
    -- what is held moves behind the window's own units
    rw [List.append_assoc]
    exact List.perm_append_comm_assoc _ _ _

/-! ## Nothing twice -/

/-- A window fetches its own units only. -/
theorem Window.fetch_subset (m a : ℕ) (w : Window α) : w.fetch m a ⊆ w.units := by
  unfold Window.fetch
  cases w.kind with
  | mark => exact List.nil_subset _
  | own ahead => exact fun x hx => List.mem_of_mem_drop (List.mem_of_mem_take hx)
  | split first second =>
    refine List.append_subset.mpr ⟨fun x hx => ?_, fun x hx => ?_⟩
    · exact List.mem_of_mem_take (List.mem_of_mem_take hx)
    · exact List.mem_of_mem_drop (List.mem_of_mem_take hx)

theorem shares_subset (m a : ℕ) (ws : List (Window α)) :
    (shares m a ws).flatten ⊆ ws.flatMap (·.units) := by
  induction ws generalizing m a with
  | nil => exact List.nil_subset _
  | cons w ws ih =>
    rw [List.flatMap_cons]
    by_cases hw : w.isMark
    · rw [shares, if_pos hw]
      exact fun x hx => List.mem_append_right _ (ih _ _ hx)
    rw [shares, if_neg hw, List.flatten_cons]
    refine List.append_subset.mpr ⟨List.append_subset.mpr ⟨fun x hx => ?_, fun x hx => ?_⟩,
      fun x hx => ?_⟩
    · exact List.mem_append_left _ (List.mem_of_mem_take hx)
    · exact List.mem_append_left _ (w.fetch_subset m a hx)
    · exact List.mem_append_right _ (ih _ _ hx)

/-- A split window takes nothing of what is held. -/
def Window.Apart (m a : ℕ) (w : Window α) : Prop :=
  match w.kind with
  | .split first second =>
    w.entry m a = 0 ∨ min first w.budget = 0 ∧ (w.entry m a ≤ first ∨ second = 0)
  | _ => True

/-- Every split window is apart from what is held of it. -/
def Clear : ℕ → ℕ → List (Window α) → Prop
  | _, _, [] => True
  | m, a, w :: ws =>
    if w.isMark then Clear w.budget 0 ws
    else w.Apart m a ∧
      Clear (m - w.units.length) (cursor (m - w.units.length) (w.spare m a) ws) ws

/-- A first part and a part from later on. -/
theorem take_append_take_drop_sublist (u : List α) {i j : ℕ} (h : i ≤ j) (k : ℕ) :
    (u.take i ++ (u.drop j).take k).Sublist u := by
  have hparts := List.Sublist.append (List.take_sublist_take_left (l := u) h)
    (List.take_sublist k (u.drop j))
  rwa [List.take_append_drop] at hparts

/-- A held part and a first part have the first unit in common. -/
theorem not_nodup_take_take {u : List α} {e k : ℕ} (he : e ≠ 0) (hk : k ≠ 0) (hu : u ≠ [])
    (rest : List α) : ¬ (u.take e ++ (u.take k ++ rest)).Nodup := by
  intro hnodup
  obtain ⟨x, u, rfl⟩ := List.exists_cons_of_ne_nil hu
  obtain ⟨e, rfl⟩ := Nat.exists_eq_succ_of_ne_zero he
  obtain ⟨k, rfl⟩ := Nat.exists_eq_succ_of_ne_zero hk
  exact (List.nodup_cons.mp hnodup).1 (by simp)

/-- A held part that is longer reaches into a later one. -/
theorem not_nodup_take_drop {u : List α} {e j k : ℕ} (hj : j < e) (he : e ≤ u.length)
    (hk : k ≠ 0) : ¬ (u.take e ++ (u.drop j).take k).Nodup := by
  intro hnodup
  have hlt : j < u.length := Nat.lt_of_lt_of_le hj he
  have hleft : u[j] ∈ u.take e := List.mem_take_iff_getElem.mpr ⟨j, by omega, rfl⟩
  have hright : u[j] ∈ (u.drop j).take k := by
    refine List.mem_take_iff_getElem.mpr ⟨0, ?_, by simp⟩
    rw [List.length_drop]
    omega
  exact (List.nodup_append.mp hnodup).2.2 _ hleft _ hright rfl

theorem clear_of_not_split {ws : List (Window α)} (h : ∀ w ∈ ws, ∀ f s, w.kind ≠ .split f s)
    (m a : ℕ) : Clear m a ws := by
  induction ws generalizing m a with
  | nil => trivial
  | cons w ws ih =>
    have hrest := ih fun v hv => h v (List.mem_cons_of_mem w hv)
    rw [Clear]
    split
    · exact hrest _ _
    · refine ⟨?_, hrest _ _⟩
      unfold Window.Apart
      split
      · exact absurd ‹_› (h w List.mem_cons_self _ _)
      · trivial

/-- The share of a window has no unit twice exactly where it is apart. -/
theorem Window.nodup_share_iff {m a : ℕ} {w : Window α} (hw : w.isMark = false)
    (hu : w.units.Nodup) (ha : a ≤ w.units.length) :
    (w.units.take (w.entry m a) ++ w.fetch m a).Nodup ↔ w.Apart m a := by
  unfold Window.Apart Window.fetch
  unfold Window.isMark at hw
  cases hk : w.kind with
  | mark =>
    rw [hk] at hw
    exact nomatch hw
  | own ahead =>
    dsimp only
    rw [← List.take_add]
    exact iff_of_true (hu.sublist (List.take_sublist _ _)) trivial
  | split first second =>
    dsimp only
    have he : w.entry m a ≤ w.units.length := Nat.max_le.mpr ⟨ha, Nat.min_le_left _ _⟩
    generalize w.entry m a = e at he
    rw [List.take_take, Nat.min_comm w.budget first]
    have hk : min first w.budget ≤ first := Nat.min_le_left _ _
    generalize min first w.budget = k at hk
    constructor
    · intro hnodup
      by_cases hzero : e = 0
      · exact Or.inl hzero
      have hne : w.units ≠ [] := fun hnil => hzero (by simpa [hnil] using he)
      have hkz : k = 0 := by
        by_contra hkz
        exact not_nodup_take_take hzero hkz hne _ hnodup
      refine Or.inr ⟨hkz, ?_⟩
      by_contra hreach
      obtain ⟨hlt, hsecond⟩ := not_or.mp hreach
      rw [hkz, List.take_zero, List.nil_append] at hnodup
      exact not_nodup_take_drop (Nat.lt_of_not_le hlt) he hsecond hnodup
    · rintro (rfl | ⟨rfl, hfirst | rfl⟩)
      · rw [List.take_zero, List.nil_append]
        exact hu.sublist (take_append_take_drop_sublist w.units hk second)
      · rw [List.take_zero, List.nil_append]
        exact hu.sublist (take_append_take_drop_sublist w.units hfirst second)
      · rw [List.take_zero, List.take_zero, List.append_nil, List.append_nil]
        exact hu.sublist (List.take_sublist _ _)

theorem cursor_le (m left : ℕ) (ws : List (Window α)) : cursor m left ws ≤ (next ws).length := by
  unfold cursor
  split
  · exact Nat.zero_le _
  · exact Nat.min_le_left _ _

/-- The shares are apart from one another: windows read different units. -/
theorem nodup_shares_iff (m a : ℕ) {ws : List (Window α)} (hu : (ws.flatMap (·.units)).Nodup)
    (ha : a ≤ (next ws).length) : (shares m a ws).flatten.Nodup ↔ Clear m a ws := by
  induction ws generalizing m a with
  | nil => exact iff_of_true List.nodup_nil trivial
  | cons w ws ih =>
    rw [List.flatMap_cons] at hu
    obtain ⟨hw, hws, hapart⟩ := List.nodup_append.mp hu
    by_cases hmark : w.isMark
    · rw [shares, Clear, if_pos hmark, if_pos hmark]
      exact ih w.budget 0 hws (Nat.zero_le _)
    have hrest := ih (m - w.units.length) (cursor (m - w.units.length) (w.spare m a) ws) hws
      (cursor_le _ _ _)
    have hhead := Window.nodup_share_iff (m := m) (a := a) (Bool.not_eq_true _ ▸ hmark) hw ha
    rw [shares, Clear, if_neg hmark, if_neg hmark, List.flatten_cons, List.nodup_append, hhead,
      hrest]
    refine and_congr_right fun _ => and_iff_left fun x hx y hy => hapart x ?_ y ?_
    · rcases List.mem_append.mp hx with hx | hx
      · exact List.mem_of_mem_take hx
      · exact w.fetch_subset m a hx
    · exact shares_subset _ _ ws hy

/-- **Nothing is fetched twice** exactly where every split window is apart from what is held
of it. -/
theorem nodup_run_iff {ws : List (Window α)} (hmarks : MarksEmpty ws)
    (hu : (ws.flatMap (·.units)).Nodup) : (run 0 0 ws).flatten.Nodup ↔ Clear 0 0 ws := by
  have hperm := held_append_run 0 0 hmarks
  have hheld : held 0 0 ws = [] := by
    rw [held_zero]
    clear hmarks hu hperm
    induction ws with
    | nil => rfl
    | cons w ws ih =>
      rw [reach, List.take_zero, Nat.zero_sub, List.nil_append, ih]
      exact ite_self _
  rw [hheld, List.nil_append] at hperm
  rw [hperm.nodup_iff, nodup_shares_iff 0 0 hu (Nat.zero_le _)]

/-! ## Order and budgets -/

/-- What a window may fetch in all. -/
def Window.limit (w : Window α) : ℕ :=
  match w.kind with
  | .split _ second => w.budget + second
  | _ => w.budget

theorem reach_sublist (m : ℕ) (ws : List (Window α)) :
    (reach m ws).Sublist (ws.flatMap (·.units)) := by
  induction ws generalizing m with
  | nil => exact List.Sublist.refl _
  | cons w ws ih =>
    rw [reach, List.flatMap_cons]
    split
    · exact List.nil_sublist _
    · exact (List.take_sublist _ _).append (ih _)

theorem length_reach_le (m : ℕ) (ws : List (Window α)) : (reach m ws).length ≤ m := by
  induction ws generalizing m with
  | nil => exact Nat.zero_le _
  | cons w ws ih =>
    rw [reach]
    split
    · exact Nat.zero_le _
    · have hrest := ih (m - w.units.length)
      rw [List.length_append, List.length_take]
      omega

theorem next_sublist (ws : List (Window α)) : (next ws).Sublist (ws.flatMap (·.units)) := by
  cases ws with
  | nil => exact List.Sublist.refl _
  | cons w ws => exact List.sublist_append_left _ _

theorem lookAhead_sublist (m left : ℕ) (ws : List (Window α)) :
    (lookAhead m left ws).Sublist (ws.flatMap (·.units)) :=
  ((List.take_sublist _ _).trans (List.drop_sublist _ _)).trans (next_sublist ws)

theorem length_lookAhead_le (m left : ℕ) (ws : List (Window α)) :
    (lookAhead m left ws).length ≤ left := List.length_take_le _ _

theorem Window.fetch_sublist (m a : ℕ) (w : Window α) : (w.fetch m a).Sublist w.units := by
  unfold Window.fetch
  cases w.kind with
  | mark => exact List.nil_sublist _
  | own ahead => exact (List.take_sublist _ _).trans (List.drop_sublist _ _)
  | split first second =>
    dsimp only
    rw [List.take_take]
    exact take_append_take_drop_sublist w.units (Nat.min_le_right _ _) second

theorem Window.length_fetch_add_spare_le (m a : ℕ) (w : Window α) :
    (w.fetch m a).length + w.spare m a ≤ w.limit := by
  unfold Window.fetch Window.spare Window.limit Window.fetch
  cases w.kind with
  | mark => exact Nat.zero_le _
  | own ahead =>
    have hlen := List.length_take_le w.budget (w.units.drop (w.entry m a))
    cases ahead with
    | true => dsimp only; omega
    | false => exact hlen
  | split first second =>
    have hfirst := List.length_take_le w.budget (w.units.take first)
    have hsecond := List.length_take_le second (w.units.drop first)
    dsimp only
    rw [List.length_append]
    omega

/-- **Every window keeps to its budget and to the order of reading.** -/
theorem run_forall₂ (m a : ℕ) {ws : List (Window α)} {all : List α}
    (hall : (ws.flatMap (·.units)).Sublist all) :
    List.Forall₂ (fun fetched w => fetched.length ≤ w.limit ∧ fetched.Sublist all)
      (run m a ws) ws := by
  induction ws generalizing m a with
  | nil => exact List.Forall₂.nil
  | cons w ws ih =>
    rw [List.flatMap_cons] at hall
    have hrest : (ws.flatMap (·.units)).Sublist all :=
      (List.sublist_append_right _ _).trans hall
    rw [run]
    by_cases hmark : w.isMark
    · rw [if_pos hmark]
      have hlimit : w.limit = w.budget := by
        unfold Window.isMark at hmark
        unfold Window.limit
        cases hk : w.kind <;> simp_all
      refine List.Forall₂.cons ⟨?_, (reach_sublist _ _).trans hrest⟩ (ih _ _ hrest)
      rw [hlimit]
      exact length_reach_le _ _
    · rw [if_neg hmark]
      refine List.Forall₂.cons ⟨?_, ?_⟩ (ih _ _ hrest)
      · have hown := w.length_fetch_add_spare_le m a
        have hahead := length_lookAhead_le (m - w.units.length) (w.spare m a) ws
        rw [List.length_append]
        omega
      · exact ((w.fetch_sublist m a).append (lookAhead_sublist _ _ ws)).trans hall

/-- With neither marks nor look-ahead every window fetches the first units of its own. -/
theorem run_of_own {ws : List (Window α)} (h : ∀ w ∈ ws, w.kind = .own false) :
    run 0 0 ws = ws.map fun w => w.units.take w.budget := by
  induction ws with
  | nil => rfl
  | cons w ws ih =>
    have hw := h w List.mem_cons_self
    have hrest := ih fun v hv => h v (List.mem_cons_of_mem w hv)
    have hmark : w.isMark = false := by
      rw [Window.isMark, hw]
    have hspare : w.spare 0 0 = 0 := by
      rw [Window.spare, hw]
    have hfetch : w.fetch 0 0 = w.units.take w.budget := by
      rw [Window.fetch, hw]
      simp [Window.entry]
    rw [run, hmark, if_neg Bool.false_ne_true, hspare, hfetch, cursor, if_pos rfl, Nat.zero_sub,
      hrest, lookAhead, List.take_zero, List.append_nil, List.map_cons]

end FetchAhead

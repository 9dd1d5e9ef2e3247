import Mathlib.Data.List.Nodup
import SparkTP4.L2PrefetchPlan

/-!
# The windows of a record

What the plan needs to know of its windows (`Built`): their queues, one after another, are
the reads of the record in order; MoE marks collect nothing; no two windows have one key;
each has the budget of its kind.
-/

namespace L2Prefetch

variable {k : Knobs}

/-! ## The numbers of a record -/

/-- The key an event may give a window. -/
def Event.key? : Event → Option Key
  | .c n => some (.c n)
  | .e n => some (.e n)
  | .L n => some (.l n)
  | .m n => some (.m n)
  | .w _ _ => none
  | .r _ _ _ => none

/-- The keys of a record. -/
def keysOf (events : List Event) : List Key := events.filterMap Event.key?

theorem keysOf_append (es es' : List Event) : keysOf (es ++ es') = keysOf es ++ keysOf es' :=
  List.filterMap_append

/-- The counter a key was counted by. -/
def Recorder.counted (s : Recorder) : Key → Prop
  | .c n => n ≤ s.idx
  | .e n => n ≤ s.eng
  | .l n => n ≤ s.lin
  | .m n => n ≤ s.moe

/-- A recorder has numbered what it has counted, once. -/
structure Recorder.Numbered (s : Recorder) : Prop where
  nodup : (keysOf s.events).Nodup
  counted : ∀ key ∈ keysOf s.events, s.counted key

/-- Counters only grow. -/
theorem Recorder.counted_mono {s t : Recorder} (hc : s.idx ≤ t.idx) (he : s.eng ≤ t.eng)
    (hl : s.lin ≤ t.lin) (hm : s.moe ≤ t.moe) {key : Key} (h : s.counted key) : t.counted key := by
  cases key with
  | c n => exact Nat.le_trans h hc
  | e n => exact Nat.le_trans h he
  | l n => exact Nat.le_trans h hl
  | m n => exact Nat.le_trans h hm

/-- A recorder that counts one more. -/
theorem Recorder.Numbered.count {s t : Recorder} (h : s.Numbered) (ev : Event) (key : Key)
    (hkey : ev.key? = some key) (hevents : t.events = s.events ++ [ev])
    (hmono : ∀ key, s.counted key → t.counted key) (hold : ¬ s.counted key)
    (hnew : t.counted key) : t.Numbered := by
  have hkeys : keysOf t.events = keysOf s.events ++ [key] := by
    rw [hevents, keysOf_append, keysOf, keysOf, List.filterMap_cons, hkey]
    rfl
  refine ⟨?_, fun key' hmem => ?_⟩
  · rw [hkeys, List.nodup_append]
    refine ⟨h.nodup, List.nodup_singleton key, fun a ha b hb hab => ?_⟩
    rw [List.mem_singleton.mp hb] at hab
    exact hold (hab ▸ h.counted a ha)
  · rw [hkeys] at hmem
    rcases List.mem_append.mp hmem with hmem | hmem
    · exact hmono key' (h.counted key' hmem)
    · rw [List.mem_singleton.mp hmem]
      exact hnew

/-- A read is not counted. -/
theorem Recorder.Numbered.read {s : Recorder} (h : s.Numbered) {ev : Event}
    (hkey : ev.key? = none) : Recorder.Numbered { s with events := s.events ++ [ev] } := by
  have hkeys : keysOf (s.events ++ [ev]) = keysOf s.events := by
    rw [keysOf_append, keysOf, keysOf, List.filterMap_cons, hkey]
    exact List.append_nil _
  refine ⟨?_, fun key hmem => ?_⟩
  · show (keysOf (s.events ++ [ev])).Nodup
    rw [hkeys]
    exact h.nodup
  · have hmem' : key ∈ keysOf (s.events ++ [ev]) := hmem
    rw [hkeys] at hmem'
    have hold := h.counted key hmem'
    cases key <;> exact hold

theorem Recorder.Numbered.call {s : Recorder} (h : s.Numbered) (call : Call) :
    (s.call k call).Numbered := by
  have hmono : ∀ {t : Recorder}, s.idx ≤ t.idx → s.eng ≤ t.eng → s.lin ≤ t.lin → s.moe ≤ t.moe →
      ∀ key, s.counted key → t.counted key :=
    fun hc he hl hm key => Recorder.counted_mono hc he hl hm
  cases call with
  | collective =>
    exact h.count (.c (s.idx + 1)) (.c (s.idx + 1)) rfl rfl
      (hmono (Nat.le_succ _) (Nat.le_refl _) (Nat.le_refl _) (Nat.le_refl _))
      (Nat.not_succ_le_self _) (Nat.le_refl _)
  | linear =>
    dsimp only [Recorder.call]
    split
    · exact h.count (.L (s.lin + 1)) (.l (s.lin + 1)) rfl rfl
        (hmono (Nat.le_refl _) (Nat.le_refl _) (Nat.le_succ _) (Nat.le_refl _))
        (Nat.not_succ_le_self _) (Nat.le_refl _)
    · exact h
  | woA ptr nbytes =>
    dsimp only [Recorder.call]
    split
    · exact h.read rfl
    · exact h
  | weight ptr nbytes rows => exact h.read rfl
  | engramJoin =>
    dsimp only [Recorder.call]
    split
    · exact h.count (.e (s.eng + 1)) (.e (s.eng + 1)) rfl rfl
        (hmono (Nat.le_refl _) (Nat.le_succ _) (Nat.le_refl _) (Nat.le_refl _))
        (Nat.not_succ_le_self _) (Nat.le_refl _)
    · exact h
  | router =>
    dsimp only [Recorder.call]
    split
    · exact h.count (.m (s.moe + 1)) (.m (s.moe + 1)) rfl rfl
        (hmono (Nat.le_refl _) (Nat.le_refl _) (Nat.le_refl _) (Nat.le_succ _))
        (Nat.not_succ_le_self _) (Nat.le_refl _)
    · exact h

theorem Recorder.numbered_zero : Recorder.Numbered ⟨0, 0, 0, 0, []⟩ where
  nodup := List.nodup_nil
  counted _ h := nomatch h

theorem Recorder.Numbered.foldl {s : Recorder} (h : s.Numbered) (calls : List Call) :
    (calls.foldl (Recorder.call k) s).Numbered := by
  induction calls generalizing s with
  | nil => exact h
  | cons call calls ih => exact ih (h.call call)

/-- **No number is recorded twice.** -/
theorem nodup_keysOf_record (k : Knobs) (calls : List Call) : (keysOf (record k calls)).Nodup :=
  (Recorder.numbered_zero.foldl calls).nodup

/-! ## Building -/

/-- The reads of the windows, one after another. -/
def flat (ws : List Window) : List Item := ws.flatMap (·.queue)

theorem flat_append (ws ws' : List Window) : flat (ws ++ ws') = flat ws ++ flat ws' :=
  List.flatMap_append

theorem flat_cons (w : Window) (ws : List Window) : flat (w :: ws) = w.queue ++ flat ws :=
  List.flatMap_cons

theorem flat_eq_nil {ws : List Window} (h : ∀ w ∈ ws, w.queue = []) : flat ws = [] :=
  List.flatMap_eq_nil_iff.mpr h

/-- The budget of a kind of window. -/
def budgetOf (k : Knobs) : Key → ℕ
  | .c _ => k.mb.toNat
  | .e _ => k.engramMb.toNat
  | .l _ => k.woaMb.toNat
  | .m _ => k.moeMb.toNat

/-- The weight an event reads. -/
def Event.weight? : Event → Option (ℕ × ℕ)
  | .w ptr nbytes => some (ptr, nbytes)
  | .r ptr nbytes _ => some (ptr, nbytes)
  | _ => none

/-- An item is a read of the record. -/
def Item.IsRead (events : List Event) (it : Item) : Prop :=
  ∃ ev, events[it.read]? = some ev ∧ ev.weight? = some (it.ptr, it.nbytes)

/-- What holds of a list of windows. -/
structure Built (k : Knobs) (events : List Event) (ws : List Window) : Prop where
  order : (flat ws).Pairwise fun a b => a.read < b.read
  reads : ∀ it ∈ flat ws, it.IsRead events
  empty : MarksEmpty ws
  keys : (ws.map (·.key)).Nodup
  budget : ∀ w ∈ ws, w.budget = budgetOf k w.key

/-- The window that collects: everything after it is a mark. -/
def Collects (ws : List Window) (j : ℕ) : Prop :=
  ∃ pre w post, ws = pre ++ w :: post ∧ pre.length = j ∧ ¬ w.isMark ∧ ∀ v ∈ post, v.isMark

/-- What holds of the state after `events`; the last linear has not opened a window. -/
structure Builder.Inv (k : Knobs) (events : List Event) (s : Builder) : Prop where
  built : Built k events s.windows
  cur : ∀ j, s.cur = some j → Collects s.windows j
  source : ∀ w ∈ s.windows, w.key ∈ keysOf events
  last : ∀ owner pos lin, s.lastLin = some (owner, pos, lin) →
    Key.l lin ∈ keysOf events ∧ Key.l lin ∉ s.windows.map (·.key)

section Steps

variable {es : List Event} {ev : Event} {ws : List Window} {s : Builder}

theorem Item.IsRead.append {it : Item} (h : it.IsRead es) (es' : List Event) :
    it.IsRead (es ++ es') := by
  obtain ⟨ev, hev, hweight⟩ := h
  obtain ⟨hlt, -⟩ := List.getElem?_eq_some_iff.mp hev
  exact ⟨ev, by rw [List.getElem?_append_left hlt, hev], hweight⟩

theorem Item.IsRead.lt {it : Item} (h : it.IsRead es) : it.read < es.length := by
  obtain ⟨ev, hev, -⟩ := h
  exact (List.getElem?_eq_some_iff.mp hev).1

theorem mem_keysOf_append {key : Key} (h : key ∈ keysOf es) : key ∈ keysOf (es ++ [ev]) := by
  rw [keysOf_append]
  exact List.mem_append_left _ h

/-- The key of the last event is new. -/
theorem not_mem_keysOf {key : Key} (hnodup : (keysOf (es ++ [ev])).Nodup)
    (hkey : ev.key? = some key) : key ∉ keysOf es := by
  have hlast : keysOf [ev] = [key] := by
    rw [keysOf, List.filterMap_cons, hkey]
    rfl
  rw [keysOf_append, hlast] at hnodup
  exact fun hmem => (List.nodup_append.mp hnodup).2.2 key hmem key (List.mem_singleton_self key) rfl

theorem mem_keysOf_last {key : Key} (hkey : ev.key? = some key) : key ∈ keysOf (es ++ [ev]) := by
  rw [keysOf_append]
  refine List.mem_append_right _ ?_
  rw [keysOf, List.filterMap_cons, hkey]
  exact List.mem_singleton_self key

theorem modify_append_cons {α : Type} (f : α → α) (pre : List α) (x : α) (post : List α) :
    (pre ++ x :: post).modify pre.length f = pre ++ f x :: post := by
  induction pre with
  | nil => rfl
  | cons y pre ih => exact congrArg (y :: ·) ih

/-- Marks collect nothing, so a window that collects is the last with reads. -/
theorem flat_collects {pre post : List Window} {w : Window} (hpost : ∀ v ∈ post, v.isMark)
    (hempty : MarksEmpty (pre ++ w :: post)) :
    flat (pre ++ w :: post) = flat pre ++ w.queue := by
  have hnil : flat post = [] := flat_eq_nil fun v hv =>
    hempty v (List.mem_append_right _ (List.mem_cons_of_mem w hv)) (hpost v hv)
  rw [flat_append, flat_cons, hnil, List.append_nil]

/-- A property of every window survives the change of one, when it survives there. -/
theorem replace_forall {P : Window → Prop} {pre post : List Window} {w w' : Window}
    (h : ∀ v ∈ pre ++ w :: post, P v) (hw : P w → P w') : ∀ v ∈ pre ++ w' :: post, P v := by
  intro v hv
  rcases List.mem_append.mp hv with hv | hv
  · exact h v (List.mem_append_left _ hv)
  rcases List.mem_cons.mp hv with rfl | hv
  · exact hw (h w (List.mem_append_right _ List.mem_cons_self))
  · exact h v (List.mem_append_right _ (List.mem_cons_of_mem w hv))

theorem MarksEmpty.replace {pre post : List Window} {w : Window}
    (h : MarksEmpty (pre ++ w :: post)) (hmark : ¬ w.isMark) {q : List Item} :
    MarksEmpty (pre ++ { w with queue := q } :: post) :=
  replace_forall h fun _ hm => absurd hm hmark

/-- The windows are still well built after one more event. -/
theorem Built.more (h : Built k es ws) : Built k (es ++ [ev]) ws :=
  { h with reads := fun it hit => (h.reads it hit).append _ }

/-- Rearranged windows with the same reads. -/
theorem Built.rearrange {ws' : List Window} (h : Built k es ws) (hflat : flat ws' = flat ws)
    (hempty : MarksEmpty ws') (hkeys : (ws'.map (·.key)).Nodup)
    (hbudget : ∀ w ∈ ws', w.budget = budgetOf k w.key) : Built k es ws' where
  order := hflat ▸ h.order
  reads := hflat ▸ h.reads
  empty := hempty
  keys := hkeys
  budget := hbudget

/-- One more window, with nothing in it. -/
theorem Built.append (h : Built k es ws) {w : Window} (hqueue : w.queue = [])
    (hkey : w.key ∉ ws.map (·.key)) (hbudget : w.budget = budgetOf k w.key) :
    Built k es (ws ++ [w]) := by
  refine h.rearrange ?_ (fun v hv hmark => ?_) ?_ fun v hv => ?_
  · rw [flat_append, flat_cons, hqueue]
    exact List.append_nil _
  · rcases List.mem_append.mp hv with hv | hv
    · exact h.empty v hv hmark
    · rw [List.mem_singleton.mp hv]
      exact hqueue
  · rw [List.map_append, List.nodup_append]
    refine ⟨h.keys, List.nodup_singleton _, fun a ha b hb hab => ?_⟩
    rw [List.mem_singleton.mp hb] at hab
    have hsame : a = w.key := hab
    exact hkey (hsame ▸ ha)
  · rcases List.mem_append.mp hv with hv | hv
    · exact h.budget v hv
    · rw [List.mem_singleton.mp hv]
      exact hbudget

/-- The state when the window opens that collects from now on. -/
theorem Builder.Inv.begin (h : s.Inv k es) {w : Window} (hqueue : w.queue = [])
    (hmark : ¬ w.isMark) (hkey : ev.key? = some w.key) (hnodup : (keysOf (es ++ [ev])).Nodup)
    (hbudget : w.budget = budgetOf k w.key) : (s.begin w).Inv k (es ++ [ev]) where
  built := by
    refine h.built.more.append hqueue (fun hmem => ?_) hbudget
    obtain ⟨v, hv, heq⟩ := List.mem_map.mp hmem
    exact not_mem_keysOf hnodup hkey (heq ▸ h.source v hv)
  cur j hj := by
    obtain rfl := Option.some.inj hj
    exact ⟨s.windows, w, [], rfl, rfl, hmark, fun v hv => nomatch hv⟩
  source v hv := by
    rcases List.mem_append.mp hv with hv | hv
    · exact mem_keysOf_append (h.source v hv)
    · rw [List.mem_singleton.mp hv]
      exact mem_keysOf_last hkey
  last _ _ _ hlast := nomatch hlast

/-- The state after a MoE mark. -/
theorem Builder.Inv.mark (h : s.Inv k es) {n : ℕ} (hnodup : (keysOf (es ++ [.m n])).Nodup) :
    (s.event k es.length (.m n)).Inv k (es ++ [.m n]) where
  built := by
    refine h.built.more.append rfl (fun hmem => ?_) rfl
    obtain ⟨v, hv, heq⟩ := List.mem_map.mp hmem
    have hsame : v.key = Key.m n := heq
    exact not_mem_keysOf hnodup rfl (hsame ▸ h.source v hv)
  cur j hj := by
    obtain ⟨pre, w, post, hws, hlen, hmark, hpost⟩ := h.cur j hj
    refine ⟨pre, w, post ++ [⟨.m n, k.moeMb.toNat, [], false⟩], ?_, hlen, hmark, fun v hv => ?_⟩
    · show s.windows ++ _ = _
      rw [hws, List.append_assoc, List.cons_append]
    · rcases List.mem_append.mp hv with hv | hv
      · exact hpost v hv
      · rw [List.mem_singleton.mp hv]
        rfl
  source v hv := by
    rcases List.mem_append.mp hv with hv | hv
    · exact mem_keysOf_append (h.source v hv)
    · rw [List.mem_singleton.mp hv]
      exact mem_keysOf_last rfl
  last owner pos lin hlast := by
    obtain ⟨hmem, hnew⟩ := h.last owner pos lin hlast
    refine ⟨mem_keysOf_append hmem, fun hold => ?_⟩
    rw [show (s.event k es.length (.m n)).windows =
      s.windows ++ [⟨.m n, k.moeMb.toNat, [], false⟩] from rfl, List.map_append] at hold
    rcases List.mem_append.mp hold with hold | hold
    · exact hnew hold
    · exact nomatch List.mem_singleton.mp hold

/-- The state after a linear. -/
theorem Builder.Inv.linear (h : s.Inv k es) {lin : ℕ} (hnodup : (keysOf (es ++ [.L lin])).Nodup) :
    (s.event k es.length (.L lin)).Inv k (es ++ [.L lin]) := by
  unfold Builder.event
  dsimp only
  cases hcur : s.cur with
  | none =>
    exact ⟨h.built.more, h.cur, fun w hw => mem_keysOf_append (h.source w hw),
      fun owner pos lin' hlast => ⟨mem_keysOf_append (h.last owner pos lin' hlast).1,
        (h.last owner pos lin' hlast).2⟩⟩
  | some j =>
    refine ⟨h.built.more, fun i hi => h.cur i (hcur.trans hi), fun w hw => mem_keysOf_append (h.source w hw),
      fun owner pos lin' hlast => ?_⟩
    have hlin : lin = lin' := by
      simp only [Option.some.injEq, Prod.mk.injEq] at hlast
      exact hlast.2.2
    rw [← hlin]
    refine ⟨mem_keysOf_last rfl, fun hold => ?_⟩
    obtain ⟨v, hv, heq⟩ := List.mem_map.mp hold
    exact not_mem_keysOf hnodup rfl (heq ▸ h.source v hv)

/-- A read goes to the window that collects. -/
theorem Builder.Inv.push (h : s.Inv k es) {it : Item} (hread : it.read = es.length)
    (hweight : ev.weight? = some (it.ptr, it.nbytes)) : (s.push it).Inv k (es ++ [ev]) := by
  have hisRead : it.IsRead (es ++ [ev]) := ⟨ev, by rw [hread]; simp, hweight⟩
  have hkeys : ∀ {ws : List Window}, (∀ w ∈ ws, w.key ∈ keysOf es) →
      ∀ w ∈ ws, w.key ∈ keysOf (es ++ [ev]) := fun h w hw => mem_keysOf_append (h w hw)
  unfold Builder.push
  cases hcur : s.cur with
  | none =>
    exact ⟨h.built.more, h.cur, hkeys h.source,
      fun owner pos lin hlast => ⟨mem_keysOf_append (h.last owner pos lin hlast).1,
        (h.last owner pos lin hlast).2⟩⟩
  | some j =>
    obtain ⟨pre, w, post, hws, rfl, hmark, hpost⟩ := h.cur j hcur
    have hmodify : s.windows.modify pre.length (fun w => { w with queue := w.queue ++ [it] }) =
        pre ++ { w with queue := w.queue ++ [it] } :: post := by
      rw [hws, modify_append_cons]
    have hempty : MarksEmpty (pre ++ { w with queue := w.queue ++ [it] } :: post) :=
      (hws ▸ h.built.empty).replace hmark
    have hflat : flat (pre ++ { w with queue := w.queue ++ [it] } :: post) =
        flat s.windows ++ [it] := by
      rw [flat_collects hpost hempty, hws, flat_collects hpost (hws ▸ h.built.empty),
        List.append_assoc]
    have hmapKey : (pre ++ { w with queue := w.queue ++ [it] } :: post).map (·.key) =
        s.windows.map (·.key) := by
      rw [hws, List.map_append, List.map_append]
      rfl
    have hbudget := h.built.budget
    have hsource := h.source
    rw [hws] at hbudget hsource
    dsimp only
    rw [hmodify]
    refine ⟨⟨?_, fun x hx => ?_, hempty, hmapKey ▸ h.built.keys, ?_⟩, fun i hi => ?_, ?_,
      fun owner pos lin hlast => ?_⟩
    · rw [hflat, List.pairwise_append]
      refine ⟨h.built.order, List.pairwise_singleton _ _, fun a ha b hb => ?_⟩
      rw [List.mem_singleton.mp hb, hread]
      exact (h.built.reads a ha).lt
    · rw [hflat] at hx
      rcases List.mem_append.mp hx with hx | hx
      · exact (h.built.reads x hx).append _
      · rw [List.mem_singleton.mp hx]
        exact hisRead
    · exact replace_forall hbudget fun hb => hb
    · obtain rfl := Option.some.inj hi
      exact ⟨pre, _, post, rfl, rfl, hmark, hpost⟩
    · exact hkeys (replace_forall hsource fun hb => hb)
    · rw [hmapKey]
      exact ⟨mem_keysOf_append (h.last owner pos lin hlast).1, (h.last owner pos lin hlast).2⟩

/-- wo_a opens a window; the reads stay in order, the first ones with their owner. -/
theorem Builder.Inv.split (h : s.Inv k es) : (s.split k).Inv k es := by
  unfold Builder.split
  cases hlast : s.lastLin with
  | none => exact h
  | some last =>
    obtain ⟨owner, pos, lin⟩ := last
    dsimp only
    by_cases hcur : s.cur = some owner
    swap
    · rw [if_neg hcur]
      exact h
    obtain ⟨hlin, hnew⟩ := h.last owner pos lin hlast
    obtain ⟨pre, w, post, hws, rfl, hmark, hpost⟩ := h.cur owner hcur
    rw [if_pos hcur]
    have hmodify : s.windows.modify pre.length (fun w => { w with queue := w.queue.take pos }) =
        pre ++ { w with queue := w.queue.take pos } :: post := by
      rw [hws, modify_append_cons]
    have hqueue : s.queue pre.length = w.queue := by
      rw [Builder.queue, hws, List.getElem?_append_right (Nat.le_refl _), Nat.sub_self]
      rfl
    have hempty : MarksEmpty (pre ++ { w with queue := w.queue.take pos } :: post) :=
      (hws ▸ h.built.empty).replace hmark
    have hmapKey : (pre ++ { w with queue := w.queue.take pos } :: post).map (·.key) =
        s.windows.map (·.key) := by
      rw [hws, List.map_append, List.map_append]
      rfl
    have hbudget := h.built.budget
    have hsource := h.source
    rw [hws] at hbudget hsource
    rw [hmodify, hqueue]
    dsimp only [Builder.begin]
    refine ⟨h.built.rearrange ?_ (fun v hv hm => ?_) ?_ fun v hv => ?_, fun j hj => ?_,
      fun v hv => ?_, fun _ _ _ hl => nomatch hl⟩
    · rw [flat_append, flat_collects hpost hempty, hws, flat_collects hpost (hws ▸ h.built.empty),
        flat_cons, List.append_assoc]
      show flat pre ++ (w.queue.take pos ++ (w.queue.drop pos ++ [])) = flat pre ++ w.queue
      rw [List.append_nil, List.take_append_drop]
    · rcases List.mem_append.mp hv with hv | hv
      · exact hempty v hv hm
      · rw [List.mem_singleton.mp hv] at hm
        exact nomatch hm
    · rw [List.map_append, hmapKey, List.nodup_append]
      refine ⟨h.built.keys, List.nodup_singleton _, fun a ha b hb hab => ?_⟩
      rw [List.mem_singleton.mp hb] at hab
      have hsame : a = Key.l lin := hab
      exact hnew (hsame ▸ ha)
    · rcases List.mem_append.mp hv with hv | hv
      · refine replace_forall hbudget ?_ v hv
        exact fun hb => hb
      · rw [List.mem_singleton.mp hv]
        rfl
    · obtain rfl := Option.some.inj hj
      exact ⟨_, _, [], rfl, rfl, fun hm => (nomatch hm), fun v hv => nomatch hv⟩
    · rcases List.mem_append.mp hv with hv | hv
      · refine replace_forall hsource ?_ v hv
        exact fun hb => hb
      · rw [List.mem_singleton.mp hv]
        exact hlin

/-- **One event.** -/
theorem Builder.Inv.event (h : s.Inv k es) (hnodup : (keysOf (es ++ [ev])).Nodup) :
    (s.event k es.length ev).Inv k (es ++ [ev]) := by
  cases ev with
  | c n => exact h.begin rfl (fun hm => nomatch hm) rfl hnodup rfl
  | e n => exact h.begin rfl (fun hm => nomatch hm) rfl hnodup rfl
  | L lin => exact h.linear hnodup
  | m n => exact h.mark hnodup
  | w ptr nbytes =>
    unfold Builder.event
    dsimp only
    split
    · exact h.split.push rfl rfl
    · exact h.push rfl rfl
  | r ptr nbytes rows => exact h.push rfl rfl

end Steps

theorem Builder.Inv.foldl {es : List Event} {s : Builder} (h : s.Inv k es) (es' : List Event)
    (hnodup : (keysOf (es ++ es')).Nodup) :
    ((es'.zipIdx es.length).foldl (fun (s : Builder) p => s.event k p.2 p.1) s).Inv k
      (es ++ es') := by
  induction es' generalizing es s with
  | nil => simpa using h
  | cons ev es' ih =>
    have hcons : es ++ ev :: es' = (es ++ [ev]) ++ es' := by simp
    rw [hcons] at hnodup ⊢
    rw [List.zipIdx_cons, List.foldl_cons]
    have hstep := h.event (List.Nodup.of_append_left (keysOf_append _ _ ▸ hnodup))
    have hrest := ih hstep hnodup
    rwa [List.length_append] at hrest

/-- **The windows before SKIP_N.** -/
theorem built_collect {events : List Event} (hnodup : (keysOf events).Nodup) :
    Built k events (collect k events) := by
  have hzero : Builder.Inv k [] ⟨[], none, none⟩ :=
    ⟨⟨List.Pairwise.nil, fun _ h => (nomatch h), fun _ h => (nomatch h), List.nodup_nil,
      fun _ h => (nomatch h)⟩, fun _ h => (nomatch h), fun _ h => (nomatch h),
      fun _ _ _ h => nomatch h⟩
  exact (hzero.foldl events hnodup).built

theorem flat_skip_sublist (n : ℤ) (ws : List Window) :
    (flat (ws.map (Window.skip n))).Sublist (flat ws) := by
  rw [flat, flat, List.flatMap_map]
  exact List.Sublist.flatMap_right ws fun w _ => List.filter_sublist

/-- **The windows of a record.** SKIP_N takes reads away and nothing else. -/
theorem built_windows {events : List Event} (hnodup : (keysOf events).Nodup) :
    Built k events (windows k events) := by
  have h := built_collect (k := k) hnodup
  unfold windows
  split
  · have hsub := flat_skip_sublist k.skipN (collect k events)
    refine ⟨h.order.sublist hsub, fun it hit => h.reads it (hsub.subset hit), fun w hw hm => ?_,
      ?_, fun w hw => ?_⟩
    · obtain ⟨v, hv, rfl⟩ := List.mem_map.mp hw
      have hq : v.queue = [] := h.empty v hv hm
      show v.queue.filter _ = []
      rw [hq]
      rfl
    · rw [List.map_map]
      exact h.keys
    · obtain ⟨v, hv, rfl⟩ := List.mem_map.mp hw
      exact h.budget v hv
  · exact h

end L2Prefetch

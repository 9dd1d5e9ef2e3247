import SparkTP4.SwaThin
import Mathlib.Logic.Relation

/-!
# Thinning reorders the list, and nothing else

A move to the LRU end takes one node of the list behind all others (`moveToLruEnd_spec`). The
loop of `demoteSuperseded` goes up from the superseded node, over nodes of decreasing depth, so
it moves no node twice, and after it the moved nodes stand at the tail in the order of the walk,
behind all others in their old order.
-/

namespace SwaThin

variable {Node : Type} [DecidableEq Node]

/-! ## Ancestors -/

/-- A proper ancestor. -/
def TreeCore.Ancestor (tree : TreeCore Node) (x y : Node) : Prop :=
  Relation.TransGen (fun a b => tree.parent b = some a) x y

/-- The nodes from a node up, below the root. -/
def pathFrom (tree : TreeCore Node) : ℕ → Option Node → List Node
  | 0, _ => []
  | _ + 1, none => []
  | fuel + 1, some x => if x = tree.root then [] else x :: pathFrom tree fuel (tree.parent x)

/-- The path of a node: itself and its ancestors, below the root. -/
def TreeCore.path (tree : TreeCore Node) (x : Node) : List Node :=
  pathFrom tree (tree.depth x + 1) (some x)

omit [DecidableEq Node] in
theorem TreeCore.Ancestor.cases_parent {tree : TreeCore Node} {x y : Node} :
    tree.Ancestor x y ↔ ∃ p, tree.parent y = some p ∧ (x = p ∨ tree.Ancestor x p) := by
  constructor
  · intro h
    cases h with
    | single h => exact ⟨x, h, Or.inl rfl⟩
    | tail hp h => exact ⟨_, h, Or.inr hp⟩
  · rintro ⟨p, hp, rfl | hx⟩
    · exact .single hp
    · exact .tail hx hp

/-- **The path of a node is its ancestors**, where the fuel covers its depth. -/
theorem mem_pathFrom {tree : TreeCore Node} {fuel : ℕ} {x y : Node} (hfuel : tree.depth y < fuel) :
    x ∈ pathFrom tree fuel (some y) ↔ (x = y ∨ tree.Ancestor x y) ∧ x ≠ tree.root := by
  induction fuel generalizing y with
  | zero => exact absurd hfuel (Nat.not_lt_zero _)
  | succ fuel ih =>
    unfold pathFrom
    split_ifs with hroot
    · refine ⟨fun h => absurd h List.not_mem_nil, ?_⟩
      rintro ⟨rfl | h, hx⟩
      · exact absurd hroot hx
      · obtain ⟨p, hp, -⟩ := TreeCore.Ancestor.cases_parent.mp h
        rw [hroot, tree.root_parent] at hp
        cases hp
    · rw [List.mem_cons, TreeCore.Ancestor.cases_parent]
      cases hp : tree.parent y with
      | none =>
        have hnil : pathFrom tree fuel none = [] := by cases fuel <;> rfl
        simp only [hnil, List.not_mem_nil, or_false, reduceCtorEq, false_and, exists_false]
        exact ⟨fun h => ⟨h, h ▸ hroot⟩, fun h => h.1⟩
      | some p =>
        rw [ih (Nat.lt_of_lt_of_le (tree.parent_lt y p hp) (Nat.le_of_lt_succ hfuel))]
        simp only [Option.some.injEq, exists_eq_left']
        constructor
        · rintro (rfl | ⟨h, hx⟩)
          · exact ⟨Or.inl rfl, hroot⟩
          · exact ⟨Or.inr h, hx⟩
        · rintro ⟨rfl | h, hx⟩
          · exact Or.inl rfl
          · exact Or.inr ⟨h, hx⟩

theorem pathFrom_depth (tree : TreeCore Node) (fuel : ℕ) (y : Node) :
    (pathFrom tree fuel (some y)).Pairwise (fun a b => tree.depth b < tree.depth a) ∧
      ∀ x ∈ pathFrom tree fuel (some y), tree.depth x ≤ tree.depth y := by
  induction fuel generalizing y with
  | zero => exact ⟨.nil, fun _ h => absurd h List.not_mem_nil⟩
  | succ fuel ih =>
    unfold pathFrom
    split_ifs
    · exact ⟨.nil, fun _ h => absurd h List.not_mem_nil⟩
    · cases hp : tree.parent y with
      | none =>
        have hnil : pathFrom tree fuel none = [] := by cases fuel <;> rfl
        rw [hnil]
        exact ⟨List.pairwise_singleton _ _, by simp⟩
      | some p =>
        have hlt := tree.parent_lt y p hp
        obtain ⟨hpair, hle⟩ := ih p
        refine ⟨List.pairwise_cons.mpr ⟨fun x hx => (hle x hx).trans_lt hlt, hpair⟩, ?_⟩
        exact List.forall_mem_cons.mpr ⟨le_refl _, fun x hx => (hle x hx).trans hlt.le⟩

theorem nodup_path (tree : TreeCore Node) (x : Node) : (tree.path x).Nodup := by
  show List.Pairwise (· ≠ ·) (pathFrom tree (tree.depth x + 1) (some x))
  refine (pathFrom_depth tree _ x).1.imp ?_
  rintro a b h rfl
  exact Nat.lt_irrefl _ h

/-- **The loop over `cur` finds the proper ancestors** below the root. -/
theorem climb_eq_some {tree : TreeCore Node} {old : Node} (hold : old ≠ tree.root) {fuel : ℕ}
    {cur : Option Node} (hfuel : ∀ x, cur = some x → tree.depth x < fuel) :
    climb tree old fuel cur = some old ↔ ∃ x, cur = some x ∧ (old = x ∨ tree.Ancestor old x) := by
  induction fuel generalizing cur with
  | zero =>
    cases cur with
    | none => simp [climb]
    | some x => exact absurd (hfuel x rfl) (Nat.not_lt_zero _)
  | succ fuel ih =>
    cases cur with
    | none => simp [climb]
    | some x =>
      have hx := hfuel x rfl
      simp only [climb, Option.some.injEq, exists_eq_left']
      split_ifs with hend
      · rcases hend with rfl | rfl
        · refine ⟨fun h => absurd (Option.some.inj h).symm hold, ?_⟩
          rintro (h | h)
          · exact absurd h hold
          · obtain ⟨p, hp, -⟩ := TreeCore.Ancestor.cases_parent.mp h
            rw [tree.root_parent] at hp
            cases hp
        · simp
      · rw [not_or] at hend
        rw [ih fun p hp => Nat.lt_of_lt_of_le (tree.parent_lt x p hp) (Nat.le_of_lt_succ hx),
          TreeCore.Ancestor.cases_parent]
        exact ⟨Or.inr, fun h => h.resolve_left fun heq => hend.2 heq.symm⟩

/-! ## The list -/

/-- What `_remove_node` and `_add_node_after` of the engine do. -/
structure Ops.Lawful (ops : Ops Node) : Prop where
  remove : ∀ L n p q, L.prev n = some p → L.next n = some q → p ≠ n → q ≠ n →
    ∃ L', ops.removeNode L n = some L' ∧ L.Removed n p q L'
  add : ∀ L p n q, L.next p = some q → p ≠ n → q ≠ n →
    ∃ L', ops.addNodeAfter L p n = some L' ∧ L.Inserted p n q L'

/-- The list is spanned between its sentinels, and `in_list` knows its nodes. -/
structure Lru.Holds (lru : Lru Node) (l : List Node) : Prop where
  spans : lru.links.Spans (lru.head :: l ++ [lru.tail])
  inList_iff : ∀ x, lru.inList x = true ↔ x ∈ l

section list

variable {ops : Ops Node} {L : Links Node} {head tail : Node} {l : List Node}

/-- **A move to the LRU end.** -/
theorem moveToLruEnd_spec (hops : ops.Lawful) (h : L.Spans (head :: l ++ [tail])) {n : Node}
    (hn : n ∈ l) : ∃ L', moveToLruEnd ops tail n L = some L' ∧
      L'.Spans (head :: (l.erase n ++ [n]) ++ [tail]) := by
  obtain ⟨p, q, hprev, hnext, hpn, hqn, -, -, hremoved⟩ := h.exists_neighbours hn
  obtain ⟨L₁, hremove, hL₁⟩ := hops.remove L n p q hprev hnext hpn hqn
  have hspans := hremoved L₁ hL₁
  have hnodup := h.nodup
  rw [List.cons_append, List.nodup_cons, List.nodup_append] at hnodup
  obtain ⟨hhead, hl, -, hends⟩ := hnodup
  have hout : n ∉ head :: l.erase n ++ [tail] := by
    intro hmem
    rw [List.cons_append, List.mem_cons, List.mem_append] at hmem
    rcases hmem with rfl | hmem | hmem
    · exact hhead (List.mem_append_left _ hn)
    · exact hl.not_mem_erase hmem
    · exact hends n hn n hmem rfl
  obtain ⟨r, hlast, hrtail, hrn, htn, hinserted⟩ := hspans.exists_tail hout
  obtain ⟨L₂, hadd, hL₂⟩ := hops.add L₁ r n tail hrtail hrn htn
  refine ⟨L₂, ?_, hinserted L₂ hL₂⟩
  unfold moveToLruEnd
  rw [hremove]
  show (L₁.prev tail).bind _ = _
  rw [hlast]
  exact hadd

/-- One move after the other. -/
def moveAll (l ms : List Node) : List Node := ms.foldl (fun l n => l.erase n ++ [n]) l

/-- **After the moves** the moved nodes stand behind all others. -/
theorem moveAll_eq {ms : List Node} (hl : l.Nodup) (hms : ms.Nodup) (hsub : ∀ x ∈ ms, x ∈ l) :
    moveAll l ms = l.filter (· ∉ ms) ++ ms := by
  unfold moveAll
  induction ms generalizing l with
  | nil => simp
  | cons m ms ih =>
    obtain ⟨hm, hms⟩ := List.nodup_cons.mp hms
    have hperm : (l.erase m ++ [m]).Perm l := by
      refine (List.perm_append_singleton m (l.erase m)).trans ?_
      exact (List.perm_cons_erase (hsub m List.mem_cons_self)).symm
    rw [List.foldl_cons, ih (hperm.nodup_iff.mpr hl) hms fun x hx =>
      hperm.mem_iff.mpr (hsub x (List.mem_cons_of_mem m hx)), List.filter_append,
      hl.erase_eq_filter, List.filter_filter]
    have hkeep : List.filter (· ∉ ms) [m] = [m] := by simp [hm]
    rw [hkeep, List.append_assoc]
    refine congrArg (· ++ m :: ms) (List.filter_congr fun x _ => ?_)
    rw [Bool.eq_iff_iff]
    simp [and_comm]

theorem perm_filter_append {ms : List Node} (hl : l.Nodup) (hms : ms.Nodup)
    (hsub : ∀ x ∈ ms, x ∈ l) : (l.filter (· ∉ ms) ++ ms).Perm l := by
  refine (List.perm_ext_iff_of_nodup ?_ hl).mpr fun x => ?_
  · refine (hl.filter _).append hms ?_
    intro x hx hxs
    have hout := (List.mem_filter.mp hx).2
    exact of_decide_eq_true hout hxs
  · rw [List.mem_append, List.mem_filter, decide_eq_true_eq]
    constructor
    · rintro (h | h)
      · exact h.1
      · exact hsub x h
    · intro h
      by_cases hx : x ∈ ms
      · exact Or.inr hx
      · exact Or.inl ⟨h, hx⟩

end list

/-! ## The walk -/

/-- The nodes of a path that the loop looks at: those that begin within the span. -/
def walked (tree : TreeCore Node) (span : ℕ) : List Node → ℕ → List Node
  | [], _ => []
  | x :: xs, covered =>
    if covered < span then x :: walked tree span xs (covered + tree.keyLen x) else []

omit [DecidableEq Node] in
theorem walked_sublist (tree : TreeCore Node) (span : ℕ) (xs : List Node) (covered : ℕ) :
    (walked tree span xs covered).Sublist xs := by
  induction xs generalizing covered with
  | nil => exact .slnil
  | cons x xs ih =>
    unfold walked
    split_ifs
    · exact (ih _).cons_cons x
    · exact List.nil_sublist _

omit [DecidableEq Node] in
/-- The tokens below a node that the loop looks at are less than the span. -/
theorem walked_within {tree : TreeCore Node} {span : ℕ} {xs : List Node} {covered : ℕ} {x : Node}
    (hx : x ∈ walked tree span xs covered) : ∃ below above, xs = below ++ x :: above ∧
      covered + (below.map tree.keyLen).sum < span := by
  induction xs generalizing covered with
  | nil => cases hx
  | cons y ys ih =>
    unfold walked at hx
    split_ifs at hx with hspan
    · rcases List.mem_cons.mp hx with rfl | hx
      · exact ⟨[], ys, rfl, hspan⟩
      · obtain ⟨below, above, heq, hsum⟩ := ih hx
        refine ⟨y :: below, above, by rw [heq]; rfl, ?_⟩
        rw [List.map_cons, List.sum_cons]
        omega
    · cases hx

/-- **The loop moves what is movable on the walk**, in the order of the walk. -/
theorem demoteLoop_spec {ops : Ops Node} (hops : ops.Lawful) {tree : TreeCore Node}
    {lru : Lru Node} {span fuel : ℕ} {cur : Option Node} {covered moved : ℕ} {L : Links Node}
    {l : List Node} (h : L.Spans (lru.head :: l ++ [lru.tail]))
    (hin : ∀ x, lru.inList x = true ↔ x ∈ l) :
    ∃ L', demoteLoop ops tree lru span fuel cur covered moved L = some (L', moved +
        ((walked tree span (pathFrom tree fuel cur) covered).filter (movable tree lru)).length) ∧
      L'.Spans (lru.head :: moveAll l
        ((walked tree span (pathFrom tree fuel cur) covered).filter (movable tree lru))
          ++ [lru.tail]) := by
  induction fuel generalizing cur covered moved L l with
  | zero => exact ⟨L, rfl, h⟩
  | succ fuel ih =>
    cases cur with
    | none => exact ⟨L, rfl, h⟩
    | some x =>
      unfold demoteLoop pathFrom
      by_cases hroot : x = tree.root
      · rw [if_neg (fun hx => hx.1 hroot), if_pos hroot]
        exact ⟨L, rfl, h⟩
      · by_cases hspan : covered < span
        · rw [if_pos ⟨hroot, hspan⟩, if_neg hroot]
          simp only [walked, if_pos hspan]
          by_cases hmovable : movable tree lru x = true
          · have hxl : x ∈ l := by
              unfold movable at hmovable
              simp only [Bool.and_eq_true] at hmovable
              exact (hin x).mp hmovable.1.2
            obtain ⟨L₁, hmove, hL₁⟩ := moveToLruEnd_spec hops h hxl
            have hin₁ : ∀ y, lru.inList y = true ↔ y ∈ l.erase x ++ [x] := by
              intro y
              rw [hin y]
              refine Iff.symm (List.Perm.mem_iff ?_)
              exact (List.perm_append_singleton x (l.erase x)).trans (List.perm_cons_erase hxl).symm
            obtain ⟨L', hloop, hL'⟩ := ih hL₁ hin₁
            refine ⟨L', ?_, ?_⟩
            · rw [if_pos hmovable, hmove, List.filter_cons_of_pos hmovable, List.length_cons,
                ← Nat.add_assoc, Nat.add_right_comm]
              exact hloop
            · rw [List.filter_cons_of_pos hmovable]
              exact hL'
          · rw [if_neg hmovable, List.filter_cons_of_neg hmovable]
            exact ih h hin
        · rw [if_neg (fun hx => hspan hx.2), if_neg hroot]
          simp only [walked, if_neg hspan]
          exact ⟨L, rfl, h⟩

/-! ## The demotion -/

/-- **What a demotion does**, for a list of nodes `l` and the nodes it moves. -/
structure Demoted (cache : Cache Node) (lru : Lru Node) (l : List Node)
    (oldHandle newHandle : Handle Node) (moved : List Node) (cache' : Cache Node) : Prop where
  /-- only pointers change: the moved nodes are next to the tail, in the order of the walk -/
  spans : ∃ links, cache' = { cache with lru := some { lru with links := links } } ∧
    links.Spans (lru.head :: (l.filter (· ∉ moved) ++ moved) ++ [lru.tail])
  perm : (l.filter (· ∉ moved) ++ moved).Perm l
  /-- a checkpoint that is unlocked, listed and no branch point -/
  movable : ∀ x ∈ moved, cache.treeCore.value x = true ∧ cache.treeCore.lockRef x = 0 ∧ x ∈ l ∧
    cache.treeCore.children x = 1
  /-- on the path of the old node, within the window and a page, below the new node -/
  walk : moved ≠ [] → ∃ old new window, nodeOf cache.treeCore oldHandle = some old ∧
    nodeOf cache.treeCore newHandle = some new ∧ cache.swa = some window ∧
    cache.treeCore.Ancestor old new ∧ old ≠ cache.treeCore.root ∧
    moved.Sublist (cache.treeCore.path old) ∧
    ∀ x ∈ moved, ∃ below above, cache.treeCore.path old = below ++ x :: above ∧
      (below.map cache.treeCore.keyLen).sum < window + cache.treeCore.pageSize

theorem Demoted.nothing {cache : Cache Node} {lru : Lru Node} {l : List Node}
    (hlru : cache.lru = some lru) (h : lru.Holds l) (oldHandle newHandle : Handle Node) :
    Demoted cache lru l oldHandle newHandle [] cache where
  spans := ⟨lru.links, by rw [← hlru], by simpa using h.spans⟩
  perm := by simp
  movable := by simp
  walk := by simp

/-- The loop, from an old node that is a proper ancestor of the new one. -/
theorem demoteLoop_demoted {ops : Ops Node} (hops : ops.Lawful) {cache : Cache Node}
    {lru : Lru Node} {l : List Node} (hlist : lru.Holds l)
    {oldHandle newHandle : Handle Node} {old new : Node} {window : ℕ}
    (hold : nodeOf cache.treeCore oldHandle = some old)
    (hnew : nodeOf cache.treeCore newHandle = some new) (hswa : cache.swa = some window)
    (hroot : old ≠ cache.treeCore.root)
    (hclimb : climb cache.treeCore old (cache.treeCore.depth new) (cache.treeCore.parent new) =
      some old) :
    ∃ cache' moved, ((demoteLoop ops cache.treeCore lru (window + cache.treeCore.pageSize)
        (cache.treeCore.depth old + 1) (some old) 0 0 lru.links).bind fun out =>
          some ({ cache with lru := some { lru with links := out.1 } }, out.2)) =
        some (cache', moved.length) ∧
      Demoted cache lru l oldHandle newHandle moved cache' := by
  obtain ⟨links, hloop, hspans⟩ : ∃ links, demoteLoop ops cache.treeCore lru
      (window + cache.treeCore.pageSize) (cache.treeCore.depth old + 1) (some old) 0 0 lru.links =
        some (links, 0 + ((walked cache.treeCore (window + cache.treeCore.pageSize)
          (cache.treeCore.path old) 0).filter (movable cache.treeCore lru)).length) ∧ _ :=
    demoteLoop_spec hops hlist.spans hlist.inList_iff
  generalize hwalk : walked cache.treeCore (window + cache.treeCore.pageSize)
    (cache.treeCore.path old) 0 = walk at hloop
  have hspans : links.Spans (lru.head :: moveAll l (walk.filter (movable cache.treeCore lru))
      ++ [lru.tail]) := hwalk ▸ hspans
  have hsub : walk.Sublist (cache.treeCore.path old) := hwalk ▸ walked_sublist _ _ _ _
  have hmovable : ∀ x ∈ walk.filter (movable cache.treeCore lru),
      cache.treeCore.value x = true ∧ cache.treeCore.lockRef x = 0 ∧ x ∈ l ∧
        cache.treeCore.children x = 1 := by
    intro x hx
    have hx := (List.mem_filter.mp hx).2
    unfold movable at hx
    simp only [Bool.and_eq_true, decide_eq_true_eq] at hx
    exact ⟨hx.1.1.1, hx.1.1.2, (hlist.inList_iff x).mp hx.1.2, hx.2⟩
  have hl : l.Nodup := by
    have h := hlist.spans.nodup
    rw [List.cons_append, List.nodup_cons] at h
    exact h.2.of_append_left
  have hnodup : (walk.filter (movable cache.treeCore lru)).Nodup :=
    ((nodup_path cache.treeCore old).sublist hsub).filter _
  have hmem : ∀ x ∈ walk.filter (movable cache.treeCore lru), x ∈ l := fun x hx =>
    (hmovable x hx).2.2.1
  refine ⟨{ cache with lru := some { lru with links := links } },
    walk.filter (movable cache.treeCore lru), ?_, ?_⟩
  · rw [hloop, Nat.zero_add]
    rfl
  · refine ⟨⟨links, rfl, moveAll_eq hl hnodup hmem ▸ hspans⟩, perm_filter_append hl hnodup hmem,
      hmovable, fun _ => ⟨old, new, window, hold, hnew, hswa, ?_, hroot,
        List.filter_sublist.trans hsub, fun x hx => ?_⟩⟩
    · obtain ⟨p, hp, hanc⟩ := (climb_eq_some hroot fun p hp =>
        cache.treeCore.parent_lt new p hp).mp hclimb
      exact TreeCore.Ancestor.cases_parent.mpr ⟨p, hp, hanc⟩
    · have hx : x ∈ walked cache.treeCore (window + cache.treeCore.pageSize)
          (cache.treeCore.path old) 0 := hwalk ▸ List.mem_of_mem_filter hx
      obtain ⟨below, above, heq, hsum⟩ := walked_within hx
      exact ⟨below, above, heq, by omega⟩

/-- The demotion of any two handles does not fail. -/
theorem exists_demoted {ops : Ops Node} (hops : ops.Lawful) (cache : Cache Node)
    (lru : Lru Node) (hlru : cache.lru = some lru) (l : List Node) (hlist : lru.Holds l)
    (oldHandle newHandle : Handle Node) :
    ∃ cache' moved, demoteSuperseded ops cache oldHandle newHandle = some (cache', moved.length) ∧
      Demoted cache lru l oldHandle newHandle moved cache' := by
  have hnothing := Demoted.nothing hlru hlist oldHandle newHandle
  unfold demoteSuperseded
  rw [hlru]
  dsimp only
  split_ifs
  · exact ⟨cache, [], rfl, hnothing⟩
  · exact ⟨cache, [], rfl, hnothing⟩
  · cases hswa : cache.swa with
    | none => exact ⟨cache, [], rfl, hnothing⟩
    | some window =>
      dsimp only
      split_ifs
      · exact ⟨cache, [], rfl, hnothing⟩
      · cases hold : nodeOf cache.treeCore oldHandle with
        | none => exact ⟨cache, [], rfl, hnothing⟩
        | some old =>
          cases hnew : nodeOf cache.treeCore newHandle with
          | none => exact ⟨cache, [], rfl, hnothing⟩
          | some new =>
            dsimp only
            split_ifs with hsame hclimb
            · exact ⟨cache, [], rfl, hnothing⟩
            · exact ⟨cache, [], rfl, hnothing⟩
            · rw [not_or] at hsame
              rw [not_not] at hclimb
              rw [← hswa]
              exact demoteLoop_demoted hops hlist hold hnew hswa hsame.2 hclimb

/-- **The hook only reorders the list** that the insert of the engine has left, and it stays
active. -/
theorem cacheUnfinishedReq_reorders {ops : Ops Node} (hops : ops.Lawful)
    (original : Bool → State Node → State Node) (S : State Node) (chunked : Bool) {lru : Lru Node}
    (hlru : (original chunked S).cache.lru = some lru) {l : List Node} (hlist : lru.Holds l) :
    (cacheUnfinishedReq ops original S chunked).stats = (original chunked S).stats ∧
      ∃ links l', (cacheUnfinishedReq ops original S chunked).cache =
          { (original chunked S).cache with lru := some { lru with links := links } } ∧
        links.Spans (lru.head :: l' ++ [lru.tail]) ∧ l'.Perm l := by
  have hkept : ∃ links l', (original chunked S).cache =
      { (original chunked S).cache with lru := some { lru with links := links } } ∧
        links.Spans (lru.head :: l' ++ [lru.tail]) ∧ l'.Perm l :=
    ⟨lru.links, l, by rw [← hlru], hlist.spans, .refl l⟩
  unfold cacheUnfinishedReq
  dsimp only
  generalize original chunked S = S' at *
  generalize hseen : (if S'.stats.active = true then
    { S' with req := { S'.req with seen := true } } else S') = T
  have hstats : T.stats = S'.stats := by rw [← hseen]; split_ifs <;> rfl
  have hcache : T.cache = S'.cache := by rw [← hseen]; split_ifs <;> rfl
  split
  · exact ⟨hstats, hcache ▸ hkept⟩
  · exact ⟨hstats, hcache ▸ hkept⟩
  · rename_i old _ _
    split_ifs
    · obtain ⟨cache', moved, hdemote, h⟩ := exists_demoted hops T.cache lru
        (hcache ▸ hlru) l hlist old T.req.lastNode
      rw [hdemote]
      obtain ⟨links, heq, hspans⟩ := h.spans
      exact ⟨hstats, links, _, hcache ▸ heq, hspans, h.perm⟩
    · exact ⟨hstats, hcache ▸ hkept⟩

/-- **Thinning only reorders the LRU list.** For every radix tree, every list that is consistent
with it and every two handles, the demotion does not fail, it moves the movable nodes of the walk
behind all others, and it moves nothing unless the old node is a proper ancestor of the new one
other than the root. The hook around the insert of the engine does no more. -/
theorem demote_superseded_reorders {ops : Ops Node} (hops : ops.Lawful) :
    (∀ (cache : Cache Node) (lru : Lru Node), cache.lru = some lru → ∀ l, lru.Holds l →
      ∀ oldHandle newHandle, ∃ cache' moved,
        demoteSuperseded ops cache oldHandle newHandle = some (cache', moved.length) ∧
        Demoted cache lru l oldHandle newHandle moved cache') ∧
    ∀ (original : Bool → State Node → State Node) (S : State Node) (chunked : Bool)
      (lru : Lru Node), (original chunked S).cache.lru = some lru → ∀ l, lru.Holds l →
      (cacheUnfinishedReq ops original S chunked).stats = (original chunked S).stats ∧
      ∃ links l', (cacheUnfinishedReq ops original S chunked).cache =
          { (original chunked S).cache with lru := some { lru with links := links } } ∧
        links.Spans (lru.head :: l' ++ [lru.tail]) ∧ l'.Perm l := by
  refine ⟨fun cache lru hlru l hlist oldHandle newHandle => ?_, ?_⟩
  · exact exists_demoted hops cache lru hlru l hlist oldHandle newHandle
  · intro original S chunked lru hlru l hlist
    exact cacheUnfinishedReq_reorders hops original S chunked hlru hlist

/-- The pointer operations of a list: `_remove_node` and `_add_node_after` write four pointers. -/
def listOps : Ops Node where
  removeNode L n := do
    let p ← L.prev n
    let q ← L.next n
    some {
      next := Function.update (Function.update L.next p (some q)) n none
      prev := Function.update (Function.update L.prev q (some p)) n none }
  addNodeAfter L p n := do
    let q ← L.next p
    some {
      next := Function.update (Function.update L.next n (some q)) p (some n)
      prev := Function.update (Function.update L.prev n (some p)) q (some n) }

theorem listOps_lawful : (listOps : Ops Node).Lawful where
  remove L n p q hp hq hpn hqn := by
    refine ⟨_, by simp only [listOps, hp, hq]; rfl, ?_, ?_, fun x hx hxp => ?_, fun x hx hxq => ?_⟩
    · simp [hpn]
    · simp [hqn]
    · simp [hx, hxp]
    · simp [hx, hxq]
  add L p n q hq hpn hqn := by
    refine ⟨_, by simp only [listOps, hq]; rfl, ?_, ?_, ?_, ?_, fun x hx hxp => ?_,
      fun x hx hxq => ?_⟩
    · simp
    · simp [Ne.symm hpn]
    · simp
    · simp [Ne.symm hqn]
    · simp [hx, hxp]
    · simp [hx, hxq]

/-- A root, a checkpoint below it, and the new position below that one. -/
def smallTree : TreeCore ℕ where
  root := 0
  parent
    | 1 => some 0
    | 2 => some 1
    | _ => none
  children
    | 2 => 0
    | _ => 1
  keyLen _ := 8
  value x := x ≠ 0
  lockRef _ := 0
  nodeById _ := none
  pageSize := 4
  enableSessionRadixCache := false
  enableHicache := false
  depth x := if x = 1 then 1 else if x = 2 then 2 else 0
  root_parent := rfl
  parent_lt
    | 1, _, h => by cases h; decide
    | 2, _, h => by cases h; decide

/-- The list `2, 1, 3` between the sentinels 8 and 9. -/
def smallLru : Lru ℕ where
  links := {
    next := fun x => [(8, 2), (2, 1), (1, 3), (3, 9)].lookup x
    prev := fun x => [(9, 3), (3, 1), (1, 2), (2, 8)].lookup x }
  head := 8
  tail := 9
  inList x := x ∈ [2, 1, 3]
  mid := false

def smallCache : Cache ℕ where
  treeCore := smallTree
  isMambaEnabled := false
  swa := some 4
  lru := some smallLru

theorem smallLru_holds : smallLru.Holds [2, 1, 3] where
  spans := ⟨by decide, by simp [smallLru, Links.Linked, List.lookup_cons]⟩
  inList_iff x := by simp [smallLru]

/-- The superseded checkpoint ends next to the tail. -/
theorem demote_superseded_reorders_small : ∃ cache' moved,
    demoteSuperseded listOps smallCache (.node 1) (.node 2) = some (cache', moved.length) ∧
      Demoted smallCache smallLru [2, 1, 3] (.node 1) (.node 2) moved cache' :=
  (demote_superseded_reorders listOps_lawful).1 smallCache smallLru rfl [2, 1, 3] smallLru_holds
    (.node 1) (.node 2)

end SwaThin

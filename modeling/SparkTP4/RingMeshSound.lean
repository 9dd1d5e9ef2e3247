import Mathlib.Data.List.Flatten
import Mathlib.Data.List.Rotate
import SparkTP4.RingMesh

/-!
# The search finds the ring, or fails

A port has one address, so it is on one subnet, and a subnet with two ports is a cable: the
port at the other end is determined. Following clockwise ports to counter-clockwise ones is
therefore injective, whatever the cabling, and the search ends. What it returns is a cycle of
cables through all hosts, and a cycle through all hosts is what it returns.
-/

namespace RingMesh

open CycleWalk

variable {H : Type} {inv : Inventory H} {hosts reversed : List H}

/-- Two ports are the two ends of a cable: the only two on their subnet. -/
def Cabled (inv : Inventory H) (hosts : List H) (e e' : End H) : Prop :=
  ∃ n, endsOf inv hosts n = [e, e'] ∨ endsOf inv hosts n = [e', e]

/-- Every subnet has two ports. -/
def Paired (inv : Inventory H) (hosts : List H) : Prop :=
  ∀ n ∈ networks inv hosts, (endsOf inv hosts n).length = 2

/-- Both functions' clockwise ports of `a` are cabled to the counter-clockwise ports of `b` of
the same function. -/
def Link [DecidableEq H] (inv : Inventory H) (hosts reversed : List H) (a b : H) : Prop :=
  ∀ f, Cabled inv hosts (a, port reversed a .clockwise f) (b, port reversed b .counterClockwise f)

/-- **A ring**: it starts at the first host, is a permutation of the hosts, and each host is
linked to the next, cyclically. -/
structure IsRing [DecidableEq H] (inv : Inventory H) (hosts reversed order : List H) : Prop where
  head : order.head? = hosts.head?
  perm : order.Perm hosts
  links : ∀ p ∈ order.zip (order.rotate 1), Link inv hosts reversed p.1 p.2

/-! ## Cables -/

theorem Cabled.symm {e e' : End H} (h : Cabled inv hosts e e') : Cabled inv hosts e' e :=
  h.imp fun _ => Or.symm

theorem mem_endsWithNet {e : End H} {n : ℕ × ℕ} : (e, n) ∈ endsWithNet inv hosts ↔
    e.1 ∈ hosts ∧ ∃ p, (e.2, p) ∈ inv.ports e.1 ∧ p.network = n := by
  unfold endsWithNet
  rw [List.mem_flatMap]
  constructor
  · rintro ⟨h, hh, hmem⟩
    obtain ⟨⟨nd, p⟩, hp, heq⟩ := List.mem_map.mp hmem
    obtain ⟨rfl, rfl⟩ := Prod.mk.inj heq
    exact ⟨hh, p, hp, rfl⟩
  · rintro ⟨hh, p, hp, rfl⟩
    exact ⟨e.1, hh, List.mem_map.mpr ⟨(e.2, p), hp, rfl⟩⟩

theorem mem_endsOf {e : End H} {n : ℕ × ℕ} :
    e ∈ endsOf inv hosts n ↔ (e, n) ∈ endsWithNet inv hosts := by
  unfold endsOf
  rw [List.mem_map]
  constructor
  · rintro ⟨b, hmem, rfl⟩
    obtain ⟨hmem, hn⟩ := List.mem_filter.mp hmem
    have hn : b.2 = n := of_decide_eq_true hn
    rwa [← hn]
  · exact fun hmem => ⟨(e, n), List.mem_filter.mpr ⟨hmem, decide_eq_true rfl⟩, rfl⟩

/-- A port is on one subnet. -/
theorem network_unique {e : End H} {n n' : ℕ × ℕ} (h : e ∈ endsOf inv hosts n)
    (h' : e ∈ endsOf inv hosts n') : n = n' := by
  obtain ⟨-, p, hp, rfl⟩ := mem_endsWithNet.mp (mem_endsOf.mp h)
  obtain ⟨-, p', hp', rfl⟩ := mem_endsWithNet.mp (mem_endsOf.mp h')
  have heq := List.inj_on_of_nodup_map (inv.nodup e.1) hp hp' rfl
  rw [(Prod.mk.inj heq).2]

theorem mem_networks {e : End H} {n : ℕ × ℕ} (h : e ∈ endsOf inv hosts n) :
    n ∈ networks inv hosts := by
  unfold networks
  rw [List.mem_eraseDups]
  exact List.mem_map.mpr ⟨(e, n), mem_endsOf.mp h, rfl⟩

theorem Cabled.mem {e e' : End H} (h : Cabled inv hosts e e') :
    ∃ n, e ∈ endsOf inv hosts n ∧ e' ∈ endsOf inv hosts n := by
  obtain ⟨n, hn | hn⟩ := h <;> exact ⟨n, by simp [hn], by simp [hn]⟩

/-- **The other end of a cable is determined.** -/
theorem Cabled.unique {e a b : End H} (ha : Cabled inv hosts e a) (hb : Cabled inv hosts e b) :
    a = b := by
  obtain ⟨n, hn⟩ := ha
  obtain ⟨n', hn'⟩ := hb
  have hmem : e ∈ endsOf inv hosts n := by rcases hn with hn | hn <;> simp [hn]
  have hmem' : e ∈ endsOf inv hosts n' := by rcases hn' with hn' | hn' <;> simp [hn']
  obtain rfl := network_unique hmem hmem'
  rcases hn with hn | hn <;> rcases hn' with hn' | hn' <;> rw [hn] at hn' <;> simp_all

/-! ## The table of peers -/

variable [DecidableEq H]

omit [DecidableEq H] in
theorem pair_ok {ends : List (End H)} {two : List (End H × End H)} (h : pair ends = .ok two) :
    ∃ e₁ e₂, ends = [e₁, e₂] ∧ two = [(e₁, e₂), (e₂, e₁)] := by
  unfold pair at h
  split at h
  · exact ⟨_, _, rfl, (Except.ok.inj h).symm⟩
  · cases h

omit [DecidableEq H] in
theorem peersFrom_ok {ns : List (ℕ × ℕ)} {table : List (End H × End H)}
    (h : peersFrom inv hosts ns = .ok table) :
    (∀ n ∈ ns, (endsOf inv hosts n).length = 2) ∧ ∀ b, b ∈ table ↔
      ∃ n ∈ ns, endsOf inv hosts n = [b.1, b.2] ∨ endsOf inv hosts n = [b.2, b.1] := by
  induction ns generalizing table with
  | nil =>
    obtain rfl : [] = table := Except.ok.inj h
    exact ⟨fun _ hn => absurd hn List.not_mem_nil, fun _ => by simp⟩
  | cons n ns ih =>
    unfold peersFrom at h
    cases hpair : pair (endsOf inv hosts n) with
    | error e => rw [hpair] at h; cases h
    | ok two =>
      cases hrest : peersFrom inv hosts ns with
      | error e => rw [hpair, hrest] at h; cases h
      | ok rest =>
        rw [hpair, hrest] at h
        obtain rfl : two ++ rest = table := Except.ok.inj h
        obtain ⟨e₁, e₂, hends, rfl⟩ := pair_ok hpair
        obtain ⟨hlen, hmem⟩ := ih hrest
        refine ⟨List.forall_mem_cons.mpr ⟨by rw [hends]; rfl, hlen⟩, fun b => ?_⟩
        rw [List.mem_append, hmem]
        simp only [List.mem_cons, List.not_mem_nil, or_false, exists_eq_or_imp, hends]
        refine or_congr_left ?_
        obtain ⟨b₁, b₂⟩ := b
        simp only [Prod.mk.injEq, List.cons.injEq, and_true]
        tauto

omit [DecidableEq H] in
theorem exists_peersFrom {ns : List (ℕ × ℕ)} (h : ∀ n ∈ ns, (endsOf inv hosts n).length = 2) :
    ∃ table, peersFrom inv hosts ns = .ok table := by
  induction ns with
  | nil => exact ⟨[], rfl⟩
  | cons n ns ih =>
    obtain ⟨rest, hrest⟩ := ih fun m hm => h m (List.mem_cons_of_mem n hm)
    obtain ⟨e₁, e₂, hends⟩ := List.length_eq_two.mp (h n List.mem_cons_self)
    refine ⟨[(e₁, e₂), (e₂, e₁)] ++ rest, ?_⟩
    unfold peersFrom
    rw [hends, hrest]
    rfl

omit [DecidableEq H] in
/-- **The table is that of the cables.** -/
theorem peerTable_ok {table : List (End H × End H)} (h : peerTable inv hosts = .ok table) :
    Paired inv hosts ∧ ∀ e e', (e, e') ∈ table ↔ Cabled inv hosts e e' := by
  obtain ⟨hlen, hmem⟩ := peersFrom_ok h
  refine ⟨hlen, fun e e' => (hmem (e, e')).trans ⟨fun ⟨n, _, hn⟩ => ⟨n, hn⟩, fun hc => ?_⟩⟩
  obtain ⟨n, hn⟩ := hc
  have he : e ∈ endsOf inv hosts n := by rcases hn with hn | hn <;> simp [hn]
  exact ⟨n, mem_networks he, hn⟩

theorem peerOf_eq {table : List (End H × End H)} (h : peerTable inv hosts = .ok table)
    {e e' : End H} : peerOf table e = some e' ↔ Cabled inv hosts e e' := by
  obtain ⟨-, hmem⟩ := peerTable_ok h
  unfold peerOf
  constructor
  · intro hsome
    obtain ⟨b, hb, rfl⟩ := Option.map_eq_some_iff.mp hsome
    have hkey : b.1 = e := of_decide_eq_true (by simpa using List.find?_some hb)
    have hin := List.mem_reverse.mp (List.mem_of_find?_eq_some hb)
    rw [← hkey]
    exact (hmem b.1 b.2).mp hin
  · intro hc
    have hin := List.mem_reverse.mpr ((hmem e e').mpr hc)
    obtain ⟨b, hb⟩ := Option.isSome_iff_exists.mp
      (List.find?_isSome (p := fun b => decide (b.1 = e)).mpr ⟨_, hin, decide_eq_true rfl⟩)
    have hkey : b.1 = e := by simpa using List.find?_some hb
    have hb' := (hmem b.1 b.2).mp (List.mem_reverse.mp (List.mem_of_find?_eq_some hb))
    rw [hkey] at hb'
    rw [hb, Option.map_some, hb'.unique hc]

/-! ## The search -/

theorem facing_ok {table : List (End H × End H)} (h : peerTable inv hosts = .ok table) {a b : H}
    {f : Fin 2} : facing reversed table a f = .ok b ↔
      Cabled inv hosts (a, port reversed a .clockwise f)
        (b, port reversed b .counterClockwise f) := by
  rw [← peerOf_eq h]
  unfold facing
  dsimp only
  cases hpeer : peerOf table (a, port reversed a .clockwise f) with
  | none => exact ⟨fun h => (by cases h), fun h => (by cases h)⟩
  | some e =>
    obtain ⟨b', nd⟩ := e
    dsimp only
    by_cases hnd : nd = port reversed b' .counterClockwise f
    · rw [if_pos hnd, hnd]
      constructor
      · intro heq
        rw [Except.ok.inj heq]
      · intro heq
        rw [(Prod.mk.inj (Option.some.inj heq)).1]
    · rw [if_neg hnd]
      refine ⟨fun h => (by cases h), fun heq => absurd ?_ hnd⟩
      obtain ⟨rfl, rfl⟩ := Prod.mk.inj (Option.some.inj heq)
      rfl

/-- **A step of the search goes to the linked host.** -/
theorem nextHost_ok {table : List (End H × End H)} (h : peerTable inv hosts = .ok table)
    {a b : H} : nextHost reversed table a = .ok b ↔ Link inv hosts reversed a b := by
  have hlink : Link inv hosts reversed a b ↔
      facing reversed table a 0 = .ok b ∧ facing reversed table a 1 = .ok b := by
    rw [facing_ok h, facing_ok h]
    exact Fin.forall_fin_two
  rw [hlink]
  unfold nextHost
  cases h₀ : facing reversed table a 0 with
  | error e => exact ⟨fun h => (by cases h), fun h => (by cases h.1)⟩
  | ok b₀ =>
    cases h₁ : facing reversed table a 1 with
    | error e => exact ⟨fun h => (by cases h), fun h => (by cases h.2)⟩
    | ok b₁ =>
      show (if b₀ = b₁ then _ else _) = _ ↔ _
      by_cases heq : b₀ = b₁
      · rw [if_pos heq, heq, and_self]
      · rw [if_neg heq]
        refine ⟨fun h => (by cases h), fun h => absurd ?_ heq⟩
        rw [Except.ok.inj h.1, Except.ok.inj h.2]

/-- **The search follows an injective map**: a counter-clockwise port is cabled to one port. -/
theorem nextHost_injective {table : List (End H × End H)} (h : peerTable inv hosts = .ok table) :
    Injective (nextHost reversed table) := by
  intro a b c ha hb
  have hca := ((nextHost_ok h).mp ha 0).symm
  have hcb := ((nextHost_ok h).mp hb 0).symm
  exact (Prod.mk.inj (hca.unique hcb)).1

theorem Link.mem {a b : H} (h : Link inv hosts reversed a b) : a ∈ hosts ∧ b ∈ hosts := by
  obtain ⟨n, ha, hb⟩ := (h 0).mem
  exact ⟨(mem_endsWithNet.mp (mem_endsOf.mp ha)).1, (mem_endsWithNet.mp (mem_endsOf.mp hb)).1⟩

/-! ## Rings -/

/-- Cyclically consecutive elements are the links of a chain and of its end to its start. -/
theorem forall_zip_append {α : Type} {R : α → α → Prop} (a b : α) (l : List α) :
    (∀ p ∈ (a :: l).zip (l ++ [b]), R p.1 p.2) ↔
      (a :: l).IsChain R ∧ ∀ x ∈ (a :: l).getLast?, R x b := by
  induction l generalizing a with
  | nil => simp
  | cons c l ih =>
    rw [List.cons_append, List.zip_cons_cons, List.forall_mem_cons, ih c, List.isChain_cons_cons,
      List.getLast?_cons_cons, and_assoc]

theorem forall_zip_rotate {α : Type} {R : α → α → Prop} (a : α) (l : List α) :
    (∀ p ∈ (a :: l).zip ((a :: l).rotate 1), R p.1 p.2) ↔
      (a :: l).IsChain R ∧ ∀ x ∈ (a :: l).getLast?, R x a := by
  rw [List.rotate_cons_succ, List.rotate_zero]
  exact forall_zip_append a a l

theorem isChain_nextHost {table : List (End H × End H)} (h : peerTable inv hosts = .ok table)
    {l : List H} : (l.IsChain fun a b => nextHost reversed table a = .ok b) ↔
      l.IsChain (Link inv hosts reversed) :=
  List.IsChain.iff fun _ _ => nextHost_ok h

theorem checkRing_ok {order res : List H} (h : checkRing hosts order = .ok res) :
    order = res ∧ order.Perm hosts ∧ order.length = 4 := by
  unfold checkRing at h
  by_cases hc : order.isPerm hosts ∧ order.length = 4
  · rw [if_pos hc] at h
    exact ⟨Except.ok.inj h, List.isPerm_iff.mp hc.1, hc.2⟩
  · rw [if_neg hc] at h
    cases h

/-- **What is returned is a ring.** -/
theorem isRing_of_ok {first : H} {fuel : ℕ} {order : List H} (hfirst : hosts.head? = some first)
    (h : ringOrder inv hosts reversed first fuel = some (.ok order)) :
    Paired inv hosts ∧ IsRing inv hosts reversed order := by
  unfold ringOrder at h
  cases htable : peerTable inv hosts with
  | error e => rw [htable] at h; cases h
  | ok table =>
    rw [htable] at h
    obtain ⟨r, hwalk, hr⟩ := Option.map_eq_some_iff.mp h
    cases r with
    | error e => cases hr
    | ok found =>
      obtain ⟨rfl, hperm, -⟩ := checkRing_ok hr
      obtain ⟨last, hpath, hback⟩ := walk_ok (nextHost_injective htable) (Path.single _ first) hwalk
      obtain ⟨rest, rfl⟩ := List.head?_eq_some_iff.mp hpath.head
      refine ⟨(peerTable_ok htable).1, hfirst.symm, hperm, ?_⟩
      refine (forall_zip_rotate first rest).mpr ⟨(isChain_nextHost htable).mp hpath.chain, ?_⟩
      intro x hx
      obtain rfl : x = last := Option.some.inj (hx.symm.trans hpath.last)
      exact (nextHost_ok htable).mp hback

theorem port_ne (a : H) (f : Fin 2) :
    port reversed a .clockwise f ≠ port reversed a .counterClockwise f := by
  unfold port
  by_cases h : a ∈ reversed
  · rw [if_pos h, if_pos h]
    revert f
    decide
  · rw [if_neg h, if_neg h]
    revert f
    decide

/-- **A host that is linked is listed once**: a cable has one port of it at an end. -/
theorem count_of_link {a b : H} (h : Link inv hosts reversed a b) : ¬ [a, a].Sublist hosts := by
  intro hsub
  obtain ⟨n, hn⟩ := h 0
  have hin : (a, port reversed a .clockwise 0) ∈ endsOf inv [a] n := by
    have hmem : (a, port reversed a .clockwise 0) ∈ endsOf inv hosts n := by
      rcases hn with hn | hn <;> simp [hn]
    obtain ⟨-, hp⟩ := mem_endsWithNet.mp (mem_endsOf.mp hmem)
    exact mem_endsOf.mpr (mem_endsWithNet.mpr ⟨List.mem_singleton_self a, hp⟩)
  have htwice : endsOf inv [a, a] n = endsOf inv [a] n ++ endsOf inv [a] n := by
    simp [endsOf, endsWithNet]
  have hsub' : (endsOf inv [a, a] n).Sublist (endsOf inv hosts n) :=
    ((hsub.flatMap _).filter _).map _
  have hpair : [(a, port reversed a .clockwise 0), (a, port reversed a .clockwise 0)].Sublist
      (endsOf inv hosts n) := by
    refine List.Sublist.trans ?_ hsub'
    rw [htwice]
    exact (List.singleton_sublist.mpr hin).append (List.singleton_sublist.mpr hin)
  -- both ends of the cable would be this port
  have hne : (a, port reversed a .clockwise 0) ≠ (b, port reversed b .counterClockwise 0) := by
    intro heq
    obtain ⟨rfl, hport⟩ := Prod.mk.inj heq
    exact port_ne a 0 hport
  rcases hn with hn | hn
  · rw [hn] at hpair
    have heq := hpair.eq_of_length rfl
    exact hne (List.cons.inj (List.cons.inj heq).2).1
  · rw [hn] at hpair
    have heq := hpair.eq_of_length rfl
    exact hne (List.cons.inj heq).1

/-- **A ring is found.** -/
theorem ok_of_isRing {first : H} {order : List H} {fuel : ℕ} (hfirst : hosts.head? = some first)
    (h4 : hosts.length = 4) (hfuel : 4 ≤ fuel) (hpaired : Paired inv hosts)
    (hring : IsRing inv hosts reversed order) :
    ringOrder inv hosts reversed first fuel = some (.ok order) := by
  obtain ⟨table, htable⟩ := exists_peersFrom hpaired
  have htable : peerTable inv hosts = .ok table := htable
  obtain ⟨rest, rfl⟩ := List.head?_eq_some_iff.mp (hring.head.trans hfirst)
  obtain ⟨hchain, hclose⟩ := (forall_zip_rotate first rest).mp hring.links
  have hlength : (first :: rest).length = 4 := hring.perm.length_eq.trans h4
  obtain ⟨last, hlast⟩ : ∃ last, (first :: rest).getLast? = some last :=
    ⟨_, List.getLast?_eq_getLast_of_ne_nil (List.cons_ne_nil first rest)⟩
  -- every host of the ring is linked to one, so none is listed twice
  have hnodup : (first :: rest).Nodup := by
    refine hring.perm.nodup_iff.mpr (List.nodup_iff_sublist.mpr fun a hsub => ?_)
    have hmem : a ∈ first :: rest :=
      hring.perm.mem_iff.mpr (hsub.subset List.mem_cons_self)
    have hzip : ((first :: rest).zip ((first :: rest).rotate 1)).map Prod.fst = first :: rest :=
      List.map_fst_zip (by rw [List.length_rotate])
    obtain ⟨p, hp, rfl⟩ := List.mem_map.mp (hzip.symm ▸ hmem)
    exact count_of_link (hring.links p hp) hsub
  have hwalk : walk (nextHost reversed table) first (rest.length + 1) [first] first =
      some (.ok ([first] ++ rest)) :=
    walk_cycle rfl rfl hlast hnodup ((isChain_nextHost htable).mpr hchain)
      ((nextHost_ok htable).mpr (hclose last hlast))
  have hrest : rest.length + 1 = 4 := hlength
  rw [hrest] at hwalk
  obtain ⟨k, rfl⟩ := Nat.exists_eq_add_of_le hfuel
  have hcheck : checkRing hosts (first :: rest) = .ok (first :: rest) :=
    if_pos ⟨List.isPerm_iff.mpr hring.perm, hlength⟩
  unfold ringOrder
  rw [htable]
  dsimp only
  rw [walk_mono hwalk, Option.map_some]
  exact congrArg some hcheck

theorem ringOrder_mono {first : H} {fuel k : ℕ} {r : Except (Error H) (List H)}
    (h : ringOrder inv hosts reversed first fuel = some r) :
    ringOrder inv hosts reversed first (fuel + k) = some r := by
  unfold ringOrder at h ⊢
  cases htable : peerTable inv hosts with
  | error e => rw [htable] at h; exact h
  | ok table =>
    rw [htable] at h
    obtain ⟨w, hw, rfl⟩ := Option.map_eq_some_iff.mp h
    exact Option.map_eq_some_iff.mpr ⟨w, walk_mono hw, rfl⟩

/-- **The search ends.** -/
theorem exists_ringOrder {first : H} {fuel : ℕ} (hfirst : hosts.head? = some first)
    (hfuel : hosts.length ≤ fuel) : ∃ r, ringOrder inv hosts reversed first fuel = some r := by
  unfold ringOrder
  cases htable : peerTable inv hosts with
  | error e => exact ⟨_, rfl⟩
  | ok table =>
    have hclosed : ∀ a b, nextHost reversed table a = .ok b → b ∈ hosts := fun a b hab =>
      ((nextHost_ok htable).mp hab).mem.2
    obtain ⟨r, hr⟩ := walk_ends hclosed (nextHost_injective htable) (Path.single _ first)
      (List.cons_subset.mpr ⟨List.mem_of_head? hfirst, List.nil_subset _⟩)
      (Nat.lt_succ_of_le hfuel)
    exact ⟨_, Option.map_eq_some_iff.mpr ⟨r, hr, rfl⟩⟩

/-! ## The topology -/

/-- The next host of a ring of four. -/
theorem link_of_isRing {order : List H} (h4 : order.length = 4)
    (hring : IsRing inv hosts reversed order) {r : ℕ} (hr : r < 4) :
    ∃ a b, order[r]? = some a ∧ order[(r + 1) % 4]? = some b ∧ Link inv hosts reversed a b := by
  have hlt : (r + 1) % 4 < order.length := by
    rw [h4]
    exact Nat.mod_lt _ (by decide)
  have hr' : r < order.length := h4 ▸ hr
  refine ⟨order[r], order[(r + 1) % 4], List.getElem?_eq_getElem hr', List.getElem?_eq_getElem hlt,
    ?_⟩
  have hmod : (r + 1) % 4 = (r + 1) % order.length := by rw [h4]
  have hmem : (order[r], order[(r + 1) % 4]) ∈ order.zip (order.rotate 1) := by
    have hzip : r < (order.zip (order.rotate 1)).length := by
      rw [List.length_zip, List.length_rotate, min_self]
      exact hr'
    refine List.mem_iff_getElem.mpr ⟨r, hzip, ?_⟩
    rw [List.getElem_zip, List.getElem_rotate]
    simp only [hmod]
  exact hring.links _ hmem

/-- A port of a cable is in the inventory. -/
theorem exists_topoPort {order : List H} {r : ℕ} {h : H} (hr : order[r]? = some h) {d : Direction}
    {f : Fin 2} {e : End H} (hc : Cabled inv hosts (h, port reversed h d f) e) :
    ∃ p, topoPort inv reversed order r d f = some p ∧ p.netdev = port reversed h d f ∧
      p.peerRank = peerRank r d ∧ p.peerDirection = d.flip ∧ p.peerFunction = f := by
  obtain ⟨n, hn, -⟩ := hc.mem
  obtain ⟨-, p, hp, -⟩ := mem_endsWithNet.mp (mem_endsOf.mp hn)
  have hport : ∃ q, inv.port h (port reversed h d f) = some q := by
    obtain ⟨q, hq⟩ := Option.isSome_iff_exists.mp (List.find?_isSome
      (p := fun q : String × Port => decide (q.1 = port reversed h d f)).mpr
        ⟨_, hp, decide_eq_true rfl⟩)
    exact ⟨q.2, by unfold Inventory.port; rw [hq]; rfl⟩
  obtain ⟨q, hq⟩ := hport
  unfold topoPort
  rw [hr, Option.bind_some, hq, Option.map_some]
  exact ⟨_, rfl, rfl, rfl, rfl, rfl⟩

/-- **The port named for a rank is cabled to the port named for its peer.** -/
theorem topoPort_cabled {order : List H} (h4 : order.length = 4)
    (hring : IsRing inv hosts reversed order) {r : ℕ} (hr : r < 4) (d : Direction) (f : Fin 2) :
    ∃ p q a b, topoPort inv reversed order r d f = some p ∧
      topoPort inv reversed order p.peerRank p.peerDirection p.peerFunction = some q ∧
      order[r]? = some a ∧ order[p.peerRank]? = some b ∧
      Cabled inv hosts (a, p.netdev) (b, q.netdev) := by
  -- the link of which the port is the clockwise end, or the counter-clockwise one
  have hends : ∃ a b, order[r]? = some a ∧ order[peerRank r d]? = some b ∧
      Cabled inv hosts (a, port reversed a d f) (b, port reversed b d.flip f) := by
    cases d with
    | clockwise =>
      obtain ⟨a, b, ha, hb, hlink⟩ := link_of_isRing h4 hring hr
      exact ⟨a, b, ha, hb, hlink f⟩
    | counterClockwise =>
      obtain ⟨a, b, ha, hb, hlink⟩ := link_of_isRing h4 hring (Nat.mod_lt (r + 3) (by decide))
      have hback : ((r + 3) % 4 + 1) % 4 = r := by omega
      rw [hback] at hb
      exact ⟨b, a, hb, ha, (hlink f).symm⟩
  obtain ⟨a, b, ha, hb, hc⟩ := hends
  obtain ⟨p, hp, hnd, hrank, hdir, hfun⟩ := exists_topoPort ha hc
  obtain ⟨q, hq, hnd', -⟩ := exists_topoPort hb hc.symm
  refine ⟨p, q, a, b, hp, ?_, ha, hrank ▸ hb, ?_⟩
  · rw [hrank, hdir, hfun]
    exact hq
  · rw [hnd, hnd']
    exact hc

/-- **Ring discovery.** For any four hosts, any reversed hosts and any inventory with addresses:
the search ends, within four steps; the result is an order exactly if every subnet has two ports
and the order is a ring, and an error otherwise; and in the topology of the order, each port is
cabled to the port named for its peer. -/
theorem ring_order_sound (inv : Inventory H) (hosts reversed : List H) (h4 : hosts.length = 4) :
    ∃ first r, hosts.head? = some first ∧
      (∀ fuel, 4 ≤ fuel → ringOrder inv hosts reversed first fuel = some r) ∧
      (∀ order, r = .ok order ↔ Paired inv hosts ∧ IsRing inv hosts reversed order) ∧
      ∀ order, r = .ok order → ∀ k < 4, ∀ d f, ∃ p q a b,
        topoPort inv reversed order k d f = some p ∧
        topoPort inv reversed order p.peerRank p.peerDirection p.peerFunction = some q ∧
        order[k]? = some a ∧ order[p.peerRank]? = some b ∧
        Cabled inv hosts (a, p.netdev) (b, q.netdev) := by
  obtain ⟨first, hfirst⟩ : ∃ first, hosts.head? = some first := by
    cases hosts with
    | nil => cases h4
    | cons first rest => exact ⟨first, rfl⟩
  obtain ⟨r, hr⟩ := @exists_ringOrder H inv hosts reversed _ first 4 hfirst h4.le
  have hring : ∀ order, r = .ok order → Paired inv hosts ∧ IsRing inv hosts reversed order := by
    rintro order rfl
    exact isRing_of_ok hfirst hr
  refine ⟨first, r, hfirst, fun fuel hfuel => ?_, fun order => ⟨hring order, fun h => ?_⟩,
    fun order hok k hk d f => ?_⟩
  · obtain ⟨k, rfl⟩ := Nat.exists_eq_add_of_le hfuel
    exact ringOrder_mono hr
  · exact Option.some.inj (hr.symm.trans (ok_of_isRing hfirst h4 le_rfl h.1 h.2))
  · have h := (hring order hok).2
    exact topoPort_cabled (h.perm.length_eq.trans h4) h hk d f

/-- Two functions' cables of a ring of the hosts 0 to 3, in which host 2 is reversed. -/
def smallInventory : Inventory (Fin 4) where
  ports h := [("enp1s0f0np0", ⟨if h = 2 then 256 else 256 * h, 24, "", ""⟩),
    ("enp1s0f1np1", ⟨if h = 2 then 512 else 256 * (h + 3 : Fin 4), 24, "", ""⟩),
    ("enP2p1s0f0np0", ⟨if h = 2 then 2304 else 256 * (h + 8), 24, "", ""⟩),
    ("enP2p1s0f1np1", ⟨if h = 2 then 2560 else 256 * ((h + 3 : Fin 4) + 8), 24, "", ""⟩)]
  nodup h := by revert h; decide

/-- It is found, also with a far larger bound on the search. -/
theorem ring_order_sound_small :
    ringOrder smallInventory [0, 1, 2, 3] [2] 0 1000 = some (.ok [0, 1, 2, 3]) := by
  obtain ⟨first, r, hfirst, hr, -⟩ := ring_order_sound smallInventory [0, 1, 2, 3] [2] rfl
  obtain rfl : first = 0 := (Option.some.inj hfirst).symm
  rw [hr 1000 (by decide), ← hr 4 le_rfl]
  decide +kernel

end RingMesh

import Mathlib.Data.Nat.Bitwise
import Mathlib.Data.List.GetD
import Mathlib.Tactic.IntervalCases
import SparkTP4.FallibleLoop
import SparkTP4.RingPathsConnect

/-!
# A map that Python accepts is one that the proxy stores

What the checks of `peer_hca_map` leave of a map is `Accepted`: a row for every rank, with as
many different devices as there are paths. The flattening keeps such rows, byte for byte, so the
checks of `roce_create` find them as they were; the tables of four-path mode come out complete
because there is only one map for each of the four ranks.
-/

namespace RingPaths

open FallibleLoop

variable {py : Py} {env : Env} {world rank n opposite : ℕ} {m : List (List ℤ)}

/-! ## What Python accepts -/

/-- The row of another rank. -/
structure RowOk (world rank n opposite : ℕ) (p : ℤ) (paths : List ℤ) : Prop where
  length : paths.length = peerPathCount world rank opposite p
  nodup : paths.Nodup
  range : ∀ h ∈ paths, 0 ≤ h ∧ h < n

/-- A map with a row for every rank. -/
structure Accepted (world rank n opposite : ℕ) (m : List (List ℤ)) : Prop where
  length : m.length = world
  own : m.getD rank [] = [-1, -1]
  row : ∀ p < world, p ≠ rank → RowOk world rank n opposite p (m.getD p [])

/-- An entry that is read has as many numbers as the peer has paths. -/
theorem length_of_parseItem {item : Text} {peer : ℤ} {paths : List ℤ}
    (h : parseItem py world rank opposite item = some (peer, paths)) :
    paths.length = peerPathCount world rank opposite peer := by
  unfold parseItem at h
  obtain ⟨⟨peerText, pathsText⟩, -, h⟩ := Option.bind_eq_some_iff.mp h
  obtain ⟨peer', -, h⟩ := Option.bind_eq_some_iff.mp h
  by_cases hlen : (pathsText.splitOn '/').length = peerPathCount world rank opposite peer'
  · rw [if_pos hlen] at h
    obtain ⟨paths', hpaths, h⟩ := Option.bind_eq_some_iff.mp h
    obtain ⟨rfl, rfl⟩ := Prod.mk.inj (Option.some.inj h)
    rw [← (forall₂_of_mapM hpaths).length_eq, hlen]
  · rw [if_neg hlen] at h
    exact nomatch h

/-- **An entry that is added** has a row that is as it should be. -/
theorem rowOk_of_addEntry {parsed parsed' : List (ℤ × List ℤ)} {entry : Text}
    (h : addEntry py world rank n opposite parsed entry = .ok parsed') :
    ∃ e, parsed' = parsed ++ [e] ∧ RowOk world rank n opposite e.1 e.2 := by
  unfold addEntry at h
  dsimp only at h
  cases hitem : parseItem py world rank opposite (py.strip entry) with
  | none =>
    rw [hitem] at h
    exact nomatch h
  | some e =>
    obtain ⟨peer, paths⟩ := e
    rw [hitem] at h
    dsimp only at h
    split_ifs at h with hrank hseen hpaths
    obtain rfl := Except.ok.inj h
    rw [not_or, not_not] at hpaths
    obtain ⟨hdedup, hrange⟩ := hpaths
    refine ⟨(peer, paths), rfl, length_of_parseItem hitem, ?_, fun x hx => ?_⟩
    · exact List.dedup_eq_self.mp ((List.dedup_sublist paths).eq_of_length hdedup)
    · have hx' := not_exists.mp hrange x
      rw [not_and, not_or] at hx'
      exact ⟨not_lt.mp (hx' hx).1, not_le.mp (hx' hx).2⟩

/-- Four opposite paths are for four ranks with four devices. -/
theorem oppositePathCount_ok (h : oppositePathCount py env world n = .ok opposite) :
    opposite = 2 ∨ opposite = 4 ∧ world = 4 ∧ n = 4 := by
  unfold oppositePathCount at h
  dsimp only at h
  split_ifs at h with hraw
  · exact .inl (Except.ok.inj h).symm
  · cases hint : py.int (py.getenv env.oppositePaths) with
    | none =>
      rw [hint] at h
      exact nomatch h
    | some count =>
      rw [hint] at h
      dsimp only at h
      split_ifs at h with hcount hfour
      obtain rfl := Except.ok.inj h
      omega

/-- A row of a map made row by row. -/
theorem getD_map_range {α : Type} (row : ℕ → α) (d : α) {p : ℕ} (hp : p < n) :
    ((List.range n).map row).getD p d = row p := by
  simp [List.getD_eq_getElem?_getD, hp]

/-- The map without a text: every peer on the two devices. -/
theorem accepted_default (hrank : rank < world) :
    Accepted world rank 2 2
      ((List.range world).map fun peer => if peer = rank then [-1, -1] else [0, 1]) := by
  refine ⟨by simp, ?_, fun p hp hne => ?_⟩
  · rw [getD_map_range _ _ hrank, if_pos rfl]
  · rw [getD_map_range _ _ hp, if_neg hne]
    have hne' : (p : ℤ) ≠ rank := mod_cast hne
    refine ⟨?_, by decide, by decide⟩
    unfold peerPathCount
    rw [if_neg hne', ite_self]
    rfl

/-- The map of a text: the rows that were parsed, when there is one for every peer. -/
theorem accepted_parsed {parsed : List (ℤ × List ℤ)} (hrank : rank < world)
    (hall : ∀ e ∈ parsed, RowOk world rank n opposite e.1 e.2)
    (hkeys : (parsed.map Prod.fst).toFinset = expectedPeers world rank) :
    Accepted world rank n opposite ((List.range world).map fun (peer : ℕ) =>
      if peer = rank then [-1, -1]
      else ((parsed.find? fun e => e.1 = (peer : ℤ)).map Prod.snd).getD []) := by
  refine ⟨by simp, ?_, fun p hp hne => ?_⟩
  · rw [getD_map_range _ _ hrank, if_pos rfl]
  · rw [getD_map_range _ _ hp, if_neg hne]
    have hmem : (p : ℤ) ∈ (parsed.map Prod.fst).toFinset := by
      rw [hkeys, expectedPeers]
      simp [hp, hne]
    obtain ⟨e, he, hpe⟩ := List.mem_map.mp (List.mem_toFinset.mp hmem)
    cases hfind : parsed.find? fun e => e.1 = (p : ℤ) with
    | none =>
      rw [List.find?_eq_none] at hfind
      exact absurd hpe (by simpa using hfind e he)
    | some e' =>
      have hp' : e'.1 = (p : ℤ) := by simpa using List.find?_some hfind
      have he' := hall e' (List.mem_of_find?_eq_some hfind)
      rw [hp'] at he'
      exact he'

/-- **What `peer_hca_map` accepts.** -/
theorem accepted_of_peerHcaMap (hrank : rank < world) (hopp : n = 2 → opposite = 2)
    (h : peerHcaMap py env world rank n opposite = .ok m) :
    2 ≤ n ∧ Accepted world rank n opposite m := by
  unfold peerHcaMap at h
  by_cases hn : n < 2
  · rw [if_pos hn] at h
    exact nomatch h
  rw [if_neg hn, bind_eq_ok] at h
  obtain ⟨raw, -, h⟩ := h
  refine ⟨not_lt.mp hn, ?_⟩
  by_cases hraw : raw = []
  · rw [if_pos hraw] at h
    by_cases htwo : n = 2
    · rw [if_pos htwo] at h
      obtain rfl := Except.ok.inj h
      rw [hopp htwo, htwo]
      exact accepted_default hrank
    · rw [if_neg htwo] at h
      exact nomatch h
  · rw [if_neg hraw, bind_eq_ok] at h
    obtain ⟨parsed, hparsed, h⟩ := h
    by_cases hkeys : (parsed.map Prod.fst).toFinset = expectedPeers world rank
    · rw [if_neg (not_not.mpr hkeys)] at h
      obtain rfl := Except.ok.inj h
      refine accepted_parsed hrank ?_ hkeys
      refine foldlM_inv (fun parsed => ∀ e ∈ parsed, RowOk world rank n opposite e.1 e.2)
        (fun entry _ s s' hs hadd => ?_) (by simp) hparsed
      obtain ⟨e, rfl, he⟩ := rowOk_of_addEntry hadd
      intro e' he'
      obtain he' | he' := List.mem_append.mp he'
      · exact hs e' he'
      · obtain rfl := List.mem_singleton.mp he'
        exact he
    · rw [if_pos hkeys] at h
      exact nomatch h

/-- **What a rank selects**: an accepted map, and with four opposite paths the one of the rank. -/
theorem selectPaths_ok {hcaNames : List String} (hrank : rank < world)
    (h : selectPaths py env world rank hcaNames = .ok (opposite, m)) :
    2 ≤ hcaNames.length ∧ Accepted world rank hcaNames.length opposite m ∧
      (opposite = 2 ∨ opposite = 4 ∧ world = 4 ∧ hcaNames = canonicalHcas ∧
        m = canonicalMap.getD rank []) := by
  unfold selectPaths at h
  rw [bind_eq_ok] at h
  obtain ⟨opp, hopp, h⟩ := h
  rw [bind_eq_ok] at h
  obtain ⟨map, hmap, h⟩ := h
  rw [bind_eq_ok] at h
  obtain ⟨⟨⟩, hval, h⟩ := h
  obtain ⟨rfl, rfl⟩ := Prod.mk.inj (Except.ok.inj h)
  have hcount := oppositePathCount_ok hopp
  obtain ⟨hn, hacc⟩ := accepted_of_peerHcaMap hrank (by omega) hmap
  refine ⟨hn, hacc, hcount.imp_right fun h4 => ⟨h4.1, h4.2.1, ?_⟩⟩
  unfold validateFourPathTp4Mapping at hval
  rw [if_neg (not_not.mpr h4.1)] at hval
  by_cases hbad : world ≠ 4 ∨ hcaNames ≠ canonicalHcas ∨ map ≠ canonicalMap.getD rank []
  · rw [if_pos hbad] at hval
    exact nomatch hval
  · rw [not_or, not_or, not_not, not_not, not_not] at hbad
    exact hbad.2

/-! ## The bytes of a map -/

/-- A row as `_flatten_peer_hca_map` writes it. -/
def paddedRow (paths : List ℤ) : List ℤ :=
  (paths.map fun hca => if hca < 0 then 255 else hca) ++ List.replicate (4 - paths.length) 255

theorem peerPathCount_le (hopp : opposite = 2 ∨ opposite = 4) (p : ℤ) :
    peerPathCount world rank opposite p ≤ 4 := by
  unfold peerPathCount
  split_ifs <;> omega

/-- No row is longer than four. -/
theorem Accepted.length_le (h : Accepted world rank n opposite m)
    (hopp : opposite = 2 ∨ opposite = 4) {p : ℕ} (hp : p < world) : (m.getD p []).length ≤ 4 := by
  by_cases hne : p = rank
  · rw [hne, h.own]
    decide
  · rw [(h.row p hp hne).length]
    exact peerPathCount_le hopp p

theorem length_paddedRow {paths : List ℤ} (h : paths.length ≤ 4) :
    (paddedRow paths).length = 4 := by
  rw [paddedRow, List.length_append, List.length_map, List.length_replicate]
  omega

/-- **An accepted map is flattened.** -/
theorem flattenPeerHcaMap_ok (h : Accepted world rank n opposite m)
    (hopp : opposite = 2 ∨ opposite = 4) :
    flattenPeerHcaMap world rank opposite m = .ok (m.map paddedRow).flatten := by
  have hentry : ∀ e ∈ m.zipIdx, flattenEntry world rank opposite e = .ok (paddedRow e.1) := by
    rintro ⟨paths, p⟩ he
    obtain ⟨hp, hget⟩ := List.mem_zipIdx' he
    have hp' : p < world := h.length ▸ hp
    rw [← List.getD_eq_getElem m [] hp] at hget
    unfold flattenEntry
    dsimp only
    rw [hget, List.length_map, if_neg (not_lt.mpr (h.length_le hopp hp'))]
    by_cases hne : p = rank
    · rw [if_neg fun hbad => ?_, if_neg fun hbad => hbad.1 hne]
      · rfl
      · rw [hne, h.own] at hbad
        exact absurd hbad.2 (by decide)
    · rw [if_neg fun hbad => hne hbad.1, if_neg fun hbad => hbad.2 (h.row p hp' hne).length]
      rfl
  unfold flattenPeerHcaMap
  rw [if_neg (by omega), if_neg (not_not.mpr h.length), mapM_eq_ok hentry]
  have hrows : m.zipIdx.map (paddedRow ∘ Prod.fst) = m.map paddedRow := by
    rw [← List.map_map, List.zipIdx_map_fst]
  exact congrArg (fun rows => Except.ok rows.flatten) hrows

/-- An entry of rows of one length, one after the other. -/
theorem getD_flatten {α : Type} {L : List (List α)} {w : ℕ} (h : ∀ l ∈ L, l.length = w) (d : α)
    {p k : ℕ} (hk : k < w) : L.flatten.getD (p * w + k) d = (L.getD p []).getD k d := by
  induction L generalizing p with
  | nil => simp
  | cons l L ih =>
    have hl := h l List.mem_cons_self
    rw [List.flatten_cons]
    cases p with
    | zero =>
      rw [Nat.zero_mul, Nat.zero_add, List.getD_append _ _ _ _ (hl.symm ▸ hk)]
      rfl
    | succ p =>
      have hle : l.length ≤ (p + 1) * w + k := by
        rw [hl, Nat.succ_mul]
        omega
      rw [List.getD_append_right _ _ _ _ hle, List.getD_cons_succ,
        ← ih fun x hx => h x (List.mem_cons_of_mem l hx), hl]
      congr 1
      rw [Nat.succ_mul]
      omega

theorem length_flatten_of {α : Type} {L : List (List α)} {w : ℕ} (h : ∀ l ∈ L, l.length = w) :
    L.flatten.length = L.length * w := by
  induction L with
  | nil => simp
  | cons l L ih =>
    rw [List.flatten_cons, List.length_append, h l List.mem_cons_self,
      ih fun x hx => h x (List.mem_cons_of_mem l hx), List.length_cons, Nat.succ_mul, Nat.add_comm]

/-! ## What the proxy stores -/

/-- A row as `roce_create` stores it. -/
def storedRow (paths : List ℤ) : List ℤ := paths ++ List.replicate (4 - paths.length) (-1)

/-- The arguments of `roce_create` carry this map. -/
structure Carries (a : Args) (m : List (List ℤ)) : Prop where
  accepted : Accepted a.world a.rank a.nHca a.oppositePaths m
  bytes : a.peerHcaMap = hcaBytes (m.map paddedRow).flatten
  rank : a.rank < a.world
  opposite : a.oppositePaths = 2 ∨ a.oppositePaths = 4
  hcas : a.nHca ≤ 4

variable {a : Args} {p k : ℕ}

/-- Every row is written in four bytes. -/
theorem Carries.length_paddedRow (h : Carries a m) : ∀ l ∈ m.map paddedRow, l.length = 4 := by
  intro l hl
  obtain ⟨paths, hpaths, rfl⟩ := List.mem_map.mp hl
  obtain ⟨q, hq, rfl⟩ := List.getElem_of_mem hpaths
  refine RingPaths.length_paddedRow ?_
  rw [← List.getD_eq_getElem m [] hq]
  exact h.accepted.length_le h.opposite (h.accepted.length ▸ hq)

theorem mapByte_eq (h : Carries a m) (hp : p < a.world) (hk : k < 4) :
    mapByte a p k = ((paddedRow (m.getD p [])).getD k 0 % 256).toNat := by
  have hrow : (m.map paddedRow).getD p [] = paddedRow (m.getD p []) := by
    simp [List.getD_eq_getElem?_getD, h.accepted.length.symm ▸ hp]
  rw [mapByte, h.bytes, hcaBytes,
    show (0 : ℕ) = (fun v : ℤ => (v % 256).toNat) 0 from rfl, List.getD_map,
    getD_flatten h.length_paddedRow 0 hk, hrow]

/-- The byte of an active path is its device. -/
theorem mapByte_active (h : Carries a m) (hp : p < a.world) (hne : p ≠ a.rank)
    (hk : k < (m.getD p []).length) : mapByte a p k = ((m.getD p []).getD k 0).toNat := by
  have hk4 : k < 4 := lt_of_lt_of_le hk (h.accepted.length_le h.opposite hp)
  have hmem : (m.getD p []).getD k 0 ∈ m.getD p [] := by
    rw [List.getD_eq_getElem _ _ hk]
    exact List.getElem_mem hk
  obtain ⟨hzero, hlt⟩ := (h.accepted.row p hp hne).range _ hmem
  have hn := h.hcas
  have hvalue : ((m.getD p []).map fun hca => if hca < 0 then 255 else hca).getD k 0 =
      (m.getD p []).getD k 0 := by
    rw [List.getD_eq_getElem _ _ (by rwa [List.length_map]), List.getElem_map,
      ← List.getD_eq_getElem _ 0 hk, if_neg (not_lt.mpr hzero)]
  rw [mapByte_eq h hp hk4, paddedRow, List.getD_append _ _ _ _ (by rwa [List.length_map]), hvalue,
    Int.emod_eq_of_lt hzero (by omega)]

/-- The byte of a path that is not active is 255. -/
theorem mapByte_inactive (h : Carries a m) (hp : p < a.world) (hk : (m.getD p []).length ≤ k)
    (hk4 : k < 4) : mapByte a p k = 255 := by
  have hlen := h.accepted.length_le h.opposite hp
  rw [mapByte_eq h hp hk4, paddedRow, List.getD_append_right _ _ _ _ (by rwa [List.length_map]),
    List.length_map, List.getD_eq_getElem _ _ (by rw [List.length_replicate]; omega),
    List.getElem_replicate]
  rfl

/-- C and Python count the paths alike. -/
theorem pathCount_eq (hrank : a.rank < a.world) (hp : p < a.world) (hne : p ≠ a.rank) :
    pathCount a p = peerPathCount a.world a.rank a.oppositePaths p := by
  have hne' : (p : ℤ) ≠ a.rank := mod_cast hne
  unfold pathCount peerPathCount
  rw [if_neg hne']
  refine if_congr (and_congr_right fun hw => ?_) rfl rfl
  rw [hw] at hrank hp ⊢
  omega

/-- Also for the rank itself. -/
theorem pathCounts_eq (hrank : a.rank < a.world) : pathCounts a =
    (List.range a.world).map fun (p : ℕ) => peerPathCount a.world a.rank a.oppositePaths p := by
  refine List.map_congr_left fun p hp => ?_
  by_cases hne : p = a.rank
  · rw [if_pos hne, hne, peerPathCount, if_pos rfl]
  · rw [if_neg hne]
    exact pathCount_eq hrank (List.mem_range.mp hp) hne

theorem length_row (h : Carries a m) (hp : p < a.world) (hne : p ≠ a.rank) :
    (m.getD p []).length = pathCount a p := by
  rw [pathCount_eq h.rank hp hne, (h.accepted.row p hp hne).length]

/-- A bit of `seen_hcas`. -/
theorem and_shiftLeft_ne_zero (seen h : ℕ) : seen &&& 1 <<< h ≠ 0 ↔ seen.testBit h = true := by
  rw [Nat.one_shiftLeft, Nat.and_two_pow]
  cases seen.testBit h <;> simp

/-- **Different devices pass the check** of the devices that were seen. -/
theorem readPaths_ok {hs : List ℤ} {seen : ℕ} (hrange : ∀ h ∈ hs, 0 ≤ h ∧ h < a.nHca)
    (hnodup : hs.Nodup) (hseen : ∀ h ∈ hs, seen.testBit h.toNat = false) :
    readPaths a p (hs.map Int.toNat) seen = .ok hs := by
  induction hs generalizing seen with
  | nil => rfl
  | cons h hs ih =>
    obtain ⟨hzero, hlt⟩ := hrange h List.mem_cons_self
    obtain ⟨hnot, hnodup⟩ := List.nodup_cons.mp hnodup
    have hrest : readPaths a p (hs.map Int.toNat) (seen ||| 1 <<< h.toNat) = .ok hs := by
      refine ih (fun x hx => hrange x (List.mem_cons_of_mem h hx)) hnodup fun x hx => ?_
      have hx0 := (hrange x (List.mem_cons_of_mem h hx)).1
      have hne : h.toNat ≠ x.toNat := fun heq => hnot <| by
        rwa [← Int.toNat_of_nonneg hzero, heq, Int.toNat_of_nonneg hx0]
      rw [Nat.testBit_or, hseen x (List.mem_cons_of_mem h hx), Nat.one_shiftLeft,
        Nat.testBit_two_pow_of_ne hne]
      rfl
    have hclear : ¬(h.toNat ≥ a.nHca ∨ seen &&& 1 <<< h.toNat ≠ 0) := by
      rw [and_shiftLeft_ne_zero, hseen h List.mem_cons_self, not_or]
      exact ⟨by omega, Bool.false_ne_true⟩
    rw [List.map_cons, readPaths, if_neg hclear, hrest, Int.toNat_of_nonneg hzero]
    rfl

/-- **The row of a peer is stored** as it is in the map. -/
theorem storePeer_eq (h : Carries a m) (hp : p < a.world) :
    storePeer a p = .ok (storedRow (m.getD p [])) := by
  unfold storePeer
  by_cases hne : p = a.rank
  · rw [if_pos hne, hne, h.accepted.own]
    rfl
  · have hrow := h.accepted.row p hp hne
    have hlen := length_row h hp hne
    have hbytes : (List.range (pathCount a p)).map (mapByte a p) =
        (m.getD p []).map Int.toNat := by
      refine List.ext_getElem ?_ fun k hk hk' => ?_
      · rw [List.length_map, List.length_map, List.length_range, hlen]
      rw [List.length_map] at hk'
      rw [List.getElem_map, List.getElem_map, List.getElem_range, mapByte_active h hp hne hk',
        List.getD_eq_getElem _ _ hk']
    have hinactive : (List.range' (pathCount a p) (4 - pathCount a p)).find?
        (fun path => mapByte a p path ≠ 255) = none := by
      rw [List.find?_eq_none]
      intro k hk
      rw [List.mem_range'_1] at hk
      simpa using mapByte_inactive h hp (hlen.trans_le hk.1) (by omega)
    rw [if_neg hne]
    dsimp only
    rw [hbytes, readPaths_ok hrow.range hrow.nodup fun x _ => Nat.zero_testBit _, hinactive,
      storedRow, hlen]
    rfl

/-- **The map is stored.** -/
theorem storePeers_eq (h : Carries a m) : storePeers a = .ok (m.map storedRow) := by
  unfold storePeers
  rw [mapM_eq_ok fun p hp => storePeer_eq h (List.mem_range.mp hp)]
  refine congrArg Except.ok (List.ext_getElem (by simp [h.accepted.length]) fun p hp hp' => ?_)
  rw [List.length_map] at hp'
  rw [List.getElem_map, List.getElem_map, List.getElem_range, List.getD_eq_getElem _ _ hp']

/-! ## The checks of the proxy -/

/-- **The geometry check passes** an accepted map. -/
theorem checkGeometry_ok {layout : Layout} (h : Carries a m)
    (hlayout : roceLayout a.world a.slotBytes = some layout)
    (hregion : layout.totalBytes ≤ a.regionBytes) (htwo : 2 ≤ a.nHca)
    (hfour : a.oppositePaths = 4 → a.world = 4 ∧ a.nHca = 4) :
    checkGeometry a = .ok layout := by
  have hlen : a.peerHcaMap.length = a.world * 4 := by
    rw [h.bytes, hcaBytes, List.length_map, length_flatten_of h.length_paddedRow, List.length_map,
      h.accepted.length]
  have hrank := h.rank
  have hopp := h.opposite
  have hn := h.hcas
  unfold checkGeometry
  rw [hlayout]
  dsimp only
  rw [if_neg]
  omega

/-- The tables depend on the map and the ranks only. -/
theorem fillTables_eq (rows : List (List ℤ)) : fillTables a rows =
    fillTables ⟨a.world, a.rank, a.hcaNames, 0, 0, 0, a.oppositePaths, []⟩ rows := rfl

theorem isCanonical_eq (rows : List (List ℤ)) : isCanonical a rows =
    isCanonical ⟨a.world, a.rank, a.hcaNames, 0, 0, 0, a.oppositePaths, []⟩ rows := rfl

/-- **The map of four-path mode is the canonical one**, and its tables are complete. -/
theorem canonical_ok (hopp : a.oppositePaths = 4) (hworld : a.world = 4) (hrank : a.rank < a.world)
    (hnames : a.hcaNames = canonicalHcas) :
    isCanonical a ((canonicalMap.getD a.rank []).map storedRow) = true ∧
      (fillTables a ((canonicalMap.getD a.rank []).map storedRow)).isOk = true := by
  rw [isCanonical_eq, fillTables_eq, hopp, hworld, hnames]
  rw [hworld] at hrank
  generalize a.rank = rank at hrank
  interval_cases rank <;> decide +kernel

variable {mach : Machine} {e : CreateError}

theorem readWaveMode_unset (h : Unset env.waveMode) :
    readWaveMode env a = .ok (if a.oppositePaths = 4 then .balanced32 else .two) := by
  unfold readWaveMode
  exact if_pos h

theorem readThreshold_error (h : readThreshold mach env = .error e) : e = .threshold := by
  unfold readThreshold at h
  dsimp only at h
  split_ifs at h
  exact (Except.error.inj h).symm

theorem openHcas_error (h : openHcas mach a = .error e) : ∃ d, e = .device d := by
  unfold openHcas at h
  cases hfind : a.hcaNames.zipIdx.find? fun name => !mach.opens name.2 name.1 with
  | none =>
    rw [hfind] at h
    exact nomatch h
  | some name =>
    rw [hfind] at h
    exact ⟨name.2, (Except.error.inj h).symm⟩

/-- **The proxy refuses an accepted map for no reason of its own.** -/
theorem roceCreate_error {layout : Layout} (h : Carries a m) (hgeo : checkGeometry a = .ok layout)
    (hwave : Unset env.waveMode)
    (hcanonical : a.oppositePaths = 2 ∨ a.oppositePaths = 4 ∧ a.world = 4 ∧
      a.hcaNames = canonicalHcas ∧ m = canonicalMap.getD a.rank [])
    (he : roceCreate mach env a = .error e) :
    e = .memory ∨ e = .threshold ∨ ∃ d, e = .device d := by
  -- with two paths nothing is asked of the map, with four it is the canonical one
  have hfinish : checkCanonical a (if a.oppositePaths = 4 then .balanced32 else .two)
      (m.map storedRow) = .ok () ∧ (fillTables a (m.map storedRow)).isOk = true := by
    obtain htwo | ⟨hfour, hworld, hnames, rfl⟩ := hcanonical
    · have hnot : a.oppositePaths ≠ 4 := by omega
      unfold checkCanonical fillTables
      rw [if_neg hnot, if_neg hnot, if_neg fun hbad => hbad.1.elim hnot fun hbad => hbad rfl]
      exact ⟨rfl, rfl⟩
    · obtain ⟨hcan, htables⟩ := canonical_ok hfour hworld h.rank hnames
      unfold checkCanonical
      rw [hcan, if_neg fun hbad => Bool.noConfusion hbad.2]
      exact ⟨rfl, htables⟩
  obtain ⟨hcheck, htables⟩ := hfinish
  unfold roceCreate at he
  rw [hgeo, readWaveMode_unset hwave, storePeers_eq h] at he
  cases hmem : mach.calloc with
  | false =>
    rw [hmem] at he
    exact .inl (Except.error.inj he).symm
  | true =>
    rw [hmem] at he
    change (readThreshold mach env >>= _) = _ at he
    obtain he | ⟨threshold, -, he⟩ := bind_eq_error.mp he
    · exact .inr (.inl (readThreshold_error he))
    change (checkCanonical a _ (m.map storedRow) >>= _) = _ at he
    rw [hcheck] at he
    change (fillTables a (m.map storedRow) >>= _) = _ at he
    obtain he | ⟨t, -, he⟩ := bind_eq_error.mp he
    · rw [he] at htables
      exact nomatch htables
    obtain he | ⟨-, -, he⟩ := bind_eq_error.mp he
    · exact .inr (.inr (openHcas_error he))
    · exact nomatch he

/-- **A proxy that is created has the map** and the counts of its arguments. -/
theorem roceCreate_ok {c : Ctx} (h : roceCreate mach env a = .ok c) :
    (∃ layout, checkGeometry a = .ok layout) ∧ storePeers a = .ok c.peerHca ∧
      c.world = a.world ∧ c.rank = a.rank ∧ c.nHca = a.nHca ∧ c.region = a.region ∧
      c.oppositePaths = a.oppositePaths ∧ c.pathCounts = pathCounts a := by
  unfold roceCreate at h
  obtain ⟨layout, hgeo, h⟩ := bind_eq_ok.mp h
  cases hmem : mach.calloc with
  | false =>
    rw [hmem] at h
    exact nomatch h
  | true =>
    rw [hmem] at h
    obtain ⟨waveMode, -, h⟩ := bind_eq_ok.mp h
    obtain ⟨threshold, -, h⟩ := bind_eq_ok.mp h
    obtain ⟨peerHca, hpeers, h⟩ := bind_eq_ok.mp h
    obtain ⟨-, -, h⟩ := bind_eq_ok.mp h
    obtain ⟨tables, -, h⟩ := bind_eq_ok.mp h
    obtain ⟨-, -, h⟩ := bind_eq_ok.mp h
    obtain rfl := Except.ok.inj h
    exact ⟨⟨layout, hgeo⟩, hpeers, rfl, rfl, rfl, rfl, rfl, rfl⟩

/-! ## From the environment to the proxy -/

variable {nd : Node} {layout : Layout}

/-- What Python passes on is the map it has accepted. -/
theorem carries_of_selectPaths (hrank : rank < world) (hn : nd.hcaNames.length ≤ 4)
    (h : selectPaths py env world rank nd.hcaNames = .ok (opposite, m)) :
    Carries (nd.args world rank opposite layout (m.map paddedRow).flatten) m where
  accepted := (selectPaths_ok hrank h).2.1
  bytes := rfl
  rank := hrank
  opposite := (selectPaths_ok hrank h).2.2.imp_right And.left
  hcas := hn

/-- **A map that Python accepts is admitted.** -/
theorem admitted_of_selectPaths (hwave : Unset nd.env.waveMode) (hn : nd.hcaNames.length ≤ 4)
    (hrank : rank < world) (hlayout : roceLayout world nd.slotBytes = some layout)
    (h : selectPaths py nd.env world rank nd.hcaNames = .ok (opposite, m)) :
    ∃ flattened, flattenPeerHcaMap world rank opposite m = .ok flattened ∧
      ∀ e, roceCreate nd.machine nd.env (nd.args world rank opposite layout flattened) = .error e →
        e = .memory ∨ e = .threshold ∨ ∃ d, e = .device d := by
  obtain ⟨htwo, hacc, hopp⟩ := selectPaths_ok hrank h
  refine ⟨_, flattenPeerHcaMap_ok hacc (hopp.imp_right And.left), fun e he => ?_⟩
  have hcarries := @carries_of_selectPaths _ _ _ _ _ _ nd layout hrank hn h
  refine roceCreate_error hcarries (checkGeometry_ok hcarries hlayout le_rfl htwo fun hfour => ?_)
    hwave hopp he
  obtain hopp | ⟨-, hworld, hnames, -⟩ := hopp
  · exact absurd (hopp.symm.trans hfour) (by decide)
  · exact ⟨hworld, (congrArg List.length hnames).trans rfl⟩

/-- What a proxy has of its rank. -/
structure Created (c : Ctx) (nd : Node) (world rank opposite : ℕ) (m : List (List ℤ)) : Prop where
  accepted : Accepted world rank c.nHca opposite m
  peerHca : c.peerHca = m.map storedRow
  pathCounts : c.pathCounts =
    (List.range world).map fun (p : ℕ) => peerPathCount world rank opposite p
  world : c.world = world
  rank : c.rank = rank
  opposite : c.oppositePaths = opposite
  region : c.region = nd.region
  hcas : c.nHca ≤ 4

/-- **A rank that has started** has the map it has accepted. -/
theorem created_of_start {c : Ctx} (hrank : rank < world) (h : nd.start py world rank = .ok c) :
    ∃ opposite m, selectPaths py nd.env world rank nd.hcaNames = .ok (opposite, m) ∧
      Created c nd world rank opposite m := by
  unfold Node.start at h
  obtain ⟨⟨opposite, m⟩, hselect, h⟩ := bind_eq_ok.mp h
  rw [mapError_eq_ok] at hselect
  refine ⟨opposite, m, hselect, ?_⟩
  obtain ⟨-, hacc, hopp⟩ := selectPaths_ok hrank hselect
  cases hlayout : roceLayout world nd.slotBytes with
  | none =>
    rw [hlayout] at h
    exact nomatch h
  | some layout =>
    rw [hlayout] at h
    obtain ⟨flattened, hflat, h⟩ := bind_eq_ok.mp h
    rw [mapError_eq_ok, flattenPeerHcaMap_ok hacc (hopp.imp_right And.left)] at hflat
    obtain rfl := Except.ok.inj hflat
    obtain ⟨⟨layout', hgeo⟩, hpeers, hworld, hr, hn, hregion, ho, hcounts⟩ :=
      roceCreate_ok (mapError_eq_ok.mp h)
    have hfour : nd.hcaNames.length ≤ 4 := by
      unfold checkGeometry at hgeo
      split at hgeo
      · exact nomatch hgeo
      · split_ifs at hgeo with hbad
        simp only [not_or, not_lt] at hbad
        exact hbad.2.2.2.1
    have hcarries := @carries_of_selectPaths _ _ _ _ _ _ nd layout hrank hfour hselect
    rw [storePeers_eq hcarries] at hpeers
    refine ⟨hn ▸ hacc, (Except.ok.inj hpeers).symm, ?_, hworld, hr, ho, hregion, hn ▸ hfour⟩
    rw [hcounts, pathCounts_eq hcarries.rank]
    rfl

end RingPaths

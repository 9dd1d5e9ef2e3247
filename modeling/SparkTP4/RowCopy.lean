import Mathlib.Data.List.Nodup
import Mathlib.Data.Int.Order.Lemmas

/-!
# Copies of rows and of pages

A buffer is a list of rows, and an index tensor a list of integers. A gather reads the rows of
an index tensor, a scatter writes them, and an index out of range is an error. A page is a
block of `per` consecutive rows (`blockRows`): to copy pages is to copy their rows.

What a copy does to the pages is `Copied`, over any pages and any contents. Copies that do not
write what another reads or writes compose (`Copied.append`), which is how a batch of them is
one copy.
-/

namespace RowCopy

variable {Row : Type*}

/-! ## Rows -/

/-- The row of an index. -/
def row (buf : List Row) (r : ℤ) : Option Row := if 0 ≤ r then buf[r.toNat]? else none

/-- Write one row. -/
def setRow (buf : List Row) (r : ℤ) (v : Row) : Option (List Row) :=
  if 0 ≤ r ∧ r < buf.length then some (buf.set r.toNat v) else none

/-- Gather. -/
def select (buf : List Row) (rows : List ℤ) : Option (List Row) := rows.mapM (row buf)

/-- Scatter: one row for each index, in order. -/
def put : List Row → List ℤ → List Row → Option (List Row)
  | buf, [], [] => some buf
  | buf, r :: rows, v :: vals => (setRow buf r v).bind fun buf => put buf rows vals
  | _, _, _ => none

/-- Gather, then scatter. -/
def copy (buf : List Row) (src dst : List ℤ) : Option (List Row) :=
  (select buf src).bind fun vals => put buf dst vals

/-- The index of a row. -/
def InRange (buf : List Row) (r : ℤ) : Prop := 0 ≤ r ∧ r < buf.length

theorem row_of_inRange {buf : List Row} {r : ℤ} (h : InRange buf r) : ∃ v, row buf r = some v := by
  have hlt : r.toNat < buf.length := by
    have := h.1
    have := h.2
    omega
  exact ⟨buf[r.toNat], (if_pos h.1).trans (List.getElem?_eq_getElem hlt)⟩

theorem row_set {buf : List Row} {r : ℤ} (h : InRange buf r) (v : Row) (q : ℤ) :
    row (buf.set r.toNat v) q = if q = r then some v else row buf q := by
  obtain ⟨h0, hlt⟩ := h
  unfold row
  by_cases hq : 0 ≤ q
  · rw [if_pos hq, if_pos hq, List.getElem?_set]
    by_cases hqr : q = r
    · rw [hqr, if_pos rfl, if_pos rfl, if_pos (by omega)]
    · rw [if_neg (by omega), if_neg hqr]
  · rw [if_neg hq, if_neg hq, if_neg (by omega)]

theorem select_of_inRange {buf : List Row} {rows : List ℤ} (h : ∀ r ∈ rows, InRange buf r) :
    ∃ vals, select buf rows = some vals ∧ rows.map (row buf) = vals.map some := by
  induction rows with
  | nil => exact ⟨[], rfl, rfl⟩
  | cons r rows ih =>
    obtain ⟨v, hv⟩ := row_of_inRange (h r List.mem_cons_self)
    obtain ⟨vals, hvals, hmap⟩ := ih fun q hq => h q (List.mem_cons_of_mem r hq)
    refine ⟨v :: vals, ?_, ?_⟩
    · unfold select at hvals ⊢
      rw [List.mapM_cons, hv, hvals]
      rfl
    · rw [List.map_cons, List.map_cons, hv, hmap]

/-- **A scatter to distinct rows writes each of them, and no other.** -/
theorem put_spec {buf : List Row} {rows : List ℤ} {vals : List Row} (hnodup : rows.Nodup)
    (hlen : rows.length = vals.length) (h : ∀ r ∈ rows, InRange buf r) :
    ∃ buf', put buf rows vals = some buf' ∧ buf'.length = buf.length ∧
      (∀ p ∈ rows.zip vals, row buf' p.1 = some p.2) ∧ ∀ q ∉ rows, row buf' q = row buf q := by
  induction rows generalizing buf vals with
  | nil =>
    obtain rfl : vals = [] := List.eq_nil_of_length_eq_zero hlen.symm
    exact ⟨buf, rfl, rfl, by simp, fun _ _ => rfl⟩
  | cons r rows ih =>
    cases vals with
    | nil => cases hlen
    | cons v vals =>
      have hr := h r List.mem_cons_self
      have hfresh := (List.nodup_cons.mp hnodup).1
      have hset : setRow buf r v = some (buf.set r.toNat v) := if_pos hr
      obtain ⟨buf', hput, hlength, hwritten, hkept⟩ := ih (List.nodup_cons.mp hnodup).2 (Nat.succ.inj hlen)
        fun q hq => (by
          have := h q (List.mem_cons_of_mem r hq)
          rwa [InRange, List.length_set] : InRange (buf.set r.toNat v) q)
      refine ⟨buf', ?_, hlength.trans List.length_set, ?_, ?_⟩
      · show (setRow buf r v).bind _ = _
        rw [hset]
        exact hput
      · intro p hp
        rw [List.zip_cons_cons, List.mem_cons] at hp
        rcases hp with rfl | hp
        · rw [hkept r hfresh, row_set hr, if_pos rfl]
        · exact hwritten p hp
      · intro q hq
        rw [List.mem_cons, not_or] at hq
        rw [hkept q hq.2, row_set hr, if_neg hq.1]

/-! ## What a copy does -/

/-- **The contents after a copy**: what was at `src` is at `dst`, and nothing else has changed. -/
structure Copied {Page C : Type*} (src dst : List Page) (P P' : Page → C) : Prop where
  copied : ∀ p ∈ src.zip dst, P' p.2 = P p.1
  kept : ∀ q ∉ dst, P' q = P q

theorem Copied.refl {Page C : Type*} (P : Page → C) : Copied [] [] P P :=
  ⟨fun _ hp => absurd hp List.not_mem_nil, fun _ _ => rfl⟩

/-- **Copies compose**, where the second one neither reads nor writes what the first one has
written. -/
theorem Copied.append {Page C : Type*} {src dst src' dst' : List Page} {P P' P'' : Page → C}
    (h : Copied src dst P P') (h' : Copied src' dst' P' P'') (hlen : src.length = dst.length)
    (hread : ∀ q ∈ src', q ∉ dst) (hwritten : ∀ q ∈ dst, q ∉ dst') :
    Copied (src ++ src') (dst ++ dst') P P'' where
  copied := by
    intro p hp
    rw [List.zip_append hlen, List.mem_append] at hp
    rcases hp with hp | hp
    · rw [h'.kept p.2 (hwritten p.2 (List.of_mem_zip hp).2), h.copied p hp]
    · rw [h'.copied p hp, h.kept p.1 (hread p.1 (List.of_mem_zip hp).1)]
  kept := by
    intro q hq
    rw [List.mem_append, not_or] at hq
    rw [h'.kept q hq.2, h.kept q hq.1]

/-- **A copy of rows** to distinct rows. -/
theorem copy_spec {buf : List Row} {src dst : List ℤ} (hnodup : dst.Nodup)
    (hlen : src.length = dst.length) (hsrc : ∀ r ∈ src, InRange buf r)
    (hdst : ∀ r ∈ dst, InRange buf r) :
    ∃ buf', copy buf src dst = some buf' ∧ buf'.length = buf.length ∧
      Copied src dst (row buf) (row buf') := by
  obtain ⟨vals, hvals, hmap⟩ := select_of_inRange hsrc
  have hlenVals : src.length = vals.length := by
    have := congrArg List.length hmap
    rwa [List.length_map, List.length_map] at this
  obtain ⟨buf', hput, hlength, hwritten, hkept⟩ := put_spec hnodup (hlen.symm.trans hlenVals) hdst
  refine ⟨buf', ?_, hlength, ?_, hkept⟩
  · show (select buf src).bind _ = _
    rw [hvals]
    exact hput
  · intro p hp
    obtain ⟨i, hi, rfl⟩ := List.getElem_of_mem hp
    rw [List.length_zip, lt_min_iff] at hi
    obtain ⟨hsi, hdi⟩ := hi
    have hvi : i < vals.length := hlenVals ▸ hsi
    have hval : row buf src[i] = some vals[i] := by
      have := congrArg (fun l => l[i]?) hmap
      simpa [hsi, hvi] using this
    rw [List.getElem_zip]
    refine (hwritten (dst[i], vals[i]) ?_).trans hval.symm
    exact List.mem_iff_getElem.mpr ⟨i, by rw [List.length_zip]; omega, List.getElem_zip⟩

/-! ## Pages -/

/-- The rows of pages of `per` rows. -/
def blockRows (per : ℕ) (pages : List ℤ) : List ℤ :=
  pages.flatMap fun q => (List.range per).map fun (off : ℕ) => q * per + off

theorem mem_blockRows {per : ℕ} {pages : List ℤ} {r : ℤ} :
    r ∈ blockRows per pages ↔ ∃ q ∈ pages, ∃ off : ℕ, off < per ∧ r = q * per + off := by
  simp only [blockRows, List.mem_flatMap, List.mem_map, List.mem_range]
  exact exists_congr fun q => and_congr_right fun _ => exists_congr fun off =>
    and_congr_right fun _ => eq_comm

theorem length_blockRows (per : ℕ) (pages : List ℤ) :
    (blockRows per pages).length = pages.length * per := by
  simp [blockRows]

theorem getElem?_blockRows {per off : ℕ} (hoff : off < per) (pages : List ℤ) (k : ℕ) :
    (blockRows per pages)[k * per + off]? = pages[k]?.map fun (q : ℤ) => q * per + off := by
  induction pages generalizing k with
  | nil => rfl
  | cons q pages ih =>
    show ((List.range per).map (fun (off : ℕ) => q * per + off) ++ blockRows per pages)[_]? = _
    cases k with
    | zero =>
      rw [List.getElem?_append_left (by simpa using hoff)]
      simp [hoff]
    | succ k =>
      rw [List.getElem?_append_right (by simp [Nat.succ_mul]; omega), List.length_map,
        List.length_range, Nat.succ_mul, show k * per + per + off - per = k * per + off by omega]
      exact ih k

/-- A row is in one page. -/
theorem page_unique {per off off' : ℕ} {q q' : ℤ} (hoff : off < per) (hoff' : off' < per)
    (h : q * per + off = q' * per + off') : q = q' ∧ off = off' := by
  have hpage : ∀ (a : ℤ) (o : ℕ), o < per → (a * per + o) / per = a := by
    intro a o ho
    rw [add_comm, Int.add_mul_ediv_right _ _ (by omega), Int.ediv_eq_zero_of_lt (by omega)
      (by omega), zero_add]
  have hq : q = q' := by rw [← hpage q off hoff, h, hpage q' off' hoff']
  subst hq
  exact ⟨rfl, by omega⟩

theorem nodup_blockRows {per : ℕ} {pages : List ℤ} (h : pages.Nodup) :
    (blockRows per pages).Nodup := by
  refine List.nodup_flatMap.mpr ⟨fun q _ => ?_, ?_⟩
  · refine List.Nodup.map_on (fun a ha b hb hab => ?_) List.nodup_range
    exact (page_unique (List.mem_range.mp ha) (List.mem_range.mp hb) hab).2
  · refine h.imp_of_mem fun {a b} _ _ hab => ?_
    simp only [Function.onFun, List.disjoint_left, List.mem_map, List.mem_range]
    rintro r ⟨i, hi, rfl⟩ ⟨j, hj, hij⟩
    exact hab (page_unique hi hj hij.symm).1

theorem mem_zip_blockRows {per off : ℕ} (hoff : off < per) {src dst : List ℤ} {p : ℤ × ℤ}
    (h : p ∈ src.zip dst) :
    (p.1 * per + off, p.2 * per + off) ∈ (blockRows per src).zip (blockRows per dst) := by
  induction src generalizing dst with
  | nil => cases h
  | cons s src ih =>
    cases dst with
    | nil => cases h
    | cons d dst =>
      show _ ∈ (_ ++ blockRows per src).zip (_ ++ blockRows per dst)
      rw [List.zip_append (by simp), List.mem_append]
      rw [List.zip_cons_cons, List.mem_cons] at h
      rcases h with rfl | h
      · left
        rw [List.zip_map', List.mem_map]
        exact ⟨off, List.mem_range.mpr hoff, rfl⟩
      · exact Or.inr (ih h)

/-- **A copy of pages**: what it does to the page contents. -/
theorem copy_blockRows {buf : List Row} {per : ℕ} {src dst : List ℤ} (hnodup : dst.Nodup)
    (hlen : src.length = dst.length) (hsrc : ∀ q ∈ src, 0 ≤ q ∧ (q + 1) * per ≤ buf.length)
    (hdst : ∀ q ∈ dst, 0 ≤ q ∧ (q + 1) * per ≤ buf.length) :
    ∃ buf', copy buf (blockRows per src) (blockRows per dst) = some buf' ∧
      buf'.length = buf.length ∧
      Copied src dst (fun q (off : Fin per) => row buf (q * per + (off : ℕ)))
        fun q (off : Fin per) => row buf' (q * per + (off : ℕ)) := by
  have hrange : ∀ pages : List ℤ, (∀ q ∈ pages, 0 ≤ q ∧ (q + 1) * per ≤ buf.length) →
      ∀ r ∈ blockRows per pages, InRange buf r := by
    intro pages hpages r hr
    obtain ⟨q, hq, off, hoff, rfl⟩ := mem_blockRows.mp hr
    have h := hpages q hq
    have hpos : 0 ≤ q * per := mul_nonneg h.1 (Int.natCast_nonneg per)
    exact ⟨by omega, by rw [add_mul, one_mul] at h; omega⟩
  obtain ⟨buf', hcopy, hlength, hcopied⟩ := copy_spec (nodup_blockRows hnodup)
    (by rw [length_blockRows, length_blockRows, hlen]) (hrange src hsrc) (hrange dst hdst)
  refine ⟨buf', hcopy, hlength, ?_, ?_⟩
  · intro p hp
    funext off
    exact hcopied.copied _ (mem_zip_blockRows off.isLt hp)
  · intro q hq
    funext off
    refine hcopied.kept _ fun hmem => ?_
    obtain ⟨q', hq', off', hoff', heq⟩ := mem_blockRows.mp hmem
    exact hq ((page_unique off.isLt hoff' heq).1 ▸ hq')

end RowCopy

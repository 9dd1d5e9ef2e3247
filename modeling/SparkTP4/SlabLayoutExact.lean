import SparkTP4.FastLoadSlice
import SparkTP4.SlabLayout

/-!
# The slabs hold every tensor, and reading through them is reading

The packing loop keeps that the full slabs are right and that the current one is
right so far (`Packed`); one turn preserves this, hence so does the whole loop, and
the last slab is right as well. The slab size is a multiple of the page, which is
why rounding the end of a tensor up to a page never leaves the slab.

A reader fills its buffer from the start, without a gap (`Entry.read_writes`). So
what it leaves is what it wrote, and since the regions of a layout are apart, the
readers may write in any order.
-/

namespace FastLoad

open SharedBuffer RowMajor

/-! ## Sizes -/

/-- **A slab size is a whole number of pages.** -/
theorem slabAlign_dvd {mb : Option SlabMb} {slab : ℕ} (h : slabBytes mb = some slab) :
    slabAlign ∣ slab := by
  unfold slabBytes at h
  split at h
  · split_ifs at h
    · exact Option.some.inj h ▸ dvd_zero _
    · obtain rfl := Option.some.inj h
      have hsize (n : ℕ) : 20 < (max (1 <<< 20) n).size :=
        Nat.lt_size.mpr (le_max_left (1 <<< 20) n)
      rw [Nat.one_shiftLeft]
      exact pow_dvd_pow 2 (Nat.le_sub_one_of_lt ((by decide : 12 < 20).trans (hsize _)))
  · exact Option.some.inj h ▸ dvd_zero _
  · exact nomatch h
  · exact nomatch h

theorem dvd_align (n : ℕ) : slabAlign ∣ align n := Dvd.intro_left _ rfl

theorem le_align (n : ℕ) : n ≤ align n := by
  unfold align slabAlign
  omega

/-- Rounding up stays below a bound that is a whole number of pages. -/
theorem align_le {n m : ℕ} (h : n ≤ m) (hm : slabAlign ∣ m) : align n ≤ m := by
  obtain ⟨k, rfl⟩ := hm
  unfold align slabAlign at *
  omega

/-! ## The packing loop -/

/-- What a tensor in a slab is planned as. -/
def Member.key (m : Member) : Name × ℕ := (m.name, m.kept)

/-- **A right slab**: its tensors begin at pages, are apart and inside it, and it is no larger
than the slab size unless it holds one tensor that is. -/
structure SlabOk (slab : ℕ) (x : Slab) : Prop where
  aligned : ∀ m ∈ x.members, slabAlign ∣ m.offset
  apart : x.members.Pairwise fun m m' => m.region.Apart m'.region
  inside : ∀ m ∈ x.members, m.offset + m.kept ≤ x.nbytes
  size : x.nbytes ≤ slab ∨ ∃ m, x.members = [m] ∧ slab < m.kept ∧ x.nbytes = m.kept

/-- The state of the loop after the tensors `done`. -/
structure Packed (slab : ℕ) (done : List (Name × ℕ)) (s : Packing) : Prop where
  out : ∀ x ∈ s.out, SlabOk slab x ∧ (x.members.map Member.key).Sublist done
  aligned : ∀ m ∈ s.cur, slabAlign ∣ m.offset
  apart : s.cur.Pairwise fun m m' => m.region.Apart m'.region
  inside : ∀ m ∈ s.cur, m.offset + m.kept ≤ s.used
  sublist : (s.cur.map Member.key).Sublist done
  used_aligned : slabAlign ∣ s.used
  used_le : s.used ≤ slab
  empty : s.cur = [] → s.used = 0
  perm : ((s.out.flatMap Slab.members ++ s.cur).map Member.key).Perm
    (done.filter fun x => 0 < x.2)

section Loop

variable {slab : ℕ} {done : List (Name × ℕ)} {s : Packing}

theorem packed_start (slab : ℕ) : Packed slab [] ⟨[], [], 0⟩ where
  out _ hx := absurd hx List.not_mem_nil
  aligned _ hm := absurd hm List.not_mem_nil
  apart := .nil
  inside _ hm := absurd hm List.not_mem_nil
  sublist := .slnil
  used_aligned := dvd_zero _
  used_le := Nat.zero_le _
  empty _ := rfl
  perm := .nil

/-- An empty tensor is left out. -/
theorem Packed.skip (h : Packed slab done s) (name : Name) : Packed slab (done ++ [(name, 0)]) s where
  out x hx := ⟨(h.out x hx).1, List.sublist_append_of_sublist_left (h.out x hx).2⟩
  aligned := h.aligned
  apart := h.apart
  inside := h.inside
  sublist := List.sublist_append_of_sublist_left h.sublist
  used_aligned := h.used_aligned
  used_le := h.used_le
  empty := h.empty
  perm := by simpa using h.perm

/-- A tensor that is larger than a slab. -/
theorem Packed.single (h : Packed slab done s) {name : Name} {kept : ℕ} (hkept : slab < kept) :
    Packed slab (done ++ [(name, kept)])
      { s with out := s.out ++ [⟨kept, [⟨name, 0, kept⟩]⟩] } where
  out x hx := by
    cases List.mem_append.mp hx with
    | inl hold =>
      exact ⟨(h.out x hold).1, List.sublist_append_of_sublist_left (h.out x hold).2⟩
    | inr hnew =>
      obtain rfl := List.mem_singleton.mp hnew
      refine ⟨⟨fun m hm => ?_, List.pairwise_singleton _ _, fun m hm => ?_,
        .inr ⟨_, rfl, hkept, rfl⟩⟩, List.sublist_append_right _ _⟩
      · exact List.mem_singleton.mp hm ▸ dvd_zero _
      · obtain rfl := List.mem_singleton.mp hm
        exact (Nat.zero_add _).le
  aligned := h.aligned
  apart := h.apart
  inside := h.inside
  sublist := List.sublist_append_of_sublist_left h.sublist
  used_aligned := h.used_aligned
  used_le := h.used_le
  empty := h.empty
  perm := by
    have hpos : (0 : ℕ) < kept := Nat.zero_lt_of_lt hkept
    have hperm := h.perm.append_right [(name, kept)]
    rw [List.filter_append, List.filter_cons_of_pos (by simpa using hpos), List.filter_nil]
    refine List.Perm.trans ?_ hperm
    simp only [List.flatMap_append, List.flatMap_singleton, List.map_append, List.append_assoc]
    exact List.Perm.append_left _ List.perm_append_comm

/-- The current slab is full. -/
theorem Packed.flush (h : Packed slab done s) :
    Packed slab done ⟨s.out ++ [⟨s.used, s.cur⟩], [], 0⟩ where
  out x hx := by
    cases List.mem_append.mp hx with
    | inl hold => exact h.out x hold
    | inr hnew =>
      obtain rfl := List.mem_singleton.mp hnew
      exact ⟨⟨h.aligned, h.apart, h.inside, .inl h.used_le⟩, h.sublist⟩
  aligned m hm := absurd hm List.not_mem_nil
  apart := .nil
  inside m hm := absurd hm List.not_mem_nil
  sublist := List.nil_sublist _
  used_aligned := dvd_zero _
  used_le := Nat.zero_le _
  empty _ := rfl
  perm := by simpa using h.perm

/-- A tensor that fits is placed after the others. -/
theorem Packed.add (h : Packed slab done s) (hslab : slabAlign ∣ slab) {name : Name} {kept : ℕ}
    (hpos : 0 < kept) (hfit : s.used + kept ≤ slab) :
    Packed slab (done ++ [(name, kept)])
      { s with cur := s.cur ++ [⟨name, s.used, kept⟩], used := align (s.used + kept) } where
  out x hx := ⟨(h.out x hx).1, List.sublist_append_of_sublist_left (h.out x hx).2⟩
  aligned m hm := by
    cases List.mem_append.mp hm with
    | inl hold => exact h.aligned m hold
    | inr hnew => exact List.mem_singleton.mp hnew ▸ h.used_aligned
  apart := by
    refine List.pairwise_append.mpr ⟨h.apart, List.pairwise_singleton _ _, fun m hm m' hm' => ?_⟩
    exact List.mem_singleton.mp hm' ▸ .inl (h.inside m hm)
  inside m hm := by
    have hle := le_align (s.used + kept)
    cases List.mem_append.mp hm with
    | inl hold =>
      have := h.inside m hold
      dsimp only
      omega
    | inr hnew =>
      obtain rfl := List.mem_singleton.mp hnew
      exact hle
  sublist := by
    rw [List.map_append]
    exact h.sublist.append (List.Sublist.refl _)
  used_aligned := dvd_align _
  used_le := align_le hfit hslab
  empty hnil := absurd hnil (by simp)
  perm := by
    have hperm := h.perm.append_right [(name, kept)]
    rw [List.filter_append, List.filter_cons_of_pos (by simpa using hpos), List.filter_nil]
    refine List.Perm.trans (List.Perm.of_eq ?_) hperm
    simp only [List.map_append, List.append_assoc]
    rfl

/-- **One turn of the loop.** -/
theorem Packed.place (h : Packed slab done s) (hslab : slabAlign ∣ slab) (x : Name × ℕ) :
    Packed slab (done ++ [x]) (s.place slab x) := by
  obtain ⟨name, kept⟩ := x
  unfold Packing.place
  dsimp only
  split_ifs with hzero hlarge hfull
  · subst hzero
    exact h.skip name
  · exact h.single hlarge
  · exact h.flush.add hslab (Nat.pos_of_ne_zero hzero) (by dsimp only; omega)
  · refine h.add hslab (Nat.pos_of_ne_zero hzero) ?_
    by_cases hcur : s.cur = []
    · rw [h.empty hcur]
      omega
    · by_contra hover
      exact hfull ⟨hcur, by omega⟩

/-- **The whole loop.** -/
theorem Packed.foldl (h : Packed slab done s) (hslab : slabAlign ∣ slab) (rest : List (Name × ℕ)) :
    Packed slab (done ++ rest) (rest.foldl (Packing.place slab) s) := by
  induction rest generalizing done s with
  | nil => rwa [List.append_nil]
  | cons x rest ih =>
    have hnext := ih (h.place hslab x)
    rwa [List.append_assoc] at hnext

/-- The slabs that the loop ends with. -/
theorem Packed.finish (h : Packed slab done s) :
    (∀ x ∈ s.finish slab, SlabOk slab x ∧ (x.members.map Member.key).Sublist done) ∧
      (((s.finish slab).flatMap Slab.members).map Member.key).Perm
        (done.filter fun x => 0 < x.2) := by
  unfold Packing.finish
  split_ifs with hcur
  · have hperm := h.perm
    rw [hcur, List.append_nil] at hperm
    exact ⟨h.out, hperm⟩
  · -- the last slab is cut off at the slab size, which changes nothing
    rw [min_eq_left h.used_le]
    exact ⟨h.flush.out, by simpa using h.perm⟩

end Loop

/-! ## The layout -/

/-- `spec_bytes` gives a number for the tensor. -/
def Entry.Sized (e : Entry) : Prop := (specBytes e.info e.spec).isSome = true

/-- The bytes kept of a tensor. -/
def Entry.kept (e : Entry) : ℕ := ((specBytes e.info e.spec).map Prod.snd).getD 0

theorem Entry.Sized.kept_eq {e : Entry} (h : e.Sized) :
    (specBytes e.info e.spec).map Prod.snd = some e.kept := by
  obtain ⟨bytes, hbytes⟩ := Option.isSome_iff_exists.mp h
  rw [Entry.kept, hbytes]
  rfl

theorem mapM_sized {es : List Entry} (h : ∀ e ∈ es, e.Sized) :
    (es.mapM fun e => (specBytes e.info e.spec).map fun bytes => (e.name, bytes.2)) =
      some (es.map fun e => (e.name, e.kept)) := by
  induction es with
  | nil => rfl
  | cons e es ih =>
    have hkept := (h e List.mem_cons_self).kept_eq
    obtain ⟨bytes, hbytes, heq⟩ := Option.map_eq_some_iff.mp hkept
    rw [List.mapM_cons, ih fun x hx => h x (List.mem_cons_of_mem e hx), hbytes, Option.map_some, heq]
    rfl

/-- The order of the names. -/
theorem pairwise_sorted_names (plan : List Entry) :
    (plan.mergeSort fun e e' => e.name ≤ e'.name).Pairwise fun e e' => e.name ≤ e'.name := by
  refine (@List.pairwise_mergeSort Entry (fun e e' => e.name ≤ e'.name) (fun a b c hab hbc => ?_)
    (fun a b => ?_) plan).imp of_decide_eq_true
  · exact decide_eq_true (le_trans (of_decide_eq_true hab) (of_decide_eq_true hbc))
  · simpa using le_total a.name b.name

theorem pairwise_sizes_names {plan : List Entry} (hplan : (plan.map Entry.name).Nodup) :
    (((plan.mergeSort fun e e' => e.name ≤ e'.name).map fun e => (e.name, e.kept)).map
      Prod.fst).Pairwise (· < ·) := by
  have hperm := (List.mergeSort_perm plan fun e e' => e.name ≤ e'.name).map Entry.name
  rw [List.map_map]
  show ((plan.mergeSort fun e e' => e.name ≤ e'.name).map Entry.name).Pairwise (· < ·)
  have hle := List.pairwise_map.mpr (pairwise_sorted_names plan)
  exact (hle.and (hperm.nodup_iff.mpr hplan)).imp fun h => lt_of_le_of_ne h.1 h.2

/-- **The layout is right**: it holds the tensors that are not empty, each once, in right slabs
whose names are in order. -/
theorem slabLayout_spec {slab : ℕ} (hslab : slabAlign ∣ slab) {plan : List Entry}
    (hplan : (plan.map Entry.name).Nodup) (hsized : ∀ e ∈ plan, e.Sized) :
    ∃ slabs, slabLayout plan slab = some slabs ∧
      ((slabs.flatMap Slab.members).map Member.key).Perm
        ((plan.map fun e => (e.name, e.kept)).filter fun x => 0 < x.2) ∧
      ∀ x ∈ slabs, SlabOk slab x ∧ (x.members.map Member.name).Pairwise (· < ·) := by
  have hperm := List.mergeSort_perm plan fun e e' => e.name ≤ e'.name
  have hnames : sizedNames plan = some _ := mapM_sized fun e he => hsized e (hperm.mem_iff.mp he)
  obtain ⟨hok, hkeys⟩ := ((packed_start slab).foldl hslab
    ((plan.mergeSort fun e e' => e.name ≤ e'.name).map fun e => (e.name, e.kept))).finish
  refine ⟨_, by rw [slabLayout, hnames]; rfl, hkeys.trans ((hperm.map _).filter _), fun x hx => ?_⟩
  refine ⟨(hok x hx).1, ?_⟩
  have hsub := (hok x hx).2.map Prod.fst
  rw [List.map_map] at hsub
  exact (pairwise_sizes_names hplan).sublist hsub

/-- The entry of a tensor that has been placed. -/
theorem exists_entry {plan : List Entry} {slabs : List Slab}
    (hperm : ((slabs.flatMap Slab.members).map Member.key).Perm
      ((plan.map fun e => (e.name, e.kept)).filter fun x => 0 < x.2)) {r : Reader}
    (hr : Placed slabs r) : ∃ e ∈ plan, e.name = r.2.name ∧ e.kept = r.2.kept := by
  obtain ⟨slab, hslab, hmem⟩ := hr
  have hkey : r.2.key ∈ (slabs.flatMap Slab.members).map Member.key :=
    List.mem_map_of_mem (List.mem_flatMap.mpr ⟨slab, List.mem_of_getElem? hslab, hmem⟩)
  obtain ⟨e, he, heq⟩ := List.mem_map.mp (List.mem_of_mem_filter (hperm.mem_iff.mp hkey))
  exact ⟨e, he, congrArg Prod.fst heq, congrArg Prod.snd heq⟩

/-! ## What a read writes -/

section Reads

variable {io : Preadv} {file : Bytes}

/-- **`_read_into` writes without a gap** what it reads. -/
theorem loopWrites_of_readLoop {fuel off n : ℕ} {piece : Bytes} (start : ℕ)
    (h : readLoop io file fuel off n = some piece) :
    ∃ ws, loopWrites io file fuel start off n = some ws ∧ Consecutive start ws (start + n) ∧
      ws.flatMap Prod.snd = piece := by
  induction fuel generalizing start off n piece with
  | zero =>
    unfold readLoop at h
    split_ifs at h with hn
    obtain rfl := Option.some.inj h
    subst hn
    exact ⟨[], rfl, .nil start, rfl⟩
  | succ fuel ih =>
    unfold readLoop at h
    unfold loopWrites
    by_cases hn : n = 0
    · rw [if_pos hn] at h ⊢
      obtain rfl := Option.some.inj h
      subst hn
      exact ⟨[], rfl, .nil start, rfl⟩
    · rw [if_neg hn] at h ⊢
      dsimp only at h ⊢
      by_cases hgot : file.pread off n (io off n) = []
      · rw [if_pos hgot] at h
        cases h
      · rw [if_neg hgot] at h ⊢
        obtain ⟨rest, hrest, rfl⟩ := Option.map_eq_some_iff.mp h
        obtain ⟨ws, hws, hgap, hdata⟩ :=
          ih (start + (file.pread off n (io off n)).length) hrest
        have hle : (file.pread off n (io off n)).length ≤ n := by
          rw [Bytes.pread, Bytes.length_slice]
          omega
        rw [Nat.add_assoc, Nat.add_sub_cancel' hle] at hgap
        refine ⟨_, by rw [hws]; rfl, .cons hgap, ?_⟩
        rw [List.flatMap_cons, hdata]

theorem length_of_readInto {off n : ℕ} {piece : Bytes} (h : readInto io file off n = some piece) :
    piece.length = n := by
  obtain ⟨ws, -, hgap, rfl⟩ := loopWrites_of_readLoop 0 h
  have hlen := hgap.length_flatMap
  omega

/-- A buffer that has been filled up to `m` by the writes, from the start. -/
structure Filling (flat data : Bytes) (ws : List Write) (m : ℕ) : Prop where
  gapless : Consecutive 0 ws m
  data_eq : data = ws.flatMap Prod.snd ++ flat.drop m

theorem Filling.start (flat : Bytes) : Filling flat flat [] 0 := ⟨.nil 0, rfl⟩

/-- The next piece. -/
theorem Filling.splice {flat data piece : Bytes} {ws ws' : List Write} {m w : ℕ}
    (h : Filling flat data ws m) (hws' : Consecutive m ws' (m + w))
    (hpiece : ws'.flatMap Prod.snd = piece) :
    Filling flat (data.splice m piece) (ws ++ ws') (m + w) := by
  have hlen := h.gapless.length_flatMap
  have hw := hws'.length_flatMap
  rw [hpiece] at hw
  refine ⟨h.gapless.append hws', ?_⟩
  rw [h.data_eq, splice_filled (by omega) (show piece.length = w by omega), List.flatMap_append,
    hpiece]

/-- The buffer is full. -/
theorem Filling.full {flat data : Bytes} {ws : List Write} (h : Filling flat data ws flat.length) :
    data = ws.flatMap Prod.snd := by
  rw [h.data_eq, List.drop_length, List.append_nil]

/-- The chunks so far. -/
theorem chunkWrites_of_readChunks {chunk off n : ℕ} (hchunk : 0 < chunk) {flat : Bytes} :
    ∀ {k : ℕ} {r : Filled}, k ≤ turns n chunk → readChunks io file chunk off n flat k = some r →
      ∃ ws, chunkWrites io file chunk off n k = some ws ∧
        Filling flat r.data ws (min (k * chunk) n)
  | 0, r, _, h => by
    obtain rfl := Option.some.inj h
    refine ⟨[], rfl, ?_⟩
    rw [Nat.zero_mul, Nat.zero_min]
    exact .start flat
  | k + 1, r, hk, h => by
    have hlt := lt_of_lt_turns hchunk hk
    have hmin : min (k * chunk) n = k * chunk := min_eq_left hlt.le
    have hnext : min ((k + 1) * chunk) n = k * chunk + min chunk (n - k * chunk) := by
      rw [Nat.succ_mul]
      omega
    unfold readChunks at h
    obtain ⟨prev, hprev, h⟩ := Option.bind_eq_some_iff.mp h
    obtain ⟨piece, hpiece, rfl⟩ := Option.map_eq_some_iff.mp h
    obtain ⟨ws, hws, hfill⟩ := chunkWrites_of_readChunks hchunk (Nat.le_of_succ_le hk) hprev
    obtain ⟨ws', hws', hgap, hdata⟩ := loopWrites_of_readLoop (k * chunk) hpiece
    rw [hmin] at hfill
    refine ⟨ws ++ ws', ?_, hnext ▸ hfill.splice hgap hdata⟩
    unfold chunkWrites
    rw [hws, Option.bind_some]
    dsimp only
    rw [hws']
    rfl

theorem chunkWrites_turns {chunk off n : ℕ} (hchunk : 0 < chunk) {flat : Bytes}
    (hflat : flat.length = n) {r : Filled}
    (h : readChunks io file chunk off n flat (turns n chunk) = some r) :
    ∃ ws, chunkWrites io file chunk off n (turns n chunk) = some ws ∧
      Filling flat r.data ws flat.length := by
  obtain ⟨ws, hws, hfill⟩ := chunkWrites_of_readChunks hchunk le_rfl h
  rw [min_eq_right (le_turns_mul hchunk), ← hflat] at hfill
  exact ⟨ws, hflat ▸ hws, hfill⟩

/-- What is cut out of `count` rows in the bounce buffer. -/
theorem length_narrowPieces_bounce {g : Geometry} {spec : Spec} {buf : Bytes} {count : ℕ}
    (hspec : spec.start + spec.length ≤ g.d) (hbuf : count * g.row ≤ buf.length) :
    (narrowPieces buf count g.row g.inner spec.start spec.length).length =
      count * (spec.length * g.inner) := by
  refine Bytes.length_records fun o ho => Bytes.length_slice_of_le (le_trans ?_ hbuf)
  have hrows : (buf.take (count * g.row)).length = count * g.row :=
    List.length_take_of_le hbuf
  exact (piece_fits hrows hspec ho).trans hrows.le

/-- The rows so far. -/
theorem rowWrites_of_readRows {g : Geometry} {spec : Spec} {rows off : ℕ} {flat buf : Bytes}
    (hrows : 0 < rows) (hspec : spec.start + spec.length ≤ g.d)
    (hbuf : min g.outer rows * g.row ≤ buf.length) :
    ∀ {k : ℕ} {r : Rows}, k ≤ turns g.outer rows →
      readRows io file g spec rows off flat buf k = some r →
      ∃ ws, rowWrites io file g spec rows off buf k = some (ws, r.buf) ∧
        Filling flat r.data ws (min (k * rows) g.outer * (spec.length * g.inner)) ∧
        min g.outer rows * g.row ≤ r.buf.length
  | 0, r, _, h => by
    obtain rfl := Option.some.inj h
    refine ⟨[], rfl, ?_, hbuf⟩
    rw [Nat.zero_mul, Nat.zero_min, Nat.zero_mul]
    exact .start flat
  | k + 1, r, hk, h => by
    have hlt := lt_of_lt_turns hrows hk
    have hmin : min (k * rows) g.outer = k * rows := min_eq_left hlt.le
    have hnext : min ((k + 1) * rows) g.outer = k * rows + min rows (g.outer - k * rows) := by
      rw [Nat.succ_mul]
      omega
    unfold readRows at h
    obtain ⟨prev, hprev, h⟩ := Option.bind_eq_some_iff.mp h
    obtain ⟨piece, hpiece, rfl⟩ := Option.map_eq_some_iff.mp h
    obtain ⟨ws, hws, hfill, hprevBuf⟩ :=
      rowWrites_of_readRows hrows hspec hbuf (Nat.le_of_succ_le hk) hprev
    have hcount : min rows (g.outer - k * rows) * g.row ≤ min g.outer rows * g.row :=
      Nat.mul_le_mul_right _ (by omega)
    have hlen := length_of_readInto hpiece
    have hnew : (prev.buf.splice 0 piece).length = prev.buf.length :=
      Bytes.length_splice (by omega)
    have hkept := length_narrowPieces_bounce hspec ((hcount.trans hprevBuf).trans hnew.ge)
    rw [hmin] at hfill
    have hgap := Consecutive.single (k * rows * (spec.length * g.inner))
      (narrowPieces (prev.buf.splice 0 piece) (min rows (g.outer - k * rows)) g.row g.inner
        spec.start spec.length)
    rw [hkept] at hgap
    refine ⟨ws ++ [(k * rows * (spec.length * g.inner), narrowPieces (prev.buf.splice 0 piece)
      (min rows (g.outer - k * rows)) g.row g.inner spec.start spec.length)], ?_, ?_,
      hprevBuf.trans hnew.ge⟩
    · unfold rowWrites
      rw [hws, Option.bind_some]
      dsimp only
      rw [hpiece]
      rfl
    · rw [hnext, Nat.add_mul]
      exact hfill.splice hgap (List.flatMap_singleton _ _)

theorem le_length_bounce (chunk : ℕ) (buf : Option Bytes) (n : ℕ) :
    n ≤ (bounce chunk buf n).length := by
  unfold bounce
  cases hbuf : buf.filter fun b => n ≤ b.length with
  | none => simp
  | some b => simpa using (Option.filter_eq_some_iff.mp hbuf).2

theorem asTensor_data {flat : Bytes} {dtype : Dtype} {shape : List ℕ} {t : Tensor}
    (h : asTensor flat dtype shape = some t) : t.data = flat := by
  unfold asTensor at h
  split_ifs at h
  obtain rfl := Option.some.inj h
  rfl

/-- **A read fills its buffer from the start**, and the tensor it returns is what it wrote. -/
theorem Entry.read_writes {e : Entry} {chunk base : ℕ} (hchunk : 0 < chunk) {flat : Bytes}
    (hflat : (specBytes e.info e.spec).map Prod.snd = some flat.length) {buf : Option Bytes}
    {r : ReadResult} (h : e.read io file chunk base flat buf = some r) :
    ∃ ws, e.writes io file chunk base buf = some ws ∧ Consecutive 0 ws flat.length ∧
      r.tensor.data = ws.flatMap Prod.snd := by
  unfold Entry.read at h
  unfold Entry.writes
  cases hspec : e.spec with
  | none =>
    rw [hspec] at h hflat
    have hlen : e.info.dataOffsets.2 - e.info.dataOffsets.1 = flat.length := Option.some.inj hflat
    dsimp only at h ⊢
    unfold readTensor at h
    unfold tensorWrites
    dsimp only at h ⊢
    by_cases hzero : e.info.dataOffsets.2 - e.info.dataOffsets.1 = 0
    · rw [if_pos hzero] at h ⊢
      obtain ⟨t, ht, rfl⟩ := Option.map_eq_some_iff.mp h
      exact ⟨[], rfl, (hlen.symm.trans hzero) ▸ .nil 0, asTensor_data ht⟩
    · rw [if_neg hzero, if_neg (not_not.mpr hlen.symm)] at h
      rw [if_neg hzero]
      obtain ⟨filled, hfilled, h⟩ := Option.bind_eq_some_iff.mp h
      obtain ⟨t, ht, rfl⟩ := Option.map_eq_some_iff.mp h
      obtain ⟨ws, hws, hfill⟩ := chunkWrites_turns hchunk hlen.symm hfilled
      exact ⟨ws, hws, hfill.gapless, (asTensor_data ht).trans hfill.full⟩
  | some spec =>
    rw [hspec] at h hflat
    obtain ⟨kept, hkept, hlen⟩ := Option.map_eq_some_iff.mp hflat
    obtain ⟨g, hg, rfl⟩ := Option.map_eq_some_iff.mp hkept
    dsimp only at h hlen ⊢
    unfold readSlice at h
    unfold sliceWrites
    rw [hg, Option.bind_some] at h ⊢
    dsimp only at h ⊢
    by_cases hzero : g.outer * (spec.length * g.inner) = 0
    · rw [if_pos hzero] at h ⊢
      obtain ⟨t, ht, rfl⟩ := Option.map_eq_some_iff.mp h
      exact ⟨[], rfl, (hlen.symm.trans hzero) ▸ .nil 0, asTensor_data ht⟩
    rw [if_neg hzero, if_neg (not_not.mpr hlen.symm)] at h
    rw [if_neg hzero]
    by_cases houter : g.outer = 1
    · rw [if_pos houter] at h ⊢
      obtain ⟨filled, hfilled, h⟩ := Option.bind_eq_some_iff.mp h
      obtain ⟨t, ht, rfl⟩ := Option.map_eq_some_iff.mp h
      obtain ⟨ws, hws, hfill⟩ := chunkWrites_turns hchunk hlen.symm hfilled
      exact ⟨ws, hws, hfill.gapless, (asTensor_data ht).trans hfill.full⟩
    · rw [if_neg houter] at h ⊢
      by_cases hfit : g.d < spec.start + spec.length
      · rw [if_pos hfit] at h
        exact nomatch h
      rw [if_neg hfit] at h ⊢
      obtain ⟨rows, hrows, h⟩ := Option.bind_eq_some_iff.mp h
      obtain ⟨t, ht, rfl⟩ := Option.map_eq_some_iff.mp h
      have hpos : 0 < max 1 (chunk / g.row) := lt_of_lt_of_le Nat.one_pos (le_max_left _ _)
      obtain ⟨ws, hws, hfill, -⟩ := rowWrites_of_readRows hpos (not_lt.mp hfit)
        (le_length_bounce chunk buf _) le_rfl hrows
      rw [min_eq_right (le_turns_mul hpos), hlen] at hfill
      exact ⟨ws, by rw [hws]; rfl, hfill.gapless, (asTensor_data ht).trans hfill.full⟩

end Reads

/-! ## Reading through the slabs -/

/-- **The readers of a layout do not meet**, as long as each writes inside its region. -/
theorem disjoint_readers {slab : ℕ} {slabs : List Slab} (hok : ∀ x ∈ slabs, SlabOk slab x)
    {mem : ℕ → Bytes} (hmem : Allocated slabs mem) {todo : Reader → List Write}
    (hinside : ∀ r, Placed slabs r → Inside r.2.kept (todo r))
    (hidle : ∀ r, ¬Placed slabs r → todo r = []) :
    Disjoint slot (Placed slabs) ⟨mem, todo⟩ where
  fits r hr := by
    obtain ⟨x, hx, hm⟩ := hr
    show r.2.offset + r.2.kept ≤ (mem r.1).length
    rw [hmem r.1 x hx]
    exact (hok x (List.mem_of_getElem? hx)).inside r.2 hm
  apart r r' hr hr' hne hbuf := by
    obtain ⟨x, hx, hm⟩ := hr
    obtain ⟨x', hx', hm'⟩ := hr'
    have hslab : r.1 = r'.1 := hbuf
    rw [← hslab] at hx'
    obtain rfl := Option.some.inj (hx.symm.trans hx')
    have : Std.Symm fun m m' : Member => m.region.Apart m'.region :=
      ⟨fun _ _ => Region.Apart.symm⟩
    exact (hok x (List.mem_of_getElem? hx)).apart.forall hm hm'
      fun hsame => hne (Prod.ext hslab hsame)
  inside := hinside
  idle := hidle

/-- **The slabs of the fast loader.** For every slab size and every plan, the layout holds each
tensor that is not empty exactly once, and no other; in a slab the tensors begin at pages, are
apart and inside it, and are in the order of their names, and a slab is no larger than the
slab size unless it holds one tensor that is. And in every interleaving of the readers, a
tensor whose read is done has in its region the bytes of a read into a private buffer. -/
theorem slab_layout_exact {mb : Option SlabMb} {slab : ℕ} (hslab : slabBytes mb = some slab)
    {plan : List Entry} (hplan : (plan.map Entry.name).Nodup) (hsized : ∀ e ∈ plan, e.Sized) :
    ∃ slabs, slabLayout plan slab = some slabs ∧
      eagerSlabs mb plan = some (if slab = 0 then [] else slabs) ∧
      ((slabs.flatMap Slab.members).map Member.key).Perm
        ((plan.map fun e => (e.name, e.kept)).filter fun x => 0 < x.2) ∧
      (∀ x ∈ slabs, SlabOk slab x ∧ (x.members.map Member.name).Pairwise (· < ·)) ∧
      ∀ (io : Preadv) (file : Bytes) (chunk base : ℕ) (mem : ℕ → Bytes)
        (todo : Reader → List Write) (s : State ℕ Reader), 0 < chunk → Allocated slabs mem →
        (∀ r, Placed slabs r → Inside r.2.kept (todo r)) →
        (∀ r, ¬Placed slabs r → todo r = []) →
        Transition.Reachable (step slot) (fun _ _ => True) ⟨mem, todo⟩ s →
        ∀ r, Placed slabs r → ∃ e ∈ plan, e.name = r.2.name ∧ e.kept = r.2.kept ∧
          ∀ (flat : Bytes) (buf : Option Bytes) (result : ReadResult), flat.length = e.kept →
            e.read io file chunk base flat buf = some result →
            ∃ ws, e.writes io file chunk base buf = some ws ∧ Inside e.kept ws ∧
              (todo r = ws → s.todo r = [] → s.view (slot r) = result.tensor.data) := by
  obtain ⟨slabs, hslabs, hperm, hok⟩ := slabLayout_spec (slabAlign_dvd hslab) hplan hsized
  have heager : eagerSlabs mb plan = some (if slab = 0 then [] else slabs) := by
    rw [eagerSlabs, hslab, Option.bind_some, hslabs]
    exact (apply_ite some _ _ _).symm
  refine ⟨slabs, hslabs, heager, hperm, hok, fun io file chunk base mem todo s hchunk hmem hinside
    hidle hreach r hr => ?_⟩
  obtain ⟨e, he, hname, hkept⟩ := exists_entry hperm hr
  refine ⟨e, he, hname, hkept, fun flat buf result hflat hread => ?_⟩
  obtain ⟨ws, hws, hgap, hdata⟩ :=
    e.read_writes hchunk ((hsized e he).kept_eq.trans (congrArg some hflat.symm)) hread
  refine ⟨ws, hws, hflat ▸ hgap.inside, fun htodo hdone => ?_⟩
  have hdisjoint := disjoint_readers (fun x hx => (hok x hx).1) hmem hinside hidle
  have hview : ((⟨mem, todo⟩ : State ℕ Reader).view (slot r)).length = flat.length :=
    (Bytes.length_slice_of_le (hdisjoint.fits r hr)).trans (hkept.symm.trans hflat.symm)
  rw [view_of_reachable hdisjoint hreach hr hdone, hdata]
  show applyWrites _ (todo r) = _
  rw [htodo]
  exact Consecutive.applyWrites_fill (hview ▸ hgap)

/-- A tensor of two bytes. -/
def twoBytes : Entry := ⟨"head.weight".toList, ⟨.U8, [2], (0, 2)⟩, none⟩

/-- Its reader, in the first slab. -/
def twoBytesReader : Reader := (0, ⟨twoBytes.name, 0, 2⟩)

/-- With slabs of a mebibyte, the tensor is read byte by byte into a slab of one page. -/
theorem slab_layout_exact_twoBytes :
    ∃ s : State ℕ Reader, s.view (slot twoBytesReader) = [7, 8] ∧
      Transition.Reachable (step slot) (fun _ _ => True)
        ⟨fun _ => List.replicate 4096 0,
          fun r => if r = twoBytesReader then [(0, [7]), (1, [8])] else []⟩ s := by
  have hsize : slabBytes (some (.finite 1)) = some (1 <<< 20) := by decide +kernel
  have hsized : ∀ e ∈ [twoBytes], e.Sized := fun e he => List.mem_singleton.mp he ▸ rfl
  obtain ⟨slabs, hslabs, -, -, -, hread⟩ :=
    slab_layout_exact hsize (show ([twoBytes].map Entry.name).Nodup from List.nodup_singleton _)
      hsized
  have hlayout : slabLayout [twoBytes] (1 <<< 20) = some [⟨4096, [twoBytesReader.2]⟩] := by
    rw [slabLayout, sizedNames, List.mergeSort_singleton]
    rfl
  obtain rfl := Option.some.inj (hlayout.symm.trans hslabs)
  have hplaced (r : Reader) : Placed [⟨4096, [twoBytesReader.2]⟩] r ↔ r = twoBytesReader := by
    constructor
    · rintro ⟨x, hx, hm⟩
      obtain ⟨i, m⟩ := r
      cases i with
      | zero =>
        obtain rfl := Option.some.inj hx
        exact Prod.ext rfl (List.mem_singleton.mp hm)
      | succ i => exact nomatch hx
    · rintro rfl
      exact ⟨_, rfl, List.mem_singleton_self _⟩
  -- the reader takes its two steps
  obtain ⟨s, hs, hdone⟩ : ∃ s, Transition.run (step slot) (⟨fun _ => List.replicate 4096 0,
      fun r => if r = twoBytesReader then [(0, [7]), (1, [8])] else []⟩ : State ℕ Reader)
      [twoBytesReader, twoBytesReader] = some s ∧ s.todo twoBytesReader = [] := ⟨_, rfl, rfl⟩
  have hreach := Transition.Reachable.of_run hs
    (Transition.allowedRun_of_forall (fun _ _ => trivial) _ _)
  obtain ⟨e, he, -, -, hwrites⟩ := hread (fun _ _ => 1) [7, 8] 4 0 _ _ s (by decide)
    (fun i x hx => by
      cases i with
      | zero => exact Option.some.inj hx ▸ List.length_replicate
      | succ i => exact nomatch hx)
    (fun r hr => by
      obtain rfl := (hplaced r).mp hr
      rw [if_pos rfl]
      exact (show Consecutive 0 [(0, [7]), (1, [8])] 2 from .cons (.cons (.nil _))).inside)
    (fun r hr => if_neg fun h => hr ((hplaced r).mpr h)) hreach twoBytesReader
    ((hplaced _).mpr rfl)
  obtain rfl := List.mem_singleton.mp he
  obtain ⟨ws, hws, -, hview⟩ := hwrites [0, 0] none
    ⟨⟨[2], 1, [7, 8], rfl⟩, none, [(0, 2)]⟩ rfl rfl
  exact ⟨s, hview ((if_pos rfl).trans (Option.some.inj ((show twoBytes.writes (fun _ _ => 1) [7, 8] 4
    0 none = some [(0, [7]), (1, [8])] from rfl).symm.trans hws))) hdone, hreach⟩

end FastLoad

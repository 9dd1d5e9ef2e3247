import SparkTP4.AutotuneKeep

/-!
# What the sidecars accept

Whatever an interrupted write leaves in them, the two sidecars accept launches of one
fingerprint only (`accepted_unique`): a text that is cut off is no fingerprint, and a pool
sidecar counts only next to the `.launch` that it names. So a boot that writes its `.launch`
binds the cache to its own fingerprint, and one that keeps a cache leaves it bound.

Nothing unbinds a cache before it is replaced: after a mismatch `.launch` stays as it was. A
boot that ends between the save of its cache and the write of its `.launch` leaves its tactics
under the old launch's name (`interrupted_save_is_kept`). In every run without such an end, what
is loaded was tuned under the fingerprint of the boot that loads it (`loaded_same`).
-/

namespace AutotuneKeep

/-! ## Texts -/

section Texts

variable {a b w x y : Text}

/-- A text without blanks. -/
def Solid (t : Text) : Prop := ∀ c ∈ t, c.isWhitespace = false

theorem Solid.take (h : Solid a) (n : ℕ) : Solid (a.take n) :=
  fun c hc => h c (List.mem_of_mem_take hc)

theorem Solid.dropWhile (h : Solid a) : a.dropWhile Char.isWhitespace = a := by
  cases a with
  | nil => rfl
  | cons c a => exact List.dropWhile_cons_of_neg (by simp [h c List.mem_cons_self])

theorem Solid.strip (h : Solid a) : strip a = a := by
  have hrev : Solid a.reverse := fun c hc => h c (List.mem_reverse.mp hc)
  unfold AutotuneKeep.strip
  rw [h.dropWhile, hrev.dropWhile, List.reverse_reverse]

/-- A line is its text and a newline. -/
theorem strip_line (h : Solid a) (hne : a ≠ []) : strip (a ++ ['\n']) = a := by
  obtain ⟨c, a', rfl⟩ := List.exists_cons_of_ne_nil hne
  have hrev : Solid (c :: a').reverse := fun d hd => h d (List.mem_reverse.mp hd)
  have hfront : ((c :: a') ++ ['\n']).dropWhile Char.isWhitespace = (c :: a') ++ ['\n'] :=
    List.dropWhile_cons_of_neg (by simp [h c List.mem_cons_self])
  unfold strip
  rw [hfront, List.reverse_append, List.reverse_singleton, List.singleton_append,
    List.dropWhile_cons_of_pos (by decide), hrev.dropWhile, List.reverse_reverse]

/-- What a write leaves of a line. -/
theorem strip_take_line (h : Solid a) (hne : a ≠ []) (n : ℕ) :
    strip ((a ++ ['\n']).take n) <+: a := by
  rcases Nat.lt_or_ge n (a ++ ['\n']).length with hn | hn
  · have hle : n ≤ a.length := by
      rw [List.length_append, List.length_singleton] at hn
      omega
    rw [List.take_append_of_le_length hle, (h.take n).strip]
    exact List.take_prefix n a
  · rw [List.take_of_length_le hn]
    exact (strip_line h hne).symm ▸ List.prefix_refl a

theorem split_nil : split [] = [] := by decide

theorem split_newline : split ['\n'] = [] := by decide

theorem split_solid (h : Solid a) : split a = if a = [] then [] else [a] := by
  unfold split
  rw [List.splitOnP_eq_singleton h]
  by_cases ha : a = []
  · rw [if_pos ha, ha]
    rfl
  · rw [if_neg ha]
    exact List.filter_cons_of_pos (decide_eq_true ha)

theorem split_append (h : Solid a) (hne : a ≠ []) {c : Char} (hc : c.isWhitespace = true)
    (rest : Text) : split (a ++ c :: rest) = a :: split rest := by
  unfold split
  rw [List.splitOnP_append_cons_of_forall_mem h c hc]
  exact List.filter_cons_of_pos (decide_eq_true hne)

/-- What a write leaves of a line, as words. -/
theorem split_take_line (h : Solid a) (n : ℕ) (hw : w ∈ split ((a ++ ['\n']).take n)) :
    w <+: a ∧ split ((a ++ ['\n']).take n) = [w] := by
  rcases Nat.lt_or_ge n (a ++ ['\n']).length with hn | hn
  · have hle : n ≤ a.length := by
      rw [List.length_append, List.length_singleton] at hn
      omega
    rw [List.take_append_of_le_length hle, split_solid (h.take n)] at hw ⊢
    split at hw
    · cases hw
    · next hne =>
      obtain rfl := List.mem_singleton.mp hw
      rw [if_neg hne]
      exact ⟨List.take_prefix n a, rfl⟩
  · rw [List.take_of_length_le hn] at hw ⊢
    by_cases hne : a = []
    · subst hne
      rw [List.nil_append, split_newline] at hw
      cases hw
    · rw [split_append h hne (by decide)] at hw ⊢
      obtain rfl : w = a := by
        rcases List.mem_cons.mp hw with rfl | hin
        · rfl
        · rw [split_nil] at hin
          cases hin
      exact ⟨List.prefix_rfl, congrArg _ split_nil⟩

/-- **What a write leaves of two words**: if it has two words, the first one is whole. -/
theorem split_take_pair (ha : Solid a) (hne : a ≠ []) (hb : Solid b) (n : ℕ)
    (h : split ((a ++ ' ' :: b ++ ['\n']).take n) = [x, y]) : x = a ∧ y <+: b := by
  rw [List.append_assoc, List.cons_append] at h
  rcases Nat.lt_or_ge a.length n with hn | hn
  · obtain ⟨k, rfl⟩ := Nat.exists_eq_add_of_lt hn
    have htake : (a ++ ' ' :: (b ++ ['\n'])).take (a.length + k + 1) =
        a ++ ' ' :: (b ++ ['\n']).take k := by
      rw [Nat.add_assoc, List.take_length_add_append, List.take_succ_cons]
    rw [htake, split_append ha hne (by decide)] at h
    obtain ⟨hx, hrest⟩ := List.cons.inj h
    have hy : y ∈ split ((b ++ ['\n']).take k) := by
      rw [hrest]
      exact List.mem_singleton_self y
    exact ⟨hx.symm, (split_take_line hb k hy).1⟩
  · rw [List.take_append_of_le_length hn, split_solid (ha.take n)] at h
    split at h
    · cases h
    · cases h

end Texts

/-! ## What sidecars accept -/

section Accept

variable {H : Hash} {boots : Set Launch} {f : Files} {l l' m : Launch}

theorem hash_solid (p : Payload) : Solid (H.hash p) := H.digits p

theorem hash_ne_nil (p : Payload) : H.hash p ≠ [] := by
  intro h
  have := H.length p
  rw [h] at this
  cases this

/-- No two fingerprints of the boots collide. -/
def NoCollision (H : Hash) (boots : Set Launch) : Prop :=
  ∀ l ∈ boots, ∀ m ∈ boots, ∀ rawL rawM,
    H.hash (l.payload rawL) = H.hash (m.payload rawM) → l.payload rawL = m.payload rawM

/-- The pool options are gone after one pass. -/
theorem argvKey_argvKey (skip : Bool) (argv : List String) :
    argvKey false (argvKey skip argv) = argvKey skip argv := by
  induction skip, argv using argvKey.induct with
  | case1 skip => cases skip <;> rfl
  | case2 a argv ih => exact ih
  | case3 a argv ha ih =>
    rw [argvKey, if_pos ha]
    exact ih
  | case4 a argv ha hopt ih =>
    rw [argvKey, if_neg ha, if_pos hopt]
    exact ih
  | case5 a argv ha hopt ih =>
    rw [argvKey, if_neg ha, if_neg hopt, argvKey, if_neg ha, if_neg hopt, ih]

/-- **A raw fingerprint tells the fingerprint**: launches that a `.launch` text is of have the
same fingerprint. -/
theorem fp_of_fpRaw (hinj : NoCollision H boots) (hm : m ∈ boots) (hl : l ∈ boots)
    (h : m.fpRaw H = l.fp H ∨ m.fpRaw H = l.fpRaw H) : m.fp H = l.fp H := by
  have hpayload : m.payload false = l.payload false := by
    rcases h with h | h
    · obtain ⟨hargv, henv⟩ := Prod.ext_iff.mp (hinj m hm l hl true false h)
      have hargv : m.argv = argvKey false l.argv := hargv
      refine Prod.ext ?_ henv
      show argvKey false m.argv = argvKey false l.argv
      rw [hargv, argvKey_argvKey]
    · obtain ⟨hargv, henv⟩ := Prod.ext_iff.mp (hinj m hm l hl true true h)
      exact Prod.ext (congrArg (argvKey false) hargv) henv
  exact congrArg H.hash hpayload

/-- The `.launch` text is what a write of some boot has left. -/
def LaunchOk (H : Hash) (boots : Set Launch) (text : Text) : Prop :=
  ∃ m ∈ boots, strip text <+: m.fpRaw H

/-- A pool sidecar that names a whole fingerprint names a launch with its own. -/
def PoolOk (H : Hash) (boots : Set Launch) (text : Text) : Prop :=
  ∀ x, ∀ m ∈ boots, split text = [x, m.fpRaw H] → x = m.fp H

/-- The sidecars are what writes of some boots have left. -/
structure SidecarsOk (H : Hash) (boots : Set Launch) (f : Files) : Prop where
  launch : ∀ text, f.launch = some text → LaunchOk H boots text
  pool : ∀ text, f.pool = some text → PoolOk H boots text

/-- The sidecars accept a launch. -/
def Accepts (H : Hash) (f : Files) (l : Launch) : Prop := ∃ reads, sameLaunch H f reads l = true

/-- How a launch is accepted: by `.launch`, or by the pool sidecar next to it. -/
theorem accepts_cases (h : Accepts H f l) : ∃ text, f.launch = some text ∧
    ((strip text = l.fp H ∨ strip text = l.fpRaw H) ∨
      ∃ pool, f.pool = some pool ∧ split pool = [l.fp H, strip text]) := by
  obtain ⟨reads, h⟩ := h
  unfold sameLaunch at h
  split at h
  · cases h
  · next launch hlaunch =>
    obtain ⟨text, htext, rfl⟩ : ∃ text, f.launch = some text ∧ strip text = launch := by
      split at hlaunch
      · exact Option.map_eq_some_iff.mp hlaunch
      · cases hlaunch
    refine ⟨text, htext, ?_⟩
    split at h
    · next hfp => exact .inl hfp.2
    · split at h
      · cases h
      · next pool hpool =>
        split at hpool
        · obtain ⟨file, hfile, rfl⟩ := Option.map_eq_some_iff.mp hpool
          rw [Bool.and_eq_true, decide_eq_true_iff] at h
          exact .inr ⟨file, hfile, h.1⟩
        · cases hpool

/-- A fingerprint in `.launch` is the raw one of a boot. -/
theorem LaunchOk.eq_fpRaw {text : Text} (h : LaunchOk H boots text) {p : Payload}
    (hp : strip text = H.hash p) : ∃ m ∈ boots, strip text = m.fpRaw H := by
  obtain ⟨m, hm, hcut⟩ := h
  refine ⟨m, hm, hcut.eq_of_length ?_⟩
  rw [hp, H.length]
  exact (H.length _).symm

/-- **The sidecars accept launches of one fingerprint only.** -/
theorem accepted_unique (hinj : NoCollision H boots) (hok : SidecarsOk H boots f)
    (hl : l ∈ boots) (hl' : l' ∈ boots) (h : Accepts H f l) (h' : Accepts H f l') :
    l.fp H = l'.fp H := by
  obtain ⟨text, htext, hcase⟩ := accepts_cases h
  obtain ⟨text', htext', hcase'⟩ := accepts_cases h'
  obtain rfl : text = text' := Option.some.inj (htext.symm.trans htext')
  -- a whole fingerprint in `.launch` is the raw one of some boot, and decides
  have hwhole : ∀ k ∈ boots, (strip text = k.fp H ∨ strip text = k.fpRaw H) →
      ∃ m ∈ boots, strip text = m.fpRaw H ∧ m.fp H = k.fp H := by
    intro k hk hfp
    obtain ⟨m, hm, hraw⟩ : ∃ m ∈ boots, strip text = m.fpRaw H := by
      rcases hfp with hfp | hfp
      · exact (hok.launch text htext).eq_fpRaw hfp
      · exact (hok.launch text htext).eq_fpRaw hfp
    exact ⟨m, hm, hraw, fp_of_fpRaw hinj hm hk (hraw ▸ hfp)⟩
  rcases hcase with hfp | ⟨pool, hpool, hsplit⟩ <;>
    rcases hcase' with hfp' | ⟨pool', hpool', hsplit'⟩
  · obtain ⟨m, hm, hraw, heq⟩ := hwhole l hl hfp
    rw [← heq]
    exact fp_of_fpRaw hinj hm hl' (hraw ▸ hfp')
  · obtain ⟨m, hm, hraw, heq⟩ := hwhole l hl hfp
    rw [hraw] at hsplit'
    exact heq.symm.trans (hok.pool pool' hpool' _ m hm hsplit').symm
  · obtain ⟨m, hm, hraw, heq⟩ := hwhole l' hl' hfp'
    rw [hraw] at hsplit
    exact (hok.pool pool hpool _ m hm hsplit).trans heq
  · obtain rfl : pool = pool' := Option.some.inj (hpool.symm.trans hpool')
    exact (List.cons.inj (hsplit.symm.trans hsplit')).1

/-- A `.launch` that a boot has written whole accepts it. -/
theorem accepts_of_fpRaw {text : Text} (htext : f.launch = some text)
    (h : strip text = l.fpRaw H) : Accepts H f l := by
  refine ⟨⟨true, true, true⟩, ?_⟩
  unfold sameLaunch
  rw [htext]
  show (if strip text ≠ [] ∧ _ then true else _) = true
  exact if_pos ⟨h ▸ hash_ne_nil _, .inr h⟩

end Accept

/-! ## Runs -/

section Runs

variable {H : Hash} {boots : Set Launch} {s s' : State} {l : Launch}

/-- **The cache is bound**: whoever the sidecars accept, the cache was tuned under that
fingerprint. -/
def Bound (H : Hash) (boots : Set Launch) (f : Files) : Prop :=
  ∀ l ∈ boots, Accepts H f l → ∀ t ∈ f.cache.tuners, t.fp H = l.fp H

/-- What is known at each point of a boot. A cache that is still there after it has been taken
for the boot's own is accepted; one that has not been taken is gone. -/
def PhaseOk (H : Hash) (boots : Set Launch) (f : Files) : Phase → Prop
  | .idle | .done => Bound H boots f
  | .digest l before | .unlink l before => l ∈ boots ∧ Bound H boots f ∧
      (before = some true → f.cache.isFile = true → Accepts H f l) ∧
      (before = some false → f.cache = .absent)
  | .unlinkPool l _ => l ∈ boots ∧ f.cache = .absent
  | .gate l before => l ∈ boots ∧ Bound H boots f ∧
      (before = true → f.cache.isFile = true → Accepts H f l) ∧ (before = false → f.cache = .absent)
  | .tuning l kept => l ∈ boots ∧ Bound H boots f ∧ (kept = true → Accepts H f l) ∧
      (kept = false → f.cache = .absent)
  | .saved l true => l ∈ boots ∧ Bound H boots f ∧ Accepts H f l
  | .saved l false => l ∈ boots ∧ ∀ t ∈ f.cache.tuners, t.fp H = l.fp H
  | .mark l launch => l ∈ boots ∧ Bound H boots f ∧ Accepts H f l ∧
      ∃ text, f.launch = some text ∧ strip text = launch

/-- Everything a run keeps. -/
structure Inv (H : Hash) (boots : Set Launch) (s : State) : Prop where
  sidecars : SidecarsOk H boots s.files
  phase : PhaseOk H boots s.files s.phase
  loaded : ∀ l tuners, s.loaded = some (l, tuners) → ∀ t ∈ tuners, t.fp H = l.fp H

/-- No cache is bound to everything. -/
theorem bound_absent {f : Files} (h : f.cache = .absent) : Bound H boots f := by
  intro l _ _ t ht
  rw [h] at ht
  cases ht

theorem Bound.cache (h : Bound H boots s.files) {cache : CacheFile}
    (hsub : ∀ t ∈ cache.tuners, t ∈ s.files.cache.tuners) :
    Bound H boots { s.files with cache := cache } :=
  fun l hl hl' t ht => h l hl hl' t (hsub t ht)

theorem loadable_accepts {f : Files} {reads : Reads} (h : loadable H f reads l = true) :
    Accepts H f l := by
  unfold loadable at h
  split at h
  · exact ⟨reads, ((Bool.and_eq_true _ _).mp h).2⟩
  · cases h

/-- `_autotune_cache_digest` decides. -/
theorem Inv.decide (h : Inv H boots s) {reads : Reads} (hs : step H s (.decide reads) = some s') :
    Inv H boots s' := by
  unfold step at hs
  dsimp only at hs
  split at hs
  · next l before hphase =>
    obtain ⟨hl, hbound, haccepts, habsent⟩ :
        l ∈ boots ∧ Bound H boots s.files ∧
          (before = some true → s.files.cache.isFile = true → Accepts H s.files l) ∧
          (before = some false → s.files.cache = .absent) := by
      have := h.phase
      rwa [hphase] at this
    split at hs
    · next hfile =>
      obtain rfl := Option.some.inj hs
      have hgone : s.files.cache = .absent := by
        cases hcache : s.files.cache with
        | absent => rfl
        | garbage | tuned _ =>
          rw [hcache] at hfile
          cases hfile
      refine ⟨h.sidecars, ?_, h.loaded⟩
      cases before with
      | none => exact ⟨hl, hbound, nofun, fun _ => hgone⟩
      | some before => exact ⟨hl, hbound, fun hb => haccepts (hb ▸ rfl), fun _ => hgone⟩
    · split at hs
      · next hload =>
        obtain rfl := Option.some.inj hs
        refine ⟨h.sidecars, ?_, h.loaded⟩
        cases before with
        | none => exact ⟨hl, hbound, fun _ _ => loadable_accepts hload, nofun⟩
        | some before =>
          exact ⟨hl, hbound, fun _ _ => loadable_accepts hload, fun hb => habsent (hb ▸ rfl)⟩
      · obtain rfl := Option.some.inj hs
        exact ⟨h.sidecars, ⟨hl, hbound, haccepts, habsent⟩, h.loaded⟩
  · cases hs

/-- A file is unlinked. -/
theorem Inv.unlink (h : Inv H boots s) (hs : step H s .unlink = some s') : Inv H boots s' := by
  unfold step at hs
  dsimp only at hs
  have hphase := h.phase
  split at hs
  · next l before heq =>
    obtain rfl := Option.some.inj hs
    rw [heq] at hphase
    exact ⟨⟨h.sidecars.launch, h.sidecars.pool⟩, ⟨hphase.1, rfl⟩, h.loaded⟩
  · next l before heq =>
    obtain rfl := Option.some.inj hs
    rw [heq] at hphase
    obtain ⟨hl, hgone⟩ := hphase
    refine ⟨⟨h.sidecars.launch, nofun⟩, ?_, h.loaded⟩
    cases before with
    | none => exact ⟨hl, bound_absent hgone, nofun, fun _ => hgone⟩
    | some before =>
      refine ⟨hl, bound_absent hgone, fun _ hfile => ?_, fun _ => hgone⟩
      dsimp only at hfile
      rw [hgone] at hfile
      cases hfile
  · cases hs

/-- **What is loaded was tuned under the fingerprint of the boot.** -/
theorem Inv.enter (h : Inv H boots s) {drop : Bool} (hs : step H s (.enter drop) = some s') :
    Inv H boots s' := by
  unfold step at hs
  dsimp only at hs
  have hphase := h.phase
  split at hs
  · next l before heq =>
    obtain rfl := Option.some.inj hs
    rw [heq] at hphase
    obtain ⟨hl, hbound, haccepts, habsent⟩ := hphase
    cases drop with
    | true =>
      refine ⟨⟨h.sidecars.launch, h.sidecars.pool⟩, ⟨hl, bound_absent rfl, fun hk => ?_, fun _ => rfl⟩,
        nofun⟩
      rw [Bool.and_eq_true] at hk
      cases hk.2
    | false =>
      refine ⟨h.sidecars, ⟨hl, hbound, fun hk => ?_, fun hk => ?_⟩, fun l' tuners hload t ht => ?_⟩
      · rw [Bool.and_eq_true] at hk
        exact haccepts hk.1 hk.2
      · rcases (Bool.and_eq_false_iff).mp hk with hb | hfile
        · exact habsent hb
        · show s.files.cache = .absent
          change s.files.cache.isFile = false at hfile
          cases hcache : s.files.cache with
          | absent => rfl
          | garbage | tuned _ =>
            rw [hcache] at hfile
            cases hfile
      · dsimp only at hload
        split at hload
        · next tuners' hcache =>
          replace hcache : s.files.cache = .tuned tuners' := hcache
          obtain ⟨rfl, rfl⟩ := Prod.ext_iff.mp (Option.some.inj hload)
          have hkept : before = true := by
            cases before with
            | true => rfl
            | false => cases hcache.symm.trans (habsent rfl)
          exact hbound l hl (haccepts hkept (by rw [hcache]; rfl)) t (by rw [hcache]; exact ht)
        · cases hload
  · cases hs

/-- The tuning ends. -/
theorem Inv.save (h : Inv H boots s) (hinj : NoCollision H boots) {whole : Option Bool}
    (hs : step H s (.save whole) = some s') : Inv H boots s' := by
  unfold step at hs
  dsimp only at hs
  have hphase := h.phase
  split at hs
  · next l kept heq =>
    obtain rfl := Option.some.inj hs
    rw [heq] at hphase
    obtain ⟨hl, hbound, haccepts, habsent⟩ := hphase
    refine ⟨⟨h.sidecars.launch, h.sidecars.pool⟩, ?_, h.loaded⟩
    have hnew : ∀ cache : CacheFile, (∀ t ∈ cache.tuners, t = l ∨ t ∈ s.files.cache.tuners) →
        PhaseOk H boots { s.files with cache := cache } (.saved l kept) := by
      intro cache hsub
      cases kept with
      | true =>
        have hl' := haccepts rfl
        refine ⟨hl, fun k hk hk' t ht => ?_, hl'⟩
        rcases hsub t ht with rfl | hin
        · exact accepted_unique hinj h.sidecars hl hk hl' hk'
        · exact hbound k hk hk' t hin
      | false =>
        refine ⟨hl, fun t ht => ?_⟩
        rcases hsub t ht with rfl | hin
        · rfl
        · rw [habsent rfl] at hin
          cases hin
    match whole with
    | none => exact hnew s.files.cache fun t ht => .inr ht
    | some true => exact hnew _ fun t ht => List.mem_cons.mp ht
    | some false => exact hnew _ fun t ht => by cases ht
  · cases hs

/-- The `.launch` of a kept cache is read. -/
theorem Inv.readLaunch (h : Inv H boots s) (hs : step H s .readLaunch = some s') :
    Inv H boots s' := by
  unfold step at hs
  dsimp only at hs
  have hphase := h.phase
  split at hs
  · next l heq =>
    obtain ⟨-, hs⟩ := Option.ite_none_right_eq_some.mp hs
    obtain ⟨text, htext, rfl⟩ := Option.map_eq_some_iff.mp hs
    rw [heq] at hphase
    exact ⟨h.sidecars, ⟨hphase.1, hphase.2.1, hphase.2.2, text, htext, rfl⟩, h.loaded⟩
  · cases hs

theorem strip_written (p : Payload) {upTo : Option ℕ} {text : Text}
    (h : written (H.hash p ++ ['\n']) upTo = some text) :
    strip text <+: H.hash p ∧ (upTo = none → strip text = H.hash p) := by
  obtain rfl := Option.some.inj h
  cases upTo with
  | none =>
    have heq := strip_line (hash_solid (H := H) p) (hash_ne_nil p)
    have hcut : strip (H.hash p ++ ['\n']) <+: H.hash p  :=
      heq.symm ▸ List.prefix_refl _
    exact ⟨hcut, fun _ => heq⟩
  | some n => exact ⟨strip_take_line (hash_solid p) (hash_ne_nil p) n, nofun⟩

/-- **A boot that writes its whole `.launch` binds its cache.** -/
theorem Inv.writeLaunch (h : Inv H boots s) (hinj : NoCollision H boots) {upTo : Option ℕ}
    (hs : step H s (.writeLaunch upTo) = some s') : Inv H boots s' := by
  unfold step at hs
  dsimp only at hs
  have hphase := h.phase
  split at hs
  · next l heq =>
    obtain ⟨-, hs⟩ := Option.ite_none_right_eq_some.mp hs
    obtain rfl := Option.some.inj hs
    rw [heq] at hphase
    obtain ⟨hl, hown⟩ := hphase
    have hok : SidecarsOk H boots { s.files with
        launch := written (l.fpRaw H ++ ['\n']) upTo } :=
      ⟨fun text htext => ⟨l, hl, (strip_written _ htext).1⟩, h.sidecars.pool⟩
    refine ⟨hok, ?_, h.loaded⟩
    dsimp only
    split
    · next hwhole =>
      obtain ⟨text, htext⟩ : ∃ text, written (l.fpRaw H ++ ['\n']) upTo = some text := ⟨_, rfl⟩
      have hstrip := (strip_written _ htext).2 hwhole
      have haccepts : Accepts H { s.files with
          launch := written (l.fpRaw H ++ ['\n']) upTo } l := accepts_of_fpRaw htext hstrip
      refine ⟨hl, fun k hk hk' t ht => ?_, haccepts, text, htext, hstrip⟩
      exact (hown t ht).trans (accepted_unique hinj hok hl hk haccepts hk')
    · exact ⟨hl, hown⟩
  · cases hs

/-- The pool sidecar names the boot's own fingerprint. -/
theorem Inv.writePool (h : Inv H boots s) (hinj : NoCollision H boots) {upTo : Option ℕ}
    (hs : step H s (.writePool upTo) = some s') : Inv H boots s' := by
  unfold step at hs
  dsimp only at hs
  have hphase := h.phase
  split at hs
  · next l launch heq =>
    obtain rfl := Option.some.inj hs
    rw [heq] at hphase
    obtain ⟨hl, hbound, haccepts, text, htext, rfl⟩ := hphase
    obtain ⟨m, hm, hcut⟩ := h.sidecars.launch text htext
    have hsolid : Solid (strip text) := fun c hc => hash_solid _ c (hcut.subset hc)
    -- a pool text with two words starts with the whole fingerprint
    have hwords : ∀ pool x y, written (l.fp H ++ ' ' :: strip text ++ ['\n']) upTo = some pool →
        split pool = [x, y] → x = l.fp H ∧ y <+: strip text := by
      intro pool x y hpool hsplit
      obtain ⟨n, rfl⟩ : ∃ n, pool = (l.fp H ++ ' ' :: strip text ++ ['\n']).take n := by
        obtain rfl := Option.some.inj hpool
        cases upTo with
        | none => exact ⟨_, (List.take_length).symm⟩
        | some n => exact ⟨n, rfl⟩
      exact split_take_pair (hash_solid _) (hash_ne_nil _) hsolid n hsplit
    have hok : SidecarsOk H boots { s.files with
        pool := written (l.fp H ++ ' ' :: strip text ++ ['\n']) upTo } := by
      refine ⟨h.sidecars.launch, fun pool hpool x k hk hsplit => ?_⟩
      obtain ⟨rfl, hy⟩ := hwords pool x _ hpool hsplit
      have hwhole : strip text = k.fpRaw H := by
        refine (hy.eq_of_length (le_antisymm hy.length_le ?_)).symm
        exact hcut.length_le.trans ((H.length _).trans (H.length _).symm).le
      exact accepted_unique hinj h.sidecars hl hk haccepts (accepts_of_fpRaw htext hwhole)
    refine ⟨hok, fun k hk hk' t ht => ?_, h.loaded⟩
    obtain ⟨text', htext', hcase⟩ := accepts_cases hk'
    obtain rfl : text = text' := Option.some.inj (htext.symm.trans htext')
    have hlt := hbound l hl haccepts t ht
    rcases hcase with hfp | ⟨pool, hpool, hsplit⟩
    · obtain ⟨m', hm', hraw⟩ : ∃ m' ∈ boots, strip text = m'.fpRaw H := by
        rcases hfp with hfp | hfp
        · exact (h.sidecars.launch text htext).eq_fpRaw hfp
        · exact (h.sidecars.launch text htext).eq_fpRaw hfp
      rw [hlt, accepted_unique hinj h.sidecars hl hm' haccepts (accepts_of_fpRaw htext hraw)]
      exact fp_of_fpRaw hinj hm' hk (hraw ▸ hfp)
    · exact hlt.trans (hwords pool _ _ hpool hsplit).1.symm
  · cases hs

/-- A boot ends. -/
theorem Inv.stop (h : Inv H boots s) (hmarked : Marked H boots s .stop)
    (hs : step H s .stop = some s') : Inv H boots s' := by
  obtain rfl := Option.some.inj hs
  refine ⟨h.sidecars, ?_, h.loaded⟩
  show Bound H boots s.files
  have hphase := h.phase
  unfold Marked at hmarked
  cases heq : s.phase with
  | idle | done => rwa [heq] at hphase
  | digest | unlink | gate | tuning | mark =>
    rw [heq] at hphase
    exact hphase.2.1
  | unlinkPool =>
    rw [heq] at hphase
    exact bound_absent hphase.2
  | saved l kept =>
    rw [heq] at hphase hmarked
    cases kept with
    | true => exact hphase.2.1
    | false =>
      rintro k hk ⟨reads, hk'⟩ t ht
      have hne : s.files.cache.tuners ≠ [] := List.ne_nil_of_mem ht
      exact (hphase.2 t ht).trans (hmarked hne reads k hk hk').symm

/-- **Every step keeps the invariant**, as long as no boot ends with an unmarked cache. -/
theorem Inv.step (hinj : NoCollision H boots) (h : Inv H boots s) {a : Action}
    (hmarked : Marked H boots s a) (hs : AutotuneKeep.step H s a = some s') : Inv H boots s' := by
  cases a with
  | boot l =>
    unfold AutotuneKeep.step at hs
    dsimp only at hs
    have hphase := h.phase
    split at hs
    · next heq =>
      obtain rfl := Option.some.inj hs
      rw [heq] at hphase
      exact ⟨h.sidecars, ⟨hmarked, hphase, nofun, nofun⟩, nofun⟩
    · cases hs
  | decide reads => exact h.decide hs
  | unlink => exact h.unlink hs
  | enter drop => exact h.enter hs
  | save whole => exact h.save hinj hs
  | readLaunch => exact h.readLaunch hs
  | writeLaunch upTo => exact h.writeLaunch hinj hs
  | writePool upTo => exact h.writePool hinj hs
  | stop => exact h.stop hmarked hs

/-- **In every run in which no boot ends between the save of its cache and the write of its
`.launch` under sidecars that accept another launch, a boot loads only what was tuned under its
own fingerprint.** -/
theorem loaded_same (H : Hash) (boots : Set Launch) (hinj : NoCollision H boots) (s : State)
    (h : Transition.Reachable (AutotuneKeep.step H) (Marked H boots) initial s) (l : Launch)
    (tuners : List Launch) (hload : s.loaded = some (l, tuners)) : ∀ t ∈ tuners, t.fp H = l.fp H := by
  have hinit : Inv H boots initial :=
    ⟨⟨nofun, nofun⟩, bound_absent rfl, nofun⟩
  exact (h.invariant (Inv H boots) hinit fun _ _ _ hinv hmarked hs =>
    hinv.step hinj hmarked hs).loaded l tuners hload

end Runs

/-! ## A boot that is interrupted after its save -/

/-- Fingerprints of launches that differ in their first argument. -/
def sampleHash : Hash where
  hash p := List.replicate 64 (if p.1 = ["x"] then 'a' else 'b')
  length _ := List.length_replicate
  digits p c hc := by
    obtain rfl := (List.mem_replicate.mp hc).2
    split <;> decide

/-- A launch with one argument. -/
def sampleLaunch (arg : String) : Launch := ⟨[arg], fun _ => none, []⟩

def sampleBoots : Set Launch := {sampleLaunch "x", sampleLaunch "y"}

theorem sampleLaunch_payload (raw : Bool) : (sampleLaunch "x").payload raw = (["x"], fun _ => none) ∧
    (sampleLaunch "y").payload raw = (["y"], fun _ => none) := by
  have henv : ∀ arg, (sampleLaunch arg).env = fun _ => none := by
    intro arg
    funext key
    show (sampleLaunch arg).baseEnv key = none
    unfold Launch.baseEnv
    split <;> rfl
  unfold Launch.payload
  rw [henv, henv]
  have hx : argvKey false ["x"] = ["x"] := by decide +kernel
  have hy : argvKey false ["y"] = ["y"] := by decide +kernel
  cases raw
  · exact ⟨Prod.ext hx rfl, Prod.ext hy rfl⟩
  · exact ⟨rfl, rfl⟩

theorem sampleBoots_noCollision : NoCollision sampleHash sampleBoots := by
  intro l hl m hm rawL rawM h
  have hne : sampleHash.hash (["x"], fun _ => none) ≠ sampleHash.hash (["y"], fun _ => none) := by
    decide +kernel
  rcases hl with rfl | rfl <;> rcases hm with rfl | rfl
  · rw [(sampleLaunch_payload rawL).1, (sampleLaunch_payload rawM).1]
  · rw [(sampleLaunch_payload rawL).1, (sampleLaunch_payload rawM).2] at h
    exact absurd h hne
  · rw [(sampleLaunch_payload rawL).2, (sampleLaunch_payload rawM).1] at h
    exact absurd h.symm hne
  · rw [(sampleLaunch_payload rawL).2, (sampleLaunch_payload rawM).2]

/-- All files can be read. -/
def readable : Reads := ⟨true, true, true⟩

/-- A boot that tunes afresh, up to its save. -/
def tuneRun (l : Launch) : List Action :=
  [.boot l, .decide readable, .decide readable, .enter false, .save (some true)]

/-- A boot tunes and marks its cache; another launch drops it, tunes, and is interrupted after
its save; then the first launch boots again. -/
def interruptedRun : List Action :=
  tuneRun (sampleLaunch "x") ++ [.writeLaunch none, .writePool none, .stop] ++
  [.boot (sampleLaunch "y"), .decide readable, .unlink, .unlink, .decide readable, .enter false,
    .save (some true), .stop] ++
  [.boot (sampleLaunch "x"), .decide readable, .decide readable, .enter false]

/-- All boots are among `boots`, and may end anywhere. -/
def AnyEnd (boots : Set Launch) (_ : State) : Action → Prop
  | .boot l => l ∈ boots
  | _ => True

theorem interruptedRun_boots (a : Action) (ha : a ∈ interruptedRun) (s : State) :
    AnyEnd sampleBoots s a := by
  cases a with
  | boot l =>
    simp only [interruptedRun, tuneRun, List.mem_append, List.mem_cons, Action.boot.injEq,
      reduceCtorEq, List.not_mem_nil, or_false] at ha
    rcases ha with (rfl | rfl) | rfl
    · exact .inl rfl
    · exact .inr rfl
    · exact .inl rfl
  | _ => trivial

/-- **The tactics of the interrupted boot are kept** and loaded by the first launch, whose
`.launch` is still there. -/
theorem interrupted_save_is_kept : ¬ ∀ (H : Hash) (boots : Set Launch), NoCollision H boots →
    ∀ s, Transition.Reachable (step H) (AnyEnd boots) initial s →
    ∀ l tuners, s.loaded = some (l, tuners) → ∀ t ∈ tuners, t.fp H = l.fp H := by
  intro h
  have hrun : ((Transition.run (step sampleHash) initial interruptedRun).map fun s =>
      s.loaded.map fun p => (p.1.argv, p.2.map Launch.argv)) = some (some (["x"], [["y"]])) := by
    decide +kernel
  obtain ⟨s, hs, hloaded⟩ := Option.map_eq_some_iff.mp hrun
  obtain ⟨⟨l, tuners⟩, hload, hargv⟩ := Option.map_eq_some_iff.mp hloaded
  obtain ⟨hl, htuners⟩ := Prod.ext_iff.mp hargv
  obtain ⟨t, rest, rfl, ht, _⟩ := List.map_eq_cons_iff.mp htuners
  have hfp := h sampleHash sampleBoots sampleBoots_noCollision s
    (.of_run hs (Transition.allowedRun_of_mem interruptedRun_boots _)) l _ hload t
    List.mem_cons_self
  have hhash : ∀ k : Launch, k.fp sampleHash =
      List.replicate 64 (if argvKey false k.argv = ["x"] then 'a' else 'b') := fun _ => rfl
  rw [hhash, hhash, ht, show l.argv = ["x"] from hl] at hfp
  exact absurd hfp (by decide +kernel)

/-- The first launch boots twice, and keeps its cache. -/
def keptRun : List Action :=
  tuneRun (sampleLaunch "x") ++ [.writeLaunch none, .writePool none, .stop] ++
  [.boot (sampleLaunch "x"), .decide readable, .decide readable, .enter false]

/-- The first boot has written its sidecars when it ends. -/
theorem keptRun_marked :
    Transition.AllowedRun (step sampleHash) (Marked sampleHash sampleBoots) initial keptRun := by
  refine ⟨.inl rfl, fun s₁ h₁ => ⟨trivial, fun s₂ h₂ => ⟨trivial, fun s₃ h₃ => ⟨trivial,
    fun s₄ h₄ => ⟨trivial, fun s₅ h₅ => ⟨trivial, fun s₆ h₆ => ⟨trivial, fun s₇ h₇ => ⟨?_,
    fun _ _ => ⟨.inl rfl, fun _ _ => ⟨trivial, fun _ _ => ⟨trivial, fun _ _ => ⟨trivial,
    fun _ _ => trivial⟩⟩⟩⟩⟩⟩⟩⟩⟩⟩⟩⟩
  obtain rfl := Option.some.inj h₁
  obtain rfl := Option.some.inj h₂
  obtain rfl := Option.some.inj h₃
  obtain rfl := Option.some.inj h₄
  obtain rfl := Option.some.inj h₅
  obtain rfl := Option.some.inj h₆
  obtain rfl := Option.some.inj h₇
  trivial

/-- Its tactics are loaded again. -/
theorem loaded_same_kept : ∃ s, Transition.run (step sampleHash) initial keptRun = some s ∧
    ∃ l tuners, s.loaded = some (l, tuners) ∧ tuners ≠ [] ∧
      ∀ t ∈ tuners, t.fp sampleHash = l.fp sampleHash := by
  have hrun : ((Transition.run (step sampleHash) initial keptRun).map fun s =>
      s.loaded.map fun p => (p.1.argv, p.2.map Launch.argv)) = some (some (["x"], [["x"]])) := by
    decide +kernel
  obtain ⟨s, hs, hloaded⟩ := Option.map_eq_some_iff.mp hrun
  obtain ⟨⟨l, tuners⟩, hload, hargv⟩ := Option.map_eq_some_iff.mp hloaded
  obtain ⟨-, htuners⟩ := Prod.ext_iff.mp hargv
  obtain ⟨t, rest, rfl, -⟩ := List.map_eq_cons_iff.mp htuners
  refine ⟨s, hs, l, _, hload, List.cons_ne_nil _ _, ?_⟩
  exact loaded_same sampleHash sampleBoots sampleBoots_noCollision s (.of_run hs keptRun_marked) l _
    hload

end AutotuneKeep

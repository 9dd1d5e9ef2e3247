import Mathlib.Data.Int.Notation
import SparkTP4.StageSkip

/-!
# A skipped staging is one that would change nothing

The chain is told apart from the memory it finds: on the inputs it is given it
overwrites the first `bs` rows of both buffers, so it leaves the same rows
whatever they held (`runWrites_rows`), and running it again over its own result
changes nothing, as long as its inputs do not view a buffer (`runWrites_twice`).
If they do, the chain itself bumps their versions past the ones in the key.

The invariant `KeyOk` then says what a key is worth: its objects are live, the
versions it lists are not ahead of the counters, and while they are equal to
them the chain would change nothing. A hit is exactly that case, so it does what
running the chain does, and the runs with and without the skip hold the same
cells throughout (`stage_exact`).
-/

namespace StageSkip

variable {V : Type} {cfg : Config V}

/-! ## One write -/

theorem Heap.write_self (h : Heap V) (a : Address) (data : ℕ → V) :
    h.write a data a = ⟨(h a).version + 1, data⟩ := Function.update_self ..

theorem Heap.write_of_ne {a b : Address} (hne : b ≠ a) (h : Heap V) (data : ℕ → V) :
    h.write a data b = h b := Function.update_of_ne hne ..

/-- Two memories hold the same at some addresses. -/
def AgreeOn (P : Address → Prop) (h h' : Heap V) : Prop :=
  ∀ a, P a → (h a).data = (h' a).data

/-- The tensors of a call view storages among some addresses. -/
def Views (P : Address → Prop) (info : Info) : Prop :=
  ∀ tk, info = some tk → P tk.1.storage ∧ P tk.2.storage

/-- What is read depends on the viewed storages. -/
theorem inputs_congr {P : Address → Prop} {h h' : Heap V} {info : Info} (hagree : AgreeOn P h h')
    (hviews : Views P info) : inputs h info = inputs h' info := by
  cases info with
  | none => rfl
  | some tk =>
    have hread (t : Tensor) (ht : P t.storage) : t.read h = t.read h' := by
      unfold Tensor.read
      rw [hagree _ ht]
    obtain ⟨ht, hk⟩ := hviews tk rfl
    show some (tk.1.read h, tk.2.read h) = some (tk.1.read h', tk.2.read h')
    rw [hread _ ht, hread _ hk]

/-- A buffer of the sampler. -/
def Buffer (a : Address) : Prop := a = .temperatures ∨ a = .greedyMask

theorem Write.target_buffer (w : Write V) : Buffer w.target := by
  cases w with
  | temperatures => exact .inl rfl
  | greedyMask => exact .inr rfl
  | scale => exact .inl rfl

theorem Write.run_target (w : Write V) (bs : ℕ) (info : Info) (h : Heap V) :
    w.run bs info h w.target = ⟨(h w.target).version + 1, fun r =>
      if r < bs then w.value (inputs h info) ((h w.target).data r) r
      else (h w.target).data r⟩ := Heap.write_self ..

theorem Write.run_of_ne {w : Write V} {a : Address} (hne : a ≠ w.target) (bs : ℕ) (info : Info)
    (h : Heap V) : w.run bs info h a = h a := Heap.write_of_ne hne ..

/-- A write does the same in memories that hold the same. -/
theorem Write.run_congr {P : Address → Prop} {h h' : Heap V} {info : Info} (w : Write V) (bs : ℕ)
    (hagree : AgreeOn P h h') (hviews : Views P info) :
    AgreeOn P (w.run bs info h) (w.run bs info h') := by
  intro a ha
  by_cases hne : a = w.target
  · subst hne
    rw [Write.run_target, Write.run_target, hagree _ ha, inputs_congr hagree hviews]
  · rw [Write.run_of_ne hne, Write.run_of_ne hne]
    exact hagree a ha

/-! ## The chain -/

theorem runWrites_cons (bs : ℕ) (info : Info) (w : Write V) (ws : List (Write V)) (h : Heap V) :
    runWrites bs info (w :: ws) h = runWrites bs info ws (w.run bs info h) := rfl

/-- Writes do the same in memories that hold the same. -/
theorem runWrites_congr {P : Address → Prop} {h h' : Heap V} {info : Info} (bs : ℕ)
    (ws : List (Write V)) (hagree : AgreeOn P h h') (hviews : Views P info) :
    AgreeOn P (runWrites bs info ws h) (runWrites bs info ws h') := by
  induction ws generalizing h h' with
  | nil => exact hagree
  | cons w ws ih => exact ih (w.run_congr bs hagree hviews)

/-- Only the buffers are written. -/
theorem runWrites_other {a : Address} (ha : ¬Buffer a) (bs : ℕ) (info : Info) (ws : List (Write V))
    (h : Heap V) : runWrites bs info ws h a = h a := by
  induction ws generalizing h with
  | nil => rfl
  | cons w ws ih =>
    rw [runWrites_cons, ih]
    refine Write.run_of_ne (fun heq => ha ?_) bs info h
    rw [heq]
    exact w.target_buffer

/-- Rows past the batch are not written. -/
theorem runWrites_beyond {bs r : ℕ} (hr : bs ≤ r) (info : Info) (ws : List (Write V)) (h : Heap V)
    (a : Address) : (runWrites bs info ws h a).data r = (h a).data r := by
  induction ws generalizing h with
  | nil => rfl
  | cons w ws ih =>
    rw [runWrites_cons, ih]
    by_cases hne : a = w.target
    · subst hne
      rw [Write.run_target]
      exact if_neg (Nat.not_lt.mpr hr)
    · rw [Write.run_of_ne hne]

/-- A write that fills the rows of a buffer with values of its own. -/
def Write.Fills (w : Write V) (a : Address) : Prop :=
  match w with
  | .temperatures _ => a = .temperatures
  | .greedyMask _ => a = .greedyMask
  | .scale _ => False

theorem Write.Fills.target {w : Write V} {a : Address} (h : w.Fills a) : a = w.target := by
  cases w with
  | temperatures => exact h
  | greedyMask => exact h
  | scale => exact h.elim

theorem Write.Fills.value {w : Write V} {a : Address} (h : w.Fills a) (i : Inputs V) (x y : V)
    (r : ℕ) : w.value i x r = w.value i y r := by
  cases w with
  | temperatures => rfl
  | greedyMask => rfl
  | scale => exact h.elim

/-- After a write the rows of a buffer hold the same, if they did before or the write fills
them. -/
theorem Write.run_rows {w : Write V} {bs : ℕ} {info : Info} {h h' : Heap V} {a : Address}
    (hinputs : inputs h info = inputs h' info)
    (hrows : (∀ r < bs, (h a).data r = (h' a).data r) ∨ w.Fills a) :
    ∀ r < bs, (w.run bs info h a).data r = (w.run bs info h' a).data r := by
  intro r hr
  by_cases hne : a = w.target
  · subst hne
    rw [Write.run_target, Write.run_target, hinputs]
    dsimp only
    rw [if_pos hr, if_pos hr]
    obtain hsame | hfills := hrows
    · rw [hsame r hr]
    · exact hfills.value ..
  · rw [Write.run_of_ne hne, Write.run_of_ne hne]
    exact hrows.resolve_right (fun hfills => hne hfills.target) r hr

/-- **What the chain leaves does not depend on what it finds**: the rows of a buffer that held
the same, or that some write fills, hold the same afterwards. -/
theorem runWrites_rows {P : Address → Prop} {bs : ℕ} {info : Info} {ws : List (Write V)}
    {h h' : Heap V} {a : Address} (hagree : AgreeOn P h h') (hviews : Views P info)
    (hplain : ∀ b, P b → ¬Buffer b)
    (hrows : (∀ r < bs, (h a).data r = (h' a).data r) ∨ ∃ w ∈ ws, w.Fills a) :
    ∀ r < bs, (runWrites bs info ws h a).data r = (runWrites bs info ws h' a).data r := by
  induction ws generalizing h h' with
  | nil => exact hrows.resolve_right fun ⟨w, hw, _⟩ => nomatch hw
  | cons w ws ih =>
    have hagree' : AgreeOn P (w.run bs info h) (w.run bs info h') := fun b hb => by
      have hne : b ≠ w.target := by
        rintro rfl
        exact hplain _ hb w.target_buffer
      rw [Write.run_of_ne hne, Write.run_of_ne hne]
      exact hagree b hb
    have hinputs := inputs_congr hagree hviews
    refine ih hagree' ?_
    obtain hsame | ⟨v, hv, hfills⟩ := hrows
    · exact .inl (Write.run_rows hinputs (.inl hsame))
    · obtain rfl | hv := List.mem_cons.mp hv
      · exact .inl (Write.run_rows hinputs (.inr hfills))
      · exact .inr ⟨v, hv, hfills⟩

/-- The chain fills both buffers. -/
theorem Config.chain_fills {a : Address} (ha : Buffer a) (bs : ℕ) (given : Bool) :
    ∃ w ∈ cfg.chain bs given, w.Fills a := by
  unfold Config.chain
  obtain rfl | rfl := ha
  · obtain ⟨f, hf⟩ := cfg.engine.fillsTemperatures bs given
    exact ⟨_, List.mem_append_left _ hf, rfl⟩
  · obtain ⟨f, hf⟩ := cfg.engine.fillsMask bs given
    exact ⟨_, List.mem_append_left _ hf, rfl⟩

/-- The chain would change nothing. -/
def Settled (cfg : Config V) (h : Heap V) (bs : ℕ) (info : Info) : Prop :=
  ∀ a, (runWrites bs info (cfg.chain bs info.isSome) h a).data = (h a).data

/-- **The chain changes nothing the second time**, if its inputs view no buffer. -/
theorem runWrites_twice {info : Info} (hviews : Views (fun a => ¬Buffer a) info) (bs : ℕ)
    (h : Heap V) : Settled cfg (runWrites bs info (cfg.chain bs info.isSome) h) bs info := by
  intro a
  by_cases ha : Buffer a
  · funext r
    by_cases hr : r < bs
    · exact runWrites_rows (fun b hb => by rw [runWrites_other hb]) hviews (fun b hb => hb)
        (.inr (cfg.chain_fills ha bs info.isSome)) r hr
    · rw [runWrites_beyond (Nat.not_lt.mp hr)]
  · rw [runWrites_other ha]

/-- What is settled depends on the buffers and the viewed storages. -/
theorem Settled.congr {P : Address → Prop} {h h' : Heap V} {bs : ℕ} {info : Info}
    (hs : Settled cfg h bs info) (hagree : AgreeOn P h h') (hbuffers : ∀ a, Buffer a → P a)
    (hviews : Views P info) : Settled cfg h' bs info := by
  intro a
  by_cases ha : Buffer a
  · rw [← runWrites_congr bs _ hagree hviews a (hbuffers a ha), hs a]
    exact hagree a (hbuffers a ha)
  · rw [runWrites_other ha]

/-! ## Versions -/

/-- A memory later than another: no version is smaller, and what kept its version kept its
cells. -/
def LaterOn (P : Address → Prop) (h h' : Heap V) : Prop :=
  ∀ a, P a → (h a).version ≤ (h' a).version ∧
    ((h a).version = (h' a).version → (h a).data = (h' a).data)

theorem LaterOn.refl (P : Address → Prop) (h : Heap V) : LaterOn P h h :=
  fun _ _ => ⟨Nat.le_refl _, fun _ => rfl⟩

theorem LaterOn.trans {P : Address → Prop} {h h' h'' : Heap V} (h₁ : LaterOn P h h')
    (h₂ : LaterOn P h' h'') : LaterOn P h h'' := by
  intro a ha
  obtain ⟨hle₁, heq₁⟩ := h₁ a ha
  obtain ⟨hle₂, heq₂⟩ := h₂ a ha
  refine ⟨Nat.le_trans hle₁ hle₂, fun h => ?_⟩
  have hmid : (h' a).version = (h'' a).version := Nat.le_antisymm hle₂ (h ▸ hle₁)
  exact (heq₁ (h.trans hmid.symm)).trans (heq₂ hmid)

/-- **A write bumps the version** of what it writes, and leaves the rest. -/
theorem laterOn_write (P : Address → Prop) (h : Heap V) (a : Address) (data : ℕ → V) :
    LaterOn P h (h.write a data) := by
  intro b _
  by_cases hne : b = a
  · subst hne
    rw [Heap.write_self]
    exact ⟨Nat.le_succ _, fun h => absurd h (Nat.ne_of_lt (Nat.lt_succ_self _))⟩
  · rw [Heap.write_of_ne hne]
    exact ⟨Nat.le_refl _, fun _ => rfl⟩

theorem laterOn_run (P : Address → Prop) (w : Write V) (bs : ℕ) (info : Info) (h : Heap V) :
    LaterOn P h (w.run bs info h) := laterOn_write P h _ _

theorem laterOn_runWrites (P : Address → Prop) (bs : ℕ) (info : Info) (ws : List (Write V))
    (h : Heap V) : LaterOn P h (runWrites bs info ws h) := by
  induction ws generalizing h with
  | nil => exact .refl P h
  | cons w ws ih => exact (laterOn_run P w bs info h).trans (ih _)

/-- A buffer that is written does not keep its version. -/
theorem version_lt_runWrites {ws : List (Write V)} {w : Write V} (hw : w ∈ ws) (bs : ℕ)
    (info : Info) (h : Heap V) :
    (h w.target).version < (runWrites bs info ws h w.target).version := by
  induction ws generalizing h with
  | nil => cases hw
  | cons v ws ih =>
    have hfirst := (laterOn_run (fun _ => True) v bs info h w.target trivial).1
    have hrest := (laterOn_runWrites (fun _ => True) bs info ws (v.run bs info h) w.target
      trivial).1
    obtain rfl | hw := List.mem_cons.mp hw
    · refine Nat.lt_of_lt_of_le ?_ hrest
      rw [Write.run_target]
      exact Nat.lt_succ_self _
    · exact Nat.lt_of_le_of_lt hfirst (ih hw _)

/-! ## The key -/

/-- The storages a key watches, with the versions it lists. -/
def StageKey.watched (key : StageKey) : List (Address × ℕ) :=
  (.temperatures, key.mine.1) :: (.greedyMask, key.mine.2) ::
    (key.tensors.elim [] fun tk => [(tk.1.dataPtr.1, tk.1.version), (tk.2.dataPtr.1, tk.2.version)])

/-- A storage a key watches. -/
def StageKey.Watches (key : StageKey) (a : Address) : Prop := ∃ n, (a, n) ∈ key.watched

theorem StageKey.watches_buffer (key : StageKey) {a : Address} (ha : Buffer a) : key.Watches a := by
  obtain rfl | rfl := ha
  · exact ⟨_, List.mem_cons_self⟩
  · exact ⟨_, List.mem_cons_of_mem _ List.mem_cons_self⟩

/-- The tensors a key is about are live, and it holds them. -/
def Holds (objects : List (ℕ × Tensor)) (key : StageKey) : Info → Prop
  | none => key.tensors = none
  | some (t, k) => ∃ x y, key.tensors = some (x, y) ∧ key.refs = [x.id, y.id] ∧
      Memo.get objects x.id = some t ∧ Memo.get objects y.id = some k ∧
        x.dataPtr.1 = t.storage ∧ y.dataPtr.1 = k.storage

/-- **What a key is worth.** While the versions it lists are the storages' own, the chain would
change nothing. -/
structure KeyOk (cfg : Config V) (h : Heap V) (objects : List (ℕ × Tensor)) (key : StageKey)
    (info : Info) : Prop where
  holds : Holds objects key info
  le : ∀ e ∈ key.watched, e.2 ≤ (h e.1).version
  fresh : (∀ e ∈ key.watched, e.2 = (h e.1).version) → Settled cfg h key.bs info

/-- The tensors a key is about view storages it watches. -/
theorem Holds.views {objects : List (ℕ × Tensor)} {key : StageKey} {info : Info}
    (h : Holds objects key info) : Views key.Watches info := by
  rintro ⟨t, k⟩ rfl
  obtain ⟨x, y, htensors, -, -, -, hx, hy⟩ := h
  unfold StageKey.Watches StageKey.watched
  rw [htensors, ← hx, ← hy]
  exact ⟨⟨x.version, by simp⟩, ⟨y.version, by simp⟩⟩

/-- A key watches no storage that no object views. -/
theorem Holds.not_watches {objects : List (ℕ × Tensor)} {key : StageKey} {info : Info} {a : ℕ}
    (h : Holds objects key info) (hunused : ∀ e ∈ objects, e.2.storage ≠ .other a) :
    ¬key.Watches (.other a) := by
  rintro ⟨n, hn⟩
  unfold StageKey.watched at hn
  match info, h with
  | none, hnone =>
    rw [show key.tensors = none from hnone] at hn
    simp at hn
  | some (t, k), ⟨x, y, htensors, _, ht, hk, hx, hy⟩ =>
    have ht := hunused _ (Memo.mem_of_get ht)
    have hk := hunused _ (Memo.mem_of_get hk)
    rw [htensors] at hn
    simp only [Option.elim, List.mem_cons, Prod.mk.injEq, List.not_mem_nil, or_false, reduceCtorEq,
      false_and, false_or] at hn
    obtain ⟨hat, -⟩ | ⟨hat, -⟩ := hn
    · exact ht (hx.symm.trans hat.symm)
    · exact hk (hy.symm.trans hat.symm)

/-- A key keeps its worth while the watched storages only get later. -/
theorem KeyOk.later {h h' : Heap V} {objects : List (ℕ × Tensor)} {key : StageKey} {info : Info}
    (hkey : KeyOk cfg h objects key info) (hlater : LaterOn key.Watches h h') :
    KeyOk cfg h' objects key info := by
  have hle (e : Address × ℕ) (he : e ∈ key.watched) := hlater e.1 ⟨e.2, he⟩
  refine ⟨hkey.holds, fun e he => Nat.le_trans (hkey.le e he) (hle e he).1, fun hall => ?_⟩
  have hsame (e : Address × ℕ) (he : e ∈ key.watched) : (h e.1).version = (h' e.1).version :=
    Nat.le_antisymm (hle e he).1 (hall e he ▸ hkey.le e he)
  have hagree : AgreeOn key.Watches h h' := fun a ⟨n, hn⟩ => (hle (a, n) hn).2 (hsame (a, n) hn)
  exact (hkey.fresh fun e he => (hall e he).trans (hsame e he).symm).congr hagree
    (fun _ => key.watches_buffer) hkey.holds.views

/-- A key keeps its worth while its objects stay. -/
theorem KeyOk.objects {h : Heap V} {objects objects' : List (ℕ × Tensor)} {key : StageKey}
    {info : Info} (hkey : KeyOk cfg h objects key info)
    (hsame : ∀ id ∈ key.refs, ∀ t, Memo.get objects id = some t → Memo.get objects' id = some t) :
    KeyOk cfg h objects' key info := by
  refine ⟨?_, hkey.le, hkey.fresh⟩
  match info, hkey.holds with
  | none, hnone => exact hnone
  | some (t, k), ⟨x, y, htensors, hrefs, ht, hk, hx, hy⟩ =>
    rw [hrefs] at hsame
    exact ⟨x, y, htensors, hrefs, hsame _ (by simp) t ht, hsame _ (by simp) k hk, hx, hy⟩

/-- What a call resolves to. -/
theorem resolve_spec {s : State V} {c : Call} {info : Info} (h : s.resolve c = some info) :
    (c.info = none ∧ info = none) ∨ ∃ i j t k, c.info = some (i, j) ∧ info = some (t, k) ∧
      Memo.get s.objects i = some t ∧ Memo.get s.objects j = some k := by
  unfold State.resolve at h
  split at h
  · next hc => exact .inl ⟨hc, (Option.some.inj h).symm⟩
  · next i j hc =>
    obtain ⟨t, ht, h⟩ := Option.bind_eq_some_iff.mp h
    obtain ⟨k, hk, h⟩ := Option.map_eq_some_iff.mp h
    exact .inr ⟨i, j, t, k, hc, h.symm, ht, hk⟩

/-- **A hit is a call that would change nothing.** -/
theorem hits_settled {s : State V} {c : Call} {info : Info} (hresolve : s.resolve c = some info)
    (hkey : ∀ key, s.key = some key → ∃ info, KeyOk cfg s.heap s.objects key info)
    (hhit : s.hits c info = true) : Settled cfg s.heap c.bs info := by
  obtain ⟨key, hs, htest⟩ := (Option.any_eq_true _ _).mp hhit
  simp only [Bool.and_eq_true, decide_eq_true_eq] at htest
  obtain ⟨⟨hbs, htensors⟩, hmine⟩ := htest
  obtain ⟨info', hok⟩ := hkey key hs
  have hbuffers (e : Address × ℕ) (he : e = (.temperatures, key.mine.1) ∨
      e = (.greedyMask, key.mine.2)) : e.2 = (s.heap e.1).version := by
    obtain rfl | rfl := he <;> rw [hmine] <;> rfl
  obtain ⟨hc, rfl⟩ | ⟨i, j, t, k, hc, rfl, ht, hk⟩ := resolve_spec hresolve
  · have hnone : key.tensors = none := by
      rw [htensors]
      unfold Call.tensors
      rw [hc]
      rfl
    have hinfo : info' = none := by
      match info', hok.holds with
      | none, _ => rfl
      | some (t, k), ⟨x, y, hxy, _⟩ => cases hnone.symm.trans hxy
    subst hinfo
    rw [← hbs]
    refine hok.fresh fun e he => hbuffers e ?_
    unfold StageKey.watched at he
    rw [hnone] at he
    simpa using he
  · have hsome : key.tensors = some (tensorKey s.heap i t, tensorKey s.heap j k) := by
      rw [htensors]
      unfold Call.tensors
      rw [hc]
      rfl
    have hinfo : info' = some (t, k) := by
      match info', hok.holds with
      | none, hnone => cases hsome.symm.trans hnone
      | some (t', k'), ⟨x, y, hxy, _, hx, hy, _⟩ =>
        obtain ⟨rfl, rfl⟩ := Prod.mk.inj (Option.some.inj (hsome.symm.trans hxy))
        rw [Option.some.inj (ht.symm.trans hx), Option.some.inj (hk.symm.trans hy)]
    subst hinfo
    rw [← hbs]
    refine hok.fresh fun e he => ?_
    unfold StageKey.watched at he
    rw [hsome] at he
    simp only [Option.elim, List.mem_cons, List.not_mem_nil, or_false] at he
    obtain he | he | rfl | rfl := he
    · exact hbuffers e (.inl he)
    · exact hbuffers e (.inr he)
    · rfl
    · rfl

/-- **A key that was just set is worth something.** -/
theorem keyOk_staged {s : State V} {c : Call} {info : Info} (hresolve : s.resolve c = some info) :
    let heap := runWrites c.bs info (cfg.chain c.bs info.isSome) s.heap
    KeyOk cfg heap s.objects ⟨c.bs, c.tensors s.heap info, mine heap, c.refs⟩ info := by
  intro heap
  have hlater := laterOn_runWrites (fun _ => True) c.bs info (cfg.chain c.bs info.isSome) s.heap
  -- an input that views a buffer is written by the chain, and does not keep its version
  have hplain {a : Address} (h : (s.heap a).version = (heap a).version) : ¬Buffer a := by
    intro ha
    obtain ⟨w, hw, hfills⟩ := cfg.chain_fills ha c.bs info.isSome
    obtain rfl := hfills.target
    exact Nat.ne_of_lt (version_lt_runWrites hw c.bs info s.heap) h
  obtain ⟨hc, rfl⟩ | ⟨i, j, t, k, hc, rfl, ht, hk⟩ := resolve_spec hresolve
  · refine ⟨?_, fun e he => ?_, fun _ => runWrites_twice (fun _ h => by cases h) c.bs s.heap⟩
    · unfold Holds Call.tensors
      rw [hc]
      rfl
    · unfold StageKey.watched Call.tensors at he
      rw [hc] at he
      simp only [Option.bind_none, Option.elim, List.mem_cons, List.not_mem_nil, or_false] at he
      obtain rfl | rfl := he <;> exact Nat.le_refl _
  · have hwatched : StageKey.watched ⟨c.bs, c.tensors s.heap (some (t, k)), mine heap, c.refs⟩ =
        [(.temperatures, (mine heap).1), (.greedyMask, (mine heap).2),
          (t.storage, (s.heap t.storage).version), (k.storage, (s.heap k.storage).version)] := by
      unfold StageKey.watched Call.tensors
      rw [hc]
      rfl
    refine ⟨⟨tensorKey s.heap i t, tensorKey s.heap j k, ?_, ?_, ht, hk, rfl, rfl⟩,
      fun e he => ?_, fun hall => runWrites_twice ?_ c.bs s.heap⟩
    · unfold Call.tensors
      rw [hc]
      rfl
    · unfold Call.refs
      rw [hc]
      rfl
    · rw [hwatched] at he
      simp only [List.mem_cons, List.not_mem_nil, or_false] at he
      obtain rfl | rfl | rfl | rfl := he
      · exact Nat.le_refl _
      · exact Nat.le_refl _
      · exact (hlater t.storage trivial).1
      · exact (hlater k.storage trivial).1
    · intro tk htk
      obtain rfl := Option.some.inj htk
      rw [hwatched] at hall
      exact ⟨hplain (hall (t.storage, _) (by simp)), hplain (hall (k.storage, _) (by simp))⟩

/-! ## Runs -/

/-- The key of a state, if there is one, is worth something. -/
def Inv (cfg : Config V) (s : State V) : Prop :=
  ∀ key, s.key = some key → ∃ info, KeyOk cfg s.heap s.objects key info

theorem Inv.of_none {s : State V} (h : s.key = none) : Inv cfg s := fun key hkey => by
  rw [h] at hkey
  cases hkey

theorem origStage_heap (s : State V) (c : Call) (info : Info) :
    (s.origStage cfg c info none).heap =
      runWrites c.bs info (cfg.chain c.bs info.isSome) s.heap := by
  unfold State.origStage
  dsimp only
  rw [Option.getD_none, List.take_length]

/-- **What a call that returns leaves** is what the chain leaves. -/
theorem stage_spec {s t : State V} {c : Call} {info : Info} {raises : Option ℕ} (h : Inv cfg s)
    (hresolve : s.resolve c = some info) (hs : s.stage cfg c info raises = some t) :
    Inv cfg t ∧ t.objects = s.objects ∧ t.on = s.on ∧
      ∀ a, (t.heap a).data = ((s.origStage cfg c info raises).heap a).data := by
  unfold State.stage at hs
  split at hs
  · split at hs
    · next hhit =>
      obtain ⟨hraises, hs⟩ := Option.ite_none_right_eq_some.mp hs
      obtain rfl := Option.some.inj hs
      obtain rfl := Option.isNone_iff_eq_none.mp hraises
      refine ⟨h, rfl, rfl, fun a => ?_⟩
      rw [origStage_heap]
      exact (hits_settled hresolve h hhit a).symm
    · dsimp only at hs
      split at hs
      · next hraises =>
        obtain rfl := Option.isNone_iff_eq_none.mp hraises
        obtain rfl := Option.some.inj hs
        refine ⟨fun key hkey => ⟨info, ?_⟩, rfl, rfl, fun a => rfl⟩
        obtain rfl := Option.some.inj hkey
        dsimp only
        rw [origStage_heap]
        exact keyOk_staged hresolve
      · obtain rfl := Option.some.inj hs
        refine ⟨fun key hkey => ?_, rfl, rfl, fun a => rfl⟩
        obtain ⟨info', hok⟩ := h key hkey
        exact ⟨info', hok.later (laterOn_runWrites _ _ _ _ _)⟩
  · obtain rfl := Option.some.inj hs
    exact ⟨.of_none rfl, rfl, rfl, fun a => rfl⟩

/-- **One event keeps the key's worth.** -/
theorem Inv.next {s t : State V} {e : Event V} (h : Inv cfg s) (hs : s.next cfg e = some t) :
    Inv cfg t := by
  cases e with
  | switch on =>
    obtain rfl := Option.some.inj hs
    exact h
  | write a data =>
    obtain rfl := Option.some.inj hs
    intro key hkey
    obtain ⟨info, hok⟩ := h key hkey
    exact ⟨info, hok.later (laterOn_write _ s.heap a data)⟩
  | new id x =>
    obtain ⟨hfree, hs⟩ := Option.ite_none_right_eq_some.mp hs
    obtain rfl := Option.some.inj hs
    intro key hkey
    obtain ⟨info, hok⟩ := h key hkey
    refine ⟨info, hok.objects fun j _ y hy => ?_⟩
    have hne : j ≠ id := by
      rintro rfl
      cases hfree.symm.trans hy
    exact (Memo.get_set_of_ne hne x).trans hy
  | free id =>
    obtain ⟨hheld, hs⟩ := Option.ite_none_right_eq_some.mp hs
    obtain rfl := Option.some.inj hs
    intro key hkey
    obtain ⟨info, hok⟩ := h key hkey
    refine ⟨info, hok.objects fun j hj y hy => ?_⟩
    have hne : j ≠ id := by
      rintro rfl
      rw [show s.key = some key from hkey] at hheld
      exact of_decide_eq_true hheld hj
    exact (Memo.get_drop_of_ne hne).trans hy
  | alloc a storage =>
    obtain ⟨hunused, hs⟩ := Option.ite_none_right_eq_some.mp hs
    obtain rfl := Option.some.inj hs
    intro key hkey
    obtain ⟨info, hok⟩ := h key hkey
    refine ⟨info, hok.later fun b hb => ?_⟩
    have hne : b ≠ .other a := by
      rintro rfl
      exact hok.holds.not_watches hunused hb
    have hsame : Function.update s.heap (.other a) storage b = s.heap b :=
      Function.update_of_ne hne ..
    exact ⟨Nat.le_of_eq (congrArg Storage.version hsame.symm), fun _ =>
      congrArg Storage.data hsame.symm⟩
  | stage c raises =>
    obtain ⟨info, hresolve, hs⟩ := Option.bind_eq_some_iff.mp hs
    exact (stage_spec h hresolve hs).1

/-- The run with the skip and the run without hold the same cells. -/
structure SameCells (s a : State V) : Prop where
  heap : ∀ x, (s.heap x).data = (a.heap x).data
  objects : a.objects = s.objects
  on : a.on = s.on
  key : a.key = none

/-- **One event does the same to the cells**, with the skip and without. -/
theorem SameCells.next {s t a : State V} {e : Event V} (hsame : SameCells s a) (h : Inv cfg s)
    (hs : s.next cfg e = some t) : ∃ b, a.nextAlways cfg e = some b ∧ SameCells t b := by
  obtain ⟨hheap, hobjects, hon, hkey⟩ := hsame
  have hupdate (x : Address) (v : Storage V) (v' : Storage V) (hv : v.data = v'.data)
      (y : Address) : (Function.update s.heap x v y).data = (Function.update a.heap x v' y).data := by
    by_cases hne : y = x
    · subst hne
      rw [Function.update_self, Function.update_self, hv]
    · rw [Function.update_of_ne hne, Function.update_of_ne hne, hheap]
  cases e with
  | switch on =>
    obtain rfl := Option.some.inj hs
    exact ⟨_, rfl, hheap, hobjects, rfl, hkey⟩
  | write x data =>
    obtain rfl := Option.some.inj hs
    exact ⟨_, rfl, hupdate x _ _ rfl, hobjects, hon, hkey⟩
  | new id x =>
    obtain ⟨hfree, hs⟩ := Option.ite_none_right_eq_some.mp hs
    obtain rfl := Option.some.inj hs
    rw [← hobjects] at hfree
    exact ⟨_, if_pos hfree, hheap, congrArg (Memo.set · id x) hobjects, hon, hkey⟩
  | free id =>
    obtain ⟨-, hs⟩ := Option.ite_none_right_eq_some.mp hs
    obtain rfl := Option.some.inj hs
    exact ⟨_, if_pos (by rw [hkey]; rfl), hheap, congrArg (Memo.drop · id) hobjects, hon, hkey⟩
  | alloc x storage =>
    obtain ⟨hunused, hs⟩ := Option.ite_none_right_eq_some.mp hs
    obtain rfl := Option.some.inj hs
    rw [← hobjects] at hunused
    exact ⟨_, if_pos hunused, hupdate _ _ _ rfl, hobjects, hon, hkey⟩
  | stage c raises =>
    obtain ⟨info, hresolve, hs⟩ := Option.bind_eq_some_iff.mp hs
    obtain ⟨-, hobjects', hon', hdata⟩ := stage_spec h hresolve hs
    have hresolve' : a.resolve c = some info := by
      unfold State.resolve at hresolve ⊢
      rw [hobjects]
      exact hresolve
    refine ⟨a.origStage cfg c info raises, ?_, fun x => ?_, hobjects.trans hobjects'.symm,
      hon.trans hon'.symm, hkey⟩
    · show (a.resolve c).bind _ = _
      rw [hresolve']
      rfl
    · rw [hdata x]
      have hall : AgreeOn (fun _ => True) s.heap a.heap := fun y _ => hheap y
      exact runWrites_congr c.bs _ hall (fun _ _ => ⟨trivial, trivial⟩) x trivial

/-- A run keeps both. -/
theorem run_spec {s a t : State V} {es : List (Event V)} (h : Inv cfg s) (hsame : SameCells s a)
    (hs : Transition.run (State.next cfg) s es = some t) :
    ∃ b, Transition.run (State.nextAlways cfg) a es = some b ∧ SameCells t b ∧ Inv cfg t := by
  induction es generalizing s a with
  | nil =>
    obtain rfl := Option.some.inj hs
    exact ⟨a, rfl, hsame, h⟩
  | cons e es ih =>
    obtain ⟨s', hs', hrun⟩ := Option.bind_eq_some_iff.mp hs
    obtain ⟨a', ha', hsame'⟩ := hsame.next h hs'
    obtain ⟨b, hb, hrest⟩ := ih (h.next hs') hsame' hrun
    exact ⟨b, Option.bind_eq_some_iff.mpr ⟨a', ha', hb⟩, hrest⟩

/-- **Skipping the staging is exact.** After any events the storages – the two buffers among
them – hold what the run that always stages leaves in them, and a call that returns leaves
what the whole chain leaves on the inputs of the call. -/
theorem stage_exact (cfg : Config V) (h : Heap V) (es : List (Event V)) (s : State V)
    (hrun : Transition.run (State.next cfg) (State.init h) es = some s) :
    (∃ a, Transition.run (State.nextAlways cfg) (State.init h) es = some a ∧
      ∀ x, (s.heap x).data = (a.heap x).data) ∧
    ∀ c t, s.next cfg (.stage c none) = some t → ∃ info, s.resolve c = some info ∧
      ∀ x, (t.heap x).data = ((s.origStage cfg c info none).heap x).data := by
  obtain ⟨a, ha, hsame, hinv⟩ :=
    run_spec (Inv.of_none rfl) (a := State.init h) ⟨fun _ => rfl, rfl, rfl, rfl⟩ hrun
  refine ⟨⟨a, ha, hsame.heap⟩, fun c t ht => ?_⟩
  obtain ⟨info, hresolve, ht⟩ := Option.bind_eq_some_iff.mp ht
  exact ⟨info, hresolve, (stage_spec hinv hresolve ht).2.2.2⟩

/-- An engine over the integers that stages as the fused kernel does: the temperatures from
the first tensor, clamped from below, and a flag for a `top_k` of at most one. -/
def sampleEngine : Engine ℤ where
  body _ given := if given then
      [.temperatures fun i r => max 1 ((i.map fun tk => tk.1.cells r).getD 0),
        .greedyMask fun i r => if (i.map fun tk => tk.2.cells r).getD 0 ≤ 1 then 1 else 0]
    else [.temperatures fun _ _ => 1, .greedyMask fun _ _ => 1]
  fillsTemperatures _ given := by cases given <;> exact ⟨_, List.mem_cons_self⟩
  fillsMask _ given := by
    cases given <;> exact ⟨_, List.mem_cons_of_mem _ List.mem_cons_self⟩

/-- Two tensors of two requests, staged with a multiply by three, once and a second time; then
the temperatures are edited in place, and they are staged again. -/
def sampleEvents : List (Event ℤ) :=
  [.new 5 ⟨.other 0, 0, [2, 1], [1, 1]⟩, .new 6 ⟨.other 1, 0, [2], [1]⟩,
    .write (.other 0) fun i => i + 2, .stage ⟨2, some (5, 6)⟩ none,
    .stage ⟨2, some (5, 6)⟩ none, .write (.other 0) fun i => i + 4,
    .stage ⟨2, some (5, 6)⟩ none]

/-- The second call is skipped, and the third is not: two stagings, of two writes each. -/
theorem stage_exact_sample : ∃ s : State ℤ, ((s.heap .temperatures).version,
      (s.heap .temperatures).data 0, (s.heap .temperatures).data 1) = (4, 12, 15) ∧
    ∃ a, Transition.run (State.nextAlways ⟨sampleEngine, some (3 * ·), true⟩)
        (State.init fun _ => ⟨0, fun _ => 0⟩) sampleEvents = some a ∧
      ∀ x, (s.heap x).data = (a.heap x).data := by
  have hrun : Transition.run (State.next ⟨sampleEngine, some (3 * ·), true⟩)
      (State.init fun _ => ⟨0, fun _ => 0⟩) sampleEvents = some _ := rfl
  exact ⟨_, by decide +kernel, (stage_exact _ _ _ _ hrun).1⟩

end StageSkip

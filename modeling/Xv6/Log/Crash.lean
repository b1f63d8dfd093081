import Xv6.Log.Code

/-!
# Power cuts

The programs of `kernel/log.c` on a disk that may lose power. Block writes are atomic and reach the
disk in the order issued; `Mach.left` is the number of block writes left until the power is cut.
A buffer keeps its contents in `Mach.cache`; a block that is not cached is read from disk.

* `power`: the machine. `run power p s` stops with `none` at the write it has no power for.
* `Clean`, `Txn.Committed`: the disk before and after the first `write_head` of `commit`, for any
  contents of the home blocks in the second; the specifications `Txn.spec_writeLog`,
  `Txn.spec_commitHead`, `Txn.spec_installTrans` and `Txn.spec_recover` say how `commit` and
  recovery move between them.
* **`crash_atomicity`**: after any power cut in `commit` and any interrupted recoveries the home
  blocks are all old or all new.
-/

namespace Xv6.Log

open Function Prog

abbrev Disk : Type := ℕ → Block

/-- The disk, the cached blocks, `log[dev].lh`, and the number of block writes until the power is
cut. -/
structure Mach where
  disk : Disk
  cache : ℕ → Option Block
  lh : LogHeader
  left : ℕ

namespace Mach

/-- What `bread` returns: the cached contents, or the disk's. -/
def view (s : Mach) (b : ℕ) : Block := (s.cache b).getD (s.disk b)

def boot (d : Disk) (k : ℕ) : Mach := ⟨d, fun _ => none, .empty, k⟩

theorem view_boot (d : Disk) (k : ℕ) : (boot d k).view = d := rfl

end Mach

/-- **What the commands do.** A buffer pointer is the number of the block. -/
def power : (c : BufCmd ℕ) → Mach → Option (Mach × c.Ans)
  | .bread b, s => some ({ s with cache := update s.cache b (some (s.view b)) }, b)
  | .data b, s => some (s, s.view b)
  | .setData b d, s => some ({ s with cache := update s.cache b (some d) }, ())
  | .bwrite b, s =>
    if s.left = 0 then none
    else some ({ s with disk := update s.disk b (s.view b), left := s.left - 1 }, ())
  | .brelse _, s => some (s, ())
  | .bunpin _, s => some (s, ())
  | .getLh, s => some (s, s.lh)
  | .setLh lh, s => some ({ s with lh := lh }, ())
  | .fault, _ => none

/-- Recoveries of disk `d` that lose power, then one that completes and leaves `d'`. -/
inductive Recovers (g : Geometry) : Disk → Disk → Prop
  | done {d : Disk} {k : ℕ} {s : Mach} :
      run power (recoverFromLog g) (.boot d k) = (s, some ()) → Recovers g d s.disk
  | cut {d d' : Disk} {k : ℕ} {s : Mach} :
      run power (recoverFromLog g) (.boot d k) = (s, none) → Recovers g s.disk d' →
      Recovers g d d'

theorem Recovers.of_run {g : Geometry} {d : Disk} {k : ℕ}
    (h : (run power (recoverFromLog g) (.boot d k)).2 = some ()) :
    Recovers g d (run power (recoverFromLog g) (.boot d k)).1.disk :=
  .done (Prod.ext rfl h)

theorem Recovers.of_cut {g : Geometry} {d d' : Disk} {k : ℕ}
    (hrec : Recovers g (run power (recoverFromLog g) (.boot d k)).1.disk d')
    (h : (run power (recoverFromLog g) (.boot d k)).2 = none) : Recovers g d d' :=
  .cut (Prod.ext rfl h) hrec

/-! ## One block -/

theorem view_update_cache (s : Mach) (b : ℕ) (d : Block) :
    ({ s with cache := update s.cache b (some d) } : Mach).view =
      update s.view b d := by
  funext x
  by_cases h : x = b
  · subst h; simp [Mach.view]
  · simp [Mach.view, update_of_ne h]

theorem view_cache_view (s : Mach) (b : ℕ) :
    ({ s with cache := update s.cache b (some (s.view b)) } : Mach).view = s.view := by
  rw [view_update_cache, update_eq_self]

theorem view_write (s : Mach) (b k : ℕ) :
    ({ s with disk := update s.disk b (s.view b), left := k } : Mach).view = s.view := by
  funext x
  by_cases h : x = b
  · subst h
    simp only [Mach.view, update_self]
    cases s.cache x <;> rfl
  · simp [Mach.view, update_of_ne h]

/-- The disk is `d`, a read returns `v`, and the header in memory is `l`. -/
structure At (d v : Disk) (l : LogHeader) (s : Mach) : Prop where
  disk : s.disk = d
  view : s.view = v
  lh : s.lh = l

section Commands

variable {d v : Disk} {l : LogHeader} {X : Mach → Prop}

theorem spec_bread (b : ℕ) :
    Spec power (At d v l) (bread b) (fun h s => h = b ∧ At d v l s) X :=
  .perform (fun _ _ h => nomatch h) fun s s' r hs h => by
    cases h
    exact ⟨rfl, hs.disk, (view_cache_view s b).trans hs.view, hs.lh⟩

theorem spec_data (b : ℕ) :
    Spec power (At d v l) (data b) (fun x s => x = v b ∧ At d v l s) X :=
  .perform (fun _ _ h => nomatch h) fun s s' r hs h => by
    cases h
    exact ⟨congrFun hs.view b, hs⟩

theorem spec_setData (b : ℕ) (x : Block) :
    Spec power (At d v l) (setData b x) (fun _ => At d (update v b x) l) X :=
  .perform (fun _ _ h => nomatch h) fun s s' r hs h => by
    cases h
    exact ⟨hs.disk, (view_update_cache s b x).trans (by rw [hs.view]), hs.lh⟩

theorem spec_bwrite (b : ℕ) : Spec power (At d v l) (bwrite b)
    (fun _ => At (update d b (v b)) v l) (fun s => s.disk = d) := by
  refine .perform (fun s hs _ => hs.disk) fun s s' r hs h => ?_
  rw [power] at h
  split_ifs at h
  cases h
  exact ⟨by rw [hs.disk, hs.view], (view_write s b _).trans hs.view, hs.lh⟩

theorem spec_brelse (b : ℕ) : Spec power (At d v l) (brelse b) (fun _ => At d v l) X :=
  .perform (fun _ _ h => nomatch h) fun s s' r hs h => by cases h; exact hs

theorem spec_bunpin (b : ℕ) : Spec power (At d v l) (bunpin b) (fun _ => At d v l) X :=
  .perform (fun _ _ h => nomatch h) fun s s' r hs h => by cases h; exact hs

theorem spec_getLh {P : Mach → Prop} (hP : ∀ s, P s → s.lh = l) :
    Spec power P getLh (fun x s => x = l ∧ P s) X :=
  .perform (fun _ _ h => nomatch h) fun s s' r hs h => by
    cases h
    exact ⟨hP s hs, hs⟩

theorem spec_setLh (l' : LogHeader) : Spec power (At d v l) (setLh l') (fun _ => At d v l') X :=
  .perform (fun _ _ h => nomatch h) fun s s' r hs h => by
    cases h
    exact ⟨hs.disk, hs.view, rfl⟩

theorem spec_installBlock (g : Geometry) (tail b : ℕ) :
    Spec power (At d v l) (installBlock g tail b) (fun _ =>
      At (update d b (v (g.start + tail + 1)))
        (update v b (v (g.start + tail + 1))) l) (fun s => s.disk = d) := by
  refine .bind_eq (spec_bread _) (.bind_eq (spec_bread b) (.bind_eq (spec_data _)
    (.bind (spec_setData b _) fun _ => .bind (spec_bwrite b) fun _ => ?_)))
  rw [update_self]
  exact .bind (spec_bunpin b) fun _ => .bind (spec_brelse _) fun _ => spec_brelse b

theorem spec_logBlock (g : Geometry) (tail b : ℕ) :
    Spec power (At d v l) (logBlock g tail b) (fun _ =>
      At (update d (g.start + tail + 1) (v b))
        (update v (g.start + tail + 1) (v b)) l) (fun s => s.disk = d) := by
  refine .bind_eq (spec_bread _) (.bind_eq (spec_bread b) (.bind_eq (spec_data _)
    (.bind (spec_setData _ _) fun _ => .bind (spec_bwrite _) fun _ => ?_)))
  rw [update_self]
  exact .bind (spec_brelse b) fun _ => spec_brelse _

theorem spec_writeHead (g : Geometry) : Spec power (At d v l) (writeHead g) (fun _ =>
    At (update d g.start (putHeader l (v g.start)))
      (update v g.start (putHeader l (v g.start))) l) (fun s => s.disk = d) := by
  refine .bind_eq (spec_bread _) (.bind_eq (spec_getLh fun _ h => h.lh) (.bind_eq (spec_data _)
    (.bind (spec_setData _ _) fun _ => .bind (spec_bwrite _) fun _ => ?_)))
  rw [update_self]
  exact spec_brelse _

end Commands

/-! ## The transaction -/

/-- A transaction on the log region `g`: the disk before it, the header in memory, and the cached
contents of the blocks. The blocks are home blocks, and there is a log block for each. -/
structure Txn (g : Geometry) where
  old : Disk
  lh : LogHeader
  cached : ℕ → Block
  room : lh.n + 1 ≤ g.size
  home : ∀ b ∈ lh.block, ¬ g.InLog b

namespace Txn

variable {g : Geometry} (T : Txn g)

/-- The disk with exactly every listed block replaced by its cached contents. -/
def new (b : ℕ) : Block := if b ∈ T.lh.block then T.cached b else T.old b

theorem inLog_copy {i : ℕ} (h : i < T.lh.block.length) : g.InLog (g.start + i + 1) := by
  have := T.room
  rw [LogHeader.n] at this
  exact ⟨by omega, by omega⟩

include T in
theorem inLog_start : g.InLog g.start := ⟨le_rfl, by have := T.room; omega⟩

/-- The header on disk lists the transaction and the log blocks hold its contents. The home blocks
it lists may hold anything. -/
structure Committed (d : Disk) : Prop where
  head : getHeader (d g.start) = some T.lh
  copy : ∀ i (h : i < T.lh.block.length), d (g.start + i + 1) = T.cached T.lh.block[i]
  rest : ∀ b, ¬ g.InLog b → b ∉ T.lh.block → d b = T.old b

/-- `write_log` has copied the first `i` blocks; `l` is to be done. -/
structure Logging (i : ℕ) (l : List ℕ) (s : Mach) : Prop where
  lh : s.lh = T.lh
  todo : T.lh.block.drop i = l
  head : headerN (s.disk g.start) = 0
  rest : ∀ b, ¬ g.InLog b → s.disk b = T.old b
  cached : ∀ b ∈ T.lh.block, s.view b = T.cached b
  copy : ∀ j (h : j < T.lh.block.length), j < i →
    s.disk (g.start + j + 1) = T.cached T.lh.block[j] ∧
      s.view (g.start + j + 1) = T.cached T.lh.block[j]

/-- `install_trans` has copied the first `i` blocks; `l` is to be done. -/
structure Installing (i : ℕ) (l : List ℕ) (s : Mach) : Prop where
  lh : s.lh = T.lh
  todo : T.lh.block.drop i = l
  committed : T.Committed s.disk
  copy : ∀ j (h : j < T.lh.block.length), s.view (g.start + j + 1) = T.cached T.lh.block[j]
  done : ∀ j (h : j < T.lh.block.length), j < i →
    s.disk T.lh.block[j] = T.cached T.lh.block[j]

end Txn

/-- Nothing is committed: the header on disk is empty and the home blocks are those of `d₀`. -/
def Clean (g : Geometry) (d₀ d : Disk) : Prop :=
  headerN (d g.start) = 0 ∧ ∀ b, ¬ g.InLog b → d b = d₀ b

theorem drop_eq_cons {l l' : List ℕ} {i b : ℕ} (h : l.drop i = b :: l') :
    ∃ hi : i < l.length, l[i] = b ∧ l.drop (i + 1) = l' := by
  have hi : i < l.length := by
    by_contra hle
    rw [List.drop_eq_nil_of_le (not_lt.1 hle)] at h
    cases h
  rw [List.drop_eq_getElem_cons hi, List.cons.injEq] at h
  exact ⟨hi, h⟩

namespace Txn

variable {g : Geometry} {T : Txn g}

theorem spec_logBlock (i b : ℕ) (l : List ℕ) :
    Spec power (T.Logging i (b :: l)) (logBlock g i b) (fun _ => T.Logging (i + 1) l)
      (fun s => Clean g T.old s.disk) := by
  refine .each fun s hs => ?_
  obtain ⟨hi, hb, hl⟩ := drop_eq_cons hs.todo
  have hlog := T.inLog_copy hi
  have hv : s.view b = T.cached b := hs.cached b (hb ▸ List.getElem_mem hi)
  refine (Log.spec_logBlock (d := s.disk) (v := s.view) (l := s.lh) g i b).mono
    (fun t ht => ht ▸ ⟨rfl, rfl, rfl⟩) (fun _ t ht => ?_) fun t ht => ht ▸ ⟨hs.head, hs.rest⟩
  refine ⟨ht.lh.trans hs.lh, hl, ?_, fun x hx => ?_, fun x hx => ?_, fun j hj hji => ?_⟩
  · rw [ht.disk, update_of_ne (by omega)]
    exact hs.head
  · rw [ht.disk, update_of_ne (by rintro rfl; exact hx hlog)]
    exact hs.rest x hx
  · rw [ht.view, update_of_ne (by rintro rfl; exact T.home _ hx hlog)]
    exact hs.cached x hx
  · rw [ht.disk, ht.view, hv]
    by_cases hij : j = i
    · subst hij
      rw [hb, update_self, update_self]
      exact ⟨rfl, rfl⟩
    · rw [update_of_ne (by omega), update_of_ne (by omega)]
      exact hs.copy j hj (by omega)

/-- **`write_log`** copies the listed blocks to the log and changes no home block. -/
theorem spec_writeLog :
    Spec power (T.Logging 0 T.lh.block) (writeLog g) (fun _ => T.Logging T.lh.n [])
      (fun s => Clean g T.old s.disk) := by
  refine .bind_eq (spec_getLh fun s hs => hs.lh) ?_
  have := Spec.forEnum (h := power) T.spec_logBlock 0 T.lh.block
  rwa [zero_add] at this

theorem spec_installBlock (i b : ℕ) (l : List ℕ) :
    Spec power (T.Installing i (b :: l)) (installBlock g i b) (fun _ => T.Installing (i + 1) l)
      (fun s => T.Committed s.disk) := by
  refine .each fun s hs => ?_
  obtain ⟨hi, hb, hl⟩ := drop_eq_cons hs.todo
  have hhome : b ∈ T.lh.block := hb ▸ List.getElem_mem hi
  have hlog : ∀ x, g.InLog x → x ≠ b := fun x hx h => T.home b hhome (h ▸ hx)
  have hv : s.view (g.start + i + 1) = T.cached b := hb ▸ hs.copy i hi
  refine (Log.spec_installBlock (d := s.disk) (v := s.view) (l := s.lh) g i b).mono
    (fun t ht => ht ▸ ⟨rfl, rfl, rfl⟩) (fun _ t ht => ?_) fun t ht => ht ▸ hs.committed
  rw [hv] at ht
  refine ⟨ht.lh.trans hs.lh, hl, ⟨?_, fun j hj => ?_, fun x hx hxl => ?_⟩, fun j hj => ?_,
    fun j hj hji => ?_⟩
  · rw [ht.disk, update_of_ne (hlog _ T.inLog_start)]
    exact hs.committed.head
  · rw [ht.disk, update_of_ne (hlog _ (T.inLog_copy hj))]
    exact hs.committed.copy j hj
  · rw [ht.disk, update_of_ne (by rintro rfl; exact hxl hhome)]
    exact hs.committed.rest x hx hxl
  · rw [ht.view, update_of_ne (hlog _ (T.inLog_copy hj))]
    exact hs.copy j hj
  · rw [ht.disk]
    by_cases hjb : T.lh.block[j] = b
    · rw [hjb, update_self]
    · rw [update_of_ne hjb]
      refine hs.done j hj (lt_of_le_of_ne (by omega) fun hij => hjb ?_)
      subst hij
      exact hb

/-- **`install_trans`** brings every listed block home; interrupted anywhere, the transaction is
still committed. -/
theorem spec_installTrans :
    Spec power (T.Installing 0 T.lh.block) (installTrans g) (fun _ => T.Installing T.lh.n [])
      (fun s => T.Committed s.disk) := by
  refine .bind_eq (spec_getLh fun s hs => hs.lh) ?_
  have := Spec.forEnum (h := power) T.spec_installBlock 0 T.lh.block
  rwa [zero_add] at this

theorem Installing.eq_new {s : Mach} (h : T.Installing T.lh.n [] s) {b : ℕ} (hb : ¬ g.InLog b) :
    s.disk b = T.new b := by
  unfold new
  split_ifs with hmem
  · obtain ⟨j, hj, rfl⟩ := List.getElem_of_mem hmem
    exact h.done j hj hj
  · exact h.committed.rest b hb hmem

theorem spec_erase : Spec power (T.Installing T.lh.n []) (do setLh .empty; writeHead g)
    (fun _ s => Clean g T.new s.disk) (fun s => T.Committed s.disk) := by
  refine .each fun s hs => ?_
  refine (Spec.bind (spec_setLh (l := s.lh) .empty) fun _ =>
    spec_writeHead (d := s.disk) (v := s.view) g).mono (fun t ht => ht ▸ ⟨rfl, rfl, rfl⟩)
    (fun _ t ht => ?_) fun t ht => ht ▸ hs.committed
  refine ⟨?_, fun b hb => ?_⟩
  · rw [ht.disk, update_self, headerN_putHeader]
    rfl
  · rw [ht.disk, update_of_ne (by rintro rfl; exact hb T.inLog_start)]
    exact hs.eq_new hb

theorem spec_commitHead : Spec power (T.Logging T.lh.n []) (writeHead g)
    (fun _ => T.Installing 0 T.lh.block) (fun s => Clean g T.old s.disk) := by
  refine .each fun s hs => ?_
  refine (spec_writeHead (d := s.disk) (v := s.view) (l := s.lh) g).mono
    (fun t ht => ht ▸ ⟨rfl, rfl, rfl⟩) (fun _ t ht => ?_) fun t ht => ht ▸ ⟨hs.head, hs.rest⟩
  rw [hs.lh] at ht
  refine ⟨ht.lh, rfl, ⟨?_, fun j hj => ?_, fun x hx _ => ?_⟩, fun j hj => ?_, fun j hj hj0 => ?_⟩
  · rw [ht.disk, update_self, getHeader_putHeader]
  · rw [ht.disk, update_of_ne (by omega)]
    exact (hs.copy j hj hj).1
  · rw [ht.disk, update_of_ne (by rintro rfl; exact hx T.inLog_start)]
    exact hs.rest x hx
  · rw [ht.view, update_of_ne (by omega)]
    exact (hs.copy j hj hj).2
  · exact absurd hj0 (Nat.not_lt_zero j)

theorem spec_finish : Spec power (T.Installing 0 T.lh.block)
    (do installTrans g; setLh .empty; writeHead g) (fun _ s => Clean g T.new s.disk)
    (fun s => T.Committed s.disk) :=
  T.spec_installTrans.bind fun _ => T.spec_erase

/-! ## Recovery -/

/-- **Recovery of a committed transaction** installs it; interrupted, it is still committed. -/
theorem spec_recover : Spec power (fun s => T.Committed s.disk ∧ s.view = s.disk)
    (recoverFromLog g) (fun _ s => Clean g T.new s.disk) (fun s => T.Committed s.disk) := by
  refine .each fun s hs => ?_
  refine .bind (Q := fun _ => T.Installing 0 T.lh.block) ?_ fun _ => T.spec_finish
  refine .bind_eq ((spec_bread (d := s.disk) (v := s.disk) (l := s.lh) _).mono
    (fun t ht => ⟨by rw [ht], by rw [ht]; exact hs.2, by rw [ht]⟩) (fun _ _ h => h) fun _ h => h)
    (.bind_eq (spec_data _) ?_)
  rw [hs.1.head]
  refine .bind (spec_setLh T.lh) fun _ => (spec_brelse _).mono (fun _ h => h) (fun _ t ht => ?_)
    fun _ h => h
  refine ⟨ht.lh, rfl, ht.disk ▸ hs.1, fun j hj => ?_, fun j hj hj0 => ?_⟩
  · rw [ht.view]
    exact hs.1.copy j hj
  · exact absurd hj0 (Nat.not_lt_zero j)

end Txn

theorem spec_recover_clean {g : Geometry} (hg : 0 < g.size) (d₀ : Disk) :
    Spec power (fun s => Clean g d₀ s.disk ∧ s.view = s.disk) (recoverFromLog g)
      (fun _ s => Clean g d₀ s.disk) (fun s => Clean g d₀ s.disk) := by
  refine .each fun s hs => ?_
  have hempty : getHeader (s.disk g.start) = some .empty := getHeader_of_zero hs.1.1
  refine .bind (Q := fun _ => At s.disk s.disk .empty) ?_ fun _ =>
    .bind (Q := fun _ => At s.disk s.disk .empty) ?_ fun _ => .bind (spec_setLh .empty) fun _ =>
      (spec_writeHead g).mono (fun _ h => h) (fun _ t ht => ?_) fun t ht => ht ▸ hs.1
  · refine .bind_eq ((spec_bread (d := s.disk) (v := s.disk) (l := s.lh) _).mono
      (fun t ht => ⟨by rw [ht], by rw [ht]; exact hs.2, by rw [ht]⟩) (fun _ _ h => h) fun _ h => h)
      (.bind_eq (spec_data _) ?_)
    rw [hempty]
    exact .bind (spec_setLh .empty) fun _ => spec_brelse _
  · exact .bind_eq (spec_getLh fun _ h => h.lh) (.ret fun _ h => h)
  · refine ⟨?_, fun b hb => ?_⟩
    · rw [ht.disk, update_self, headerN_putHeader]
      rfl
    · have hne : b ≠ g.start := by
        rintro rfl
        exact hb ⟨le_rfl, by omega⟩
      rw [ht.disk, update_of_ne hne]
      exact hs.1.2 b hb

theorem Recovers.clean {g : Geometry} (hg : 0 < g.size) {d₀ d d' : Disk} (h : Recovers g d d')
    (hd : Clean g d₀ d) : Clean g d₀ d' := by
  induction h with
  | @done d k s hrun =>
    exact (spec_recover_clean hg d₀).returns (s := .boot d k) ⟨hd, Mach.view_boot d k⟩ hrun
  | @cut d _ k s hrun _ ih =>
    exact ih ((spec_recover_clean hg d₀).stops (s := .boot d k) ⟨hd, Mach.view_boot d k⟩ hrun)

theorem Recovers.committed {g : Geometry} {T : Txn g} {d d' : Disk} (h : Recovers g d d')
    (hd : T.Committed d) : Clean g T.new d' := by
  induction h with
  | @done d k s hrun =>
    exact T.spec_recover.returns (s := .boot d k) ⟨hd, Mach.view_boot d k⟩ hrun
  | @cut d _ k s hrun _ ih =>
    exact ih (T.spec_recover.stops (s := .boot d k) ⟨hd, Mach.view_boot d k⟩ hrun)

theorem run_commit {g : Geometry} {s : Mach} (hn : 0 < s.lh.n) : run power (commit g) s =
    match run power (do writeLog g; writeHead g) s with
    | (s', some _) => run power (do installTrans g; setLh .empty; writeHead g) s'
    | (s', none) => (s', none) := by
  have h : run power (commit g) s = run power
      (do writeLog g; writeHead g; installTrans g; setLh .empty; writeHead g) s := by
    rw [commit, run_bind]
    change run power (if s.lh.n > 0 then _ else _) s = _
    rw [if_pos hn]
  rw [h, ← Prog.assoc, run_bind]
  rcases run power (do writeLog g; writeHead g) s with ⟨s', _ | _⟩ <;> rfl

/-- **Crash atomicity of the redo log.** The header on disk is empty, the header in memory lists
home blocks that fit in the log, and `cache` holds contents for them. `commit` is cut off after
`k` block writes (or completes), and recovery runs until one completes. Then either no home block
has changed, or exactly every listed block holds its cached contents; the second whenever
`write_log` and the first `write_head` of `commit` were over. The header on disk is empty again. -/
theorem crash_atomicity (g : Geometry) (d : Disk) (lh : LogHeader) (cache : ℕ → Option Block)
    (cached : ℕ → Block) (hd : headerN (d g.start) = 0) (hn : 1 ≤ lh.n) (hsize : lh.n ≤ g.size - 1)
    (hhome : ∀ b ∈ lh.block, ¬ g.InLog b) (hcache : ∀ b ∈ lh.block, cache b = some (cached b))
    (k : ℕ) (d' : Disk)
    (hrec : Recovers g (run power (commit g) ⟨d, cache, lh, k⟩).1.disk d') :
    ((∀ b, ¬ g.InLog b → d' b = d b) ∨
      ∀ b, ¬ g.InLog b → d' b = if b ∈ lh.block then cached b else d b) ∧
    ((run power (do writeLog g; writeHead g) ⟨d, cache, lh, k⟩).2 = some () →
      ∀ b, ¬ g.InLog b → d' b = if b ∈ lh.block then cached b else d b) ∧
    headerN (d' g.start) = 0 := by
  let T : Txn g := ⟨d, lh, cached, by omega, hhome⟩
  have hlog : T.Logging 0 T.lh.block ⟨d, cache, lh, k⟩ :=
    ⟨rfl, rfl, hd, fun _ _ => rfl, fun b hb => by simp [Mach.view, hcache b hb, T], nofun⟩
  have hpre := (T.spec_writeLog.bind fun _ => T.spec_commitHead) _ hlog
  rw [run_commit (s := ⟨d, cache, lh, k⟩) hn] at hrec
  generalize run power (do writeLog g; writeHead g) ⟨d, cache, lh, k⟩ = o at hpre hrec ⊢
  obtain ⟨s, _ | _⟩ := o
  · -- the power went before the first `write_head`
    have hclean := hrec.clean (by omega) hpre
    exact ⟨.inl hclean.2, nofun, hclean.1⟩
  · have hfin := T.spec_finish s hpre
    change Recovers g (run power (do installTrans g; setLh .empty; writeHead g) s).1.disk d' at hrec
    have hclean : Clean g T.new d' := by
      generalize run power (do installTrans g; setLh .empty; writeHead g) s = o at hfin hrec
      obtain ⟨t, _ | _⟩ := o
      · exact hrec.committed hfin
      · exact hrec.clean (by omega) hfin
    exact ⟨.inr hclean.2, fun _ => hclean.2, hclean.1⟩

/-- Blocks `50` and `51` are logged and the power goes after the third block write, the first
`write_head`; one recovery is cut short after its first write and the next one completes. -/
theorem crash_atomicity_replayed :
    let lh : LogHeader := ⟨[50, 51], by decide, by decide⟩
    let s : Mach := ⟨fun _ _ => 0, fun b => some fun _ => .ofNat b, lh, 3⟩
    ∃ d', Recovers mkfsGeometry (run power (commit mkfsGeometry) s).1.disk d' ∧
      (∀ b, ¬ mkfsGeometry.InLog b → d' b = if b ∈ lh.block then (fun _ => .ofNat b) else fun _ => 0) ∧
      headerN (d' mkfsGeometry.start) = 0 := by
  intro lh s
  have hdone := Recovers.of_run (g := mkfsGeometry) (k := 3)
    (d := (run power (recoverFromLog mkfsGeometry)
      (.boot (run power (commit mkfsGeometry) s).1.disk 1)).1.disk) (by decide +kernel)
  have hrec := hdone.of_cut (by decide +kernel)
  have h := crash_atomicity mkfsGeometry (fun _ _ => 0) lh (fun b => some fun _ => .ofNat b)
    (fun b _ => .ofNat b) (by decide +kernel) (by decide) (by decide) (by decide) (fun _ _ => rfl) 3 _ hrec
  exact ⟨_, hrec, h.2.1 (by decide +kernel), h.2.2⟩

end Xv6.Log

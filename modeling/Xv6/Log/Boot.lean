import Xv6.Bio.Cache
import Xv6.Lib.Runs

/-!
# Recovery on the buffer cache

`initlog` at boot, run by one process alone on the buffer cache `binit` leaves. `install_trans` is
shared with `commit`, where `log_write` has pinned the blocks; at recovery nobody has, and its
`bunpin` takes away a reference that was never made.

* `solo`: the machine: the cache, the sleep locks, the disk and `log[dev].lh`.
* `Calm`: each held buffer has one reference and the others none; kept by everything but `bunpin`.
* `Held`: the held buffers and the sum of the reference counts; `spec_installTrans`: installing `n`
  blocks lowers the sum by `n`.
* **`recovery_balanced_iff`**: recovery returns with a balanced cache exactly when the header on disk
  is empty.
* **`recovery_unbalanced`**: with one block to install its buffer ends with `2 ^ 32 - 1` references.
-/

namespace Xv6.Boot

open Function Prog Bio Runs Log

structure Solo where
  cache : Bcache
  locked : BufId → Bool
  disk : ℕ × ℕ → Block
  lh : LogHeader

namespace Solo

def boot (disk : ℕ × ℕ → Block) : Solo := ⟨.binit, fun _ => false, disk, .empty⟩

/-- The end of `bread`: read the block unless the buffer has it. -/
def fill (disk : ℕ × ℕ → Block) (c : Bcache) (x : BufId) : Bcache :=
  if (c.buf x).valid then c
  else c.set x { c.buf x with data := disk (c.buf x).key, valid := true }

/-- `bread`. A process that already holds the buffer would sleep for ever. -/
def bread (dev b : ℕ) (s : Solo) : Option (Solo × BufId) :=
  match s.cache.bget dev b with
  | none => none
  | some (c, x) =>
    if s.locked x then none
    else
      some ({ s with cache := fill s.disk c x, locked := update s.locked x true }, x)

def bwrite (x : BufId) (s : Solo) : Option Solo :=
  if s.locked x then
    some { s with disk := update s.disk (s.cache.buf x).key (s.cache.buf x).data }
  else none

def brelse (x : BufId) (s : Solo) : Option Solo :=
  if s.locked x then
    some { s with cache := s.cache.brelse x, locked := update s.locked x false }
  else none

end Solo

def solo (dev : ℕ) : (c : BufCmd BufId) → Solo → Option (Solo × c.Ans)
  | .bread b, s => s.bread dev b
  | .data x, s => some (s, (s.cache.buf x).data)
  | .setData x d, s => some ({ s with cache := s.cache.set x { s.cache.buf x with data := d } }, ())
  | .bwrite x, s => (s.bwrite x).map fun s => (s, ())
  | .brelse x, s => (s.brelse x).map fun s => (s, ())
  | .bunpin x, s => some ({ s with cache := s.cache.bunpin x }, ())
  | .getLh, s => some (s, s.lh)
  | .setLh lh, s => some ({ s with lh := lh }, ())
  | .fault, _ => none

/-- Every reference count is zero and every buffer is unlocked. -/
def Balanced (s : Solo) : Prop := ∀ b, (s.cache.buf b).refcnt = 0 ∧ s.locked b = false

/-! ## What is counted -/

namespace Solo

def refcnt (s : Solo) (b : BufId) : UInt32 := (s.cache.buf b).refcnt

def total (s : Solo) : UInt32 := ∑ b, s.refcnt b

/-- A step that touches neither the reference counts nor the locks nor the list. -/
structure Same (s s' : Solo) : Prop where
  refcnt : s'.refcnt = s.refcnt
  locked : s'.locked = s.locked
  links : s'.cache.links = s.cache.links

end Solo

variable {s s' : Solo} {dev : ℕ} {x : BufId} {hs : Finset BufId} {t : UInt32}

theorem refcnt_set {v : Buf} {c : Bcache} (h : v.refcnt = (c.buf x).refcnt) (b : BufId) :
    ((c.set x v).buf b).refcnt = (c.buf b).refcnt := by
  by_cases hb : b = x
  · subst hb
    simpa using h
  · simp [hb]

theorem refcnt_fill (disk : ℕ × ℕ → Block) (c : Bcache) (x b : BufId) :
    ((Solo.fill disk c x).buf b).refcnt = (c.buf b).refcnt := by
  unfold Solo.fill
  split_ifs
  · rfl
  · exact refcnt_set (by rfl) b

theorem bread_eq {b : ℕ} (h : s.bread dev b = some (s', x)) :
    s.locked x = false ∧ s'.locked = update s.locked x true ∧
      s'.refcnt = update s.refcnt x (s.refcnt x + 1) ∧ s'.cache.links = s.cache.links := by
  unfold Solo.bread at h
  split at h
  · cases h
  · next c y hget =>
    split_ifs at h with hy
    cases h
    obtain ⟨v, rfl, hr, -⟩ := Bcache.bget_eq hget
    refine ⟨by simpa using hy, rfl, ?_, ?_⟩
    · funext b
      change ((Solo.fill s.disk _ x).buf b).refcnt = _
      rw [refcnt_fill]
      by_cases hb : b = x
      · subst hb
        simpa [Solo.refcnt] using hr
      · simp [hb, Solo.refcnt]
    · change (Solo.fill s.disk _ x).links = _
      unfold Solo.fill
      split_ifs <;> rfl

theorem brelse_eq (h : s.brelse x = some s') :
    s.locked x = true ∧ s'.locked = update s.locked x false ∧
      s'.refcnt = update s.refcnt x (s.refcnt x - 1) ∧ s'.cache = s.cache.brelse x ∧
      s'.lh = s.lh := by
  unfold Solo.brelse at h
  split_ifs at h with hx
  cases h
  refine ⟨hx, rfl, ?_, rfl, rfl⟩
  funext b
  change ((s.cache.brelse x).buf b).refcnt = _
  rw [Bcache.buf_brelse]
  by_cases hb : b = x
  · subst hb
    simp [Bcache.bunpin, Solo.refcnt]
  · simp [Bcache.bunpin, Solo.refcnt, hb]

theorem total_update {r : UInt32} (h : s'.refcnt = update s.refcnt x r) :
    s'.total = s.total + (r - s.refcnt x) := by
  have := sum_update id s.refcnt x r
  simp only [id] at this
  rw [← add_sub_assoc, eq_sub_iff_add_eq, Solo.total, h, this, Solo.total]

/-! ## The held buffers and the sum of the counts -/

/-- Exactly the buffers of `hs` are locked and the counts add up to `t`. -/
structure Held (hs : Finset BufId) (t : UInt32) (s : Solo) : Prop where
  locked : s.locked = fun b => decide (b ∈ hs)
  total : s.total = t

theorem Held.same (h : Held hs t s) (hsame : s.Same s') : Held hs t s' :=
  ⟨hsame.locked.trans h.locked, by rw [Solo.total, hsame.refcnt]; exact h.total⟩

theorem locked_insert : update (fun b => decide (b ∈ hs)) x true =
    fun b => decide (b ∈ insert x hs) := by
  funext b
  by_cases hb : b = x
  · subst hb
    simp
  · simp [hb]

theorem locked_erase : update (fun b => decide (b ∈ hs)) x false =
    fun b => decide (b ∈ hs.erase x) := by
  funext b
  by_cases hb : b = x
  · subst hb
    simp
  · simp [hb]

theorem Held.bread {b : ℕ} : Spec (solo dev) (Held hs t) (Log.bread b)
    (fun x s => x ∉ hs ∧ Held (insert x hs) (t + 1) s) fun _ => True := by
  refine .perform (fun _ _ _ => trivial) fun s s' x h hstep => ?_
  obtain ⟨hx, hl, hr, -⟩ := bread_eq hstep
  rw [h.locked] at hx hl
  refine ⟨by simpa using hx, hl.trans locked_insert, ?_⟩
  rw [total_update hr, h.total, add_sub_cancel_left]

theorem Held.brelse : Spec (solo dev) (Held hs t) (Log.brelse x)
    (fun _ => Held (hs.erase x) (t - 1)) fun _ => True := by
  refine .perform (fun _ _ _ => trivial) fun s s' _ h hstep => ?_
  obtain ⟨s', hs', he⟩ := Option.map_eq_some_iff.1 hstep
  cases he
  obtain ⟨-, hl, hr, -⟩ := brelse_eq hs'
  rw [h.locked] at hl
  refine ⟨hl.trans locked_erase, ?_⟩
  rw [total_update hr, h.total]
  abel

theorem Held.bunpin : Spec (solo dev) (Held hs t) (Log.bunpin x) (fun _ => Held hs (t - 1))
    fun _ => True := by
  refine .perform (fun _ _ _ => trivial) fun s s' _ h hstep => ?_
  cases hstep
  refine ⟨h.locked, ?_⟩
  rw [total_update (s := s) (x := x) (r := s.refcnt x - 1), h.total]
  · abel
  · funext b
    by_cases hb : b = x
    · subst hb
      simp [Bcache.bunpin, Solo.refcnt]
    · simp [Bcache.bunpin, Solo.refcnt, hb]

/-! ## Commands that count nothing -/

section Same

variable {P X : Solo → Prop} (hP : ∀ s s', P s → s.Same s' → P s')

theorem same_data : Spec (solo dev) P (Log.data x)
    (fun d s => d = (s.cache.buf x).data ∧ P s) X :=
  .perform (fun _ _ h => nomatch h) fun _ _ _ hs h => by
    cases h
    exact ⟨rfl, hs⟩

theorem same_getLh : Spec (solo dev) P Log.getLh (fun lh s => lh = s.lh ∧ P s) X :=
  .perform (fun _ _ h => nomatch h) fun _ _ _ hs h => by
    cases h
    exact ⟨rfl, hs⟩

include hP

theorem same_setData (d : Block) : Spec (solo dev) P (Log.setData x d) (fun _ => P) X :=
  .perform (fun _ _ h => nomatch h) fun s _ _ hs h => by
    cases h
    exact hP s _ hs ⟨funext (refcnt_set (by rfl)), rfl, rfl⟩

theorem same_bwrite (hX : ∀ s, P s → s.locked x = false → X s) :
    Spec (solo dev) P (Log.bwrite x) (fun _ => P) X := by
  refine .perform (fun s hs h => ?_) fun s _ _ hs h => ?_
  all_goals
    rw [solo, Solo.bwrite] at h
    split_ifs at h with hx
  · cases h
  · exact hX s hs (by simpa using hx)
  · cases h
    exact hP s _ hs ⟨rfl, rfl, rfl⟩
  · cases h

theorem same_setLh (lh : LogHeader) :
    Spec (solo dev) P (Log.setLh lh) (fun _ s => s.lh = lh ∧ P s) X :=
  .perform (fun _ _ h => nomatch h) fun s _ _ hs h => by
    cases h
    exact ⟨rfl, hP s _ hs ⟨rfl, rfl, rfl⟩⟩

theorem same_putHeader (hX : ∀ s, P s → s.locked x = false → X s) :
    Spec (solo dev) P (do
      let lh ← Log.getLh
      let d ← Log.data x
      Log.setData x (putHeader lh d)
      Log.bwrite x) (fun _ => P) X :=
  .bind same_getLh fun _ => .bind (same_data.mono (fun _ h => h.2) (fun _ _ h => h) fun _ h => h)
    fun _ => .bind ((same_setData hP _).mono (fun _ h => h.2) (fun _ _ h => h) fun _ h => h)
      fun _ => same_bwrite hP hX

end Same

theorem writeHead_eq (g : Geometry) : (writeHead g : BufProg BufId Unit) = (do
    let buf ← Log.bread g.start
    (do
      let lh ← Log.getLh
      let d ← Log.data buf
      Log.setData buf (putHeader lh d)
      Log.bwrite buf)
    Log.brelse buf) := rfl

/-! ## Installing -/

theorem Held.installBlock (g : Geometry) (i b : ℕ) : Spec (solo dev) (Held ∅ t) (installBlock g i b)
    (fun _ => Held ∅ (t - 1)) fun _ => True := by
  have hsame : ∀ hs t s s', Held hs t s → s.Same s' → Held hs t s' := fun _ _ _ _ h h' => h.same h'
  refine .bind Held.bread fun lbuf => ?_
  refine .bind (Held.bread.mono (fun _ h => h.2) (fun _ _ h => h) fun _ h => h) fun dbuf => ?_
  refine .each fun s ⟨hne, hs⟩ => ?_
  refine .bind (Q := fun _ => Held (insert dbuf (insert lbuf ∅)) (t + 1 + 1))
    (same_data.mono (fun _ h => h ▸ hs) (fun _ _ h => h.2) fun _ h => h) fun _ => ?_
  refine .bind (same_setData (hsame _ _) _) fun _ =>
    .bind (same_bwrite (hsame _ _) fun _ _ _ => trivial) fun _ => .bind Held.bunpin fun _ =>
      .bind Held.brelse fun _ => Held.brelse.mono (fun _ h => h) (fun _ s h => ?_) fun _ h => h
  have hempty : ((insert dbuf (insert lbuf ∅) : Finset BufId).erase lbuf).erase dbuf = ∅ := by
    ext a
    simp only [Finset.mem_erase, Finset.mem_insert, Finset.notMem_empty, or_false, iff_false]
    exact fun ⟨hd, hl, ha⟩ => ha.elim hd hl
  rw [hempty] at h
  exact ⟨h.locked, h.total.trans (by abel)⟩

/-- **Installing `n` blocks lowers the sum of the counts by `n`.** -/
theorem Held.installBlocks (g : Geometry) (i : ℕ) (l : List ℕ) :
    Spec (solo dev) (Held ∅ t) (.forEnum (Log.installBlock g) i l)
      (fun _ => Held ∅ (t - UInt32.ofNat l.length)) fun _ => True := by
  induction l generalizing i t with
  | nil => exact Spec.ret fun s h => by simpa using h
  | cons b l ih =>
    refine .bind (Held.installBlock g i b) fun _ => (ih (i + 1)).mono (fun _ h => h) (fun _ s h => ?_)
      fun _ h => h
    rw [List.length_cons, UInt32.ofNat_add, add_comm, ← sub_sub]
    exact h

/-! ## A calm cache -/

/-- Exactly the buffers of `hs` are locked, each with one reference; the others have none. -/
structure Calm (hs : Finset BufId) (s : Solo) : Prop where
  ring : ∃ l, Ring.Lists s.cache.links l ∧ ∀ b, b ∈ l
  locked : s.locked = fun b => decide (b ∈ hs)
  refcnt : s.refcnt = fun b => if b ∈ hs then 1 else 0

theorem Calm.same (h : Calm hs s) (hsame : s.Same s') : Calm hs s' :=
  ⟨hsame.links ▸ h.ring, hsame.locked.trans h.locked, hsame.refcnt.trans h.refcnt⟩

theorem Calm.held (h : Calm ∅ s) : Held ∅ 0 s :=
  ⟨h.locked, by simp [Solo.total, h.refcnt]⟩

theorem Calm.refcnt_eq_zero (h : Calm ∅ s) (b : BufId) : (s.cache.buf b).refcnt = 0 := by
  have hb : s.refcnt b = 0 := by simp [h.refcnt]
  exact hb

theorem Calm.balanced (h : Calm ∅ s) : Balanced s := fun b =>
  ⟨h.refcnt_eq_zero b, by simp [h.locked]⟩

theorem Calm.boot (disk : ℕ × ℕ → Block) : Calm ∅ (.boot disk) :=
  ⟨⟨_, Bcache.Ok.binit.lists, Bcache.Ok.binit.all⟩, by simp [Solo.boot],
    funext fun b => by simp; rfl⟩

theorem Calm.bread_isSome (h : Calm ∅ s) (dev b : ℕ) : ∃ s' x, s.bread dev b = some (s', x) := by
  obtain ⟨l, hl, hall⟩ := h.ring
  have hget : ∃ c x, s.cache.bget dev b = some (c, x) := by
    unfold Bcache.bget
    cases s.cache.lookup dev b with
    | some x => exact ⟨_, _, rfl⟩
    | none =>
      have hv : s.cache.victim.isSome := by
        rw [Bcache.victim, hl.scanPrev_eq _ (Bcache.length_of_lists hl hall).le, List.find?_isSome]
        exact ⟨0, List.mem_reverse.2 (hall 0), by simpa using h.refcnt_eq_zero 0⟩
      obtain ⟨x, hx⟩ := Option.isSome_iff_exists.1 hv
      rw [hx]
      exact ⟨_, _, rfl⟩
  obtain ⟨c, x, hget⟩ := hget
  have hx : s.locked x = false := by simpa using congrFun h.locked x
  rw [Solo.bread, hget]
  simp [hx]

theorem Calm.of_bread {b : ℕ} (h : Calm ∅ s) (hstep : s.bread dev b = some (s', x)) :
    Calm {x} s' := by
  obtain ⟨-, hl, hr, hlinks⟩ := bread_eq hstep
  refine ⟨hlinks ▸ h.ring, ?_, ?_⟩
  · rw [hl, h.locked, locked_insert]
    rfl
  · rw [hr, h.refcnt]
    funext a
    by_cases ha : a = x
    · subst ha
      simp
    · simp [ha]

theorem Calm.bread (b : ℕ) : Spec (solo dev) (Calm ∅) (Log.bread b) (fun x => Calm {x})
    fun _ => False := by
  refine .perform (fun s hs h => ?_) fun s s' x hs h => hs.of_bread h
  obtain ⟨s', x, hsome⟩ := hs.bread_isSome dev b
  change s.bread dev b = none at h
  rw [hsome] at h
  cases h

theorem Calm.brelse (lh : LogHeader) : Spec (solo dev) (fun s => s.lh = lh ∧ Calm {x} s)
    (Log.brelse x) (fun _ s => s.lh = lh ∧ Calm ∅ s) fun _ => False := by
  refine .perform (fun s ⟨_, hs⟩ h => ?_) fun s s' _ ⟨hlh, hs⟩ h => ?_
  · have hx : s.locked x = true := by simpa using congrFun hs.locked x
    rw [solo, Solo.brelse, if_pos hx] at h
    cases h
  · obtain ⟨s', hs', he⟩ := Option.map_eq_some_iff.1 h
    cases he
    obtain ⟨-, hl, hr, hc, hlh'⟩ := brelse_eq hs'
    refine ⟨hlh'.trans hlh, ?_, ?_, ?_⟩
    · obtain ⟨l, hlists, hall⟩ := hs.ring
      rw [hc]
      simp only [Bcache.brelse]
      split_ifs
      · exact ⟨_, Bcache.lists_move hlists hall x⟩
      · exact ⟨l, hlists, hall⟩
    · rw [hl, hs.locked, locked_erase]
      simp
    · rw [hr, hs.refcnt]
      funext a
      by_cases ha : a = x
      · subst ha
        simp
      · simp [ha]

theorem data_of_bread_boot {disk : ℕ × ℕ → Block} {b : ℕ}
    (h : (Solo.boot disk).bread dev b = some (s', x)) : (s'.cache.buf x).data = disk (dev, b) := by
  unfold Solo.bread at h
  split at h
  · cases h
  · next c y hget =>
    split_ifs at h with hy
    cases h
    obtain ⟨v, rfl, -, hk, hv, -⟩ := Bcache.bget_eq hget
    have hvalid : v.valid ≠ true := fun hvt => by cases hv hvt
    change ((Solo.fill disk _ x).buf x).data = _
    unfold Solo.fill
    rw [if_neg (by simpa using hvalid)]
    simp [hk]

theorem Calm.bread_boot (disk : ℕ × ℕ → Block) (b : ℕ) :
    Spec (solo dev) (fun s => s = .boot disk) (Log.bread b)
      (fun x s => (s.cache.buf x).data = disk (dev, b) ∧ Calm {x} s) fun _ => False := by
  refine .perform (fun s hs h => ?_) fun s s' x hs h => ?_
  · subst hs
    exact (Calm.bread b).stops (Calm.boot disk) (by rw [Log.bread, Prog.perform, run, h])
  · subst hs
    exact ⟨data_of_bread_boot h, (Calm.boot disk).of_bread h⟩

/-! ## Recovery -/

theorem Calm.readHead (g : Geometry) (disk : ℕ × ℕ → Block) :
    Spec (solo dev) (fun s => s = .boot disk) (readHead g)
      (fun _ s => getHeader (disk (dev, g.start)) = some s.lh ∧ Calm ∅ s)
      fun _ => getHeader (disk (dev, g.start)) = none := by
  refine .bind ((Calm.bread_boot disk g.start).mono (fun _ h => h) (fun _ _ h => h) nofun)
    fun buf => ?_
  refine .bind (Q := fun d s => d = disk (dev, g.start) ∧ Calm {buf} s)
    (same_data.mono (fun _ h => h) (fun _ s h => ⟨h.1.trans h.2.1, h.2.2⟩) fun _ h => h) fun d => ?_
  refine .each fun s ⟨hd, hs⟩ => ?_
  subst hd
  cases hh : getHeader (disk (dev, g.start)) with
  | none => exact fun s _ => rfl
  | some lh =>
    refine .bind ((same_setLh (fun _ _ h h' => Calm.same h h') lh).mono (fun _ h => h ▸ hs)
      (fun _ _ h => h) fun _ h => h) fun _ => (Calm.brelse lh).mono (fun _ h => h)
        (fun _ s h => ⟨by rw [h.1], h.2⟩) nofun

theorem Calm.writeHead (g : Geometry) : Spec (solo dev) (Calm ∅) (writeHead g) (fun _ => Calm ∅)
    fun _ => False := by
  rw [writeHead_eq]
  refine .bind (Calm.bread _) fun buf => .bind
    (same_putHeader (fun _ _ h h' => h.same h') fun s hs hl => ?_) fun _ => .each fun s hs => ?_
  · simp [hs.locked] at hl
  · exact (Calm.brelse s.lh).mono (by rintro _ rfl; exact ⟨rfl, hs⟩) (fun _ _ h => h.2)
      fun _ h => h

theorem Held.writeHead (g : Geometry) : Spec (solo dev) (Held ∅ t) (writeHead g)
    (fun _ => Held ∅ t) fun _ => True := by
  rw [writeHead_eq]
  refine .bind (Held.bread.mono (fun _ h => h) (fun _ _ h => h.2) fun _ h => h) fun buf => .bind
    (same_putHeader (fun _ _ h h' => h.same h') fun _ _ _ => trivial) fun _ =>
      Held.brelse.mono (fun _ h => h) (fun _ s h => ?_) fun _ h => h
  simpa using h

theorem Calm.recoverFromLog {g : Geometry} {disk : ℕ × ℕ → Block}
    (hn : headerN (disk (dev, g.start)) = 0) : Spec (solo dev) (fun s => s = .boot disk)
      (recoverFromLog g) (fun _ => Calm ∅) fun _ => False := by
  have hempty := getHeader_of_zero hn
  refine .bind (Q := fun _ s => s.lh = .empty ∧ Calm ∅ s) ((Calm.readHead g disk).mono
    (fun _ h => h) (fun _ s h => ?_) fun _ h => ?_) fun _ => ?_
  · rw [hempty, Option.some_inj] at h
    exact ⟨h.1.symm, h.2⟩
  · rw [hempty] at h
    cases h
  · have hget : Spec (solo dev) (fun s => s.lh = .empty ∧ Calm ∅ s) Log.getLh
        (fun lh s => lh = .empty ∧ Calm ∅ s) fun _ => False :=
      same_getLh.mono (fun _ h => h) (fun _ s h => ⟨h.1.trans h.2.1, h.2.2⟩) fun _ h => h
    refine .bind (Q := fun _ => Calm ∅) (.bind_eq hget (Spec.ret fun _ h => h)) fun _ => ?_
    exact .bind ((same_setLh (fun _ _ h h' => Calm.same h h') .empty).mono (fun _ h => h)
      (fun _ _ h => h.2) fun _ h => h) fun _ => Calm.writeHead g

/-- **Recovery that returns** leaves no buffer locked and lowers the sum of the reference counts by
the number of blocks it installed. -/
theorem Held.recoverFromLog (g : Geometry) (disk : ℕ × ℕ → Block) :
    Spec (solo dev) (fun s => s = .boot disk) (recoverFromLog g)
      (fun _ => Held ∅ (0 - UInt32.ofNat (headerN (disk (dev, g.start))).toNat))
      fun _ => True := by
  refine .bind ((Calm.readHead g disk).mono (fun _ h => h) (fun _ _ h => h) fun _ _ => trivial)
    fun _ => ?_
  refine .each fun s ⟨hh, hs⟩ => ?_
  have hget : Spec (solo dev) (fun t => t = s) Log.getLh (fun lh t => lh = s.lh ∧ Held ∅ 0 t)
      fun _ => True :=
    same_getLh.mono (fun _ h => h) (by rintro _ t ⟨h, rfl⟩; exact ⟨h, hs.held⟩) fun _ h => h
  rw [← n_of_getHeader hh]
  refine .bind (.bind_eq hget (Held.installBlocks g 0 s.lh.block)) fun _ => ?_
  exact .bind ((same_setLh (fun _ _ h h' => Held.same h h') .empty).mono (fun _ h => h)
    (fun _ _ h => h.2) fun _ h => h) fun _ => Held.writeHead g

theorem headerN_le_of_returns {g : Geometry} {disk : ℕ × ℕ → Block}
    (h : run (solo dev) (Log.recoverFromLog g) (.boot disk) = (s, some ())) :
    headerN (disk (dev, g.start)) ≤ 30 := by
  have hread := (Calm.readHead g disk : Spec (solo dev) _ _ _ _) (.boot disk) rfl
  rw [Log.recoverFromLog, run_bind] at h
  rcases hr : run (solo dev) (Log.readHead g) (.boot disk) with ⟨t, _ | _⟩
  · rw [hr] at h
    cases h
  · rw [hr] at hread
    have hlh := hread.1
    unfold getHeader at hlh
    split_ifs at hlh with hle
    exact hle

/-- **Recovery leaves the cache balanced exactly when there is nothing to recover.** With an empty
header `initlog` returns; and whenever it returns, every reference count is zero and every buffer
unlocked if and only if the header was empty. -/
theorem recovery_balanced_iff (g : Geometry) (dev : ℕ) (disk : ℕ × ℕ → Block)
    (hn : 0 ≤ headerN (disk (dev, g.start))) :
    (headerN (disk (dev, g.start)) = 0 →
      ∃ s, run (solo dev) (initlog g) (.boot disk) = (s, some ())) ∧
    ∀ s, run (solo dev) (initlog g) (.boot disk) = (s, some ()) →
      (Balanced s ↔ headerN (disk (dev, g.start)) = 0) := by
  have hinit : (initlog g : BufProg BufId Unit) = Log.recoverFromLog g := if_neg (by decide)
  rw [hinit]
  refine ⟨fun h0 => ?_, fun s hs => ⟨fun hb => ?_, fun h0 => ?_⟩⟩
  · have := Calm.recoverFromLog h0 (.boot disk) rfl
    cases hr : run (solo dev) (Log.recoverFromLog g) (.boot disk) with
    | mk s o =>
      rw [hr] at this
      cases o with
      | none => exact this.elim
      | some _ => exact ⟨s, rfl⟩
  · have htotal := ((Held.recoverFromLog g disk).returns rfl hs).total
    have hzero : s.total = 0 := Finset.sum_eq_zero fun b _ => (hb b).1
    rw [hzero, eq_comm, zero_sub, neg_eq_zero, UInt32.ofNat_eq_iff_mod_eq_toNat] at htotal
    have hfits := headerN_le_of_returns hs
    change _ % 2 ^ 32 = 0 at htotal
    omega
  · exact ((Calm.recoverFromLog h0).returns rfl hs).balanced

/-- A disk without a committed transaction. -/
theorem recovery_balanced_empty :
    (∃ s, run (solo rootDev) (initlog mkfsGeometry) (.boot fun _ _ => 0) = (s, some ())) ∧
      ∀ s, run (solo rootDev) (initlog mkfsGeometry) (.boot fun _ _ => 0) = (s, some ()) →
        Balanced s := by
  have h := recovery_balanced_iff mkfsGeometry rootDev (fun _ _ => 0) (by decide)
  exact ⟨h.1 (by decide), fun s hs => (h.2 s hs).2 (by decide)⟩

def oneBlock (k : ℕ × ℕ) : Block :=
  if k = (rootDev, mkfsGeometry.start) then putHeader ⟨[50], by decide, by decide⟩ fun _ => 0
  else fun _ => 0

/-- **Recovery is not balanced**: after the installation of one block its buffer has `2 ^ 32 - 1`
references. -/
theorem recovery_unbalanced : headerN (oneBlock (rootDev, mkfsGeometry.start)) = 1 ∧
    ∃ s, run (solo rootDev) (initlog mkfsGeometry) (.boot oneBlock) = (s, some ()) ∧
      (s.cache.buf 2).key = (rootDev, 50) ∧ (s.cache.buf 2).refcnt = 4294967295 ∧ ¬ Balanced s := by
  have h : ((run (solo rootDev) (initlog mkfsGeometry) (.boot oneBlock)).2,
      ((run (solo rootDev) (initlog mkfsGeometry) (.boot oneBlock)).1.cache.buf 2).key,
      ((run (solo rootDev) (initlog mkfsGeometry) (.boot oneBlock)).1.cache.buf 2).refcnt) =
        (some (), (rootDev, 50), 4294967295) := by decide +kernel
  generalize run (solo rootDev) (initlog mkfsGeometry) (.boot oneBlock) = r at h ⊢
  simp only [Prod.mk.injEq] at h
  obtain ⟨hret, hkey, hcnt⟩ := h
  refine ⟨by decide +kernel, r.1, Prod.ext rfl hret, hkey, hcnt, fun hb => ?_⟩
  rw [(hb 2).1] at hcnt
  cases hcnt

end Xv6.Boot

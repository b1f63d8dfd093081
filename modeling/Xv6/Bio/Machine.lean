import Xv6.Bio.Cache
import Xv6.Lib.Runs

/-!
# Processes on the buffer cache

Any number of processes call `bread`, `bwrite`, `brelse`, `bpin` and `bunpin` of `kernel/bio.c`. A
critical section of `bcache.lock` is one step; waiting for a sleep lock, the disk read of `bread`
and the release of the sleep lock in `brelse` are separate steps, so that other processes run in
between.

* `State`, `step`: the system. `pins` and `given` are a history that no transition reads except to
  say which calls a well-behaved client may make.
* `Inv`, `Inv.step`: what every step keeps while no reference count wraps.
* **`identity_and_pinning`**: used buffers cache different blocks, a buffer keeps its block while it
  is held or pinned, `refcnt` counts the references, and the list is a ring of all buffers.
* **`refcnt_wraps`**: `2 ^ 32` references are counted as none.
-/

namespace Xv6.Bio

open Function Runs Ring

/-- Where a process stands in `bio.c`. A process may hold any number of buffers. -/
inductive Pc
  | idle
  | acquiring (b : BufId)
  | reading (b : BufId)
  | filled (b : BufId)
  | releasing (b : BufId)
  deriving DecidableEq

inductive Halt
  | noBuffers
  | bwrite
  | brelse
  deriving DecidableEq

/-- The cache, the sleep locks with their holders, the disk, the processes, and a history: the
outstanding pins, and the buffers `bread` has given out. -/
structure State (P : Type) where
  cache : Bcache
  lock : BufId → Option P
  disk : ℕ × ℕ → Block
  pc : P → Pc
  halt : Option Halt
  pins : BufId → ℕ
  given : BufId → Bool

/-- The calls, a store to `b->data`, and the next step of a process inside a call. -/
inductive Act (P : Type)
  | bread (p : P) (dev blockno : ℕ)
  | run (p : P)
  | modify (p : P) (b : BufId) (d : Block)
  | bwrite (p : P) (b : BufId)
  | brelse (p : P) (b : BufId)
  | bpin (p : P) (b : BufId)
  | bunpin (p : P) (b : BufId)

variable {P : Type} [DecidableEq P]

namespace State

variable (P) in
def init (disk : ℕ × ℕ → Block) : State P :=
  ⟨.binit, fun _ => none, disk, fun _ => .idle, none, fun _ => 0, fun _ => false⟩

def goto (s : State P) (p : P) (c : Pc) : State P := { s with pc := update s.pc p c }

/-- `bget` up to the release of `bcache.lock`. -/
def bget (s : State P) (p : P) (dev blockno : ℕ) : State P :=
  match s.cache.bget dev blockno with
  | some (c, b) => { s.goto p (.acquiring b) with cache := c }
  | none => { s with halt := some .noBuffers }

def acquire (s : State P) (p : P) (b : BufId) : State P :=
  { s.goto p (.reading b) with
    lock := update s.lock b (some p)
    given := update s.given b true }

/-- `bread` after `bget`, up to the end of the disk read. -/
def read (s : State P) (p : P) (b : BufId) : State P :=
  if (s.cache.buf b).valid then s.goto p .idle
  else
    { s.goto p (.filled b) with
      cache := s.cache.set b { s.cache.buf b with data := s.disk (s.cache.buf b).key } }

/-- The end of `bread`. -/
def validate (s : State P) (p : P) (b : BufId) : State P :=
  { s.goto p .idle with cache := s.cache.set b { s.cache.buf b with valid := true } }

def modify (s : State P) (b : BufId) (d : Block) : State P :=
  { s with cache := s.cache.set b { s.cache.buf b with data := d } }

def bwrite (s : State P) (p : P) (b : BufId) : State P :=
  if s.lock b = some p then
    { s with disk := update s.disk (s.cache.buf b).key (s.cache.buf b).data }
  else { s with halt := some .bwrite }

/-- `brelse` up to `releasesleep`. -/
def unlock (s : State P) (p : P) (b : BufId) : State P :=
  if s.lock b = some p then
    { s.goto p (.releasing b) with lock := update s.lock b none }
  else { s with halt := some .brelse }

/-- The locked part of `brelse`. -/
def release (s : State P) (p : P) (b : BufId) : State P :=
  { s.goto p .idle with cache := s.cache.brelse b }

def bpin (s : State P) (b : BufId) : State P :=
  { s with cache := s.cache.bpin b, pins := update s.pins b (s.pins b + 1) }

def bunpin (s : State P) (b : BufId) : State P :=
  { s with cache := s.cache.bunpin b, pins := update s.pins b (s.pins b - 1) }

end State

/-- **One step.** Only the holder stores to `b->data`; a pointer given to `bpin` comes from `bread`;
`bunpin` needs an outstanding pin. -/
def step (s : State P) : Act P → Option (State P)
  | .bread p dev blockno =>
    if s.halt = none ∧ s.pc p = .idle then some (s.bget p dev blockno) else none
  | .modify p b d =>
    if s.halt = none ∧ s.pc p = .idle ∧ s.lock b = some p then some (s.modify b d) else none
  | .bwrite p b => if s.halt = none ∧ s.pc p = .idle then some (s.bwrite p b) else none
  | .brelse p b => if s.halt = none ∧ s.pc p = .idle then some (s.unlock p b) else none
  | .bpin p b =>
    if s.halt = none ∧ s.pc p = .idle ∧ s.given b = true then some (s.bpin b) else none
  | .bunpin p b =>
    if s.halt = none ∧ s.pc p = .idle ∧ 0 < s.pins b then some (s.bunpin b) else none
  | .run p =>
    if s.halt = none then
      match s.pc p with
      | .idle => none
      | .acquiring b => if s.lock b = none then some (s.acquire p b) else none
      | .reading b => some (s.read p b)
      | .filled b => some (s.validate p b)
      | .releasing b => some (s.release p b)
    else none

/-! ## References -/

/-- The references a process between two steps of a call stands for, its sleep lock apart. -/
def Pc.weight (b : BufId) : Pc → ℕ
  | .acquiring a | .releasing a => if a = b then 1 else 0
  | _ => 0

/-- The process has not made sure yet that the buffer has contents. -/
def Pc.Fetches (b : BufId) (c : Pc) : Prop := c = .acquiring b ∨ c = .reading b ∨ c = .filled b

variable [Fintype P]

namespace State

/-- **The references to a buffer**: the calls of `bread` waiting for its lock, its holder, the calls
of `brelse` that have released the lock, and the pins. -/
def refs (s : State P) (b : BufId) : ℕ :=
  ∑ p, (s.pc p).weight b + (s.lock b).isSome.toNat + s.pins b

def Small (s : State P) : Prop := ∀ b, s.refs b < 2 ^ 32

theorem refs_goto (s : State P) (p : P) (c : Pc) (b : BufId) :
    (s.goto p c).refs b + (s.pc p).weight b = s.refs b + c.weight b := by
  have := sum_update (Pc.weight b) s.pc p c
  simp only [refs, goto]
  omega

section

omit [DecidableEq P]

theorem refs_of_weight {s : State P} {p : P} {b : BufId} (h : 0 < (s.pc p).weight b) :
    0 < s.refs b := by
  have : (s.pc p).weight b ≤ ∑ q, (s.pc q).weight b :=
    Finset.single_le_sum (f := fun q => (s.pc q).weight b) (fun _ _ => Nat.zero_le _)
      (Finset.mem_univ p)
  rw [refs]
  omega

theorem refs_of_lock {s : State P} {p : P} {b : BufId} (h : s.lock b = some p) : 0 < s.refs b := by
  simp [refs, h]

theorem refs_of_pins {s : State P} {b : BufId} (h : 0 < s.pins b) : 0 < s.refs b := by
  rw [refs]
  omega

end

end State

/-! ## The invariant -/

structure Inv (s : State P) : Prop where
  ok : ∃ l, s.cache.Ok l
  count : ∀ b, (s.cache.buf b).refcnt = UInt32.ofNat (s.refs b)
  fetch : ∀ b, (s.cache.buf b).Used →
    (s.cache.buf b).valid = true ∨ ∃ p, (s.pc p).Fetches b
  hold : ∀ p b, s.pc p = .reading b ∨ s.pc p = .filled b → s.lock b = some p
  given : ∀ b, s.given b = true → (s.cache.buf b).Used

variable {s s' : State P} {p : P} {b : BufId}

theorem ofNat_eq_zero_iff {n : ℕ} (h : n < 2 ^ 32) : UInt32.ofNat n = 0 ↔ n = 0 := by
  rw [UInt32.ofNat_eq_iff_mod_eq_toNat, Nat.mod_eq_of_lt h]
  rfl

namespace Inv

section

omit [DecidableEq P]

theorem refcnt_eq_zero_iff (h : Inv s) (hs : s.Small) (b : BufId) :
    (s.cache.buf b).refcnt = 0 ↔ s.refs b = 0 := by
  rw [h.count b, ofNat_eq_zero_iff (hs b)]

theorem used (h : Inv s) (hs : s.Small) (hb : 0 < s.refs b) : (s.cache.buf b).Used :=
  .inl fun h0 => hb.ne' ((h.refcnt_eq_zero_iff hs b).1 h0)

theorem refs_of_fetches (hold : ∀ p b, s.pc p = .reading b ∨ s.pc p = .filled b → s.lock b = some p)
    (hp : (s.pc p).Fetches b) : 0 < s.refs b := by
  rcases hp with hp | hp
  · exact State.refs_of_weight (p := p) (by simp [hp, Pc.weight])
  · exact State.refs_of_lock (hold p b hp)

end

section

omit [DecidableEq P]

theorem init (disk : ℕ × ℕ → Block) : Inv (State.init P disk) := by
  have hrefs : ∀ b, (State.init P disk).refs b = 0 := fun b => by
    simp [State.refs, State.init, Pc.weight]
  refine ⟨⟨_, Bcache.Ok.binit⟩, fun b => ?_, fun b hb => ?_, fun p b h => ?_, fun b h => ?_⟩
  · rw [hrefs]
    rfl
  · rcases hb with hb | hb
    · exact absurd rfl hb
    · cases hb
  · rcases h with h | h <;> cases h
  · cases h

theorem frame (h : Inv s) (hc : s'.cache = s.cache) (hrefs : ∀ b, s'.refs b = s.refs b)
    (hfetch : ∀ b p, (s.pc p).Fetches b →
      (s.cache.buf b).valid = true ∨ ∃ p, (s'.pc p).Fetches b)
    (hold : ∀ p b, s'.pc p = .reading b ∨ s'.pc p = .filled b → s'.lock b = some p)
    (hgiven : ∀ b, s'.given b = true → (s.cache.buf b).Used) : Inv s' := by
  refine ⟨hc ▸ h.ok, fun b => ?_, fun b hb => ?_, hold, hc ▸ hgiven⟩
  · rw [hc, hrefs]
    exact h.count b
  · rw [hc] at hb ⊢
    rcases h.fetch b hb with hv | ⟨p, hp⟩
    · exact .inl hv
    · exact hfetch b p hp

theorem change (h : Inv s) {v : Buf} (hc : s'.cache.buf = update s.cache.buf b v)
    (hok : ∃ l, s'.cache.Ok l) (hrefs : ∀ a, a ≠ b → s'.refs a = s.refs a)
    (hcount : v.refcnt = UInt32.ofNat (s'.refs b)) (hv : v.Used) (hb : v.valid = true ∨ ∃ p, (s'.pc p).Fetches b)
    (hfetch : ∀ a p, a ≠ b → (s.pc p).Fetches a → (s'.pc p).Fetches a)
    (hold : ∀ p b, s'.pc p = .reading b ∨ s'.pc p = .filled b → s'.lock b = some p)
    (hgiven : s'.given = s.given) : Inv s' := by
  refine ⟨hok, fun a => ?_, fun a ha => ?_, hold, fun a ha => ?_⟩
  · by_cases hab : a = b
    · subst hab
      rw [hc, update_self]
      exact hcount
    · rw [hc, update_of_ne hab, hrefs a hab]
      exact h.count a
  · by_cases hab : a = b
    · subst hab
      rw [hc, update_self]
      exact hb
    · rw [hc, update_of_ne hab] at ha ⊢
      exact (h.fetch a ha).imp_right fun ⟨p, hp⟩ => ⟨p, hfetch a p hab hp⟩
  · by_cases hab : a = b
    · subst hab
      rwa [hc, update_self]
    · rw [hc, update_of_ne hab]
      exact h.given a (hgiven ▸ ha)

end

omit [Fintype P] in
theorem fetches_goto {q : P} {c : Pc} (hp : ¬ (s.pc p).Fetches b) (hq : (s.pc q).Fetches b) :
    ((s.goto p c).pc q).Fetches b := by
  have hqp : q ≠ p := by
    rintro rfl
    exact hp hq
  simpa [State.goto, update_of_ne hqp] using hq

omit [DecidableEq P] [Fintype P] in
theorem not_fetches_idle (hp : s.pc p = .idle) : ¬ (s.pc p).Fetches b := by
  simp [hp, Pc.Fetches]

theorem hold_goto (h : Inv s) {c : Pc} (hc : ∀ b, c ≠ .reading b ∧ c ≠ .filled b) (q : P)
    (b : BufId) (hq : (s.goto p c).pc q = .reading b ∨ (s.goto p c).pc q = .filled b) :
    s.lock b = some q := by
  by_cases hqp : q = p
  · subst hqp
    simp [State.goto, hc b] at hq
  · simp only [State.goto, update_of_ne hqp] at hq
    exact h.hold q b hq

omit [DecidableEq P] in
theorem halt (h : Inv s) (e : Halt) : Inv { s with halt := some e } :=
  ⟨h.ok, h.count, h.fetch, h.hold, h.given⟩

theorem bget (h : Inv s) (hp : s.pc p = .idle) {dev blockno : ℕ}
    (hs : (s.bget p dev blockno).Small) : Inv (s.bget p dev blockno) := by
  obtain ⟨l, hl⟩ := h.ok
  unfold State.bget at hs ⊢
  split at hs
  · next c b hget =>
    obtain ⟨v, rfl, hr, -⟩ := Bcache.bget_eq hget
    have hrefs : ∀ a, (s.goto p (.acquiring b)).refs a = s.refs a + if b = a then 1 else 0 :=
      fun a => by
        have := s.refs_goto p (.acquiring b) a
        rwa [hp] at this
    have hb : v.refcnt = UInt32.ofNat ((s.goto p (.acquiring b)).refs b) := by
      rw [hrefs, if_pos rfl, UInt32.ofNat_add, ← h.count b, hr]
      rfl
    have hne : v.refcnt ≠ 0 := by
      rw [hb]
      refine mt (ofNat_eq_zero_iff (hs b)).1 ?_
      change (s.goto p (.acquiring b)).refs b ≠ 0
      rw [hrefs, if_pos rfl]
      omega
    refine h.change (b := b) (v := v) rfl ⟨l, hl.bget (by simpa using hne) hget⟩
      (fun a hab => ?_) hb (.inl hne) (.inr ⟨p, .inl (by simp [State.goto])⟩)
      (fun a q _ hq => fetches_goto (not_fetches_idle hp) hq) (h.hold_goto (by simp)) rfl
    change (s.goto p (.acquiring b)).refs a = s.refs a
    rw [hrefs, if_neg (Ne.symm hab), add_zero]
  · exact h.halt _

theorem acquire (h : Inv s) (hs : s.Small) (hp : s.pc p = .acquiring b) (hb : s.lock b = none) :
    Inv (s.acquire p b) := by
  have hused : (s.cache.buf b).Used :=
    h.used hs (State.refs_of_weight (p := p) (by simp [hp, Pc.weight]))
  refine h.frame rfl (fun a => ?_) (fun a q hq => .inr ?_) (fun q a hq => ?_) fun a ha => ?_
  · have hsum := s.refs_goto p (.reading b) a
    rw [hp] at hsum
    by_cases hab : b = a
    · subst hab
      simp only [State.acquire, State.refs, State.goto, Pc.weight, hb, update_self] at hsum ⊢
      simp at hsum ⊢
      omega
    · simp only [State.acquire, State.refs, State.goto, Pc.weight, if_neg hab,
        update_of_ne (Ne.symm hab)] at hsum ⊢
      omega
  · by_cases hqp : q = p
    · subst hqp
      rw [hp] at hq
      simp [Pc.Fetches] at hq
      subst hq
      exact ⟨q, .inr (.inl (by simp [State.acquire, State.goto]))⟩
    · exact ⟨q, by simpa [State.acquire, State.goto, update_of_ne hqp] using hq⟩
  · by_cases hqp : q = p
    · subst hqp
      simp [State.acquire, State.goto] at hq
      subst hq
      simp [State.acquire]
    · simp only [State.acquire, State.goto, update_of_ne hqp] at hq ⊢
      have hlock := h.hold q a hq
      have hab : a ≠ b := by
        rintro rfl
        rw [hb] at hlock
        cases hlock
      rwa [update_of_ne hab]
  · by_cases hab : a = b
    · exact hab ▸ hused
    · simp only [State.acquire, update_of_ne hab] at ha
      exact h.given a ha

theorem read (h : Inv s) (hs : s.Small) (hp : s.pc p = .reading b) : Inv (s.read p b) := by
  have hlock := h.hold p b (.inl hp)
  have hused := h.used hs (State.refs_of_lock hlock)
  have hrefs : ∀ c, c = .idle ∨ c = .filled b → ∀ a, (s.goto p c).refs a = s.refs a := by
    intro c hc a
    have := s.refs_goto p c a
    rw [hp] at this
    rcases hc with rfl | rfl <;> simpa [Pc.weight] using this
  have hother : ∀ a q, a ≠ b → (s.pc q).Fetches a → (s.pc p).Fetches a → False := by
    intro a q hab _ hpa
    simp [hp, Pc.Fetches] at hpa
    exact hab hpa.symm
  unfold State.read
  split_ifs with hv
  · refine h.frame rfl (hrefs _ (.inl rfl)) (fun a q hq => ?_) (h.hold_goto (by simp)) h.given
    by_cases hab : a = b
    · exact .inl (hab ▸ hv)
    · exact .inr ⟨q, fetches_goto (fun hpa => hother a q hab hq hpa) hq⟩
  · obtain ⟨l, hl⟩ := h.ok
    refine h.change (b := b) rfl ⟨l, hl.change_used hused hused rfl⟩
      (fun a _ => hrefs _ (.inr rfl) a) ?_ hused (.inr ⟨p, .inr (.inr (by simp [State.goto]))⟩)
      (fun a q hab hq => fetches_goto (fun hpa => hother a q hab hq hpa) hq) (fun q a hq => ?_) rfl
    · exact (h.count b).trans (congrArg _ (hrefs _ (.inr rfl) b).symm)
    · by_cases hqp : q = p
      · subst hqp
        simp [State.goto] at hq
        exact hq ▸ hlock
      · simp only [State.goto, update_of_ne hqp] at hq
        exact h.hold q a hq

theorem validate (h : Inv s) (hs : s.Small) (hp : s.pc p = .filled b) : Inv (s.validate p b) := by
  have hused := h.used hs (State.refs_of_lock (h.hold p b (.inr hp)))
  have hrefs : ∀ a, (s.goto p .idle).refs a = s.refs a := fun a => by
    have := s.refs_goto p .idle a
    rwa [hp] at this
  obtain ⟨l, hl⟩ := h.ok
  refine h.change (b := b) rfl ⟨l, hl.change_used hused (.inr rfl) rfl⟩ (fun a _ => hrefs a)
    ((h.count b).trans (congrArg _ (hrefs b).symm)) (.inr rfl) (.inl rfl)
    (fun a q hab hq => fetches_goto (fun hpa => ?_) hq) (h.hold_goto (by simp)) rfl
  simp [hp, Pc.Fetches] at hpa
  exact hab hpa.symm

omit [DecidableEq P] in
theorem modify (h : Inv s) (hs : s.Small) (hb : s.lock b = some p) (d : Block) :
    Inv (s.modify b d) := by
  have hused := h.used hs (State.refs_of_lock hb)
  obtain ⟨l, hl⟩ := h.ok
  exact h.change (b := b) rfl ⟨l, hl.change_used hused hused rfl⟩ (fun _ _ => rfl) (h.count b) hused
    (h.fetch b hused) (fun _ _ _ hq => hq) h.hold rfl

theorem bwrite (h : Inv s) (p : P) (b : BufId) : Inv (s.bwrite p b) := by
  unfold State.bwrite
  split_ifs
  · exact ⟨h.ok, h.count, h.fetch, h.hold, h.given⟩
  · exact h.halt _

theorem unlock (h : Inv s) (hp : s.pc p = .idle) (b : BufId) : Inv (s.unlock p b) := by
  unfold State.unlock
  split_ifs with hb
  · refine h.frame rfl (fun a => ?_)
      (fun a q hq => .inr ⟨q, fetches_goto (not_fetches_idle hp) hq⟩) (fun q a hq => ?_) h.given
    · have hsum := s.refs_goto p (.releasing b) a
      rw [hp] at hsum
      by_cases hab : b = a
      · subst hab
        simp [State.refs, State.goto, Pc.weight, hb] at hsum ⊢
        omega
      · simpa [State.refs, State.goto, Pc.weight, hab, update_of_ne (Ne.symm hab)] using hsum
    · have hlock := h.hold_goto (c := .releasing b) (by simp) q a hq
      have hab : a ≠ b := by
        rintro rfl
        rw [hb] at hlock
        cases hlock
        simp [State.goto] at hq
      exact (update_of_ne hab _ _).trans hlock
  · exact h.halt _

omit [DecidableEq P] in
theorem drop (h : Inv s) (hs : s.Small) (hrefs : s'.refs b + 1 = s.refs b)
    (hfetch : ∀ q, (s.pc q).Fetches b → (s'.pc q).Fetches b)
    (hold : ∀ p b, s'.pc p = .reading b ∨ s'.pc p = .filled b → s'.lock b = some p) :
    (s.cache.buf b).refcnt - 1 = UInt32.ofNat (s'.refs b) ∧
      ({ s.cache.buf b with refcnt := (s.cache.buf b).refcnt - 1 } : Buf).Used := by
  have hcount : (s.cache.buf b).refcnt - 1 = UInt32.ofNat (s'.refs b) := by
    rw [h.count b, ← hrefs, UInt32.ofNat_add]
    exact UInt32.add_sub_cancel _ 1
  refine ⟨hcount, ?_⟩
  rcases h.fetch b (h.used hs (by omega)) with hv | ⟨q, hq⟩
  · exact .inr hv
  · refine .inl ?_
    change (s.cache.buf b).refcnt - 1 ≠ 0
    have hpos := refs_of_fetches hold (hfetch q hq)
    have hlt := hs b
    rw [hcount, Ne, ofNat_eq_zero_iff (by omega)]
    omega

theorem release (h : Inv s) (hs : s.Small) (hp : s.pc p = .releasing b) : Inv (s.release p b) := by
  have hsum : ∀ a, (s.goto p .idle).refs a + (if b = a then 1 else 0) = s.refs a := fun a => by
    have := s.refs_goto p .idle a
    rwa [hp] at this
  have hfetch : ∀ a q, (s.pc q).Fetches a → ((s.goto p .idle).pc q).Fetches a := fun a q hq =>
    fetches_goto (by simp [hp, Pc.Fetches]) hq
  have hb := hsum b
  rw [if_pos rfl] at hb
  obtain ⟨hcount, hused⟩ := h.drop hs hb (hfetch b) (h.hold_goto (by simp))
  have hold := h.used hs (b := b) (by omega)
  obtain ⟨l, hl⟩ := h.ok
  refine h.change (b := b) (Bcache.buf_brelse _ _) (hl.brelse hold (by simpa [Bcache.bunpin]))
    (fun a hab => ?_) hcount hused ?_ (fun a q _ hq => hfetch a q hq) (h.hold_goto (by simp)) rfl
  · have := hsum a
    rwa [if_neg (Ne.symm hab)] at this
  · exact (h.fetch b hold).imp_right fun hq => hq.imp fun q => hfetch b q

section

omit [DecidableEq P]

theorem refs_bpin (a : BufId) : (s.bpin b).refs a = s.refs a + if a = b then 1 else 0 := by
  by_cases hab : a = b
  · subst hab
    simp [State.refs, State.bpin]
    omega
  · simp [State.refs, State.bpin, hab]

theorem bpin (h : Inv s) (hs : (s.bpin b).Small) (hb : s.given b = true) : Inv (s.bpin b) := by
  have hused := h.given b hb
  have hcount : (s.cache.buf b).refcnt + 1 = UInt32.ofNat ((s.bpin b).refs b) := by
    rw [refs_bpin, if_pos rfl, UInt32.ofNat_add, ← h.count b]
    rfl
  have hne : (s.cache.buf b).refcnt + 1 ≠ 0 := by
    rw [hcount, Ne, ofNat_eq_zero_iff (hs b), refs_bpin, if_pos rfl]
    omega
  obtain ⟨l, hl⟩ := h.ok
  refine h.change (b := b) rfl ⟨l, hl.change_used hused (.inl hne) rfl⟩ (fun a hab => ?_) hcount
    (.inl hne) (h.fetch b hused) (fun _ _ _ hq => hq) h.hold rfl
  rw [refs_bpin, if_neg hab, add_zero]

end

omit [DecidableEq P] in
theorem bunpin (h : Inv s) (hs : s.Small) (hb : 0 < s.pins b) : Inv (s.bunpin b) := by
  have hrefs : (s.bunpin b).refs b + 1 = s.refs b := by
    simp [State.refs, State.bunpin]
    omega
  obtain ⟨hcount, hused⟩ := h.drop hs hrefs (fun _ hq => hq) h.hold
  have hold := h.used hs (b := b) (by omega)
  obtain ⟨l, hl⟩ := h.ok
  refine h.change (b := b) rfl ⟨l, hl.change_used hold hused rfl⟩ (fun a hab => ?_) hcount hused
    (h.fetch b hold) (fun _ _ _ hq => hq) h.hold rfl
  simp [State.refs, State.bunpin, hab]

theorem step (h : Inv s) {a : Act P} (hs : s.Small) (hstep : Bio.step s a = some s')
    (hs' : s'.Small) : Inv s' := by
  cases a with
  | bread p dev blockno =>
    rw [Bio.step, Option.ite_none_right_eq_some] at hstep
    obtain ⟨⟨-, hp⟩, hstep⟩ := hstep
    cases hstep
    exact h.bget hp hs'
  | modify p b d =>
    rw [Bio.step, Option.ite_none_right_eq_some] at hstep
    obtain ⟨⟨-, -, hb⟩, hstep⟩ := hstep
    cases hstep
    exact h.modify hs hb d
  | bwrite p b =>
    rw [Bio.step, Option.ite_none_right_eq_some] at hstep
    obtain ⟨-, hstep⟩ := hstep
    cases hstep
    exact h.bwrite p b
  | brelse p b =>
    rw [Bio.step, Option.ite_none_right_eq_some] at hstep
    obtain ⟨⟨-, hp⟩, hstep⟩ := hstep
    cases hstep
    exact h.unlock hp b
  | bpin p b =>
    rw [Bio.step, Option.ite_none_right_eq_some] at hstep
    obtain ⟨⟨-, -, hb⟩, hstep⟩ := hstep
    cases hstep
    exact h.bpin hs' hb
  | bunpin p b =>
    rw [Bio.step, Option.ite_none_right_eq_some] at hstep
    obtain ⟨⟨-, -, hb⟩, hstep⟩ := hstep
    cases hstep
    exact h.bunpin hs hb
  | run p =>
    rw [Bio.step, Option.ite_none_right_eq_some] at hstep
    obtain ⟨-, hstep⟩ := hstep
    split at hstep
    · cases hstep
    · rw [Option.ite_none_right_eq_some] at hstep
      obtain ⟨hb, hstep⟩ := hstep
      cases hstep
      exact h.acquire hs ‹_› hb
    · cases hstep; exact h.read hs ‹_›
    · cases hstep; exact h.validate hs ‹_›
    · cases hstep; exact h.release hs ‹_›

/-- **A buffer with a reference keeps its block.** -/
theorem key_step (h : Inv s) (hs : s.Small) {a : Act P} (hstep : Bio.step s a = some s')
    (hb : 0 < s.refs b) : (s'.cache.buf b).key = (s.cache.buf b).key := by
  have hset : ∀ (x : BufId) (v : Buf), v.key = (s.cache.buf x).key →
      ((s.cache.set x v).buf b).key = (s.cache.buf b).key := fun x v hv => by
    by_cases hbx : b = x
    · subst hbx
      simpa using hv
    · simp [hbx]
  cases a with
  | bread p dev blockno =>
    rw [Bio.step, Option.ite_none_right_eq_some] at hstep
    obtain ⟨-, hstep⟩ := hstep
    cases hstep
    unfold State.bget
    split
    · next c x hget =>
      obtain ⟨l, hl⟩ := h.ok
      obtain ⟨v, rfl, -, -, -, hv⟩ := Bcache.bget_eq hget
      by_cases hbx : b = x
      · subst hbx
        refine hset b v ?_
        rw [hv (mt (h.refcnt_eq_zero_iff hs b).1 hb.ne')]
        rfl
      · change ((s.cache.set x v).buf b).key = _
        simp [hbx]
    · rfl
  | modify p x d =>
    rw [Bio.step, Option.ite_none_right_eq_some] at hstep
    obtain ⟨-, hstep⟩ := hstep
    cases hstep
    exact hset x _ rfl
  | bwrite p x =>
    rw [Bio.step, Option.ite_none_right_eq_some] at hstep
    obtain ⟨-, hstep⟩ := hstep
    cases hstep
    unfold State.bwrite
    split_ifs <;> rfl
  | brelse p x =>
    rw [Bio.step, Option.ite_none_right_eq_some] at hstep
    obtain ⟨-, hstep⟩ := hstep
    cases hstep
    unfold State.unlock
    split_ifs <;> rfl
  | bpin p x =>
    rw [Bio.step, Option.ite_none_right_eq_some] at hstep
    obtain ⟨-, hstep⟩ := hstep
    cases hstep
    exact hset x _ rfl
  | bunpin p x =>
    rw [Bio.step, Option.ite_none_right_eq_some] at hstep
    obtain ⟨-, hstep⟩ := hstep
    cases hstep
    exact hset x _ rfl
  | run p =>
    rw [Bio.step, Option.ite_none_right_eq_some] at hstep
    obtain ⟨-, hstep⟩ := hstep
    split at hstep
    · cases hstep
    · rw [Option.ite_none_right_eq_some] at hstep
      obtain ⟨-, hstep⟩ := hstep
      cases hstep
      rfl
    · cases hstep
      unfold State.read
      split_ifs
      · rfl
      · exact hset _ _ rfl
    · cases hstep
      exact hset _ _ rfl
    · cases hstep
      change ((s.cache.brelse _).buf b).key = _
      rw [Bcache.buf_brelse]
      exact hset _ _ rfl

end Inv

theorem inv_of_reach {s₀ : State P} {ok : State P → Act P → Prop}
    (hok : ∀ s a, ok s a → s.Small) (h₀ : Inv s₀) (h : Reach step ok s₀ s) (hs : s.Small) :
    Inv s :=
  h.inv (I := fun s => s.Small → Inv s) (fun _ => h₀)
    (fun s a _ hi ha hstep hs' => (hi (hok s a ha)).step (hok s a ha) hstep hs') hs

theorem ring_of_ok {c : Bcache} {l : List BufId} (h : c.Ok l) :
    (∀ b, ∃! k, k < nbuf ∧ c.links.next^[k + 1] none = some b) ∧
      c.links.next^[nbuf + 1] none = none ∧
      ∀ x, c.links.prev (c.links.next x) = x ∧ c.links.next (c.links.prev x) = x := by
  have hlen := h.length
  refine ⟨fun b => ?_, ?_, fun x => ?_⟩
  · obtain ⟨k, hk, rfl⟩ := List.getElem_of_mem (h.all b)
    refine ⟨k, ⟨hlen ▸ hk, h.lists.iterate_eq hk⟩, fun j ⟨hj, hjb⟩ => ?_⟩
    rw [h.lists.iterate_eq (hlen.symm ▸ hj), Option.some_inj] at hjb
    exact (h.lists.nodup.getElem_inj_iff).1 hjb
  · rw [← hlen]
    exact h.lists.iterate_length
  · have hx : x ∈ none :: l.map some := by
      cases x with
      | none => exact List.mem_cons_self
      | some b => simp [h.all b]
    refine ⟨h.lists.prev_next hx, h.lists.flip.prev_next ?_⟩
    rw [List.map_reverse]
    simpa using hx

/-- **Identity and pinning of buffers.** In every state reached from `binit` while every buffer has
fewer than `2 ^ 32` references: different used buffers cache different blocks; as long as a buffer
is held or pinned it keeps its block; `refcnt` is the number of references; and the list is a ring
of all buffers. -/
theorem identity_and_pinning (disk : ℕ × ℕ → Block) (s : State P)
    (h : Reach step (fun s _ => s.Small) (State.init P disk) s) (hs : s.Small) :
    (∀ a b, a ≠ b → (s.cache.buf a).Used → (s.cache.buf b).Used →
      (s.cache.buf a).key ≠ (s.cache.buf b).key) ∧
    (∀ b s', Reach step (fun t _ => t.Small ∧ ((t.lock b).isSome ∨ 0 < t.pins b)) s s' →
      (s'.cache.buf b).key = (s.cache.buf b).key) ∧
    (∀ b, (s.cache.buf b).refcnt.toNat = s.refs b) ∧
    (∀ b, ∃! k, k < nbuf ∧ s.cache.links.next^[k + 1] none = some b) ∧
    s.cache.links.next^[nbuf + 1] none = none ∧
    ∀ x, s.cache.links.prev (s.cache.links.next x) = x ∧
      s.cache.links.next (s.cache.links.prev x) = x := by
  have hi : Inv s := inv_of_reach (fun _ _ h => h) (.init disk) h hs
  obtain ⟨l, hl⟩ := hi.ok
  refine ⟨fun a b hab ha hb e => hab (hl.uniq a b ha hb e), fun b s' hr => ?_, fun b => ?_,
    ring_of_ok hl⟩
  · refine (hr.inv (I := fun t => (t.Small → Inv t) ∧ (t.cache.buf b).key = (s.cache.buf b).key)
      ⟨fun _ => hi, rfl⟩ fun t a t' ⟨hit, hkey⟩ ⟨ht, hb⟩ hstep => ⟨(hit ht).step ht hstep, ?_⟩).2
    refine ((hit ht).key_step ht hstep ?_).trans hkey
    rcases hb with hb | hb
    · obtain ⟨p, hp⟩ := Option.isSome_iff_exists.1 hb
      exact State.refs_of_lock hp
    · exact State.refs_of_pins hb
  · rw [hi.count b]
    exact Nat.mod_eq_of_lt (hs b)

instance (s : State P) : Decidable s.Small := inferInstanceAs (Decidable (∀ _, _))

def readSeven : List (Act (Fin 1)) := [.bread 0 0 7, .run 0, .run 0, .run 0]

theorem identity_and_pinning_read : ∃ s : State (Fin 1),
    exec step (State.init (Fin 1) fun _ _ => 0) readSeven = some s ∧ s.lock 0 = some 0 ∧
      (s.cache.buf 0).key = (0, 7) ∧ s.cache.links.next^[nbuf + 1] none = none ∧
      ∀ a, a ≠ 0 → (s.cache.buf a).Used → (s.cache.buf a).key ≠ (0, 7) := by
  have h : Reach step (fun s _ => s.Small) (State.init (Fin 1) fun _ _ => 0) _ :=
    .tail (a := .run 0) (.tail (a := .run 0) (.tail (a := .run 0) (.tail (a := .bread 0 0 7)
      .refl (by decide) rfl) (by decide) rfl) (by decide) rfl) (by decide) rfl
  have hs := identity_and_pinning _ _ h (by decide)
  exact ⟨_, rfl, rfl, rfl, hs.2.2.2.2.1, fun a ha hused => hs.1 a 0 ha hused (.inr rfl)⟩

theorem reach_bpin (hh : s.halt = none) (hp : s.pc p = .idle) (hb : s.given b = true) (n : ℕ) :
    ∃ s', Reach step any s s' ∧ s'.halt = none ∧ s'.pc p = .idle ∧ s'.given b = true ∧
      (s'.cache.buf b).refcnt = (s.cache.buf b).refcnt + UInt32.ofNat n ∧
      s'.refs b = s.refs b + n := by
  induction n with
  | zero => exact ⟨s, .refl, hh, hp, hb, by simp, rfl⟩
  | succ n ih =>
    obtain ⟨t, ht, hh, hp, hb, hr, hrefs⟩ := ih
    refine ⟨t.bpin b, ht.tail (a := .bpin p b) trivial ?_, hh, hp, hb, ?_, ?_⟩
    · rw [step, if_pos ⟨hh, hp, hb⟩]
    · change (update t.cache.buf b _ b).refcnt = _
      rw [update_self, UInt32.ofNat_add, ← UInt32.add_assoc, ← hr]
      rfl
    · rw [Inv.refs_bpin, if_pos rfl, hrefs, Nat.add_assoc]

/-- **The reference count wraps**: after `2 ^ 32 - 1` pins a buffer that its process still holds has
`refcnt` zero. -/
theorem refcnt_wraps : ¬ ∀ s : State (Fin 1),
    Reach step any (State.init (Fin 1) fun _ _ => 0) s →
      ∀ b, (s.cache.buf b).refcnt.toNat = s.refs b := by
  intro hall
  have h : (exec step (State.init (Fin 1) fun _ _ => 0) readSeven).map (fun s =>
      (s.halt, s.pc 0, s.given 0, (s.cache.buf 0).refcnt, s.refs 0)) =
        some (none, .idle, true, 1, 1) := by decide
  obtain ⟨s, hs, he⟩ := Option.map_eq_some_iff.1 h
  simp only [Prod.mk.injEq] at he
  obtain ⟨hh, hp, hb, hr, hrefs⟩ := he
  obtain ⟨s', hs', -, -, -, hr', hrefs'⟩ := reach_bpin hh hp hb (2 ^ 32 - 1)
  have := hall s' ((Reach.of_exec (fun _ _ _ => trivial) hs).trans hs') 0
  rw [hr', hrefs', hr, hrefs] at this
  exact absurd this (by decide)

end Xv6.Bio

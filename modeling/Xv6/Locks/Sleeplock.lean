import Xv6.Lib.Monitor

/-!
# Sleep locks

`acquiresleep`, `releasesleep` and `holdingsleep` of `kernel/sleeplock.c`: a monitor whose data are `lk->locked`
and `lk->pid` and whose lock is `lk->lk`.

* `Pc`, `act`, `lockCode`: the code. A call and its result carry whether the process has the lock; the code does
  not keep that.
* `Proper`: the calls of processes. Whoever calls `releasesleep` has the lock.
* `Owned`: at most one process has the lock, and `lk->pid` is its pid; **`owned_of_reach`**.
* **`sleeplock_excludes`**: the same for those between `acquiresleep` and `releasesleep`, and nobody sleeps on a
  lock that is free.
-/

namespace Xv6.Locks

open Function Monitor Runs

/-! ## The code -/

/-- `lk->locked` and `lk->pid`. -/
structure Sleeplock where
  locked : Bool
  pid : ℕ
  deriving DecidableEq

def initsleeplock : Sleeplock := ⟨false, 0⟩

/-- **Where a process is** in one of the functions. `mine` says that it has the lock already. -/
inductive Pc
  | acquireTest (mine : Bool)
  | acquireSet
  | acquirePid
  | acquireLeave
  | releaseSet
  | releasePid
  | releaseWake
  | releaseLeave
  | holdingTest (mine : Bool)
  deriving DecidableEq

/-- What `holdingsleep` returns, and whether the process has the lock now. -/
structure Ret where
  held : Option Bool
  mine : Bool
  deriving DecidableEq

def acquiresleep (mine : Bool) : Pc := .acquireTest mine

def releasesleep : Pc := .releaseSet

def holdingsleep (mine : Bool) : Pc := .holdingTest mine

/-- **The code** of a process whose pid is `mypid`. The lock has one channel. -/
def act (mypid : ℕ) : Pc → Sleeplock → Act Sleeplock Pc Unit Ret
  | .acquireTest mine, lk => if lk.locked then .sleep () (.acquireTest mine) else .go lk .acquireSet
  | .acquireSet, lk => .go { lk with locked := true } .acquirePid
  | .acquirePid, lk => .go { lk with pid := mypid } .acquireLeave
  | .acquireLeave, lk => .leave lk ⟨none, true⟩
  | .releaseSet, lk => .go { lk with locked := false } .releasePid
  | .releasePid, lk => .go { lk with pid := 0 } .releaseWake
  | .releaseWake, _ => .wakeup () .releaseLeave
  | .releaseLeave, lk => .leave lk ⟨none, false⟩
  | .holdingTest mine, lk => .leave lk ⟨some (lk.locked && lk.pid == mypid), mine⟩

variable {P : Type}

/-- **The lock of the processes `procs`.** -/
def lockCode (pid : P → ℕ) (procs : List P) : Code P Sleeplock Pc Unit Ret where
  procs := procs
  live _ := true
  act p _ := act (pid p)
  env _ _ := none

abbrev Phase : Type := Option Ret ⊕ Pc

/-- A process outside has the lock if its last call says so. -/
def has (r : Option Ret) : Bool := r.any Ret.mine

/-- **The process has the lock**: from `lk->locked = 1` to `lk->locked = 0`. -/
def owns : Phase → Bool
  | .inl r => has r
  | .inr (.acquireTest mine) => mine
  | .inr .acquirePid => true
  | .inr .acquireLeave => true
  | .inr .releaseSet => true
  | .inr (.holdingTest mine) => mine
  | .inr _ => false

section

variable [DecidableEq P] {pid : P → ℕ} {procs : List P} {s : State P Sleeplock Pc Unit Ret}

/-- **The calls of processes**: `releasesleep` by the one that has the lock. -/
def Proper (s : State P Sleeplock Pc Unit Ret) : Ev P Pc → Prop
  | .call p l =>
    match s.pos p, l with
    | .out r, .acquireTest mine | .out r, .holdingTest mine => mine = has r
    | .out r, .releaseSet => has r = true
    | _, _ => False
  | _ => True

omit [DecidableEq P] in
theorem owns_call {p : P} {l : Pc} {r : Option Ret} (hok : Proper s (.call p l)) (hp : s.pos p = .out r) :
    owns (.inr l) = has r ∧ l ≠ .acquirePid := by
  simp only [Proper, hp] at hok
  cases l with
  | acquireTest mine => exact ⟨hok, nofun⟩
  | holdingTest mine => exact ⟨hok, nofun⟩
  | releaseSet => exact ⟨hok.symm, nofun⟩
  | _ => exact hok.elim

/-! ## One process has the lock -/

/-- What the holder of `lk->lk` knows. -/
def Knows (mypid : ℕ) : Pc → Sleeplock → Prop
  | .acquireSet, lk => lk.locked = false
  | .acquirePid, lk => lk.locked = true
  | .acquireLeave, lk => lk.locked = true ∧ lk.pid = mypid
  | .releasePid, lk => lk.locked = false
  | .releaseWake, lk => lk.locked = false
  | .releaseLeave, lk => lk.locked = false
  | _, _ => True

/-- What a process does when it comes for `lk->lk`. -/
def Pc.begins : Pc → Prop
  | .acquireTest _ => True
  | .releaseSet => True
  | .holdingTest _ => True
  | _ => False

omit [DecidableEq P] in
theorem lock_outline : Outline (lockCode pid procs) Proper (fun _ => True) (fun _ l => l.begins)
    (fun p l lk => Knows (pid p) l lk) where
  call := by
    intro s p l hok
    simp only [Proper] at hok
    split at hok
    · trivial
    · trivial
    · trivial
    · exact hok.elim
  enter := by
    intro p l lk _ _ hk
    cases l with
    | acquireTest mine => trivial
    | releaseSet => trivial
    | holdingTest mine => trivial
    | _ => exact hk.elim
  act := by
    intro s p l _ _ hj
    change Keeps _ _ _ _ _ (act (pid p) l s.data)
    cases l with
    | acquireTest mine =>
      simp only [act]
      split_ifs with hlocked
      · exact ⟨trivial, trivial⟩
      · exact Bool.eq_false_iff.2 hlocked
    | acquireSet => exact rfl
    | acquirePid => exact ⟨hj, rfl⟩
    | releaseSet => exact rfl
    | releasePid => exact hj
    | releaseWake => exact hj
    | _ => trivial
  env := nofun

/-- **At most one process has the lock**, `lk->locked` is set then, and `lk->pid` is its pid. -/
structure Owned (pid : P → ℕ) (lk : Sleeplock) (ph : P → Phase) : Prop where
  locked : ∀ p, owns (ph p) = true → lk.locked = true
  uniq : ∀ p q, owns (ph p) = true → owns (ph q) = true → p = q
  pid : ∀ p, owns (ph p) = true → ph p ≠ .inr .acquirePid → lk.pid = pid p

variable {lk lk' : Sleeplock} {ph : P → Phase} {p : P} {a : Phase}

theorem Owned.same (h : Owned pid lk ph) (ha : owns a = owns (ph p)) (hset : ph p ≠ .inr .acquirePid) :
    Owned pid lk (update ph p a) := by
  have howns : ∀ q, owns (update ph p a q) = owns (ph q) := by
    intro q
    by_cases hq : q = p
    · rw [hq, update_self, ha]
    · rw [update_of_ne hq]
  refine ⟨fun q hq => h.locked q (howns q ▸ hq),
    fun q q' hq hq' => h.uniq q q' (howns q ▸ hq) (howns q' ▸ hq'), fun q hq hne => ?_⟩
  rw [howns] at hq
  by_cases hqp : q = p
  · exact hqp ▸ h.pid p (hqp ▸ hq) hset
  · rw [update_of_ne hqp] at hne
    exact h.pid q hq hne

theorem Owned.none (h : ∀ q, q ≠ p → owns (ph q) = false) (ha : owns a = false) :
    Owned pid lk (update ph p a) := by
  have hnone : ∀ q, owns (update ph p a q) = false := by
    intro q
    by_cases hq : q = p
    · rw [hq, update_self, ha]
    · rw [update_of_ne hq, h q hq]
  have habs : ∀ {X : Prop} q, owns (update ph p a q) = true → X := fun q hq => by
    rw [hnone q] at hq
    cases hq
  exact ⟨fun q hq => habs q hq, fun q _ hq _ => habs q hq, fun q hq _ => habs q hq⟩

theorem Owned.only (h : ∀ q, q ≠ p → owns (ph q) = false) (hlocked : lk.locked = true)
    (hpid : a ≠ .inr .acquirePid → lk.pid = pid p) : Owned pid lk (update ph p a) := by
  have heq : ∀ q, owns (update ph p a q) = true → q = p := by
    intro q hq
    by_contra hne
    rw [update_of_ne hne, h q hne] at hq
    cases hq
  refine ⟨fun _ _ => hlocked, fun q q' hq hq' => (heq q hq).trans (heq q' hq').symm, fun q hq hne => ?_⟩
  have hqp := heq q hq
  subst hqp
  rw [update_self] at hne
  exact hpid hne

section

omit [DecidableEq P]

theorem Owned.free (h : Owned pid lk ph) (hfree : lk.locked = false) (q : P) : owns (ph q) = false := by
  by_contra hne
  have := h.locked q (Bool.eq_true_of_not_eq_false hne)
  rw [hfree] at this
  cases this

theorem Owned.others (h : Owned pid lk ph) (hp : owns (ph p) = true) (q : P) (hq : q ≠ p) : owns (ph q) = false := by
  by_contra hne
  exact hq (h.uniq q p (Bool.eq_true_of_not_eq_false hne) hp)

end

theorem lock_joint : Joint (lockCode pid procs) Proper (fun _ l => l.begins)
    (fun p l lk => Knows (pid p) l lk) (Owned pid) where
  call := by
    intro s p l r hok hp h
    have hph : s.phases p = .inl r := by rw [State.phases, hp]; rfl
    obtain ⟨hsame, _⟩ := owns_call hok hp
    refine h.same (hsame.trans ?_) (by simp [hph])
    rw [hph]
    rfl
  act := by
    intro s p l _ hp _ hj h
    have hph : s.phases p = .inr l := by rw [State.phases, hp]; rfl
    change Owned pid ((act (pid p) l s.data).data.getD s.data)
      (update s.phases p (act (pid p) l s.data).phase)
    cases l with
    | acquireTest mine =>
      simp only [act]
      split_ifs with hlocked
      · exact h.same (by rw [hph]; rfl) (by simp [hph])
      · exact .none (fun q _ => h.free (Bool.eq_false_iff.2 hlocked) q) rfl
    | acquireSet => exact .only (fun q _ => h.free hj q) rfl fun hne => absurd rfl hne
    | acquirePid => exact .only (h.others (by rw [hph]; rfl)) hj fun _ => rfl
    | acquireLeave => exact .only (h.others (by rw [hph]; rfl)) hj.1 fun _ => hj.2
    | releaseSet => exact .none (h.others (by rw [hph]; rfl)) rfl
    | releasePid => exact .none (fun q _ => h.free hj q) rfl
    | releaseWake => exact .none (fun q _ => h.free hj q) rfl
    | releaseLeave => exact .none (fun q _ => h.free hj q) rfl
    | holdingTest mine => exact h.same (by rw [hph]; rfl) (by simp [hph])
  env := fun s k d _ hd => by cases hd

theorem owned_of_reach (h : Reach (step (lockCode pid procs)) Proper (.start initsleeplock) s) :
    Owned pid s.data s.phases := by
  refine lock_joint.of_reach lock_outline trivial ?_ h
  have hnone : ∀ {X : Prop}, owns (.inl none) = true → X := fun hp => (Bool.false_ne_true hp).elim
  exact ⟨fun _ hp => hnone hp, fun _ _ hp _ => hnone hp, fun _ hp _ => hnone hp⟩

/-! ## Sleepers -/

/-- Whoever has set `lk->locked` to 0 owes a `wakeup`. -/
def owes : Pc → Unit → Prop
  | .releasePid, _ => True
  | .releaseWake, _ => True
  | _, _ => False

omit [DecidableEq P] in
theorem lock_telling (hprocs : ∀ p : P, p ∈ procs) :
    Telling (lockCode pid procs) Proper (fun p l lk => Knows (pid p) l lk) (fun _ lk => lk.locked = true) owes where
  act := by
    intro s p l _ _ hj
    change Tells _ _ _ _ _ _ (act (pid p) l s.data)
    cases l with
    | acquireTest mine =>
      simp only [act]
      split_ifs with hlocked
      · exact ⟨hprocs p, hlocked, nofun⟩
      · exact fun c hc => hc
    | acquireSet => exact fun c _ => .inl rfl
    | acquirePid => exact fun c hc => hc
    | releaseSet => exact fun c _ => .inr trivial
    | releasePid => exact fun c _ => .inr trivial
    | releaseWake => exact fun c hne => absurd rfl hne
    | _ => exact fun c hc => .inl (hc.resolve_right id)
  env := nofun

/-- A process between the return of `acquiresleep` and `releasesleep`. -/
def Between (s : State P Sleeplock Pc Unit Ret) (p : P) : Prop :=
  owns (s.phases p) = true ∧ s.phases p ≠ .inr .acquirePid ∧ s.phases p ≠ .inr .acquireLeave

/-- **Sleep locks exclude and strand nobody.** At most one process is between the return of `acquiresleep` and
`releasesleep`, the lock is held then and `lk->pid` is its pid, and while `lk->lk` is free and `lk->locked` is 0 no
process sleeps on the lock. -/
theorem sleeplock_excludes (hprocs : ∀ p : P, p ∈ procs)
    (h : Reach (step (lockCode pid procs)) Proper (.start initsleeplock) s) :
    (∀ p q, Between s p → Between s q → p = q) ∧
      (∀ p, Between s p → s.data.locked = true ∧ s.data.pid = pid p) ∧
      (s.lock = none → s.data.locked = false → ∀ p l, s.pos p ≠ .asleep () l) := by
  have howned := owned_of_reach h
  refine ⟨fun p q hp hq => howned.uniq p q hp.1 hq.1,
    fun p hp => ⟨howned.locked p hp.1, howned.pid p hp.1 hp.2.1⟩, fun hlock hfree p l hp => ?_⟩
  have hlocked : s.data.locked = true :=
    (lock_telling hprocs).quiet_of_reach lock_outline trivial h hlock (by rw [hp]; rfl)
  rw [hfree] at hlocked
  cases hlocked

end

/-! ## A run of two processes -/

instance (s : State (Fin 2) Sleeplock Pc Unit Ret) (e : Ev (Fin 2) Pc) : Decidable (Proper s e) := by
  cases e with
  | call p l =>
    simp only [Proper]
    split <;> infer_instance
  | _ => exact inferInstanceAs (Decidable True)

/-- Process `0` takes the lock, process `1` sleeps on it and gets it when process `0` gives it back. -/
def handOver : List (Ev (Fin 2) Pc) :=
  [.call 0 (acquiresleep false), .acquire 0] ++ List.replicate 4 (.run 0) ++
    [.call 1 (acquiresleep false), .acquire 1, .run 1, .run 1] ++
    [.call 0 releasesleep, .acquire 0] ++ List.replicate 7 (.run 0) ++
    [.acquire 1] ++ List.replicate 4 (.run 1)

instance (s : State (Fin 2) Sleeplock Pc Unit Ret) (p : Fin 2) : Decidable (Between s p) :=
  inferInstanceAs (Decidable (_ ∧ _))

theorem sleeplock_excludes_two : ∃ s : State (Fin 2) Sleeplock Pc Unit Ret,
    Reach (step (lockCode (fun p : Fin 2 => p + 10) [0, 1])) Proper (.start initsleeplock) s ∧ Between s 1 ∧
      s.data.locked = true ∧ s.data.pid = 11 ∧ ¬ Between s 0 := by
  have hrun : (execIf (step (lockCode (fun p : Fin 2 => p + 10) [0, 1])) Proper (.start initsleeplock) handOver).any
      (fun s => decide (Between s 1)) = true := by decide +kernel
  obtain ⟨s, hs, htest⟩ := (Option.any_eq_true _ _).1 hrun
  have hbetween := of_decide_eq_true htest
  obtain ⟨huniq, hheld, _⟩ := sleeplock_excludes (by decide) (.of_execIf hs)
  refine ⟨s, .of_execIf hs, hbetween, (hheld 1 hbetween).1, (hheld 1 hbetween).2, fun h0 => ?_⟩
  exact absurd (huniq 0 1 h0 hbetween) (by decide)

end Xv6.Locks

import Xv6.Locks.Nesting

/-!
# Spinlocks exclude

`acquire` takes a lock before it records the CPU, and `release` clears the record before it gives the lock back. In
between the CPU still owns the lock.

* `Owns`: from the `test_and_set` that takes a lock to the store that gives it back.
* `Effect`: what a step of one CPU does to the locks; **`step_effect`**: every step.
* `Taken`: a lock that is taken has an owner, and nobody waits for a lock of their own.
* **`spinlock_excludes`**: in every run one CPU owns a lock that is taken, its interrupts are off, and `acquire`,
  `release` and `pop_off` of the kernel stop a CPU only where another one owns the lock.
-/

namespace Xv6.Spin

open Runs
open Function (update_of_ne update_self)

variable {C P K : Type} {s s' t : State C P K} {c : C} {lk : Lk P K}

/-- **The owner of a lock**: it is between the `test_and_set` that took it and the store that gives it back. -/
def Owns (s : State C P K) (c : C) (lk : Lk P K) : Prop :=
  (s.lock lk).cpu = some c ∨ (s.cpu c).pc.moving = some lk

/-! ## The steps -/

/-- **What a step of one CPU does to the locks.** -/
structure Effect (s s' : State C P K) (c : C) : Prop where
  others : ∀ c', c' ≠ c → s'.cpu c' = s.cpu c'
  lock : ∀ lk, s'.lock lk = s.lock lk ∧ (s.cpu c).pc.moving ≠ some lk ∨ ((s'.lock lk).locked = true → Owns s' c lk)
  cpu : ∀ lk c', c' ≠ c → (s'.lock lk).cpu = some c' → (s.lock lk).cpu = some c'
  spin : ∀ lk, (s'.cpu c).pc = .spin lk → ¬ s'.holding c lk

def Beside (s t : State C P K) (c : C) : Prop := t.lock = s.lock ∧ ∀ c', c' ≠ c → t.cpu c' = s.cpu c'

theorem Beside.refl : Beside s s c := ⟨rfl, fun _ _ => rfl⟩

theorem Beside.trans {u : State C P K} (h : Beside s t c) (h' : Beside t u c) : Beside s u c :=
  ⟨h'.1.trans h.1, fun c' hne => (h'.2 c' hne).trans (h.2 c' hne)⟩

namespace Effect

theorem of_beside (h : Beside s s' c) (hold : (s.cpu c).pc.moving = none)
    (hspin : ∀ lk, (s'.cpu c).pc = .spin lk → ¬ s'.holding c lk) : Effect s s' c where
  others := h.2
  lock lk := .inl ⟨congrFun h.1 lk, by simp [hold]⟩
  cpu lk c' _ hc' := h.1 ▸ hc'
  spin := hspin

theorem of_idle (h : Beside s s' c) (hold : (s.cpu c).pc.moving = none) (hpc : (s'.cpu c).pc = .idle) :
    Effect s s' c :=
  of_beside h hold (by simp [hpc])

end Effect

section

variable [DecidableEq C]

theorem beside_setCpu (v : Cpu P K) : Beside s (s.setCpu c v) c := ⟨rfl, fun _ hne => update_of_ne hne ..⟩

variable [DecidableEq P]

namespace Effect

theorem acquire (ht : Beside s t c) (hold : (s.cpu c).pc.moving = none) (h : t.acquire c lk = some s') :
    Effect s s' c := by
  unfold State.acquire at h
  simp only at h
  split_ifs at h with hh
  cases h
  refine of_beside (ht.trans ⟨rfl, fun c' hne => ?_⟩) hold fun lk' hpc => ?_
  · simp [State.goto, State.pushOff, State.setCpu, hne]
  · simp only [State.goto, State.setCpu, update_self, Pc.spin.injEq] at hpc
    exact hpc ▸ hh

theorem popOff (ht : Beside s t c) (hold : (s.cpu c).pc.moving = none) (hpc : (t.cpu c).pc = .idle)
    (h : t.popOff c = some s') : Effect s s' c := by
  obtain rfl := popOff_eq h
  refine of_idle (ht.trans ⟨settle_lock, fun c' hne => ?_⟩) hold ?_
  · rw [settle_cpu]
    exact update_of_ne hne ..
  · rw [settle_cpu, cpu_setCpu]
    exact hpc

variable [DecidableEq K]

theorem of_setLock {l : Spinlock C} {pc : Pc P K} (h : Beside s t c)
    (hold : ∀ lk', lk' ≠ lk → (s.cpu c).pc.moving ≠ some lk')
    (hown : l.locked = true → l.cpu = some c ∨ pc.moving = some lk)
    (hcpu : ∀ c', c' ≠ c → l.cpu = some c' → (s.lock lk).cpu = some c') (hpc : ∀ lk', pc ≠ .spin lk') :
    Effect s ((t.setLock lk l).goto c pc) c where
  others c' hne := (update_of_ne hne ..).trans (h.2 c' hne)
  lock lk' := by
    by_cases he : lk' = lk
    · subst he
      refine .inr fun hl => ?_
      simp only [Owns, State.goto, State.setCpu, State.setLock, update_self] at hl ⊢
      exact hown hl
    · exact .inl ⟨(update_of_ne he ..).trans (congrFun h.1 lk'), hold lk' he⟩
  cpu lk' c' hne hc' := by
    by_cases he : lk' = lk
    · subst he
      exact hcpu c' hne (by simpa [State.goto, State.setCpu, State.setLock] using hc')
    · rw [← h.1]
      simpa [State.goto, State.setCpu, State.setLock, he] using hc'
  spin lk' hs := by
    simp only [State.goto, State.setCpu, update_self] at hs
    exact absurd hs (hpc lk')

theorem release (ht : Beside s t c) (hold : (s.cpu c).pc.moving = none) (h : t.release c lk = some s') :
    Effect s s' c := by
  unfold State.release at h
  split_ifs at h with hh
  cases h
  exact of_setLock ht (by simp [hold]) (fun _ => .inr rfl) (by simp) (by simp)

end Effect

variable [DecidableEq K]

theorem callStep_effect {op : Op P K} (hidle : (s.cpu c).pc = .idle) (hstep : callStep s c op = some s') :
    Effect s s' c := by
  have hold : (s.cpu c).pc.moving = none := by rw [hidle]; rfl
  cases op with
  | acquire lk => exact .acquire .refl hold hstep
  | release lk => exact .release .refl hold hstep
  | popOff =>
    simp only [callStep] at hstep
    split_ifs at hstep
    exact .popOff (beside_setCpu _) hold (by rw [cpu_setCpu]; exact hidle) hstep
  | pushOff =>
    cases hstep
    refine .of_idle ⟨rfl, fun c' hne => ?_⟩ hold ?_
    · simp [State.pushOff, State.setCpu, hne]
    · simp [State.pushOff, State.setCpu, Cpu.pushOff, hidle]
  | intr on =>
    simp only [callStep] at hstep
    split_ifs at hstep
    cases hstep
    exact .of_idle (beside_setCpu _) hold (by rw [cpu_setCpu]; exact hidle)
  | wake q =>
    simp only [callStep] at hstep
    split_ifs at hstep
    cases hstep
    exact .of_idle ⟨rfl, fun _ _ => rfl⟩ hold hidle
  | _ => cases hstep

theorem procStep_effect {op : Op P K} {p : P} (hidle : (s.cpu c).pc = .idle)
    (hstep : procStep s c p op = some s') : Effect s s' c := by
  have hold : (s.cpu c).pc.moving = none := by rw [hidle]; rfl
  unfold procStep at hstep
  split at hstep
  case h_6 => exact callStep_effect hidle hstep
  all_goals split_ifs at hstep
  · exact callStep_effect hidle hstep
  all_goals cases hstep
  · exact .of_idle ⟨rfl, fun _ _ => rfl⟩ hold hidle
  · exact .of_idle ⟨rfl, fun _ _ => rfl⟩ hold hidle
  · exact .of_idle ⟨rfl, fun _ _ => rfl⟩ hold hidle
  · exact .of_idle (beside_setCpu _) hold (by rw [cpu_setCpu]; exact hidle)

theorem schedStep_effect {op : Op P K} {stage : Stage P} (hidle : (s.cpu c).pc = .idle)
    (hstep : schedStep s c stage op = some s') : Effect s s' c := by
  have hold : (s.cpu c).pc.moving = none := by rw [hidle]; rfl
  have hset : ∀ v : Cpu P K, v.pc = .idle → Effect s (s.setCpu c v) c := fun v hv =>
    .of_idle (beside_setCpu v) hold (by rw [cpu_setCpu]; exact hv)
  unfold schedStep at hstep
  split at hstep
  · cases hstep
    exact hset _ hidle
  · split_ifs at hstep
    cases hstep
    exact hset _ hidle
  · exact callStep_effect hidle hstep
  · exact .acquire (beside_setCpu _) hold hstep
  · cases hstep
    exact hset _ hidle
  · next p =>
    split_ifs at hstep
    cases hstep
    -- a process that has called `sched` goes on there
    refine .of_beside (beside_setCpu _) hold fun lk hpc => ?_
    rw [cpu_setCpu] at hpc
    cases hs : (s.proc p).saved <;> simp [hs] at hpc
  · split_ifs at hstep
    cases hstep
    exact hset _ hidle
  · cases hstep
    exact hset _ hidle
  · exact .release (beside_setCpu _) hold hstep
  · cases hstep

theorem step_effect {op : Op P K} (hstep : step s (c, op) = some s') : Effect s s' c := by
  dsimp only [step] at hstep
  split at hstep
  · next hidle =>
    split at hstep
    · exact procStep_effect hidle hstep
    · exact schedStep_effect hidle hstep
  · next hpc =>
    split at hstep
    · split_ifs at hstep
      cases hstep
      exact .of_setLock .refl (by simp [hpc, Pc.moving]) (fun _ => .inr rfl) (by simp) (by simp)
    · cases hstep
  · next hpc =>
    split at hstep
    · cases hstep
      refine .of_setLock .refl (fun lk' hne => ?_) (fun _ => .inl rfl) (fun c' hne he => ?_) (by simp)
      · simpa [hpc, Pc.moving] using hne.symm
      · exact absurd (Option.some.inj he).symm hne
    · cases hstep
  · next hpc =>
    split at hstep
    · cases hstep
      refine .of_setLock .refl (fun lk' hne => ?_) (by simp) (by simp) (by simp)
      simpa [hpc, Pc.moving] using hne.symm
    · cases hstep
  · next hpc =>
    split at hstep
    · exact .popOff (beside_setCpu _) (by rw [hpc]; rfl) (congrArg Cpu.pc (cpu_setCpu _)) hstep
    · cases hstep
  · next hpc =>
    split at hstep
    · cases hstep
      exact .of_idle (beside_setCpu _) (by rw [hpc]; rfl) (by rw [cpu_setCpu])
    · cases hstep

end

/-! ## Runs -/

/-- A lock that is taken has an owner, and nobody waits for a lock of their own. -/
structure Taken (s : State C P K) : Prop where
  owner : ∀ lk, (s.lock lk).locked = true → ∃ c, Owns s c lk
  spin : ∀ c lk, (s.cpu c).pc = .spin lk → ¬ s.holding c lk

variable [DecidableEq C] [Fintype P] [Fintype K]

theorem Inv.holding (h : Inv s) (hcpu : (s.lock lk).cpu = some c) : s.holding c lk := by
  refine ⟨?_, hcpu⟩
  by_contra hl
  rw [h.free lk (Bool.eq_false_iff.2 hl)] at hcpu
  cases hcpu

theorem Taken.step (h : Taken s) (hinv : Inv s) (he : Effect s s' c) : Taken s' where
  owner lk hl := by
    rcases he.lock lk with ⟨hlock, hmove⟩ | hown
    · obtain ⟨c₀, hc₀⟩ := h.owner lk (hlock ▸ hl)
      refine ⟨c₀, hc₀.imp (hlock ▸ ·) fun hm => ?_⟩
      rw [he.others c₀ fun hc => hmove (hc ▸ hm)]
      exact hm
    · exact ⟨c, hown hl⟩
  spin c' lk hpc := by
    by_cases hc : c' = c
    · subst hc
      exact he.spin lk hpc
    · rw [he.others c' hc] at hpc
      exact fun hhold => h.spin c' lk hpc (hinv.holding (he.cpu lk c' hc hhold.2))

namespace Inv

theorem locked (h : Inv s) (ho : Owns s c lk) : (s.lock lk).locked = true := by
  rcases ho with hcpu | hmove
  · exact (h.holding hcpu).1
  · exact ((h.cpu c).moving lk hmove).1

theorem owner_unique (h : Inv s) {c' : C} (ho : Owns s c lk) (ho' : Owns s c' lk) : c = c' := by
  rcases ho with hcpu | hmove
  · rcases ho' with hcpu' | hmove'
    · exact Option.some.inj (hcpu.symm.trans hcpu')
    · have hnone := ((h.cpu c').moving lk hmove').2
      rw [hcpu] at hnone
      cases hnone
  · rcases ho' with hcpu' | hmove'
    · have hnone := ((h.cpu c).moving lk hmove).2
      rw [hcpu'] at hnone
      cases hnone
    · exact h.single c c' lk hmove hmove'

theorem noff_ne_zero (h : Inv s) (ho : Owns s c lk) : (s.cpu c).noff ≠ 0 := by
  refine (h.cpu c).count.ne_zero ?_
  rcases ho with hcpu | hmove
  · have hle : weight c (s.lock lk) ≤ held s c :=
      Finset.single_le_sum (f := fun lk => weight c (s.lock lk)) (fun _ _ => Nat.zero_le _) (Finset.mem_univ lk)
    rw [weight_self hcpu] at hle
    omega
  · have hpend : (s.cpu c).pc.pending = 1 := by
      cases hpc : (s.cpu c).pc <;> rw [hpc] at hmove <;> first | rfl | cases hmove
    rw [Cpu.unmatched, hpend]
    omega

end Inv

variable [DecidableEq P] [DecidableEq K]

theorem taken_of_reach (ready : P → Bool) (h : Reach step (fun s _ => s.Small) (init (C := C) (K := K) ready) s) :
    Inv s ∧ Taken s := by
  have htaken : Taken (init (C := C) (K := K) ready) := by
    refine ⟨fun lk hl => ?_, fun c lk hpc => ?_⟩
    · cases hl
    · cases hpc
  exact h.inv (I := fun s => Inv s ∧ Taken s) ⟨inv_init ready, htaken⟩ fun _ _ _ hs hsmall hstep =>
    ⟨(hs.1.step hsmall hstep).inv, hs.2.step hs.1 (step_effect hstep)⟩

theorem Inv.pop_ne_none (h : Inv s) (hpc : (s.cpu c).pc = .pop) : Spin.step s (c, .pop) ≠ none := by
  have hcount := (h.cpu c).count
  have hnest : 0 < held s c + (s.cpu c).unmatched := by
    rw [Cpu.unmatched, hpc]
    exact Nat.succ_pos _
  have hintr := (h.cpu c).off (hcount.ne_zero hnest)
  have hnoff : ¬ (s.cpu c).noff < 1 := by
    rw [Int32.lt_iff_toInt_lt, hcount.toInt]
    change ¬ _ < (1 : ℤ)
    omega
  simp [Spin.step, hpc, State.popOff, State.goto, State.setCpu, Cpu.popOff, hintr, hnoff]

/-- **Spinlocks exclude.** In every run that does not nest too deep for an `int` a lock is taken if and only if a CPU
owns it, which is one CPU with its interrupts off. A CPU that is in `acquire`, `release` or `sched` goes on unless it
waits for another one, and the scheduler can lock every process and unlock the one it comes back from. -/
theorem spinlock_excludes (ready : P → Bool) (h : Reach step (fun s _ => s.Small) (init (C := C) (K := K) ready) s) :
    (∀ lk, (s.lock lk).locked = true ↔ ∃ c, Owns s c lk) ∧
    (∀ lk c, Owns s c lk → (s.cpu c).intr = false ∧ ∀ c', Owns s c' lk → c' = c) ∧
    (∀ c, (s.cpu c).pc ≠ .idle → (∀ op, step s (c, op) = none) →
      ∃ lk c', (s.cpu c).pc = .spin lk ∧ c' ≠ c ∧ Owns s c' lk) ∧
    ∀ c p, (s.cpu c).pc = .idle → (s.cpu c).cur = none →
      ((s.cpu c).stage = .loop → step s (c, .pick p) ≠ none) ∧
      ((s.cpu c).stage = .patched p → step s (c, .unlock) ≠ none) := by
  obtain ⟨hinv, ht⟩ := taken_of_reach ready h
  refine ⟨fun lk => ⟨ht.owner lk, fun ⟨c, ho⟩ => hinv.locked ho⟩, fun lk c ho =>
    ⟨(hinv.cpu c).off (hinv.noff_ne_zero ho), fun c' ho' => hinv.owner_unique ho' ho⟩, fun c hne hstuck => ?_,
    fun c p hidle hcur => ⟨fun hstage => ?_, fun hstage => ?_⟩⟩
  · cases hpc : (s.cpu c).pc with
    | idle => exact absurd hpc hne
    | spin lk =>
      have hl : (s.lock lk).locked = true := by
        by_contra hl
        simpa [step, hpc, hl] using hstuck .swap
      obtain ⟨c', ho⟩ := ht.owner lk hl
      refine ⟨lk, c', rfl, ?_, ho⟩
      rintro rfl
      rcases ho with hcpu | hmove
      · exact ht.spin c' lk hpc ⟨hl, hcpu⟩
      · rw [hpc] at hmove
        cases hmove
    | took lk => simpa [step, hpc] using hstuck .record
    | drop lk => simpa [step, hpc] using hstuck .clear
    | pop => exact absurd (hstuck .pop) (hinv.pop_ne_none hpc)
    | restore b => simpa [step, hpc] using hstuck .restore
  · have hat := (hinv.cpu c).sched hcur
    rw [hstage] at hat
    have h0 : (s.cpu c).noff = 0 := by simpa [hidle] using hat.2
    have hfree : (s.lock (.proc p)).cpu ≠ some c := fun hcpu => hinv.noff_ne_zero (.inl hcpu) h0
    simp [step, hidle, hcur, hstage, schedStep, State.acquire, State.holding, State.pushOff, State.setCpu, hfree]
  · have hat := (hinv.cpu c).sched hcur
    rw [hstage] at hat
    have hhold : (s.lock (.proc p)).locked = true ∧ (s.lock (.proc p)).cpu = some c := hinv.holding hat.2.2
    simp [step, hidle, hcur, hstage, schedStep, State.release, State.holding, State.setCpu, hhold]

theorem spinlock_excludes_two : ∃ s : State (Fin 2) (Fin 2) Unit,
    Reach step (fun s _ => s.Small) (init fun _ => true) s ∧ Owns s 0 (.proc 0) ∧ ∀ c, Owns s c (.proc 0) → c = 0 := by
  have hrun : (execIf step (fun s _ => s.Small) (init fun _ => true) [(0, .intrOn), (1, .intrOn), (0, .intrOff),
      (1, .intrOff), (0, .pick 0), (1, .pick 0), (0, .swap)]).any (fun s : State (Fin 2) (Fin 2) Unit =>
        decide ((s.cpu 0).pc.moving = some (.proc 0))) = true := by
    decide +kernel
  obtain ⟨s, hreach, hat⟩ := (Option.any_eq_true _ _).1 hrun
  have hreach := Reach.of_execIf hreach
  have ho : Owns s 0 (.proc 0) := .inr (of_decide_eq_true hat)
  exact ⟨s, hreach, ho, ((spinlock_excludes _ hreach).2.1 _ 0 ho).2⟩

end Xv6.Spin

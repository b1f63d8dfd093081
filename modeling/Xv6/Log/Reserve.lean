import Xv6.Log.Ops

/-!
# Log space

`begin_op` admits an operation when `lh.n + (outstanding + 1) * MAXOPBLOCKS ≤ LOGSIZE`; `log_write`
panics when `lh.n` is `LOGSIZE` or `log.size - 1`; `mkfs` writes `nlog = LOGSIZE`, header included.
So the log holds `LOGSIZE - 1` blocks while `begin_op` reserves `LOGSIZE`.

* **`reservation_within`**: while the operations of a transaction have logged at most
  `LOGSIZE - 2` blocks at every `log_write`, none panics and `write_log` stays in the log region.
* **`reservation_insufficient`**: three operations of `MAXOPBLOCKS` blocks each reach the panic.
-/

namespace Xv6.Log

open Runs

variable {P : Type} [DecidableEq P]

/-- Every operation has logged at most `MAXOPBLOCKS` different blocks. -/
def OpsWithin (s : State P) : Prop :=
  ∀ o ∈ s.ops, (o.logged.map Prod.snd).toFinset.card ≤ maxOpBlocks

instance (s : State P) : Decidable (OpsWithin s) := inferInstanceAs (Decidable (∀ _ ∈ _, _))

/-- `log_write` has not panicked for lack of space, and the log data block `write_log` is about to
write lies in the log region, after the header. -/
def Reserved (g : Geometry) (s : State P) : Prop :=
  s.halt ≠ some .tooBig ∧ ∀ p tail, s.pc p = .commit (.writeLog tail) → tail < s.lh.n →
    g.start + 1 ≤ g.start + tail + 1 ∧ g.start + tail + 1 < g.start + g.size

/-- The number of different blocks logged by the operations that began since the last commit. -/
def State.used (s : State P) : ℕ := s.logged.toFinset.card

/-- When `log_write` is entered, and when it takes the lock to add a block that is not logged yet,
at most `LOGSIZE - 2` blocks have been logged since the last commit. -/
def Within (s : State P) : Act P → Prop
  | .logWrite _ _ => s.used + 2 ≤ logSize
  | .run p =>
    match s.pc p with
    | .logging b => b ∈ s.logged ∨ s.used + 2 ≤ logSize
    | _ => True
  | _ => True

instance (s : State P) (a : Act P) : Decidable (Within s a) := by
  unfold Within
  split
  · infer_instance
  · split <;> infer_instance
  · infer_instance

variable [Fintype P] {g : Geometry} {s s' : State P} {p : P}

/-- **`lh.n` is the number of different blocks logged since the last commit**, while an operation
runs. -/
theorem n_eq_card (h : Inv s) (hp : s.kind p = .op) : s.lh.n = s.used := by
  have hno := h.not_commit (h.not_committing hp)
  have hset : s.lh.block.toFinset = s.logged.toFinset := by
    ext b
    rw [List.mem_toFinset, List.mem_toFinset]
    exact h.lists (fun q => hno q true) b
  rw [LogHeader.n, State.used, ← hset, List.toFinset_card_of_nodup h.nodup]

/-- **`log_write` panics for lack of space exactly when `LOGSIZE - 1` blocks are logged.** -/
theorem logWrite_tooBig_iff (hg : g.size = logSize) (h : Inv s) (hh : s.halt = none)
    (hp : s.pc p = .inOp) (b : ℕ) :
    (s.logWrite g p b).halt = some .tooBig ↔ logSize ≤ s.used + 1 := by
  have hn := n_eq_card h (p := p) (by rw [State.kind, hp]; rfl)
  unfold State.logWrite
  split_ifs with h1 h2
  · rw [hg] at h1
    exact iff_of_true rfl (by omega)
  · rw [hg] at h1
    exact iff_of_false (by simp) (by omega)
  · rw [hg] at h1
    exact iff_of_false (by simp [State.goto, hh]) (by omega)

/-- What a run that stays within the space keeps. -/
structure Room (s : State P) : Prop extends Inv s where
  room : s.lh.n + 1 ≤ logSize
  going : s.halt ≠ some .tooBig

namespace Room

theorem init : Room (State.init P) := ⟨Inv.init, by change 0 + 1 ≤ logSize; decide, nofun⟩

theorem congr (h : Room s) (hi : Inv s') (hl : s'.lh.n ≤ s.lh.n) (hh : s'.halt = s.halt) :
    Room s' :=
  ⟨hi, (Nat.add_le_add_right hl 1).trans h.room, hh ▸ h.going⟩

theorem logWrite (hg : g.size = logSize) (h : Room s) (hh : s.halt = none) (hp : s.pc p = .inOp)
    {b : ℕ} (hw : s.used + 2 ≤ logSize) : Room (s.logWrite g p b) := by
  refine ⟨h.toInv.logWrite g hp b, ?_, fun hbig => ?_⟩
  · have := h.room
    unfold State.logWrite
    split_ifs <;> exact this
  · have := (logWrite_tooBig_iff hg h.toInv hh hp b).1 hbig
    omega

theorem logAppend (h : Room s) {b : ℕ} (hp : s.pc p = .logging b)
    (hw : b ∈ s.logged ∨ s.used + 2 ≤ logSize) : Room (s.logAppend p b) := by
  have hk : s.kind p = .op := by rw [State.kind, hp]; rfl
  refine ⟨h.toInv.logAppend hp, ?_, ?_⟩
  · have hroom := h.room
    unfold State.logAppend
    split_ifs with hb
    · exact hroom
    · -- a block that `lh` does not list has not been logged, so there is room for it
      have hno := h.not_commit (h.not_committing hk)
      have hlog := hw.resolve_left fun hmem => hb ((h.lists (fun q => hno q true) b).2 hmem)
      have hn := n_eq_card h.toInv hk
      cases hpush : s.lh.push b with
      | none => exact hroom
      | some lh =>
        change lh.block.length + 1 ≤ _
        rw [(LogHeader.push_eq_some hpush).2, List.length_append, List.length_singleton]
        rw [LogHeader.n] at hn
        omega
  · unfold State.logAppend
    split_ifs
    · exact h.going
    · cases s.lh.push b with
      | none => simp
      | some lh => exact h.going

theorem commit (h : Room s) {c : Phase} (hp : s.pc p = .commit c) : Room (s.commit p c) := by
  refine h.congr (h.toInv.commit hp) ?_ ?_ <;> cases c
  case refine_1.start | refine_1.writeLog | refine_1.installTrans =>
    rw [State.commit]; split_ifs <;> exact le_rfl
  case refine_1.clear => exact Nat.zero_le _
  case refine_1.writeHead | refine_1.eraseHead | refine_1.finish => exact le_rfl
  case refine_2.start | refine_2.writeLog | refine_2.installTrans =>
    rw [State.commit]; split_ifs <;> rfl
  case refine_2.clear | refine_2.writeHead | refine_2.eraseHead | refine_2.finish => rfl

theorem step (hg : g.size = logSize) (h : Room s) {a : Act P} (hw : Within s a)
    (hs : Log.step g s a = some s') : Room s' := by
  have hi := h.toInv.step hs
  cases a with
  | beginOp p =>
    rw [Log.step, Option.ite_none_right_eq_some] at hs
    obtain ⟨-, hs⟩ := hs
    cases hs
    exact h.congr hi le_rfl rfl
  | logWrite p b =>
    rw [Log.step, Option.ite_none_right_eq_some] at hs
    obtain ⟨⟨hh, hp, -⟩, hs⟩ := hs
    cases hs
    exact h.logWrite hg hh hp hw
  | endOp p =>
    rw [Log.step, Option.ite_none_right_eq_some] at hs
    obtain ⟨⟨-, hp⟩, hs⟩ := hs
    cases hs
    have hcom := h.not_committing (p := p) (by rw [State.kind, hp]; rfl)
    refine h.congr hi ?_ ?_ <;> unfold State.endOp <;>
      simp only [hcom, Bool.false_eq_true, if_false] <;> split_ifs <;> rfl
  | kill p =>
    rw [Log.step, Option.ite_none_right_eq_some] at hs
    obtain ⟨-, hs⟩ := hs
    cases hs
    exact h.congr hi le_rfl rfl
  | run p =>
    rw [Log.step, Option.ite_none_right_eq_some] at hs
    obtain ⟨-, hs⟩ := hs
    split at hs
    · cases hs
      refine h.congr hi ?_ ?_ <;> unfold State.beginOp <;> split_ifs <;> rfl
    · rename_i b hp
      cases hs
      exact h.logAppend hp (by simpa [Within, hp] using hw)
    · cases hs; exact h.commit ‹_›
    · cases hs

end Room

/-- **Log reservation within the space.** With the log `mkfs` lays out, in every run in which each
`log_write` finds at most `LOGSIZE - 2` blocks logged since the last commit, no `log_write` panics
for lack of space and every log data block `write_log` writes lies in the log region. -/
theorem reservation_within (hg : g.size = logSize)
    (h : Reach (step g) Within (State.init P) s) : Reserved g s := by
  have hr : Room s := h.inv Room.init fun _ _ _ hi hw hs => hi.step hg hw hs
  refine ⟨hr.going, fun p tail _ htail => ?_⟩
  have := hr.room
  rw [hg]
  omega

/-- Two operations log a block each, and the second one to end commits both. -/
def pair : List (Act (Fin 2)) :=
  [.beginOp 0, .run 0, .beginOp 1, .run 1, .logWrite 0 7, .logWrite 1 8, .run 1, .run 0, .endOp 0, .endOp 1,
    .run 1]

theorem reservation_within_pair : ∃ s, execIf (step mkfsGeometry) Within (State.init (Fin 2)) pair = some s ∧
    s.pc 1 = .commit (.writeLog 0) ∧ s.lh.n = 2 ∧ Reserved mkfsGeometry s := by
  have hrun : (execIf (step mkfsGeometry) Within (State.init (Fin 2)) pair).any
      (fun s => s.pc 1 = .commit (.writeLog 0) ∧ s.lh.n = 2) = true := by decide +kernel
  obtain ⟨s, hs, hend⟩ := (Option.any_eq_true _ _).1 hrun
  obtain ⟨hpc, hn⟩ := of_decide_eq_true hend
  exact ⟨s, hs, hpc, hn, reservation_within rfl (.of_execIf hs)⟩

/-- Three operations are admitted together; they log the blocks `0`, …, `28`, ten each at most, and
the third calls `log_write` for its tenth block. -/
def three : List (Act (Fin 3)) :=
  [.beginOp 0, .run 0, .beginOp 1, .run 1, .beginOp 2, .run 2] ++
    ((List.range 10).flatMap fun b => [.logWrite 0 b, .run 0]) ++
    ((List.range 10).flatMap fun b => [.logWrite 1 (10 + b), .run 1]) ++
    ((List.range 9).flatMap fun b => [.logWrite 2 (20 + b), .run 2]) ++ [.logWrite 2 29]

/-- **The reservation is not sufficient.** -/
theorem reservation_insufficient : ¬ ∀ s : State (Fin 3),
    Reach (step mkfsGeometry) any (State.init (Fin 3)) s → OpsWithin s →
      Reserved mkfsGeometry s := by
  intro hall
  have h : (exec (step mkfsGeometry) (State.init (Fin 3)) three).map
      (fun s => (s.halt, decide (OpsWithin s))) = some (some .tooBig, true) := by decide +kernel
  obtain ⟨s, hs, he⟩ := Option.map_eq_some_iff.1 h
  obtain ⟨hhalt, hops⟩ := Prod.ext_iff.1 he
  exact (hall s (.of_exec (fun _ _ _ => trivial) hs) (of_decide_eq_true hops)).1 hhalt

end Xv6.Log

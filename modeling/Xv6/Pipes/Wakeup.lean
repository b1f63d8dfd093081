import Xv6.Pipes.Fifo

/-!
# Who sleeps on a pipe

A reader sleeps while the buffer is empty and the write end is open, a writer while the buffer is full and the read
end is open. A process uses an end of the pipe that it has open, so an end is closed when no call for it is under
way and none comes after it.

`pipewrite` returns from the middle of its loop when its process is killed, and calls no `wakeup` then: a byte it
has stored since it took the lock is not told to the readers.

* `Proper`: processes use the ends they have open. `Ends`: so nobody reads when the read end is closed.
* `Patient`: no killed process gives up after it has stored something.
* **`no_stranded_sleeper`**: in runs with both, nobody sleeps for nothing. `reader_stranded`: a run without.
-/

namespace Xv6.Pipes

open Monitor Window Runs

/-! ## The ends of a pipe -/

/-- The end a call uses: `true` for the write end. -/
def Pc.uses : Pc → Option Bool
  | .writeTest .. | .writeSleep .. | .writeWake _ | .writeLeave _ => some true
  | .readTest .. | .readCopy .. | .readWake .. | .readLeave .. => some false
  | .closeSet _ | .closeWake _ | .closeLeave => none

def Pc.closes : Pc → Option Bool
  | .closeSet writable => some writable
  | _ => none

def Pipe.isOpen (d : Pipe) (writable : Bool) : Bool := if writable then d.writeopen else d.readopen

section

variable {P : Type} [DecidableEq P] {procs : List P} {s s' : State P Pipe Pc Chan Ret} {e : Ev P Pc}

def Unused (s : State P Pipe Pc Chan Ret) (w : Bool) : Prop := ∀ p, (s.pos p).busy.bind Pc.uses ≠ some w

def Kept (s : State P Pipe Pc Chan Ret) (w : Bool) : Prop := ∀ p, (s.pos p).busy.bind Pc.closes ≠ some w

/-- **Processes use the ends they have open**, and the last one closes an end. -/
def Proper (s : State P Pipe Pc Chan Ret) : Ev P Pc → Prop
  | .call _ l => l.Entry ∧ (∀ w, l.uses = some w → s.data.isOpen w = true ∧ Kept s w) ∧
      ∀ w, l.closes = some w → s.data.isOpen w = true ∧ Kept s w ∧ Unused s w
  | _ => True

/-- A writer has more to store, and has stored a byte since it took the lock. -/
def Pc.midway : Pc → Bool
  | .writeTest _ n i stored => decide (i < n) && stored
  | _ => false

/-- **A killed process does not give up** in `pipewrite` when it has stored a byte since it took the lock. -/
def Patient (s : State P Pipe Pc Chan Ret) : Ev P Pc → Prop
  | .run p => (s.pos p).inside.any Pc.midway = true → s.data.Full → s.killed p = false
  | _ => True

/-- **An end in use is open**, and nobody is about to close it. -/
def EndsOk (s : State P Pipe Pc Chan Ret) : Prop := ∀ w, ¬ Unused s w → s.data.isOpen w = true ∧ Kept s w

theorem uses_next {b : Bool} {l l' : Pc} {d : Pipe} (h : (act b l d).next = some l') :
    l'.uses = l.uses ∧ l'.closes = none := by
  cases l with
  | writeTest src n i stored =>
    simp only [act] at h
    split_ifs at h
    · cases h
    · cases h
      exact ⟨rfl, rfl⟩
    · split at h <;> cases h <;> exact ⟨rfl, rfl⟩
    · cases h
      exact ⟨rfl, rfl⟩
  | readTest dst n =>
    simp only [act] at h
    split_ifs at h <;> cases h <;> exact ⟨rfl, rfl⟩
  | readCopy dst n i =>
    simp only [act] at h
    split_ifs at h <;> cases h <;> exact ⟨rfl, rfl⟩
  | writeLeave n => cases h
  | readLeave n i => cases h
  | closeLeave => cases h
  | _ =>
    cases h
    exact ⟨rfl, rfl⟩

theorem isOpen_data {b : Bool} {l : Pc} {d d' : Pipe} (h : (act b l d).data = some d') {w : Bool}
    (hw : l.closes ≠ some w) : d'.isOpen w = d.isOpen w := by
  cases l with
  | writeTest src n i stored =>
    simp only [act] at h
    split_ifs at h
    · cases h
      rfl
    · cases h
    · split at h <;> cases h <;> cases w <;> rfl
    · cases h
      rfl
  | readTest dst n =>
    simp only [act] at h
    split_ifs at h <;> cases h <;> rfl
  | readCopy dst n i =>
    simp only [act] at h
    split_ifs at h <;> cases h <;> cases w <;> rfl
  | writeLeave n =>
    cases h
    rfl
  | readLeave n i =>
    cases h
    rfl
  | closeSet writable =>
    cases h
    have hne : writable ≠ w := fun he => hw (congrArg some he)
    cases writable <;> cases w <;> first | rfl | exact absurd rfl hne
  | closeLeave =>
    cases h
    unfold Pipe.free
    split_ifs
    · cases w <;> rfl
    · rfl
  | writeSleep src n i => cases h
  | writeWake n => cases h
  | readWake n i => cases h
  | closeWake writable => cases h

theorem EndsOk.keeps (h : EndsOk s) (hok : Proper s e) (hm : Moves (pipeCode procs) s e s') : EndsOk s' := by
  intro w hw
  simp only [Unused, not_forall, not_not] at hw
  obtain ⟨q, hq⟩ := hw
  -- the end was in use before, or the call has just begun
  have hbefore : (s.data.isOpen w = true ∧ Kept s w) ∧ (¬ Unused s w ∨ ∃ l, e = .call q l ∧ l.uses = some w) := by
    cases hm.turns q with
    | same hb =>
      rw [hb] at hq
      have hused : ¬ Unused s w := fun hno => hno q hq
      exact ⟨h w hused, .inl hused⟩
    | @call l he hb =>
      rw [hb] at hq
      rw [he] at hok
      exact ⟨hok.2.1 w hq, .inr ⟨l, he, hq⟩⟩
    | @next l l' he hp ha hb =>
      rw [hb, Option.bind_some, (uses_next ha).1] at hq
      have hused : ¬ Unused s w := fun hno => hno q (by rw [hp]; exact hq)
      exact ⟨h w hused, .inl hused⟩
    | left hb =>
      rw [hb] at hq
      cases hq
  obtain ⟨⟨hopen, hkept⟩, hcase⟩ := hbefore
  constructor
  · rcases hm.data with hd | ⟨p, l, -, hp, hd⟩ | ⟨k, hd⟩
    · rwa [hd]
    · rw [isOpen_data hd fun hc => hkept p (by rw [hp]; exact hc)]
      exact hopen
    · cases hd
  · intro p hp
    cases hm.turns p with
    | same hb =>
      rw [hb] at hp
      exact hkept p hp
    | @call l he hb =>
      rw [hb] at hp
      rcases hcase with hused | ⟨l', he', huse⟩
      · rw [he] at hok
        exact hused (hok.2.2 w hp).2.2
      · rw [he] at he'
        cases he'
        cases l with
        | closeSet w' => cases huse
        | _ => cases hp
    | next he hl ha hb =>
      rw [hb, Option.bind_some, (uses_next ha).2] at hp
      cases hp
    | left hb =>
      rw [hb] at hp
      cases hp

/-! ## Sleepers -/

def quiet : Chan → Pipe → Prop
  | .nread, d => d.nread = d.nwrite ∧ d.writeopen = true
  | .nwrite, d => d.Full ∧ d.readopen = true

/-- What a process has to wake up, from where it is. -/
def owes : Pc → Chan → Prop
  | .writeTest _ _ _ stored, c => c = .nread ∧ stored = true
  | .writeWake _, c => c = .nread
  | .readCopy _ _ i, c => c = .nwrite ∧ 0 < i
  | .readWake _ _, c => c = .nwrite
  | .closeWake w, c => c = if w then .nread else .nwrite
  | _, _ => False

def Waiting : Pc → Pipe → Prop
  | .writeSleep _ _ _, d => d.Full ∧ d.readopen = true
  | _, _ => True

def Allowed (s : State P Pipe Pc Chan Ret) (e : Ev P Pc) : Prop := Proper s e ∧ Patient s e

def Fit (procs : List P) (s : State P Pipe Pc Chan Ret) (e : Ev P Pc) : Prop :=
  Allowed s e ∧ EndsOk s ∧ Rests (pipeCode procs) s

section

omit [DecidableEq P]

theorem wakeup_outline : Outline (pipeCode procs) (Fit procs) (fun _ => True) (fun _ l => ∀ d, Waiting l d)
    (fun _ l d => Waiting l d) where
  call := by
    intro s p l hok d
    have hentry := hok.1.1.1
    cases l <;> trivial
  enter := fun _ _ d _ _ hk => hk d
  act := by
    intro s p l _ _ hj
    change Keeps _ _ _ _ _ (act (s.killed p) l s.data)
    cases l with
    | writeTest src n i stored =>
      simp only [act]
      split_ifs with hi hfull hend
      · trivial
      · exact ⟨hfull, Bool.eq_true_of_not_eq_false fun h => hend (.inl h)⟩
      · cases src i <;> trivial
      · trivial
    | readTest dst n =>
      simp only [act]
      split_ifs
      · trivial
      · exact ⟨trivial, fun _ => trivial⟩
      · trivial
    | readCopy dst n i =>
      simp only [act]
      split_ifs <;> trivial
    | writeSleep src n i => exact ⟨trivial, fun _ => trivial⟩
    | _ => trivial
  env := nofun

theorem nobody_nread (hends : EndsOk s) (hrest : Rests (pipeCode procs) s) (hclosed : s.data.readopen = false) :
    s.Nobody .nread := by
  intro q hq
  have hunused : Unused s false := by
    by_contra hused
    have hopen := (hends false hused).1
    rw [Pipe.isOpen, if_neg Bool.false_ne_true, hclosed] at hopen
    cases hopen
  have hl : ∃ l, (s.pos q).busy = some l ∧ (s.pos q = .doze .nread l ∨ s.pos q = .asleep .nread l) := by
    cases hp : s.pos q with
    | doze c l =>
      rw [hp] at hq
      cases hq
      exact ⟨l, rfl, .inl rfl⟩
    | asleep c l =>
      rw [hp] at hq
      cases hq
      exact ⟨l, rfl, .inr rfl⟩
    | _ =>
      rw [hp] at hq
      cases hq
  obtain ⟨l, hb, hpos⟩ := hl
  obtain ⟨b, k, d, hact⟩ := hrest q .nread l hpos
  have huses : l.uses = some false := by
    change act b k d = _ at hact
    cases k with
    | readTest dst n =>
      simp only [act] at hact
      split_ifs at hact
      cases hact
      rfl
    | writeTest src n i stored =>
      simp only [act] at hact
      split_ifs at hact
      split at hact <;> cases hact
    | readCopy dst n i =>
      simp only [act] at hact
      split_ifs at hact
    | _ => cases hact
  exact hunused q (by rw [hb]; exact huses)

end

omit [DecidableEq P] in
/-- **Every action tells those who sleep**, if the process is patient. -/
theorem pipe_telling (hprocs : ∀ p : P, p ∈ procs) :
    Telling (pipeCode procs) (Fit procs) (fun _ l d => Waiting l d) quiet owes where
  act := by
    intro s p l hok hp hj
    change Tells _ _ _ _ _ _ (act (s.killed p) l s.data)
    cases l with
    | writeTest src n i stored =>
      simp only [act]
      split_ifs with hi hfull hend
      · -- the process gives up: the read end is closed, or it was killed
        intro c hc
        rcases hc with hc | ⟨rfl, rfl⟩
        · exact .inl hc
        · rcases hend with hclosed | hkilled
          · exact .inr (nobody_nread hok.2.1 hok.2.2 hclosed)
          · have hmidway : (s.pos p).inside.any Pc.midway = true := by simp [hp, At.inside, Pc.midway, hi]
            have hpatient := hok.1.2 hmidway hfull
            rw [hkilled] at hpatient
            cases hpatient
      · rintro c hc ⟨rfl, -⟩
        exact absurd rfl hc
      · cases src i with
        | none =>
          rintro c (hc | ⟨rfl, -⟩)
          · exact .inl hc
          · exact .inr rfl
        | some ch =>
          rintro c (hc | ⟨rfl, -⟩)
          · cases c with
            | nread => exact .inr ⟨rfl, rfl⟩
            | nwrite => exact absurd hc.1 hfull
          · exact .inr ⟨rfl, rfl⟩
      · rintro c (hc | ⟨rfl, -⟩)
        · exact .inl hc
        · exact .inr rfl
    | writeSleep src n i => exact ⟨hprocs p, hj, by rintro _ ⟨⟩⟩
    | writeWake n =>
      intro c hc ho
      exact absurd ho hc
    | writeLeave n =>
      rintro c (hc | hc)
      · exact .inl hc
      · cases hc
    | readTest dst n =>
      simp only [act]
      split_ifs with hempty hkilled
      · rintro c (hc | hc)
        · exact .inl hc
        · cases hc
      · exact ⟨hprocs p, hempty, by rintro _ ⟨⟩⟩
      · rintro c (hc | hc)
        · exact .inl hc
        · cases hc
    | readCopy dst n i =>
      simp only [act]
      split_ifs with hi hempty hdst
      · rintro c (hc | ⟨rfl, -⟩)
        · exact .inl hc
        · exact .inr rfl
      · rintro c (hc | ⟨rfl, -⟩)
        · cases c with
          | nread => exact absurd hc.1 hempty
          | nwrite => exact .inr ⟨rfl, i.succ_pos⟩
        · exact .inr ⟨rfl, i.succ_pos⟩
      · rintro c (hc | ⟨rfl, -⟩)
        · cases c with
          | nread => exact absurd hc.1 hempty
          | nwrite => exact .inr rfl
        · exact .inr rfl
      · rintro c (hc | ⟨rfl, -⟩)
        · exact .inl hc
        · exact .inr rfl
    | readWake n i =>
      intro c hc ho
      exact absurd ho hc
    | readLeave n i =>
      rintro c (hc | hc)
      · exact .inl hc
      · cases hc
    | closeSet writable =>
      rintro c (hc | hc)
      · cases writable <;> cases c <;> first | exact .inl hc | exact .inr rfl
      · cases hc
    | closeWake writable =>
      intro c hc ho
      exact absurd ho hc
    | closeLeave =>
      rintro c (hc | hc)
      · refine .inl ?_
        unfold Pipe.free
        split_ifs
        · cases c <;> exact hc
        · exact hc
      · cases hc
  env := by intros; contradiction

/-- **Nobody sleeps for nothing.** While the lock of the pipe is free, no process sleeps on `&pi->nread` when there
are bytes or the write end is closed, and none on `&pi->nwrite` when there is room or the read end is closed. -/
theorem no_stranded_sleeper (hprocs : ∀ p : P, p ∈ procs) {data : Fin pipeSize → UInt8}
    (h : Reach (step (pipeCode procs)) Allowed (.start (.alloc data)) s) (hlock : s.lock = none) :
    (∀ p l, s.pos p = .asleep .nread l → s.data.buffered = [] ∧ s.data.writeopen = true) ∧
      ∀ p l, s.pos p = .asleep .nwrite l → s.data.buffered.length = pipeSize ∧ s.data.readopen = true := by
  have hfit : Reach (step (pipeCode procs)) (Fit procs) (.start (.alloc data)) s := by
    refine h.strengthen (I := fun s => EndsOk s ∧ Rests (pipeCode procs) s) ⟨?_, ?_⟩ ?_
    · exact fun w hw => absurd (fun p hp => by cases hp) hw
    · intro p c l hp
      rcases hp with hp | hp <;> cases hp
    · rintro s e s' ⟨hends, hrest⟩ hok hs
      have hm := moves_of_step hs
      exact ⟨hends.keeps hok.1 hm, hm.rests hrest⟩
  have hquiet := fun {q c} => (pipe_telling hprocs).quiet_of_reach wakeup_outline trivial hfit hlock (q := q) (c := c)
  constructor
  · intro p l hp
    rw [Pipe.buffered_eq_nil]
    exact hquiet (by rw [hp]; rfl)
  · intro p l hp
    rw [← Pipe.full_iff]
    exact hquiet (by rw [hp]; rfl)

end

/-! ## Two runs of two processes -/

instance : DecidablePred Pc.Entry := fun l => by
  cases l <;> unfold Pc.Entry <;> infer_instance

instance (s : State (Fin 2) Pipe Pc Chan Ret) (e : Ev (Fin 2) Pc) : Decidable (Proper s e) := by
  cases e <;> unfold Proper Kept Unused <;> infer_instance

instance (s : State (Fin 2) Pipe Pc Chan Ret) (e : Ev (Fin 2) Pc) : Decidable (Patient s e) := by
  cases e <;> unfold Patient <;> infer_instance

instance (s : State (Fin 2) Pipe Pc Chan Ret) (e : Ev (Fin 2) Pc) : Decidable (Allowed s e) :=
  inferInstanceAs (Decidable (_ ∧ _))

/-- Process `0` sleeps until there is a byte. -/
def readerSleeps : List (Ev (Fin 2) Pc) :=
  [.call 0 (piperead (fun _ => true) 1), .acquire 0, .run 0, .run 0]

def sleepsOn (s : State (Fin 2) Pipe Pc Chan Ret) (p : Fin 2) (c : Chan) : Bool :=
  match s.pos p with
  | .asleep c' _ => c' = c
  | _ => false

theorem no_stranded_sleeper_empty : ∃ s : State (Fin 2) Pipe Pc Chan Ret,
    Reach (step (pipeCode [0, 1])) Allowed (.start (.alloc fun _ => 0)) s ∧ s.lock = none ∧
      (∃ l, s.pos 0 = .asleep .nread l) ∧ s.data.buffered = [] := by
  have hrun : (execIf (step (pipeCode [0, 1])) Allowed (.start (.alloc fun _ => 0)) readerSleeps).any
      (fun s => s.lock = none && sleepsOn s 0 .nread) = true := by decide +kernel
  obtain ⟨s, hs, htest⟩ := (Option.any_eq_true _ _).1 hrun
  rw [Bool.and_eq_true, decide_eq_true_eq] at htest
  obtain ⟨l, hl⟩ : ∃ l, s.pos 0 = .asleep .nread l := by
    have := htest.2
    unfold sleepsOn at this
    split at this
    · next c' l hp => exact ⟨l, by rw [hp, of_decide_eq_true this]⟩
    · cases this
  exact ⟨s, .of_execIf hs, htest.1, ⟨l, hl⟩, ((no_stranded_sleeper (by decide) (.of_execIf hs) htest.1).1 0 l hl).1⟩

/-- Then process `1` writes 513 bytes and is killed meanwhile. -/
def writerKilled : List (Ev (Fin 2) Pc) :=
  readerSleeps ++ [.call 1 (pipewrite (fun _ => some 7) 513), .acquire 1, .kill 1] ++ List.replicate 513 (.run 1)

/-- **A reader sleeps although the buffer is full**: the writer was killed, and told nobody. -/
theorem reader_stranded : ∃ s : State (Fin 2) Pipe Pc Chan Ret,
    Reach (step (pipeCode [0, 1])) Proper (.start (.alloc fun _ => 0)) s ∧ s.lock = none ∧
      sleepsOn s 0 .nread = true ∧ s.data.buffered.length = pipeSize := by
  have hrun : (execIf (step (pipeCode [0, 1])) Proper (.start (.alloc fun _ => 0)) writerKilled).any
      (fun s => s.lock = none && (sleepsOn s 0 .nread && decide s.data.Full)) = true := by decide +kernel
  obtain ⟨s, hs, htest⟩ := (Option.any_eq_true _ _).1 hrun
  rw [Bool.and_eq_true, Bool.and_eq_true, decide_eq_true_eq, decide_eq_true_eq, Pipe.full_iff] at htest
  exact ⟨s, .of_execIf hs, htest⟩

end Xv6.Pipes

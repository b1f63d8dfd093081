import Xv6.Pipes.Code

/-!
# Pipes are queues

Readers and writers interleave in any way; their buffers are mapped.

* `Flow`: what was delivered, followed by what is in the buffer, is what was accepted.
* **`pipe_fifo`**: so it is in every run, the buffer never holds more than `PIPESIZE` bytes, and `piperead` returns
  `0` only at the end of the file.
-/

namespace Xv6.Pipes

open Monitor Window Runs

/-! ## The buffer -/

theorem pipeSize_dvd : pipeSize ∣ 2 ^ 32 := by decide

namespace Pipe

variable {d : Pipe}

theorem length_buffered : d.buffered.length = dist d.nread d.nwrite := length_slice

theorem buffered_eq_nil : d.buffered = [] ↔ d.nread = d.nwrite := by
  rw [← List.length_eq_zero_iff, length_buffered, dist_eq_zero]

theorem full_iff : d.Full ↔ d.buffered.length = pipeSize := by
  rw [length_buffered, dist_eq, Full, pipeSize]
  have hr := d.nread.toNat_lt
  have hw := d.nwrite.toNat_lt
  have h512 : (d.nread + 512).toNat = (d.nread.toNat + 512) % 2 ^ 32 := UInt32.toNat_add ..
  constructor
  · intro h
    rw [h, h512]
    omega
  · intro h
    apply UInt32.toNat_inj.1
    rw [h512]
    omega

theorem buffered_push (h : d.buffered.length < pipeSize) (ch : UInt8) :
    (d.push ch).buffered = d.buffered ++ [ch] := by
  rw [length_buffered] at h
  have hlt : dist d.nread d.nwrite + 1 < 2 ^ 32 := by
    simp only [pipeSize] at h
    omega
  exact slice_push pipeSize_dvd h hlt ch

theorem buffered_pop (h : d.nread ≠ d.nwrite) : d.buffered = d.front :: d.pop.buffered :=
  slice_pop pipeSize_dvd h

end Pipe

/-- **Nothing is lost, and nothing comes twice.** -/
structure Flow (d : Pipe) : Prop where
  flow : d.delivered ++ d.buffered = d.accepted
  le : d.buffered.length ≤ pipeSize

namespace Flow

variable {d : Pipe}

theorem alloc (data : Fin pipeSize → UInt8) : Flow (.alloc data) := by
  have hnil : (Pipe.alloc data).buffered = [] := slice_self ..
  refine ⟨?_, ?_⟩
  · rw [hnil]
    rfl
  · rw [hnil]
    decide

theorem push (h : Flow d) (hfull : ¬ d.Full) (ch : UInt8) : Flow (d.push ch) := by
  have hlt : d.buffered.length < pipeSize := by
    rw [Pipe.full_iff] at hfull
    have := h.le
    omega
  refine ⟨?_, ?_⟩
  · change d.delivered ++ (d.push ch).buffered = d.accepted ++ [ch]
    rw [Pipe.buffered_push hlt, ← List.append_assoc, h.flow]
  · rw [Pipe.buffered_push hlt, List.length_append]
    exact hlt

theorem pop (h : Flow d) (hne : d.nread ≠ d.nwrite) : Flow (d.pop.deliver d.front) := by
  have hpop := Pipe.buffered_pop hne
  refine ⟨?_, ?_⟩
  · change (d.delivered ++ [d.front]) ++ d.pop.buffered = d.accepted
    rw [List.append_assoc, List.singleton_append, ← hpop, h.flow]
  · change d.pop.buffered.length ≤ pipeSize
    have := h.le
    rw [hpop, List.length_cons] at this
    omega

theorem close (h : Flow d) (writable : Bool) : Flow (d.close writable) := by
  cases writable with
  | false => exact ⟨h.flow, h.le⟩
  | true => exact ⟨h.flow, h.le⟩

theorem free (h : Flow d) : Flow d.free := by
  unfold Pipe.free
  split_ifs
  · exact ⟨h.flow, h.le⟩
  · exact h

end Flow

/-! ## Calls with mapped buffers -/

def Pc.Mapped : Pc → Prop
  | .writeTest src _ _ _ => ∀ i, src i ≠ none
  | .writeSleep src _ _ => ∀ i, src i ≠ none
  | .readTest dst _ => ∀ i, dst i = true
  | .readCopy dst _ _ => ∀ i, dst i = true
  | _ => True

/-- What a reader knows while it has the lock: if it goes home with nothing, there is nothing to come. -/
def Pc.Knows : Pc → Pipe → Prop
  | .readCopy _ _ i, d => i = 0 → d.nread = d.nwrite → d.writeopen = false
  | .readWake n i, d | .readLeave n i, d => 0 < n → i = 0 → d.nread = d.nwrite ∧ d.writeopen = false
  | _, _ => True

section

variable {P : Type} [DecidableEq P] {procs : List P}

def MappedCalls (_ : State P Pipe Pc Chan Ret) : Ev P Pc → Prop
  | .call _ l => l.Entry ∧ l.Mapped
  | _ => True

theorem knows_of_entry {l : Pc} (hl : l.Entry ∨ ∃ src n i, l = .writeTest src n i false) (d : Pipe) : l.Knows d := by
  rcases hl with hl | ⟨src, n, i, rfl⟩
  · cases l <;> trivial
  · trivial

omit [DecidableEq P] in
/-- **The proof outline**: the buffer and the histories agree at every step. -/
theorem fifo_outline : Outline (pipeCode procs) MappedCalls Flow
    (fun _ l => l.Mapped ∧ (l.Entry ∨ ∃ src n i, l = .writeTest src n i false))
    (fun _ l d => Flow d ∧ l.Mapped ∧ l.Knows d) where
  call := fun s p l hok => ⟨hok.2, .inl hok.1⟩
  enter := fun p l d _ hd hk => ⟨hd, hk.1, knows_of_entry hk.2 d⟩
  act := by
    rintro s p l - - ⟨hd, hmap, hknow⟩
    change Keeps _ _ _ _ _ (act (s.killed p) l s.data)
    cases l with
    | writeTest src n i stored =>
      simp only [act]
      split_ifs with hi hfull hend
      · exact hd
      · exact ⟨hd, hmap, trivial⟩
      · cases hsrc : src i with
        | none => exact absurd hsrc (hmap i)
        | some ch => exact ⟨hd.push hfull ch, hmap, trivial⟩
      · exact ⟨hd, trivial, trivial⟩
    | writeSleep src n i => exact ⟨hd, hmap, .inr ⟨src, n, i, rfl⟩⟩
    | writeWake n => exact ⟨hd, trivial, trivial⟩
    | writeLeave n => exact hd
    | readTest dst n =>
      simp only [act]
      split_ifs with hempty hkilled
      · exact hd
      · exact ⟨hd, hmap, .inl trivial⟩
      · refine ⟨hd, hmap, fun _ he => ?_⟩
        by_contra hopen
        exact hempty ⟨he, Bool.eq_true_of_not_eq_false hopen⟩
    | readCopy dst n i =>
      simp only [act]
      split_ifs with hi hempty hdst
      · exact ⟨hd, trivial, fun _ h0 => ⟨hempty, hknow h0 hempty⟩⟩
      · exact ⟨hd.pop hempty, hmap, nofun⟩
      · exact absurd (hmap i) hdst
      · refine ⟨hd, trivial, fun hn h0 => absurd ?_ hi⟩
        rw [h0]
        exact hn
    | readWake n i => exact ⟨hd, trivial, hknow⟩
    | readLeave n i => exact hd
    | closeSet writable => exact ⟨hd.close writable, trivial, trivial⟩
    | closeWake writable => exact ⟨hd, trivial, trivial⟩
    | closeLeave => exact hd.free
  env := nofun

theorem holds_of_readZero {s s' : State P Pipe Pc Chan Ret} {p : P} {n : ℤ}
    (hs : step (pipeCode procs) s (.run p) = some s') (hp : s'.pos p = .out (some (.read n 0))) :
    s.pos p = .hold (.readLeave n 0) := by
  cases moves_of_step hs with
  | @leave _ l d r h ha =>
    rw [pos_put_same] at hp
    cases hp
    have hact : act (s.killed p) l s.data = .leave d (.read n 0) := ha
    cases l with
    | readLeave n' i =>
      cases hact
      exact h
    | writeTest src n' i stored =>
      simp only [act] at hact
      split_ifs at hact
      · cases hact
      · split at hact <;> cases hact
    | readTest dst n' =>
      simp only [act] at hact
      split_ifs at hact
      simp at hact
    | readCopy dst n' i =>
      simp only [act] at hact
      split_ifs at hact
    | _ => cases hact
  | _ =>
    rw [pos_put_same] at hp
    cases hp

/-- **Pipes are queues.** -/
theorem pipe_fifo {data : Fin pipeSize → UInt8} {s : State P Pipe Pc Chan Ret}
    (h : Reach (step (pipeCode procs)) MappedCalls (.start (.alloc data)) s) :
    s.data.delivered ++ s.data.buffered = s.data.accepted ∧ s.data.buffered.length ≤ pipeSize ∧
      ∀ p s', step (pipeCode procs) s (.run p) = some s' → ∀ n > 0, s'.pos p = .out (some (.read n 0)) →
        s.data.buffered = [] ∧ s.data.writeopen = false := by
  have hgood := fifo_outline.good_of_reach (.alloc data) h
  have hflow := hgood.data fun _ _ _ hj => hj.1
  refine ⟨hflow.flow, hflow.le, fun p s' hs n hn hp => ?_⟩
  have hpos := holds_of_readZero hs hp
  obtain ⟨-, -, hknow⟩ := hgood.held p (.readLeave n 0) (by rw [hpos]; rfl)
  rw [Pipe.buffered_eq_nil]
  exact hknow hn rfl

end

def twoBytes : List (Ev (Fin 2) Pc) :=
  [.call 0 (pipewrite (fun i => some (7 + UInt8.ofNat i)) 2), .acquire 0] ++ List.replicate 8 (.run 0) ++
    [.call 1 (piperead (fun _ => true) 5), .acquire 1] ++ List.replicate 9 (.run 1)

theorem twoBytes_mapped (s : State (Fin 2) Pipe Pc Chan Ret) : ∀ e ∈ twoBytes, MappedCalls s e := by
  intro e he
  simp only [twoBytes, List.mem_append, List.mem_cons, List.not_mem_nil, or_false, List.mem_replicate] at he
  rcases he with (((rfl | rfl) | ⟨-, rfl⟩) | rfl | rfl) | ⟨-, rfl⟩
  · exact ⟨⟨rfl, rfl⟩, fun i => by simp⟩
  · trivial
  · trivial
  · exact ⟨trivial, fun _ => rfl⟩
  · trivial
  · trivial

theorem pipe_fifo_two : ∃ s : State (Fin 2) Pipe Pc Chan Ret,
    Reach (step (pipeCode [0, 1])) MappedCalls (.start (.alloc fun _ => 0)) s ∧ s.data.delivered = [7, 8] ∧
      s.data.delivered ++ s.data.buffered = s.data.accepted := by
  have hrun : (exec (step (pipeCode [0, 1])) (.start (.alloc fun _ => 0)) twoBytes).any
      (fun s => decide (s.data.delivered = [7, 8])) = true := by decide +kernel
  obtain ⟨s, hs, hd⟩ := Reach.of_exec_any twoBytes_mapped hrun
  exact ⟨s, hs, of_decide_eq_true hd, (pipe_fifo hs).1⟩

end Xv6.Pipes

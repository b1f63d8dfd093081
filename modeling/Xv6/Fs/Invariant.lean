import Xv6.Fs.Rows
import Xv6.Icache.Invariant

/-!
# The invariant of the file system

What a process knows (`Local`), what is known of the inodes as a whole (`Shared`), and what both have to
do with the state.

* `BufOk`: the buffers a process holds, with their contents.
* `IcOk`: the inode cache protocol, run on the inodes of the disk blocks, and the inodes that are ahead
  of the disk.
* `LockOk`: what the holder of an inode's lock knows.
* `Inv`, `logic`: the invariant, and the proof outlines for it.
-/

namespace Xv6.Fs

open Function Bytes
open Bio (BufId)
open Icache (Ip Entry Facts PcOk)

/-- **What a process knows**: the contents of the buffers it holds; for each inode it has locked, the
number and, once the inode is loaded, how it stands and whether it is ahead of the disk; where it is
in the inode cache protocol; the block it has just allocated, with a flag that it is zeroed; and
whether it is in a transaction. -/
structure Local where
  buf : BufId → Option (ℕ × Block)
  lk : Ip → Option (ℕ × Option (Row × Bool))
  pc : Icache.Pc
  pend : Option (ℕ × Bool)
  op : Bool

/-- How the inodes stand, and which entries are ahead of the disk. -/
structure Shared where
  row : ℕ → Row
  dirty : Ip → Bool

namespace Local

variable (γ : Local)

def setBuf (h : BufId) (o : Option (ℕ × Block)) : Local := { γ with buf := update γ.buf h o }

def setLk (e : Ip) (o : Option (ℕ × Option (Row × Bool))) : Local :=
  { γ with lk := update γ.lk e o }

def goto (c : Icache.Pc) : Local := { γ with pc := c }

def setPend (o : Option (ℕ × Bool)) : Local := { γ with pend := o }

end Local

/-- The processes know the buffers they hold, and no block is in two of them. -/
structure BufOk (hold : BufId → Option (Pid × ℕ)) (blk : ℕ → Block)
    (buf : Pid → BufId → Option (ℕ × Block)) : Prop where
  known : ∀ p h b d, buf p h = some (b, d) ↔ hold h = some (p, b) ∧ blk b = d
  excl : ∀ h k p q b, hold h = some (p, b) → hold k = some (q, b) → h = k

def dinodeMap (L : Layout) (blk : ℕ → Block) (k : ℕ × ℕ) : Dinode :=
  if k.1 = rootDev ∧ k.2 < L.ninodes then dinodeAt L.toSuperblock blk k.2 else .fresh 0

def icOf (entry : Ip → Entry) (ilock : Ip → Option Pid) (mine : Pid → Ip → ℕ)
    (dinode : ℕ × ℕ → Dinode) (pc : Pid → Icache.Pc) (dirty : Ip → Bool) : Icache.State Pid :=
  ⟨entry, ilock, dinode, pc, none, mine, dirty⟩

structure IcOk (L : Layout) (entry : Ip → Entry) (ilock : Ip → Option Pid) (mine : Pid → Ip → ℕ)
    (dinode : ℕ × ℕ → Dinode) (pc : Pid → Icache.Pc) (G : Shared) : Prop where
  ic : Icache.Inv (icOf entry ilock mine dinode pc G.dirty)
  range : ∀ e, 0 < ∑ p, mine p e → (entry e).dev = rootDev ∧ (entry e).inum < L.ninodes
  few : ∀ p, ∑ e, mine p e ≤ maxRefs
  table : ∀ i, i < L.ninodes → dinode (rootDev, i) = (G.row i).din ∨
    ∃ e, G.dirty e = true ∧ (entry e).key = (rootDev, i)

/-- What the holders of the locks know: an inode they have loaded is allocated on disk. An inode
nobody has locked is complete. -/
structure LockOk (entry : Ip → Entry) (ilock : Ip → Option Pid) (dinode : ℕ × ℕ → Dinode)
    (lk : Pid → Ip → Option (ℕ × Option (Row × Bool))) (G : Shared) : Prop where
  holds : ∀ {p e i x}, lk p e = some (i, x) → ilock e = some p ∧ (entry e).key = (rootDev, i)
  known : ∀ {p e i r b}, lk p e = some (i, some (r, b)) → (entry e).valid = true ∧
    (entry e).din = r.din ∧ G.dirty e = b ∧ G.row i = r ∧ (dinode (rootDev, i)).type ≠ 0
  all : ∀ {p e}, ilock e = some p → ∃ i x, lk p e = some (i, x)
  rest : ∀ i, ((G.row i).loose = false ∧ (G.row i).dead = ∅) ∨ ∃ p e x, lk p e = some (i, some x)

structure Inv (L : Layout) (s : State) (g : Pid → Local) (G : Shared) : Prop where
  buf : BufOk s.hold s.blk fun p => (g p).buf
  ic : IcOk L s.entry s.ilock s.mine (dinodeMap L s.blk) (fun p => (g p).pc) G
  lock : LockOk s.entry s.ilock (dinodeMap L s.blk) (fun p => (g p).lk) G
  data : DataOk L s.blk s.stale G.row fun p => (g p).pend
  op : ∀ p, (g p).op = s.inOp p

/-- What a process has to make sure of before a command: it reads no block of the log, uses buffers
it holds, and changes them inside a transaction. -/
def pre (L : Layout) (p : Pid) (c : Cmd) (s : State) : Prop :=
  match c with
  | .bread b => b < L.logstart ∨ L.logstart + L.nlog ≤ b
  | .data h | .brelse h => (s.held p h).isSome
  | .setData h _ | .copyin h _ _ _ | .logWrite h => (s.held p h).isSome ∧ s.inOp p = true
  | _ => True

def logic (L : Layout) : Prog.Logic Pid Cmd State Local BufId Cmd.Ans :=
  ⟨handle, pre L, fun s g => ∃ G, Inv L s g G⟩

variable {L : Layout} {s s' : State} {g : Pid → Local} {G G' : Shared} {p : Pid} {γ : Local}
  {h : BufId} {b i : ℕ} {d : Block} {e : Ip}

theorem logic_handle : (logic L).handle = handle := rfl

theorem held_eq_some : s.held p h = some b ↔ s.hold h = some (p, b) := by
  unfold State.held
  cases hh : s.hold h with
  | none => simp
  | some x =>
    obtain ⟨q, c⟩ := x
    by_cases hq : q = p
    · simp [hq]
    · simp [hq]

namespace BufOk

variable {hold : BufId → Option (Pid × ℕ)} {blk : ℕ → Block} {buf : Pid → BufId → Option (ℕ × Block)}
  (hB : BufOk hold blk buf)

include hB

theorem give (ho : hold h = none) (hb : ∀ k, (hold k).map Prod.snd ≠ some b) :
    BufOk (update hold h (some (p, b))) blk
      (update buf p (update (buf p) h (some (b, blk b)))) := by
  refine ⟨fun q k c d => ?_, fun k l q r c hk hl => ?_⟩
  · have hq := hB.known q k c d
    by_cases hkh : k = h
    · subst hkh
      rw [ho] at hq
      by_cases hqp : q = p
      · subst hqp
        rw [update_self, update_self, update_self]
        simp only [Option.some.injEq, Prod.mk.injEq, true_and]
        exact and_congr_right fun e => by rw [e]
      · rw [update_of_ne hqp, update_self, hq]
        simp [Ne.symm hqp]
    · rw [update_of_ne hkh, ← hq]
      by_cases hqp : q = p
      · rw [hqp, update_self, update_of_ne hkh]
      · rw [update_of_ne hqp]
  · have hne : ∀ {m q}, hold m ≠ some (q, b) := fun {m q} hm => hb m (by rw [hm]; rfl)
    by_cases hkh : k = h <;> by_cases hlh : l = h
    · rw [hkh, hlh]
    · rw [hkh, update_self] at hk
      rw [update_of_ne hlh] at hl
      cases hk
      exact absurd hl hne
    · rw [hlh, update_self] at hl
      rw [update_of_ne hkh] at hk
      cases hl
      exact absurd hk hne
    · rw [update_of_ne hkh] at hk
      rw [update_of_ne hlh] at hl
      exact hB.excl k l q r c hk hl

theorem release (hb : buf p h = some (b, d)) :
    BufOk (update hold h none) blk (update buf p (update (buf p) h none)) := by
  have hp := ((hB.known p h b d).1 hb).1
  refine ⟨fun q k c d' => ?_, fun k l q r c hk hl => ?_⟩
  · have hq := hB.known q k c d'
    by_cases hkh : k = h
    · subst hkh
      rw [hp] at hq
      rw [update_self]
      by_cases hqp : q = p
      · rw [hqp, update_self, update_self]
        simp
      · rw [update_of_ne hqp, hq]
        simp [Ne.symm hqp]
    · rw [update_of_ne hkh, ← hq]
      by_cases hqp : q = p
      · rw [hqp, update_self, update_of_ne hkh]
      · rw [update_of_ne hqp]
  · obtain ⟨-, ⟨⟩⟩ | ⟨-, hk⟩ := Ledger.update_eq_some.1 hk
    obtain ⟨-, ⟨⟩⟩ | ⟨-, hl⟩ := Ledger.update_eq_some.1 hl
    exact hB.excl k l q r c hk hl

theorem write (hb : buf p h = some (b, d)) (d' : Block) :
    BufOk hold (update blk b d')
      (update buf p (update (buf p) h (some (b, d')))) := by
  have hp := ((hB.known p h b d).1 hb).1
  refine ⟨fun q k c x => ?_, hB.excl⟩
  have hq := hB.known q k c x
  by_cases hkh : k = h
  · subst hkh
    rw [hp] at hq ⊢
    by_cases hqp : q = p
    · subst hqp
      rw [update_self, update_self]
      simp only [Option.some.injEq, Prod.mk.injEq, true_and]
      exact and_congr_right fun e => by rw [← e, update_self]
    · rw [update_of_ne hqp, hq]
      simp [Ne.symm hqp]
  · have hc : hold k = some (q, c) → c ≠ b := fun hk e => by
      subst e
      exact hkh (hB.excl k h q p c hk hp)
    have : buf q k = some (c, x) ↔ hold k = some (q, c) ∧ update blk b d' c = x := by
      rw [hq]
      exact and_congr_right fun hk => by rw [update_of_ne (hc hk)]
    rw [← this]
    by_cases hqp : q = p
    · rw [hqp, update_self, update_of_ne hkh]
    · rw [update_of_ne hqp]

theorem change (hb : ∀ k, (hold k).map Prod.snd ≠ some b) (d' : Block) :
    BufOk hold (update blk b d') buf := by
  refine ⟨fun q k c x => ?_, hB.excl⟩
  rw [hB.known q k c x]
  refine and_congr_right fun hk => ?_
  have hne : c ≠ b := fun e => hb k (by rw [hk, e]; rfl)
  rw [update_of_ne hne]

end BufOk

/-! ## One process moves -/

theorem proj_update {α : Type} (f : Local → α) (g : Pid → Local) (p : Pid) (γ : Local) :
    (fun q => f (update g p γ q)) = update (fun q => f (g q)) p (f γ) := by
  funext q
  by_cases hq : q = p
  · rw [hq, update_self, update_self]
  · rw [update_of_ne hq, update_of_ne hq]

theorem Inv.of_update (hbuf : BufOk s'.hold s'.blk (update (fun q => (g q).buf) p γ.buf))
    (hic : IcOk L s'.entry s'.ilock s'.mine (dinodeMap L s'.blk)
      (update (fun q => (g q).pc) p γ.pc) G')
    (hlock : LockOk s'.entry s'.ilock (dinodeMap L s'.blk)
      (update (fun q => (g q).lk) p γ.lk) G')
    (hdata : DataOk L s'.blk s'.stale G'.row (update (fun q => (g q).pend) p γ.pend))
    (hop : update (fun q => (g q).op) p γ.op = s'.inOp) :
    Inv L s' (update g p γ) G' := by
  rw [← proj_update Local.buf] at hbuf
  rw [← proj_update Local.pc] at hic
  rw [← proj_update Local.lk] at hlock
  rw [← proj_update Local.pend] at hdata
  rw [← proj_update Local.op] at hop
  exact ⟨hbuf, hic, hlock, hdata, congrFun hop⟩

theorem update_same {α : Type} {f : Local → α} {x : α} (h : x = f (g p)) :
    update (fun q => f (g q)) p x = fun q => f (g q) := by
  rw [h]
  exact update_eq_self p _

theorem BufOk.keep {hold : BufId → Option (Pid × ℕ)} {blk : ℕ → Block} {x : BufId → Option (ℕ × Block)}
    (hB : BufOk hold blk fun q => (g q).buf) (h : x = (g p).buf) :
    BufOk hold blk (update (fun q => (g q).buf) p x) := by
  rw [update_same h]
  exact hB

theorem IcOk.keep {entry : Ip → Entry} {ilock : Ip → Option Pid} {mine : Pid → Ip → ℕ}
    {dinode : ℕ × ℕ → Dinode} {x : Icache.Pc}
    (hI : IcOk L entry ilock mine dinode (fun q => (g q).pc) G) (h : x = (g p).pc) :
    IcOk L entry ilock mine dinode (update (fun q => (g q).pc) p x) G := by
  rw [update_same h]
  exact hI

theorem LockOk.keep {entry : Ip → Entry} {ilock : Ip → Option Pid} {dinode : ℕ × ℕ → Dinode}
    {x : Ip → Option (ℕ × Option (Row × Bool))}
    (hL : LockOk entry ilock dinode (fun q => (g q).lk) G) (h : x = (g p).lk) :
    LockOk entry ilock dinode (update (fun q => (g q).lk) p x) G := by
  rw [update_same h]
  exact hL

theorem DataOk.keep {blk : ℕ → Block} {stale : ℕ → Bool} {row : ℕ → Row} {x : Option (ℕ × Bool)}
    (hD : DataOk L blk stale row fun q => (g q).pend) (h : x = (g p).pend) :
    DataOk L blk stale row (update (fun q => (g q).pend) p x) := by
  rw [update_same h]
  exact hD

namespace Inv

variable (hi : Inv L s g G)

include hi

theorem op' {x : Bool} (h : x = (g p).op) : update (fun q => (g q).op) p x = s.inOp := by
  rw [update_same h]
  exact funext hi.op

theorem id' : Inv L s (update g p (g p)) G := by
  rw [update_eq_self]
  exact hi

/-! ## Buffers -/

theorem held (hb : (g p).buf h = some (b, d)) : s.held p h = some b ∧ s.blk b = d := by
  have := (hi.buf.known p h b d).1 hb
  exact ⟨held_eq_some.2 this.1, this.2⟩

theorem setOp (x : Bool) :
    Inv L { s with inOp := update s.inOp p x } (update g p { g p with op := x })
      G := by
  refine of_update (hi.buf.keep rfl) (hi.ic.keep rfl) (hi.lock.keep rfl) (hi.data.keep rfl) ?_
  change update (fun q => (g q).op) p x = update s.inOp p x
  rw [funext hi.op]

theorem bread {o : BufId} (ho : s.hold o = none) (hb : ∀ h, (s.hold h).map Prod.snd ≠ some b) :
    Inv L (s.setHold o (some (p, b)))
      (update g p ((g p).setBuf o (some (b, s.blk b)))) G := by
  exact of_update (hi.buf.give ho hb) (hi.ic.keep rfl) (hi.lock.keep rfl) (hi.data.keep rfl) (hi.op' rfl)

theorem brelse (hb : (g p).buf h = some (b, d)) :
    Inv L (s.setHold h none) (update g p ((g p).setBuf h none)) G :=
  of_update (hi.buf.release hb) (hi.ic.keep rfl) (hi.lock.keep rfl) (hi.data.keep rfl) (hi.op' rfl)

end Inv

end Xv6.Fs

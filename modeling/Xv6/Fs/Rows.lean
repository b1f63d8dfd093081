import Xv6.Fs.Machine
import Xv6.Lib.Ledger

/-!
# Inodes and the blocks they own

The contents of a disk with the inodes in use, seen as a ledger of blocks. An inode may be ahead of the
disk (it is changed in memory first), and an inode that is being truncated still names blocks that are
free already.

* `Row`: an inode as it stands, with the blocks its slots own.
* `RowOk`, `TableOk`, `DataOk`: the slots name what they own, files have no holes, and the free map marks exactly
  the blocks that are metadata, owned, or just allocated by some process.
* `DataOk.write`, `DataOk.setRow`: a store to a block, and a change to an inode.
* **`DataOk.alloc`**, **`DataOk.free`**, **`DataOk.attach`**, **`DataOk.attachEntry`**: the steps of
  `balloc`, `bfree` and `bmap`.
-/

namespace Xv6.Fs

open Function Bytes Ledger
open Bio (BufId)
open Icache (Ip Entry)

/-- An inode as it stands. `own k` is the block that slot `k` owns; the slots in `dead` name a block
that has been freed; `loose` inodes are being truncated and may have holes. -/
structure Row where
  din : Dinode
  own : ℕ → Option ℕ
  dead : Set ℕ
  loose : Bool

abbrev indSlot : ℕ := ndirect

def Row.addr (r : Row) (k : ℕ) : ℕ := (r.own k).getD 0

/-- The block of slot `k` has been freed; the slots in `D` are dead now. -/
def Row.free (r : Row) (k : ℕ) (D : Set ℕ) : Row := ⟨r.din, update r.own k none, D, r.loose⟩

/-- The inode's fields have changed to `v`, and slot `k` has got block `b`. -/
def Row.attach (r : Row) (v : Dinode) (k b : ℕ) : Row :=
  ⟨v, update r.own k (some b), r.dead, r.loose⟩

def Row.setDin (r : Row) (v : Dinode) : Row := ⟨v, r.own, r.dead, r.loose⟩

def Row.loosen (r : Row) : Row := ⟨r.din, r.own, r.dead, true⟩

/-- **An inode names the blocks it owns.** -/
structure RowOk (blk : ℕ → Block) (r : Row) : Prop where
  slot : r.din.type ≠ 0 → ∀ k, k < nslot → k ∉ r.dead → addr blk r.din k = r.addr k
  empty : ∀ k, r.din.type = 0 ∨ nslot ≤ k ∨ k ∈ r.dead → r.own k = none
  mapped : r.din.type ≠ 0 → r.loose = false → Mapped r.din.size.toNat r.addr
  dead : indSlot ∈ r.dead → ∀ k, indSlot < k → k < nslot → k ∈ r.dead

/-- Who owns a block: a slot of an inode, or a process that has just allocated it. -/
abbrev Owner : Type := (ℕ × ℕ) ⊕ Pid

/-- The owners' blocks. A process has at most one block; the flag says that it is zeroed. -/
def ownOf (row : ℕ → Row) (pend : Pid → Option (ℕ × Bool)) : Owner → Option ℕ
  | .inl x => (row x.1).own x.2
  | .inr p => (pend p).map Prod.fst

/-- The inodes, the blocks that may lose a change, and the blocks that were zeroed. -/
structure TableOk (L : Layout) (blk : ℕ → Block) (stale : ℕ → Bool) (row : ℕ → Row)
    (pend : Pid → Option (ℕ × Bool)) : Prop where
  rows : ∀ i, RowOk blk (row i)
  range : ∀ i, L.ninodes ≤ i → (row i).din.type = 0
  stale : ∀ b, stale b = true →
    L.nmeta ≤ b ∧ (∀ i, (row i).own indSlot ≠ some b) ∧ ∀ p, pend p ≠ some (b, true)
  zero : ∀ p b, pend p = some (b, true) → blk b = fun _ => 0

/-- **The free map and the inodes agree.** -/
structure DataOk (L : Layout) (blk : ℕ → Block) (stale : ℕ → Bool) (row : ℕ → Row)
    (pend : Pid → Option (ℕ × Bool)) : Prop where
  table : TableOk L blk stale row pend
  ledger : Owned (Set.Ico L.nmeta L.size) (usedAt L.toSuperblock blk) (ownOf row pend)
  nmeta : ∀ b, b < L.nmeta → usedAt L.toSuperblock blk b

variable {L : Layout} {blk : ℕ → Block} {stale : ℕ → Bool} {row : ℕ → Row}
  {pend : Pid → Option (ℕ × Bool)} {p : Pid} {i k b : ℕ}

theorem Row.free_own_self (r : Row) (D : Set ℕ) : (r.free k D).own k = none := update_self ..

theorem Row.free_own_ne (r : Row) (D : Set ℕ) {l : ℕ} (h : l ≠ k) : (r.free k D).own l = r.own l :=
  update_of_ne h ..

theorem Row.free_own_none {r : Row} (D : Set ℕ) {l : ℕ} (h : r.own l = none) :
    (r.free k D).own l = none := by
  by_cases hl : l = k
  · rw [hl, r.free_own_self]
  · rw [r.free_own_ne D hl, h]

/-! ## What a store to a block leaves alone -/

theorem usedAt_update {d : Block} (h : L.bblock k ≠ b) :
    usedAt L.toSuperblock (update blk b d) k ↔ usedAt L.toSuperblock blk k := by
  rw [usedAt, usedAt, update_of_ne h]

theorem addr_update {v : Dinode} {d : Block} (h : ndirect < k → (v.addrs indirect).toNat ≠ b) :
    addr (update blk b d) v k = addr blk v k := by
  unfold addr
  split_ifs with hk h0
  · rfl
  · rfl
  · rw [update_of_ne (h (by omega))]

theorem addr_direct {v : Dinode} (hk : k < ndirect + 1) : addr blk v k = (v.addrs ⟨k, hk⟩).toNat := by
  rw [addr, dif_pos hk]

theorem bblock_ne (hb : L.nmeta ≤ b) : ∀ x, x < L.size → L.bblock x ≠ b := fun x hx e => by
  have := L.bblock_lt hx
  omega

theorem bpb_byte (b : ℕ) : b % bpb / 8 < bsize := by
  have : b % 8192 < 8192 := Nat.mod_lt b (by decide)
  change b % 8192 / 8 < 1024
  omega

theorem usedAt_setBit {β : ℕ → Block} (b x : ℕ) :
    usedAt L.toSuperblock
      (update β (L.bblock b) (setBit (β (L.bblock b)) (b % bpb))) x ↔
      usedAt L.toSuperblock β x ∨ x = b := by
  by_cases hx : L.bblock x = L.bblock b
  · have hdiv : x / bpb = b / bpb := Nat.add_right_cancel hx
    rw [usedAt, usedAt, hx, update_self, bit_setBit (bpb_byte b), Bool.or_eq_true,
      decide_eq_true_eq]
    refine or_congr Iff.rfl ⟨fun e => ?_, fun e => by rw [e]⟩
    rw [← Nat.div_add_mod x bpb, ← Nat.div_add_mod b bpb, hdiv, e]
  · rw [usedAt_update hx]
    exact (or_iff_left fun e : x = b => hx (by rw [e])).symm

theorem usedAt_clearBit {β : ℕ → Block} (b x : ℕ) :
    usedAt L.toSuperblock
      (update β (L.bblock b) (clearBit (β (L.bblock b)) (b % bpb))) x ↔
      usedAt L.toSuperblock β x ∧ x ≠ b := by
  by_cases hx : L.bblock x = L.bblock b
  · have hdiv : x / bpb = b / bpb := Nat.add_right_cancel hx
    rw [usedAt, usedAt, hx, update_self, bit_clearBit (bpb_byte b), Bool.and_eq_true,
      Bool.not_eq_true', decide_eq_false_iff_not]
    refine and_congr Iff.rfl (not_congr ⟨fun e => ?_, fun e => by rw [e]⟩)
    rw [← Nat.div_add_mod x bpb, ← Nat.div_add_mod b bpb, hdiv, e]
  · rw [usedAt_update hx]
    exact (and_iff_left fun e : x = b => hx (by rw [e])).symm

theorem ownOf_setPend {o : Option (ℕ × Bool)} :
    ownOf row (update pend p o) =
      update (ownOf row pend) (.inr p) (o.map Prod.fst) := by
  ext1 x
  cases x with
  | inl x => rw [update_of_ne (by simp)]; rfl
  | inr q =>
    by_cases hq : q = p
    · rw [hq, update_self, ownOf, update_self]
    · rw [update_of_ne (by simpa using hq), ownOf, update_of_ne hq, ownOf]

theorem ownOf_setRow {r : Row} {o : Option ℕ} (hr : r.own = update (row i).own k o) :
    ownOf (update row i r) pend = update (ownOf row pend) (.inl (i, k)) o := by
  ext1 x
  cases x with
  | inl x =>
    obtain ⟨j, l⟩ := x
    by_cases hj : j = i
    · subst hj
      by_cases hl : l = k
      · rw [hl, update_self, ownOf, update_self, hr, update_self]
      · rw [update_of_ne (by simpa using hl), ownOf, update_self, hr,
          update_of_ne hl, ownOf]
    · rw [update_of_ne (by simp [hj]), ownOf, update_of_ne hj, ownOf]
  | inr q => rw [update_of_ne (by simp)]; rfl

theorem ownOf_attach {v : Dinode} :
    ownOf (update row i ((row i).attach v k b)) (update pend p none) =
      update (update (ownOf row pend) (.inr p) none) (.inl (i, k)) (some b) := by
  rw [ownOf_setPend, ownOf_setRow rfl, update_comm (by simp)]
  rfl

theorem addr_entry_zero {v : Dinode} (hk : ndirect < k) (h : v.addrs indirect = 0) :
    addr blk v k = 0 := by
  rw [addr, dif_neg (by omega), if_pos h]

theorem addrs_setAddr {v : Dinode} {l : Fin (ndirect + 1)} :
    (setAddr l b v).addrs l = UInt32.ofNat b := update_self ..

theorem addr_setAddr {v : Dinode} {l : Fin (ndirect + 1)} (hk : k ≠ l)
    (h : ndirect < k → l ≠ indirect) : addr blk (setAddr l b v) k = addr blk v k := by
  unfold addr
  split_ifs with hlt h₁ h₂ h₂
  · change (update v.addrs l _ _).toNat = _
    rw [update_of_ne fun e => hk (Fin.val_eq_of_eq e)]
  all_goals
    have hne : indirect ≠ l := (h (by omega)).symm
    simp only [setAddr, update_of_ne hne] at *
  · exact absurd h₁ h₂
  · exact absurd h₂ h₁

theorem toNat_eq_zero_iff {a : UInt32} : a.toNat = 0 ↔ a = 0 := by
  rw [← UInt32.toNat_inj]
  rfl

theorem RowOk.own_indirect {r : Row} (h : RowOk blk r) (ht : r.din.type ≠ 0) (hk : indSlot < k)
    (hk' : k < nslot) (hdead : k ∉ r.dead) (h0 : r.din.addrs indirect ≠ 0) :
    r.own indSlot = some (r.din.addrs indirect).toNat := by
  have hlive : indSlot ∉ r.dead := fun hd => hdead (h.dead hd k hk hk')
  have hs := h.slot ht indSlot (by decide) hlive
  rw [addr_direct (by decide)] at hs
  change (r.din.addrs indirect).toNat = _ at hs
  cases ho : r.own indSlot with
  | none =>
    rw [Row.addr, ho] at hs
    exact absurd (toNat_eq_zero_iff.1 hs) h0
  | some a =>
    rw [Row.addr, ho] at hs
    exact congrArg some hs.symm

theorem RowOk.write {r : Row} (h : RowOk blk r) (hb : r.own indSlot ≠ some b) (d : Block) :
    RowOk (update blk b d) r := by
  refine ⟨fun ht k hk hdead => ?_, h.empty, h.mapped, h.dead⟩
  rw [← h.slot ht k hk hdead]
  by_cases h0 : r.din.addrs indirect = 0
  · unfold addr
    rw [if_pos h0, if_pos h0]
  · refine addr_update fun hk' e => hb ?_
    rw [← e]
    exact h.own_indirect ht hk' hk hdead h0

theorem attach_addr_ne_zero {r : Row} {v : Dinode} {n l : ℕ} (hb : b ≠ 0)
    (h : n < maxFile ∧ r.addr l ≠ 0) : n < maxFile ∧ (r.attach v k b).addr l ≠ 0 := by
  refine ⟨h.1, ?_⟩
  change (update r.own k (some b) l).getD 0 ≠ 0
  by_cases hl : l = k
  · rw [hl, update_self]
    exact hb
  · rw [update_of_ne hl]
    exact h.2

namespace RowOk

variable {r : Row} (h : RowOk blk r)

include h

theorem free {D : Set ℕ} (hl : r.loose = true) (hkD : k ∈ D) (hD : r.dead ⊆ D)
    (hnone : ∀ l ∈ D, l = k ∨ r.own l = none)
    (hind : indSlot ∈ D → ∀ l, indSlot < l → l < nslot → l ∈ D) : RowOk blk (r.free k D) := by
  refine ⟨fun ht l hl hdead => ?_, fun l hl => ?_, fun _ h' => ?_, hind⟩
  · have hlk : l ≠ k := fun e => hdead (e ▸ hkD)
    change _ = (update r.own k none l).getD 0
    rw [update_of_ne hlk]
    exact h.slot ht l hl fun hd => hdead (hD hd)
  · change update r.own k none l = none
    by_cases hlk : l = k
    · rw [hlk, update_self]
    · rw [update_of_ne hlk]
      rcases hl with hl | hl | hl
      · exact h.empty l (.inl hl)
      · exact h.empty l (.inr (.inl hl))
      · exact (hnone l hl).resolve_left hlk
  · cases hl.symm.trans h'

theorem setDin {v : Dinode} (ha : v.addrs = r.din.addrs) (ht : v.type = 0 ↔ r.din.type = 0)
    (hm : r.loose = false → Mapped v.size.toNat r.addr) : RowOk blk (r.setDin v) := by
  refine ⟨fun hty k hk hdead => ?_, fun k hk => ?_, fun _ hl => hm hl, h.dead⟩
  · have : addr blk v k = addr blk r.din k := by
      unfold addr
      rw [ha]
    exact this.trans (h.slot (fun e => hty (ht.2 e)) k hk hdead)
  · exact h.empty k (hk.imp_left ht.1)

theorem attachAddr (hty : r.din.type ≠ 0) (hdead : r.dead = ∅) {k : Fin (ndirect + 1)}
    (ho : r.own k = none) (hb : b < 2 ^ 32) (hb0 : b ≠ 0)
    (hz : k = indirect → blk b = fun _ => 0) : RowOk blk (r.attach (setAddr k b r.din) k b) := by
  have hlive : ∀ l, l ∉ r.dead := fun l => by simp [hdead]
  have hval : (UInt32.ofNat b).toNat = b := UInt32.toNat_ofNat_of_lt' hb
  refine ⟨fun _ l hl _ => ?_, fun l hl => ?_, fun _ hl n hn => ?_, fun hd => absurd hd (hlive _)⟩
  · change addr blk (setAddr k b r.din) l = (update r.own k (some b) l).getD 0
    by_cases hlk : l = k
    · subst hlk
      rw [update_self, addr_direct k.2, Fin.eta, addrs_setAddr, hval]
      rfl
    · rw [update_of_ne hlk]
      refine Eq.trans ?_ (h.slot hty l hl (hlive l))
      by_cases hind : ndirect < l ∧ k = indirect
      · obtain ⟨hl', rfl⟩ := hind
        have h0 : r.din.addrs indirect = 0 := by
          have := h.slot hty indSlot (by decide) (hlive _)
          rw [Row.addr, show r.own indSlot = none from ho, addr_direct (by decide)] at this
          exact toNat_eq_zero_iff.1 this
        rw [addr_entry_zero hl' h0, addr, dif_neg (by omega)]
        split_ifs
        · rfl
        · rw [addrs_setAddr, hval, hz rfl]
          exact load_zero ..
      · exact addr_setAddr hlk fun hl' e => hind ⟨hl', e⟩
  · change update r.own k (some b) l = none
    have hlk : l ≠ k := by
      rintro rfl
      rcases hl with hl | hl | hl
      · exact hty hl
      · have hk : k.1 < 13 := k.2
        change 269 ≤ k.1 at hl
        omega
      · exact hlive _ hl
    rw [update_of_ne hlk]
    exact h.empty l (hl.imp_left fun e => e)
  · exact attach_addr_ne_zero hb0 (h.mapped hty hl n hn)

theorem attachEntry {a j : ℕ} (hty : r.din.type ≠ 0) (hdead : r.dead = ∅)
    (ha : r.own indSlot = some a) (ha0 : a ≠ 0) (hj : j < nindirect) (hb : b < 2 ^ 32) (hb0 : b ≠ 0) :
    RowOk (update blk a (putEntry (blk a) j b)) (r.attach r.din (indSlot + 1 + j) b) := by
  have hlive : ∀ l, l ∉ r.dead := fun l => by simp [hdead]
  have hj' : j < 256 := hj
  have haddr : (r.din.addrs indirect).toNat = a := by
    have := h.slot hty indSlot (by decide) (hlive _)
    rwa [Row.addr, ha, addr_direct (by decide)] at this
  refine ⟨fun _ l hl _ => ?_, fun l hl => ?_, fun _ hl n hn => ?_, fun hd => absurd hd (hlive _)⟩
  · have hs := h.slot hty l hl (hlive l)
    change addr _ r.din l = (update r.own _ (some b) l).getD 0
    by_cases hl' : l < 13
    · rw [update_of_ne (by change l ≠ 12 + 1 + j; omega), addr_direct hl']
      rwa [addr_direct hl'] at hs
    · have hne : ¬ l < ndirect + 1 := hl'
      have h0 : r.din.addrs indirect ≠ 0 := fun e => by
        rw [e] at haddr
        exact ha0 haddr.symm
      rw [addr, dif_neg hne, if_neg h0, haddr] at hs ⊢
      rw [update_self, entry_putEntry hj hb]
      split_ifs with hjl
      · have : l = indSlot + 1 + j := by
          change l - 13 = j at hjl
          change l = 12 + 1 + j
          omega
        rw [this, update_self]
        rfl
      · have : l ≠ indSlot + 1 + j := by
          rintro rfl
          apply hjl
          change 12 + 1 + j - 13 = j
          omega
        rw [update_of_ne this]
        exact hs
  · change update r.own _ (some b) l = none
    have hlk : l ≠ indSlot + 1 + j := by
      rintro rfl
      rcases hl with hl | hl | hl
      · exact hty hl
      · change 269 ≤ 12 + 1 + j at hl
        omega
      · exact hlive _ hl
    rw [update_of_ne hlk]
    exact h.empty l hl
  · exact attach_addr_ne_zero hb0 (h.mapped hty hl n hn)

theorem clearAddr {k : Fin (ndirect + 1)} (ho : r.own k = none)
    (hdead : ∀ l ∈ r.dead, l = k ∨ k = indirect ∧ ndirect < l)
    (hind : k = indirect → ∀ l, ndirect < l → r.own l = none) :
    RowOk blk ⟨setAddr k 0 r.din, r.own, ∅, true⟩ := by
  refine ⟨fun hty l hl _ => ?_, fun l hl => ?_, nofun, fun hd => hd.elim⟩
  · change addr blk (setAddr k 0 r.din) l = (r.own l).getD 0
    by_cases hlk : l = k
    · rw [hlk, ho, addr_direct k.2, Fin.eta, addrs_setAddr]
      rfl
    · by_cases hk : k = indirect ∧ ndirect < l
      · obtain ⟨rfl, hl'⟩ := hk
        rw [hind rfl l hl']
        exact addr_entry_zero hl' addrs_setAddr
      · rw [addr_setAddr hlk fun hl' e => hk ⟨e, hl'⟩]
        exact h.slot hty l hl fun hd => (hdead l hd).elim hlk hk
  · exact h.empty l (hl.imp_right (Or.imp_right False.elim))

theorem alloc (ht : r.din.type = 0) (type : UInt16) : RowOk blk (r.setDin (.fresh type)) := by
  have hnone : ∀ k, r.own k = none := fun k => h.empty k (.inl ht)
  refine ⟨fun _ k _ _ => ?_, fun k _ => hnone k, fun _ _ n hn => absurd hn (Nat.not_lt_zero _), h.dead⟩
  change addr blk (.fresh type) k = (r.own k).getD 0
  rw [hnone]
  by_cases hk : k < ndirect + 1
  · rw [addr_direct hk]
    rfl
  · exact addr_entry_zero (by omega) rfl

theorem loosen : RowOk blk r.loosen := ⟨h.slot, h.empty, nofun, h.dead⟩

theorem setFree (hnone : ∀ k, r.own k = none) {v : Dinode} (hv : v.type = 0) :
    RowOk blk (r.setDin v) :=
  ⟨fun ht => absurd hv ht, fun k _ => hnone k, fun ht => absurd hv ht, h.dead⟩

end RowOk

namespace TableOk

variable (h : TableOk L blk stale row pend)

include h

theorem write (hind : ∀ i, (row i).own indSlot ≠ some b) (hz : ∀ p, pend p ≠ some (b, true))
    (d : Block) : TableOk L (update blk b d) stale row pend := by
  refine ⟨fun i => (h.rows i).write (hind i) d, h.range, h.stale, fun p x hp => ?_⟩
  have hne : x ≠ b := by
    rintro rfl
    exact hz p hp
  rw [update_of_ne hne]
  exact h.zero p x hp

theorem setPend {o : Option (ℕ × Bool)}
    (ho : ∀ b, o = some (b, true) → stale b = false ∧ blk b = fun _ => 0) :
    TableOk L blk stale row (update pend p o) := by
  refine ⟨h.rows, h.range, fun b hb => ?_, fun q b hq => ?_⟩
  · obtain ⟨h₁, h₂, h₃⟩ := h.stale b hb
    refine ⟨h₁, h₂, fun q hq => ?_⟩
    by_cases hqp : q = p
    · rw [hqp, update_self] at hq
      rw [(ho b hq).1] at hb
      cases hb
    · rw [update_of_ne hqp] at hq
      exact h₃ q hq
  · by_cases hqp : q = p
    · rw [hqp, update_self] at hq
      exact (ho b hq).2
    · rw [update_of_ne hqp] at hq
      exact h.zero q b hq

theorem writeRow {r : Row} {d : Block} (hr : RowOk (update blk b d) r)
    (hi : i < L.ninodes) (hind : ∀ j, j ≠ i → (row j).own indSlot ≠ some b)
    (hz : ∀ p, pend p ≠ some (b, true)) (hs : ∀ x, r.own indSlot = some x → stale x = false) :
    TableOk L (update blk b d) stale (update row i r) pend := by
  refine ⟨fun j => ?_, fun j hj => ?_, fun x hx => ?_, fun p x hp => ?_⟩
  · by_cases hj : j = i
    · rw [hj, update_self]
      exact hr
    · rw [update_of_ne hj]
      exact (h.rows j).write (hind j hj) d
  · rw [update_of_ne (by omega)]
    exact h.range j hj
  · obtain ⟨h₁, h₂, h₃⟩ := h.stale x hx
    refine ⟨h₁, fun j hj => ?_, h₃⟩
    by_cases hji : j = i
    · rw [hji, update_self] at hj
      rw [hs x hj] at hx
      cases hx
    · rw [update_of_ne hji] at hj
      exact h₂ j hj
  · have hne : x ≠ b := by
      rintro rfl
      exact hz p hp
    rw [update_of_ne hne]
    exact h.zero p x hp

theorem setRow {r : Row} (hr : RowOk blk r) (hi : i < L.ninodes)
    (hs : ∀ b, r.own indSlot = some b → stale b = false) :
    TableOk L blk stale (update row i r) pend := by
  have hcases : ∀ j, update row i r j = r ∨ update row i r j = row j := fun j => by
    by_cases hj : j = i
    · exact .inl (by rw [hj, update_self])
    · exact .inr (update_of_ne hj ..)
  refine ⟨fun j => ?_, fun j hj => ?_, fun b hb => ?_, h.zero⟩
  · rcases hcases j with e | e <;> rw [e]
    · exact hr
    · exact h.rows j
  · rw [update_of_ne (by omega)]
    exact h.range j hj
  · obtain ⟨h₁, h₂, h₃⟩ := h.stale b hb
    refine ⟨h₁, fun j hj => ?_, h₃⟩
    rcases hcases j with e | e <;> rw [e] at hj
    · rw [hs b hj] at hb
      cases hb
    · exact h₂ j hj

theorem not_stale (ho : (row i).own indSlot = some b) : stale b = false := by
  by_contra hs
  exact (h.stale b (by simpa using hs)).2.1 i ho

theorem setStale {stale' : ℕ → Bool}
    (hs : ∀ b, stale' b = true → stale b = true ∨
      L.nmeta ≤ b ∧ (∀ i, (row i).own indSlot ≠ some b) ∧ ∀ p, pend p ≠ some (b, true)) :
    TableOk L blk stale' row pend :=
  ⟨h.rows, h.range, fun b hb => (hs b hb).elim (h.stale b) id, h.zero⟩

end TableOk

namespace DataOk

variable (h : DataOk L blk stale row pend)

include h

theorem own_range (ho : (row i).own k = some b) : L.nmeta ≤ b ∧ b < L.size :=
  h.ledger.mem (s := .inl (i, k)) ho

theorem pend_range {z : Bool} (hp : pend p = some (b, z)) : L.nmeta ≤ b ∧ b < L.size :=
  h.ledger.mem (s := .inr p) (by rw [ownOf, hp]; rfl)

theorem pend_ne_own {z : Bool} (hp : pend p = some (b, z)) : (row i).own k ≠ some b := fun ho => by
  have := h.ledger.inj (s := .inl (i, k)) (t := .inr p) ho (by rw [ownOf, hp]; rfl)
  cases this

theorem own_inj {j l : ℕ} (ho : (row i).own k = some b) (ho' : (row j).own l = some b) :
    i = j ∧ k = l := by
  have := h.ledger.inj (s := .inl (i, k)) (t := .inl (j, l)) ho ho'
  exact Prod.mk.inj (Sum.inl.inj this)

theorem own_ne_pend {z : Bool} (ho : (row i).own k = some b) : pend p ≠ some (b, z) :=
  fun hp => h.pend_ne_own hp ho

/-- **A store outside the free map** to a block that is no indirect block. -/
theorem write (hmap : ∀ x, x < L.size → L.bblock x ≠ b)
    (hind : ∀ i, (row i).own indSlot ≠ some b) (hz : ∀ p, pend p ≠ some (b, true)) (d : Block) :
    DataOk L (update blk b d) stale row pend := by
  have hused : ∀ x, x < L.size →
      (usedAt L.toSuperblock (update blk b d) x ↔ usedAt L.toSuperblock blk x) :=
    fun x hx => usedAt_update (hmap x hx)
  exact ⟨h.table.write hind hz d, h.ledger.congr fun x hx => hused x hx.2,
    fun x hx => (hused x (lt_of_lt_of_le hx L.nmeta_le)).2 (h.nmeta x hx)⟩

theorem bblock_free {x : ℕ} (hx : x < L.size) :
    (∀ i, (row i).own indSlot ≠ some (L.bblock x)) ∧ ∀ p, pend p ≠ some (L.bblock x, true) := by
  have := L.bblock_lt hx
  refine ⟨fun i ho => ?_, fun p hp => ?_⟩
  · have := h.own_range ho
    omega
  · have := h.pend_range hp
    omega

theorem alloc (hb : b < L.size) (hfree : ¬ usedAt L.toSuperblock blk b) (hp : pend p = none) :
    DataOk L (update blk (L.bblock b) (setBit (blk (L.bblock b)) (b % bpb))) stale row
      (update pend p (some (b, false))) := by
  have hused := usedAt_setBit (L := L) (β := blk) b
  obtain ⟨hind, hz⟩ := h.bblock_free hb
  have hmeta : L.nmeta ≤ b := by
    by_contra hlt
    exact hfree (h.nmeta b (by omega))
  refine ⟨(h.table.write hind hz _).setPend nofun, ?_, fun x hx => (hused x).2 (.inl (h.nmeta x hx))⟩
  rw [ownOf_setPend]
  exact h.ledger.take ⟨hmeta, hb⟩ hfree (fun x _ => hused x) (by rw [ownOf, hp]; rfl)

theorem free {D : Set ℕ} (hi : i < L.ninodes) (ho : (row i).own k = some b)
    (hr : ∀ blk, RowOk blk (row i) → RowOk blk ((row i).free k D)) :
    DataOk L (update blk (L.bblock b) (clearBit (blk (L.bblock b)) (b % bpb))) stale
      (update row i ((row i).free k D)) pend := by
  have hused := usedAt_clearBit (L := L) (β := blk) b
  have hb := h.own_range ho
  obtain ⟨hind, hz⟩ := h.bblock_free hb.2
  have ht := h.table.write hind hz (clearBit (blk (L.bblock b)) (b % bpb))
  refine ⟨ht.setRow (hr _ (ht.rows i)) hi fun x hx => ?_, ?_,
    fun x hx => (hused x).2 ⟨h.nmeta x hx, by omega⟩⟩
  · rcases update_eq_some.1 hx with ⟨-, ⟨⟩⟩ | ⟨-, hx⟩
    exact h.table.not_stale hx
  · rw [ownOf_setRow rfl]
    exact h.ledger.drop (s := .inl (i, k)) ho fun x _ => hused x

theorem setRow {r : Row} (hi : i < L.ninodes) (hown : r.own = (row i).own) (hr : RowOk blk r) :
    DataOk L blk stale (update row i r) pend := by
  refine ⟨h.table.setRow hr hi fun b hb => h.table.not_stale (hown ▸ hb), ?_, h.nmeta⟩
  have : ownOf (update row i r) pend = ownOf row pend := by
    ext1 x
    cases x with
    | inl x =>
      by_cases hx : x.1 = i
      · rw [ownOf, ownOf, hx, update_self, hown]
      · rw [ownOf, ownOf, update_of_ne hx]
    | inr q => rfl
  rw [this]
  exact h.ledger

theorem attach {v : Dinode} {z : Bool} (hi : i < L.ninodes) (hp : pend p = some (b, z))
    (ho : (row i).own k = none) (hz : k = indSlot → z = true)
    (hr : RowOk blk ((row i).attach v k b)) :
    DataOk L blk stale (update row i ((row i).attach v k b))
      (update pend p none) := by
  refine ⟨(h.table.setRow hr hi fun x hx => ?_).setPend nofun, ?_, h.nmeta⟩
  · rcases update_eq_some.1 hx with ⟨hk, ⟨⟩⟩ | ⟨-, hx⟩
    · rw [hz hk.symm] at hp
      by_contra hs
      exact (h.table.stale b (by simpa using hs)).2.2 p hp
    · exact h.table.not_stale hx
  · rw [ownOf_attach]
    exact h.ledger.move (s := .inr p) (by rw [ownOf, hp]; rfl) ho

/-- **`bmap` stores the address of a new block** in the indirect block. -/
theorem attachEntry {a j : ℕ} {z : Bool} (hi : i < L.ninodes) (hty : (row i).din.type ≠ 0)
    (hdead : (row i).dead = ∅) (ha : (row i).own indSlot = some a) (hj : j < nindirect)
    (hp : pend p = some (b, z)) (ho : (row i).own (indSlot + 1 + j) = none) :
    DataOk L (update blk a (putEntry (blk a) j b)) stale
      (update row i ((row i).attach (row i).din (indSlot + 1 + j) b))
      (update pend p none) := by
  have hb := h.pend_range hp
  have ha' := h.own_range ha
  have := L.size_lt
  have := L.two_le_logstart
  have hused : ∀ x, x < L.size →
      (usedAt L.toSuperblock (update blk a (putEntry (blk a) j b)) x ↔
        usedAt L.toSuperblock blk x) := fun x hx => usedAt_update (bblock_ne ha'.1 x hx)
  have hpos : 0 < L.nmeta := lt_of_le_of_lt (Nat.zero_le _) (L.bblock_lt (b := 0) (by omega))
  have ht := h.table.writeRow (d := putEntry (blk a) j b)
    ((h.table.rows i).attachEntry hty hdead ha (by omega) hj (by omega : b < 2 ^ 32) (by omega)) hi
    (fun l hl hla => hl (h.own_inj hla ha).1) (fun q hq => h.pend_ne_own hq ha) fun x hx => ?_
  · refine ⟨ht.setPend nofun, ?_,
      fun x hx => (hused x (lt_of_lt_of_le hx L.nmeta_le)).2 (h.nmeta x hx)⟩
    rw [ownOf_attach]
    exact (h.ledger.move (s := .inr p) (t := .inl (i, indSlot + 1 + j)) (by rw [ownOf, hp]; rfl)
      ho).congr fun x hx => hused x hx.2
  · rcases update_eq_some.1 hx with ⟨hk, -⟩ | ⟨-, hx⟩
    · exact absurd hk (by change 12 ≠ 12 + 1 + j; omega)
    · exact h.table.not_stale hx

theorem writeMeta (hb : b < L.bmapstart) (d : Block) :
    DataOk L (update blk b d) stale row pend := by
  have hb' : b < L.nmeta := lt_of_lt_of_le hb (le_trans (Nat.le_add_right _ _) L.bmapstart_le)
  refine h.write (fun x _ e => ?_) (fun i ho => ?_) (fun p hp => ?_) d
  · have := L.bmapstart_le_bblock x
    omega
  · have := h.own_range ho
    omega
  · have := h.pend_range hp
    omega

theorem writeFile (ho : (row i).own k = some b) (hk : k ≠ indSlot) (d : Block) :
    DataOk L (update blk b d) stale row pend :=
  h.write (bblock_ne (h.own_range ho).1) (fun _ ho' => hk (h.own_inj ho ho').2)
    (fun _ => h.own_ne_pend ho) d

theorem writePend (hp : pend p = some (b, false)) (d : Block) :
    DataOk L (update blk b d) stale row pend := by
  refine h.write (bblock_ne (h.pend_range hp).1) (fun _ => h.pend_ne_own hp) (fun q hq => ?_) d
  have := h.ledger.inj (s := .inr p) (t := .inr q) (b := b) (by rw [ownOf, hp]; rfl)
    (by rw [ownOf, hq]; rfl)
  rw [← Sum.inr.inj this, hp] at hq
  cases hq

theorem revert (hs : stale b = true) (d : Block) :
    DataOk L (update blk b d) stale row pend := by
  obtain ⟨hb, hind, hz⟩ := h.table.stale b hs
  exact h.write (bblock_ne hb) hind hz d

theorem setStale {stale' : ℕ → Bool}
    (hs : ∀ x, stale' x = true → stale x = true ∨ ∃ i k, (row i).own k = some x ∧ k ≠ indSlot) :
    DataOk L blk stale' row pend := by
  refine ⟨h.table.setStale fun x hx => (hs x hx).imp_right ?_, h.ledger, h.nmeta⟩
  rintro ⟨i, k, ho, hk⟩
  exact ⟨(h.own_range ho).1, fun _ ho' => hk (h.own_inj ho ho').2, fun _ => h.own_ne_pend ho⟩

theorem zeroed {z : Bool} (hp : pend p = some (b, z)) (hs : stale b = false)
    (hb : blk b = fun _ => 0) : DataOk L blk stale row (update pend p (some (b, true))) := by
  refine ⟨h.table.setPend fun x hx => ?_, ?_, h.nmeta⟩
  · cases hx
    exact ⟨hs, hb⟩
  · rw [ownOf_setPend]
    have : ownOf row pend (.inr p) = some b := by rw [ownOf, hp]; rfl
    change Owned _ _ (update _ _ (some b))
    rw [← this, update_eq_self]
    exact h.ledger

end DataOk

end Xv6.Fs

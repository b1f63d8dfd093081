import Xv6.Fs.Section
import Xv6.Fs.Transfer
import Xv6.Fs.Outline

/-!
# What a write logs

`writei` logs the data blocks it writes, the blocks of the free map in which it allocates, the indirect
block and the block of the inode. A process that has locked a file knows its addresses (`Knows.Full`).

* `among_balloc`: the new block was free, and it is logged with the block of the free map.
* `Knows.Grows`: more addresses, and what was logged on the way; `among_bmap`, `among_writeLoop`.
* **`card_span`**: how many blocks a short write spans, and how many of them can be new.
* **`among_writei`**: at most `MAXOPBLOCKS` blocks.
-/

namespace Xv6.Fs

open Function Bytes Prog
open Bio (BufId)
open Icache (Ip Entry)

/-! ## Allocation -/

section Balloc

variable {L : Layout} {e : Ip} {γ : Knows} {w : Watched} {b : ℕ}

theorem among_bzero (hw : γ.At L e w) (hdisk : γ.disk = none) (hb : b ∈ γ.own) :
    Within L e (bzero b) (fun _ w' => Knows.At L e { γ with
      mem := update γ.mem b fun _ => 0
      logged := insert b γ.logged } w') w := by
  refine (among_bread hw b).then fun h w ⟨hh, d, hw'⟩ => ?_
  refine (among_setOwn hw' hdisk fun x hx => (hw.bblock_ne hb hx).symm).then fun _ w hw => ?_
  refine (among_logWrite hw).then fun _ w hw => ?_
  exact (among_brelse hw hh).mono fun _ w hw => hw.1

def Knows.alloc (L : Layout) (γ : Knows) (b : ℕ) : Knows :=
  { γ with
    own := insert b γ.own
    mem := update γ.mem b fun _ => 0
    used := insert b γ.used
    logged := insert b (insert (L.bblock b) γ.logged) }

def Knows.Marks (L : Layout) (γ : Knows) : Prop := ∀ b, b ∈ γ.own ∨ b < L.nmeta → b ∈ γ.used

structure Knows.Free (L : Layout) (γ : Knows) (b : ℕ) : Prop where
  notMem : b ∉ γ.own
  le : L.nmeta ≤ b
  lt : b < L.size

theorem Knows.Free.ne_zero (hb : γ.Free L b) : b ≠ 0 := by
  have h₁ := nmeta_pos (Nat.zero_lt_of_lt hb.lt)
  have h₂ := hb.le
  omega

theorem among_ballocLoop (hw : γ.At L e w) (hdisk : γ.disk = none) (hmarks : γ.Marks L) {bs : List ℕ}
    (hbs : ∀ b ∈ bs, bpb ∣ b) :
    Within L e (ballocLoop L.toSuperblock bs) (fun b w' => γ.Free L b ∧ (γ.alloc L b).At L e w') w := by
  induction bs generalizing w with
  | nil => exact among_panic hw
  | cons b₀ bs ih =>
    refine (among_bread hw _).then fun h w hread => ?_
    obtain ⟨hh, d, hw⟩ := hread
    refine (among_data hw).then fun a w hw => ?_
    obtain ⟨rfl, hw⟩ := hw
    cases hfree : freeBit L.toSuperblock a b₀ with
    | none =>
      refine (among_brelse hw hh).then fun _ w hw => ?_
      exact ih hw.1 fun b hb => hbs b (List.mem_cons_of_mem _ hb)
    | some x =>
      obtain ⟨hx, hlt, hbit⟩ := freeBit_spec hfree
      obtain ⟨g, rfl⟩ := hbs b₀ List.mem_cons_self
      have hmod : (bpb * g + x) % bpb = x := by rw [Nat.mul_add_mod, Nat.mod_eq_of_lt hx]
      have hblock : L.bblock (bpb * g) = L.bblock (bpb * g + x) := by
        unfold Superblock.bblock
        rw [Nat.mul_div_cancel_left _ (by decide), Nat.mul_add_div (by decide), Nat.div_eq_of_lt hx,
          Nat.add_zero]
      rw [hblock] at hw
      rw [← hmod] at hbit
      -- a block whose bit is clear is none of those known to be marked
      have hnot : bpb * g + x ∉ γ.used := by
        intro hmem
        have hu := hw.used _ hmem
        rw [usedAt, hw.blk_setBuf, hbit] at hu
        cases hu
      have hnew : γ.Free L (bpb * g + x) :=
        ⟨fun hmem => hnot (hmarks _ (.inl hmem)), not_lt.1 fun hmem => hnot (hmarks _ (.inr hmem)), hlt⟩
      have hmark := among_mark hw hdisk hlt hnew.le hbit
      rw [hmod] at hmark
      refine hmark.then fun _ w hpost => ?_
      obtain ⟨z, hw⟩ := hpost
      refine (among_logWrite hw).then fun _ w hw => ?_
      refine (among_brelse hw hh).then fun _ w hw => ?_
      refine (among_bzero hw.1 hdisk (.inl rfl)).then fun _ w hw => ?_
      rw [update_idem] at hw
      exact Among.ret ⟨hnew, hw⟩

theorem among_balloc (hw : γ.At L e w) (hdisk : γ.disk = none) (hmarks : γ.Marks L) :
    Within L e (balloc L.toSuperblock) (fun b w' => γ.Free L b ∧ (γ.alloc L b).At L e w') w := by
  refine among_ballocLoop hw hdisk hmarks fun b hb => ?_
  obtain ⟨g, -, rfl⟩ := List.mem_map.1 hb
  exact Nat.dvd_mul_left _ _

end Balloc

/-! ## The addresses of the file -/

section Slots

variable {L : Layout} {e : Ip} {γ γ' : Knows} {w : Watched} {b k : ℕ}

/-- What a process knows about a file it may extend: nothing is being loaded, the addresses are blocks of
its own, all of them marked and different. -/
structure Knows.Full (L : Layout) (γ : Knows) : Prop where
  valid : γ.valid = true
  disk : γ.disk = none
  marks : γ.Marks L
  mine : ∀ k < nslot, γ.slot k ≠ 0 → γ.slot k ∈ γ.own
  inj : ∀ j < nslot, ∀ k < nslot, γ.slot j ≠ 0 → γ.slot j = γ.slot k → j = k

theorem Knows.slot_ndirect (γ : Knows) : γ.slot ndirect = γ.ind := addr_direct (by decide)

theorem Knows.Full.ind (hγ : γ.Full L) (h0 : γ.ind ≠ 0) : γ.ind ∈ γ.own := by
  rw [← γ.slot_ndirect] at h0 ⊢
  exact hγ.mine ndirect (by decide) h0

/-- **One more block**: `b` is now in slot `k`. -/
theorem Knows.Full.attach (hγ : γ.Full L) (hb : γ.Free L b) (hvalid : γ'.valid = γ.valid)
    (hdisk : γ'.disk = γ.disk) (hown : γ'.own = insert b γ.own) (hused : γ'.used = insert b γ.used)
    (hslot : ∀ j < nslot, γ'.slot j = if j = k then b else γ.slot j) : γ'.Full L := by
  have hsub : ∀ {x}, x ∈ γ.own → x ∈ γ'.own := fun hx => hown ▸ .inr hx
  refine ⟨hvalid.trans hγ.valid, hdisk.trans hγ.disk, ?_, ?_, ?_⟩
  · intro x hx
    rw [hown] at hx
    rw [hused]
    rcases hx with (rfl | hx) | hx
    · exact .inl rfl
    · exact .inr (hγ.marks x (.inl hx))
    · exact .inr (hγ.marks x (.inr hx))
  · intro j hj hne
    rw [hslot j hj] at hne ⊢
    split_ifs at hne ⊢ with hjk
    · exact hown ▸ .inl rfl
    · exact hsub (hγ.mine j hj hne)
  · intro j hj l hl hne heq
    rw [hslot j hj] at hne heq
    rw [hslot l hl] at heq
    split_ifs at hne heq with hjk hlk hlk
    · rw [hjk, hlk]
    · exact absurd (heq ▸ hγ.mine l hl (heq ▸ hne)) hb.notMem
    · exact absurd (heq ▸ hγ.mine j hj hne) hb.notMem
    · exact hγ.inj j hj l hl hne heq

theorem addr_const (blk : ℕ → Block) (v : Dinode) (k : ℕ) :
    addr blk v k = addr (fun _ => blk (v.addrs indirect).toNat) v k := rfl

theorem slot_setAddr {l : Fin (ndirect + 1)} {blk mem : ℕ → Block} {v : Dinode} (hb : b < 2 ^ 32)
    (hl : l = indirect → v.addrs indirect = 0 ∧ mem b = fun _ => 0)
    (hl' : l ≠ indirect → (v.addrs indirect).toNat ≠ 0 →
      mem (v.addrs indirect).toNat = blk (v.addrs indirect).toNat) (j : ℕ) :
    addr mem (setAddr l b v) j = if j = l then b else addr blk v j := by
  by_cases hjl : j = l
  · subst hjl
    rw [if_pos rfl, addr_direct l.2, addrs_setAddr, UInt32.toNat_ofNat_of_lt' hb]
  · rw [if_neg hjl]
    by_cases hjn : ndirect < j
    · by_cases hli : l = indirect
      · obtain ⟨h0, hz⟩ := hl hli
        rw [addr_entry_zero hjn h0, addr, dif_neg (by omega)]
        split_ifs
        · rfl
        · rw [hli, addrs_setAddr, UInt32.toNat_ofNat_of_lt' hb, hz]
          exact load_zero ..
      · rw [addr_setAddr hjl fun _ => hli]
        by_cases h0 : v.addrs indirect = 0
        · rw [addr_entry_zero hjn h0, addr_entry_zero hjn h0]
        · rw [addr_const, hl' hli fun h => h0 (toNat_eq_zero_iff.1 h)]
          rfl
    · have hj' : j < ndirect + 1 := by omega
      rw [addr_setAddr hjl fun h => absurd h hjn, addr_direct hj', addr_direct hj']

theorem slot_putEntry {l : ℕ} {blk mem : ℕ → Block} {v : Dinode} (hb : b < 2 ^ 32)
    (h0 : v.addrs indirect ≠ 0) (hl : l < nindirect)
    (hmem : mem (v.addrs indirect).toNat = putEntry (blk (v.addrs indirect).toNat) l b) (j : ℕ) :
    addr mem v j = if j = ndirect + 1 + l then b else addr blk v j := by
  by_cases hjn : j < ndirect + 1
  · rw [addr_direct hjn, addr_direct hjn, if_neg (by omega)]
  · rw [addr, addr, dif_neg hjn, dif_neg hjn, if_neg h0, if_neg h0, hmem, entry_putEntry hl hb]
    exact if_congr (by omega) rfl rfl

end Slots

/-! ## `bmap` -/

section Bmap

variable {L : Layout} {e : Ip} {γ γ' : Knows} {w : Watched} {A B : Finset ℕ}

/-- The indirect block and the block of the free map with its bit, if there is one. -/
def Knows.indSet (L : Layout) (γ : Knows) : Finset ℕ := if γ.ind = 0 then ∅ else {γ.ind, L.bblock γ.ind}

/-- The file may have got more blocks, and besides `A` only what belongs to the indirect block has been
logged. -/
structure Knows.Grows (L : Layout) (γ γ' : Knows) (A : Finset ℕ) : Prop where
  inum : γ'.inum = γ.inum
  buf : γ'.buf = γ.buf
  sections : γ'.sections = γ.sections
  size : γ'.din.size = γ.din.size
  keep : ∀ k < nslot, γ.slot k ≠ 0 → γ'.slot k = γ.slot k
  logged : γ'.logged ⊆ γ.logged ∪ A ∪ γ'.indSet L

namespace Knows.Grows

theorem refl (L : Layout) (γ : Knows) (A : Finset ℕ) : γ.Grows L γ A :=
  ⟨rfl, rfl, rfl, rfl, fun _ _ _ => rfl, fun _ hx =>
    Finset.mem_union_left _ (Finset.mem_union_left _ hx)⟩

theorem mono (h : γ.Grows L γ' A) (hA : A ⊆ B) : γ.Grows L γ' B :=
  { h with logged := h.logged.trans (Finset.union_subset_union_left (Finset.union_subset_union_right hA)) }

theorem indSet (h : γ.Grows L γ' A) : γ.indSet L ⊆ γ'.indSet L := by
  unfold Knows.indSet
  by_cases h0 : γ.ind = 0
  · rw [if_pos h0]
    exact Finset.empty_subset _
  · have hkeep := h.keep ndirect (by decide)
    rw [γ.slot_ndirect, γ'.slot_ndirect] at hkeep
    rw [hkeep h0]

theorem trans {γ'' : Knows} (h : γ.Grows L γ' A) (h' : γ'.Grows L γ'' B) : γ.Grows L γ'' (A ∪ B) := by
  refine ⟨h'.inum.trans h.inum, h'.buf.trans h.buf, h'.sections.trans h.sections, h'.size.trans h.size,
    ?_, ?_⟩
  · intro k hk h0
    have hk' := h.keep k hk h0
    rw [h'.keep k hk (hk' ▸ h0), hk']
  · intro x hx
    have hx := h'.logged hx
    have hi : ∀ {x}, x ∈ γ'.indSet L → x ∈ γ''.indSet L := fun hx => h'.indSet hx
    have hl : ∀ {x}, x ∈ γ'.logged → x ∈ γ.logged ∪ A ∪ γ'.indSet L := fun hx => h.logged hx
    simp only [Finset.mem_union] at hx hl ⊢
    rcases hx with (hx | hx) | hx
    · rcases hl hx with (hx | hx) | hx
      · exact .inl (.inl hx)
      · exact .inl (.inr (.inl hx))
      · exact .inr (hi hx)
    · exact .inl (.inr (.inr hx))
    · exact .inr hx

end Knows.Grows

theorem Knows.Free.lt_word {b : ℕ} (hb : γ.Free L b) : b < 2 ^ 32 :=
  hb.lt.trans (L.size_lt.trans (by decide))

/-- The blocks of the file hold what they held before, apart from the indirect block. -/
def Knows.Same (γ γ' : Knows) : Prop :=
  ∀ k < nslot, k ≠ ndirect → γ.slot k ≠ 0 → γ'.mem (γ.slot k) = γ.mem (γ.slot k)

/-- What a process knows after it has stored the new block `b` to `ip->addrs[k]`. -/
def Knows.setAddr (L : Layout) (γ : Knows) (k : Fin (ndirect + 1)) (b : ℕ) : Knows :=
  { γ.alloc L b with din := Fs.setAddr k b γ.din }

/-- What a process knows after it has stored the new block `b` to entry `j` of the indirect block. -/
def Knows.putEntry (L : Layout) (γ : Knows) (j b : ℕ) : Knows :=
  { γ.alloc L b with
    mem := update (γ.alloc L b).mem γ.ind (Xv6.putEntry (γ.mem γ.ind) j b)
    logged := insert γ.ind (γ.alloc L b).logged }

theorem Knows.mem_alloc (L : Layout) {b x : ℕ} (hx : x ≠ b) : (γ.alloc L b).mem x = γ.mem x :=
  update_of_ne hx ..

section Attach

variable {b : ℕ} (hγ : γ.Full L) (hb : γ.Free L b)
include hγ hb

theorem Knows.Full.slot_ne {j : ℕ} (hj : j < nslot) (hne : γ.slot j ≠ 0) : γ.slot j ≠ b :=
  fun h => hb.notMem (h ▸ hγ.mine j hj hne)

theorem Knows.Full.ind_ne (h0 : γ.ind ≠ 0) : γ.ind ≠ b := fun h => hb.notMem (h ▸ hγ.ind h0)

section Addr

variable {k : Fin (ndirect + 1)} (h0 : γ.din.addrs k = 0)
include h0

theorem Knows.Full.slot_setAddr (j : ℕ) :
    (γ.setAddr L k b).slot j = if j = k then b else γ.slot j := by
  refine Fs.slot_setAddr hb.lt_word (fun hk => ⟨?_, update_self ..⟩) (fun _ hne => ?_) j
  · rw [← hk]
    exact h0
  · exact Knows.mem_alloc L (hγ.ind_ne hb hne)

theorem Knows.Full.ind_setAddr : (γ.setAddr L k b).ind = if k = indirect then b else γ.ind := by
  rw [← Knows.slot_ndirect, hγ.slot_setAddr hb h0, Knows.slot_ndirect]
  refine if_congr ⟨fun h => Fin.ext h.symm, fun h => ?_⟩ rfl rfl
  rw [h]
  rfl

theorem Knows.Full.setAddr : (γ.setAddr L k b).Full L :=
  hγ.attach hb rfl rfl rfl rfl fun j _ => hγ.slot_setAddr hb h0 j

theorem Knows.Full.grows_setAddr :
    γ.Grows L (γ.setAddr L k b) (if k ≠ indirect then {b, L.bblock b} else ∅) := by
  have hk0 : γ.slot k = 0 := by
    rw [Knows.slot, addr_direct k.2, Fin.eta, h0]
    rfl
  refine ⟨rfl, rfl, rfl, rfl, fun j hj hne => ?_, fun x hx => ?_⟩
  · have hjk : j ≠ k := fun h => hne (h ▸ hk0)
    rw [hγ.slot_setAddr hb h0, if_neg hjk]
  · have hx : x = b ∨ x = L.bblock b ∨ x ∈ γ.logged := by simpa [Knows.setAddr, Knows.alloc] using hx
    have hind : k = indirect → (γ.setAddr L k b).indSet L = {b, L.bblock b} := by
      intro hk
      rw [Knows.indSet, hγ.ind_setAddr hb h0, if_pos hk, if_neg hb.ne_zero]
    by_cases hk : k = indirect
    · rw [hind hk]
      simp only [Finset.mem_union, Finset.mem_insert, Finset.mem_singleton]
      tauto
    · rw [if_pos hk]
      simp only [Finset.mem_union, Finset.mem_insert, Finset.mem_singleton]
      tauto

omit h0 in
theorem Knows.Full.same_setAddr : γ.Same (γ.setAddr L k b) := fun _ hj _ hne =>
  Knows.mem_alloc L (hγ.slot_ne hb hj hne)

end Addr

section Entry

variable {j : ℕ} (h0 : γ.din.addrs indirect ≠ 0) (hj : j < nindirect)
include h0 hj

omit hγ in
theorem Knows.Free.slot_putEntry (k : ℕ) :
    (γ.putEntry L j b).slot k = if k = ndirect + 1 + j then b else γ.slot k :=
  Fs.slot_putEntry hb.lt_word h0 hj (update_self ..) k

theorem Knows.Full.putEntry : (γ.putEntry L j b).Full L :=
  hγ.attach hb rfl rfl rfl rfl fun k _ => hb.slot_putEntry h0 hj k

omit hγ in
theorem Knows.Free.grows_putEntry (hz : γ.slot (ndirect + 1 + j) = 0) :
    γ.Grows L (γ.putEntry L j b) {b, L.bblock b} := by
  refine ⟨rfl, rfl, rfl, rfl, fun k _ hne => ?_, fun x hx => ?_⟩
  · have hk : k ≠ ndirect + 1 + j := fun h => hne (h ▸ hz)
    rw [hb.slot_putEntry h0 hj, if_neg hk]
  · have hx : x = γ.ind ∨ x = b ∨ x = L.bblock b ∨ x ∈ γ.logged := by
      simpa [Knows.putEntry, Knows.alloc] using hx
    have hind : (γ.putEntry L j b).indSet L = {γ.ind, L.bblock γ.ind} :=
      if_neg fun h => h0 (toNat_eq_zero_iff.1 h)
    rw [hind]
    simp only [Finset.mem_union, Finset.mem_insert, Finset.mem_singleton]
    tauto

omit h0 hj in
theorem Knows.Full.same_putEntry : γ.Same (γ.putEntry L j b) := by
  intro k hk hkn hne
  have hind : γ.slot k ≠ γ.ind := by
    rw [← γ.slot_ndirect]
    exact fun h => hkn (hγ.inj k hk ndirect (by decide) hne h)
  exact (update_of_ne hind ..).trans (Knows.mem_alloc L (hγ.slot_ne hb hk hne))

end Entry

end Attach

theorem among_bmapAddr (hw : γ.At L e w) (hγ : γ.Full L) (k : Fin (ndirect + 1)) :
    Within L e (bmapAddr L.toSuperblock e k) (fun b w' => ∃ γ' : Knows,
      γ'.At L e w' ∧ γ'.Full L ∧ γ'.slot k = b ∧ b ≠ 0 ∧ (γ.slot k ≠ 0 → γ' = γ) ∧ γ.Same γ' ∧
        γ.Grows L γ' (if k ≠ indirect ∧ γ.slot k = 0 then {b, L.bblock b} else ∅)) w := by
  have hslot : γ.slot k = (γ.din.addrs k).toNat := addr_direct k.2
  refine (among_inode hw).then fun ip w ⟨_, _, hdin, hw⟩ => ?_
  rw [hdin]
  by_cases h0 : γ.din.addrs k = 0
  · rw [if_pos h0]
    have hk0 : γ.slot k = 0 := by rw [hslot, h0]; rfl
    refine (among_balloc hw hγ.disk hγ.marks).then fun b w ⟨hb, hw⟩ => ?_
    refine (among_store hw).then fun _ w hw => Among.ret ?_
    refine ⟨γ.setAddr L k b, hw, hγ.setAddr hb h0, ?_, hb.ne_zero, fun hne => absurd hk0 hne,
      hγ.same_setAddr hb, ?_⟩
    · rw [hγ.slot_setAddr hb h0, if_pos rfl]
    · have hgrow := hγ.grows_setAddr hb h0
      by_cases hk : k = indirect
      · rw [if_neg fun h => h.1 hk]
        rwa [if_neg fun h => h hk] at hgrow
      · rw [if_pos ⟨hk, hk0⟩]
        rwa [if_pos hk] at hgrow
  · rw [if_neg h0]
    have hne : γ.slot k ≠ 0 := by
      rw [hslot]
      exact fun h => h0 (toNat_eq_zero_iff.1 h)
    exact Among.ret ⟨γ, hw, hγ, hslot, hslot ▸ hne, fun _ => rfl, fun _ _ _ _ => rfl, .refl L γ _⟩

theorem among_bmap (hw : γ.At L e w) (hγ : γ.Full L) (bn : ℕ) :
    Within L e (bmap L.toSuperblock e bn) (fun b w' => ∃ γ' : Knows,
      γ'.At L e w' ∧ γ'.Full L ∧ bn < maxFile ∧ γ'.slot (fileSlot bn) = b ∧ b ≠ 0 ∧
        (γ.slot (fileSlot bn) ≠ 0 → γ' = γ) ∧ γ.Same γ' ∧
        γ.Grows L γ' (if γ.slot (fileSlot bn) = 0 then {b, L.bblock b} else ∅)) w := by
  unfold bmap
  by_cases hd : bn < ndirect
  · rw [dif_pos hd]
    refine (among_bmapAddr hw hγ _).mono fun b w hpost => ?_
    obtain ⟨γ', hw, hγ', hslot, hb, hid, hsame, hgrow⟩ := hpost
    have hfs : fileSlot bn = (direct bn hd : ℕ) := fileSlot_direct hd
    rw [hfs]
    have hne : direct bn hd ≠ indirect := fun h => absurd (Fin.val_eq_of_eq h) (Nat.ne_of_lt hd)
    refine ⟨γ', hw, hγ', lt_of_lt_of_le hd (by decide), hslot, hb, hid, hsame, hgrow.mono ?_⟩
    by_cases h0 : γ.slot (direct bn hd : ℕ) = 0
    · rw [if_pos ⟨hne, h0⟩, if_pos h0]
    · rw [if_neg fun h => h0 h.2]
      exact Finset.empty_subset _
  · rw [dif_neg hd]
    by_cases hn : bn - ndirect < nindirect
    · rw [if_pos hn]
      have hfs : fileSlot bn = ndirect + 1 + (bn - ndirect) := fileSlot_entry hd
      have hmax : bn < maxFile := by
        change bn < ndirect + nindirect
        omega
      refine (among_bmapAddr hw hγ indirect).then
        fun a w hpost => ?_
      obtain ⟨γ₁, hw, hγ₁, hslot, ha, hid, hsame, hgrow⟩ := hpost
      rw [if_neg fun h => h.1 rfl] at hgrow
      have hind : γ₁.ind = a := γ₁.slot_ndirect.symm.trans hslot
      have h0 : γ₁.din.addrs indirect ≠ 0 := fun h => ha (by rw [← hind, Knows.ind, h]; rfl)
      have hown : a ∈ γ₁.own := hind ▸ hγ₁.ind (hind ▸ ha)
      have hentry : γ₁.slot (fileSlot bn) = entry (γ₁.mem a) (bn - ndirect) := by
        rw [hfs, Knows.slot, addr, dif_neg (by omega), if_neg h0, Nat.add_sub_cancel_left]
        exact congrArg (fun b => entry (γ₁.mem b) (bn - ndirect)) hind
      refine (among_bread hw a).then fun bp w hpost => ?_
      obtain ⟨hbp, d, hw'⟩ := hpost
      obtain rfl : d = γ₁.mem a := hw'.blk_setBuf.symm.trans (hw'.mem a hown)
      refine (among_data hw').then fun x w hx => ?_
      obtain ⟨rfl, hw'⟩ := hx
      by_cases hz : entry (γ₁.mem a) (bn - ndirect) = 0
      · rw [if_pos hz]
        have hz' : γ.slot (fileSlot bn) = 0 := by
          by_contra hne
          have hkeep := hgrow.keep (fileSlot bn) (fileSlot_lt hmax) hne
          rw [hentry, hz] at hkeep
          exact hne hkeep.symm
        refine (among_balloc hw' hγ₁.disk hγ₁.marks).then fun b w hpost => ?_
        obtain ⟨hb, hw'⟩ := hpost
        have hb : γ₁.Free L b := ⟨hb.notMem, hb.le, hb.lt⟩
        have hw' : ((γ₁.alloc L b).setBuf bp (some (a, γ₁.mem a))).At L e w := hw'
        refine (among_data hw').then fun x w hx => ?_
        obtain ⟨rfl, hw'⟩ := hx
        have hne : ∀ x < L.size, L.bblock x ≠ a := bblock_ne (hw.data a hown).1
        refine (among_setOwn hw' hγ₁.disk hne).then fun _ w hw' => ?_
        refine (among_logWrite hw').then fun _ w hw' => ?_
        refine (among_brelse hw' hbp).then fun _ w hw' => Among.ret ?_
        refine ⟨γ₁.putEntry L (bn - ndirect) b, ?_, hγ₁.putEntry hb h0 hn, hmax, ?_, hb.ne_zero,
          fun hne => absurd hz' hne, ?_, ?_⟩
        · rw [Knows.putEntry, hind]
          exact hw'.1
        · rw [hb.slot_putEntry h0 hn, hfs, if_pos rfl]
        · intro k hk hkn hne
          have hkeep := hgrow.keep k hk hne
          have hsame' := hγ₁.same_putEntry (j := bn - ndirect) hb k hk hkn (hkeep ▸ hne)
          rw [hkeep] at hsame'
          exact hsame'.trans (hsame k hk hkn hne)
        · have hgrow' := hb.grows_putEntry h0 hn (by rw [← hfs, hentry, hz])
          rw [if_pos hz', ← Finset.empty_union {b, L.bblock b}]
          exact hgrow.trans hgrow'
      · rw [if_neg hz]
        refine (among_brelse hw' hbp).then fun _ w hw => Among.ret ?_
        refine ⟨γ₁, hw.1, hγ₁, hmax, hentry, hz, fun hne => hid fun h => ?_, hsame,
          hgrow.mono (Finset.empty_subset _)⟩
        -- without an indirect block there are no entries
        rw [hfs, Knows.slot, addr_entry_zero (by omega)] at hne
        · exact hne rfl
        · exact toNat_eq_zero_iff.1 (γ.slot_ndirect.symm.trans h)
    · rw [if_neg hn]
      exact among_panic hw

end Bmap

/-! ## `writei` -/

section Writei

variable {L : Layout} {e : Ip} {γ γ' : Knows} {w : Watched}

/-- The data blocks with indices in `B`, and for those beyond the old end of the file the blocks of the
free map with their bits. -/
def Knows.dataSet (L : Layout) (γ : Knows) (size : ℕ) (B : Finset ℕ) : Finset ℕ :=
  B.image (fun n => γ.slot (fileSlot n)) ∪
    (B.filter fun n => size ≤ n * bsize).image fun n => L.bblock (γ.slot (fileSlot n))

theorem card_dataSet (γ : Knows) (size : ℕ) (B : Finset ℕ) :
    (γ.dataSet L size B).card ≤ B.card + (B.filter fun n => size ≤ n * bsize).card :=
  (Finset.card_union_le _ _).trans (add_le_add Finset.card_image_le Finset.card_image_le)

theorem card_indSet (γ : Knows) : (γ.indSet L).card ≤ 2 := by
  unfold Knows.indSet
  split_ifs
  · exact Nat.zero_le _
  · exact Finset.card_le_two

theorem Knows.Grows.mapped {A : Finset ℕ} {n : ℕ} (h : γ.Grows L γ' A) (hm : Mapped n γ.slot) :
    Mapped n γ'.slot := by
  intro k hk
  obtain ⟨hlt, hne⟩ := hm k hk
  refine ⟨hlt, ?_⟩
  rw [h.keep _ (fileSlot_lt hlt) hne]
  exact hne

theorem Knows.grows_log (L : Layout) (γ : Knows) (b : ℕ) :
    γ.Grows L { γ with logged := insert b γ.logged } {b} := by
  refine ⟨rfl, rfl, rfl, rfl, fun _ _ _ => rfl, ?_⟩
  rw [Finset.insert_eq, Finset.union_comm]
  exact Finset.subset_union_left

theorem Knows.Full.log (hγ : γ.Full L) (b : ℕ) :
    Knows.Full L { γ with logged := insert b γ.logged } :=
  ⟨hγ.valid, hγ.disk, hγ.marks, hγ.mine, hγ.inj⟩

abbrev Knows.byte (γ : Knows) (j : ℕ) : UInt8 := fileByte γ.mem γ.din j

def Knows.Has (γ : Knows) (j : ℕ) : Prop := j / bsize < maxFile ∧ γ.slot (fileSlot (j / bsize)) ≠ 0

/-- What a process knows after it has changed the contents of block `b` to `d`. -/
def Knows.write (γ : Knows) (b : ℕ) (d : Block) : Knows := { γ with mem := update γ.mem b d }

theorem Knows.Grows.has {A : Finset ℕ} {j : ℕ} (h : γ.Grows L γ' A) (hj : γ.Has j) : γ'.Has j := by
  refine ⟨hj.1, ?_⟩
  rw [h.keep _ (fileSlot_lt hj.1) hj.2]
  exact hj.2

theorem Knows.Same.byte_eq {A : Finset ℕ} {j : ℕ} (h : γ.Same γ') (hg : γ.Grows L γ' A) (hj : γ.Has j) :
    γ'.byte j = γ.byte j := by
  have hlt := fileSlot_lt hj.1
  change Bytes.byte (γ'.mem (γ'.slot _)) _ = Bytes.byte (γ.mem (γ.slot _)) _
  rw [hg.keep _ hlt hj.2, h _ hlt (fileSlot_ne_indSlot _) hj.2]

section Write

variable {n b : ℕ} {d : Block} (hγ : γ.Full L) (hn : n < maxFile) (hslot : γ.slot (fileSlot n) = b)
  (hb : b ≠ 0)
include hγ hn hslot hb

theorem Knows.Full.slot_write (k : ℕ) : (γ.write b d).slot k = γ.slot k := by
  refine addr_update fun _ h => ?_
  have heq : γ.slot (fileSlot n) = γ.slot ndirect := hslot.trans (h.symm.trans γ.slot_ndirect.symm)
  exact fileSlot_ne_indSlot n (hγ.inj _ (fileSlot_lt hn) _ (by decide) (hslot ▸ hb) heq)

theorem Knows.Full.write : (γ.write b d).Full L := by
  have hw := hγ.slot_write (d := d) hn hslot hb
  refine ⟨hγ.valid, hγ.disk, hγ.marks, fun k hk hne => ?_, fun j hj k hk hne heq => ?_⟩
  · rw [hw] at hne ⊢
    exact hγ.mine k hk hne
  · rw [hw] at hne
    rw [hw, hw] at heq
    exact hγ.inj j hj k hk hne heq

theorem Knows.Full.grows_write : γ.Grows L (γ.write b d) ∅ :=
  ⟨rfl, rfl, rfl, rfl, fun k _ _ => hγ.slot_write hn hslot hb k, fun _ hx =>
    Finset.mem_union_left _ (Finset.mem_union_left _ hx)⟩

theorem Knows.Full.byte_write {j : ℕ} (hj : γ.Has j) :
    (γ.write b d).byte j = if j / bsize = n then Bytes.byte d (j % bsize) else γ.byte j := by
  change Bytes.byte (update γ.mem b d ((γ.write b d).slot _)) _ = _
  rw [hγ.slot_write hn hslot hb]
  by_cases hjn : j / bsize = n
  · rw [if_pos hjn, hjn, hslot, update_self]
  · have hne : γ.slot (fileSlot (j / bsize)) ≠ b := by
      rw [← hslot]
      exact fun h => hjn (fileSlot_inj (hγ.inj _ (fileSlot_lt hj.1) _ (fileSlot_lt hn) hj.2 h))
    rw [if_neg hjn, update_of_ne hne]
    rfl

end Write

/-- What the loop of `writei` has written when it stops at offset `off'`. -/
structure Knows.Wrote (γ γ' : Knows) (src : Source) (off left off' : ℕ) : Prop where
  all : (∀ i < left, (src.byteAt i).isSome) → off' = off + left
  new : ∀ i, off + i < off' → src.byteAt i = some (γ'.byte (off + i))
  old : ∀ j, γ.Has j → j < off ∨ off + left ≤ j → γ'.byte j = γ.byte j

theorem Knows.Wrote.nil (γ : Knows) (src : Source) (off : ℕ) : γ.Wrote γ src off 0 off :=
  ⟨fun _ => rfl, fun i hi => absurd hi (Nat.not_lt.2 (Nat.le_add_right off i)), fun _ _ _ => rfl⟩

theorem Knows.Wrote.log {src : Source} {off left off' : ℕ} (h : γ.Wrote γ' src off left off') (b : ℕ) :
    γ.Wrote { γ' with logged := insert b γ'.logged } src off left off' := ⟨h.all, h.new, h.old⟩

theorem Knows.Same.wrote {γ'' : Knows} {A : Finset ℕ} {src : Source} {off left off' : ℕ}
    (hs : γ.Same γ') (hg : γ.Grows L γ' A) (h : γ'.Wrote γ'' src off left off') :
    γ.Wrote γ'' src off left off' :=
  ⟨h.all, h.new, fun j hj hout => (h.old j (hg.has hj) hout).trans (hs.byte_eq hg hj)⟩

theorem Knows.Wrote.trans {γ'' : Knows} {A : Finset ℕ} {src : Source} {off left m off' : ℕ}
    (h : γ.Wrote γ' src off m (off + m)) (hg : γ.Grows L γ' A) (hhas : ∀ i < m, γ'.Has (off + i))
    (hm : m ≤ left) (h' : γ'.Wrote γ'' (src.advance m) (off + m) (left - m) off') :
    γ.Wrote γ'' src off left off' := by
  refine ⟨fun hall => ?_, fun i hi => ?_, fun j hj hout => ?_⟩
  · have hrest := h'.all fun i hi => by
      rw [src.byteAt_advance]
      exact hall (m + i) (by omega)
    omega
  · by_cases him : i < m
    · rw [h'.old _ (hhas i him) (.inl (by omega))]
      exact h.new i (by omega)
    · have hrest := h'.new (i - m) (by omega)
      rw [src.byteAt_advance] at hrest
      have h₁ : m + (i - m) = i := by omega
      have h₂ : off + m + (i - m) = off + i := by omega
      rwa [h₁, h₂] at hrest
  · rw [h'.old j (hg.has hj) (by omega), h.old j hj (by omega)]

section Turn

variable {b off m : ℕ} {d : Block} {src : Source} {ok : Bool} (hγ : γ.Full L)
  (hn : off / bsize < maxFile) (hslot : γ.slot (fileSlot (off / bsize)) = b) (hb : b ≠ 0)
  (hmod : off % bsize + m ≤ bsize) (hcopy : Copied src.byteAt (γ.mem b) (off % bsize) m d ok)

theorem div_mod_of_lt {off m i : ℕ} (hmod : off % bsize + m ≤ bsize) (hi : i < m) :
    (off + i) / bsize = off / bsize ∧ (off + i) % bsize = off % bsize + i := by
  change off % 1024 + m ≤ 1024 at hmod
  change (off + i) / 1024 = off / 1024 ∧ (off + i) % 1024 = off % 1024 + i
  omega

include hn hslot hb hmod in
theorem Knows.has_turn {i : ℕ} (hi : i < m) : γ.Has (off + i) := by
  rw [Knows.Has, (div_mod_of_lt hmod hi).1]
  exact ⟨hn, hslot ▸ hb⟩

include hγ hn hslot hb hcopy

theorem Knows.Full.old_turn {j : ℕ} (hj : γ.Has j) (hout : j < off ∨ off + m ≤ j) :
    (γ.write b d).byte j = γ.byte j := by
  rw [hγ.byte_write hn hslot hb hj]
  by_cases hjn : j / bsize = off / bsize
  · rw [if_pos hjn, hcopy.old _ (Nat.mod_lt _ (by decide)) ?_, Knows.byte, fileByte, hjn]
    · exact congrArg (fun b => Bytes.byte (γ.mem b) (j % bsize)) hslot.symm
    · change j / 1024 = off / 1024 at hjn
      change j % 1024 < off % 1024 ∨ off % 1024 + m ≤ j % 1024
      omega
  · rw [if_neg hjn]

include hmod in
theorem Knows.Full.wrote_turn (hok : ok = true) : γ.Wrote (γ.write b d) src off m (off + m) := by
  refine ⟨fun _ => rfl, fun i hi => ?_, fun j hj hout => hγ.old_turn hn hslot hb hcopy hj hout⟩
  have hi : i < m := Nat.lt_of_add_lt_add_left hi
  obtain ⟨hdiv, hmod'⟩ := div_mod_of_lt hmod hi
  rw [hγ.byte_write hn hslot hb (γ.has_turn hn hslot hb hmod hi), if_pos hdiv, hmod']
  exact hcopy.new hok i hi (by omega)

theorem Knows.Full.wrote_stop {left : ℕ} (hm : m ≤ left) (hok : ok = false) :
    γ.Wrote (γ.write b d) src off left off := by
  refine ⟨fun hall => ?_, fun i hi => absurd hi (Nat.not_lt.2 (Nat.le_add_right off i)), fun j hj hout =>
    hγ.old_turn hn hslot hb hcopy hj (by omega)⟩
  have htrue := hcopy.all.2 fun i hi => hall i (by omega)
  rw [hok] at htrue
  exact absurd htrue Bool.false_ne_true

end Turn

/-- **The loop of `writei`** logs the data blocks it writes and, for those it allocates, the blocks of the
free map. -/
theorem among_writeLoop {size : ℕ} {B : Finset ℕ} {fuel : ℕ} {src : Source} {off left : ℕ}
    (hw : γ.At L e w) (hγ : γ.Full L) (hsize : Mapped size γ.slot) (hoff : Mapped off γ.slot)
    (hfuel : left ≤ fuel) (hB : ∀ n, off / bsize ≤ n → n * bsize < off + left → n ∈ B) :
    Within L e (writeLoop L.toSuperblock e fuel src off left)
      (fun off' w' => ∃ γ' : Knows, γ'.At L e w' ∧ γ'.Full L ∧ Mapped off' γ'.slot ∧
        γ.Grows L γ' (γ'.dataSet L size B) ∧ γ.Wrote γ' src off left off') w := by
  induction fuel generalizing γ w src off left with
  | zero =>
    obtain rfl : left = 0 := Nat.le_zero.1 hfuel
    exact Among.ret ⟨γ, hw, hγ, hoff, .refl L γ _, .nil γ src off⟩
  | succ fuel ih =>
    unfold writeLoop
    by_cases hleft : left = 0
    · rw [if_pos hleft, hleft]
      exact Among.ret ⟨γ, hw, hγ, hoff, .refl L γ _, .nil γ src off⟩
    · rw [if_neg hleft]
      refine (among_bmap hw hγ _).then fun b w hpost => ?_
      obtain ⟨γ₁, hw, hγ₁, hmax, hslot, hb, _, hsame, hgrow⟩ := hpost
      have hlt := fileSlot_lt hmax
      have hown : b ∈ γ₁.own := hslot ▸ hγ₁.mine _ hlt (hslot ▸ hb)
      have hmem : off / bsize ∈ B := by
        refine hB _ le_rfl ?_
        have := Nat.div_mul_le_self off bsize
        omega
      -- the blocks of this turn are among those of the whole loop
      have hturn : ∀ {γ' : Knows}, γ'.slot (fileSlot (off / bsize)) = b →
          (if γ.slot (fileSlot (off / bsize)) = 0 then {b, L.bblock b} else ∅) ∪ {b} ⊆
            γ'.dataSet L size B := by
        intro γ' hb'
        have hdata : b ∈ γ'.dataSet L size B :=
          Finset.mem_union_left _ (Finset.mem_image.2 ⟨_, hmem, hb'⟩)
        refine Finset.union_subset ?_ (Finset.singleton_subset_iff.2 hdata)
        by_cases h0 : γ.slot (fileSlot (off / bsize)) = 0
        · have hnew : size ≤ off / bsize * bsize := not_lt.1 fun hlt => (hsize _ hlt).2 h0
          rw [if_pos h0, Finset.insert_subset_iff, Finset.singleton_subset_iff]
          exact ⟨hdata, Finset.mem_union_right _
            (Finset.mem_image.2 ⟨_, Finset.mem_filter.2 ⟨hmem, hnew⟩, by rw [hb']⟩)⟩
        · rw [if_neg h0]
          exact Finset.empty_subset _
      set m := min left (bsize - off % bsize) with hm
      refine (among_bread hw b).then fun bp w hpost => ?_
      obtain ⟨hbp, d, hw'⟩ := hpost
      obtain rfl : d = γ₁.mem b := hw'.blk_setBuf.symm.trans (hw'.mem b hown)
      refine (among_copyin hw' hγ₁.disk (bblock_ne (hw.data b hown).1)).then fun ok w hpost => ?_
      obtain ⟨d, hcopy, hw'⟩ := hpost
      have hw' : ((γ₁.write b d).setBuf bp (some (b, d))).At L e w := hw'
      have hγ₂ := hγ₁.write (d := d) hmax hslot hb
      have hwrite := hgrow.trans (hγ₁.grows_write (d := d) hmax hslot hb)
      rw [Finset.union_empty] at hwrite
      have hslot₂ : (γ₁.write b d).slot (fileSlot (off / bsize)) = b :=
        (hγ₁.slot_write hmax hslot hb _).trans hslot
      have hlt' := Nat.mod_lt off (show 0 < bsize by decide)
      have hmod : off % bsize + m ≤ bsize := by omega
      have hspec := eitherCopyin_spec (γ₁.mem b) (off % bsize) src m
      rw [hcopy] at hspec
      cases ok with
      | true =>
        rw [if_pos rfl]
        refine (among_logWrite hw').then fun _ w hw' => ?_
        refine (among_brelse hw' hbp).then fun _ w hw' => ?_
        have hlog := hwrite.trans ((γ₁.write b d).grows_log L b)
        have hne₂ : (γ₁.write b d).slot (fileSlot (off / bsize)) ≠ 0 := by rwa [hslot₂]
        have hoff' := (hlog.mapped hoff).extend hmax hne₂ (Nat.min_le_right left _)
        refine (ih hw'.1 (hγ₂.log b) (hlog.mapped hsize) hoff' (by omega) fun n hn hlt =>
          hB n ?_ (by omega)).mono ?_
        · exact le_trans (Nat.div_le_div_right (Nat.le_add_right off _)) hn
        · rintro off' w ⟨γ', hw, hγ', hm, hgrow', hwrote⟩
          have hslot' : γ'.slot (fileSlot (off / bsize)) = b :=
            (hgrow'.keep _ hlt hne₂).trans hslot₂
          refine ⟨γ', hw, hγ', hm, (hlog.trans hgrow').mono (Finset.union_subset (hturn hslot') subset_rfl), ?_⟩
          have hhas : ∀ i < m, (γ₁.write b d).Has (off + i) := fun i hi =>
            Knows.has_turn hmax hslot₂ hb hmod hi
          have hfirst := (hγ₁.wrote_turn hmax hslot hb hmod hspec rfl).log b
          have hgrow₁ := (hγ₁.grows_write (d := d) hmax hslot hb).trans ((γ₁.write b d).grows_log L b)
          exact hsame.wrote hgrow (hfirst.trans hgrow₁ hhas (Nat.min_le_left _ _) hwrote)
      | false =>
        rw [if_neg (by decide)]
        refine (among_brelse hw' hbp).then fun _ w hw' => Among.ret
          ⟨γ₁.write b d, hw'.1, hγ₂, hwrite.mapped hoff, ?_, ?_⟩
        · exact hwrite.mono (Finset.subset_union_left.trans (hturn hslot₂))
        · exact hsame.wrote hgrow
            (hγ₁.wrote_stop hmax hslot hb hspec (Nat.min_le_left _ _) rfl)

theorem among_iupdate (hw : γ.At L e w) (hdisk : γ.disk = none) (hi : γ.inum < L.ninodes) :
    Within L e (iupdate L.toSuperblock e) (fun _ w' =>
      Knows.At L e { γ with logged := insert (L.iblock γ.inum) γ.logged } w') w := by
  have hne : ∀ x < L.size, L.bblock x ≠ L.iblock γ.inum := fun x _ =>
    (lt_of_lt_of_le (L.iblock_lt hi) (L.bmapstart_le_bblock x)).ne'
  refine (among_inode hw).then fun ip w ⟨hinum, _, hdin, hw⟩ => ?_
  rw [hinum]
  refine (among_bread hw _).then fun bp w ⟨hbp, d, hw⟩ => ?_
  refine (among_data hw).then fun x w hx => ?_
  refine (among_inode hx.2).then fun ip w ⟨_, _, _, hw⟩ => ?_
  -- the block of an inode is not a data block
  have hmem : ∀ d' : Block, ∀ x ∈ γ.own, (if x = L.iblock γ.inum then d' else γ.mem x) = γ.mem x := by
    intro d' x hx
    exact if_neg (lt_of_lt_of_le (L.iblock_lt_nmeta hi) (hw.data x hx).1).ne'
  refine (among_setData hw hdisk hne (hmem _)).then fun _ w hw => ?_
  refine (among_logWrite hw).then fun _ w hw => ?_
  exact (among_brelse hw hbp).mono fun _ w hw => hw.1

def span (off n : ℕ) : Finset ℕ := Finset.Ico (off / bsize) ((off + n + (bsize - 1)) / bsize)

/-- **The count**: a write of at most `max` bytes that starts within the file spans few blocks, of which
few are new. -/
theorem card_span {off n size : ℕ} (hn : n ≤ maxWrite) (hoff : off ≤ size) :
    (span off n).card + ((span off n).filter fun k => size ≤ k * bsize).card + 3 ≤ maxOpBlocks := by
  have hsub : ((span off n).filter fun k => size ≤ k * bsize) ⊆
      Finset.Ico ((off + (bsize - 1)) / bsize) ((off + n + (bsize - 1)) / bsize) := by
    intro k hk
    obtain ⟨hk, hnew⟩ := Finset.mem_filter.1 hk
    refine Finset.mem_Ico.2 ⟨?_, (Finset.mem_Ico.1 hk).2⟩
    change size ≤ k * 1024 at hnew
    change (off + 1023) / 1024 ≤ k
    omega
  have hcard := Finset.card_le_card hsub
  rw [Nat.card_Ico] at hcard
  rw [span, Nat.card_Ico]
  change n ≤ 3072 at hn
  change _ ≤ (off + n + 1023) / 1024 - (off + 1023) / 1024 at hcard
  change (off + n + 1023) / 1024 - off / 1024 + _ + 3 ≤ 10
  -- an unaligned start is in a block that is already there
  unfold span at hcard
  omega

/-- What a process knows of a file between two calls: it may extend it, and there are no holes. -/
structure Knows.Ready (L : Layout) (γ : Knows) : Prop where
  full : γ.Full L
  inum : γ.inum < L.ninodes
  mapped : Mapped γ.din.size.toNat γ.slot

theorem among_writeSize {off : ℕ} (hw : γ.At L e w) (hγ : γ.Ready L) (hoff : Mapped off γ.slot) :
    Within L e (writeSize L.toSuperblock e off) (fun _ w' => ∃ γ' : Knows,
      γ'.At L e w' ∧ γ'.Ready L ∧ γ'.buf = γ.buf ∧ γ'.sections = γ.sections ∧
        γ'.logged = insert (L.iblock γ.inum) γ.logged ∧ (∀ j, γ'.byte j = γ.byte j) ∧
        γ'.din.size = if off > γ.din.size.toNat then UInt32.ofNat off else γ.din.size) w := by
  refine (among_inode hw).then fun ip w ⟨_, _, hdin, hw⟩ => ?_
  rw [hdin]
  by_cases hlt : off > γ.din.size.toNat
  · rw [if_pos hlt, if_pos hlt]
    refine (among_store hw).then fun _ w hw => ?_
    have hfull : Knows.Full L { γ with din := { γ.din with size := UInt32.ofNat off } } :=
      ⟨hγ.full.valid, hγ.full.disk, hγ.full.marks, hγ.full.mine, hγ.full.inj⟩
    refine (among_iupdate hw hfull.disk hγ.inum).mono fun _ w hw => ?_
    refine ⟨_, hw, ⟨hfull.log _, hγ.inum, fun n hn => hoff n ?_⟩, rfl, rfl, rfl, fun _ => rfl, rfl⟩
    change n * bsize < (UInt32.ofNat off).toNat at hn
    rw [UInt32.toNat_ofNat'] at hn
    exact lt_of_lt_of_le hn (Nat.mod_le _ _)
  · rw [if_neg hlt, if_neg hlt]
    refine (among_iupdate hw hγ.full.disk hγ.inum).mono fun _ w hw => ?_
    exact ⟨_, hw, ⟨hγ.full.log _, hγ.inum, hγ.mapped⟩, rfl, rfl, rfl, fun _ => rfl, rfl⟩

abbrev Knows.contents (γ : Knows) : List UInt8 := Fs.contents γ.mem γ.din

theorem Knows.Ready.has (hγ : γ.Ready L) {j : ℕ} (hj : j < γ.din.size.toNat) : γ.Has j :=
  hγ.mapped _ (lt_of_le_of_lt (Nat.div_mul_le_self j bsize) hj)

/-- **What `writei` writes**, if all of its source is there. -/
theorem Knows.Wrote.contents_eq {src : Source} {off : ℕ} {data : List UInt8} {off' : ℕ}
    (h : γ.Wrote γ' src off data.length off') (hγ : γ.Ready L) (hgives : src.Gives data)
    (hoff : off ≤ γ.din.size.toNat) {γ'' : Knows} (hbyte : ∀ j, γ''.byte j = γ'.byte j)
    (hsize : γ''.din.size.toNat = max γ.din.size.toNat (off + data.length)) :
    γ''.contents = overwrite γ.contents off data := by
  have hlen : γ.contents.length = γ.din.size.toNat := length_contents ..
  have hoff' : off' = off + data.length := h.all fun i hi => hgives.isSome hi
  refine List.ext_getElem? fun j => ?_
  rw [getElem?_overwrite (hlen ▸ hoff)]
  by_cases hj : j < γ''.din.size.toNat
  · rw [getElem?_contents hj]
    change some (γ''.byte j) = _
    rw [hbyte]
    by_cases hin : off ≤ j ∧ j < off + data.length
    · have hnew := h.new (j - off) (by omega)
      rw [Nat.add_sub_of_le hin.1] at hnew
      rw [if_pos hin, ← hgives (j - off) (by omega), hnew]
    · have hj' : j < γ.din.size.toNat := by omega
      rw [if_neg hin, h.old j (hγ.has hj') (by omega), getElem?_contents hj']
  · have hnone : γ''.contents[j]? = none := List.getElem?_eq_none (by rw [length_contents]; omega)
    rw [hnone, if_neg (by omega), List.getElem?_eq_none (by omega)]

theorem among_writei {src : Source} {off n : UInt32} (hw : γ.At L e w) (hγ : γ.Ready L)
    (hlog : γ.logged = ∅) (hn : n.toNat ≤ maxWrite) :
    Within L e (writei L.toSuperblock e src off n) (fun r w' => ∃ γ' : Knows,
      γ'.At L e w' ∧ γ'.Ready L ∧ γ'.buf = γ.buf ∧ γ'.sections = γ.sections ∧
        γ'.logged.card ≤ maxOpBlocks ∧
        (r ≥ 0 → r = n.toNat ∧ off.toNat ≤ γ.contents.length ∧ off.toNat + n.toNat < 2 ^ 32 ∧
          ∀ data, data.length = n.toNat → src.Gives data →
            γ'.contents = overwrite γ.contents off.toNat data)) w := by
  have hnone : γ.logged.card ≤ maxOpBlocks := by rw [hlog]; exact Nat.zero_le _
  refine (among_inode hw).then fun ip w ⟨_, _, hdin, hw⟩ => ?_
  rw [hdin]
  by_cases hbeyond : off > γ.din.size ∨ off + n < off
  · rw [if_pos hbeyond]
    exact Among.ret ⟨γ, hw, hγ, rfl, rfl, hnone, fun h => absurd h (by decide)⟩
  rw [if_neg hbeyond]
  by_cases hbig : (off + n).toNat > maxFile * bsize
  · rw [if_pos hbig]
    exact Among.ret ⟨γ, hw, hγ, rfl, rfl, hnone, fun h => absurd h (by decide)⟩
  · rw [if_neg hbig]
    have hoff : off.toNat ≤ γ.din.size.toNat :=
      UInt32.le_iff_toNat_le.1 (UInt32.not_lt.1 fun h => hbeyond (.inl h))
    have hsum : off.toNat + n.toNat < 2 ^ 32 := by
      rw [← toNat_add_of_le fun h => hbeyond (.inr h)]
      exact (off + n).toNat_lt
    have hm : Mapped off.toNat γ.slot := fun k hk => hγ.mapped k (lt_of_lt_of_le hk hoff)
    refine (among_writeLoop (B := span off.toNat n.toNat) hw hγ.full hγ.mapped hm le_rfl
      fun k hk hlt => ?_).then fun off' w ⟨γ', hw, hγ', hm', hgrow, hwrote⟩ => ?_
    · refine Finset.mem_Ico.2 ⟨hk, ?_⟩
      change k < (off.toNat + n.toNat + 1023) / 1024
      change k * 1024 < _ at hlt
      omega
    · have hcount : γ'.logged.card + 1 ≤ maxOpBlocks := by
        have h₁ := Finset.card_le_card hgrow.logged
        rw [hlog, Finset.empty_union] at h₁
        have h₂ := h₁.trans (Finset.card_union_le _ _)
        have h₃ := card_dataSet (L := L) γ' γ.din.size.toNat (span off.toNat n.toNat)
        have h₄ := card_indSet (L := L) γ'
        have h₅ := card_span hn hoff
        omega
      have hlen : off.toNat ≤ γ.contents.length := by rwa [length_contents]
      have hready : γ'.Ready L := ⟨hγ', hgrow.inum ▸ hγ.inum, hgrow.size ▸ hgrow.mapped hγ.mapped⟩
      by_cases hpos : n > 0
      · rw [if_pos hpos]
        refine (among_writeSize hw hready hm').then
          fun _ w ⟨γ'', hw, hγ'', hbuf, hsec, hlog', hbyte, hsize⟩ => ?_
        refine Among.ret ⟨γ'', hw, hγ'', hbuf.trans hgrow.buf, hsec.trans hgrow.sections, ?_,
          fun _ => ⟨rfl, hlen, hsum, fun data hdata hgives => ?_⟩⟩
        · rw [hlog']
          exact (Finset.card_insert_le _ _).trans hcount
        · rw [← hdata] at hwrote hsum
          refine hwrote.contents_eq hγ hgives hoff hbyte ?_
          rw [hsize, hgrow.size, hwrote.all fun i hi => hgives.isSome hi]
          split_ifs with hgt
          · rw [UInt32.toNat_ofNat_of_lt' hsum]
            omega
          · omega
      · rw [if_neg hpos]
        refine Among.ret ⟨γ', hw, hready, hgrow.buf, hgrow.sections, (Nat.le_succ _).trans hcount,
          fun _ => ⟨rfl, hlen, hsum, fun data hdata hgives => ?_⟩⟩
        have hzero : n.toNat = 0 := Nat.eq_zero_of_not_pos fun h => hpos (UInt32.lt_iff_toNat_lt.2 h)
        rw [← hdata] at hwrote
        refine hwrote.contents_eq hγ hgives hoff (fun _ => rfl) ?_
        rw [hgrow.size]
        omega

end Writei

end Xv6.Fs

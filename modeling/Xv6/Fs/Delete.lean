import Xv6.Fs.Budget

/-!
# The budget of a delete

The transaction in which `fileclose` drops the last reference to an inode without a name. `iput` frees all
blocks of the file, and logs for each the block of the free map with its bit, and the block of the inode.

* `Knows.Frees`: which blocks were given back, and what was logged for it; `among_itrunc`.
* **`fileclose_budget_iff`**: the transaction logs at most `MAXOPBLOCKS` blocks exactly if the blocks of the
  file lie under fewer blocks of the free map than that.
* **`fileclose_exceeds`**: a file of ten blocks for which it logs eleven.
-/

namespace Xv6.Fs

open Function Bytes Prog
open Bio (BufId)
open Icache (Ip Entry)

/-! ## Giving blocks back -/

section Frees

variable {L : Layout} {e : Ip} {γ γ' γ'' : Knows} {w : Watched} {b : ℕ} {F F' : Set ℕ} {A A' : Finset ℕ}

/-- The blocks `F` were given back, and `A` was logged. -/
structure Knows.Frees (γ γ' : Knows) (F : Set ℕ) (A : Finset ℕ) : Prop where
  inum : γ'.inum = γ.inum
  disk : γ'.disk = γ.disk
  mem : γ'.mem = γ.mem
  own : γ'.own = γ.own \ F
  logged : γ'.logged = γ.logged ∪ A
  buf : γ'.buf = γ.buf
  sections : γ'.sections = γ.sections

theorem Knows.Frees.refl (γ : Knows) : γ.Frees γ ∅ ∅ :=
  ⟨rfl, rfl, rfl, Set.sdiff_empty.symm, (Finset.union_empty _).symm, rfl, rfl⟩

theorem Knows.Frees.trans (h : γ.Frees γ' F A) (h' : γ'.Frees γ'' F' A') :
    γ.Frees γ'' (F ∪ F') (A ∪ A') := by
  refine ⟨h'.inum.trans h.inum, h'.disk.trans h.disk, h'.mem.trans h.mem, ?_, ?_,
    h'.buf.trans h.buf, h'.sections.trans h.sections⟩
  · rw [h'.own, h.own, Set.sdiff_sdiff]
  · rw [h'.logged, h.logged, Finset.union_assoc]

theorem Knows.Frees.setDin (h : γ.Frees γ' F A) (v : Dinode) : γ.Frees { γ' with din := v } F A :=
  ⟨h.inum, h.disk, h.mem, h.own, h.logged, h.buf, h.sections⟩

theorem among_bfree (hw : γ.At L e w) (hdisk : γ.disk = none) (hb : b < L.size) :
    Within L e (bfree L.toSuperblock b) (fun _ w' => ∃ γ' : Knows, γ'.At L e w' ∧ γ'.din = γ.din ∧
      γ.Frees γ' {b} {L.bblock b}) w := by
  refine (among_bread hw _).then fun bp w ⟨hbp, d, hw⟩ => ?_
  refine (among_data hw).then fun x w hx => ?_
  obtain ⟨rfl, hw⟩ := hx
  by_cases hbit : bit x (b % bpb) = false
  · rw [if_pos hbit]
    exact among_panic hw
  · rw [if_neg hbit]
    refine (among_clear hw hdisk hb (by simpa using hbit)).then fun _ w hw => ?_
    refine (among_logWrite hw).then fun _ w hw => ?_
    refine (among_brelse hw hbp).mono fun _ w hw => ⟨_, hw.1, rfl, ?_⟩
    exact ⟨rfl, rfl, rfl, rfl, by rw [Finset.union_comm]; rfl, rfl, rfl⟩

def mapOf (L : Layout) (l : List ℕ) : Finset ℕ := ((l.filter (· ≠ 0)).map L.bblock).toFinset

theorem mapOf_cons (b : ℕ) (l : List ℕ) :
    mapOf L (b :: l) = (if b = 0 then ∅ else {L.bblock b}) ∪ mapOf L l := by
  unfold mapOf
  by_cases h0 : b = 0
  · rw [if_pos h0, List.filter_cons_of_neg (by simpa using h0), Finset.empty_union]
  · rw [if_neg h0, List.filter_cons_of_pos (by simpa using h0), List.map_cons, List.toFinset_cons,
      Finset.insert_eq]

theorem among_truncDirect (hw : γ.At L e w) (hdisk : γ.disk = none) (k : Fin (ndirect + 1))
    (hb : (γ.din.addrs k).toNat < L.size) :
    Within L e (truncDirect L.toSuperblock e k) (fun _ w' => ∃ γ' : Knows, γ'.At L e w' ∧
      (∀ j, j ≠ k → γ'.din.addrs j = γ.din.addrs j) ∧
      γ.Frees γ' ({(γ.din.addrs k).toNat} \ {0})
        (if (γ.din.addrs k).toNat = 0 then ∅ else {L.bblock (γ.din.addrs k).toNat})) w := by
  refine (among_inode hw).then fun ip w ⟨_, _, hdin, hw⟩ => ?_
  rw [hdin]
  by_cases h0 : γ.din.addrs k = 0
  · rw [if_pos h0, if_pos (toNat_eq_zero_iff.2 h0), toNat_eq_zero_iff.2 h0, Set.sdiff_self]
    exact Among.ret ⟨γ, hw, fun _ _ => rfl, .refl γ⟩
  · have hne : (γ.din.addrs k).toNat ≠ 0 := fun h => h0 (toNat_eq_zero_iff.1 h)
    rw [if_neg h0, if_neg hne, Set.sdiff_singleton_eq_self (by simpa using hne.symm)]
    refine (among_bfree hw hdisk hb).then fun _ w ⟨γ', hw, hdin', hfree⟩ => ?_
    refine (among_store hw).mono fun _ w hw => ⟨_, hw, fun j hj => ?_, hfree.setDin _⟩
    change (setAddr k 0 γ'.din).addrs j = _
    rw [hdin']
    exact update_of_ne hj ..

def given (l : List ℕ) : Set ℕ := {b | b ∈ l} \ {0}

theorem given_cons (b : ℕ) (l : List ℕ) : given (b :: l) = {b} \ {0} ∪ given l := by
  ext x
  simp [given, or_and_right]

theorem among_truncDirects {l : List (Fin (ndirect + 1))} (i : ℕ) (hw : γ.At L e w)
    (hdisk : γ.disk = none) (hl : l.Nodup) (hlt : ∀ k ∈ l, (γ.din.addrs k).toNat < L.size) :
    Within L e (.forEnum (fun _ k => truncDirect L.toSuperblock e k) i l) (fun _ w' => ∃ γ' : Knows,
      γ'.At L e w' ∧ (∀ j ∉ l, γ'.din.addrs j = γ.din.addrs j) ∧
      γ.Frees γ' (given (l.map fun k => (γ.din.addrs k).toNat))
        (mapOf L (l.map fun k => (γ.din.addrs k).toNat))) w := by
  induction l generalizing i γ w with
  | nil =>
    refine Among.ret ⟨γ, hw, fun _ _ => rfl, ?_⟩
    have hg : given [] = ∅ := by simp [given]
    rw [List.map_nil, hg]
    exact .refl γ
  | cons k l ih =>
    obtain ⟨hk, hl⟩ := List.nodup_cons.1 hl
    refine (among_truncDirect hw hdisk k (hlt k List.mem_cons_self)).then fun _ w ⟨γ₁, hw, hsame, hfree⟩ => ?_
    have hne : ∀ j ∈ l, γ₁.din.addrs j = γ.din.addrs j := fun j hj => hsame j fun h => hk (h ▸ hj)
    have hmap : l.map (fun j => (γ₁.din.addrs j).toNat) = l.map fun j => (γ.din.addrs j).toNat :=
      List.map_congr_left fun j hj => by rw [hne j hj]
    refine (ih (i + 1) hw (hfree.disk.trans hdisk) hl fun j hj => ?_).mono
      fun _ w ⟨γ₂, hw, hsame₂, hfree₂⟩ => ⟨γ₂, hw, fun j hj => ?_, ?_⟩
    · rw [hne j hj]
      exact hlt j (List.mem_cons_of_mem _ hj)
    · rw [List.mem_cons, not_or] at hj
      rw [hsame₂ j hj.2, hsame j hj.1]
    · rw [List.map_cons, given_cons, mapOf_cons, ← hmap]
      exact hfree.trans hfree₂

theorem among_truncEntries {bp : BufId} {a : ℕ} {t : Block} {l : List ℕ} (i : ℕ) (hw : γ.At L e w)
    (hdisk : γ.disk = none) (hbp : γ.buf bp = some (a, t)) (hlt : ∀ j ∈ l, entry t j < L.size) :
    Within L e (.forEnum (fun _ j => truncEntry L.toSuperblock bp j) i l) (fun _ w' => ∃ γ' : Knows,
      γ'.At L e w' ∧ γ'.din = γ.din ∧
      γ.Frees γ' (given (l.map (entry t))) (mapOf L (l.map (entry t)))) w := by
  induction l generalizing i γ w with
  | nil =>
    refine Among.ret ⟨γ, hw, rfl, ?_⟩
    have hg : given [] = ∅ := by simp [given]
    rw [List.map_nil, hg]
    exact .refl γ
  | cons j l ih =>
    have hlt' : ∀ j ∈ l, entry t j < L.size := fun j hj => hlt j (List.mem_cons_of_mem _ hj)
    rw [List.map_cons, given_cons, mapOf_cons]
    have hturn : Within L e (truncEntry L.toSuperblock bp j) (fun _ w' => ∃ γ' : Knows, γ'.At L e w' ∧
        γ'.din = γ.din ∧ γ.Frees γ' ({entry t j} \ {0})
          (if entry t j = 0 then ∅ else {L.bblock (entry t j)})) w := by
      have hsame : γ.setBuf bp (some (a, t)) = γ := by
        rw [← hbp]
        unfold Knows.setBuf
        rw [update_eq_self]
      have hw' : (γ.setBuf bp (some (a, t))).At L e w := hsame.symm ▸ hw
      refine (among_data hw').then fun x w hx => ?_
      obtain ⟨rfl, hw⟩ := hx
      rw [hsame] at hw
      by_cases h0 : entry x j = 0
      · rw [if_pos h0, if_pos h0, h0, Set.sdiff_self]
        exact Among.ret ⟨γ, hw, rfl, .refl γ⟩
      · rw [if_neg h0, if_neg h0, Set.sdiff_singleton_eq_self (by simpa using Ne.symm h0)]
        exact among_bfree hw hdisk (hlt j List.mem_cons_self)
    refine hturn.then fun _ w ⟨γ₁, hw, hdin, hfree⟩ => ?_
    refine (ih (i + 1) hw (hfree.disk.trans hdisk) (hfree.buf ▸ hbp) hlt').mono
      fun _ w ⟨γ₂, hw, hdin₂, hfree₂⟩ => ⟨γ₂, hw, hdin₂.trans hdin, hfree.trans hfree₂⟩

theorem among_truncIndirect (hw : γ.At L e w) (hdisk : γ.disk = none)
    (hown : γ.ind ≠ 0 → γ.ind ∈ γ.own)
    (hlt : γ.ind ≠ 0 → ∀ j < nindirect, entry (γ.mem γ.ind) j < L.size) :
    Within L e (truncIndirect L.toSuperblock e) (fun _ w' => ∃ (γ' : Knows) (F : Set ℕ), γ'.At L e w' ∧
      γ.Frees γ' F (if γ.ind = 0 then ∅ else
        mapOf L ((List.range nindirect).map (entry (γ.mem γ.ind))) ∪ {L.bblock γ.ind})) w := by
  refine (among_inode hw).then fun ip w ⟨_, _, hdin, hw⟩ => ?_
  rw [hdin]
  by_cases h0 : γ.din.addrs indirect = 0
  · rw [if_pos h0, if_pos (toNat_eq_zero_iff.2 h0)]
    exact Among.ret ⟨γ, ∅, hw, .refl γ⟩
  · have hne : γ.ind ≠ 0 := fun h => h0 (toNat_eq_zero_iff.1 h)
    have hsize := (hw.data _ (hown hne)).2
    rw [if_neg h0, if_neg hne]
    refine (among_bread hw _).then fun bp w ⟨hbp, d, hw⟩ => ?_
    obtain rfl : d = γ.mem γ.ind := hw.blk_setBuf.symm.trans (hw.mem _ (hown hne))
    have hloop := among_truncEntries (l := List.range nindirect) 0 hw hdisk (Knows.setBuf_self ..)
      fun j hj => hlt hne j (List.mem_range.1 hj)
    refine hloop.then fun _ w ⟨γ₁, hw, hdin₁, hfree⟩ => ?_
    have hγ₁ : γ₁ = Knows.setBuf { γ₁ with buf := γ.buf } bp (some (γ.ind, γ.mem γ.ind)) := by
      have hbuf := hfree.buf
      cases γ₁
      subst hbuf
      rfl
    rw [hγ₁] at hw
    refine (among_brelse hw hbp).then fun _ w hw => ?_
    have hdisk₁ : γ₁.disk = none := hfree.disk.trans hdisk
    refine (among_bfree hw.1 hdisk₁ hsize).then fun _ w ⟨γ₂, hw, _, hfree₂⟩ => ?_
    have h₁ : γ.Frees { γ₁ with buf := γ.buf } _ _ := { hfree with buf := rfl }
    have h₂ := h₁.trans hfree₂
    exact (among_store hw).mono fun _ w hw => ⟨_, _, hw, h₂.setDin _⟩

structure Knows.Doomed (L : Layout) (γ : Knows) : Prop where
  disk : γ.disk = none
  inum : γ.inum < L.ninodes
  mine : γ.ind ≠ 0 → γ.ind ∈ γ.own
  lt : ∀ k < nslot, γ.slot k < L.size
  apart : ∀ k < nslot, k ≠ ndirect → γ.slot k ≠ 0 → γ.slot k ≠ γ.ind

def mapBlocks (L : Layout) (slot : ℕ → ℕ) : Finset ℕ :=
  ((Finset.range nslot).filter fun k => slot k ≠ 0).image fun k => L.bblock (slot k)

theorem mem_mapOf {l : List ℕ} {x : ℕ} : x ∈ mapOf L l ↔ ∃ b ∈ l, b ≠ 0 ∧ L.bblock b = x := by
  simp [mapOf, and_assoc]

theorem mapBlocks_eq (γ : Knows) : mapBlocks L γ.slot =
    mapOf L ((List.finRange ndirect |>.map Fin.castSucc).map fun k => (γ.din.addrs k).toNat) ∪
      if γ.ind = 0 then ∅ else
        mapOf L ((List.range nindirect).map (entry (γ.mem γ.ind))) ∪ {L.bblock γ.ind} := by
  ext x
  have hdirect : ∀ k : Fin (ndirect + 1), γ.slot k = (γ.din.addrs k).toNat := fun k => addr_direct k.2
  have hentry : γ.ind ≠ 0 → ∀ j, γ.slot (ndirect + 1 + j) = entry (γ.mem γ.ind) j := by
    intro h0 j
    rw [Knows.slot, addr, dif_neg (by omega), if_neg fun h => h0 (toNat_eq_zero_iff.2 h),
      Nat.add_sub_cancel_left]
  simp only [mapBlocks, Finset.mem_image, Finset.mem_filter, Finset.mem_range, Finset.mem_union, mem_mapOf,
    List.mem_map]
  constructor
  · rintro ⟨k, ⟨hk, hne⟩, rfl⟩
    by_cases hk₁ : k < ndirect
    · exact .inl ⟨_, ⟨_, ⟨⟨k, hk₁⟩, List.mem_finRange _, rfl⟩, (hdirect ⟨k, _⟩).symm⟩, hne, rfl⟩
    · right
      have h0 : γ.ind ≠ 0 := by
        intro h0
        by_cases hk₂ : k = ndirect
        · rw [hk₂, γ.slot_ndirect] at hne
          exact hne h0
        · exact hne (addr_entry_zero (by omega) (toNat_eq_zero_iff.1 h0))
      rw [if_neg h0, Finset.mem_union, Finset.mem_singleton, mem_mapOf]
      by_cases hk₂ : k = ndirect
      · right
        rw [hk₂, γ.slot_ndirect]
      · obtain ⟨j, rfl⟩ : ∃ j, k = ndirect + 1 + j := ⟨k - (ndirect + 1), by omega⟩
        rw [hentry h0] at hne ⊢
        exact .inl ⟨_, List.mem_map.2 ⟨j, List.mem_range.2 (Nat.lt_of_add_lt_add_left hk), rfl⟩, hne, rfl⟩
  · rintro (⟨_, ⟨_, ⟨j, _, rfl⟩, rfl⟩, hne, rfl⟩ | hx)
    · refine ⟨j, ⟨lt_of_lt_of_le j.2 (by decide), ?_⟩, ?_⟩
      · exact (hdirect j.castSucc) ▸ hne
      · exact congrArg L.bblock (hdirect j.castSucc)
    · by_cases h0 : γ.ind = 0
      · rw [if_pos h0] at hx
        exact absurd hx (Finset.notMem_empty x)
      · rw [if_neg h0, Finset.mem_union, Finset.mem_singleton, mem_mapOf] at hx
        rcases hx with ⟨_, hmem, hne, rfl⟩ | rfl
        · obtain ⟨j, hj, rfl⟩ := List.mem_map.1 hmem
          refine ⟨ndirect + 1 + j, ⟨Nat.add_lt_add_left (List.mem_range.1 hj) _, ?_⟩, ?_⟩
          · rwa [hentry h0]
          · rw [hentry h0]
        · exact ⟨ndirect, ⟨by decide, by rwa [γ.slot_ndirect]⟩, by rw [γ.slot_ndirect]⟩

/-- **`itrunc`** logs the blocks of the free map with the bits of the file's blocks, and the block of the
inode. -/
theorem among_itrunc (hw₀ : γ.At L e w) (hγ : γ.Doomed L) :
    Within L e (itrunc L.toSuperblock e) (fun _ w' => ∃ γ' : Knows, γ'.At L e w' ∧ γ'.disk = none ∧
      γ'.inum = γ.inum ∧ γ'.sections = γ.sections ∧
      γ'.logged = insert (L.iblock γ.inum) (γ.logged ∪ mapBlocks L γ.slot)) w := by
  have hdirects : ∀ k ∈ List.finRange ndirect |>.map Fin.castSucc, (γ.din.addrs k).toNat < L.size := by
    intro k _
    have := hγ.lt k (lt_of_lt_of_le k.2 (by decide))
    rwa [Knows.slot, addr_direct k.2] at this
  have hnodup : (List.finRange ndirect |>.map Fin.castSucc).Nodup :=
    (List.nodup_finRange ndirect).map (Fin.castSucc_injective _)
  refine (among_truncDirects 0 hw₀ hγ.disk hnodup hdirects).then fun _ w hpost => ?_
  obtain ⟨γ₁, hw₁, hsame, hfree⟩ := hpost
  have hind : γ₁.din.addrs indirect = γ.din.addrs indirect := by
    refine hsame _ fun hmem => ?_
    obtain ⟨j, _, hj⟩ := List.mem_map.1 hmem
    exact absurd (congrArg Fin.val hj) (Nat.ne_of_lt j.2)
  have hind' : γ₁.ind = γ.ind := congrArg UInt32.toNat hind
  refine (among_truncIndirect hw₁ (hfree.disk.trans hγ.disk) ?_ ?_).then fun _ w hpost => ?_
  · intro hne
    rw [hind'] at hne ⊢
    rw [hfree.own]
    refine ⟨hγ.mine hne, fun hmem => ?_⟩
    obtain ⟨k, hk, heq⟩ := List.mem_map.1 hmem.1
    obtain ⟨j, _, rfl⟩ := List.mem_map.1 hk
    have hslot : γ.slot j = γ.ind := by rw [← heq]; exact addr_direct j.castSucc.2
    exact hγ.apart j (lt_of_lt_of_le j.2 (by decide)) (Nat.ne_of_lt j.2) (hslot ▸ hne) hslot
  · intro hne j hj
    rw [hind'] at hne
    have hlt := hγ.lt (ndirect + 1 + j) (Nat.add_lt_add_left hj _)
    rw [Knows.slot, addr, dif_neg (by omega), if_neg fun h => hne (toNat_eq_zero_iff.2 h),
      Nat.add_sub_cancel_left] at hlt
    rwa [hfree.mem, hind']
  · obtain ⟨γ₂, F, hw₂, hfree₂⟩ := hpost
    have htotal := hfree.trans hfree₂
    rw [hind', hfree.mem, ← mapBlocks_eq] at htotal
    refine (among_store hw₂).then fun _ w hw => ?_
    have hinum : γ₂.inum < L.ninodes := htotal.inum ▸ hγ.inum
    refine (among_iupdate hw (htotal.disk.trans hγ.disk) hinum).mono fun _ w hw => ?_
    refine ⟨_, hw, htotal.disk.trans hγ.disk, htotal.inum, htotal.sections, ?_⟩
    change insert (L.iblock γ₂.inum) γ₂.logged = _
    rw [htotal.inum, htotal.logged]

end Frees

/-! ## Closing the file -/

section Close

variable {L : Layout} {e : Ip} {γ : Knows} {w : Watched}

/-- The process has the only reference to an inode without a name, and holds no lock and no buffer. -/
structure Sole (e : Ip) (blk : ℕ → Block) (E : Entry) (S : Finset ℕ) (w : Watched) : Prop where
  lock : w.solo.ilock e = false
  entry : w.solo.entry e = E
  content : ∀ b ∈ blocks blk E.din, w.solo.blk b = blk b
  hold : w.solo.Clear
  logged : w.logged = S
  sections : w.sections = []

variable {blk : ℕ → Block} {E : Entry} {S : Finset ℕ}

theorem addr_of_content {blk' : ℕ → Block} {v : Dinode} (h : ∀ b ∈ blocks blk v, blk' b = blk b) :
    addr blk' v = addr blk v := by
  funext k
  by_cases h0 : v.addrs indirect = 0
  · unfold addr
    rw [if_pos h0, if_pos h0]
  · have hind : (v.addrs indirect).toNat ∈ blocks blk v :=
      ⟨fun h => h0 (toNat_eq_zero_iff.1 h), ndirect, by decide, addr_direct (by decide)⟩
    rw [addr_const blk', h _ hind, ← addr_const]

theorem Sole.stable (hE : E.ref = 1 ∧ E.valid = true ∧ E.din.nlink = 0) :
    Stable (Others L e) (Sole e blk E S) := by
  intro v w ho hv
  have hlast : v.solo.Last e := by rw [Solo.Last, hv.entry]; exact hE
  obtain ⟨hentry, hblk⟩ := ho.last hv.lock hlast
  refine ⟨ho.lock.trans hv.lock, hentry.trans hv.entry, fun b hb => ?_, fun h => ?_,
    ho.logged.trans hv.logged, ho.sections.trans hv.sections⟩
  · rw [hblk b, hv.content b hb]
    rw [hv.entry, blocks, addr_of_content hv.content]
    exact hb
  · rw [ho.hold]
    exact hv.hold h

theorem size_pos (L : Layout) : 0 < L.size :=
  calc
    0 < L.logstart := lt_of_lt_of_le (by decide) L.two_le_logstart
    _ ≤ L.inodestart := (Nat.le_add_right _ _).trans L.logstart_le
    _ ≤ L.bmapstart := (Nat.le_add_right _ _).trans L.inodestart_le
    _ ≤ L.nmeta := (Nat.le_add_right _ _).trans L.bmapstart_le
    _ ≤ L.size := L.nmeta_le

structure Counted (S : Finset ℕ) (T : List (Finset ℕ)) (w : Watched) : Prop where
  logged : w.logged = S
  sections : w.sections = T
  fits : w.Fits

theorem Counted.stable {T : List (Finset ℕ)} : Stable (Others L e) (Counted S T) :=
  fun _ _ ho hv => ⟨ho.logged.trans hv.logged, ho.sections.trans hv.sections,
    fun S hS => hv.fits S (ho.sections ▸ hS)⟩

theorem Sole.fits (hw : Sole e blk E S w) : w.Fits := by
  rw [Watched.Fits, hw.sections]
  simp

section

variable (hE : E.ref = 1 ∧ E.valid = true ∧ E.din.nlink = 0)
include hE

theorem sole_beginOp (hw : Sole e blk E S w) :
    Within L e beginOp (fun _ w' => Sole e blk E ∅ w') w := by
  refine within_perform (Sole.stable hE) hw (fun _ ht => ht.fits) fun w hw s r hs => ?_
  change (if _ then none else some _) = _ at hs
  split_ifs at hs
  cases hs
  exact ⟨hw.lock, hw.entry, hw.content, hw.hold, rfl, hw.sections⟩

theorem sole_iputStart (hw : Sole e blk E S w) (hi : E.inum < L.ninodes)
    (hdata : ∀ b ∈ blocks blk E.din, L.nmeta ≤ b ∧ b < L.size)
    (hapart : ∀ k < nslot, k ≠ ndirect → addr blk E.din k ≠ 0 →
      addr blk E.din k ≠ addr blk E.din ndirect) :
    Within L e (iputStart e) (fun r w' => r = true ∧ ∃ γ : Knows, γ.At L e w' ∧ γ.Doomed L ∧
      γ.inum = E.inum ∧ γ.slot = addr blk E.din ∧ γ.logged = S ∧ γ.sections = []) w := by
  refine within_perform (Sole.stable hE) hw (fun _ ht => ht.fits) fun w hw s r hs => ?_
  have hlast : (w.solo.entry e).ref = 1 ∧ (w.solo.entry e).valid = true ∧
      (w.solo.entry e).din.nlink = 0 := by
    rw [hw.entry]
    exact hE
  change (if _ then (if w.solo.ilock e = true then none else some (w.solo.setLock e true, true)) else
    some (w.solo.putRef e, false)) = _ at hs
  rw [if_pos hlast, hw.lock, if_neg (by decide)] at hs
  cases hs
  have haddr := addr_of_content hw.content
  have hdin : (w.solo.setLock e true).din L e = E.din := by
    change (if (w.solo.entry e).valid = true then (w.solo.entry e).din else _) = _
    rw [hw.entry, if_pos hE.2.1]
  refine ⟨rfl, { inum := E.inum
                 valid := true
                 din := E.din
                 disk := none
                 own := blocks blk E.din
                 mem := blk
                 used := ∅
                 logged := S
                 buf := fun _ => none
                 sections := [] }, ?_, ?_, rfl, rfl, rfl, rfl⟩
  · refine ⟨update_self .., congrArg Entry.inum hw.entry,
      (congrArg Entry.valid hw.entry).trans hE.2.1, congrArg Entry.din hw.entry, nofun, ?_, hw.logged,
      hw.sections, hw.fits, hw.hold, nofun, nofun, hdata, hw.content, fun b hb => hb.elim,
      fun b hb => hb.elim⟩
    change blocks w.solo.blk ((w.solo.setLock e true).din L e) = _
    rw [hdin, blocks, haddr]
    rfl
  · refine ⟨rfl, hi, fun h0 => ⟨h0, ndirect, by decide, addr_direct (by decide)⟩, fun k hk => ?_, hapart⟩
    change addr blk E.din k < L.size
    by_cases h0 : addr blk E.din k = 0
    · rw [h0]
      exact size_pos L
    · exact (hdata _ ⟨h0, k, hk, rfl⟩).2

/-- **The transaction** logs the blocks of the free map with the bits of the file's blocks, and the block
of the inode. -/
theorem sole_fileclose (hw : Sole e blk E S w) (hi : E.inum < L.ninodes)
    (hdata : ∀ b ∈ blocks blk E.din, L.nmeta ≤ b ∧ b < L.size)
    (hapart : ∀ k < nslot, k ≠ ndirect → addr blk E.din k ≠ 0 →
      addr blk E.din k ≠ addr blk E.din ndirect) :
    Within L e (fileclose L.toSuperblock e) (fun _ w' =>
      w'.sections = [insert (L.iblock E.inum) (mapBlocks L (addr blk E.din))]) w := by
  refine (sole_beginOp hE hw).then fun _ w hw => ?_
  have hiput : Within L e (iput L.toSuperblock e) (fun _ w' =>
      Counted (insert (L.iblock E.inum) (mapBlocks L (addr blk E.din))) [] w') w := by
    refine (sole_iputStart hE hw hi hdata hapart).then fun r w ⟨hr, γ, hw, hγ, hinum, hslot, hlog, hsec⟩ => ?_
    rw [hr, if_pos rfl]
    refine (among_itrunc hw hγ).then fun _ w ⟨γ₁, hw, hdisk, hinum₁, hsec₁, hlog₁⟩ => ?_
    refine (among_store hw).then fun _ w hw => ?_
    have hi₁ : γ₁.inum < L.ninodes := by rw [hinum₁]; exact hγ.inum
    refine (among_iupdate hw hdisk hi₁).then fun _ w hw => ?_
    refine (among_setValid hw).then fun _ w hw => ?_
    have hcount : Within L e (releasesleep e) (fun _ w' =>
        Counted (insert (L.iblock E.inum) (mapBlocks L (addr blk E.din))) [] w') w := by
      refine among_perform hw fun w hw s r hs => ?_
      cases hs
      refine ⟨hw.logged.trans ?_, hw.sections.trans (hsec₁.trans hsec), hw.fits⟩
      change insert (L.iblock γ₁.inum) γ₁.logged = _
      rw [hlog₁, hinum₁, Finset.insert_idem, hinum, hslot, hlog, Finset.empty_union]
    refine hcount.then fun _ w hw => ?_
    refine within_perform Counted.stable hw (fun _ ht => ht.fits) fun w hw s r hs => ?_
    cases hs
    exact ⟨hw.logged, hw.sections, hw.fits⟩
  refine hiput.then fun _ w hw => ?_
  refine within_perform Counted.stable hw (fun _ ht => ht.fits) fun w hw s r hs => ?_
  cases hs
  change w.sections ++ [w.logged] = _
  rw [hw.sections, hw.logged]
  rfl

end

end Close

section Budget

variable {L : Layout}

theorem iblock_notMem {i : ℕ} (hi : i < L.ninodes) (slot : ℕ → ℕ) : L.iblock i ∉ mapBlocks L slot := by
  intro hmem
  obtain ⟨k, _, hk⟩ := Finset.mem_image.1 hmem
  have h₁ := L.iblock_lt hi
  have h₂ := L.bmapstart_le_bblock (slot k)
  omega

/-- **When a delete transaction fits its budget.** In a consistent file system, whatever other processes do
meanwhile: the transaction in which `fileclose` drops the last reference to an inode without a name logs at
most `MAXOPBLOCKS` blocks exactly if the blocks of the file lie under fewer than `MAXOPBLOCKS` blocks of the
free map. -/
theorem fileclose_budget_iff (L : Layout) (e : Ip) (w : Watched) (hc : Consistent L w.solo.blk)
    (hi : (w.solo.entry e).inum < L.ninodes)
    (hty : (dinodeAt L.toSuperblock w.solo.blk (w.solo.entry e).inum).type ≠ 0)
    (hin : (w.solo.entry e).din = dinodeAt L.toSuperblock w.solo.blk (w.solo.entry e).inum)
    (hlast : w.solo.Last e) (hlock : w.solo.ilock e = false) (hold : w.solo.Clear)
    (hsections : w.sections = []) :
    Among (Others L e) (Watched.handle L) (fun w' => w'.Fits) (fileclose L.toSuperblock e) (fun _ w' =>
      (∀ S ∈ w'.sections, S.card ≤ maxOpBlocks) ↔
        (mapBlocks L (addr w.solo.blk (w.solo.entry e).din)).card < maxOpBlocks) w := by
  have hdin : w.solo.din L e = dinodeAt L.toSuperblock w.solo.blk (w.solo.entry e).inum := by
    rw [Solo.din, hlast.2.1, if_pos rfl, hin]
  have hfile := fileOk_of_consistent hc hi hty hdin
  have hdin' : w.solo.din L e = (w.solo.entry e).din := hdin.trans hin.symm
  have hdata := hfile.data
  have hinj := hfile.inj
  rw [hdin'] at hdata hinj
  have hapart : ∀ k < nslot, k ≠ ndirect → addr w.solo.blk (w.solo.entry e).din k ≠ 0 →
      addr w.solo.blk (w.solo.entry e).din k ≠ addr w.solo.blk (w.solo.entry e).din ndirect :=
    fun k hk hkn hne heq => hkn (hinj k hk ndirect (by decide) hne heq)
  have hw : Sole e w.solo.blk (w.solo.entry e) w.logged w :=
    ⟨hlock, rfl, fun _ _ => rfl, hold, rfl, hsections⟩
  refine (sole_fileclose hlast hw hi (fun b hb => ⟨(hdata b hb).1, (hdata b hb).2.1⟩) hapart).mono
    fun _ w' hw' => ?_
  rw [hw', List.forall_mem_singleton, Finset.card_insert_of_notMem (iblock_notMem hi _)]
  exact Nat.succ_le_iff

/-- The file of ten blocks that lie far apart. -/
theorem fileclose_budget_iff_wide :
    Among (Others wideLayout 0) (Watched.handle wideLayout) (fun w' => w'.Fits)
      (fileclose wideLayout.toSuperblock 0) (fun _ w' => (∀ S ∈ w'.sections, S.card ≤ maxOpBlocks) ↔
        (mapBlocks wideLayout (addr wideImage wideFile)).card < maxOpBlocks) wideState :=
  fileclose_budget_iff wideLayout 0 wideState wideImage_consistent (by decide)
    (by rw [show (wideState.solo.entry 0).inum = 1 from rfl, wideState_dinode]; decide)
    wideState_dinode.symm ⟨rfl, rfl, rfl⟩ rfl (fun _ => rfl) rfl

/-- **A delete transaction that exceeds its budget**: eleven blocks are logged. -/
theorem fileclose_exceeds : Consistent wideLayout wideState.solo.blk ∧ wideState.solo.Last 0 ∧
    ∃ w', Does (Watched.handle wideLayout) (fileclose wideLayout.toSuperblock 0) wideState () w' ∧
      ∃ S ∈ w'.sections, maxOpBlocks < S.card := by
  refine ⟨wideImage_consistent, ⟨rfl, rfl, rfl⟩, ?_⟩
  have hrun : (run (Watched.handle wideLayout) (fileclose wideLayout.toSuperblock 0) wideState).2 = some () ∧
      ∃ S ∈ (run (Watched.handle wideLayout) (fileclose wideLayout.toSuperblock 0) wideState).1.sections,
        maxOpBlocks < S.card := by
    decide +kernel
  exact ⟨_, Prod.ext rfl hrun.1, hrun.2⟩

end Budget

end Xv6.Fs

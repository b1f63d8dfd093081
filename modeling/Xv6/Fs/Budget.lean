import Xv6.Fs.Growth

/-!
# The budget of a write

`filewrite` splits a write into transactions.

* `Quiet`: what other processes leave alone, with or without the contents of the file; `Unlocked`: the
  process holds no lock; `unlocked_ilock`, `among_iunlock`: between that and what it knows of the file it
  has locked (`FileLocked`).
* **`unlocked_filewriteLoop`**: what is in the file after the loop of `filewrite`, if nobody else writes
  to it.
* **`filewrite_budget`**: at most `MAXOPBLOCKS` blocks in each transaction.
* `wideLayout`, `wideImage`: a file whose blocks lie far apart.
-/

namespace Xv6.Fs

open Bytes Prog
open Bio (BufId)
open Icache (Ip Entry)

/-! ## Between the transactions -/

/-- The contents of an inode as the one who locks it will see them. -/
def Solo.contents (L : Layout) (e : Ip) (s : Solo) : List UInt8 := Fs.contents s.blk (s.din L e)

/-- What other processes leave alone. If `P`, that includes the contents of the file. -/
def Quiet (L : Layout) (e : Ip) (P : Prop) (v w : Watched) : Prop :=
  Others L e v w ∧ (P → v.solo.ilock e = false → w.solo.contents L e = v.solo.contents L e)

abbrev Amid (L : Layout) (e : Ip) (P : Prop) {α : Type} (p : FsProg α) (Q : α → Watched → Prop)
    (w : Watched) : Prop := Among (Quiet L e P) (Watched.handle L) Watched.Fits p Q w

section Unlocked

variable {L : Layout} {e : Ip} {P : Prop} {l : List UInt8} {γ : Knows} {w : Watched} {S : Finset ℕ}
  {T : List (Finset ℕ)} {X : Watched → Prop}

theorem Within.amid {α : Type} {p : FsProg α} {Q : α → Watched → Prop} (h : Within L e p Q w) :
    Amid L e P p Q w := h.weaken (fun _ _ hr => hr.1) fun _ hX => hX

/-- The process holds no lock and no buffer, and the file is as it should be. If `P`, its contents are
`l`. -/
structure Unlocked (L : Layout) (e : Ip) (P : Prop) (l : List UInt8) (S : Finset ℕ) (T : List (Finset ℕ))
    (w : Watched) : Prop where
  lock : w.solo.ilock e = false
  file : FileOk L e w.solo
  text : P → w.solo.contents L e = l
  hold : w.solo.Clear
  logged : w.logged = S
  sections : w.sections = T
  fits : w.Fits

theorem Unlocked.stable : Stable (Quiet L e P) (Unlocked L e P l S T) := by
  intro v w ⟨ho, hq⟩ hv
  refine ⟨ho.lock.trans hv.lock, ho.idle hv.lock hv.file, fun hP => (hq hP hv.lock).trans (hv.text hP),
    fun h => ?_, ho.logged.trans hv.logged, ho.sections.trans hv.sections,
    fun S hS => hv.fits S (ho.sections ▸ hS)⟩
  rw [ho.hold]
  exact hv.hold h

theorem unlocked_perform {c : Cmd} {Q : c.Ans → Watched → Prop} (hw : Unlocked L e P l S T w)
    (hc : ∀ w, Unlocked L e P l S T w → ∀ s r, Solo.handle L c w.solo = some (s, r) → Q r (w.note L c s)) :
    Amid L e P (.perform c) Q w := by
  refine Among.perform Unlocked.stable hw (fun _ ht => ht.fits) fun t s' r ht hr => ?_
  obtain ⟨⟨s, r'⟩, hs, heq⟩ := Option.map_eq_some_iff.1 hr
  cases heq
  exact hc t ht s r' hs

theorem unlocked_panic {α : Type} {Q : α → Watched → Prop} (hw : Unlocked L e P l S T w) :
    Amid L e P panic Q w := Among.stop Unlocked.stable hw (fun _ ht => ht.fits) fun _ => rfl

theorem unlocked_beginOp (hw : Unlocked L e P l S T w) :
    Amid L e P beginOp (fun _ w' => Unlocked L e P l ∅ T w') w := by
  refine unlocked_perform hw fun w hw s r hs => ?_
  change (if _ then none else some _) = _ at hs
  split_ifs at hs
  cases hs
  exact ⟨hw.lock, ⟨hw.file.inum, hw.file.data, hw.file.inj, hw.file.mapped, hw.file.marks⟩, hw.text,
    hw.hold, rfl, hw.sections, hw.fits⟩

theorem unlocked_endOp (hw : Unlocked L e P l S T w) (hS : S.card ≤ maxOpBlocks) :
    Amid L e P endOp (fun _ w' => Unlocked L e P l S (T ++ [S]) w') w := by
  refine unlocked_perform hw fun w hw s r hs => ?_
  cases hs
  have hsec : (w.note L .endOp { w.solo with
      outstanding := w.solo.outstanding - 1
      lh := if w.solo.outstanding = 1 then [] else w.solo.lh }).sections = T ++ [S] := by
    rw [← hw.sections, ← hw.logged]
    rfl
  refine ⟨hw.lock, ⟨hw.file.inum, hw.file.data, hw.file.inj, hw.file.mapped, hw.file.marks⟩, hw.text,
    hw.hold, hw.logged, hsec, fun X hX => ?_⟩
  rw [hsec, List.mem_append, List.mem_singleton] at hX
  cases hX with
  | inl hX => exact hw.fits X (hw.sections ▸ hX)
  | inr hX => exact hX ▸ hS

theorem unlocked_refOk (hw : Unlocked L e P l S T w) :
    Amid L e P (refOk e) (fun _ w' => Unlocked L e P l S T w') w := by
  refine unlocked_perform hw fun w hw s r hs => ?_
  cases hs
  exact hw

/-- What a process knows when it has got the lock: `v` is the inode, in memory or still on disk. -/
structure Knows.Locked (L : Layout) (P : Prop) (l : List UInt8) (S : Finset ℕ) (T : List (Finset ℕ)) (v : Dinode)
    (γ : Knows) : Prop where
  buf : γ.buf = fun _ => none
  logged : γ.logged = S
  sections : γ.sections = T
  inode : if γ.valid then γ.din = v else γ.disk = some v
  text : P → Fs.contents γ.mem v = l
  ready : Knows.Ready L { γ with valid := true, din := v, disk := none }

theorem Unlocked.acquiresleep (hw : Unlocked L e P l S T w) : ∃ γ : Knows,
    γ.At L e (w.note L (.acquiresleep e) (w.solo.setLock e true)) ∧ γ.Locked L P l S T (w.solo.din L e) := by
  set v := w.solo.din L e with hv
  refine ⟨{ inum := (w.solo.entry e).inum
            valid := (w.solo.entry e).valid
            din := (w.solo.entry e).din
            disk := if (w.solo.entry e).valid then none
              else some (dinodeAt L.toSuperblock w.solo.blk (w.solo.entry e).inum)
            own := blocks w.solo.blk v
            mem := w.solo.blk
            used := {b | b ∈ blocks w.solo.blk v ∨ b < L.nmeta}
            logged := S
            buf := fun _ => none
            sections := T }, ?_, rfl, rfl, rfl, ?_, hw.text, ?_⟩
  · refine ⟨Function.update_self .., rfl, rfl, rfl, ?_, rfl, hw.logged, hw.sections, hw.fits, hw.hold, nofun,
      nofun, fun b hb => ⟨(hw.file.data b hb).1, (hw.file.data b hb).2.1⟩, fun _ _ => rfl, ?_,
      fun b hb => hb⟩
    · intro x hx
      change (if (w.solo.entry e).valid = true then none else some _) = some x at hx
      split_ifs at hx
      cases hx
      rfl
    · intro b hb
      cases hb with
      | inl hb => exact (hw.file.data b hb).2.2
      | inr hb => exact hw.file.marks b hb
  · rw [hv, Solo.din]
    dsimp only
    split_ifs
    · rfl
    · rfl
  · exact ⟨⟨rfl, rfl, fun b hb => hb, fun k hk hne => ⟨hne, k, hk, rfl⟩, hw.file.inj⟩, hw.file.inum,
      hw.file.mapped⟩

def FileLocked (L : Layout) (e : Ip) (P : Prop) (l : List UInt8) (S : Finset ℕ) (T : List (Finset ℕ)) (w : Watched) :
    Prop :=
  ∃ γ : Knows, γ.At L e w ∧ γ.Ready L ∧ γ.buf = (fun _ => none) ∧ γ.logged = S ∧ γ.sections = T ∧
    (P → γ.contents = l)

/-- It stops only at an inode that is free on disk. -/
theorem among_iload {v : Dinode} (hw : γ.At L e w) (hγ : γ.Locked L P l S T v)
    (hX : v.type = 0 → ∀ γ w, Knows.At L e γ w → X w) :
    Among (Others L e) (Watched.handle L) X (iload L.toSuperblock e) (fun _ w' => FileLocked L e P l S T w') w := by
  obtain ⟨hbuf, hlog, hsec, hv, htext, hready⟩ := hγ
  refine (among_inode hw).then fun ip w ⟨hinum, hvalid, _, hw⟩ => ?_
  rw [hvalid, hinum]
  cases hval : γ.valid with
  | true =>
    rw [hval, if_pos rfl] at hv
    refine Among.ret ⟨_, ?_, hready, hbuf, hlog, hsec, htext⟩
    exact { hw with valid := hw.valid.trans hval, din := hw.din.trans hv, disk := nofun }
  | false =>
    rw [hval, if_neg (by decide)] at hv
    refine (among_bread_first hw hbuf _).then fun bp w ⟨hbp, d, hw⟩ => ?_
    refine (among_data hw).then fun x w hx => ?_
    obtain ⟨rfl, hw⟩ := hx
    have hdisk : getDinode x γ.inum = v := by
      rw [← hw.blk_setBuf]
      exact hw.disk v hv
    rw [hdisk]
    refine (among_store hw).then fun _ w hw => ?_
    have hw : (Knows.setBuf { γ with din := v } bp (some (L.iblock γ.inum, x))).At L e w := hw
    refine (among_brelse hw hbp).then fun _ w hw => ?_
    refine (among_setValid hw.1).then fun _ w hw => ?_
    refine (among_inode hw).then fun ip w ⟨_, _, hdin, hw⟩ => ?_
    rw [hdin]
    by_cases hty : v.type = 0
    · rw [if_pos hty]
      exact Among.stop Knows.stable hw (fun w ht => hX hty _ w ht) fun _ => rfl
    · rw [if_neg hty]
      exact Among.ret ⟨{ γ with valid := true, din := v, disk := none }, { hw with disk := nofun }, hready,
        hbuf, hlog, hsec, htext⟩

theorem unlocked_ilock (hw : Unlocked L e P l S T w) :
    Amid L e P (ilock L.toSuperblock e) (fun _ w' => FileLocked L e P l S T w') w := by
  refine (unlocked_refOk hw).then fun ok w hw => ?_
  cases ok with
  | false => exact unlocked_panic hw
  | true =>
    have hlock : Amid L e P (acquiresleep e) (fun _ w' => ∃ γ v, Knows.At L e γ w' ∧ γ.Locked L P l S T v) w := by
      refine unlocked_perform hw fun w hw s r hs => ?_
      change (if w.solo.ilock e = true then none else some _) = _ at hs
      split_ifs at hs
      cases hs
      obtain ⟨γ, hγ⟩ := hw.acquiresleep
      exact ⟨γ, _, hγ⟩
    exact hlock.then fun _ w ⟨γ, v, hw, hγ⟩ => Within.amid (among_iload hw hγ fun _ _ _ h => h.fits)

section Known

variable (hw : γ.At L e w) (hγ : γ.Ready L)
include hw hγ

theorem Knows.At.din_eq : w.solo.din L e = γ.din := by
  rw [Solo.din, hw.valid, hγ.full.valid, if_pos rfl, hw.din]

theorem Knows.At.addr_eq : addr w.solo.blk γ.din = γ.slot := by
  funext k
  by_cases h0 : γ.din.addrs indirect = 0
  · unfold Knows.slot addr
    rw [if_pos h0, if_pos h0]
  · have hown : γ.ind ∈ γ.own := hγ.full.ind fun h => h0 (toNat_eq_zero_iff.1 h)
    rw [addr_const, hw.mem _ hown]
    rfl

theorem Knows.At.fileOk : FileOk L e w.solo := by
  have haddr := hw.addr_eq hγ
  have hused : ∀ b, b ∈ γ.own ∨ b < L.nmeta → usedAt L.toSuperblock w.solo.blk b := fun b hb =>
    hw.used b (hγ.full.marks b hb)
  refine ⟨by rw [hw.inum]; exact hγ.inum, ?_, ?_, ?_, fun b hb => hused b (.inr hb)⟩
  · rw [hw.din_eq hγ]
    intro b ⟨hb, k, hk, heq⟩
    rw [haddr] at heq
    have hown : b ∈ γ.own := heq ▸ hγ.full.mine k hk (heq ▸ hb)
    exact ⟨(hw.data b hown).1, (hw.data b hown).2, hused b (.inl hown)⟩
  · rw [hw.din_eq hγ, haddr]
    exact hγ.full.inj
  · rw [hw.din_eq hγ, haddr]
    exact hγ.mapped

theorem Knows.At.contents_eq : w.solo.contents L e = γ.contents := by
  rw [Solo.contents, hw.din_eq hγ]
  refine List.map_congr_left fun j hj => ?_
  rw [Nat.zero_add]
  obtain ⟨hlt, hne⟩ := hγ.has (List.mem_range.1 hj)
  rw [fileByte, hw.addr_eq hγ, hw.mem _ (hγ.full.mine _ (fileSlot_lt hlt) hne)]
  rfl

end Known

theorem among_releasesleep (hw : γ.At L e w) (hγ : γ.Ready L) (hbuf : γ.buf = fun _ => none) :
    Among (Others L e) (Watched.handle L) X (releasesleep e)
      (fun _ w' => Unlocked L e P γ.contents γ.logged γ.sections w') w := by
  refine among_go hw fun w hw => ⟨_, (), rfl, ?_⟩
  have hfile := hw.fileOk hγ
  refine ⟨Function.update_self .., ⟨hfile.inum, hfile.data, hfile.inj, hfile.mapped, hfile.marks⟩,
    fun _ => hw.contents_eq hγ, fun h => ?_, hw.logged, hw.sections, hw.fits⟩
  have hhold := hw.hold h
  rw [hbuf] at hhold
  exact hhold

theorem among_iunlock (hw : γ.At L e w) (hγ : γ.Ready L) (hbuf : γ.buf = fun _ => none) :
    Amid L e P (iunlock e) (fun _ w' => Unlocked L e P γ.contents γ.logged γ.sections w') w := by
  refine Within.amid ?_
  have hholding : Within L e (holdingsleep e) (fun _ w' => γ.At L e w') w :=
    among_perform hw fun w hw s r hs => by
      cases hs
      exact hw
  refine hholding.then fun ok w hw => ?_
  cases ok with
  | false => exact among_panic hw
  | true => exact among_releasesleep hw hγ hbuf

end Unlocked

/-! ## The transactions of `filewrite` -/

section Filewrite

variable {L : Layout} {e : Ip} {P : Prop} {l : List UInt8} {w : Watched} {S : Finset ℕ}
  {T : List (Finset ℕ)} {mem : UserMem}

/-- **One transaction.** If it succeeds and all of the source is there, the file holds it. -/
theorem unlocked_writeSection {va n1 : ℕ} {off : UInt32} (hw : Unlocked L e P l S T w)
    (hn : n1 ≤ maxWrite) :
    Amid L e P (writeSection L.toSuperblock e mem va n1 off) (fun x w' => ∃ l' S T,
      Unlocked L e P l' S T w' ∧ (x.1 ≥ 0 → x.2.toNat = off.toNat + n1 ∧ (P → off.toNat ≤ l.length ∧
        ∀ data, data.length = n1 → (Source.user mem va).Gives data →
          l' = overwrite l off.toNat data))) w := by
  refine (unlocked_beginOp hw).then fun _ w hw => ?_
  refine (unlocked_ilock hw).then fun _ w ⟨γ, hw, hγ, hbuf, hlog, _, htext⟩ => ?_
  have hn' : (UInt32.ofNat n1).toNat = n1 := UInt32.toNat_ofNat_of_lt' (lt_of_le_of_lt hn (by decide))
  refine (Within.amid (among_writei hw hγ hlog (hn'.trans_le hn))).then
    fun r w ⟨γ', hw, hγ', hbuf', _, hcard, hwrote⟩ => ?_
  refine (among_iunlock hw hγ' (hbuf'.trans hbuf)).then fun _ w hw => ?_
  refine (unlocked_endOp hw hcard).then fun _ w hw => Among.ret ⟨_, _, _, hw, fun hr => ?_⟩
  obtain ⟨rfl, hoff, hsum, hdata⟩ := hwrote hr
  rw [hn'] at hsum hdata ⊢
  refine ⟨?_, fun hP => ?_⟩
  · change (advance off n1).toNat = _
    rw [advance]
    by_cases hpos : (n1 : ℤ) > 0
    · rw [if_pos hpos, Int.toNat_natCast, UInt32.toNat_add, hn', Nat.mod_eq_of_lt hsum]
    · rw [if_neg hpos]
      omega
  · rw [htext hP] at hoff hdata
    exact ⟨hoff, hdata⟩

/-- What the loop of `filewrite` has done when it has come to byte `i`. -/
structure Written (mem : UserMem) (va n : ℕ) (l : List UInt8) (off i : ℕ) (l' : List UInt8) (off' : UInt32) :
    Prop where
  pos : off'.toNat = off + i
  text : ∀ data, data.length = n → (Source.user mem va).Gives data →
    (0 < i → off ≤ l.length) ∧ l' = overwrite l off (data.take i)

theorem Written.step {va n off i n1 : ℕ} {l' l'' : List UInt8} {off' off'' : UInt32}
    (h : Written mem va n l off i l' off') (hpos : 0 < n1) (hn1 : i + n1 ≤ n)
    (hoff : off''.toNat = off'.toNat + n1) (hle : off'.toNat ≤ l'.length)
    (hdata : ∀ data, data.length = n1 → (Source.user mem ((va + i) % 2 ^ 64)).Gives data →
      l'' = overwrite l' off'.toNat data) : Written mem va n l off (i + n1) l'' off'' := by
  refine ⟨by rw [hoff, h.pos, Nat.add_assoc], fun data hlen hgives => ?_⟩
  obtain ⟨hle₀, hl'⟩ := h.text data hlen hgives
  have htake : (data.take i).length = i := List.length_take_of_le (by omega)
  have hle₁ : off ≤ l.length := by
    by_cases hi : 0 < i
    · exact hle₀ hi
    · obtain rfl : i = 0 := by omega
      rw [List.take_zero, overwrite_nil] at hl'
      rw [hl', h.pos] at hle
      exact hle
  -- the addresses are below `MAXVA`, so that `addr + i` does not wrap
  have hva : (va + i) % 2 ^ 64 = va + i := by
    have hlt := lt_maxva_of_byteAt (hgives.isSome (i := i) (by omega))
    exact Nat.mod_eq_of_lt (hlt.trans (by decide))
  have hsplit : data = data.take i ++ ((data.drop i).take n1 ++ data.drop (i + n1)) := by
    rw [← List.drop_drop, List.take_append_drop, List.take_append_drop]
  have hrest : (Source.user mem (va + i)).Gives ((data.drop i).take n1) := by
    rw [hsplit] at hgives
    have hgives := (Source.Gives.append.1 hgives).2
    rw [htake] at hgives
    exact (Source.Gives.append.1 hgives).1
  refine ⟨fun _ => hle₁, ?_⟩
  have hlen1 : ((data.drop i).take n1).length = n1 :=
    List.length_take_of_le (by rw [List.length_drop]; omega)
  rw [← hva] at hrest
  rw [hdata _ hlen1 hrest, hl', h.pos, List.take_add]
  have hstep := overwrite_overwrite hle₁ (data.take i) ((data.drop i).take n1)
  rwa [htake] at hstep

theorem unlocked_filewriteLoop {n fuel i off : ℕ} {l' : List UInt8} {off' : UInt32}
    (hw : Unlocked L e P l' S T w) (mem : UserMem) (va : ℕ) (l : List UInt8) (hfuel : n ≤ i + fuel) (hi : i ≤ n)
    (h : off'.toNat = off + i ∧ (P → Written mem va n l off i l' off')) :
    Amid L e P (filewriteLoop L.toSuperblock e mem va n fuel i off')
      (fun x w' => ∃ l' S T, Unlocked L e P l' S T w' ∧ (x.1 = n → P → Written mem va n l off n l' x.2))
      w := by
  induction fuel generalizing i off' w l' S T with
  | zero =>
    obtain rfl : i = n := by omega
    exact Among.ret ⟨l', S, T, hw, fun _ => h.2⟩
  | succ fuel ih =>
    unfold filewriteLoop
    by_cases hin : i < n
    · rw [if_pos hin]
      have hpos : 0 < min (n - i) maxWrite := by
        refine Nat.lt_min.2 ⟨by omega, by decide⟩
      refine (unlocked_writeSection hw (Nat.min_le_right _ _)).then fun x w ⟨l'', S, T, hw, hx⟩ => ?_
      by_cases hneg : x.1 < 0
      · simp only [if_pos hneg]
        exact Among.ret ⟨l'', S, T, hw, fun heq => absurd heq hin.ne⟩
      · simp only [if_neg hneg]
        obtain ⟨hoff, htext⟩ := hx (not_lt.1 hneg)
        split_ifs with hne
        · exact unlocked_panic hw
        · have hr : x.1.toNat = min (n - i) maxWrite := by rw [not_not.1 hne, Int.toNat_natCast]
          rw [hr]
          refine ih hw (by omega) (by omega) ⟨by omega, fun hP => ?_⟩
          exact (h.2 hP).step hpos (by omega) hoff (htext hP).1 (htext hP).2
    · rw [if_neg hin]
      obtain rfl : i = n := by omega
      exact Among.ret ⟨l', S, T, hw, fun _ => h.2⟩

theorem fileOk_of_consistent {s : Solo} (hc : Consistent L s.blk) (hi : (s.entry e).inum < L.ninodes)
    (hty : (dinodeAt L.toSuperblock s.blk (s.entry e).inum).type ≠ 0)
    (hin : s.din L e = dinodeAt L.toSuperblock s.blk (s.entry e).inum) : FileOk L e s := by
  have hrefers : ∀ k < nslot, addr s.blk (s.din L e) k ≠ 0 →
      Refers L.toSuperblock s.blk ((s.entry e).inum, k) (addr s.blk (s.din L e) k) :=
    fun k hk hne => ⟨hi, hk, hty, by rw [hin], hne⟩
  refine ⟨hi, ?_, ?_, hin ▸ hc.mapped _ hi hty, ?_⟩
  · rintro b ⟨hb, k, hk, rfl⟩
    have href := hrefers k hk hb
    obtain ⟨hle, hlt⟩ := hc.data _ _ href
    exact ⟨hle, hlt, (hc.bits _ hlt).2 (.inr ⟨_, href⟩)⟩
  · intro j hj k hk hne heq
    have href := hrefers j hj hne
    have href' := hrefers k hk (heq ▸ hne)
    rw [← heq] at href'
    exact congrArg Prod.snd (hc.uniq _ _ _ href href')
  · exact fun b hb => (hc.bits b (lt_of_lt_of_le hb L.nmeta_le)).2 (.inl hb)

/-- **A write transaction fits its budget.** In a consistent file system, for every superblock, every
file in memory or on disk, every user buffer and every offset: whatever other processes do meanwhile and
whichever blocks `balloc` chooses, each transaction that `filewrite` ends has logged at most
`MAXOPBLOCKS` blocks. -/
theorem filewrite_budget (L : Layout) (e : Ip) (w : Watched) (hc : Consistent L w.solo.blk)
    (hi : (w.solo.entry e).inum < L.ninodes)
    (hty : (dinodeAt L.toSuperblock w.solo.blk (w.solo.entry e).inum).type ≠ 0)
    (hin : (w.solo.entry e).valid = true →
      (w.solo.entry e).din = dinodeAt L.toSuperblock w.solo.blk (w.solo.entry e).inum)
    (hlock : w.solo.ilock e = false) (hold : w.solo.Clear) (hsections : w.sections = [])
    (mem : UserMem) (va : ℕ) (n : ℤ) (off : UInt32) :
    Among (Others L e) (Watched.handle L) (fun w' => ∀ S ∈ w'.sections, S.card ≤ maxOpBlocks)
      (filewrite L.toSuperblock e mem va n off)
      (fun _ w' => ∀ S ∈ w'.sections, S.card ≤ maxOpBlocks) w := by
  have hdin : w.solo.din L e = dinodeAt L.toSuperblock w.solo.blk (w.solo.entry e).inum := by
    unfold Solo.din
    split_ifs with hvalid
    · exact hin hvalid
    · rfl
  have hw : Unlocked L e False [] w.logged [] w :=
    ⟨hlock, fileOk_of_consistent hc hi hty hdin, False.elim, hold, rfl, hsections,
      by rw [Watched.Fits, hsections]; nofun⟩
  have hloop := unlocked_filewriteLoop (L := L) hw mem va [] (Nat.le_add_left n.toNat 0) (Nat.zero_le _)
    ⟨show off.toNat = off.toNat + 0 from rfl, False.elim⟩
  have hbudget : Amid L e False (filewrite L.toSuperblock e mem va n off) (fun _ w' => w'.Fits) w :=
    hloop.then fun _ w ⟨_, _, _, hw, _⟩ => Among.ret hw.fits
  exact hbudget.weaken (fun _ _ ho => ⟨ho, False.elim⟩) fun _ h => h

end Filewrite

/-! ## A file under ten blocks of the free map -/

def wideLayout : Layout where
  size := 81920
  ninodes := 2
  nlog := 30
  logstart := 2
  inodestart := 32
  bmapstart := 33
  nmeta := 43
  two_le_logstart := by decide
  logstart_le := by decide
  inodestart_le := by decide
  bmapstart_le := by decide
  nmeta_le := by decide
  size_lt := by decide

/-- A file without a name, of ten blocks that lie far apart. -/
def wideFile : Dinode where
  type := 2
  major := 0
  minor := 0
  nlink := 0
  size := 10240
  addrs k := if k < 10 then UInt32.ofNat (8192 * k + 8191) else 0

def wideImage (b : ℕ) : Block :=
  if b = 32 then putDinode wideFile (fun _ => 0) 1
  else fun k =>
    if 33 ≤ b ∧ b < 43 ∧ k = 1023 then 0x80
    else if b = 33 ∧ k < 5 then 0xff
    else if b = 33 ∧ k = 5 then 7
    else 0

theorem wideImage_dinode {i : ℕ} (hi : i < 2) :
    dinodeAt wideLayout.toSuperblock wideImage i = if i = 1 then wideFile else getDinode (fun _ => 0) i := by
  have hblock : wideLayout.iblock i = 32 := by
    change i / 16 + 32 = 32
    omega
  rw [dinodeAt, hblock, wideImage, if_pos rfl, getDinode_putDinode]
  refine if_congr ?_ rfl rfl
  change 1 % 16 = i % 16 ↔ i = 1
  omega

theorem wideImage_addr (blk : ℕ → Block) (k : ℕ) :
    addr blk wideFile k = if k < 10 then 8192 * k + 8191 else 0 := by
  unfold addr
  split_ifs with h₁ h₂ h₃ h₃ h₄
  · change (if (⟨k, h₁⟩ : Fin 13) < 10 then UInt32.ofNat (8192 * k + 8191) else 0).toNat = _
    rw [if_pos (Fin.lt_def.2 h₂), UInt32.toNat_ofNat_of_lt' (by change _ < 4294967296; omega)]
  · change (if (⟨k, h₁⟩ : Fin 13) < 10 then UInt32.ofNat (8192 * k + 8191) else 0).toNat = _
    rw [if_neg fun h => h₂ (Fin.lt_def.1 h)]
    rfl
  · change ¬ k < 13 at h₁
    omega
  · rfl
  · exact absurd rfl h₃
  · exact absurd rfl h₃

theorem wideImage_refers {x : ℕ × ℕ} {b : ℕ} : Refers wideLayout.toSuperblock wideImage x b ↔
    x.1 = 1 ∧ x.2 < 10 ∧ b = 8192 * x.2 + 8191 := by
  constructor
  · rintro ⟨hi, hk, hty, rfl, hne⟩
    change x.1 < 2 at hi
    rw [wideImage_dinode hi] at hty hne ⊢
    by_cases h1 : x.1 = 1
    · rw [if_pos h1, wideImage_addr] at hne ⊢
      split_ifs at hne ⊢ with hk
      · exact ⟨h1, hk, rfl⟩
      · exact absurd rfl hne
    · rw [if_neg h1] at hty
      have h0 : x.1 = 0 := by omega
      rw [h0] at hty
      exact absurd (by decide) hty
  · rintro ⟨h1, hk, rfl⟩
    have hi : x.1 < 2 := by omega
    have hd : dinodeAt wideLayout.toSuperblock wideImage x.1 = wideFile := by
      rw [wideImage_dinode hi, if_pos h1]
    refine ⟨hi, ?_, ?_, ?_, by omega⟩
    · change x.2 < 269
      omega
    · rw [hd]
      decide
    · rw [hd, wideImage_addr, if_pos hk]

theorem wideImage_used {b : ℕ} (hb : b < 81920) :
    usedAt wideLayout.toSuperblock wideImage b ↔ b < 43 ∨ b % 8192 = 8191 := by
  have hblock : wideLayout.bblock b = b / 8192 + 33 := rfl
  have hbyte : b % 8192 / 8 < 1024 := by omega
  have hd : byte (wideImage (b / 8192 + 33)) (b % 8192 / 8) =
      if b % 8192 / 8 = 1023 then 0x80 else if b < 40 then 0xff
      else if 40 ≤ b ∧ b < 48 then 7 else 0 := by
    rw [byte, dif_pos hbyte, wideImage, if_neg (by omega)]
    have hpos : 33 ≤ b / 8192 + 33 ∧ b / 8192 + 33 < 43 := by omega
    refine if_congr ?_ rfl (if_congr ?_ rfl (if_congr ?_ rfl rfl))
    · rw [← and_assoc, and_iff_right hpos]
      exact Fin.ext_iff
    · rw [Fin.lt_def]
      change b / 8192 + 33 = 33 ∧ b % 8192 / 8 < 5 ↔ b < 40
      omega
    · rw [Fin.ext_iff]
      change b / 8192 + 33 = 33 ∧ b % 8192 / 8 = 5 ↔ 40 ≤ b ∧ b < 48
      omega
  rw [usedAt, hblock, bit_eq]
  change (byte (wideImage (b / 8192 + 33)) (b % 8192 / 8)).toNat.testBit (b % 8192 % 8) = true ↔ _
  rw [hd]
  have hr : b % 8192 % 8 < 8 := Nat.mod_lt _ (by decide)
  have h80 : ∀ r < 8, (0x80 : UInt8).toNat.testBit r = decide (r = 7) := by decide
  have hff : ∀ r < 8, (0xff : UInt8).toNat.testBit r = true := by decide
  have h7 : ∀ r < 8, (7 : UInt8).toNat.testBit r = decide (r < 3) := by decide
  split_ifs with hlast hfirst hsixth
  · rw [h80 _ hr, decide_eq_true_eq]
    omega
  · rw [hff _ hr, eq_self, true_iff]
    omega
  · rw [h7 _ hr, decide_eq_true_eq]
    omega
  · rw [show (0 : UInt8).toNat = 0 from rfl, Nat.zero_testBit, Bool.false_eq_true, false_iff]
    omega

theorem wideImage_consistent : Consistent wideLayout wideImage := by
  refine ⟨fun x b hx => ?_, fun x y b hx hy => ?_, fun b hb => ?_, fun i hi hty n hn => ?_⟩
  · obtain ⟨_, hk, rfl⟩ := wideImage_refers.1 hx
    change 43 ≤ _ ∧ _ < 81920
    omega
  · obtain ⟨hx1, _, hb⟩ := wideImage_refers.1 hx
    obtain ⟨hy1, _, hb'⟩ := wideImage_refers.1 hy
    exact Prod.ext (hx1.trans hy1.symm) (by omega)
  · change b < 81920 at hb
    rw [wideImage_used hb]
    refine or_congr Iff.rfl ⟨fun h => ⟨(1, b / 8192), wideImage_refers.2 ⟨rfl, ?_, ?_⟩⟩, fun ⟨x, hx⟩ => ?_⟩
    · change b / 8192 < 10
      omega
    · change b = 8192 * (b / 8192) + 8191
      omega
    · obtain ⟨_, _, rfl⟩ := wideImage_refers.1 hx
      omega
  · change i < 2 at hi
    have h1 : i = 1 := by
      by_contra h1
      rw [wideImage_dinode hi, if_neg h1, show i = 0 by omega] at hty
      exact hty (by decide)
    rw [wideImage_dinode hi, if_pos h1] at hn ⊢
    have hn : n < 10 := by
      change n * 1024 < 10240 at hn
      omega
    have hslot : fileSlot n = n := if_pos (by change n < 12; omega)
    refine ⟨by change n < 268; omega, ?_⟩
    rw [hslot, wideImage_addr, if_pos hn]
    omega

def wideState : Watched where
  solo :=
    { blk := wideImage
      hold := fun _ => none
      entry := fun _ => ⟨rootDev, 1, 1, true, wideFile⟩
      ilock := fun _ => false
      outstanding := 0
      lh := [] }
  own := ∅
  logged := ∅
  sections := []

theorem wideState_dinode : dinodeAt wideLayout.toSuperblock wideState.solo.blk 1 = wideFile :=
  (wideImage_dinode (by decide)).trans (if_pos rfl)

/-- Five thousand bytes are appended to it while nobody else is at work. -/
theorem filewrite_budget_wide : Spec (Watched.handle wideLayout) (fun w => w = wideState)
    (filewrite wideLayout.toSuperblock 0 (fun _ => some fun _ => 7) 0 5000 10240)
    (fun _ w' => ∀ S ∈ w'.sections, S.card ≤ maxOpBlocks)
    (fun w' => ∀ S ∈ w'.sections, S.card ≤ maxOpBlocks) := by
  refine (Among.spec (Others.refl wideLayout 0) _).mono (fun w hw => ?_) (fun _ _ h => h) fun _ h => h
  subst hw
  exact filewrite_budget wideLayout 0 wideState wideImage_consistent (by decide)
    (by rw [show (wideState.solo.entry 0).inum = 1 from rfl, wideState_dinode]; decide)
    (fun _ => wideState_dinode.symm) rfl (fun _ => rfl) rfl (fun _ => some fun _ => 7) 0 5000 10240

end Xv6.Fs

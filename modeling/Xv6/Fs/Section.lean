import Xv6.Fs.Solo
import Xv6.Fs.Rows
import Xv6.Fs.File

/-!
# A transaction among others

One process runs a program of the file system while others are at work. What it logs is watched: between
`begin_op` and `end_op` the set of blocks it has given to the log.

* `Watched`, `Watched.handle`: the state and what the commands do. `own` are the blocks that are the
  process's alone: those of the file it has locked and those it has allocated.
* `Others`: what other processes leave alone: the buffers the process holds, the inode it has locked,
  the blocks it owns with their bits in the free map, and the bits of the metadata. `bread` gives a block
  to one process at a time, an inode and its blocks change only under its lock, and only their owner frees
  them. While the process has nothing locked the file may change, but stays as it should be (`FileOk`).
* `Knows`: what the process knows while it holds the lock; **`Knows.stable`**: others do not change that.
-/

namespace Xv6.Fs

open Function Bytes Prog
open Bio (BufId)
open Icache (Ip Entry)

/-! ## The machine -/

/-- A state of `Solo`, the blocks the process owns, the blocks logged since `begin_op`, and the blocks
logged by the transactions that have ended. -/
structure Watched where
  solo : Solo
  own : Set ℕ
  logged : Finset ℕ
  sections : List (Finset ℕ)

def blocks (blk : ℕ → Block) (v : Dinode) : Set ℕ := {b | b ≠ 0 ∧ ∃ k < nslot, addr blk v k = b}

def Solo.din (L : Layout) (e : Ip) (s : Solo) : Dinode :=
  if (s.entry e).valid then (s.entry e).din else dinodeAt L.toSuperblock s.blk (s.entry e).inum

/-- The blocks a process owns after it has changed block `c` from `d` to `d'`: those whose bit it sets,
less those whose bit it clears. -/
def marked (L : Layout) (own : Set ℕ) (c : ℕ) (d d' : Block) : Set ℕ :=
  {b | (b ∈ own ∧ ¬ (b < L.size ∧ L.bblock b = c ∧ bit d (b % bpb) = true ∧ bit d' (b % bpb) = false)) ∨
    (b < L.size ∧ L.bblock b = c ∧ bit d (b % bpb) = false ∧ bit d' (b % bpb) = true)}

namespace Watched

def note (L : Layout) (v : Watched) (c : Cmd) (s : Solo) : Watched :=
  match c with
  | .setData h d =>
    match v.solo.hold h with
    | some b => { v with solo := s, own := marked L v.own b (v.solo.blk b) d }
    | none => { v with solo := s }
  | .logWrite h =>
    match v.solo.hold h with
    | some b => { v with solo := s, logged := insert b v.logged }
    | none => { v with solo := s }
  | .beginOp => { v with solo := s, logged := ∅ }
  | .endOp => { v with solo := s, sections := v.sections ++ [v.logged] }
  | .acquiresleep e | .iputStart e => { v with solo := s, own := blocks s.blk (s.din L e) }
  | _ => { v with solo := s }

def handle (L : Layout) (c : Cmd) (v : Watched) : Option (Watched × c.Ans) :=
  (Solo.handle L c v.solo).map fun x => (v.note L c x.1, x.2)

end Watched

/-- A file as it should be: its blocks are marked data blocks, all different, it has no holes, and the
metadata are marked as used. -/
structure FileOk (L : Layout) (e : Ip) (s : Solo) : Prop where
  inum : (s.entry e).inum < L.ninodes
  data : ∀ b ∈ blocks s.blk (s.din L e), L.nmeta ≤ b ∧ b < L.size ∧ usedAt L.toSuperblock s.blk b
  inj : ∀ j < nslot, ∀ k < nslot, addr s.blk (s.din L e) j ≠ 0 →
    addr s.blk (s.din L e) j = addr s.blk (s.din L e) k → j = k
  mapped : Mapped (s.din L e).size.toNat (addr s.blk (s.din L e))
  marks : ∀ b < L.nmeta, usedAt L.toSuperblock s.blk b

def Solo.Last (e : Ip) (s : Solo) : Prop :=
  (s.entry e).ref = 1 ∧ (s.entry e).valid = true ∧ (s.entry e).din.nlink = 0

/-- **What other processes leave alone.** -/
structure Others (L : Layout) (e : Ip) (v w : Watched) : Prop where
  own : w.own = v.own
  logged : w.logged = v.logged
  sections : w.sections = v.sections
  hold : w.solo.hold = v.solo.hold
  lock : w.solo.ilock e = v.solo.ilock e
  held : ∀ h b, v.solo.hold h = some b → w.solo.blk b = v.solo.blk b
  marks : ∀ b < L.nmeta, usedAt L.toSuperblock v.solo.blk b → usedAt L.toSuperblock w.solo.blk b
  entry : v.solo.ilock e = true → (w.solo.entry e).inum = (v.solo.entry e).inum ∧
    (w.solo.entry e).valid = (v.solo.entry e).valid ∧ (w.solo.entry e).din = (v.solo.entry e).din
  dinode : v.solo.ilock e = true → dinodeAt L.toSuperblock w.solo.blk (v.solo.entry e).inum =
    dinodeAt L.toSuperblock v.solo.blk (v.solo.entry e).inum
  content : v.solo.ilock e = true → ∀ b ∈ v.own, w.solo.blk b = v.solo.blk b
  used : v.solo.ilock e = true → ∀ b ∈ v.own, usedAt L.toSuperblock v.solo.blk b →
    usedAt L.toSuperblock w.solo.blk b
  -- the file is not locked by this process
  idle : v.solo.ilock e = false → FileOk L e v.solo → FileOk L e w.solo
  last : v.solo.ilock e = false → v.solo.Last e → w.solo.entry e = v.solo.entry e ∧
    ∀ b ∈ blocks v.solo.blk (v.solo.entry e).din, w.solo.blk b = v.solo.blk b

def Watched.Fits (w : Watched) : Prop := ∀ S ∈ w.sections, S.card ≤ maxOpBlocks

/-- **What a program does among others.** At any point the transactions that have ended were small
enough, and if the program returns, `Q` holds. -/
abbrev Within (L : Layout) (e : Ip) {α : Type} (p : FsProg α) (Q : α → Watched → Prop) (w : Watched) :
    Prop := Among (Others L e) (Watched.handle L) Watched.Fits p Q w

theorem Others.refl (L : Layout) (e : Ip) (v : Watched) : Others L e v v :=
  ⟨rfl, rfl, rfl, rfl, rfl, fun _ _ _ => rfl, fun _ _ h => h, fun _ => ⟨rfl, rfl, rfl⟩, fun _ => rfl,
    fun _ _ _ => rfl, fun _ _ _ h => h, fun _ h => h, fun _ _ => ⟨rfl, fun _ _ => rfl⟩⟩

/-! ## What the process knows -/

/-- The locked inode, its copy on disk while it is being loaded, the blocks the process owns with their
contents, those of which it knows that they are marked, what it has logged, and the buffers it holds with
their contents. -/
structure Knows where
  inum : ℕ
  valid : Bool
  din : Dinode
  disk : Option Dinode
  own : Set ℕ
  mem : ℕ → Block
  used : Set ℕ
  logged : Finset ℕ
  buf : BufId → Option (ℕ × Block)
  sections : List (Finset ℕ)

namespace Knows

abbrev ind (γ : Knows) : ℕ := (γ.din.addrs indirect).toNat

abbrev slot (γ : Knows) (k : ℕ) : ℕ := addr γ.mem γ.din k

/-- **The state is as the process knows.** -/
structure At (L : Layout) (e : Ip) (γ : Knows) (w : Watched) : Prop where
  lock : w.solo.ilock e = true
  inum : (w.solo.entry e).inum = γ.inum
  valid : (w.solo.entry e).valid = γ.valid
  din : (w.solo.entry e).din = γ.din
  disk : ∀ v, γ.disk = some v → dinodeAt L.toSuperblock w.solo.blk γ.inum = v
  own : w.own = γ.own
  logged : w.logged = γ.logged
  sections : w.sections = γ.sections
  fits : w.Fits
  hold : ∀ h, w.solo.hold h = (γ.buf h).map Prod.fst
  buf : ∀ h b d, γ.buf h = some (b, d) → w.solo.blk b = d
  inj : ∀ h k b d d', γ.buf h = some (b, d) → γ.buf k = some (b, d') → h = k
  data : ∀ b ∈ γ.own, L.nmeta ≤ b ∧ b < L.size
  mem : ∀ b ∈ γ.own, w.solo.blk b = γ.mem b
  used : ∀ b ∈ γ.used, usedAt L.toSuperblock w.solo.blk b
  mine : ∀ b ∈ γ.used, b ∈ γ.own ∨ b < L.nmeta

variable {L : Layout} {e : Ip} {γ : Knows} {v w : Watched}

/-- **Others do not change what a process knows.** -/
theorem stable : Stable (Others L e) (γ.At L e) := by
  intro v w ho hv
  obtain ⟨hinum, hvalid, hdin⟩ := ho.entry hv.lock
  refine ⟨ho.lock.trans hv.lock, hinum.trans hv.inum, hvalid.trans hv.valid, hdin.trans hv.din,
    ?_, ho.own.trans hv.own, ho.logged.trans hv.logged, ho.sections.trans hv.sections,
    fun S hS => hv.fits S (ho.sections ▸ hS), ?_, ?_, hv.inj,
    hv.data, ?_, ?_, hv.mine⟩
  · intro x hx
    have hdisk := ho.dinode hv.lock
    rw [hv.inum] at hdisk
    exact hdisk.trans (hv.disk x hx)
  · intro h
    rw [ho.hold, hv.hold]
  · intro h b d hb
    rw [ho.held h b (by rw [hv.hold, hb]; rfl)]
    exact hv.buf h b d hb
  · intro b hb
    rw [ho.content hv.lock b (hv.own ▸ hb)]
    exact hv.mem b hb
  · intro b hb
    cases hv.mine b hb with
    | inl hown => exact ho.used hv.lock b (hv.own ▸ hown) (hv.used b hb)
    | inr hmeta => exact ho.marks b hmeta (hv.used b hb)

def setBuf (γ : Knows) (h : BufId) (x : Option (ℕ × Block)) : Knows :=
  { γ with buf := update γ.buf h x }

theorem setBuf_self (γ : Knows) (h : BufId) (x : Option (ℕ × Block)) : (γ.setBuf h x).buf h = x :=
  update_self ..

theorem setBuf_of_ne (γ : Knows) {h k : BufId} (hk : k ≠ h) (x : Option (ℕ × Block)) :
    (γ.setBuf h x).buf k = γ.buf k := update_of_ne hk ..

theorem setBuf_setBuf (γ : Knows) (h : BufId) (x y : Option (ℕ × Block)) :
    (γ.setBuf h x).setBuf h y = γ.setBuf h y := by
  unfold setBuf
  rw [update_idem]

theorem At.lt (hw : γ.At L e w) {b : ℕ} (hb : b ∈ γ.used) : b < L.size := by
  cases hw.mine b hb with
  | inl hown => exact (hw.data b hown).2
  | inr hmeta => exact lt_of_lt_of_le hmeta L.nmeta_le

end Knows

/-! ## Which blocks a change marks -/

section Marked

variable {L : Layout} {own : Set ℕ} {b c : ℕ} {d d' : Block}

theorem marked_of_ne (hc : ∀ b < L.size, L.bblock b ≠ c) : marked L own c d d' = own := by
  ext x
  refine ⟨fun hx => ?_, fun hx => .inl ⟨hx, fun ⟨hlt, hx', _⟩ => hc x hlt hx'⟩⟩
  cases hx with
  | inl h => exact h.1
  | inr h => exact absurd h.2.1 (hc x h.1)

theorem eq_of_bblock {x : ℕ} (hx : L.bblock x = L.bblock b) (hmod : b % bpb = x % bpb) : x = b := by
  have hdiv : x / bpb = b / bpb := Nat.add_right_cancel hx
  rw [← Nat.div_add_mod x bpb, ← Nat.div_add_mod b bpb, hdiv, hmod]

theorem marked_setBit (hb : b < L.size) (hd : bit d (b % bpb) = false) :
    marked L own (L.bblock b) d (setBit d (b % bpb)) = insert b own := by
  ext x
  simp only [marked, Set.mem_ofPred_eq, bit_setBit (bpb_byte b), Bool.or_eq_false_iff, Bool.or_eq_true,
    decide_eq_true_eq, Set.mem_insert_iff]
  constructor
  · rintro (h | ⟨_, hx, hclear, hset⟩)
    · exact .inr h.1
    · rw [hclear] at hset
      exact .inl (eq_of_bblock hx (by simpa using hset))
  · rintro (rfl | h)
    · exact .inr ⟨hb, rfl, hd, .inr rfl⟩
    · exact .inl ⟨h, fun ⟨_, _, ht, hf, _⟩ => by rw [ht] at hf; cases hf⟩

theorem marked_clearBit (hb : b < L.size) (hd : bit d (b % bpb) = true) :
    marked L own (L.bblock b) d (clearBit d (b % bpb)) = own \ {b} := by
  ext x
  simp only [marked, Set.mem_ofPred_eq, bit_clearBit (bpb_byte b), Bool.and_eq_false_iff, Bool.and_eq_true,
    Set.mem_sdiff, Set.mem_singleton_iff]
  constructor
  · rintro (⟨hown, hnot⟩ | ⟨_, _, hf, ht, _⟩)
    · exact ⟨hown, fun hx => hnot (by subst hx; exact ⟨hb, rfl, hd, .inr (by simp)⟩)⟩
    · rw [hf] at ht
      cases ht
  · rintro ⟨hown, hne⟩
    refine .inl ⟨hown, fun ⟨_, hx, ht, hclear⟩ => hne ?_⟩
    rw [ht] at hclear
    exact eq_of_bblock hx (by simpa using hclear)

end Marked

/-! ## Commands -/

section Commands

variable {L : Layout} {e : Ip} {γ : Knows} {w : Watched} {X : Watched → Prop}

theorem within_perform {c : Cmd} {P : Watched → Prop} {Q : c.Ans → Watched → Prop}
    (hP : Stable (Others L e) P) (hw : P w) (hfits : ∀ w, P w → w.Fits)
    (hc : ∀ w, P w → ∀ s r, Solo.handle L c w.solo = some (s, r) → Q r (w.note L c s)) :
    Within L e (.perform c) Q w := by
  refine Among.perform hP hw hfits fun t s' r ht hr => ?_
  obtain ⟨⟨s, r'⟩, hs, heq⟩ := Option.map_eq_some_iff.1 hr
  cases heq
  exact hc t ht s _ hs

theorem among_perform {c : Cmd} {Q : c.Ans → Watched → Prop} (hw : γ.At L e w)
    (hc : ∀ w, γ.At L e w → ∀ s r, Solo.handle L c w.solo = some (s, r) → Q r (w.note L c s)) :
    Within L e (.perform c) Q w := within_perform Knows.stable hw (fun _ ht => ht.fits) hc

/-- A command at which the process neither waits nor stops. -/
theorem among_go {c : Cmd} {Q : c.Ans → Watched → Prop} (hw : γ.At L e w)
    (hc : ∀ w, γ.At L e w → ∃ s r, Solo.handle L c w.solo = some (s, r) ∧ Q r (w.note L c s)) :
    Among (Others L e) (Watched.handle L) X (.perform c) Q w := by
  refine Among.go Knows.stable hw fun t ht => ?_
  obtain ⟨s, r, hs, hQ⟩ := hc t ht
  exact ⟨_, r, congrArg (Option.map _) hs, hQ⟩

theorem among_panic {α : Type} {Q : α → Watched → Prop} (hw : γ.At L e w) : Within L e panic Q w :=
  Among.stop Knows.stable hw (fun _ ht => ht.fits) fun _ => rfl

theorem Knows.At.bread (hw : γ.At L e w) {b : ℕ} {s : Solo} {h : BufId}
    (hs : Solo.handle L (.bread b) w.solo = some (s, h)) :
    γ.buf h = none ∧ ∃ d, (γ.setBuf h (some (b, d))).At L e { w with solo := s } := by
  change (if ∃ h, w.solo.hold h = some b then none else
    w.solo.freeBuf.map fun h => (w.solo.setHold h (some b), h)) = _ at hs
  split_ifs at hs with hheld
  obtain ⟨h', hfree, heq⟩ := Option.map_eq_some_iff.1 hs
  cases heq
  have hnone : γ.buf h = none := by
    have := List.find?_some hfree
    rw [decide_eq_true_eq, hw.hold] at this
    exact Option.map_eq_none_iff.1 this
  have hfresh : ∀ k d, γ.buf k ≠ some (b, d) := fun k d hk => hheld ⟨k, by rw [hw.hold, hk]; rfl⟩
  refine ⟨hnone, w.solo.blk b, { hw with hold := ?_, buf := ?_, inj := ?_ }⟩
  · intro k
    by_cases hk : k = h
    · subst hk
      rw [Knows.setBuf_self]
      exact update_self ..
    · rw [Knows.setBuf_of_ne _ hk, ← hw.hold]
      exact update_of_ne hk ..
  · intro k c d hk
    by_cases hkh : k = h
    · subst hkh
      rw [Knows.setBuf_self] at hk
      cases hk
      rfl
    · rw [Knows.setBuf_of_ne _ hkh] at hk
      exact hw.buf k c d hk
  · intro k k' c d d' hk hk'
    by_cases hkh : k = h
    · by_cases hkh' : k' = h
      · rw [hkh, hkh']
      · subst hkh
        rw [Knows.setBuf_self] at hk
        rw [Knows.setBuf_of_ne _ hkh'] at hk'
        cases hk
        exact absurd hk' (hfresh k' d')
    · rw [Knows.setBuf_of_ne _ hkh] at hk
      by_cases hkh' : k' = h
      · subst hkh'
        rw [Knows.setBuf_self] at hk'
        cases hk'
        exact absurd hk (hfresh k d)
      · rw [Knows.setBuf_of_ne _ hkh'] at hk'
        exact hw.inj k k' c d d' hk hk'

theorem among_bread (hw : γ.At L e w) (b : ℕ) : Within L e (bread b)
    (fun h w' => γ.buf h = none ∧ ∃ d, (γ.setBuf h (some (b, d))).At L e w') w :=
  among_perform hw fun _ hw _ _ hs => hw.bread hs

/-- A process that holds no buffer gets one. -/
theorem among_bread_first (hw : γ.At L e w) (hbuf : γ.buf = fun _ => none) (b : ℕ) :
    Among (Others L e) (Watched.handle L) X (Fs.bread b)
      (fun h w' => γ.buf h = none ∧ ∃ d, (γ.setBuf h (some (b, d))).At L e w') w := by
  refine among_go hw fun w hw => ?_
  have hnone : ∀ h, w.solo.hold h = none := fun h => by rw [hw.hold, hbuf]; rfl
  have hfree : w.solo.freeBuf = some 0 := by
    rw [Solo.freeBuf, show List.finRange nbuf = 0 :: (List.finRange (nbuf - 1)).map Fin.succ from
      List.finRange_succ]
    exact List.find?_cons_of_pos (decide_eq_true (hnone 0))
  have hs : Solo.handle L (.bread b) w.solo = some (w.solo.setHold 0 (some b), 0) := by
    change (if _ then none else w.solo.freeBuf.map _) = _
    have hheld : ¬ ∃ h, w.solo.hold h = some b := fun ⟨h, hh⟩ => by
      rw [hnone h] at hh
      cases hh
    rw [if_neg hheld, hfree]
    rfl
  exact ⟨_, _, hs, hw.bread hs⟩

variable {h : BufId} {b : ℕ} {d : Block}

theorem Knows.At.hold_some (hw : γ.At L e w) (hb : γ.buf h = some (b, d)) : w.solo.hold h = some b := by
  rw [hw.hold, hb]
  rfl

theorem Knows.At.hold_setBuf (hw : (γ.setBuf h (some (b, d))).At L e w) : w.solo.hold h = some b :=
  hw.hold_some (γ.setBuf_self h _)

theorem Knows.At.blk_setBuf (hw : (γ.setBuf h (some (b, d))).At L e w) : w.solo.blk b = d :=
  hw.buf h b d (γ.setBuf_self h _)

theorem among_data (hw : (γ.setBuf h (some (b, d))).At L e w) : Among (Others L e) (Watched.handle L) X
    (data h) (fun r w' => r = d ∧ (γ.setBuf h (some (b, d))).At L e w') w :=
  among_go hw fun w hw => ⟨w.solo, w.solo.blk b, congrArg (Option.map _) hw.hold_setBuf, hw.blk_setBuf, hw⟩

theorem among_brelse (hw : (γ.setBuf h (some (b, d))).At L e w) (hh : γ.buf h = none) :
    Among (Others L e) (Watched.handle L) X (brelse h) (fun _ w' => γ.At L e w' ∧ w'.solo.blk b = d) w := by
  refine among_go hw fun w hw => ⟨_, (), congrArg (Option.map _) hw.hold_setBuf, ?_⟩
  have hsome : ∀ {k x}, γ.buf k = some x → (γ.setBuf h (some (b, d))).buf k = some x := by
    intro k x hk
    by_cases hkh : k = h
    · rw [hkh, hh] at hk
      cases hk
    · rwa [Knows.setBuf_of_ne _ hkh]
  refine ⟨{ hw with hold := ?_, buf := fun k c d hk => hw.buf k c d (hsome hk),
                    inj := fun k k' c d d' hk hk' => hw.inj k k' c d d' (hsome hk) (hsome hk') },
    hw.blk_setBuf⟩
  intro k
  by_cases hk : k = h
  · rw [hk, hh]
    exact update_self ..
  · refine (update_of_ne hk ..).trans ((hw.hold k).trans ?_)
    rw [Knows.setBuf_of_ne _ hk]

theorem among_logWrite (hw : (γ.setBuf h (some (b, d))).At L e w) :
    Within L e (logWrite h) (fun _ w' =>
      (Knows.setBuf { γ with logged := insert b γ.logged } h (some (b, d))).At L e w') w := by
  refine among_perform hw fun w hw s r hs => ?_
  change (w.solo.hold h).bind (fun b => (w.solo.logWrite L b).map (·, ())) = _ at hs
  rw [hw.hold_setBuf, Option.bind_some] at hs
  obtain ⟨s', hs', heq⟩ := Option.map_eq_some_iff.1 hs
  cases heq
  unfold Solo.logWrite at hs'
  have hlog : insert b w.logged = insert b γ.logged := congrArg (insert b) hw.logged
  split_ifs at hs' with hfull hmem
  all_goals
    cases hs'
    simp only [Watched.note, hw.hold_setBuf]
    exact { hw with logged := hlog }

theorem among_inode (hw : γ.At L e w) : Among (Others L e) (Watched.handle L) X (inode e)
    (fun r w' => r.inum = γ.inum ∧ r.valid = γ.valid ∧ r.din = γ.din ∧ γ.At L e w') w :=
  among_go hw fun w hw => ⟨w.solo, w.solo.entry e, rfl, hw.inum, hw.valid, hw.din, hw⟩

theorem among_store {f : Dinode → Dinode} (hw : γ.At L e w) : Among (Others L e) (Watched.handle L) X
    (store e f) (fun _ w' => Knows.At L e { γ with din := f γ.din } w') w := by
  refine among_go hw fun w hw => ⟨_, (), rfl, ?_⟩
  have hself : (w.solo.setEntry e { w.solo.entry e with din := f (w.solo.entry e).din }).entry e =
      { w.solo.entry e with din := f (w.solo.entry e).din } := update_self ..
  refine { hw with inum := ?_, valid := ?_, din := ?_ }
  · exact (congrArg Entry.inum hself).trans hw.inum
  · exact (congrArg Entry.valid hself).trans hw.valid
  · refine (congrArg Entry.din hself).trans ?_
    rw [← hw.din]

theorem among_setValid {b : Bool} (hw : γ.At L e w) : Among (Others L e) (Watched.handle L) X
    (setValid e b) (fun _ w' => Knows.At L e { γ with valid := b } w') w := by
  refine among_go hw fun w hw => ⟨_, (), rfl, ?_⟩
  have hself : (w.solo.setEntry e { w.solo.entry e with valid := b }).entry e =
      { w.solo.entry e with valid := b } := update_self ..
  exact { hw with inum := (congrArg Entry.inum hself).trans hw.inum
                  valid := congrArg Entry.valid hself
                  din := (congrArg Entry.din hself).trans hw.din }

/-- **A store to a buffer**, for what it does to the free map and to the blocks of the process. -/
theorem Knows.At.write {d' : Block} {own used : Set ℕ} {mem : ℕ → Block} (hw : γ.At L e w)
    (hdisk : γ.disk = none) (hb : γ.buf h = some (b, d)) (hdata : ∀ x ∈ own, L.nmeta ≤ x ∧ x < L.size)
    (hmem : ∀ x ∈ own, (if x = b then d' else w.solo.blk x) = mem x)
    (hused : ∀ x ∈ used, (x ∈ own ∨ x < L.nmeta) ∧
      if L.bblock x = b then bit d' (x % bpb) = true else x ∈ γ.used) :
    (Knows.setBuf { γ with own := own, used := used, mem := mem } h (some (b, d'))).At L e
      { w with solo := w.solo.setBlk b d', own := own } := by
  have hblk : (w.solo.setBlk b d').blk = update w.solo.blk b d' := rfl
  have hdisk' : ∀ v, γ.disk = some v → dinodeAt L.toSuperblock (w.solo.setBlk b d').blk γ.inum = v :=
    fun v hv => by rw [hdisk] at hv; cases hv
  refine { hw with disk := hdisk', own := rfl, hold := ?_, buf := ?_, inj := ?_, data := hdata, mem := ?_,
                   used := ?_, mine := fun x hx => (hused x hx).1 }
  · intro k
    by_cases hk : k = h
    · rw [hk, Knows.setBuf_self]
      exact hw.hold_some hb
    · rw [Knows.setBuf_of_ne _ hk]
      exact hw.hold k
  · intro k c x hk
    by_cases hkh : k = h
    · rw [hkh, Knows.setBuf_self] at hk
      cases hk
      rw [hblk, update_self]
    · rw [Knows.setBuf_of_ne _ hkh] at hk
      have hne : c ≠ b := fun hcb => hkh (hw.inj k h b x d (hcb ▸ hk) hb)
      rw [hblk, update_of_ne hne]
      exact hw.buf k c x hk
  · intro k k' c x x' hk hk'
    have hold : ∀ {k x}, (Knows.setBuf { γ with own := own, used := used, mem := mem } h
        (some (b, d'))).buf k = some (c, x) → ∃ y, γ.buf k = some (c, y) := by
      intro k x hk
      by_cases hkh : k = h
      · rw [hkh, Knows.setBuf_self] at hk
        cases hk
        exact ⟨d, hkh ▸ hb⟩
      · rw [Knows.setBuf_of_ne _ hkh] at hk
        exact ⟨x, hk⟩
    obtain ⟨y, hy⟩ := hold hk
    obtain ⟨y', hy'⟩ := hold hk'
    exact hw.inj k k' c y y' hy hy'
  · intro x hx
    rw [hblk, update_apply]
    exact hmem x hx
  · intro x hx
    have hx := (hused x hx).2
    unfold usedAt
    rw [hblk, update_apply]
    split_ifs at hx ⊢ with hxb
    · exact hx
    · exact hw.used x hx

theorem Knows.At.write_plain {d' : Block} {mem : ℕ → Block} (hw : (γ.setBuf h (some (b, d))).At L e w)
    (hdisk : γ.disk = none) (hne : ∀ x < L.size, L.bblock x ≠ b)
    (hmem : ∀ x ∈ γ.own, (if x = b then d' else γ.mem x) = mem x) :
    (Knows.setBuf { γ with mem := mem } h (some (b, d'))).At L e
      { w with solo := w.solo.setBlk b d' } := by
  have hown : { w with solo := w.solo.setBlk b d' } =
      ({ w with solo := w.solo.setBlk b d', own := γ.own } : Watched) := by
    rw [show γ.own = w.own from hw.own.symm]
  rw [hown, ← Knows.setBuf_setBuf _ h (some (b, d))]
  refine hw.write hdisk (γ.setBuf_self h _) hw.data ?_ ?_
  · intro x hx
    rw [show w.solo.blk x = γ.mem x from hw.mem x hx]
    exact hmem x hx
  · intro x hx
    refine ⟨hw.mine x hx, ?_⟩
    rw [if_neg (hne x (hw.lt hx))]
    exact hx

theorem among_setData {d' : Block} {mem : ℕ → Block} (hw : (γ.setBuf h (some (b, d))).At L e w)
    (hdisk : γ.disk = none) (hne : ∀ x < L.size, L.bblock x ≠ b)
    (hmem : ∀ x ∈ γ.own, (if x = b then d' else γ.mem x) = mem x) :
    Within L e (setData h d') (fun _ w' =>
      (Knows.setBuf { γ with mem := mem } h (some (b, d'))).At L e w') w := by
  refine among_perform hw fun w hw s r hs => ?_
  change (w.solo.hold h).map _ = _ at hs
  rw [hw.hold_setBuf] at hs
  cases hs
  simp only [Watched.note, hw.hold_setBuf, marked_of_ne hne]
  exact hw.write_plain hdisk hne hmem

theorem among_setOwn {d' : Block} (hw : (γ.setBuf h (some (b, d))).At L e w) (hdisk : γ.disk = none)
    (hne : ∀ x < L.size, L.bblock x ≠ b) : Within L e (setData h d') (fun _ w' =>
      (Knows.setBuf { γ with mem := update γ.mem b d' } h (some (b, d'))).At L e w') w :=
  among_setData hw hdisk hne fun x _ => (update_apply γ.mem b d' x).symm

theorem among_copyin {off len : ℕ} {src : Source} (hw : (γ.setBuf h (some (b, d))).At L e w)
    (hdisk : γ.disk = none) (hne : ∀ x < L.size, L.bblock x ≠ b) :
    Within L e (copyinBuf h off src len) (fun r w' => ∃ d', eitherCopyin d off src len = (d', r) ∧
      (Knows.setBuf { γ with mem := update γ.mem b d' } h (some (b, d'))).At L e w') w := by
  refine among_perform hw fun w hw s r hs => ?_
  change (w.solo.hold h).map _ = _ at hs
  rw [hw.hold_setBuf, Option.map_some, hw.blk_setBuf] at hs
  cases hs
  exact ⟨_, rfl, hw.write_plain hdisk hne fun x _ => (update_apply ..).symm⟩

theorem Knows.At.bblock_ne (hw : γ.At L e w) {x : ℕ} (hx : x ∈ γ.own) (hb : b < L.size) :
    x ≠ L.bblock b := by
  have h₁ := (hw.data x hx).1
  have h₂ := L.bblock_lt hb
  omega

/-- **Marking a block** in the free map: it becomes the process's own, whatever it holds. -/
theorem among_mark (hw : (γ.setBuf h (some (L.bblock b, d))).At L e w) (hdisk : γ.disk = none)
    (hb : b < L.size) (hnew : L.nmeta ≤ b) (hd : bit d (b % bpb) = false) :
    Within L e (setData h (setBit d (b % bpb))) (fun _ w' => ∃ z,
      (Knows.setBuf { γ with
        own := insert b γ.own
        used := insert b γ.used
        mem := update γ.mem b z } h (some (L.bblock b, setBit d (b % bpb)))).At L e w') w := by
  refine among_perform hw fun w hw s r hs => ?_
  change (w.solo.hold h).map _ = _ at hs
  rw [hw.hold_setBuf] at hs
  cases hs
  refine ⟨w.solo.blk b, ?_⟩
  simp only [Watched.note, hw.hold_setBuf]
  rw [hw.blk_setBuf, marked_setBit hb hd, show w.own = γ.own from hw.own,
    ← Knows.setBuf_setBuf _ h (some (L.bblock b, d))]
  refine hw.write hdisk (γ.setBuf_self h _) ?_ ?_ ?_
  · intro x hx
    cases hx with
    | inl heq => exact heq ▸ ⟨hnew, hb⟩
    | inr hx => exact hw.data x hx
  · intro x hx
    have hne : x ≠ L.bblock b := by
      cases hx with
      | inl heq =>
        have := L.bblock_lt hb
        omega
      | inr hx => exact hw.bblock_ne hx hb
    rw [if_neg hne]
    change w.solo.blk x = update γ.mem b (w.solo.blk b) x
    by_cases hxb : x = b
    · rw [hxb, update_self]
    · rw [update_of_ne hxb]
      exact hw.mem x (hx.resolve_left hxb)
  · intro x hx
    have hbit := bit_setBit (d := d) (j := x % bpb) (bpb_byte b)
    cases hx with
    | inl heq =>
      subst heq
      exact ⟨.inl (.inl rfl), by rw [if_pos rfl, hbit, decide_eq_true rfl, Bool.or_true]⟩
    | inr hx =>
      refine ⟨(hw.mine x hx).imp_left .inr, ?_⟩
      split_ifs with hxb
      · have hu : bit d (x % bpb) = true := by
          have := hw.used x hx
          rwa [usedAt, hxb, hw.blk_setBuf] at this
        rw [hbit, hu, Bool.true_or]
      · exact hx

theorem among_clear (hw : (γ.setBuf h (some (L.bblock b, d))).At L e w) (hdisk : γ.disk = none)
    (hb : b < L.size) (hd : bit d (b % bpb) = true) :
    Within L e (setData h (clearBit d (b % bpb))) (fun _ w' =>
      (Knows.setBuf { γ with own := γ.own \ {b}, used := ∅ } h
        (some (L.bblock b, clearBit d (b % bpb)))).At L e w') w := by
  refine among_perform hw fun w hw s r hs => ?_
  change (w.solo.hold h).map _ = _ at hs
  rw [hw.hold_setBuf] at hs
  cases hs
  simp only [Watched.note, hw.hold_setBuf]
  rw [hw.blk_setBuf, marked_clearBit hb hd, show w.own = γ.own from hw.own,
    ← Knows.setBuf_setBuf _ h (some (L.bblock b, d))]
  refine hw.write hdisk (γ.setBuf_self h _) (fun x hx => hw.data x hx.1) ?_ fun x hx => hx.elim
  intro x hx
  rw [if_neg (hw.bblock_ne hx.1 hb)]
  exact hw.mem x hx.1

end Commands

end Xv6.Fs

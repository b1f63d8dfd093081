import Xv6.Fs.Invariant

/-!
# Locked inodes

How the parts of the invariant about the inode cache change when one process acts on one entry.

* `LockOk.move`: what the process knows of the entry.
* `IcOk.owner`, `IcOk.lockEntry`, `IcOk.unlockEntry`, `IcOk.refer`: the steps of the inode cache protocol
  on the inodes of the disk blocks.
* `dinodeMap_put`: writing an inode to its block.
-/

namespace Xv6.Fs

open Function Bytes
open Bio (BufId)
open Icache (Ip Entry Facts PcOk)

variable {L : Layout} {entry : Ip → Entry} {ilock : Ip → Option Pid} {mine : Pid → Ip → ℕ}
  {dinode : ℕ × ℕ → Dinode} {pc : Pid → Icache.Pc} {G : Shared} {p : Pid} {e : Ip} {i : ℕ}
  {lk : Pid → Ip → Option (ℕ × Option (Row × Bool))} {blk : ℕ → Block}

/-! ## Knowledge -/

/-- **Process `p` acts on entry `e`, for inode `i`**: it knows `o` afterwards, the inode stands as `r`
and as `d` on disk, and the lock is in state `l`. -/
theorem LockOk.move (hL : LockOk entry ilock dinode lk G) {v : Entry} {l : Option Pid} {r : Row}
    {d : Dinode} {δ : Bool} {o : Option (Option (Row × Bool))} (hq : ∀ q, q ≠ p → lk q e = none)
    (hnum : ∀ j x, lk p e = some (j, x) → j = i)
    (hrow : r = G.row i ∧ d = dinode (rootDev, i) ∨ ∀ q a y, a ≠ e → lk q a ≠ some (i, some y))
    (hl : l = if o.isSome then some p else none) (hkey : o.isSome → v.key = (rootDev, i))
    (hknown : ∀ y, o = some (some y) → v.valid = true ∧ v.din = y.1.din ∧ δ = y.2 ∧ r = y.1 ∧
      d.type ≠ 0)
    (hrest : r.loose = false ∧ r.dead = ∅ ∨ ∃ y, o = some (some y)) :
    LockOk (update entry e v) (update ilock e l)
      (update dinode (rootDev, i) d)
      (update lk p (update (lk p) e (o.map (i, ·))))
      ⟨update G.row i r, update G.dirty e δ⟩ := by
  -- the knowledge about `e`, and about the other entries
  have hself : ∀ {q j x}, update lk p (update (lk p) e (o.map (i, ·))) q e =
      some (j, x) → q = p ∧ i = j ∧ o = some x := by
    intro q j x hx
    by_cases hqp : q = p
    · subst hqp
      rw [update_self, update_self] at hx
      obtain ⟨y, hy, hxy⟩ := Option.map_eq_some_iff.1 hx
      cases hxy
      exact ⟨rfl, rfl, hy⟩
    · rw [update_of_ne hqp, hq q hqp] at hx
      cases hx
  have hother : ∀ q {a}, a ≠ e → update lk p (update (lk p) e (o.map (i, ·))) q a =
      lk q a := by
    intro q a ha
    by_cases hqp : q = p
    · rw [hqp, update_self, update_of_ne ha]
    · rw [update_of_ne hqp]
  refine ⟨fun {q a j x} hx => ?_, fun {q a j r' b'} hx => ?_, fun {q a} ha => ?_, fun j => ?_⟩
  · by_cases ha : a = e
    · subst ha
      obtain ⟨rfl, rfl, ho⟩ := hself hx
      rw [update_self, update_self, hl, ho]
      exact ⟨rfl, hkey (by rw [ho]; rfl)⟩
    · rw [hother q ha] at hx
      rw [update_of_ne ha, update_of_ne ha]
      exact hL.holds hx
  · by_cases ha : a = e
    · subst ha
      obtain ⟨rfl, rfl, ho⟩ := hself hx
      simp only [update_self]
      exact hknown _ ho
    · rw [hother q ha] at hx
      obtain ⟨h₁, h₂, h₃, h₄, h₅⟩ := hL.known hx
      simp only [update_of_ne ha]
      refine ⟨h₁, h₂, h₃, ?_⟩
      by_cases hj : j = i
      · subst hj
        rw [update_self, update_self]
        rcases hrow with ⟨rfl, rfl⟩ | hrow
        · exact ⟨h₄, h₅⟩
        · exact absurd hx (hrow q a _ ha)
      · rw [update_of_ne hj, update_of_ne (by simpa using hj)]
        exact ⟨h₄, h₅⟩
  · by_cases hae : a = e
    · subst hae
      rw [update_self, hl] at ha
      split_ifs at ha with ho
      cases ha
      obtain ⟨x, hx⟩ := Option.isSome_iff_exists.1 ho
      exact ⟨i, x, by rw [update_self, update_self, hx]; rfl⟩
    · rw [update_of_ne hae] at ha
      rw [hother q hae]
      exact hL.all ha
  · by_cases hj : j = i
    · subst hj
      simp only [update_self]
      rcases hrest with hrest | ⟨y, hy⟩
      · exact .inl hrest
      · exact .inr ⟨p, e, y, by rw [update_self, update_self, hy]; rfl⟩
    · simp only [update_of_ne hj]
      rcases hL.rest j with hr | ⟨q, a, y, hy⟩
      · exact .inl hr
      · have ha : a ≠ e := by
          rintro rfl
          by_cases hqp : q = p
          · subst hqp
            exact hj (hnum j _ hy)
          · rw [hq q hqp] at hy
            cases hy
        exact .inr ⟨q, a, y, by rw [hother q ha]; exact hy⟩

theorem LockOk.refer (hL : LockOk entry ilock dinode lk G) {v : Entry}
    (hv : ilock e = none ∨ v.key = (entry e).key ∧ v.valid = (entry e).valid ∧ v.din = (entry e).din) :
    LockOk (update entry e v) ilock dinode lk G := by
  have hsame : ∀ a q, ilock a = some q → (update entry e v a).key = (entry a).key ∧
      (update entry e v a).valid = (entry a).valid ∧
      (update entry e v a).din = (entry a).din := by
    intro a q ha
    by_cases hae : a = e
    · subst hae
      rw [update_self]
      exact hv.resolve_left fun hn => by cases hn.symm.trans ha
    · rw [update_of_ne hae]
      exact ⟨rfl, rfl, rfl⟩
  refine ⟨fun {q a j x} hx => ?_, fun {q a j r b} hx => ?_, hL.all, hL.rest⟩
  · obtain ⟨hl, hk⟩ := hL.holds hx
    exact ⟨hl, (hsame a q hl).1.trans hk⟩
  · obtain ⟨-, h₂, h₃⟩ := hsame a q (hL.holds hx).1
    rw [h₂, h₃]
    exact hL.known hx

theorem LockOk.alloc (hL : LockOk entry ilock dinode lk G) {r : Row} {d : Dinode}
    (hd : (dinode (rootDev, i)).type = 0) (hl : r.loose = (G.row i).loose)
    (hdead : r.dead = (G.row i).dead) :
    LockOk entry ilock (update dinode (rootDev, i) d) lk
      ⟨update G.row i r, G.dirty⟩ := by
  refine ⟨hL.holds, fun {q a j r' b} hx => ?_, hL.all, fun j => ?_⟩
  · obtain ⟨h₁, h₂, h₃, h₄, h₅⟩ := hL.known hx
    have hj : j ≠ i := fun hj => h₅ (hj ▸ hd)
    rw [update_of_ne (by simpa using hj)]
    refine ⟨h₁, h₂, h₃, ?_, h₅⟩
    change update G.row i r j = r'
    rw [update_of_ne hj]
    exact h₄
  · by_cases hj : j = i
    · subst hj
      simp only [update_self, hl, hdead]
      exact hL.rest j
    · simp only [update_of_ne hj]
      exact hL.rest j

/-! ## The inodes on disk -/

theorem dinodeMap_update {b : ℕ} {d : Block} (hb : b < L.inodestart ∨ L.bmapstart ≤ b) :
    dinodeMap L (update blk b d) = dinodeMap L blk := by
  funext k
  unfold dinodeMap
  split_ifs with hk
  · have h₁ := L.inodestart_le_iblock k.2
    have h₂ := L.iblock_lt hk.2
    rw [dinodeAt, update_of_ne (by omega), dinodeAt]
  · rfl

theorem dinodeMap_put {β : ℕ → Block} (v : Dinode) (hi : i < L.ninodes) :
    dinodeMap L (update β (L.iblock i) (putDinode v (β (L.iblock i)) i)) =
      update (dinodeMap L β) (rootDev, i) v := by
  funext ⟨dev, j⟩
  by_cases hk : (dev, j) = (rootDev, i)
  · cases hk
    rw [update_self, dinodeMap, if_pos ⟨rfl, hi⟩, dinodeAt, update_self,
      getDinode_putDinode, if_pos rfl]
  · rw [update_of_ne hk]
    unfold dinodeMap
    split_ifs with hk'
    · obtain ⟨rfl : dev = rootDev, -⟩ := hk'
      have hji : j ≠ i := fun e => hk (by rw [e])
      by_cases hb : L.iblock j = L.iblock i
      · have hdiv : j / ipb = i / ipb := Nat.add_right_cancel hb
        have hmod : ¬ i % ipb = j % ipb := fun e => hji <| by
          rw [← Nat.div_add_mod j ipb, ← Nat.div_add_mod i ipb, hdiv, e]
        rw [dinodeAt, dinodeAt, hb, update_self, getDinode_putDinode, if_neg hmod]
      · rw [dinodeAt, update_of_ne hb, dinodeAt]
    · rfl

/-! ## The inode cache -/

theorem refs_pos (h : 0 < mine p e) : 0 < ∑ q, mine q e :=
  lt_of_lt_of_le h (Finset.single_le_sum (f := fun q => mine q e) (fun _ _ => Nat.zero_le _)
    (Finset.mem_univ p))

namespace IcOk

variable (hI : IcOk L entry ilock mine dinode pc G)

include hI

theorem small : (icOf entry ilock mine dinode pc G.dirty).Small := by
  intro e
  have h : ∑ p, mine p e ≤ ∑ p : Pid, maxRefs := Finset.sum_le_sum fun p _ =>
    (Finset.single_le_sum (f := mine p) (fun _ _ => Nat.zero_le _) (Finset.mem_univ e)).trans (hI.few p)
  exact lt_of_le_of_lt h (by decide)

theorem range_of_lock (hl : ilock e = some p) (hk : (entry e).key = (rootDev, i)) :
    i < L.ninodes := by
  have := (hI.range e (hI.ic.refs_pos_of_lock hl)).2
  rwa [show (entry e).inum = i from (Prod.mk.inj hk).2] at this

theorem lock_unique {q : Pid} {a : Ip} (hl : ilock e = some p) (hk : (entry e).key = (rootDev, i))
    (hl' : ilock a = some q) (hk' : (entry a).key = (rootDev, i)) : q = p ∧ a = e := by
  have ha : a = e := hI.ic.uniq a e (hI.ic.refs_pos_of_lock hl') (hI.ic.refs_pos_of_lock hl)
    (hk'.trans hk.symm)
  subst ha
  rw [hl] at hl'
  exact ⟨(Option.some.inj hl').symm, rfl⟩

/-- **The holder of a lock changes the entry, its key and count apart, and the inode on disk.** -/
theorem owner {v : Entry} {c : Icache.Pc} {d : Dinode} {δ : Bool} {r : Row} (hl : ilock e = some p)
    (hk : (entry e).key = (rootDev, i)) (hv : v.key = (entry e).key) (href : v.ref = (entry e).ref)
    (hst : ∀ a, a ≠ e → c.stage a = (pc p).stage a)
    (hc : PcOk (icOf entry ilock mine dinode pc G.dirty) p c) (hf : Facts v d δ (c.stage e))
    (ht : d = r.din ∨ δ = true) :
    IcOk L (update entry e v) ilock mine (update dinode (rootDev, i) d)
      (update pc p c) ⟨update G.row i r, update G.dirty e δ⟩ := by
  have hkey : ∀ a, (update entry e v a).key = (entry a).key := fun a => by
    by_cases ha : a = e
    · rw [ha, update_self, hv]
    · rw [update_of_ne ha]
  refine ⟨?_, fun a ha => ?_, hI.few, fun j hj => ?_⟩
  · have := hI.ic.owner (e := e) (p := p) hl hv href hst hc hf (x := none) nofun
    change Icache.Inv ⟨_, _, update dinode (entry e).key d, _, _, _, _⟩ at this
    rw [hk] at this
    exact this
  · obtain ⟨h₁, h₂⟩ := Prod.mk.inj (hkey a)
    change (update entry e v a).dev = (entry a).dev at h₁
    change (update entry e v a).inum = (entry a).inum at h₂
    rw [h₁, h₂]
    exact hI.range a ha
  · by_cases hji : j = i
    · subst hji
      rw [update_self]
      simp only [update_self]
      exact ht.imp_right fun hb => ⟨e, by rw [update_self, hb], (hkey e).trans hk⟩
    · rw [update_of_ne (by simpa using hji)]
      simp only [update_of_ne hji]
      refine (hI.table j hj).imp_right fun ⟨a, ha, hka⟩ => ⟨a, ?_, (hkey a).trans hka⟩
      have hae : a ≠ e := by
        rintro rfl
        exact hji (Prod.mk.inj (hka.symm.trans hk)).2
      rw [update_of_ne hae]
      exact ha

theorem lockEntry {t : Icache.Stage} (hpc : ∀ a, (pc p).stage a = none) (hl : ilock e = none)
    (hm : 0 < mine p e) (hf : Facts (entry e) (dinode (entry e).key) (G.dirty e) (some t)) :
    IcOk L entry (update ilock e (some p)) mine dinode (update pc p (.own t e)) G :=
  ⟨hI.ic.lockEntry hpc hl hm hf, hI.range, hI.few, hI.table⟩

theorem unlockEntry {c : Icache.Pc} (hl : ilock e = some p)
    (hst : ∀ a, a ≠ e → c.stage a = (pc p).stage a)
    (hc : PcOk (icOf entry (update ilock e none) mine dinode pc G.dirty) p c)
    (hd : G.dirty e = false) (hrest : Icache.Rest (entry e) (dinode (entry e).key)) :
    IcOk L entry (update ilock e none) mine dinode (update pc p c) G :=
  ⟨hI.ic.unlockEntry hl hst hc hd hrest, hI.range, hI.few, hI.table⟩

theorem moves {c : Icache.Pc} (hst : ∀ a, c.stage a = (pc p).stage a)
    (hc : PcOk (icOf entry ilock mine dinode pc G.dirty) p c) :
    IcOk L entry ilock mine dinode (update pc p c) G :=
  ⟨hI.ic.moves (d := dinode) (fun _ => .inl rfl) hst hc, hI.range, hI.few, hI.table⟩

theorem refer {v : Entry} {n : ℕ}
    (hinv : Icache.Inv (icOf (update entry e v) ilock
      (update mine p (update (mine p) e n)) dinode (update pc p .idle)
      G.dirty))
    (hv : v.key = (entry e).key ∨ ilock e = none) (hrange : v.dev = rootDev ∧ v.inum < L.ninodes)
    (hfew : ∑ a, update (mine p) e n a ≤ maxRefs) :
    IcOk L (update entry e v) ilock (update mine p (update (mine p) e n))
      dinode (update pc p .idle) G := by
  refine ⟨hinv, fun a ha => ?_, fun q => ?_, fun j hj => ?_⟩
  · by_cases hae : a = e
    · rw [hae, update_self]
      exact hrange
    · rw [update_of_ne hae]
      refine hI.range a (lt_of_lt_of_eq ha (Finset.sum_congr rfl fun q _ => ?_))
      by_cases hq : q = p
      · rw [hq, update_self, update_of_ne hae]
      · rw [update_of_ne hq]
  · by_cases hq : q = p
    · rw [hq, update_self]
      exact hfew
    · rw [update_of_ne hq]
      exact hI.few q
  · refine (hI.table j hj).imp_right fun ⟨a, ha, hk⟩ => ⟨a, ha, ?_⟩
    by_cases hae : a = e
    · subst hae
      rw [update_self]
      rcases hv with hkey | hl
      · exact hkey.trans hk
      · cases ha.symm.trans (hI.ic.clean a hl)
    · rw [update_of_ne hae]
      exact hk

omit hI in
theorem few_succ (hfew : ∑ a, mine p a < maxRefs) (e : Ip) :
    ∑ a, update (mine p) e (mine p e + 1) a ≤ maxRefs := by
  have := Runs.sum_update id (mine p) e (mine p e + 1)
  simp only [id] at this
  omega

theorem iget {t : Ip → Entry} {inum : ℕ} (hst : ∀ a, (pc p).stage a = none)
    (hfew : ∑ a, mine p a < maxRefs) (hi : inum < L.ninodes)
    (hg : Icache.igetEntry entry rootDev inum = some (t, e)) :
    ∃ v, t = update entry e v ∧
      (ilock e = none ∨ v.key = (entry e).key ∧ v.valid = (entry e).valid ∧ v.din = (entry e).din) ∧
      IcOk L t ilock (update mine p (update (mine p) e (mine p e + 1))) dinode
        (update pc p .idle) G := by
  have hinv := hI.ic.iget hI.small hst rootDev inum
  rw [Icache.State.iget, show (icOf entry ilock mine dinode pc G.dirty).entry = entry from rfl, hg]
    at hinv
  have hcount := hI.ic.count e
  change (entry e).ref = _ at hcount
  rcases Icache.igetEntry_eq hg with ⟨hpos, hkey, rfl⟩ | ⟨-, hzero, rfl⟩
  · rw [hcount, Count.pos_ofNat_iff (hI.small e)] at hpos
    exact ⟨_, rfl, .inr ⟨rfl, rfl, rfl⟩, hI.refer hinv (.inl rfl) (hI.range e hpos) (few_succ hfew e)⟩
  · rw [hcount, Count.ofNat_eq_zero_iff (hI.small e)] at hzero
    have hl := hI.ic.lock_of_unused hzero
    exact ⟨_, rfl, .inl hl, hI.refer hinv (.inr hl) ⟨rfl, hi⟩ (few_succ hfew e)⟩

theorem idup (hp : pc p = .idle) (hm : 0 < mine p e) (hfew : ∑ a, mine p a < maxRefs) :
    IcOk L (update entry e { entry e with ref := (entry e).ref + 1 }) ilock
      (update mine p (update (mine p) e (mine p e + 1))) dinode
      (update pc p .idle) G := by
  have hinv := hI.ic.idup hp hm
  refine hI.refer ?_ (.inl rfl) (hI.range e (refs_pos hm)) (few_succ hfew e)
  rw [← hp, update_eq_self]
  exact hinv

theorem putRef (hst : ∀ a, (pc p).stage a = none)
    (hsp : 0 < mine p e ∧ (ilock e = some p → 2 ≤ mine p e)) :
    IcOk L (update entry e { entry e with ref := (entry e).ref - 1 }) ilock
      (update mine p (update (mine p) e (mine p e - 1))) dinode
      (update pc p .idle) G := by
  refine hI.refer (hI.ic.putRef hst hsp) (.inl rfl) (hI.range e (refs_pos hsp.1)) ?_
  have := Runs.sum_update id (mine p) e (mine p e - 1)
  have := hI.few p
  simp only [id] at *
  omega

theorem give {q : Pid} (hp : pc p = .idle) (hsp : 0 < mine p e ∧ (ilock e = some p → 2 ≤ mine p e))
    (hfew : ∑ a, mine q a < maxRefs) :
    IcOk L entry ilock ((icOf entry ilock mine dinode pc G.dirty).give p q e).mine dinode pc G := by
  refine ⟨hI.ic.give hp hsp, fun a ha => hI.range a ?_, fun r => ?_, hI.table⟩
  · exact lt_of_lt_of_eq ha (Icache.refs_give (s := icOf entry ilock mine dinode pc G.dirty) hsp.1 a)
  · have hr := hI.few r
    have hm := hsp.1
    change ∑ a, update (update mine p (update (mine p) e (mine p e - 1))) q
      (update (update mine p (update (mine p) e (mine p e - 1)) q) e
        (update mine p (update (mine p) e (mine p e - 1)) q e + 1)) r a ≤ maxRefs
    have h₁ := Runs.sum_update id (mine p) e (mine p e - 1)
    simp only [id] at h₁
    by_cases hrq : r = q
    · subst hrq
      rw [update_self]
      have h₂ := Runs.sum_update id
        (update mine p (update (mine p) e (mine p e - 1)) r) e
        (update mine p (update (mine p) e (mine p e - 1)) r e + 1)
      simp only [id] at h₂
      by_cases hrp : r = p
      · subst hrp
        simp only [update_self] at h₂ ⊢
        omega
      · simp only [update_of_ne hrp] at h₂ ⊢
        omega
    · rw [update_of_ne hrq]
      by_cases hrp : r = p
      · subst hrp
        rw [update_self]
        omega
      · rw [update_of_ne hrp]
        exact hr

theorem setRow {r : Row} (hr : r.din = (G.row i).din) :
    IcOk L entry ilock mine dinode pc ⟨update G.row i r, G.dirty⟩ := by
  refine ⟨hI.ic, hI.range, hI.few, fun j hj => ?_⟩
  by_cases hji : j = i
  · subst hji
    simp only [update_self, hr]
    exact hI.table j hj
  · simp only [update_of_ne hji]
    exact hI.table j hj

theorem alloc {r : Row} (hd : (dinode (rootDev, i)).type = 0) :
    IcOk L entry ilock mine (update dinode (rootDev, i) r.din) pc
      ⟨update G.row i r, G.dirty⟩ := by
  have := hI.ic.moves (p := 0) (c := pc 0) (d := update dinode (rootDev, i) r.din)
    (fun k => ?_) (fun _ => rfl) (hI.ic.proc 0)
  · refine ⟨?_, hI.range, hI.few, fun j hj => ?_⟩
    · change Icache.Inv ⟨_, _, _, update pc 0 (pc 0), _, _, _⟩ at this
      rw [update_eq_self] at this
      exact this
    · by_cases hji : j = i
      · subst hji
        simp only [update_self]
        exact .inl trivial
      · rw [update_of_ne (by simpa using hji)]
        simp only [update_of_ne hji]
        exact hI.table j hj
  · by_cases hk : k = (rootDev, i)
    · exact .inr (hk ▸ hd)
    · exact .inl (update_of_ne hk _ _)

end IcOk

/-- **The holder of a lock acts on its entry**: `LockOk.move` when the lock stays. -/
theorem LockOk.holder (hL : LockOk entry ilock dinode lk G) (hI : IcOk L entry ilock mine dinode pc G)
    {x o : Option (Row × Bool)} {v : Entry} {r : Row} {d : Dinode} {δ : Bool}
    (hk : lk p e = some (i, x)) (hkey : v.key = (entry e).key)
    (hknown : ∀ y, o = some y → v.valid = true ∧ v.din = y.1.din ∧ δ = y.2 ∧ r = y.1 ∧ d.type ≠ 0)
    (hrest : r.loose = false ∧ r.dead = ∅ ∨ o.isSome) :
    LockOk (update entry e v) ilock (update dinode (rootDev, i) d)
      (update lk p (update (lk p) e (some (i, o))))
      ⟨update G.row i r, update G.dirty e δ⟩ := by
  obtain ⟨hl, hkey'⟩ := hL.holds hk
  have := hL.move (p := p) (e := e) (i := i) (v := v) (l := some p) (r := r) (d := d) (δ := δ)
    (o := some o) (fun q hq => ?_) (fun j y hy => ?_) (.inr fun q a y ha hy => ?_) rfl
    (fun _ => hkey.trans hkey') (fun y hy => hknown y (Option.some.inj hy)) (hrest.imp_right fun ho => ?_)
  · rw [← hl, update_eq_self] at this
    exact this
  · by_contra hne
    obtain ⟨⟨j, y⟩, hy⟩ := Option.ne_none_iff_exists'.1 hne
    exact hq (Option.some.inj ((hL.holds hy).1.symm.trans hl))
  · exact (Prod.mk.inj (Option.some.inj (hy.symm.trans hk))).1
  · obtain ⟨hl', hk'⟩ := hL.holds hy
    exact ha (hI.lock_unique hl hkey' hl' hk').2
  · obtain ⟨y, hy⟩ := Option.isSome_iff_exists.1 ho
    exact ⟨y, by rw [hy]⟩

end Xv6.Fs

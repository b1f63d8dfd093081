import Xv6.Icache.Machine
import Xv6.Lib.Count

/-!
# What the inode cache keeps

* `refs`: the outstanding references to an entry.
* `Facts`: what holds of an entry that is locked, depending on where its holder stands.
* `Acts`, `Inv.act`: a step of one process on one entry.
* **`Inv.step`**: every step keeps the invariant while no reference count overflows.
-/

namespace Xv6.Icache

open Function Runs Count

variable {P : Type} [DecidableEq P] [Fintype P]

/-! ## References -/

/-- **The outstanding references to an entry.** -/
def State.refs (s : State P) (e : Ip) : ℕ := ∑ p, s.mine p e

def State.Small (s : State P) : Prop := ∀ e, s.refs e < 2 ^ 31

omit [DecidableEq P] in
theorem refs_of_mine {s : State P} {p : P} {e : Ip} (h : 0 < s.mine p e) : 0 < s.refs e :=
  lt_of_lt_of_le h (Finset.single_le_sum (f := fun q => s.mine q e) (fun _ _ => Nat.zero_le _)
    (Finset.mem_univ p))

omit [Fintype P] in
theorem mine_setMine (s : State P) (p : P) (e : Ip) (n : ℕ) (q : P) (a : Ip) :
    (s.setMine p e n).mine q a = if q = p ∧ a = e then n else s.mine q a := by
  change update s.mine p (update (s.mine p) e n) q a = _
  by_cases hq : q = p
  · subst hq
    by_cases ha : a = e <;> simp [ha]
  · simp [hq]

theorem refs_setMine (s : State P) (p : P) (e : Ip) (n : ℕ) (a : Ip) :
    (s.setMine p e n).refs a + (if a = e then s.mine p e else 0) =
      s.refs a + if a = e then n else 0 := by
  have := sum_update (fun m : Ip → ℕ => m a) s.mine p (update (s.mine p) e n)
  by_cases ha : a = e
  · subst ha
    simpa [State.refs, State.setMine] using this
  · simpa [State.refs, State.setMine, ha] using this

theorem refs_give {s : State P} {p q : P} {e : Ip} (h : 0 < s.mine p e) (a : Ip) :
    (s.give p q e).refs a = s.refs a := by
  have h₁ := refs_setMine s p e (s.mine p e - 1) a
  have h₂ := refs_setMine (s.setMine p e (s.mine p e - 1)) q e
    ((s.setMine p e (s.mine p e - 1)).mine q e + 1) a
  change ((s.setMine p e _).setMine q e _).refs a = _
  split_ifs at h₁ h₂ <;> omega

/-! ## The invariant -/

/-- The stage of the process, if it is in `ilock` or `iput` with entry `e`. -/
def Pc.stage (c : Pc) (e : Ip) : Option Stage :=
  match c with
  | .own st a => if a = e then some st else none
  | _ => none

/-- **What holds of a locked entry** `v`, with `d` its inode on disk. Without a stage the holder is a
caller of `ilock`. -/
def Facts (v : Entry) (d : Dinode) (dirty : Bool) : Option Stage → Prop
  | none => v.valid = true ∧ v.din.type ≠ 0 ∧ d.type ≠ 0 ∧ (dirty = false → v.din = d)
  | some .loading => dirty = false ∧ (v.valid = true → v.din = d ∧ d.type ≠ 0)
  | some .loaded => dirty = false ∧ (v.din.type ≠ 0 → v.din = d)
  | some .validated => dirty = false ∧ (v.din.type ≠ 0 → v.din = d) ∧ v.valid = true
  | some .trunc => v.valid = true ∧ v.din.type ≠ 0 ∧ v.din.nlink = 0 ∧ d.type ≠ 0 ∧ d.nlink = 0
  | some .saved =>
    dirty = false ∧ v.valid = true ∧ v.din = d ∧ d.type ≠ 0 ∧ d.nlink = 0
  | some .typeless => v.valid = true ∧ v.din.type = 0 ∧ d.type ≠ 0 ∧ d.nlink = 0
  | some .freed => dirty = false ∧ v.valid = true
  | some .unvalid => dirty = false ∧ v.valid = false

def Rest (v : Entry) (d : Dinode) : Prop := v.valid = true → v.din = d ∧ d.type ≠ 0

def EntryOk (s : State P) (e : Ip) : Prop :=
  match s.lock e with
  | none => Rest (s.entry e) (s.dinode (s.entry e).key)
  | some p => Facts (s.entry e) (s.dinode (s.entry e).key) (s.dirty e) ((s.pc p).stage e)

def PcOk (s : State P) (p : P) : Pc → Prop
  | .locking e => 0 < s.mine p e
  | .own _ e => s.lock e = some p
  | .drop e => Spare s p e
  | _ => True

structure Inv (s : State P) : Prop where
  count : ∀ e, (s.entry e).ref = Int32.ofNat (s.refs e)
  uniq : ∀ a b, 0 < s.refs a → 0 < s.refs b → (s.entry a).key = (s.entry b).key → a = b
  backed : ∀ p e, s.lock e = some p → 0 < s.mine p e
  entry : ∀ e, 0 < s.refs e → EntryOk s e
  proc : ∀ p, PcOk s p (s.pc p)
  clean : ∀ e, s.lock e = none → s.dirty e = false
  awake : s.halt ≠ some .asleep

variable {s s' : State P} {p : P} {e : Ip}

theorem Facts.disk {v : Entry} {d d' : Dinode} {dirty : Bool} {st : Option Stage}
    (h : Facts v d dirty st) (hd : d.type = 0) : Facts v d' dirty st := by
  rcases st with _ | st
  · exact absurd hd h.2.2.1
  · cases st with
    | loading => exact ⟨h.1, fun hv => absurd hd (h.2 hv).2⟩
    | loaded => exact ⟨h.1, fun ht => absurd ((h.2 ht) ▸ hd) ht⟩
    | validated => exact ⟨h.1, fun ht => absurd ((h.2.1 ht) ▸ hd) ht, h.2.2⟩
    | trunc => exact absurd hd h.2.2.2.1
    | saved => exact absurd hd h.2.2.2.1
    | typeless => exact absurd hd h.2.2.1
    | freed => exact h
    | unvalid => exact h

theorem Facts.of_dirty {v : Entry} {d : Dinode} {st : Option Stage} (h : Facts v d true st) :
    d.type ≠ 0 := by
  rcases st with _ | st
  · exact h.2.2.1
  · cases st with
    | trunc => exact h.2.2.2.1
    | typeless => exact h.2.2.1
    | _ => cases h.1

theorem Facts.congr {v v' : Entry} {d : Dinode} {dirty : Bool} {st : Option Stage}
    (h : Facts v d dirty st) (hv : v'.valid = v.valid) (hd : v'.din = v.din) :
    Facts v' d dirty st := by
  rcases st with _ | st
  · simpa only [Facts, hv, hd] using h
  · cases st <;> simpa only [Facts, hv, hd] using h

def DiskStep (d d' : Dinode) : Prop := d' = d ∨ d.type = 0

section

omit [DecidableEq P] [Fintype P]

theorem EntryOk.frame (h : EntryOk s e) (hkey : (s'.entry e).key = (s.entry e).key)
    (hvalid : (s'.entry e).valid = (s.entry e).valid) (hdin : (s'.entry e).din = (s.entry e).din)
    (hlock : s'.lock e = s.lock e) (hdirty : s'.dirty e = s.dirty e)
    (hstage : ∀ p, s.lock e = some p → (s'.pc p).stage e = (s.pc p).stage e)
    (hdisk : DiskStep (s.dinode (s.entry e).key) (s'.dinode (s.entry e).key)) : EntryOk s' e := by
  unfold EntryOk at h ⊢
  rw [hlock, hkey, hdirty]
  cases hl : s.lock e with
  | none =>
    rw [hl] at h
    intro hv
    rw [hvalid] at hv
    obtain ⟨hd, ht⟩ := h hv
    rcases hdisk with hdisk | hdisk
    · rw [hdin, hdisk]
      exact ⟨hd, ht⟩
    · exact absurd hdisk ht
  | some p =>
    rw [hl] at h
    dsimp only at h ⊢
    rw [hstage p hl]
    have h' := h.congr hvalid hdin
    rcases hdisk with hdisk | hdisk
    · rwa [hdisk]
    · exact h'.disk hdisk

theorem PcOk.congr {c : Pc} (h : PcOk s p c) (hm : s'.mine p = s.mine p)
    (hl : ∀ a, s'.lock a = some p ↔ s.lock a = some p) : PcOk s' p c := by
  cases c with
  | locking a =>
    rw [PcOk, hm]
    exact h
  | own st a => exact (hl a).2 h
  | drop a =>
    rw [PcOk, Spare, hm, hl]
    exact h
  | _ => trivial

end

/-- Process `p` acts on entry `e` and nothing else, but it may also allocate an inode on disk. -/
structure Acts (s s' : State P) (p : P) (e : Ip) : Prop where
  entry : ∀ a, a ≠ e → s'.entry a = s.entry a
  lock : ∀ a, a ≠ e → s'.lock a = s.lock a
  dirty : ∀ a, a ≠ e → s'.dirty a = s.dirty a
  pc : ∀ q, q ≠ p → s'.pc q = s.pc q
  stage : ∀ a, a ≠ e → (s'.pc p).stage a = (s.pc p).stage a
  mine : ∀ q, q ≠ p → s'.mine q = s.mine q
  mineSelf : ∀ a, a ≠ e → s'.mine p a = s.mine p a
  disk : ∀ k, DiskStep (s.dinode k) (s'.dinode k) ∨ 0 < s.refs e ∧ k = (s.entry e).key

theorem Acts.refs (h : Acts s s' p e) {a : Ip} (ha : a ≠ e) : s'.refs a = s.refs a := by
  refine Finset.sum_congr rfl fun q _ => ?_
  by_cases hq : q = p
  · exact hq ▸ h.mineSelf a ha
  · rw [h.mine q hq]

/-- **A step of one process on one entry**: what is left to show is about that entry. -/
theorem Inv.act (h : Inv s) (ha : Acts s s' p e)
    (hlock : ∀ q, q ≠ p → (s'.lock e = some q ↔ s.lock e = some q))
    (hcount : (s'.entry e).ref = Int32.ofNat (s'.refs e))
    (hbacked : s'.lock e = some p → 0 < s'.mine p e)
    (huniq : 0 < s'.refs e → (∀ a, a ≠ e → 0 < s.refs a → (s.entry a).key ≠ (s'.entry e).key))
    (hentry : 0 < s'.refs e → EntryOk s' e) (hproc : PcOk s' p (s'.pc p))
    (hclean : s'.lock e = none → s'.dirty e = false) (hawake : s'.halt ≠ some .asleep) :
    Inv s' := by
  refine ⟨fun a => ?_, fun a b hra hrb hkey => ?_, fun q a hl => ?_, fun a hra => ?_, fun q => ?_,
    fun a hl => ?_, hawake⟩
  · by_cases hae : a = e
    · exact hae ▸ hcount
    · rw [ha.entry a hae, ha.refs hae]
      exact h.count a
  · by_cases hae : a = e <;> by_cases hbe : b = e
    · rw [hae, hbe]
    · subst hae
      rw [ha.refs hbe] at hrb
      rw [ha.entry b hbe] at hkey
      exact absurd hkey.symm (huniq hra b hbe hrb)
    · subst hbe
      rw [ha.refs hae] at hra
      rw [ha.entry a hae] at hkey
      exact absurd hkey (huniq hrb a hae hra)
    · rw [ha.refs hae] at hra
      rw [ha.refs hbe] at hrb
      rw [ha.entry a hae, ha.entry b hbe] at hkey
      exact h.uniq a b hra hrb hkey
  · by_cases hqp : q = p
    · subst hqp
      by_cases hae : a = e
      · subst hae
        exact hbacked hl
      · rw [ha.lock a hae] at hl
        rw [ha.mineSelf a hae]
        exact h.backed q a hl
    · rw [ha.mine q hqp]
      by_cases hae : a = e
      · subst hae
        exact h.backed q a ((hlock q hqp).1 hl)
      · rw [ha.lock a hae] at hl
        exact h.backed q a hl
  · by_cases hae : a = e
    · subst hae
      exact hentry hra
    · rw [ha.refs hae] at hra
      have hent := ha.entry a hae
      refine (h.entry a hra).frame (by rw [hent]) (by rw [hent]) (by rw [hent]) (ha.lock a hae)
        (ha.dirty a hae) (fun q _ => ?_) ?_
      · by_cases hqp : q = p
        · exact hqp ▸ ha.stage a hae
        · rw [ha.pc q hqp]
      · rcases ha.disk (s.entry a).key with hd | ⟨hre, hk⟩
        · exact hd
        · exact absurd (h.uniq a e hra hre hk) hae
  · by_cases hqp : q = p
    · exact hqp ▸ hproc
    · rw [ha.pc q hqp]
      refine (h.proc q).congr (ha.mine q hqp) fun a => ?_
      by_cases hae : a = e
      · exact hae ▸ hlock q hqp
      · rw [ha.lock a hae]
  · by_cases hae : a = e
    · subst hae
      exact hclean hl
    · rw [ha.lock a hae] at hl
      rw [ha.dirty a hae]
      exact h.clean a hl

/-! ## One lemma for each action -/

/-- **What `iget` returns**: the entry for the inode, or an unused entry if there is none. -/
theorem igetEntry_eq {t t' : Ip → Entry} {dev inum : ℕ} (hg : igetEntry t dev inum = some (t', e)) :
    (0 < (t e).ref ∧ (t e).key = (dev, inum) ∧
        t' = update t e { t e with ref := (t e).ref + 1 }) ∨
      (∀ a, 0 < (t a).ref → (t a).key ≠ (dev, inum)) ∧ (t e).ref = 0 ∧
        t' = update t e
          { t e with dev := dev, inum := inum, ref := 1, valid := false } := by
  unfold igetEntry at hg
  split at hg
  · next a ha =>
    obtain ⟨rfl, rfl⟩ := Prod.mk.inj (Option.some.inj hg)
    have := List.find?_some ha
    simp only [Bool.and_eq_true, decide_eq_true_eq] at this
    exact .inl ⟨this.1.1, Prod.ext this.1.2 this.2, rfl⟩
  · next hnone =>
    split at hg
    · next a ha =>
      obtain ⟨rfl, rfl⟩ := Prod.mk.inj (Option.some.inj hg)
      refine .inr ⟨fun b hb hk => ?_, by simpa using List.find?_some ha, rfl⟩
      obtain ⟨hdev, hinum⟩ := Prod.mk.inj hk
      have := List.find?_eq_none.1 hnone b (List.mem_finRange b)
      simp [hb, hdev, hinum] at this
    · cases hg

namespace Inv

variable (h : Inv s)

include h

section

omit [DecidableEq P]

theorem refs_pos_of_lock (hl : s.lock e = some p) : 0 < s.refs e :=
  refs_of_mine (h.backed p e hl)

theorem facts (hl : s.lock e = some p) {st : Option Stage} (hst : (s.pc p).stage e = st) :
    Facts (s.entry e) (s.dinode (s.entry e).key) (s.dirty e) st := by
  have he := h.entry e (h.refs_pos_of_lock hl)
  rw [EntryOk, hl] at he
  rw [← hst]
  exact he

theorem lock_own {st : Stage} (hp : s.pc p = .own st e) : s.lock e = some p := by
  have := h.proc p
  rwa [hp] at this

end

section

omit [DecidableEq P]

theorem facts_own {st : Stage} (hp : s.pc p = .own st e) :
    Facts (s.entry e) (s.dinode (s.entry e).key) (s.dirty e) (some st) :=
  h.facts (h.lock_own hp) (by rw [hp, Pc.stage, if_pos rfl])

theorem facts_idle (hp : s.pc p = .idle) (hl : s.lock e = some p) :
    Facts (s.entry e) (s.dinode (s.entry e).key) (s.dirty e) none :=
  h.facts hl (by rw [hp]; rfl)

end

section

omit [DecidableEq P]

theorem rest (hl : s.lock e = none) (hr : 0 < s.refs e) :
    Rest (s.entry e) (s.dinode (s.entry e).key) := by
  have he := h.entry e hr
  rwa [EntryOk, hl] at he

/-- The entries in use keep their keys apart as long as the key of `e` stays. -/
theorem uniq_of_key (hr : 0 < s.refs e) {k : ℕ × ℕ} (hk : k = (s.entry e).key) :
    ∀ a, a ≠ e → 0 < s.refs a → (s.entry a).key ≠ k := fun a hae hra hkey =>
  hae (h.uniq a e hra hr (hkey.trans hk))

end

theorem moves {c : Pc} {d : ℕ × ℕ → Dinode} (hd : ∀ k, DiskStep (s.dinode k) (d k))
    (hst : ∀ a, c.stage a = (s.pc p).stage a) (hproc : PcOk s p c) :
    Inv { s.goto p c with dinode := d } := by
  refine ⟨h.count, h.uniq, h.backed, fun e hr => ?_, fun q => ?_, h.clean, h.awake⟩
  · refine (h.entry e hr).frame rfl rfl rfl rfl rfl (fun q _ => ?_) (hd _)
    by_cases hqp : q = p
    · subst hqp
      exact (congrArg (Pc.stage · e) (update_self ..)).trans (hst e)
    · exact congrArg (Pc.stage · e) (update_of_ne hqp ..)
  · change PcOk s q (update s.pc p c q)
    by_cases hqp : q = p
    · subst hqp
      rw [update_self]
      exact hproc
    · rw [update_of_ne hqp]
      exact h.proc q

theorem owner {c : Pc} {v : Entry} {d : Dinode} {b : Bool} (hl : s.lock e = some p)
    (hk : v.key = (s.entry e).key) (href : v.ref = (s.entry e).ref)
    (hst : ∀ a, a ≠ e → c.stage a = (s.pc p).stage a)
    (hc : PcOk s p c)
    (hf : Facts v d b (c.stage e)) {x : Option Halt} (hh : x ≠ some .asleep) :
    Inv { s with
      entry := update s.entry e v
      dinode := update s.dinode (s.entry e).key d
      dirty := update s.dirty e b
      pc := update s.pc p c
      halt := x } := by
  have hr := h.refs_pos_of_lock hl
  refine h.act (p := p) (e := e) ⟨fun a ha => ?_, fun a _ => rfl, fun a ha => ?_, fun q hq => ?_,
    fun a ha => ?_, fun q _ => rfl, fun a _ => rfl, fun k => ?_⟩ (fun q _ => Iff.rfl) ?_
    (fun _ => h.backed p e hl) (fun _ => ?_) (fun _ => ?_) ?_ (fun hn => ?_) hh
  · exact update_of_ne ha _ _
  · exact update_of_ne ha _ _
  · exact update_of_ne hq _ _
  · simp only [update_self, hst a ha]
  · by_cases hkey : k = (s.entry e).key
    · exact .inr ⟨hr, hkey⟩
    · exact .inl (.inl (update_of_ne hkey _ _))
  · simp only [update_self, href]
    exact h.count e
  · simp only [update_self]
    exact h.uniq_of_key hr hk
  · simp only [EntryOk, hl, update_self, hk]
    exact hf
  · simp only [update_self]
    exact hc.congr rfl fun _ => Iff.rfl
  · rw [hl] at hn
    cases hn

theorem refer {v : Entry} {n : ℕ} (hst : ∀ a, (s.pc p).stage a = none)
    (hm : s.lock e = some p → 0 < n) (href : v.ref = Int32.ofNat ((s.setMine p e n).refs e))
    (hv : (0 < s.refs e ∧ v.key = (s.entry e).key ∧ v.valid = (s.entry e).valid ∧
        v.din = (s.entry e).din) ∨
      s.lock e = none ∧ v.valid = false ∧ ∀ a, 0 < s.refs a → (s.entry a).key ≠ v.key) :
    Inv { (s.goto p .idle).setMine p e n with entry := update s.entry e v } := by
  have hpc : ∀ q a, (update s.pc p Pc.idle q).stage a = (s.pc q).stage a := fun q a => by
    by_cases hqp : q = p
    · subst hqp
      rw [update_self, hst]
      rfl
    · rw [update_of_ne hqp]
  have hmine : update s.mine p (update (s.mine p) e n) p e = n := by
    rw [update_self, update_self]
  have hself : update s.entry e v e = v := update_self ..
  refine h.act (p := p) (e := e) ⟨fun a ha => ?_, fun a _ => rfl, fun a _ => rfl, fun q hq => ?_,
    fun a _ => hpc p a, fun q hq => ?_, fun a ha => ?_, fun k => .inl (.inl rfl)⟩ (fun q _ => Iff.rfl)
    ((congrArg Entry.ref hself).trans href) (fun hl => lt_of_lt_of_eq (hm hl) hmine.symm) (fun _ => ?_) (fun _ => ?_) ?_
    (h.clean e) h.awake
  · exact update_of_ne ha _ _
  · exact update_of_ne hq _ _
  · exact update_of_ne hq _ _
  · exact (congrFun (update_self ..) a).trans (update_of_ne ha _ _)
  · change ∀ a, a ≠ e → 0 < s.refs a → (s.entry a).key ≠ (update s.entry e v e).key
    rw [hself]
    rcases hv with ⟨hr, hk, -⟩ | ⟨-, -, hne⟩
    · exact h.uniq_of_key hr hk
    · exact fun a _ => hne a
  · rcases hv with ⟨hr, hk, hvalid, hdin⟩ | ⟨hl, hvalid, -⟩
    · exact (h.entry e hr).frame ((congrArg Entry.key hself).trans hk)
        ((congrArg Entry.valid hself).trans hvalid) ((congrArg Entry.din hself).trans hdin) rfl rfl
        (fun q _ => hpc q e) (.inl rfl)
    · simp only [EntryOk, State.goto, State.setMine, hl, hself]
      exact fun hv => absurd (hvalid.symm.trans hv) (by decide)
  · change PcOk _ p (update s.pc p .idle p)
    rw [update_self]
    trivial

section

omit [DecidableEq P]

theorem halted {x : Halt} (hx : x ≠ .asleep) : Inv { s with halt := some x } :=
  ⟨h.count, h.uniq, h.backed, h.entry, h.proc, h.clean, fun hh => hx (Option.some.inj hh)⟩

theorem lock_of_unused (hr : s.refs e = 0) : s.lock e = none := by
  cases hl : s.lock e with
  | none => rfl
  | some p => exact absurd hr (h.refs_pos_of_lock hl).ne'

end

theorem iget (hs : s.Small) (hst : ∀ a, (s.pc p).stage a = none) (dev inum : ℕ) :
    Inv (s.iget p dev inum) := by
  unfold State.iget
  cases hg : igetEntry s.entry dev inum with
  | none => exact h.halted (by decide)
  | some r =>
    obtain ⟨t, e⟩ := r
    have hrefs := refs_setMine s p e (s.mine p e + 1) e
    rw [if_pos rfl, if_pos rfl] at hrefs
    rcases igetEntry_eq hg with ⟨hpos, hkey, rfl⟩ | ⟨hne, hzero, rfl⟩
    · rw [h.count, pos_ofNat_iff (hs e)] at hpos
      refine h.refer hst (fun _ => Nat.succ_pos _) ?_ (.inl ⟨hpos, rfl, rfl, rfl⟩)
      change (s.entry e).ref + 1 = _
      rw [h.count, ← ofNat_succ]
      exact congrArg _ (by omega)
    · rw [h.count, ofNat_eq_zero_iff (hs e)] at hzero
      refine h.refer hst (fun _ => Nat.succ_pos _) ?_
        (.inr ⟨h.lock_of_unused hzero, rfl, fun a ha => ?_⟩)
      · change 1 = _
        rw [show (s.setMine p e (s.mine p e + 1)).refs e = 1 by omega]
        rfl
      · exact hne a (by rwa [h.count, pos_ofNat_iff (hs a)])

theorem idup (hp : s.pc p = .idle) (hm : 0 < s.mine p e) : Inv (s.idup p e) := by
  have hrefs := refs_setMine s p e (s.mine p e + 1) e
  rw [if_pos rfl, if_pos rfl] at hrefs
  have := h.refer (p := p) (e := e) (n := s.mine p e + 1)
    (v := { s.entry e with ref := (s.entry e).ref + 1 }) (fun a => by rw [hp]; rfl)
    (fun _ => Nat.succ_pos _) ?_ (.inl ⟨refs_of_mine hm, rfl, rfl, rfl⟩)
  · have hpc : update s.pc p .idle = s.pc := by rw [← hp, update_eq_self]
    rw [State.goto, hpc] at this
    exact this
  · change (s.entry e).ref + 1 = _
    rw [h.count, ← ofNat_succ]
    exact congrArg _ (by omega)

theorem putRef (hst : ∀ a, (s.pc p).stage a = none) (hsp : Spare s p e) : Inv (s.putRef p e) := by
  have hrefs := refs_setMine s p e (s.mine p e - 1) e
  rw [if_pos rfl, if_pos rfl] at hrefs
  have hm := hsp.1
  refine h.refer (v := { s.entry e with ref := (s.entry e).ref - 1 }) hst (fun hl => ?_) ?_
    (.inl ⟨refs_of_mine hm, rfl, rfl, rfl⟩)
  · have := hsp.2 hl
    omega
  · change (s.entry e).ref - 1 = _
    rw [h.count, show s.refs e = (s.setMine p e (s.mine p e - 1)).refs e + 1 by omega, ofNat_succ]
    exact Int32.add_sub_cancel _ _

theorem ilock (hp : s.pc p = .idle) (hm : 0 < s.mine p e) : Inv (s.ilock p e) := by
  unfold State.ilock
  split_ifs
  · exact h.halted (by decide)
  · exact h.moves (fun _ => .inl rfl) (fun a => by rw [hp]; rfl) hm

theorem lockEntry {st : Stage} (hpc : ∀ a, (s.pc p).stage a = none) (hl : s.lock e = none)
    (hm : 0 < s.mine p e)
    (hf : Facts (s.entry e) (s.dinode (s.entry e).key) (s.dirty e) (some st)) :
    Inv { s.goto p (.own st e) with lock := update s.lock e (some p) } := by
  have hr := refs_of_mine hm
  have hself : update s.lock e (some p) e = some p := update_self ..
  have hpself : update s.pc p (Pc.own st e) p = .own st e := update_self ..
  refine h.act (p := p) (e := e) ⟨fun a _ => rfl, fun a ha => ?_, fun a _ => rfl, fun q hq => ?_,
    fun a ha => ?_, fun q _ => rfl, fun a _ => rfl, fun k => .inl (.inl rfl)⟩ (fun q hq => ?_)
    (h.count e) (fun _ => hm) (fun _ => h.uniq_of_key hr rfl) (fun _ => ?_) ?_ (fun hn => ?_) h.awake
  · exact update_of_ne ha _ _
  · exact update_of_ne hq _ _
  · change (update s.pc p (Pc.own st e) p).stage a = _
    rw [hpself, hpc, Pc.stage, if_neg (Ne.symm ha)]
  · change update s.lock e (some p) e = some q ↔ _
    rw [hself, hl]
    exact ⟨fun h => absurd (Option.some.inj h).symm hq, nofun⟩
  · simp only [EntryOk, State.goto, hself, hpself, Pc.stage, if_pos]
    exact hf
  · change PcOk _ p (update s.pc p (Pc.own st e) p)
    rw [hpself]
    exact hself
  · cases hself.symm.trans hn

theorem acquire (hp : s.pc p = .locking e) (hl : s.lock e = none) : Inv (s.acquire p e) := by
  have hm : 0 < s.mine p e := by
    have := h.proc p
    rwa [hp] at this
  exact h.lockEntry (fun a => by rw [hp]; rfl) hl hm ⟨h.clean e hl, h.rest hl (refs_of_mine hm)⟩

/-- **No sleeping under `icache.lock`**: the last reference is not the one of a lock holder. -/
theorem lock_of_last (hsp : Spare s p e) (hr : s.refs e = 1) : s.lock e = none := by
  cases hl : s.lock e with
  | none => rfl
  | some q =>
    have hq := h.backed q e hl
    by_cases hqp : q = p
    · subst hqp
      have h2 := hsp.2 hl
      have := Finset.single_le_sum (f := fun q => s.mine q e) (fun _ _ => Nat.zero_le _)
        (Finset.mem_univ q)
      change s.mine q e ≤ s.refs e at this
      omega
    · have := Finset.sum_le_sum_of_subset (f := fun q => s.mine q e) (Finset.subset_univ {q, p})
      rw [Finset.sum_pair hqp] at this
      change _ ≤ s.refs e at this
      have := hsp.1
      omega

theorem iput (hs : s.Small) (hp : s.pc p = .idle) (hsp : Spare s p e) : Inv (s.iput p e) := by
  have hst : ∀ a, (s.pc p).stage a = none := fun a => by rw [hp]; rfl
  unfold State.iput
  split_ifs with hlast hl
  · obtain ⟨-, hv, hn⟩ := hlast
    obtain ⟨hd, ht⟩ := h.rest hl (refs_of_mine hsp.1) hv
    exact h.lockEntry hst hl hsp.1 ⟨hv, hd ▸ ht, hn, ht, hd ▸ hn⟩
  · rw [h.count, ofNat_eq_one_iff (hs e)] at hlast
    exact absurd (h.lock_of_last hsp hlast.1) hl
  · exact h.putRef hst hsp

theorem modify {v : Dinode} (hp : s.pc p = .idle) (hl : s.lock e = some p) (hv : v.type ≠ 0) :
    Inv (s.modify e v) := by
  obtain ⟨hvalid, -, hd, -⟩ := h.facts_idle hp hl
  have := h.owner (c := s.pc p) (v := { s.entry e with din := v })
    (d := s.dinode (s.entry e).key) (b := true) hl rfl rfl (fun _ _ => rfl) (h.proc p)
    (by rw [hp]; exact ⟨hvalid, hv, hd, nofun⟩) h.awake
  rw [update_eq_self, update_eq_self] at this
  exact this

theorem iupdate (hp : s.pc p = .idle) (hl : s.lock e = some p) : Inv (s.iupdate e) := by
  obtain ⟨hvalid, ht, -, -⟩ := h.facts_idle hp hl
  have := h.owner (c := s.pc p) (v := s.entry e) (d := (s.entry e).din) (b := false) hl rfl rfl
    (fun _ _ => rfl) (h.proc p) (by rw [hp]; exact ⟨hvalid, ht, ht, fun _ => rfl⟩) h.awake
  rw [update_eq_self, update_eq_self] at this
  exact this

theorem unlockEntry {c : Pc} (hl : s.lock e = some p) (hst : ∀ a, a ≠ e → c.stage a = (s.pc p).stage a)
    (hc : PcOk { s with lock := update s.lock e none } p c) (hd : s.dirty e = false)
    (hrest : Rest (s.entry e) (s.dinode (s.entry e).key)) :
    Inv { s.goto p c with lock := update s.lock e none } := by
  have hself : update s.lock e none e = none := update_self ..
  have hpself : update s.pc p c p = c := update_self ..
  refine h.act (p := p) (e := e) ⟨fun a _ => rfl, fun a ha => ?_, fun a _ => rfl, fun q hq => ?_,
    fun a ha => ?_, fun q _ => rfl, fun a _ => rfl, fun k => .inl (.inl rfl)⟩ (fun q hq => ?_)
    (h.count e) (fun hn => ?_) (fun _ => h.uniq_of_key (h.refs_pos_of_lock hl) rfl) (fun _ => ?_) ?_
    (fun _ => hd) h.awake
  · exact update_of_ne ha _ _
  · exact update_of_ne hq _ _
  · exact (congrArg (Pc.stage · a) hpself).trans (hst a ha)
  · change update s.lock e none e = some q ↔ _
    rw [hself, hl]
    exact ⟨nofun, fun h => absurd (Option.some.inj h).symm hq⟩
  · cases hself.symm.trans hn
  · simp only [EntryOk, State.goto, hself]
    exact hrest
  · change PcOk _ p (update s.pc p c p)
    rw [hpself]
    exact hc.congr rfl fun _ => Iff.rfl

theorem iunlock (hp : s.pc p = .idle) (hd : s.lock e = some p → s.dirty e = false) :
    Inv (s.iunlock p e) := by
  unfold State.iunlock
  split_ifs with hpanic
  · exact h.halted (by decide)
  · have hl : s.lock e = some p := not_not.1 fun hl => hpanic (.inl hl)
    obtain ⟨-, -, ht, heq⟩ := h.facts_idle hp hl
    have := h.unlockEntry (c := s.pc p) hl (fun _ _ => rfl) (by rw [hp]; trivial) (hd hl)
      fun _ => ⟨heq (hd hl), ht⟩
    rw [State.goto, update_eq_self] at this
    exact this

/-- **The steps of `ilock` and `iput` under the lock**, one case for each stage. -/
theorem own {st : Stage} (hp : s.pc p = .own st e) : Inv (s.own p e st) := by
  have hl := h.lock_own hp
  have hf := h.facts_own hp
  have hoff : ∀ a, a ≠ e → (s.pc p).stage a = none := fun a ha => by
    rw [hp]
    exact if_neg (Ne.symm ha)
  -- a step to stage `st'` that leaves the disk alone
  have hown : ∀ (st' : Stage) (v : Entry), v.key = (s.entry e).key → v.ref = (s.entry e).ref →
      Facts v (s.dinode (s.entry e).key) (s.dirty e) (some st') →
      Inv ((s.goto p (.own st' e)).setEntry e v) := fun st' v hk hr hf' => by
    have := h.owner (c := .own st' e) hl hk hr
      (fun a ha => (if_neg (Ne.symm ha)).trans (hoff a ha).symm) hl
      (by rw [Pc.stage, if_pos rfl]; exact hf') h.awake
    rw [update_eq_self, update_eq_self] at this
    exact this
  -- `iupdate`, then stage `st'`
  have hupd : ∀ st' : Stage, Facts (s.entry e) (s.entry e).din false (some st') →
      Inv ((s.iupdate e).goto p (.own st' e)) := fun st' hf' => by
    have := h.owner (c := .own st' e) hl rfl rfl
      (fun a ha => (if_neg (Ne.symm ha)).trans (hoff a ha).symm) hl
      (by rw [Pc.stage, if_pos rfl]; exact hf') h.awake
    rw [update_eq_self] at this
    exact this
  cases st with
  | loading =>
    obtain ⟨hd, hv⟩ := hf
    change Inv (s.load p e)
    unfold State.load
    split_ifs with hvalid
    · obtain ⟨heq, ht⟩ := hv hvalid
      have := h.owner (c := .idle) hl rfl rfl (fun a ha => (hoff a ha).symm) trivial
        (d := s.dinode (s.entry e).key) (b := s.dirty e) ⟨hvalid, heq ▸ ht, ht, fun _ => heq⟩ h.awake
      rw [update_eq_self, update_eq_self, update_eq_self] at this
      exact this
    · exact hown .loaded _ rfl rfl ⟨hd, fun _ => rfl⟩
  | loaded => exact hown .validated _ rfl rfl ⟨hf.1, hf.2, rfl⟩
  | validated =>
    obtain ⟨hd, heq, hv⟩ := hf
    change Inv (s.checkType p e)
    unfold State.checkType
    split_ifs with ht
    · exact h.halted (by decide)
    · have := h.owner (c := .idle) hl rfl rfl (fun a ha => (hoff a ha).symm) trivial
        (d := s.dinode (s.entry e).key) (b := s.dirty e)
        ⟨hv, ht, heq ht ▸ ht, fun _ => heq ht⟩ h.awake
      rw [update_eq_self, update_eq_self, update_eq_self] at this
      exact this
  | trunc =>
    obtain ⟨hv, ht, hn, -⟩ := hf
    exact hupd .saved ⟨rfl, hv, rfl, ht, hn⟩
  | saved =>
    obtain ⟨-, hv, -, ht, hn⟩ := hf
    have := h.owner (c := .own .typeless e)
      (v := { s.entry e with din := { (s.entry e).din with type := 0 } })
      (d := s.dinode (s.entry e).key) (b := true) hl rfl rfl
      (fun a ha => (if_neg (Ne.symm ha)).trans (hoff a ha).symm) hl
      (by rw [Pc.stage, if_pos rfl]; exact ⟨hv, rfl, ht, hn⟩) h.awake
    rw [update_eq_self] at this
    exact this
  | typeless => exact hupd .freed ⟨rfl, hf.1⟩
  | freed => exact hown .unvalid _ rfl rfl ⟨hf.1, rfl⟩
  | unvalid =>
    obtain ⟨hd, hv⟩ := hf
    refine h.unlockEntry (c := .drop e) hl (fun a ha => (hoff a ha).symm)
      ⟨h.backed p e hl, fun hn => ?_⟩ hd fun hv' => absurd (hv.symm.trans hv') (by decide)
    cases (update_self e none s.lock).symm.trans hn

theorem itrunc (hp : s.pc p = .own .trunc e) (addrs : Fin (ndirect + 1) → UInt32) (size : UInt32) :
    Inv (s.itrunc e addrs size) := by
  have hl := h.lock_own hp
  obtain ⟨hv, ht, hn, hd⟩ := h.facts_own hp
  have := h.owner (c := s.pc p)
    (v := { s.entry e with din := { (s.entry e).din with addrs := addrs, size := size } })
    (d := s.dinode (s.entry e).key) (b := true) hl rfl rfl (fun _ _ => rfl) (h.proc p)
    (by rw [hp, Pc.stage, if_pos rfl]; exact ⟨hv, ht, hn, hd⟩) h.awake
  rw [update_eq_self, update_eq_self] at this
  exact this

theorem scan (hp : (s.pc p).stage = fun _ => none) (ninodes dev inum : ℕ) (type : UInt16) :
    Inv (s.scan ninodes p dev type inum) := by
  unfold State.scan
  split_ifs with hin hfree
  · refine h.moves (fun k => ?_) (fun a => by rw [hp]; rfl) trivial
    by_cases hk : k = (dev, inum)
    · exact .inr (hk ▸ hfree)
    · exact .inl (update_of_ne hk _ _)
  · exact h.moves (fun _ => .inl rfl) (fun a => by rw [hp]; rfl) trivial
  · exact h.halted (by decide)

theorem give {q : P} (hp : s.pc p = .idle) (hsp : Spare s p e) : Inv (s.give p q e) := by
  have hmine : ∀ r a, (s.give p q e).mine r a + (if r = p ∧ a = e then 1 else 0) =
      s.mine r a + if r = q ∧ a = e then 1 else 0 := fun r a => by
    have := hsp.1
    rw [State.give, mine_setMine, mine_setMine, mine_setMine]
    grind
  have hrefs := refs_give (q := q) hsp.1
  refine ⟨fun a => ?_, fun a b => ?_, fun r a hl => ?_, fun a => ?_, fun r => ?_, h.clean, h.awake⟩
  · rw [hrefs]
    exact h.count a
  · rw [hrefs, hrefs]
    exact h.uniq a b
  · have hb := h.backed r a hl
    have := hmine r a
    by_cases hra : r = p ∧ a = e
    · obtain ⟨rfl, rfl⟩ := hra
      have h2 := hsp.2 hl
      rw [if_pos ⟨rfl, rfl⟩] at this
      omega
    · rw [if_neg hra] at this
      omega
  · rw [hrefs]
    exact h.entry a
  · have hr := h.proc r
    change PcOk _ r (s.pc r)
    by_cases hrp : r = p
    · rw [hrp, hp]
      trivial
    · have hle : ∀ a, s.mine r a ≤ (s.give p q e).mine r a := fun a => by
        have := hmine r a
        rw [if_neg fun h => hrp h.1] at this
        omega
      cases hpc : s.pc r with
      | locking a =>
        rw [hpc] at hr
        exact lt_of_lt_of_le hr (hle a)
      | drop a =>
        rw [hpc] at hr
        exact ⟨lt_of_lt_of_le hr.1 (hle a), fun hl => (hr.2 hl).trans (hle a)⟩
      | own st a =>
        rw [hpc] at hr
        exact hr
      | _ => trivial

theorem step {ninodes : ℕ} {a : Act P} (hs : s.Small) (hstep : step ninodes s a = some s') :
    Inv s' := by
  have hidle : ∀ {p}, s.pc p = .idle → ∀ a, (s.pc p).stage a = none := fun hp a => by rw [hp]; rfl
  cases a with
  | iget p dev inum =>
    obtain ⟨⟨-, hp⟩, ⟨⟩⟩ := Option.ite_none_right_eq_some.1 hstep
    exact h.iget hs (hidle hp) dev inum
  | idup p e =>
    obtain ⟨⟨-, hp, hm⟩, ⟨⟩⟩ := Option.ite_none_right_eq_some.1 hstep
    exact h.idup hp hm
  | ilock p e =>
    obtain ⟨⟨-, hp, hm⟩, ⟨⟩⟩ := Option.ite_none_right_eq_some.1 hstep
    exact h.ilock hp hm
  | modify p e v =>
    obtain ⟨⟨-, hp, hl, hv⟩, ⟨⟩⟩ := Option.ite_none_right_eq_some.1 hstep
    exact h.modify hp hl hv
  | iupdate p e =>
    obtain ⟨⟨-, hp, hl⟩, ⟨⟩⟩ := Option.ite_none_right_eq_some.1 hstep
    exact h.iupdate hp hl
  | iunlock p e =>
    obtain ⟨⟨-, hp, hd⟩, ⟨⟩⟩ := Option.ite_none_right_eq_some.1 hstep
    exact h.iunlock hp hd
  | iput p e =>
    obtain ⟨⟨-, hp, hsp⟩, ⟨⟩⟩ := Option.ite_none_right_eq_some.1 hstep
    exact h.iput hs hp hsp
  | ialloc p dev type =>
    obtain ⟨⟨-, hp, -⟩, ⟨⟩⟩ := Option.ite_none_right_eq_some.1 hstep
    exact h.moves (fun _ => .inl rfl) (fun a => (hidle hp a).symm) trivial
  | itrunc p addrs size =>
    obtain ⟨-, hstep⟩ := Option.ite_none_right_eq_some.1 hstep
    split at hstep
    · next e hp =>
      cases hstep
      exact h.itrunc hp addrs size
    · cases hstep
  | give p q e =>
    obtain ⟨⟨-, hp, hsp⟩, ⟨⟩⟩ := Option.ite_none_right_eq_some.1 hstep
    exact h.give hp hsp
  | run p =>
    obtain ⟨-, hstep⟩ := Option.ite_none_right_eq_some.1 hstep
    split at hstep
    · cases hstep
    · next e hp =>
      obtain ⟨hl, ⟨⟩⟩ := Option.ite_none_right_eq_some.1 hstep
      exact h.acquire hp hl
    · next st e hp =>
      cases hstep
      exact h.own hp
    · next e hp =>
      cases hstep
      have hsp := h.proc p
      rw [hp] at hsp
      exact h.putRef (fun a => by rw [hp]; rfl) hsp
    · next dev type inum hp =>
      cases hstep
      exact h.scan (by rw [hp]; rfl) ninodes dev inum type
    · next dev inum hp =>
      cases hstep
      exact h.iget hs (fun a => by rw [hp]; rfl) dev inum

end Inv

omit [DecidableEq P] in
theorem inv_init (d : ℕ × ℕ → Dinode) : Inv (State.init P d) := by
  have hz : ∀ e, (State.init P d).refs e = 0 := fun e => Finset.sum_eq_zero fun _ _ => rfl
  refine ⟨fun e => ?_, fun a b ha => ?_, nofun, fun e he => ?_, fun _ => trivial, fun _ _ => rfl,
    nofun⟩
  · rw [hz]
    rfl
  · rw [hz] at ha
    exact absurd ha (lt_irrefl 0)
  · rw [hz] at he
    exact absurd he (lt_irrefl 0)

theorem inv_of_reach {ninodes : ℕ} {s₀ : State P} {ok : State P → Act P → Prop}
    (hok : ∀ s a, ok s a → s.Small) (h₀ : Inv s₀) (h : Reach (step ninodes) ok s₀ s) : Inv s :=
  h.inv h₀ fun s a _ hi ha hstep => hi.step (hok s a ha) hstep

end Xv6.Icache

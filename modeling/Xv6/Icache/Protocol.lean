import Xv6.Icache.Invariant

/-!
# The inode cache protocol

* `dinode_step`: the writers of the inodes on disk.
* `Dropping`: the last reference to an entry is being dropped.
* **`icache_protocol`**: one entry for each inode, `ref` counts the references, a valid entry with a
  free lock agrees with the disk, an inode is freed only when its last reference is dropped and it
  has no links, and `iput` never has to sleep with `icache.lock` held.
* **`ref_overflows`**: `2 ^ 31` references are too many.
-/

namespace Xv6.Icache

open Function Runs Count

variable {P : Type} [DecidableEq P] [Fintype P]

variable {s s' : State P} {p : P} {e : Ip}

/-! ## The life of an inode -/

section

omit [Fintype P]

theorem dinode_iget (s : State P) (p : P) (dev inum : ℕ) : (s.iget p dev inum).dinode = s.dinode := by
  unfold State.iget
  split <;> rfl

/-- **What a step does to the inodes on disk**: nothing, or a process that holds the lock of `e`
writes it back, or `ialloc` marks a free inode. -/
theorem dinode_step {ninodes : ℕ} {a : Act P} (hstep : step ninodes s a = some s') :
    s'.dinode = s.dinode ∨
      (∃ p e, s'.dinode = update s.dinode (s.entry e).key (s.entry e).din ∧
        (s.pc p = .idle ∧ s.lock e = some p ∨
          a = .run p ∧ (s.pc p = .own .trunc e ∨ s.pc p = .own .typeless e))) ∨
      ∃ p dev type inum, a = .run p ∧ s.pc p = .scan dev type inum ∧
        (s.dinode (dev, inum)).type = 0 ∧ s'.dinode = update s.dinode (dev, inum) (.fresh type) := by
  cases a with
  | iget p dev inum =>
    obtain ⟨-, ⟨⟩⟩ := Option.ite_none_right_eq_some.1 hstep
    exact .inl (dinode_iget ..)
  | idup p e =>
    obtain ⟨-, ⟨⟩⟩ := Option.ite_none_right_eq_some.1 hstep
    exact .inl rfl
  | ilock p e =>
    obtain ⟨-, ⟨⟩⟩ := Option.ite_none_right_eq_some.1 hstep
    unfold State.ilock
    split_ifs <;> exact .inl rfl
  | modify p e v =>
    obtain ⟨-, ⟨⟩⟩ := Option.ite_none_right_eq_some.1 hstep
    exact .inl rfl
  | iupdate p e =>
    obtain ⟨⟨-, hp, hl⟩, ⟨⟩⟩ := Option.ite_none_right_eq_some.1 hstep
    exact .inr (.inl ⟨p, e, rfl, .inl ⟨hp, hl⟩⟩)
  | iunlock p e =>
    obtain ⟨-, ⟨⟩⟩ := Option.ite_none_right_eq_some.1 hstep
    unfold State.iunlock
    split_ifs <;> exact .inl rfl
  | iput p e =>
    obtain ⟨-, ⟨⟩⟩ := Option.ite_none_right_eq_some.1 hstep
    unfold State.iput
    split_ifs <;> exact .inl rfl
  | ialloc p dev type =>
    obtain ⟨-, ⟨⟩⟩ := Option.ite_none_right_eq_some.1 hstep
    exact .inl rfl
  | itrunc p addrs size =>
    obtain ⟨-, hstep⟩ := Option.ite_none_right_eq_some.1 hstep
    split at hstep <;> cases hstep
    exact .inl rfl
  | give p q e =>
    obtain ⟨-, ⟨⟩⟩ := Option.ite_none_right_eq_some.1 hstep
    exact .inl rfl
  | run p =>
    obtain ⟨-, hstep⟩ := Option.ite_none_right_eq_some.1 hstep
    split at hstep
    · cases hstep
    · obtain ⟨-, ⟨⟩⟩ := Option.ite_none_right_eq_some.1 hstep
      exact .inl rfl
    · next st e hp =>
      cases hstep
      cases st with
      | loading =>
        change (s.load p e).dinode = _ ∨ _
        unfold State.load
        split_ifs <;> exact .inl rfl
      | validated =>
        change (s.checkType p e).dinode = _ ∨ _
        unfold State.checkType
        split_ifs <;> exact .inl rfl
      | trunc => exact .inr (.inl ⟨p, e, rfl, .inr ⟨rfl, .inl hp⟩⟩)
      | typeless => exact .inr (.inl ⟨p, e, rfl, .inr ⟨rfl, .inr hp⟩⟩)
      | _ => exact .inl rfl
    · cases hstep
      exact .inl rfl
    · next dev type inum hp =>
      cases hstep
      unfold State.scan
      split_ifs with _ hfree
      · exact .inr (.inr ⟨p, dev, type, inum, rfl, hp, hfree, rfl⟩)
      · exact .inl rfl
      · exact .inl rfl
    · cases hstep
      exact .inl (dinode_iget ..)

end

/-- **Freeing**: a step that frees inode `k` is the second `iupdate` of `iput`, and the inode on disk
has no links. -/
theorem Inv.free_step (h : Inv s) {ninodes : ℕ} {a : Act P} {k : ℕ × ℕ}
    (hstep : Icache.step ninodes s a = some s') (ht : (s.dinode k).type ≠ 0)
    (ht' : (s'.dinode k).type = 0) :
    ∃ p e, a = .run p ∧ s.pc p = .own .typeless e ∧ (s.entry e).key = k ∧
      (s.dinode k).nlink = 0 := by
  rcases dinode_step hstep with heq | ⟨p, e, heq, hwho⟩ | ⟨p, dev, type, inum, -, -, hfree, heq⟩
  · exact absurd (heq ▸ ht') ht
  · rw [heq] at ht'
    by_cases hk : k = (s.entry e).key
    · subst hk
      rw [update_self] at ht'
      rcases hwho with ⟨hp, hl⟩ | ⟨rfl, hp | hp⟩
      · exact absurd ht' (h.facts_idle hp hl).2.1
      · exact absurd ht' (h.facts_own hp).2.1
      · exact ⟨p, e, rfl, hp, rfl, (h.facts_own hp).2.2.2⟩
    · rw [update_of_ne hk] at ht'
      exact absurd ht' ht
  · rw [heq] at ht'
    by_cases hk : k = (dev, inum)
    · exact absurd (hk ▸ hfree) ht
    · rw [update_of_ne hk] at ht'
      exact absurd ht' ht

/-- **Allocation**: only `ialloc` turns a free inode into one in use. -/
theorem Inv.alloc_step (h : Inv s) {ninodes : ℕ} {a : Act P} {k : ℕ × ℕ}
    (hstep : Icache.step ninodes s a = some s') (ht : (s.dinode k).type = 0)
    (ht' : (s'.dinode k).type ≠ 0) : ∃ p type, a = .run p ∧ s.pc p = .scan k.1 type k.2 := by
  rcases dinode_step hstep with heq | ⟨p, e, heq, hwho⟩ | ⟨p, dev, type, inum, rfl, hp, -, heq⟩
  · exact absurd ht (heq ▸ ht')
  · rw [heq] at ht'
    by_cases hk : k = (s.entry e).key
    · subst hk
      rcases hwho with ⟨hp, hl⟩ | ⟨-, hp | hp⟩
      · exact absurd ht (h.facts_idle hp hl).2.2.1
      · exact absurd ht (h.facts_own hp).2.2.2.1
      · exact absurd ht (h.facts_own hp).2.2.1
    · rw [update_of_ne hk] at ht'
      exact absurd ht ht'
  · rw [heq] at ht'
    by_cases hk : k = (dev, inum)
    · exact ⟨p, type, rfl, hk ▸ hp⟩
    · rw [update_of_ne hk] at ht'
      exact absurd ht ht'

/-- Inside `iput(e)`, between the decision to free the inode and the `iupdate` that does. -/
def Pc.Freeing (e : Ip) : Pc → Prop
  | .own .trunc a | .own .saved a | .own .typeless a => a = e
  | _ => False

section

omit [Fintype P]

theorem freeing_update {c : Pc} {q : P} (h : (update s.pc q c p).Freeing e) :
    (s.pc p).Freeing e ∨ p = q ∧ c.Freeing e := by
  by_cases hpq : p = q
  · subst hpq
    rw [update_self] at h
    exact .inr ⟨rfl, h⟩
  · rw [update_of_ne hpq] at h
    exact .inl h

theorem freeing_iget {q : P} {dev inum : ℕ} (h : ((s.iget q dev inum).pc p).Freeing e) :
    (s.pc p).Freeing e := by
  unfold State.iget at h
  split at h
  · exact (freeing_update h).resolve_right fun h => h.2
  · exact h

end

omit [Fintype P] in
/-- **How a process gets there**: by a call of `iput` that sees one reference and no links. -/
theorem freeing_step {ninodes : ℕ} {a : Act P} (hstep : step ninodes s a = some s')
    (h : (s'.pc p).Freeing e) :
    (s.pc p).Freeing e ∨ a = .iput p e ∧ (s.entry e).ref = 1 ∧ (s.entry e).din.nlink = 0 := by
  cases a with
  | iget q dev inum =>
    obtain ⟨-, ⟨⟩⟩ := Option.ite_none_right_eq_some.1 hstep
    exact .inl (freeing_iget h)
  | idup q a =>
    obtain ⟨-, ⟨⟩⟩ := Option.ite_none_right_eq_some.1 hstep
    exact .inl h
  | ilock q a =>
    obtain ⟨-, ⟨⟩⟩ := Option.ite_none_right_eq_some.1 hstep
    unfold State.ilock at h
    split_ifs at h
    · exact .inl h
    · exact .inl ((freeing_update h).resolve_right fun h => h.2)
  | modify q a v =>
    obtain ⟨-, ⟨⟩⟩ := Option.ite_none_right_eq_some.1 hstep
    exact .inl h
  | iupdate q a =>
    obtain ⟨-, ⟨⟩⟩ := Option.ite_none_right_eq_some.1 hstep
    exact .inl h
  | iunlock q a =>
    obtain ⟨-, ⟨⟩⟩ := Option.ite_none_right_eq_some.1 hstep
    unfold State.iunlock at h
    split_ifs at h <;> exact .inl h
  | iput q a =>
    obtain ⟨-, ⟨⟩⟩ := Option.ite_none_right_eq_some.1 hstep
    unfold State.iput at h
    split_ifs at h with hlast
    · rcases freeing_update h with h | ⟨rfl, rfl⟩
      · exact .inl h
      · exact .inr ⟨rfl, hlast.1, hlast.2.2⟩
    · exact .inl h
    · exact .inl ((freeing_update h).resolve_right fun h => h.2)
  | ialloc q dev type =>
    obtain ⟨-, ⟨⟩⟩ := Option.ite_none_right_eq_some.1 hstep
    exact .inl ((freeing_update h).resolve_right fun h => h.2)
  | itrunc q addrs size =>
    obtain ⟨-, hstep⟩ := Option.ite_none_right_eq_some.1 hstep
    split at hstep <;> cases hstep
    exact .inl h
  | give q r a =>
    obtain ⟨-, ⟨⟩⟩ := Option.ite_none_right_eq_some.1 hstep
    exact .inl h
  | run q =>
    obtain ⟨-, hstep⟩ := Option.ite_none_right_eq_some.1 hstep
    split at hstep
    · cases hstep
    · obtain ⟨-, ⟨⟩⟩ := Option.ite_none_right_eq_some.1 hstep
      exact .inl ((freeing_update h).resolve_right fun h => h.2)
    · next st a hp =>
      cases hstep
      cases st with
      | loading =>
        change ((s.load q a).pc p).Freeing e at h
        unfold State.load at h
        split_ifs at h <;> exact .inl ((freeing_update h).resolve_right fun h => h.2)
      | validated =>
        change ((s.checkType q a).pc p).Freeing e at h
        unfold State.checkType at h
        split_ifs at h
        · exact .inl h
        · exact .inl ((freeing_update h).resolve_right fun h => h.2)
      | trunc | saved =>
        refine .inl ((freeing_update h).elim id fun ⟨hpq, he⟩ => ?_)
        rw [hpq, hp]
        exact he
      | loaded | typeless | freed | unvalid =>
        exact .inl ((freeing_update h).resolve_right fun h => h.2)
    · cases hstep
      exact .inl ((freeing_update h).resolve_right fun h => h.2)
    · cases hstep
      unfold State.scan at h
      split_ifs at h
      · exact .inl ((freeing_update h).resolve_right fun h => h.2)
      · exact .inl ((freeing_update h).resolve_right fun h => h.2)
      · exact .inl h
    · cases hstep
      exact .inl (freeing_iget h)

/-- **The last reference is being dropped**: `p` is in a call of `iput(e)` that started when there
was one reference to the entry and the inode had no links. -/
def Dropping (ninodes : ℕ) (s₀ s : State P) (p : P) (e : Ip) : Prop :=
  ∃ s₁ s₂, Reach (step ninodes) (fun t _ => t.Small) s₀ s₁ ∧ s₁.refs e = 1 ∧
    (s₁.entry e).din.nlink = 0 ∧ step ninodes s₁ (.iput p e) = some s₂ ∧
    Reach (step ninodes) (fun t _ => t.Small ∧ (t.pc p).Freeing e) s₂ s

theorem dropping_of_freeing {ninodes : ℕ} {s₀ : State P} (h₀ : Inv s₀)
    (hidle : ∀ p, s₀.pc p = .idle) (h : Reach (step ninodes) (fun t _ => t.Small) s₀ s)
    (hf : (s.pc p).Freeing e) : Dropping ninodes s₀ s p e := by
  induction h with
  | refl =>
    rw [hidle] at hf
    exact hf.elim
  | @tail t t' a hr hs hstep ih =>
    by_cases ht : (t.pc p).Freeing e
    · obtain ⟨s₁, s₂, h₁, hrefs, hn, hput, h₂⟩ := ih ht
      exact ⟨s₁, s₂, h₁, hrefs, hn, hput, h₂.tail ⟨hs, ht⟩ hstep⟩
    · obtain ⟨rfl, href, hn⟩ := (freeing_step hstep hf).resolve_left ht
      have hi := inv_of_reach (fun _ _ h => h) h₀ hr
      rw [hi.count, ofNat_eq_one_iff (hs e)] at href
      exact ⟨t, t', hr, href, hn, hstep, .refl⟩

/-- **The inode cache protocol.** In every state reached from `iinit` while every entry has fewer
than `2 ^ 31` references:
* at most one entry with `ref > 0` is for an inode, and `ref` is the number of references;
* a valid entry in use whose lock is free agrees with the inode on disk;
* a step that frees an inode on disk is made in `iput`, when the last reference is being dropped and
  the inode has no links; what `iput` frees is not already free, and only `ialloc` allocates, so an
  inode is freed at most once for each allocation;
* `acquiresleep` in `iput` has not had to sleep. -/
theorem icache_protocol (ninodes : ℕ) (d : ℕ × ℕ → Dinode) (s : State P)
    (h : Reach (step ninodes) (fun t _ => t.Small) (State.init P d) s) (hs : s.Small) :
    (∀ a b, 0 < (s.entry a).ref → 0 < (s.entry b).ref → (s.entry a).key = (s.entry b).key → a = b) ∧
    (∀ e, (s.entry e).ref.toInt = s.refs e) ∧
    (∀ e, 0 < (s.entry e).ref → (s.entry e).valid = true → s.lock e = none →
      (s.entry e).din = s.dinode (s.entry e).key) ∧
    (∀ a s' k, step ninodes s a = some s' → (s.dinode k).type ≠ 0 → (s'.dinode k).type = 0 →
      ∃ p e, a = .run p ∧ (s.entry e).key = k ∧ (s.dinode k).nlink = 0 ∧
        Dropping ninodes (State.init P d) s p e) ∧
    (∀ p e, s.pc p = .own .typeless e → (s.dinode (s.entry e).key).type ≠ 0) ∧
    (∀ a s' k, step ninodes s a = some s' → (s.dinode k).type = 0 → (s'.dinode k).type ≠ 0 →
      ∃ p type, a = .run p ∧ s.pc p = .scan k.1 type k.2) ∧
    s.halt ≠ some .asleep := by
  have hi : Inv s := inv_of_reach (fun _ _ h => h) (inv_init d) h
  have hpos : ∀ e, 0 < (s.entry e).ref ↔ 0 < s.refs e := fun e => by
    rw [hi.count, pos_ofNat_iff (hs e)]
  refine ⟨fun a b ha hb => hi.uniq a b ((hpos a).1 ha) ((hpos b).1 hb), fun e => ?_,
    fun e he hv hl => (hi.rest hl ((hpos e).1 he) hv).1, fun a s' k hstep ht ht' => ?_,
    fun p e hp => (hi.facts_own hp).2.2.1, fun a s' k => hi.alloc_step, hi.awake⟩
  · rw [hi.count, Int32.toInt_ofNat_of_lt (hs e)]
  · obtain ⟨p, e, rfl, hp, hk, hn⟩ := hi.free_step hstep ht ht'
    refine ⟨p, e, rfl, hk, hn, dropping_of_freeing (inv_init d) (fun _ => rfl) h ?_⟩
    rw [hp]
    rfl

instance (s : State P) : Decidable s.Small := inferInstanceAs (Decidable (∀ _, _))

/-- A process allocates an inode, locks it, unlocks it and drops it, up to the step that frees it. -/
def allocAndFree : List (Act (Fin 1)) :=
  [.ialloc 0 0 2, .run 0, .run 0, .ilock 0 0, .run 0, .run 0, .run 0, .run 0, .iunlock 0 0,
    .iput 0 0, .itrunc 0 (fun _ => 0) 0, .run 0, .run 0]

theorem icache_protocol_free : ∃ s s' : State (Fin 1),
    exec (step 2) (State.init (Fin 1) fun _ => .fresh 0) allocAndFree = some s ∧
      step 2 s (.run 0) = some s' ∧ (s.dinode (0, 1)).type = 2 ∧ (s'.dinode (0, 1)).type = 0 ∧
      (s.dinode (0, 1)).nlink = 0 ∧
      ∃ p e, Dropping 2 (State.init (Fin 1) fun _ => .fresh 0) s p e := by
  have h : Reach (step 2) (fun t _ => t.Small) (State.init (Fin 1) fun _ => .fresh 0) _ :=
    .tail (a := .run 0) (.tail (a := .run 0) (.tail (a := .itrunc 0 (fun _ => 0) 0) (.tail (a := .iput 0 0)
      (.tail (a := .iunlock 0 0) (.tail (a := .run 0) (.tail (a := .run 0) (.tail (a := .run 0)
        (.tail (a := .run 0) (.tail (a := .ilock 0 0) (.tail (a := .run 0) (.tail (a := .run 0)
          (.tail (a := .ialloc 0 0 2) .refl (by decide) rfl) (by decide) rfl) (by decide) rfl)
          (by decide) rfl) (by decide) rfl) (by decide) rfl) (by decide) rfl) (by decide) rfl)
        (by decide) rfl) (by decide) rfl) (by decide) rfl) (by decide) rfl) (by decide) rfl
  obtain ⟨-, -, -, hfree, -⟩ := icache_protocol _ _ _ h (by decide)
  obtain ⟨p, e, -, -, hn, hdrop⟩ := hfree (.run 0) _ (0, 1) rfl (by decide) (by decide)
  exact ⟨_, _, rfl, rfl, by decide, by decide, hn, p, e, hdrop⟩

theorem reach_idup (ninodes : ℕ) (hh : s.halt = none) (hp : s.pc p = .idle) (hm : 0 < s.mine p e)
    (n : ℕ) : ∃ s', Reach (step ninodes) any s s' ∧ s'.halt = none ∧ s'.pc p = .idle ∧
      0 < s'.mine p e ∧ (s'.entry e).ref = (s.entry e).ref + Int32.ofNat n ∧
      s'.refs e = s.refs e + n := by
  induction n with
  | zero => exact ⟨s, .refl, hh, hp, hm, (Int32.add_zero _).symm, rfl⟩
  | succ n ih =>
    obtain ⟨t, ht, hh, hp, hm, hr, hrefs⟩ := ih
    refine ⟨t.idup p e, ht.tail (a := .idup p e) trivial ?_, hh, hp, ?_, ?_, ?_⟩
    · rw [step, if_pos ⟨hh, hp, hm⟩]
    · rw [State.idup, mine_setMine, if_pos ⟨rfl, rfl⟩]
      exact Nat.succ_pos _
    · change (update t.entry e _ e).ref = _
      rw [update_self, ofNat_succ, ← Int32.add_assoc, ← hr]
    · have := refs_setMine t p e (t.mine p e + 1) e
      rw [if_pos rfl, if_pos rfl] at this
      change (t.setMine p e _).refs e = _
      omega

/-- **The reference count overflows**: with `2 ^ 31` references `ref` is negative. -/
theorem ref_overflows : ¬ ∀ s : State (Fin 1),
    Reach (step 2) any (State.init (Fin 1) fun _ => .fresh 1) s →
      ∀ e, (s.entry e).ref.toInt = s.refs e := by
  intro hall
  have h : (exec (step 2) (State.init (Fin 1) fun _ => .fresh 1) [.iget 0 0 1]).map (fun s =>
      (s.halt, s.pc 0, s.mine 0 0, (s.entry 0).ref, s.refs 0)) = some (none, .idle, 1, 1, 1) := by
    decide
  obtain ⟨s, hs, he⟩ := Option.map_eq_some_iff.1 h
  simp only [Prod.mk.injEq] at he
  obtain ⟨hh, hp, hm, hr, hrefs⟩ := he
  obtain ⟨s', hs', -, -, -, hr', hrefs'⟩ :=
    reach_idup 2 hh hp (hm ▸ Nat.one_pos) (2 ^ 31 - 1)
  have := hall s' ((Reach.of_exec (fun _ _ _ => trivial) hs).trans hs') 0
  rw [hr', hrefs', hr, hrefs] at this
  exact absurd this (by decide)

end Xv6.Icache

import Xv6.Log.Code
import Xv6.Lib.Ring

/-!
# The buffer cache

`bcache` of `kernel/bio.c` and what its functions do while they hold `bcache.lock`. The sleep locks
and the processes are in `Xv6.Bio.Machine`.

* `Bcache`, `binit`, `bget`, `brelse`, `bpin`, `bunpin`.
* `Used`: a buffer with a reference or with contents. All buffers start out unused, with the same
  device and block number `(0, 0)`.
* `Ok c l`: the buffers are listed as `l`, used buffers cache different blocks, and no unused buffer
  stands before a used buffer for block `(0, 0)`; so `bget` finds the used one first.
* **`Ok.binit`**, **`Ok.bget`**, **`Ok.change`**, **`Ok.brelse`**: every function keeps it.
-/

namespace Xv6.Bio

open Ring

abbrev BufId : Type := Fin nbuf

/-- `struct buf`, less its sleep lock and its list pointers. -/
structure Buf where
  valid : Bool
  dev : ℕ
  blockno : ℕ
  refcnt : UInt32
  data : Block

namespace Buf

def zero : Buf := ⟨false, 0, 0, 0, fun _ => 0⟩

def key (v : Buf) : ℕ × ℕ := (v.dev, v.blockno)

def Used (v : Buf) : Prop := v.refcnt ≠ 0 ∨ v.valid = true

end Buf

structure Bcache where
  buf : BufId → Buf
  links : Links BufId

namespace Bcache

def set (c : Bcache) (b : BufId) (v : Buf) : Bcache := { c with buf := Function.update c.buf b v }

def binit : Bcache := ⟨fun _ => .zero, (List.finRange nbuf).foldl Links.insertHead .empty⟩

def lookup (c : Bcache) (dev blockno : ℕ) : Option BufId :=
  c.links.scanNext (fun b => (c.buf b).dev = dev && (c.buf b).blockno = blockno) nbuf

/-- The least recently used buffer that can be recycled. -/
def victim (c : Bcache) : Option BufId := c.links.scanPrev (fun b => (c.buf b).refcnt = 0) nbuf

/-- `bget` up to `release`; `none` is its panic, `no buffers`. -/
def bget (c : Bcache) (dev blockno : ℕ) : Option (Bcache × BufId) :=
  match c.lookup dev blockno with
  | some b => some (c.set b { c.buf b with refcnt := (c.buf b).refcnt + 1 }, b)
  | none =>
    match c.victim with
    | some b =>
      some (c.set b { c.buf b with dev := dev, blockno := blockno, valid := false, refcnt := 1 }, b)
    | none => none

def bpin (c : Bcache) (b : BufId) : Bcache :=
  c.set b { c.buf b with refcnt := (c.buf b).refcnt + 1 }

def bunpin (c : Bcache) (b : BufId) : Bcache :=
  c.set b { c.buf b with refcnt := (c.buf b).refcnt - 1 }

/-- `brelse` after `releasesleep`. -/
def brelse (c : Bcache) (b : BufId) : Bcache :=
  let c := c.set b { c.buf b with refcnt := (c.buf b).refcnt - 1 }
  if (c.buf b).refcnt = 0 then { c with links := (c.links.unlink b).insertHead b } else c

section

variable (c : Bcache) (b : BufId) (v : Buf)

@[simp] theorem buf_set : (c.set b v).buf = Function.update c.buf b v := rfl

@[simp] theorem links_set : (c.set b v).links = c.links := rfl

@[simp] theorem buf_brelse : (c.brelse b).buf = (c.bunpin b).buf := by
  simp only [brelse]
  split <;> rfl

end

/-! ## The invariant -/

/-- **What the functions keep**, for the buffers in list order. -/
structure Ok (c : Bcache) (l : List BufId) : Prop where
  lists : Lists c.links l
  all : ∀ b, b ∈ l
  uniq : ∀ a b, (c.buf a).Used → (c.buf b).Used → (c.buf a).key = (c.buf b).key → a = b
  fresh : ∀ b, ¬ (c.buf b).Used → (c.buf b).key = (0, 0)
  order : ∀ a b, [a, b].Sublist l → (c.buf b).Used → (c.buf b).key = (0, 0) → (c.buf a).Used

variable {c c' : Bcache} {l : List BufId} {a b : BufId} {dev blockno : ℕ}

theorem length_of_lists {r : Links BufId} (h : Lists r l) (hall : ∀ b, b ∈ l) :
    l.length = nbuf := by
  have hl : l.toFinset = Finset.univ := Finset.eq_univ_iff_forall.2 fun b => by simp [hall b]
  rw [← List.toFinset_card_of_nodup h.nodup, hl, Finset.card_univ, Fintype.card_fin]

theorem Ok.length (h : Ok c l) : l.length = nbuf := length_of_lists h.lists h.all

theorem Ok.lookup_eq (h : Ok c l) : c.lookup dev blockno =
    l.find? fun b => (c.buf b).dev = dev && (c.buf b).blockno = blockno :=
  h.lists.scanNext_eq _ h.length.le

theorem key_of_lookup (hb : c.lookup dev blockno = some b) : (c.buf b).key = (dev, blockno) := by
  have := Links.test_of_scan hb
  simpa [Buf.key] using this

theorem refcnt_of_victim (hb : c.victim = some b) : (c.buf b).refcnt = 0 := by
  have := Links.test_of_scan hb
  simpa using this

theorem Ok.key_of_lookup_none (h : Ok c l) (hn : c.lookup dev blockno = none) (b : BufId) :
    (c.buf b).key ≠ (dev, blockno) := by
  rw [h.lookup_eq, List.find?_eq_none] at hn
  have := hn b (h.all b)
  simpa [Buf.key] using this

theorem mem_left {l₁ l₂ : List BufId} (hnd : (l₁ ++ b :: l₂).Nodup)
    (h : [a, b].Sublist (l₁ ++ b :: l₂)) : a ∈ l₁ := by
  have hb : b ∉ l₂ := (List.nodup_cons.1 (List.nodup_append.1 hnd).2.1).1
  obtain ⟨k₁, k₂, hk, h₁, h₂⟩ := List.sublist_append_iff.1 h
  cases k₁ with
  | nil =>
    rw [List.nil_append] at hk
    subst hk
    cases h₂ with
    | cons _ h₂ => exact absurd (h₂.subset (by simp)) hb
    | cons_cons _ h₂ => exact absurd (h₂.subset (by simp)) hb
  | cons x k₁ =>
    obtain ⟨rfl, -⟩ := List.cons.inj hk
    exact h₁.subset (by simp)

theorem Ok.lookup_split (h : Ok c l) (hb : c.lookup dev blockno = some b) :
    ∃ l₁ l₂, l = l₁ ++ b :: l₂ ∧ ∀ a ∈ l₁, (c.buf a).key ≠ (dev, blockno) := by
  rw [h.lookup_eq] at hb
  obtain ⟨-, l₁, l₂, rfl, hl₁⟩ := List.find?_eq_some_iff_append.1 hb
  refine ⟨l₁, l₂, rfl, fun a ha hk => ?_⟩
  have := hl₁ a ha
  simp [Buf.key] at hk
  simp [hk] at this

theorem Ok.lookup_of_used (h : Ok c l) (ha : (c.buf a).Used) (hk : (c.buf a).key = (dev, blockno)) :
    c.lookup dev blockno = some a := by
  cases hb : c.lookup dev blockno with
  | none => exact absurd hk (h.key_of_lookup_none hb a)
  | some b =>
    have hkb := key_of_lookup hb
    by_contra hne
    have hne : a ≠ b := fun e => hne (congrArg some e.symm)
    -- `b` comes before `a`, so it is used too
    have hba : [b, a].Sublist l := by
      obtain ⟨l₁, l₂, rfl, hl₁⟩ := h.lookup_split hb
      have hmem := h.all a
      rw [List.mem_append, List.mem_cons] at hmem
      have hmem : a ∈ l₂ :=
        (hmem.resolve_left fun hm => hl₁ a hm hk).resolve_left hne
      exact ((List.singleton_sublist.2 hmem).cons_cons b).trans (List.sublist_append_right _ _)
    have hused : (c.buf b).Used := by
      by_contra hunused
      have h0 := h.fresh b hunused
      exact hunused (h.order b a hba ha (by rw [hk, ← hkb, h0]))
    exact hne (h.uniq a b ha hused (hk.trans hkb.symm))

theorem Ok.change (h : Ok c l) {v : Buf} (hv : v.Used)
    (huniq : ∀ a, a ≠ b → (c.buf a).Used → (c.buf a).key ≠ v.key)
    (horder : v.key = (0, 0) → ∀ a, [a, b].Sublist l → (c.buf a).Used) : Ok (c.set b v) l := by
  have hself : (c.set b v).buf b = v := by simp
  have hrest : ∀ a, a ≠ b → (c.set b v).buf a = c.buf a := fun a hab => by simp [hab]
  refine ⟨h.lists, h.all, fun x y hx hy hxy => ?_, fun x hx => ?_, fun x y hsub hy hk => ?_⟩
  · by_cases hxb : x = b <;> by_cases hyb : y = b
    · rw [hxb, hyb]
    · subst hxb
      rw [hself, hrest y hyb] at hxy
      rw [hrest y hyb] at hy
      exact absurd hxy.symm (huniq y hyb hy)
    · subst hyb
      rw [hself, hrest x hxb] at hxy
      rw [hrest x hxb] at hx
      exact absurd hxy (huniq x hxb hx)
    · rw [hrest x hxb] at hx hxy
      rw [hrest y hyb] at hy hxy
      exact h.uniq x y hx hy hxy
  · by_cases hxb : x = b
    · subst hxb
      rw [hself] at hx
      exact absurd hv hx
    · rw [hrest x hxb] at hx ⊢
      exact h.fresh x hx
  · by_cases hxb : x = b
    · subst hxb
      rwa [hself]
    · rw [hrest x hxb]
      by_cases hyb : y = b
      · subst hyb
        rw [hself] at hk
        exact horder hk x hsub
      · rw [hrest y hyb] at hy hk
        exact h.order x y hsub hy hk

theorem Ok.change_used (h : Ok c l) {v : Buf} (hb : (c.buf b).Used) (hv : v.Used)
    (hk : v.key = (c.buf b).key) : Ok (c.set b v) l := by
  refine h.change hv (fun a hab ha e => hab (h.uniq a b ha hb (e.trans hk))) fun h0 a hsub => ?_
  exact h.order a b hsub hb (hk ▸ h0)

theorem Ok.bget (h : Ok c l) (hwrap : (c'.buf b).refcnt ≠ 0)
    (hget : c.bget dev blockno = some (c', b)) : Ok c' l := by
  unfold Bcache.bget at hget
  split at hget
  · next a ha =>
    cases hget
    have hk := key_of_lookup ha
    refine h.change (.inl (by simpa using hwrap)) (fun x hx hused e => ?_) fun h0 x hsub => ?_
    · have hx' := h.lookup_of_used hused (e.trans hk)
      exact hx (Option.some.inj (hx'.symm.trans ha))
    · -- the buffers before a hit for block `(0, 0)` cache other blocks
      obtain ⟨l₁, l₂, rfl, hl₁⟩ := h.lookup_split ha
      by_contra hunused
      exact hl₁ x (mem_left h.lists.nodup hsub) ((h.fresh x hunused).trans (h0.symm.trans hk))
  · next hn =>
    split at hget
    · cases hget
      refine h.change (.inl (by simp)) (fun x _ _ => ?_) fun h0 x _ => ?_
      · exact h.key_of_lookup_none hn x
      · by_contra hunused
        exact h.key_of_lookup_none hn x ((h.fresh x hunused).trans h0.symm)
    · cases hget

/-- **What `bget` does to the cache**: one more reference to a buffer for the block, which is
recycled only when it had none. -/
theorem bget_eq (hget : c.bget dev blockno = some (c', b)) :
    ∃ v : Buf, c' = c.set b v ∧ v.refcnt = (c.buf b).refcnt + 1 ∧ v.key = (dev, blockno) ∧
      (v.valid = true → (c.buf b).valid = true) ∧
      ((c.buf b).refcnt ≠ 0 → v = { c.buf b with refcnt := (c.buf b).refcnt + 1 }) := by
  unfold Bcache.bget at hget
  split at hget
  · next a ha =>
    cases hget
    exact ⟨_, rfl, rfl, key_of_lookup ha, fun hv => hv, fun _ => rfl⟩
  · split at hget
    · next a ha =>
      cases hget
      have h0 := refcnt_of_victim ha
      exact ⟨_, rfl, by rw [h0]; rfl, rfl, nofun, fun hne => absurd h0 hne⟩
    · cases hget

theorem lists_move {r : Links BufId} (h : Lists r l) (hall : ∀ b, b ∈ l) (b : BufId) :
    Lists ((r.unlink b).insertHead b) (b :: l.erase b) ∧ ∀ a, a ∈ b :: l.erase b := by
  refine ⟨(h.unlink (hall b)).insertHead h.nodup.not_mem_erase, fun a => ?_⟩
  by_cases hab : a = b
  · exact hab ▸ List.mem_cons_self
  · exact List.mem_cons_of_mem b ((List.mem_erase_of_ne hab).2 (hall a))

theorem Ok.move (h : Ok c l) (hb : (c.buf b).Used) :
    Ok { c with links := (c.links.unlink b).insertHead b } (b :: l.erase b) := by
  obtain ⟨hlists, hall⟩ := lists_move h.lists h.all b
  refine ⟨hlists, hall, h.uniq, h.fresh, fun x y hsub hy hk => ?_⟩
  cases hsub with
  | cons _ hsub => exact h.order x y (hsub.trans List.erase_sublist) hy hk
  | cons_cons _ _ => exact hb

/-- **`brelse`** keeps the invariant, as long as a buffer without references has contents. -/
theorem Ok.brelse (h : Ok c l) (hb : (c.buf b).Used) (hused : ((c.brelse b).buf b).Used) :
    ∃ l', Ok (c.brelse b) l' := by
  have hset : Ok (c.bunpin b) l := h.change_used hb (by simpa [bunpin] using hused) rfl
  simp only [Bcache.brelse]
  split_ifs
  · exact ⟨_, hset.move (by simpa using hused)⟩
  · exact ⟨l, hset⟩

theorem lists_foldl {r : Links BufId} {k : List BufId} (hr : Lists r l) (hk : k.Nodup)
    (hkl : ∀ b ∈ k, b ∉ l) : Lists (k.foldl Links.insertHead r) (k.reverse ++ l) := by
  induction k generalizing r l with
  | nil => exact hr
  | cons b k ih =>
    obtain ⟨hbk, hk⟩ := List.nodup_cons.1 hk
    rw [List.foldl_cons, List.reverse_cons, List.append_assoc]
    refine ih (hr.insertHead (hkl b List.mem_cons_self)) hk fun a ha hmem => ?_
    rcases List.mem_cons.1 hmem with rfl | hmem
    · exact hbk ha
    · exact hkl a (List.mem_cons_of_mem b ha) hmem

theorem Ok.binit : Ok binit (List.finRange nbuf).reverse := by
  have hno : ∀ b, ¬ (Bcache.binit.buf b).Used := fun b h => by
    rcases h with h | h
    · exact h rfl
    · cases h
  refine ⟨?_, fun b => by simp, fun a b ha => absurd ha (hno a), fun b _ => rfl,
    fun a b _ hb => absurd hb (hno b)⟩
  have := lists_foldl lists_empty (List.nodup_finRange nbuf) (by simp)
  rwa [List.append_nil] at this

end Bcache

end Xv6.Bio

import Mathlib

/-!
# Buddy systems

A range of `2 ^ n` leaves is cut into blocks: block `i` of class `k` has the leaves `x` with
`x / 2 ^ k = i`, and its two halves are the blocks `2 * i` and `2 * i + 1` of class `k - 1`. Two
bits for each block say whether it is handed out (`alloc`) and whether it is cut in halves
(`split`). Some leaves, the set `R`, are reserved for ever.

* `Sound R n b`: the bits `b` describe a cut of the range.
* `Free`, `Out`: the blocks that can be handed out, and those that are. **`Sound.cover`** and
  **`Sound.unique`**: every leaf that is not reserved lies in exactly one of them.
* **`Sound.take`**, **`Sound.halve`**, **`Sound.merge`**, **`Sound.release`**: the four changes that
  an allocator makes, each with what it does to the free blocks and to those handed out.
* **`Sound.split_of_out`**, **`Sound.alloc_of_out`**: the blocks handed out determine the bits.
-/

namespace BuddyTree

/-- The other half of the block's parent. -/
def buddy (i : ℕ) : ℕ := if i % 2 = 0 then i + 1 else i - 1

theorem buddy_half (i : ℕ) : buddy i / 2 = i / 2 := by
  unfold buddy
  split_ifs <;> omega

theorem buddy_ne (i : ℕ) : buddy i ≠ i := by
  unfold buddy
  split_ifs <;> omega

theorem buddy_buddy (i : ℕ) : buddy (buddy i) = i := by
  unfold buddy
  split_ifs <;> omega

theorem buddy_odd (i : ℕ) : buddy (2 * i + 1) = 2 * i := by
  unfold buddy
  split_ifs <;> omega

theorem eq_or_eq_buddy {i j : ℕ} (h : j / 2 = i / 2) : j = i ∨ j = buddy i := by
  unfold buddy
  split_ifs <;> omega

def Holds (R : Set ℕ) (k i : ℕ) : Prop := ∃ x ∈ R, x / 2 ^ k = i

theorem div_pow_succ (x k : ℕ) : x / 2 ^ (k + 1) = x / 2 ^ k / 2 := by
  rw [pow_succ, Nat.div_div_eq_div_mul]

theorem div_div_pow (x : ℕ) {j k : ℕ} (h : j ≤ k) : x / 2 ^ j / 2 ^ (k - j) = x / 2 ^ k := by
  rw [Nat.div_div_eq_div_mul, ← pow_add, Nat.add_sub_of_le h]

theorem Holds.parent {R : Set ℕ} {k i : ℕ} (h : Holds R k i) : Holds R (k + 1) (i / 2) := by
  obtain ⟨x, hx, rfl⟩ := h
  exact ⟨x, hx, div_pow_succ x k⟩

/-- The two bits of every block; blocks of class `0` have no `split` bit. -/
structure Bits where
  alloc : ℕ → ℕ → Bool
  split : ℕ → ℕ → Bool

namespace Bits

variable (b : Bits)

def Split (k i : ℕ) : Prop := 0 < k ∧ b.split k i = true

def Free (n k i : ℕ) : Prop :=
  k < n ∧ i < 2 ^ (n - k) ∧ b.alloc k i = false ∧ b.split (k + 1) (i / 2) = true

def Out (R : Set ℕ) (n k i : ℕ) : Prop :=
  k ≤ n ∧ i < 2 ^ (n - k) ∧ b.alloc k i = true ∧ ¬ b.Split k i ∧ ¬ Holds R k i

def setAlloc (k i : ℕ) (v : Bool) : Bits :=
  { b with alloc := fun k' i' => if k' = k ∧ i' = i then v else b.alloc k' i' }

def setSplit (k i : ℕ) (v : Bool) : Bits :=
  { b with split := fun k' i' => if k' = k ∧ i' = i then v else b.split k' i' }

end Bits

/-- **The bits describe a cut of the range**, with a reserved leaf somewhere. -/
structure Sound (R : Set ℕ) (n : ℕ) (b : Bits) : Prop where
  reserved : ∀ x ∈ R, x < 2 ^ n
  nonempty : R.Nonempty
  marked : ∀ k i, k ≤ n → Holds R k i → b.alloc k i = true ∧ (0 < k → b.split k i = true)
  alloc_of_split : ∀ k i, k ≤ n → i < 2 ^ (n - k) → b.Split k i → b.alloc k i = true
  buddies : ∀ k i, ¬ (b.Free n k i ∧ b.Free n k (buddy i))
  below : ∀ k i, k ≤ n → i < 2 ^ (n - k) → ¬ b.Split k i →
    ∀ j < k, ∀ i', i' / 2 ^ (k - j) = i → b.alloc j i' = false ∧ ¬ b.Split j i'

variable {R : Set ℕ} {n : ℕ} {b : Bits} {k i j i' x : ℕ}

theorem lt_pow_div (hj : j ≤ k) (hk : k ≤ n) (hi : i < 2 ^ (n - j)) :
    i / 2 ^ (k - j) < 2 ^ (n - k) := by
  rw [Nat.div_lt_iff_lt_mul (Nat.two_pow_pos _), ← pow_add]
  rwa [show n - k + (k - j) = n - j by omega]

theorem half_lt (hk : k < n) (hi : i < 2 ^ (n - k)) : i / 2 < 2 ^ (n - (k + 1)) := by
  have h := lt_pow_div (Nat.le_succ k) hk hi
  rwa [show k.succ - k = 1 by omega, pow_one] at h

theorem two_mul_lt (hk : k < n) (hi : i < 2 ^ (n - (k + 1))) : 2 * i + 1 < 2 ^ (n - k) := by
  rw [show n - k = n - (k + 1) + 1 by omega, pow_succ]
  omega

theorem buddy_lt (hk : k < n) (hi : i < 2 ^ (n - k)) : buddy i < 2 ^ (n - k) := by
  have h := two_mul_lt hk (half_lt hk hi)
  have := buddy_half i
  omega

namespace Sound

theorem split_above (h : Sound R n b) (hjk : j < k) (hk : k ≤ n) (hi : i < 2 ^ (n - j))
    (hmark : b.alloc j i = true ∨ b.Split j i) : b.Split k (i / 2 ^ (k - j)) := by
  by_contra hs
  have hb := h.below k _ hk (lt_pow_div hjk.le hk hi) hs j hjk i rfl
  rcases hmark with ha | hs'
  · rw [hb.1] at ha
    cases ha
  · exact hb.2 hs'

theorem split_parent (h : Sound R n b) (hk : k < n) (hi : i < 2 ^ (n - k))
    (hmark : b.alloc k i = true ∨ b.Split k i) : b.Split (k + 1) (i / 2) := by
  have hs := h.split_above (Nat.lt_succ_self k) hk hi hmark
  rwa [show k.succ - k = 1 by omega, pow_one] at hs

theorem below_of_parent
    (hup : ∀ j i, j < n → i < 2 ^ (n - j) → (b.alloc j i = true ∨ b.Split j i) →
      b.Split (j + 1) (i / 2)) (hk : k ≤ n) (hi : i < 2 ^ (n - k)) (hs : ¬ b.Split k i) (hjk : j < k)
    (hi' : i' / 2 ^ (k - j) = i) : b.alloc j i' = false ∧ ¬ b.Split j i' := by
  have hlt : i' < 2 ^ (n - j) := by
    rw [← hi', Nat.div_lt_iff_lt_mul (Nat.two_pow_pos _), ← pow_add] at hi
    rwa [show n - k + (k - j) = n - j by omega] at hi
  -- by induction on the number of classes climbed
  have hclimb : (b.alloc j i' = true ∨ b.Split j i') →
      ∀ m, j + m + 1 ≤ n → b.Split (j + m + 1) (i' / 2 ^ (m + 1)) := by
    intro hmark m
    induction m with
    | zero =>
      intro hm
      rw [Nat.add_zero, Nat.zero_add, pow_one]
      exact hup j i' hm hlt hmark
    | succ m ih =>
      intro hm
      rw [div_pow_succ]
      refine hup _ _ hm ?_ (Or.inr (ih (by omega)))
      have := lt_pow_div (show j ≤ j + m + 1 by omega) (show j + m + 1 ≤ n by omega) hlt
      rwa [show j + m + 1 - j = m + 1 by omega] at this
  by_contra hmark
  have hmark : b.alloc j i' = true ∨ b.Split j i' := by
    cases ha : b.alloc j i' with
    | true => exact Or.inl rfl
    | false => exact Or.inr (not_not.1 fun hns => hmark ⟨ha, hns⟩)
  have := hclimb hmark (k - j - 1) (by omega)
  rw [show j + (k - j - 1) + 1 = k by omega, show k - j - 1 + 1 = k - j by omega, hi'] at this
  exact hs this

theorem holds_root (h : Sound R n b) : Holds R n 0 := by
  obtain ⟨x, hx⟩ := h.nonempty
  exact ⟨x, hx, Nat.div_eq_of_lt (h.reserved x hx)⟩

theorem lt_of_out (h : Sound R n b) (ho : b.Out R n k i) : k < n := by
  rcases Nat.lt_or_eq_of_le ho.1 with hk | rfl
  · exact hk
  · obtain rfl : i = 0 := by simpa using ho.2.1
    exact absurd h.holds_root ho.2.2.2.2

theorem not_split_of_free (h : Sound R n b) (hf : b.Free n k i) : ¬ b.Split k i := by
  intro hs
  have ha := h.alloc_of_split k i hf.1.le hf.2.1 hs
  rw [hf.2.2.1] at ha
  cases ha

theorem not_holds_of_free (h : Sound R n b) (hf : b.Free n k i) : ¬ Holds R k i := by
  intro hh
  have ha := (h.marked k i hf.1.le hh).1
  rw [hf.2.2.1] at ha
  cases ha

end Sound

/-! ## The blocks tile the range -/

def Bits.Piece (b : Bits) (R : Set ℕ) (n k i : ℕ) : Prop := b.Free n k i ∨ b.Out R n k i

theorem Bits.Piece.le (hp : b.Piece R n k i) : k ≤ n := hp.elim (fun hf => hf.1.le) fun ho => ho.1

theorem Bits.Piece.lt (hp : b.Piece R n k i) : i < 2 ^ (n - k) :=
  hp.elim (fun hf => hf.2.1) fun ho => ho.2.1

namespace Sound

theorem not_split (h : Sound R n b) (hp : b.Piece R n k i) : ¬ b.Split k i :=
  hp.elim h.not_split_of_free fun ho => ho.2.2.2.1

theorem not_holds (h : Sound R n b) (hp : b.Piece R n k i) : ¬ Holds R k i :=
  hp.elim h.not_holds_of_free fun ho => ho.2.2.2.2

theorem parent_split (h : Sound R n b) (hp : b.Piece R n k i) : b.Split (k + 1) (i / 2) := by
  rcases hp with hf | ho
  · exact ⟨Nat.succ_pos k, hf.2.2.2⟩
  · exact h.split_parent (h.lt_of_out ho) ho.2.1 (Or.inl ho.2.2.1)

theorem le_of_piece (h : Sound R n b) (hx : x < 2 ^ n) (hp : b.Piece R n k (x / 2 ^ k))
    (hp' : b.Piece R n j (x / 2 ^ j)) : j ≤ k := by
  by_contra hkj
  push Not at hkj
  apply h.not_split hp'
  have hs := h.parent_split hp
  rw [← div_pow_succ] at hs
  rcases Nat.lt_or_eq_of_le (Nat.succ_le_of_lt hkj) with hlt | heq
  · have := h.split_above hlt hp'.le (lt_pow_div (Nat.zero_le _) (hlt.le.trans hp'.le) hx) (Or.inr hs)
    rwa [Nat.sub_zero, div_div_pow x hlt.le] at this
  · rwa [← heq]

theorem unique (h : Sound R n b) (hx : x < 2 ^ n) (hp : b.Piece R n k (x / 2 ^ k))
    (hp' : b.Piece R n j (x / 2 ^ j)) : k = j :=
  Nat.le_antisymm (h.le_of_piece hx hp' hp) (h.le_of_piece hx hp hp')

theorem not_free_of_out (ho : b.Out R n k i) : ¬ b.Free n k i := fun hf => by
  have ha := ho.2.2.1
  rw [hf.2.2.1] at ha
  cases ha

theorem cover (h : Sound R n b) (hx : x < 2 ^ n) : x ∈ R ∨ ∃ k, b.Piece R n k (x / 2 ^ k) := by
  rcases Nat.eq_zero_or_pos n with rfl | hn
  · obtain ⟨y, hy⟩ := h.nonempty
    have hy' := h.reserved y hy
    rw [pow_zero] at hx hy'
    obtain rfl : x = y := by omega
    exact Or.inl hy
  -- the smallest block around `x` that is cut
  classical
  have hroot : b.Split n (x / 2 ^ n) := by
    rw [Nat.div_eq_of_lt hx]
    exact ⟨hn, (h.marked n 0 n.le_refl h.holds_root).2 hn⟩
  have hex : ∃ k, b.Split k (x / 2 ^ k) := ⟨n, hroot⟩
  obtain ⟨m, hm⟩ : ∃ m, Nat.find hex = m + 1 := ⟨_, (Nat.succ_pred_eq_of_pos (Nat.find_spec hex).1).symm⟩
  have hs := Nat.find_spec hex
  have hmn : m < n := by
    have := Nat.find_min' hex hroot
    omega
  have hns : ¬ b.Split m (x / 2 ^ m) := Nat.find_min hex (by omega)
  rw [hm, div_pow_succ] at hs
  have hlt : x / 2 ^ m < 2 ^ (n - m) := lt_pow_div (Nat.zero_le m) hmn.le hx
  cases ha : b.alloc m (x / 2 ^ m) with
  | false => exact Or.inr ⟨m, Or.inl ⟨hmn, hlt, ha, hs.2⟩⟩
  | true =>
    by_cases hh : Holds R m (x / 2 ^ m)
    · -- a block that holds a reserved leaf and is not cut has class `0`
      obtain rfl : m = 0 := Nat.eq_zero_of_not_pos fun hm0 =>
        hns ⟨hm0, (h.marked m _ hmn.le hh).2 hm0⟩
      obtain ⟨y, hy, hyx⟩ := hh
      rw [pow_zero, Nat.div_one, Nat.div_one] at hyx
      exact Or.inl (hyx ▸ hy)
    · exact Or.inr ⟨m, Or.inr ⟨hmn.le, hlt, ha, hns, hh⟩⟩

end Sound

/-! ## The changes an allocator makes -/

/-- A block, picked out by its class and index. -/
def At (k i k' i' : ℕ) : Prop := k' = k ∧ i' = i

namespace Bits

variable {k' : ℕ}

theorem free_iff : b.Free n k i ↔
    k < n ∧ i < 2 ^ (n - k) ∧ ¬ b.alloc k i = true ∧ b.Split (k + 1) (i / 2) := by
  unfold Free Split
  rw [Bool.not_eq_true]
  exact and_congr_right fun _ => and_congr_right fun _ => and_congr_right fun _ =>
    (and_iff_right (Nat.succ_pos k)).symm

theorem alloc_set : (b.setAlloc k i true).alloc k' i' = true ↔ b.alloc k' i' = true ∨ At k i k' i' := by
  by_cases hat : At k i k' i'
  · exact iff_of_true (if_pos hat) (Or.inr hat)
  · rw [or_iff_left hat]
    exact Bool.coe_iff_coe.2 (if_neg hat)

theorem alloc_clear :
    (b.setAlloc k i false).alloc k' i' = true ↔ b.alloc k' i' = true ∧ ¬ At k i k' i' := by
  by_cases hat : At k i k' i'
  · have : (b.setAlloc k i false).alloc k' i' = false := if_pos hat
    simp [this, hat]
  · rw [and_iff_left hat]
    exact Bool.coe_iff_coe.2 (if_neg hat)

theorem split_set : (b.setSplit (k + 1) i true).Split k' i' ↔ b.Split k' i' ∨ At (k + 1) i k' i' := by
  by_cases hat : At (k + 1) i k' i'
  · refine iff_of_true ⟨?_, if_pos hat⟩ (Or.inr hat)
    rw [hat.1]
    exact Nat.succ_pos k
  · rw [or_iff_left hat]
    exact and_congr_right fun _ => Bool.coe_iff_coe.2 (if_neg hat)

theorem split_clear :
    (b.setSplit k i false).Split k' i' ↔ b.Split k' i' ∧ ¬ At k i k' i' := by
  by_cases hat : At k i k' i'
  · have : (b.setSplit k i false).split k' i' = false := if_pos hat
    simp [Split, this, hat]
  · rw [and_iff_left hat]
    exact and_congr_right fun _ => Bool.coe_iff_coe.2 (if_neg hat)

end Bits

namespace Sound

variable {b' : Bits}

theorem take (h : Sound R n b) (hf : b.Free n k i) (hb : b' = b.setAlloc k i true) :
    Sound R n b' ∧ (∀ k' i', b'.Free n k' i' ↔ b.Free n k' i' ∧ ¬ At k i k' i') ∧
      ∀ k' i', b'.Out R n k' i' ↔ b.Out R n k' i' ∨ At k i k' i' := by
  subst hb
  have hsplit : ∀ k' i', (b.setAlloc k i true).Split k' i' ↔ b.Split k' i' := fun _ _ => Iff.rfl
  have hfree : ∀ k' i', (b.setAlloc k i true).Free n k' i' ↔ b.Free n k' i' ∧ ¬ At k i k' i' := by
    intro k' i'
    rw [Bits.free_iff, Bits.free_iff, Bits.alloc_set, hsplit]
    tauto
  refine ⟨⟨h.reserved, h.nonempty, fun k' i' hk hh => ?_, fun k' i' hk hi hs => ?_,
    fun k' i' hb => ?_, fun k' i' hk hi hs j hj i'' hi'' => below_of_parent ?_ hk hi hs hj hi''⟩,
    hfree, fun k' i' => ?_⟩
  · exact (h.marked k' i' hk hh).imp_left fun ha => Bits.alloc_set.2 (Or.inl ha)
  · exact Bits.alloc_set.2 (Or.inl (h.alloc_of_split k' i' hk hi hs))
  · exact h.buddies k' i' ⟨((hfree _ _).1 hb.1).1, ((hfree _ _).1 hb.2).1⟩
  · intro j i' hj hi' hmark
    rw [Bits.alloc_set, or_right_comm] at hmark
    rcases hmark with hmark | ⟨rfl, rfl⟩
    · exact h.split_parent hj hi' hmark
    · exact ⟨Nat.succ_pos j, hf.2.2.2⟩
  · have hnew : At k i k' i' → b.Out R n k' i' ∨ (k' ≤ n ∧ i' < 2 ^ (n - k') ∧ ¬ b.Split k' i' ∧
        ¬ Holds R k' i') := by
      rintro ⟨rfl, rfl⟩
      exact Or.inr ⟨hf.1.le, hf.2.1, h.not_split_of_free hf, h.not_holds_of_free hf⟩
    unfold Bits.Out at *
    rw [Bits.alloc_set, hsplit]
    tauto

theorem release (h : Sound R n b) (ho : b.Out R n k i) (hbud : b.alloc k (buddy i) = true)
    (hb : b' = b.setAlloc k i false) :
    Sound R n b' ∧ (∀ k' i', b'.Free n k' i' ↔ b.Free n k' i' ∨ At k i k' i') ∧
      ∀ k' i', b'.Out R n k' i' ↔ b.Out R n k' i' ∧ ¬ At k i k' i' := by
  subst hb
  have hsplit : ∀ k' i', (b.setAlloc k i false).Split k' i' ↔ b.Split k' i' := fun _ _ => Iff.rfl
  have hfree : ∀ k' i', (b.setAlloc k i false).Free n k' i' ↔ b.Free n k' i' ∨ At k i k' i' := by
    intro k' i'
    have hnew : At k i k' i' → k' < n ∧ i' < 2 ^ (n - k') ∧ b.Split (k' + 1) (i' / 2) := by
      rintro ⟨rfl, rfl⟩
      exact ⟨h.lt_of_out ho, ho.2.1, h.parent_split (Or.inr ho)⟩
    rw [Bits.free_iff, Bits.free_iff, Bits.alloc_clear, hsplit]
    tauto
  refine ⟨⟨h.reserved, h.nonempty, fun k' i' hk hh => ?_, fun k' i' hk hi hs => ?_,
    fun k' i' hb => ?_, fun k' i' hk hi hs j hj i'' hi'' => below_of_parent ?_ hk hi hs hj hi''⟩,
    hfree, fun k' i' => ?_⟩
  · refine (h.marked k' i' hk hh).imp_left fun ha => Bits.alloc_clear.2 ⟨ha, ?_⟩
    rintro ⟨rfl, rfl⟩
    exact ho.2.2.2.2 hh
  · refine Bits.alloc_clear.2 ⟨h.alloc_of_split k' i' hk hi hs, ?_⟩
    rintro ⟨rfl, rfl⟩
    exact ho.2.2.2.1 hs
  · -- a new pair of free buddies would have the block in it, and its buddy is marked
    have hmarked : ¬ b.Free n k (buddy i) := fun hf => (Bits.free_iff.1 hf).2.2.1 hbud
    obtain ⟨h₁, h₂⟩ := hb
    rw [hfree] at h₁ h₂
    rcases h₁ with h₁ | ⟨rfl, rfl⟩
    · rcases h₂ with h₂ | ⟨rfl, hi⟩
      · exact h.buddies k' i' ⟨h₁, h₂⟩
      · rw [← hi, buddy_buddy] at hmarked
        exact hmarked h₁
    · rcases h₂ with h₂ | ⟨_, hi⟩
      · exact hmarked h₂
      · exact buddy_ne i' hi
  · intro j i' hj hi' hmark
    exact h.split_parent hj hi' (hmark.imp_left fun ha => (Bits.alloc_clear.1 ha).1)
  · unfold Bits.Out
    rw [Bits.alloc_clear, hsplit]
    tauto

theorem halves_clear (h : Sound R n b) (ho : b.Out R n (k + 1) i) (hi : i' / 2 = i) :
    ¬ b.alloc k i' = true ∧ ¬ b.Split k i' := by
  rw [Bool.not_eq_true]
  refine h.below (k + 1) i ho.1 ho.2.1 ho.2.2.2.1 k (Nat.lt_succ_self k) i' ?_
  rwa [Nat.add_sub_cancel_left, pow_one]

/-- **A block that is handed out is cut**; its first half stays handed out, the other is free. -/
theorem halve (h : Sound R n b) (ho : b.Out R n (k + 1) i)
    (hb : b' = (b.setSplit (k + 1) i true).setAlloc k (2 * i) true) :
    Sound R n b' ∧ (∀ k' i', b'.Free n k' i' ↔ b.Free n k' i' ∨ At k (2 * i + 1) k' i') ∧
      ∀ k' i', b'.Out R n k' i' ↔ b.Out R n k' i' ∧ ¬ At (k + 1) i k' i' ∨ At k (2 * i) k' i' := by
  have hlt := two_mul_lt ho.1 ho.2.1
  have halloc : ∀ k' i', b'.alloc k' i' = true ↔ b.alloc k' i' = true ∨ At k (2 * i) k' i' := by
    intro k' i'
    rw [hb]
    exact Bits.alloc_set
  have hsplit : ∀ k' i', b'.Split k' i' ↔ b.Split k' i' ∨ At (k + 1) i k' i' := by
    intro k' i'
    rw [hb]
    exact Bits.split_set
  have hfree : ∀ k' i', b'.Free n k' i' ↔ b.Free n k' i' ∨ At k (2 * i + 1) k' i' := by
    intro k' i'
    rw [Bits.free_iff, Bits.free_iff, halloc, hsplit]
    by_cases hin : k' = k ∧ i' / 2 = i
    · obtain ⟨rfl, rfl⟩ := hin
      have hc : ¬ b.alloc k' i' = true ∧ ¬ b.Split k' i' := h.halves_clear ho rfl
      have hns := ho.2.2.2.1
      have hk : k' < n := ho.1
      have hlt' : i' < 2 ^ (n - k') := by omega
      have hat : At (k' + 1) (i' / 2) (k' + 1) (i' / 2) := ⟨rfl, rfl⟩
      -- of the two halves only the second is new
      have hhalf : At k' (2 * (i' / 2)) k' i' ↔ ¬ At k' (2 * (i' / 2) + 1) k' i' := by
        unfold At
        omega
      tauto
    · have h₁ : ¬ At k (2 * i) k' i' := by unfold At; omega
      have h₂ : ¬ At (k + 1) i (k' + 1) (i' / 2) := by unfold At; omega
      have h₃ : ¬ At k (2 * i + 1) k' i' := by unfold At; omega
      tauto
  refine ⟨⟨h.reserved, h.nonempty, fun k' i' hk hh => ?_, fun k' i' hk hi hs => ?_,
    fun k' i' hb => ?_, fun k' i' hk hi hs j hj i'' hi'' => below_of_parent ?_ hk hi hs hj hi''⟩,
    hfree, fun k' i' => ?_⟩
  · refine (h.marked k' i' hk hh).imp (fun ha => (halloc _ _).2 (Or.inl ha)) fun hs hk => ?_
    exact ((hsplit k' i').2 (Or.inl ⟨hk, hs hk⟩)).2
  · rw [halloc]
    rcases (hsplit _ _).1 hs with hs | ⟨rfl, rfl⟩
    · exact Or.inl (h.alloc_of_split k' i' hk hi hs)
    · exact Or.inl ho.2.2.1
  · -- the buddy of the new free half is handed out
    have hhalf : ¬ b'.Free n k (2 * i) := fun hf =>
      (Bits.free_iff.1 hf).2.2.1 ((halloc _ _).2 (Or.inr ⟨rfl, rfl⟩))
    obtain ⟨h₁, h₂⟩ := hb
    rcases (hfree _ _).1 h₁ with h₁ | ⟨rfl, rfl⟩
    · rcases (hfree _ _).1 h₂ with h₂' | ⟨rfl, hi⟩
      · exact h.buddies k' i' ⟨h₁, h₂'⟩
      · have : i' = 2 * i := by
          have := buddy_half i'
          have := buddy_ne i'
          omega
        exact hhalf (this ▸ (hfree _ _).2 (Or.inl h₁))
    · rw [buddy_odd] at h₂
      exact hhalf h₂
  · intro j i' hj hi' hmark
    rw [halloc, hsplit] at hmark
    rw [hsplit]
    rcases hmark with (ha | ⟨rfl, rfl⟩) | (hs | ⟨rfl, rfl⟩)
    · exact Or.inl (h.split_parent hj hi' (Or.inl ha))
    · exact Or.inr ⟨rfl, by omega⟩
    · exact Or.inl (h.split_parent hj hi' (Or.inr hs))
    · exact Or.inl (h.parent_split (Or.inr ho))
  · have hnew : At k (2 * i) k' i' → k' ≤ n ∧ i' < 2 ^ (n - k') ∧ ¬ b.Split k' i' ∧
        ¬ At (k + 1) i k' i' ∧ ¬ Holds R k' i' := by
      rintro ⟨rfl, rfl⟩
      refine ⟨by have := ho.1; omega, by omega, (h.halves_clear ho (by omega)).2, ?_, fun hh => ?_⟩
      · unfold At
        omega
      · have hp := hh.parent
        rw [Nat.mul_div_cancel_left _ (by omega)] at hp
        exact ho.2.2.2.2 hp
    unfold Bits.Out
    rw [halloc, hsplit]
    tauto

/-- **A block that is handed out joins its free buddy**, and the two are handed out as one. -/
theorem merge (h : Sound R n b) (ho : b.Out R n k i) (hbud : b.alloc k (buddy i) = false)
    (hb : b' = (b.setAlloc k i false).setSplit (k + 1) (i / 2) false) :
    Sound R n b' ∧ (∀ k' i', b'.Free n k' i' ↔ b.Free n k' i' ∧ ¬ At k (buddy i) k' i') ∧
      ∀ k' i', b'.Out R n k' i' ↔ b.Out R n k' i' ∧ ¬ At k i k' i' ∨ At (k + 1) (i / 2) k' i' := by
  have hk := h.lt_of_out ho
  have hlt := half_lt hk ho.2.1
  have hparent := h.parent_split (Or.inr ho)
  have hbud' : ¬ b.alloc k (buddy i) = true := by rw [hbud]; exact Bool.false_ne_true
  have hbs : ¬ b.Split k (buddy i) := fun hs => hbud' <|
    h.alloc_of_split k _ hk.le (buddy_lt hk ho.2.1) hs
  have hholds : ¬ Holds R (k + 1) (i / 2) := by
    intro hh
    obtain ⟨x, hx, hxi⟩ := hh
    rw [div_pow_succ] at hxi
    rcases eq_or_eq_buddy hxi with hxi | hxi
    · exact ho.2.2.2.2 ⟨x, hx, hxi⟩
    · exact hbud' (h.marked k _ hk.le ⟨x, hx, hxi⟩).1
  have halloc : ∀ k' i', b'.alloc k' i' = true ↔ b.alloc k' i' = true ∧ ¬ At k i k' i' := by
    intro k' i'
    rw [hb]
    exact Bits.alloc_clear
  have hsplit : ∀ k' i', b'.Split k' i' ↔ b.Split k' i' ∧ ¬ At (k + 1) (i / 2) k' i' := by
    intro k' i'
    rw [hb]
    exact Bits.split_clear
  have hfree : ∀ k' i', b'.Free n k' i' ↔ b.Free n k' i' ∧ ¬ At k (buddy i) k' i' := by
    intro k' i'
    rw [Bits.free_iff, Bits.free_iff, halloc, hsplit]
    by_cases hin : k' = k ∧ i' / 2 = i / 2
    · obtain ⟨rfl, hi⟩ := hin
      have hat : At (k' + 1) (i / 2) (k' + 1) (i' / 2) := ⟨rfl, hi⟩
      have ha := ho.2.2.1
      rcases eq_or_eq_buddy hi with rfl | rfl
      · tauto
      · have : At k' (buddy i) k' (buddy i) := ⟨rfl, rfl⟩
        tauto
    · have h₁ : ¬ At k i k' i' := by rintro ⟨rfl, rfl⟩; exact hin ⟨rfl, rfl⟩
      have h₂ : ¬ At (k + 1) (i / 2) (k' + 1) (i' / 2) := by unfold At; omega
      have h₃ : ¬ At k (buddy i) k' i' := by rintro ⟨rfl, rfl⟩; exact hin ⟨rfl, buddy_half i⟩
      tauto
  refine ⟨⟨h.reserved, h.nonempty, fun k' i' hk hh => ⟨?_, fun hk0 => ?_⟩, fun k' i' hk hi hs => ?_,
    fun k' i' hb => ?_, fun k' i' hk hi hs j hj i'' hi'' => below_of_parent ?_ hk hi hs hj hi''⟩,
    hfree, fun k' i' => ?_⟩
  · refine (halloc _ _).2 ⟨(h.marked k' i' hk hh).1, ?_⟩
    rintro ⟨rfl, rfl⟩
    exact ho.2.2.2.2 hh
  · refine ((hsplit k' i').2 ⟨⟨hk0, (h.marked k' i' hk hh).2 hk0⟩, ?_⟩).2
    rintro ⟨rfl, rfl⟩
    exact hholds hh
  · obtain ⟨hs, -⟩ := (hsplit _ _).1 hs
    refine (halloc _ _).2 ⟨h.alloc_of_split k' i' hk hi hs, ?_⟩
    rintro ⟨rfl, rfl⟩
    exact ho.2.2.2.1 hs
  · exact h.buddies k' i' ⟨((hfree _ _).1 hb.1).1, ((hfree _ _).1 hb.2).1⟩
  · intro j i' hj hi' hmark
    rw [halloc, hsplit] at hmark
    refine (hsplit _ _).2 ⟨h.split_parent hj hi' (hmark.imp And.left And.left), ?_⟩
    -- nothing is marked inside the merged block
    rintro ⟨hjk, hi⟩
    obtain rfl : j = k := by omega
    rcases eq_or_eq_buddy hi with rfl | rfl
    · have hns := ho.2.2.2.1
      have : At j i' j i' := ⟨rfl, rfl⟩
      tauto
    · tauto
  · have hnew : At (k + 1) (i / 2) k' i' → k' ≤ n ∧ i' < 2 ^ (n - k') ∧ b.alloc k' i' = true ∧
        ¬ At k i k' i' ∧ ¬ Holds R k' i' := by
      rintro ⟨rfl, rfl⟩
      refine ⟨hk, hlt, h.alloc_of_split _ _ hk hlt hparent, ?_, hholds⟩
      unfold At
      omega
    unfold Bits.Out
    rw [halloc, hsplit]
    tauto

/-! ## The blocks handed out determine the bits -/

/-- A split block without reserved leaves has a block inside that is handed out: otherwise its halves
would be free buddies. -/
theorem exists_out (h : Sound R n b) (hk : k ≤ n) (hi : i < 2 ^ (n - k)) (hs : b.Split k i)
    (hh : ¬ Holds R k i) : ∃ j < k, ∃ i', i' / 2 ^ (k - j) = i ∧ b.Out R n j i' := by
  induction k generalizing i with
  | zero => exact absurd hs.1 (lt_irrefl 0)
  | succ k ih =>
    have hlt : ∀ c, c / 2 = i → c < 2 ^ (n - k) := by
      intro c hc
      rw [show n - k = n - (k + 1) + 1 by omega, pow_succ]
      omega
    obtain ⟨c, hc, ha⟩ : ∃ c, c / 2 = i ∧ b.alloc k c = true := by
      by_contra hno
      have hfree : ∀ c, c / 2 = i → b.Free n k c := fun c hc =>
        ⟨hk, hlt c hc, by simpa using fun ha => hno ⟨c, hc, ha⟩, hc.symm ▸ hs.2⟩
      exact h.buddies k (2 * i) ⟨hfree _ (by omega), hfree _ (by rw [buddy_half]; omega)⟩
    have hcR : ¬ Holds R k c := fun hm => hh (hc ▸ hm.parent)
    by_cases hsc : b.Split k c
    · obtain ⟨j, hj, i', hi', ho⟩ := ih (Nat.le_of_succ_le hk) (hlt c hc) hsc hcR
      refine ⟨j, Nat.lt_succ_of_lt hj, i', ?_, ho⟩
      rw [show k + 1 - j = k - j + 1 by omega, div_pow_succ, hi', hc]
    · refine ⟨k, Nat.lt_succ_self k, c, ?_, Nat.le_of_succ_le hk, hlt c hc, ha, hsc, hcR⟩
      rw [Nat.add_sub_cancel_left, pow_one, hc]

section

variable (h : Sound R n b) (h' : Sound R n b') (hout : ∀ j i', b.Out R n j i' → b'.Out R n j i')
  (hk : k ≤ n) (hi : i < 2 ^ (n - k))

include h h' hout hk hi

theorem split_of_out (hs : b.Split k i) : b'.Split k i := by
  by_cases hh : Holds R k i
  · exact ⟨hs.1, (h'.marked k i hk hh).2 hs.1⟩
  · obtain ⟨j, hj, i', rfl, ho⟩ := h.exists_out hk hi hs hh
    have ho' := hout j i' ho
    exact h'.split_above hj hk ho'.2.1 (.inl ho'.2.2.1)

theorem alloc_of_out (ha : b.alloc k i = true) : b'.alloc k i = true := by
  by_cases hh : Holds R k i
  · exact (h'.marked k i hk hh).1
  · by_cases hs : b.Split k i
    · exact h'.alloc_of_split k i hk hi (h.split_of_out h' hout hk hi hs)
    · exact (hout k i ⟨hk, hi, ha, hs, hh⟩).2.2.1

end

end Sound

end BuddyTree

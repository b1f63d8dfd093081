import Xv6.Buddy.Run

/-!
# Requests of any size

`firstk` doubles a 64-bit number until it reaches the request, and `bd_malloc` calls it with the lock held.

* `firstkLoop_hang`: above `2 ^ 63` the number becomes 0 before it reaches the request, and the loop never ends.
* **`bd_malloc_returns_iff`**: `bd_malloc` returns, with the lock released, exactly for requests up to `2 ^ 63`.
-/

namespace Xv6.Buddy

open BuddyTree Heap

structure Guarded where
  heap : Heap
  locked : Bool

namespace Guarded

def acquire (g : Guarded) : Except Fault Guarded :=
  if g.locked then .error .hang else .ok { g with locked := true }

def release (g : Guarded) : Except Fault Guarded :=
  if g.locked then .ok { g with locked := false } else .error (.panic "release")

/-- `bd_malloc` with its lock. -/
def bdMalloc (g : Guarded) (nbytes : UInt64) : Except Fault (Option ℤ × Guarded) := do
  let g ← g.acquire
  let fk ← firstk nbytes
  match g.heap.findFree fk with
  | none =>
    let g ← g.release
    return (none, g)
  | some k =>
    let (p, s) ← g.heap.lstPop k
    let s := s.allocSet k (s.blkIndex k p)
    let g ← release { g with heap := splitDown p fk k s }
    return (some p, g)

/-- **Both ways out release the lock.** -/
theorem bdMalloc_eq (s : Heap) (n : UInt64) :
    bdMalloc ⟨s, false⟩ n = (s.bdMalloc n).map fun r => (r.1, ⟨r.2, false⟩) := by
  change (firstk n >>= _) = Except.map _ (firstk n >>= _)
  cases firstk n with
  | error e => rfl
  | ok fk =>
    change (match s.findFree fk with | none => _ | some k => _) =
      Except.map _ (match s.findFree fk with | none => _ | some k => _)
    cases s.findFree fk with
    | none => rfl
    | some k =>
      change (s.lstPop k >>= _) = Except.map _ (s.lstPop k >>= _)
      cases s.lstPop k with
      | error e => rfl
      | ok r => rfl

end Guarded

variable {R : Set ℕ} {s : Heap} {n : UInt64}

/-- **The loop never ends** for a request above `2 ^ 63`: `size` is a power of two, or 0 after it has
wrapped around. -/
theorem firstkLoop_hang (hn : 2 ^ 63 < n.toNat) (turns k : ℕ) {size : UInt64} {j : ℕ}
    (hsize : size.toNat = 2 ^ j % 2 ^ 64) : firstkLoop n turns k size = .error .hang := by
  induction turns generalizing k size j with
  | zero => rfl
  | succ turns ih =>
    have hle : 2 ^ j % 2 ^ 64 ≤ 2 ^ 63 := by
      rcases Nat.lt_or_ge j 64 with hj | hj
      · exact (Nat.mod_le _ _).trans (Nat.pow_le_pow_right (by decide) (by omega))
      · rw [Nat.mod_eq_zero_of_dvd (Nat.pow_dvd_pow 2 hj)]
        exact Nat.zero_le _
    have hlt : size < n := by
      rw [UInt64.lt_iff_toNat_lt, hsize]
      exact hle.trans_lt hn
    have hdouble : (size * 2).toNat = 2 ^ (j + 1) % 2 ^ 64 := by
      rw [UInt64.toNat_mul, hsize, pow_succ]
      exact Nat.mod_mul_mod _ _ _
    rw [firstkLoop, if_pos hlt]
    exact ih (k + 1) hdouble

theorem firstk_hang (hn : 2 ^ 63 < n.toNat) (turns : ℕ) :
    firstkLoop n turns 0 (.ofNat leafSize) = .error .hang :=
  firstkLoop_hang (j := 4) hn turns 0 rfl

theorem bdMalloc_returns (h : WellFormed R s) {fk : ℕ} (hfk : firstk n = .ok fk)
    (hleast : IsLeast {k | n.toNat ≤ blkSize k} fk) :
    ∃ r, s.bdMalloc n = .ok r ∧ (blkSize s.maxsize < n.toNat → r.1 = none) := by
  cases hfind : s.findFree fk with
  | none =>
    refine ⟨(none, s), ?_, fun _ => rfl⟩
    simp only [Heap.bdMalloc, hfk, hfind, bind, Except.bind, pure, Except.pure]
  | some k =>
    have hmem := List.mem_range'_1.1 (List.mem_of_find?_eq_some hfind)
    have hne : s.lstEmpty k = false := by simpa using List.find?_some hfind
    have hk : k ≤ s.maxsize := by
      unfold Heap.maxsize
      omega
    obtain ⟨i, -, hpop⟩ := h.lstPop_eq hk hne
    have hfit : n.toNat ≤ blkSize s.maxsize := by
      have hle : blkSize fk ≤ blkSize s.maxsize :=
        Nat.mul_le_mul_right _ (Nat.pow_le_pow_right (by decide) (hmem.1.trans hk))
      exact hleast.1.trans hle
    have hrun : ∃ r, s.bdMalloc n = .ok r := by
      simp only [Heap.bdMalloc, hfk, hfind, hpop, bind, Except.bind, pure, Except.pure]
      exact ⟨_, rfl⟩
    obtain ⟨r, hrun⟩ := hrun
    exact ⟨r, hrun, fun hlarge => absurd hlarge (Nat.not_lt.2 hfit)⟩

/-- **`bd_malloc` returns exactly for requests up to `2 ^ 63`**: then the lock is released, `firstk` has
found the least class that is large enough, and the result is 0 for a request above the heap's size.
Otherwise no number of turns of the loop in `firstk` is enough. -/
theorem bd_malloc_returns_iff (h : WellFormed R s) (n : UInt64) :
    (((∃ p s', Guarded.bdMalloc ⟨s, false⟩ n = .ok (p, ⟨s', false⟩) ∧
        (blkSize s.maxsize < n.toNat → p = none)) ∧
      ∃ k, firstk n = .ok k ∧ IsLeast {k | n.toNat ≤ 16 * 2 ^ k} k) ↔ n.toNat ≤ 2 ^ 63) ∧
    (2 ^ 63 < n.toNat → ∀ turns, firstkLoop n turns 0 (.ofNat leafSize) = .error .hang) := by
  refine ⟨⟨?_, fun hn => ?_⟩, firstk_hang⟩
  · rintro ⟨-, k, hk, -⟩
    by_contra hn
    rw [firstk, firstk_hang (Nat.lt_of_not_le hn)] at hk
    cases hk
  · obtain ⟨fk, hfk, hleast⟩ := firstk_spec hn
    obtain ⟨r, hrun, hnone⟩ := bdMalloc_returns h hfk hleast
    refine ⟨⟨r.1, r.2, ?_, hnone⟩, fk, hfk, ?_⟩
    · rw [Guarded.bdMalloc_eq, hrun]
      rfl
    · simpa only [blkSize, leafSize, Nat.mul_comm 16] using hleast

/-- A request for 2 GiB from a heap of 64 bytes. -/
theorem bd_malloc_returns_iff_small :
    ∃ p s', Guarded.bdMalloc ⟨smallHeap, false⟩ 2147483648 = .ok (p, ⟨s', false⟩) ∧ p = none := by
  have h := ((bd_malloc_returns_iff smallHeap_wellFormed 2147483648).1.2 (by decide)).1
  obtain ⟨p, s', hrun, hnone⟩ := h
  exact ⟨p, s', hrun, hnone (by decide)⟩

/-- **A request for `2 ^ 63 + 1` bytes never returns**, and keeps the lock. -/
theorem bd_malloc_hangs : WellFormed {0} smallHeap ∧
    Guarded.bdMalloc ⟨smallHeap, false⟩ 9223372036854775809 = .error .hang ∧
    ∀ turns, firstkLoop 9223372036854775809 turns 0 (.ofNat leafSize) = .error .hang := by
  have hhang := firstk_hang (n := 9223372036854775809) (by decide)
  refine ⟨smallHeap_wellFormed, ?_, hhang⟩
  rw [Guarded.bdMalloc_eq, Heap.bdMalloc, firstk, hhang]
  rfl

end Xv6.Buddy

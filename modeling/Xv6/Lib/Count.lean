import Mathlib

/-!
# Counters of type `int`

* `ofNat_succ`, `pos_ofNat_iff`, `ofNat_eq_zero_iff`, `ofNat_eq_one_iff`: a count as an `int`.
* `Counts v n`: the counter `v` stands at `n` and has not wrapped. **`Counts.succ`**, **`Counts.pred`**.
-/

namespace Count

theorem ofNat_succ (n : ℕ) : Int32.ofNat (n + 1) = Int32.ofNat n + 1 := Int32.ofNat_add n 1

section

variable {n : ℕ} (h : n < 2 ^ 31)

include h

theorem pos_ofNat_iff : 0 < Int32.ofNat n ↔ 0 < n := by
  rw [Int32.lt_iff_toInt_lt, Int32.toInt_ofNat_of_lt h]
  exact Int.natCast_pos

theorem ofNat_eq_zero_iff : Int32.ofNat n = 0 ↔ n = 0 := by
  rw [← Int32.toInt_inj, Int32.toInt_ofNat_of_lt h]
  exact Int.natCast_eq_zero

theorem ofNat_eq_one_iff : Int32.ofNat n = 1 ↔ n = 1 := by
  rw [← Int32.toInt_inj, Int32.toInt_ofNat_of_lt h]
  exact Int.natCast_inj (n := 1)

end

/-- The counter stands at `n` and has not wrapped. -/
structure Counts (v : Int32) (n : ℕ) : Prop where
  eq : v = Int32.ofNat n
  lt : n < 2 ^ 31

namespace Counts

variable {v : Int32} {n : ℕ}

theorem toInt (h : Counts v n) : v.toInt = n := by
  rw [h.eq, Int32.toInt_ofNat_of_lt h.lt]

theorem ne_zero (h : Counts v n) (hn : 0 < n) : v ≠ 0 := by
  rw [h.eq, Ne, ofNat_eq_zero_iff h.lt]
  exact hn.ne'

theorem succ (h : Counts v n) (hn : n + 1 < 2 ^ 31) : Counts (v + 1) (n + 1) :=
  ⟨by rw [h.eq, ofNat_succ], hn⟩

theorem pred (h : Counts (v + 1) (n + 1)) : Counts v n := by
  refine ⟨?_, Nat.lt_of_succ_lt h.lt⟩
  have heq := h.eq
  rw [ofNat_succ] at heq
  rw [← Int32.add_sub_cancel v 1, heq, Int32.add_sub_cancel]

end Counts

end Count

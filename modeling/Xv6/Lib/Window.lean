import Mathlib

/-!
# Circular buffers with counters that wrap around

A buffer of `N` cells is used through counters of 32 bits: counter `a` stands for cell `a % N`. Where `N` divides
`2 ^ 32`, a counter that wraps around stays at the right cell.

* `cells f a k`: the `k` cells from `a` on.
* `dist a b`: how far counter `b` is ahead of `a`. `slice f a b`: the cells between them.
* **`slice_push`**, **`slice_pop`**, **`slice_drop`**, **`slice_append`**: a cell is added at the upper end, taken
  from the lower end, taken back from the upper end; a slice is cut in two.
-/

namespace Window

open Function

variable {α : Type*} {N : ℕ} [NeZero N]

/-! ## Cells -/

def cells (f : Fin N → α) (a k : ℕ) : List α := (List.range k).map fun i => f (Fin.ofNat N (a + i))

@[simp] theorem length_cells (f : Fin N → α) (a k : ℕ) : (cells f a k).length = k := by
  simp [cells]

theorem cells_succ (f : Fin N → α) (a k : ℕ) :
    cells f a (k + 1) = f (Fin.ofNat N a) :: cells f (a + 1) k := by
  unfold cells
  rw [List.range_succ_eq_map, List.map_cons, List.map_map]
  congr 1
  apply List.map_congr_left
  intro i _
  simp only [comp]
  congr 2
  omega

theorem cells_add (f : Fin N → α) (a j k : ℕ) : cells f a (j + k) = cells f a j ++ cells f (a + j) k := by
  induction j generalizing a with
  | zero => simp [cells]
  | succ j ih =>
    have hjk : j + 1 + k = j + k + 1 := by omega
    have haj : a + 1 + j = a + (j + 1) := by omega
    rw [hjk, cells_succ, cells_succ, ih, haj, List.cons_append]

theorem cells_congr {f : Fin N → α} {a b : ℕ} (h : a % N = b % N) (k : ℕ) : cells f a k = cells f b k := by
  apply List.map_congr_left
  intro i _
  congr 1
  apply Fin.ext
  change (a + i) % N = (b + i) % N
  rw [Nat.add_mod, h, ← Nat.add_mod]

theorem ofNat_ne {a i j : ℕ} (hij : i < j) (hj : j < N) : Fin.ofNat N (a + i) ≠ Fin.ofNat N (a + j) := by
  intro h
  have hmod : (a + i) % N = (a + j) % N := congrArg Fin.val h
  have hdvd : N ∣ (a + j) - (a + i) := Nat.dvd_of_mod_eq_zero (Nat.sub_mod_eq_zero_of_mod_eq hmod.symm)
  have hle := Nat.le_of_dvd (by omega) hdvd
  omega

theorem cells_update (f : Fin N → α) (a : ℕ) {k : ℕ} (hk : k < N) (x : α) :
    cells (update f (Fin.ofNat N (a + k)) x) a k = cells f a k := by
  apply List.map_congr_left
  intro i hi
  exact update_of_ne (ofNat_ne (List.mem_range.1 hi) hk) _ _

theorem cells_push (f : Fin N → α) (a : ℕ) {k : ℕ} (hk : k < N) (x : α) :
    cells (update f (Fin.ofNat N (a + k)) x) a (k + 1) = cells f a k ++ [x] := by
  rw [cells_add, cells_update f a hk, cells_succ, update_self]
  rfl

/-! ## Counters -/

def dist (a b : UInt32) : ℕ := (b - a).toNat

def cell (N : ℕ) [NeZero N] (a : UInt32) : Fin N := Fin.ofNat N a.toNat

/-- **The cells from counter `a` up to counter `b`.** -/
def slice (f : Fin N → α) (a b : UInt32) : List α := cells f a.toNat (dist a b)

section

variable {a b c : UInt32} {f : Fin N → α}

@[simp] theorem length_slice : (slice f a b).length = dist a b := length_cells ..

theorem dist_eq (a b : UInt32) : dist a b = (2 ^ 32 - a.toNat + b.toNat) % 2 ^ 32 := by
  rw [dist, UInt32.toNat_sub]

theorem dist_self (a : UInt32) : dist a a = 0 := by
  rw [dist_eq]
  have := a.toNat_lt
  omega

theorem dist_eq_zero : dist a b = 0 ↔ a = b := by
  constructor
  · intro h
    rw [dist_eq] at h
    have ha := a.toNat_lt
    have hb := b.toNat_lt
    apply UInt32.toNat_inj.1
    omega
  · rintro rfl
    exact dist_self a

theorem toNat_succ (a : UInt32) : (a + 1).toNat = (a.toNat + 1) % 2 ^ 32 := by
  rw [UInt32.toNat_add]
  rfl

theorem toNat_pred (a : UInt32) : (a - 1).toNat = (2 ^ 32 - 1 + a.toNat) % 2 ^ 32 := by
  rw [UInt32.toNat_sub]
  rfl

theorem dist_succ (h : dist a b + 1 < 2 ^ 32) : dist a (b + 1) = dist a b + 1 := by
  rw [dist_eq] at h ⊢
  rw [dist_eq, toNat_succ]
  have := a.toNat_lt
  omega

theorem dist_pop (h : a ≠ b) : dist a b = dist (a + 1) b + 1 := by
  have h0 : dist a b ≠ 0 := fun h0 => h (dist_eq_zero.1 h0)
  rw [dist_eq] at h0 ⊢
  rw [dist_eq, toNat_succ]
  have := a.toNat_lt
  have := b.toNat_lt
  omega

theorem dist_pred (h : a ≠ b) : dist a b = dist a (b - 1) + 1 := by
  have h0 : dist a b ≠ 0 := fun h0 => h (dist_eq_zero.1 h0)
  rw [dist_eq] at h0 ⊢
  rw [dist_eq, toNat_pred]
  have := a.toNat_lt
  have := b.toNat_lt
  omega

theorem dist_add (h : dist a b + dist b c < 2 ^ 32) : dist a c = dist a b + dist b c := by
  rw [dist_eq, dist_eq] at *
  rw [dist_eq]
  have := a.toNat_lt
  have := b.toNat_lt
  have := c.toNat_lt
  omega

theorem add_sub_cancel_one (a : UInt32) : a + 1 - 1 = a := by
  apply UInt32.toNat_inj.1
  rw [toNat_pred, toNat_succ]
  have := a.toNat_lt
  omega

@[simp] theorem slice_self (f : Fin N → α) (a : UInt32) : slice f a a = [] := by
  rw [slice, dist_self]
  rfl

variable (hN : N ∣ 2 ^ 32)

include hN

omit [NeZero N] in
theorem toNat_mod (a b : UInt32) : b.toNat % N = (a.toNat + dist a b) % N := by
  have hM : (a.toNat + dist a b) % 2 ^ 32 = b.toNat := by
    rw [dist_eq]
    have := a.toNat_lt
    have := b.toNat_lt
    omega
  rw [← hM, Nat.mod_mod_of_dvd _ hN]

theorem cell_eq (a b : UInt32) : cell N b = Fin.ofNat N (a.toNat + dist a b) :=
  Fin.ext (toNat_mod hN a b)

theorem slice_append (h : dist a b + dist b c < 2 ^ 32) : slice f a c = slice f a b ++ slice f b c := by
  unfold slice
  rw [dist_add h, cells_add, cells_congr (toNat_mod hN a b).symm]

theorem slice_push (h : dist a b < N) (hlt : dist a b + 1 < 2 ^ 32) (x : α) :
    slice (update f (cell N b) x) a (b + 1) = slice f a b ++ [x] := by
  unfold slice
  rw [dist_succ hlt, cell_eq hN a b, cells_push _ _ h]

theorem slice_pop (h : a ≠ b) : slice f a b = f (cell N a) :: slice f (a + 1) b := by
  unfold slice
  rw [dist_pop h, cells_succ]
  congr 1
  apply cells_congr
  rw [toNat_succ, Nat.mod_mod_of_dvd _ hN]

theorem slice_drop (h : a ≠ b) : slice f a b = slice f a (b - 1) ++ [f (cell N (b - 1))] := by
  unfold slice
  rw [dist_pred h, cells_add, cells_succ, cell_eq hN a (b - 1)]
  rfl

theorem slice_update (h : dist a b + dist b c < N) (hlt : dist a b + dist b c < 2 ^ 32) (x : α) :
    slice (update f (cell N c) x) a b = slice f a b := by
  unfold slice
  apply List.map_congr_left
  intro i hi
  rw [cell_eq hN a c, dist_add hlt]
  exact update_of_ne (ofNat_ne (by have := List.mem_range.1 hi; omega) h) _ _

end

end Window

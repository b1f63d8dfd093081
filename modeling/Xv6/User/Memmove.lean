import Xv6.Param

/-!
# The two `memmove`s

`memmove` of `kernel/string.c` and of `user/ulib.c`, over the whole address space. Pointers have 64 bits
and wrap around.

* `copyUp`, `copyDown`: the loops that the two functions share.
* `moved`: memory after `n` bytes were copied at once. **`copyUp_eq`**, **`copyDown_eq`**: a loop does the
  same if it does not overwrite a byte that it still has to read.
* **`memmoves_agree`**.
-/

namespace Xv6.User

open Function

abbrev Memory : Type := ℕ → UInt8

def ptr (a : ℕ) : ℕ := a % 2 ^ 64

def back (a : ℕ) : ℕ := if a = 0 then 2 ^ 64 - 1 else a - 1

/-- `while(n-- > 0) *d++ = *s++;` -/
def copyUp : ℕ → Memory → ℕ → ℕ → Memory
  | 0, m, _, _ => m
  | n + 1, m, d, s => copyUp n (update m d (m s)) (ptr (d + 1)) (ptr (s + 1))

/-- `while(n-- > 0) *--d = *--s;` -/
def copyDown : ℕ → Memory → ℕ → ℕ → Memory
  | 0, m, _, _ => m
  | n + 1, m, d, s =>
    copyDown n (update m (back d) (m (back s))) (back d) (back s)

/-- `memmove` of the kernel, with `uint n`. -/
def kernelMemmove (m : Memory) (dst src : ℕ) (n : UInt32) : Memory :=
  if src < dst ∧ ptr (src + n.toNat) > dst then
    copyDown n.toNat m (ptr (dst + n.toNat)) (ptr (src + n.toNat))
  else copyUp n.toNat m dst src

/-- `memmove` of the user library, with `int n`. -/
def memmove (m : Memory) (dst src : ℕ) (n : Int32) : Memory :=
  if src > dst then copyUp n.toInt.toNat m dst src
  else copyDown n.toInt.toNat m ((dst + n.toInt) % 2 ^ 64).toNat ((src + n.toInt) % 2 ^ 64).toNat

/-- Memory after `n` bytes at `src` were copied to `dst` all at once. -/
def moved (m : Memory) (dst src n : ℕ) : Memory := fun a =>
  if dst ≤ a ∧ a < dst + n then m (src + (a - dst)) else m a

variable {m : Memory} {d s n : ℕ}

theorem moved_zero (m : Memory) (d s : ℕ) : moved m d s 0 = m := by
  funext a
  exact if_neg (by omega)

theorem ptr_of_lt (h : d < 2 ^ 64) : ptr d = d := Nat.mod_eq_of_lt h

theorem ptr_succ (a : ℕ) : ptr (ptr a + 1) = ptr (a + 1) := Nat.mod_add_mod a _ 1

theorem back_ptr_succ {a : ℕ} (h : a < 2 ^ 64) : back (ptr (a + 1)) = ptr a := by
  unfold back ptr
  split_ifs with h0 <;> omega

theorem moved_first (h : d ≤ s ∨ s + n < d) :
    moved (update m d (m s)) (d + 1) (s + 1) n = moved m d s (n + 1) := by
  funext a
  unfold moved
  by_cases ha : a = d
  · subst ha
    rw [if_neg (by omega), if_pos (by omega), update_self, Nat.sub_self, add_zero]
  · by_cases hin : d ≤ a ∧ a < d + (n + 1)
    · have hsrc : s + 1 + (a - (d + 1)) = s + (a - d) := by omega
      rw [if_pos (by omega), if_pos hin, hsrc, update_of_ne (by omega)]
    · rw [if_neg (by omega), if_neg hin, update_of_ne ha]

theorem moved_last (h : s ≤ d ∨ d + n < s) :
    moved (update m (d + n) (m (s + n))) d s n = moved m d s (n + 1) := by
  funext a
  unfold moved
  by_cases ha : a = d + n
  · subst ha
    rw [if_neg (by omega), if_pos (by omega), update_self, Nat.add_sub_cancel_left]
  · by_cases hin : d ≤ a ∧ a < d + (n + 1)
    · rw [if_pos (by omega), if_pos hin, update_of_ne (by omega)]
    · rw [if_neg (by omega), if_neg hin, update_of_ne ha]

/-- **Copying upwards** is right if the destination does not begin inside the source. -/
theorem copyUp_eq (hd : d + n ≤ 2 ^ 64) (hs : s + n ≤ 2 ^ 64) (h : d ≤ s ∨ s + n ≤ d) :
    copyUp n m (ptr d) (ptr s) = moved m d s n := by
  induction n generalizing m d s with
  | zero => exact (moved_zero m d s).symm
  | succ n ih =>
    rw [copyUp, ptr_succ, ptr_succ, ih (by omega) (by omega) (by omega), ptr_of_lt (by omega),
      ptr_of_lt (by omega)]
    exact moved_first (by omega)

/-- **Copying downwards** is right if the source does not begin inside the destination. -/
theorem copyDown_eq (hd : d + n ≤ 2 ^ 64) (hs : s + n ≤ 2 ^ 64) (h : s ≤ d ∨ d + n ≤ s) :
    copyDown n m (ptr (d + n)) (ptr (s + n)) = moved m d s n := by
  induction n generalizing m with
  | zero => exact (moved_zero m d s).symm
  | succ n ih =>
    rw [← Nat.add_assoc, ← Nat.add_assoc, copyDown, back_ptr_succ (by omega), back_ptr_succ (by omega),
      ih (by omega) (by omega) (by omega), ptr_of_lt (by omega), ptr_of_lt (by omega)]
    exact moved_last (by omega)

theorem kernelMemmove_eq (hd : d + n ≤ 2 ^ 64) (hs : s + n ≤ 2 ^ 64) (hn : n < 2 ^ 32) :
    kernelMemmove m d s (.ofNat n) = moved m d s n := by
  have hn : (UInt32.ofNat n).toNat = n := UInt32.toNat_ofNat_of_lt' hn
  unfold kernelMemmove
  rw [hn]
  split_ifs with h
  · exact copyDown_eq hd hs (.inl h.1.le)
  · -- `s + n` does not wrap around when `s` is below `d`
    have hdir : d ≤ s ∨ s + n ≤ d := by
      unfold ptr at h
      omega
    rcases Nat.eq_zero_or_pos n with rfl | hpos
    · exact (moved_zero m d s).symm
    · rw [← copyUp_eq hd hs hdir, ptr_of_lt (by omega), ptr_of_lt (by omega)]

theorem memmove_eq (hd : d + n ≤ 2 ^ 64) (hs : s + n ≤ 2 ^ 64) (hn : n < 2 ^ 31) :
    memmove m d s (.ofNat n) = moved m d s n := by
  have hn : (Int32.ofNat n).toInt = n := Int32.toInt_ofNat_of_lt hn
  have hptr : ∀ a : ℕ, (((a : ℤ) + n) % 2 ^ 64).toNat = ptr (a + n) := by
    intro a
    unfold ptr
    omega
  unfold memmove
  rw [hn, Int.toNat_natCast, hptr, hptr]
  split_ifs with h
  · rcases Nat.eq_zero_or_pos n with rfl | hpos
    · exact (moved_zero m d s).symm
    · rw [← copyUp_eq hd hs (.inl (le_of_lt h)), ptr_of_lt (by omega), ptr_of_lt (by omega)]
  · exact copyDown_eq hd hs (.inl (by omega))

/-- **Both `memmove`s copy as if through a buffer of their own**: for ranges that do not wrap around,
however they overlap, the destination has the bytes that the source had, and the rest of memory is as
it was. -/
theorem memmoves_agree (m : Memory) {dst src n : ℕ} (hd : dst + n ≤ 2 ^ 64) (hs : src + n ≤ 2 ^ 64)
    (hn : n < 2 ^ 31) :
    kernelMemmove m dst src (.ofNat n) = memmove m dst src (.ofNat n) ∧
      (∀ i < n, memmove m dst src (.ofNat n) (dst + i) = m (src + i)) ∧
      ∀ a, a < dst ∨ dst + n ≤ a → memmove m dst src (.ofNat n) a = m a := by
  have hk := kernelMemmove_eq (m := m) hd hs (by omega)
  rw [hk, memmove_eq hd hs hn]
  refine ⟨rfl, fun i hi => ?_, fun a ha => if_neg (by omega)⟩
  rw [moved, if_pos (by omega), Nat.add_sub_cancel_left]

/-- Four bytes moved up by one, over themselves. -/
theorem memmoves_agree_overlap :
    kernelMemmove (.ofNat ·) 11 10 (.ofNat 4) = memmove (.ofNat ·) 11 10 (.ofNat 4) ∧
      (∀ i < 4, memmove (.ofNat ·) 11 10 (.ofNat 4) (11 + i) = .ofNat (10 + i)) ∧
      ∀ a, a < 11 ∨ 11 + 4 ≤ a → memmove (.ofNat ·) 11 10 (.ofNat 4) a = .ofNat a :=
  memmoves_agree (.ofNat ·) (by decide) (by decide) (by decide)

end Xv6.User

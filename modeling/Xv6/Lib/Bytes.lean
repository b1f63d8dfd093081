import Mathlib

/-!
# Byte memories

A memory of `n` bytes, and little-endian fields in it.

* `load`, `store`: the field of `len` bytes at offset `off`; **`load_store_same`**,
  **`load_store_of_disjoint`**: what a field reads after a store.
* `storeWords`: an array of 32-bit words; `load_storeWords`.
* `slice`, `splice`: a part of the memory; `slice_splice_same`, `slice_splice_of_disjoint`.
* `bit`, `setBit`, `clearBit`: a bit of a bitmap; `bit_setBit`, `bit_clearBit`.
-/

namespace Bytes

abbrev Mem (n : ℕ) : Type := Fin n → UInt8

variable {n : ℕ}

/-- The byte at offset `k`; the memory is `0` past its end. -/
def byte (d : Mem n) (k : ℕ) : UInt8 := if h : k < n then d ⟨k, h⟩ else 0

/-- The `len`-byte little-endian number at offset `off`. -/
def load (d : Mem n) (off : ℕ) : ℕ → ℕ
  | 0 => 0
  | len + 1 => load d off len + 256 ^ len * (byte d (off + len)).toNat

/-- Store the low `len` bytes of `v`, little-endian, at offset `off`. -/
def store (d : Mem n) (off len v : ℕ) : Mem n := fun k =>
  if off ≤ k ∧ (k : ℕ) < off + len then UInt8.ofNat (v / 256 ^ ((k : ℕ) - off)) else d k

theorem byte_store_of_mem {d : Mem n} {off len v k : ℕ} (hk : k < n) (h₁ : off ≤ k)
    (h₂ : k < off + len) : byte (store d off len v) k = UInt8.ofNat (v / 256 ^ (k - off)) := by
  rw [byte, dif_pos hk, store, if_pos ⟨h₁, h₂⟩]

theorem byte_store_of_notMem {d : Mem n} {off len v k : ℕ} (h : k < off ∨ off + len ≤ k) :
    byte (store d off len v) k = byte d k := by
  unfold byte
  split_ifs with hk
  · rw [store, if_neg]
    rintro ⟨h₁, h₂⟩
    change off ≤ k at h₁
    change k < off + len at h₂
    omega
  · rfl

theorem load_congr {d d' : Mem n} {off len : ℕ}
    (h : ∀ k, off ≤ k → k < off + len → byte d k = byte d' k) : load d off len = load d' off len := by
  induction len with
  | zero => rfl
  | succ len ih =>
    rw [load, load, ih fun k h₁ h₂ => h k h₁ (by omega), h (off + len) (by omega) (by omega)]

theorem load_zero (off len : ℕ) : load (fun _ => 0 : Mem n) off len = 0 := by
  have hbyte : ∀ k, byte (fun _ => 0 : Mem n) k = 0 := fun k => by
    unfold byte
    split_ifs <;> rfl
  induction len with
  | zero => rfl
  | succ len ih => rw [load, ih, hbyte]; simp

theorem load_lt (d : Mem n) (off len : ℕ) : load d off len < 256 ^ len := by
  induction len with
  | zero => exact Nat.one_pos
  | succ len ih =>
    have hb : (byte d (off + len)).toNat ≤ 255 := Nat.lt_succ_iff.1 (UInt8.toNat_lt _)
    calc load d off (len + 1) = load d off len + 256 ^ len * (byte d (off + len)).toNat := rfl
      _ < 256 ^ len + 256 ^ len * 255 := Nat.add_lt_add_of_lt_of_le ih (Nat.mul_le_mul_left _ hb)
      _ = 256 ^ (len + 1) := by ring

/-- The first `m` bytes of a longer store are a store of `m` bytes. -/
theorem load_store_of_le {d : Mem n} {off len v : ℕ} (h : off + len ≤ n) {m : ℕ} (hm : m ≤ len) :
    load (store d off len v) off m = v % 256 ^ m := by
  induction m with
  | zero => rw [load, pow_zero, Nat.mod_one]
  | succ m ih =>
    rw [load, ih (by omega), byte_store_of_mem (by omega) (by omega) (by omega),
      Nat.add_sub_cancel_left, UInt8.toNat_ofNat', pow_succ 256 m, Nat.mod_mul (x := v)]

theorem load_store_same {d : Mem n} {off len v : ℕ} (h : off + len ≤ n) :
    load (store d off len v) off len = v % 256 ^ len :=
  load_store_of_le h le_rfl

theorem load_store_of_disjoint {d : Mem n} {off len v off' len' : ℕ}
    (h : off' + len' ≤ off ∨ off + len ≤ off') :
    load (store d off len v) off' len' = load d off' len' :=
  load_congr fun k h₁ h₂ => byte_store_of_notMem (by omega)

/-! ## Arrays of words -/

/-- Store 32-bit words one after the other from offset `off` on. -/
def storeWords (d : Mem n) (off : ℕ) : List ℕ → Mem n
  | [] => d
  | w :: l => storeWords (store d off 4 w) (off + 4) l

theorem load_storeWords_of_le {d : Mem n} {off : ℕ} {l : List ℕ} {o len : ℕ} (h : o + len ≤ off) :
    load (storeWords d off l) o len = load d o len := by
  induction l generalizing d off with
  | nil => rfl
  | cons w l ih => rw [storeWords, ih (by omega), load_store_of_disjoint (.inl h)]

theorem load_storeWords {d : Mem n} {off : ℕ} {l : List ℕ} (h : off + 4 * l.length ≤ n)
    (hw : ∀ w ∈ l, w < 2 ^ 32) {j : ℕ} (hj : j < l.length) :
    load (storeWords d off l) (off + 4 * j) 4 = l[j] := by
  induction l generalizing d off j with
  | nil => exact absurd hj (Nat.not_lt_zero j)
  | cons w l ih =>
    rw [List.length_cons] at h hj
    rw [storeWords]
    cases j with
    | zero =>
      rw [load_storeWords_of_le (by omega), Nat.mul_zero, Nat.add_zero, load_store_same (by omega)]
      exact Nat.mod_eq_of_lt (hw w List.mem_cons_self)
    | succ j =>
      rw [show off + 4 * (j + 1) = off + 4 + 4 * j by omega,
        ih (by omega) (fun v hv => hw v (List.mem_cons_of_mem _ hv)) (by omega)]
      rfl

/-! ## Parts -/

def slice (d : Mem n) (off m : ℕ) : Mem m := fun k => byte d (off + k)

def splice (d : Mem n) (off : ℕ) {m : ℕ} (x : Mem m) : Mem n := fun k =>
  if off ≤ k then if h : (k : ℕ) - off < m then x ⟨k - off, h⟩ else d k else d k

theorem slice_splice_same {d : Mem n} {off m : ℕ} {x : Mem m} (h : off + m ≤ n) :
    slice (splice d off x) off m = x := by
  funext k
  have hk : off + (k : ℕ) < n := by omega
  rw [slice, byte, dif_pos hk, splice, if_pos (Nat.le_add_right off k)]
  simp

theorem byte_splice_of_notMem {d : Mem n} {off m k : ℕ} {x : Mem m}
    (h : k < off ∨ off + m ≤ k) : byte (splice d off x) k = byte d k := by
  unfold byte
  split_ifs with hk
  · unfold splice
    split_ifs with h₁ h₂
    · change off ≤ k at h₁
      change k - off < m at h₂
      omega
    · rfl
    · rfl
  · rfl

theorem slice_splice_of_disjoint {d : Mem n} {off m o len : ℕ} {x : Mem m}
    (h : o + len ≤ off ∨ off + m ≤ o) : slice (splice d off x) o len = slice d o len := by
  funext k
  exact byte_splice_of_notMem (by omega)

/-! ## Bitmaps -/

def mask (i : ℕ) : UInt8 := 1 <<< UInt8.ofNat (i % 8)

def bit (d : Mem n) (i : ℕ) : Bool := byte d (i / 8) &&& mask i != 0

def setByte (d : Mem n) (k : ℕ) (x : UInt8) : Mem n := fun j => if (j : ℕ) = k then x else d j

def setBit (d : Mem n) (i : ℕ) : Mem n := setByte d (i / 8) (byte d (i / 8) ||| mask i)

def clearBit (d : Mem n) (i : ℕ) : Mem n := setByte d (i / 8) (byte d (i / 8) &&& ~~~mask i)

theorem byte_setByte {d : Mem n} {k j : ℕ} {x : UInt8} (hk : k < n) :
    byte (setByte d k x) j = if j = k then x else byte d j := by
  by_cases hjk : j = k
  · subst hjk
    rw [byte, dif_pos hk, setByte, if_pos rfl, if_pos rfl]
  · rw [if_neg hjk]
    unfold byte
    split_ifs with hj
    · rw [setByte, if_neg hjk]
    · rfl

theorem toNat_mask (i : ℕ) : (mask i).toNat = 2 ^ (i % 8) := by
  have h : i % 8 < 8 := Nat.mod_lt i (by decide)
  unfold mask
  generalize i % 8 = j at h
  interval_cases j <;> rfl

theorem bit_eq (d : Mem n) (i : ℕ) : bit d i = (byte d (i / 8)).toNat.testBit (i % 8) := by
  have h : (byte d (i / 8) &&& mask i).toNat =
      ((byte d (i / 8)).toNat.testBit (i % 8)).toNat * 2 ^ (i % 8) := by
    rw [UInt8.toNat_and, toNat_mask, Nat.and_two_pow]
  cases hb : (byte d (i / 8)).toNat.testBit (i % 8) with
  | false =>
    rw [hb, Bool.toNat_false, Nat.zero_mul] at h
    have h0 : byte d (i / 8) &&& mask i = 0 := UInt8.toNat_inj.1 h
    simp [bit, h0]
  | true =>
    rw [hb, Bool.toNat_true, Nat.one_mul] at h
    have h0 : byte d (i / 8) &&& mask i ≠ 0 := fun e => by
      rw [e] at h
      exact absurd h (Nat.two_pow_pos _).ne
    simp [bit, h0]

theorem testBit_or_mask (x : UInt8) (i k : ℕ) :
    (x ||| mask i).toNat.testBit k = (x.toNat.testBit k || decide (i % 8 = k)) := by
  rw [UInt8.toNat_or, toNat_mask, Nat.testBit_or, Nat.testBit_two_pow]

theorem testBit_and_not_mask (x : UInt8) (i k : ℕ) :
    (x &&& ~~~mask i).toNat.testBit k = (x.toNat.testBit k && !decide (i % 8 = k)) := by
  have hm : (mask i).toBitVec.getLsbD k = decide (i % 8 = k) := by
    rw [← BitVec.testBit_toNat, UInt8.toNat_toBitVec, toNat_mask, Nat.testBit_two_pow]
  have hx : x.toNat.testBit k = x.toBitVec.getLsbD k := by
    rw [← BitVec.testBit_toNat, UInt8.toNat_toBitVec]
  rw [← UInt8.toNat_toBitVec, BitVec.testBit_toNat, UInt8.toBitVec_and, UInt8.toBitVec_not,
    BitVec.getLsbD_and, BitVec.getLsbD_not, hm, hx]
  by_cases hk : k < 8
  · simp [hk]
  · rw [BitVec.getLsbD_of_ge _ _ (by omega)]
    simp

theorem bit_setBit {d : Mem n} {i j : ℕ} (hi : i / 8 < n) :
    bit (setBit d i) j = (bit d j || decide (i = j)) := by
  rw [bit_eq, bit_eq, setBit, byte_setByte hi]
  split_ifs with h
  · rw [h, testBit_or_mask]
    congr 1
    exact decide_eq_decide.2 (by omega)
  · have hne : ¬ i = j := fun e => h (by rw [e])
    simp [hne]

theorem bit_clearBit {d : Mem n} {i j : ℕ} (hi : i / 8 < n) :
    bit (clearBit d i) j = (bit d j && !decide (i = j)) := by
  rw [bit_eq, bit_eq, clearBit, byte_setByte hi]
  split_ifs with h
  · rw [h, testBit_and_not_mask]
    congr 2
    exact decide_eq_decide.2 (by omega)
  · have hne : ¬ i = j := fun e => h (by rw [e])
    simp [hne]

end Bytes

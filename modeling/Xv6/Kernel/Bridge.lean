import Xv6.Kernel.Exec
import Xv6.Vm.Copies
import Xv6.Fs.ReadBack

/-!
# What the file system and `exec` see

The file system sees user memory as a map of pages, and `exec` sees a file as a list of bytes. Both stand for other
parts of the kernel.

* `userMem`: user memory as a page table shows it. **`copyin_userMem`**, **`copyout_userMem`**: on it the copies of
  `Xv6.Fs.Code` do what those of `Xv6.Vm.Code` do.
* **`readi_content`**: `readi` of a locked file is `Content.readi` of its contents.
-/

namespace Xv6.Kernel

open Prog Vm
open Icache (Ip)

/-! ## User memory -/

def userMem (m : Mem) (r : ℕ) : Fs.UserMem := fun v =>
  match walkaddr r (v * pgsize) m with
  | .ok (pa, _) => if pa = 0 then none else some fun i => m.byte (pa + i)
  | .error _ => none

/-- The buffer `d` with the bytes `l` from offset `off` on. -/
def put (d : Block) (off : ℕ) (l : List UInt8) : Block := Fs.memmove d off l.length fun i => l.getD i 0

theorem put_nil (d : Block) (off : ℕ) : put d off [] = d := funext fun i => if_neg (by simp)

theorem put_append (d : Block) (off : ℕ) (l l' : List UInt8) :
    put (put d off l) (off + l.length) l' = put d off (l ++ l') := by
  funext i
  simp only [put, Fs.memmove, List.length_append]
  split_ifs
  all_goals grind

theorem memmove_read (m : Mem) (d : Block) (off a n : ℕ) :
    (Fs.memmove d off n fun i => m.byte (a + i)) = put d off (m.read a n) := by
  funext i
  simp only [put, Fs.memmove, Mem.read, List.length_map, List.length_range]
  split_ifs with hi
  · rw [List.getD_eq_getElem _ _ (by simp; omega)]
    simp
  · rfl

section

variable [Image] {m : Mem} {r : ℕ} {T : Tab} (h : UserTable m r T)
include h

theorem walkaddr_userMem (va : ℕ) : (userMem m r).walkaddr va =
    if T.addr va = 0 then none else some fun i => m.byte (T.addr va + i) := by
  have hpage : T.addr (va / pgsize * pgsize) = T.addr va := T.addr_congr (Nat.mul_div_cancel _ (by decide))
  rw [Fs.UserMem.walkaddr, userMem, h.walkaddr, hpage]
  by_cases hva : va ≥ maxva
  · rw [if_pos hva, if_pos]
    exact if_neg (not_lt.2 hva)
  · rw [if_neg hva]

theorem reaches_userMem (va i : ℕ) : (Fs.Dest.user (userMem m r) va).Reaches i ↔ T.addr (va + i) ≠ 0 := by
  change (((userMem m r).walkaddr _).map _).isSome ↔ _
  rw [walkaddr_userMem h]
  split_ifs with ha <;> simp [ha]

theorem copyinLoop_userMem {fuel len : ℕ} (hfuel : len ≤ fuel) (d : Block) (off va : ℕ) :
    Fs.copyinLoop (userMem m r) fuel d off va len =
      (put d off (copyinBytes m r va len).2, (copyinBytes m r va len).1) := by
  induction fuel generalizing len d off va with
  | zero =>
    obtain rfl : len = 0 := Nat.le_zero.1 hfuel
    rw [copyinBytes, put_nil]
    rfl
  | succ fuel ih =>
    rw [Fs.copyinLoop, walkaddr_userMem h]
    by_cases hzero : len = 0
    · rw [if_pos hzero, hzero, copyinBytes, put_nil]
    rw [if_neg hzero]
    by_cases ha : T.addr va = 0
    · obtain ⟨len, rfl⟩ := Nat.exists_eq_succ_of_ne_zero hzero
      rw [copyinBytes, h.userByte_eq, if_pos ha, if_pos ha, put_nil]
    · -- both take the bytes up to the end of the page
      set n := min (pgsize - va % pgsize) len with hn
      have hmod : va % pgsize < pgsize := Nat.mod_lt va (by decide)
      have hsplit := copyinBytes_page h (len - n) n (turn_cases (h.addr ha).1 len).2.1 fun _ => ha
      have hread := memmove_read m d off (T.addr va + va % pgsize) n
      have hlen : (m.read (T.addr va + va % pgsize) n).length = n := by simp [Mem.read]
      rw [Nat.add_sub_cancel' (Nat.min_le_right _ _)] at hsplit
      simp only [Nat.add_assoc] at hread hlen hsplit
      rw [if_neg ha]
      simp only [hread]
      rw [ih (by omega), hsplit, ← put_append, hlen]

/-- **`copyin`**: the file system's buffer gets the bytes that `copyin` copies, also if it fails. -/
theorem copyin_userMem (d : Block) (off va len : ℕ) : ∃ ok bytes,
    copyin r [] va len m = .ok ((ok, bytes), m) ∧ Fs.copyin (userMem m r) d off va len = (put d off bytes, ok) :=
  ⟨_, _, copyin_eq h [] va len, copyinLoop_userMem h le_rfl d off va⟩

/-- **`copyout`**: the file system counts the bytes that `copyout` copies, also if it fails. -/
theorem copyout_userMem (va : ℕ) (src : List UInt8) : ∃ k ok m',
    Fs.copyout (userMem m r) va src.length = (k, ok) ∧ copyout r va src m = .ok (ok, m') ∧
    copyoutBytes r va (src.take k) m = .ok (true, m') := by
  obtain ⟨k, m', hrun, hk, hall, hstop, htake⟩ := copyoutBytes_run src h va
  have hspec : Fs.Stored (Fs.Dest.user (userMem m r) va).Reaches src.length (Fs.copyout (userMem m r) va src.length).1
    (Fs.copyout (userMem m r) va src.length).2 := Fs.copyoutLoop_spec le_rfl
  rcases hout : Fs.copyout (userMem m r) va src.length with ⟨k', ok⟩
  rw [hout] at hspec
  obtain ⟨hle, hreach, hfull, hend⟩ := hspec
  obtain rfl : k' = k := by
    rcases Nat.lt_trichotomy k' k with hlt | heq | hlt
    · cases ok with
      | true => exact absurd (hfull rfl) (by omega)
      | false => exact absurd ((reaches_userMem h va k').2 (hall k' hlt)) (hend rfl).2
    · exact heq
    · exact absurd (hstop (by omega)) ((reaches_userMem h va k).1 (hreach k hlt))
  have hok : decide (k' = src.length) = ok := by
    cases ok with
    | true => exact decide_eq_true (hfull rfl)
    | false => exact decide_eq_false (hend rfl).1.ne
  exact ⟨k', ok, m', rfl, by rw [copyout_eq h, hrun, hok], htake⟩

end

/-! ## Files -/

/-- What `readi` returns and copies. -/
def readResult : Option (List UInt8) → ℤ × List UInt8
  | none => (-1, [])
  | some bytes => (bytes.length, bytes)

theorem reads_content {f : Content} {off n : ℕ} {r : ℤ} {out : List UInt8} (hoff : off < 2 ^ 32) (hn : n < 2 ^ 32)
    (h : Fs.Reads Fs.Dest.kernel.Reaches f.bytes off n r out) : (r, out) = readResult (f.readi off n) := by
  unfold Content.readi
  split_ifs with hbad
  · obtain ⟨rfl, rfl⟩ := h.error (by omega)
    rfl
  · have hsum : off + n < 2 ^ 32 := by omega
    rw [h.all hsum fun _ _ => trivial, (h.bytes (by omega) hsum).1, readResult, List.length_take, List.length_drop]

/-- **`readi` of a locked file** into kernel memory. -/
theorem readi_content {L : Layout} {e : Ip} {γ : Fs.Knows} {w : Fs.Watched} {X : Fs.Watched → Prop} {f : Content}
    (hw : γ.At L e w) (hγ : γ.Ready L) (hbuf : γ.buf = fun _ => none) (hf : f.bytes = γ.contents) (off n : UInt32) :
    Among (Fs.Others L e) (Fs.Watched.handle L) X (Fs.readi L.toSuperblock e .kernel off n)
      (fun x w' => γ.At L e w' ∧ x = readResult (f.readi off.toNat n.toNat)) w := by
  refine (Fs.among_readi .kernel hw hγ hbuf).mono ?_
  rintro x w' ⟨hw', hread⟩
  rw [← hf] at hread
  exact ⟨hw', reads_content off.toNat_lt n.toNat_lt hread⟩

end Xv6.Kernel

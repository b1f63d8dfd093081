import Xv6.Fs.Solo

/-!
# Copies between files and user memory

What `copyin` and `copyout` of `kernel/vm.c` do to a buffer, as `readi` and `writei` use them.

* `UserMem.byteAt`: a byte of user memory, if its page is mapped; `Source.byteAt`, `Dest.Reaches`: the same
  for what `readi` and `writei` are given.
* `contents`: a file as a list of bytes; `overwrite`: what a write does to it.
* **`eitherCopyin_spec`**: the copy succeeds if and only if every byte of the source is there; the buffer
  changes nowhere else.
* **`eitherCopyout_spec`**: how many bytes reach the destination.
-/

namespace Xv6.Fs

open Bytes

def UserMem.byteAt (mem : UserMem) (va : ℕ) : Option UInt8 :=
  (mem.walkaddr va).map fun page => page (va % pgsize)

def Source.byteAt : Source → ℕ → Option UInt8
  | user mem va, i => mem.byteAt (va + i)
  | kernel bytes, i => some (bytes i)

/-- Byte `i` of the destination can be stored. -/
def Dest.Reaches : Dest → ℕ → Prop
  | user mem va, i => (mem.byteAt (va + i)).isSome
  | kernel, _ => True

theorem Source.byteAt_advance (src : Source) (m i : ℕ) :
    (src.advance m).byteAt i = src.byteAt (m + i) := by
  cases src with
  | user mem va =>
    change mem.byteAt (va + m + i) = mem.byteAt (va + (m + i))
    rw [Nat.add_assoc]
  | kernel bytes => rfl

theorem Dest.reaches_advance (dst : Dest) (m i : ℕ) :
    (dst.advance m).Reaches i ↔ dst.Reaches (m + i) := by
  cases dst with
  | user mem va =>
    change (mem.byteAt (va + m + i)).isSome ↔ (mem.byteAt (va + (m + i))).isSome
    rw [Nat.add_assoc]
  | kernel => rfl

def Source.Gives (src : Source) (l : List UInt8) : Prop := ∀ i < l.length, src.byteAt i = l[i]?

theorem Source.Gives.isSome {src : Source} {l : List UInt8} (h : src.Gives l) {i : ℕ} (hi : i < l.length) :
    (src.byteAt i).isSome := by
  rw [h i hi, List.getElem?_eq_getElem hi]
  rfl

theorem Source.Gives.append {src : Source} {l l' : List UInt8} :
    src.Gives (l ++ l') ↔ src.Gives l ∧ (src.advance l.length).Gives l' := by
  refine ⟨fun h => ⟨fun i hi => ?_, fun i hi => ?_⟩, fun ⟨h, h'⟩ i hi => ?_⟩
  · rw [h i (by rw [List.length_append]; omega), List.getElem?_append_left hi]
  · rw [src.byteAt_advance, h _ (by rw [List.length_append]; omega),
      List.getElem?_append_right (Nat.le_add_right _ _), Nat.add_sub_cancel_left]
  · by_cases hil : i < l.length
    · rw [List.getElem?_append_left hil, h i hil]
    · have hle := not_lt.1 hil
      rw [List.length_append] at hi
      rw [List.getElem?_append_right hle, ← h' (i - l.length) (by omega), src.byteAt_advance,
        Nat.add_sub_of_le hle]

/-! ## Contents -/

def contents (blk : ℕ → Block) (v : Dinode) : List UInt8 := fileBytes blk v 0 v.size.toNat

def overwrite {α : Type} (l : List α) (off : ℕ) (data : List α) : List α :=
  l.take off ++ data ++ l.drop (off + data.length)

theorem length_contents (blk : ℕ → Block) (v : Dinode) : (contents blk v).length = v.size.toNat := by
  rw [contents, fileBytes, List.length_map, List.length_range]

theorem getElem?_contents {blk : ℕ → Block} {v : Dinode} {j : ℕ} (hj : j < v.size.toNat) :
    (contents blk v)[j]? = some (fileByte blk v j) := by
  rw [contents, fileBytes, List.getElem?_map, List.getElem?_range hj, Option.map_some, Nat.zero_add]

section Overwrite

variable {α : Type} {l data : List α} {off : ℕ} (hoff : off ≤ l.length)
include hoff

theorem length_overwrite : (overwrite l off data).length = max l.length (off + data.length) := by
  rw [overwrite, List.length_append, List.length_append, List.length_take, List.length_drop]
  omega

theorem getElem?_overwrite (j : ℕ) : (overwrite l off data)[j]? =
    if off ≤ j ∧ j < off + data.length then data[j - off]? else l[j]? := by
  have htake : (l.take off).length = off := List.length_take_of_le hoff
  rw [overwrite]
  by_cases hlt : j < off
  · rw [if_neg (by omega), List.append_assoc, List.getElem?_append_left (by omega),
      List.getElem?_take_of_lt hlt]
  by_cases hmid : j < off + data.length
  · rw [if_pos (by omega), List.getElem?_append_left (by rw [List.length_append]; omega),
      List.getElem?_append_right (by omega), htake]
  · rw [if_neg (by omega), List.getElem?_append_right (by rw [List.length_append]; omega),
      List.length_append, htake, List.getElem?_drop, Nat.add_sub_of_le (not_lt.1 hmid)]

theorem overwrite_overwrite (data data' : List α) :
    overwrite (overwrite l off data) (off + data.length) data' = overwrite l off (data ++ data') := by
  have hoff' : off + data.length ≤ (overwrite l off data).length := by
    rw [length_overwrite hoff]
    exact Nat.le_max_right _ _
  refine List.ext_getElem? fun j => ?_
  rw [getElem?_overwrite hoff', getElem?_overwrite hoff, getElem?_overwrite hoff, List.length_append]
  by_cases h₁ : j < off
  · rw [if_neg (by omega), if_neg (by omega), if_neg (by omega)]
  by_cases h₂ : j < off + data.length
  · rw [if_neg (by omega), if_pos (by omega), if_pos (by omega), List.getElem?_append_left (by omega)]
  by_cases h₃ : j < off + data.length + data'.length
  · rw [if_pos (by omega), if_pos (by omega), List.getElem?_append_right (by omega)]
    congr 1
    omega
  · rw [if_neg (by omega), if_neg (by omega), if_neg (by omega)]

omit hoff in
theorem overwrite_nil : overwrite l off [] = l := by
  rw [overwrite, List.append_nil, List.length_nil, Nat.add_zero, List.take_append_drop]

end Overwrite

/-! ## Pages -/

section Page

variable {mem : UserMem} {va i : ℕ}

theorem page_of_lt (hi : i < pgsize - va % pgsize) :
    (va + i) / pgsize = va / pgsize ∧ (va + i) % pgsize = va % pgsize + i := by
  change i < 4096 - va % 4096 at hi
  change (va + i) / 4096 = va / 4096 ∧ (va + i) % 4096 = va % 4096 + i
  omega

theorem walkaddr_of_lt (hi : i < pgsize - va % pgsize) : mem.walkaddr (va + i) = mem.walkaddr va := by
  have hmax : va + i ≥ maxva ↔ va ≥ maxva := by
    change i < 4096 - va % 4096 at hi
    change va + i ≥ 274877906944 ↔ va ≥ 274877906944
    omega
  rw [UserMem.walkaddr, UserMem.walkaddr, (page_of_lt hi).1]
  exact if_congr hmax rfl rfl

theorem byteAt_of_lt {page : ℕ → UInt8} (hpage : mem.walkaddr va = some page)
    (hi : i < pgsize - va % pgsize) : mem.byteAt (va + i) = some (page (va % pgsize + i)) := by
  rw [UserMem.byteAt, walkaddr_of_lt hi, hpage, (page_of_lt hi).2]
  rfl

theorem byteAt_eq_none (hpage : mem.walkaddr va = none) : mem.byteAt va = none := by
  rw [UserMem.byteAt, hpage]
  rfl

end Page

theorem lt_maxva_of_byteAt {mem : UserMem} {va : ℕ} (h : (mem.byteAt va).isSome) : va < maxva := by
  by_contra hge
  rw [UserMem.byteAt, UserMem.walkaddr, if_pos (not_lt.1 hge)] at h
  exact Bool.false_ne_true h

/-! ## `copyin` -/

theorem byte_memmove {d : Block} {off n : ℕ} {src : ℕ → UInt8} {k : ℕ} (hk : k < bsize) :
    byte (memmove d off n src) k = if off ≤ k ∧ k < off + n then src (k - off) else byte d k := by
  rw [byte, byte, dif_pos hk, dif_pos hk]
  rfl

/-- What a copy of `len` bytes to offset `off` of buffer `d` leaves there. -/
structure Copied (src : ℕ → Option UInt8) (d : Block) (off len : ℕ) (d' : Block) (ok : Bool) : Prop where
  all : ok = true ↔ ∀ i < len, (src i).isSome
  new : ok = true → ∀ i < len, off + i < bsize → src i = some (byte d' (off + i))
  old : ∀ k < bsize, k < off ∨ off + len ≤ k → byte d' k = byte d k

theorem copyinLoop_spec {mem : UserMem} {fuel : ℕ} {d : Block} {off va len : ℕ} (hfuel : len ≤ fuel) :
    Copied (fun i => mem.byteAt (va + i)) d off len (copyinLoop mem fuel d off va len).1
      (copyinLoop mem fuel d off va len).2 := by
  induction fuel generalizing d off va len with
  | zero =>
    obtain rfl : len = 0 := Nat.le_zero.1 hfuel
    exact ⟨⟨fun _ i hi => absurd hi (Nat.not_lt_zero i), fun _ => rfl⟩,
      fun _ i hi => absurd hi (Nat.not_lt_zero i), fun _ _ _ => rfl⟩
  | succ fuel ih =>
    rw [copyinLoop]
    by_cases hlen : len = 0
    · rw [if_pos hlen, hlen]
      exact ⟨⟨fun _ i hi => absurd hi (Nat.not_lt_zero i), fun _ => rfl⟩,
        fun _ i hi => absurd hi (Nat.not_lt_zero i), fun _ _ _ => rfl⟩
    rw [if_neg hlen]
    cases hpage : mem.walkaddr va with
    | none =>
      refine ⟨⟨fun h => absurd h Bool.false_ne_true, fun h => ?_⟩, fun h => absurd h Bool.false_ne_true,
        fun _ _ _ => rfl⟩
      have h0 : (mem.byteAt va).isSome := h 0 (Nat.pos_of_ne_zero hlen)
      rw [byteAt_eq_none hpage] at h0
      exact absurd h0 Bool.false_ne_true
    | some page =>
      set n := min (pgsize - va % pgsize) len with hn
      set d₁ := memmove d off n fun i => page (va % pgsize + i) with hd₁
      have hpos : 0 < pgsize - va % pgsize := Nat.sub_pos_of_lt (Nat.mod_lt _ (by decide))
      have hn1 : 1 ≤ n := by omega
      have hnl : n ≤ len := Nat.min_le_right _ _
      have hhead : ∀ i < n, mem.byteAt (va + i) = some (page (va % pgsize + i)) := fun i hi =>
        byteAt_of_lt hpage (lt_of_lt_of_le hi (Nat.min_le_left _ _))
      have hrest := @ih d₁ (off + n) (va + n) (len - n) (by omega)
      refine ⟨hrest.all.trans ⟨fun h i hi => ?_, fun h i hi => ?_⟩, fun hok i hi hlt => ?_, fun k hk hout => ?_⟩
      · by_cases hin : i < n
        · rw [hhead i hin]
          rfl
        · have hi' := h (i - n) (by omega)
          rwa [Nat.add_assoc, Nat.add_sub_of_le (not_lt.1 hin)] at hi'
      · have hi' := h (n + i) (by omega)
        rwa [← Nat.add_assoc] at hi'
      · by_cases hin : i < n
        · rw [hhead i hin, hrest.old _ hlt (.inl (by omega)), hd₁, byte_memmove hlt, if_pos (by omega),
            Nat.add_sub_cancel_left]
        · have hi' := hrest.new hok (i - n) (by omega) (by omega)
          have h₁ : va + n + (i - n) = va + i := by omega
          have h₂ : off + n + (i - n) = off + i := by omega
          rwa [h₁, h₂] at hi'
      · rw [hrest.old k hk (by omega), hd₁, byte_memmove hk, if_neg (by omega)]

theorem eitherCopyin_spec (d : Block) (off : ℕ) (src : Source) (len : ℕ) :
    Copied src.byteAt d off len (eitherCopyin d off src len).1 (eitherCopyin d off src len).2 := by
  cases src with
  | user mem va => exact copyinLoop_spec le_rfl
  | kernel bytes =>
    refine ⟨⟨fun _ _ _ => rfl, fun _ => rfl⟩, fun _ i hi hlt => ?_, fun k hk hout => ?_⟩
    · change some (bytes i) = some (byte (memmove d off len bytes) (off + i))
      rw [byte_memmove hlt, if_pos (by omega), Nat.add_sub_cancel_left]
    · exact (byte_memmove hk).trans (if_neg (by omega))

/-! ## `copyout` -/

/-- What a copy of `len` bytes to a destination does: `k` bytes reach it. -/
structure Stored (reaches : ℕ → Prop) (len k : ℕ) (ok : Bool) : Prop where
  le : k ≤ len
  reach : ∀ i < k, reaches i
  all : ok = true → k = len
  stop : ok = false → k < len ∧ ¬ reaches k

theorem Stored.nil (reaches : ℕ → Prop) : Stored reaches 0 0 true :=
  ⟨le_rfl, fun i hi => absurd hi (Nat.not_lt_zero i), fun _ => rfl, fun h => absurd h Bool.noConfusion⟩

theorem Stored.append {dst : Dest} {m n k : ℕ} {ok : Bool} (h : Stored dst.Reaches m m true) (hm : m ≤ n)
    (h' : Stored (dst.advance m).Reaches (n - m) k ok) : Stored dst.Reaches n (m + k) ok := by
  have hle := h'.le
  refine ⟨by omega, fun i hi => ?_, fun hok => ?_, fun hok => ?_⟩
  · by_cases him : i < m
    · exact h.reach i him
    · have hr := (dst.reaches_advance m (i - m)).1 (h'.reach (i - m) (by omega))
      rwa [Nat.add_sub_of_le (Nat.not_lt.1 him)] at hr
  · have := h'.all hok
    omega
  · obtain ⟨hlt, hno⟩ := h'.stop hok
    exact ⟨by omega, fun hr => hno ((dst.reaches_advance m k).2 hr)⟩

theorem copyoutLoop_spec {mem : UserMem} {fuel va len : ℕ} (hfuel : len ≤ fuel) :
    Stored (Dest.user mem va).Reaches len (copyoutLoop mem fuel va len).1 (copyoutLoop mem fuel va len).2 := by
  induction fuel generalizing va len with
  | zero =>
    obtain rfl : len = 0 := Nat.le_zero.1 hfuel
    exact .nil _
  | succ fuel ih =>
    rw [copyoutLoop]
    by_cases hlen : len = 0
    · rw [if_pos hlen, hlen]
      exact .nil _
    rw [if_neg hlen]
    cases hpage : mem.walkaddr va with
    | none =>
      refine ⟨Nat.zero_le _, fun i hi => absurd hi (Nat.not_lt_zero i),
        fun h => absurd h Bool.false_ne_true, fun _ => ⟨Nat.pos_of_ne_zero hlen, ?_⟩⟩
      change ¬ (mem.byteAt va).isSome
      rw [byteAt_eq_none hpage]
      exact Bool.false_ne_true
    | some page =>
      set n := min (pgsize - va % pgsize) len with hn
      have hpos : 0 < pgsize - va % pgsize := Nat.sub_pos_of_lt (Nat.mod_lt _ (by decide))
      have hturn : Stored (Dest.user mem va).Reaches n n true := by
        refine ⟨le_rfl, fun i hi => ?_, fun _ => rfl, fun h => absurd h Bool.noConfusion⟩
        change (mem.byteAt (va + i)).isSome
        rw [byteAt_of_lt hpage (lt_of_lt_of_le hi (Nat.min_le_left _ _))]
        rfl
      exact hturn.append (Nat.min_le_right _ _) (ih (by omega))

theorem eitherCopyout_spec (dst : Dest) (len : ℕ) :
    Stored dst.Reaches len (eitherCopyout dst len).1 (eitherCopyout dst len).2 := by
  cases dst with
  | user mem va => exact copyoutLoop_spec le_rfl
  | kernel => exact ⟨le_rfl, fun _ _ => trivial, fun _ => rfl, fun h => absurd h Bool.noConfusion⟩

end Xv6.Fs

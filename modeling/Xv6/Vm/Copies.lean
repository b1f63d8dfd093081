import Xv6.Vm.Map

/-!
# `copyin`, `copyout` and `copyinstr`

The copies between kernel and user memory go page by page. They do what copying byte by byte would do, with
`walkaddr` asked for every byte.

* `userByte`: the byte that `walkaddr` leads to. `copyinBytes`, `copyinstrBytes`, `copyoutBytes`: the copies byte by
  byte; their addresses are numbers and do not wrap around.
* `UserTable`: what is asked of the page table.
* **`copyin_eq`**, **`copyinstr_eq`**, **`copyout_eq`**: page by page is byte by byte.
* **`copies_agree`**: when each call returns `0`, and what it has copied when it does not.
-/

namespace Xv6.Vm

open Function Bytes Fail Bag

/-! ## Byte by byte -/

/-- The user's byte at an address, if `walkaddr` finds its page. -/
def userByte (m : Mem) (r va : ℕ) : Option UInt8 :=
  match walkaddr r va m with
  | .ok (pa, _) => if pa = 0 then none else some (m.byte (pa + va % pgsize))
  | .error _ => none

def copyinBytes (m : Mem) (r : ℕ) : ℕ → ℕ → Bool × List UInt8
  | _, 0 => (true, [])
  | va, n + 1 =>
    match userByte m r va with
    | none => (false, [])
    | some b => ((copyinBytes m r (va + 1) n).1, b :: (copyinBytes m r (va + 1) n).2)

def copyinstrBytes (m : Mem) (r : ℕ) : ℕ → ℕ → Bool × List UInt8
  | _, 0 => (false, [])
  | va, n + 1 =>
    match userByte m r va with
    | none => (false, [])
    | some b =>
      if b = 0 then (true, [0])
      else ((copyinstrBytes m r (va + 1) n).1, b :: (copyinstrBytes m r (va + 1) n).2)

def copyoutBytes (r : ℕ) : ℕ → List UInt8 → MemM Bool
  | _, [] => pure true
  | va, b :: src => do
    let pa ← walkaddr r va
    if pa = 0 then pure false
    else do
      modify (·.write (pa + va % pgsize) [b])
      copyoutBytes r (va + 1) src

section

variable [Image] {m m' : Mem} {r va n : ℕ} {T : Tab}

/-- **A table whose user pages come from the allocator**, and are not its own pages. -/
structure UserTable (m : Mem) (r : ℕ) (T : Tab) : Prop where
  tab : TabOk m r T ValidPte
  user : ∀ v w, T.leaf v = some w → Has w pteU → IsPage (pte2pa w) ∧ pte2pa w ∉ T.nodes

/-- The user may access an address: it lies below `MAXVA`, on a page with `PTE_V` and `PTE_U`. -/
def Accessible (m : Mem) (r va : ℕ) : Prop := va < maxva ∧ ∃ w, lookup m r va = some w ∧ Has w pteU

namespace UserTable

theorem walkaddr (h : UserTable m r T) (va : ℕ) : walkaddr r va m = .ok (T.addr va, m) :=
  walkaddr_valid h.tab (fun _ hw => hw.1) va

theorem userByte_eq (h : UserTable m r T) (va : ℕ) :
    userByte m r va = if T.addr va = 0 then none else some (m.byte (T.addr va + va % pgsize)) := by
  rw [userByte, h.walkaddr]

theorem addr (h : UserTable m r T) (ha : T.addr va ≠ 0) :
    va < maxva ∧ IsPage (T.addr va) ∧ T.addr va ∉ T.nodes := by
  rw [Tab.addr] at ha ⊢
  by_cases hva : va < maxva
  · rw [if_pos hva] at ha ⊢
    cases hw : T.leaf (va / pgsize) with
    | none =>
      rw [hw] at ha
      exact absurd rfl ha
    | some w =>
      rw [hw] at ha
      by_cases hu : Has w pteU
      · simp only [if_pos hu]
        exact ⟨hva, h.user _ w hw hu⟩
      · simp only [if_neg hu] at ha
        exact absurd rfl ha
  · rw [if_neg hva] at ha
    exact absurd rfl ha

theorem accessible_iff (h : UserTable m r T) (va : ℕ) : Accessible m r va ↔ userByte m r va ≠ none := by
  rw [h.userByte_eq]
  constructor
  · rintro ⟨hva, w, hw, hu⟩
    rw [lookup_eq h.tab hva] at hw
    have haddr : T.addr va = pte2pa w := by
      rw [Tab.addr, if_pos hva, hw]
      exact if_pos hu
    rw [haddr, if_neg (h.user _ w hw hu).1.ne_zero]
    exact Option.some_ne_none _
  · intro hne
    have ha : T.addr va ≠ 0 := fun ha => hne (if_pos ha)
    have hva := (h.addr ha).1
    refine ⟨hva, ?_⟩
    rw [lookup_eq h.tab hva]
    rw [Tab.addr, if_pos hva] at ha
    cases hw : T.leaf (va / pgsize) with
    | none =>
      rw [hw] at ha
      exact absurd rfl ha
    | some w =>
      rw [hw] at ha
      refine ⟨w, rfl, ?_⟩
      by_contra hu
      exact ha (if_neg hu)

end UserTable

section

omit [Image]

theorem Tab.addr_congr (T : Tab) {va vb : ℕ} (h : va / pgsize = vb / pgsize) : T.addr va = T.addr vb := by
  have hlt : va < maxva ↔ vb < maxva := by
    simp only [pgsize, maxva] at *
    omega
  rw [Tab.addr, Tab.addr, h]
  exact if_congr hlt rfl rfl

theorem Tab.addr_pgRoundDown (T : Tab) (va : ℕ) : T.addr (pgRoundDown va) = T.addr va := by
  refine T.addr_congr ?_
  simp only [pgRoundDown, pgsize]
  omega

end

section

omit [Image]

theorem same_page (h : va % pgsize + (n + 2) ≤ pgsize) :
    (va + 1) / pgsize = va / pgsize ∧ (va + 1) % pgsize = va % pgsize + 1 := by
  simp only [pgsize] at *
  omega

theorem Mem.read_zero (m : Mem) (a : ℕ) : m.read a 0 = [] := rfl

theorem Mem.read_succ (m : Mem) (a n : ℕ) : m.read a (n + 1) = m.byte a :: m.read (a + 1) n := by
  rw [Mem.read, Mem.read, List.range_succ_eq_map, List.map_cons, List.map_map, Nat.add_zero]
  refine congrArg _ (List.map_congr_left fun i _ => ?_)
  rw [comp_apply, Nat.add_succ, Nat.succ_add]

end

omit [Image] in
/-- What a turn of the loops does with the next address: it stays in the page, or the rest of the page is empty. -/
theorem addr_next (hn : va % pgsize + (n + 1) ≤ pgsize) (ha : T.addr va ≠ 0) :
    (va + 1) % pgsize + n ≤ pgsize ∧ (0 < n → T.addr (va + 1) ≠ 0 ∧
      T.addr (va + 1) + (va + 1) % pgsize = T.addr va + va % pgsize + 1) := by
  cases n with
  | zero => exact ⟨(Nat.mod_lt (va + 1) (show 0 < pgsize by decide)).le, fun hc => absurd hc (Nat.lt_irrefl 0)⟩
  | succ n =>
    have hpage := same_page hn
    rw [T.addr_congr hpage.1, hpage.2]
    exact ⟨by omega, fun _ => ⟨ha, by omega⟩⟩

/-! ## `copyin` -/

theorem copyinBytes_page (h : UserTable m r T) (k n : ℕ) {va : ℕ} (hn : va % pgsize + n ≤ pgsize)
    (ha : 0 < n → T.addr va ≠ 0) : copyinBytes m r va (n + k) =
      ((copyinBytes m r (va + n) k).1, m.read (T.addr va + va % pgsize) n ++ (copyinBytes m r (va + n) k).2) := by
  induction n generalizing va with
  | zero =>
    rw [Nat.zero_add]
    rfl
  | succ n ih =>
    have ha' := ha n.succ_pos
    obtain ⟨hn', hnext⟩ := addr_next hn ha'
    have hrest := ih hn' fun hpos => (hnext hpos).1
    have hread : m.read (T.addr (va + 1) + (va + 1) % pgsize) n = m.read (T.addr va + va % pgsize + 1) n := by
      cases n with
      | zero => rw [Mem.read_zero, Mem.read_zero]
      | succ n => rw [(hnext n.succ_pos).2]
    rw [show n + 1 + k = n + k + 1 by omega, copyinBytes, h.userByte_eq, if_neg ha']
    simp only [hrest]
    rw [hread, Mem.read_succ, List.cons_append, show va + 1 + n = va + (n + 1) by omega]

omit [Image] in
/-- The bytes up to the end of a page, or all that are left: either none are left after them, or the next page
starts there. -/
theorem turn_cases (hva : va < maxva) (len : ℕ) :
    va - pgRoundDown va = va % pgsize ∧ va % pgsize + min (pgsize - va % pgsize) len ≤ pgsize ∧
      (len - min (pgsize - va % pgsize) len = 0 ∨
        (pgRoundDown va + pgsize) % 2 ^ 64 = va + min (pgsize - va % pgsize) len) := by
  simp only [pgRoundDown, pgsize, maxva] at *
  omega

theorem copyin_eq (h : UserTable m r T) (dst : List UInt8) (srcva len : ℕ) :
    copyin r dst srcva len m =
      .ok (((copyinBytes m r srcva len).1, dst ++ (copyinBytes m r srcva len).2), m) := by
  induction hlen : len using Nat.strong_induction_on generalizing dst srcva len with
  | _ k ih =>
    subst hlen
    rw [copyin]
    by_cases hzero : len = 0
    · subst hzero
      rw [dif_pos rfl, copyinBytes, List.append_nil]
      rfl
    · rw [dif_neg hzero, bind_ok (h.walkaddr _), T.addr_pgRoundDown]
      by_cases ha : T.addr srcva = 0
      · obtain ⟨len, rfl⟩ := Nat.exists_eq_succ_of_ne_zero hzero
        rw [if_pos ha, copyinBytes, h.userByte_eq, if_pos ha, List.append_nil]
        rfl
      · obtain ⟨hoff, hle, hnext⟩ := turn_cases (h.addr ha).1 len
        have hpos : 0 < min (pgsize - srcva % pgsize) len :=
          lt_min (Nat.sub_pos_of_lt (Nat.mod_lt srcva (by decide))) (Nat.pos_of_ne_zero hzero)
        have hsplit := copyinBytes_page h (len - min (pgsize - srcva % pgsize) len) _ hle fun _ => ha
        rw [Nat.add_sub_cancel' (Nat.min_le_right _ _)] at hsplit
        rw [if_neg ha, hoff, hsplit]
        change copyin r (dst ++ m.read (T.addr srcva + srcva % pgsize) (min (pgsize - srcva % pgsize) len))
          ((pgRoundDown srcva + pgsize) % 2 ^ 64) (len - min (pgsize - srcva % pgsize) len) m = _
        rw [ih _ (by omega) _ _ _ rfl, List.append_assoc]
        rcases hnext with hnext | hnext
        · rw [hnext, copyinBytes, copyinBytes]
        · rw [hnext]

/-! ## `copyinstr` -/

omit [Image] in
theorem copyinstrPage_append (m : Mem) (n : ℕ) (p : ℕ) (dst : List UInt8) : copyinstrPage m p n dst =
    ((copyinstrPage m p n []).1, dst ++ (copyinstrPage m p n []).2) := by
  induction n generalizing p dst with
  | zero => simp [copyinstrPage]
  | succ n ih =>
    rw [copyinstrPage, copyinstrPage]
    by_cases hb : m.byte p = 0
    · rw [if_pos hb, if_pos hb, List.nil_append]
    · rw [if_neg hb, if_neg hb, ih, ih _ ([] ++ _), List.append_assoc]
      rfl

theorem copyinstrBytes_page (h : UserTable m r T) (k n : ℕ) {va : ℕ} (hn : va % pgsize + n ≤ pgsize)
    (ha : 0 < n → T.addr va ≠ 0) : copyinstrBytes m r va (n + k) =
      match copyinstrPage m (T.addr va + va % pgsize) n [] with
      | (true, l) => (true, l)
      | (false, l) => ((copyinstrBytes m r (va + n) k).1, l ++ (copyinstrBytes m r (va + n) k).2) := by
  induction n generalizing va with
  | zero =>
    rw [Nat.zero_add, copyinstrPage]
    rfl
  | succ n ih =>
    have ha' := ha n.succ_pos
    obtain ⟨hn', hnext⟩ := addr_next hn ha'
    have hrest := ih hn' fun hpos => (hnext hpos).1
    have hpage : copyinstrPage m (T.addr (va + 1) + (va + 1) % pgsize) n [] =
        copyinstrPage m (T.addr va + va % pgsize + 1) n [] := by
      cases n with
      | zero => rw [copyinstrPage, copyinstrPage]
      | succ n => rw [(hnext n.succ_pos).2]
    rw [hpage, show va + 1 + n = va + (n + 1) by omega] at hrest
    rw [show n + 1 + k = n + k + 1 by omega, copyinstrBytes, h.userByte_eq, if_neg ha', copyinstrPage]
    by_cases hb : m.byte (T.addr va + va % pgsize) = 0
    · simp only [if_pos hb, List.nil_append]
    · simp only [if_neg hb, hrest, List.nil_append]
      rw [copyinstrPage_append m n _ [_]]
      cases copyinstrPage m (T.addr va + va % pgsize + 1) n [] with
      | mk ok l =>
        cases ok with
        | true => rfl
        | false => rfl

theorem copyinstr_eq (h : UserTable m r T) (dst : List UInt8) (srcva len : ℕ) :
    copyinstr r dst srcva len m =
      .ok (((copyinstrBytes m r srcva len).1, dst ++ (copyinstrBytes m r srcva len).2), m) := by
  induction hlen : len using Nat.strong_induction_on generalizing dst srcva len with
  | _ k ih =>
    subst hlen
    rw [copyinstr]
    by_cases hzero : len = 0
    · subst hzero
      rw [dif_pos rfl, copyinstrBytes, List.append_nil]
      rfl
    · rw [dif_neg hzero, bind_ok (h.walkaddr _), T.addr_pgRoundDown]
      by_cases ha : T.addr srcva = 0
      · obtain ⟨len, rfl⟩ := Nat.exists_eq_succ_of_ne_zero hzero
        rw [if_pos ha, copyinstrBytes, h.userByte_eq, if_pos ha, List.append_nil]
        rfl
      · obtain ⟨hoff, hle, hnext⟩ := turn_cases (h.addr ha).1 len
        have hpos : 0 < min (pgsize - srcva % pgsize) len :=
          lt_min (Nat.sub_pos_of_lt (Nat.mod_lt srcva (by decide))) (Nat.pos_of_ne_zero hzero)
        have hsplit := copyinstrBytes_page h (len - min (pgsize - srcva % pgsize) len) _ hle fun _ => ha
        rw [Nat.add_sub_cancel' (Nat.min_le_right _ _)] at hsplit
        rw [if_neg ha, hoff, hsplit]
        change (match copyinstrPage m (T.addr srcva + srcva % pgsize) (min (pgsize - srcva % pgsize) len) dst with
          | (true, dst) => pure (true, dst)
          | (false, dst) => copyinstr r dst ((pgRoundDown srcva + pgsize) % 2 ^ 64)
            (len - min (pgsize - srcva % pgsize) len) : MemM (Bool × List UInt8)) m = _
        rw [copyinstrPage_append]
        cases copyinstrPage m (T.addr srcva + srcva % pgsize) (min (pgsize - srcva % pgsize) len) [] with
        | mk ok l =>
          cases ok with
          | true => rfl
          | false =>
            change copyinstr r (dst ++ l) ((pgRoundDown srcva + pgsize) % 2 ^ 64)
              (len - min (pgsize - srcva % pgsize) len) m = _
            rw [ih _ (by omega) _ _ _ rfl, List.append_assoc]
            rcases hnext with hnext | hnext
            · rw [hnext, copyinstrBytes, copyinstrBytes]
            · rw [hnext]

/-! ## `copyout` -/

section

omit [Image]

theorem splice_apply (d : Page) (o : ℕ) (src : List UInt8) (k : Fin pgsize) :
    splice d o (fun i : Fin src.length => src.get i) k =
      if o ≤ k then (src[(k : ℕ) - o]?).getD (d k) else d k := by
  rw [splice]
  by_cases ho : o ≤ (k : ℕ)
  · rw [if_pos ho, if_pos ho]
    by_cases hlt : (k : ℕ) - o < src.length
    · rw [dif_pos hlt, List.getElem?_eq_getElem hlt]
      rfl
    · rw [dif_neg hlt, List.getElem?_eq_none (Nat.le_of_not_lt hlt)]
      rfl
  · rw [if_neg ho, if_neg ho]

theorem splice_nil (d : Page) (o : ℕ) : splice d o (fun i : Fin ([] : List UInt8).length => [].get i) = d := by
  funext k
  rw [splice_apply]
  simp

theorem splice_cons (d : Page) (o : ℕ) (b : UInt8) (src : List UInt8) :
    splice d o (fun i : Fin (b :: src).length => (b :: src).get i) =
      splice (splice d o fun i : Fin [b].length => [b].get i) (o + 1) fun i : Fin src.length => src.get i := by
  funext k
  rw [splice_apply, splice_apply, splice_apply]
  by_cases hlt : o + 1 ≤ (k : ℕ)
  · have hk : (k : ℕ) - o = (k : ℕ) - (o + 1) + 1 := by omega
    rw [if_pos hlt, if_pos (by omega), if_pos (by omega), hk]
    simp
  · rw [if_neg hlt]
    by_cases ho : o ≤ (k : ℕ)
    · have hk : (k : ℕ) - o = 0 := by omega
      rw [if_pos ho, if_pos ho, hk]
      rfl
    · rw [if_neg ho, if_neg ho]

theorem Mem.setPage_setPage (m : Mem) (p : ℕ) (d d' : Page) : (m.setPage p d).setPage p d' = m.setPage p d' := by
  rw [Mem.setPage, Mem.setPage, Mem.setPage, update_idem]

end

omit [Image] in
theorem Mem.write_nil (m : Mem) (a : ℕ) : m.write a [] = m := by
  rw [Mem.write, splice_nil, Mem.setPage, update_eq_self]

omit [Image] in
theorem Mem.write_cons (m : Mem) {a : ℕ} (b : UInt8) (src : List UInt8)
    (ha : a % pgsize + (src.length + 1) ≤ pgsize) : m.write a (b :: src) = (m.write a [b]).write (a + 1) src := by
  cases src with
  | nil => rw [Mem.write_nil]
  | cons c src =>
    have hpage : pgRoundDown (a + 1) = pgRoundDown a ∧ (a + 1) % pgsize = a % pgsize + 1 := by
      have := same_page ha
      exact ⟨congrArg (· * pgsize) this.1, this.2⟩
    rw [Mem.write, Mem.write, Mem.write, hpage.1, hpage.2, page_setPage_same, Mem.setPage_setPage, splice_cons]

theorem UserTable.write (h : UserTable m r T) (ha : T.addr va ≠ 0) {o : ℕ} (ho : o < pgsize) (src : List UInt8) :
    UserTable (m.write (T.addr va + o) src) r T where
  tab := by
    obtain ⟨-, hpage, hnode⟩ := h.addr ha
    refine h.tab.frame fun p hp => write_page src hpage.1 ho ?_
    rintro rfl
    exact hnode hp
  user := h.user

theorem copyoutBytes_page (src xs : List UInt8) {m : Mem} {va : ℕ} (h : UserTable m r T)
    (hn : va % pgsize + xs.length ≤ pgsize) (ha : 0 < xs.length → T.addr va ≠ 0) :
    copyoutBytes r va (xs ++ src) m =
      copyoutBytes r (va + xs.length) src (m.write (T.addr va + va % pgsize) xs) := by
  induction xs generalizing m va with
  | nil => rw [List.nil_append, Mem.write_nil, List.length_nil, Nat.add_zero]
  | cons b xs ih =>
    have ha' := ha (Nat.succ_pos _)
    have hoff : va % pgsize < pgsize := Nat.mod_lt va (by decide)
    obtain ⟨hn', hnext⟩ := addr_next hn ha'
    have haligned : (T.addr va + va % pgsize) % pgsize = va % pgsize := by
      rw [Nat.add_mod, (h.addr ha').2.1.1, Nat.zero_add, Nat.mod_mod, Nat.mod_mod]
    have hcons := m.write_cons (a := T.addr va + va % pgsize) b xs (by rwa [haligned])
    have hturn : copyoutBytes r va (b :: xs ++ src) m =
        copyoutBytes r (va + 1) (xs ++ src) (m.write (T.addr va + va % pgsize) [b]) := by
      rw [List.cons_append, copyoutBytes, bind_ok (h.walkaddr va), if_neg ha']
      rfl
    rw [hturn, ih (h.write ha' hoff _) hn' fun hpos => (hnext hpos).1, hcons, List.length_cons,
      show va + 1 + xs.length = va + (xs.length + 1) by omega]
    cases xs with
    | nil => rw [Mem.write_nil, Mem.write_nil]
    | cons c xs => rw [(hnext (Nat.succ_pos _)).2]

theorem copyout_eq (h : UserTable m r T) (dstva : ℕ) (src : List UInt8) :
    copyout r dstva src m = copyoutBytes r dstva src m := by
  induction hlen : src.length using Nat.strong_induction_on generalizing m dstva src with
  | _ len ih =>
    rw [copyout]
    cases src with
    | nil => rw [dif_pos rfl, copyoutBytes]
    | cons b src =>
      rw [dif_neg (List.cons_ne_nil b src), bind_ok (h.walkaddr _), T.addr_pgRoundDown]
      by_cases ha : T.addr dstva = 0
      · rw [if_pos ha, copyoutBytes, bind_ok (h.walkaddr _), if_pos ha]
      · obtain ⟨hoff, hle, hnext⟩ := turn_cases (h.addr ha).1 (b :: src).length
        have hmod : dstva % pgsize < pgsize := Nat.mod_lt dstva (by decide)
        have htake : ((b :: src).take (pgsize - dstva % pgsize)).length =
            min (pgsize - dstva % pgsize) (b :: src).length := List.length_take
        have hdrop : ((b :: src).drop (pgsize - dstva % pgsize)).length =
            (b :: src).length - min (pgsize - dstva % pgsize) (b :: src).length := by
          rw [List.length_drop]
          omega
        have hsplit := copyoutBytes_page ((b :: src).drop (pgsize - dstva % pgsize))
          ((b :: src).take (pgsize - dstva % pgsize)) h (by rwa [htake]) fun _ => ha
        rw [List.take_append_drop, htake] at hsplit
        rw [if_neg ha, hoff, hsplit]
        change copyout r ((pgRoundDown dstva + pgsize) % 2 ^ 64) ((b :: src).drop (pgsize - dstva % pgsize))
          (m.write (T.addr dstva + dstva % pgsize) ((b :: src).take (pgsize - dstva % pgsize))) = _
        rcases hnext with hnext | hnext
        · -- nothing is left
          rw [List.eq_nil_of_length_eq_zero (hdrop.trans hnext), copyout, dif_pos rfl, copyoutBytes]
        · rw [hnext, ih _ ?_ (h.write ha hmod _) _ _ rfl]
          rw [hdrop, ← hlen]
          have hpos : 0 < (b :: src).length := Nat.succ_pos _
          omega

/-! ## What is copied -/

section

omit [Image]

theorem copyinBytes_get (m : Mem) (r : ℕ) (n : ℕ) (va i : ℕ) (hi : i < (copyinBytes m r va n).2.length) :
    (copyinBytes m r va n).2[i]? = userByte m r (va + i) := by
  induction n generalizing va i with
  | zero => exact absurd hi i.not_lt_zero
  | succ n ih =>
    rw [copyinBytes] at hi ⊢
    cases hb : userByte m r va with
    | none =>
      rw [hb] at hi
      exact absurd hi i.not_lt_zero
    | some b =>
      rw [hb] at hi
      cases i with
      | zero => exact hb.symm
      | succ i =>
        change (copyinBytes m r (va + 1) n).2[i]? = _
        rw [ih (va + 1) i (Nat.lt_of_succ_lt_succ hi), show va + 1 + i = va + (i + 1) by omega]

theorem copyinBytes_length (m : Mem) (r : ℕ) (n va : ℕ) : if (copyinBytes m r va n).1 = true then
    (copyinBytes m r va n).2.length = n else (copyinBytes m r va n).2.length < n := by
  induction n generalizing va with
  | zero => rfl
  | succ n ih =>
    have hrest := ih (va + 1)
    rw [copyinBytes]
    cases userByte m r va with
    | none => exact Nat.succ_pos n
    | some b =>
      simp only
      split_ifs at hrest ⊢ with hok
      · rw [List.length_cons, hrest]
      · exact Nat.succ_lt_succ hrest

theorem copyinBytes_iff (m : Mem) (r : ℕ) (n va : ℕ) :
    (copyinBytes m r va n).1 = true ↔ ∀ i < n, userByte m r (va + i) ≠ none := by
  induction n generalizing va with
  | zero => exact iff_of_true rfl fun i hi => absurd hi i.not_lt_zero
  | succ n ih =>
    rw [copyinBytes, Nat.forall_lt_succ_left, Nat.add_zero]
    cases hb : userByte m r va with
    | none => exact iff_of_false Bool.false_ne_true fun hc => hc.1 rfl
    | some b =>
      simp only [ih (va + 1), ne_eq, reduceCtorEq, not_false_eq_true, true_and]
      refine forall₂_congr fun i _ => ?_
      rw [show va + 1 + i = va + (i + 1) by omega]

theorem copyinstrBytes_get (m : Mem) (r : ℕ) (n : ℕ) (va i : ℕ) (hi : i < (copyinstrBytes m r va n).2.length) :
    (copyinstrBytes m r va n).2[i]? = userByte m r (va + i) := by
  induction n generalizing va i with
  | zero => exact absurd hi i.not_lt_zero
  | succ n ih =>
    rw [copyinstrBytes] at hi ⊢
    cases hb : userByte m r va with
    | none =>
      rw [hb] at hi
      exact absurd hi i.not_lt_zero
    | some b =>
      rw [hb] at hi
      simp only at hi ⊢
      by_cases hz : b = 0
      · rw [if_pos hz] at hi ⊢
        obtain rfl : i = 0 := Nat.lt_one_iff.1 hi
        rw [hz] at hb
        exact hb.symm
      · rw [if_neg hz] at hi ⊢
        cases i with
        | zero => exact hb.symm
        | succ i =>
          change (copyinstrBytes m r (va + 1) n).2[i]? = _
          rw [ih (va + 1) i (Nat.lt_of_succ_lt_succ hi), show va + 1 + i = va + (i + 1) by omega]

theorem copyinstrBytes_length (m : Mem) (r : ℕ) (n va : ℕ) : (copyinstrBytes m r va n).2.length ≤ n := by
  induction n generalizing va with
  | zero => exact le_rfl
  | succ n ih =>
    rw [copyinstrBytes]
    cases userByte m r va with
    | none => exact Nat.zero_le _
    | some b =>
      simp only
      split_ifs
      · exact Nat.succ_le_succ n.zero_le
      · exact Nat.succ_le_succ (ih (va + 1))

theorem copyinstrBytes_string (m : Mem) (r : ℕ) (n va : ℕ) (hok : (copyinstrBytes m r va n).1 = true) :
    ∃ str, (copyinstrBytes m r va n).2 = str ++ [0] ∧ 0 ∉ str := by
  induction n generalizing va with
  | zero => exact absurd hok Bool.false_ne_true
  | succ n ih =>
    rw [copyinstrBytes] at hok ⊢
    cases hb : userByte m r va with
    | none =>
      rw [hb] at hok
      exact absurd hok Bool.false_ne_true
    | some b =>
      rw [hb] at hok
      simp only at hok ⊢
      by_cases hz : b = 0
      · rw [if_pos hz]
        exact ⟨[], rfl, List.not_mem_nil⟩
      · rw [if_neg hz] at hok ⊢
        obtain ⟨str, hstr, hnul⟩ := ih (va + 1) hok
        refine ⟨b :: str, congrArg (b :: ·) hstr, ?_⟩
        rw [List.mem_cons, not_or]
        exact ⟨Ne.symm hz, hnul⟩

theorem copyinstrBytes_iff (m : Mem) (r : ℕ) (n va : ℕ) : (copyinstrBytes m r va n).1 = true ↔
    ∃ k < n, userByte m r (va + k) = some 0 ∧ ∀ i < k, userByte m r (va + i) ≠ none := by
  induction n generalizing va with
  | zero => exact iff_of_false Bool.false_ne_true fun ⟨k, hk, _⟩ => k.not_lt_zero hk
  | succ n ih =>
    rw [copyinstrBytes]
    cases hb : userByte m r va with
    | none =>
      refine iff_of_false Bool.false_ne_true ?_
      rintro ⟨k, -, hzero, hall⟩
      cases k with
      | zero =>
        rw [Nat.add_zero, hb] at hzero
        cases hzero
      | succ k => exact hall 0 k.succ_pos hb
    | some b =>
      simp only
      by_cases hz : b = 0
      · rw [if_pos hz]
        refine iff_of_true rfl ⟨0, n.succ_pos, by rw [Nat.add_zero, hb, hz], fun i hi => absurd hi i.not_lt_zero⟩
      · rw [if_neg hz, ih (va + 1)]
        constructor
        · rintro ⟨k, hk, hzero, hall⟩
          refine ⟨k + 1, Nat.succ_lt_succ hk, by rw [← hzero]; congr 1; omega, fun i hi => ?_⟩
          cases i with
          | zero =>
            rw [Nat.add_zero, hb]
            exact Option.some_ne_none b
          | succ i =>
            rw [show va + (i + 1) = va + 1 + i by omega]
            exact hall i (Nat.lt_of_succ_lt_succ hi)
        · rintro ⟨k, hk, hzero, hall⟩
          cases k with
          | zero =>
            rw [Nat.add_zero, hb] at hzero
            exact absurd (Option.some.inj hzero) hz
          | succ k =>
            refine ⟨k, Nat.lt_of_succ_lt_succ hk, by rw [← hzero]; congr 1; omega, fun i hi => ?_⟩
            rw [show va + 1 + i = va + (i + 1) by omega]
            exact hall (i + 1) (Nat.succ_lt_succ hi)

end

theorem copyoutBytes_run (src : List UInt8) {m : Mem} (h : UserTable m r T) (va : ℕ) :
    ∃ k m', copyoutBytes r va src m = .ok (decide (k = src.length), m') ∧ k ≤ src.length ∧
      (∀ i < k, T.addr (va + i) ≠ 0) ∧ (k < src.length → T.addr (va + k) = 0) ∧
      copyoutBytes r va (src.take k) m = .ok (true, m') := by
  induction src generalizing m va with
  | nil =>
    refine ⟨0, m, rfl, le_rfl, fun i hi => absurd hi i.not_lt_zero, fun hc => absurd hc (Nat.lt_irrefl 0), rfl⟩
  | cons b src ih =>
    by_cases ha : T.addr va = 0
    · refine ⟨0, m, ?_, Nat.zero_le _, fun i hi => absurd hi i.not_lt_zero, fun _ => ha, rfl⟩
      rw [copyoutBytes, bind_ok (h.walkaddr va), if_pos ha]
      rfl
    · have hturn : ∀ src, copyoutBytes r va (b :: src) m =
          copyoutBytes r (va + 1) src (m.write (T.addr va + va % pgsize) [b]) := by
        intro src
        rw [copyoutBytes, bind_ok (h.walkaddr va), if_neg ha]
        rfl
      obtain ⟨k, m', hrun, hk, hall, hstop, htake⟩ := ih (h.write ha (Nat.mod_lt va (by decide)) [b]) (va + 1)
      have hdec : decide (k + 1 = (b :: src).length) = decide (k = src.length) := by simp
      refine ⟨k + 1, m', ?_, Nat.succ_le_succ hk, fun i hi => ?_, fun hlt => ?_, ?_⟩
      · rw [hturn, hdec]
        exact hrun
      · cases i with
        | zero => exact ha
        | succ i =>
          rw [show va + (i + 1) = va + 1 + i by omega]
          exact hall i (Nat.lt_of_succ_lt_succ hi)
      · rw [show va + (k + 1) = va + 1 + k by omega]
        exact hstop (Nat.lt_of_succ_lt_succ hlt)
      · rw [List.take_succ_cons, hturn]
        exact htake

/-! ## The copies -/

/-- **The three copies agree with copying byte by byte.** -/
structure CopiesAgree (m : Mem) (r : ℕ) : Prop where
  copyin : ∀ srcva len, ∃ ok bytes, copyin r [] srcva len m = .ok ((ok, bytes), m) ∧
    copyinBytes m r srcva len = (ok, bytes) ∧ (ok = true ↔ ∀ i < len, Accessible m r (srcva + i)) ∧
    (if ok = true then bytes.length = len else bytes.length < len) ∧
    ∀ i < bytes.length, Accessible m r (srcva + i) ∧ bytes[i]? = userByte m r (srcva + i)
  copyout : ∀ dstva src, ∃ ok m', copyout r dstva src m = .ok (ok, m') ∧
    copyoutBytes r dstva src m = .ok (ok, m') ∧ (ok = true ↔ ∀ i < src.length, Accessible m r (dstva + i)) ∧
    (ok = false → ∃ k < src.length, (∀ i < k, Accessible m r (dstva + i)) ∧
      copyoutBytes r dstva (src.take k) m = .ok (true, m'))
  copyinstr : ∀ srcva max, ∃ ok bytes, copyinstr r [] srcva max m = .ok ((ok, bytes), m) ∧
    copyinstrBytes m r srcva max = (ok, bytes) ∧
    (ok = true ↔ ∃ k < max, userByte m r (srcva + k) = some 0 ∧ ∀ i ≤ k, Accessible m r (srcva + i)) ∧
    (ok = true → ∃ str, bytes = str ++ [0] ∧ 0 ∉ str) ∧ bytes.length ≤ max ∧
    ∀ i < bytes.length, Accessible m r (srcva + i) ∧ bytes[i]? = userByte m r (srcva + i)

theorem UserTable.accessible_of_get (h : UserTable m r T) {bytes : List UInt8} {i : ℕ} (hi : i < bytes.length)
    (hget : bytes[i]? = userByte m r va) : Accessible m r va ∧ bytes[i]? = userByte m r va := by
  refine ⟨(h.accessible_iff va).2 ?_, hget⟩
  rw [← hget, List.getElem?_eq_getElem hi]
  exact Option.some_ne_none _

/-- **`copyin`, `copyout` and `copyinstr` agree with copying byte by byte**, on every table whose user pages come
from the allocator. -/
theorem copies_agree (h : UserTable m r T) : CopiesAgree m r where
  copyin := by
    intro srcva len
    refine ⟨_, _, copyin_eq h [] srcva len, rfl, ?_, copyinBytes_length m r len srcva, fun i hi => ?_⟩
    · rw [copyinBytes_iff]
      exact forall₂_congr fun i _ => (h.accessible_iff _).symm
    · exact h.accessible_of_get hi (copyinBytes_get m r len srcva i hi)
  copyout := by
    intro dstva src
    obtain ⟨k, m', hrun, hk, hall, hstop, htake⟩ := copyoutBytes_run src h dstva
    have hacc : ∀ va, Accessible m r va ↔ T.addr va ≠ 0 := by
      intro va
      rw [h.accessible_iff, h.userByte_eq]
      by_cases ha : T.addr va = 0
      · exact iff_of_false (fun hc => hc (if_pos ha)) fun hc => hc ha
      · rw [if_neg ha]
        exact iff_of_true (Option.some_ne_none _) ha
    refine ⟨_, m', (copyout_eq h dstva src).trans hrun, hrun, ?_, fun hfalse => ?_⟩
    · rw [decide_eq_true_iff]
      constructor
      · rintro rfl i hi
        exact (hacc _).2 (hall i hi)
      · intro hsrc
        by_contra hne
        have hlt := lt_of_le_of_ne hk hne
        exact (hacc _).1 (hsrc k hlt) (hstop hlt)
    · have hlt := lt_of_le_of_ne hk (of_decide_eq_false hfalse)
      exact ⟨k, hlt, fun i hi => (hacc _).2 (hall i hi), htake⟩
  copyinstr := by
    intro srcva max
    refine ⟨_, _, copyinstr_eq h [] srcva max, rfl, ?_, copyinstrBytes_string m r max srcva,
      copyinstrBytes_length m r max srcva, fun i hi => ?_⟩
    · rw [copyinstrBytes_iff]
      refine exists_congr fun k => and_congr_right fun _ => and_congr_right fun hzero => ?_
      constructor
      · intro hall i hi
        rw [h.accessible_iff]
        rcases Nat.eq_or_lt_of_le hi with rfl | hlt
        · rw [hzero]
          exact Option.some_ne_none _
        · exact hall i hlt
      · exact fun hall i hi => (h.accessible_iff _).1 (hall i hi.le)
    · exact h.accessible_of_get hi (copyinstrBytes_get m r max srcva i hi)

end

section

attribute [local instance] Image.least

theorem sample_userTable : UserTable (sampleMem (samplePage 6)) (samplePage 0) sampleParent where
  tab := (sampleParent_ok _).mono fun _ => LeafPte.valid
  user := by
    intro v w hw _
    refine ⟨?_, sample_leaf_notMem hw⟩
    rcases sample_leaf hw with he | he
    · rw [he]
      exact isPage_sample (by decide)
    · rw [he]
      exact isPage_sample (by decide)

/-- A process of two pages. -/
theorem copies_agree_two : CopiesAgree (sampleMem (samplePage 6)) (samplePage 0) := copies_agree sample_userTable

end

end Xv6.Vm

import Xv6.Vm.Copies

/-!
# What a process sees of its memory

The operations of `kernel/vm.c` on one address space, by what they do to the bytes below its size and to the addresses
that the user can access.

* `overwrite`: the memory after some bytes are stored.
* **`uvmalloc_loads`**: the old bytes stay and the new ones are zero.
* **`copyout_loads`**, `write_loads`: the bytes are stored and the others stay.
* **`uvmclear_loads`**: one page is no longer accessible.
* **`copyout_reads`**: what the copies of the kernel read after a store.
-/

namespace Xv6.Vm

open Bytes Fail Bag

def overwrite (f : ℕ → Option UInt8) (a : ℕ) (src : List UInt8) : ℕ → Option UInt8 := fun x =>
  if a ≤ x ∧ x < a + src.length then src[x - a]? else f x

theorem overwrite_of_notMem {f : ℕ → Option UInt8} {a x : ℕ} {src : List UInt8} (h : x < a ∨ a + src.length ≤ x) :
    overwrite f a src x = f x :=
  if_neg (by omega)

theorem overwrite_of_mem {f : ℕ → Option UInt8} {a i : ℕ} {src : List UInt8} (h : i < src.length) :
    overwrite f a src (a + i) = src[i]? := by
  rw [overwrite, if_pos ⟨Nat.le_add_right a i, Nat.add_lt_add_left h a⟩, Nat.add_sub_cancel_left]

theorem overwrite_nil (g : ℕ → Option UInt8) (a : ℕ) : overwrite g a [] = g := by
  funext x
  refine overwrite_of_notMem ?_
  simp only [List.length_nil]
  omega

theorem overwrite_congr {g g' : ℕ → Option UInt8} {a x : ℕ} {src : List UInt8} (h : g x = g' x) :
    overwrite g a src x = overwrite g' a src x := by
  rw [overwrite, overwrite, h]

theorem overwrite_append (f : ℕ → Option UInt8) (a : ℕ) (xs ys : List UInt8) :
    overwrite (overwrite f a xs) (a + xs.length) ys = overwrite f a (xs ++ ys) := by
  funext x
  simp only [overwrite, List.length_append]
  split_ifs with h₁ h₂ h₃ h₄ h₅
  · rw [List.getElem?_append_right (by omega), Nat.sub_add_eq]
  · omega
  · rw [List.getElem?_append_left (by omega)]
  · omega
  · omega
  · rfl

section

variable [Image] {m m' : Mem} {l l' : List ℕ} {r va n : ℕ} {T T' : Tab}

namespace Space

theorem userTable (h : Space m l r T n) : UserTable m r T where
  tab := h.table.valid.tab
  user := by
    intro v w hw hu
    have hv : v < nuser := by
      by_contra hge
      exact (h.top v w (Nat.not_lt.1 hge) hw).2 hu
    refine ⟨h.pages v w hv hw, fun hn => ?_⟩
    exact h.nodup.notMem (Multiset.mem_add.2 (.inr hn)) (Tab.page_mem hv hw)

theorem accessible_iff (h : Space m l r T n) : Accessible m r va ↔ T.addr va ≠ 0 := by
  rw [h.userTable.accessible_iff, h.userTable.userByte_eq]
  split_ifs with h0 <;> simp [h0]

theorem lt_maxva (h : Space m l r T n) (hva : va < n * pgsize) : va < maxva := by
  have hle := h.le
  simp only [pgsize, maxva] at *
  omega

theorem load (h : Space m l r T n) {w : ℕ} (hva : va < n * pgsize) (hw : T.leaf (va / pgsize) = some w) :
    loadByte m r va = some (m.page (pte2pa w) (pageOffset va)) := by
  rw [loadByte, lookup_eq h.table.valid.tab (h.lt_maxva hva), hw]
  rfl

theorem pa_inj (h : Space m l r T n) {v v' p : ℕ} (hv : v < n) (hv' : v' < n) (hp : T.pa v = some p)
    (hp' : T.pa v' = some p) : v = v' :=
  inj_of_nodup h.nodup.right.nodup (mem_userPages.2 (hv.trans_le h.le_nuser))
    (mem_userPages.2 (hv'.trans_le h.le_nuser)) hp hp'

end Space

/-! ## Stores -/

omit [Image] in
theorem Mem.freelist_write (m : Mem) (a : ℕ) (src : List UInt8) : (m.write a src).freelist = m.freelist := rfl

theorem Space.write (h : Space m l r T n) (ha : T.addr va ≠ 0) {o : ℕ} (ho : o < pgsize) (src : List UInt8) :
    Space (m.write (T.addr va + o) src) l r T n := by
  obtain ⟨-, -, hpage, hmem⟩ := h.addr ha
  refine h.frame (m.freelist_write ..) fun q hq => write_page src hpage.1 ho ?_
  rintro rfl
  exact hq hmem

/-- **Bytes stored at an address of the user**, within one page. -/
theorem write_loads (h : Space m l r T n) (ha : T.addr va ≠ 0) (src : List UInt8)
    (hlen : va % pgsize + src.length ≤ pgsize) {x : ℕ} (hx : x < n * pgsize) :
    loadByte (m.write (T.addr va + va % pgsize) src) r x = overwrite (loadByte m r) va src x := by
  have hoff : va % pgsize < pgsize := Nat.mod_lt va (by decide)
  obtain ⟨hv, hpa, hpage, -⟩ := h.addr ha
  have hv' : x / pgsize < n := Nat.div_lt_of_lt_mul (Nat.mul_comm n pgsize ▸ hx)
  obtain ⟨w, hw, -⟩ := h.leaf hv'
  rw [(h.write ha hoff src).load hx hw]
  have hold := h.load hx hw
  by_cases hp : pte2pa w = T.addr va
  · -- in the page that is written
    have hsame : x / pgsize = va / pgsize :=
      h.pa_inj hv' hv ((Tab.pa_of_leaf hw).trans (congrArg some hp)) hpa
    have hmod : (T.addr va + va % pgsize) % pgsize = va % pgsize := by
      rw [Nat.add_mod, hpage.1, Nat.zero_add, Nat.mod_mod, Nat.mod_mod]
    rw [hp, Mem.write, pgRoundDown_add hpage.1 hoff, hmod, page_setPage_same, splice_apply]
    rw [hp] at hold
    change some (if va % pgsize ≤ x % pgsize then _ else _) = _
    have hx₁ := Nat.div_add_mod x pgsize
    have hx₂ := Nat.div_add_mod va pgsize
    rw [hsame] at hx₁
    by_cases hle : va % pgsize ≤ x % pgsize
    · have hsub : (pageOffset x : ℕ) - va % pgsize = x - va := by
        change x % pgsize - _ = _
        omega
      rw [if_pos hle, hsub]
      by_cases hlt : x - va < src.length
      · rw [overwrite, if_pos (by omega), List.getElem?_eq_getElem hlt]
        rfl
      · rw [overwrite_of_notMem (by omega), hold, List.getElem?_eq_none (Nat.not_lt.1 hlt)]
        rfl
    · rw [if_neg hle, overwrite_of_notMem (by omega), hold]
  · have hne : x / pgsize ≠ va / pgsize := by
      intro he
      rw [← he, Tab.pa_of_leaf hw] at hpa
      exact hp (Option.some.inj hpa)
    rw [write_page src hpage.1 hoff hp, overwrite_of_notMem, hold]
    have hx₁ := Nat.div_add_mod x pgsize
    have hx₂ := Nat.div_add_mod va pgsize
    have hx₃ : x % pgsize < pgsize := Nat.mod_lt x (by decide)
    rcases Nat.lt_or_gt_of_ne hne with hlt | hgt
    · have := Nat.mul_le_mul_left pgsize hlt
      rw [Nat.mul_succ] at this
      omega
    · have := Nat.mul_le_mul_left pgsize hgt
      rw [Nat.mul_succ] at this
      omega

theorem copyoutBytes_loads (src : List UInt8) {m : Mem} {va : ℕ} (h : Space m l r T n)
    (hacc : ∀ i < src.length, T.addr (va + i) ≠ 0) :
    Yields (copyoutBytes r va src) m fun ok m' => ok = true ∧ Space m' l r T n ∧
      ∀ x < n * pgsize, loadByte m' r x = overwrite (loadByte m r) va src x := by
  induction src generalizing m va with
  | nil =>
    refine .pure ⟨rfl, h, fun x _ => (overwrite_of_notMem ?_).symm⟩
    simp only [List.length_nil]
    omega
  | cons b src ih =>
    have ha : T.addr va ≠ 0 := hacc 0 (Nat.succ_pos _)
    have hoff : va % pgsize < pgsize := Nat.mod_lt va (by decide)
    have hturn : copyoutBytes r va (b :: src) m =
        copyoutBytes r (va + 1) src (m.write (T.addr va + va % pgsize) [b]) := by
      rw [copyoutBytes, bind_ok (h.userTable.walkaddr va), if_neg ha]
      rfl
    rw [Yields, hturn]
    refine (ih (h.write ha hoff [b]) fun i hi => ?_).mono fun ok m' hrest =>
      ⟨hrest.1, hrest.2.1, fun x hx => ?_⟩
    · rw [Nat.add_assoc, Nat.add_comm 1]
      exact hacc (i + 1) (Nat.succ_lt_succ hi)
    · have hone : ∀ x < n * pgsize, loadByte (m.write (T.addr va + va % pgsize) [b]) r x =
          overwrite (loadByte m r) va [b] x := fun x hx => write_loads h ha [b] hoff hx
      rw [hrest.2.2 x hx]
      have happ := congrFun (overwrite_append (loadByte m r) va [b] src) x
      rw [List.singleton_append, List.length_singleton] at happ
      rw [← happ, overwrite, overwrite, hone x hx]

theorem copyout_loads (h : Space m l r T n) {src : List UInt8} (hacc : ∀ i < src.length, Accessible m r (va + i)) :
    Yields (copyout r va src) m fun ok m' => ok = true ∧ Space m' l r T n ∧
      ∀ x < n * pgsize, loadByte m' r x = overwrite (loadByte m r) va src x := by
  rw [Yields, copyout_eq h.userTable]
  exact copyoutBytes_loads src h fun i hi => h.accessible_iff.1 (hacc i hi)

theorem copyout_keeps (h : Space m l r T n) (va : ℕ) (src : List UInt8) :
    May (copyout r va src) m fun _ m' => ∀ x < n * pgsize, x < va → loadByte m' r x = loadByte m r x := by
  intro ok m' hrun x hx hlt
  obtain ⟨k, m₁, hrun₁, hk, hacc, -, htake⟩ := copyoutBytes_run src h.userTable va
  rw [copyout_eq h.userTable, hrun₁] at hrun
  cases hrun
  have hlen : (src.take k).length = k := by rw [List.length_take, min_eq_left hk]
  obtain ⟨-, -, hload⟩ := (copyoutBytes_loads (src.take k) h fun i hi => hacc i (hlen ▸ hi)).may _ _ htake
  rw [hload x hx, overwrite_of_notMem (.inl hlt)]

/-! ## Pages -/

theorem uvmalloc_loads {sz new : ℕ} (h : Space m l r T (npages sz)) :
    May (uvmalloc r sz new) m fun res m' =>
      (∀ x < npages sz * pgsize, loadByte m' r x = loadByte m r x ∧ (Accessible m' r x ↔ Accessible m r x)) ∧
      (res ≠ 0 → ∀ x, npages sz * pgsize ≤ x → x < npages res * pgsize →
        loadByte m' r x = some 0 ∧ Accessible m' r x) := by
  refine May.mono (uvmalloc_spec h).may ?_
  rintro res m' ⟨l', T', hmv, hres⟩
  have hkeep : ∀ {k}, npages sz ≤ k → Space m' l' r T' k → ∀ x < npages sz * pgsize,
      loadByte m' r x = loadByte m r x ∧ (Accessible m' r x ↔ Accessible m r x) := by
    intro k hk h' x hx
    have hv : x / pgsize < npages sz := Nat.div_lt_of_lt_mul (Nat.mul_comm (npages sz) pgsize ▸ hx)
    obtain ⟨w, hw, -⟩ := h.leaf hv
    obtain ⟨hleaf, hpage⟩ := hmv.keep _ hv
    refine ⟨?_, ?_⟩
    · rw [h.load hx hw, h'.load (hx.trans_le (Nat.mul_le_mul_right _ hk)) (hleaf.trans hw), hpage w hw]
    · rw [h.accessible_iff, h'.accessible_iff, Tab.addr, Tab.addr, hleaf]
  rcases hres with ⟨hsize, h', hzero, -⟩ | ⟨rfl, -, h', -⟩
  · have hmono : npages sz ≤ npages res := by
      rw [npages, npages, hsize]
      exact Nat.div_le_div_right (Nat.add_le_add_right (le_max_left _ _) _)
    refine ⟨hkeep hmono h', fun _ x hge hlt => ?_⟩
    have hv : x / pgsize < npages res := Nat.div_lt_of_lt_mul (Nat.mul_comm (npages res) pgsize ▸ hlt)
    have hv' : npages sz ≤ x / pgsize := (Nat.le_div_iff_mul_le (by decide)).2 hge
    obtain ⟨w, hw, hu, hz⟩ := hzero _ hv' hv
    refine ⟨by rw [h'.load hlt hw, hz], ?_⟩
    rw [h'.accessible_iff, h'.addr_of_leaf hv hw hu rfl]
    exact (h'.pages _ w (hv.trans_le h'.le_nuser) hw).ne_zero
  · exact ⟨hkeep le_rfl h', fun h0 => absurd rfl h0⟩

theorem uvmclear_loads (h : Space m l r T n) {v : ℕ} (hv : v < n) :
    May (uvmclear r (v * pgsize)) m fun _ m' => (∀ x < n * pgsize, loadByte m' r x = loadByte m r x) ∧
      ∀ x, Accessible m' r x ↔ Accessible m r x ∧ x / pgsize ≠ v := by
  refine (uvmclear_spec h hv).may.mono ?_
  rintro - m' ⟨T', h', -, -, hleaf, hpa, hguard, hsame⟩
  refine ⟨fun x hx => ?_, fun x => ?_⟩
  · have hx' : x / pgsize < n := Nat.div_lt_of_lt_mul (Nat.mul_comm n pgsize ▸ hx)
    obtain ⟨w, hw, -⟩ := h.leaf hx'
    obtain ⟨w', hw', -⟩ := h'.leaf hx'
    have he : pte2pa w' = pte2pa w := by
      have := (Tab.pa_of_leaf hw').symm.trans ((congrFun hpa _).trans (Tab.pa_of_leaf hw))
      exact Option.some.inj this
    rw [h.load hx hw, h'.load hx hw', he, hsame]
    exact fun hn => h.nodup.notMem (Multiset.mem_add.2 (.inr hn)) (Tab.page_mem (hx'.trans_le h.le_nuser) hw)
  · rw [h.accessible_iff, h'.accessible_iff]
    by_cases hx : x / pgsize = v
    · have h0 : T'.addr x = 0 := by
        rw [Tab.addr, hx]
        obtain ⟨w, hw, -⟩ := h'.leaf hv
        rw [hw]
        simp only [if_neg (hguard w hw), ite_self]
      simp [h0, hx]
    · rw [Tab.addr, Tab.addr, hleaf _ hx]
      simp [hx]

/-! ## Reads after stores -/

theorem Space.userByte_eq (h : Space m l r T n) (ha : Accessible m r va) :
    va < n * pgsize ∧ userByte m r va = loadByte m r va := by
  have ha' := h.accessible_iff.1 ha
  obtain ⟨hv, hpa, hpage, -⟩ := h.addr ha'
  have hva : va < n * pgsize := (Nat.div_lt_iff_lt_mul (by decide)).1 hv
  obtain ⟨w, hw, -⟩ := h.leaf hv
  have he : T.addr va = pte2pa w := Option.some.inj (hpa.symm.trans (Tab.pa_of_leaf hw))
  have hoff : va % pgsize < pgsize := Nat.mod_lt va (by decide)
  refine ⟨hva, ?_⟩
  rw [h.userTable.userByte_eq, if_neg ha', h.load hva hw, ← he]
  refine congrArg some ?_
  have hmod : (T.addr va + va % pgsize) % pgsize = va % pgsize := by
    rw [Nat.add_mod, hpage.1, Nat.zero_add, Nat.mod_mod, Nat.mod_mod]
  rw [Mem.byte, pgRoundDown_add hpage.1 hoff, hmod, byte, dif_pos hoff]
  rfl

theorem copyin_loads (h : Space m l r T n) {len : ℕ} (hacc : ∀ i < len, Accessible m r (va + i)) :
    ∃ dst, copyin r [] va len m = .ok ((true, dst), m) ∧ dst.length = len ∧
      ∀ i < len, dst[i]? = loadByte m r (va + i) := by
  have hok : (copyinBytes m r va len).1 = true :=
    (copyinBytes_iff m r len va).2 fun i hi => (h.userTable.accessible_iff _).1 (hacc i hi)
  have hlen := copyinBytes_length m r len va
  rw [if_pos hok] at hlen
  refine ⟨(copyinBytes m r va len).2, ?_, hlen, fun i hi => ?_⟩
  · rw [copyin_eq h.userTable, hok, List.nil_append]
  · rw [copyinBytes_get m r len va i (hi.trans_eq hlen.symm), (h.userByte_eq (hacc i hi)).2]

omit [Image] in
theorem copyinstrBytes_of_string (m : Mem) (r : ℕ) {str : List UInt8} {va max : ℕ} (hstr : 0 ∉ str)
    (hmax : str.length < max) (hbyte : ∀ i < (str ++ [0]).length, userByte m r (va + i) = (str ++ [0])[i]?) :
    copyinstrBytes m r va max = (true, str ++ [0]) := by
  induction str generalizing va max with
  | nil =>
    obtain ⟨max, rfl⟩ : ∃ k, max = k + 1 := ⟨max - 1, by omega⟩
    have h0 : userByte m r va = some 0 := hbyte 0 (by simp)
    rw [copyinstrBytes, h0]
    rfl
  | cons b str ih =>
    obtain ⟨max, rfl⟩ : ∃ k, max = k + 1 := ⟨max - 1, by omega⟩
    have hb : userByte m r va = some b := hbyte 0 (by simp)
    have hne : b ≠ 0 := fun he => hstr (he ▸ List.mem_cons_self)
    have hrest : copyinstrBytes m r (va + 1) max = (true, str ++ [0]) := by
      refine ih (fun hc => hstr (List.mem_cons_of_mem _ hc)) (Nat.lt_of_succ_lt_succ hmax) fun i hi => ?_
      rw [Nat.add_assoc, Nat.add_comm 1]
      exact hbyte (i + 1) (Nat.succ_lt_succ hi)
    rw [copyinstrBytes, hb]
    simp only [if_neg hne, hrest, List.cons_append]

/-- **Reads after a store.** After a `copyout` every `copyin` returns the bytes of an array in which the copied ones
are overwritten, and the terminated string that was copied comes back through `copyinstr`. -/
theorem copyout_reads (h : Space m l r T n) {src : List UInt8} (hacc : ∀ i < src.length, Accessible m r (va + i)) :
    Yields (copyout r va src) m fun ok m' => ok = true ∧
      (∀ a len, (∀ i < len, Accessible m r (a + i)) → ∃ dst, copyin r [] a len m' = .ok ((true, dst), m') ∧
        dst.length = len ∧ ∀ i < len, dst[i]? = overwrite (loadByte m r) va src (a + i)) ∧
      ∀ str, src = str ++ [0] → 0 ∉ str → ∀ max, str.length < max →
        copyinstr r [] va max m' = .ok ((true, src), m') := by
  refine (copyout_loads h hacc).mono ?_
  rintro ok m' ⟨hok, h', hload⟩
  have hacc' : ∀ a, Accessible m r a → Accessible m' r a := fun a ha =>
    h'.accessible_iff.2 (h.accessible_iff.1 ha)
  refine ⟨hok, fun a len ha => ?_, ?_⟩
  · obtain ⟨dst, hrun, hlen, hget⟩ := copyin_loads h' fun i hi => hacc' _ (ha i hi)
    refine ⟨dst, hrun, hlen, fun i hi => ?_⟩
    rw [hget i hi, hload _ (h.userByte_eq (ha i hi)).1]
  · rintro str rfl hstr max hmax
    have hbyte : ∀ i < (str ++ [0]).length, userByte m' r (va + i) = (str ++ [0])[i]? := fun i hi => by
      rw [(h'.userByte_eq (hacc' _ (hacc i hi))).2, hload _ (h.userByte_eq (hacc i hi)).1, overwrite_of_mem hi]
    rw [copyinstr_eq h'.userTable, copyinstrBytes_of_string m' r hstr hmax hbyte, List.nil_append]

end

attribute [local instance] Image.least

theorem copyout_reads_across : Yields (copyout (samplePage 0) 4095 [104, 105, 0]) (sampleMem (samplePage 6))
    fun ok m' => ok = true ∧ copyinstr (samplePage 0) [] 4095 16 m' = .ok ((true, [104, 105, 0]), m') := by
  have hacc : ∀ i < [104, 105, (0 : UInt8)].length, Accessible (sampleMem (samplePage 6)) (samplePage 0) (4095 + i) := by
    intro i hi
    change i < 3 at hi
    rw [sample_space.accessible_iff]
    interval_cases i <;> decide +kernel
  refine (copyout_reads sample_space hacc).mono ?_
  rintro ok m' ⟨hok, -, hstr⟩
  exact ⟨hok, hstr [104, 105] rfl (by decide) 16 (by decide)⟩

end Xv6.Vm

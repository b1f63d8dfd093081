import Xv6.Kernel.Memory
import Xv6.Vm.Map

/-!
# `growproc`

`growproc(n)` is to grow or shrink the memory of a process by `n` bytes. The new size is computed as a `uint`, so a
request to shrink by more than there is becomes a request for a huge size, for which `uvmdealloc` does nothing and
`growproc` returns `0`.

* `growproc_grows`, `growproc_shrinks`: what `growproc` does, by the sign of `n`.
* `Exact`: what `growproc` is to do. **`growproc_exact_iff`**: it does so just when `sz + n` is not negative.
-/

namespace Xv6.Kernel

open Vm Bytes Fail Bag

section

variable [Image] {s : State} {m m' : Mem} {l l' : List ℕ} {r k : ℕ} {T T' : Tab} {p : Pid} {n : Int32}

theorem unchanged_of_moves (h : Space m l r T k) (h' : Space m' l' r T' k) (hmv : Moves k m l T m' l' T') :
    lookup m' r = lookup m r ∧
      ∀ va < trapframeVa, ∀ w, lookup m r va = some w → m'.page (pte2pa w) = m.page (pte2pa w) := by
  have hleaf : T'.leaf = T.leaf := by
    funext v
    by_cases hk : v < k
    · exact (hmv.keep v hk).1
    · by_cases hu : v < nuser
      · rw [h.leaf_none (Nat.le_of_not_lt hk) hu, h'.leaf_none (Nat.le_of_not_lt hk) hu]
      · exact hmv.top v (Nat.le_of_not_lt hu)
  refine ⟨lookup_congr h.table.valid.tab h'.table.valid.tab hleaf, fun va hva w hw => ?_⟩
  rw [lookup_eq h.table.valid.tab (lt_of_lookup hw)] at hw
  have hv : va / pgsize < k := by
    have huser : va / pgsize < nuser := (Nat.div_lt_iff_lt_mul (by decide)).2 (trapframeVa_eq ▸ hva)
    exact (h.mapped _ huser).1 (by rw [hw]; exact Option.some_ne_none w)
  exact (hmv.keep _ hv).2 w hw

/-- **What `growproc` is to do**: when it returns `0`, the size has grown by `n`, as integers; when it returns `-1`,
the size and all of user memory are as before. -/
def Exact (s : State) (p : Pid) (n : Int32) : Prop :=
  Yields (growproc p n) s fun ok s' =>
    (ok = true → ((s'.proc p).sz : ℤ) = (s.proc p).sz + n.toInt) ∧
    (ok = false → (s'.proc p).sz = (s.proc p).sz ∧
      lookup s'.mem (s.proc p).pagetable = lookup s.mem (s.proc p).pagetable ∧
      ∀ va < trapframeVa, ∀ w, lookup s.mem (s.proc p).pagetable va = some w →
        s'.mem.page (pte2pa w) = s.mem.page (pte2pa w))

section

omit [Image]

theorem addInt_of_nonneg {sz : ℕ} (hsz : sz < 2 ^ 27) (h : 0 ≤ (sz : ℤ) + n.toInt) :
    (addInt sz n : ℤ) = sz + n.toInt := by
  have hn := n.toInt_lt
  rw [addInt, Int.toNat_of_nonneg (Int.emod_nonneg _ (by decide)), Int.emod_eq_of_lt h]
  omega

theorem lt_addInt_of_neg {sz : ℕ} (hsz : sz < 2 ^ 27) (h : (sz : ℤ) + n.toInt < 0) : sz < addInt sz n := by
  have hn := n.le_toInt
  have hmod : ((sz : ℤ) + n.toInt) % 2 ^ 32 = sz + n.toInt + 2 ^ 32 := by omega
  rw [addInt, hmod]
  omega

end

theorem size_mod (h : Space m l r T (npages k)) : k % 2 ^ 32 = k :=
  Nat.mod_eq_of_lt ((size_lt h.le).trans (by decide))

/-- **Growing** is exact: `uvmalloc` is all or nothing. -/
theorem growproc_grows (h : Space s.mem l (s.proc p).pagetable T (npages (s.proc p).sz))
    (hsz : (s.proc p).sz < 2 ^ 27) (hpos : 0 < n) : Exact s p n := by
  have hn : 0 < n.toInt := Int32.lt_iff_toInt_lt.1 hpos
  have hnew : (addInt (s.proc p).sz n : ℤ) = (s.proc p).sz + n.toInt := addInt_of_nonneg hsz (by omega)
  have hmod := size_mod h
  rw [Exact, growproc, Yields, getProc_bind]
  simp only [hmod, if_pos hpos]
  obtain ⟨res, m', hrun, l', A, hmv, hres⟩ :=
    (uvmalloc_spec h : Yields (uvmalloc _ _ (addInt (s.proc p).sz n)) _ _)
  rw [bind_ok (onMem_ok hrun)]
  rcases hres with ⟨hmax, h', -⟩ | ⟨rfl, -, h', -⟩
  · have hres : res = addInt (s.proc p).sz n := by omega
    rw [size_mod h', if_neg (by omega)]
    refine ⟨true, _, rfl, fun _ => ?_, (by simp)⟩
    rw [proc_setProc_self, hres]
    exact hnew
  · rw [if_pos (Nat.zero_mod _)]
    exact ⟨false, _, rfl, (by simp), fun _ => ⟨rfl, unchanged_of_moves h h' hmv⟩⟩

/-- **Shrinking** never fails, and leaves the smaller of the two sizes. -/
theorem growproc_shrinks (h : Space s.mem l (s.proc p).pagetable T (npages (s.proc p).sz)) (hneg : n < 0) :
    Yields (growproc p n) s fun ok s' => ok = true ∧
      (s'.proc p).sz = min (s.proc p).sz (addInt (s.proc p).sz n) := by
  have hn : n.toInt < 0 := Int32.lt_iff_toInt_lt.1 hneg
  have hpos : ¬ 0 < n := fun hc => absurd (Int32.lt_iff_toInt_lt.1 hc) (Int.not_lt.2 hn.le)
  have hmod := size_mod h
  rw [growproc, Yields, getProc_bind]
  simp only [hmod, if_neg hpos, if_pos hneg]
  obtain ⟨res, m', hrun, rfl, l', A, h', -⟩ :=
    (uvmdealloc_spec h : Yields (uvmdealloc _ _ (addInt (s.proc p).sz n)) _ _)
  rw [bind_ok (onMem_ok hrun), size_mod h']
  exact ⟨true, _, rfl, rfl, congrArg Proc.sz (proc_setProc_self ..)⟩

/-- **`growproc` is exact just when it is not asked to shrink by more than there is.** -/
theorem growproc_exact_iff (h : Space s.mem l (s.proc p).pagetable T (npages (s.proc p).sz))
    (hsz : (s.proc p).sz < phystop - 0x80000000) : Exact s p n ↔ 0 ≤ ((s.proc p).sz : ℤ) + n.toInt := by
  have hsz' : (s.proc p).sz < 2 ^ 27 := hsz.trans_le (by decide)
  by_cases hpos : 0 < n
  · have hn : 0 < n.toInt := Int32.lt_iff_toInt_lt.1 hpos
    exact iff_of_true (growproc_grows h hsz' hpos) (by omega)
  · by_cases hneg : n < 0
    · have hshrink := growproc_shrinks h hneg
      constructor
      · rintro ⟨ok, s', hrun, hok, -⟩
        by_contra hlt
        obtain ⟨ok', s'', hrun', rfl, hmin⟩ := hshrink
        rw [hrun] at hrun'
        cases hrun'
        have hwrap := lt_addInt_of_neg hsz' (Int.not_le.1 hlt)
        have := hok rfl
        omega
      · intro hle
        refine Yields.mono hshrink ?_
        rintro ok s' ⟨rfl, hmin⟩
        have hnew := addInt_of_nonneg hsz' hle
        have hn : n.toInt < 0 := Int32.lt_iff_toInt_lt.1 hneg
        refine ⟨fun _ => ?_, nofun⟩
        omega
    · have hn : n.toInt = 0 := by
        have h₁ := Int.not_lt.1 fun hc => hpos (Int32.lt_iff_toInt_lt.2 hc)
        have h₂ := Int.not_lt.1 fun hc => hneg (Int32.lt_iff_toInt_lt.2 hc)
        exact le_antisymm h₁ h₂
      refine iff_of_true ?_ (by omega)
      rw [Exact, growproc, Yields, getProc_bind]
      simp only [size_mod h, if_neg hpos, if_neg hneg]
      refine ⟨true, _, rfl, fun _ => ?_, nofun⟩
      rw [proc_setProc_self, hn, add_zero]

end

/-! ## A process of two pages -/

section

attribute [local instance] Image.least

/-- Process `0` has the two pages of the sample table. -/
def sampleState : State where
  mem := sampleMem (samplePage 6)
  proc := fun _ => { Proc.zero with state := .live, sz := 2 * pgsize, pagetable := samplePage 0 }
  iref := fun _ => 0
  outstanding := 0
  kpages := []
  kstack := fun _ => 0
  stores := []

theorem sampleState_space : Space sampleState.mem [samplePage 6, samplePage 7, samplePage 8]
    (sampleState.proc 0).pagetable sampleParent (npages (sampleState.proc 0).sz) := sample_space

/-- It shrinks by a page. -/
theorem growproc_exact_shrink : Exact sampleState 0 (-4096) ↔ 0 ≤ ((sampleState.proc 0).sz : ℤ) + (-4096 : Int32).toInt :=
  growproc_exact_iff sampleState_space (by decide)

/-- **A process of two pages asks to shrink by three**: `growproc` returns `0`, and the size is as before. -/
theorem growproc_wraps : Space sampleState.mem [samplePage 6, samplePage 7, samplePage 8]
      (sampleState.proc 0).pagetable sampleParent (npages (sampleState.proc 0).sz) ∧
    (sampleState.proc 0).sz < phystop - 0x80000000 ∧
    Yields (growproc 0 (-12288)) sampleState (fun ok s' => ok = true ∧ (s'.proc 0).sz = (sampleState.proc 0).sz) ∧
    ¬ Exact sampleState 0 (-12288) := by
  have hrun := growproc_shrinks (n := -12288) sampleState_space (by decide)
  have hmin : min (sampleState.proc 0).sz (addInt (sampleState.proc 0).sz (-12288)) = (sampleState.proc 0).sz := by
    decide
  rw [hmin] at hrun
  refine ⟨sampleState_space, by decide, hrun, ?_⟩
  rintro ⟨ok, s', hrun₁, hok, -⟩
  obtain ⟨ok', s'', hrun₂, rfl, hsz⟩ := hrun
  rw [hrun₁] at hrun₂
  cases hrun₂
  have hexact := hok rfl
  rw [hsz] at hexact
  exact absurd hexact (by decide)

end

end Xv6.Kernel

import Xv6.Kernel.Image
import Xv6.Vm.Copy

/-!
# The first process

`userinit` makes a process out of a kernel that has none, and the invariant of memory holds from then on.

* `Blank`: the kernel before `userinit`. **`userinit_spec`**: the kernel after it.
* `blankState`, `bootState`: a small machine.
-/

namespace Xv6.Kernel

open Function Vm Fail Bag
open Icache (Ip)

section

variable [Image] {s s' : State} {m : Mem} {l : List ℕ} {T : Pid → Tab} {P : Multiset ℕ} {r : ℕ} {A : Tab}

/-- **The kernel before `userinit`**: no process, and the free list `l`. -/
structure Blank (s : State) (l : List ℕ) : Prop where
  free : FreeOk s.mem l
  proc : ∀ p, s.proc p = Proc.zero
  distinct : Distinct ((l : Multiset ℕ) + kernelPages s)

theorem procOk_zero (m : Mem) : ProcOk m Proc.zero noTab where
  table := fun h => absurd rfl h
  none := fun _ => rfl
  tf := fun h => absurd rfl h
  used := fun h => absurd rfl h
  unused := fun _ => ⟨rfl, rfl, rfl⟩

theorem Blank.memOk (h : Blank s l) : MemOk s l (fun _ => noTab) 0 where
  free := h.free
  proc := fun p => h.proc p ▸ procOk_zero s.mem
  distinct := by
    have hown : ∑ p, own (s.proc p) noTab = 0 :=
      Finset.sum_eq_zero fun p _ => (h.proc p ▸ procOk_zero s.mem : ProcOk s.mem (s.proc p) noTab).own_unused
        (by rw [h.proc p]; rfl)
    rw [hown, add_zero, add_zero]
    exact h.distinct
  pipes := fun a ha => absurd ha (Multiset.notMem_zero a)

/-! ## `userinit` -/

theorem uvminit_spec {src : List UInt8} (h : Space m l r A 0) (hb : Built A 0) (hsrc : src.length < pgsize)
    (hl : 3 ≤ l.length) : Yields (uvminit r src) m fun _ m' => ∃ l' A', Space m' l' r A' 1 ∧
      Moves 0 m l A m' l' A' ∧ Built A' 1 := by
  rw [uvminit, if_neg (Nat.not_le.2 hsrc), Yields]
  obtain ⟨q, l, rfl⟩ : ∃ q l', l = q :: l' := List.exists_cons_of_length_pos (by omega)
  have hq := h.free.pages q List.mem_cons_self
  obtain ⟨m₁, hk, hmap⟩ := h.mapNew
  rw [bind_ok hk, if_neg hq.ne_zero, memset_bind]
  rcases hmap with ⟨m₂, l₂, T₂, hrun, h₂, hmv₂, hleaf, -, hbuilt⟩ | ⟨m₂, T₂, -, h₂, hmv₂, hfew⟩
  · -- the page is mapped, and then written
    obtain ⟨mapped, m₃, hmap, hrest⟩ := bind_eq_ok (hrun (pure true) (pure false))
    have hm₃ : m₃ = m₂ := by
      cases mapped with
      | true =>
        cases hrest
        rfl
      | false =>
        obtain ⟨_, _, -, hend⟩ := bind_eq_ok hrest
        cases hend
    rw [Nat.zero_mul] at hmap
    rw [bind_ok hmap, hm₃]
    have hpa : pte2pa (pa2pte q ||| userPerm ||| pteV) = q := pte2pa_leafEntry (by decide) hq.1
    have hmem : q ∈ T₂.user := by
      have := Tab.page_mem (by decide) hleaf
      rwa [hpa] at this
    have hwrite : ∀ p, p ≠ q → (m₂.write q src).page p = m₂.page p := by
      intro p hp
      exact write_page (a := 0) src hq.1 (by decide) hp
    refine ⟨(), _, rfl, l₂, T₂, h₂.frame rfl fun p hp => hwrite p ?_, hmv₂.trans ⟨rfl, fun p hp => hwrite p ?_, ?_, ?_⟩,
      hbuilt hb⟩
    · rintro rfl
      exact hp hmem
    · rintro rfl
      exact hp (by simp [hmem])
    · exact fun v hv => absurd hv (Nat.not_lt_zero v)
    · exact fun _ _ => rfl
  · have hcard := hmv₂.card
    rw [h.tab.card_built hb h.le, h.card_user, h₂.card_user] at hcard
    have := hfew hb
    simp only [List.length_cons, List.length_nil, tables] at hcard this hl
    omega

theorem allocproc_first (h : (s.proc 0).state = .unused) : May allocproc s fun o _ => ∀ np, o = some np → np = 0 := by
  have hfind : (List.finRange nproc).find? (fun p => (s.proc p).state = .unused) = some 0 := by
    rw [List.finRange_succ, List.find?_cons_of_pos (by simpa using h)]
  intro o s' hrun np hnp
  have heq : allocproc s = (do
      let tf ← onMem kalloc
      if tf = 0 then do
        setProc 0 { s.proc 0 with tf := 0 }
        pure none
      else do
        let pagetable ← onMem (procPagetable tf)
        setProc 0 { s.proc 0 with tf := tf, pagetable := pagetable }
        pure (some 0) : KM (Option Pid)) s := by
    rw [allocproc, get_bind, hfind]
  rw [heq] at hrun
  obtain ⟨tf, s₁, -, hrun⟩ := bind_eq_ok hrun
  split_ifs at hrun
  · obtain ⟨_, _, -, hend⟩ := bind_eq_ok hrun
    cases hend
    cases hnp
  · obtain ⟨_, _, -, hrun⟩ := bind_eq_ok hrun
    obtain ⟨_, _, -, hend⟩ := bind_eq_ok hrun
    cases hend
    cases hnp
    rfl

theorem userinit_spec (initcode : List UInt8) (root : Ip) (h : Blank s l) (hsrc : initcode.length < pgsize)
    (hl : 7 ≤ l.length) : Yields (userinit initcode root) s fun _ s' => ∃ l' A,
      MemOk s' l' (update (fun _ => noTab) initproc A) 0 ∧
      (s'.proc initproc).state = .live ∧ A.Top ∧ l'.length + 7 = l.length := by
  have hm := h.memOk
  obtain ⟨o, s₁, halloc, ho⟩ := (allocproc_spec hm).yields (by omega)
  have hunused : (s.proc 0).state = .unused := by
    rw [h.proc 0]
    rfl
  cases o with
  | none =>
    have hnil := ho.2 ⟨0, hunused⟩
    rw [hnil] at hl
    exact absurd hl (by decide)
  | some np =>
    cases allocproc_first hunused _ _ halloc np rfl
    obtain ⟨tf, r, m₁, l₁, A₁, rfl, hfresh, htop⟩ := ho
    obtain ⟨ht, hb⟩ := htop (by omega)
    have hcount := congrArg Multiset.card hfresh.bal
    simp only [Multiset.card_add, Multiset.coe_card, Multiset.card_singleton, hfresh.space.card_user,
      hfresh.space.tab.card_built hb hfresh.space.le, tables] at hcount
    obtain ⟨_, m₂, hinit, l₂, A₂, hspace₂, hmv₂, hb₂⟩ := uvminit_spec hfresh.space hb hsrc (by omega)
    have hfresh₂ := hfresh.grow hspace₂ hmv₂
    -- two words of the trapframe are stored
    have hword : ∀ (m : Mem) (o x : ℕ), o < pgsize → Fresh s l 0 tf r m l₂ A₂ 1 →
        Fresh s l 0 tf r (m.setWord (tf + o) x) l₂ A₂ 1 := by
      intro m o x ho hm'
      have heq := setWord_eq (m := m) hfresh.page.1 ho x
      refine hm'.setTf hm ?_ fun a ha => ?_
      · rw [heq]
        rfl
      · rw [heq, page_setPage_of_ne ha]
    have hfresh₃ := hword _ spOff pgsize (by decide) (hword _ epcOff 0 (by decide) hfresh₂)
    set m₃ := (m₂.setWord (tf + epcOff) 0).setWord (tf + spOff) pgsize
    set v : Proc := { (s.proc 0).withTable tf r with
      sz := pgsize, cwd := some root, state := .live
      name := safestrcpy (s.proc 0).name ("initcode".toUTF8.toList) } with hv
    set s₂ : State := { ((s.setMem m₃).setProc 0 v) with
      iref := update s.iref root (s.iref root + 1) } with hs₂
    have hself : s₂.proc 0 = v := proc_setProc_self (s.setMem m₃) 0 v
    have hother : ∀ q, q ≠ 0 → s₂.proc q = s.proc q := fun q hq =>
      proc_setProc_of_ne (s := s.setMem m₃) hq
    refine ⟨(), s₂, ?_, l₂, A₂, ?_, ?_, ?_, ?_⟩
    · have hidem : (((s.setMem m₁).setProc 0 ((s.proc 0).withTable tf r)).setMem m₃).setProc 0 v =
          (s.setMem m₃).setProc 0 v := by
        simp only [State.setProc, State.setMem, update_idem]
      rw [userinit, bind_ok halloc]
      simp only []
      rw [getProc_bind, proc_setProc_self, bind_ok (onMem_ok hinit), hs₂, ← hidem]
      rfl
    · exact Fresh.memOk hfresh₃ hm ⟨rfl, rfl⟩ hother (by rw [hself]) (by rw [hself]; rfl) (by rw [hself]; rfl)
        (by rw [hself]; exact npages_mul 1)
    · exact congrArg Proc.state hself
    · exact ⟨by rw [hmv₂.top _ (Nat.le_succ _)]; exact ht.1, by rw [hmv₂.top _ le_rfl]; exact ht.2⟩
    · have hcount₂ := congrArg Multiset.card hfresh₂.bal
      simp only [Multiset.card_add, Multiset.coe_card, Multiset.card_singleton, hspace₂.card_user,
        hspace₂.tab.card_built hb₂ hspace₂.le, tables] at hcount₂
      omega

theorem kfreeAll_spec (as : List ℕ) {m : Mem} {l : List ℕ} (hf : FreeOk m l) (ha : ∀ a ∈ as, IsPage a)
    (hd : Distinct ((l : Multiset ℕ) + (as : Multiset ℕ))) :
    Yields (kfreeAll as) m fun _ m' => ∃ l' : List ℕ, FreeOk m' l' ∧
      (l' : Multiset ℕ) = (l : Multiset ℕ) + (as : Multiset ℕ) ∧ ∀ a, a ∉ as → m'.page a = m.page a := by
  induction as generalizing m l with
  | nil => exact Yields.pure ⟨l, hf, (add_zero _).symm, fun _ _ => rfl⟩
  | cons a as ih =>
    have hal : a ∉ l := fun hl => hd.notMem (Multiset.mem_coe.2 hl) (by simp)
    obtain ⟨m₁, hrun, hf₁, hsame₁⟩ := kfree_spec hf (ha a List.mem_cons_self) hal
    have hmove : ((a :: l : List ℕ) : Multiset ℕ) + (as : Multiset ℕ) =
        (l : Multiset ℕ) + ((a :: as : List ℕ) : Multiset ℕ) := by
      rw [← Multiset.cons_coe, ← Multiset.cons_coe, Multiset.cons_add, Multiset.add_cons]
    rw [← hmove] at hd
    obtain ⟨_, m', hrun', l', hf', hl', hsame⟩ := ih hf₁ (fun b hb => ha b (List.mem_cons_of_mem _ hb)) hd
    refine ⟨(), m', (bind_ok hrun).trans hrun', l', hf', hl'.trans hmove, fun b hb => ?_⟩
    rw [List.mem_cons, not_or] at hb
    exact (hsame b hb.2).trans (hsame₁ b hb.1)

end

/-! ## A small machine -/

section

attribute [local instance] Image.least

/-- Memory that `kinit` has not seen. -/
def emptyMem : Mem := ⟨fun _ _ => 0, 0⟩

def bootPages : List ℕ := (List.range 40).map samplePage

def bootMem : Mem :=
  match kfreeAll bootPages emptyMem with
  | .ok (_, m) => m
  | .error _ => emptyMem

/-- The kernel before `userinit`. The kernel stacks are after the free pages. -/
def blankState : State where
  mem := bootMem
  proc := fun _ => Proc.zero
  iref := fun _ => 0
  outstanding := 0
  kpages := []
  kstack := fun p => samplePage (50 + p)
  stores := []

theorem freeOk_emptyMem : FreeOk emptyMem [] := ⟨rfl, fun _ hp => absurd hp List.not_mem_nil⟩

theorem blankState_ok : ∃ l, Blank blankState l ∧ l.length = 40 := by
  have hpage : ∀ a ∈ bootPages, IsPage a := by
    intro a ha
    obtain ⟨k, hk, rfl⟩ := List.mem_map.1 ha
    exact isPage_sample ((List.mem_range.1 hk).trans (by decide))
  have hd : Distinct ((bootPages : Multiset ℕ) + kernelPages blankState) := ⟨by decide +kernel⟩
  obtain ⟨_, m, hrun, l, hfree, hl, -⟩ := kfreeAll_spec bootPages freeOk_emptyMem hpage (by
    rw [Multiset.coe_nil, zero_add]
    exact hd.left)
  rw [Multiset.coe_nil, zero_add] at hl
  have hm : blankState.mem = m := by
    change bootMem = m
    rw [bootMem, hrun]
  refine ⟨l, ⟨by rwa [hm], fun _ => rfl, by rwa [hl]⟩, ?_⟩
  rw [← Multiset.coe_card, hl, Multiset.coe_card]
  rfl

def bootState : State :=
  match userinit [] 0 blankState with
  | .ok (_, s) => s
  | .error _ => blankState

theorem bootState_ok : ∃ l A, MemOk bootState l (update (fun _ => noTab) initproc A) 0 ∧
    (bootState.proc initproc).state = .live ∧ A.Top ∧ l.length = 33 := by
  obtain ⟨l₀, hblank, hl₀⟩ := blankState_ok
  obtain ⟨_, s, hrun, l, A, hm, hlive, htop, hl⟩ :=
    userinit_spec [] 0 hblank (by decide) (by omega)
  have hs : bootState = s := by rw [bootState, hrun]
  rw [hs]
  exact ⟨l, A, hm, hlive, htop, by omega⟩

end

end Xv6.Kernel

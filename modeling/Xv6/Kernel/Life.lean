import Xv6.Kernel.Memory

/-!
# A new process

* **`allocproc_spec`**: what `allocproc` takes from the free list.
* `Fresh`: a slot on its way to a process; **`Fresh.memOk`**: it takes its place.
-/

namespace Xv6.Kernel

open Vm Fail Bag
open Icache (Ip)

section

variable [Image] {s s' : State} {l : List ℕ} {T : Pid → Tab} {P : Multiset ℕ} {R : Multiset Fp} {p : Pid}

section

omit [Image]

theorem onMem_eq_ok {α : Type} {x : MemM α} {a : α} (h : onMem x s = .ok (a, s')) :
    ∃ m', x s.mem = .ok (a, m') ∧ s' = s.setMem m' := by
  cases hx : x s.mem with
  | error e =>
    rw [onMem, hx] at h
    cases h
  | ok r =>
    rw [onMem_ok hx] at h
    cases h
    exact ⟨r.2, rfl, rfl⟩

theorem setProc_self (s : State) (p : Pid) : s.setProc p (s.proc p) = s := by
  rw [State.setProc, Function.update_eq_self]

end

def Proc.withTable (v : Proc) (tf r : ℕ) : Proc := { v with tf := tf, pagetable := r }

/-- **A slot that `allocproc` hands out**, with `n` user pages: the pages come from the free list. -/
structure Fresh (s : State) (l : List ℕ) (np : Pid) (tf r : ℕ) (m' : Mem) (l' : List ℕ) (A : Tab)
    (n : ℕ) : Prop where
  unused : (s.proc np).state = .unused
  page : IsPage tf
  space : Space m' l' r A n
  bal : (l' : Multiset ℕ) + A.nodes + A.user + {tf} = l
  frame : ∀ a, a ∉ l → m'.page a = s.mem.page a
  top : A.Top ∨ A.leaf (nuser + 1) = none

/-- **`allocproc`.** It panics if the last free page becomes the trapframe. -/
theorem allocproc_spec (hm : MemOk s l T P) : Ends (l.length ≠ 1) allocproc s fun o s' => match o with
    | none => s' = s ∧ ((∃ q, (s.proc q).state = .unused) → l = [])
    | some np => ∃ tf r m' l' A, s' = (s.setMem m').setProc np ((s.proc np).withTable tf r) ∧
        Fresh s l np tf r m' l' A 0 ∧ (4 ≤ l.length → A.Top ∧ Built A 0) := by
  have hrun : allocproc s = (match (List.finRange nproc).find? fun p => (s.proc p).state = .unused with
    | none => pure none
    | some p => do
      let tf ← onMem kalloc
      if tf = 0 then do
        setProc p { s.proc p with tf := 0 }
        pure none
      else do
        let pagetable ← onMem (procPagetable tf)
        setProc p { s.proc p with tf := tf, pagetable := pagetable }
        pure (some p) : KM (Option Pid)) s := rfl
  refine Ends.of_eq hrun ?_
  cases hfind : (List.finRange nproc).find? fun p => (s.proc p).state = .unused with
  | none =>
    refine Ends.pure ⟨rfl, ?_⟩
    rintro ⟨q, hq⟩
    have hnone := List.find?_eq_none.1 hfind q (List.mem_finRange q)
    exact absurd hq (by simpa using hnone)
  | some np =>
    have hu : (s.proc np).state = .unused := by simpa using List.find?_some hfind
    simp only []
    cases l with
    | nil =>
      have h0 : onMem kalloc s = .ok (0, s) := onMem_ok (kalloc_nil hm.free)
      have hsame : s.setProc np { s.proc np with tf := 0 } = s := by
        have htf : { s.proc np with tf := 0 } = s.proc np := by
          rw [← ((hm.proc np).unused hu).1]
        rw [htf, setProc_self]
      refine Ends.of_eq (bind_ok h0) ?_
      rw [if_pos rfl]
      refine Ends.of_eq (setProc_bind np _ _) ?_
      rw [hsame]
      exact Ends.pure ⟨rfl, fun _ => rfl⟩
    | cons tf l =>
      have hnd := hm.distinct.left.left.left
      have htf := hm.free.pages tf List.mem_cons_self
      obtain ⟨m₁, hkalloc, hf₁, hsame₁⟩ := kalloc_cons hm.free hnd.nodup
      refine Ends.of_eq (bind_ok (onMem_ok hkalloc)) ?_
      rw [if_neg htf.ne_zero]
      by_cases hne : l = []
      · have herr : procPagetable tf m₁ = .error .uvmcreate := bind_error (bind_ok (kalloc_nil (hne ▸ hf₁)))
        have herr' : onMem (procPagetable tf) (s.setMem m₁) = .error .uvmcreate := onMem_error herr
        refine ⟨fun a t h => (nomatch (bind_error herr').symm.trans h), fun he => ?_⟩
        rw [hne] at he
        exact absurd rfl he
      have hd₁ : Distinct (l : Multiset ℕ) := ⟨(List.nodup_cons.1 hnd.nodup).2⟩
      have htf56 : tf < 2 ^ 56 := htf.lt.trans (by decide)
      obtain ⟨r, m₂, htable, l', A, hspace, hbal, hsame₂, htop⟩ := procPagetable_spec hf₁ hd₁ hne htf56
      have hmem : onMem (procPagetable tf) (s.setMem m₁) = .ok (r, s.setMem m₂) := onMem_ok htable
      have huser : A.user = 0 := Multiset.card_eq_zero.1 hspace.card_user
      refine Ends.of_eq (bind_ok hmem) (Ends.of_eq (setProc_bind np _ _) (Ends.pure ?_))
      refine ⟨tf, r, m₂, l', A, rfl, ⟨hu, htf, hspace, ?_, ?_, ?_⟩, ?_⟩
      · rw [huser, add_zero, hbal, add_comm, ← Multiset.cons_coe]
        exact Multiset.singleton_add _ _
      · intro a ha
        rw [List.mem_cons, not_or] at ha
        exact (hsame₂ a ha.2).trans (hsame₁ a ha.1)
      · rcases htop with ⟨-, h₁, h₂, -⟩ | ⟨-, h₁⟩
        · exact .inl ⟨by simp [h₁], by simp [h₂]⟩
        · exact .inr h₁
      · intro h4
        rw [List.length_cons] at h4
        rcases htop with ⟨-, h₁, h₂, hb⟩ | ⟨h3, -⟩
        · exact ⟨⟨by simp [h₁], by simp [h₂]⟩, hb⟩
        · omega

theorem Fresh.grow {np : Pid} {tf r n n' k : ℕ} {m' m'' : Mem} {l' l'' : List ℕ} {A A' : Tab}
    (h : Fresh s l np tf r m' l' A n) (hspace : Space m'' l'' r A' n')
    (hmv : Moves k m' l' A m'' l'' A') : Fresh s l np tf r m'' l'' A' n' := by
  refine ⟨h.unused, h.page, hspace, ?_, ?_, ?_⟩
  · rw [hmv.bal, h.bal]
  · intro a ha
    refine (hmv.frame a fun hm => ha ?_).trans (h.frame a ha)
    rw [← Multiset.mem_coe, ← h.bal]
    exact Multiset.mem_add.2 (.inl hm)
  · rw [Tab.Top, hmv.top nuser le_rfl, hmv.top (nuser + 1) (Nat.le_succ _)]
    exact h.top

section Fresh

variable {np : Pid} {tf r n : ℕ} {m' m'' : Mem} {l' : List ℕ} {A : Tab}

theorem Fresh.nodup (h : Fresh s l np tf r m' l' A n) (hm : MemOk s l T P) :
    Distinct ((l' : Multiset ℕ) + A.nodes + A.user + {tf}) := by
  rw [h.bal]
  exact hm.distinct.left.left.left

theorem Fresh.setTf (h : Fresh s l np tf r m' l' A n) (hm : MemOk s l T P)
    (hf : m''.freelist = m'.freelist) (hsame : ∀ a, a ≠ tf → m''.page a = m'.page a) :
    Fresh s l np tf r m'' l' A n := by
  have hd := h.nodup hm
  have hne : ∀ a ∈ (l' : Multiset ℕ) + A.nodes + A.user, a ≠ tf := by
    rintro a ha rfl
    exact hd.notMem ha (Multiset.mem_singleton_self _)
  have hspace : Space m'' l' r A n := by
    refine Maps.space ((maps_of_space h.space).frame fun a ha => hsame a (hne a (by simp [ha]))) ?_ hd.left
    exact h.space.free.frame hf fun a ha => hsame a (hne a (by simp [ha]))
  refine ⟨h.unused, h.page, hspace, h.bal, fun a ha => ?_, h.top⟩
  refine (hsame a ?_).trans (h.frame a ha)
  rintro rfl
  refine ha (Multiset.mem_coe.1 ?_)
  rw [← h.bal]
  exact Multiset.mem_add.2 (.inr (Multiset.mem_singleton_self _))

theorem Fresh.memOk (h : Fresh s l np tf r s'.mem l' A n) (hm : MemOk s l T P) (hk : SameKernel s s')
    (hother : ∀ q, q ≠ np → s'.proc q = s.proc q) (hlive : (s'.proc np).state = .live)
    (htf : (s'.proc np).tf = tf) (hr : (s'.proc np).pagetable = r) (hn : npages (s'.proc np).sz = n) :
    MemOk s' l' (Function.update T np A) P := by
  have hr0 : r ≠ 0 := (h.space.tab.pages _ _ h.space.tab.root).ne_zero
  have hproc : ProcOk s'.mem (s'.proc np) A := by
    refine ⟨⟨?_, ?_, ?_⟩, ?_, ?_⟩
    · intro _
      rw [hr, hn]
      exact maps_of_space h.space
    · intro h0
      rw [hr] at h0
      exact absurd h0 hr0
    · intro _
      rw [htf]
      exact h.page
    · intro _
      rw [htf, hr]
      exact ⟨h.page.ne_zero, hr0⟩
    · intro hu
      rw [hlive] at hu
      cases hu
  refine hm.change hk hother h.space.free hproc ⟨?_, ?_⟩ hm.pipes
  · rw [(hm.proc np).own_unused h.unused, own, tfPages, htf, if_neg h.page.ne_zero, ← h.bal]
    refine le_of_eq ?_
    abel
  · intro a ha
    exact h.frame a fun hl => ha (by simp [hl])

end Fresh

end

end Xv6.Kernel

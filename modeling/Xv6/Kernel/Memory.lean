import Xv6.Kernel.Code
import Xv6.Vm.Process

/-!
# Who owns which page

* `Maps`: an address space apart from the free list. `ProcOk`: the memory of one process; `own`: its pages.
* `MemOk`: the free list, the kernel, the processes and others such as pipes have no page in common.
* `Trade`: pages change hands, or get lost, and only they are written. **`MemOk.change`**: a trade between the
  free list, the pipes and one process.
-/

namespace Xv6.Kernel

open Function Vm Fail Bag
open Icache (Ip)

/-! ## Programs over the kernel -/

section Programs

variable {α β : Type} {s : State}

theorem getProc_bind (p : Pid) (f : Proc → KM α) : (getProc p >>= f) s = f (s.proc p) s := rfl

theorem setProc_bind (p : Pid) (v : Proc) (f : Unit → KM α) :
    (setProc p v >>= f) s = f () (s.setProc p v) := rfl

theorem get_bind (f : State → KM α) : ((get : KM State) >>= f) s = f s s := rfl

theorem onMem_ok {x : MemM α} {a : α} {m : Mem} (h : x s.mem = .ok (a, m)) :
    onMem x s = .ok (a, s.setMem m) := by
  rw [onMem, h]

theorem onMem_error {x : MemM α} {e : Panic} (h : x s.mem = .error e) : onMem x s = .error e := by
  rw [onMem, h]

end Programs

/-! ## Trades -/

/-- **Pages change hands**: of the pages `A` the pages `B` are left, and only pages in `A` are written. -/
structure Trade (m : Mem) (A : Multiset ℕ) (m' : Mem) (B : Multiset ℕ) : Prop where
  le : B ≤ A
  frame : ∀ a, a ∉ A → m'.page a = m.page a

namespace Trade

variable {m m' m'' : Mem} {A B C X : Multiset ℕ}

theorem add (h : Trade m A m' B) (X : Multiset ℕ) : Trade m (A + X) m' (B + X) where
  le := add_le_add_left h.le X
  frame := fun a ha => h.frame a fun hA => ha (Multiset.mem_add.2 (.inl hA))

end Trade

section

variable [Image]

section

omit [Image]

theorem add_mod_pgsize {p o : ℕ} (hp : p % pgsize = 0) (ho : o < pgsize) : (p + o) % pgsize = o := by
  rw [Nat.add_mod, hp, Nat.zero_add, Nat.mod_mod, Nat.mod_eq_of_lt ho]

theorem setWord_eq {m : Mem} {p o : ℕ} (hp : p % pgsize = 0) (ho : o < pgsize) (v : ℕ) :
    m.setWord (p + o) v = m.setPage p (Bytes.store (m.page p) o 8 v) := by
  rw [Mem.setWord, pgRoundDown_add hp ho, add_mod_pgsize hp ho]

theorem word_eq {m : Mem} {p o : ℕ} (hp : p % pgsize = 0) (ho : o < pgsize) :
    m.word (p + o) = Bytes.load (m.page p) o 8 := by
  rw [Mem.word, pgRoundDown_add hp ho, add_mod_pgsize hp ho]

end

/-! ## Address spaces -/

/-- **An address space whose first `n` pages are mapped.** -/
structure Maps (m : Mem) (r : ℕ) (T : Tab) (n : ℕ) : Prop where
  tab : TabOk m r T
  mapped : ∀ v < nuser, T.leaf v ≠ none ↔ v < n
  pages : ∀ v w, v < nuser → T.leaf v = some w → IsPage (pte2pa w)
  top : ∀ v w, nuser ≤ v → T.leaf v = some w → v ≤ nuser + 1 ∧ ¬ Has w pteU

variable {m m' : Mem} {l : List ℕ} {r n : ℕ}

theorem maps_of_space {T : Tab} (h : Space m l r T n) : Maps m r T n := ⟨h.tab, h.mapped, h.pages, h.top⟩

theorem Maps.space {T : Tab} (h : Maps m r T n) (hf : FreeOk m l)
    (hd : Distinct ((l : Multiset ℕ) + T.nodes + T.user)) : Space m l r T n :=
  ⟨hf, h.tab, hd, h.mapped, h.pages, h.top⟩

theorem Maps.frame {T : Tab} (h : Maps m r T n) (hm : ∀ a ∈ T.nodes, m'.page a = m.page a) :
    Maps m' r T n :=
  { h with tab := h.tab.frame hm }

def noTab : Tab := ⟨fun _ => none, fun _ => none⟩

section

omit [Image]

theorem nodes_noTab : noTab.nodes = 0 := bag_none fun _ _ => rfl

theorem user_noTab : noTab.user = 0 := bag_none fun _ _ => rfl

end

/-! ## Processes -/

def tfPages (v : Proc) : Multiset ℕ := if v.tf = 0 then 0 else {v.tf}

/-- **The pages of a process**, apart from its kernel stack. -/
def own (v : Proc) (T : Tab) : Multiset ℕ := T.nodes + T.user + tfPages v

/-- **What a process holds**, whatever state it is in. -/
structure Held (m : Mem) (v : Proc) (T : Tab) : Prop where
  table : v.pagetable ≠ 0 → Maps m v.pagetable T (npages v.sz)
  none : v.pagetable = 0 → T = noTab
  tf : v.tf ≠ 0 → IsPage v.tf

/-- **The memory of one process.** -/
structure ProcOk (m : Mem) (v : Proc) (T : Tab) : Prop extends Held m v T where
  used : v.state ≠ .unused → v.tf ≠ 0 ∧ v.pagetable ≠ 0
  unused : v.state = .unused → v.tf = 0 ∧ v.pagetable = 0 ∧ v.sz = 0

theorem Held.frame {v : Proc} {T : Tab} (h : Held m v T) (hm : ∀ a ∈ T.nodes, m'.page a = m.page a) :
    Held m' v T :=
  { h with table := fun hr => (h.table hr).frame hm }

theorem ProcOk.frame {v : Proc} {T : Tab} (h : ProcOk m v T) (hm : ∀ a ∈ T.nodes, m'.page a = m.page a) :
    ProcOk m' v T :=
  { h with toHeld := h.toHeld.frame hm }

theorem ProcOk.own_unused {v : Proc} {T : Tab} (h : ProcOk m v T) (hu : v.state = .unused) :
    own v T = 0 := by
  rw [own, h.none (h.unused hu).2.1, nodes_noTab, user_noTab, tfPages, if_pos (h.unused hu).1]
  rfl

/-! ## The whole of memory -/

def kernelPages (s : State) : Multiset ℕ := s.kpages + ∑ p, {s.kstack p}

/-- **All owners have different pages**: the free list `l`, the kernel, the processes, and others such as
pipes with the pages `P`. -/
structure MemOk (s : State) (l : List ℕ) (T : Pid → Tab) (P : Multiset ℕ) : Prop where
  free : FreeOk s.mem l
  proc : ∀ p, ProcOk s.mem (s.proc p) (T p)
  distinct : Distinct ((l : Multiset ℕ) + P + kernelPages s + ∑ p, own (s.proc p) (T p))
  pipes : ∀ a ∈ P, IsPage a

variable {s s' : State} {T : Pid → Tab} {P P' : Multiset ℕ} {p q : Pid}

def SameKernel (s s' : State) : Prop := s'.kpages = s.kpages ∧ s'.kstack = s.kstack

theorem MemOk.congrProcs (h : MemOk s l T P) (hm : s'.mem = s.mem) (hk : SameKernel s s')
    (hp : ∀ q, ProcOk s.mem (s'.proc q) (T q)) (ho : ∀ q, own (s'.proc q) (T q) = own (s.proc q) (T q)) :
    MemOk s' l T P := by
  refine ⟨?_, ?_, ?_, h.pipes⟩
  · rw [hm]
    exact h.free
  · rw [hm]
    exact hp
  · rw [kernelPages, hk.1, hk.2, Finset.sum_congr rfl fun q _ => ho q]
    exact h.distinct

theorem MemOk.congr (h : MemOk s l T P) (hm : s'.mem = s.mem) (hp : s'.proc = s.proc)
    (hk : SameKernel s s') : MemOk s' l T P := by
  refine h.congrProcs hm hk ?_ ?_
  · rw [hp]
    exact h.proc
  · intro q
    rw [hp]

omit [Image] in
theorem sum_own (s : State) (T : Pid → Tab) (p : Pid) : ∑ q, own (s.proc q) (T q) =
    own (s.proc p) (T p) + ∑ q ∈ Finset.univ.erase p, own (s.proc q) (T q) :=
  (Finset.add_sum_erase Finset.univ (fun q => own (s.proc q) (T q)) (Finset.mem_univ p)).symm

theorem MemOk.split (h : MemOk s l T P) (p : Pid) :
    Distinct ((l : Multiset ℕ) + P + own (s.proc p) (T p) +
      (kernelPages s + ∑ q ∈ Finset.univ.erase p, own (s.proc q) (T q))) := by
  have hd := h.distinct
  rw [sum_own s T p] at hd
  have he : (l : Multiset ℕ) + P + own (s.proc p) (T p) +
      (kernelPages s + ∑ q ∈ Finset.univ.erase p, own (s.proc q) (T q)) =
      l + P + kernelPages s +
        (own (s.proc p) (T p) + ∑ q ∈ Finset.univ.erase p, own (s.proc q) (T q)) := by
    abel
  rw [he]
  exact hd

theorem MemOk.other (h : MemOk s l T P) (hq : q ≠ p) {a : ℕ} (ha : a ∈ own (s.proc q) (T q)) :
    a ∉ (l : Multiset ℕ) + P + own (s.proc p) (T p) := by
  intro hm
  refine (h.split p).notMem hm (Multiset.mem_add.2 (.inr ?_))
  exact Multiset.mem_sum.2 ⟨q, Finset.mem_erase.2 ⟨hq, Finset.mem_univ q⟩, ha⟩

/-- **A trade between the free list, the pipes and process `p`.** -/
theorem MemOk.change (h : MemOk s l T P) {l' : List ℕ} {T' : Tab} (hk : SameKernel s s')
    (hother : ∀ q, q ≠ p → s'.proc q = s.proc q) (hfree : FreeOk s'.mem l')
    (hproc : ProcOk s'.mem (s'.proc p) T')
    (htrade : Trade s.mem (l + P + own (s.proc p) (T p)) s'.mem (l' + P' + own (s'.proc p) T'))
    (hP : ∀ a ∈ P', IsPage a) : MemOk s' l' (update T p T') P' := by
  refine ⟨hfree, ?_, ?_, hP⟩
  · intro q
    by_cases hq : q = p
    · subst hq
      rw [update_self]
      exact hproc
    · rw [update_of_ne hq, hother q hq]
      refine (h.proc q).frame fun a ha => htrade.frame a (h.other hq ?_)
      simp [own, ha]
  · have hrest : ∑ q ∈ Finset.univ.erase p, own (s'.proc q) (update T p T' q) =
        ∑ q ∈ Finset.univ.erase p, own (s.proc q) (T q) := by
      refine Finset.sum_congr rfl fun q hq => ?_
      have hq := (Finset.mem_erase.1 hq).1
      rw [update_of_ne hq, hother q hq]
    have hd := h.split p
    have he : (l' : Multiset ℕ) + P' + kernelPages s' +
        ∑ q, own (s'.proc q) (update T p T' q) =
        l' + P' + own (s'.proc p) T' +
          (kernelPages s + ∑ q ∈ Finset.univ.erase p, own (s.proc q) (T q)) := by
      rw [sum_own s' (update T p T') p, update_self, hrest, kernelPages, hk.1, hk.2,
        ← kernelPages]
      abel
    rw [he]
    exact hd.mono (add_le_add_left htrade.le _)

theorem MemOk.space (h : MemOk s l T P) (hr : (s.proc p).pagetable ≠ 0) :
    Space s.mem l (s.proc p).pagetable (T p) (npages (s.proc p).sz) := by
  refine ((h.proc p).table hr).space h.free ((h.split p).left.mono ?_)
  rw [own]
  refine Multiset.le_iff_exists_add.2 ⟨P + tfPages (s.proc p), ?_⟩
  abel

theorem MemOk.changePipes (h : MemOk s l T P) {l' : List ℕ} {P' : Multiset ℕ} (hk : SameKernel s s')
    (hproc : s'.proc = s.proc) (hfree : FreeOk s'.mem l') (htrade : Trade s.mem (l + P) s'.mem (l' + P'))
    (hP : ∀ a ∈ P', IsPage a) : MemOk s' l' T P' := by
  have hframe : ProcOk s'.mem (s'.proc 0) (T 0) := by
    rw [hproc]
    refine (h.proc 0).frame fun a ha => htrade.frame a fun hm => ?_
    exact (h.split 0).left.notMem hm (by simp [own, ha])
  have htrade' : Trade s.mem (l + P + own (s.proc 0) (T 0)) s'.mem (l' + P' + own (s'.proc 0) (T 0)) := by
    rw [hproc]
    exact htrade.add _
  have hch := h.change hk (fun q _ => congrFun hproc q) hfree hframe htrade' hP
  rwa [update_eq_self] at hch

section

omit [Image]

theorem proc_setProc_self (s : State) (p : Pid) (w : Proc) : (s.setProc p w).proc p = w :=
  update_self ..

theorem proc_setProc_of_ne {q : Pid} {w : Proc} (h : q ≠ p) : (s.setProc p w).proc q = s.proc q :=
  update_of_ne h _ _

end

end

end Xv6.Kernel

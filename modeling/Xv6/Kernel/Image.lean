import Xv6.Kernel.Load

/-!
# `exec` as a whole

* `Progress`: `exec` has made a new page table and not yet committed to it.
* `Clean`: a file and a number of free pages for which a failing `exec` gives back what it took.
* `Failed`, `Committed`: how `exec` returns. **`exec_spec`**: it returns in one of these ways, if the old and the new
  page table map the trampoline and the trapframe.
-/

namespace Xv6.Kernel

open Function Vm Fail Bag
open Icache (Ip)

/-- The program headers of `f` and `c` free pages are such that a failing `exec` loses no page: there are enough
pages for what the headers ask for, and the image has a size when a header is refused. With fewer than three
free pages `exec` does not return `-1`: it panics. -/
def Clean (f : Content) (elf : Elfhdr) (c : ℕ) : Prop :=
  c < 3 ∨ if (f.scan elf.phnum (elf.phoff % 2 ^ 32) 0).1 then
      cost (npages (f.scan elf.phnum (elf.phoff % 2 ^ 32) 0).2 + 2) ≤ c
    else (f.scan elf.phnum (elf.phoff % 2 ^ 32) 0).2 ≠ 0 ∧
      cost (npages (f.scan elf.phnum (elf.phoff % 2 ^ 32) 0).2) ≤ c

section

variable [Image] {s s' s'' : State} {l l' l'' : List ℕ} {T : Pid → Tab} {P : Multiset ℕ} {p : Pid} {r n : ℕ}
  {A A' : Tab} {E clean : Prop}

/-- **A new page table at `r`, on the way from `s` to `s'`.** The pages `l` were free in `s`. -/
structure Progress (s : State) (l : List ℕ) (T : Pid → Tab) (P : Multiset ℕ) (r : ℕ) (s' : State)
    (l' : List ℕ) (A : Tab) (n : ℕ) : Prop where
  step : ∃ es, s' = s.loaded s'.mem es ∧ ∀ e ∈ es, StoreOk r e
  mem : MemOk s' l' T (P + (A.nodes + A.user))
  space : Space s'.mem l' r A n
  bal : (l' : Multiset ℕ) + A.nodes + A.user = l
  frame : ∀ a, a ∉ l → s'.mem.page a = s.mem.page a

/-- `exec` has returned `-1`; where `clean`, no page is lost. -/
structure Failed (s : State) (l : List ℕ) (T : Pid → Tab) (P : Multiset ℕ) (clean : Prop) (r : ℕ)
    (s' : State) : Prop where
  step : ∃ es, s' = s.loaded s'.mem es ∧ ∀ e ∈ es, StoreOk r e
  mem : ∃ l' : List ℕ, MemOk s' l' T P ∧ (clean → (l' : Multiset ℕ) = l) ∧ (¬ clean → ∃ a ∈ l, a ∉ l')
  frame : ∀ a, a ∉ l → s'.mem.page a = s.mem.page a

structure Committed (s : State) (T : Pid → Tab) (P : Multiset ℕ) (p : Pid) (r : ℕ) (s' : State) : Prop where
  stores : ∃ es, s'.stores = es ++ s.stores ∧ ∀ e ∈ es, StoreOk r e
  mem : ∃ l' A, MemOk s' l' (update T p A) P

theorem isPage_of_space {m : Mem} (h : Space m l r A n) {a : ℕ} (ha : a ∈ A.nodes + A.user) : IsPage a := by
  rcases Multiset.mem_add.1 ha with ha | ha
  · obtain ⟨x, -, hx⟩ := mem_bag.1 ha
    exact h.tab.pages x a hx
  · obtain ⟨v, hv, hpa⟩ := mem_bag.1 ha
    obtain ⟨w, hw, rfl⟩ := Option.map_eq_some_iff.1 hpa
    exact h.pages v w (mem_userPages.1 hv) hw

theorem Progress.effect {n' : ℕ} (h : Progress s l T P r s' l' A n) (heff : Effect r l' A s' l'' A' s'')
    (hspace : Space s''.mem l'' r A' n') : Progress s l T P r s'' l'' A' n' where
  step := by
    obtain ⟨es, hs, hes⟩ := h.step
    obtain ⟨es', hs', hes'⟩ := heff.step
    refine ⟨es' ++ es, ?_, ?_⟩
    · rw [← State.loaded_loaded s s'.mem, ← hs]
      exact hs'
    · intro e he
      rcases List.mem_append.1 he with he | he
      · exact hes' e he
      · exact hes e he
  mem := by
    obtain ⟨es', hs', -⟩ := heff.step
    have hproc : s''.proc = s'.proc := by
      rw [hs']
      rfl
    have hk : SameKernel s' s'' := by
      rw [hs']
      exact ⟨rfl, rfl⟩
    refine h.mem.changePipes hk hproc hspace.free ⟨le_of_eq ?_, ?_⟩ ?_
    · have hbal := heff.bal
      calc (l'' : Multiset ℕ) + (P + (A'.nodes + A'.user)) = P + (l'' + A'.nodes + A'.user) := by abel
        _ = P + (l' + A.nodes + A.user) := by rw [hbal]
        _ = l' + (P + (A.nodes + A.user)) := by abel
    · intro a ha
      refine heff.frame a fun hm => ha ?_
      simp only [Multiset.mem_add] at hm ⊢
      tauto
    · intro a ha
      rcases Multiset.mem_add.1 ha with ha | ha
      · exact h.mem.pipes a (Multiset.mem_add.2 (.inl ha))
      · exact isPage_of_space hspace ha
  space := hspace
  bal := heff.bal.trans h.bal
  frame := by
    intro a ha
    refine (heff.frame a fun hm => ha ?_).trans (h.frame a ha)
    rw [← Multiset.mem_coe, ← h.bal]
    exact hm

theorem freeSpare {sz : ℕ} (hm : MemOk s l T (P + (A.nodes + A.user))) (hspace : Space s.mem l r A n)
    (hn : sz ≠ 0 → n = npages sz) (htop : E → A.Top) :
    Ends E (onMem (procFreepagetable r sz)) s fun _ s' => A.Top ∧ ∃ m' l', s' = s.setMem m' ∧
      MemOk s' l' T P ∧ (l' : Multiset ℕ) = (if sz = 0 then (l : Multiset ℕ) else l + A.nodes + A.user) ∧
      ∀ a, a ∉ (l : Multiset ℕ) + A.nodes + A.user → m'.page a = s.mem.page a := by
  -- if the table maps the trampoline and the trapframe, it can be freed; if it is freed, it does
  have hyields : A.Top → Yields (onMem (procFreepagetable r sz)) s fun _ s' => A.Top ∧ ∃ m' l',
      s' = s.setMem m' ∧ MemOk s' l' T P ∧
      (l' : Multiset ℕ) = (if sz = 0 then (l : Multiset ℕ) else l + A.nodes + A.user) ∧
      ∀ a, a ∉ (l : Multiset ℕ) + A.nodes + A.user → m'.page a = s.mem.page a := by
    intro ht
    obtain ⟨_, m', hrun, l', hfree, hl', hsame⟩ := procFreepagetable_spec hspace hn ht
    refine ⟨(), _, onMem_ok hrun, ht, m', l', rfl, ?_, hl', hsame⟩
    have hk : SameKernel s (s.setMem m') := ⟨rfl, rfl⟩
    refine hm.changePipes hk rfl hfree ⟨?_, ?_⟩ ?_
    · rw [hl']
      split_ifs
      · rw [← add_assoc]
        exact Multiset.le_add_right _ _
      · refine le_of_eq ?_
        abel
    · intro a ha
      refine hsame a fun hmem => ha ?_
      simp only [Multiset.mem_add] at hmem ⊢
      tauto
    · exact fun a ha => hm.pipes a (Multiset.mem_add.2 (.inl ha))
  refine ⟨fun _ s' hrun => ?_, fun he => hyields (htop he)⟩
  obtain ⟨m', hfree, -⟩ := onMem_eq_ok hrun
  exact (hyields (top_of_procFreepagetable hspace hfree)).may _ s' hrun

/-- **The error exit of `exec`**: the new table is freed. -/
theorem Progress.fail (h : Progress s l T P r s' l' A n) (sz : ℕ) (clean : Prop)
    (hn : sz ≠ 0 → n = npages sz) (htop : E → A.Top) (hclean : A.Top → (clean ↔ sz ≠ 0)) :
    Ends E (onMem (procFreepagetable r sz)) s' fun _ s'' => Failed s l T P clean r s'' := by
  refine Ends.mono (freeSpare h.mem h.space hn htop) ?_
  rintro - s'' ⟨ht, m'', l'', rfl, hm, hl, hsame⟩
  have hcl := hclean ht
  obtain ⟨es, hs, hes⟩ := h.step
  refine ⟨⟨es, ?_, hes⟩, ⟨l'', hm, fun hc => ?_, fun hc => ?_⟩, fun a ha => ?_⟩
  · rw [hs]
    rfl
  · rw [hl, if_neg (hcl.1 hc)]
    exact h.bal
  · -- the root of the table is lost
    rw [if_pos (not_not.1 fun h0 => hc (hcl.2 h0))] at hl
    have hroot : r ∈ A.nodes := h.space.tab.mem_nodes h.space.tab.root
    refine ⟨r, ?_, fun hmem => ?_⟩
    · rw [← Multiset.mem_coe, ← h.bal]
      simp [hroot]
    · rw [← Multiset.mem_coe, hl] at hmem
      exact h.space.nodup.left.notMem hmem hroot
  · refine (hsame a fun hmem => ha ?_).trans (h.frame a ha)
    rw [← Multiset.mem_coe, ← h.bal]
    exact hmem

/-! ## The commit -/

def Proc.committed (v : Proc) (path : List UInt8) (r sz : ℕ) : Proc :=
  { v with name := safestrcpy v.name (lastName path), pagetable := r, sz := sz }

/-- **The old and the new page table change places.** -/
theorem MemOk.swap {sz : ℕ} {path : List UInt8} {m' : Mem} (hm : MemOk s l T (P + (A.nodes + A.user)))
    (hspace : Space s.mem l r A (npages sz)) (hlive : (s.proc p).state = .live)
    (hlist : m'.freelist = s.mem.freelist) (hsame : ∀ a, a ≠ (s.proc p).tf → m'.page a = s.mem.page a) :
    MemOk ((s.setMem m').setProc p ((s.proc p).committed path r sz)) l (update T p A)
      (P + ((T p).nodes + (T p).user)) := by
  have hv := hm.proc p
  obtain ⟨htf, hr⟩ := hv.used (by rw [hlive]; decide)
  have hspace₀ := hm.space hr
  have htfown : (s.proc p).tf ∈ own (s.proc p) (T p) := by
    simp [own, tfPages, if_neg htf]
  -- the trapframe is none of the pages of the tables or the free list
  have hne : ∀ a ∈ (l : Multiset ℕ) + (P + (A.nodes + A.user)), a ≠ (s.proc p).tf := by
    rintro a ha rfl
    exact (hm.split p).left.notMem ha htfown
  set w := (s.proc p).committed path r sz
  set s' := (s.setMem m').setProc p w
  have hw : s'.proc p = w := proc_setProc_self ..
  have hk : SameKernel s s' := ⟨rfl, rfl⟩
  have hother : ∀ q, q ≠ p → s'.proc q = s.proc q := fun q hq => proc_setProc_of_ne hq
  have hfree : FreeOk m' l := hspace.free.frame hlist fun a ha => hsame a (hne a (by simp [ha]))
  have hmaps : Maps m' r A (npages sz) :=
    (maps_of_space hspace).frame fun a ha => hsame a (hne a (by simp [ha]))
  have hr' := (hspace.tab.pages _ _ hspace.tab.root).ne_zero
  have hproc : ProcOk s'.mem (s'.proc p) A := by
    rw [hw]
    refine ⟨⟨fun _ => hmaps, fun h0 => absurd h0 hr', hv.tf⟩, fun _ => ⟨htf, hr'⟩, fun hu => ?_⟩
    cases hlive.symm.trans hu
  refine hm.change hk hother hfree hproc ⟨le_of_eq ?_, fun a ha => hsame a ?_⟩ ?_
  · rw [hw]
    change (l : Multiset ℕ) + (P + ((T p).nodes + (T p).user)) +
      (A.nodes + A.user + tfPages (s.proc p)) = l + (P + (A.nodes + A.user)) +
        ((T p).nodes + (T p).user + tfPages (s.proc p))
    abel
  · rintro rfl
    exact ha (Multiset.mem_add.2 (.inr htfown))
  · intro a ha
    rcases Multiset.mem_add.1 ha with ha | ha
    · exact hm.pipes a (Multiset.mem_add.2 (.inl ha))
    · exact isPage_of_space hspace₀ ha

/-- The memory once `exec` has stored the stack pointer and the entry in the trapframe at `tf`. -/
def storeFrame (m : Mem) (tf sp entry : ℕ) : Mem :=
  ((m.setWord (tf + a1Off) sp).setWord (tf + epcOff) entry).setWord (tf + spOff) sp

section

omit [Image]

theorem storeFrame_page {m : Mem} {tf : ℕ} (htf : tf % pgsize = 0) (sp entry : ℕ) :
    (storeFrame m tf sp entry).freelist = m.freelist ∧
      ∀ a, a ≠ tf → (storeFrame m tf sp entry).page a = m.page a := by
  have hword : ∀ (m : Mem) (o x : ℕ), o < pgsize → (m.setWord (tf + o) x).freelist = m.freelist ∧
      ∀ a, a ≠ tf → (m.setWord (tf + o) x).page a = m.page a := by
    intro m o x ho
    rw [setWord_eq htf ho]
    exact ⟨rfl, fun a ha => page_setPage_of_ne ha⟩
  refine ⟨?_, fun a ha => ?_⟩
  · exact (hword _ spOff _ (by decide)).1.trans
      ((hword _ epcOff _ (by decide)).1.trans (hword _ a1Off _ (by decide)).1)
  · exact ((hword _ spOff _ (by decide)).2 a ha).trans
      (((hword _ epcOff _ (by decide)).2 a ha).trans ((hword _ a1Off _ (by decide)).2 a ha))

theorem storeFrame_words {m m' : Mem} {tf sp entry : ℕ} (htf : tf % pgsize = 0) (hsp : sp < 2 ^ 64)
    (hentry : entry < 2 ^ 64) (hpage : m'.page tf = (storeFrame m tf sp entry).page tf) :
    m'.word (tf + a1Off) = sp ∧ m'.word (tf + epcOff) = entry ∧ m'.word (tf + spOff) = sp := by
  have hd : m'.page tf =
      Bytes.store (Bytes.store (Bytes.store (m.page tf) a1Off 8 sp) epcOff 8 entry) spOff 8 sp := by
    rw [hpage, storeFrame, setWord_eq htf (by decide), page_setPage_same, setWord_eq htf (by decide),
      page_setPage_same, setWord_eq htf (by decide), page_setPage_same]
  rw [word_eq htf (by decide), word_eq htf (by decide), word_eq htf (by decide), hd]
  refine ⟨?_, ?_, ?_⟩
  · rw [Bytes.load_store_of_disjoint (by decide), Bytes.load_store_of_disjoint (by decide),
      Bytes.load_store_same (by decide)]
    exact Nat.mod_eq_of_lt hsp
  · rw [Bytes.load_store_of_disjoint (by decide), Bytes.load_store_same (by decide)]
    exact Nat.mod_eq_of_lt hentry
  · rw [Bytes.load_store_same (by decide)]
    exact Nat.mod_eq_of_lt hsp

end

theorem Progress.commit_run {sz : ℕ} {elf : Elfhdr} {path : List UInt8} {sp : ℕ}
    (h : Progress s l T P r s' l' A (npages sz)) (hlive : (s.proc p).state = .live)
    (hold : E → (T p).Top) :
    Ends E (commit p path elf r sz sp) s' fun _ s'' => ∃ m'' l'',
      s'' = (s'.setMem m'').setProc p ((s'.proc p).committed path r sz) ∧
      MemOk s'' l'' (update T p A) P ∧ (∀ a ∈ A.nodes + A.user, m''.page a = s'.mem.page a) ∧
      m''.page (s'.proc p).tf = (storeFrame s'.mem (s'.proc p).tf sp elf.entry).page (s'.proc p).tf := by
  have hproc : s'.proc = s.proc := by
    obtain ⟨es, hs, -⟩ := h.step
    rw [hs]
    rfl
  have hlive' : (s'.proc p).state = .live := by
    rw [hproc]
    exact hlive
  obtain ⟨htf, hr⟩ := (h.mem.proc p).used (by rw [hlive']; decide)
  have hpage := (h.mem.proc p).tf htf
  set v := s'.proc p
  set m₁ := storeFrame s'.mem v.tf sp elf.entry
  obtain ⟨hlist, hsame⟩ := storeFrame_page (m := s'.mem) hpage.1 sp elf.entry
  have hswap : MemOk ((s'.setMem m₁).setProc p (v.committed path r sz)) l' (update T p A)
      (P + ((T p).nodes + (T p).user)) := h.mem.swap h.space hlive' hlist hsame
  have hspace₀ := h.mem.space hr
  have hsplit := (h.mem.split p).left
  have htfown : v.tf ∈ own v (T p) := by
    simp [own, tfPages, if_neg htf]
  have hnodes : ∀ a ∈ (T p).nodes + (T p).user, a ≠ v.tf := by
    rintro a ha rfl
    have hd := hsplit.right
    rw [own] at hd
    refine hd.notMem ha ?_
    rw [tfPages, if_neg htf]
    exact Multiset.mem_singleton_self _
  have hspace₁ : Space m₁ l' v.pagetable (T p) (npages v.sz) := by
    refine Maps.space ((maps_of_space hspace₀).frame fun a ha => hsame a ?_) hswap.free hspace₀.nodup
    exact hnodes a (Multiset.mem_add.2 (.inl ha))
  have hrun : Kernel.commit p path elf r sz sp s' = onMem (procFreepagetable v.pagetable v.sz)
      ((s'.setMem m₁).setProc p (v.committed path r sz)) := rfl
  refine Ends.of_eq hrun (Ends.mono (freeSpare hswap hspace₁ (fun _ => rfl) hold) ?_)
  rintro - s'' ⟨-, m'', l'', rfl, hm'', -, hframe⟩
  refine ⟨m'', l'', rfl, hm'', fun a ha => ?_, hframe _ fun hmem => ?_⟩
  · have hmem : a ∈ (l' : Multiset ℕ) + (P + (A.nodes + A.user)) :=
      Multiset.mem_add.2 (.inr (Multiset.mem_add.2 (.inr ha)))
    have hnot := hsplit.notMem hmem
    refine (hframe a fun hin => ?_).trans (hsame a fun he => hnot (he ▸ htfown))
    rw [add_assoc] at hin
    rcases Multiset.mem_add.1 hin with hin | hin
    · exact hsplit.left.notMem hin (Multiset.mem_add.2 (.inr ha))
    · refine hnot ?_
      rw [own]
      exact Multiset.mem_add.2 (.inl hin)
  · rw [add_assoc] at hmem
    rcases Multiset.mem_add.1 hmem with hin | hin
    · exact hsplit.notMem (Multiset.mem_add.2 (.inl hin)) htfown
    · exact hnodes _ hin rfl

theorem Progress.commit {sz : ℕ} {elf : Elfhdr} {path : List UInt8} {sp : ℕ}
    (h : Progress s l T P r s' l' A (npages sz)) (hlive : (s.proc p).state = .live)
    (hold : E → (T p).Top) :
    Ends E (commit p path elf r sz sp) s' fun _ s'' => Committed s T P p r s'' := by
  obtain ⟨es, hs, hes⟩ := h.step
  refine Ends.mono (h.commit_run hlive hold) ?_
  rintro - s'' ⟨m'', l'', rfl, hm'', -, -⟩
  refine ⟨⟨es, ?_, hes⟩, l'', A, hm''⟩
  change s'.stores = _
  rw [hs]
  rfl

/-! ## The stack -/

def Outcome (s : State) (l : List ℕ) (T : Pid → Tab) (P : Multiset ℕ) (p : Pid) (clean : Prop) (r : ℕ) :
    Option ℕ → State → Prop
  | none, s' => Failed s l T P clean r s'
  | some _, s' => clean ∧ Committed s T P p r s'

theorem clearGuard {v : ℕ} (h : Space s.mem l r A n) (hv : v < n) :
    Yields (onMem (uvmclear r (v * pgsize))) s fun _ s' => ∃ A', Effect r l A s l A' s' ∧
      Space s'.mem l r A' n := by
  obtain ⟨_, m', hrun, A', hspace, hnodes, huser, hleaf, -, -, hsame⟩ := uvmclear_spec h hv
  refine ⟨(), _, onMem_ok hrun, A', .setMem ?_ (fun a ha => hsame a fun hm => ha ?_) fun x hx => ?_, hspace⟩
  · rw [hnodes, huser]
  · simp [hm]
  · exact hleaf x (hv.trans_le (h.le_nuser.trans hx)).ne'

theorem Progress.budget (h : Progress s l T P r s' l' A n) (hb : Built A n) : l'.length + cost n = l.length := by
  rw [Kernel.budget h.space hb, h.bal, Multiset.coe_card]

omit [Image] in
theorem Effect.top_iff (h : Effect r l A s l' A' s') : A'.Top ↔ A.Top := by
  rw [Tab.Top, Tab.Top, h.top nuser le_rfl, h.top (nuser + 1) (Nat.le_succ _)]

theorem execStack_spec {sz : ℕ} {elf : Elfhdr} {path : List UInt8} {argv : List Str}
    (h : Progress s l T P r s' l' A (npages sz)) (hlive : (s.proc p).state = .live)
    (hold : E → clean → (T p).Top) (htop : E → A.Top) (hnot : ¬ A.Top → clean)
    (hclean : A.Top → Built A (npages sz) ∧ (clean ↔ cost (npages sz + 2) ≤ l.length)) :
    Ends E (execStack p path elf argv r sz) s' (Outcome s l T P p clean r) := by
  have hle := h.space.le
  have hbase : pgRoundUp sz = npages sz * pgsize := pgRoundUp_eq ((size_lt hle).trans (by decide))
  have hnew : (npages sz * pgsize + 2 * pgsize) % 2 ^ 64 = (npages sz + 2) * pgsize := by
    rw [← Nat.add_mul]
    refine Nat.mod_eq_of_lt ?_
    simp only [pgsize] at *
    omega
  rw [execStack]
  simp only [hbase, hnew]
  have hspace := h.space
  rw [← npages_mul (npages sz)] at hspace
  refine Ends.bind (enlarge hspace ((npages sz + 2) * pgsize)).ends ?_
  rintro res s₁ ⟨l₁, A₁, heff₁, hgrow | ⟨rfl, -, hspace₁, -, hlack⟩⟩
  · have hres : res = (npages sz + 2) * pgsize := by
      rw [hgrow.size]
      refine max_eq_right (Nat.mul_le_mul_right _ (Nat.le_add_right _ _))
    have hres0 : res ≠ 0 := by
      simp only [pgsize] at hres
      omega
    have hn : npages res = npages sz + 2 := by
      rw [hres]
      exact npages_mul _
    have h₁ : Progress s l T P r s₁ l₁ A₁ (npages res) := h.effect heff₁ hgrow.space
    have hcl : clean := by
      by_cases ht : A.Top
      swap
      · exact hnot ht
      obtain ⟨hb, hiff⟩ := hclean ht
      rw [← npages_mul (npages sz)] at hb
      rw [hiff, ← h₁.budget (hgrow.built hb), hn]
      exact Nat.le_add_left _ _
    have hguard : res - 2 * pgsize = npages sz * pgsize := by
      rw [hres, Nat.add_mul]
      exact Nat.add_sub_cancel _ _
    rw [if_neg hres0, hguard]
    refine Ends.bind (clearGuard h₁.space (by omega)).ends ?_
    rintro - s₂ ⟨A₂, heff₂, hspace₂⟩
    refine Ends.bind (pushStack_spec res argv hspace₂).ends ?_
    rintro o s₃ ⟨heff₃, hspace₃⟩
    have h₃ : Progress s l T P r s₃ l₁ A₂ (npages res) := (h₁.effect heff₂ hspace₂).effect heff₃ hspace₃
    cases o with
    | none =>
      refine Ends.bind (h₃.fail res clean (fun _ => rfl) (fun he => ?_) fun _ => ?_) ?_
      · exact heff₂.top_iff.2 (heff₁.top_iff.2 (htop he))
      · exact ⟨fun _ => hres0, fun _ => hcl⟩
      · exact fun _ _ hf => Ends.pure hf
    | some sp => exact Ends.bind (h₃.commit hlive fun he => hold he hcl) fun _ _ hc => Ends.pure ⟨hcl, hc⟩
  · rw [if_pos rfl]
    have h₁ := h.effect heff₁ hspace₁
    refine Ends.bind (h₁.fail 0 clean (fun h0 => absurd rfl h0) (fun he => heff₁.top_iff.2 (htop he)) fun ht => ?_) ?_
    · obtain ⟨hb, hiff⟩ := hclean (heff₁.top_iff.1 ht)
      have hbud := h.budget hb
      rw [← npages_mul (npages sz)] at hb
      have hlt := hlack hb
      rw [npages_mul, npages_mul] at hlt
      rw [hiff]
      constructor
      · intro hle
        omega
      · exact fun h0 => absurd rfl h0
    · exact fun _ _ hf => Ends.pure hf

/-! ## The call -/

def State.busy (s : State) (ip : Ip) : State :=
  { s with outstanding := s.outstanding + 1, iref := update s.iref ip (s.iref ip + 1) }

omit [Image] in
theorem doneFile_run (s : State) (ip : Ip) (m : Mem) (es : List Store) :
    doneFile ip ((s.busy ip).loaded m es) = .ok ((), s.loaded m es) := by
  have href : update (update s.iref ip (s.iref ip + 1)) ip
      (update s.iref ip (s.iref ip + 1) ip - 1) = s.iref := by
    rw [update_self, update_idem]
    exact update_eq_self ip s.iref
  change Except.ok ((), _) = _
  simp only [State.busy, State.loaded]
  rw [href]
  rfl

theorem exec_noHeader {path : List UInt8} {ip : Ip} {f : Content} {argv : List Str} (h : f.elfhdr = none) :
    exec p path (some (ip, f)) argv s = .ok (none, s) := by
  have hdone := doneFile_run s ip s.mem []
  simp only [exec, h]
  change (doneFile ip >>= fun _ => pure none : KM (Option ℕ)) ((s.busy ip).loaded s.mem []) = _
  rw [bind_ok hdone]
  rfl

theorem Progress.done {ip : Ip} (h : Progress (s.busy ip) l T P r s' l' A n) :
    ∃ s'', doneFile ip s' = .ok ((), s'') ∧ Progress s l T P r s'' l' A n := by
  obtain ⟨es, hs, hes⟩ := h.step
  have hrun := doneFile_run s ip s'.mem es
  rw [← hs] at hrun
  refine ⟨_, hrun, ⟨es, rfl, hes⟩, ?_, h.space, h.bal, h.frame⟩
  have hproc : (s.loaded s'.mem es).proc = s'.proc := by
    rw [hs]
    rfl
  have hk : SameKernel s' (s.loaded s'.mem es) := by
    rw [hs]
    exact ⟨rfl, rfl⟩
  exact h.mem.congr rfl hproc hk

theorem Failed.done {ip : Ip} (h : Failed (s.busy ip) l T P clean r s') :
    ∃ s'', doneFile ip s' = .ok ((), s'') ∧ Failed s l T P clean r s'' := by
  obtain ⟨es, hs, hes⟩ := h.step
  obtain ⟨l', hm, hc, hn⟩ := h.mem
  have hrun := doneFile_run s ip s'.mem es
  rw [← hs] at hrun
  refine ⟨_, hrun, ⟨es, rfl, hes⟩, ⟨l', ?_, hc, hn⟩, h.frame⟩
  have hproc : (s.loaded s'.mem es).proc = s'.proc := by
    rw [hs]
    rfl
  have hk : SameKernel s' (s.loaded s'.mem es) := by
    rw [hs]
    exact ⟨rfl, rfl⟩
  exact hm.congr rfl hproc hk

theorem newTable {tf : ℕ} (hm : MemOk s l T P) (hne : l ≠ []) (htf : tf < 2 ^ 56) :
    Yields (onMem (procPagetable tf)) s fun r s' => procPagetable tf s.mem = .ok (r, s'.mem) ∧
      ∃ l' A, Progress s l T P r s' l' A 0 ∧
        (3 ≤ l.length ∧ A.Top ∧ Built A 0 ∨ l.length < 3 ∧ ¬ A.Top) := by
  obtain ⟨r, m', hrun, l', A, hspace, hbal, hsame, htop⟩ :=
    procPagetable_spec hm.free hm.distinct.left.left.left hne htf
  have huser : A.user = 0 := Multiset.card_eq_zero.1 hspace.card_user
  refine ⟨r, _, onMem_ok hrun, hrun, l', A, ⟨⟨[], rfl, ?_⟩, ?_, hspace, ?_, hsame⟩, ?_⟩
  · exact fun _ he => absurd he List.not_mem_nil
  · have hk : SameKernel s (s.setMem m') := ⟨rfl, rfl⟩
    refine hm.changePipes hk rfl hspace.free ⟨le_of_eq ?_, fun a ha => hsame a fun hl => ha ?_⟩ ?_
    · rw [huser, add_zero, ← hbal]
      abel
    · simp [hl]
    · intro a ha
      rcases Multiset.mem_add.1 ha with ha | ha
      · exact hm.pipes a ha
      · exact isPage_of_space hspace ha
  · rw [huser, add_zero]
    exact hbal
  · rcases htop with ⟨h3, h₁, h₂, hb⟩ | ⟨h3, h₁⟩
    · exact .inl ⟨h3, ⟨by simp [h₁], by simp [h₂]⟩, hb⟩
    · exact .inr ⟨h3, fun ht => ht.1 h₁⟩

theorem exec_eq {path : List UInt8} {ip : Ip} {f : Content} {elf : Elfhdr} {argv : List Str}
    (helf : f.elfhdr = some elf) : exec p path (some (ip, f)) argv s = (do
      let pagetable ← onMem (procPagetable (s.proc p).tf)
      let loaded ← loadPhdrs f pagetable elf.phnum (elf.phoff % 2 ^ 32) 0
      if loaded.1 then do
        doneFile ip
        execStack p path elf argv pagetable loaded.2
      else do
        onMem (procFreepagetable pagetable loaded.2)
        doneFile ip
        pure none : KM (Option ℕ)) (s.busy ip) := by
  simp only [exec, helf]
  rfl

theorem MemOk.tf_lt (hm : MemOk s l T P) (hlive : (s.proc p).state = .live) : (s.proc p).tf < 2 ^ 56 := by
  have hv := hm.proc p
  have hpage := hv.tf (hv.used (by rw [hlive]; decide)).1
  exact hpage.lt.trans (by decide)

theorem procPagetable_nil {tf : ℕ} (hm : MemOk s [] T P) (ip : Ip) :
    onMem (procPagetable tf) (s.busy ip) = .error .uvmcreate :=
  onMem_error (bind_error (bind_ok (kalloc_nil hm.free)))

theorem exec_spec {path : List UInt8} {ip : Ip} {f : Content} {elf : Elfhdr} {argv : List Str}
    (hm : MemOk s l T P) (hlive : (s.proc p).state = .live) (helf : f.elfhdr = some elf) :
    Ends (3 ≤ l.length ∧ (Clean f elf l.length → (T p).Top)) (exec p path (some (ip, f)) argv) s
      fun res s' => ∃ r m₁, procPagetable (s.proc p).tf s.mem = .ok (r, m₁) ∧
        Outcome s l T P p (Clean f elf l.length) r res s' := by
  set clean := Clean f elf l.length with hcl
  refine Ends.of_eq (exec_eq helf) ?_
  have hm₁ : MemOk (s.busy ip) l T P := hm.congr rfl rfl ⟨rfl, rfl⟩
  by_cases hne : l = []
  · subst hne
    refine ⟨fun a t h => (by cases (bind_error (procPagetable_nil hm ip)).symm.trans h), fun he => ?_⟩
    exact absurd he.1 (by decide)
  refine Ends.bind (newTable hm₁ hne (hm.tf_lt hlive)).ends ?_
  rintro r s₁ ⟨hnew, l₁, A₁, h₁, htop₁⟩
  refine Ends.mono (Q := Outcome s l T P p clean r) ?_ fun res s' ho => ⟨r, _, hnew, ho⟩
  have hu₁ : UserAll A₁ (npages 0) := fun v hv => absurd hv (Nat.not_lt_zero v)
  refine Ends.bind (loadPhdrs_spec f elf.phnum h₁.space hu₁).ends ?_
  rintro ⟨ok, sz⟩ s₂ ⟨l₂, A₂, z, heff, hspace, -, hz, hsc⟩
  have h₂ := h₁.effect heff hspace
  have htop₂ : 3 ≤ l.length → A₂.Top := by
    intro h3
    rcases htop₁ with ⟨-, ht, -⟩ | ⟨hlt, -⟩
    · exact heff.top_iff.2 ht
    · exact absurd h3 (Nat.not_le.2 hlt)
  have hthree : A₂.Top → 3 ≤ l.length ∧ Built A₁ 0 := by
    intro ht
    rcases htop₁ with ⟨h3, -, hb⟩ | ⟨-, hnt⟩
    · exact ⟨h3, hb⟩
    · exact absurd (heff.top_iff.1 ht) hnt
  have hscanned : A₂.Top → 3 ≤ l.length ∧
      Scanned f elf.phnum (elf.phoff % 2 ^ 32) 0 l.length (ok, sz) A₂ z := by
    intro ht
    obtain ⟨h3, hb⟩ := hthree ht
    have hsc := hsc hb
    have hbud : l₁.length + cost (npages 0) = l.length := h₁.budget hb
    rw [hbud] at hsc
    exact ⟨h3, hsc⟩
  cases ok with
  | true =>
    have hzsz : z = sz := by
      rcases hz with hz | hz
      · exact hz.symm
      · cases hz
    subst hzsz
    obtain ⟨s₃, hdone, h₃⟩ := h₂.done
    refine Ends.of_eq (bind_ok hdone) (execStack_spec h₃ hlive (fun he hc => he.2 hc)
      (fun he => htop₂ he.1) (fun hnt => ?_) fun ht => ?_)
    · exact .inl (Nat.lt_of_not_le fun h3 => hnt (htop₂ h3))
    · obtain ⟨h3, hscan⟩ := hscanned ht
      by_cases hc : cost (npages (f.scan elf.phnum (elf.phoff % 2 ^ 32) 0).2) ≤ l.length
      · obtain ⟨hres, -, hb⟩ := hscan.enough hc
        refine ⟨hb, ?_⟩
        rw [hcl, Clean, ← hres, if_pos rfl]
        exact or_iff_right (Nat.not_lt.2 h3)
      · cases hscan.lack (Nat.lt_of_not_le hc)
  | false =>
    refine Ends.bind (h₂.fail sz clean ?_ (fun he => htop₂ he.1) fun ht => ?_) ?_
    · intro h0
      rcases hz with hz | hz
      · exact congrArg npages hz.symm
      · exact absurd (congrArg Prod.snd hz) h0
    · obtain ⟨h3, hscan⟩ := hscanned ht
      rw [hcl, Clean, or_iff_right (Nat.not_lt.2 h3)]
      by_cases hc : cost (npages (f.scan elf.phnum (elf.phoff % 2 ^ 32) 0).2) ≤ l.length
      · obtain ⟨hres, -, -⟩ := hscan.enough hc
        rw [← hres] at hc ⊢
        rw [if_neg Bool.false_ne_true]
        exact ⟨fun h => h.1, fun h => ⟨h, hc⟩⟩
      · have hlack := hscan.lack (Nat.lt_of_not_le hc)
        have h0 : sz = 0 := congrArg Prod.snd hlack
        refine ⟨fun h => ?_, fun h => absurd h0 h⟩
        split_ifs at h
        · exact absurd ((cost_le_cost (Nat.le_add_right _ 2)).trans h) hc
        · exact absurd h.2 hc
    · intro _ s₃ hfail
      obtain ⟨s₄, hdone, hfail'⟩ := hfail.done
      exact Ends.of_eq (bind_ok hdone) (Ends.pure hfail')

end

end Xv6.Kernel

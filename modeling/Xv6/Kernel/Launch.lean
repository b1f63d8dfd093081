import Xv6.Kernel.Args
import Xv6.Kernel.Boot

/-!
# What `exec` leaves behind

A run of `exec` is taken apart into the loading of the segments, the allocation of the stack, the pushes and the
commit, with what the user sees of the new memory along the way.

* `exec_cases`, `execStack_cases`: the parts of a run.
* `commit_loads`: the commit changes nothing that the program sees.
* `ArgStack`: the argument stack of a program. **`exec_stack`**: what `exec` leaves on it, and when it does not fit.
-/

namespace Xv6.Kernel

open Function Vm Fail Bag
open Icache (Ip)

section

variable [Image] {s s' s'' : State} {l l' l'' : List ℕ} {T : Pid → Tab} {P : Multiset ℕ} {p : Pid} {r n : ℕ}
  {A : Tab} {path : List UInt8} {argv : List Str} {res : Option ℕ}

/-! ## The parts of a run -/

omit [Image] in
theorem three_le_cost (n : ℕ) : 3 ≤ cost n := by
  rw [cost, tables]
  omega

/-- **A run of `exec`** ends with the segments, or goes on to the stack. -/
theorem exec_cases {ip : Ip} {f : Content} {elf : Elfhdr} (hm : MemOk s l T P) (hlive : (s.proc p).state = .live)
    (helf : f.elfhdr = some elf) (hrun : exec p path (some (ip, f)) argv s = .ok (res, s')) :
    ∃ r s₁ l₁ A₁ ok sz s₂, Progress (s.busy ip) l T P r s₁ l₁ A₁ 0 ∧
      loadPhdrs f r elf.phnum (elf.phoff % 2 ^ 32) 0 s₁ = .ok ((ok, sz), s₂) ∧
      (ok = false ∧ res = none ∧ ((f.scan elf.phnum (elf.phoff % 2 ^ 32) 0).1 = true →
          l.length < cost (npages (f.scan elf.phnum (elf.phoff % 2 ^ 32) 0).2)) ∨
        ok = true ∧ ∃ s₃ l₃ A₃, s₃.mem = s₂.mem ∧ Progress s l T P r s₃ l₃ A₃ (npages sz) ∧
          (cost (npages (f.scan elf.phnum (elf.phoff % 2 ^ 32) 0).2) ≤ l.length →
            Built A₃ (npages sz) ∧ sz = (f.scan elf.phnum (elf.phoff % 2 ^ 32) 0).2 ∧
              (f.scan elf.phnum (elf.phoff % 2 ^ 32) 0).1 = true) ∧
          execStack p path elf argv r sz s₃ = .ok (res, s')) := by
  set scan := f.scan elf.phnum (elf.phoff % 2 ^ 32) 0 with hscan
  rw [exec_eq helf] at hrun
  have hm₁ : MemOk (s.busy ip) l T P := hm.congr rfl rfl ⟨rfl, rfl⟩
  obtain ⟨r, s₁, hnew, hrun⟩ := bind_eq_ok hrun
  have hne : l ≠ [] := by
    rintro rfl
    cases (procPagetable_nil hm ip).symm.trans hnew
  obtain ⟨-, l₁, A₁, h₁, htop₁⟩ := (newTable hm₁ hne (hm.tf_lt hlive)).may r s₁ hnew
  have hu₁ : UserAll A₁ (npages 0) := fun v hv => absurd hv (Nat.not_lt_zero v)
  obtain ⟨⟨ok, sz⟩, s₂, hload, hrun⟩ := bind_eq_ok hrun
  obtain ⟨l₂, A₂, z, heff, hspace, -, hz, hsc⟩ := (loadPhdrs_spec f elf.phnum h₁.space hu₁).may _ _ hload
  have hscanned : 3 ≤ l.length → Scanned f elf.phnum (elf.phoff % 2 ^ 32) 0 l.length (ok, sz) A₂ z := by
    intro h3
    rcases htop₁ with ⟨-, -, hb⟩ | ⟨hlt, -⟩
    · have hsc := hsc hb
      have hbud : l₁.length + cost (npages 0) = l.length := h₁.budget hb
      rwa [hbud] at hsc
    · exact absurd h3 (Nat.not_le.2 hlt)
  refine ⟨r, s₁, l₁, A₁, ok, sz, s₂, h₁, hload, ?_⟩
  cases ok with
  | false =>
    left
    obtain ⟨-, s₃, -, hrun⟩ := bind_eq_ok hrun
    obtain ⟨-, s₄, -, hrun⟩ := bind_eq_ok hrun
    cases hrun
    refine ⟨rfl, rfl, fun htrue => ?_⟩
    by_contra hge
    have hc := Nat.not_lt.1 hge
    obtain ⟨hres, -, -⟩ := (hscanned ((three_le_cost _).trans hc)).enough hc
    rw [← hscan] at hres
    rw [← hres] at htrue
    cases htrue
  | true =>
    right
    have hzsz : z = sz := by
      rcases hz with hz | hz
      · exact hz.symm
      · cases hz
    subst hzsz
    obtain ⟨s₃, hdone, h₃⟩ := (h₁.effect heff hspace).done
    obtain ⟨_, s₃', hdone', hrun⟩ := bind_eq_ok hrun
    cases hdone.symm.trans hdone'
    have hmem : s₃.mem = s₂.mem := by
      obtain ⟨es, hs, -⟩ := (h₁.effect heff hspace).step
      rw [hs] at hdone
      cases (doneFile_run s ip s₂.mem es).symm.trans hdone
      rfl
    refine ⟨rfl, s₃, l₂, A₂, hmem, h₃, fun hc => ?_, hrun⟩
    obtain ⟨hres, -, hb⟩ := (hscanned ((three_le_cost _).trans hc)).enough hc
    exact ⟨hb, congrArg Prod.snd hres, (congrArg Prod.fst hres).symm⟩

/-- The top of the stack: two pages above the segments. -/
abbrev stackTop (sz : ℕ) : ℕ := (npages sz + 2) * pgsize

/-- **A run of `exec` after the segments** ends with the allocation, or pushes the arguments. -/
theorem execStack_cases {sz : ℕ} {elf : Elfhdr} (h : Progress s l T P r s' l' A (npages sz))
    (hrun : execStack p path elf argv r sz s' = .ok (res, s'')) :
    (res = none ∧ (Built A (npages sz) → l.length < cost (npages sz + 2))) ∨
    ∃ s₁ l₁ A₁ o s₂, Progress s l T P r s₁ l₁ A₁ (npages sz + 2) ∧
      (∀ x < npages sz * pgsize, loadByte s₁.mem r x = loadByte s'.mem r x) ∧
      (∀ x, stackTop sz - pgsize ≤ x → x < stackTop sz → A₁.addr x ≠ 0) ∧
      (∀ x, npages sz * pgsize ≤ x → x < stackTop sz - pgsize → A₁.addr x = 0) ∧
      pushStack r (stackTop sz) argv s₁ = .ok (o, s₂) ∧
      (o = none ∧ res = none ∨
        ∃ sp, o = some sp ∧ res = some argv.length ∧ commit p path elf r (stackTop sz) sp s₂ = .ok ((), s'')) := by
  have hle := h.space.le
  have hbase : pgRoundUp sz = npages sz * pgsize := pgRoundUp_eq ((size_lt hle).trans (by decide))
  have hnew : (npages sz * pgsize + 2 * pgsize) % 2 ^ 64 = stackTop sz := by
    rw [stackTop, ← Nat.add_mul]
    refine Nat.mod_eq_of_lt ?_
    simp only [pgsize] at *
    omega
  rw [execStack] at hrun
  simp only [hbase, hnew] at hrun
  have hspace := h.space
  rw [← npages_mul (npages sz)] at hspace
  obtain ⟨z, s₁, halloc, hrun⟩ := bind_eq_ok hrun
  obtain ⟨l₁, A₁, heff₁, hgrow | ⟨rfl, -, -, -, hlack⟩⟩ := (enlarge hspace (stackTop sz)).may z s₁ halloc
  swap
  · left
    rw [if_pos rfl] at hrun
    obtain ⟨-, s₂, -, hrun⟩ := bind_eq_ok hrun
    cases hrun
    refine ⟨rfl, fun hb => ?_⟩
    have hbud := h.budget hb
    rw [← npages_mul (npages sz)] at hb
    have hlt := hlack hb
    rw [npages_mul, npages_mul] at hlt
    omega
  right
  have hz : z = stackTop sz := by
    rw [hgrow.size]
    exact max_eq_right (Nat.mul_le_mul_right _ (Nat.le_add_right _ _))
  have hn : npages (stackTop sz) = npages sz + 2 := npages_mul _
  subst hz
  have h₁ := h.effect heff₁ hgrow.space
  rw [hn] at h₁
  -- what the two new pages hold
  obtain ⟨m₁, hm₁, rfl⟩ := onMem_eq_ok halloc
  obtain ⟨hold, hzero⟩ := uvmalloc_loads hspace _ _ hm₁
  rw [npages_mul] at hold hzero
  rw [hn] at hzero
  have hpos : stackTop sz ≠ 0 := by
    simp only [stackTop, pgsize]
    omega
  have hguard : stackTop sz - 2 * pgsize = npages sz * pgsize := by
    rw [stackTop, Nat.add_mul]
    exact Nat.add_sub_cancel _ _
  rw [if_neg hpos, hguard] at hrun
  obtain ⟨_, s₂, hclear, hrun⟩ := bind_eq_ok hrun
  obtain ⟨A₂, heff₂, hspace₂⟩ := (clearGuard h₁.space (by omega)).may _ _ hclear
  have h₂ := h₁.effect heff₂ hspace₂
  obtain ⟨m₂, hm₂, rfl⟩ := onMem_eq_ok hclear
  obtain ⟨hkeep, hacc⟩ := uvmclear_loads h₁.space (by omega) _ _ hm₂
  obtain ⟨o, s₃, hpush, hrun⟩ := bind_eq_ok hrun
  have htop : stackTop sz - pgsize = (npages sz + 1) * pgsize := by
    rw [stackTop, Nat.succ_mul (npages sz + 1)]
    exact Nat.add_sub_cancel _ _
  have hpages : npages sz * pgsize ≤ (npages sz + 1) * pgsize ∧ (npages sz + 1) * pgsize ≤ stackTop sz :=
    ⟨Nat.mul_le_mul_right _ (Nat.le_succ _), Nat.mul_le_mul_right _ (Nat.le_succ _)⟩
  refine ⟨_, l₁, A₂, o, s₃, h₂, fun x hx => ?_, fun x hlo hhi => ?_, fun x hlo hhi => ?_, hpush, ?_⟩
  · have hx' : x < (npages sz + 2) * pgsize := hx.trans_le (hpages.1.trans hpages.2)
    exact (hkeep x hx').trans (hold x hx).1
  · rw [htop] at hlo
    refine hspace₂.accessible_iff.1 ((hacc x).2 ⟨(hzero hpos x (hpages.1.trans hlo) hhi).2, ?_⟩)
    exact Nat.ne_of_gt ((Nat.le_div_iff_mul_le (by decide)).2 hlo)
  · rw [htop] at hhi
    have hx : x / pgsize = npages sz :=
      (Nat.lt_succ_iff.1 ((Nat.div_lt_iff_lt_mul (by decide)).2 hhi)).antisymm
        ((Nat.le_div_iff_mul_le (by decide)).2 hlo)
    by_contra h0
    exact ((hacc x).1 (hspace₂.accessible_iff.2 h0)).2 hx
  · cases o with
    | none =>
      obtain ⟨-, s₄, -, hrun⟩ := bind_eq_ok hrun
      cases hrun
      exact .inl ⟨rfl, rfl⟩
    | some sp =>
      obtain ⟨_, s₄, hcommit, hrun⟩ := bind_eq_ok hrun
      cases hrun
      exact .inr ⟨sp, rfl, rfl, hcommit⟩

/-- **The commit** changes nothing that the program sees. -/
theorem commit_loads {sz sp : ℕ} {elf : Elfhdr} (h : Progress s l T P r s' l' A (npages sz))
    (hlive : (s.proc p).state = .live) (hsp : sp < 2 ^ 64) (hentry : elf.entry < 2 ^ 64)
    (hrun : commit p path elf r sz sp s' = .ok ((), s'')) :
    (s''.proc p).pagetable = r ∧ (s''.proc p).sz = sz ∧
      s''.mem.word ((s''.proc p).tf + spOff) = sp ∧ s''.mem.word ((s''.proc p).tf + a1Off) = sp ∧
      s''.mem.word ((s''.proc p).tf + epcOff) = elf.entry ∧
      (∀ x < npages sz * pgsize, loadByte s''.mem r x = loadByte s'.mem r x) ∧
      ∀ x, Accessible s''.mem r x ↔ A.addr x ≠ 0 := by
  obtain ⟨m'', l'', rfl, hm, hpages, hframe⟩ := (h.commit_run hlive (E := False) nofun).may _ _ hrun
  have hproc : s'.proc = s.proc := by
    obtain ⟨es, hs, -⟩ := h.step
    rw [hs]
    rfl
  have hv := (h.mem.proc p)
  have htf := hv.tf (hv.used (by rw [hproc, hlive]; decide)).1
  obtain ⟨ha1, hepc, hspw⟩ := storeFrame_words htf.1 hsp hentry hframe
  have hr : r ≠ 0 := (h.space.tab.pages _ _ h.space.tab.root).ne_zero
  have hself : (((s'.setMem m'').setProc p ((s'.proc p).committed path r sz)).proc p) =
      (s'.proc p).committed path r sz := proc_setProc_self ..
  have hspace := hm.space (p := p) (by rw [hself]; exact hr)
  rw [hself, update_self] at hspace
  rw [hself]
  refine ⟨rfl, rfl, hspw, ha1, hepc, fun x hx => ?_, fun x => hspace.accessible_iff⟩
  have hv : x / pgsize < npages sz := Nat.div_lt_of_lt_mul (Nat.mul_comm (npages sz) pgsize ▸ hx)
  obtain ⟨w, hw, -⟩ := h.space.leaf hv
  have hmem : pte2pa w ∈ A.nodes + A.user :=
    Multiset.mem_add.2 (.inr (Tab.page_mem (hv.trans_le h.space.le_nuser) hw))
  refine (hspace.load hx hw).trans (Eq.trans ?_ (h.space.load hx hw).symm)
  exact congrArg (fun d : Page => some (d (pageOffset x))) (hpages _ hmem)

/-! ## The argument stack -/

/-- **The argument stack** of the process `v`, with the stack pointer `sp` and the strings at `ptrs`. -/
structure ArgStack (m : Mem) (v : Proc) (argv : List Str) (sp : ℕ) (ptrs : List ℕ) : Prop where
  size : 2 * pgsize ≤ v.sz
  tfSp : m.word (v.tf + spOff) = sp
  tfA1 : m.word (v.tf + a1Off) = sp
  aligned : sp % 16 = 0
  page : v.sz - pgsize ≤ sp ∧ sp < v.sz
  count : ptrs.length = argv.length
  array : ∀ i x, (ptrs ++ [0])[i]? = some x → loadWord m v.pagetable (sp + 8 * i) = some x
  strings : ∀ (i q : ℕ) (a : Str), argv[i]? = some a → ptrs[i]? = some q →
    q % 16 = 0 ∧ v.sz - pgsize ≤ q ∧ q + a.bytes.length ≤ v.sz ∧ Holds m v.pagetable q a.bytes
  above : ∀ q ∈ ptrs, sp + 8 * (argv.length + 1) ≤ q
  apart : ∀ (i j q q' : ℕ) (b : Str), i < j → argv[j]? = some b → ptrs[i]? = some q → ptrs[j]? = some q' →
    q' + b.bytes.length ≤ q
  guard : ∀ x, v.sz - 2 * pgsize ≤ x → x < v.sz - pgsize → ¬ Accessible m v.pagetable x

/-- The stack pointer after the first `i` strings, as the code computes it. -/
def spAfter (top : ℕ) (argv : List Str) (i : ℕ) : ℕ :=
  (argv.take i).foldl (fun sp a => pushSp sp (a.chars.length + 1)) top

/-- **No subtraction from `sp` wraps**, as long as the checks before it have passed. -/
def NoWrap (top : ℕ) (argv : List Str) : Prop :=
  (∀ i a, argv[i]? = some a → (∀ j ≤ i, top - pgsize ≤ spAfter top argv j) →
    a.chars.length + 1 ≤ spAfter top argv i) ∧
  ((∀ j ≤ argv.length, top - pgsize ≤ spAfter top argv j) →
    (argv.length + 1) * 8 ≤ spAfter top argv argv.length)

section

omit [Image]

theorem noWrap {top : ℕ} (htop : 2 * pgsize ≤ top) (hargc : argv.length < maxArg)
    (hlen : ∀ a ∈ argv, a.chars.length < pgsize) : NoWrap top argv := by
  have hpage : pgsize ≤ top - pgsize := by omega
  refine ⟨fun i a ha hsp => ?_, fun hsp => ?_⟩
  · exact (hlen a (List.mem_of_getElem? ha)).trans_le (hpage.trans (hsp i le_rfl))
  · refine le_trans ?_ (hpage.trans (hsp _ le_rfl))
    simp only [maxArg, pgsize] at hargc ⊢
    omega

theorem argStack {m : Mem} {v : Proc} {top : ℕ} (hsz : v.sz = top) (htop : 2 * pgsize ≤ top) (h16 : top % 16 = 0)
    (hlt : top < 2 ^ 64) (hfit : stackNeed argv ≤ pgsize) (hsp : m.word (v.tf + spOff) = top - stackNeed argv)
    (ha1 : m.word (v.tf + a1Off) = top - stackNeed argv)
    (hstr : Strings m v.pagetable argv (pointers top argv))
    (harr : Holds m v.pagetable (top - stackNeed argv) (wordBytes (pointers top argv ++ [0])))
    (hguard : ∀ x, top - 2 * pgsize ≤ x → x < top - pgsize → ¬ Accessible m v.pagetable x) :
    ArgStack m v argv (top - stackNeed argv) (pointers top argv) := by
  have hmod := argsSize_mod argv
  have hneed : stackNeed argv = argsSize argv + align16 ((argv.length + 1) * 8) := rfl
  have halign := le_align16 ((argv.length + 1) * 8)
  have halign16 : align16 ((argv.length + 1) * 8) % 16 = 0 := Nat.mul_mod_left _ _
  have hargs : argsSize argv ≤ top := by omega
  have hptr : ∀ {i q : ℕ}, (pointers top argv)[i]? = some q → ∃ a, argv[i]? = some a := by
    intro i q hq
    have hi := (List.getElem?_eq_some_iff.1 hq).1
    rw [length_pointers] at hi
    exact ⟨argv[i], List.getElem?_eq_getElem hi⟩
  refine ⟨hsz ▸ htop, hsp, ha1, by omega, by omega, length_pointers top argv, fun i x hx => ?_,
    fun i q a ha hq => ?_, fun q hq => ?_, fun i j q q' b hij hb => ?_, by rwa [hsz]⟩
  · refine harr.loadWord hx ?_
    rcases List.mem_append.1 (List.mem_of_getElem? hx) with hmem | hmem
    · obtain ⟨i, hi⟩ := List.getElem?_of_mem hmem
      obtain ⟨a, ha⟩ := hptr hi
      obtain ⟨q, hq, -, -, hhi⟩ := pointers_spec argv top h16 hargs ha
      cases hi.symm.trans hq
      omega
    · rw [List.mem_singleton.1 hmem]
      decide
  · obtain ⟨q', hq', hq16, hlo, hhi⟩ := pointers_spec argv top h16 hargs ha
    cases hq.symm.trans hq'
    exact ⟨hq16, by omega, by omega, hstr i q a ha hq⟩
  · obtain ⟨i, hi⟩ := List.getElem?_of_mem hq
    obtain ⟨a, ha⟩ := hptr hi
    obtain ⟨q', hq', -, hlo, -⟩ := pointers_spec argv top h16 hargs ha
    cases hi.symm.trans hq'
    omega
  · exact pointers_apart argv top h16 hargs hij hb

end

/-- **`exec` after the segments**: the stack, or none if it does not fit. -/
theorem execStack_args {sz : ℕ} {elf : Elfhdr} (h : Progress s l T P r s' l' A (npages sz))
    (hlive : (s.proc p).state = .live) (hentry : elf.entry < 2 ^ 64) (hargc : argv.length < maxArg)
    (hlen : ∀ a ∈ argv, a.chars.length < pgsize)
    (hrun : execStack p path elf argv r sz s' = .ok (res, s'')) :
    (∀ argc, res = some argc → argc = argv.length ∧ ∃ sp ptrs, ArgStack s''.mem (s''.proc p) argv sp ptrs) ∧
      (Built A (npages sz) → cost (npages sz + 2) ≤ l.length → (res = none ↔ pgsize < stackNeed argv)) := by
  rcases execStack_cases h hrun with ⟨rfl, hlack⟩ | ⟨s₁, l₁, A₁, o, s₂, h₁, -, hacc, hguard, hpush, hend⟩
  · exact ⟨nofun, fun hb hc => absurd hc (Nat.not_le.2 (hlack hb))⟩
  have hle := h₁.space.le
  obtain ⟨h₂, -, ho, hstack⟩ :=
    (pushStack_loads h₁.space rfl (Nat.le_add_left 2 _) hacc hargc hlen).may _ _ hpush
  by_cases hfit : stackNeed argv ≤ pgsize
  · rw [if_pos hfit] at ho
    subst ho
    obtain ⟨hnone, -⟩ | ⟨sp, hsp, rfl, hcommit⟩ := hend
    · cases hnone
    cases hsp
    refine ⟨fun argc hargc => ?_, fun _ _ => ⟨nofun, fun hc => absurd hfit (Nat.not_le.2 hc)⟩⟩
    cases hargc
    obtain ⟨hstr, harr⟩ := hstack hfit
    obtain ⟨heff, -⟩ := (pushStack_spec _ argv h₁.space).may _ _ hpush
    have h₃ := h₁.effect heff h₂
    have htop : stackTop sz < 2 ^ 64 := by
      simp only [stackTop, pgsize]
      omega
    rw [← npages_mul (npages sz + 2)] at h₃
    obtain ⟨hr, hsz, hspw, ha1, -, hload, hmap⟩ := commit_loads h₃ hlive ((Nat.sub_le _ _).trans_lt htop) hentry hcommit
    rw [npages_mul] at hload
    have h16 : (npages sz + 2) * pgsize % 16 = 0 := by
      simp only [pgsize]
      omega
    have hargs : stackNeed argv ≤ stackTop sz :=
      hfit.trans (Nat.le_mul_of_pos_left _ (Nat.succ_pos _))
    refine ⟨rfl, _, _, argStack hsz (Nat.mul_le_mul_right _ (Nat.le_add_left 2 _)) h16 htop hfit hspw ha1 ?_ ?_ ?_⟩
    · intro i q a ha hq
      obtain ⟨q', hq', -, -, hhi⟩ := pointers_spec argv _ h16 ((Nat.le_add_right _ _).trans hargs) ha
      cases hq.symm.trans hq'
      rw [hr]
      exact (hstr i q a ha hq).congr hload hhi
    · rw [hr]
      refine harr.congr hload ?_
      have halign := le_align16 ((argv.length + 1) * 8)
      have hneed : stackNeed argv = argsSize argv + align16 ((argv.length + 1) * 8) := rfl
      rw [length_wordBytes, List.length_append, length_pointers, List.length_singleton]
      simp only [stackTop] at hargs ⊢
      omega
    · intro x hlo hhi
      rw [hr, hmap, not_not]
      refine hguard x ?_ hhi
      rwa [Nat.add_mul, Nat.add_sub_cancel] at hlo
  · rw [if_neg hfit] at ho
    subst ho
    obtain ⟨-, rfl⟩ | ⟨sp, hsp, -, -⟩ := hend
    · exact ⟨nofun, fun _ _ => ⟨fun _ => Nat.not_le.1 hfit, fun _ => rfl⟩⟩
    · cases hsp

/-- The segments load, and there is memory for them and for the stack. -/
def Allocates (f : Content) (elf : Elfhdr) (c : ℕ) : Prop :=
  (f.scan elf.phnum (elf.phoff % 2 ^ 32) 0).1 = true ∧
    cost (npages (f.scan elf.phnum (elf.phoff % 2 ^ 32) 0).2 + 2) ≤ c

omit [Image] in
theorem entry_lt {f : Content} {elf : Elfhdr} (h : f.elfhdr = some elf) : elf.entry < 2 ^ 64 := by
  rw [Content.elfhdr] at h
  split at h
  · split_ifs at h
    cases h
    exact field_lt _ _ _
  · cases h

/-- **The argument stack of `exec`.** If `exec` succeeds, the strings and the array of pointers are on the stack; and
once the image and the stack are allocated, it fails exactly if these do not fit in one page. -/
theorem exec_stack (hm : MemOk s l T P) (hlive : (s.proc p).state = .live) (path : List UInt8)
    (found : Option (Ip × Content)) (argv : List Str) (hargc : argv.length < maxArg)
    (hlen : ∀ a ∈ argv, a.chars.length < pgsize) :
    (∀ sz, NoWrap (stackTop sz) argv) ∧ May (exec p path found argv) s fun res s' =>
      (∀ argc, res = some argc → argc = argv.length ∧ ∃ sp ptrs, ArgStack s'.mem (s'.proc p) argv sp ptrs) ∧
      ∀ ip f elf, found = some (ip, f) → f.elfhdr = some elf → Allocates f elf l.length →
        (res = none ↔ pgsize < stackNeed argv) := by
  refine ⟨fun sz => noWrap (Nat.mul_le_mul_right _ (Nat.le_add_left 2 _)) hargc hlen, fun res s' hrun => ?_⟩
  rcases found with _ | ⟨ip, f⟩
  · cases hrun
    exact ⟨nofun, nofun⟩
  cases helf : f.elfhdr with
  | none =>
    rw [exec_noHeader helf] at hrun
    cases hrun
    refine ⟨nofun, fun ip' f' elf hf helf' => ?_⟩
    cases hf
    exact nomatch helf.symm.trans helf'
  | some elf =>
    obtain ⟨r, s₁, l₁, A₁, ok, sz, s₂, -, -, hend⟩ := exec_cases hm hlive helf hrun
    obtain ⟨-, rfl, hlack⟩ | ⟨-, s₃, l₃, A₃, -, h₃, hsize, hrun⟩ := hend
    · refine ⟨nofun, fun ip' f' elf' hf helf' halloc => ?_⟩
      cases hf
      cases helf.symm.trans helf'
      exact absurd (hlack halloc.1) (Nat.not_lt.2 ((cost_le_cost (Nat.le_add_right _ 2)).trans halloc.2))
    · obtain ⟨hstack, hnone⟩ := execStack_args h₃ hlive (entry_lt helf) hargc hlen hrun
      refine ⟨hstack, fun ip' f' elf' hf helf' halloc => ?_⟩
      cases hf
      cases helf.symm.trans helf'
      obtain ⟨hb, rfl, -⟩ := hsize ((cost_le_cost (Nat.le_add_right _ 2)).trans halloc.2)
      exact hnone hb halloc.2

end

/-! ## A small program -/

def leBytes (n x : ℕ) : List UInt8 := (List.range n).map fun i => UInt8.ofNat (x / 256 ^ i)

/-- A file with one segment: four bytes at `0`, which the program header says to be at `off` of the file. -/
def sampleBytes (off : ℕ) : List UInt8 :=
  leBytes 4 elfMagic ++ leBytes 20 0 ++ leBytes 8 0 ++ leBytes 8 elfhdrSize ++ leBytes 16 0 ++ leBytes 2 1 ++
    leBytes 6 0 ++ (leBytes 4 elfProgLoad ++ leBytes 4 0 ++ leBytes 8 off ++ leBytes 8 0 ++ leBytes 8 0 ++
    leBytes 8 4 ++ leBytes 8 8 ++ leBytes 8 0) ++ [1, 2, 3, 4]

theorem length_sampleBytes (off : ℕ) : (sampleBytes off).length = 124 := by
  simp [sampleBytes, leBytes]

def sampleFile (off : ℕ) : Content :=
  ⟨sampleBytes off, by rw [length_sampleBytes]; decide⟩

def sampleArg : Str := ⟨[108, 115], by decide +kernel, by decide⟩

section

attribute [local instance] Image.least

theorem sample_starts (off : ℕ) (argv : List Str) {l : List ℕ} {A : Tab}
    (hm : MemOk bootState l (update (fun _ => noTab) initproc A) 0)
    (hlive : (bootState.proc initproc).state = .live) (htop : A.Top) (hl : l.length = 33)
    (helf : (sampleFile off).elfhdr = some ⟨elfMagic, 0, elfhdrSize, 1⟩)
    (hscan : (sampleFile off).scan 1 (elfhdrSize % 2 ^ 32) 0 = (true, 8)) (hargc : argv.length < maxArg)
    (hlen : ∀ a ∈ argv, a.chars.length < pgsize) (hfit : stackNeed argv ≤ pgsize) :
    ∃ s', exec initproc [] (some (0, sampleFile off)) argv bootState = .ok (some argv.length, s') := by
  have hends : Ends _ (exec initproc [] (some (0, sampleFile off)) argv) bootState _ := exec_spec hm hlive helf
  obtain ⟨res, s', hrun, -⟩ := hends.yields ⟨by omega, fun _ => by rwa [update_self]⟩
  obtain ⟨r, s₁, l₁, A₁, ok, sz, s₂, -, -, hend⟩ := exec_cases hm hlive helf hrun
  have hcost : cost (npages 8 + 2) ≤ l.length := by
    rw [hl]
    decide
  have hcost' : cost (npages 8) ≤ l.length := (cost_le_cost (Nat.le_add_right _ 2)).trans hcost
  rw [hscan] at hend
  obtain ⟨-, -, hlack⟩ | ⟨-, s₃, l₃, A₃, -, h₃, hsize, hrun'⟩ := hend
  · exact absurd (hlack rfl) (Nat.not_lt.2 hcost')
  obtain ⟨hb, rfl, -⟩ := hsize hcost'
  obtain ⟨hstack, hnone⟩ := execStack_args h₃ hlive (entry_lt helf) hargc hlen hrun'
  cases res with
  | none => exact absurd ((hnone hb hcost).1 rfl) (Nat.not_lt.2 hfit)
  | some argc => exact ⟨s', (hstack argc rfl).1 ▸ hrun⟩

/-- A program is started with one argument. -/
theorem exec_stack_ls : ∃ l T, MemOk bootState l T 0 ∧ (bootState.proc initproc).state = .live ∧
    (∃ s', exec initproc [] (some (0, sampleFile 120)) [sampleArg] bootState = .ok (some 1, s')) ∧
    (∀ sz, NoWrap (stackTop sz) [sampleArg]) ∧
    May (exec initproc [] (some (0, sampleFile 120)) [sampleArg]) bootState fun res s' =>
      (∀ argc, res = some argc → argc = 1 ∧ ∃ sp ptrs, ArgStack s'.mem (s'.proc initproc) [sampleArg] sp ptrs) ∧
      ∀ (ip : Ip) f elf, some (0, sampleFile 120) = some (ip, f) → f.elfhdr = some elf →
        Allocates f elf l.length → (res = none ↔ pgsize < stackNeed [sampleArg]) := by
  obtain ⟨l, A, hm, hlive, htop, hl⟩ := bootState_ok
  have hlen : ∀ a ∈ [sampleArg], a.chars.length < pgsize := by decide
  refine ⟨l, _, hm, hlive, ?_, exec_stack hm hlive [] (some (0, sampleFile 120)) [sampleArg] (by decide) hlen⟩
  exact sample_starts 120 [sampleArg] hm hlive htop hl (by decide +kernel) (by decide +kernel) (by decide) hlen
    (by decide)

end

end Xv6.Kernel

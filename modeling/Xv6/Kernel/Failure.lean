import Xv6.Kernel.Launch

/-!
# When `exec` fails

* **`exec_no_panic`**: whatever the file and the arguments are, `exec` returns, and it stores their bytes into pages
  of the new page table only.
* **`exec_unchanged_iff`**: a failed `exec` leaves everything as it was exactly if `Clean`, that is, if there was
  something in the new table and `sz` still says so: `proc_freepagetable` of size `0` frees no page.
* `exec_leaks`: pages are lost.
-/

namespace Xv6.Kernel

open Function Vm Fail
open Icache (Ip)

section

variable [Image] {s s' : State} {l l' : List ℕ} {T : Pid → Tab} {P : Multiset ℕ} {p : Pid}

/-- **Hostile executables cannot panic the kernel**, where there are the pages for a page table, and that of the
process is complete. -/
theorem exec_no_panic (hm : MemOk s l T P) (hlive : (s.proc p).state = .live) (htop : (T p).Top)
    (hpages : 3 ≤ l.length) (path : List UInt8) (found : Option (Ip × Content)) (argv : List Str) :
    Yields (exec p path found argv) s fun _ s' => ∃ es, s'.stores = es ++ s.stores ∧
      ∀ e ∈ es, ∃ r m, procPagetable (s.proc p).tf s.mem = .ok (r, m) ∧ StoreOk r e := by
  rcases found with _ | ⟨ip, f⟩
  · exact ⟨none, s, rfl, [], rfl, by simp⟩
  cases helf : f.elfhdr with
  | none => exact ⟨none, s, exec_noHeader helf, [], rfl, by simp⟩
  | some elf =>
    refine ((exec_spec hm hlive helf).yields ⟨hpages, fun _ => htop⟩).mono ?_
    rintro res s' ⟨r, m, hnew, hout⟩
    cases res with
    | none =>
      obtain ⟨es, hs, hes⟩ := hout.step
      refine ⟨es, ?_, fun e he => ⟨r, m, hnew, hes e he⟩⟩
      rw [hs]
      rfl
    | some argc =>
      obtain ⟨es, hs, hes⟩ := hout.2.stores
      exact ⟨es, hs, fun e he => ⟨r, m, hnew, hes e he⟩⟩

omit [Image] in
theorem stored_of_pushStack {r sz sp : ℕ} {argv : List Str} (hrun : pushStack r sz argv s = .ok (some sp, s')) :
    s'.stores ≠ [] := by
  obtain ⟨_ | ⟨sp', ustack⟩, s₁, -, hrun⟩ := bind_eq_ok hrun
  · cases hrun
  dsimp only at hrun
  split_ifs at hrun
  · cases hrun
  obtain ⟨ok, s₂, hstore, hrun⟩ := bind_eq_ok hrun
  rw [storing, get_bind] at hstore
  obtain ⟨_, _, -, hstore⟩ := bind_eq_ok hstore
  cases hstore
  cases ok <;> cases hrun
  exact List.cons_ne_nil _ _

/-- A program that starts has its array of pointers on the stack. -/
theorem stored_of_exec {ip : Ip} {f : Content} {elf : Elfhdr} {path : List UInt8} {argv : List Str} {argc : ℕ}
    (hm : MemOk s l T P) (hlive : (s.proc p).state = .live) (helf : f.elfhdr = some elf)
    (hrun : exec p path (some (ip, f)) argv s = .ok (some argc, s')) : s'.stores ≠ [] := by
  obtain ⟨r, -, -, -, -, sz, -, -, -, ⟨-, hres, -⟩ | ⟨-, s₁, l₁, A₁, -, h₁, -, hrun⟩⟩ :=
    exec_cases hm hlive helf hrun
  · cases hres
  obtain ⟨hres, -⟩ | ⟨s₂, l₂, A₂, o, s₃, h₂, -, -, -, hpush, ⟨-, hres⟩ | ⟨sp, rfl, -, hcommit⟩⟩ :=
    execStack_cases h₁ hrun
  · cases hres
  · cases hres
  obtain ⟨heff, hspace⟩ := (pushStack_spec _ argv h₂.space).may _ _ hpush
  have h₃ := h₂.effect heff hspace
  rw [← npages_mul (npages sz + 2)] at h₃
  obtain ⟨m, l', rfl, -⟩ := (h₃.commit_run hlive (E := False) nofun).may _ _ hcommit
  have hne := stored_of_pushStack hpush
  exact hne

theorem linked_unique {m : Mem} {a : ℕ} (h : Linked m a l) (h' : Linked m a l') (hl : ∀ q ∈ l, IsPage q)
    (hl' : ∀ q ∈ l', IsPage q) : l = l' := by
  induction l generalizing a l' with
  | nil =>
    cases l' with
    | nil => rfl
    | cons q l' => exact absurd (h'.1.symm.trans h) (hl' q List.mem_cons_self).ne_zero
  | cons q l ih =>
    cases l' with
    | nil => exact absurd (h.1.symm.trans h') (hl q List.mem_cons_self).ne_zero
    | cons q' l' =>
      obtain rfl : q = q' := h.1.symm.trans h'.1
      rw [ih h.2 h'.2 (fun x hx => hl x (List.mem_cons_of_mem _ hx)) fun x hx => hl' x (List.mem_cons_of_mem _ hx)]

/-- **What a failed `exec` has to leave alone**: the process, every page that was not free (its page table, memory
and trapframe among them), the set of the free pages, the references to inodes and the log. -/
structure Untouched (s : State) (l : List ℕ) (p : Pid) (s' : State) : Prop where
  proc : s'.proc p = s.proc p
  pages : ∀ a, a ∉ l → s'.mem.page a = s.mem.page a
  free : ∃ l', FreeOk s'.mem l' ∧ ∀ a, a ∈ l' ↔ a ∈ l
  iref : s'.iref = s.iref
  outstanding : s'.outstanding = s.outstanding

theorem Untouched.refl (hm : MemOk s l T P) : Untouched s l p s :=
  ⟨rfl, fun _ _ => rfl, ⟨l, hm.free, fun _ => Iff.rfl⟩, rfl, rfl⟩

theorem Failed.untouched_iff {clean : Prop} {r : ℕ} (h : Failed s l T P clean r s') : Untouched s l p s' ↔ clean := by
  obtain ⟨⟨es, hs, -⟩, ⟨l', hm', hclean, hlost⟩, hframe⟩ := h
  constructor
  · intro hu
    by_contra hnot
    obtain ⟨a, ha, hno⟩ := hlost hnot
    obtain ⟨k, hk, hiff⟩ := hu.free
    rw [linked_unique hk.linked hm'.free.linked hk.pages hm'.free.pages] at hiff
    exact hno ((hiff a).2 ha)
  · intro hc
    refine ⟨by rw [hs]; rfl, hframe, ⟨l', hm'.free, fun a => ?_⟩, by rw [hs]; rfl, by rw [hs]; rfl⟩
    rw [← Multiset.mem_coe, hclean hc, Multiset.mem_coe]

/-- **A failed `exec` changes nothing** if and only if what it has built is freed again. -/
theorem exec_unchanged_iff (hm : MemOk s l T P) (hlive : (s.proc p).state = .live) (path : List UInt8)
    (found : Option (Ip × Content)) (argv : List Str) :
    May (exec p path found argv) s fun res s' => res = none → (Untouched s l p s' ↔
      ∀ ip f elf, found = some (ip, f) → f.elfhdr = some elf → Clean f elf l.length) := by
  intro res s' hrun hnone
  rcases found with _ | ⟨ip, f⟩
  · cases hrun
    exact iff_of_true (.refl hm) nofun
  cases helf : f.elfhdr with
  | none =>
    rw [exec_noHeader helf] at hrun
    cases hrun
    refine iff_of_true (.refl hm) fun ip' f' elf hf helf' => ?_
    cases hf
    cases helf.symm.trans helf'
  | some elf =>
    obtain ⟨r, m, -, hout⟩ := (exec_spec hm hlive helf).may res s' hrun
    rw [hnone] at hout
    refine hout.untouched_iff.trans ⟨fun hc ip' f' elf' hf helf' => ?_, fun h => h ip f elf rfl helf⟩
    cases hf
    cases helf.symm.trans helf'
    exact hc

end

section

attribute [local instance] Image.least

theorem sample_fails {f : Content} {z : ℕ} (helf : f.elfhdr = some ⟨elfMagic, 0, elfhdrSize, 1⟩)
    (hscan : f.scan 1 (elfhdrSize % 2 ^ 32) 0 = (false, z)) (hz : cost (npages z) ≤ 33) :
    ∃ l A s', MemOk bootState l (update (fun _ => noTab) initproc A) 0 ∧
      (bootState.proc initproc).state = .live ∧ A.Top ∧ l.length = 33 ∧
      exec initproc [] (some (0, f)) [] bootState = .ok (none, s') := by
  obtain ⟨l, A, hm, hlive, htop, hl⟩ := bootState_ok
  have hends : Ends _ (exec initproc [] (some (0, f)) []) bootState _ := exec_spec hm hlive helf
  obtain ⟨res, s', hrun, -⟩ := hends.yields ⟨by omega, fun _ => by rwa [update_self]⟩
  obtain ⟨r, s₁, l₁, A₁, ok, sz, s₂, -, -, hend⟩ := exec_cases hm hlive helf hrun
  rw [hscan] at hend
  obtain ⟨-, rfl, -⟩ | ⟨-, s₃, l₃, A₃, -, -, hsize, -⟩ := hend
  · exact ⟨l, A, s', hm, hlive, htop, hl, hrun⟩
  · cases (hsize (hl ▸ hz)).2.2

/-- A segment is loaded and an argument stored. -/
theorem exec_no_panic_ls : ∃ l T s' es, MemOk bootState l T 0 ∧ (bootState.proc initproc).state = .live ∧
    (T initproc).Top ∧ 3 ≤ l.length ∧
    exec initproc [] (some (0, sampleFile 120)) [sampleArg] bootState = .ok (some 1, s') ∧ es ≠ [] ∧
    s'.stores = es ++ bootState.stores ∧
    ∀ e ∈ es, ∃ r m, procPagetable (bootState.proc initproc).tf bootState.mem = .ok (r, m) ∧ StoreOk r e := by
  obtain ⟨l, A, hm, hlive, htop, hl⟩ := bootState_ok
  have helf : (sampleFile 120).elfhdr = some ⟨elfMagic, 0, elfhdrSize, 1⟩ := by decide +kernel
  obtain ⟨s', hrun⟩ := sample_starts 120 [sampleArg] hm hlive htop hl helf (by decide +kernel) (by decide) (by decide)
    (by decide)
  rw [← update_self (f := fun _ => noTab) initproc A] at htop
  obtain ⟨res, s'', hrun', es, hes, hok⟩ := exec_no_panic hm hlive htop (by omega) [] (some (0, sampleFile 120))
    [sampleArg]
  cases hrun.symm.trans hrun'
  refine ⟨l, _, s', es, hm, hlive, htop, by omega, hrun, ?_, hes, hok⟩
  rintro rfl
  exact stored_of_exec hm hlive helf hrun hes

theorem exec_unchanged_iff_short : ∃ l T s', MemOk bootState l T 0 ∧ (bootState.proc initproc).state = .live ∧
    exec initproc [] (some (0, sampleFile 200)) [] bootState = .ok (none, s') ∧
    Untouched bootState l initproc s' := by
  have helf : (sampleFile 200).elfhdr = some ⟨elfMagic, 0, elfhdrSize, 1⟩ := by decide +kernel
  have hscan : (sampleFile 200).scan 1 (elfhdrSize % 2 ^ 32) 0 = (false, 8) := by decide +kernel
  obtain ⟨l, A, s', hm, hlive, -, hl, hrun⟩ := sample_fails helf hscan (by decide)
  refine ⟨l, _, s', hm, hlive, hrun, (exec_unchanged_iff hm hlive [] _ [] none s' hrun rfl).2 ?_⟩
  intro ip f elf hf helf'
  cases hf
  cases helf.symm.trans helf'
  right
  rw [hscan, hl]
  decide

def headerOnly : Content := ⟨(sampleBytes 0).take elfhdrSize, by simp; decide⟩

/-- **A failed `exec` loses pages.** The program header cannot be read, and the new page table is not freed. -/
theorem exec_leaks : ∃ l T s' l' a, MemOk bootState l T 0 ∧ (bootState.proc initproc).state = .live ∧
    exec initproc [] (some (0, headerOnly)) [] bootState = .ok (none, s') ∧ FreeOk s'.mem l' ∧ a ∈ l ∧ a ∉ l' := by
  have helf : headerOnly.elfhdr = some ⟨elfMagic, 0, elfhdrSize, 1⟩ := by decide +kernel
  have hscan : headerOnly.scan 1 (elfhdrSize % 2 ^ 32) 0 = (false, 0) := by decide +kernel
  obtain ⟨l, A, s', hm, hlive, -, hl, hrun⟩ := sample_fails helf hscan (by decide)
  obtain ⟨r, m, -, hfail⟩ := (exec_spec hm hlive helf).may none s' hrun
  obtain ⟨l', hm', -, hlost⟩ := hfail.mem
  obtain ⟨a, ha, hno⟩ := hlost (by rw [Clean, hscan, hl]; decide)
  exact ⟨l, _, s', l', a, hm, hlive, hrun, hm'.free, ha, hno⟩

end

end Xv6.Kernel

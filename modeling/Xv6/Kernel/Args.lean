import Xv6.Kernel.Image
import Xv6.Vm.Contents

/-!
# The argument stack

`exec` pushes the argument strings and then the array of pointers to them, each at a multiple of 16, and gives up if
they do not fit in the stack page.

* `align16`, `pointers`, `stackNeed`: where the strings go, and how many bytes are needed.
* **`pushSp_eq`**: a push that does not wrap.
* `pushArgs_loads`, **`pushStack_loads`**: what is on the stack.
-/

namespace Xv6.Kernel

open Vm Fail Bag

/-! ## The layout -/

def align16 (x : ℕ) : ℕ := (x + 15) / 16 * 16

theorem le_align16 (x : ℕ) : x ≤ align16 x := by
  rw [align16]
  omega

theorem pushSp_eq {sp len : ℕ} (h16 : sp % 16 = 0) (hsp : sp < 2 ^ 64) (hlen : len ≤ sp) :
    pushSp sp len = sp - align16 len := by
  have hmod : len % 2 ^ 64 = len := Nat.mod_eq_of_lt (hlen.trans_lt hsp)
  simp only [pushSp, align16, hmod]
  omega

def Str.bytes (a : Str) : List UInt8 := a.chars ++ [0]

theorem Str.length_bytes (a : Str) : a.bytes.length = a.chars.length + 1 := List.length_append

def argsSize (argv : List Str) : ℕ := (argv.map fun a => align16 a.bytes.length).sum

@[simp] theorem argsSize_nil : argsSize [] = 0 := rfl

@[simp] theorem argsSize_cons (a : Str) (argv : List Str) :
    argsSize (a :: argv) = align16 a.bytes.length + argsSize argv := rfl

def stackNeed (argv : List Str) : ℕ := argsSize argv + align16 ((argv.length + 1) * 8)

/-- The addresses of the strings, pushed from `sp` down. -/
def pointers (sp : ℕ) : List Str → List ℕ
  | [] => []
  | a :: argv => (sp - align16 a.bytes.length) :: pointers (sp - align16 a.bytes.length) argv

theorem length_pointers (sp : ℕ) (argv : List Str) : (pointers sp argv).length = argv.length := by
  induction argv generalizing sp with
  | nil => rfl
  | cons a argv ih => rw [pointers, List.length_cons, List.length_cons, ih]

theorem argsSize_mod (argv : List Str) : argsSize argv % 16 = 0 := by
  induction argv with
  | nil => rfl
  | cons a argv ih =>
    rw [argsSize_cons, align16]
    omega

/-- **A string lies between the ones pushed after it and `sp`.** -/
theorem pointers_spec (argv : List Str) (sp : ℕ) (h16 : sp % 16 = 0) (hfit : argsSize argv ≤ sp) {i : ℕ} {a : Str}
    (ha : argv[i]? = some a) : ∃ q, (pointers sp argv)[i]? = some q ∧ q % 16 = 0 ∧ sp - argsSize argv ≤ q ∧
      q + a.bytes.length ≤ sp := by
  induction argv generalizing sp i with
  | nil => cases ha
  | cons b argv ih =>
    rw [argsSize_cons] at hfit ⊢
    have hb := le_align16 b.bytes.length
    have hb16 : align16 b.bytes.length % 16 = 0 := Nat.mul_mod_left _ _
    cases i with
    | zero =>
      cases ha
      exact ⟨_, rfl, by omega, by omega, by omega⟩
    | succ i =>
      obtain ⟨q, hq, hq16, hlo, hhi⟩ := ih (sp - align16 b.bytes.length) (by omega) (by omega) ha
      exact ⟨q, hq, hq16, by omega, by omega⟩

theorem pointers_apart (argv : List Str) (sp : ℕ) (h16 : sp % 16 = 0) (hfit : argsSize argv ≤ sp) {i j q q' : ℕ}
    {b : Str} (hij : i < j) (hb : argv[j]? = some b) (hq : (pointers sp argv)[i]? = some q)
    (hq' : (pointers sp argv)[j]? = some q') : q' + b.bytes.length ≤ q := by
  induction argv generalizing sp i j with
  | nil => cases hb
  | cons a argv ih =>
    rw [argsSize_cons] at hfit
    have ha16 : align16 a.bytes.length % 16 = 0 := Nat.mul_mod_left _ _
    obtain ⟨j, rfl⟩ : ∃ k, j = k + 1 := ⟨j - 1, by omega⟩
    cases i with
    | zero =>
      cases hq
      obtain ⟨q₁, hq₁, -, -, hhi⟩ :=
        pointers_spec argv (sp - align16 a.bytes.length) (by omega) (by omega) hb
      rw [Option.some.inj (hq'.symm.trans hq₁)]
      exact hhi
    | succ i => exact ih (sp - align16 a.bytes.length) (by omega) (by omega) (Nat.lt_of_succ_lt_succ hij) hb hq hq'

/-! ## Bytes and words -/

def Holds (m : Mem) (r a : ℕ) (src : List UInt8) : Prop := ∀ i < src.length, loadByte m r (a + i) = src[i]?

theorem Holds.congr {m m' : Mem} {r a b : ℕ} {src : List UInt8} (h : Holds m r a src)
    (hm : ∀ x < b, loadByte m' r x = loadByte m r x) (hb : a + src.length ≤ b) : Holds m' r a src :=
  fun i hi => (hm _ (by omega)).trans (h i hi)

def loadWord (m : Mem) (r va : ℕ) : Option ℕ :=
  ((List.range 8).mapM fun i => loadByte m r (va + i)).map fun b => field b 0 8

theorem foldr_digits (n x : ℕ) :
    ((List.range n).map fun i => UInt8.ofNat (x / 256 ^ i)).foldr (fun b y => b.toNat + 256 * y) 0 = x % 256 ^ n := by
  induction n generalizing x with
  | zero => rw [pow_zero, Nat.mod_one]; rfl
  | succ n ih =>
    have htail : ((fun i => UInt8.ofNat (x / 256 ^ i)) ∘ Nat.succ) = fun i => UInt8.ofNat (x / 256 / 256 ^ i) := by
      funext i
      rw [Function.comp_apply, Nat.div_div_eq_div_mul, Nat.pow_succ']
    rw [List.range_succ_eq_map, List.map_cons, List.map_map, htail, List.foldr_cons, ih, pow_succ', Nat.mod_mul,
      pow_zero, Nat.div_one, UInt8.toNat_ofNat']

theorem length_wordBytes (ws : List ℕ) : (wordBytes ws).length = 8 * ws.length := by
  induction ws with
  | nil => rfl
  | cons x ws ih =>
    rw [wordBytes, List.flatMap_cons, List.length_append, List.length_map, List.length_range]
    rw [wordBytes] at ih
    rw [ih, List.length_cons]
    omega

theorem wordBytes_get (ws : List ℕ) {i x j : ℕ} (hx : ws[i]? = some x) (hj : j < 8) :
    (wordBytes ws)[8 * i + j]? = some (UInt8.ofNat (x / 256 ^ j)) := by
  induction ws generalizing i with
  | nil => cases hx
  | cons y ws ih =>
    rw [wordBytes, List.flatMap_cons]
    cases i with
    | zero =>
      cases hx
      rw [Nat.mul_zero, Nat.zero_add, List.getElem?_append_left (by simpa using hj)]
      simp [hj]
    | succ i =>
      rw [List.getElem?_append_right (by simp; omega), List.length_map, List.length_range,
        show 8 * (i + 1) + j - 8 = 8 * i + j by omega]
      exact ih hx

theorem mapM_eq_some {α β : Type} (l : List α) {f : α → Option β} {g : α → β} (h : ∀ x ∈ l, f x = some (g x)) :
    l.mapM f = some (l.map g) := by
  induction l with
  | nil => rfl
  | cons x l ih =>
    rw [List.mapM_cons, h x List.mem_cons_self, ih fun y hy => h y (List.mem_cons_of_mem x hy)]
    rfl

theorem Holds.loadWord {m : Mem} {r a : ℕ} {ws : List ℕ} (h : Holds m r a (wordBytes ws)) {i x : ℕ}
    (hx : ws[i]? = some x) (hlt : x < 2 ^ 64) : loadWord m r (a + 8 * i) = some x := by
  have hi : i < ws.length := (List.getElem?_eq_some_iff.1 hx).1
  have hbyte : ∀ j ∈ List.range 8, loadByte m r (a + 8 * i + j) = some (UInt8.ofNat (x / 256 ^ j)) := by
    intro j hj
    have hj := List.mem_range.1 hj
    rw [Nat.add_assoc, h _ (by rw [length_wordBytes]; omega), wordBytes_get ws hx hj]
  rw [Kernel.loadWord, mapM_eq_some _ hbyte, Option.map_some, field, List.drop_zero, List.take_of_length_le (by simp),
    foldr_digits]
  exact congrArg some (Nat.mod_eq_of_lt hlt)

section

variable [Image] {s : State} {l : List ℕ} {r n top base : ℕ} {A : Tab}

/-! ## Pushes -/

theorem storing_loads (h : Space s.mem l r A n) (va : ℕ) (src : List UInt8)
    (hacc : ∀ i < src.length, A.addr (va + i) ≠ 0) :
    Yields (storing r (copyout r va src)) s fun ok s' => ok = true ∧ Space s'.mem l r A n ∧
      ∀ x < n * pgsize, loadByte s'.mem r x = overwrite (loadByte s.mem r) va src x := by
  obtain ⟨ok, m', hrun, hok⟩ := copyout_loads h fun i hi => h.accessible_iff.2 (hacc i hi)
  exact ⟨ok, _, storing_ok hrun, hok⟩

def Strings (m : Mem) (r : ℕ) (argv : List Str) (ptrs : List ℕ) : Prop :=
  ∀ (i q : ℕ) (a : Str), argv[i]? = some a → ptrs[i]? = some q → Holds m r q a.bytes

/-- **The loop over the strings**, into the accessible addresses from `base` to `top`. -/
theorem pushArgs_loads (hacc : ∀ x, base ≤ x → x < top → A.addr x ≠ 0) (htop : top ≤ n * pgsize)
    (hpage : pgsize ≤ base) (argv : List Str) {sp : ℕ} {ustack : List ℕ} {s : State} (h : Space s.mem l r A n)
    (h16 : sp % 16 = 0) (hbase : base ≤ sp) (hsp : sp ≤ top) (hlen : ∀ a ∈ argv, a.chars.length < pgsize)
    (hargc : ustack.length + argv.length ≤ maxArg) :
    Yields (pushArgs r base argv sp ustack) s fun res s' => Space s'.mem l r A n ∧
      (∀ x < n * pgsize, x < base ∨ sp ≤ x → loadByte s'.mem r x = loadByte s.mem r x) ∧
      res = (if argsSize argv ≤ sp - base then some (sp - argsSize argv, ustack ++ pointers sp argv) else none) ∧
      (argsSize argv ≤ sp - base → Strings s'.mem r argv (pointers sp argv)) := by
  induction argv generalizing sp ustack s with
  | nil =>
    refine .pure ⟨h, fun _ _ _ => rfl, ?_, fun _ i q a ha => nomatch ha⟩
    rw [argsSize_nil, if_pos (Nat.zero_le _), pointers, List.append_nil, Nat.sub_zero]
  | cons a argv ih =>
    have hle := h.le
    have hpos : 0 < base := (by decide : 0 < pgsize).trans_le hpage
    have hlt : sp < 2 ^ 64 := by
      simp only [pgsize] at htop
      omega
    have hroom : a.chars.length + 1 ≤ sp := (hlen a List.mem_cons_self).trans_le (hpage.trans hbase)
    have hfull : ¬ maxArg ≤ ustack.length := by
      rw [List.length_cons] at hargc
      omega
    have hpush := pushSp_eq h16 hlt hroom
    rw [← Str.length_bytes] at hpush hroom
    have h16' : align16 a.bytes.length % 16 = 0 := Nat.mul_mod_left _ _
    have hlea := le_align16 a.bytes.length
    rw [argsSize_cons, pointers, pushArgs, if_neg hfull, ← Str.length_bytes, hpush]
    set sp₁ := sp - align16 a.bytes.length with hsp₁
    by_cases hfit : sp₁ < base
    · rw [if_pos hfit]
      refine .pure ⟨h, fun _ _ _ => rfl, ?_, fun hc => ?_⟩
      · rw [if_neg (by omega)]
      · omega
    · rw [if_neg hfit]
      have hcopy := storing_loads h sp₁ a.bytes fun i hi => hacc _ (by omega) (by omega)
      refine hcopy.bind ?_
      rintro ok s₁ ⟨rfl, h₁, hload⟩
      rw [if_pos rfl]
      refine (ih h₁ (by omega) (by omega) (by omega) (fun b hb => hlen b (List.mem_cons_of_mem a hb))
        (by simp only [List.length_append, List.length_cons, List.length_nil] at hargc ⊢; omega)).mono ?_
      rintro res s₂ ⟨h₂, hkeep, hres, hstr⟩
      refine ⟨h₂, fun x hx hout => ?_, ?_, fun hc i q b hb hq => ?_⟩
      · rw [hkeep x hx (by omega), hload x hx, overwrite_of_notMem (by omega)]
      · rw [hres]
        by_cases hc : argsSize argv ≤ sp₁ - base
        · rw [if_pos hc, if_pos (by omega), Nat.sub_add_eq, List.append_assoc]
          rfl
        · rw [if_neg hc, if_neg (by omega)]
      · cases i with
        | zero =>
          cases hb
          cases hq
          intro j hj
          rw [hkeep _ (by omega) (by omega), hload _ (by omega), overwrite_of_mem hj]
        | succ i => exact hstr (by omega) i q b hb hq

theorem pushStack_loads {argv : List Str} (h : Space s.mem l r A n) (htop : top = n * pgsize) (hn : 2 ≤ n)
    (hacc : ∀ x, top - pgsize ≤ x → x < top → A.addr x ≠ 0) (hargc : argv.length < maxArg)
    (hlen : ∀ a ∈ argv, a.chars.length < pgsize) :
    Yields (pushStack r top argv) s fun res s' => Space s'.mem l r A n ∧
      (∀ x < top - pgsize, loadByte s'.mem r x = loadByte s.mem r x) ∧
      res = (if stackNeed argv ≤ pgsize then some (top - stackNeed argv) else none) ∧
      (stackNeed argv ≤ pgsize → Strings s'.mem r argv (pointers top argv) ∧
        Holds s'.mem r (top - stackNeed argv) (wordBytes (pointers top argv ++ [0]))) := by
  have hle := h.le
  have htop16 : top % 16 = 0 := by
    simp only [pgsize] at htop
    omega
  have hpage : pgsize ≤ top - pgsize := by
    simp only [pgsize] at htop ⊢
    omega
  have hlt : top < 2 ^ 64 := by
    simp only [pgsize] at htop
    omega
  rw [pushStack]
  refine (pushArgs_loads hacc htop.le hpage argv h htop16 (Nat.sub_le _ _) le_rfl hlen
    (by rw [List.length_nil]; omega)).bind ?_
  rintro res s₁ ⟨h₁, hkeep, hres, hstr⟩
  have hpg : top - (top - pgsize) = pgsize := Nat.sub_sub_self (by omega)
  rw [hpg] at hres hstr
  have h16 := argsSize_mod argv
  have harr : (argv.length + 1) * 8 ≤ pgsize := by
    simp only [pgsize, maxArg] at hargc ⊢
    omega
  by_cases hfit : argsSize argv ≤ pgsize
  swap
  · rw [hres, if_neg hfit]
    refine .pure ⟨h₁, fun x hx => hkeep x (by omega) (.inl hx), ?_, fun hc => ?_⟩
    · rw [if_neg]
      rw [stackNeed]
      omega
    · rw [stackNeed] at hc
      omega
  rw [if_pos hfit, List.nil_append] at hres
  rw [hres]
  have hcount : (pointers top argv).length = argv.length := length_pointers top argv
  have hpush : pushSp (top - argsSize argv) ((argv.length + 1) * 8) = top - stackNeed argv := by
    rw [pushSp_eq (by omega) (by omega) (by omega), stackNeed, Nat.sub_add_eq]
  have halign := le_align16 ((argv.length + 1) * 8)
  have hneed : stackNeed argv = argsSize argv + align16 ((argv.length + 1) * 8) := rfl
  change Yields (if pushSp (top - argsSize argv) (((pointers top argv).length + 1) * 8) < top - pgsize then _ else _) _ _
  rw [hcount, hpush]
  by_cases hroom : stackNeed argv ≤ pgsize
  · rw [if_neg (by omega), if_pos hroom]
    have hbytes : (wordBytes (pointers top argv ++ [0])).length = (argv.length + 1) * 8 := by
      rw [length_wordBytes, List.length_append, hcount, List.length_singleton, Nat.mul_comm]
    refine (storing_loads h₁ (top - stackNeed argv) _ fun i hi => hacc _ (by omega) (by omega)).bind ?_
    rintro ok s₂ ⟨rfl, h₂, hload⟩
    rw [if_pos rfl]
    refine .pure ⟨h₂, fun x hx => ?_, rfl, fun _ => ⟨fun i q a ha hq j hj => ?_, fun j hj => ?_⟩⟩
    · rw [hload x (by omega), overwrite_of_notMem (by omega), hkeep x (by omega) (.inl hx)]
    · obtain ⟨q', hq', -, hlo, hhi⟩ := pointers_spec argv top htop16 (by omega) ha
      cases hq.symm.trans hq'
      rw [hload _ (by omega), overwrite_of_notMem (by omega)]
      exact hstr hfit i q a ha hq j hj
    · rw [hload _ (by omega), overwrite_of_mem hj]
  · rw [if_pos (by omega), if_neg hroom]
    exact .pure ⟨h₁, fun x hx => hkeep x (by omega) (.inl hx), rfl, fun hc => absurd hc hroom⟩

/-! ## Any arguments -/

omit [Image] in
theorem pushSp_lt (sp len : ℕ) : pushSp sp len < 2 ^ 64 :=
  (Nat.sub_le _ _).trans_lt (Nat.mod_lt _ (by decide))

theorem storing_keeps {va : ℕ} {src : List UInt8} (h : Space s.mem l r A n) :
    May (storing r (copyout r va src)) s fun _ s' => Space s'.mem l r A n ∧
      ∀ x < n * pgsize, x < va → loadByte s'.mem r x = loadByte s.mem r x := by
  obtain ⟨ok, m', hrun, hlist, hsame⟩ := copyout_spec h va src
  intro ok' s' hrun'
  cases (storing_ok hrun).symm.trans hrun'
  exact ⟨h.frame hlist hsame, copyout_keeps h va src _ _ hrun⟩

theorem pushArgs_keeps (argv : List Str) {sp : ℕ} {ustack : List ℕ} {s : State} (h : Space s.mem l r A n) :
    May (pushArgs r base argv sp ustack) s fun _ s' => Space s'.mem l r A n ∧
      ∀ x < n * pgsize, x < base → loadByte s'.mem r x = loadByte s.mem r x := by
  induction argv generalizing sp ustack s with
  | nil => exact .pure ⟨h, fun _ _ _ => rfl⟩
  | cons a argv ih =>
    rw [pushArgs]
    split_ifs with hfull hlow
    · exact .pure ⟨h, fun _ _ _ => rfl⟩
    · exact .pure ⟨h, fun _ _ _ => rfl⟩
    refine (storing_keeps h).bind ?_
    rintro ok s₁ ⟨h₁, hkeep⟩
    have hbelow : ∀ x < n * pgsize, x < base → loadByte s₁.mem r x = loadByte s.mem r x :=
      fun x hx hlt => hkeep x hx (hlt.trans_le (Nat.not_lt.1 hlow))
    cases ok with
    | false => exact .pure ⟨h₁, hbelow⟩
    | true =>
      refine (ih h₁).mono fun res s₂ hrest => ⟨hrest.1, fun x hx hlt => ?_⟩
      rw [hrest.2 x hx hlt, hbelow x hx hlt]

/-- **The pushes store nothing below the stack page.** -/
theorem pushStack_keeps (argv : List Str) (h : Space s.mem l r A n) :
    May (pushStack r top argv) s fun o s' => (∀ sp, o = some sp → sp < 2 ^ 64) ∧
      ∀ x < n * pgsize, x < top - pgsize → loadByte s'.mem r x = loadByte s.mem r x := by
  rw [pushStack]
  refine (pushArgs_keeps argv h).bind ?_
  rintro res s₁ ⟨h₁, hkeep⟩
  rcases res with _ | ⟨sp, ustack⟩
  · exact .pure ⟨(by simp), hkeep⟩
  simp only []
  split_ifs with hlow
  · exact .pure ⟨(by simp), hkeep⟩
  refine (storing_keeps h₁).bind ?_
  rintro ok s₂ ⟨h₂, hkeep₂⟩
  have hbelow : ∀ x < n * pgsize, x < top - pgsize → loadByte s₂.mem r x = loadByte s.mem r x :=
    fun x hx hlt => (hkeep₂ x hx (hlt.trans_le (Nat.not_lt.1 hlow))).trans (hkeep x hx hlt)
  cases ok with
  | false => exact .pure ⟨(by simp), hbelow⟩
  | true =>
    refine .pure ⟨fun sp' hsp => ?_, hbelow⟩
    cases hsp
    exact pushSp_lt _ _

end

end Xv6.Kernel

import Xv6.Kernel.Exec
import Xv6.Kernel.Life

/-!
# What `exec` does to a new page table

* `State.loaded`, `StoreOk`: the effect of `exec` before its commit. Every store goes to a page that the new
  table maps.
* `covers`, `scan`: what the program headers ask for, a function of the file alone.
* **`loadseg_spec`**, **`loadPhdrs_spec`**: loading returns, and with enough free pages it does what `scan` says.
* **`pushStack_spec`**: the arguments.
-/

namespace Xv6.Kernel

open Vm Fail Bag
open Icache (Ip)

def State.loaded (s : State) (m : Mem) (es : List Store) : State :=
  { s with mem := m, stores := es ++ s.stores }

theorem State.loaded_loaded (s : State) (m m' : Mem) (es es' : List Store) :
    (s.loaded m es).loaded m' es' = s.loaded m' (es' ++ es) := by
  simp only [State.loaded, List.append_assoc]

/-- **A store through the page table `r`** changes pages only that the table maps below the trapframe. -/
def StoreOk (r : ℕ) (e : Store) : Prop :=
  e.table = r ∧ ∀ a, e.after.page a ≠ e.before.page a → ∃ va < trapframeVa, MapsTo e.before r va a

def Content.covers (f : Content) (offset sz : ℕ) : Bool :=
  (List.range (npages sz)).all fun q =>
    (f.readExact ((offset + q * pgsize) % 2 ^ 32) (min (sz - q * pgsize) pgsize)).isSome

/-- What the loop over the program headers comes to when there is no lack of memory: whether it reaches the
end, and the size of the image then. -/
def Content.scan (f : Content) : ℕ → ℕ → ℕ → Bool × ℕ
  | 0, _, sz => (true, sz)
  | n + 1, off, sz =>
    match f.proghdr off with
    | none => (false, sz)
    | some ph =>
      if ph.type ≠ elfProgLoad then f.scan n ((off + proghdrSize) % 2 ^ 32) sz
      else if ph.memsz < ph.filesz ∨ (ph.vaddr + ph.memsz) % 2 ^ 64 < ph.vaddr then (false, sz)
      else if max sz (ph.vaddr + ph.memsz) = 0 ∨ ph.vaddr % pgsize ≠ 0 ∨
          f.covers (ph.off % 2 ^ 32) ph.filesz = false then (false, max sz (ph.vaddr + ph.memsz))
      else f.scan n ((off + proghdrSize) % 2 ^ 32) (max sz (ph.vaddr + ph.memsz))

section

variable [Image] {s s' : State} {l : List ℕ} {r n : ℕ} {A : Tab}

def UserAll (A : Tab) (n : ℕ) : Prop := ∀ v < n, ∀ w, A.leaf v = some w → Has w pteU

theorem mapsTo_of_user (h : Space s.mem l r A n) {a : ℕ} (ha : a ∈ A.user) :
    ∃ va < trapframeVa, MapsTo s.mem r va a := by
  obtain ⟨v, hv, hpa⟩ := mem_bag.1 ha
  have hv := mem_userPages.1 hv
  have hlt : v * pgsize < trapframeVa := by
    rw [trapframeVa_eq]
    exact Nat.mul_lt_mul_of_pos_right hv (by decide)
  refine ⟨v * pgsize, hlt, (mapsTo_iff h.tab (hlt.trans (by decide))).2 ?_⟩
  rw [Nat.mul_div_cancel v (by decide)]
  exact hpa

/-- **What `exec` does before its commit**: pages move between the free list and the new table, and bytes are
stored through the table. -/
structure Effect (r : ℕ) (l : List ℕ) (A : Tab) (s : State) (l' : List ℕ) (A' : Tab) (s' : State) : Prop where
  step : ∃ es, s' = s.loaded s'.mem es ∧ ∀ e ∈ es, StoreOk r e
  bal : (l' : Multiset ℕ) + A'.nodes + A'.user = l + A.nodes + A.user
  frame : ∀ a, a ∉ (l : Multiset ℕ) + A.nodes + A.user → s'.mem.page a = s.mem.page a
  top : ∀ v, nuser ≤ v → A'.leaf v = A.leaf v

section

omit [Image]

theorem Effect.refl : Effect r l A s l A s :=
  ⟨⟨[], rfl, fun _ he => absurd he List.not_mem_nil⟩, rfl, fun _ _ => rfl, fun _ _ => rfl⟩

theorem Effect.trans {s'' : State} {l' l'' : List ℕ} {A' A'' : Tab} (h : Effect r l A s l' A' s')
    (h' : Effect r l' A' s' l'' A'' s'') : Effect r l A s l'' A'' s'' where
  step := by
    obtain ⟨es, hs, hes⟩ := h.step
    obtain ⟨es', hs', hes'⟩ := h'.step
    refine ⟨es' ++ es, ?_, ?_⟩
    · rw [← State.loaded_loaded s s'.mem, ← hs]
      exact hs'
    · intro e he
      rcases List.mem_append.1 he with he | he
      · exact hes' e he
      · exact hes e he
  bal := h'.bal.trans h.bal
  frame := fun a ha => (h'.frame a (h.bal ▸ ha)).trans (h.frame a ha)
  top := fun v hv => (h'.top v hv).trans (h.top v hv)

theorem Effect.setMem {m' : Mem} {l' : List ℕ} {A' : Tab}
    (hbal : (l' : Multiset ℕ) + A'.nodes + A'.user = l + A.nodes + A.user)
    (hframe : ∀ a, a ∉ (l : Multiset ℕ) + A.nodes + A.user → m'.page a = s.mem.page a)
    (htop : ∀ v, nuser ≤ v → A'.leaf v = A.leaf v) : Effect r l A s l' A' (s.setMem m') :=
  ⟨⟨[], rfl, fun _ he => absurd he List.not_mem_nil⟩, hbal, hframe, htop⟩

end

section

omit [Image]

theorem effect_of_moves {k : ℕ} {m' : Mem} {l' : List ℕ} {A' : Tab} (h : Moves k s.mem l A m' l' A') :
    Effect r l A s l' A' (s.setMem m') :=
  .setMem h.bal h.frame h.top

theorem storing_ok {α : Type} {x : MemM α} {a : α} {m' : Mem} (hrun : x s.mem = .ok (a, m')) :
    storing r x s = .ok (a, s.loaded m' [⟨r, s.mem, m'⟩]) := by
  rw [storing, get_bind, bind_ok (onMem_ok hrun)]
  rfl

end

/-- **A store that leaves all but user pages alone.** -/
theorem storing_spec {α : Type} {x : MemM α} (h : Space s.mem l r A n)
    (hx : Yields x s.mem fun _ m' => m'.freelist = s.mem.freelist ∧
      ∀ q, q ∉ A.user → m'.page q = s.mem.page q) :
    Yields (storing r x) s fun _ s' => Effect r l A s l A s' ∧ Space s'.mem l r A n := by
  obtain ⟨a, m', hrun, hlist, hsame⟩ := hx
  refine ⟨a, _, storing_ok hrun, ⟨⟨_, rfl, ?_⟩, rfl, ?_, fun _ _ => rfl⟩, h.frame hlist hsame⟩
  · intro e he
    rw [List.mem_singleton.1 he]
    refine ⟨rfl, fun q hne => mapsTo_of_user h ?_⟩
    by_contra hq
    exact hne (hsame q hq)
  · intro q hq
    exact hsame q fun hu => hq (by simp [hu])

/-! ## Segments -/

omit [Image] in
theorem Content.readExact_isSome {f : Content} {off n : ℕ} :
    (f.readExact off n).isSome ↔ ∃ b, f.readi off n = some b ∧ b.length = n := by
  rw [readExact]
  cases f.readi off n with
  | none => simp
  | some b =>
    by_cases h : b.length = n
    · simp [h]
    · simp [h]

/-- Page `q` of a segment can be read from the file. -/
def Content.Reads (f : Content) (offset sz q : ℕ) : Prop :=
  (f.readExact ((offset + q * pgsize) % 2 ^ 32) (min (sz - q * pgsize) pgsize)).isSome

omit [Image] in
theorem Content.covers_iff {f : Content} {offset sz : ℕ} :
    f.covers offset sz = true ↔ ∀ q < npages sz, f.Reads offset sz q := by
  simp only [covers, List.all_eq_true, List.mem_range]
  rfl

theorem storeAt (h : Space s.mem l r A n) {v w : ℕ} (hv : v < n) (hw : A.leaf v = some w) (b : List UInt8) :
    Yields (storing r (modify (·.write (pte2pa w) b))) s fun _ s' =>
      Effect r l A s l A s' ∧ Space s'.mem l r A n := by
  refine storing_spec h (Yields.modify ⟨rfl, fun q hq => ?_⟩)
  have hvu := hv.trans_le h.le_nuser
  have hmod : pte2pa w % pgsize = 0 := (h.pages v w hvu hw).1
  have hne : q ≠ pte2pa w := by
    rintro rfl
    exact hq (Tab.page_mem hvu hw)
  have hpage : (s.mem.write (pte2pa w + 0) b).page q = s.mem.page q := write_page b hmod (by decide) hne
  rwa [add_zero] at hpage

theorem loadLoop_spec {va offset sz : ℕ} {f : Content} (hva : va % pgsize = 0) (hu : UserAll A n)
    (hfit : va + sz ≤ n * pgsize) (k : ℕ) {q : ℕ} {s : State} (h : Space s.mem l r A n)
    (hk : npages sz ≤ q + k) :
    Yields (loadLoop r va f offset sz k (q * pgsize)) s fun ok s' => Effect r l A s l A s' ∧
      Space s'.mem l r A n ∧ (ok = true ↔ ∀ j, q ≤ j → j < npages sz → f.Reads offset sz j) := by
  induction k generalizing q s with
  | zero =>
    have hlt : ¬ q * pgsize < sz := by
      simp only [npages, pgsize] at *
      omega
    rw [loadLoop, if_neg hlt]
    refine Yields.pure ⟨.refl, h, fun _ j hj hj' => ?_, fun _ => rfl⟩
    omega
  | succ k ih =>
    rw [loadLoop]
    by_cases hlt : q * pgsize < sz
    · rw [if_pos hlt]
      have hq : q < npages sz := by
        simp only [npages, pgsize] at *
        omega
      have hle := h.le
      have hv : va / pgsize + q < n := by
        simp only [pgsize] at *
        omega
      have hmod : (va + q * pgsize) % 2 ^ 64 = va + q * pgsize := by
        refine Nat.mod_eq_of_lt ?_
        simp only [pgsize] at *
        omega
      have hdiv : (va + q * pgsize) / pgsize = va / pgsize + q := by
        simp only [pgsize]
        omega
      obtain ⟨w, hw, hpage⟩ := h.leaf hv
      have haddr : A.addr ((va + q * pgsize) % 2 ^ 64) = pte2pa w := by
        rw [hmod]
        exact h.addr_of_leaf hv hw (hu _ hv w hw) hdiv
      have hwalk : onMem (walkaddr r ((va + q * pgsize) % 2 ^ 64)) s = .ok (pte2pa w, s) := by
        have := walkaddr_eq h.tab ((va + q * pgsize) % 2 ^ 64)
        rw [haddr] at this
        exact onMem_ok this
      have hmin : (if sz - q * pgsize < pgsize then sz - q * pgsize else pgsize) =
          min (sz - q * pgsize) pgsize := by
        rw [min_def]
        split_ifs <;> omega
      rw [Yields, bind_ok hwalk, if_neg hpage.ne_zero]
      simp only [hmin]
      -- the first page decides, or the rest of the loop
      have hnot : ¬ f.Reads offset sz q → (false = true ↔ ∀ j, q ≤ j → j < npages sz → f.Reads offset sz j) :=
        fun hn => ⟨fun hf => absurd hf Bool.false_ne_true, fun hall => absurd (hall q le_rfl hq) hn⟩
      cases hread : f.readi ((offset + q * pgsize) % 2 ^ 32) (min (sz - q * pgsize) pgsize) with
      | none =>
        refine Yields.pure ⟨.refl, h, hnot ?_⟩
        rw [Content.Reads, Content.readExact_isSome, hread]
        rintro ⟨_, hb, _⟩
        cases hb
      | some b =>
        obtain ⟨_, s₁, hrun, heff₁, hspace₁⟩ := storeAt h hv hw b
        simp only [bind_ok hrun]
        by_cases hlen : b.length = min (sz - q * pgsize) pgsize
        · rw [if_pos hlen]
          have hnext : (q * pgsize + pgsize) % 2 ^ 32 = (q + 1) * pgsize := by
            simp only [pgsize] at *
            omega
          rw [hnext]
          refine Yields.mono (ih hspace₁ (by omega)) ?_
          rintro ok s' ⟨heff, hspace', hok⟩
          refine ⟨heff₁.trans heff, hspace', hok.trans ⟨fun hall j hj hj' => ?_, fun hall j hj hj' => ?_⟩⟩
          · rcases Nat.eq_or_lt_of_le hj with rfl | hj
            · exact Content.readExact_isSome.2 ⟨b, hread, hlen⟩
            · exact hall j hj hj'
          · exact hall j (Nat.le_of_succ_le hj) hj'
        · rw [if_neg hlen]
          refine Yields.pure ⟨heff₁, hspace₁, hnot ?_⟩
          rw [Content.Reads, Content.readExact_isSome, hread]
          rintro ⟨_, ⟨⟩, hb⟩
          exact hlen hb
    · rw [if_neg hlt]
      refine Yields.pure ⟨.refl, h, fun _ j hj hj' => ?_, fun _ => rfl⟩
      simp only [npages, pgsize] at *
      omega

theorem loadseg_spec {va offset sz : ℕ} {f : Content} (hva : va % pgsize = 0) (hu : UserAll A n)
    (hfit : va + sz ≤ n * pgsize) (h : Space s.mem l r A n) :
    Yields (loadseg r va f offset sz) s fun ok s' => Effect r l A s l A s' ∧ Space s'.mem l r A n ∧
      ok = f.covers offset sz := by
  have hfuel : npages sz ≤ 0 + 2 ^ 20 := by
    have hle := h.le
    simp only [npages, pgsize] at *
    omega
  have hloop : Yields (loadLoop r va f offset sz (2 ^ 20) (0 * pgsize)) s _ :=
    loadLoop_spec hva hu hfit (2 ^ 20) h hfuel
  rw [Nat.zero_mul] at hloop
  rw [loadseg, if_neg (not_not.2 hva)]
  refine Yields.mono hloop ?_
  rintro ok s' ⟨heff, hspace, hok⟩
  refine ⟨heff, hspace, ?_⟩
  rw [Bool.eq_iff_iff, hok, Content.covers_iff]
  exact ⟨fun hall q hq => hall q (Nat.zero_le q) hq, fun hall q _ hq => hall q hq⟩

/-! ## Program headers -/

section

omit [Image]

theorem field_lt (bytes : List UInt8) (off n : ℕ) : field bytes off n < 256 ^ n := by
  have hfold : ∀ l : List UInt8, l.foldr (fun b x => b.toNat + 256 * x) 0 < 256 ^ l.length := by
    intro l
    induction l with
    | nil => simp
    | cons b l ih =>
      have hb := b.toNat_lt
      rw [List.foldr_cons, List.length_cons, pow_succ]
      omega
  have hlen : ((bytes.drop off).take n).length ≤ n := List.length_take_le _ _
  exact (hfold _).trans_le (Nat.pow_le_pow_right (by decide) hlen)

theorem proghdr_lt {f : Content} {off : ℕ} {ph : Proghdr} (h : f.proghdr off = some ph) :
    ph.vaddr < 2 ^ 64 ∧ ph.memsz < 2 ^ 64 := by
  obtain ⟨b, -, rfl⟩ := Option.map_eq_some_iff.1 h
  have h₁ := field_lt b 16 8
  have h₂ := field_lt b 40 8
  exact ⟨h₁.trans_eq (by norm_num), h₂.trans_eq (by norm_num)⟩

end

section

omit [Image]

theorem Content.le_scan (f : Content) (k : ℕ) : ∀ off sz, sz ≤ (f.scan k off sz).2 := by
  induction k with
  | zero => exact fun off sz => le_rfl
  | succ k ih =>
    intro off sz
    rw [scan]
    cases f.proghdr off with
    | none => exact le_rfl
    | some ph =>
      simp only []
      split_ifs
      · exact ih _ _
      · exact le_rfl
      · exact le_max_left _ _
      · exact (le_max_left _ _).trans (ih _ _)

theorem npages_mono {a b : ℕ} (h : a ≤ b) : npages a ≤ npages b :=
  Nat.div_le_div_right (Nat.add_le_add_right h _)

end

theorem budget {m : Mem} (h : Space m l r A n) (hb : Built A n) :
    l.length + cost n = ((l : Multiset ℕ) + A.nodes + A.user).card := by
  rw [Multiset.card_add, Multiset.card_add, h.tab.card_built hb h.le, h.card_user, cost, Multiset.coe_card]
  omega

section

omit [Image]

theorem UserAll.moves {k : ℕ} {m m' : Mem} {l' : List ℕ} {A' : Tab} (hu : UserAll A k)
    (hmv : Moves k m l A m' l' A') : UserAll A' k := by
  intro v hv w hw
  rw [(hmv.keep v hv).1] at hw
  exact hu v hv w hw

theorem UserAll.grow {k j : ℕ} {m m' : Mem} {l' : List ℕ} {A' : Tab} (hu : UserAll A k)
    (hmv : Moves k m l A m' l' A') (hz : Zeroed m' A' k j) : UserAll A' j := by
  intro v hv w hw
  by_cases hlt : v < k
  · exact hu.moves hmv v hlt w hw
  · obtain ⟨w', hw', hu', -⟩ := hz v (Nat.le_of_not_lt hlt) hv
    rw [hw] at hw'
    cases hw'
    exact hu'

end

/-- What `uvmalloc` does for `exec`, where `sz` becomes `res`. -/
structure Enlarged (r : ℕ) (l : List ℕ) (A : Tab) (sz res new : ℕ) (l' : List ℕ) (A' : Tab) (m' : Mem) : Prop where
  size : res = max sz new
  space : Space m' l' r A' (npages res)
  user : UserAll A (npages sz) → UserAll A' (npages res)
  built : Built A (npages sz) → Built A' (npages res)

theorem enlarge {sz : ℕ} (h : Space s.mem l r A (npages sz)) (new : ℕ) :
    Yields (onMem (uvmalloc r sz new)) s fun res s' => ∃ l' A', Effect r l A s l' A' s' ∧
      (Enlarged r l A sz res new l' A' s'.mem ∨
        res = 0 ∧ sz ≤ new ∧ Space s'.mem l' r A' (npages sz) ∧
          (UserAll A (npages sz) → UserAll A' (npages sz)) ∧
          (Built A (npages sz) → l.length + cost (npages sz) < cost (npages new))) := by
  obtain ⟨res, m', hrun, l', A', hmv, hres⟩ := (uvmalloc_spec h : Yields (uvmalloc r sz new) _ _)
  refine ⟨res, _, onMem_ok hrun, l', A', effect_of_moves hmv, ?_⟩
  rcases hres with ⟨hmax, hspace, hz, hb⟩ | ⟨h0, hle, hspace, hb⟩
  · exact .inl ⟨hmax, hspace, fun hu => hu.grow hmv hz, hb⟩
  · exact .inr ⟨h0, hle, hspace, fun hu => hu.moves hmv, hb⟩

theorem Effect.budget {l' : List ℕ} {A' : Tab} {n' : ℕ} (heff : Effect r l A s l' A' s')
    (h : Space s.mem l r A n) (hb : Built A n) (h' : Space s'.mem l' r A' n') (hb' : Built A' n') :
    l'.length + cost n' = l.length + cost n := by
  rw [Kernel.budget h hb, Kernel.budget h' hb', heff.bal]

/-- Without more pages than there are, what the loop over the headers comes to; `z` is the size of the image. -/
structure Scanned (f : Content) (k off sz budget : ℕ) (res : Bool × ℕ) (A' : Tab) (z : ℕ) : Prop where
  enough : cost (npages (f.scan k off sz).2) ≤ budget → res = f.scan k off sz ∧ z = res.2 ∧ Built A' (npages z)
  lack : budget < cost (npages (f.scan k off sz).2) → res = (false, 0)

section

omit [Image]

theorem Scanned.of_eq {f : Content} {k off sz c z : ℕ} {res : Bool × ℕ} {A' : Tab}
    (hres : f.scan k off sz = res) (hz : z = res.2) (hb : Built A' (npages z)) (hc : cost (npages z) ≤ c) :
    Scanned f k off sz c res A' z := by
  refine ⟨fun _ => ⟨hres.symm, hz, hb⟩, fun hlt => ?_⟩
  rw [hres, ← hz] at hlt
  exact absurd hc (Nat.not_le.2 hlt)

theorem Scanned.of_lack {f : Content} {k off sz c z z' : ℕ} {A' : Tab} (hlt : c < cost (npages z'))
    (hle : z' ≤ (f.scan k off sz).2) : Scanned f k off sz c (false, 0) A' z := by
  refine ⟨fun hle' => ?_, fun _ => rfl⟩
  have := cost_le_cost (npages_mono hle)
  omega

end

/-- What the loop over the program headers does, from size `sz` on. -/
def Phdrs (f : Content) (r k off sz : ℕ) (l : List ℕ) (A : Tab) (s : State) (res : Bool × ℕ) (s' : State) : Prop :=
  ∃ l' A' z, Effect r l A s l' A' s' ∧ Space s'.mem l' r A' (npages z) ∧ UserAll A' (npages z) ∧
    (res.2 = z ∨ res = (false, 0)) ∧
    (Built A (npages sz) → Scanned f k off sz (l.length + cost (npages sz)) res A' z)

theorem Phdrs.stop {f : Content} {k off sz : ℕ} {b : Bool} (h : Space s.mem l r A (npages sz))
    (hu : UserAll A (npages sz)) (hscan : f.scan k off sz = (b, sz)) : Phdrs f r k off sz l A s (b, sz) s :=
  ⟨l, A, sz, .refl, h, hu, .inl rfl, fun hb => .of_eq hscan rfl hb (Nat.le_add_left _ _)⟩

theorem Phdrs.stop_enlarged {f : Content} {k off sz res new : ℕ} {l' : List ℕ} {A' : Tab} {m₁ : Mem} {b : Bool}
    (h : Space s.mem l r A (npages sz)) (hu : UserAll A (npages sz)) (heff : Effect r l A s l' A' s')
    (hgrow : Enlarged r l A sz res new l' A' m₁) (hspace : Space s'.mem l' r A' (npages res))
    (hscan : f.scan k off sz = (b, res)) : Phdrs f r k off sz l A s (b, res) s' := by
  refine ⟨l', A', res, heff, hspace, hgrow.user hu, .inl rfl, fun hb => ?_⟩
  refine .of_eq hscan rfl (hgrow.built hb) ?_
  rw [← heff.budget h hb hspace (hgrow.built hb)]
  exact Nat.le_add_left _ _

theorem Phdrs.next {f : Content} {k k' off off' sz sz' : ℕ} {l' : List ℕ} {A' : Tab} {s'' : State}
    {res : Bool × ℕ} (h : Space s.mem l r A (npages sz)) (heff : Effect r l A s l' A' s')
    (hspace : Space s'.mem l' r A' (npages sz')) (hb' : Built A (npages sz) → Built A' (npages sz'))
    (hscan : f.scan k off sz = f.scan k' off' sz') (hrest : Phdrs f r k' off' sz' l' A' s' res s'') :
    Phdrs f r k off sz l A s res s'' := by
  obtain ⟨l₂, A₂, z, heff₂, hspace₂, hu₂, hz, hsc⟩ := hrest
  refine ⟨l₂, A₂, z, heff.trans heff₂, hspace₂, hu₂, hz, fun hb => ?_⟩
  have hsc := hsc (hb' hb)
  rw [heff.budget h hb hspace (hb' hb)] at hsc
  refine ⟨?_, ?_⟩
  · rw [hscan]
    exact hsc.enough
  · rw [hscan]
    exact hsc.lack

theorem loadPhdrs_spec (f : Content) (k : ℕ) {off sz : ℕ} {s : State} {l : List ℕ} {A : Tab}
    (h : Space s.mem l r A (npages sz)) (hu : UserAll A (npages sz)) :
    Yields (loadPhdrs f r k off sz) s (Phdrs f r k off sz l A s) := by
  induction k generalizing off sz s l A with
  | zero => exact Yields.pure (.stop h hu rfl)
  | succ k ih =>
    rw [loadPhdrs]
    have hscan : f.scan (k + 1) off sz = match f.proghdr off with
      | none => (false, sz)
      | some ph =>
        if ph.type ≠ elfProgLoad then f.scan k ((off + proghdrSize) % 2 ^ 32) sz
        else if ph.memsz < ph.filesz ∨ (ph.vaddr + ph.memsz) % 2 ^ 64 < ph.vaddr then (false, sz)
        else if max sz (ph.vaddr + ph.memsz) = 0 ∨ ph.vaddr % pgsize ≠ 0 ∨
            f.covers (ph.off % 2 ^ 32) ph.filesz = false then (false, max sz (ph.vaddr + ph.memsz))
        else f.scan k ((off + proghdrSize) % 2 ^ 32) (max sz (ph.vaddr + ph.memsz)) := rfl
    cases hph : f.proghdr off with
    | none =>
      rw [hph] at hscan
      exact Yields.pure (.stop h hu hscan)
    | some ph =>
      rw [hph] at hscan
      simp only [] at hscan ⊢
      by_cases hty : ph.type ≠ elfProgLoad
      · rw [if_pos hty] at hscan ⊢
        exact Yields.mono (ih h hu) fun res s' hr => .next h .refl h id hscan hr
      rw [if_neg hty] at hscan ⊢
      by_cases hmem : ph.memsz < ph.filesz
      · rw [if_pos hmem]
        rw [if_pos (.inl hmem)] at hscan
        exact Yields.pure (.stop h hu hscan)
      rw [if_neg hmem]
      by_cases hover : (ph.vaddr + ph.memsz) % 2 ^ 64 < ph.vaddr
      · rw [if_pos hover]
        rw [if_pos (.inr hover)] at hscan
        exact Yields.pure (.stop h hu hscan)
      rw [if_neg hover]
      rw [if_neg (not_or.2 ⟨hmem, hover⟩)] at hscan
      obtain ⟨hv64, hm64⟩ := proghdr_lt hph
      have hsum : (ph.vaddr + ph.memsz) % 2 ^ 64 = ph.vaddr + ph.memsz := by omega
      rw [hsum]
      refine Yields.bind (enlarge h (ph.vaddr + ph.memsz)) ?_
      rintro res s₁ ⟨l₁, A₁, heff₁, hgrow | ⟨rfl, hle, hspace₁, huser₁, hlack⟩⟩
      · rw [← hgrow.size] at hscan
        by_cases h0 : res = 0
        · rw [if_pos h0]
          rw [if_pos (.inl h0), h0] at hscan
          exact Yields.pure (.stop_enlarged h hu heff₁ (h0 ▸ hgrow) (h0 ▸ hgrow.space) hscan)
        rw [if_neg h0]
        by_cases hal : ph.vaddr % pgsize ≠ 0
        · rw [if_pos hal]
          rw [if_pos (.inr (.inl hal))] at hscan
          exact Yields.pure (.stop_enlarged h hu heff₁ hgrow hgrow.space hscan)
        rw [if_neg hal]
        have hsz := size_lt hgrow.space.le
        have hsize := hgrow.size
        have hfile : ph.filesz % 2 ^ 32 = ph.filesz := by omega
        have hfit : ph.vaddr + ph.filesz ≤ npages res * pgsize := by
          simp only [npages, pgsize]
          omega
        rw [hfile]
        refine Yields.bind (loadseg_spec (not_not.1 hal) (hgrow.user hu) hfit hgrow.space) ?_
        rintro ok s₂ ⟨heff₂, hspace₂, hok⟩
        by_cases hc : f.covers (ph.off % 2 ^ 32) ph.filesz = true
        · rw [hok, if_pos hc]
          rw [if_neg (not_or.2 ⟨h0, not_or.2 ⟨hal, by rw [hc]; decide⟩⟩)] at hscan
          exact Yields.mono (ih hspace₂ (hgrow.user hu)) fun res s' hr =>
            .next h (heff₁.trans heff₂) hspace₂ hgrow.built hscan hr
        · rw [hok, if_neg hc]
          rw [if_pos (.inr (.inr (Bool.eq_false_iff.2 hc)))] at hscan
          exact Yields.pure (.stop_enlarged h hu (heff₁.trans heff₂) hgrow hspace₂ hscan)
      · rw [if_pos rfl]
        refine Yields.pure ⟨l₁, A₁, sz, heff₁, hspace₁, huser₁ hu, .inr rfl, fun hb => .of_lack (hlack hb) ?_⟩
        rw [hscan]
        split_ifs
        · exact le_max_right _ _
        · exact (le_max_right _ _).trans (f.le_scan _ _ _)

/-! ## Arguments -/

theorem copyArg_spec (h : Space s.mem l r A n) (sp : ℕ) (src : List UInt8) :
    Yields (storing r (copyout r sp src)) s fun _ s' => Effect r l A s l A s' ∧ Space s'.mem l r A n :=
  storing_spec h (copyout_spec h sp src)

theorem pushArgs_spec {stackbase : ℕ} (argv : List Str) {sp : ℕ} {ustack : List ℕ} {s : State}
    (h : Space s.mem l r A n) : Yields (pushArgs r stackbase argv sp ustack) s fun _ s' =>
      Effect r l A s l A s' ∧ Space s'.mem l r A n := by
  induction argv generalizing sp ustack s with
  | nil => exact Yields.pure ⟨.refl, h⟩
  | cons str argv ih =>
    rw [pushArgs]
    by_cases hmax : maxArg ≤ ustack.length
    · rw [if_pos hmax]
      exact Yields.pure ⟨.refl, h⟩
    rw [if_neg hmax]
    by_cases hbase : pushSp sp (str.chars.length + 1) < stackbase
    · rw [if_pos hbase]
      exact Yields.pure ⟨.refl, h⟩
    rw [if_neg hbase]
    refine Yields.bind (copyArg_spec h _ _) ?_
    rintro ok s₁ ⟨heff₁, h₁⟩
    cases ok with
    | false => exact Yields.pure ⟨heff₁, h₁⟩
    | true => exact Yields.mono (ih h₁) fun _ s' ⟨heff, h'⟩ => ⟨heff₁.trans heff, h'⟩

theorem pushStack_spec (sz : ℕ) (argv : List Str) (h : Space s.mem l r A n) :
    Yields (pushStack r sz argv) s fun _ s' => Effect r l A s l A s' ∧ Space s'.mem l r A n := by
  rw [pushStack]
  refine Yields.bind (pushArgs_spec argv h) ?_
  rintro (_ | ⟨sp, ustack⟩) s₁ ⟨heff₁, h₁⟩
  · exact Yields.pure ⟨heff₁, h₁⟩
  simp only []
  by_cases hbase : pushSp sp ((ustack.length + 1) * 8) < sz - pgsize
  · rw [if_pos hbase]
    exact Yields.pure ⟨heff₁, h₁⟩
  rw [if_neg hbase]
  refine Yields.bind (copyArg_spec h₁ _ _) ?_
  rintro ok s₂ ⟨heff₂, h₂⟩
  cases ok with
  | false => exact Yields.pure ⟨heff₁.trans heff₂, h₂⟩
  | true => exact Yields.pure ⟨heff₁.trans heff₂, h₂⟩

end

end Xv6.Kernel

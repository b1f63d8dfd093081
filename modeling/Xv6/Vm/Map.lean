import Xv6.Vm.Copy

/-!
# A page table is a finite map

What `walk` finds for each address is a finite map from pages to entries, and the functions of `kernel/vm.c` that
edit a table are edits of that map.

* `lookup`, `translate`, `loadByte`: the entry of an address, where it leads, and the byte there.
* `mapLoop_run`: the loop of `mappages` adds a run of pages.
* **`finite_map`**: `walk` changes no entry, `mappages` adds a range or, when no page is free any more, the first
  pages of it, `uvmunmap` takes a range out, and no two pages have one entry.
-/

namespace Xv6.Vm

open Function Bytes Fail Bag

/-- The valid leaf entry that `walk` finds for an address. -/
def lookup (m : Mem) (r va : ℕ) : Option ℕ :=
  match walk r va false m with
  | .ok (pte, _) => if pte ≠ 0 ∧ Has (m.word pte) pteV then some (m.word pte) else none
  | .error _ => none

def translate (m : Mem) (r va : ℕ) : Option (ℕ × ℕ) :=
  (lookup m r va).map fun w => (pte2pa w + va % pgsize, pteFlags w)

def pageOffset (va : ℕ) : Fin pgsize := ⟨va % pgsize, Nat.mod_lt va (by decide)⟩

def loadByte (m : Mem) (r va : ℕ) : Option UInt8 :=
  (lookup m r va).map fun w => m.page (pte2pa w) (pageOffset va)

def ValidPte (w : ℕ) : Prop := Has w pteV ∧ w < 2 ^ 64

theorem LeafPte.valid {w : ℕ} (h : LeafPte w) : ValidPte w := ⟨h.1, h.2.2⟩

section

variable [Image] {m m' : Mem} {l l' : List ℕ} {r va pa perm : ℕ} {T T' : Tab} {W : ℕ → Prop}

theorem TabOk.mono {W' : ℕ → Prop} (h : TabOk m r T W) (hw : ∀ w, W w → W' w) : TabOk m r T W' :=
  { h with word := fun v w hv => hw w (h.word v w hv) }

theorem Table.mono {W' : ℕ → Prop} (h : Table m l r T W) (hw : ∀ w, W w → W' w) : Table m l r T W' :=
  { h with tab := h.tab.mono hw }

theorem Table.valid (h : Table m l r T) : Table m l r T ValidPte := h.mono fun _ => LeafPte.valid

/-! ## Lookups -/

omit [Image] in
theorem lookup_of_le (hva : maxva ≤ va) : lookup m r va = none := by
  rw [lookup, walk, if_pos hva]
  rfl

theorem lookup_eq (h : TabOk m r T ValidPte) (hva : va < maxva) : lookup m r va = T.leaf (va / pgsize) := by
  cases hw : T.leaf (va / pgsize) with
  | some w =>
    obtain ⟨q, -, hq, hwalk, hword⟩ := walk_mapped h hva hw
    have hvalid := (h.word _ w hw).1
    rw [lookup, hwalk]
    change (if _ then _ else _) = _
    rw [hword, if_pos ⟨slot_ne_zero hq _, hvalid⟩]
  | none =>
    rw [lookup, walk_read h false nofun hva]
    change (if _ then _ else _) = _
    cases hq : T.node (.bot (va / 2 ^ 21)) with
    | none => exact if_neg fun hc => hc.1 rfl
    | some q =>
      rw [Option.map_some, Option.getD_some, word_leaf h hq, hw]
      exact if_neg fun hc => not_has_zero _ hc.2

theorem lookup_congr (h : TabOk m r T ValidPte) (h' : TabOk m' r T' ValidPte) (hleaf : T'.leaf = T.leaf) :
    lookup m' r = lookup m r := by
  funext va
  by_cases hva : va < maxva
  · rw [lookup_eq h hva, lookup_eq h' hva, hleaf]
  · rw [lookup_of_le (Nat.le_of_not_lt hva), lookup_of_le (Nat.le_of_not_lt hva)]

section

omit [Image]

theorem lt_of_lookup {w : ℕ} (h : lookup m r va = some w) : va < maxva := by
  by_contra hva
  rw [lookup_of_le (Nat.le_of_not_lt hva)] at h
  cases h

theorem translate_eq_none : translate m r va = none ↔ lookup m r va = none := Option.map_eq_none_iff

end

/-! ## `mappages` -/

omit [Image] in
theorem valid_leafEntry (hperm : perm < 2 ^ 10) (hpa : pa < 2 ^ 56) :
    ValidPte (pa2pte pa ||| perm ||| pteV) := by
  refine ⟨?_, ?_⟩
  · exact (has_leafEntry (show 0 < 10 by decide) hperm).2 (.inr rfl)
  · rw [leafEntry_eq hperm]
    have : perm ||| pteV < 2 ^ 10 := Nat.or_lt_two_pow hperm (by decide)
    omega

/-- The leaves `f` with `k` pages more from `v` on, at the physical addresses from `pa` on. -/
def mapRange (f : ℕ → Option ℕ) (v k pa perm : ℕ) : ℕ → Option ℕ := fun x =>
  if v ≤ x ∧ x < v + k then some (pa2pte (pa + (x - v) * pgsize) ||| perm ||| pteV) else f x

section

omit [Image]

theorem mapRange_zero (f : ℕ → Option ℕ) (v pa perm : ℕ) : mapRange f v 0 pa perm = f := by
  funext x
  refine if_neg ?_
  omega

theorem mapRange_succ (f : ℕ → Option ℕ) (v k pa perm : ℕ) :
    mapRange (update f v (some (pa2pte pa ||| perm ||| pteV))) (v + 1) k (pa + pgsize) perm =
      mapRange f v (k + 1) pa perm := by
  funext x
  rw [mapRange, mapRange]
  by_cases hx : x = v
  · subst hx
    rw [if_neg (by omega), if_pos (by omega), update_self, Nat.sub_self, Nat.zero_mul, Nat.add_zero]
  · rw [update_of_ne hx]
    by_cases hin : v + 1 ≤ x ∧ x < v + 1 + k
    · have hpa : pa + pgsize + (x - (v + 1)) * pgsize = pa + (x - v) * pgsize := by
        rw [show x - v = x - (v + 1) + 1 by omega, Nat.succ_mul]
        omega
      rw [if_pos hin, if_pos (by omega), hpa]
    · rw [if_neg hin, if_neg (by omega)]

end

omit [Image] in
theorem mapRange_one (f : ℕ → Option ℕ) (v pa perm : ℕ) :
    update f v (some (pa2pte pa ||| perm ||| pteV)) = mapRange f v 1 pa perm := by
  rw [← mapRange_succ, mapRange_zero]

/-- What a run of `mappages` over `n` pages leaves: it has mapped all of them, or stopped before the end because no
page was free. -/
def Mapped (m : Mem) (l : List ℕ) (r : ℕ) (T : Tab) (v n pa perm : ℕ) (ok : Bool) (m' : Mem) : Prop :=
  ∃ l' T' k, Table m' l' r T' ValidPte ∧ Grows m l T m' l' T' ∧ T'.leaf = mapRange T.leaf v k pa perm ∧
    (v + k) * pgsize ≤ maxva ∧ if ok = true then k = n else k < n ∧ l' = []

theorem mapPage_run (h : Table m l r T ValidPte) {v : ℕ} (hva : v * pgsize < maxva) (hnone : T.leaf v = none)
    (hperm : perm < 2 ^ 10) (hpa : pa < 2 ^ 56) :
    Yields (mapPage r (v * pgsize) pa perm) m (Mapped m l r T v 1 pa perm) := by
  have hdiv : v * pgsize / pgsize = v := Nat.mul_div_cancel v (by decide)
  have hend : (v + 1) * pgsize ≤ maxva := by
    simp only [pgsize, maxva] at hva ⊢
    omega
  have hentry := valid_leafEntry hperm hpa
  refine Yields.mono (mapPage_spec h hva (by rwa [hdiv]) hentry.2 hentry) ?_
  rw [hdiv]
  rintro ok m' ⟨l', T', h', hg, -, ⟨rfl, hleaf⟩ | ⟨rfl, hleaf, hl, -⟩⟩
  · exact ⟨l', T', 1, h', hg, hleaf.trans (mapRange_one ..), hend, rfl⟩
  · exact ⟨l', T', 0, h', hg, hleaf.trans (mapRange_zero ..).symm, hva.le, Nat.one_pos, hl⟩

section

omit [Image]

theorem mapPage_error {a : ℕ} (ha : maxva ≤ a) : mapPage r a pa perm m = .error .walk := by
  rw [mapPage, walk, if_pos ha]
  rfl

theorem mapLoop_error {a : ℕ} (ha : maxva ≤ a) (n : ℕ) : mapLoop r perm n a pa m = .error .walk := by
  cases n with
  | zero => exact mapPage_error ha
  | succ n =>
    rw [mapLoop]
    exact bind_error (mapPage_error ha)

end

/-- **The loop of `mappages`** maps the pages in order. It stops where there is no page for a table; at `MAXVA` it
panics. -/
theorem mapLoop_run (hperm : perm < 2 ^ 10) (n : ℕ) {m : Mem} {l : List ℕ} {T : Tab} {v pa : ℕ}
    (h : Table m l r T ValidPte) (hpa : pa + n * pgsize < 2 ^ 56)
    (hnone : ∀ x, v ≤ x → x ≤ v + n → x * pgsize < maxva → T.leaf x = none) :
    Ends ((v + n) * pgsize < maxva) (mapLoop r perm n (v * pgsize) pa) m
      (Mapped m l r T v (n + 1) pa perm) := by
  induction n generalizing m l T v pa with
  | zero =>
    by_cases hva : v * pgsize < maxva
    · exact (mapPage_run h hva (hnone v le_rfl le_rfl hva) hperm (by omega)).ends
    · exact Ends.of_error (mapPage_error (Nat.le_of_not_lt hva)) hva
  | succ n ih =>
    by_cases hva : v * pgsize < maxva
    swap
    · refine Ends.of_error (mapLoop_error (Nat.le_of_not_lt hva) (n + 1)) fun hc => hva ?_
      exact page_lt (Nat.le_add_right v (n + 1)) hc
    have hnext : (v * pgsize + pgsize) % 2 ^ 64 = (v + 1) * pgsize ∧ (pa + pgsize) % 2 ^ 64 = pa + pgsize ∧
        pa + pgsize + n * pgsize < 2 ^ 56 := by
      simp only [pgsize, maxva] at hva hpa ⊢
      omega
    rw [mapLoop, hnext.1, hnext.2.1]
    refine Ends.bind (mapPage_run h hva (hnone v le_rfl (by omega) hva) hperm (by omega)).ends ?_
    rintro ok m₁ ⟨l₁, T₁, k, h₁, hg₁, hleaf₁, hend, hk⟩
    cases ok with
    | false =>
      refine Ends.pure ⟨l₁, T₁, k, h₁, hg₁, hleaf₁, hend, ?_, hk.2⟩
      exact Nat.lt_of_lt_of_le hk.1 (by omega)
    | true =>
      -- the first page is mapped, and the loop goes on with the rest of the range
      obtain rfl : k = 1 := hk
      have hrest : ∀ x, v + 1 ≤ x → x ≤ v + 1 + n → x * pgsize < maxva → T₁.leaf x = none := by
        intro x hx hle hxva
        rw [hleaf₁, mapRange, if_neg (by omega)]
        exact hnone x (by omega) (by omega) hxva
      have hmore := ih h₁ hnext.2.2 hrest
      have hcount : v + 1 + n = v + (n + 1) := by omega
      rw [hcount] at hmore
      refine Ends.mono hmore ?_
      rintro ok m' ⟨l', T', k, h', hg', hleaf', hend', hk⟩
      refine ⟨l', T', k + 1, h', hg₁.trans hg', ?_, ?_, ?_⟩
      · rw [hleaf', hleaf₁, ← mapRange_one, mapRange_succ]
      · rwa [show v + (k + 1) = v + 1 + k by omega]
      · cases ok with
        | false => exact ⟨Nat.succ_lt_succ hk.1, hk.2⟩
        | true => exact congrArg (· + 1) hk

omit [Image] in
theorem mappages_eq {v n : ℕ} (hv : v * pgsize < maxva) (hn : (n + 1) * pgsize ≤ maxva) :
    mappages r (v * pgsize) ((n + 1) * pgsize) pa perm = mapLoop r perm n (v * pgsize) pa := by
  have hturns : turns (v * pgsize) (lastPage (v * pgsize) ((n + 1) * pgsize)) = n := by
    simp only [turns, lastPage, pgRoundDown, pgsize, maxva] at *
    omega
  rw [mappages, pgRoundDown_of_aligned (Nat.mul_mod_left v pgsize), hturns]

/-- **The addresses of a run of pages** lead to the run of physical pages; the others lead where they led. -/
theorem translate_mapRange (h : TabOk m r T ValidPte) (h' : TabOk m' r T' ValidPte) {v k : ℕ}
    (hperm : perm < 2 ^ 10) (hpa : pa % pgsize = 0) (hend : (v + k) * pgsize ≤ maxva)
    (hleaf : T'.leaf = mapRange T.leaf v k pa perm) (x : ℕ) :
    translate m' r x = if v * pgsize ≤ x ∧ x < v * pgsize + k * pgsize then
      some (pa + (x - v * pgsize), perm ||| pteV) else translate m r x := by
  by_cases hx : x < maxva
  · rw [translate, translate, lookup_eq h hx, lookup_eq h' hx, hleaf, mapRange]
    have hiff : (v ≤ x / pgsize ∧ x / pgsize < v + k) ↔ v * pgsize ≤ x ∧ x < v * pgsize + k * pgsize := by
      rw [Nat.le_div_iff_mul_le (by decide), Nat.div_lt_iff_lt_mul (by decide), Nat.add_mul]
    by_cases hin : v * pgsize ≤ x ∧ x < v * pgsize + k * pgsize
    · have hmul : (pa + (x / pgsize - v) * pgsize) % pgsize = 0 := by
        rw [Nat.add_mul_mod_self_right, hpa]
      have hsum : pa + (x / pgsize - v) * pgsize + x % pgsize = pa + (x - v * pgsize) := by
        simp only [pgsize] at *
        omega
      rw [if_pos hin, if_pos (hiff.2 hin), Option.map_some, pte2pa_leafEntry hperm hmul, leafEntry_flags hperm, hsum]
    · rw [if_neg hin, if_neg fun hc => hin (hiff.1 hc)]
  · have hle := Nat.le_of_not_lt hx
    rw [if_neg (by rw [← Nat.add_mul]; omega), translate, translate, lookup_of_le hle, lookup_of_le hle]

/-! ## Entries -/

omit [Image] in
theorem slot_inj {p q i j : ℕ} (hp : p % pgsize = 0) (hq : q % pgsize = 0) (hi : i < 512) (hj : j < 512)
    (h : slot p i = slot q j) : p = q ∧ i = j := by
  simp only [slot, pgsize] at *
  omega

theorem walk_injective (h : Table m l r T W) {va vb a b : ℕ} (hva : va < maxva) (hvb : vb < maxva)
    (ha : walk r va false m = .ok (a, m)) (hb : walk r vb false m = .ok (b, m)) (ha0 : a ≠ 0) (hab : a = b) :
    va / pgsize = vb / pgsize := by
  rw [walk_read h.tab false nofun hva] at ha
  rw [walk_read h.tab false nofun hvb] at hb
  subst hab
  cases hp : T.node (.bot (va / 2 ^ 21)) with
  | none =>
    rw [hp] at ha
    cases ha
    exact absurd rfl ha0
  | some p =>
    cases hq : T.node (.bot (vb / 2 ^ 21)) with
    | none =>
      rw [hq] at hb
      cases hb
      exact absurd rfl ha0
    | some q =>
      rw [hp] at ha
      rw [hq] at hb
      have hslot : slot p (px 0 va) = slot q (px 0 vb) :=
        (Prod.mk.inj (Except.ok.inj (ha.trans hb.symm))).1
      obtain ⟨hpq, hpx⟩ := slot_inj (h.tab.pages _ _ hp).1 (h.tab.pages _ _ hq).1 (px_lt 0 va) (px_lt 0 vb) hslot
      have hbot : Node.bot (va / 2 ^ 21) = Node.bot (vb / 2 ^ 21) :=
        inj_of_nodup h.nodes_nodup (h.tab.mem_places hp) (h.tab.mem_places hq) hp (hpq ▸ hq)
      have hdir := Node.bot.inj hbot
      rw [px_zero, px_zero] at hpx
      simp only [pgsize]
      omega

/-! ## The map -/

/-- The pages of a range may be freed: they are pages of the allocator, all different, and not in use as free
pages or page-table pages. -/
def Freeable (l : List ℕ) (T : Tab) (va size : ℕ) : Prop :=
  (∀ v, va / pgsize ≤ v → v < (va + size) / pgsize → ∀ p, T.pa v = some p → IsPage p) ∧
    Distinct ((l : Multiset ℕ) + T.nodes + bag (Finset.Ico (va / pgsize) ((va + size) / pgsize)) T.pa)

/-- **The operations of a page table as operations of a finite map.** -/
structure FiniteMap (m : Mem) (l : List ℕ) (r : ℕ) (T : Tab) : Prop where
  walk : ∀ va < maxva, Yields (walk r va true) m fun a m' =>
    (∃ l' T', Table m' l' r T' ValidPte ∧ (a = 0 → l' = [])) ∧ lookup m' r = lookup m r
  mappages : ∀ va size pa perm, va % pgsize = 0 → size % pgsize = 0 → pa % pgsize = 0 → va < maxva →
    0 < size → size ≤ maxva → pa < maxva → perm < 2 ^ 10 →
    (∀ x, va ≤ x → x < va + size → translate m r x = none) →
    Ends (va + size ≤ maxva) (mappages r va size pa perm) m fun ok m' =>
      (∃ l' T', Table m' l' r T' ValidPte ∧ (ok = false → l' = [])) ∧
      ∃ k, k % pgsize = 0 ∧ (if ok = true then k = size else k < size) ∧
        ∀ x, translate m' r x =
          if va ≤ x ∧ x < va + k then some (pa + (x - va), perm ||| pteV) else translate m r x
  uvmunmap : ∀ va size free, va % pgsize = 0 → size % pgsize = 0 → 0 < size →
    (∀ x, va ≤ x → x < va + size → ∃ w, lookup m r x = some w ∧ pteFlags w ≠ pteV) →
    (free = true → Freeable l T va size) →
    Yields (uvmunmap r va size free) m fun _ m' => (∃ l' T', Table m' l' r T' ValidPte) ∧
      ∀ x, lookup m' r x = if va ≤ x ∧ x < va + size then none else lookup m r x
  injective : ∀ va vb a b, va < maxva → vb < maxva → va / pgsize ≠ vb / pgsize →
    Vm.walk r va false m = .ok (a, m) → Vm.walk r vb false m = .ok (b, m) → a ≠ 0 → a ≠ b

section

omit [Image]

theorem aligned_eq {a : ℕ} (h : a % pgsize = 0) : ∃ k, a = k * pgsize :=
  ⟨a / pgsize, (Nat.div_mul_cancel (Nat.dvd_of_mod_eq_zero h)).symm⟩

theorem aligned_pos {a : ℕ} (h : a % pgsize = 0) (hpos : 0 < a) : ∃ n, a = (n + 1) * pgsize := by
  obtain ⟨k, rfl⟩ := aligned_eq h
  cases k with
  | zero => exact absurd hpos (by simp)
  | succ n => exact ⟨n, rfl⟩

end

theorem mappages_run (h : Table m l r T ValidPte) {v n : ℕ} (hlt : v * pgsize < maxva)
    (hle : (n + 1) * pgsize ≤ maxva) (hpa : pa < maxva) (hperm : perm < 2 ^ 10)
    (hnone : ∀ x, v * pgsize ≤ x → x < v * pgsize + (n + 1) * pgsize → translate m r x = none) :
    Ends (v * pgsize + (n + 1) * pgsize ≤ maxva) (mappages r (v * pgsize) ((n + 1) * pgsize) pa perm) m
      (Mapped m l r T v (n + 1) pa perm) := by
  have hrange : v * pgsize + (n + 1) * pgsize ≤ maxva ↔ (v + n) * pgsize < maxva := by
    simp only [pgsize, maxva]
    omega
  rw [mappages_eq hlt hle, hrange]
  refine mapLoop_run hperm n h ?_ fun x hx hxn hxva => ?_
  · simp only [pgsize, maxva] at hle hpa ⊢
    omega
  · have hin : v * pgsize ≤ x * pgsize ∧ x * pgsize < v * pgsize + (n + 1) * pgsize := by
      simp only [pgsize]
      omega
    have hlook := translate_eq_none.1 (hnone _ hin.1 hin.2)
    rwa [lookup_eq h.tab hxva, Nat.mul_div_cancel x (by decide)] at hlook

theorem lookup_clear (h : TabOk m r T ValidPte) {v n : ℕ} (h' : TabOk m' r (T.clear v (v + n)) ValidPte) (x : ℕ) :
    lookup m' r x = if v * pgsize ≤ x ∧ x < v * pgsize + n * pgsize then none else lookup m r x := by
  by_cases hx : x < maxva
  · have hiff : (v ≤ x / pgsize ∧ x / pgsize < v + n) ↔ v * pgsize ≤ x ∧ x < v * pgsize + n * pgsize := by
      rw [Nat.le_div_iff_mul_le (by decide), Nat.div_lt_iff_lt_mul (by decide), Nat.add_mul]
    rw [lookup_eq h hx, lookup_eq h' hx]
    exact if_congr hiff rfl rfl
  · rw [lookup_of_le (Nat.le_of_not_lt hx), lookup_of_le (Nat.le_of_not_lt hx), ite_self]

theorem uvmunmap_run (h : Table m l r T ValidPte) {v n : ℕ} {free : Bool}
    (hmap : ∀ x, v * pgsize ≤ x → x < v * pgsize + (n + 1) * pgsize →
      ∃ w, lookup m r x = some w ∧ pteFlags w ≠ pteV)
    (hfree : free = true → Freeable l T (v * pgsize) ((n + 1) * pgsize)) :
    Yields (uvmunmap r (v * pgsize) ((n + 1) * pgsize) free) m fun _ m' =>
      ∃ l', Table m' l' r (T.clear v (v + (n + 1))) ValidPte := by
  have hdiv : (v * pgsize + (n + 1) * pgsize) / pgsize = v + (n + 1) := by
    rw [← Nat.add_mul, Nat.mul_div_cancel _ (by decide)]
  have hlast : ((n + 1) * pgsize - 1) / pgsize = n := by
    simp only [pgsize]
    omega
  have hin : ∀ i ≤ n, v * pgsize ≤ (v + i) * pgsize ∧ (v + i) * pgsize < v * pgsize + (n + 1) * pgsize := by
    intro i hi
    simp only [pgsize]
    omega
  have hva : (v + n) * pgsize < maxva := by
    obtain ⟨w, hw, -⟩ := hmap _ (hin n le_rfl).1 (hin n le_rfl).2
    exact lt_of_lookup hw
  have hle : v * pgsize + (n + 1) * pgsize ≤ maxva := by
    simp only [pgsize, maxva] at hva ⊢
    omega
  rw [uvmunmap_eq (Nat.mul_pos n.succ_pos (by decide)) hle, hlast]
  rw [Freeable, Nat.mul_div_cancel v (by decide), hdiv] at hfree
  refine Yields.mono (unmapLoop_run free n h hva ?_ fun hf => (hfree hf).2) ?_
  · intro i hi
    obtain ⟨w, hw, hflags⟩ := hmap _ (hin i hi).1 (hin i hi).2
    rw [lookup_eq h.tab (page_lt (Nat.add_le_add_left hi v) hva), Nat.mul_div_cancel _ (by decide)] at hw
    refine ⟨w, hw, (h.tab.word _ w hw).1, hflags, fun hf => ?_⟩
    exact (hfree hf).1 (v + i) (by omega) (by omega) _ (Tab.pa_of_leaf hw)
  · rintro - m' ⟨l', h', -⟩
    exact ⟨l', h'⟩

/-- **Page tables implement a finite map.** -/
theorem finite_map (h : Table m l r T ValidPte) : FiniteMap m l r T where
  walk := by
    intro va hva
    refine Yields.mono (walk_alloc h hva) ?_
    rintro a m' ⟨l', T', h', -, hleaf, -, hres⟩
    refine ⟨⟨l', T', h', fun ha => ?_⟩, lookup_congr h.tab h'.tab hleaf⟩
    rcases hres with ⟨-, hl, -⟩ | ⟨q, hq, rfl⟩
    · exact hl
    · exact absurd ha (slot_ne_zero (h'.tab.pages _ _ hq) _)
  mappages := by
    intro va size pa perm hva hsize hpa hlt hpos hle hpalt hperm hnone
    obtain ⟨v, rfl⟩ := aligned_eq hva
    obtain ⟨n, rfl⟩ := aligned_pos hsize hpos
    refine Ends.mono (mappages_run h hlt hle hpalt hperm hnone) ?_
    rintro ok m' ⟨l', T', k, h', -, hleaf, hend, hk⟩
    refine ⟨⟨l', T', h', ?_⟩, k * pgsize, Nat.mul_mod_left k pgsize, ?_, ?_⟩
    · rintro rfl
      exact hk.2
    · cases ok with
      | false => exact Nat.mul_lt_mul_of_pos_right hk.1 (by decide)
      | true => exact congrArg (· * pgsize) hk
    · exact translate_mapRange h.tab h'.tab hperm hpa hend hleaf
  uvmunmap := by
    intro va size free hva hsize hpos hmap hfree
    obtain ⟨v, rfl⟩ := aligned_eq hva
    obtain ⟨n, rfl⟩ := aligned_pos hsize hpos
    refine Yields.mono (uvmunmap_run h hmap hfree) ?_
    rintro - m' ⟨l', h'⟩
    exact ⟨⟨l', _, h'⟩, lookup_clear h.tab h'.tab⟩
  injective := fun va vb a b hva hvb hne ha hb ha0 hab => hne (walk_injective h hva hvb ha hb ha0 hab)

end

section

attribute [local instance] Image.least

/-- A table that maps two pages, with three free pages. -/
theorem finite_map_parent : FiniteMap (sampleMem (samplePage 6)) [samplePage 6, samplePage 7, samplePage 8]
    (samplePage 0) sampleParent :=
  finite_map (Table.valid ⟨sample_space.free, sample_space.tab, sample_space.nodup.left⟩)

end

end Xv6.Vm

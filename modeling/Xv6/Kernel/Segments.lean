import Xv6.Kernel.Launch

/-!
# The image that `exec` loads

What the program headers of a file say about the memory of the program, with all fields at their full width, against
what the loops of `exec` and `loadseg` store, which keep the low 32 bits of the file offsets only.

* `Content.headers`, `imageByte`, `imageEnd`: what the file says.
* `loadLoop_loads`, `loadseg_loads`, **`loadPhdrs_loads`**: what is loaded.
* **`exec_loads_iff`**: `exec` loads what the file says if and only if the offsets fit in 32 bits.
-/

namespace Xv6.Kernel

open Vm Fail Bag
open Icache (Ip)

/-! ## What the file says -/

def Content.header (f : Content) (off : ℕ) : Option Proghdr :=
  if off + proghdrSize ≤ f.bytes.length then some (Proghdr.parse ((f.bytes.drop off).take proghdrSize)) else none

def Content.headers (f : Content) (elf : Elfhdr) : Option (List Proghdr) :=
  (List.range elf.phnum).mapM fun i => f.header (elf.phoff + proghdrSize * i)

def Proghdr.Covers (ph : Proghdr) (va : ℕ) : Prop :=
  ph.type = elfProgLoad ∧ ph.vaddr ≤ va ∧ va < ph.vaddr + ph.filesz

instance (ph : Proghdr) (va : ℕ) : Decidable (ph.Covers va) := inferInstanceAs (Decidable (_ ∧ _))

/-- The byte at `va`: from the last segment that covers it, or else zero. -/
def imageByte (f : Content) (va : ℕ) (phs : List Proghdr) : UInt8 :=
  phs.foldl (fun b ph => if ph.Covers va then (f.bytes[ph.off + (va - ph.vaddr)]?).getD 0 else b) 0

def imageEnd (sz : ℕ) (phs : List Proghdr) : ℕ :=
  phs.foldl (fun z ph => if ph.type = elfProgLoad then max z (ph.vaddr + ph.memsz) else z) sz

def Proghdr.Within (f : Content) (ph : Proghdr) : Prop :=
  ph.type = elfProgLoad → 0 < ph.filesz → ph.off + ph.filesz ≤ f.bytes.length

/-- **The process runs the program of the file.** -/
def Loads (f : Content) (elf : Elfhdr) (m : Mem) (v : Proc) : Prop :=
  ∃ phs, f.headers elf = some phs ∧ (∀ ph ∈ phs, ph.Within f) ∧
    (∀ va < imageEnd 0 phs, loadByte m v.pagetable va = some (imageByte f va phs)) ∧
    m.word (v.tf + epcOff) = elf.entry

/-- **The offsets of the headers and segments fit in 32 bits.** -/
def Narrow (f : Content) (elf : Elfhdr) : Prop :=
  (0 < elf.phnum → elf.phoff < 2 ^ 32) ∧
    ∀ i < elf.phnum, ∀ ph, f.header (elf.phoff + proghdrSize * i) = some ph → ph.type = elfProgLoad →
      0 < ph.filesz → ph.off < 2 ^ 32

def Proghdr.narrow (ph : Proghdr) : Proghdr := { ph with off := ph.off % 2 ^ 32 }

theorem Content.length_lt (f : Content) : f.bytes.length < 2 ^ 32 := f.size_le.trans_lt (by decide)

theorem Content.readi_spec {f : Content} {off k : ℕ} {b : List UInt8} (h : f.readi off k = some b) :
    off ≤ f.bytes.length ∧ b = (f.bytes.drop off).take k := by
  rw [readi] at h
  split_ifs at h with hc
  cases h
  exact ⟨by omega, rfl⟩

theorem Content.header_of_proghdr {f : Content} {off : ℕ} {ph : Proghdr} (h : f.proghdr off = some ph) :
    off + proghdrSize ≤ f.bytes.length ∧ f.header off = some ph := by
  obtain ⟨b, hb, rfl⟩ := Option.map_eq_some_iff.1 h
  rw [readExact, readi] at hb
  by_cases hc : f.bytes.length < off ∨ (off + proghdrSize) % 2 ^ 32 < off
  · rw [if_pos hc] at hb
    cases hb
  rw [if_neg hc] at hb
  simp only [] at hb
  split_ifs at hb with hlen
  cases hb
  have hle : off + proghdrSize ≤ f.bytes.length := by
    rw [List.length_take, List.length_drop] at hlen
    omega
  exact ⟨hle, by rw [header, if_pos hle]⟩

def segStep (f : Content) (x : ℕ) (o : Option UInt8) (ph : Proghdr) : Option UInt8 :=
  if ph.Covers x then f.bytes[ph.off + (x - ph.vaddr)]? else o

theorem segStep_of_not {f : Content} {x : ℕ} {o : Option UInt8} (ph : Proghdr) (h : ¬ ph.Covers x) :
    segStep f x o ph = o := if_neg h

theorem segStep_eq {f : Content} {x : ℕ} {g : ℕ → Option UInt8} (ph : Proghdr) (hload : ph.type = elfProgLoad)
    (hin : ph.Within f) : overwrite g ph.vaddr ((f.bytes.drop ph.off).take ph.filesz) x = segStep f x (g x) ph := by
  by_cases hpos : 0 < ph.filesz
  · have hle := hin hload hpos
    have hlen : ((f.bytes.drop ph.off).take ph.filesz).length = ph.filesz := by
      rw [List.length_take, List.length_drop]
      omega
    rw [overwrite, hlen, segStep]
    by_cases hx : ph.vaddr ≤ x ∧ x < ph.vaddr + ph.filesz
    · rw [if_pos hx, if_pos ⟨hload, hx⟩, List.getElem?_take_of_lt (by omega), List.getElem?_drop]
    · rw [if_neg hx, if_neg fun hc => hx hc.2]
  · have h0 : ph.filesz = 0 := Nat.eq_zero_of_not_pos hpos
    rw [h0, List.take_zero, overwrite_nil, segStep_of_not ph]
    rintro ⟨-, hlo, hhi⟩
    omega

/-- **What the loop over the program headers loads.** -/
structure Segments (f : Content) (off sz : ℕ) (start : ℕ → Option UInt8) (phs : List Proghdr) (z : ℕ)
    (final : ℕ → Option UInt8) : Prop where
  headers : ∀ i ph, phs[i]? = some ph → f.header (off + proghdrSize * i) = some ph
  within : ∀ ph ∈ phs, ph.narrow.Within f
  size : z = imageEnd sz phs
  bytes : ∀ x < npages z * pgsize, final x = phs.foldl (fun o ph => segStep f x o ph.narrow)
    (if x < npages sz * pgsize then start x else some 0)

theorem Segments.cons {f : Content} {off sz sz₁ z : ℕ} {start start₁ final : ℕ → Option UInt8} {ph : Proghdr}
    {phs : List Proghdr} (hhead : f.header off = some ph) (hin : ph.narrow.Within f)
    (hsz : sz₁ = if ph.type = elfProgLoad then max sz (ph.vaddr + ph.memsz) else sz)
    (hstart : ∀ x, (if x < npages sz₁ * pgsize then start₁ x else some 0) =
      segStep f x (if x < npages sz * pgsize then start x else some 0) ph.narrow)
    (h : Segments f (off + proghdrSize) sz₁ start₁ phs z final) : Segments f off sz start (ph :: phs) z final where
  headers := by
    intro i ph' hi
    cases i with
    | zero =>
      cases hi
      exact hhead
    | succ i =>
      rw [Nat.mul_succ, Nat.add_comm (proghdrSize * i), ← Nat.add_assoc]
      exact h.headers i ph' hi
  within := fun ph' hmem => by
    rcases List.mem_cons.1 hmem with rfl | hmem
    · exact hin
    · exact h.within ph' hmem
  size := by
    rw [h.size, hsz]
    rfl
  bytes := fun x hx => by rw [List.foldl_cons, ← hstart, h.bytes x hx]

theorem foldl_segStep {f : Content} {x : ℕ} (phs : List Proghdr)
    (hoff : ∀ ph ∈ phs, ph.type = elfProgLoad → 0 < ph.filesz → ph.off < 2 ^ 32) (hin : ∀ ph ∈ phs, ph.Within f) (b : UInt8) :
    phs.foldl (fun o ph => segStep f x o ph.narrow) (some b) = some (phs.foldl (fun b ph =>
      if ph.Covers x then (f.bytes[ph.off + (x - ph.vaddr)]?).getD 0 else b) b) := by
  induction phs generalizing b with
  | nil => rfl
  | cons ph phs ih =>
    have hstep : segStep f x (some b) ph.narrow =
        some (if ph.Covers x then (f.bytes[ph.off + (x - ph.vaddr)]?).getD 0 else b) := by
      by_cases hc : ph.Covers x
      · obtain ⟨hload, hlo, hhi⟩ := hc
        have hpos : 0 < ph.filesz := by omega
        have hle := hin ph List.mem_cons_self hload hpos
        have hlt : ph.off + (x - ph.vaddr) < f.bytes.length := by omega
        have hmod : ph.narrow.off = ph.off := Nat.mod_eq_of_lt (hoff ph List.mem_cons_self hload hpos)
        have hcn : ph.narrow.Covers x := ⟨hload, hlo, hhi⟩
        rw [segStep, if_pos hcn, if_pos ⟨hload, hlo, hhi⟩, hmod, List.getElem?_eq_getElem hlt]
        exact List.getElem?_eq_getElem hlt
      · rw [if_neg hc]
        exact segStep_of_not ph.narrow hc
    rw [List.foldl_cons, List.foldl_cons, hstep]
    exact ih (fun ph' hm => hoff ph' (List.mem_cons_of_mem ph hm)) (fun ph' hm => hin ph' (List.mem_cons_of_mem ph hm)) _

theorem mapM_eq_some_iff {α β : Type} {l : List α} {g : α → Option β} {l' : List β} :
    l.mapM g = some l' ↔ l.map g = l'.map some := by
  induction l generalizing l' with
  | nil =>
    rw [List.mapM_nil, List.map_nil]
    constructor
    · intro h
      cases h
      rfl
    · intro h
      rw [List.map_eq_nil_iff.1 h.symm]
      rfl
  | cons x l ih =>
    rw [List.mapM_cons, List.map_cons]
    constructor
    · intro h
      obtain ⟨y, hy, h⟩ := Option.bind_eq_some_iff.1 h
      obtain ⟨ys, hys, h⟩ := Option.bind_eq_some_iff.1 h
      cases h
      rw [List.map_cons, hy, ih.1 hys]
    · intro h
      cases l' with
      | nil => cases h
      | cons y ys =>
        rw [List.map_cons, List.cons.injEq] at h
        rw [h.1, ih.2 h.2]
        rfl

theorem Content.header_mem {f : Content} {elf : Elfhdr} {phs : List Proghdr} (h : f.headers elf = some phs) {i : ℕ}
    (hi : i < elf.phnum) : ∃ ph ∈ phs, f.header (elf.phoff + proghdrSize * i) = some ph := by
  have hmap := mapM_eq_some_iff.1 h
  have hmem : f.header (elf.phoff + proghdrSize * i) ∈ phs.map some := by
    rw [← hmap]
    exact List.mem_map.2 ⟨i, List.mem_range.2 hi, rfl⟩
  obtain ⟨ph, hph, he⟩ := List.mem_map.1 hmem
  exact ⟨ph, hph, he.symm⟩

theorem Content.headers_eq {f : Content} {elf : Elfhdr} {phs : List Proghdr} (hlen : phs.length = elf.phnum)
    (h : ∀ i ph, phs[i]? = some ph → f.header (elf.phoff + proghdrSize * i) = some ph) : f.headers elf = some phs := by
  refine mapM_eq_some_iff.2 (List.ext_getElem (by simp [hlen]) fun i hi hi' => ?_)
  rw [List.length_map] at hi'
  rw [List.getElem_map, List.getElem_map, List.getElem_range]
  exact h i _ (List.getElem?_eq_getElem hi')

theorem Content.header_le {f : Content} {off : ℕ} {ph : Proghdr} (h : f.header off = some ph) :
    off + proghdrSize ≤ f.bytes.length := by
  rw [header] at h
  split_ifs at h with hle
  exact hle

section

variable [Image] {s s' : State} {l : List ℕ} {r n : ℕ} {A : Tab} {f : Content}

/-! ## One segment -/

theorem loadLoop_loads {va offset sz : ℕ} (hva : va % pgsize = 0) (hfit : va + sz ≤ n * pgsize) (k : ℕ) {q : ℕ}
    {s : State} (h : Space s.mem l r A n) (hoff : offset + q * pgsize < 2 ^ 32) :
    May (loadLoop r va f offset sz k (q * pgsize)) s fun ok s' => ok = true →
      (q * pgsize < sz → offset + sz ≤ f.bytes.length) ∧ ∀ x < n * pgsize, loadByte s'.mem r x =
        overwrite (loadByte s.mem r) (va + q * pgsize)
          ((f.bytes.drop (offset + q * pgsize)).take (sz - q * pgsize)) x := by
  have hle := h.le
  -- the loop is over
  have hend : ∀ {q : ℕ} {s : State}, ¬ q * pgsize < sz → May (pure true : KM Bool) s fun ok s' => ok = true →
      (q * pgsize < sz → offset + sz ≤ f.bytes.length) ∧ ∀ x < n * pgsize, loadByte s'.mem r x =
        overwrite (loadByte s.mem r) (va + q * pgsize)
          ((f.bytes.drop (offset + q * pgsize)).take (sz - q * pgsize)) x := by
    intro q s hlt
    refine .pure fun _ => ⟨fun hc => absurd hc hlt, fun x _ => ?_⟩
    rw [Nat.sub_eq_zero_of_le (Nat.not_lt.1 hlt), List.take_zero, overwrite_nil]
  induction k generalizing q s with
  | zero =>
    rw [loadLoop]
    by_cases hlt : q * pgsize < sz
    · rw [if_pos hlt]
      exact .throw
    · rw [if_neg hlt]
      exact hend hlt
  | succ k ih =>
    rw [loadLoop]
    by_cases hlt : q * pgsize < sz
    swap
    · rw [if_neg hlt]
      exact hend hlt
    rw [if_pos hlt]
    have hmod : (va + q * pgsize) % 2 ^ 64 = va + q * pgsize := by
      refine Nat.mod_eq_of_lt ?_
      simp only [pgsize] at *
      omega
    have haligned : (va + q * pgsize) % pgsize = 0 := by rw [Nat.add_mul_mod_self_right, hva]
    have hwalk : onMem (walkaddr r ((va + q * pgsize) % 2 ^ 64)) s = .ok (A.addr (va + q * pgsize), s) := by
      rw [hmod]
      exact onMem_ok (walkaddr_eq h.tab _)
    rw [hmod] at hwalk ⊢
    have hmin : (if sz - q * pgsize < pgsize then sz - q * pgsize else pgsize) = min (sz - q * pgsize) pgsize := by
      rw [min_def]
      split_ifs <;> omega
    rw [May, bind_ok hwalk]
    by_cases h0 : A.addr (va + q * pgsize) = 0
    · rw [if_pos h0]
      exact May.throw
    rw [if_neg h0]
    simp only [hmin, Nat.mod_eq_of_lt hoff]
    cases hread : f.readi (offset + q * pgsize) (min (sz - q * pgsize) pgsize) with
    | none => exact May.pure (by simp)
    | some b =>
      obtain ⟨hin, hb⟩ := Content.readi_spec hread
      simp only []
      rw [bind_ok (storing_ok rfl)]
      by_cases hlen : b.length = min (sz - q * pgsize) pgsize
      swap
      · rw [if_neg hlen]
        exact May.pure (by simp)
      rw [if_pos hlen]
      have hbytes : offset + q * pgsize + min (sz - q * pgsize) pgsize ≤ f.bytes.length := by
        rw [hb, List.length_take, List.length_drop] at hlen
        have hpos : 0 < min (sz - q * pgsize) pgsize := lt_min (Nat.sub_pos_of_lt hlt) (by decide)
        omega
      have hnext : (q * pgsize + pgsize) % 2 ^ 32 = (q + 1) * pgsize := by
        simp only [pgsize] at *
        omega
      have hsize : f.bytes.length ≤ 2 ^ 31 := f.size_le.trans (by decide)
      have hroom : (va + q * pgsize) % pgsize + b.length ≤ pgsize := by
        rw [haligned, hlen, Nat.zero_add]
        exact min_le_right _ _
      have hwrite : ∀ x < n * pgsize, loadByte (s.mem.write (A.addr (va + q * pgsize)) b) r x =
          overwrite (loadByte s.mem r) (va + q * pgsize) b x := by
        intro x hx
        have hx := write_loads h h0 b hroom hx
        rwa [haligned] at hx
      have hspace := h.write h0 (o := 0) (by decide) b
      rw [hnext]
      refine May.mono (ih (q := q + 1) (s := s.loaded _ _) hspace ?_) fun ok s' hrest hok => ?_
      · rw [Nat.succ_mul, ← Nat.add_assoc]
        exact (Nat.add_le_add (hin.trans hsize) (by decide : pgsize ≤ 2 ^ 20)).trans_lt (by decide)
      obtain ⟨hcov, hload⟩ := hrest hok
      refine ⟨fun _ => ?_, fun x hx => ?_⟩
      · by_cases hmore : (q + 1) * pgsize < sz
        · exact hcov hmore
        · rw [min_eq_left (by rw [Nat.succ_mul] at hmore; omega)] at hbytes
          omega
      · rw [hload x hx]
        refine (overwrite_congr (hwrite x hx)).trans ?_
        rw [min_def] at hlen hb
        split_ifs at hlen hb with hlast
        · rw [Nat.sub_eq_zero_of_le (by rw [Nat.succ_mul]; omega), List.take_zero, overwrite_nil, hb]
        · have happ := overwrite_append (loadByte s.mem r) (va + q * pgsize) b
            ((f.bytes.drop (offset + (q + 1) * pgsize)).take (sz - (q + 1) * pgsize))
          have hsum : va + (q + 1) * pgsize = va + q * pgsize + b.length := by rw [hlen, Nat.succ_mul]; omega
          rw [hsum, happ, hb]
          have htake := List.take_add (i := pgsize) (j := sz - (q + 1) * pgsize) (l := f.bytes.drop (offset + q * pgsize))
          rw [List.drop_drop, show offset + q * pgsize + pgsize = offset + (q + 1) * pgsize by rw [Nat.succ_mul]; omega,
            show pgsize + (sz - (q + 1) * pgsize) = sz - q * pgsize by rw [Nat.succ_mul]; omega] at htake
          rw [htake]

theorem loadseg_loads {va offset sz : ℕ} (hfit : va + sz ≤ n * pgsize) (h : Space s.mem l r A n)
    (hoff : offset < 2 ^ 32) :
    May (loadseg r va f offset sz) s fun ok s' => ok = true →
      (0 < sz → offset + sz ≤ f.bytes.length) ∧ ∀ x < n * pgsize, loadByte s'.mem r x =
        overwrite (loadByte s.mem r) va ((f.bytes.drop offset).take sz) x := by
  rw [loadseg]
  by_cases hva : va % pgsize ≠ 0
  · rw [if_pos hva]
    exact .throw
  · rw [if_neg hva]
    have hloop := loadLoop_loads (f := f) (q := 0) (not_not.1 hva) hfit (2 ^ 20) h (by omega)
    simpa only [Nat.zero_mul, Nat.add_zero, Nat.sub_zero] using hloop

/-! ## All segments -/

theorem loadPhdrs_loads (f : Content) (k : ℕ) {off sz : ℕ} {s : State} {l : List ℕ} {A : Tab}
    (h : Space s.mem l r A (npages sz)) (hu : UserAll A (npages sz)) :
    May (loadPhdrs f r k off sz) s fun res s' => res.1 = true → ∃ phs, phs.length = k ∧
      Segments f off sz (loadByte s.mem r) phs res.2 (loadByte s'.mem r) := by
  induction k generalizing off sz s l A with
  | zero =>
    refine .pure fun _ => ⟨[], rfl, (by simp), fun _ hmem => absurd hmem List.not_mem_nil, rfl, fun x hx => ?_⟩
    rw [List.foldl_nil, if_pos hx]
  | succ k ih =>
    rw [loadPhdrs]
    cases hph : f.proghdr off with
    | none => exact .pure (by simp)
    | some ph =>
      obtain ⟨hlen, hhead⟩ := Content.header_of_proghdr hph
      have hnext : (off + proghdrSize) % 2 ^ 32 = off + proghdrSize :=
        Nat.mod_eq_of_lt (hlen.trans_lt f.length_lt)
      simp only [hnext]
      by_cases hty : ph.type ≠ elfProgLoad
      · rw [if_pos hty]
        refine (ih h hu).mono fun res s' hrest hres => ?_
        obtain ⟨phs, hk, hseg⟩ := hrest hres
        refine ⟨ph :: phs, congrArg (· + 1) hk, .cons hhead (fun hl => absurd hl hty) (if_neg hty).symm (fun x => ?_) hseg⟩
        exact (segStep_of_not ph.narrow fun hc => hty hc.1).symm
      rw [if_neg hty]
      have hload := not_not.1 hty
      by_cases hmem : ph.memsz < ph.filesz
      · rw [if_pos hmem]
        exact .pure (by simp)
      rw [if_neg hmem]
      by_cases hover : (ph.vaddr + ph.memsz) % 2 ^ 64 < ph.vaddr
      · rw [if_pos hover]
        exact .pure (by simp)
      rw [if_neg hover]
      obtain ⟨hv64, hm64⟩ := proghdr_lt hph
      have hsum : (ph.vaddr + ph.memsz) % 2 ^ 64 = ph.vaddr + ph.memsz := by omega
      rw [hsum]
      intro res s' hrun hres
      obtain ⟨z, s₁, halloc, hrun⟩ := bind_eq_ok hrun
      by_cases h0 : z = 0
      · rw [if_pos h0] at hrun
        cases hrun
        cases hres
      rw [if_neg h0] at hrun
      obtain ⟨l₁, A₁, -, hgrow | ⟨hz, -⟩⟩ := (enlarge h (ph.vaddr + ph.memsz)).may z s₁ halloc
      swap
      · exact absurd hz h0
      obtain ⟨m₁, hm₁, rfl⟩ := onMem_eq_ok halloc
      obtain ⟨hold, hzero⟩ := uvmalloc_loads h _ _ hm₁
      by_cases hal : ph.vaddr % pgsize ≠ 0
      · rw [if_pos hal] at hrun
        cases hrun
        cases hres
      rw [if_neg hal] at hrun
      have hsz := size_lt hgrow.space.le
      have hsize := hgrow.size
      have hfile : ph.filesz % 2 ^ 32 = ph.filesz := by omega
      have hfit : ph.vaddr + ph.filesz ≤ npages z * pgsize := by
        simp only [npages, pgsize]
        omega
      rw [hfile] at hrun
      obtain ⟨ok, s₂, hseg, hrun⟩ := bind_eq_ok hrun
      obtain ⟨-, hspace₂, -⟩ := (loadseg_spec (not_not.1 hal) (hgrow.user hu) hfit hgrow.space).may _ _ hseg
      have hbytes := loadseg_loads hfit hgrow.space (Nat.mod_lt _ (by decide)) _ _ hseg
      cases ok with
      | false =>
        cases hrun
        cases hres
      | true =>
        obtain ⟨hin, hbytes⟩ := hbytes rfl
        obtain ⟨phs, hk, hrest⟩ := ih hspace₂ (hgrow.user hu) _ _ hrun hres
        have hwithin : ph.narrow.Within f := fun _ hpos => hin hpos
        refine ⟨ph :: phs, congrArg (· + 1) hk, .cons hhead hwithin (hsize.trans (if_pos hload).symm) (fun x => ?_) hrest⟩
        have hmono : npages sz ≤ npages z := npages_mono (by omega)
        by_cases hx : x < npages z * pgsize
        · rw [if_pos hx, hbytes x hx]
          refine (segStep_eq ph.narrow hload hwithin).trans (congrArg (segStep f x · ph.narrow) ?_)
          by_cases hx' : x < npages sz * pgsize
          · rw [if_pos hx']
            exact (hold x hx').1
          · rw [if_neg hx']
            exact (hzero h0 x (Nat.not_lt.1 hx') hx).1
        · rw [if_neg hx, if_neg fun hc => hx (hc.trans_le (Nat.mul_le_mul_right _ hmono)), segStep_of_not ph.narrow]
          rintro ⟨-, -, hhi⟩
          exact hx (hhi.trans_le hfit)

/-! ## `exec` -/

variable {T : Pid → Tab} {P : Multiset ℕ} {p : Pid} {path : List UInt8} {argv : List Str}

/-- **What a new program sees**, whatever its arguments. -/
theorem exec_segments {ip : Ip} {elf : Elfhdr} {argc : ℕ} (hm : MemOk s l T P) (hlive : (s.proc p).state = .live)
    (helf : f.elfhdr = some elf) (hrun : exec p path (some (ip, f)) argv s = .ok (some argc, s')) :
    s'.mem.word ((s'.proc p).tf + epcOff) = elf.entry ∧ ∃ phs, phs.length = elf.phnum ∧
      Segments f (elf.phoff % 2 ^ 32) 0 (fun _ => some 0) phs (imageEnd 0 phs)
        (loadByte s'.mem (s'.proc p).pagetable) := by
  obtain ⟨r, s₁, l₁, A₁, ok, sz, s₂, h₁, hload, hend⟩ := exec_cases hm hlive helf hrun
  obtain ⟨-, hnone, -⟩ | ⟨rfl, s₃, l₃, A₃, hmem, h₃, -, hrun⟩ := hend
  · cases hnone
  have hu₁ : UserAll A₁ (npages 0) := fun v hv => absurd hv (Nat.not_lt_zero v)
  obtain ⟨phs, hk, hseg⟩ := loadPhdrs_loads f elf.phnum h₁.space hu₁ _ _ hload rfl
  obtain ⟨hnone, -⟩ | ⟨s₄, l₄, A₄, o, s₅, h₄, hkeep₄, -, -, hpush, hend⟩ := execStack_cases h₃ hrun
  · cases hnone
  obtain ⟨-, hnone⟩ | ⟨sp, rfl, -, hcommit⟩ := hend
  · cases hnone
  obtain ⟨hsp, hkeep₅⟩ := pushStack_keeps argv h₄.space _ _ hpush
  obtain ⟨heff, hspace₅⟩ := (pushStack_spec _ argv h₄.space).may _ _ hpush
  have h₅ := h₄.effect heff hspace₅
  rw [← npages_mul (npages sz + 2)] at h₅
  obtain ⟨hr, -, -, -, hepc, hkeep₆, -⟩ := commit_loads h₅ hlive (hsp sp rfl) (entry_lt helf) hcommit
  rw [npages_mul] at hkeep₆
  refine ⟨hepc, phs, hk, hseg.headers, hseg.within, rfl, fun x hx => ?_⟩
  have hz : sz = imageEnd 0 phs := hseg.size
  rw [← hz] at hx
  have hlow : npages sz * pgsize ≤ stackTop sz - pgsize := by
    rw [stackTop, Nat.succ_mul (npages sz + 1), Nat.add_sub_cancel]
    exact Nat.mul_le_mul_right _ (Nat.le_succ _)
  have hx₂ : x < (npages sz + 2) * pgsize := hx.trans_le (Nat.mul_le_mul_right _ (Nat.le_add_right _ 2))
  rw [hr, hkeep₆ x hx₂, hkeep₅ x hx₂ (hx.trans_le hlow), hkeep₄ x hx, hmem, hseg.bytes x hx]
  rfl

theorem loads_iff_narrow {ip : Ip} {elf : Elfhdr} {argc : ℕ} (hm : MemOk s l T P) (hlive : (s.proc p).state = .live)
    (helf : f.elfhdr = some elf) (hrun : exec p path (some (ip, f)) argv s = .ok (some argc, s')) :
    Loads f elf s'.mem (s'.proc p) ↔ Narrow f elf := by
  obtain ⟨hepc, phs, hk, hseg⟩ := exec_segments hm hlive helf hrun
  have hlt := f.length_lt
  constructor
  · rintro ⟨phs', hheads, hin, -, -⟩
    refine ⟨fun hpos => ?_, fun i hi ph hph hload hsize => ?_⟩
    · obtain ⟨ph, -, hph⟩ := Content.header_mem hheads hpos
      have hle := Content.header_le hph
      omega
    · obtain ⟨ph', hmem, hph'⟩ := Content.header_mem hheads hi
      cases hph.symm.trans hph'
      have hle := hin ph hmem hload hsize
      omega
  · rintro ⟨hphoff, hoff⟩
    have hheads : ∀ i ph, phs[i]? = some ph → f.header (elf.phoff + proghdrSize * i) = some ph := by
      intro i ph hi
      have hlen := (List.getElem?_eq_some_iff.1 hi).1
      rw [← Nat.mod_eq_of_lt (hphoff (by omega))]
      exact hseg.headers i ph hi
    have hoffs : ∀ ph ∈ phs, ph.type = elfProgLoad → 0 < ph.filesz → ph.off < 2 ^ 32 := by
      intro ph hmem
      obtain ⟨i, hi⟩ := List.getElem?_of_mem hmem
      have hlen := (List.getElem?_eq_some_iff.1 hi).1
      exact hoff i (by omega) ph (hheads i ph hi)
    have hin : ∀ ph ∈ phs, ph.Within f := by
      intro ph hmem hload hpos
      have hle := hseg.within ph hmem hload hpos
      have hmod : ph.narrow.off = ph.off := Nat.mod_eq_of_lt (hoffs ph hmem hload hpos)
      rwa [hmod] at hle
    refine ⟨phs, Content.headers_eq hk hheads, hin, fun va hva => ?_, hepc⟩
    have hpages : imageEnd 0 phs ≤ npages (imageEnd 0 phs) * pgsize := by
      simp only [npages, pgsize]
      omega
    rw [hseg.bytes va (hva.trans_le hpages), ite_self]
    exact foldl_segStep phs hoffs hin 0

/-- **`exec` loads what the file says** if and only if the offsets in its headers fit in 32 bits. -/
theorem exec_loads_iff (hm : MemOk s l T P) (hlive : (s.proc p).state = .live) (path : List UInt8)
    (found : Option (Ip × Content)) (argv : List Str) :
    May (exec p path found argv) s fun res s' => ∀ argc, res = some argc → ∃ ip f elf, found = some (ip, f) ∧
      f.elfhdr = some elf ∧ (Loads f elf s'.mem (s'.proc p) ↔ Narrow f elf) := by
  rintro _ s' hrun argc rfl
  rcases found with _ | ⟨ip, f⟩
  · cases hrun
  cases helf : f.elfhdr with
  | none =>
    rw [exec_noHeader helf] at hrun
    cases hrun
  | some elf => exact ⟨ip, f, elf, rfl, helf, loads_iff_narrow hm hlive helf hrun⟩

end

section

attribute [local instance] Image.least

/-- The small program. -/
theorem exec_loads_iff_small : ∃ l T, MemOk bootState l T 0 ∧ (bootState.proc initproc).state = .live ∧
    (∃ s', exec initproc [] (some (0, sampleFile 120)) [] bootState = .ok (some 0, s')) ∧
    May (exec initproc [] (some (0, sampleFile 120)) []) bootState fun res s' => ∀ argc, res = some argc →
      ∃ (ip : Ip) (f : Content) (elf : Elfhdr), some (0, sampleFile 120) = some (ip, f) ∧ f.elfhdr = some elf ∧
        (Loads f elf s'.mem (s'.proc initproc) ↔ Narrow f elf) := by
  obtain ⟨l, A, hm, hlive, htop, hl⟩ := bootState_ok
  refine ⟨l, _, hm, hlive, ?_, exec_loads_iff hm hlive [] (some (0, sampleFile 120)) []⟩
  exact sample_starts 120 [] hm hlive htop hl (by decide +kernel) (by decide +kernel) (by decide)
    (fun _ ha => absurd ha List.not_mem_nil) (by decide)

/-- **A segment at offset `2 ^ 32 + 120` of a file of 124 bytes**: `exec` loads the bytes at `120`, and succeeds. -/
theorem exec_loads_low_bits : ∃ l T elf s', MemOk bootState l T 0 ∧ (bootState.proc initproc).state = .live ∧
    (sampleFile (2 ^ 32 + 120)).elfhdr = some elf ∧
    exec initproc [] (some (0, sampleFile (2 ^ 32 + 120))) [] bootState = .ok (some 0, s') ∧
    ¬ Loads (sampleFile (2 ^ 32 + 120)) elf s'.mem (s'.proc initproc) := by
  obtain ⟨l, A, hm, hlive, htop, hl⟩ := bootState_ok
  have helf : (sampleFile (2 ^ 32 + 120)).elfhdr = some ⟨elfMagic, 0, elfhdrSize, 1⟩ := by decide +kernel
  obtain ⟨s', hrun⟩ := sample_starts (2 ^ 32 + 120) [] hm hlive htop hl helf (by decide +kernel)
    (by decide) (fun _ ha => absurd ha List.not_mem_nil) (by decide)
  refine ⟨l, _, _, s', hm, hlive, helf, hrun, fun hloads => ?_⟩
  have hnarrow := ((loads_iff_narrow hm hlive helf hrun).1 hloads).2 0 (by decide)
    ⟨elfProgLoad, 2 ^ 32 + 120, 0, 4, 8⟩ (by decide +kernel) rfl (by decide)
  exact absurd hnarrow (by decide)

end

end Xv6.Kernel

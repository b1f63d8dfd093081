import Xv6.User.Match
import Xv6.User.Memmove

/-!
# `grep`

The loop of `user/grep.c` over an input that `read` hands out in pieces, with the buffer in memory at `buf`.

* `lineLoop`, `grepLoop`, `grep`: the code. `sizes i + 1` is the most that read `i` returns, whatever was
  asked for, so that every choice of `sizes` is a way to cut up the input.
* `lines`: the newline-terminated lines of an input. `report`: those that match, as they are printed.
* `At`: a list of bytes in memory. `lineLoop_spec`: one buffer; **`grepLoop_eq`**: all of the input.
* **`grep_output_iff`**: `grep` prints what it should exactly if no line matches from the first line of
  1023 bytes on.
-/

namespace Xv6.User

open Function

def newline : UInt8 := 10

def bufSize : ℕ := 1024

/-! ## The code -/

/-- `strchr(s, c)`; no result if there is no NUL in the bytes looked at. -/
def strchr (m : Memory) (c : UInt8) : ℕ → ℕ → Option (Option ℕ)
  | 0, _ => none
  | fuel + 1, s => if m s = 0 then some none else if m s = c then some (some s) else strchr m c fuel (s + 1)

def cstr (m : Memory) : ℕ → ℕ → Option (List UInt8)
  | 0, _ => none
  | fuel + 1, s => if m s = 0 then some [] else (cstr m fuel (s + 1)).map (m s :: ·)

/-- The bytes that `write(1, p, n)` prints. -/
def bytesAt (m : Memory) (p n : ℕ) : List UInt8 := (List.range n).map fun i => m (p + i)

def store (m : Memory) (a : ℕ) (l : List UInt8) : Memory := fun x =>
  if a ≤ x ∧ x < a + l.length then l.getD (x - a) 0 else m x

/-- `while((q = strchr(p, '\n')) != 0) …`, with the output so far. -/
def lineLoop (re : List UInt8) : ℕ → Memory → ℕ → List UInt8 → Option (Memory × ℕ × List UInt8)
  | 0, _, _, _ => none
  | fuel + 1, m, p, out =>
    match strchr m newline bufSize p with
    | none => none
    | some none => some (m, p, out)
    | some (some q) =>
      let m := update m q 0
      match cstr m bufSize p with
      | none => none
      | some text =>
        if grepMatch re text then
          let m := update m q newline
          lineLoop re fuel m (q + 1) (out ++ bytesAt m p (q + 1 - p))
        else lineLoop re fuel m (q + 1) out

/-- `while((n = read(fd, buf+m, sizeof(buf)-m-1)) > 0) …`: the rest of the input, the number of reads so
far, and the `k` bytes kept in the buffer. -/
def grepLoop (re : List UInt8) (sizes : ℕ → ℕ) (buf : ℕ) :
    ℕ → ℕ → List UInt8 → Memory → ℕ → List UInt8 → Option (List UInt8)
  | 0, _, _, _, _, _ => none
  | fuel + 1, i, rest, m, k, out =>
    let chunk := rest.take (min (bufSize - k - 1) (sizes i + 1))
    if 0 < chunk.length then
      let k := k + chunk.length
      let m := update (store m (buf + (k - chunk.length)) chunk) (buf + k) 0
      match lineLoop re bufSize m buf out with
      | none => none
      | some (m, p, out) =>
        let r := if 0 < k then (memmove m buf p (.ofNat (k - (p - buf))), k - (p - buf)) else (m, k)
        grepLoop re sizes buf fuel (i + 1) (rest.drop chunk.length) r.1 r.2 out
    else some out

/-- `grep(pattern, fd)`: what it prints. Each read but the last takes a byte, which bounds the turns. -/
def grep (re : List UInt8) (sizes : ℕ → ℕ) (buf : ℕ) (m : Memory) (input : List UInt8) : Option (List UInt8) :=
  grepLoop re sizes buf (input.length + 1) 0 input m 0 []

/-! ## Lines -/

/-- **The newline-terminated lines of an input**, less their newlines. -/
def lines (input : List UInt8) : List (List UInt8) := (input.splitOn newline).dropLast

/-- **The lines that match**, with their newlines. -/
def report (re : List UInt8) (ls : List (List UInt8)) : List UInt8 :=
  (ls.filter (grepMatch re)).flatMap (· ++ [newline])

variable {re t a b rest : List UInt8} {m m' : Memory} {p q fuel : ℕ}

theorem beq_newline (h : newline ∉ a) : ∀ x ∈ a, (x == newline) = false := by
  intro x hx
  rw [beq_eq_false_iff_ne]
  rintro rfl
  exact h hx

theorem lines_eq_nil (h : newline ∉ a) : lines a = [] := by
  unfold lines List.splitOn
  rw [List.splitOnP_eq_singleton (beq_newline h)]
  rfl

theorem lines_append_cons (h : newline ∉ a) (b : List UInt8) : lines (a ++ newline :: b) = a :: lines b := by
  unfold lines List.splitOn
  rw [List.splitOnP_append_cons_of_forall_mem (beq_newline h) newline (beq_self_eq_true _),
    List.dropLast_cons_of_ne_nil (List.splitOnP_ne_nil _ _)]

theorem report_append (re : List UInt8) (ls ls' : List (List UInt8)) :
    report re (ls ++ ls') = report re ls ++ report re ls' := by
  unfold report
  rw [List.filter_append, List.flatMap_append]

theorem report_eq_nil {ls : List (List UInt8)} : report re ls = [] ↔ ∀ l ∈ ls, grepMatch re l = false := by
  unfold report
  simp

/-! ## Bytes in memory -/

def At (m : Memory) : ℕ → List UInt8 → Prop
  | _, [] => True
  | a, c :: l => m a = c ∧ At m (a + 1) l

theorem at_iff {l : List UInt8} {a : ℕ} : At m a l ↔ ∀ i < l.length, m (a + i) = l.getD i 0 := by
  induction l generalizing a with
  | nil => simp [At]
  | cons c l ih =>
    rw [At, ih]
    constructor
    · rintro ⟨hc, h⟩ i hi
      cases i with
      | zero => exact hc
      | succ i =>
        rw [← Nat.add_assoc, Nat.add_right_comm]
        exact h i (by simpa using hi)
    · intro h
      refine ⟨h 0 (by simp), fun i hi => ?_⟩
      rw [Nat.add_assoc, Nat.add_comm 1]
      exact h (i + 1) (by simpa using hi)

theorem at_append {l l' : List UInt8} {a : ℕ} : At m a (l ++ l') ↔ At m a l ∧ At m (a + l.length) l' := by
  induction l generalizing a with
  | nil => simp [At]
  | cons c l ih =>
    rw [List.cons_append, At, At, ih, List.length_cons, and_assoc, Nat.add_assoc, Nat.add_comm 1]

theorem At.congr {l : List UInt8} {a : ℕ} (h : At m a l) (hm : ∀ x, a ≤ x → x < a + l.length → m' x = m x) :
    At m' a l := by
  rw [at_iff] at h ⊢
  intro i hi
  rw [hm _ (by omega) (by omega), h i hi]

theorem At.bytes {l : List UInt8} {a : ℕ} (h : At m a l) : bytesAt m a l.length = l := by
  rw [at_iff] at h
  refine List.ext_getElem (by simp [bytesAt]) fun i _ hi => ?_
  simp only [bytesAt, List.getElem_map, List.getElem_range, h i hi, List.getD_eq_getElem _ _ hi]

theorem strchr_found {a : List UInt8} (h : At m p (a ++ [newline])) (h0 : (0 : UInt8) ∉ a) (hnl : newline ∉ a)
    (hf : a.length < fuel) : strchr m newline fuel p = some (some (p + a.length)) := by
  induction a generalizing p fuel with
  | nil =>
    obtain ⟨fuel, rfl⟩ : ∃ k, fuel = k + 1 := ⟨fuel - 1, by simp at hf; omega⟩
    rw [strchr, h.1, if_neg (by decide), if_pos rfl]
    rfl
  | cons c a ih =>
    obtain ⟨fuel, rfl⟩ : ∃ k, fuel = k + 1 := ⟨fuel - 1, by simp at hf; omega⟩
    rw [List.mem_cons, not_or] at h0 hnl
    rw [strchr, h.1, if_neg (Ne.symm h0.1), if_neg (Ne.symm hnl.1), ih h.2 h0.2 hnl.2 (by simpa using hf),
      List.length_cons, Nat.add_assoc, Nat.add_comm 1]

theorem strchr_none (h : At m p (t ++ [0])) (h0 : (0 : UInt8) ∉ t) (hnl : newline ∉ t)
    (hf : t.length < fuel) : strchr m newline fuel p = some none := by
  induction t generalizing p fuel with
  | nil =>
    obtain ⟨fuel, rfl⟩ : ∃ k, fuel = k + 1 := ⟨fuel - 1, by simp at hf; omega⟩
    rw [strchr, h.1, if_pos rfl]
  | cons c t ih =>
    obtain ⟨fuel, rfl⟩ : ∃ k, fuel = k + 1 := ⟨fuel - 1, by simp at hf; omega⟩
    rw [List.mem_cons, not_or] at h0 hnl
    rw [strchr, h.1, if_neg (Ne.symm h0.1), if_neg (Ne.symm hnl.1), ih h.2 h0.2 hnl.2 (by simpa using hf)]

theorem cstr_eq (h : At m p (t ++ [0])) (h0 : (0 : UInt8) ∉ t) (hf : t.length < fuel) :
    cstr m fuel p = some t := by
  induction t generalizing p fuel with
  | nil =>
    obtain ⟨fuel, rfl⟩ : ∃ k, fuel = k + 1 := ⟨fuel - 1, by simp at hf; omega⟩
    rw [cstr, h.1, if_pos rfl]
  | cons c t ih =>
    obtain ⟨fuel, rfl⟩ : ∃ k, fuel = k + 1 := ⟨fuel - 1, by simp at hf; omega⟩
    rw [List.mem_cons, not_or] at h0
    rw [cstr, h.1, if_neg (Ne.symm h0.1), ih h.2 h0.2 (by simpa using hf)]
    rfl

/-! ## One buffer -/

/-- **The loop over the lines of a buffer** that holds `t`: it leaves the last, unfinished line `b`. -/
theorem lineLoop_spec (re out : List UInt8) (h : At m p (t ++ [0])) (h0 : (0 : UInt8) ∉ t) (ht : t.length < bufSize)
    (hf : t.length < fuel) : ∃ m' ls a b, t = a ++ b ∧ newline ∉ b ∧ At m' (p + a.length) b ∧
      lineLoop re fuel m p out = some (m', p + a.length, out ++ report re ls) ∧
      (∀ l ∈ ls, l.length < t.length) ∧ ∀ rest, lines (t ++ rest) = ls ++ lines (b ++ rest) := by
  induction fuel generalizing m p t out with
  | zero => omega
  | succ fuel ih =>
    by_cases hnl : newline ∈ t
    · obtain ⟨a, b, rfl, ha⟩ := List.eq_append_cons_of_mem hnl
      have h0a : (0 : UInt8) ∉ a := fun hm => h0 (by simp [hm])
      have h0b : (0 : UInt8) ∉ b := fun hm => h0 (by simp [hm])
      simp only [List.length_append, List.length_cons] at ht hf
      rw [List.append_assoc, List.cons_append, List.append_cons, at_append, List.length_append,
        List.length_singleton] at h
      obtain ⟨hline, hrest⟩ := h
      have hq : strchr m newline bufSize p = _ := strchr_found hline h0a ha (by omega)
      -- the newline is overwritten by a NUL for the matcher, and put back to be printed
      have hcut : At (update m (p + a.length) 0) p (a ++ [0]) := by
        rw [at_append] at hline ⊢
        refine ⟨hline.1.congr fun x _ hx => update_of_ne (by omega) _ _, ?_, trivial⟩
        exact update_self ..
      have htext : cstr _ bufSize p = some a := cstr_eq hcut h0a (by omega)
      have hback : update (update m (p + a.length) 0) (p + a.length) newline = m := by
        rw [update_idem, ← (at_append.1 hline).2.1, update_eq_self]
      have hprint : bytesAt m p (p + a.length + 1 - p) = a ++ [newline] := by
        have hlen : p + a.length + 1 - p = (a ++ [newline]).length := by
          rw [List.length_append, List.length_singleton]
          omega
        rw [hlen, hline.bytes]
      have hrest' : At (update m (p + a.length) 0) (p + (a.length + 1)) (b ++ [0]) :=
        hrest.congr fun x hx _ => update_of_ne (by omega) _ _
      have hstep : ∀ m₁ out₁, At m₁ (p + a.length + 1) (b ++ [0]) → out₁ = out ++ report re [a] →
          lineLoop re (fuel + 1) m p out = lineLoop re fuel m₁ (p + a.length + 1) out₁ →
          ∃ m' ls a' b', a ++ newline :: b = a' ++ b' ∧ newline ∉ b' ∧ At m' (p + a'.length) b' ∧
            lineLoop re (fuel + 1) m p out = some (m', p + a'.length, out ++ report re ls) ∧
            (∀ l ∈ ls, l.length < (a ++ newline :: b).length) ∧
            ∀ rest, lines (a ++ newline :: b ++ rest) = ls ++ lines (b' ++ rest) := by
        intro m₁ out₁ hm₁ hout heq
        obtain ⟨m', ls, a', b', rfl, hb', hat, hrun, hlen, hlines⟩ := ih out₁ hm₁ h0b (by omega) (by omega)
        have hpos : p + (a ++ newline :: a').length = p + a.length + 1 + a'.length := by
          rw [List.length_append, List.length_cons]
          omega
        refine ⟨m', a :: ls, a ++ newline :: a', b', by simp, hb', hpos ▸ hat, ?_, ?_, fun rest => ?_⟩
        · rw [heq, hrun, hpos, hout, List.append_assoc, ← report_append]
          rfl
        · intro l hl
          rw [List.length_append, List.length_cons]
          rcases List.mem_cons.1 hl with rfl | hl
          · omega
          · have := hlen l hl
            omega
        · rw [List.append_assoc, List.cons_append, lines_append_cons ha, hlines]
          rfl
      by_cases hmatch : grepMatch re a = true
      · refine hstep m (out ++ (a ++ [newline])) hrest (by simp [report, hmatch]) ?_
        simp only [lineLoop, hq, htext, if_pos hmatch, hback, hprint]
      · refine hstep _ out hrest' (by simp [report, hmatch]) ?_
        simp only [lineLoop, hq, htext, if_neg hmatch]
    · refine ⟨m, [], [], t, rfl, hnl, (at_append.1 h).1, ?_, by simp, fun rest => rfl⟩
      simp only [lineLoop, strchr_none h h0 hnl ht]
      simp [report]

/-! ## All of the input -/

theorem at_store (m : Memory) (a : ℕ) (l : List UInt8) : At (store m a l) a l := by
  rw [at_iff]
  intro i hi
  rw [store, if_pos (by omega), Nat.add_sub_cancel_left]

theorem at_memmove {d s : ℕ} (h : At m s b) (hd : d + b.length ≤ 2 ^ 64) (hs : s + b.length ≤ 2 ^ 64)
    (hb : b.length < 2 ^ 31) : At (memmove m d s (.ofNat b.length)) d b := by
  rw [memmove_eq hd hs hb, at_iff]
  rw [at_iff] at h
  intro i hi
  rw [moved, if_pos (by omega), Nat.add_sub_cancel_left, h i hi]

def short (ls : List (List UInt8)) : List (List UInt8) := ls.takeWhile (·.length < bufSize - 1)

theorem short_of_full (hb : newline ∉ b) (hfull : b.length = bufSize - 1) : short (lines (b ++ rest)) = [] := by
  by_cases hnl : newline ∈ rest
  · obtain ⟨a, c, rfl, ha⟩ := List.eq_append_cons_of_mem hnl
    have hba : newline ∉ b ++ a := by simp [hb, ha]
    rw [← List.append_assoc, lines_append_cons hba, short, List.takeWhile_cons_of_neg]
    simp [hfull]
  · rw [lines_eq_nil (by simp [hb, hnl])]
    rfl

/-- **The loop over the input**, with the beginning `b` of a line in the buffer. -/
theorem grepLoop_eq (re : List UInt8) (sizes : ℕ → ℕ) {buf : ℕ} (i : ℕ) (out : List UInt8) (hbuf : buf + bufSize ≤ 2 ^ 64)
    (hat : At m buf b) (hb : newline ∉ b) (h0 : (0 : UInt8) ∉ b ++ rest) (hlen : b.length < bufSize)
    (hf : rest.length < fuel) :
    grepLoop re sizes buf fuel i rest m b.length out =
      some (out ++ report re (short (lines (b ++ rest)))) := by
  induction fuel generalizing i rest m b out with
  | zero => omega
  | succ fuel ih =>
    set chunk := rest.take (min (bufSize - b.length - 1) (sizes i + 1)) with hchunk
    have hsplit : rest = chunk ++ rest.drop chunk.length := by
      rw [hchunk, List.length_take, ← List.drop_eq_drop_min, List.take_append_drop]
    have hle : chunk.length ≤ bufSize - b.length - 1 ∧ chunk.length ≤ rest.length := by
      rw [hchunk, List.length_take]
      omega
    by_cases hpos : 0 < chunk.length
    · have h0t : (0 : UInt8) ∉ b ++ chunk := by
        intro hm
        rw [hsplit] at h0
        simp only [List.mem_append, not_or] at h0 hm
        tauto
      have htext : At (update (store m (buf + b.length) chunk) (buf + (b.length + chunk.length)) 0) buf
          ((b ++ chunk) ++ [0]) := by
        rw [at_append, at_append, List.length_append]
        refine ⟨⟨?_, ?_⟩, update_self .., trivial⟩
        · refine hat.congr fun x _ hx => ?_
          rw [update_of_ne (by omega), store, if_neg (by omega)]
        · exact (at_store ..).congr fun x _ hx => update_of_ne (by omega) _ _
      have hlt : (b ++ chunk).length < bufSize := by
        rw [List.length_append]
        omega
      obtain ⟨m', ls, a, b', hab, hb', hat', hrun, hls, hlines⟩ :=
        lineLoop_spec re out htext h0t hlt hlt
      have hlen' : a.length + b'.length = b.length + chunk.length := by
        rw [← List.length_append, ← hab, List.length_append]
      have hk : b.length + chunk.length - (buf + a.length - buf) = b'.length := by omega
      have hmove := at_memmove (d := buf) hat' (by omega) (by omega) (by unfold bufSize at hlen hle; omega)
      have h0' : (0 : UInt8) ∉ b' ++ rest.drop chunk.length := by
        intro hm
        rcases List.mem_append.1 hm with hm | hm
        · exact h0t (hab ▸ List.mem_append_right _ hm)
        · exact h0 (List.mem_append_right _ (List.mem_of_mem_drop hm))
      have hless : (rest.drop chunk.length).length < fuel := by
        rw [List.length_drop]
        omega
      have hnext := ih (i + 1) (out ++ report re ls) hmove hb' h0' (by omega) hless
      have hshort : short (lines (b ++ rest)) = ls ++ short (lines (b' ++ rest.drop chunk.length)) := by
        have := hlines (rest.drop chunk.length)
        rw [List.append_assoc, ← hsplit] at this
        rw [this, short, List.takeWhile_append_of_pos, short]
        intro l hl
        have := hls l hl
        simp only [decide_eq_true_eq]
        omega
      have hstep : grepLoop re sizes buf (fuel + 1) i rest m b.length out = grepLoop re sizes buf fuel (i + 1)
          (rest.drop chunk.length) (memmove m' buf (buf + a.length) (.ofNat b'.length)) b'.length
          (out ++ report re ls) := by
        simp only [grepLoop, ← hchunk, if_pos hpos, Nat.add_sub_cancel, hrun, hk,
          if_pos (show 0 < b.length + chunk.length by omega)]
      rw [hstep, hnext, hshort, report_append, List.append_assoc]
    · have hstop : short (lines (b ++ rest)) = [] := by
        have h := Nat.eq_zero_of_not_pos hpos
        rw [hchunk, List.length_take] at h
        rcases Nat.eq_zero_or_pos rest.length with hrest | hrest
        · rw [List.length_eq_zero_iff.1 hrest, List.append_nil, lines_eq_nil hb]
          rfl
        · exact short_of_full hb (by omega)
      rw [hstop]
      simp only [grepLoop, ← hchunk, if_neg hpos]
      simp [report]

theorem grep_eq (re : List UInt8) (sizes : ℕ → ℕ) {buf : ℕ} (m : Memory) {input : List UInt8}
    (hbuf : buf + bufSize ≤ 2 ^ 64) (h0 : (0 : UInt8) ∉ input) :
    grep re sizes buf m input = some (report re (short (lines input))) :=
  grepLoop_eq (b := []) re sizes 0 [] hbuf trivial (by simp) h0 (by decide) (Nat.lt_succ_self _)

/-- **What `grep` prints**, however the input is read: for an input without NULs it stops, and it has
printed the matching lines, unless a line matches that is as long as the buffer or comes after one that
is. -/
theorem grep_output_iff (re : List UInt8) (sizes : ℕ → ℕ) {buf : ℕ} (m : Memory) {input : List UInt8}
    (hbuf : buf + bufSize ≤ 2 ^ 64) (h0 : (0 : UInt8) ∉ input) :
    ∃ out, grep re sizes buf m input = some out ∧ (out = report re (lines input) ↔
      ∀ line ∈ (lines input).dropWhile (·.length < 1023), grepMatch re line = false) := by
  refine ⟨_, grep_eq re sizes m hbuf h0, ?_⟩
  have hall : lines input = short (lines input) ++ (lines input).dropWhile (·.length < 1023) :=
    List.takeWhile_append_dropWhile.symm
  rw [← report_eq_nil]
  nth_rewrite 2 [hall]
  rw [report_append]
  exact List.self_eq_append_right

/-- The lines `ab` and `c`, read byte by byte: `grep a` prints the first. -/
theorem grep_output_iff_bytewise :
    ∃ out, grep [97] (fun _ => 0) 0 (fun _ => 0) [97, 98, newline, 99, newline] = some out ∧
      out = report [97] (lines [97, 98, newline, 99, newline]) := by
  obtain ⟨out, hrun, hiff⟩ := @grep_output_iff [97] (fun _ => 0) 0 (fun _ => 0) [97, 98, newline, 99, newline]
    (by decide) (by decide)
  exact ⟨out, hrun, hiff.2 (by decide)⟩

def longLine : List UInt8 := List.replicate 1023 97

/-- **A long line is lost**: the empty pattern matches it, but `grep` prints nothing. -/
theorem grep_drops_long_line :
    grep [] (fun _ => 1022) 0 (fun _ => 0) (longLine ++ [newline]) = some [] ∧
      report [] (lines (longLine ++ [newline])) = longLine ++ [newline] := by
  have hnl : newline ∉ longLine := fun h => absurd (List.eq_of_mem_replicate h) (by decide)
  have h0 : (0 : UInt8) ∉ longLine := fun h => absurd (List.eq_of_mem_replicate h) (by decide)
  have hmatch : grepMatch [] longLine = true := rfl
  constructor
  · rw [grep_eq [] _ _ (by decide) (by simp [h0, newline]), short_of_full hnl List.length_replicate]
    rfl
  · rw [lines_append_cons hnl, lines_eq_nil List.not_mem_nil]
    simp [report, hmatch]

end Xv6.User

import Xv6.Sh.Grammar

/-!
# The lexer finds the tokens

* `toksAt line s`: the tokens from position `s` on.
* `drop_advance`: a loop over characters, in terms of the rest of the line.
* **`gettoken_cons`**, `gettoken_nil`, **`peek_spec`**: what `gettoken` and `peek` do to the tokens that are left.
* `IsWord`, `isWord_of_mem`: the words among the tokens are made of word characters, and end before another one.
-/

namespace Xv6.Sh

variable {line : List UInt8} {p : UInt8 → Bool} {s : ℕ}

/-! ## Characters -/

theorem charAt_eq (line : List UInt8) (s : ℕ) : charAt line s = (line.drop s).headD 0 := by
  rw [charAt, List.getD_eq_getElem?_getD, List.headD_eq_head?_getD, List.head?_drop]

theorem charAt_of_drop {c : UInt8} {cs : List UInt8} (h : line.drop s = c :: cs) : charAt line s = c := by
  rw [charAt_eq, h]
  rfl

theorem drop_succ_of_drop {c : UInt8} {cs : List UInt8} (h : line.drop s = c :: cs) : line.drop (s + 1) = cs := by
  rw [← List.drop_drop, h]
  rfl

theorem lt_length_of_drop {c : UInt8} {cs : List UInt8} (h : line.drop s = c :: cs) : s < line.length := by
  by_contra hle
  rw [List.drop_eq_nil_of_le (Nat.not_lt.1 hle)] at h
  cases h

theorem length_sub_of_drop {c : UInt8} {cs : List UInt8} (h : line.drop s = c :: cs) :
    line.length - s = cs.length + 1 := by
  rw [← List.length_drop, h, List.length_cons]

theorem advance_eq (p : UInt8 → Bool) (line : List UInt8) (s : ℕ) :
    advance p line s = s + ((line.drop s).takeWhile p).length := by
  unfold advance
  induction hcs : line.drop s generalizing s with
  | nil =>
    rw [List.drop_eq_nil_iff] at hcs
    rw [Nat.sub_eq_zero_of_le hcs]
    rfl
  | cons c cs ih =>
    have hnext := drop_succ_of_drop hcs
    rw [length_sub_of_drop hcs, advanceBy, charAt_of_drop hcs, List.takeWhile_cons]
    split_ifs with hc
    · have hlen : cs.length = line.length - (s + 1) := by rw [← hnext, List.length_drop]
      rw [hlen, ih (s + 1) hnext, List.length_cons]
      omega
    · rfl

theorem drop_takeWhile (p : UInt8 → Bool) (cs : List UInt8) : cs.drop (cs.takeWhile p).length = cs.dropWhile p := by
  induction cs with
  | nil => rfl
  | cons c cs ih =>
    by_cases hc : p c
    · rw [List.takeWhile_cons_of_pos hc, List.dropWhile_cons_of_pos hc, List.length_cons, List.drop_succ_cons, ih]
    · rw [List.takeWhile_cons_of_neg hc, List.dropWhile_cons_of_neg hc]
      rfl

theorem drop_advance (p : UInt8 → Bool) (line : List UInt8) (s : ℕ) :
    line.drop (advance p line s) = (line.drop s).dropWhile p := by
  rw [advance_eq, ← List.drop_drop, drop_takeWhile]

theorem le_advance : s ≤ advance p line s := by
  rw [advance_eq]
  omega

theorem advance_le (h : s ≤ line.length) : advance p line s ≤ line.length := by
  rw [advance_eq]
  have := (List.takeWhile_sublist (l := line.drop s) p).length_le
  rw [List.length_drop] at this
  omega

/-! ## Tokens -/

def toksAt (line : List UInt8) (s : ℕ) : List Tok := lexAt s (line.drop s)

theorem toksAt_zero : toksAt line 0 = tokens line := rfl

theorem lexAt_blank (i : ℕ) (cs : List UInt8) :
    lexAt (i + (cs.takeWhile isBlank).length) (cs.dropWhile isBlank) = lexAt i cs := by
  induction cs generalizing i with
  | nil => rfl
  | cons c cs ih =>
    by_cases hc : isBlank c
    · rw [List.takeWhile_cons_of_pos hc, List.dropWhile_cons_of_pos hc, List.length_cons, lexAt, if_pos hc, ← ih]
      congr 1
      omega
    · rw [List.takeWhile_cons_of_neg hc, List.dropWhile_cons_of_neg hc]
      rfl

theorem toksAt_skip (line : List UInt8) (s : ℕ) : toksAt line (advance isBlank line s) = toksAt line s := by
  unfold toksAt
  rw [drop_advance, advance_eq, lexAt_blank]

theorem not_blank_of_skip {c : UInt8} {cs : List UInt8} (h : line.drop (advance isBlank line s) = c :: cs) :
    isBlank c = false := by
  rw [drop_advance] at h
  have hne : (line.drop s).dropWhile isBlank ≠ [] := by
    rw [h]
    exact List.cons_ne_nil _ _
  have hhead := List.head_dropWhile_not isBlank hne
  simpa only [h, List.head_cons, Bool.not_eq_true] using hhead

def Tok.ret : Tok → UInt8
  | bar => '|'.toUInt8
  | lparen => '('.toUInt8
  | rparen => ')'.toUInt8
  | semi => ';'.toUInt8
  | amp => '&'.toUInt8
  | lt => '<'.toUInt8
  | gt => '>'.toUInt8
  | append => '+'.toUInt8
  | word _ => 'a'.toUInt8

def Tok.first : Tok → UInt8
  | append => '>'.toUInt8
  | t => t.ret

def Tok.Covers (sp : Span) : Tok → Prop
  | word w => w = sp
  | _ => True

theorem symbolTok_eq_some {c : UInt8} {t : Tok} (h : symbolTok c = some t) :
    t.ret = c ∧ t.first = c ∧ (∀ w, t ≠ .word w) ∧ c ≠ 0 ∧
      (c = '|'.toUInt8 ∨ c = '('.toUInt8 ∨ c = ')'.toUInt8 ∨ c = ';'.toUInt8 ∨ c = '&'.toUInt8 ∨ c = '<'.toUInt8) := by
  unfold symbolTok at h
  split_ifs at h with h₁ h₂ h₃ h₄ h₅ h₆ <;> cases h <;> subst c <;>
    exact ⟨rfl, rfl, nofun, by decide, by decide⟩

theorem symbolTok_eq_none {c : UInt8} (h : symbolTok c = none) :
    ¬ (c = '|'.toUInt8 ∨ c = '('.toUInt8 ∨ c = ')'.toUInt8 ∨ c = ';'.toUInt8 ∨ c = '&'.toUInt8 ∨ c = '<'.toUInt8) := by
  unfold symbolTok at h
  split_ifs at h with h₁ h₂ h₃ h₄ h₅ h₆
  simp only [h₁, h₂, h₃, h₄, h₅, h₆, or_self, not_false_eq_true]

theorem isWordChar_of {c : UInt8} (hb : isBlank c = false) (hs : symbolTok c = none) (hgt : c ≠ '>'.toUInt8) :
    isWordChar c = true := by
  have hnone := symbolTok_eq_none hs
  rw [isWordChar, hb]
  simp only [not_or] at hnone
  simp [symbols, hnone, hgt]

theorem tokenAt_le (h : s ≤ line.length) : (tokenAt line s).2 ≤ line.length := by
  have hlt : ∀ {s}, charAt line s ≠ 0 → s < line.length := by
    intro s hc
    by_contra hle
    rw [charAt_eq, List.drop_eq_nil_of_le (Nat.not_lt.1 hle)] at hc
    exact hc rfl
  unfold tokenAt
  dsimp only
  split_ifs with h₀ h₁ h₂ h₃
  · exact h
  · exact hlt h₀
  · refine hlt ?_
    rw [h₃]
    decide
  · exact hlt h₀
  · exact advance_le h

theorem gettoken_le (h : s ≤ line.length) : (gettoken line s).s ≤ line.length :=
  advance_le (tokenAt_le (advance_le h))

theorem peek_le (toks : List UInt8) (h : s ≤ line.length) : (peek line s toks).2 ≤ line.length := advance_le h

theorem mem_of_drop {c : UInt8} {cs : List UInt8} (h : line.drop s = c :: cs) : c ∈ line :=
  List.mem_of_mem_drop (h ▸ List.mem_cons_self)

theorem tokenAt_spec (hz : 0 ∉ line) {c : UInt8} {cs : List UInt8} (h : line.drop s = c :: cs)
    (hb : isBlank c = false) :
    ∃ t ts, toksAt line s = t :: ts ∧ (tokenAt line s).1 = t.ret ∧ t.Covers ⟨s, (tokenAt line s).2⟩ ∧
      toksAt line (tokenAt line s).2 = ts ∧ (symbols.contains c → t.first = c) ∧
      (symbols.contains c = false → ∃ w, t = .word w) := by
  have hc0 : c ≠ 0 := by
    rintro rfl
    exact hz (mem_of_drop h)
  have hnext := drop_succ_of_drop h
  unfold tokenAt toksAt
  simp only [charAt_of_drop h, if_neg hc0, h]
  rw [lexAt, if_neg (by simp [hb])]
  by_cases hgt : c = '>'.toUInt8
  · have hno : ¬ (c = '|'.toUInt8 ∨ c = '('.toUInt8 ∨ c = ')'.toUInt8 ∨ c = ';'.toUInt8 ∨ c = '&'.toUInt8 ∨
        c = '<'.toUInt8) := by
      rw [hgt]
      decide
    have hsym : symbols.contains c = true := by
      rw [hgt]
      decide
    have hhead : charAt line (s + 1) = '>'.toUInt8 ↔ cs.head? = some '>'.toUInt8 := by
      rw [charAt_eq, hnext, List.headD_eq_head?_getD]
      cases cs with
      | nil => decide
      | cons d cs => simp
    rw [if_pos hgt, if_neg hno, if_pos hgt]
    by_cases hd : cs.head? = some '>'.toUInt8
    · rw [if_pos hd, if_pos (hhead.2 hd)]
      refine ⟨.append, _, rfl, rfl, trivial, ?_, fun _ => hgt.symm, fun hf => ?_⟩
      · rw [show s + 2 = s + 1 + 1 from rfl, ← List.drop_drop, hnext, List.drop_one]
      · rw [hsym] at hf
        cases hf
    · rw [if_neg hd, if_neg (fun he => hd (hhead.1 he))]
      refine ⟨.gt, _, rfl, hgt, trivial, by rw [hnext], fun _ => hgt.symm, fun hf => ?_⟩
      rw [hsym] at hf
      cases hf
  · rw [if_neg hgt]
    cases hs : symbolTok c with
    | some t =>
      obtain ⟨hret, hfirst, hword, -, hcase⟩ := symbolTok_eq_some hs
      rw [if_pos hcase]
      have hsym : symbols.contains c = true := by
        rcases hcase with rfl | rfl | rfl | rfl | rfl | rfl <;> decide
      refine ⟨t, _, rfl, hret.symm, ?_, by rw [hnext], fun _ => hfirst, fun hf => ?_⟩
      · cases t with
        | word w => exact absurd rfl (hword w)
        | _ => trivial
      · rw [hsym] at hf
        cases hf
    | none =>
      have hwc := isWordChar_of hb hs hgt
      have hadv : advance isWordChar line s = s + 1 + (cs.takeWhile isWordChar).length := by
        rw [advance_eq, h, List.takeWhile_cons_of_pos hwc, List.length_cons]
        omega
      rw [if_neg (symbolTok_eq_none hs), if_neg hgt]
      refine ⟨_, _, rfl, rfl, ?_, ?_, fun hf => ?_, fun _ => ⟨_, rfl⟩⟩
      · rw [hadv]
        rfl
      · rw [drop_advance, h, List.dropWhile_cons_of_pos hwc, hadv]
      · rw [isWordChar, hf] at hwc
        simp at hwc

theorem ret_ne_zero (t : Tok) : t.ret ≠ 0 := by
  cases t with
  | word w => exact (by decide : 'a'.toUInt8 ≠ 0)
  | _ => decide

theorem gettoken_spec (hz : 0 ∉ line) (s : ℕ) :
    (toksAt line s = [] ∧ (gettoken line s).ret = 0 ∧ toksAt line (gettoken line s).s = []) ∨
    ∃ t ts, toksAt line s = t :: ts ∧ (gettoken line s).ret = t.ret ∧ t.Covers (gettoken line s).word ∧
      toksAt line (gettoken line s).s = ts := by
  rw [← toksAt_skip line s]
  simp only [gettoken, toksAt_skip line (tokenAt line _).2]
  cases hcs : line.drop (advance isBlank line s) with
  | nil =>
    have hc : charAt line (advance isBlank line s) = 0 := by rw [charAt_eq, hcs]; rfl
    have htok : tokenAt line (advance isBlank line s) = (0, advance isBlank line s) := by
      simp only [tokenAt, hc, if_true]
    left
    rw [htok]
    have hnil : toksAt line (advance isBlank line s) = [] := by rw [toksAt, hcs, lexAt]
    exact ⟨hnil, rfl, hnil⟩
  | cons c cs =>
    right
    obtain ⟨t, ts, h₁, h₂, h₃, h₄, -⟩ := tokenAt_spec hz hcs (not_blank_of_skip hcs)
    exact ⟨t, ts, h₁, h₂, h₃, h₄⟩

theorem gettoken_cons (hz : 0 ∉ line) {t : Tok} {ts : List Tok} (h : toksAt line s = t :: ts) :
    (gettoken line s).ret = t.ret ∧ t.Covers (gettoken line s).word ∧ toksAt line (gettoken line s).s = ts := by
  rcases gettoken_spec hz s with ⟨hnil, -⟩ | ⟨t', ts', h', hrest⟩
  · rw [hnil] at h
    cases h
  · rw [h'] at h
    cases h
    exact hrest

theorem gettoken_nil (hz : 0 ∉ line) (h : toksAt line s = []) :
    (gettoken line s).ret = 0 ∧ toksAt line (gettoken line s).s = [] := by
  rcases gettoken_spec hz s with ⟨-, hrest⟩ | ⟨t', ts', h', -⟩
  · exact hrest
  · rw [h'] at h
    cases h

@[simp] theorem toksAt_peek (toks : List UInt8) : toksAt line (peek line s toks).2 = toksAt line s :=
  toksAt_skip line s

theorem peek_spec (hz : 0 ∉ line) (s : ℕ) {toks : List UInt8} (htoks : ∀ c ∈ toks, symbols.contains c = true) :
    (peek line s toks).1 = (match toksAt line s with
      | [] => false
      | t :: _ => toks.contains t.first) := by
  rw [← toksAt_skip line s]
  simp only [peek]
  cases hcs : line.drop (advance isBlank line s) with
  | nil =>
    have hc : charAt line (advance isBlank line s) = 0 := by rw [charAt_eq, hcs]; rfl
    rw [toksAt, hcs, lexAt, hc]
    rfl
  | cons c cs =>
    obtain ⟨t, ts, h₁, -, -, -, hsym, hword⟩ := tokenAt_spec hz hcs (not_blank_of_skip hcs)
    have hc0 : c ≠ 0 := by
      rintro rfl
      exact hz (mem_of_drop hcs)
    simp only [h₁, charAt_of_drop hcs, ne_eq, hc0, not_false_eq_true, decide_true, Bool.true_and]
    cases hc : symbols.contains c with
    | true => rw [hsym hc]
    | false =>
      obtain ⟨w, rfl⟩ := hword hc
      have hno : ∀ d, symbols.contains d = false → toks.contains d = false := by
        intro d hd
        by_contra hcon
        rw [Bool.not_eq_false, List.contains_iff_mem] at hcon
        rw [htoks d hcon] at hd
        cases hd
      rw [hno c hc, hno (Tok.word w).first (by decide : symbols.contains 'a'.toUInt8 = false)]

theorem skip_eq_length (hz : 0 ∉ line) (h : s ≤ line.length) :
    advance isBlank line s = line.length ↔ toksAt line s = [] := by
  rw [← toksAt_skip line s]
  have hle : advance isBlank line s ≤ line.length := advance_le h
  cases hcs : line.drop (advance isBlank line s) with
  | nil =>
    rw [toksAt, hcs, lexAt]
    rw [List.drop_eq_nil_iff] at hcs
    exact iff_of_true (Nat.le_antisymm hle hcs) rfl
  | cons c cs =>
    obtain ⟨t, ts, h₁, -⟩ := tokenAt_spec hz hcs (not_blank_of_skip hcs)
    have hlt := lt_length_of_drop hcs
    rw [h₁]
    exact iff_of_false (by omega) (List.cons_ne_nil _ _)

/-! ## Words -/

theorem takeWhile_all (cs : List UInt8) {j : ℕ} (hj : j < (cs.takeWhile p).length) : p (cs.getD j 0) = true := by
  induction cs generalizing j with
  | nil => cases hj
  | cons c cs ih =>
    by_cases hc : p c
    · rw [List.takeWhile_cons_of_pos hc, List.length_cons] at hj
      cases j with
      | zero => exact hc
      | succ j => exact ih (Nat.lt_of_succ_lt_succ hj)
    · rw [List.takeWhile_cons_of_neg hc] at hj
      cases hj

theorem advance_all {i : ℕ} (hs : s ≤ i) (hi : i < advance p line s) : p (charAt line i) = true := by
  rw [advance_eq] at hi
  have h := takeWhile_all (line.drop s) (by omega : i - s < ((line.drop s).takeWhile p).length)
  rw [List.getD_eq_getElem?_getD, List.getElem?_drop, Nat.add_sub_cancel' hs] at h
  rwa [charAt, List.getD_eq_getElem?_getD]

theorem advance_stop (h : advance p line s < line.length) : p (charAt line (advance p line s)) = false := by
  have hdrop := drop_advance p line s
  have hne : (line.drop s).dropWhile p ≠ [] := by
    rw [← hdrop, ne_eq, List.drop_eq_nil_iff]
    omega
  have hhead := List.head_dropWhile_not p hne
  rw [charAt_eq, hdrop, List.headD_eq_head?_getD, List.head?_eq_some_head hne]
  simpa using hhead

/-- **A word of the line**: word characters, up to one that is none. -/
structure IsWord (line : List UInt8) (w : Span) : Prop where
  lt : w.q < w.eq
  le : w.eq ≤ line.length
  chars : ∀ i, w.q ≤ i → i < w.eq → isWordChar (charAt line i) = true
  ends : w.eq < line.length → isWordChar (charAt line w.eq) = false

theorem tokenAt_word {c : UInt8} {cs : List UInt8} (h : line.drop s = c :: cs) (hc0 : c ≠ 0)
    (hb : isBlank c = false) (hsym : symbols.contains c = false) :
    (tokenAt line s).2 = advance isWordChar line s ∧ s < advance isWordChar line s := by
  have hwc : isWordChar c = true := by
    rw [isWordChar, hb, hsym]
    rfl
  have hno : ∀ d, symbols.contains d = true → c ≠ d := by
    rintro d hd rfl
    rw [hsym] at hd
    cases hd
  constructor
  · unfold tokenAt
    simp only [charAt_of_drop h, if_neg hc0]
    rw [if_neg, if_neg (hno _ (by decide))]
    rintro (he | he | he | he | he | he) <;> exact hno _ (by decide) he
  · rw [advance_eq, h, List.takeWhile_cons_of_pos hwc, List.length_cons]
    omega

theorem lt_tokenAt {c : UInt8} {cs : List UInt8} (h : line.drop s = c :: cs) (hc0 : c ≠ 0) (hb : isBlank c = false) :
    s < (tokenAt line s).2 := by
  cases hsym : symbols.contains c with
  | false =>
    obtain ⟨heq, hlt⟩ := tokenAt_word h hc0 hb hsym
    rw [heq]
    exact hlt
  | true =>
    unfold tokenAt
    simp only [charAt_of_drop h, if_neg hc0]
    split_ifs with h₁ h₂ h₃
    · exact Nat.lt_succ_self s
    · exact Nat.lt_add_of_pos_right (by decide)
    · exact Nat.lt_succ_self s
    · simp only [not_or] at h₁
      simp [symbols, h₁, h₂] at hsym

/-- **The words among the tokens are words of the line.** -/
theorem isWord_of_mem (hz : 0 ∉ line) {w : Span} (hs : s ≤ line.length) (hw : .word w ∈ toksAt line s) :
    IsWord line w := by
  induction hn : line.length - s using Nat.strongRecOn generalizing s with
  | ind n ih =>
    have hskip : advance isBlank line s ≤ line.length := advance_le hs
    have hle : s ≤ advance isBlank line s := le_advance
    rw [← toksAt_skip line s] at hw
    cases hcs : line.drop (advance isBlank line s) with
    | nil =>
      rw [toksAt, hcs, lexAt] at hw
      cases hw
    | cons c cs =>
      have hb := not_blank_of_skip hcs
      have hlt := lt_length_of_drop hcs
      have hc0 : c ≠ 0 := by
        rintro rfl
        exact hz (mem_of_drop hcs)
      obtain ⟨t, ts, h₁, -, hcov, h₄, hsym, hword⟩ := tokenAt_spec hz hcs hb
      have hend := tokenAt_le hskip
      have hmore := lt_tokenAt hcs hc0 hb
      rw [h₁, List.mem_cons] at hw
      rcases hw with rfl | hw
      · have hns : symbols.contains c = false := by
          cases hc : symbols.contains c with
          | false => rfl
          | true =>
            have hfirst : 'a'.toUInt8 = c := hsym hc
            rw [← hfirst] at hc
            exact absurd hc (by decide)
        obtain ⟨heq, -⟩ := tokenAt_word hcs hc0 hb hns
        have hw : w = ⟨advance isBlank line s, advance isWordChar line (advance isBlank line s)⟩ := by
          rw [← heq]
          exact hcov
        subst hw
        rw [heq] at hmore hend
        exact ⟨hmore, hend, fun i => advance_all, advance_stop⟩
      · rw [← h₄] at hw
        exact ih _ (by omega) hend hw rfl

end Xv6.Sh

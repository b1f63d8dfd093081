import Xv6.Sh.Parser

/-!
# Command lines

* `Cmd.words`: the strings of a tree. `Derives.word_mem`: they are words among the tokens.
* `nulterminate_eq`: what `nulterminate` writes. `ReadsAs`, `readsAs_of_isWord`: words end with a NUL afterwards, and
  are not written to.
* **`parsecmd_grammar`**: `parsecmd` accepts the language of the grammar and returns its tree, with strings that read
  as the words of the line.
-/

namespace Xv6.Sh

open Function

variable {line : List UInt8}

/-! ## The strings of a tree -/

def Cmd.words : Cmd → List Span
  | exec argv => argv
  | redir cmd file _ _ => cmd.words ++ [file]
  | pipe left right => left.words ++ right.words
  | list left right => left.words ++ right.words
  | back cmd => cmd.words

theorem words_wrap (c : Cmd) (rs : List Redir) : (wrap c rs).words = c.words ++ rs.map Redir.file := by
  induction rs generalizing c with
  | nil => simp [wrap]
  | cons r rs ih =>
    change (wrap (.redir c r.file r.mode r.fd) rs).words = _
    rw [ih, Cmd.words, List.append_assoc]
    rfl

theorem words_backs (c : Cmd) (n : ℕ) : (backs c n).words = c.words := by
  induction n generalizing c with
  | zero => rfl
  | succ n ih => rw [backs, ih, Cmd.words]

theorem Redirects.file_eq {t : Tok} {w : Span} {r : Redir} (h : Redirects t w r) : r.file = w := by
  cases h <;> rfl

theorem Redirs.word_mem {ts : List Tok} {rs : List Redir} (h : Redirs ts rs) {w : Span}
    (hw : w ∈ rs.map Redir.file) : .word w ∈ ts := by
  induction h with
  | nil => cases hw
  | cons hr _ ih =>
    rw [List.map_cons, List.mem_cons, hr.file_eq] at hw
    rcases hw with rfl | hw
    · simp
    · simp [ih hw]

theorem Items.word_mem {ts : List Tok} {ws : List Span} {rs : List Redir} (h : Items ts ws rs) {w : Span}
    (hw : w ∈ ws ++ rs.map Redir.file) : .word w ∈ ts := by
  induction h with
  | nil => cases hw
  | redir hr _ ih =>
    rw [List.map_cons, hr.file_eq] at hw
    simp only [List.mem_append, List.mem_cons] at hw ih ⊢
    rcases hw with hw | rfl | hw
    · exact .inr (.inr (ih (.inl hw)))
    · exact .inr (.inl rfl)
    · exact .inr (.inr (ih (.inr hw)))
  | word _ ih =>
    rw [List.cons_append, List.mem_cons] at hw
    rcases hw with rfl | hw
    · simp
    · simp [ih hw]

/-- **The strings of a tree are words of the tokens it is derived from.** -/
theorem Derives.word_mem {nt : NonTerminal} {ts : List Tok} {c : Cmd} (h : Derives nt ts c) {w : Span}
    (hw : w ∈ c.words) : .word w ∈ ts := by
  induction h with
  | line n _ ih =>
    rw [words_backs] at hw
    exact List.mem_append_left _ (ih hw)
  | list n _ _ ih ih' =>
    rw [Cmd.words, words_backs, List.mem_append] at hw
    rcases hw with hw | hw
    · exact List.mem_append_left _ (ih hw)
    · exact List.mem_append_right _ (List.mem_append_right _ (List.mem_cons_of_mem _ (ih' hw)))
  | one _ ih => exact ih hw
  | pipe _ _ ih ih' =>
    rw [Cmd.words, List.mem_append] at hw
    rcases hw with hw | hw
    · exact List.mem_append_left _ (ih hw)
    · exact List.mem_append_right _ (List.mem_cons_of_mem _ (ih' hw))
  | block _ hredirs ih =>
    rw [words_wrap, List.mem_append] at hw
    refine List.mem_cons_of_mem _ ?_
    rcases hw with hw | hw
    · exact List.mem_append_left _ (ih hw)
    · exact List.mem_append_right _ (List.mem_cons_of_mem _ (hredirs.word_mem hw))
  | simple hitems _ =>
    rw [words_wrap] at hw
    exact hitems.word_mem hw

/-! ## The end of the strings -/

theorem foldl_update (ws : List Span) (buf : ℕ → UInt8) (i : ℕ) :
    ws.foldl (fun buf w => update buf w.eq 0) buf i = if ∃ w ∈ ws, w.eq = i then 0 else buf i := by
  induction ws generalizing buf with
  | nil => simp
  | cons w ws ih =>
    rw [List.foldl_cons, ih]
    by_cases hi : w.eq = i
    · subst hi
      simp
    · simp only [List.mem_cons, exists_eq_or_imp, hi, false_or, update_of_ne (Ne.symm hi)]

/-- **`nulterminate` writes a NUL after every string of the tree**, and nothing else. -/
theorem nulterminate_eq (c : Cmd) (buf : ℕ → UInt8) (i : ℕ) :
    nulterminate c buf i = if ∃ w ∈ c.words, w.eq = i then 0 else buf i := by
  have hboth : ∀ (l r : Cmd) (b : UInt8), (if ∃ w ∈ r.words, w.eq = i then 0 else
      if ∃ w ∈ l.words, w.eq = i then 0 else b) = if ∃ w ∈ l.words ++ r.words, w.eq = i then 0 else b := by
    intro l r b
    simp only [List.mem_append, or_and_right, exists_or]
    by_cases hl : ∃ w ∈ l.words, w.eq = i
    · simp [hl]
    · by_cases hr : ∃ w ∈ r.words, w.eq = i
      · simp [hr]
      · simp [hl, hr]
  induction c generalizing buf with
  | exec argv => exact foldl_update argv buf i
  | redir cmd file mode fd ih =>
    rw [nulterminate, Cmd.words]
    by_cases hi : i = file.eq
    · subst hi
      rw [update_self, if_pos ⟨file, by simp, rfl⟩]
    · rw [update_of_ne hi, ih]
      simp only [List.mem_append, List.mem_singleton, or_and_right, exists_or, exists_eq_left, Ne.symm hi, or_false]
  | pipe left right ihl ihr => rw [nulterminate, ihr, ihl, hboth, Cmd.words]
  | list left right ihl ihr => rw [nulterminate, ihr, ihl, hboth, Cmd.words]
  | back cmd ih => rw [nulterminate, ih, Cmd.words]

/-- What is at `p` reads as the text, as a string that ends with a NUL. -/
def ReadsAs (buf : ℕ → UInt8) (p : ℕ) (text : List UInt8) : Prop :=
  (∀ i, i < text.length → buf (p + i) = text.getD i 0 ∧ buf (p + i) ≠ 0) ∧ buf (p + text.length) = 0

def text (line : List UInt8) (w : Span) : List UInt8 := (line.drop w.q).take (w.eq - w.q)

theorem charAt_ne_zero (hz : 0 ∉ line) {i : ℕ} (hi : i < line.length) : charAt line i ≠ 0 := by
  have h := List.drop_eq_getElem_cons hi
  intro h0
  rw [charAt_of_drop h] at h0
  exact hz (h0 ▸ mem_of_drop h)

/-- **After `nulterminate` a word of the tree reads as a string.** -/
theorem readsAs_of_isWord (hz : 0 ∉ line) {c : Cmd} (hc : ∀ w ∈ c.words, IsWord line w) {w : Span}
    (hw : w ∈ c.words) : ReadsAs (nulterminate c (charAt line)) w.q (text line w) := by
  have hword := hc w hw
  have hlen : (text line w).length = w.eq - w.q := by
    rw [text, List.length_take, List.length_drop]
    have := hword.le
    omega
  have hlt := hword.lt
  refine ⟨fun i hi => ?_, ?_⟩
  · rw [hlen] at hi
    -- no string of the tree ends inside the word
    have hno : ¬ ∃ v ∈ c.words, v.eq = w.q + i := by
      rintro ⟨v, hv, he⟩
      have hle := hword.le
      have hend := (hc v hv).ends (by omega)
      rw [he, hword.chars (w.q + i) (by omega) (by omega)] at hend
      cases hend
    rw [nulterminate_eq, if_neg hno]
    have hle := hword.le
    refine ⟨?_, charAt_ne_zero hz (by omega)⟩
    rw [charAt, text, List.getD_eq_getElem?_getD, List.getD_eq_getElem?_getD, List.getElem?_take_of_lt hi,
      List.getElem?_drop]
  · rw [hlen, nulterminate_eq, if_pos ⟨w, hw, by omega⟩]

/-! ## parsecmd -/

theorem length_toksAt_le (hz : 0 ∉ line) {s : ℕ} (hs : s ≤ line.length) :
    (toksAt line s).length ≤ line.length - s := by
  induction hn : line.length - s using Nat.strongRecOn generalizing s with
  | ind n ih =>
    have hskip : advance isBlank line s ≤ line.length := advance_le hs
    have hle : s ≤ advance isBlank line s := le_advance
    rw [← toksAt_skip line s]
    cases hcs : line.drop (advance isBlank line s) with
    | nil =>
      rw [toksAt, hcs, lexAt]
      exact Nat.zero_le _
    | cons c cs =>
      have hb := not_blank_of_skip hcs
      have hlt := lt_length_of_drop hcs
      have hc0 : c ≠ 0 := by
        rintro rfl
        exact hz (mem_of_drop hcs)
      obtain ⟨t, ts, h₁, -, -, h₄, -⟩ := tokenAt_spec hz hcs hb
      have hend := tokenAt_le hskip
      have hmore := lt_tokenAt hcs hc0 hb
      have hrest := ih _ (by omega) hend rfl
      rw [h₁, ← h₄, List.length_cons]
      omega

theorem toks_fuel (hz : 0 ∉ line) {fuel : ℕ} (hfuel : 4 * line.length + 4 ≤ fuel) :
    4 * (toksAt line 0).length + NonTerminal.line.rank ≤ fuel := by
  have := length_toksAt_le hz (Nat.zero_le line.length)
  simp only [NonTerminal.rank]
  omega

/-- **A tree that the tokens of the line derive is the one `parsecmd` builds.** -/
theorem Derives.parsecmd (hz : 0 ∉ line) {fuel : ℕ} (hfuel : 4 * line.length + 4 ≤ fuel) {T : Cmd}
    (hd : Derives .line (tokens line) T) : Sh.parsecmd line fuel = .ok (T, nulterminate T (charAt line)) := by
  have hresult : Result (Parsed line .line 0) (parseline line fuel 0) :=
    parse_result hz .line (Nat.zero_le _) (toks_fuel hz hfuel)
  have hall : toksAt line 0 = tokens line ++ [] := by rw [List.append_nil, toksAt_zero]
  obtain ⟨s', hp, hs'⟩ := hd.parse hz hall trivial (toks_fuel hz hfuel)
  change parseline line fuel 0 = _ at hp
  rw [hp] at hresult
  unfold Sh.parsecmd
  rw [hp, ok_bind]
  dsimp only
  exact if_neg fun hne => hne ((skip_eq_length hz hresult.1).2 hs')

theorem Derives.readsAs (hz : 0 ∉ line) {T : Cmd} (hd : Derives .line (tokens line) T) {w : Span} (hw : w ∈ T.words) :
    ReadsAs (nulterminate T (charAt line)) w.q (text line w) := by
  refine readsAs_of_isWord hz (fun v hv => ?_) hw
  exact isWord_of_mem hz (Nat.zero_le _) (toksAt_zero ▸ hd.word_mem hv)

/-- **The shell accepts its grammar.** For every line without NULs, `parsecmd` returns a tree or panics; it returns a
tree exactly when the tokens of the line derive that tree; and then every string of the tree reads as its word. -/
theorem parsecmd_grammar (hz : 0 ∉ line) {fuel : ℕ} (hfuel : 4 * line.length + 4 ≤ fuel) :
    ((∃ r, parsecmd line fuel = .ok r) ∨ ∃ m, parsecmd line fuel = .error (.panic m)) ∧
    (∀ T, (∃ buf, parsecmd line fuel = .ok (T, buf)) ↔ Derives .line (tokens line) T) ∧
    ∀ T buf, parsecmd line fuel = .ok (T, buf) → ∀ w ∈ T.words, ReadsAs buf w.q (text line w) := by
  have hresult : Result (Parsed line .line 0) (parseline line fuel 0) :=
    parse_result hz .line (Nat.zero_le _) (toks_fuel hz hfuel)
  -- a tree is returned when no tokens are left
  have hok : ∀ T buf, parsecmd line fuel = .ok (T, buf) →
      Derives .line (tokens line) T ∧ buf = nulterminate T (charAt line) := by
    intro T buf h
    unfold parsecmd at h
    cases hp : parseline line fuel 0 with
    | error e =>
      rw [hp] at h
      cases h
    | ok r =>
      rw [hp] at h hresult
      rw [ok_bind] at h
      dsimp only at h
      split_ifs at h with hend
      cases h
      obtain ⟨hs, ts, hts, hd⟩ := hresult
      rw [not_not] at hend
      rw [(skip_eq_length hz hs).1 hend, List.append_nil, toksAt_zero] at hts
      rw [hts]
      exact ⟨hd, rfl⟩
  refine ⟨?_, fun T => ⟨fun h => h.elim fun buf h => (hok T buf h).1, fun hd => ⟨_, hd.parsecmd hz hfuel⟩⟩,
    fun T buf h w hw => ?_⟩
  · unfold parsecmd
    cases hp : parseline line fuel 0 with
    | error e =>
      rw [hp] at hresult
      cases e with
      | panic m => exact .inr ⟨m, rfl⟩
      | turns => exact hresult.elim
    | ok r =>
      rw [ok_bind]
      dsimp only
      split_ifs
      · exact .inr ⟨_, rfl⟩
      · exact .inl ⟨_, rfl⟩
  · obtain ⟨hd, rfl⟩ := hok T buf h
    exact hd.readsAs hz hw

def sampleLine : List UInt8 :=
  ['l'.toUInt8, 's'.toUInt8, '|'.toUInt8, 'w'.toUInt8, 'c'.toUInt8, '>'.toUInt8, 'f'.toUInt8]

/-- The tree of a line, and one of its strings. -/
theorem parsecmd_grammar_sample : ∃ T buf, parsecmd sampleLine 32 = .ok (T, buf) ∧
    Derives .line (tokens sampleLine) T ∧ T = .pipe (.exec [⟨0, 2⟩]) (.redir (.exec [⟨3, 5⟩]) ⟨6, 7⟩ writeMode 1) ∧
    ReadsAs buf 3 ['w'.toUInt8, 'c'.toUInt8] := by
  have hz : 0 ∉ sampleLine := by decide
  obtain ⟨-, hiff, hread⟩ := parsecmd_grammar hz (by decide : 4 * sampleLine.length + 4 ≤ 32)
  have hrun : (parsecmd sampleLine 32).toOption.map Prod.fst =
      some (.pipe (.exec [⟨0, 2⟩]) (.redir (.exec [⟨3, 5⟩]) ⟨6, 7⟩ writeMode 1)) := by decide +kernel
  cases hp : parsecmd sampleLine 32 with
  | error e =>
    rw [hp] at hrun
    cases hrun
  | ok r =>
    rw [hp] at hrun
    obtain ⟨T, buf⟩ := r
    have hT : T = _ := Option.some.inj hrun
    refine ⟨T, buf, rfl, (hiff T).1 ⟨buf, hp⟩, hT, ?_⟩
    exact hread T buf hp ⟨3, 5⟩ (by rw [hT]; decide)

end Xv6.Sh

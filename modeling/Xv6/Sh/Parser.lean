import Xv6.Sh.Lexer

/-!
# The parser follows the grammar

* `Result`: a tree with a property, or a `panic`, but no end of turns. `parse_result`: with enough turns the parser
  gives a tree that its tokens derive, or panics.
* `Follow`: what may come after a phrase. **`Derives.parse`**: where the tokens derive a tree, the parser finds it.
-/

namespace Xv6.Sh

variable {line : List UInt8}

/-! ## Looking ahead -/

theorem first_inj {t u : Tok} (h : t.first = u.first) (hu : ∀ w, u ≠ .word w) (hgt : u ≠ .gt) (happ : u ≠ .append) :
    t = u := by
  cases t <;> cases u <;>
    first | rfl | exact absurd rfl (hu _) | exact absurd rfl hgt | exact absurd rfl happ | exact absurd h (by decide) |
      (simp only [Tok.first, Tok.ret] at h; exact absurd h (by decide))

theorem peek_single (hz : 0 ∉ line) (s : ℕ) (u : Tok) (hsym : symbols.contains u.first = true)
    (hu : ∀ w, u ≠ .word w) (hgt : u ≠ .gt) (happ : u ≠ .append) :
    (peek line s [u.first]).1 = true ↔ ∃ ts, toksAt line s = u :: ts := by
  rw [peek_spec hz s fun c hc => by rw [List.mem_singleton.1 hc, hsym]]
  cases toksAt line s with
  | nil => simp
  | cons t ts =>
    simp only [List.contains_cons, List.contains_nil, Bool.or_false, beq_iff_eq, List.cons.injEq, exists_eq_right']
    constructor
    · intro h
      exact first_inj h hu hgt happ
    · rintro rfl
      rfl

theorem peek_amp (hz : 0 ∉ line) (s : ℕ) :
    (peek line s ['&'.toUInt8]).1 = true ↔ ∃ ts, toksAt line s = .amp :: ts :=
  peek_single hz s .amp (by decide) nofun nofun nofun

theorem peek_semi (hz : 0 ∉ line) (s : ℕ) :
    (peek line s [';'.toUInt8]).1 = true ↔ ∃ ts, toksAt line s = .semi :: ts :=
  peek_single hz s .semi (by decide) nofun nofun nofun

theorem peek_bar (hz : 0 ∉ line) (s : ℕ) :
    (peek line s ['|'.toUInt8]).1 = true ↔ ∃ ts, toksAt line s = .bar :: ts :=
  peek_single hz s .bar (by decide) nofun nofun nofun

theorem peek_lparen (hz : 0 ∉ line) (s : ℕ) :
    (peek line s ['('.toUInt8]).1 = true ↔ ∃ ts, toksAt line s = .lparen :: ts :=
  peek_single hz s .lparen (by decide) nofun nofun nofun

theorem peek_rparen (hz : 0 ∉ line) (s : ℕ) :
    (peek line s [')'.toUInt8]).1 = true ↔ ∃ ts, toksAt line s = .rparen :: ts :=
  peek_single hz s .rparen (by decide) nofun nofun nofun

def Tok.IsRedir : Tok → Prop
  | lt | gt | append => True
  | _ => False

def Tok.IsEnd : Tok → Prop
  | bar | rparen | amp | semi => True
  | _ => False

theorem peek_redir (hz : 0 ∉ line) (s : ℕ) :
    (peek line s ['<'.toUInt8, '>'.toUInt8]).1 = true ↔ ∃ t ts, toksAt line s = t :: ts ∧ t.IsRedir := by
  rw [peek_spec hz s (by decide +kernel)]
  cases toksAt line s with
  | nil => simp
  | cons t ts =>
    cases t <;> simp [Tok.IsRedir, Tok.first, Tok.ret] <;> decide

theorem peek_end (hz : 0 ∉ line) (s : ℕ) :
    (peek line s ['|'.toUInt8, ')'.toUInt8, '&'.toUInt8, ';'.toUInt8]).1 = true ↔
      ∃ t ts, toksAt line s = t :: ts ∧ t.IsEnd := by
  rw [peek_spec hz s (by decide +kernel)]
  cases toksAt line s with
  | nil => simp
  | cons t ts =>
    cases t <;> simp [Tok.IsEnd, Tok.first, Tok.ret] <;> decide

theorem ret_eq_word {t : Tok} (h : t.ret = 'a'.toUInt8) : ∃ w, t = .word w := by
  cases t with
  | word w => exact ⟨w, rfl⟩
  | _ => exact absurd h (by decide)

theorem redirects_of {t : Tok} (ht : t.IsRedir) (w : Span) : ∃ r, Redirects t w r ∧ redircmd t.ret w = [r] := by
  cases t with
  | lt => exact ⟨_, .lt w, rfl⟩
  | gt => exact ⟨_, .gt w, rfl⟩
  | append => exact ⟨_, .append w, rfl⟩
  | _ => cases ht

theorem Redirects.isRedir {t : Tok} {w : Span} {r : Redir} (h : Redirects t w r) :
    t.IsRedir ∧ redircmd t.ret w = [r] := by
  cases h <;> exact ⟨trivial, rfl⟩

/-! ## Trees that are found -/

def Result {α : Type} (Q : α → Prop) : Except Stop α → Prop
  | .ok a => Q a
  | .error (.panic _) => True
  | .error .turns => False

theorem Result.bind {α β : Type} {x : Except Stop α} {f : α → Except Stop β} {P : α → Prop} {Q : β → Prop}
    (hx : Result P x) (hf : ∀ a, P a → Result Q (f a)) : Result Q (x >>= f) := by
  cases x with
  | ok a => exact hf a hx
  | error e =>
    cases e with
    | panic m => trivial
    | turns => exact hx

theorem Result.mono {α : Type} {x : Except Stop α} {P Q : α → Prop} (hx : Result P x) (h : ∀ a, P a → Q a) :
    Result Q x := by
  cases x with
  | ok a => exact h a hx
  | error e =>
    cases e with
    | panic m => trivial
    | turns => exact hx

theorem length_gettoken (hz : 0 ∉ line) {s : ℕ} {t : Tok} {ts : List Tok} (h : toksAt line s = t :: ts) :
    (toksAt line (gettoken line s).s).length + 1 = (toksAt line s).length := by
  rw [(gettoken_cons hz h).2.2, h, List.length_cons]

theorem parseredirs_result (hz : 0 ∉ line) {fuel s : ℕ} (hs : s ≤ line.length)
    (hfuel : (toksAt line s).length < fuel) :
    Result (fun r => r.2 ≤ line.length ∧ ∃ ts, toksAt line s = ts ++ toksAt line r.2 ∧ Redirs ts r.1)
      (parseredirs line fuel s) := by
  induction fuel generalizing s with
  | zero => cases hfuel
  | succ fuel ih =>
    rw [parseredirs]
    dsimp only
    split_ifs with hp hfile
    · exact trivial
    · obtain ⟨t, ts, hts, ht⟩ := (peek_redir hz s).1 hp
      rw [← toksAt_peek ['<'.toUInt8, '>'.toUInt8]] at hts
      obtain ⟨hret, -, hnext⟩ := gettoken_cons hz hts
      rw [toksAt_peek] at hts
      set s₁ := (gettoken line (peek line s ['<'.toUInt8, '>'.toUInt8]).2).s
      have hs₁ : s₁ ≤ line.length := gettoken_le (peek_le _ hs)
      rcases gettoken_spec hz s₁ with ⟨-, hzero, -⟩ | ⟨u, us, hus, huret, hcov, hrest⟩
      · exact absurd (hzero.symm.trans (not_not.1 hfile)) (by decide)
      · obtain ⟨w, rfl⟩ := ret_eq_word (huret.symm.trans (not_not.1 hfile))
        have hw : w = (gettoken line s₁).word := hcov
        have hlen : (toksAt line (gettoken line s₁).s).length < fuel := by
          rw [hrest]
          rw [hts, ← hnext, hus, List.length_cons, List.length_cons] at hfuel
          omega
        refine (ih (gettoken_le hs₁) hlen).bind ?_
        rintro ⟨rs, s'⟩ ⟨hs', vs, hvs, hredirs⟩
        obtain ⟨r, hr, hcmd⟩ := redirects_of ht w
        refine ⟨hs', t :: .word w :: vs, ?_, ?_⟩
        · rw [hts, ← hnext, hus, ← hrest, hvs]
          rfl
        · change Redirs _ (redircmd _ _ ++ rs)
          rw [hret, ← hw, hcmd]
          exact .cons hr hredirs
    · exact ⟨peek_le ['<'.toUInt8, '>'.toUInt8] hs, [], by rw [toksAt_peek]; rfl, .nil⟩

theorem Items.redirs {ts us : List Tok} {ws : List Span} {rs rs' : List Redir} (h : Redirs ts rs)
    (h' : Items us ws rs') : Items (ts ++ us) ws (rs ++ rs') := by
  induction h with
  | nil => exact h'
  | cons hr _ ih => exact .redir hr ih

theorem parseargs_result (hz : 0 ∉ line) {fuel argc s : ℕ} (hs : s ≤ line.length) (hargc : argc < maxArgs)
    (hfuel : (toksAt line s).length < fuel) :
    Result (fun t => t.2 ≤ line.length ∧ argc + t.1.1.length < maxArgs ∧
        ∃ ts, toksAt line s = ts ++ toksAt line t.2 ∧ Items ts t.1.1 t.1.2)
      (parseargs line fuel argc s) := by
  induction fuel generalizing argc s with
  | zero => cases hfuel
  | succ fuel ih =>
    rw [parseargs]
    set p := peek line s ['|'.toUInt8, ')'.toUInt8, '&'.toUInt8, ';'.toUInt8] with hpeek
    have hp : toksAt line p.2 = toksAt line s := toksAt_peek _
    have hps : p.2 ≤ line.length := peek_le _ hs
    dsimp only
    split_ifs with h₁ h₂ h₃ h₄
    · exact ⟨hps, hargc, [], hp.symm, .nil⟩
    · refine ⟨gettoken_le hps, hargc, [], ?_, .nil⟩
      rcases gettoken_spec hz p.2 with ⟨hnil, -, hrest⟩ | ⟨u, us, -, huret, -⟩
      · rw [← hp, hnil]
        exact hrest.symm
      · exact absurd (huret.symm.trans h₂) (ret_ne_zero u)
    · exact trivial
    · exact trivial
    · rcases gettoken_spec hz p.2 with ⟨-, hzero, -⟩ | ⟨u, us, hus, huret, hcov, hrest⟩
      · exact absurd hzero h₂
      · obtain ⟨w, rfl⟩ := ret_eq_word (huret.symm.trans (not_not.1 h₃))
        have hw : w = (gettoken line p.2).word := hcov
        have hlen : (toksAt line (gettoken line p.2).s).length < fuel := by
          rw [hrest]
          rw [← hp, hus, List.length_cons] at hfuel
          omega
        refine (parseredirs_result hz (gettoken_le hps) hlen).bind ?_
        rintro ⟨rs, s₁⟩ ⟨hs₁, vs, hvs, hredirs⟩
        simp only at hs₁ hvs hredirs
        have hlen₁ : (toksAt line s₁).length < fuel := by
          rw [hvs, List.length_append] at hlen
          omega
        refine (ih hs₁ (by omega) hlen₁).bind ?_
        rintro ⟨⟨ws, rs'⟩, s'⟩ ⟨hs', hargs, xs, hxs, hitems⟩
        refine ⟨hs', ?_, .word w :: (vs ++ xs), ?_, ?_⟩
        · change argc + (ws.length + 1) < maxArgs
          change argc + 1 + ws.length < maxArgs at hargs
          omega
        · rw [← hp, hus, ← hrest, hvs, hxs, List.cons_append, List.append_assoc]
        · change Items _ ((gettoken line p.2).word :: ws) (rs ++ rs')
          rw [← hw]
          exact .word (Items.redirs hredirs hitems)

theorem parsebacks_result (hz : 0 ∉ line) {fuel s : ℕ} (c : Cmd) (hs : s ≤ line.length)
    (hfuel : (toksAt line s).length < fuel) :
    Result (fun r => r.2 ≤ line.length ∧ ∃ n, toksAt line s = List.replicate n .amp ++ toksAt line r.2 ∧ r.1 = backs c n)
      (parsebacks line fuel c s) := by
  induction fuel generalizing s c with
  | zero => cases hfuel
  | succ fuel ih =>
    rw [parsebacks]
    set p := peek line s ['&'.toUInt8] with hpeek
    have hp : toksAt line p.2 = toksAt line s := toksAt_peek _
    have hps : p.2 ≤ line.length := peek_le _ hs
    split_ifs with hamp
    · obtain ⟨ts, hts⟩ := (peek_amp hz s).1 hamp
      obtain ⟨-, -, hrest⟩ := gettoken_cons hz (hp.trans hts)
      have hlen : (toksAt line (gettoken line p.2).s).length < fuel := by
        rw [hrest]
        rw [hts, List.length_cons] at hfuel
        omega
      refine (ih (.back c) (gettoken_le hps) hlen).mono ?_
      rintro r ⟨hr, n, hn, hback⟩
      refine ⟨hr, n + 1, ?_, hback⟩
      rw [hts, ← hrest, hn]
      rfl
    · exact ⟨hps, 0, hp.symm, rfl⟩

/-- How many turns are enough, beyond four for each token. -/
def NonTerminal.rank : NonTerminal → ℕ
  | .line => 4
  | .pipe => 3
  | .exec => 2

def parse (line : List UInt8) : NonTerminal → ℕ → ℕ → Except Stop (Cmd × ℕ)
  | .line => parseline line
  | .pipe => parsepipe line
  | .exec => parseexec line

/-- What a function gives: a tree that the tokens it has read derive. -/
def Parsed (line : List UInt8) (nt : NonTerminal) (s : ℕ) (r : Cmd × ℕ) : Prop :=
  r.2 ≤ line.length ∧ ∃ ts, toksAt line s = ts ++ toksAt line r.2 ∧ Derives nt ts r.1

theorem Parsed.length_le {nt : NonTerminal} {s : ℕ} {r : Cmd × ℕ} (h : Parsed line nt s r) :
    (toksAt line r.2).length ≤ (toksAt line s).length := by
  obtain ⟨-, ts, hts, -⟩ := h
  rw [hts, List.length_append]
  omega

/-- **With enough turns the parser gives a tree that its tokens derive**, or panics. -/
theorem parse_result (hz : 0 ∉ line) (nt : NonTerminal) {fuel s : ℕ} (hs : s ≤ line.length)
    (hfuel : 4 * (toksAt line s).length + nt.rank ≤ fuel) :
    Result (Parsed line nt s) (parse line nt fuel s) := by
  induction fuel using Nat.strongRecOn generalizing nt s with
  | ind fuel ih =>
    cases nt with
    | line =>
      obtain ⟨fuel, rfl⟩ : ∃ k, fuel = k + 1 := ⟨fuel - 1, by simp only [NonTerminal.rank] at hfuel; omega⟩
      simp only [NonTerminal.rank] at hfuel
      rw [parse, parseline]
      refine (ih fuel (by omega) .pipe hs (by simp only [NonTerminal.rank]; omega)).bind ?_
      rintro ⟨c, s₁⟩ hc
      have hlen := hc.length_le
      obtain ⟨hs₁, ts, hts, hpipe⟩ := hc
      simp only at hs₁ hts hpipe hlen
      refine (parsebacks_result hz c hs₁ (by omega)).bind ?_
      rintro ⟨b, s₂⟩ ⟨hs₂, n, hn, rfl⟩
      simp only at hs₂ hn
      have hp : toksAt line (peek line s₂ [';'.toUInt8]).2 = toksAt line s₂ := toksAt_peek _
      dsimp only
      split_ifs with hsemi
      · obtain ⟨us, hus⟩ := (peek_semi hz s₂).1 hsemi
        obtain ⟨-, -, hrest⟩ := gettoken_cons hz (hp.trans hus)
        have hlen₂ : (toksAt line s₂).length ≤ (toksAt line s₁).length := by
          rw [hn, List.length_append]
          omega
        have hlen₃ := length_gettoken hz (hp.trans hus)
        rw [hp] at hlen₃
        refine (ih fuel (by omega) .line (gettoken_le (peek_le _ hs₂))
          (by simp only [NonTerminal.rank]; omega)).bind ?_
        rintro ⟨d, s'⟩ ⟨hs', vs, hvs, hline⟩
        simp only at hs' hvs hline
        refine ⟨hs', _, ?_, .list n hpipe hline⟩
        rw [hts, hn, hus, ← hrest, hvs]
        simp
      · refine ⟨peek_le [';'.toUInt8] hs₂, _, ?_, .line n hpipe⟩
        rw [hp, hts, hn, List.append_assoc]
    | pipe =>
      obtain ⟨fuel, rfl⟩ : ∃ k, fuel = k + 1 := ⟨fuel - 1, by simp only [NonTerminal.rank] at hfuel; omega⟩
      simp only [NonTerminal.rank] at hfuel
      rw [parse, parsepipe]
      refine (ih fuel (by omega) .exec hs (by simp only [NonTerminal.rank]; omega)).bind ?_
      rintro ⟨c, s₁⟩ hc
      have hlen := hc.length_le
      obtain ⟨hs₁, ts, hts, hexec⟩ := hc
      simp only at hs₁ hts hexec hlen
      have hp : toksAt line (peek line s₁ ['|'.toUInt8]).2 = toksAt line s₁ := toksAt_peek _
      dsimp only
      split_ifs with hbar
      · obtain ⟨us, hus⟩ := (peek_bar hz s₁).1 hbar
        obtain ⟨-, -, hrest⟩ := gettoken_cons hz (hp.trans hus)
        have hlen₃ := length_gettoken hz (hp.trans hus)
        rw [hp] at hlen₃
        refine (ih fuel (by omega) .pipe (gettoken_le (peek_le _ hs₁))
          (by simp only [NonTerminal.rank]; omega)).bind ?_
        rintro ⟨d, s'⟩ ⟨hs', vs, hvs, hpipe⟩
        simp only at hs' hvs hpipe
        refine ⟨hs', _, ?_, .pipe hexec hpipe⟩
        rw [hts, hus, ← hrest, hvs]
        simp
      · exact ⟨peek_le ['|'.toUInt8] hs₁, ts, by rw [hp, hts], .one hexec⟩
    | exec =>
      obtain ⟨fuel, rfl⟩ : ∃ k, fuel = k + 2 := ⟨fuel - 2, by simp only [NonTerminal.rank] at hfuel; omega⟩
      simp only [NonTerminal.rank] at hfuel
      rw [parse, parseexec]
      set p := peek line s ['('.toUInt8] with hpeek
      have hp : toksAt line p.2 = toksAt line s := toksAt_peek _
      have hps : p.2 ≤ line.length := peek_le _ hs
      split_ifs with hparen
      · rw [parseblock]
        set q := peek line p.2 ['('.toUInt8] with hq
        have hqt : toksAt line q.2 = toksAt line s := (toksAt_peek _).trans hp
        have hqs : q.2 ≤ line.length := peek_le _ hps
        dsimp only
        split_ifs with hparen'
        · obtain ⟨us, hus⟩ := (peek_lparen hz s).1 hparen
          obtain ⟨-, -, hrest⟩ := gettoken_cons hz (hqt.trans hus)
          have hlen₃ := length_gettoken hz (hqt.trans hus)
          rw [hqt] at hlen₃
          refine (ih fuel (by omega) .line (gettoken_le hqs) (by simp only [NonTerminal.rank]; omega)).bind ?_
          rintro ⟨c, s₁⟩ hc
          have hlen := hc.length_le
          obtain ⟨hs₁, ts, hts, hline⟩ := hc
          simp only at hs₁ hts hline hlen
          have hp₁ : toksAt line (peek line s₁ [')'.toUInt8]).2 = toksAt line s₁ := toksAt_peek _
          dsimp only
          split_ifs with hclose
          · obtain ⟨vs, hvs⟩ := (peek_rparen hz s₁).1 hclose
            obtain ⟨-, -, hrest₁⟩ := gettoken_cons hz (hp₁.trans hvs)
            have hlen₄ := length_gettoken hz (hp₁.trans hvs)
            rw [hp₁] at hlen₄
            refine (parseredirs_result hz (gettoken_le (peek_le _ hs₁)) (by omega)).bind ?_
            rintro ⟨rs, s'⟩ ⟨hs', xs, hxs, hredirs⟩
            simp only at hs' hxs hredirs
            refine ⟨hs', _, ?_, .block hline hredirs⟩
            rw [hus, ← hrest, hts, hvs, ← hrest₁, hxs]
            simp
          · exact trivial
        · exact trivial
      · refine (parseredirs_result hz hps (by rw [hp]; omega)).bind ?_
        rintro ⟨rs, s₁⟩ ⟨hs₁, ts, hts, hredirs⟩
        simp only at hs₁ hts hredirs
        have hlen : (toksAt line s₁).length ≤ (toksAt line s).length := by
          rw [← hp, hts, List.length_append]
          omega
        refine (parseargs_result hz hs₁ (by decide) (by omega)).bind ?_
        rintro ⟨⟨ws, rs'⟩, s'⟩ ⟨hs', hargs, us, hus, hitems⟩
        simp only at hs' hargs hus hitems
        refine ⟨hs', ts ++ us, ?_, .simple (Items.redirs hredirs hitems) (by simpa using hargs)⟩
        rw [← hp, hts, hus, List.append_assoc]

/-! ## Trees that are to be found -/

def Follow : NonTerminal → List Tok → Prop
  | _, [] => True
  | .line, t :: _ => t = .rparen
  | .pipe, t :: _ => t = .amp ∨ t = .semi ∨ t = .rparen
  | .exec, t :: _ => t.IsEnd

def NoRedir (ts : List Tok) : Prop := ∀ t us, ts = t :: us → ¬ t.IsRedir

theorem Follow.noRedir {ts : List Tok} (h : Follow .exec ts) : NoRedir ts := by
  rintro t us rfl
  cases t <;> first | exact id | cases h

theorem parseredirs_stop (hz : 0 ∉ line) {s : ℕ} (h : NoRedir (toksAt line s)) :
    ∃ s', toksAt line s' = toksAt line s ∧ ∀ fuel, parseredirs line (fuel + 1) s = .ok ([], s') := by
  refine ⟨_, toksAt_peek ['<'.toUInt8, '>'.toUInt8], fun fuel => ?_⟩
  rw [parseredirs]
  dsimp only
  rw [if_neg]
  intro hp
  obtain ⟨t, ts, hts, ht⟩ := (peek_redir hz s).1 hp
  exact h t ts hts ht

theorem parseredirs_cons (hz : 0 ∉ line) {s : ℕ} {t : Tok} {w : Span} {r : Redir} {ts : List Tok}
    (hr : Redirects t w r) (h : toksAt line s = t :: .word w :: ts) :
    ∃ s', toksAt line s' = ts ∧ ∀ fuel, parseredirs line (fuel + 1) s =
      (parseredirs line fuel s' >>= fun q => .ok (r :: q.1, q.2)) := by
  obtain ⟨hredir, hcmd⟩ := hr.isRedir
  have hp : toksAt line (peek line s ['<'.toUInt8, '>'.toUInt8]).2 = t :: .word w :: ts := (toksAt_peek _).trans h
  obtain ⟨hret, -, hnext⟩ := gettoken_cons hz hp
  obtain ⟨hret', hcov, hrest⟩ := gettoken_cons hz hnext
  refine ⟨_, hrest, fun fuel => ?_⟩
  rw [parseredirs]
  dsimp only
  have hw : w = (gettoken line (gettoken line (peek line s ['<'.toUInt8, '>'.toUInt8]).2).s).word := hcov
  have hfile : ¬ (gettoken line (gettoken line (peek line s ['<'.toUInt8, '>'.toUInt8]).2).s).ret ≠ 'a'.toUInt8 :=
    not_not.2 hret'
  rw [if_pos ((peek_redir hz s).2 ⟨t, _, h, hredir⟩), if_neg hfile, ← hw, hret, hcmd]
  rfl

theorem Redirs.parse (hz : 0 ∉ line) {ts rest : List Tok} {rs : List Redir} (h : Redirs ts rs) {s : ℕ}
    (hs : toksAt line s = ts ++ rest) (hrest : NoRedir rest) {fuel : ℕ} (hfuel : ts.length < fuel) :
    ∃ s', parseredirs line fuel s = .ok (rs, s') ∧ toksAt line s' = rest := by
  induction h generalizing s fuel with
  | nil =>
    obtain ⟨fuel, rfl⟩ : ∃ k, fuel = k + 1 := ⟨fuel - 1, by omega⟩
    rw [List.nil_append] at hs
    obtain ⟨s', htoks, hstop⟩ := parseredirs_stop hz (hs ▸ hrest)
    exact ⟨s', hstop fuel, htoks.trans hs⟩
  | @cons t w r ts rs hr _ ih =>
    simp only [List.length_cons] at hfuel
    obtain ⟨fuel, rfl⟩ : ∃ k, fuel = k + 1 := ⟨fuel - 1, by omega⟩
    obtain ⟨s₁, hs₁, hstep⟩ := parseredirs_cons hz hr hs
    obtain ⟨s', hs', htoks⟩ := ih hs₁ (by omega : ts.length < fuel)
    refine ⟨s', ?_, htoks⟩
    rw [hstep, hs']
    rfl

theorem parseargs_stop (hz : 0 ∉ line) {s : ℕ} (h : Follow .exec (toksAt line s)) (argc : ℕ) :
    ∃ s', toksAt line s' = toksAt line s ∧ ∀ fuel, parseargs line (fuel + 1) argc s = .ok (([], []), s') := by
  simp only [parseargs]
  set p := peek line s ['|'.toUInt8, ')'.toUInt8, '&'.toUInt8, ';'.toUInt8] with hpeek
  have hp : toksAt line p.2 = toksAt line s := toksAt_peek _
  cases hts : toksAt line s with
  | nil =>
    obtain ⟨hret, hrest⟩ := gettoken_nil hz (hp.trans hts)
    have hno : ¬ p.1 = true := by
      intro htrue
      obtain ⟨t, ts, hcons, -⟩ := (peek_end hz s).1 htrue
      rw [hts] at hcons
      cases hcons
    refine ⟨_, hrest, fun fuel => ?_⟩
    rw [if_neg hno, if_pos hret]
  | cons t ts =>
    rw [hts] at h
    refine ⟨_, hp.trans hts, fun fuel => ?_⟩
    rw [if_pos ((peek_end hz s).2 ⟨t, ts, hts, h⟩)]

theorem parseargs_cons (hz : 0 ∉ line) {s argc : ℕ} {w : Span} {ts : List Tok}
    (h : toksAt line s = .word w :: ts) (hargc : argc + 1 < maxArgs) :
    ∃ s', toksAt line s' = ts ∧ ∀ fuel, parseargs line (fuel + 1) argc s =
      (parseredirs line fuel s' >>= fun r => parseargs line fuel (argc + 1) r.2 >>= fun t =>
        .ok ((w :: t.1.1, r.1 ++ t.1.2), t.2)) := by
  have hp : toksAt line (peek line s ['|'.toUInt8, ')'.toUInt8, '&'.toUInt8, ';'.toUInt8]).2 = .word w :: ts :=
    (toksAt_peek _).trans h
  obtain ⟨hret, hcov, hrest⟩ := gettoken_cons hz hp
  refine ⟨_, hrest, fun fuel => ?_⟩
  rw [parseargs]
  dsimp only
  have hno : ¬ (peek line s ['|'.toUInt8, ')'.toUInt8, '&'.toUInt8, ';'.toUInt8]).1 = true := by
    intro htrue
    obtain ⟨t, us, hcons, ht⟩ := (peek_end hz s).1 htrue
    rw [h] at hcons
    cases hcons
    cases ht
  have hw : w = (gettoken line (peek line s ['|'.toUInt8, ')'.toUInt8, '&'.toUInt8, ';'.toUInt8]).2).word := hcov
  have hword : ¬ (gettoken line (peek line s ['|'.toUInt8, ')'.toUInt8, '&'.toUInt8, ';'.toUInt8]).2).ret ≠
      'a'.toUInt8 := not_not.2 hret
  rw [if_neg hno, if_neg (by rw [hret]; exact ret_ne_zero _), if_neg hword, if_neg (Nat.not_le.2 hargc), ← hw]

/-- **Words and redirections are read**, first the redirections before the first word. -/
theorem Items.parse (hz : 0 ∉ line) {ts rest : List Tok} {ws : List Span} {rs : List Redir} (h : Items ts ws rs)
    {s argc : ℕ} (hs : toksAt line s = ts ++ rest) (hrest : Follow .exec rest) (hargc : argc + ws.length < maxArgs) :
    ∃ rs₁ rs₂ s₁ s', rs = rs₁ ++ rs₂ ∧ toksAt line s' = rest ∧ ∀ fuel, ts.length < fuel →
      parseredirs line fuel s = .ok (rs₁, s₁) ∧ parseargs line fuel argc s₁ = .ok ((ws, rs₂), s') := by
  induction h generalizing s argc with
  | nil =>
    rw [List.nil_append] at hs
    subst hs
    obtain ⟨s₁, htoks₁, hs₁⟩ := parseredirs_stop hz hrest.noRedir
    obtain ⟨s', htoks', hs'⟩ := parseargs_stop hz (htoks₁ ▸ hrest) argc
    refine ⟨[], [], s₁, s', rfl, htoks'.trans htoks₁, fun fuel hfuel => ?_⟩
    obtain ⟨fuel, rfl⟩ : ∃ k, fuel = k + 1 := ⟨fuel - 1, by omega⟩
    exact ⟨hs₁ fuel, hs' fuel⟩
  | redir hr _ ih =>
    obtain ⟨s₀, hs₀, hstep⟩ := parseredirs_cons hz hr hs
    obtain ⟨rs₁, rs₂, s₁, s', hrs, htoks, hparse⟩ := ih hs₀ hargc
    refine ⟨_ :: rs₁, rs₂, s₁, s', by rw [hrs, List.cons_append], htoks, fun fuel hfuel => ?_⟩
    simp only [List.length_cons] at hfuel
    obtain ⟨fuel, rfl⟩ : ∃ k, fuel = k + 1 := ⟨fuel - 1, by omega⟩
    refine ⟨?_, (hparse (fuel + 1) (by omega)).2⟩
    rw [hstep, (hparse fuel (by omega)).1]
    rfl
  | @word w ts ws rs _ ih =>
    have hno : NoRedir (toksAt line s) := by
      intro t us hts ht
      rw [hs, List.cons_append] at hts
      cases hts
      cases ht
    rw [List.length_cons] at hargc
    obtain ⟨s₁, htoks₁, hs₁⟩ := parseredirs_stop hz hno
    obtain ⟨s₂, hs₂, hstep⟩ := parseargs_cons hz (htoks₁.trans hs) (by omega : argc + 1 < maxArgs)
    obtain ⟨rs₁, rs₂, s₃, s', hrs, htoks, hparse⟩ := ih hs₂ (by omega : argc + 1 + ws.length < maxArgs)
    refine ⟨[], rs, s₁, s', rfl, htoks, fun fuel hfuel => ?_⟩
    rw [List.length_cons] at hfuel
    obtain ⟨fuel, rfl⟩ : ∃ k, fuel = k + 1 := ⟨fuel - 1, by omega⟩
    obtain ⟨hr, ha⟩ := hparse fuel (by omega)
    refine ⟨hs₁ fuel, ?_⟩
    rw [hstep, hr, hrs]
    change (parseargs line fuel (argc + 1) s₃ >>= _) = _
    rw [ha]
    rfl

theorem parsebacks_eq (hz : 0 ∉ line) (n : ℕ) {s : ℕ} (c : Cmd) {rest : List Tok}
    (hs : toksAt line s = List.replicate n .amp ++ rest) (hrest : ∀ us, rest ≠ .amp :: us) {fuel : ℕ}
    (hfuel : n < fuel) : ∃ s', parsebacks line fuel c s = .ok (backs c n, s') ∧ toksAt line s' = rest := by
  induction n generalizing s c fuel with
  | zero =>
    obtain ⟨fuel, rfl⟩ : ∃ k, fuel = k + 1 := ⟨fuel - 1, by omega⟩
    have hno : ¬ (peek line s ['&'.toUInt8]).1 = true := by
      intro htrue
      obtain ⟨us, hus⟩ := (peek_amp hz s).1 htrue
      exact hrest us (hs.symm.trans hus)
    refine ⟨_, ?_, (toksAt_peek ['&'.toUInt8]).trans hs⟩
    rw [parsebacks, if_neg hno]
    rfl
  | succ n ih =>
    obtain ⟨fuel, rfl⟩ : ∃ k, fuel = k + 1 := ⟨fuel - 1, by omega⟩
    rw [List.replicate_succ, List.cons_append] at hs
    obtain ⟨-, -, hnext⟩ := gettoken_cons hz ((toksAt_peek ['&'.toUInt8]).trans hs)
    obtain ⟨s', hs', htoks⟩ := ih (.back c) hnext (by omega : n < fuel)
    refine ⟨s', ?_, htoks⟩
    rw [parsebacks, if_pos ((peek_amp hz s).2 ⟨_, hs⟩), hs']
    rfl

theorem follow_amps {n : ℕ} {rest : List Tok} (h : Follow .line rest) :
    Follow .pipe (List.replicate n .amp ++ rest) := by
  cases n with
  | zero =>
    cases rest with
    | nil => trivial
    | cons t rest => exact .inr (.inr h)
  | succ n => exact .inl rfl

theorem follow_exec {rest : List Tok} (h : Follow .pipe rest) : Follow .exec rest := by
  cases rest with
  | nil => trivial
  | cons t rest => rcases h with rfl | rfl | rfl <;> trivial

theorem ok_bind {α β : Type} (a : α) (f : α → Except Stop β) : (Except.ok a >>= f) = f a := rfl

/-- **Where the tokens derive a tree, the parser finds it.** -/
theorem Derives.parse (hz : 0 ∉ line) {nt : NonTerminal} {ts : List Tok} {c : Cmd} (h : Derives nt ts c) {s : ℕ}
    {rest : List Tok} (hs : toksAt line s = ts ++ rest) (hrest : Follow nt rest) {fuel : ℕ}
    (hfuel : 4 * (toksAt line s).length + nt.rank ≤ fuel) :
    ∃ s', Sh.parse line nt fuel s = .ok (c, s') ∧ toksAt line s' = rest := by
  induction h generalizing s rest fuel with
  | @line ts c n _ ih =>
    simp only [NonTerminal.rank] at hfuel
    obtain ⟨fuel, rfl⟩ : ∃ k, fuel = k + 1 := ⟨fuel - 1, by omega⟩
    rw [List.append_assoc] at hs
    have hn : n < fuel := by
      rw [hs] at hfuel
      simp only [List.length_append, List.length_replicate] at hfuel
      omega
    obtain ⟨s₁, hp₁, hs₁⟩ := ih hs (follow_amps hrest) (by simp only [NonTerminal.rank]; omega : _ ≤ fuel)
    obtain ⟨s₂, hp₂, hs₂⟩ := parsebacks_eq hz n c hs₁ (by rintro us rfl; cases hrest) hn
    have hno : ¬ (peek line s₂ [';'.toUInt8]).1 = true := by
      intro htrue
      obtain ⟨us, hus⟩ := (peek_semi hz s₂).1 htrue
      rw [hs₂] at hus
      subst hus
      cases hrest
    refine ⟨_, ?_, (toksAt_peek [';'.toUInt8]).trans hs₂⟩
    change parsepipe line fuel s = _ at hp₁
    change parseline line (fuel + 1) s = _
    rw [parseline, hp₁, ok_bind, hp₂, ok_bind]
    dsimp only
    rw [if_neg hno]
  | @list ts us c d n _ _ ih ih' =>
    simp only [NonTerminal.rank] at hfuel
    obtain ⟨fuel, rfl⟩ : ∃ k, fuel = k + 1 := ⟨fuel - 1, by omega⟩
    have hs₀ : toksAt line s = ts ++ (List.replicate n .amp ++ .semi :: (us ++ rest)) := by
      rw [hs]
      simp
    have hlen := congrArg List.length hs₀
    simp only [List.length_append, List.length_replicate, List.length_cons] at hlen
    have hfollow : Follow .pipe (List.replicate n .amp ++ .semi :: (us ++ rest)) := by
      cases n with
      | zero => exact .inr (.inl rfl)
      | succ n => exact .inl rfl
    obtain ⟨s₁, hp₁, hs₁⟩ := ih hs₀ hfollow (by simp only [NonTerminal.rank]; omega : _ ≤ fuel)
    obtain ⟨s₂, hp₂, hs₂⟩ := parsebacks_eq hz n c hs₁ (by simp) (by omega : n < fuel)
    obtain ⟨-, -, hnext⟩ := gettoken_cons hz ((toksAt_peek [';'.toUInt8]).trans hs₂)
    obtain ⟨s', hp', hs'⟩ := ih' hnext hrest (by
      rw [hnext, List.length_append]
      simp only [NonTerminal.rank]
      omega : _ ≤ fuel)
    refine ⟨s', ?_, hs'⟩
    change parsepipe line fuel s = _ at hp₁
    change parseline line fuel _ = _ at hp'
    change parseline line (fuel + 1) s = _
    rw [parseline, hp₁, ok_bind, hp₂, ok_bind]
    dsimp only
    rw [if_pos ((peek_semi hz s₂).2 ⟨_, hs₂⟩), hp', ok_bind]
  | one _ ih =>
    simp only [NonTerminal.rank] at hfuel
    obtain ⟨fuel, rfl⟩ : ∃ k, fuel = k + 1 := ⟨fuel - 1, by omega⟩
    obtain ⟨s₁, hp₁, hs₁⟩ := ih hs (follow_exec hrest) (by simp only [NonTerminal.rank]; omega : _ ≤ fuel)
    have hno : ¬ (peek line s₁ ['|'.toUInt8]).1 = true := by
      intro htrue
      obtain ⟨us, hus⟩ := (peek_bar hz s₁).1 htrue
      rw [hs₁] at hus
      subst hus
      rcases hrest with hrest | hrest | hrest <;> cases hrest
    refine ⟨_, ?_, (toksAt_peek ['|'.toUInt8]).trans hs₁⟩
    change parseexec line fuel s = _ at hp₁
    change parsepipe line (fuel + 1) s = _
    rw [parsepipe, hp₁, ok_bind]
    dsimp only
    rw [if_neg hno]
  | @pipe ts us c d _ _ ih ih' =>
    simp only [NonTerminal.rank] at hfuel
    obtain ⟨fuel, rfl⟩ : ∃ k, fuel = k + 1 := ⟨fuel - 1, by omega⟩
    have hs₀ : toksAt line s = ts ++ .bar :: (us ++ rest) := by
      rw [hs]
      simp
    have hlen := congrArg List.length hs₀
    simp only [List.length_append, List.length_cons] at hlen
    obtain ⟨s₁, hp₁, hs₁⟩ := ih hs₀ trivial (by simp only [NonTerminal.rank]; omega : _ ≤ fuel)
    obtain ⟨-, -, hnext⟩ := gettoken_cons hz ((toksAt_peek ['|'.toUInt8]).trans hs₁)
    obtain ⟨s', hp', hs'⟩ := ih' hnext hrest (by
      rw [hnext, List.length_append]
      simp only [NonTerminal.rank]
      omega : _ ≤ fuel)
    refine ⟨s', ?_, hs'⟩
    change parseexec line fuel s = _ at hp₁
    change parsepipe line fuel _ = _ at hp'
    change parsepipe line (fuel + 1) s = _
    rw [parsepipe, hp₁, ok_bind]
    dsimp only
    rw [if_pos ((peek_bar hz s₁).2 ⟨_, hs₁⟩), hp', ok_bind]
  | @block ts us c rs _ hredirs ih =>
    simp only [NonTerminal.rank] at hfuel
    obtain ⟨fuel, rfl⟩ : ∃ k, fuel = k + 2 := ⟨fuel - 2, by omega⟩
    have hs₀ : toksAt line s = .lparen :: (ts ++ .rparen :: (us ++ rest)) := by
      rw [hs]
      simp
    have hlen := congrArg List.length hs₀
    simp only [List.length_append, List.length_cons] at hlen
    have hp : toksAt line (peek line s ['('.toUInt8]).2 = toksAt line s := toksAt_peek _
    have hq : toksAt line (peek line (peek line s ['('.toUInt8]).2 ['('.toUInt8]).2 = toksAt line s :=
      (toksAt_peek _).trans hp
    obtain ⟨-, -, hnext⟩ := gettoken_cons hz (hq.trans hs₀)
    obtain ⟨s₁, hp₁, hs₁⟩ := ih hnext rfl (by
      rw [hnext]
      simp only [NonTerminal.rank, List.length_append, List.length_cons]
      omega : _ ≤ fuel)
    obtain ⟨-, -, hnext₁⟩ := gettoken_cons hz ((toksAt_peek [')'.toUInt8]).trans hs₁)
    obtain ⟨s', hp', hs'⟩ := hredirs.parse hz hnext₁ hrest.noRedir (by omega : us.length < fuel)
    refine ⟨s', ?_, hs'⟩
    change parseline line fuel _ = _ at hp₁
    change parseexec line (fuel + 2) s = _
    rw [parseexec]
    rw [if_pos ((peek_lparen hz s).2 ⟨_, hs₀⟩), parseblock]
    dsimp only
    rw [if_pos ((peek_lparen hz _).2 ⟨_, hp.trans hs₀⟩), hp₁, ok_bind]
    dsimp only
    rw [if_pos ((peek_rparen hz s₁).2 ⟨_, hs₁⟩), hp', ok_bind]
  | @simple ts ws rs hitems hargs =>
    simp only [NonTerminal.rank] at hfuel
    obtain ⟨fuel, rfl⟩ : ∃ k, fuel = k + 1 := ⟨fuel - 1, by omega⟩
    have hlen := congrArg List.length hs
    rw [List.length_append] at hlen
    have hp : toksAt line (peek line s ['('.toUInt8]).2 = ts ++ rest := (toksAt_peek _).trans hs
    have hno : ¬ (peek line s ['('.toUInt8]).1 = true := by
      intro htrue
      obtain ⟨us, hus⟩ := (peek_lparen hz s).1 htrue
      rw [hs] at hus
      cases hitems with
      | nil =>
        rw [List.nil_append] at hus
        subst hus
        cases hrest
      | redir hr _ =>
        rw [List.cons_append] at hus
        cases hus
        cases hr
      | word _ => cases hus
    obtain ⟨rs₁, rs₂, s₁, s', hrs, htoks, hparse⟩ := hitems.parse hz hp hrest (by rwa [Nat.zero_add])
    obtain ⟨hr, ha⟩ := hparse fuel (by omega)
    refine ⟨s', ?_, htoks⟩
    change parseexec line (fuel + 1) s = _
    rw [parseexec]
    rw [if_neg hno, hr, ok_bind, ha, ok_bind, hrs]

end Xv6.Sh

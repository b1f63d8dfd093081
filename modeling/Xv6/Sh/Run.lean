import Xv6.Sh.Line

/-!
# Redirections

`runcmd` of `user/sh.c`, one call at a time: what the process does until it calls `runcmd` again, calls `exec` or exits,
and what the children it forks run. A process is its descriptors; what `open`, `pipe` and `fork` answer is given.

* `runcmd`, `follow`: a call, and the calls that one process makes.
* `Command`: a simple or a parenthesised command, with its redirections from left to right.
* `runs_wrap`: the redirection that comes last in the line is performed first.
* **`redirs_in_order_iff`**: so the first redirection of a descriptor wins, and the last one only where both open the
  same file.
-/

namespace Xv6.Sh

open Function

abbrev nofile : ℕ := 16

abbrev Fds (F : Type) : Type := ℕ → Option F

/-- What the kernel answers: the file that `open` gives for a path and a mode, the two ends that `pipe` makes, and
whether `fork` works, the first and the second time. -/
structure Sys (F : Type) where
  opens : List UInt8 → ℕ → Option F
  pipe : Option (F × F)
  fork : Bool × Bool

section

variable {F : Type} (sys : Sys F) (str : ℕ → List UInt8)

def fdalloc (fds : Fds F) (f : F) : Option (ℕ × Fds F) :=
  ((List.range nofile).find? fun fd => (fds fd).isNone).map fun fd => (fd, update fds fd (some f))

def close (fd : ℕ) (fds : Fds F) : Fds F := update fds fd none

def dup (fd : ℕ) (fds : Fds F) : Fds F := (((fds fd).bind (fdalloc fds)).map Prod.snd).getD fds

def pipe (fds : Fds F) : Option ((ℕ × ℕ) × Fds F) := do
  let ends ← sys.pipe
  let rd ← fdalloc fds ends.1
  let wr ← fdalloc rd.2 ends.2
  return ((rd.1, wr.1), wr.2)

/-- `close(fd); open(path, mode)`. -/
def redirect (path : List UInt8) (mode fd : ℕ) (fds : Fds F) : Option (Fds F) :=
  (sys.opens path mode).bind fun f => (fdalloc (close fd fds) f).map Prod.snd

/-- How a call of `runcmd` goes on in the process that makes it. -/
inductive Self (F : Type)
  | exec (argv : List (List UInt8)) (fds : Fds F)
  | exit (status : ℕ)
  | run (cmd : Cmd) (fds : Fds F)

/-- What a call of `runcmd` comes to: what the children run, and what the process itself does. -/
structure Turn (F : Type) where
  children : List (Cmd × Fds F)
  self : Self F

/-- **`runcmd`**, when the string at `q` is `str q`. -/
def runcmd : Cmd → Fds F → Turn F
  | .exec argv, fds => ⟨[], if argv = [] then .exit 1 else .exec (argv.map fun w => str w.q) fds⟩
  | .redir cmd file mode fd, fds =>
    match redirect sys (str file.q) mode fd fds with
    | some fds => ⟨[], .run cmd fds⟩
    | none => ⟨[], .exit 1⟩
  | .list left right, fds => if sys.fork.1 then ⟨[(left, fds)], .run right fds⟩ else ⟨[], .exit 1⟩
  | .pipe left right, fds =>
    match pipe sys fds with
    | none => ⟨[], .exit 1⟩
    | some (p, fds) =>
      let child (fd e : ℕ) := close p.2 (close p.1 (dup e (close fd fds)))
      if sys.fork.1 = false then ⟨[], .exit 1⟩
      else if sys.fork.2 = false then ⟨[(left, child 1 p.2)], .exit 1⟩
      else ⟨[(left, child 1 p.2), (right, child 0 p.1)], .exit 0⟩
  | .back cmd, fds => if sys.fork.1 then ⟨[(cmd, fds)], .exit 0⟩ else ⟨[], .exit 1⟩

def follow : Self F → Self F
  | .run cmd fds => (runcmd sys str cmd fds).self
  | self => self

/-- **Redirections in the order given.** -/
def inOrder (path : Span → List UInt8) : List Redir → Fds F → Option (Fds F)
  | [], fds => some fds
  | r :: rs, fds => (redirect sys (path r.file) r.mode r.fd fds).bind (inOrder path rs)

end

/-- The string at `q`, in a buffer that ends `n` bytes later. -/
def stringAt (buf : ℕ → UInt8) : ℕ → ℕ → List UInt8
  | 0, _ => []
  | n + 1, q => if buf q = 0 then [] else buf q :: stringAt buf n (q + 1)

/-- **A simple or a parenthesised command**: its tokens, what it runs, and its redirections from left to right. -/
inductive Command : List Tok → Cmd → List Redir → Prop
  | simple {ts : List Tok} {ws : List Span} {rs : List Redir} (h : Items ts ws rs) (hargs : ws.length < maxArgs) :
      Command ts (.exec ws) rs
  | block {ts us : List Tok} {c : Cmd} {rs : List Redir} (h : Derives .line ts c) (h' : Redirs us rs) :
      Command (.lparen :: (ts ++ .rparen :: us)) c rs

/-! ## What is performed -/

section

variable {F : Type} {sys : Sys F} {str : ℕ → List UInt8} {path : Span → List UInt8}

/-- **The redirections of a tree are performed from the outermost to the innermost**, which is the first in the line. -/
theorem runs_wrap (c : Cmd) {rs : List Redir} {fds fds' : Fds F} (hpath : ∀ r ∈ rs, str r.file.q = path r.file)
    (h : inOrder sys path rs.reverse fds = some fds') :
    (follow sys str)^[rs.length] (.run (wrap c rs) fds) = .run c fds' := by
  induction rs using List.reverseRecOn generalizing fds with
  | nil =>
    cases h
    rfl
  | append_singleton rs r ih =>
    rw [List.reverse_append, List.reverse_singleton, List.singleton_append, inOrder,
      ← hpath r (List.mem_append_right _ (List.mem_singleton_self r))] at h
    cases hr : redirect sys (str r.file.q) r.mode r.fd fds with
    | none =>
      rw [hr] at h
      cases h
    | some fds₁ =>
      rw [hr] at h
      have hwrap : follow sys str (.run (wrap c (rs ++ [r])) fds) = .run (wrap c rs) fds₁ := by
        simp [wrap, follow, runcmd, hr]
      rw [List.length_append, List.length_singleton, iterate_succ_apply, hwrap]
      exact ih (fun q hq => hpath q (List.mem_append_left _ hq)) h

def StdOpen (fds : Fds F) : Prop := (fds 0).isSome ∧ (fds 1).isSome

/-- **A redirection of `0` or `1` gives that descriptor its file**: it is the lowest that is free. -/
theorem redirect_eq {fds : Fds F} (h : StdOpen fds) {p : List UInt8} {mode fd : ℕ} (hfd : fd < 2) {f : F}
    (hf : sys.opens p mode = some f) : redirect sys p mode fd fds = some (update fds fd (some f)) := by
  have hfind : (List.range nofile).find? (fun d => (close fd fds d).isNone) = some fd := by
    rw [show List.range nofile = 0 :: 1 :: (List.range 14).map (· + 2) from by decide]
    interval_cases fd
    · simp [close]
    · obtain ⟨f₀, h₀⟩ := Option.isSome_iff_exists.1 h.1
      simp [close, h₀]
  rw [redirect, hf, Option.bind_some, fdalloc, hfind]
  simp [close]

def ofFd (d : ℕ) (rs : List Redir) : List Redir := rs.filter fun r => r.fd = d

/-- What is at a descriptor after redirections: the file of the last one. -/
def bound (opens : Redir → Option F) (d : ℕ) (rs : List Redir) (old : Option F) : Option F :=
  (ofFd d rs).getLast?.elim old opens

theorem inOrder_eq {rs : List Redir} {fds : Fds F} (h : StdOpen fds) (hfd : ∀ r ∈ rs, r.fd < 2)
    (hopen : ∀ r ∈ rs, (sys.opens (path r.file) r.mode).isSome) :
    ∃ fds', inOrder sys path rs fds = some fds' ∧
      ∀ d, fds' d = bound (fun r => sys.opens (path r.file) r.mode) d rs (fds d) := by
  induction rs generalizing fds with
  | nil => exact ⟨fds, rfl, fun d => rfl⟩
  | cons r rs ih =>
    obtain ⟨f, hf⟩ := Option.isSome_iff_exists.1 (hopen r List.mem_cons_self)
    have hr := redirect_eq h (hfd r List.mem_cons_self) hf
    have hstd : StdOpen (update fds r.fd (some f)) := by
      refine ⟨?_, ?_⟩
      all_goals
        rw [update_apply]
        split_ifs
        · rfl
      exacts [h.1, h.2]
    obtain ⟨fds', hrun, hbound⟩ := ih hstd (fun q hq => hfd q (List.mem_cons_of_mem _ hq))
      fun q hq => hopen q (List.mem_cons_of_mem _ hq)
    refine ⟨fds', by rw [inOrder, hr]; exact hrun, fun d => ?_⟩
    rw [hbound d, bound, bound, ofFd, ofFd]
    by_cases hd : r.fd = d
    · subst hd
      rw [List.filter_cons_of_pos (by simp), List.getLast?_cons]
      cases (rs.filter fun q => q.fd = r.fd).getLast? with
      | none => simp [hf]
      | some q => rfl
    · rw [List.filter_cons_of_neg (by simpa using hd), update_of_ne (Ne.symm hd)]

/-- **The first and the last redirection of `d` open the same file.** -/
def Agree (opens : Redir → Option F) (d : ℕ) (rs : List Redir) : Prop :=
  (ofFd d rs).head?.bind opens = (ofFd d rs).getLast?.bind opens

theorem bound_reverse_iff (opens : Redir → Option F) (d : ℕ) (rs : List Redir) (old : Option F) :
    bound opens d rs.reverse old = bound opens d rs old ↔ Agree opens d rs := by
  have hrev : ofFd d rs.reverse = (ofFd d rs).reverse := List.filter_reverse
  rw [bound, bound, Agree, hrev, List.getLast?_reverse]
  cases hl : ofFd d rs with
  | nil => simp
  | cons r l => simp [List.getLast?_cons]

end

/-! ## Lines -/

theorem stringAt_eq {buf : ℕ → UInt8} {q n : ℕ} {t : List UInt8} (h : ReadsAs buf q t) (hn : t.length < n) :
    stringAt buf n q = t := by
  induction t generalizing q n with
  | nil =>
    cases n with
    | zero => cases hn
    | succ n =>
      have h0 : buf q = 0 := h.2
      rw [stringAt, if_pos h0]
  | cons a t ih =>
    cases n with
    | zero => cases hn
    | succ n =>
      obtain ⟨ha, hne⟩ := h.1 0 (Nat.succ_pos _)
      have htail : ReadsAs buf (q + 1) t := by
        constructor
        · intro i hi
          rw [Nat.add_assoc, Nat.add_comm 1 i]
          exact h.1 (i + 1) (Nat.succ_lt_succ hi)
        · rw [Nat.add_assoc, Nat.add_comm 1]
          exact h.2
      rw [Nat.add_zero] at ha hne
      rw [stringAt, if_neg hne, ih htail (Nat.lt_of_succ_lt_succ hn)]
      exact congrArg (· :: t) ha

namespace Command

variable {ts : List Tok} {c : Cmd} {rs : List Redir}

theorem derives (h : Command ts c rs) : Derives .line ts (wrap c rs) := by
  have hexec : Derives .exec ts (wrap c rs) := by
    cases h with
    | simple h hargs => exact .simple h hargs
    | block h h' => exact .block h h'
  have := Derives.line 0 (.one hexec)
  rwa [List.replicate_zero, List.append_nil] at this

theorem fd_lt (h : Command ts c rs) : ∀ r ∈ rs, r.fd < 2 := by
  have hone : ∀ {t w r}, Redirects t w r → r.fd < 2 := by
    intro t w r hr
    cases hr <;> simp
  cases h with
  | simple h hargs =>
    clear hargs
    induction h with
    | nil => simp
    | redir hr _ ih => exact List.forall_mem_cons.2 ⟨hone hr, ih⟩
    | word _ ih => exact ih
  | block _ h' =>
    induction h' with
    | nil => simp
    | cons hr _ ih => exact List.forall_mem_cons.2 ⟨hone hr, ih⟩

end Command

section

variable {F : Type} {line : List UInt8} (hz : 0 ∉ line) {fuel : ℕ} (hfuel : 4 * line.length + 4 ≤ fuel) {n : ℕ}
  (hn : line.length < n) {c : Cmd} {rs : List Redir} (hc : Command (tokens line) c rs) (sys : Sys F)
  (hopen : ∀ r ∈ rs, (sys.opens (text line r.file) r.mode).isSome) {fds : Fds F} (hstd : StdOpen fds)

include hz hfuel hn hc hopen hstd

/-- **What `runcmd` does with the tree of a command**: the redirections in reverse order, then what the command runs. -/
theorem Command.runs : ∃ T buf fds₁ fds₂, parsecmd line fuel = .ok (T, buf) ∧
    (follow sys (stringAt buf n))^[rs.length] (.run T fds) = .run c fds₁ ∧
    inOrder sys (text line) rs fds = some fds₂ ∧
    (∀ d, fds₁ d = bound (fun r => sys.opens (text line r.file) r.mode) d rs.reverse (fds d)) ∧
    ∀ d, fds₂ d = bound (fun r => sys.opens (text line r.file) r.mode) d rs (fds d) := by
  have hd := hc.derives
  have hstr : ∀ r ∈ rs, stringAt (nulterminate (wrap c rs) (charAt line)) n r.file.q = text line r.file := by
    intro r hr
    refine stringAt_eq (hd.readsAs hz ?_) ?_
    · rw [words_wrap]
      exact List.mem_append_right _ (List.mem_map_of_mem hr)
    · refine lt_of_le_of_lt ?_ hn
      simp only [text, List.length_take, List.length_drop]
      omega
  obtain ⟨fds₁, hrun₁, h₁⟩ := inOrder_eq hstd (fun r hr => hc.fd_lt r (List.mem_reverse.1 hr))
    fun r hr => hopen r (List.mem_reverse.1 hr)
  obtain ⟨fds₂, hrun₂, h₂⟩ := inOrder_eq hstd hc.fd_lt hopen
  exact ⟨_, _, fds₁, fds₂, hd.parsecmd hz hfuel, runs_wrap c hstr hrun₁, hrun₂, h₁, h₂⟩

/-- **Redirections take effect from right to left.** When the tree of a command has been run up to what the command
runs, descriptors `0` and `1` are what the redirections from left to right would have made them exactly if the first and
the last redirection of each descriptor open the same file. -/
theorem redirs_in_order_iff : ∃ T buf, parsecmd line fuel = .ok (T, buf) ∧
    ((∃ fds₁ fds₂, (follow sys (stringAt buf n))^[rs.length] (.run T fds) = .run c fds₁ ∧
      inOrder sys (text line) rs fds = some fds₂ ∧ fds₁ 0 = fds₂ 0 ∧ fds₁ 1 = fds₂ 1) ↔
    ∀ d < 2, Agree (fun r => sys.opens (text line r.file) r.mode) d rs) := by
  obtain ⟨T, buf, fds₁, fds₂, hparse, hrun₁, hrun₂, h₁, h₂⟩ := hc.runs hz hfuel hn sys hopen hstd
  have hiff : ∀ d, fds₁ d = fds₂ d ↔ Agree (fun r => sys.opens (text line r.file) r.mode) d rs := by
    intro d
    rw [h₁, h₂]
    exact bound_reverse_iff _ d rs (fds d)
  refine ⟨T, buf, hparse, ?_, ?_⟩
  · rintro ⟨gds₁, gds₂, hg₁, hg₂, h0, h1⟩ d hd
    rw [hrun₁] at hg₁
    rw [hrun₂] at hg₂
    cases hg₁
    cases hg₂
    rw [← hiff d]
    interval_cases d
    · exact h0
    · exact h1
  · intro h
    exact ⟨fds₁, fds₂, hrun₁, hrun₂, (hiff 0).2 (h 0 (by decide)), (hiff 1).2 (h 1 (by decide))⟩

end

/-- `a`, a redirection of each of two files with names of one letter. -/
def twoRedirs (r r' : Char) : List UInt8 := ['a'.toUInt8, r.toUInt8, 'b'.toUInt8, r'.toUInt8, 'c'.toUInt8]

def anyFile : Sys (List UInt8) := ⟨fun path _ => some path, none, (true, true)⟩

def console : Fds (List UInt8) := fun fd => if fd < 3 then some [] else none

theorem redirs_in_order_iff_both : ∃ T buf fds₁, parsecmd (twoRedirs '<' '>') 32 = .ok (T, buf) ∧
    (follow anyFile (stringAt buf 100))^[2] (.run T console) = .run (.exec [⟨0, 1⟩]) fds₁ ∧
    fds₁ 0 = some ['b'.toUInt8] ∧ fds₁ 1 = some ['c'.toUInt8] := by
  have htoks : tokens (twoRedirs '<' '>') = [.word ⟨0, 1⟩, .lt, .word ⟨2, 3⟩, .gt, .word ⟨4, 5⟩] := by
    simp +decide [tokens, twoRedirs, lexAt, symbolTok]
  have hc : Command (tokens (twoRedirs '<' '>')) (.exec [⟨0, 1⟩]) [⟨⟨2, 3⟩, 0, 0⟩, ⟨⟨4, 5⟩, writeMode, 1⟩] := by
    rw [htoks]
    exact .simple (.word (.redir (.lt _) (.redir (.gt _) .nil))) (by decide)
  obtain ⟨T, buf, hparse, hiff⟩ := redirs_in_order_iff (by decide) (by decide : 4 * _ + 4 ≤ 32)
    (by decide : _ < 100) hc anyFile (fun _ _ => rfl) (show StdOpen console from ⟨rfl, rfl⟩)
  obtain ⟨fds₁, fds₂, hrun, hord, h0, h1⟩ := hiff.2 fun d hd => by
    interval_cases d <;> rfl
  have hval : (inOrder anyFile (text (twoRedirs '<' '>')) [⟨⟨2, 3⟩, 0, 0⟩, ⟨⟨4, 5⟩, writeMode, 1⟩] console).map
      (fun fds => (fds 0, fds 1)) = some (some ['b'.toUInt8], some ['c'.toUInt8]) := by decide +kernel
  rw [hord] at hval
  have hpair := Prod.mk.inj (Option.some.inj hval)
  exact ⟨T, buf, fds₁, hparse, hrun, h0.trans hpair.1, h1.trans hpair.2⟩

/-- **The first redirection wins.** `a>b>c` runs `a` with its output in `b`, although `>c` comes last. -/
theorem redirs_first_wins : ∃ T buf fds₁ fds₂, parsecmd (twoRedirs '>' '>') 32 = .ok (T, buf) ∧
    (follow anyFile (stringAt buf 100))^[2] (.run T console) = .run (.exec [⟨0, 1⟩]) fds₁ ∧
    inOrder anyFile (text (twoRedirs '>' '>')) [⟨⟨2, 3⟩, writeMode, 1⟩, ⟨⟨4, 5⟩, writeMode, 1⟩] console = some fds₂ ∧
    fds₁ 1 = some ['b'.toUInt8] ∧ fds₂ 1 = some ['c'.toUInt8] := by
  have htoks : tokens (twoRedirs '>' '>') = [.word ⟨0, 1⟩, .gt, .word ⟨2, 3⟩, .gt, .word ⟨4, 5⟩] := by
    simp +decide [tokens, twoRedirs, lexAt, symbolTok]
  have hc : Command (tokens (twoRedirs '>' '>')) (.exec [⟨0, 1⟩])
      [⟨⟨2, 3⟩, writeMode, 1⟩, ⟨⟨4, 5⟩, writeMode, 1⟩] := by
    rw [htoks]
    exact .simple (.word (.redir (.gt _) (.redir (.gt _) .nil))) (by decide)
  obtain ⟨T, buf, fds₁, fds₂, hparse, hrun, hord, h₁, h₂⟩ := hc.runs (by decide) (by decide : 4 * _ + 4 ≤ 32)
    (by decide : _ < 100) anyFile (fun _ _ => rfl) (show StdOpen console from ⟨rfl, rfl⟩)
  exact ⟨T, buf, fds₁, fds₂, hparse, hrun, hord, (h₁ 1).trans (by decide), (h₂ 1).trans (by decide)⟩

end Xv6.Sh

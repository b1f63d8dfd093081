import Mathlib

/-!
# The parser of the shell

The parser of `user/sh.c`, over a line of bytes. A pointer into the line is a position; the line ends at its length,
where the terminating NUL is. The functions that call themselves, and the loops that call them, get a number of turns
and stop when these do not suffice.

* `gettoken`, `peek`: the lexer, with the cursor passed along.
* `parseline`, `parsepipe`, `parseexec`, `parseblock`, `parseredirs`: the parser. An `execcmd` is filled while
  redirections are wrapped around it; here these are collected, and wrapped around it in the end.
* `nulterminate`, **`parsecmd`**.
-/

namespace Xv6.Sh

/-- A string in the line: where it begins, and the position after its last character. -/
structure Span where
  q : ℕ
  eq : ℕ
  deriving DecidableEq

inductive Cmd
  | exec (argv : List Span)
  | redir (cmd : Cmd) (file : Span) (mode fd : ℕ)
  | pipe (left right : Cmd)
  | list (left right : Cmd)
  | back (cmd : Cmd)
  deriving DecidableEq

/-- Why there is no tree: `panic`, or no more turns. -/
inductive Stop
  | panic (s : String)
  | turns

abbrev maxArgs : ℕ := 10

/-! ## The lexer -/

def whitespace : List UInt8 := [' '.toUInt8, '\t'.toUInt8, '\r'.toUInt8, '\n'.toUInt8, 11]

def symbols : List UInt8 :=
  ['<'.toUInt8, '|'.toUInt8, '>'.toUInt8, '&'.toUInt8, ';'.toUInt8, '('.toUInt8, ')'.toUInt8]

def isBlank (c : UInt8) : Bool := whitespace.contains c

def isWordChar (c : UInt8) : Bool := !isBlank c && !symbols.contains c

/-- `*s`. -/
def charAt (line : List UInt8) (s : ℕ) : UInt8 := line.getD s 0

/-- `while(s < es && p(*s)) s++`, when `es` is `k` bytes ahead. -/
def advanceBy (p : UInt8 → Bool) (line : List UInt8) : ℕ → ℕ → ℕ
  | 0, s => s
  | k + 1, s => if p (charAt line s) then advanceBy p line k (s + 1) else s

def advance (p : UInt8 → Bool) (line : List UInt8) (s : ℕ) : ℕ := advanceBy p line (line.length - s) s

/-- The `switch` of `gettoken`: the result, and where the token ends. -/
def tokenAt (line : List UInt8) (s : ℕ) : UInt8 × ℕ :=
  let c := charAt line s
  if c = 0 then (c, s)
  else if c = '|'.toUInt8 ∨ c = '('.toUInt8 ∨ c = ')'.toUInt8 ∨ c = ';'.toUInt8 ∨ c = '&'.toUInt8 ∨ c = '<'.toUInt8 then
    (c, s + 1)
  else if c = '>'.toUInt8 then
    if charAt line (s + 1) = '>'.toUInt8 then ('+'.toUInt8, s + 2) else (c, s + 1)
  else ('a'.toUInt8, advance isWordChar line s)

structure Got where
  ret : UInt8
  word : Span
  s : ℕ

def gettoken (line : List UInt8) (s : ℕ) : Got :=
  let q := advance isBlank line s
  let t := tokenAt line q
  ⟨t.1, ⟨q, t.2⟩, advance isBlank line t.2⟩

/-- The next character is one of `toks`; the cursor is moved to it. -/
def peek (line : List UInt8) (s : ℕ) (toks : List UInt8) : Bool × ℕ :=
  let s := advance isBlank line s
  (charAt line s ≠ 0 && toks.contains (charAt line s), s)

/-! ## The parser -/

/-- A redirection: the arguments of `redircmd`. -/
structure Redir where
  file : Span
  mode : ℕ
  fd : ℕ

/-- The redirections are wrapped around a command, one after the other. -/
def wrap (cmd : Cmd) (rs : List Redir) : Cmd := rs.foldl (fun c r => .redir c r.file r.mode r.fd) cmd

abbrev writeMode : ℕ := 0x001 ||| 0x200

/-- What the `switch` of `parseredirs` adds. -/
def redircmd (tok : UInt8) (file : Span) : List Redir :=
  if tok = '<'.toUInt8 then [⟨file, 0, 0⟩]
  else if tok = '>'.toUInt8 then [⟨file, writeMode, 1⟩]
  else if tok = '+'.toUInt8 then [⟨file, writeMode, 1⟩]
  else []

section

variable (line : List UInt8)

def parseredirs : ℕ → ℕ → Except Stop (List Redir × ℕ)
  | 0, _ => .error .turns
  | fuel + 1, s =>
    let p := peek line s ['<'.toUInt8, '>'.toUInt8]
    if p.1 then
      let tok := gettoken line p.2
      let file := gettoken line tok.s
      if file.ret ≠ 'a'.toUInt8 then .error (.panic "missing file for redirection")
      else do
        let r ← parseredirs fuel file.s
        .ok (redircmd tok.ret file.word ++ r.1, r.2)
    else .ok ([], p.2)

/-- The loop of `parseexec`, with the arguments so far: the arguments and redirections it adds. -/
def parseargs : ℕ → ℕ → ℕ → Except Stop ((List Span × List Redir) × ℕ)
  | 0, _, _ => .error .turns
  | fuel + 1, argc, s =>
    let p := peek line s ['|'.toUInt8, ')'.toUInt8, '&'.toUInt8, ';'.toUInt8]
    if p.1 then .ok (([], []), p.2)
    else
      let tok := gettoken line p.2
      if tok.ret = 0 then .ok (([], []), tok.s)
      else if tok.ret ≠ 'a'.toUInt8 then .error (.panic "syntax")
      else if argc + 1 ≥ maxArgs then .error (.panic "too many args")
      else do
        let r ← parseredirs line fuel tok.s
        let t ← parseargs fuel (argc + 1) r.2
        .ok ((tok.word :: t.1.1, r.1 ++ t.1.2), t.2)

def parsebacks : ℕ → Cmd → ℕ → Except Stop (Cmd × ℕ)
  | 0, _, _ => .error .turns
  | fuel + 1, cmd, s =>
    let p := peek line s ['&'.toUInt8]
    if p.1 then parsebacks fuel (.back cmd) (gettoken line p.2).s else .ok (cmd, p.2)

mutual

def parseline : ℕ → ℕ → Except Stop (Cmd × ℕ)
  | 0, _ => .error .turns
  | fuel + 1, s => do
    let c ← parsepipe fuel s
    let b ← parsebacks line fuel c.1 c.2
    let p := peek line b.2 [';'.toUInt8]
    if p.1 then do
      let r ← parseline fuel (gettoken line p.2).s
      .ok (.list b.1 r.1, r.2)
    else .ok (b.1, p.2)

def parsepipe : ℕ → ℕ → Except Stop (Cmd × ℕ)
  | 0, _ => .error .turns
  | fuel + 1, s => do
    let c ← parseexec fuel s
    let p := peek line c.2 ['|'.toUInt8]
    if p.1 then do
      let r ← parsepipe fuel (gettoken line p.2).s
      .ok (.pipe c.1 r.1, r.2)
    else .ok (c.1, p.2)

def parseexec : ℕ → ℕ → Except Stop (Cmd × ℕ)
  | 0, _ => .error .turns
  | fuel + 1, s =>
    let p := peek line s ['('.toUInt8]
    if p.1 then parseblock fuel p.2
    else do
      let r ← parseredirs line fuel p.2
      let t ← parseargs line fuel 0 r.2
      .ok (wrap (.exec t.1.1) (r.1 ++ t.1.2), t.2)

def parseblock : ℕ → ℕ → Except Stop (Cmd × ℕ)
  | 0, _ => .error .turns
  | fuel + 1, s =>
    let p := peek line s ['('.toUInt8]
    if p.1 then do
      let c ← parseline fuel (gettoken line p.2).s
      let p := peek line c.2 [')'.toUInt8]
      if p.1 then do
        let r ← parseredirs line fuel (gettoken line p.2).s
        .ok (wrap c.1 r.1, r.2)
      else .error (.panic "syntax - missing )")
    else .error (.panic "parseblock")

end

end

/-! ## The end of the strings -/

/-- NUL-terminate all the counted strings. -/
def nulterminate : Cmd → (ℕ → UInt8) → ℕ → UInt8
  | .exec argv, buf => argv.foldl (fun buf w => Function.update buf w.eq 0) buf
  | .redir cmd file _ _, buf => Function.update (nulterminate cmd buf) file.eq 0
  | .pipe left right, buf => nulterminate right (nulterminate left buf)
  | .list left right, buf => nulterminate right (nulterminate left buf)
  | .back cmd, buf => nulterminate cmd buf

/-- **`parsecmd`**: the tree, and the memory of the line afterwards. -/
def parsecmd (line : List UInt8) (fuel : ℕ) : Except Stop (Cmd × (ℕ → UInt8)) := do
  let c ← parseline line fuel 0
  let p := peek line c.2 []
  if p.2 ≠ line.length then .error (.panic "syntax") else .ok (c.1, nulterminate c.1 (charAt line))

end Xv6.Sh

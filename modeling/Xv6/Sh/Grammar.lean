import Xv6.Sh.Code

/-!
# The grammar of command lines

* `Tok`, `lexAt`: the tokens of a line. A word is as long as possible, and knows where it is in the line.
* `Redirs`, `Items`, **`Derives`**: the grammar, with the tree of each derivation.
-/

namespace Xv6.Sh

inductive Tok
  | bar
  | lparen
  | rparen
  | semi
  | amp
  | lt
  | gt
  | append
  | word (w : Span)

def symbolTok (c : UInt8) : Option Tok :=
  if c = '|'.toUInt8 then some .bar
  else if c = '('.toUInt8 then some .lparen
  else if c = ')'.toUInt8 then some .rparen
  else if c = ';'.toUInt8 then some .semi
  else if c = '&'.toUInt8 then some .amp
  else if c = '<'.toUInt8 then some .lt
  else none

/-- **The tokens of a text** that begins at position `i` of the line. -/
def lexAt (i : ℕ) : List UInt8 → List Tok
  | [] => []
  | c :: cs =>
    if isBlank c then lexAt (i + 1) cs
    else if c = '>'.toUInt8 then
      if cs.head? = some '>'.toUInt8 then .append :: lexAt (i + 2) cs.tail else .gt :: lexAt (i + 1) cs
    else
      match symbolTok c with
      | some t => t :: lexAt (i + 1) cs
      | none =>
        let n := (cs.takeWhile isWordChar).length
        .word ⟨i, i + 1 + n⟩ :: lexAt (i + 1 + n) (cs.dropWhile isWordChar)
termination_by cs => cs.length
decreasing_by
  all_goals simp only [List.length_cons, List.length_tail]
  all_goals first | omega | exact Nat.lt_succ_of_le (List.dropWhile_sublist _).length_le

def tokens (line : List UInt8) : List Tok := lexAt 0 line

inductive Redirects : Tok → Span → Redir → Prop
  | lt (w : Span) : Redirects .lt w ⟨w, 0, 0⟩
  | gt (w : Span) : Redirects .gt w ⟨w, writeMode, 1⟩
  | append (w : Span) : Redirects .append w ⟨w, writeMode, 1⟩

/-- `redir*`. -/
inductive Redirs : List Tok → List Redir → Prop
  | nil : Redirs [] []
  | cons {t : Tok} {w : Span} {r : Redir} {ts : List Tok} {rs : List Redir} (hr : Redirects t w r)
      (h : Redirs ts rs) : Redirs (t :: .word w :: ts) (r :: rs)

/-- `(redir | word)*`, with its words and redirections. -/
inductive Items : List Tok → List Span → List Redir → Prop
  | nil : Items [] [] []
  | redir {t : Tok} {w : Span} {r : Redir} {ts : List Tok} {ws : List Span} {rs : List Redir}
      (hr : Redirects t w r) (h : Items ts ws rs) : Items (t :: .word w :: ts) ws (r :: rs)
  | word {w : Span} {ts : List Tok} {ws : List Span} {rs : List Redir} (h : Items ts ws rs) :
      Items (.word w :: ts) (w :: ws) rs

inductive NonTerminal
  | line
  | pipe
  | exec

def backs (c : Cmd) : ℕ → Cmd
  | 0 => c
  | n + 1 => backs (.back c) n

/-- **The grammar.** `line ::= pipe '&'* [';' line]`; `pipe ::= exec ['|' pipe]`;
`exec ::= '(' line ')' redir* | (redir | word)*`, with fewer than `MAXARGS` words. -/
inductive Derives : NonTerminal → List Tok → Cmd → Prop
  | line {ts : List Tok} {c : Cmd} (n : ℕ) (h : Derives .pipe ts c) :
      Derives .line (ts ++ List.replicate n .amp) (backs c n)
  | list {ts us : List Tok} {c d : Cmd} (n : ℕ) (h : Derives .pipe ts c) (h' : Derives .line us d) :
      Derives .line (ts ++ (List.replicate n .amp ++ .semi :: us)) (.list (backs c n) d)
  | one {ts : List Tok} {c : Cmd} (h : Derives .exec ts c) : Derives .pipe ts c
  | pipe {ts us : List Tok} {c d : Cmd} (h : Derives .exec ts c) (h' : Derives .pipe us d) :
      Derives .pipe (ts ++ .bar :: us) (.pipe c d)
  | block {ts us : List Tok} {c : Cmd} {rs : List Redir} (h : Derives .line ts c) (h' : Redirs us rs) :
      Derives .exec (.lparen :: (ts ++ .rparen :: us)) (wrap c rs)
  | simple {ts : List Tok} {ws : List Span} {rs : List Redir} (h : Items ts ws rs) (hargs : ws.length < maxArgs) :
      Derives .exec ts (wrap (.exec ws) rs)

end Xv6.Sh

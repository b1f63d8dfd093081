import Xv6.Console.Code

/-!
# The line discipline

What the console is for: typed bytes go to a line that can be edited, a finished line goes to a queue, and readers
take bytes from the queue.

* `Desk`: the queue, the line, and the readers. `Desk.key`: a character is typed. `Desk.Step`: all that happens.
* `Tidy`: the three counters are at most `INPUT_BUF` apart, and no line on the way has a newline.
* **`view_consoleintr`**: the handler types a character.
* **`console_refines`**: every step of the code is a step of the desk, or none.
-/

namespace Xv6.Console

open Function Monitor Window Runs

/-! ## The desk -/

/-- A reader: at rest, reading `n` bytes with `got` in its hands, or back with a result. -/
inductive Reading
  | idle
  | reading (n : ℤ) (got : List UInt8)
  | done (r : ℤ) (got : List UInt8)

/-- **The queue of bytes for readers, the line that is edited, and the readers.** -/
structure Desk (P : Type) where
  queue : List UInt8
  line : List UInt8
  reads : P → Reading

namespace Desk

variable {P : Type} [DecidableEq P]

/-- A byte is added to the line, which goes to the queue when it ends or the buffer is full. -/
def add (a : Desk P) (b : UInt8) : Desk P :=
  if b = newline ∨ b = ctrlD ∨ a.queue.length + (a.line ++ [b]).length = inputBuf then
    { a with queue := a.queue ++ (a.line ++ [b]), line := [] }
  else { a with line := a.line ++ [b] }

def key (a : Desk P) (c : UInt8) : Desk P :=
  if c = 0 ∨ c = ctrlP then a
  else if c = ctrlU then { a with line := [] }
  else if c = ctrlH ∨ c = del then { a with line := a.line.dropLast }
  else if a.queue.length + a.line.length < inputBuf then a.add (if c = carriageReturn then newline else c)
  else a

def setRead (a : Desk P) (p : P) (x : Reading) : Desk P := { a with reads := update a.reads p x }

def setQueue (a : Desk P) (q : List UInt8) : Desk P := { a with queue := q }

inductive Event (P : Type)
  | key (c : UInt8)
  | call (p : P) (n : ℤ)
  | read (p : P)

/-- **What happens at the desk.** A reader takes bytes from the front of the queue, one at a time, and waits while
it is empty. It is done with a newline, with `n` bytes, or at `^D`, which it leaves in place when it has something.
A reader that is killed may go home while the queue is empty. -/
inductive Step (killed : P → Bool) (a : Desk P) : Event P → Desk P → Prop
  | key (c : UInt8) : Step killed a (.key c) (a.key c)
  | call (p : P) (n : ℤ) (h : ∀ k got, a.reads p ≠ .reading k got) :
      Step killed a (.call p n) (a.setRead p (.reading n []))
  | wait {p : P} {n : ℤ} {got : List UInt8} (h : a.reads p = .reading n got) (hn : got.length < n)
      (hq : a.queue = []) : Step killed a (.read p) a
  | take {p : P} {n : ℤ} {got q : List UInt8} {b : UInt8} (h : a.reads p = .reading n got) (hn : got.length < n)
      (hq : a.queue = b :: q) (hb : b ≠ ctrlD) (hne : b ≠ newline) :
      Step killed a (.read p) ((a.setQueue q).setRead p (.reading n (got ++ [b])))
  | takeLast {p : P} {n : ℤ} {got q : List UInt8} (h : a.reads p = .reading n got) (hn : got.length < n)
      (hq : a.queue = newline :: q) :
      Step killed a (.read p) ((a.setQueue q).setRead p (.done (got.length + 1) (got ++ [newline])))
  | full {p : P} {n : ℤ} {got : List UInt8} (h : a.reads p = .reading n got) (hn : n ≤ got.length) :
      Step killed a (.read p) (a.setRead p (.done got.length got))
  | eof {p : P} {n : ℤ} {q : List UInt8} (h : a.reads p = .reading n []) (hn : 0 < n) (hq : a.queue = ctrlD :: q) :
      Step killed a (.read p) ((a.setQueue q).setRead p (.done 0 []))
  | stop {p : P} {n : ℤ} {got q : List UInt8} (h : a.reads p = .reading n got) (hn : got.length < n)
      (hgot : got ≠ []) (hq : a.queue = ctrlD :: q) :
      Step killed a (.read p) (a.setRead p (.done got.length got))
  | giveUp {p : P} {n : ℤ} {got : List UInt8} (h : a.reads p = .reading n got) (hn : got.length < n)
      (hq : a.queue = []) (hk : killed p = true) : Step killed a (.read p) (a.setRead p (.done (-1) got))

end Desk

/-! ## The counters -/

theorem inputBuf_dvd : inputBuf ∣ 2 ^ 32 := by decide

namespace Cons

def queue (d : Cons) : List UInt8 := slice d.buf d.r d.w

def line (d : Cons) : List UInt8 := slice d.buf d.w d.e

end Cons

/-- **The counters are in order**, the histories agree, and no line has a newline before it is committed. -/
structure Tidy (d : Cons) : Prop where
  le : dist d.r d.w + dist d.w d.e ≤ inputBuf
  flow : d.taken ++ d.queue = d.committed
  plain : newline ∉ d.line

namespace Tidy

variable {d : Cons}

theorem init : Tidy Cons.init := by
  have hqueue : Cons.init.queue = [] := slice_self _ 0
  have hline : Cons.init.line = [] := slice_self _ 0
  refine ⟨by decide, ?_, ?_⟩
  · rw [hqueue]
    rfl
  · rw [hline]
    exact List.not_mem_nil

theorem dist_re (h : Tidy d) : dist d.r d.e = dist d.r d.w + dist d.w d.e := by
  refine dist_add ?_
  have := h.le
  simp only [inputBuf] at this
  omega

theorem room_iff (h : Tidy d) : d.e - d.r < 128 ↔ d.queue.length + d.line.length < inputBuf := by
  have hre : (d.e - d.r).toNat = d.queue.length + d.line.length := by
    rw [Cons.queue, Cons.line, length_slice, length_slice, ← h.dist_re]
    rfl
  rw [UInt32.lt_iff_toNat_lt, hre]
  rfl

theorem line_erase (hne : d.e ≠ d.w) : d.line = d.erase.line ++ [d.buf (cell inputBuf (d.e - 1))] :=
  slice_drop inputBuf_dvd (Ne.symm hne)

theorem erase (h : Tidy d) (hne : d.e ≠ d.w) : Tidy d.erase := by
  have hdist : dist d.w d.e = dist d.w (d.e - 1) + 1 := dist_pred (Ne.symm hne)
  refine ⟨?_, h.flow, fun hmem => h.plain ?_⟩
  · have := h.le
    change dist d.r d.w + dist d.w (d.e - 1) ≤ inputBuf
    omega
  · rw [line_erase hne]
    exact List.mem_append_left _ hmem

theorem killLoop (n : ℕ) {d : Cons} (h : Tidy d) (hn : dist d.w d.e = n) :
    Tidy (Cons.killLoop n d) ∧ (Cons.killLoop n d).queue = d.queue ∧ (Cons.killLoop n d).line = [] := by
  induction n generalizing d with
  | zero =>
    refine ⟨h, rfl, ?_⟩
    rw [← List.length_eq_zero_iff]
    change (slice d.buf d.w d.e).length = 0
    rw [length_slice, hn]
  | succ n ih =>
    have hne : d.e ≠ d.w := by
      intro he
      rw [he, dist_self] at hn
      cases hn
    have hlast : d.buf (cell inputBuf (d.e - 1)) ≠ newline := by
      intro he
      apply h.plain
      rw [line_erase hne, he]
      simp
    rw [Cons.killLoop, if_pos ⟨hne, hlast⟩]
    have hdist : dist d.w d.e = dist d.w (d.e - 1) + 1 := dist_pred (Ne.symm hne)
    exact ih (h.erase hne) (by change dist d.w (d.e - 1) = n; omega)

theorem append_line (hroom : d.queue.length + d.line.length < inputBuf) (c : UInt8) :
    (d.append c).line = d.line ++ [c] ∧ (d.append c).queue = d.queue := by
  rw [Cons.queue, Cons.line, length_slice, length_slice] at hroom
  have hlt : dist d.r d.w + dist d.w d.e < 2 ^ 32 := by
    simp only [inputBuf] at hroom
    omega
  have hw : dist d.w d.e < inputBuf := by omega
  have hw' : dist d.w d.e + 1 < 2 ^ 32 := by
    simp only [inputBuf] at hw
    omega
  exact ⟨slice_push inputBuf_dvd hw hw' c, slice_update inputBuf_dvd hroom hlt c⟩

theorem append_dist (hroom : d.queue.length + d.line.length < inputBuf) (c : UInt8) :
    dist (d.append c).w (d.append c).e = dist d.w d.e + 1 := by
  have hlen := congrArg List.length (append_line hroom c).1
  rw [Cons.line, length_slice, List.length_append, Cons.line, length_slice] at hlen
  exact hlen

theorem full_iff (h : Tidy d) (c : UInt8) :
    (d.append c).e = (d.append c).r + 128 ↔ d.queue.length + (d.line ++ [c]).length = inputBuf := by
  have hlen : d.queue.length + (d.line ++ [c]).length = dist d.r d.e + 1 := by
    rw [Cons.queue, Cons.line, List.length_append, length_slice, length_slice, h.dist_re, List.length_singleton]
    omega
  rw [hlen, dist_eq, inputBuf]
  change d.e + 1 = d.r + 128 ↔ _
  have hr := d.r.toNat_lt
  have he := d.e.toNat_lt
  have h128 : (d.r + 128).toNat = (d.r.toNat + 128) % 2 ^ 32 := UInt32.toNat_add ..
  rw [← UInt32.toNat_inj, h128, toNat_succ]
  omega

theorem append (h : Tidy d) (hroom : d.queue.length + d.line.length < inputBuf) {c : UInt8} (hc : c ≠ newline) :
    Tidy (d.append c) := by
  obtain ⟨hline, hqueue⟩ := Tidy.append_line hroom c
  refine ⟨?_, ?_, ?_⟩
  · rw [Tidy.append_dist hroom c]
    rw [Cons.queue, Cons.line, length_slice, length_slice] at hroom
    exact hroom
  · rw [hqueue]
    exact h.flow
  · rw [hline, List.mem_append, List.mem_singleton, not_or]
    exact ⟨h.plain, Ne.symm hc⟩

theorem commit (hle : dist d.r d.w + dist d.w d.e ≤ inputBuf) (hflow : d.taken ++ d.queue = d.committed) :
    Tidy d.commit ∧ d.commit.queue = d.queue ++ d.line ∧ d.commit.line = [] := by
  have hlt : dist d.r d.w + dist d.w d.e < 2 ^ 32 := by
    simp only [inputBuf] at hle
    omega
  have hqueue : d.commit.queue = d.queue ++ d.line := slice_append inputBuf_dvd hlt
  have hline : d.commit.line = [] := slice_self ..
  refine ⟨⟨?_, ?_, ?_⟩, hqueue, hline⟩
  · change dist d.r d.e + dist d.e d.e ≤ inputBuf
    rw [dist_self, dist_add hlt]
    exact hle
  · rw [hqueue]
    change d.taken ++ (d.queue ++ d.line) = d.committed ++ d.line
    rw [← List.append_assoc, hflow]
  · rw [hline]
    exact List.not_mem_nil

theorem next (h : Tidy d) (hne : d.r ≠ d.w) : Tidy d.next ∧ d.queue = d.front :: d.next.queue ∧ d.next.line = d.line := by
  have hqueue : d.queue = d.front :: d.next.queue := slice_pop inputBuf_dvd hne
  have hdist : dist d.r d.w = dist (d.r + 1) d.w + 1 := dist_pop hne
  refine ⟨⟨?_, ?_, h.plain⟩, hqueue, rfl⟩
  · have := h.le
    change dist (d.r + 1) d.w + dist d.w d.e ≤ inputBuf
    omega
  · change (d.taken ++ [d.front]) ++ d.next.queue = d.committed
    rw [List.append_assoc, List.singleton_append, ← hqueue, h.flow]

end Tidy

theorem Cons.putBack_next (d : Cons) : d.next.putBack = d := by
  unfold Cons.next Cons.putBack
  rw [add_sub_cancel_one, List.dropLast_concat]

/-! ## The handler types a character -/

section View

variable {P : Type} [DecidableEq P]

def Pc.view : Pc → Reading
  | .readTest _ target _ out => .reading target out
  | .readLeave target n out => .done (target - n) out
  | _ => .idle

def Ret.view : Ret → Reading
  | .read r out => .done r out
  | .intr => .idle

def place : At P Pc Unit Ret → Reading
  | .out none => .idle
  | .out (some r) => r.view
  | .spin l | .hold l | .waking _ _ l | .doze _ l | .asleep _ l => l.view

/-- **How the console looks from the desk.** Only processes read. -/
def view (procs : List P) (s : State P Cons Pc Unit Ret) : Desk P :=
  ⟨s.data.queue, s.data.line, fun p => if p ∈ procs then place (s.pos p) else .idle⟩

omit [DecidableEq P] in
theorem view_consoleintr {d : Cons} (h : Tidy d) (c : UInt8) (f : P → Reading) :
    Tidy (consoleintr c d).1 ∧
      (⟨(consoleintr c d).1.queue, (consoleintr c d).1.line, f⟩ : Desk P) = Desk.key ⟨d.queue, d.line, f⟩ c := by
  unfold consoleintr Desk.key
  by_cases hP : c = ctrlP
  · rw [if_pos hP, if_pos (.inr hP)]
    exact ⟨h, rfl⟩
  rw [if_neg hP]
  by_cases h0 : c = 0
  · subst h0
    rw [if_neg (by decide), if_neg (by decide), if_neg (fun hc => hc.1 rfl), if_pos (.inl rfl)]
    exact ⟨h, rfl⟩
  rw [if_neg (show ¬ (c = 0 ∨ c = ctrlP) from fun hc => hc.elim h0 hP)]
  by_cases hU : c = ctrlU
  · rw [if_pos hU, if_pos hU]
    obtain ⟨ht, hq, hl⟩ := h.killLoop _ rfl
    refine ⟨ht, ?_⟩
    change Desk.mk (Cons.killLoop _ d).queue (Cons.killLoop _ d).line f = _
    rw [hq, hl]
  rw [if_neg hU, if_neg hU]
  by_cases hH : c = ctrlH ∨ c = del
  · rw [if_pos hH, if_pos hH]
    by_cases he : d.e = d.w
    · have hl : d.line = [] := by rw [Cons.line, he, slice_self]
      rw [if_neg (not_not.2 he)]
      refine ⟨h, ?_⟩
      rw [hl]
      rfl
    · rw [if_pos he]
      refine ⟨h.erase he, ?_⟩
      change Desk.mk d.queue d.erase.line f = Desk.mk d.queue d.line.dropLast f
      rw [Tidy.line_erase he, List.dropLast_concat]
  rw [if_neg hH, if_neg hH]
  by_cases hroom : d.queue.length + d.line.length < inputBuf
  · rw [if_pos ⟨h0, h.room_iff.2 hroom⟩]
    change _ ∧ _ = if d.queue.length + d.line.length < inputBuf then _ else _
    rw [if_pos hroom]
    generalize (if c = carriageReturn then newline else c) = b
    obtain ⟨hline, hqueue⟩ := Tidy.append_line hroom b
    simp only [Desk.add, h.full_iff b]
    split_ifs with hend
    · have hle : dist (d.append b).r (d.append b).w + dist (d.append b).w (d.append b).e ≤ inputBuf := by
        rw [Tidy.append_dist hroom b]
        rw [Cons.queue, Cons.line, length_slice, length_slice] at hroom
        exact hroom
      have hflow : (d.append b).taken ++ (d.append b).queue = (d.append b).committed := by
        rw [hqueue]
        exact h.flow
      obtain ⟨ht, hq, hl⟩ := Tidy.commit hle hflow
      refine ⟨ht, ?_⟩
      rw [hq, hl, hqueue, hline]
    · refine ⟨h.append hroom fun hb => hend (.inl hb), ?_⟩
      rw [hline, hqueue]
  · rw [if_neg fun hc => hroom (h.room_iff.1 hc.2)]
    change _ ∧ _ = if d.queue.length + d.line.length < inputBuf then _ else _
    rw [if_neg hroom]
    exact ⟨h, rfl⟩

end View

/-! ## The steps of the code -/

section Refinement

variable {P : Type} [DecidableEq P] {procs : List P} {s s' : State P Cons Pc Unit Ret} {e : Ev P Pc} {p : P}

/-- **Processes read, with mapped buffers, and handlers type.** -/
def Calls (procs : List P) (_ : State P Cons Pc Unit Ret) : Ev P Pc → Prop
  | .call p l => (p ∉ procs ∧ ∃ c, l = .intr c) ∨
      (p ∈ procs ∧ ∃ dst n, (∀ i, dst i = true) ∧ l = consoleread dst n)
  | _ => True

/-- What an agent knows of its variables: `n` bytes are to come. -/
def Sane (procs : List P) (p : P) : Pc → Prop
  | .intr _ | .intrWake | .intrLeave => p ∉ procs
  | .readTest dst target n out => p ∈ procs ∧ (∀ i, dst i = true) ∧ n = target - out.length
  | .readLeave target n out => p ∈ procs ∧ n = target - out.length

omit [DecidableEq P] in
theorem console_outline : Outline (consoleCode procs) (Calls procs) Tidy (Sane procs)
    (fun p l d => Tidy d ∧ Sane procs p l) where
  call := by
    intro s p l hok
    rcases hok with ⟨hp, c, rfl⟩ | ⟨hp, dst, n, hdst, rfl⟩
    · exact hp
    · exact ⟨hp, hdst, by simp⟩
  enter := fun p l d _ hd hk => ⟨hd, hk⟩
  act := by
    rintro s p l - - ⟨hd, hk⟩
    change Keeps _ _ _ _ _ (act (s.killed p) l s.data)
    cases l with
    | intr c =>
      have ht := (view_consoleintr hd c fun _ : P => Reading.idle).1
      simp only [act]
      split
      · exact ⟨ht, hk⟩
      · exact ⟨ht, hk⟩
    | intrWake => exact ⟨hd, hk⟩
    | intrLeave => exact hd
    | readTest dst target n out =>
      obtain ⟨hp, hdst, hn⟩ := hk
      have hone : n - 1 = target - ((out ++ [s.data.front]).length : ℕ) := by
        rw [hn, List.length_append, List.length_singleton]
        push_cast
        omega
      simp only [act]
      split_ifs with hpos hempty hkilled heof hfirst hmap hnl
      · exact hd
      · exact ⟨hd, hp, hdst, hn⟩
      · rw [Cons.putBack_next]
        exact ⟨hd, hp, hn⟩
      · exact ⟨(hd.next hempty).1, hp, hn⟩
      · exact ⟨(hd.next hempty).1, hp, hone⟩
      · exact ⟨(hd.next hempty).1, hp, hdst, hone⟩
      · exact absurd (hdst _) hmap
      · exact ⟨hd, hp, hn⟩
    | readLeave target n out => exact hd
  env := nofun

def event (s : State P Cons Pc Unit Ret) : Ev P Pc → Option (Desk.Event P)
  | .call p (.readTest _ target _ _) => some (.call p target)
  | .run p =>
    match s.pos p with
    | .hold (.intr c) => some (.key c)
    | .hold (.readTest ..) => some (.read p)
    | _ => none
  | _ => none

/-- The step happens at the desk as this event, or nothing is seen of it there. -/
def Seen (killed : P → Bool) (a : Desk P) (a' : Desk P) : Option (Desk.Event P) → Prop
  | none => a' = a
  | some ev => Desk.Step killed a ev a'

omit [DecidableEq P] in
theorem place_rouse {a : At P Pc Unit Ret} {b : Unit → Bool} : place (a.rouse b) = place a := by
  cases a with
  | asleep c l =>
    simp only [At.rouse]
    split <;> rfl
  | _ => rfl

theorem view_put_same {a : At P Pc Unit Ret} {t : State P Cons Pc Unit Ret} (hpos : t.pos = s.pos)
    (hdata : t.data = s.data) (ha : p ∈ procs → place a = place (s.pos p)) : view procs (t.put p a) = view procs s := by
  unfold view
  rw [data_put, hdata]
  congr 1
  funext q
  by_cases hq : q = p
  · subst hq
    rw [pos_put_same]
    split_ifs with hmem
    · exact ha hmem
    · rfl
  · rw [pos_put_of_ne hq, hpos]

theorem view_put {a : At P Pc Unit Ret} {t : State P Cons Pc Unit Ret} (hp : p ∈ procs) (hpos : t.pos = s.pos) :
    view procs (t.put p a) =
      Desk.setRead ⟨t.data.queue, t.data.line, (view procs s).reads⟩ p (place a) := by
  unfold view Desk.setRead
  congr 1
  funext q
  by_cases hq : q = p
  · subst hq
    rw [pos_put_same, update_self, if_pos hp]
  · rw [pos_put_of_ne hq, update_of_ne hq, hpos]

theorem reads_view (hp : p ∈ procs) : (view procs s).reads p = place (s.pos p) := if_pos hp

theorem seen_go_read {dst : Dst} {target n : ℤ} {out : List UInt8} {d : Cons} {l' : Pc} (hd : Tidy s.data)
    (hk : Sane procs p (.readTest dst target n out)) (hp : s.pos p = .hold (.readTest dst target n out))
    (ha : act (s.killed p) (.readTest dst target n out) s.data = .go d l') :
    Desk.Step s.killed (view procs s) (.read p) (view procs ((s.setData d).put p (.hold l'))) := by
  obtain ⟨hmem, hdst, hn⟩ := hk
  have hreads : (view procs s).reads p = .reading target out := by
    rw [reads_view hmem, hp]
    rfl
  rw [view_put hmem (show (s.setData d).pos = s.pos from rfl)]
  simp only [act] at ha
  split_ifs at ha with hpos hempty hkilled heof hlater hmap hnl
  · -- `^D` after some bytes: it is put back
    rw [Cons.putBack_next] at ha
    cases ha
    have hone : target - n = out.length := by omega
    have hplace : place (.hold (.readLeave target n out) : At P Pc Unit Ret) = .done out.length out := by
      rw [← hone]
      rfl
    rw [hplace]
    refine .stop hreads (by omega) ?_ ((hd.next hempty).2.1.trans (by rw [heof]))
    rintro rfl
    simp at hone
    omega
  · cases ha
    have hnil : out = [] := by
      rw [← List.length_eq_zero_iff]
      omega
    subst hnil
    have hone : target - n = 0 := by simpa using by omega
    have hplace : place (.hold (.readLeave target n []) : At P Pc Unit Ret) = .done 0 [] := by
      rw [← hone]
      rfl
    rw [hplace]
    refine .eof hreads (by omega) ((hd.next hempty).2.1.trans ?_)
    rw [heof]
    rfl
  · cases ha
    have hone : target - (n - 1) = out.length + 1 := by omega
    have hplace : place (.hold (.readLeave target (n - 1) (out ++ [s.data.front])) : At P Pc Unit Ret) =
        .done (out.length + 1) (out ++ [newline]) := by
      rw [← hone, ← hnl]
      rfl
    rw [hplace]
    refine .takeLast hreads (by omega) ((hd.next hempty).2.1.trans ?_)
    rw [hnl]
    rfl
  · cases ha
    exact .take hreads (by omega) (hd.next hempty).2.1 heof hnl
  · exact absurd (hdst _) hmap
  · cases ha
    have hone : target - n = out.length := by omega
    have hplace : place (.hold (.readLeave target n out) : At P Pc Unit Ret) = .done out.length out := by
      rw [← hone]
      rfl
    rw [hplace]
    exact .full hreads (by omega)

/-- **Every step is seen at the desk as what it is.** -/
theorem seen_of_moves (hg : Good Tidy (Sane procs) (fun p l d => Tidy d ∧ Sane procs p l) s) (hok : Calls procs s e)
    (hm : Moves (consoleCode procs) s e s') : Seen s.killed (view procs s) (view procs s') (event s e) := by
  cases hm with
  | @call p l r hp =>
    rcases hok with ⟨hmem, c, rfl⟩ | ⟨hmem, dst, n, -, rfl⟩
    · exact view_put_same rfl rfl fun h => absurd h hmem
    · change Desk.Step _ _ (.call p n) _
      rw [view_put hmem (show s.pos = s.pos from rfl)]
      refine .call p n fun k got h => ?_
      rw [reads_view hmem, hp] at h
      cases r with
      | none => cases h
      | some r => cases r <;> cases h
  | @acquire p l hp _ _ => exact view_put_same rfl rfl fun _ => by rw [hp]; rfl
  | @go p l l' d hp ha =>
    obtain ⟨hd, hk⟩ := hg.held p l (by rw [hp]; rfl)
    change act (s.killed p) l s.data = .go d l' at ha
    cases l with
    | intr c =>
      simp only [event, hp, Seen]
      have hd' : d = (consoleintr c s.data).1 := by
        simp only [act] at ha
        split at ha <;> cases ha <;> rfl
      have hview : view procs ((s.setData d).put p (.hold l')) =
          ⟨d.queue, d.line, (view procs s).reads⟩ := by
        unfold view
        congr 1
        funext q
        by_cases hq : q = p
        · have hmem : p ∉ procs := hk
          rw [hq, if_neg hmem]
          exact (if_neg hmem).symm
        · rw [pos_put_of_ne hq]
          rfl
      rw [hview, hd', (view_consoleintr hd c (view procs s).reads).2]
      exact .key c
    | readTest dst target n out =>
      simp only [event, hp, Seen]
      exact seen_go_read hd hk hp ha
    | intrWake => cases ha
    | intrLeave => cases ha
    | readLeave target n out => cases ha
  | @wakeup p l l' c hp ha =>
    change act (s.killed p) l s.data = _ at ha
    cases l with
    | intrWake =>
      cases ha
      simp only [event, hp, Seen]
      exact view_put_same rfl rfl fun _ => by rw [hp]; rfl
    | intr c =>
      simp only [act] at ha
      split at ha <;> cases ha
    | readTest dst target n out =>
      simp only [act] at ha
      split_ifs at ha
    | intrLeave => cases ha
    | readLeave target n out => cases ha
  | @sleep p l l' c hp ha =>
    obtain ⟨hd, hk⟩ := hg.held p l (by rw [hp]; rfl)
    change act (s.killed p) l s.data = _ at ha
    cases l with
    | readTest dst target n out =>
      simp only [event, hp, Seen]
      simp only [act] at ha
      split_ifs at ha with hpos hempty hkilled
      cases ha
      have hsame : view procs ((s.setLock none).put p (.doze () (.readTest dst target n out))) = view procs s :=
        view_put_same rfl rfl fun _ => by rw [hp]; rfl
      rw [hsame]
      have hreads : (view procs s).reads p = .reading target out := by
        rw [reads_view hk.1, hp]
        rfl
      refine .wait hreads (by have := hk.2.2; omega) ?_
      change slice s.data.buf s.data.r s.data.w = []
      rw [hempty, slice_self]
    | intr c =>
      simp only [act] at ha
      split at ha <;> cases ha
    | intrWake => cases ha
    | intrLeave => cases ha
    | readLeave target n out => cases ha
  | @leave p l d r hp ha =>
    obtain ⟨hd, hk⟩ := hg.held p l (by rw [hp]; rfl)
    change act (s.killed p) l s.data = _ at ha
    cases l with
    | readTest dst target n out =>
      simp only [event, hp, Seen]
      simp only [act] at ha
      split_ifs at ha with hpos hempty hkilled
      cases ha
      have hreads : (view procs s).reads p = .reading target out := by
        rw [reads_view hk.1, hp]
        rfl
      rw [view_put hk.1 (show ((s.setData s.data).setLock none).pos = s.pos from rfl)]
      refine .giveUp hreads (by have := hk.2.2; omega) ?_ hkilled
      change slice s.data.buf s.data.r s.data.w = []
      rw [hempty, slice_self]
    | intr c =>
      simp only [act] at ha
      split at ha <;> cases ha
    | intrWake => cases ha
    | intrLeave =>
      cases ha
      simp only [event, hp, Seen]
      exact view_put_same rfl rfl fun _ => by rw [hp]; rfl
    | readLeave target n out =>
      cases ha
      simp only [event, hp, Seen]
      exact view_put_same rfl rfl fun _ => by rw [hp]; rfl
  | @woken p l c hp =>
    simp only [event, hp, Seen]
    exact view_put_same rfl rfl fun _ => by rw [hp]; rfl
  | @visit p q l c todo hp hq =>
    simp only [event, hp, Seen]
    have h₁ : view procs (s.put q ((s.pos q).rouse (· = c))) = view procs s :=
      view_put_same rfl rfl fun _ => place_rouse
    rw [← h₁]
    refine view_put_same rfl rfl fun _ => ?_
    by_cases hpq : p = q
    · subst hpq
      rw [pos_put_same, place_rouse, hp]
      rfl
    · rw [pos_put_of_ne hpq, hp]
      rfl
  | @fall p l c hp =>
    simp only [event, hp, Seen]
    exact view_put_same rfl rfl fun _ => by rw [hp]; rfl
  | @kill q hq => exact view_put_same rfl rfl fun _ => place_rouse
  | env hd => cases hd

/-! ## Sleepers -/

theorem counters_consoleintr {c : UInt8} {d : Cons} (h : (consoleintr c d).2 = false) :
    (consoleintr c d).1.r = d.r ∧ (consoleintr c d).1.w = d.w := by
  have hloop : ∀ n (d : Cons), (Cons.killLoop n d).r = d.r ∧ (Cons.killLoop n d).w = d.w := by
    intro n
    induction n with
    | zero => exact fun _ => ⟨rfl, rfl⟩
    | succ n ih =>
      intro d
      rw [Cons.killLoop]
      split_ifs
      · exact ih d.erase
      · exact ⟨rfl, rfl⟩
  simp only [consoleintr] at h ⊢
  split_ifs at h ⊢ <;> first | exact ⟨rfl, rfl⟩ | exact hloop _ d

def quiet (_ : Unit) (d : Cons) : Prop := d.r = d.w

def owes : Pc → Unit → Prop
  | .intrWake, _ => True
  | _, _ => False

omit [DecidableEq P] in
theorem console_telling : Telling (consoleCode procs) (Calls procs) (fun p l d => Tidy d ∧ Sane procs p l)
    quiet owes where
  act := by
    rintro s p l - - ⟨hd, hk⟩
    change Tells _ _ _ _ _ _ (act (s.killed p) l s.data)
    cases l with
    | intr c =>
      simp only [act]
      split
      · exact fun _ _ => .inr trivial
      · next hwake =>
        obtain ⟨hr, hw⟩ := counters_consoleintr (Bool.eq_false_iff.2 hwake)
        rintro u (hu | hu)
        · refine .inl ?_
          rw [quiet, hr, hw]
          exact hu
        · cases hu
    | intrWake => exact fun u hu => absurd rfl hu
    | intrLeave =>
      rintro u (hu | hu)
      · exact .inl hu
      · cases hu
    | readTest dst target n out =>
      simp only [act]
      split_ifs with hpos hempty hkilled heof hlater hmap hnl
      · exact fun u _ => .inl hempty
      · exact ⟨hk.1, hempty, nofun⟩
      · rw [Cons.putBack_next]
        exact fun u hu => hu.imp_right nofun
      · exact fun u hu => absurd (hu.resolve_right nofun) hempty
      · exact fun u hu => absurd (hu.resolve_right nofun) hempty
      · exact fun u hu => absurd (hu.resolve_right nofun) hempty
      · exact fun u hu => absurd (hu.resolve_right nofun) hempty
      · exact fun u hu => hu.imp_right nofun
    | readLeave target n out =>
      rintro u (hu | hu)
      · exact .inl hu
      · cases hu
  env := nofun

/-- **The console is a desk.** In every run its queue and its line fit into the buffer, every committed byte was
taken once and in order or is still in the queue, every step is what it should be at the desk, and nobody sleeps
while there is something in the queue. -/
theorem console_refines (h : Reach (step (consoleCode procs)) (Calls procs) (.start Cons.init) s) :
    (view procs s).queue.length + (view procs s).line.length ≤ inputBuf ∧
      s.data.taken ++ (view procs s).queue = s.data.committed ∧
      (∀ e s', Calls procs s e → step (consoleCode procs) s e = some s' →
        Seen s.killed (view procs s) (view procs s') (event s e)) ∧
      (s.lock = none → ∀ p l, s.pos p = .asleep () l → (view procs s).queue = []) := by
  have hgood := console_outline.good_of_reach .init h
  have htidy := hgood.data fun _ _ _ hj => hj.1
  refine ⟨?_, htidy.flow, ?_, ?_⟩
  · change s.data.queue.length + s.data.line.length ≤ inputBuf
    rw [Cons.queue, Cons.line, length_slice, length_slice]
    exact htidy.le
  · exact fun e s' hok hs => seen_of_moves hgood hok (moves_of_step hs)
  · intro hlock p l hp
    have hquiet : s.data.r = s.data.w :=
      console_telling.quiet_of_reach console_outline .init h hlock (q := p) (c := ()) (by rw [hp]; rfl)
    change slice s.data.buf s.data.r s.data.w = []
    rw [hquiet, slice_self]

end Refinement

/-! ## A line is typed and read -/

/-- Handler `1` types a character, in `n` steps after it has the lock. -/
def typeKey (c : UInt8) (n : ℕ) : List (Ev (Fin 2) Pc) :=
  .call 1 (.intr c) :: .acquire 1 :: List.replicate n (.run 1)

def keys : List (UInt8 × ℕ) := [(0x68, 2), (0x6a, 2), (0x08, 2), (0x69, 2), (0x0d, 5)]

/-- They are typed, and process `0` reads. -/
def typed : List (Ev (Fin 2) Pc) :=
  keys.flatMap (fun k => typeKey k.1 k.2) ++
    .call 0 (consoleread (fun _ => true) 10) :: .acquire 0 :: List.replicate 4 (.run 0)

theorem typed_calls (s : State (Fin 2) Cons Pc Unit Ret) : ∀ e ∈ typed, Calls [0] s e := by
  intro e he
  rcases List.mem_append.1 he with he | he
  · obtain ⟨c, n, -, he⟩ : ∃ c n, (c, n) ∈ keys ∧ e ∈ typeKey c n := by
      simpa only [List.mem_flatMap, Prod.exists] using he
    rcases List.mem_cons.1 he with rfl | he
    · exact .inl ⟨by decide, c, rfl⟩
    rcases List.mem_cons.1 he with rfl | he
    · trivial
    · rw [List.eq_of_mem_replicate he]
      trivial
  · rcases List.mem_cons.1 he with rfl | he
    · exact .inr ⟨by decide, _, _, fun _ => rfl, rfl⟩
    rcases List.mem_cons.1 he with rfl | he
    · trivial
    · rw [List.eq_of_mem_replicate he]
      trivial

theorem console_refines_typed : ∃ s : State (Fin 2) Cons Pc Unit Ret,
    Reach (step (consoleCode [0])) (Calls [0]) (.start Cons.init) s ∧ s.data.committed = [0x68, 0x69, 0x0a] ∧
      s.data.taken ++ (view [0] s).queue = s.data.committed := by
  have hrun : (exec (step (consoleCode [0])) (.start Cons.init) typed).any
      (fun s => decide (s.data.committed = [0x68, 0x69, 0x0a])) = true := by decide +kernel
  obtain ⟨s, hs, hd⟩ := Reach.of_exec_any typed_calls hrun
  exact ⟨s, hs, of_decide_eq_true hd, (console_refines hs).2.1⟩

end Xv6.Console

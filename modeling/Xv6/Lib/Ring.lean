import Xv6.Lib.Dlist

/-!
# Circular lists through a head

A circular doubly linked list (`Dlist.Ring`) over nodes `α` and a head, which is `none` here.

* `Links`, `unlink`, `insertHead`, `scanNext`, `scanPrev`.
* `Lists r l`: following `next` from the head passes exactly the nodes of `l`, in that order, and
  `prev` goes back the same way.
* **`Lists.unlink`**, **`Lists.insertHead`**: what the pointer assignments do to the list.
* **`Lists.scanNext_eq`**, **`Lists.scanPrev_eq`**: a scan is a search in the list.
-/

namespace Ring

open Function

variable {α : Type}

abbrev Links (α : Type) : Type := Dlist.Links (Option α)

namespace Links

def empty : Links α := ⟨fun _ => none, fun _ => none⟩

def unlink [DecidableEq α] (r : Links α) (b : α) : Links α :=
  let r := { r with prev := update r.prev (r.next (some b)) (r.prev (some b)) }
  { r with next := update r.next (r.prev (some b)) (r.next (some b)) }

def insertHead [DecidableEq α] (r : Links α) (b : α) : Links α := r.push none (some b)

/-- Follow a pointer from a node to the first node that passes the test, or to the head. -/
def scan (step : Option α → Option α) (test : α → Bool) : ℕ → Option α → Option α
  | 0, _ => none
  | _ + 1, none => none
  | k + 1, some b => if test b then some b else scan step test k (step (some b))

theorem test_of_scan {step : Option α → Option α} {test : α → Bool} {k : ℕ} {x : Option α} {b : α}
    (h : scan step test k x = some b) : test b = true := by
  induction k generalizing x with
  | zero => cases h
  | succ k ih =>
    cases x with
    | none => cases h
    | some a =>
      rw [scan] at h
      split_ifs at h with ha
      · cases h
        exact ha
      · exact ih h

/-- The first node from `head.next` on that passes the test, among at most `k`. -/
def scanNext (r : Links α) (test : α → Bool) (k : ℕ) : Option α :=
  scan r.next test (k + 1) (r.next none)

/-- The first node from `head.prev` back that passes the test, among at most `k`. -/
def scanPrev (r : Links α) (test : α → Bool) (k : ℕ) : Option α :=
  scan r.prev test (k + 1) (r.prev none)

def flip (r : Links α) : Links α := ⟨r.prev, r.next⟩

end Links

open Links

/-- **The pointers list `l`.** -/
def Lists (r : Links α) (l : List α) : Prop := Dlist.Ring r none (l.map some)

def around (l : List α) : List (Option α) := none :: (l.map some ++ [none])

section

variable {r : Links α} {l : List α} {b : α}

theorem Lists.nodup (h : Lists r l) : l.Nodup := .of_map some (List.nodup_cons.1 (Dlist.Ring.nodup h)).2

theorem Lists.chain (h : Lists r l) : (around l).IsChain r.Adj := Dlist.Ring.chain h

/-- **`unlink`** takes the node out of the list: the order of the two assignments does not matter. -/
theorem Lists.unlink [DecidableEq α] (h : Lists r l) (hb : b ∈ l) :
    Lists (r.unlink b) (l.erase b) := by
  have hb : some b ∈ l.map some := List.mem_map_of_mem hb
  obtain ⟨hprev, hnext⟩ := Dlist.Ring.ne_neighbours h hb
  have heq : r.unlink b = r.remove (some b) := by
    simp [Links.unlink, Dlist.Links.remove, update_of_ne hprev, update_of_ne hnext]
  rw [Lists, heq, List.map_erase (Option.some_injective α)]
  convert Dlist.Ring.remove h hb

theorem Lists.insertHead [DecidableEq α] (h : Lists r l) (hb : b ∉ l) :
    Lists (r.insertHead b) (b :: l) := Dlist.Ring.push h (by simp [hb])

theorem lists_empty : Lists (Links.empty : Links α) [] :=
  ⟨List.isChain_pair.2 ⟨rfl, rfl⟩, List.nodup_singleton none⟩

/-! ## Walking the list -/

theorem Lists.flip (h : Lists r l) : Lists r.flip l.reverse := by
  constructor
  · have haround : around l.reverse = (around l).reverse := by
      simp [around]
    change (around l.reverse).IsChain _
    rw [haround, List.isChain_reverse]
    exact h.chain.imp fun x y hxy => ⟨hxy.2, hxy.1⟩
  · rw [List.map_reverse, List.nodup_cons, List.nodup_reverse, List.mem_reverse]
    exact List.nodup_cons.1 (Dlist.Ring.nodup h)

theorem scan_eq (test : α → Bool) {x : Option α} {k : ℕ} (hk : l.length ≤ k)
    (h : (x :: (l.map some ++ [none])).IsChain r.Adj) :
    scan r.next test (k + 1) (r.next x) = l.find? test := by
  induction l generalizing x k with
  | nil =>
    rw [(List.isChain_pair.1 h).1]
    rfl
  | cons a l ih =>
    obtain ⟨hxa, h⟩ := List.isChain_cons_cons.1 h
    obtain ⟨k, rfl⟩ : ∃ k', k = k' + 1 := ⟨k - 1, by rw [List.length_cons] at hk; omega⟩
    rw [hxa.1, scan, List.find?_cons]
    split
    · next ha => rw [ha]
    · next ha =>
      rw [Bool.not_eq_true] at ha
      rw [ha, ih (Nat.le_of_succ_le_succ hk) h]

theorem Lists.scanNext_eq (h : Lists r l) (test : α → Bool) {k : ℕ} (hk : l.length ≤ k) :
    r.scanNext test k = l.find? test :=
  scan_eq test hk h.chain

theorem Lists.scanPrev_eq (h : Lists r l) (test : α → Bool) {k : ℕ} (hk : l.length ≤ k) :
    r.scanPrev test k = l.reverse.find? test :=
  h.flip.scanNext_eq test (by rwa [List.length_reverse])

theorem Lists.iterate_next (h : Lists r l) {k : ℕ} (hk : k < (around l).length) :
    r.next^[k] none = (around l)[k] := by
  induction k with
  | zero => rfl
  | succ k ih =>
    rw [iterate_succ_apply', ih (by omega)]
    exact (h.chain.getElem k hk).1

theorem Lists.iterate_eq (h : Lists r l) {k : ℕ} (hk : k < l.length) :
    r.next^[k + 1] none = some l[k] := by
  rw [h.iterate_next (by simp [around]; omega)]
  simp [around, hk]

theorem Lists.iterate_length (h : Lists r l) : r.next^[l.length + 1] none = none := by
  rw [h.iterate_next (by simp [around])]
  simp [around]

theorem Lists.prev_next (h : Lists r l) {x : Option α} (hx : x ∈ none :: l.map some) :
    r.prev (r.next x) = x := by
  have hlast : (around l).dropLast = none :: l.map some := by
    rw [around, ← List.cons_append, List.dropLast_concat]
  rw [← hlast, List.mem_iff_getElem] at hx
  obtain ⟨i, hi, rfl⟩ := hx
  rw [List.length_dropLast] at hi
  rw [List.getElem_dropLast]
  have hadj := h.chain.getElem i (by omega)
  rw [hadj.1]
  exact hadj.2

end

end Ring

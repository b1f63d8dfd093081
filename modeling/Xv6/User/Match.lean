import Xv6.Param

/-!
# The matcher of `grep`

`match`, `matchhere` and `matchstar` of `user/grep.c`. Strings are the lists of their bytes before the NUL,
so that `re[1]` is the NUL when `re` has one byte.

* `Item`, `items`: a pattern read from left to right. `Item.lang`: the language of an item, in Mathlib's
  algebra of languages; `Fits`: a text begins with a string of a pattern's language.
* **`matchhere_iff`**: `matchhere` decides `Fits`. **`match_iff`**: `match` finds the pattern in the text.
-/

namespace Xv6.User

open Computability

def star : UInt8 := 42
def dot : UInt8 := 46
def dollar : UInt8 := 36
def caret : UInt8 := 94

/-- Text `t` is one that the pattern's character `c` stands for. -/
def Stands (c t : UInt8) : Prop := c = dot ∨ c = t

instance instDecidableStands (c t : UInt8) : Decidable (Stands c t) := inferInstanceAs (Decidable (_ ∨ _))

/-! ## The code -/

/-- `matchstar(c, re, text)`, where `here` is `matchhere(re, ·)`. -/
def matchstar (c : UInt8) (here : List UInt8 → Bool) : List UInt8 → Bool
  | [] => here []
  | t :: text => here (t :: text) || (decide (Stands c t) && matchstar c here text)

/-- The last test of `matchhere`: one character, and then the rest of the pattern. -/
def matchone (c : UInt8) (here : List UInt8 → Bool) : List UInt8 → Bool
  | [] => false
  | t :: text => decide (Stands c t) && here text

def matchhere : List UInt8 → List UInt8 → Bool
  | [], _ => true
  | [c], text => if c = dollar then text.isEmpty else matchone c (matchhere []) text
  | c :: d :: re, text =>
    if d = star then matchstar c (matchhere re) text else matchone c (matchhere (d :: re)) text

def matchloop (here : List UInt8 → Bool) : List UInt8 → Bool
  | [] => here []
  | t :: text => here (t :: text) || matchloop here text

def grepMatch (re text : List UInt8) : Bool :=
  if re.head? = some caret then matchhere re.tail text else matchloop (matchhere re) text

/-! ## Patterns -/

/-- A character, a repeated character, or the end of the text. -/
inductive Item
  | one (c : UInt8)
  | many (c : UInt8)
  | stop
  deriving DecidableEq

/-- **A pattern read from left to right.** -/
def items : List UInt8 → List Item
  | [] => []
  | [c] => if c = dollar then [.stop] else [.one c]
  | c :: d :: re => if d = star then .many c :: items re else .one c :: items (d :: re)

def oneLang (c : UInt8) : Language UInt8 := {w | ∃ t, Stands c t ∧ w = [t]}

def Item.lang : Item → Language UInt8
  | .one c => oneLang c
  | .many c => (oneLang c)∗
  | .stop => 1

/-- **A text begins with a string of the language**, which is all of it if the pattern asks for the end. -/
def Fits (is : List Item) (text : List UInt8) : Prop :=
  ∃ w post, text = w ++ post ∧ w ∈ (is.map Item.lang).prod ∧ (.stop ∈ is → post = [])

variable {c : UInt8} {is : List Item} {text : List UInt8} {here : List UInt8 → Bool}

theorem fits_nil (text : List UInt8) : Fits [] text := ⟨[], text, rfl, rfl, by simp⟩

theorem fits_stop : Fits [.stop] text ↔ text = [] := by
  constructor
  · rintro ⟨w, post, rfl, hw, hstop⟩
    have hw : w = [] := by simpa [Item.lang] using hw
    rw [hw, hstop List.mem_cons_self, List.append_nil]
  · rintro rfl
    exact ⟨[], [], rfl, by simp [Item.lang], fun _ => rfl⟩

theorem fits_cons {i : Item} (hi : i ≠ .stop) : Fits (i :: is) text ↔
    ∃ v rest, text = v ++ rest ∧ v ∈ i.lang ∧ Fits is rest := by
  have hmem : Item.stop ∈ i :: is ↔ .stop ∈ is := by simp [hi.symm]
  unfold Fits
  rw [hmem, List.map_cons, List.prod_cons]
  constructor
  · rintro ⟨w, post, rfl, hw, hstop⟩
    obtain ⟨v, hv, u, hu, rfl⟩ := Language.mem_mul.1 hw
    exact ⟨v, u ++ post, List.append_assoc .., hv, u, post, rfl, hu, hstop⟩
  · rintro ⟨v, rest, rfl, hv, u, post, rfl, hu, hstop⟩
    exact ⟨v ++ u, post, (List.append_assoc ..).symm, Language.append_mem_mul hv hu, hstop⟩

theorem mem_oneLang_kstar {w : List UInt8} : w ∈ (oneLang c)∗ ↔ ∀ t ∈ w, Stands c t := by
  constructor
  · rintro ⟨L, rfl, hL⟩ t ht
    obtain ⟨v, hv, ht⟩ := List.mem_flatten.1 ht
    obtain ⟨u, hu, rfl⟩ := hL v hv
    rwa [List.mem_singleton.1 ht]
  · intro h
    refine ⟨w.map fun t => [t], by rw [← List.flatMap_def, List.flatMap_singleton'], fun v hv => ?_⟩
    obtain ⟨t, ht, rfl⟩ := List.mem_map.1 hv
    exact ⟨t, h t ht, rfl⟩

/-! ## The matcher -/

theorem matchone_iff : matchone c here text = true ↔
    ∃ v rest, text = v ++ rest ∧ v ∈ (Item.one c).lang ∧ here rest = true := by
  constructor
  · intro h
    cases text with
    | nil => cases h
    | cons t text =>
      simp only [matchone, Bool.and_eq_true, decide_eq_true_eq] at h
      exact ⟨[t], text, rfl, ⟨t, h.1, rfl⟩, h.2⟩
  · rintro ⟨v, rest, rfl, ⟨t, ht, rfl⟩, hrest⟩
    simp [matchone, ht, hrest]

theorem matchstar_iff : matchstar c here text = true ↔
    ∃ v rest, text = v ++ rest ∧ v ∈ (Item.many c).lang ∧ here rest = true := by
  simp only [Item.lang, mem_oneLang_kstar]
  induction text with
  | nil =>
    refine ⟨fun h => ⟨[], [], rfl, by simp, h⟩, ?_⟩
    rintro ⟨v, rest, h, -, hrest⟩
    rwa [(List.append_eq_nil_iff.1 h.symm).2] at hrest
  | cons t text ih =>
    rw [matchstar, Bool.or_eq_true, Bool.and_eq_true, decide_eq_true_eq, ih]
    constructor
    · rintro (h | ⟨ht, v, rest, rfl, hv, hrest⟩)
      · exact ⟨[], t :: text, rfl, by simp, h⟩
      · exact ⟨t :: v, rest, rfl, List.forall_mem_cons.2 ⟨ht, hv⟩, hrest⟩
    · rintro ⟨v, rest, h, hv, hrest⟩
      cases v with
      | nil => exact .inl (h ▸ hrest)
      | cons u v =>
        obtain ⟨rfl, rfl⟩ := List.cons.inj h
        exact .inr ⟨hv t List.mem_cons_self, v, rest, rfl, fun a ha => hv a (List.mem_cons_of_mem _ ha), hrest⟩

theorem matchloop_iff : matchloop here text = true ↔ ∃ pre rest, text = pre ++ rest ∧ here rest = true := by
  induction text with
  | nil =>
    refine ⟨fun h => ⟨[], [], rfl, h⟩, ?_⟩
    rintro ⟨pre, rest, h, hrest⟩
    rwa [(List.append_eq_nil_iff.1 h.symm).2] at hrest
  | cons t text ih =>
    rw [matchloop, Bool.or_eq_true, ih]
    constructor
    · rintro (h | ⟨pre, rest, rfl, hrest⟩)
      · exact ⟨[], t :: text, rfl, h⟩
      · exact ⟨t :: pre, rest, rfl, hrest⟩
    · rintro ⟨pre, rest, h, hrest⟩
      cases pre with
      | nil => exact .inl (h ▸ hrest)
      | cons u pre => exact .inr ⟨pre, rest, (List.cons.inj h).2, hrest⟩

/-- **`matchhere`** finds out whether the text begins with what the pattern describes. -/
theorem matchhere_iff : ∀ re text, matchhere re text = true ↔ Fits (items re) text
  | [], text => iff_of_true rfl (fits_nil text)
  | [c], text => by
    rw [matchhere, items]
    split_ifs with hc
    · rw [List.isEmpty_iff, fits_stop]
    · rw [matchone_iff, fits_cons (by simp)]
      simp only [matchhere_iff []]
      rfl
  | c :: d :: re, text => by
    rw [matchhere, items]
    split_ifs with hd
    · rw [matchstar_iff, fits_cons (by simp)]
      simp only [matchhere_iff re]
    · rw [matchone_iff, fits_cons (by simp)]
      simp only [matchhere_iff (d :: re)]

/-- **`match` is correct**: it returns 1 exactly if the text has a part (the first part, if the pattern
begins with `^`; the last part, if it ends with `$`) in the language of the pattern. -/
theorem match_iff (re text : List UInt8) :
    grepMatch re text = true ↔ ∃ is pre w post,
      is = items (if re.head? = some caret then re.tail else re) ∧ text = pre ++ w ++ post ∧
        w ∈ (is.map Item.lang).prod ∧ (.stop ∈ is → post = []) ∧ (re.head? = some caret → pre = []) := by
  unfold grepMatch
  split_ifs with hc
  · rw [matchhere_iff]
    constructor
    · rintro ⟨w, post, rfl, hw, hstop⟩
      exact ⟨_, [], w, post, rfl, rfl, hw, hstop, fun _ => rfl⟩
    · rintro ⟨_, pre, w, post, rfl, rfl, hw, hstop, hpre⟩
      rw [hpre hc]
      exact ⟨w, post, rfl, hw, hstop⟩
  · rw [matchloop_iff]
    simp only [matchhere_iff]
    constructor
    · rintro ⟨pre, _, rfl, w, post, rfl, hw, hstop⟩
      exact ⟨_, pre, w, post, rfl, (List.append_assoc ..).symm, hw, hstop, fun h => absurd h hc⟩
    · rintro ⟨_, pre, w, post, rfl, rfl, hw, hstop, -⟩
      exact ⟨pre, w ++ post, List.append_assoc .., w, post, rfl, hw, hstop⟩

end Xv6.User

import Xv6.Virtio.Code

/-!
# Descriptors and chains

Who has which descriptors, and what a chain looks like while it is under way.

* `Owning`: a descriptor is taken exactly while one call has it. **`Owning.move`**: the rule for a call that takes
  and gives back descriptors.
* `Links`, `Chain`: a formatted chain. `Chain.chainBuf`, `Chain.chainStat`: what the device reads from it.
-/

namespace Xv6.Virtio

open Function Monitor Window

variable {B P : Type} [DecidableEq B] [DecidableEq P]

/-! ## Who has which descriptors -/

namespace Pc

def owns : Pc B → List (Fin num)
  | alloc _ _ got => got
  | undo _ _ todo | undoWake _ _ todo => todo
  | fill _ _ i j k | publish _ i j k | wait _ i j k | finish i j k => [i, j, k]
  | freeDesc _ rest | freeWake _ rest | freeNext _ rest => rest
  | intrTest | intrWake _ | intrNext => []

/-- The buffer a call is about, until it has seen that the disk is done with it. -/
def buf : Pc B → Option B
  | alloc b _ _ | undo b _ _ | undoWake b _ _ | fill b _ _ _ _ | publish b _ _ _ | wait b _ _ _ => some b
  | _ => none

def Away : Pc B → Prop
  | alloc _ _ got => got = []
  | wait _ _ _ _ | intrTest => True
  | _ => False

/-- An entry of the used ring is handled, and `used_idx` does not show it yet. -/
def lags : Pc B → Bool
  | intrWake _ | intrNext => true
  | _ => false

end Pc

def ownsOf (o : Option (Pc B)) : List (Fin num) := o.elim [] Pc.owns

/-- **A descriptor is taken exactly while one call has it.** -/
structure Owning (free : Fin num → Bool) (c : P → Option (Pc B)) : Prop where
  owned : ∀ i, free i = false ↔ ∃ p l, c p = some l ∧ i ∈ l.owns
  nodup : ∀ p l, c p = some l → l.owns.Nodup
  apart : ∀ p q l k i, c p = some l → c q = some k → i ∈ l.owns → i ∈ k.owns → p = q

section

variable {free free' : Fin num → Bool} {c : P → Option (Pc B)} {p : P} {l l' : Pc B} {o : Option (Pc B)}

section

omit [DecidableEq B]

theorem mem_ownsOf {i : Fin num} : i ∈ ownsOf o ↔ ∃ l, o = some l ∧ i ∈ l.owns := by
  cases o <;> simp [ownsOf]

/-- **A call takes free descriptors and gives back its own.** -/
theorem Owning.move (h : Owning free c) (hnodup : (ownsOf o).Nodup)
    (hnew : ∀ i ∈ ownsOf o, i ∈ ownsOf (c p) ∨ free i = true)
    (hfree : ∀ i, free' i = false ↔ i ∈ ownsOf o ∨ free i = false ∧ i ∉ ownsOf (c p)) :
    Owning free' (update c p o) := by
  -- nobody else has what the call has now
  have hother : ∀ q k i, q ≠ p → c q = some k → i ∈ k.owns → i ∉ ownsOf o := by
    intro q k i hq hk hi hio
    rcases hnew i hio with hp | hf
    · obtain ⟨l, hl, hil⟩ := mem_ownsOf.1 hp
      exact hq (h.apart q p k l i hk hl hi hil)
    · have := (h.owned i).2 ⟨q, k, hk, hi⟩
      rw [hf] at this
      cases this
  constructor
  · intro i
    rw [hfree]
    constructor
    · rintro (hi | ⟨hf, hni⟩)
      · obtain ⟨l, hl, hil⟩ := mem_ownsOf.1 hi
        exact ⟨p, l, by rw [update_self, hl], hil⟩
      · obtain ⟨q, k, hk, hi⟩ := (h.owned i).1 hf
        have hq : q ≠ p := by
          rintro rfl
          exact hni (mem_ownsOf.2 ⟨k, hk, hi⟩)
        exact ⟨q, k, by rw [update_of_ne hq, hk], hi⟩
    · rintro ⟨q, k, hk, hi⟩
      by_cases hq : q = p
      · subst hq
        rw [update_self] at hk
        exact .inl (mem_ownsOf.2 ⟨k, hk, hi⟩)
      · rw [update_of_ne hq] at hk
        refine .inr ⟨(h.owned i).2 ⟨q, k, hk, hi⟩, fun hp => ?_⟩
        obtain ⟨l, hl, hil⟩ := mem_ownsOf.1 hp
        exact hq (h.apart q p k l i hk hl hi hil)
  · intro q k hk
    by_cases hq : q = p
    · subst hq
      rw [update_self] at hk
      subst hk
      exact hnodup
    · rw [update_of_ne hq] at hk
      exact h.nodup q k hk
  · intro q q' k k' i hk hk' hi hi'
    by_cases hq : q = p
    · by_cases hq' : q' = p
      · rw [hq, hq']
      · subst hq
        rw [update_self] at hk
        rw [update_of_ne hq'] at hk'
        exact absurd (mem_ownsOf.2 ⟨k, hk, hi⟩) (hother q' k' i hq' hk' hi')
    · rw [update_of_ne hq] at hk
      by_cases hq' : q' = p
      · subst hq'
        rw [update_self] at hk'
        exact absurd (mem_ownsOf.2 ⟨k', hk', hi'⟩) (hother q k i hq hk hi)
      · rw [update_of_ne hq'] at hk'
        exact h.apart q q' k k' i hk hk' hi hi'

end

omit [DecidableEq B] [DecidableEq P] in
theorem Owning.not_free (h : Owning free c) {i : Fin num} (hp : c p = some l) (hi : i ∈ l.owns) : free i = false :=
  (h.owned i).2 ⟨p, l, hp, hi⟩

section

omit [DecidableEq B]

theorem Owning.same (h : Owning free c) (hp : c p = some l) (ho : ownsOf o = l.owns) :
    Owning free (update c p o) := by
  have hcp : ownsOf (c p) = l.owns := by rw [hp]; rfl
  apply h.move
  · rw [ho]
    exact h.nodup p l hp
  · intro i hi
    rw [hcp, ← ho]
    exact .inl hi
  · intro i
    rw [ho, hcp]
    refine ⟨fun hf => ?_, fun hi => ?_⟩
    · by_cases hi : i ∈ l.owns
      · exact .inl hi
      · exact .inr ⟨hf, hi⟩
    · rcases hi with hi | hi
      · exact h.not_free hp hi
      · exact hi.1

theorem Owning.idle (h : Owning free c) (hp : ownsOf (c p) = []) (ho : ownsOf o = []) :
    Owning free (update c p o) := by
  apply h.move
  · simp [ho]
  · simp [ho]
  · intro i
    simp [ho, hp]

theorem Owning.take (h : Owning free c) (hp : c p = some l) {i : Fin num} (hi : free i = true)
    (hl : l'.owns = l.owns ++ [i]) :
    Owning (update free i false) (update c p (some l')) := by
  have hcp : ownsOf (c p) = l.owns := by rw [hp]; rfl
  have ho : ownsOf (some l') = l.owns ++ [i] := hl
  have hni : i ∉ l.owns := by
    intro him
    rw [h.not_free hp him] at hi
    cases hi
  apply h.move
  · rw [ho, List.nodup_append_comm]
    exact List.nodup_cons.2 ⟨hni, h.nodup p l hp⟩
  · intro j hj
    rw [ho, List.mem_append, List.mem_singleton] at hj
    rw [hcp]
    rcases hj with hj | rfl
    · exact .inl hj
    · exact .inr hi
  · intro j
    rw [ho, hcp, List.mem_append, List.mem_singleton]
    by_cases hji : j = i
    · subst hji
      simp
    · rw [update_of_ne hji]
      refine ⟨fun hf => ?_, fun hj => ?_⟩
      · by_cases hj : j ∈ l.owns
        · exact .inl (.inl hj)
        · exact .inr ⟨hf, hj⟩
      · rcases hj with (hj | hj) | hj
        · exact h.not_free hp hj
        · exact absurd hj hji
        · exact hj.1

theorem Owning.put (h : Owning free c) (hp : c p = some l) {i : Fin num} (hl : l.owns = i :: l'.owns) :
    Owning (update free i true) (update c p (some l')) := by
  have hcp : ownsOf (c p) = i :: l'.owns := by rw [hp, ← hl]; rfl
  have hnodup := h.nodup p l hp
  rw [hl, List.nodup_cons] at hnodup
  apply h.move
  · exact hnodup.2
  · intro j hj
    rw [hcp]
    exact .inl (List.mem_cons_of_mem _ hj)
  · intro j
    rw [hcp, show ownsOf (some l') = l'.owns from rfl]
    by_cases hji : j = i
    · subst hji
      simp [hnodup.1]
    · rw [update_of_ne hji]
      refine ⟨fun hf => ?_, fun hj => ?_⟩
      · by_cases hj : j ∈ l'.owns
        · exact .inl hj
        · refine .inr ⟨hf, ?_⟩
          simp [hji, hj]
      · rcases hj with hj | hj
        · exact h.not_free hp (by rw [hl]; exact List.mem_cons_of_mem _ hj)
        · exact hj.1

end

end

section

omit [DecidableEq B]

theorem allocDesc_free {d : Disk B} {i : Fin num} (h : allocDesc d = some i) : d.free i = true :=
  List.find?_some h

theorem freeDesc_ok {d : Disk B} {i : Fin num} (h : d.free i = false) :
    freeDesc i d = .ok ((d.clearAddr i).put i) := by
  simp only [freeDesc, i.isLt, dif_pos, Fin.eta, h]
  rfl

end

/-! ## Chains -/

/-- The descriptors `t` follow `i`, and then there are no more. -/
def Links (desc : Fin num → Desc B) : Fin num → List (Fin num) → Prop
  | i, [] => (desc i).hasNext = false
  | i, j :: t => (desc i).hasNext = true ∧ (desc i).next = j ∧ Links desc j t

section

omit [DecidableEq B]

theorem Links.congr {desc desc' : Fin num → Desc B} {i : Fin num} {t : List (Fin num)} (h : Links desc i t)
    (hsame : ∀ x ∈ i :: t, (desc' x).hasNext = (desc x).hasNext ∧ (desc' x).next = (desc x).next) :
    Links desc' i t := by
  induction t generalizing i with
  | nil => exact (hsame i (List.mem_singleton_self i)).1.trans h
  | cons j t ih =>
    obtain ⟨hflag, hnext⟩ := hsame i List.mem_cons_self
    exact ⟨hflag.trans h.1, hnext.trans h.2.1, ih h.2.2 fun x hx => hsame x (List.mem_cons_of_mem _ hx)⟩

theorem Links.clearAddr {d : Disk B} {i : Fin num} {t : List (Fin num)} (h : Links d.desc i t) (x : Fin num) :
    Links (d.clearAddr x).desc i t := by
  refine h.congr fun y _ => ?_
  by_cases hy : y = x
  · subst hy
    simp [Disk.clearAddr, Desc.hasNext]
  · simp [Disk.clearAddr, update_of_ne hy]

theorem follow_of_links {d : Disk B} {i j : Fin num} {t : List (Fin num)} (h : Links d.desc i (j :: t)) :
    follow d i = some j := by
  simp only [follow, h.1, h.2.1, if_true, j.isLt, dif_pos]

end

/-- **A chain under way**: what `virtio_disk_rw` has formatted for buffer `b`. -/
structure Chain (d : Disk B) (b : B) (i j k : Fin num) : Prop where
  buf : (d.info i).b = some b
  status : (d.info i).status = 0
  links : Links d.desc i [j, k]
  data : (d.desc j).addr = .data b
  stat : (d.desc k).addr = .status i

section

variable {d d' : Disk B} {b : B} {i j k : Fin num}

section

omit [DecidableEq B]

theorem Chain.congr (h : Chain d b i j k) (hdesc : ∀ x ∈ [i, j, k], d'.desc x = d.desc x)
    (hinfo : d'.info i = d.info i) : Chain d' b i j k where
  buf := by rw [hinfo, h.buf]
  status := by rw [hinfo, h.status]
  links := h.links.congr fun x hx => by rw [hdesc x hx]; exact ⟨rfl, rfl⟩
  data := by rw [hdesc j (by simp), h.data]
  stat := by rw [hdesc k (by simp), h.stat]

theorem Chain.chainBuf (h : Chain d b i j k) : chainBuf d i = some b := by
  simp only [Virtio.chainBuf, follow_of_links h.links, Option.bind_some, h.data]

theorem Chain.chainStat (h : Chain d b i j k) : chainStat d i = some i := by
  simp only [Virtio.chainStat, follow_of_links h.links, follow_of_links h.links.2.2, Option.bind_some, h.stat]

end

theorem chain_fill (blockno : UInt32) (write : Bool) (hnodup : [i, j, k].Nodup) :
    Chain (d.fill blockno b write i j k) b i j k := by
  have hij : i ≠ j := by rintro rfl; simp at hnodup
  have hik : i ≠ k := by rintro rfl; simp at hnodup
  have hjk : j ≠ k := by rintro rfl; simp at hnodup
  constructor
  · simp [Disk.fill]
  · simp [Disk.fill]
  · have hflags : ∀ w : Bool, (((if w then 0 else descWrite) ||| descNext) &&& descNext : UInt16) ≠ 0 := by decide
    have hlast : (descWrite &&& descNext : UInt16) = 0 := by decide
    have hfirst : descNext ≠ 0 := by decide
    simp [Links, Disk.fill, Desc.hasNext, update_of_ne hij, update_of_ne hik,
      update_of_ne hjk, hflags, hlast, hfirst]
  · simp [Disk.fill, update_of_ne hjk]
  · simp [Disk.fill]

end

end Xv6.Virtio

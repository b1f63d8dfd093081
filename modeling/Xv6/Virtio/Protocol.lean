import Xv6.Virtio.Rings

/-!
# The disk request protocol

`virtio_disk_rw` on distinct buffers, `virtio_disk_intr` and the device, in any interleaving.

* `Fine`: what a call knows, by where it is. `Sound`: the descriptors, the rings, the buffers and the calls fit
  together.
* `Sound.act`, `Sound.consume`, `Sound.complete`: every step of the driver and of the device keeps that.
  `sound_of_reach`: it holds in every run.
* **`disk_protocol`**: a descriptor is taken exactly while a chain has it, a buffer comes back only after the device
  is done with it, no report is skipped, and nothing panics.
-/

namespace Xv6.Virtio

open Function Runs Monitor Window

variable {B P : Type} [DecidableEq P]

/-- **What a call knows.** -/
def Fine (d : Disk B) : Pc B → Prop
  | .wait b i j k => Chain d b i j k
  | .publish b i j k => Chain d b i j k ∧ d.bdisk b = true ∧ d.avail (ringCell d.availIdx) = i
  | .finish i j k => Links d.desc i [j, k]
  | .freeDesc i rest => ∃ (x : Fin num) (t : List (Fin num)), i = x ∧ rest = x :: t ∧ Links d.desc x t
  | .freeWake i rest | .freeNext i rest => Links d.desc i rest
  | .intrWake _ | .intrNext => d.usedIdx.toNat + 1 = d.handled.length % 8 ∨
      d.usedIdx.toNat = 7 ∧ d.handled.length % 8 = 0
  | _ => True

/-- **The disk and the calls fit together.** -/
structure Sound (d : Disk B) (c : P → Option (Pc B)) : Prop where
  calm : d.panic = none
  owning : Owning d.free c
  bufs : ∀ p q l k b, c p = some l → c q = some k → l.buf = some b → k.buf = some b → p = q
  fine : ∀ p l, c p = some l → Fine d l
  idx : (∀ p l, c p = some l → l.lags = false) → d.usedIdx.toNat = d.handled.length % 8
  flying : ∃ A U, Flying d c A U

omit [DecidableEq P] in
theorem sound_init : Sound (Disk.init : Disk B) (fun _ : P => none) where
  calm := rfl
  owning := ⟨fun i => by simp [Disk.init], nofun, nofun⟩
  bufs := nofun
  fine := nofun
  idx := fun _ => rfl
  flying := by
    refine ⟨[], [], ?_⟩
    constructor <;> simp [flight, Waiting, Disk.init, cells]

def Separate (s : State P (Disk B) (Pc B) (Chan B) Ret) : Ev P (Pc B) → Prop
  | .call _ l => (∃ b write, l = virtioDiskRw b write ∧ ∀ q k, s.calls q = some k → k.buf ≠ some b) ∨
      l = virtioDiskIntr
  | _ => True

section

variable {d d' : Disk B} {c : P → Option (Pc B)} {p : P} {l l' : Pc B} {o : Option (Pc B)}

/-- All but the agent `p` are at places where the lock is not held. -/
def Others (c : P → Option (Pc B)) (p : P) : Prop := ∀ q k, q ≠ p → c q = some k → k.Away

theorem not_lags_of_away (h : l.Away) : l.lags = false := by
  cases l <;> first | rfl | cases h

theorem Sound.move (h : Sound d c) (hp : c p = some l) (hrest : Others c p) (hcalm : d'.panic = none)
    (howning : Owning d'.free (update c p o))
    (hbuf : ∀ l' b, o = some l' → l'.buf = some b → l.buf = some b)
    (hchain : ∀ q b i j k, q ≠ p → c q = some (.wait b i j k) → Chain d b i j k → Chain d' b i j k)
    (hfine : ∀ l', o = some l' → Fine d' l')
    (hidx : (∀ l', o = some l' → l'.lags = false) → d'.usedIdx.toNat = d'.handled.length % 8)
    (hflying : ∃ A U, Flying d' (update c p o) A U) : Sound d' (update c p o) := by
  refine ⟨hcalm, howning, ?_, ?_, fun hl => hidx fun l' hl' => hl p l' ?_, hflying⟩
  · -- the buffer of the call is the one it had
    have hold : ∀ q k b, update c p o q = some k → k.buf = some b → ∃ k', c q = some k' ∧ k'.buf = some b := by
      intro q k b hk hb
      by_cases hq : q = p
      · subst hq
        rw [update_self] at hk
        exact ⟨l, hp, hbuf k b hk hb⟩
      · rw [update_of_ne hq] at hk
        exact ⟨k, hk, hb⟩
    intro q q' k k' b hk hk' hb hb'
    obtain ⟨k₁, hk₁, hb₁⟩ := hold q k b hk hb
    obtain ⟨k₂, hk₂, hb₂⟩ := hold q' k' b hk' hb'
    exact h.bufs q q' k₁ k₂ b hk₁ hk₂ hb₁ hb₂
  · intro q k hk
    by_cases hq : q = p
    · subst hq
      rw [update_self] at hk
      exact hfine k hk
    · rw [update_of_ne hq] at hk
      have haway := hrest q k hq hk
      cases k with
      | wait b i j k => exact hchain q b i j k hq hk (h.fine q _ hk)
      | alloc b write got => trivial
      | intrTest => trivial
      | _ => cases haway
  · rw [update_self, hl']

theorem Sound.idx_of (h : Sound d c) (hp : c p = some l) (hrest : Others c p) (hl : l.lags = false) :
    d.usedIdx.toNat = d.handled.length % 8 := by
  apply h.idx
  intro q k hk
  by_cases hq : q = p
  · subst hq
    rw [hp] at hk
    cases hk
    exact hl
  · exact not_lags_of_away (hrest q k hq hk)

theorem Sound.stay (h : Sound d c) (hp : c p = some l) (hrest : Others c p) (howns : l'.owns = l.owns)
    (hbuf : ∀ b, l'.buf = some b → l.buf = some b) (hfine : Fine d l') (hlags : l'.lags = false → l.lags = false)
    (hwait : ∀ b i j k, l = .wait b i j k → d.bdisk b = false) (hwait' : ∀ b i j k, l' ≠ .wait b i j k) :
    Sound d (update c p (some l')) := by
  refine h.move hp hrest h.calm (h.owning.same hp howns) ?_ ?_ ?_ ?_ ?_
  · rintro k b ⟨⟩ hb
    exact hbuf b hb
  · intro q b i j k _ _ hc
    exact hc
  · rintro k ⟨⟩
    exact hfine
  · intro hl
    exact h.idx_of hp hrest (hlags (hl l' rfl))
  · obtain ⟨A, U, hf⟩ := h.flying
    refine ⟨A, U, hf.calls ?_ ?_⟩
    · intro b i j k hk
      rw [hp] at hk
      exact hwait b i j k (Option.some.inj hk)
    · intro b i j k hk
      exact hwait' b i j k (Option.some.inj hk)

omit [DecidableEq P] in
theorem Owning.not_mem_other {free : Fin num → Bool} (h : Owning free c) (hp : c p = some l) {i : Fin num}
    (hi : i ∈ l.owns) {q : P} {k : Pc B} (hq : q ≠ p) (hk : c q = some k) : i ∉ k.owns := by
  intro hik
  exact hq (h.apart q p k l i hk hp hik hi)

/-! ## The driver -/

theorem Sound.take (h : Sound d c) {b : B} {write : Bool} {got : List (Fin num)}
    (hp : c p = some (.alloc b write got)) (hrest : Others c p) {i : Fin num} (hi : d.free i = true) :
    Sound (d.take i) (update c p (some (.alloc b write (got ++ [i])))) := by
  refine h.move hp hrest h.calm (h.owning.take hp hi rfl) ?_ ?_ ?_ ?_ ?_
  · rintro k b' ⟨⟩ hb
    exact hb
  · intro q b' i' j' k' _ _ hc
    exact hc.congr (fun _ _ => rfl) rfl
  · rintro k ⟨⟩
    trivial
  · intro _
    exact h.idx_of hp hrest rfl
  · obtain ⟨A, U, hf⟩ := h.flying
    refine ⟨A, U, Flying.frame ?_ _ _ _⟩
    refine hf.calls ?_ nofun
    intro b' i' j' k' hk
    rw [hp] at hk
    cases hk

theorem Sound.put (h : Sound d c) (hp : c p = some l) (hrest : Others c p) {i : Fin num}
    (howns : l.owns = i :: l'.owns) (hbuf : ∀ b, l'.buf = some b → l.buf = some b)
    (hfine : Fine ((d.clearAddr i).put i) l') (hlags : l.lags = false) (hwait : ∀ b i j k, l ≠ .wait b i j k)
    (hwait' : ∀ b i j k, l' ≠ .wait b i j k) :
    Sound ((d.clearAddr i).put i) (update c p (some l')) := by
  refine h.move hp hrest h.calm (h.owning.put hp howns) ?_ ?_ ?_ ?_ ?_
  · rintro k b ⟨⟩ hb
    exact hbuf b hb
  · intro q b i' j' k' hq hk hc
    refine hc.congr (fun x hx => ?_) rfl
    have hne : x ≠ i := by
      rintro rfl
      exact h.owning.not_mem_other hp (by rw [howns]; exact List.mem_cons_self) hq hk hx
    exact update_of_ne hne _ _
  · rintro k ⟨⟩
    exact hfine
  · intro _
    exact h.idx_of hp hrest hlags
  · obtain ⟨A, U, hf⟩ := h.flying
    refine ⟨A, U, (hf.calls ?_ ?_).frame _ _ _⟩
    · intro b i' j' k' hk
      rw [hp] at hk
      exact absurd (Option.some.inj hk) (hwait b i' j' k')
    · intro b i' j' k' hk
      exact hwait' b i' j' k' (Option.some.inj hk)

theorem Sound.fill [DecidableEq B] (h : Sound d c) {b : B} {write : Bool} {i j k : Fin num}
    (hp : c p = some (.fill b write i j k)) (hrest : Others c p) (blockno : UInt32) :
    Sound (d.fill blockno b write i j k) (update c p (some (.publish b i j k))) := by
  refine h.move hp hrest h.calm (h.owning.same hp rfl) ?_ ?_ ?_ ?_ ?_
  · rintro k b' ⟨⟩ hb
    exact hb
  · intro q b' i' j' k' hq hk hc
    have hne : ∀ x ∈ [i', j', k'], x ≠ i ∧ x ≠ j ∧ x ≠ k := by
      intro x hx
      refine ⟨?_, ?_, ?_⟩ <;> rintro rfl <;>
        exact h.owning.not_mem_other hp (by simp [Pc.owns]) hq hk hx
    refine hc.congr (fun x hx => ?_) ?_
    · obtain ⟨hi, hj, hk⟩ := hne x hx
      simp [Disk.fill, update_of_ne hi, update_of_ne hj, update_of_ne hk]
    · exact update_of_ne (hne i' (by simp)).1 _ _
  · rintro k' ⟨⟩
    refine ⟨chain_fill blockno write (h.owning.nodup p _ hp), ?_, ?_⟩
    · exact update_self ..
    · exact update_self ..
  · intro _
    exact h.idx_of hp hrest rfl
  · obtain ⟨A, U, hf⟩ := h.flying
    have hlen := hf.length_le h.owning
    rw [length_flight] at hlen
    have hlt : A.length < num := lt_of_le_of_lt (by omega) (by decide : 2 < num)
    have hnot : i ∉ flight d A U := hf.not_mem h.owning hp (by simp) (by simp [Pc.owns])
    have hb : ∀ q i' j' k', c q ≠ some (.wait b i' j' k') := by
      intro q i' j' k' hq
      have hpq := h.bufs p q _ _ b hp hq rfl rfl
      subst hpq
      rw [hp] at hq
      cases hq
    refine ⟨A, U, Flying.calls ?_ ?_ (by simp)⟩
    · exact ((((hf.setInfo hnot ⟨some b, 0⟩).setDisk hb).setAvail hlt i).frame _ _ _)
    · intro b' i' j' k' hk
      rw [hp] at hk
      cases hk

theorem Sound.publish (h : Sound d c) {b : B} {i j k : Fin num} (hp : c p = some (.publish b i j k))
    (hrest : Others c p) : Sound (d.publish b) (update c p (some (.wait b i j k))) := by
  obtain ⟨hchain, hdisk, hcell⟩ := h.fine p _ hp
  refine h.move hp hrest h.calm (h.owning.same hp rfl) ?_ ?_ ?_ ?_ ?_
  · rintro k b' ⟨⟩ hb
    exact hb
  · intro q b' i' j' k' _ _ hc
    exact hc.congr (fun _ _ => rfl) rfl
  · rintro k' ⟨⟩
    exact hchain.congr (fun _ _ => rfl) rfl
  · intro _
    exact h.idx_of hp hrest rfl
  · obtain ⟨A, U, hf⟩ := h.flying
    exact ⟨A ++ [i], U, hf.publish h.owning hp hchain.buf hdisk hcell⟩

theorem Sound.forget (h : Sound d c) {i j k : Fin num} (hp : c p = some (.finish i j k)) (hrest : Others c p) :
    Sound (d.forget i) (update c p (some (.freeDesc i [i, j, k]))) := by
  have hlinks : Links d.desc i [j, k] := h.fine p _ hp
  refine h.move hp hrest h.calm (h.owning.same hp rfl) ?_ ?_ ?_ ?_ ?_
  · rintro k b' ⟨⟩ hb
    cases hb
  · intro q b' i' j' k' hq hk hc
    refine hc.congr (fun _ _ => rfl) (update_of_ne ?_ _ _)
    intro he
    have hmem : i ∈ [i', j', k'] := by simp [he]
    exact h.owning.not_mem_other hp List.mem_cons_self hq hk hmem
  · rintro k' ⟨⟩
    exact ⟨i, [j, k], rfl, rfl, hlinks⟩
  · intro _
    exact h.idx_of hp hrest rfl
  · obtain ⟨A, U, hf⟩ := h.flying
    refine ⟨A, U, Flying.calls (hf.setInfo (hf.not_mem h.owning hp nofun (by simp [Pc.owns])) _) ?_ nofun⟩
    intro b' i' j' k' hk
    rw [hp] at hk
    cases hk

theorem Sound.leave (h : Sound d c) (hp : c p = some l) (hrest : Others c p) (howns : l.owns = [])
    (hlags : l.lags = false) : Sound d (update c p none) := by
  refine h.move hp hrest h.calm ?_ ?_ ?_ ?_ ?_ ?_
  · apply h.owning.idle
    · rw [hp]
      exact howns
    · rfl
  · exact nofun
  · intro q b i j k _ _ hc
    exact hc
  · exact nofun
  · intro _
    exact h.idx_of hp hrest hlags
  · obtain ⟨A, U, hf⟩ := h.flying
    refine ⟨A, U, hf.calls ?_ nofun⟩
    intro b i j k hk
    rw [hp] at hk
    cases hk
    cases howns

/-- **An entry of the used ring is handled**, and there is no panic. -/
theorem Sound.handle [DecidableEq B] (h : Sound d c) (hp : c p = some .intrTest)
    (hrest : Others c p) (hne : d.usedIdx % 8 ≠ d.usedId % 8) :
    ∃ b x, handle d = .ok (b, d.done b x) ∧ Sound (d.done b x) (update c p (some (.intrWake b))) := by
  obtain ⟨A, U, hf⟩ := h.flying
  have hlen := hf.length_le h.owning
  rw [length_flight] at hlen
  have hidx := h.idx_of hp hrest rfl
  cases U with
  | nil => exact absurd ((hf.usedIdx_eq_iff (by simp) hidx).2 rfl) hne
  | cons x U =>
    have hx : x ∈ flight d A (x :: U) := by simp [flight]
    obtain ⟨q, b, j, k, hq, -⟩ := (hf.heads x).1 hx
    have hchain : Chain d b x j k := h.fine q _ hq
    have hlt : d.usedIdx.toNat < num := by
      rw [hidx]
      exact Nat.mod_lt _ (by decide)
    have hcell : (⟨d.usedIdx.toNat, hlt⟩ : Fin num) = Fin.ofNat num d.handled.length := Fin.ext hidx
    refine ⟨b, x, ?_, ?_⟩
    · simp only [Virtio.handle, dif_pos hlt, hcell, hf.head_used.1, x.isLt, dif_pos, hchain.status, hchain.buf,
        ne_eq, not_true_eq_false, if_false]
    · refine h.move hp hrest h.calm (h.owning.same hp rfl) ?_ ?_ ?_ ?_ ?_
      · rintro k b' ⟨⟩ hb
        cases hb
      · intro q b' i' j' k' _ _ hc
        exact hc.congr (fun _ _ => rfl) rfl
      · rintro k' ⟨⟩
        change d.usedIdx.toNat + 1 = (d.handled ++ [x.val]).length % 8 ∨
          d.usedIdx.toNat = 7 ∧ (d.handled ++ [x.val]).length % 8 = 0
        rw [hidx, List.length_append, List.length_singleton]
        omega
      · intro hl
        cases hl _ rfl
      · refine ⟨A, U, Flying.calls (hf.done h.owning h.bufs hq) ?_ (by simp)⟩
        intro b' i' j' k' hk
        rw [hp] at hk
        cases hk

theorem Sound.all_handled (h : Sound d c) {A U : List (Fin num)} (hf : Flying d c A U) (hp : c p = some .intrTest)
    (hrest : Others c p) (heq : d.usedIdx % 8 = d.usedId % 8) : d.handled = d.reported := by
  have hlen := hf.length_le h.owning
  rw [length_flight] at hlen
  have hnil := (hf.usedIdx_eq_iff (by omega) (h.idx_of hp hrest rfl)).1 heq
  rw [hf.reported, hnil, List.map_nil, List.append_nil]

theorem Sound.advance (h : Sound d c) (hp : c p = some .intrNext) (hrest : Others c p) :
    Sound d.advance (update c p (some .intrTest)) := by
  have hlag : d.usedIdx.toNat + 1 = d.handled.length % 8 ∨ d.usedIdx.toNat = 7 ∧ d.handled.length % 8 = 0 :=
    h.fine p _ hp
  refine h.move hp hrest h.calm (h.owning.same hp rfl) ?_ ?_ ?_ ?_ ?_
  · rintro k b' ⟨⟩ hb
    cases hb
  · intro q b' i' j' k' _ _ hc
    exact hc.congr (fun _ _ => rfl) rfl
  · rintro k' ⟨⟩
    trivial
  · intro _
    change ((d.usedIdx + 1) % 8).toNat = d.handled.length % 8
    rw [UInt16.toNat_mod, UInt16.toNat_add]
    change (d.usedIdx.toNat + 1) % 2 ^ 16 % 8 = _
    omega
  · obtain ⟨A, U, hf⟩ := h.flying
    refine ⟨A, U, Flying.frame ?_ _ _ _⟩
    refine hf.calls ?_ nofun
    intro b' i' j' k' hk
    rw [hp] at hk
    cases hk

section

variable [DecidableEq B]

theorem act_alloc_some (blockno : B → UInt32) {b : B} {write : Bool} {got : List (Fin num)} {i : Fin num}
    (hlen : got.length ≠ 3) (ha : allocDesc d = some i) :
    act blockno (.alloc b write got) d = .go (d.take i) (.alloc b write (got ++ [i])) := by
  rcases got with _ | ⟨_, _ | ⟨_, _ | ⟨_, _ | ⟨_, _⟩⟩⟩⟩ <;> simp_all [act]

theorem act_alloc_none (blockno : B → UInt32) {b : B} {write : Bool} {got : List (Fin num)}
    (hlen : got.length ≠ 3) (ha : allocDesc d = none) :
    act blockno (.alloc b write got) d = .go d (.undo b write got) := by
  rcases got with _ | ⟨_, _ | ⟨_, _ | ⟨_, _ | ⟨_, _⟩⟩⟩⟩ <;> simp_all [act]

theorem Sound.act (h : Sound d c) (hp : c p = some l) (hrest : Others c p) (blockno : B → UInt32) :
    Joins Sound p d c (act blockno l d) := by
  cases l with
  | alloc b write got =>
    by_cases hlen : got.length = 3
    · obtain ⟨i, j, k, rfl⟩ := List.length_eq_three.1 hlen
      exact h.stay hp hrest rfl (fun _ hb => hb) trivial (fun _ => rfl) (by simp) (by simp)
    · cases ha : allocDesc d with
      | some i =>
        rw [act_alloc_some blockno hlen ha]
        exact h.take hp hrest (allocDesc_free ha)
      | none =>
        rw [act_alloc_none blockno hlen ha]
        exact h.stay hp hrest rfl (fun _ hb => hb) trivial (fun _ => rfl) (by simp) (by simp)
  | undo b write todo =>
    cases todo with
    | nil => exact h.stay hp hrest rfl (fun _ hb => hb) trivial (fun _ => rfl) (by simp) (by simp)
    | cons i todo =>
      have hfree : d.free i = false := h.owning.not_free hp List.mem_cons_self
      simp only [Virtio.act, freeDesc_ok hfree]
      exact h.put hp hrest rfl (fun _ hb => hb) trivial rfl (by simp) (by simp)
  | undoWake b write todo => exact h.stay hp hrest rfl (fun _ hb => hb) trivial (fun _ => rfl) (by simp) (by simp)
  | fill b write i j k => exact h.fill hp hrest _
  | publish b i j k => exact h.publish hp hrest
  | wait b i j k =>
    simp only [Virtio.act]
    split_ifs with hb
    · change Sound d (update c p (some (.wait b i j k)))
      rw [← hp, update_eq_self]
      exact h
    · have hlinks : Links d.desc i [j, k] := (h.fine p _ hp).links
      refine h.stay hp hrest rfl (by rintro _ ⟨⟩) hlinks (fun _ => rfl) ?_ (by simp)
      rintro b' i' j' k' ⟨⟩
      exact Bool.eq_false_iff.2 hb
  | finish i j k => exact h.forget hp hrest
  | freeDesc i rest =>
    obtain ⟨x, t, rfl, rfl, hlinks⟩ := h.fine p _ hp
    have hfree : d.free x = false := h.owning.not_free hp List.mem_cons_self
    simp only [Virtio.act, freeDesc_ok hfree, Fin.ofNat_val_eq_self, List.tail_cons]
    exact h.put hp hrest rfl (by rintro _ ⟨⟩) (hlinks.clearAddr x) rfl (by simp) (by simp)
  | freeWake i rest =>
    have hlinks : Links d.desc i rest := h.fine p _ hp
    exact h.stay hp hrest rfl (by rintro _ ⟨⟩) hlinks (fun _ => rfl) (by simp) (by simp)
  | freeNext i rest =>
    have hlinks : Links d.desc i rest := h.fine p _ hp
    simp only [Virtio.act]
    cases rest with
    | nil =>
      have hlast : (d.desc i).hasNext = false := hlinks
      rw [if_neg (by simp [hlast])]
      exact h.leave hp hrest rfl rfl
    | cons j t =>
      rw [if_pos hlinks.1]
      exact h.stay hp hrest rfl (by rintro _ ⟨⟩) ⟨j, t, hlinks.2.1, rfl, hlinks.2.2⟩ (fun _ => rfl) (by simp) (by simp)
  | intrTest =>
    simp only [Virtio.act]
    split_ifs with hne
    · obtain ⟨b, x, hhandle, hsound⟩ := h.handle hp hrest hne
      rw [hhandle]
      exact hsound
    · exact h.leave hp hrest rfl rfl
  | intrWake b =>
    have hlag : Fine d (.intrWake b) := h.fine p _ hp
    exact h.stay hp hrest rfl (by rintro _ ⟨⟩) hlag (fun hl => by cases hl) (by simp) (by simp)
  | intrNext => exact h.advance hp hrest

end

/-! ## The device, and new calls -/

omit [DecidableEq P] in
theorem Sound.consume (h : Sound d c) (hd : consume d = some d') : Sound d' c := by
  obtain ⟨A, U, hf⟩ := h.flying
  have hlen := hf.length_le h.owning
  rw [length_flight] at hlen
  obtain ⟨r, s, n, rfl, A', hf'⟩ := hf.consume (by omega) (fun q b i j k hq => h.fine q _ hq) hd
  refine ⟨h.calm, h.owning, h.bufs, fun q l hq => ?_, h.idx, A', U, hf'⟩
  have hfine := h.fine q l hq
  cases l with
  | wait b i j k => exact Chain.congr hfine (fun _ _ => rfl) rfl
  | publish b i j k => exact ⟨hfine.1.congr (fun _ _ => rfl) rfl, hfine.2⟩
  | _ => exact hfine

omit [DecidableEq P] in
theorem Sound.complete {n : ℕ} (h : Sound d c) (hd : complete n d = some d') : Sound d' c := by
  obtain ⟨A, U, hf⟩ := h.flying
  have hlen := hf.length_le h.owning
  rw [length_flight] at hlen
  obtain ⟨s, r, rfl, U', hf'⟩ := hf.complete (by omega) hd
  refine ⟨h.calm, h.owning, h.bufs, fun q l hq => ?_, h.idx, A, U', hf'⟩
  have hfine := h.fine q l hq
  cases l with
  | wait b i j k => exact (Chain.setStatus hfine s).congr (fun _ _ => rfl) rfl
  | publish b i j k => exact ⟨(hfine.1.setStatus s).congr (fun _ _ => rfl) rfl, hfine.2⟩
  | _ => exact hfine

theorem Sound.call (h : Sound d c) (hp : c p = none) (howns : l.owns = []) (hfine : Fine d l)
    (hwait : ∀ b i j k, l ≠ .wait b i j k)
    (hbuf : ∀ b, l.buf = some b → ∀ q k, c q = some k → k.buf ≠ some b) :
    Sound d (update c p (some l)) := by
  have hold : ∀ q k, update c p (some l) q = some k → q ≠ p → c q = some k := by
    intro q k hk hq
    rwa [update_of_ne hq] at hk
  have hnew : ∀ k, update c p (some l) p = some k → k = l := by
    intro k hk
    rw [update_self] at hk
    exact (Option.some.inj hk).symm
  refine ⟨h.calm, h.owning.idle ?_ howns, ?_, ?_, fun hl => h.idx fun q k hk => ?_, ?_⟩
  · rw [hp]
    rfl
  · intro q q' k k' b hk hk' hb hb'
    by_cases hq : q = p
    · by_cases hq' : q' = p
      · rw [hq, hq']
      · subst hq
        rw [hnew k hk] at hb
        exact absurd hb' (hbuf b hb q' k' (hold q' k' hk' hq'))
    · by_cases hq' : q' = p
      · subst hq'
        rw [hnew k' hk'] at hb'
        exact absurd hb (hbuf b hb' q k (hold q k hk hq))
      · exact h.bufs q q' k k' b (hold q k hk hq) (hold q' k' hk' hq') hb hb'
  · intro q k hk
    by_cases hq : q = p
    · subst hq
      rw [hnew k hk]
      exact hfine
    · exact h.fine q k (hold q k hk hq)
  · have hq : q ≠ p := by
      rintro rfl
      rw [hp] at hk
      cases hk
    exact hl q k (by rw [update_of_ne hq, hk])
  · obtain ⟨A, U, hf⟩ := h.flying
    refine ⟨A, U, hf.calls ?_ ?_⟩
    · intro b i j k hk
      rw [hp] at hk
      cases hk
    · intro b i j k hk
      exact hwait b i j k (Option.some.inj hk)

end

/-! ## Runs -/

variable [DecidableEq B] {procs : List P} {blockno : B → UInt32} {s s' : State P (Disk B) (Pc B) (Chan B) Ret}

theorem away_of_sleep {l l' : Pc B} {d : Disk B} {ch : Chan B} (h : act blockno l d = .sleep ch l') : l'.Away := by
  unfold act at h
  repeat' split at h
  all_goals first | cases h; rfl | cases h; trivial | cases h

theorem disk_shared : Shared (diskCode procs blockno) Separate (fun _ l => l.Away) Sound where
  begin := by
    rintro s p l (⟨b, write, rfl, -⟩ | rfl)
    · rfl
    · trivial
  rest := fun p b l d ch l' h => away_of_sleep h
  call := by
    rintro s p l (⟨b, write, rfl, hb⟩ | rfl) hp h
    · refine h.call hp rfl trivial nofun ?_
      rintro b' ⟨⟩
      exact hb
    · exact h.call hp rfl trivial nofun nofun
  act := by
    intro s p l _ hp hrest h
    exact h.act (by rw [State.calls, hp]; rfl) hrest blockno
  env := by
    intro k d d' c hd h
    cases k with
    | zero => exact h.consume hd
    | succ k => exact h.complete hd

theorem sound_of_reach (h : Reach (step (diskCode procs blockno)) Separate (.start .init) s) :
    Sound s.data s.calls :=
  disk_shared.of_reach sound_init h

theorem test_of_leave {p : P} (hp : s.pos p = .hold .intrTest)
    (hstep : step (diskCode procs blockno) s (.run p) = some s') (hout : s'.pos p = .out (some .ok)) :
    s.data.usedIdx % 8 = s.data.usedId % 8 := by
  by_contra hne
  simp only [step, hp, diskCode, act, if_pos hne] at hstep
  cases hh : handle s.data with
  | ok r =>
    simp only [hh] at hstep
    cases hstep
    simp at hout
  | error e =>
    simp only [hh] at hstep
    cases hstep
    simp at hout

/-- **The disk request protocol.** For calls on distinct buffers, in any interleaving with the device: a descriptor is
taken exactly while a call has it, and no two calls have the same; while the lock is free, these are the calls that
wait for their chain of three. When the disk does not have a buffer, the device has finished every request that was
made for it. Reports are handled in their order, each once, and `virtio_disk_intr` goes when all are. Nothing
panics. The numbers of requests and reports are not bounded, so the 16-bit counters may go round. -/
theorem disk_protocol (h : Reach (step (diskCode procs blockno)) Separate (.start .init) s) :
    (∀ i, s.data.free i = false ↔ ∃ p l, s.calls p = some l ∧ i ∈ l.owns) ∧
    (∀ p q l k, p ≠ q → s.calls p = some l → s.calls q = some k → l.owns.Disjoint k.owns) ∧
    (s.lock = none → ∀ p l, s.calls p = some l →
      l.owns = [] ∨ ∃ b i j k, l = .wait b i j k ∧ [i, j, k].Nodup ∧ Chain s.data b i j k) ∧
    (∀ b, s.data.bdisk b = false → s.data.started.count b = s.data.finished.count (some b)) ∧
    s.data.handled <+: s.data.reported ∧
    (∀ p s', s.pos p = .hold .intrTest → step (diskCode procs blockno) s (.run p) = some s' →
      s'.pos p = .out (some .ok) → s.data.handled = s.data.reported) ∧
    s.data.panic = none := by
  have hs := sound_of_reach h
  obtain ⟨A, U, hf⟩ := hs.flying
  refine ⟨hs.owning.owned, fun p q l k hpq hp hq i hi hik => hpq (hs.owning.apart p q l k i hp hq hi hik),
    fun hlock p l hp => ?_, fun b hb => ?_, ?_, fun p s' hp hstep hout => ?_, hs.calm⟩
  · have haway : l.Away := disk_shared.away_of_free h hlock hp
    cases l with
    | alloc b write got => exact .inl haway
    | wait b i j k => exact .inr ⟨b, i, j, k, rfl, hs.owning.nodup p _ hp, hs.fine p _ hp⟩
    | intrTest => exact .inl rfl
    | _ => cases haway
  · exact hf.count_eq (fun q b i j k hq => hs.fine q _ hq) hb
  · rw [hf.reported]
    exact List.prefix_append _ _
  · have hrest : Others s.calls p := fun q k hq hk => disk_shared.others h hp hq hk
    exact hs.all_handled hf (by rw [State.calls, hp]; rfl) hrest (test_of_leave hp hstep hout)

def writing : State (Fin 2) (Disk Unit) (Pc Unit) (Chan Unit) Ret :=
  (State.start .init).put 0 (.spin (virtioDiskRw () true))

/-- The device finishes the request, agent 1 handles the interrupt, and agent 0 goes on. -/
def oneWrite : List (Ev (Fin 2) (Pc Unit)) :=
  [.acquire 0] ++ List.replicate 8 (.run 0) ++ [.env 0, .env 1] ++ [.call 1 virtioDiskIntr, .acquire 1] ++
    List.replicate 7 (.run 1) ++ [.acquire 0] ++ List.replicate 19 (.run 0)

theorem separate_oneWrite (s : State (Fin 2) (Disk Unit) (Pc Unit) (Chan Unit) Ret) : ∀ e ∈ oneWrite, Separate s e := by
  intro e he
  simp only [oneWrite, List.mem_append, List.mem_cons, List.mem_replicate, List.not_mem_nil, or_false] at he
  rcases he with (((((rfl | ⟨-, rfl⟩) | rfl | rfl) | rfl | rfl) | ⟨-, rfl⟩) | rfl) | ⟨-, rfl⟩
  case inl.inl.inl.inr.inl => exact .inr rfl
  all_goals trivial

/-- After one write the report is handled, and the buffer is back. -/
theorem disk_protocol_write : ∃ s : State (Fin 2) (Disk Unit) (Pc Unit) (Chan Unit) Ret,
    Reach (step (diskCode [0, 1] fun _ => 0)) Separate (.start .init) s ∧ s.data.handled = [0] ∧
      s.data.started.count () = s.data.finished.count (some ()) ∧ s.data.panic = none := by
  have hcall : Reach (step (diskCode [0, 1] fun _ => 0)) Separate (.start .init) writing :=
    Reach.refl.tail (a := .call 0 (virtioDiskRw () true)) (.inl ⟨(), true, rfl, nofun⟩) rfl
  have hrun : (exec (step (diskCode [0, 1] fun _ => 0)) writing oneWrite).any
      (fun s => decide (s.data.handled = [0] ∧ s.data.bdisk () = false)) = true := by decide +kernel
  obtain ⟨s, hs, hd⟩ := Reach.of_exec_any separate_oneWrite hrun
  obtain ⟨hhandled, hback⟩ := of_decide_eq_true hd
  obtain ⟨-, -, -, hcount, -, -, hcalm⟩ := disk_protocol (hcall.trans hs)
  exact ⟨s, hcall.trans hs, hhandled, hcount () hback, hcalm⟩

end Xv6.Virtio

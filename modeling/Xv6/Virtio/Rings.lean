import Xv6.Virtio.Chains

/-!
# The two rings

The driver tells the device about a chain in the available ring, the device tells the driver in the used ring. The
counters of the rings are 16-bit numbers, `used_idx` is one modulo the length of the ring.

* `Flying`: the heads on their way through the available ring, the device and the used ring, with the counters of
  both rings. **`Flying.length_le`**: there are at most two.
* `Flying.publish`, `Flying.consume`, `Flying.complete`, `Flying.done`: the four steps of a chain on its way.
* `Flying.seen_eq_iff`, **`Flying.usedIdx_eq_iff`**: comparing the counters tells whether a ring has entries.
-/

namespace Xv6.Virtio

open Function Monitor Window

variable {B P : Type} [DecidableEq B] [DecidableEq P]

/-! ## Chains on their way -/

/-- The heads of the chains between the driver and the device: `A` in the available ring, then those the device has
in hand, and `U` in the used ring. -/
def flight (d : Disk B) (A U : List (Fin num)) : List (Fin num) := A ++ (d.pending.map Request.head ++ U)

/-- A call waits for the chain with this head, and the disk has its buffer. -/
def Waiting (c : P → Option (Pc B)) (bdisk : B → Bool) (h : Fin num) : Prop :=
  ∃ p b j k, c p = some (.wait b h j k) ∧ bdisk b = true

/-- **The chains on their way** are those of the calls that wait for a buffer the disk has; the counters of both rings
are those of the entries that were made, and entries that have not been looked at are still there. -/
structure Flying (d : Disk B) (c : P → Option (Pc B)) (A U : List (Fin num)) : Prop where
  nodup : (flight d A U).Nodup
  heads : ∀ h, h ∈ flight d A U ↔ Waiting c d.bdisk h
  availIdx : d.availIdx.toNat = d.started.length % 2 ^ 16
  seen : d.seen.toNat = d.consumed % 2 ^ 16
  started : d.started.length = d.consumed + A.length
  avail : cells d.avail d.consumed A.length = A.map Fin.val
  usedId : d.usedId.toNat = d.reported.length % 2 ^ 16
  reported : d.reported = d.handled ++ U.map Fin.val
  used : cells d.used d.handled.length U.length = U.map Fin.val
  reqs : ∀ r ∈ d.pending, r.buf = (d.info r.head).b ∧ r.stat = some r.head
  count : (d.started.map some).Perm (d.finished ++ (d.pending.map Request.buf ++ A.map fun h => (d.info h).b))

section

variable {d d' : Disk B} {c : P → Option (Pc B)} {p : P} {l : Pc B} {o : Option (Pc B)} {A U : List (Fin num)}

section

omit [DecidableEq B] [DecidableEq P]

theorem exists_members (ho : Owning d.free c) {H : List (Fin num)} (hnodup : H.Nodup)
    (hH : ∀ h ∈ H, ∃ p b j k, c p = some (.wait b h j k)) :
    ∃ M : List (Fin num), M.Nodup ∧ M.length = 3 * H.length ∧
      ∀ x ∈ M, ∃ h ∈ H, ∃ p b j k, c p = some (.wait b h j k) ∧ x ∈ [h, j, k] := by
  induction H with
  | nil => exact ⟨[], List.nodup_nil, rfl, nofun⟩
  | cons h H ih =>
    rw [List.nodup_cons] at hnodup
    obtain ⟨M, hM, hlen, hmem⟩ := ih hnodup.2 fun h' hh' => hH h' (List.mem_cons_of_mem _ hh')
    obtain ⟨p, b, j, k, hp⟩ := hH h List.mem_cons_self
    refine ⟨[h, j, k] ++ M, List.Nodup.append (ho.nodup p _ hp) hM fun x hx hxM => ?_, ?_, fun x hx => ?_⟩
    · obtain ⟨h', hh', q, b', j', k', hq, hx'⟩ := hmem x hxM
      have hpq := ho.apart p q _ _ x hp hq hx hx'
      subst hpq
      rw [hp] at hq
      cases hq
      exact hnodup.1 hh'
    · simp [hlen]
      omega
    · rcases List.mem_append.1 hx with hx | hx
      · exact ⟨h, List.mem_cons_self, p, b, j, k, hp, hx⟩
      · obtain ⟨h', hh', hrest⟩ := hmem x hx
        exact ⟨h', List.mem_cons_of_mem _ hh', hrest⟩

/-- **At most two chains are on their way**: each has three of the eight descriptors. -/
theorem Flying.length_le (h : Flying d c A U) (ho : Owning d.free c) : (flight d A U).length ≤ 2 := by
  obtain ⟨M, hM, hlen, -⟩ := exists_members ho h.nodup fun x hx => by
    obtain ⟨p, b, j, k, hp, -⟩ := (h.heads x).1 hx
    exact ⟨p, b, j, k, hp⟩
  have hcard := hM.length_le_card
  rw [Fintype.card_fin, hlen] at hcard
  change _ ≤ 8 at hcard
  omega

end

section

omit [DecidableEq B]

theorem length_flight : (flight d A U).length = A.length + (d.pending.length + U.length) := by
  simp [flight]

theorem waiting_update {bdisk : B → Bool} {h : Fin num}
    (hp : ∀ b i j k, c p = some (.wait b i j k) → bdisk b = false) (ho : ∀ b i j k, o ≠ some (.wait b i j k)) :
    Waiting (update c p o) bdisk h ↔ Waiting c bdisk h := by
  constructor
  · rintro ⟨q, b, j, k, hq, hb⟩
    by_cases hqp : q = p
    · subst hqp
      rw [update_self] at hq
      exact absurd hq (ho b h j k)
    · rw [update_of_ne hqp] at hq
      exact ⟨q, b, j, k, hq, hb⟩
  · rintro ⟨q, b, j, k, hq, hb⟩
    have hqp : q ≠ p := by
      rintro rfl
      rw [hp b h j k hq] at hb
      cases hb
    exact ⟨q, b, j, k, by rw [update_of_ne hqp, hq], hb⟩

end

omit [DecidableEq B] in
theorem Flying.calls (h : Flying d c A U) (hp : ∀ b i j k, c p = some (.wait b i j k) → d.bdisk b = false)
    (ho : ∀ b i j k, o ≠ some (.wait b i j k)) : Flying d (update c p o) A U :=
  { h with heads := fun x => (h.heads x).trans (waiting_update hp ho).symm }

section

omit [DecidableEq B] [DecidableEq P]

theorem Flying.frame (h : Flying d c A U) (desc : Fin num → Desc B) (free : Fin num → Bool) (usedIdx : UInt16) :
    Flying { d with desc := desc, free := free, usedIdx := usedIdx } c A U :=
  ⟨h.nodup, h.heads, h.availIdx, h.seen, h.started, h.avail, h.usedId, h.reported, h.used, h.reqs, h.count⟩

theorem Flying.not_mem (h : Flying d c A U) (ho : Owning d.free c) (hp : c p = some l)
    (hl : ∀ b i j k, l ≠ .wait b i j k) {i : Fin num} (hi : i ∈ l.owns) : i ∉ flight d A U := by
  intro him
  obtain ⟨q, b, j, k, hq, -⟩ := (h.heads i).1 him
  have hpq := ho.apart p q l _ i hp hq hi (by simp [Pc.owns])
  subst hpq
  rw [hp] at hq
  exact hl b i j k (Option.some.inj hq)

end

/-! ## The rings -/

theorem ringCell_eq {x : UInt16} {n : ℕ} (h : x.toNat = n % 2 ^ 16) : ringCell x = Fin.ofNat num n := by
  apply Fin.ext
  change x.toNat % 8 = n % 8
  omega

theorem toNat_succ_eq {x : UInt16} {n : ℕ} (h : x.toNat = n % 2 ^ 16) : (x + 1).toNat = (n + 1) % 2 ^ 16 := by
  rw [UInt16.toNat_add, h]
  change (n % 2 ^ 16 + 1) % 2 ^ 16 = _
  omega

section

omit [DecidableEq B] [DecidableEq P]

theorem Flying.setInfo (h : Flying d c A U) {i : Fin num} (hi : i ∉ flight d A U) (v : Info B) :
    Flying { d with info := update d.info i v } c A U := by
  have hsame : ∀ x ∈ flight d A U, update d.info i v x = d.info x := by
    intro x hx
    apply update_of_ne
    rintro rfl
    exact hi hx
  refine ⟨h.nodup, h.heads, h.availIdx, h.seen, h.started, h.avail, h.usedId, h.reported, h.used, ?_, ?_⟩
  · intro r hr
    have hmem : r.head ∈ flight d A U := by
      simp only [flight, List.mem_append, List.mem_map]
      exact .inr (.inl ⟨r, hr, rfl⟩)
    change r.buf = (update d.info i v r.head).b ∧ _
    rw [hsame r.head hmem]
    exact h.reqs r hr
  · have hmap : (A.map fun x => (update d.info i v x).b) = A.map fun x => (d.info x).b := by
      apply List.map_congr_left
      intro x hx
      rw [hsame x (List.mem_append_left _ hx)]
    change (d.started.map some).Perm (d.finished ++ (d.pending.map Request.buf ++ A.map _))
    rw [hmap]
    exact h.count

theorem Flying.setAvail (h : Flying d c A U) (hlen : A.length < num) (x : ℕ) :
    Flying { d with avail := update d.avail (ringCell d.availIdx) x } c A U := by
  refine ⟨h.nodup, h.heads, h.availIdx, h.seen, h.started, ?_, h.usedId, h.reported, h.used, h.reqs, h.count⟩
  change cells (update d.avail (ringCell d.availIdx) x) d.consumed A.length = _
  rw [ringCell_eq h.availIdx, h.started, cells_update _ _ hlen, h.avail]

end

omit [DecidableEq P] in
theorem Flying.setDisk (h : Flying d c A U) {b : B} (hb : ∀ q i j k, c q ≠ some (.wait b i j k)) :
    Flying { d with bdisk := update d.bdisk b true } c A U := by
  refine ⟨h.nodup, fun x => (h.heads x).trans ?_, h.availIdx, h.seen, h.started, h.avail, h.usedId, h.reported,
    h.used, h.reqs, h.count⟩
  have hne : ∀ q b' j k, c q = some (.wait b' x j k) → b' ≠ b := by
    rintro q b' j k hq rfl
    exact hb q x j k hq
  constructor
  · rintro ⟨q, b', j, k, hq, hb'⟩
    exact ⟨q, b', j, k, hq, (update_of_ne (hne q b' j k hq) _ _).trans hb'⟩
  · rintro ⟨q, b', j, k, hq, hb'⟩
    exact ⟨q, b', j, k, hq, (update_of_ne (hne q b' j k hq) _ _).symm.trans hb'⟩

omit [DecidableEq B] in
/-- **The available ring gets an entry**: the call waits for its chain from now on. -/
theorem Flying.publish (h : Flying d c A U) (ho : Owning d.free c) {b : B} {i j k : Fin num}
    (hp : c p = some (.publish b i j k)) (hbuf : (d.info i).b = some b) (hdisk : d.bdisk b = true)
    (hcell : d.avail (ringCell d.availIdx) = i) :
    Flying (d.publish b) (update c p (some (.wait b i j k))) (A ++ [i]) U := by
  have hnot : i ∉ flight d A U := h.not_mem ho hp nofun (by simp [Pc.owns])
  have hperm : (flight (d.publish b) (A ++ [i]) U).Perm (i :: flight d A U) := by
    unfold flight
    rw [← List.append_cons]
    exact List.perm_middle
  rw [ringCell_eq h.availIdx, h.started] at hcell
  refine ⟨hperm.nodup_iff.2 (List.nodup_cons.2 ⟨hnot, h.nodup⟩), fun x => ?_, ?_, h.seen, ?_, ?_, h.usedId,
    h.reported, h.used, h.reqs, ?_⟩
  · rw [hperm.mem_iff, List.mem_cons, h.heads x]
    constructor
    · rintro (rfl | ⟨q, b', j', k', hq, hb'⟩)
      · exact ⟨p, b, j, k, update_self .., hdisk⟩
      · have hqp : q ≠ p := by
          rintro rfl
          rw [hp] at hq
          cases hq
        exact ⟨q, b', j', k', by rw [update_of_ne hqp, hq], hb'⟩
    · rintro ⟨q, b', j', k', hq, hb'⟩
      by_cases hqp : q = p
      · subst hqp
        rw [update_self] at hq
        cases hq
        exact .inl rfl
      · rw [update_of_ne hqp] at hq
        exact .inr ⟨q, b', j', k', hq, hb'⟩
  · change (d.availIdx + 1).toNat = (d.started ++ [b]).length % 2 ^ 16
    rw [toNat_succ_eq h.availIdx, List.length_append]
    rfl
  · change (d.started ++ [b]).length = d.consumed + (A ++ [i]).length
    simp only [List.length_append, h.started, List.length_singleton]
    omega
  · change cells d.avail d.consumed (A ++ [i]).length = (A ++ [i]).map Fin.val
    rw [List.length_append, cells_add, h.avail, List.map_append, List.length_singleton, cells_succ, hcell]
    rfl
  · change ((d.started ++ [b]).map some).Perm (d.finished ++ (_ ++ (A ++ [i]).map fun x => (d.info x).b))
    rw [List.map_append, List.map_append, ← List.append_assoc, ← List.append_assoc]
    have hlast : [i].map (fun x => (d.info x).b) = [b].map some := by rw [List.map_singleton, hbuf]; rfl
    rw [hlast]
    refine List.Perm.append_right _ ?_
    rw [List.append_assoc]
    exact h.count

omit [DecidableEq B] [DecidableEq P] in
theorem Flying.head_used {x : Fin num} (h : Flying d c A (x :: U)) :
    d.used (Fin.ofNat num d.handled.length) = x ∧ cells d.used (d.handled.length + 1) U.length = U.map Fin.val := by
  have hused := h.used
  rw [List.length_cons, cells_succ, List.map_cons] at hused
  exact List.cons.inj hused

omit [DecidableEq P] in
/-- **An entry of the used ring is handled**: the call that waits for the chain gets its buffer back. -/
theorem Flying.done {x : Fin num} (h : Flying d c A (x :: U)) (ho : Owning d.free c)
    (hbufs : ∀ p q l k b, c p = some l → c q = some k → l.buf = some b → k.buf = some b → p = q)
    {q : P} {b : B} {j k : Fin num} (hq : c q = some (.wait b x j k)) : Flying (d.done b x) c A U := by
  have hperm : (flight d A (x :: U)).Perm (x :: flight d A U) := by
    unfold flight
    rw [← List.append_assoc, ← List.append_assoc]
    exact List.perm_middle
  have hnodup := hperm.nodup_iff.1 h.nodup
  rw [List.nodup_cons] at hnodup
  refine ⟨hnodup.2, fun y => ?_, h.availIdx, h.seen, h.started, h.avail, h.usedId, ?_, ?_, h.reqs, h.count⟩
  · change y ∈ flight d A U ↔ _
    have hmem : y ∈ flight d A U ↔ y ∈ flight d A (x :: U) ∧ y ≠ x := by
      rw [hperm.mem_iff, List.mem_cons]
      constructor
      · intro hy
        refine ⟨.inr hy, ?_⟩
        rintro rfl
        exact hnodup.1 hy
      · rintro ⟨hy, hne⟩
        exact hy.resolve_left hne
    rw [hmem, h.heads y]
    constructor
    · rintro ⟨⟨q', b', j', k', hq', hb'⟩, hne⟩
      have hbb : b' ≠ b := by
        rintro rfl
        have hqq := hbufs q q' _ _ b' hq hq' rfl rfl
        subst hqq
        rw [hq] at hq'
        cases hq'
        exact hne rfl
      exact ⟨q', b', j', k', hq', (update_of_ne hbb _ _).trans hb'⟩
    · rintro ⟨q', b', j', k', hq', hb'⟩
      have hbb : b' ≠ b := by
        rintro rfl
        have hfalse : (d.done b' x).bdisk b' = false := update_self ..
        rw [hfalse] at hb'
        cases hb'
      refine ⟨⟨q', b', j', k', hq', (update_of_ne hbb _ _).symm.trans hb'⟩, ?_⟩
      rintro rfl
      have hqq := ho.apart q q' _ _ y hq hq' (by simp [Pc.owns]) (by simp [Pc.owns])
      subst hqq
      rw [hq] at hq'
      cases hq'
      exact hbb rfl
  · change d.reported = (d.handled ++ [x.val]) ++ U.map Fin.val
    rw [h.reported, List.map_cons, List.append_cons]
  · change cells d.used (d.handled ++ [x.val]).length U.length = U.map Fin.val
    rw [List.length_append]
    exact h.head_used.2

section

omit [DecidableEq B] [DecidableEq P]

theorem Flying.seen_eq_iff (h : Flying d c A U) (hlen : A.length ≤ 2) : d.seen = d.availIdx ↔ A = [] := by
  rw [← UInt16.toNat_inj, h.seen, h.availIdx, h.started, ← List.length_eq_zero_iff]
  omega

/-- **The driver sees whether there are entries**, though it compares modulo the length of the ring. -/
theorem Flying.usedIdx_eq_iff (h : Flying d c A U) (hlen : U.length ≤ 2)
    (hidx : d.usedIdx.toNat = d.handled.length % 8) : d.usedIdx % 8 = d.usedId % 8 ↔ U = [] := by
  have hrep : d.reported.length = d.handled.length + U.length := by
    rw [h.reported, List.length_append, List.length_map]
  rw [← UInt16.toNat_inj, UInt16.toNat_mod, UInt16.toNat_mod, h.usedId, hidx, hrep, ← List.length_eq_zero_iff]
  change d.handled.length % 8 % 8 = (d.handled.length + U.length) % 2 ^ 16 % 8 ↔ _
  omega

end

section

omit [DecidableEq P]

omit [DecidableEq B] in
theorem Flying.consume (h : Flying d c A U) (hlen : A.length ≤ 2)
    (hchain : ∀ q b i j k, c q = some (.wait b i j k) → Chain d b i j k) (hd : consume d = some d') :
    ∃ r s n, d' = { d with seen := s, pending := d.pending ++ [r], consumed := n } ∧
      ∃ A', Flying d' c A' U := by
  unfold Virtio.consume at hd
  split_ifs at hd with hseen hlt
  cases hd
  refine ⟨_, _, _, rfl, ?_⟩
  cases A with
  | nil => exact absurd ((h.seen_eq_iff hlen).2 rfl) hseen
  | cons x A =>
    have havail := h.avail
    rw [List.length_cons, cells_succ, List.map_cons] at havail
    obtain ⟨hx, hrest⟩ := List.cons.inj havail
    have hcell : d.avail (ringCell d.seen) = x := by rw [ringCell_eq h.seen, hx]
    have hhead : (⟨d.avail (ringCell d.seen), hlt⟩ : Fin num) = x := Fin.ext hcell
    rw [hhead]
    obtain ⟨q, b, j, k, hq, -⟩ := (h.heads x).1 (by simp [flight])
    have hc := hchain q b x j k hq
    have hperm : (A ++ ((d.pending ++ [(⟨x, chainBuf d x, chainStat d x⟩ : Request B)]).map Request.head ++ U)).Perm
        (flight d (x :: A) U) := by
      simp only [flight, List.map_append, List.map_singleton, List.append_assoc, List.cons_append, List.nil_append]
      rw [← List.append_assoc, ← List.append_assoc]
      exact List.perm_middle
    refine ⟨A, hperm.nodup_iff.2 h.nodup, fun y => hperm.mem_iff.trans (h.heads y), h.availIdx, ?_, ?_, hrest,
      h.usedId, h.reported, h.used, ?_, ?_⟩
    · exact toNat_succ_eq h.seen
    · change d.started.length = d.consumed + 1 + A.length
      rw [h.started, List.length_cons]
      omega
    · intro r hr
      rcases List.mem_append.1 hr with hr | hr
      · exact h.reqs r hr
      · rw [List.mem_singleton] at hr
        subst hr
        exact ⟨hc.chainBuf.trans hc.buf.symm, hc.chainStat⟩
    · refine h.count.trans (List.Perm.append_left _ ?_)
      change (_ ++ (d.info x).b :: A.map _).Perm ((d.pending ++ [_]).map Request.buf ++ A.map fun y => (d.info y).b)
      rw [List.map_append, List.map_singleton, hc.chainBuf, hc.buf, List.append_assoc]
      rfl

/-- **A buffer the disk does not have** was finished as often as requests for it were made. -/
theorem Flying.count_eq (h : Flying d c A U)
    (hchain : ∀ q b i j k, c q = some (.wait b i j k) → Chain d b i j k) {b : B} (hb : d.bdisk b = false) :
    d.started.count b = d.finished.count (some b) := by
  have hbuf : ∀ x ∈ flight d A U, (d.info x).b ≠ some b := by
    intro x hx hxb
    obtain ⟨q, b', j, k, hq, hb'⟩ := (h.heads x).1 hx
    rw [(hchain q b' x j k hq).buf] at hxb
    cases hxb
    rw [hb] at hb'
    cases hb'
  have hpend : (d.pending.map Request.buf).count (some b) = 0 := by
    rw [List.count_eq_zero, List.mem_map]
    rintro ⟨r, hr, hrb⟩
    rw [(h.reqs r hr).1] at hrb
    refine hbuf r.head ?_ hrb
    simp only [flight, List.mem_append, List.mem_map]
    exact .inr (.inl ⟨r, hr, rfl⟩)
  have havail : (A.map fun x => (d.info x).b).count (some b) = 0 := by
    rw [List.count_eq_zero, List.mem_map]
    rintro ⟨x, hx, hxb⟩
    exact hbuf x (List.mem_append_left _ hx) hxb
  have hcount := h.count.count_eq (some b)
  rw [List.count_append, List.count_append, hpend, havail, List.count_map_of_injective _ _ (Option.some_injective B)]
    at hcount
  exact hcount

end

section

omit [DecidableEq B]

theorem info_b_setStatus (s x : Fin num) : ((d.setStatus s).info x).b = (d.info x).b := by
  by_cases hx : x = s
  · subst hx
    simp [Disk.setStatus]
  · simp [Disk.setStatus, update_of_ne hx]

theorem Chain.setStatus {b : B} {i j k : Fin num} (h : Chain d b i j k) (s : Fin num) :
    Chain (d.setStatus s) b i j k := by
  refine ⟨(info_b_setStatus s i).trans h.buf, ?_, h.links, h.data, h.stat⟩
  by_cases hi : i = s
  · subst hi
    simp [Disk.setStatus]
  · simp [Disk.setStatus, update_of_ne hi, h.status]

end

omit [DecidableEq P] [DecidableEq B] in
theorem Flying.complete {n : ℕ} (h : Flying d c A U) (hlen : U.length ≤ 2) (hd : complete n d = some d') :
    ∃ s r, d' = (d.setStatus s).report r n ∧ ∃ U', Flying d' c A U' := by
  unfold Virtio.complete at hd
  split at hd
  · cases hd
  · next r hr =>
    split at hd
    · cases hd
    · next s hs =>
      cases hd
      refine ⟨s, r, rfl, U ++ [r.head], ?_⟩
      obtain ⟨hn, hget⟩ := List.getElem?_eq_some_iff.1 hr
      have hpend : d.pending.Perm (r :: d.pending.eraseIdx n) := by
        have := List.getElem_cons_eraseIdx_perm hn
        rw [hget] at this
        exact this.symm
      have hperm : (flight ((d.setStatus s).report r n) A (U ++ [r.head])).Perm (flight d A U) := by
        unfold flight
        refine List.Perm.append_left _ ?_
        refine List.Perm.trans ?_ (List.Perm.append_right U (hpend.map Request.head).symm)
        change ((d.pending.eraseIdx n).map Request.head ++ (U ++ [r.head])).Perm _
        rw [← List.append_assoc]
        exact List.perm_append_singleton _ _
      have hrep : d.reported.length = d.handled.length + U.length := by
        rw [h.reported, List.length_append, List.length_map]
      refine ⟨hperm.nodup_iff.2 h.nodup, fun y => hperm.mem_iff.trans (h.heads y), h.availIdx, h.seen, h.started,
        h.avail, ?_, ?_, ?_, ?_, ?_⟩
      · change (d.usedId + 1).toNat = (d.reported ++ [r.head.val]).length % 2 ^ 16
        rw [toNat_succ_eq h.usedId, List.length_append]
        rfl
      · change d.reported ++ [r.head.val] = d.handled ++ (U ++ [r.head]).map Fin.val
        rw [h.reported, List.map_append, List.append_assoc]
        rfl
      · change cells (update d.used (ringCell d.usedId) r.head) d.handled.length (U ++ [r.head]).length = _
        have hlt : U.length < num := lt_of_le_of_lt hlen (by decide)
        rw [ringCell_eq h.usedId, hrep, List.length_append, List.length_singleton, cells_push _ _ hlt, h.used,
          List.map_append]
        rfl
      · intro r' hr'
        have hmem : r' ∈ d.pending := hpend.mem_iff.2 (List.mem_cons_of_mem _ hr')
        refine ⟨(h.reqs r' hmem).1.trans (info_b_setStatus s _).symm, (h.reqs r' hmem).2⟩
      · have hmap : (A.map fun x => (((d.setStatus s).report r n).info x).b) = A.map fun x => (d.info x).b :=
          List.map_congr_left fun x _ => info_b_setStatus s x
        rw [hmap]
        refine h.count.trans ?_
        rw [show ((d.setStatus s).report r n).finished = d.finished ++ [r.buf] from rfl, List.append_assoc]
        refine List.Perm.append_left _ ?_
        exact List.Perm.append_right _ (hpend.map Request.buf)

end

end Xv6.Virtio

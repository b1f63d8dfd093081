import Xv6.Fs.Locks

/-!
# What the commands do to the invariant

A proof outline for each command of `Xv6.Fs.Code`: what the process that performs it knows afterwards.

* `Inv.holder`: the holder of an inode's lock acts on its entry, on the inode and on the blocks.
* `bread_safe`, `data_safe`, `logWrite_safe`, `brelse_safe`: buffers.
* **`setData_safe`**, **`setRow_safe`**, **`store_safe`**: stores to a buffer and to an inode, given what
  they do to the ledger of blocks.
* `acquiresleep_safe`, `load_safe`, `iputStart_safe`, `releasesleep_safe`: locks.
* `iget_safe`, `idup_safe`, `iputEnd_safe`, `give_safe`: references.
-/

namespace Xv6.Fs

open Function Bytes Prog
open Bio (BufId)
open Icache (Ip Entry Facts PcOk)

variable {L : Layout} {s : State} {g : Pid → Local} {G : Shared} {p : Pid} {γ : Local} {h : BufId}
  {b i : ℕ} {d : Block} {e : Ip} {r : Row} {δ : Bool}

def At (c : Icache.Pc) (e : Ip) : Prop := c = .idle ∨ ∃ st, c = .own st e

theorem At.stage {c : Icache.Pc} (h : At c e) {a : Ip} (ha : a ≠ e) : c.stage a = none := by
  rcases h with rfl | ⟨st, rfl⟩
  · rfl
  · exact if_neg (Ne.symm ha)

theorem stage_own (st : Icache.Stage) (e : Ip) : (Icache.Pc.own st e).stage e = some st := if_pos rfl

namespace Inv

variable (hi : Inv L s g G)

include hi

theorem inum_lt {x : Option (Row × Bool)} (hk : (g p).lk e = some (i, x)) : i < L.ninodes := by
  obtain ⟨hl, hkey⟩ := hi.lock.holds hk
  exact hi.ic.range_of_lock hl hkey

theorem facts {x : Option (Row × Bool)} (hk : (g p).lk e = some (i, x)) :
    Facts (s.entry e) (dinodeMap L s.blk (rootDev, i)) (G.dirty e) ((g p).pc.stage e) := by
  obtain ⟨hl, hkey⟩ := hi.lock.holds hk
  have := hi.ic.ic.facts hl rfl
  change Facts (s.entry e) (dinodeMap L s.blk (s.entry e).key) _ _ at this
  rwa [hkey] at this

theorem disk_eq_row {a : Ip} (hkey : (s.entry a).key = (rootDev, i)) (hn : i < L.ninodes)
    (hr : 0 < ∑ q, s.mine q a) (hd : G.dirty a = false) :
    dinodeMap L s.blk (rootDev, i) = (G.row i).din := by
  rcases hi.ic.table i hn with ht | ⟨c, hc, hck⟩
  · exact ht
  · exfalso
    obtain ⟨q, hq⟩ : ∃ q, s.ilock c = some q := by
      by_contra hno
      have hnone : s.ilock c = none := Option.eq_none_iff_forall_ne_some.2 fun q hq => hno ⟨q, hq⟩
      cases hc.symm.trans (hi.ic.ic.clean c hnone)
    have := hi.ic.ic.uniq c a (hi.ic.ic.refs_pos_of_lock hq) hr (hck.trans hkey.symm)
    rw [this, hd] at hc
    cases hc

/-- **The holder of a lock acts.** -/
theorem holder {blk : ℕ → Block} {v : Entry} {γ : Local} {w : Dinode} {x o : Option (Row × Bool)}
    (hk : (g p).lk e = some (i, x)) (hlk : γ.lk = update (g p).lk e (some (i, o)))
    (hop : γ.op = (g p).op) (hbuf : BufOk s.hold blk (update (fun q => (g q).buf) p γ.buf))
    (hmap : dinodeMap L blk = update (dinodeMap L s.blk) (rootDev, i) w)
    (hv : v.key = (s.entry e).key) (href : v.ref = (s.entry e).ref) (hat : At (g p).pc e)
    (hat' : At γ.pc e) (hf : Facts v w δ (γ.pc.stage e)) (ht : w = r.din ∨ δ = true)
    (hknown : ∀ y, o = some y → v.valid = true ∧ v.din = y.1.din ∧ δ = y.2 ∧ r = y.1 ∧ w.type ≠ 0)
    (hrest : r.loose = false ∧ r.dead = ∅ ∨ o.isSome)
    (hdata : DataOk L blk s.stale (update G.row i r)
      (update (fun q => (g q).pend) p γ.pend)) :
    Inv L { s with blk := blk, entry := update s.entry e v } (update g p γ)
      ⟨update G.row i r, update G.dirty e δ⟩ := by
  obtain ⟨hl, hkey⟩ := hi.lock.holds hk
  refine of_update hbuf ?_ ?_ hdata (hi.op' hop)
  · rw [hmap]
    refine hi.ic.owner hl hkey hv href (fun a ha => ?_) ?_ hf ht
    · rw [hat'.stage ha]
      exact (hat.stage ha).symm
    · rcases hat' with hc | ⟨st, hc⟩
      · rw [hc]
        exact trivial
      · rw [hc]
        exact hl
  · rw [hmap, hlk]
    exact hi.lock.holder hi.ic hk hv hknown hrest

theorem holder' {v : Entry} {γ : Local} {x o : Option (Row × Bool)} (hk : (g p).lk e = some (i, x))
    (hlk : γ.lk = update (g p).lk e (some (i, o))) (hop : γ.op = (g p).op)
    (hbuf : γ.buf = (g p).buf) (hv : v.key = (s.entry e).key) (href : v.ref = (s.entry e).ref)
    (hat : At (g p).pc e) (hat' : At γ.pc e)
    (hf : Facts v (dinodeMap L s.blk (rootDev, i)) δ (γ.pc.stage e))
    (ht : dinodeMap L s.blk (rootDev, i) = r.din ∨ δ = true)
    (hknown : ∀ y, o = some y → v.valid = true ∧ v.din = y.1.din ∧ δ = y.2 ∧ r = y.1 ∧
      (dinodeMap L s.blk (rootDev, i)).type ≠ 0)
    (hrest : r.loose = false ∧ r.dead = ∅ ∨ o.isSome)
    (hdata : DataOk L s.blk s.stale (update G.row i r)
      (update (fun q => (g q).pend) p γ.pend)) :
    Inv L (s.setEntry e v) (update g p γ)
      ⟨update G.row i r, update G.dirty e δ⟩ :=
  hi.holder hk hlk hop (hi.buf.keep hbuf) (update_eq_self _ _).symm hv href hat hat' hf ht hknown
    hrest hdata

end Inv

/-! ## Buffers -/

def OffLog (L : Layout) (b : ℕ) : Prop := b < L.logstart ∨ L.logstart + L.nlog ≤ b

theorem offLog_iblock (i : ℕ) : OffLog L (L.iblock i) :=
  .inr (L.logstart_le.trans (L.inodestart_le_iblock i))

theorem bmapstart_of_offLog : L.logstart + L.nlog ≤ L.bmapstart :=
  L.logstart_le.trans ((Nat.le_add_right _ _).trans L.inodestart_le)

theorem offLog_bblock (b : ℕ) : OffLog L (L.bblock b) :=
  .inr (bmapstart_of_offLog.trans (L.bmapstart_le_bblock b))

theorem bmapstart_le_nmeta : L.bmapstart ≤ L.nmeta := (Nat.le_add_right _ _).trans L.bmapstart_le

theorem offLog_data (hb : L.nmeta ≤ b) : OffLog L b :=
  .inr (bmapstart_of_offLog.trans (bmapstart_le_nmeta.trans hb))

theorem panic_safe {α : Type} {Q : α → Local → Prop} : Safe (logic L) p γ (panic : FsProg α) Q :=
  fun _ _ _ _ => ⟨trivial, fun _ _ _ hr => by cases hr⟩

theorem bread_safe (hb : OffLog L b) :
    Safe (logic L) p γ (bread b) fun h γ' =>
      ∃ d, γ.buf h = none ∧ γ' = γ.setBuf h (some (b, d)) := by
  refine Safe.perform fun s g hi hg => ⟨hb, fun o s' r hr => ?_⟩
  obtain ⟨G, hi⟩ := hi
  obtain ⟨⟨ho, hfree⟩, hr⟩ := Option.ite_none_right_eq_some.1 hr
  cases hr
  refine ⟨_, ⟨G, hi.bread ho hfree⟩, s.blk b, ?_, by rw [hg]⟩
  -- the buffer was not in use, so `p` did not hold it
  rw [← hg, Option.eq_none_iff_forall_ne_some]
  rintro ⟨c, x⟩ hx
  have := ((hi.buf.known p o c x).1 hx).1
  rw [ho] at this
  cases this

theorem data_safe (hb : γ.buf h = some (b, d)) :
    Safe (logic L) p γ (data h) fun x γ' => x = d ∧ γ' = γ := by
  refine Safe.perform fun s g ⟨G, hi⟩ hg => ?_
  subst hg
  obtain ⟨hh, hd⟩ := hi.held hb
  refine ⟨by change (s.held p h).isSome; rw [hh]; rfl, fun o s' r hr => ?_⟩
  change (s.held p h).map (fun b => (s, s.blk b)) = some (s', r) at hr
  rw [hh] at hr
  cases hr
  exact ⟨_, ⟨G, hi.id'⟩, hd, rfl⟩

theorem brelse_safe (hb : γ.buf h = some (b, d)) :
    Safe (logic L) p γ (brelse h) fun _ γ' => γ' = γ.setBuf h none := by
  refine Safe.perform fun s g ⟨G, hi⟩ hg => ?_
  subst hg
  obtain ⟨hh, -⟩ := hi.held hb
  refine ⟨by change (s.held p h).isSome; rw [hh]; rfl, fun o s' r hr => ?_⟩
  change (s.held p h).map (fun _ => (s.setHold h none, ())) = some (s', r) at hr
  rw [hh] at hr
  cases hr
  exact ⟨_, ⟨G, hi.brelse hb⟩, rfl⟩

theorem Inv.unstale (hi : Inv L s g G) (b : ℕ) :
    DataOk L s.blk (update s.stale b false) G.row fun q => (g q).pend := by
  refine hi.data.setStale fun x hx => ?_
  by_cases hxb : x = b
  · rw [hxb, update_self] at hx
    cases hx
  · rw [update_of_ne hxb] at hx
    exact .inl hx

theorem logWrite_safe' {z : Option (ℕ × Bool)} (hb : γ.buf h = some (b, d)) (hop : γ.op = true)
    (hz : ∀ blk stale row pend, DataOk L blk stale row pend → stale b = false → blk b = d →
      pend p = γ.pend → DataOk L blk stale row (update pend p z)) :
    Safe (logic L) p γ (logWrite h) fun _ γ' => γ' = γ.setPend z := by
  refine Safe.perform fun s g ⟨G, hi⟩ hg => ?_
  subst hg
  obtain ⟨hh, hd⟩ := hi.held hb
  have hop' : s.inOp p = true := by rw [← hi.op p, hop]
  refine ⟨⟨by rw [hh]; rfl, hop'⟩, fun o s' r hr => ?_⟩
  change (if s.inOp p = true then (s.held p h).map fun b =>
    ({ s with stale := update s.stale b false }, ()) else none) = some (s', r) at hr
  rw [if_pos hop', hh] at hr
  cases hr
  refine ⟨(g p).setPend z, ⟨G, Inv.of_update (hi.buf.keep rfl) (hi.ic.keep rfl) (hi.lock.keep rfl) ?_
    (hi.op' rfl)⟩, rfl⟩
  exact hz _ _ _ _ (hi.unstale b) (update_self ..) hd rfl

theorem logWrite_safe (hb : γ.buf h = some (b, d)) (hop : γ.op = true) :
    Safe (logic L) p γ (logWrite h) fun _ γ' => γ' = γ :=
  logWrite_safe' hb hop fun _ _ _ _ hdata _ _ hp => by
    rw [← hp, update_eq_self]
    exact hdata

theorem logWrite_zero_safe {z : Bool} (hb : γ.buf h = some (b, fun _ => 0)) (hop : γ.op = true)
    (hp : γ.pend = some (b, z)) :
    Safe (logic L) p γ (logWrite h) fun _ γ' => γ' = γ.setPend (some (b, true)) :=
  logWrite_safe' hb hop fun _ _ _ _ hdata hs hz hp' => hdata.zeroed (hp'.trans hp) hs hz

/-! ## Stores -/

/-- **A store to a buffer** outside the inode blocks, given what it does to the ledger. -/
theorem setData_safe {w : Block} {z : Option (ℕ × Bool)} (hb : γ.buf h = some (b, d))
    (hop : γ.op = true) (hout : L.bmapstart ≤ b)
    (hdata : ∀ blk stale row pend, DataOk L blk stale row pend → blk b = d → pend p = γ.pend →
      DataOk L (update blk b w) stale row (update pend p z)) :
    Safe (logic L) p γ (setData h w) fun _ γ' =>
      γ' = (γ.setBuf h (some (b, w))).setPend z := by
  refine Safe.perform fun s g ⟨G, hi⟩ hg => ?_
  subst hg
  obtain ⟨hh, hd⟩ := hi.held hb
  refine ⟨⟨by rw [hh]; rfl, by rw [← hi.op p, hop]⟩, fun o s' r hr => ?_⟩
  change (s.held p h).map (fun b => (s.setBlk b w, ())) = some (s', r) at hr
  rw [hh] at hr
  cases hr
  have hmap : dinodeMap L (update s.blk b w) = dinodeMap L s.blk :=
    dinodeMap_update (.inr hout)
  refine ⟨((g p).setBuf h (some (b, w))).setPend z, ⟨G, Inv.of_update (hi.buf.write hb w) ?_ ?_
    (hdata _ _ _ _ hi.data hd rfl) (hi.op' rfl)⟩, rfl⟩
  · change IcOk L _ _ _ (dinodeMap L (update s.blk b w)) _ _
    rw [hmap]
    exact hi.ic.keep rfl
  · change LockOk _ _ (dinodeMap L (update s.blk b w)) _ _
    rw [hmap]
    exact hi.lock.keep rfl

/-- **A store to a buffer that changes what a locked inode owns.** -/
theorem setRow_safe {w : Block} {z : Option (ℕ × Bool)} {t : Row} (hb : γ.buf h = some (b, d))
    (hop : γ.op = true) (hk : γ.lk e = some (i, some (r, δ))) (hat : At γ.pc e)
    (hr' : t.din = r.din) (hout : L.bmapstart ≤ b)
    (hdata : ∀ blk stale row pend, DataOk L blk stale row pend → blk b = d → row i = r →
      i < L.ninodes → pend p = γ.pend →
      DataOk L (update blk b w) stale (update row i t) (update pend p z)) :
    Safe (logic L) p γ (setData h w) fun _ γ' =>
      γ' = ((γ.setBuf h (some (b, w))).setLk e (some (i, some (t, δ)))).setPend z := by
  refine Safe.perform fun s g ⟨G, hi⟩ hg => ?_
  subst hg
  obtain ⟨hh, hd⟩ := hi.held hb
  refine ⟨⟨by rw [hh]; rfl, by rw [← hi.op p, hop]⟩, fun o s' _ hr => ?_⟩
  change (s.held p h).map (fun b => (s.setBlk b w, ())) = some (s', _) at hr
  rw [hh] at hr
  cases hr
  obtain ⟨hv, hdin, hdirty, hrow, hty⟩ := hi.lock.known hk
  have hmap : dinodeMap L (update s.blk b w) =
      update (dinodeMap L s.blk) (rootDev, i) (dinodeMap L s.blk (rootDev, i)) := by
    rw [update_eq_self]
    exact dinodeMap_update (.inr hout)
  have htable : dinodeMap L s.blk (rootDev, i) = t.din ∨ δ = true := by
    cases δ with
    | true => exact .inr rfl
    | false =>
      obtain ⟨hl, hkey⟩ := hi.lock.holds hk
      rw [hr', ← hrow]
      exact .inl (hi.disk_eq_row hkey (hi.inum_lt hk) (hi.ic.ic.refs_pos_of_lock hl) hdirty)
  have := hi.holder (v := s.entry e) (r := t) (δ := δ) (o := some (t, δ))
    (γ := (((g p).setBuf h (some (b, w))).setLk e (some (i, some (t, δ)))).setPend z)
    hk rfl rfl (hi.buf.write hb w) hmap rfl rfl hat hat
    (hdirty ▸ hi.facts hk) htable (fun y hy => ?_) (.inr rfl)
    (hdata _ _ _ _ hi.data hd hrow (hi.inum_lt hk) rfl)
  · rw [update_eq_self] at this
    exact ⟨_, ⟨_, this⟩, rfl⟩
  · cases hy
    exact ⟨hv, hdin.trans hr'.symm, rfl, rfl, hty⟩

/-- **A copy into a block of a file.** If it fails, the block keeps what was copied and is not logged. -/
theorem copyin_safe {k off len : ℕ} {src : Source} (hb : γ.buf h = some (b, d)) (hop : γ.op = true)
    (hk : γ.lk e = some (i, some (r, δ))) (ho : r.own k = some b) (hslot : k ≠ indSlot) :
    Safe (logic L) p γ (copyinBuf h off src len) fun _ γ' =>
      ∃ d', γ' = γ.setBuf h (some (b, d')) := by
  refine Safe.perform fun s g ⟨G, hi⟩ hg => ?_
  subst hg
  obtain ⟨hh, hd⟩ := hi.held hb
  refine ⟨⟨by rw [hh]; rfl, by rw [← hi.op p, hop]⟩, fun o s' ok hr => ?_⟩
  obtain ⟨-, -, -, hrow, -⟩ := hi.lock.known hk
  have hown : (G.row i).own k = some b := hrow ▸ ho
  -- whatever was copied
  have hinv : ∀ d' stale, (∀ x, stale x = true → s.stale x = true ∨ x = b) →
      Inv L { s.setBlk b d' with stale := stale }
        (update g p ((g p).setBuf h (some (b, d')))) G := by
    intro d' stale hs
    have hmap : dinodeMap L (update s.blk b d') = dinodeMap L s.blk :=
      dinodeMap_update (.inr (bmapstart_le_nmeta.trans (hi.data.own_range hown).1))
    refine Inv.of_update (hi.buf.write hb d') ?_ ?_ ?_ (hi.op' rfl)
    · change IcOk L _ _ _ (dinodeMap L (update s.blk b d')) _ _
      rw [hmap]
      exact hi.ic.keep rfl
    · change LockOk _ _ (dinodeMap L (update s.blk b d')) _ _
      rw [hmap]
      exact hi.lock.keep rfl
    · refine DataOk.keep ((hi.data.writeFile hown hslot d').setStale fun x hx => ?_) rfl
      refine (hs x hx).imp_right ?_
      rintro rfl
      exact ⟨i, k, hown, hslot⟩
  change (s.held p h).map _ = some (s', ok) at hr
  rw [hh] at hr
  simp only [Option.map_some] at hr
  generalize eitherCopyin (s.blk b) off src len = x at hr
  obtain ⟨d', _ | _⟩ := x
  · cases hr
    refine ⟨_, ⟨G, hinv d' _ fun x hx => ?_⟩, d', rfl⟩
    by_cases hxb : x = b
    · exact .inr hxb
    · rw [update_of_ne hxb] at hx
      exact .inl hx
  · cases hr
    exact ⟨_, ⟨G, hinv d' s.stale fun x hx => .inl hx⟩, d', rfl⟩

/-- **A locked inode is written to its block.** Afterwards the process knows `o` of it. -/
theorem save_safe {c : Icache.Pc} {o : Option (Row × Bool)} (hb : γ.buf h = some (L.iblock i, d))
    (hop : γ.op = true) (hk : γ.lk e = some (i, some (r, δ))) (hat : At γ.pc e) (hat' : At c e)
    (hf : ∀ v w x, Facts v w x (γ.pc.stage e) → v.din = r.din → Facts v r.din false (c.stage e))
    (ho : o = some (r, false) ∧ r.din.type ≠ 0 ∨ o = none ∧ r.loose = false ∧ r.dead = ∅) :
    Safe (logic L) p γ (setData h (putDinode r.din d i)) fun _ γ' =>
      γ' = ((γ.setBuf h (some (L.iblock i, putDinode r.din d i))).setLk e (some (i, o))).goto c := by
  refine Safe.perform fun s g ⟨G, hi⟩ hg => ?_
  subst hg
  obtain ⟨hh, hd⟩ := hi.held hb
  refine ⟨⟨by rw [hh]; rfl, by rw [← hi.op p, hop]⟩, fun _ s' _ hr => ?_⟩
  change (s.held p h).map (fun b => (s.setBlk b (putDinode r.din d i), ())) = some (s', _) at hr
  rw [hh] at hr
  cases hr
  obtain ⟨hv, hdin, hdirty, hrow, hty⟩ := hi.lock.known hk
  have hn := hi.inum_lt hk
  have hmap := dinodeMap_put (L := L) (β := s.blk) r.din hn
  rw [hd] at hmap
  have := hi.holder (v := s.entry e) (r := r) (δ := false) (o := o)
    (γ := (((g p).setBuf h (some (L.iblock i, putDinode r.din d i))).setLk e (some (i, o))).goto c)
    hk rfl rfl (hi.buf.write hb _) hmap rfl rfl hat hat' (hf _ _ _ (hi.facts hk) hdin) (.inl rfl)
    (fun y hy => ?_) ?_ ?_
  · rw [update_eq_self] at this
    exact ⟨_, ⟨_, this⟩, rfl⟩
  · rcases ho with ⟨rfl, ht⟩ | ⟨rfl, -⟩
    · cases hy
      exact ⟨hv, hdin, rfl, rfl, ht⟩
    · cases hy
  · rcases ho with ⟨rfl, -⟩ | ⟨-, ho⟩
    · exact .inr rfl
    · exact .inl ho
  · rw [← hrow, update_eq_self]
    exact (hi.data.writeMeta (L.iblock_lt hn) _).keep rfl

theorem allocInode_safe {type : UInt16} (hb : γ.buf h = some (L.iblock i, d)) (hop : γ.op = true)
    (hn : i < L.ninodes) (ht : (getDinode d i).type = 0) :
    Safe (logic L) p γ (setData h (putDinode (.fresh type) d i)) fun _ γ' =>
      γ' = γ.setBuf h (some (L.iblock i, putDinode (.fresh type) d i)) := by
  refine Safe.perform fun s g ⟨G, hi⟩ hg => ?_
  subst hg
  obtain ⟨hh, hd⟩ := hi.held hb
  refine ⟨⟨by rw [hh]; rfl, by rw [← hi.op p, hop]⟩, fun _ s' _ hr => ?_⟩
  change (s.held p h).map (fun b => (s.setBlk b (putDinode (.fresh type) d i), ())) = some (s', _) at hr
  rw [hh] at hr
  cases hr
  have hfree : (dinodeMap L s.blk (rootDev, i)).type = 0 := by
    rw [dinodeMap, if_pos ⟨rfl, hn⟩, dinodeAt, hd]
    exact ht
  have hrow : (G.row i).din.type = 0 := by
    rcases hi.ic.table i hn with htab | ⟨a, ha, hkey⟩
    · rw [← htab]
      exact hfree
    · exfalso
      cases hl : s.ilock a with
      | none => cases ha.symm.trans (hi.ic.ic.clean a hl)
      | some q =>
        have hf := hi.ic.ic.facts hl rfl
        change Facts _ (dinodeMap L s.blk (s.entry a).key) (G.dirty a) _ at hf
        rw [ha, hkey] at hf
        exact hf.of_dirty hfree
  have hmap := dinodeMap_put (L := L) (β := s.blk) (.fresh type) hn
  rw [hd] at hmap
  refine ⟨(g p).setBuf h (some (L.iblock i, putDinode (.fresh type) d i)),
    ⟨⟨update G.row i ((G.row i).setDin (.fresh type)), G.dirty⟩, Inv.of_update
      (hi.buf.write hb _) ?_ ?_ ?_ (hi.op' rfl)⟩, rfl⟩
  · change IcOk L _ _ _ (dinodeMap L (update s.blk (L.iblock i) _)) _ _
    rw [hmap]
    exact (hi.ic.alloc (r := (G.row i).setDin (.fresh type)) hfree).keep rfl
  · change LockOk _ _ (dinodeMap L (update s.blk (L.iblock i) _)) _ _
    rw [hmap]
    exact (hi.lock.alloc (r := (G.row i).setDin (.fresh type)) hfree rfl rfl).keep rfl
  · have hdata := hi.data.writeMeta (L.iblock_lt hn) (putDinode (.fresh type) d i)
    exact (hdata.setRow (r := (G.row i).setDin (.fresh type)) hn rfl
      ((hdata.table.rows i).alloc hrow type)).keep rfl

/-- **A store to the fields of a locked inode**, given what it does to the ledger. -/
theorem store_safe {f : Dinode → Dinode} {t : Row} {c : Icache.Pc} {z : Option (ℕ × Bool)}
    (hk : γ.lk e = some (i, some (r, δ))) (hat : At γ.pc e) (hat' : At c e)
    (hr' : t.din = f r.din)
    (hf : ∀ v w x, Facts v w x (γ.pc.stage e) → v.din = r.din →
      Facts { v with din := f v.din } w true (c.stage e))
    (hdata : ∀ blk stale row pend, DataOk L blk stale row pend → row i = r → i < L.ninodes →
      pend p = γ.pend → DataOk L blk stale (update row i t) (update pend p z)) :
    Safe (logic L) p γ (store e f) fun _ γ' =>
      γ' = ((γ.setLk e (some (i, some (t, true)))).goto c).setPend z := by
  refine Safe.perform fun s g ⟨G, hi⟩ hg => ⟨trivial, fun o s' _ hr => ?_⟩
  subst hg
  cases hr
  obtain ⟨hv, hdin, -, hrow, hty⟩ := hi.lock.known hk
  refine ⟨(((g p).setLk e (some (i, some (t, true)))).goto c).setPend z,
    ⟨_, hi.holder' (r := t) (δ := true) (o := some (t, true)) hk rfl rfl rfl rfl rfl hat hat'
      (hf _ _ _ (hi.facts hk) hdin) (.inr rfl) (fun y hy => ?_) (.inr rfl)
      (hdata _ _ _ _ hi.data hrow (hi.inum_lt hk) rfl)⟩, rfl⟩
  cases hy
  exact ⟨hv, by rw [hr', ← hdin], rfl, rfl, hty⟩

theorem inode_safe (hk : γ.lk e = some (i, some (r, δ))) :
    Safe (logic L) p γ (inode e) fun v γ' => v.inum = i ∧ v.din = r.din ∧ γ' = γ := by
  refine Safe.perform fun s g ⟨G, hi⟩ hg => ⟨trivial, fun o s' v hr => ?_⟩
  subst hg
  cases hr
  obtain ⟨-, hdin, -⟩ := hi.lock.known hk
  obtain ⟨-, hkey⟩ := hi.lock.holds hk
  exact ⟨_, ⟨G, hi.id'⟩, (Prod.mk.inj hkey).2, hdin, rfl⟩

/-! ## Locks -/

namespace Inv

variable (hi : Inv L s g G)

include hi

theorem lk_of_free (hfree : s.ilock e = none) (q : Pid) : (g q).lk e = none := by
  rw [Option.eq_none_iff_forall_ne_some]
  rintro ⟨j, x⟩ hx
  cases hfree.symm.trans (hi.lock.holds hx).1

theorem key_of_mine (hm : 0 < s.mine p e) :
    (s.entry e).key = (rootDev, (s.entry e).inum) ∧ (s.entry e).inum < L.ninodes := by
  obtain ⟨hdev, hn⟩ := hi.ic.range e (refs_pos hm)
  exact ⟨by rw [← hdev]; rfl, hn⟩

/-- Whoever knows an inode has its entry locked. -/
theorem unknown_of_free (hfree : s.ilock e = none) (hm : 0 < s.mine p e) (q : Pid) (a : Ip) (x : Row × Bool) :
    (g q).lk a ≠ some ((s.entry e).inum, some x) := by
  intro hx
  obtain ⟨hl, hk⟩ := hi.lock.holds hx
  have hae := hi.ic.ic.uniq a e (hi.ic.ic.refs_pos_of_lock hl) (refs_pos hm) (hk.trans (hi.key_of_mine hm).1.symm)
  rw [hae, hfree] at hl
  cases hl

theorem row_rest (hk : (g p).lk e = some (i, none)) :
    (G.row i).loose = false ∧ (G.row i).dead = ∅ := by
  refine (hi.lock.rest i).resolve_right ?_
  rintro ⟨q, a, x, hx⟩
  obtain ⟨hl, hkey⟩ := hi.lock.holds hk
  obtain ⟨hl', hkey'⟩ := hi.lock.holds hx
  obtain ⟨rfl, rfl⟩ := hi.ic.lock_unique hl hkey hl' hkey'
  rw [hk] at hx
  cases hx

theorem staged {v : Entry} {c : Icache.Pc} (hk : (g p).lk e = some (i, none))
    (hv : v.key = (s.entry e).key) (href : v.ref = (s.entry e).ref) (hat : At (g p).pc e)
    (hat' : At c e) (hd : G.dirty e = false)
    (hf : Facts v (dinodeMap L s.blk (rootDev, i)) false (c.stage e)) :
    Inv L (s.setEntry e v) (update g p ((g p).goto c)) G := by
  obtain ⟨hl, hkey⟩ := hi.lock.holds hk
  have htable := hi.disk_eq_row hkey (hi.inum_lt hk) (hi.ic.ic.refs_pos_of_lock hl) hd
  have := hi.holder' (v := v) (γ := (g p).goto c) (r := G.row i) (δ := false) (o := none) hk
    (by rw [← hk, update_eq_self]; rfl) rfl rfl hv href hat hat' hf (.inl htable) nofun
    (.inl (hi.row_rest hk)) (by rw [update_eq_self]; exact hi.data.keep rfl)
  rw [update_eq_self, ← hd, update_eq_self] at this
  exact this

theorem learn (hk : (g p).lk e = some (i, none)) (hat : At (g p).pc e) (hd : G.dirty e = false)
    (hv : (s.entry e).valid = true)
    (hdin : (s.entry e).din = dinodeMap L s.blk (rootDev, i)) (hty : (s.entry e).din.type ≠ 0) :
    Inv L s (update g p (((g p).goto .idle).setLk e (some (i, some (G.row i, false))))) G := by
  obtain ⟨hl, hkey⟩ := hi.lock.holds hk
  have htable := hi.disk_eq_row hkey (hi.inum_lt hk) (hi.ic.ic.refs_pos_of_lock hl) hd
  have := hi.holder' (v := s.entry e) (r := G.row i) (δ := false) (o := some (G.row i, false))
    (γ := ((g p).goto .idle).setLk e (some (i, some (G.row i, false)))) hk rfl rfl rfl rfl rfl hat
    (.inl rfl) ⟨hv, hty, hdin ▸ hty, fun _ => hdin⟩ (.inl htable) (fun y hy => ?_) (.inr rfl)
    (by rw [update_eq_self]; exact hi.data.keep rfl)
  · rw [update_eq_self, ← hd, update_eq_self] at this
    change Inv L { s with entry := update s.entry e (s.entry e) } _ _ at this
    rw [update_eq_self] at this
    rw [← hd]
    exact this
  · cases hy
    exact ⟨hv, hdin.trans htable, rfl, rfl, hdin ▸ hty⟩

end Inv

/-- A process that has just loaded inode `i` and knows how it stands. -/
def Loaded (γ γ' : Local) (e : Ip) (i : ℕ) : Prop :=
  ∃ r, r.loose = false ∧ r.dead = ∅ ∧ γ' = (γ.goto .idle).setLk e (some (i, some (r, false)))

theorem refOk_safe : Safe (logic L) p γ (refOk e) fun _ γ' => γ' = γ := by
  refine Safe.perform fun s g ⟨G, hi⟩ hg => ⟨trivial, fun o s' v hr => ?_⟩
  subst hg
  cases hr
  exact ⟨_, ⟨G, hi.id'⟩, rfl⟩

theorem holdingsleep_safe : Safe (logic L) p γ (holdingsleep e) fun _ γ' => γ' = γ := by
  refine Safe.perform fun s g ⟨G, hi⟩ hg => ⟨trivial, fun o s' v hr => ?_⟩
  subst hg
  cases hr
  exact ⟨_, ⟨G, hi.id'⟩, rfl⟩

theorem acquiresleep_safe (hpc : γ.pc = .locking e) :
    Safe (logic L) p γ (acquiresleep e) fun _ γ' =>
      ∃ i, γ.lk e = none ∧ γ' = (γ.goto (.own .loading e)).setLk e (some (i, none)) := by
  refine Safe.perform fun s g ⟨G, hi⟩ hg => ⟨trivial, fun o s' v hr => ?_⟩
  subst hg
  obtain ⟨hfree, hr⟩ := Option.ite_none_right_eq_some.1 hr
  cases hr
  have hm : 0 < s.mine p e := by
    have := hi.ic.ic.proc p
    change PcOk _ p (g p).pc at this
    rw [hpc] at this
    exact this
  have hlk := hi.lk_of_free hfree
  have hst : ∀ a, (g p).pc.stage a = none := fun a => by rw [hpc]; rfl
  have hrest := hi.ic.ic.rest hfree (refs_pos hm)
  refine ⟨((g p).goto (.own .loading e)).setLk e (some ((s.entry e).inum, none)), ⟨G, Inv.of_update
    (hi.buf.keep rfl) (hi.ic.lockEntry hst hfree hm ⟨hi.ic.ic.clean e hfree, hrest⟩) ?_
    (hi.data.keep rfl) (hi.op' rfl)⟩, _, hlk p, rfl⟩
  have := hi.lock.move (p := p) (e := e) (i := (s.entry e).inum) (v := s.entry e) (l := some p)
    (r := G.row (s.entry e).inum) (d := dinodeMap L s.blk (rootDev, (s.entry e).inum))
    (δ := G.dirty e) (o := some none) (fun q _ => hlk q) (fun j x hx => by cases (hlk p).symm.trans hx)
    (.inl ⟨rfl, rfl⟩) rfl (fun _ => (hi.key_of_mine hm).1) nofun
    (.inl ((hi.lock.rest _).resolve_right fun ⟨q, a, x, hx⟩ => hi.unknown_of_free hfree hm q a x hx))
  simp only [update_eq_self] at this
  exact this

theorem load_safe (hk : γ.lk e = some (i, none)) (hpc : γ.pc = .own .loading e) :
    Safe (logic L) p γ (inode e) fun v γ' =>
      v.inum = i ∧ (v.valid = true → Loaded γ γ' e i) ∧ (v.valid = false → γ' = γ) := by
  refine Safe.perform fun s g ⟨G, hi⟩ hg => ⟨trivial, fun o s' v hr => ?_⟩
  subst hg
  cases hr
  have hnum : (s.entry e).inum = i := (Prod.mk.inj (hi.lock.holds hk).2).2
  have hf := hi.facts hk
  rw [hpc, stage_own] at hf
  cases hv : (s.entry e).valid with
  | false => exact ⟨_, ⟨G, hi.id'⟩, hnum, nofun, fun _ => rfl⟩
  | true =>
    obtain ⟨hdin, hty⟩ := hf.2 hv
    have hrest := hi.row_rest hk
    exact ⟨_, ⟨G, hi.learn hk (.inr ⟨_, hpc⟩) hf.1 hv hdin (hdin ▸ hty)⟩, hnum,
      fun _ => ⟨_, hrest.1, hrest.2, rfl⟩, nofun⟩

theorem fill_safe (hk : γ.lk e = some (i, none)) (hpc : γ.pc = .own .loading e)
    (hb : γ.buf h = some (L.iblock i, d)) :
    Safe (logic L) p γ (store e fun _ => getDinode d i) fun _ γ' =>
      γ' = γ.goto (.own .loaded e) := by
  refine Safe.perform fun s g ⟨G, hi⟩ hg => ⟨trivial, fun o s' v hr => ?_⟩
  subst hg
  cases hr
  have hf := hi.facts hk
  rw [hpc, stage_own] at hf
  refine ⟨_, ⟨G, hi.staged hk rfl rfl (.inr ⟨_, hpc⟩) (.inr ⟨.loaded, rfl⟩) hf.1 ?_⟩, rfl⟩
  rw [stage_own, dinodeMap, if_pos ⟨rfl, hi.inum_lt hk⟩, dinodeAt, (hi.held hb).2]
  exact ⟨rfl, fun _ => rfl⟩

theorem setValid_safe (hk : γ.lk e = some (i, none)) (hpc : γ.pc = .own .loaded e) :
    Safe (logic L) p γ (setValid e true) fun _ γ' => γ' = γ.goto (.own .validated e) := by
  refine Safe.perform fun s g ⟨G, hi⟩ hg => ⟨trivial, fun o s' v hr => ?_⟩
  subst hg
  cases hr
  have hf := hi.facts hk
  rw [hpc, stage_own] at hf
  refine ⟨_, ⟨G, hi.staged hk rfl rfl (.inr ⟨_, hpc⟩) (.inr ⟨.validated, rfl⟩) hf.1 ?_⟩, rfl⟩
  rw [stage_own]
  exact ⟨rfl, hf.2, rfl⟩

theorem check_safe (hk : γ.lk e = some (i, none)) (hpc : γ.pc = .own .validated e) :
    Safe (logic L) p γ (inode e) fun v γ' => v.din.type ≠ 0 → Loaded γ γ' e i := by
  refine Safe.perform fun s g ⟨G, hi⟩ hg => ⟨trivial, fun o s' v hr => ?_⟩
  subst hg
  cases hr
  have hf := hi.facts hk
  rw [hpc, stage_own] at hf
  by_cases hty : (s.entry e).din.type = 0
  · exact ⟨_, ⟨G, hi.id'⟩, fun ht => absurd hty ht⟩
  · have hrest := hi.row_rest hk
    exact ⟨_, ⟨G, hi.learn hk (.inr ⟨_, hpc⟩) hf.1 hf.2.2 (hf.2.1 hty) hty⟩,
      fun _ => ⟨_, hrest.1, hrest.2, rfl⟩⟩

theorem unvalid_safe (hk : γ.lk e = some (i, none)) (hpc : γ.pc = .own .freed e) :
    Safe (logic L) p γ (setValid e false) fun _ γ' => γ' = γ.goto (.own .unvalid e) := by
  refine Safe.perform fun s g ⟨G, hi⟩ hg => ⟨trivial, fun o s' v hr => ?_⟩
  subst hg
  cases hr
  have hf := hi.facts hk
  rw [hpc, stage_own] at hf
  refine ⟨_, ⟨G, hi.staged hk rfl rfl (.inr ⟨_, hpc⟩) (.inr ⟨.unvalid, rfl⟩) hf.1 ?_⟩, rfl⟩
  rw [stage_own]
  exact ⟨rfl, rfl⟩

/-- **A lock is given back** when the inode is complete and on disk. -/
theorem Inv.unlock (hi : Inv L s g G) {x : Option (Row × Bool)} {c : Icache.Pc}
    (hk : (g p).lk e = some (i, x)) (hat : At (g p).pc e) (hc : c = .idle ∨ c = .drop e)
    (hd : G.dirty e = false) (hrest : Icache.Rest (s.entry e) (dinodeMap L s.blk (rootDev, i)))
    (hrow : (G.row i).loose = false ∧ (G.row i).dead = ∅) :
    Inv L (s.setLock e none) (update g p (((g p).setLk e none).goto c)) G := by
  obtain ⟨hl, hkey⟩ := hi.lock.holds hk
  refine of_update (hi.buf.keep rfl) ?_ ?_ (hi.data.keep rfl) (hi.op' rfl)
  · refine hi.ic.unlockEntry hl (fun a ha => ?_) ?_ hd (hkey.symm ▸ hrest)
    · rw [hat.stage ha]
      rcases hc with rfl | rfl <;> rfl
    · rcases hc with rfl | rfl
      · exact trivial
      · refine ⟨hi.ic.ic.backed p e hl, fun hn => ?_⟩
        change update s.ilock e none e = some p at hn
        rw [update_self] at hn
        cases hn
  · have := hi.lock.move (p := p) (e := e) (i := i) (v := s.entry e) (l := none) (r := G.row i)
      (d := dinodeMap L s.blk (rootDev, i)) (δ := G.dirty e) (o := none) (fun q hq => ?_)
      (fun j y hy => ?_) (.inl ⟨rfl, rfl⟩) rfl nofun nofun (.inl hrow)
    · simp only [update_eq_self] at this
      exact this
    · rw [Option.eq_none_iff_forall_ne_some]
      rintro ⟨j, y⟩ hy
      exact hq (Option.some.inj ((hi.lock.holds hy).1.symm.trans hl))
    · exact (Prod.mk.inj (Option.some.inj (hy.symm.trans hk))).1

theorem releasesleep_safe (hk : γ.lk e = some (i, some (r, false))) (hpc : γ.pc = .idle)
    (hl : r.loose = false) (hdead : r.dead = ∅) :
    Safe (logic L) p γ (releasesleep e) fun _ γ' => γ' = (γ.setLk e none).goto .idle := by
  refine Safe.perform fun s g ⟨G, hi⟩ hg => ⟨trivial, fun o s' v hr => ?_⟩
  subst hg
  cases hr
  obtain ⟨-, -, hd, hrow, -⟩ := hi.lock.known hk
  have hf := hi.facts hk
  rw [hpc] at hf
  obtain ⟨-, -, hty, hdin⟩ := hf
  exact ⟨_, ⟨G, hi.unlock hk (.inl hpc) (.inl rfl) hd (fun _ => ⟨hdin hd, hty⟩)
    (by rw [hrow]; exact ⟨hl, hdead⟩)⟩, rfl⟩

theorem drop_safe (hk : γ.lk e = some (i, none)) (hpc : γ.pc = .own .unvalid e) :
    Safe (logic L) p γ (releasesleep e) fun _ γ' => γ' = (γ.setLk e none).goto (.drop e) := by
  refine Safe.perform fun s g ⟨G, hi⟩ hg => ⟨trivial, fun o s' v hr => ?_⟩
  subst hg
  cases hr
  have hf := hi.facts hk
  rw [hpc, stage_own] at hf
  refine ⟨_, ⟨G, hi.unlock hk (.inr ⟨_, hpc⟩) (.inr rfl) hf.1 (fun hv => ?_) (hi.row_rest hk)⟩, rfl⟩
  cases hf.2.symm.trans hv

/-! ## References -/

theorem Inv.spare (hi : Inv L s g G) (hpc : (g p).pc = .drop e) :
    0 < s.mine p e ∧ (s.ilock e = some p → 2 ≤ s.mine p e) := by
  have := hi.ic.ic.proc p
  change PcOk _ p (g p).pc at this
  rw [hpc] at this
  exact this

theorem Inv.putRef (hi : Inv L s g G) (hpc : (g p).pc = .drop e) :
    Inv L (s.putRef p e) (update g p ((g p).goto .idle)) G := by
  have hst : ∀ a, (g p).pc.stage a = none := fun a => by rw [hpc]; rfl
  exact of_update (hi.buf.keep rfl) (hi.ic.putRef hst (hi.spare hpc))
    ((hi.lock.refer (v := { s.entry e with ref := (s.entry e).ref - 1 })
      (.inr ⟨rfl, rfl, rfl⟩)).keep rfl) (hi.data.keep rfl) (hi.op' rfl)

/-- **The start of `iput`**: the process takes the lock to free the inode, or drops its reference. -/
theorem iputStart_safe (hpc : γ.pc = .drop e) :
    Safe (logic L) p γ (iputStart e) fun last γ' =>
      (last = true → ∃ i r, γ.lk e = none ∧ r.loose = true ∧ r.dead = ∅ ∧
        γ' = (γ.goto (.own .trunc e)).setLk e (some (i, some (r, false)))) ∧
      (last = false → γ' = γ.goto .idle) := by
  refine Safe.perform fun s g ⟨G, hi⟩ hg => ⟨trivial, fun o s' v hr => ?_⟩
  subst hg
  change (if (s.entry e).ref = 1 ∧ (s.entry e).valid = true ∧ (s.entry e).din.nlink = 0 then
    if s.ilock e = none then some (s.setLock e (some p), true) else none
    else some (s.putRef p e, false)) = some (s', v) at hr
  split_ifs at hr with hlast hfree
  · cases hr
    obtain ⟨-, hvalid, hnlink⟩ := hlast
    have hm := (hi.spare hpc).1
    have hlk := hi.lk_of_free hfree
    have hother := hi.unknown_of_free hfree hm
    obtain ⟨hkey, hn⟩ := hi.key_of_mine hm
    have hst : ∀ a, (g p).pc.stage a = none := fun a => by rw [hpc]; rfl
    have hclean : G.dirty e = false := hi.ic.ic.clean e hfree
    obtain ⟨hdin, hty⟩ := hi.ic.ic.rest hfree (refs_pos hm) hvalid
    change (s.entry e).din = dinodeMap L s.blk (s.entry e).key at hdin
    change (dinodeMap L s.blk (s.entry e).key).type ≠ 0 at hty
    rw [hkey] at hdin hty
    have hdisk := hi.disk_eq_row hkey hn (refs_pos hm) hclean
    obtain ⟨-, hdead⟩ := (hi.lock.rest (s.entry e).inum).resolve_right fun ⟨q, a, x, hx⟩ => hother q a x hx
    refine ⟨((g p).goto (.own .trunc e)).setLk e
      (some ((s.entry e).inum, some ((G.row (s.entry e).inum).loosen, false))),
      ⟨⟨update G.row (s.entry e).inum (G.row (s.entry e).inum).loosen, G.dirty⟩,
        Inv.of_update (hi.buf.keep rfl) ?_ ?_ ?_ (hi.op' rfl)⟩,
      fun _ => ⟨_, (G.row (s.entry e).inum).loosen, hlk p, rfl, hdead, rfl⟩, nofun⟩
    · refine (hi.ic.lockEntry (t := .trunc) hst hfree hm ?_).setRow rfl
      rw [hkey]
      exact ⟨hvalid, hdin ▸ hty, hnlink, hty, hdin ▸ hnlink⟩
    · have := hi.lock.move (p := p) (e := e) (i := (s.entry e).inum) (v := s.entry e) (l := some p)
        (r := (G.row (s.entry e).inum).loosen)
        (d := dinodeMap L s.blk (rootDev, (s.entry e).inum)) (δ := G.dirty e)
        (o := some (some ((G.row (s.entry e).inum).loosen, false))) (fun q _ => hlk q)
        (fun j x hx => by cases (hlk p).symm.trans hx) (.inr fun q a x _ => hother q a x) rfl
        (fun _ => hkey) (fun y hy => ?_) (.inr ⟨_, rfl⟩)
      · simp only [update_eq_self] at this
        exact this
      · cases hy
        exact ⟨hvalid, hdin.trans hdisk, hclean, rfl, hty⟩
    · exact (hi.data.setRow (r := (G.row (s.entry e).inum).loosen) hn rfl
        (hi.data.table.rows _).loosen).keep rfl
  · cases hr
    exact ⟨_, ⟨G, hi.putRef hpc⟩, nofun, fun _ => rfl⟩

theorem iputEnd_safe (hpc : γ.pc = .drop e) :
    Safe (logic L) p γ (iputEnd e) fun _ γ' => γ' = γ.goto .idle := by
  refine Safe.perform fun s g ⟨G, hi⟩ hg => ⟨trivial, fun o s' v hr => ?_⟩
  subst hg
  cases hr
  exact ⟨_, ⟨G, hi.putRef hpc⟩, rfl⟩

theorem iget_safe {inum : ℕ} (hpc : γ.pc = .idle) (hn : inum < L.ninodes) :
    Safe (logic L) p γ (iget inum) fun _ γ' => γ' = γ.goto .idle := by
  refine Safe.perform fun s g ⟨G, hi⟩ hg => ⟨trivial, fun o s' v hr => ?_⟩
  subst hg
  rw [logic_handle, handle_iget, Option.ite_none_right_eq_some, Option.map_eq_some_iff] at hr
  obtain ⟨hfew, ⟨t, a⟩, hg, hr⟩ := hr
  cases hr
  obtain ⟨w, rfl, hw, hic⟩ := hi.ic.iget (fun a => by rw [hpc]; rfl) hfew hn hg
  exact ⟨(g p).goto .idle, ⟨G, Inv.of_update (hi.buf.keep rfl) hic ((hi.lock.refer hw).keep rfl)
    (hi.data.keep rfl) (hi.op' rfl)⟩, rfl⟩

theorem idup_safe (hpc : γ.pc = .locking e) :
    Safe (logic L) p γ (idup e) fun _ γ' => γ' = γ.goto .idle := by
  refine Safe.perform fun s g ⟨G, hi⟩ hg => ⟨trivial, fun o s' v hr => ?_⟩
  subst hg
  rw [logic_handle, handle_idup, Option.ite_none_right_eq_some] at hr
  obtain ⟨hfew, hr⟩ := hr
  cases hr
  have hm : 0 < s.mine p e := by
    have := hi.ic.ic.proc p
    change PcOk _ p (g p).pc at this
    rw [hpc] at this
    exact this
  have hidle := hi.ic.moves (p := p) (c := .idle) (fun a => by rw [hpc]; rfl) trivial
  have hic := hidle.idup (p := p) (e := e) (update_self ..) hm hfew
  rw [update_idem] at hic
  have hlock := hi.lock.refer (e := e) (v := { s.entry e with ref := (s.entry e).ref + 1 })
    (.inr ⟨rfl, rfl, rfl⟩)
  exact ⟨(g p).goto .idle, ⟨G, Inv.of_update (hi.buf.keep rfl) hic (hlock.keep rfl)
    (hi.data.keep rfl) (hi.op' rfl)⟩, rfl⟩

theorem give_safe {q : Pid} (hpc : γ.pc = .drop e) :
    Safe (logic L) p γ (give q e) fun _ γ' => γ' = γ.goto .idle := by
  refine Safe.perform fun s g ⟨G, hi⟩ hg => ⟨trivial, fun o s' v hr => ?_⟩
  subst hg
  rw [logic_handle, handle_give, Option.ite_none_right_eq_some] at hr
  obtain ⟨hfew, hr⟩ := hr
  cases hr
  have hidle := hi.ic.moves (p := p) (c := .idle) (fun a => by rw [hpc]; rfl) trivial
  have hic := hidle.give (q := q) (update_self ..) (hi.spare hpc) hfew
  exact ⟨(g p).goto .idle, ⟨G, Inv.of_update (hi.buf.keep rfl) hic (hi.lock.keep rfl)
    (hi.data.keep rfl) (hi.op' rfl)⟩, rfl⟩

/-! ## Transactions -/

theorem beginOp_safe : Safe (logic L) p γ beginOp fun _ γ' => γ' = { γ with op := true } := by
  refine Safe.perform fun s g ⟨G, hi⟩ hg => ⟨trivial, fun o s' v hr => ?_⟩
  subst hg
  obtain ⟨-, hr⟩ := Option.ite_none_left_eq_some.1 hr
  cases hr
  exact ⟨_, ⟨G, hi.setOp true⟩, rfl⟩

theorem endOp_safe : Safe (logic L) p γ endOp fun _ γ' => γ' = { γ with op := false } := by
  refine Safe.perform fun s g ⟨G, hi⟩ hg => ⟨trivial, fun o s' v hr => ?_⟩
  subst hg
  obtain ⟨-, hr⟩ := Option.ite_none_right_eq_some.1 hr
  cases hr
  exact ⟨_, ⟨G, hi.setOp false⟩, rfl⟩

end Xv6.Fs

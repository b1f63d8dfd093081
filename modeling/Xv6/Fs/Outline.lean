import Xv6.Fs.Commands

/-!
# Proof outlines for the file system

What a process knows after each routine of `Xv6.Fs.Code`, whatever the other processes do.

* **`balloc_safe`**, **`bfree_safe`**: a new block that is zero; a block less.
* `ilock_safe`, `iunlock_safe`, `iupdate_safe`, `ialloc_safe`.
* **`itrunc_safe`**, `iput_safe`: an inode without blocks.
* **`bmap_safe`**, `readi_safe`, `writei_safe`: a file without holes.
-/

namespace Xv6.Fs

open Function Bytes Prog
open Bio (BufId)
open Icache (Ip Entry Facts PcOk)

namespace Local

variable (γ : Local) {h : BufId} {e : Ip}

/-! The knowledge about buffers is put last. -/

@[simp] theorem setLk_setBuf {x y} : (γ.setBuf h x).setLk e y = (γ.setLk e y).setBuf h x := rfl

@[simp] theorem goto_setBuf {x c} : (γ.setBuf h x).goto c = (γ.goto c).setBuf h x := rfl

@[simp] theorem setPend_setBuf {x z} : (γ.setBuf h x).setPend z = (γ.setPend z).setBuf h x := rfl

@[simp] theorem goto_setLk {y c} : (γ.setLk e y).goto c = (γ.goto c).setLk e y := rfl

@[simp] theorem setPend_setLk {y z} : (γ.setLk e y).setPend z = (γ.setPend z).setLk e y := rfl

@[simp] theorem setPend_goto {c z} : (γ.goto c).setPend z = (γ.setPend z).goto c := rfl

@[simp] theorem goto_goto {c c'} : (γ.goto c).goto c' = γ.goto c' := rfl

@[simp] theorem setPend_setPend {z z'} : (γ.setPend z).setPend z' = γ.setPend z' := rfl

@[simp] theorem setBuf_setBuf {x y} : (γ.setBuf h x).setBuf h y = γ.setBuf h y := by
  simp [setBuf]

@[simp] theorem setLk_setLk {x y} : (γ.setLk e x).setLk e y = γ.setLk e y := by
  simp [setLk]

@[simp] theorem setBuf_buf {x} : (γ.setBuf h x).buf h = x := update_self ..

@[simp] theorem setLk_lk {y} : (γ.setLk e y).lk e = y := update_self ..

@[simp] theorem setBuf_lk {x} : (γ.setBuf h x).lk = γ.lk := rfl

@[simp] theorem setBuf_pc {x} : (γ.setBuf h x).pc = γ.pc := rfl

@[simp] theorem setBuf_pend {x} : (γ.setBuf h x).pend = γ.pend := rfl

@[simp] theorem setBuf_op {x} : (γ.setBuf h x).op = γ.op := rfl

@[simp] theorem setLk_buf {y} : (γ.setLk e y).buf = γ.buf := rfl

@[simp] theorem setLk_pc {y} : (γ.setLk e y).pc = γ.pc := rfl

@[simp] theorem setLk_pend {y} : (γ.setLk e y).pend = γ.pend := rfl

@[simp] theorem setLk_op {y} : (γ.setLk e y).op = γ.op := rfl

@[simp] theorem goto_buf {c} : (γ.goto c).buf = γ.buf := rfl

@[simp] theorem goto_lk {c} : (γ.goto c).lk = γ.lk := rfl

@[simp] theorem goto_pc {c} : (γ.goto c).pc = c := rfl

@[simp] theorem goto_pend {c} : (γ.goto c).pend = γ.pend := rfl

@[simp] theorem goto_op {c} : (γ.goto c).op = γ.op := rfl

@[simp] theorem setPend_buf {z} : (γ.setPend z).buf = γ.buf := rfl

@[simp] theorem setPend_lk {z} : (γ.setPend z).lk = γ.lk := rfl

@[simp] theorem setPend_pc {z} : (γ.setPend z).pc = γ.pc := rfl

@[simp] theorem setPend_pend {z} : (γ.setPend z).pend = z := rfl

@[simp] theorem setPend_op {z} : (γ.setPend z).op = γ.op := rfl

variable {γ}

theorem setBuf_same {x : Option (ℕ × Block)} (hx : γ.buf h = x) : γ.setBuf h x = γ := by
  rw [setBuf, ← hx, update_eq_self]

theorem setLk_same {y : Option (ℕ × Option (Row × Bool))} (hy : γ.lk e = y) : γ.setLk e y = γ := by
  rw [setLk, ← hy, update_eq_self]

theorem goto_same {c : Icache.Pc} (hc : γ.pc = c) : γ.goto c = γ := by
  rw [goto, ← hc]

theorem setPend_same {z : Option (ℕ × Bool)} (hz : γ.pend = z) : γ.setPend z = γ := by
  rw [setPend, ← hz]

end Local

variable {L : Layout} {p : Pid} {γ : Local} {h : BufId} {b i k : ℕ} {d : Block} {e : Ip} {r : Row}
  {δ : Bool}

/-! ## Blocks -/

theorem bzero_safe (hp : γ.pend = some (b, false)) (hop : γ.op = true) :
    Safe (logic L) p γ (bzero b) fun _ γ' => γ' = γ.setPend (some (b, true)) := by
  refine Safe.use (Φ := L.nmeta ≤ b) (fun s g ⟨G, hi⟩ hg => ?_) fun hb => ?_
  · exact (hi.data.pend_range (p := p) (by rw [hg]; exact hp)).1
  · change Safe (logic L) p γ (bzero b) _
    unfold bzero
    refine Safe.bind (bread_safe (offLog_data hb)) ?_
    rintro bp _ ⟨d, hfree, rfl⟩
    refine Safe.bind (setData_safe (w := fun _ => 0) (z := γ.pend) (Local.setBuf_buf _) hop
      (bmapstart_le_nmeta.trans hb) fun blk stale row pend hdata _ hpend => ?_) ?_
    · change pend p = γ.pend at hpend
      rw [← hpend, update_eq_self]
      exact hdata.writePend (hpend.trans hp) _
    · rintro _ _ rfl
      refine Safe.bind (logWrite_zero_safe (b := b) (z := false) (by simp) (by simpa using hop)
        (by simpa using hp)) ?_
      rintro _ _ rfl
      refine Safe.mono (brelse_safe (b := b) (d := fun _ => 0) (by simp)) ?_
      rintro _ _ rfl
      simp only [Local.setPend_setBuf, Local.setBuf_setBuf, Local.setPend_setPend]
      exact Local.setBuf_same hfree

theorem freeBit_spec {x : ℕ} (hx : freeBit L.toSuperblock d b = some x) :
    x < bpb ∧ b + x < L.size ∧ bit d x = false := by
  have hmem := List.mem_of_find?_eq_some hx
  have hbit := List.find?_some hx
  rw [List.mem_range, lt_min_iff] at hmem
  refine ⟨hmem.1, by omega, by simpa using hbit⟩

theorem bblock_add {x : ℕ} (hb : bpb ∣ b) (hx : x < bpb) :
    L.bblock (b + x) = L.bblock b ∧ (b + x) % bpb = x := by
  obtain ⟨m, rfl⟩ := hb
  have hpos : 0 < bpb := by decide
  refine ⟨?_, by rw [Nat.mul_add_mod, Nat.mod_eq_of_lt hx]⟩
  unfold Superblock.bblock
  rw [Nat.mul_add_div hpos, Nat.div_eq_of_lt hx, Nat.mul_div_cancel_left _ hpos, Nat.add_zero]

theorem ballocLoop_safe (bs : List ℕ) (hbs : ∀ b ∈ bs, bpb ∣ b) (hp : γ.pend = none)
    (hop : γ.op = true) :
    Safe (logic L) p γ (ballocLoop L.toSuperblock bs) fun b γ' =>
      γ' = γ.setPend (some (b, true)) := by
  induction bs with
  | nil => exact panic_safe
  | cons b bs ih =>
    unfold ballocLoop
    refine Safe.bind (bread_safe (offLog_bblock b)) ?_
    rintro bp _ ⟨d, hfree, rfl⟩
    refine Safe.bind (data_safe (Local.setBuf_buf _)) ?_
    rintro d _ ⟨rfl, rfl⟩
    cases hx : freeBit L.toSuperblock d b with
    | none =>
      refine Safe.bind (brelse_safe (Local.setBuf_buf _)) ?_
      rintro _ _ rfl
      rw [Local.setBuf_setBuf, Local.setBuf_same hfree]
      exact ih fun x hx => hbs x (List.mem_cons_of_mem _ hx)
    | some x =>
      obtain ⟨hxb, hsize, hbit⟩ := freeBit_spec hx
      obtain ⟨hblock, hmod⟩ := bblock_add (L := L) (hbs b (List.mem_cons_self ..)) hxb
      refine Safe.bind (setData_safe (w := setBit d x) (z := some (b + x, false))
        (Local.setBuf_buf _) hop (L.bmapstart_le_bblock b) fun blk stale row pend hdata hd hpend => ?_) ?_
      · have hused : ¬ usedAt L.toSuperblock blk (b + x) := by
          rw [usedAt, hblock, hmod, hd, hbit]
          simp
        have := hdata.alloc (p := p) hsize hused (hpend.trans hp)
        rwa [hblock, hmod, hd] at this
      · rintro _ _ rfl
        refine Safe.bind (logWrite_safe (b := L.bblock b) (d := setBit d x) (by simp)
          (by simpa using hop)) ?_
        rintro _ _ rfl
        refine Safe.bind (brelse_safe (b := L.bblock b) (d := setBit d x) (by simp)) ?_
        rintro _ _ rfl
        simp only [Local.setPend_setBuf, Local.setBuf_setBuf]
        rw [Local.setBuf_same (by simpa using hfree)]
        refine Safe.bind (bzero_safe (b := b + x) (by simp) (by simpa using hop)) ?_
        rintro _ _ rfl
        exact Safe.ret (by rw [Local.setPend_setPend])

theorem balloc_safe (hp : γ.pend = none) (hop : γ.op = true) :
    Safe (logic L) p γ (balloc L.toSuperblock) fun b γ' => γ' = γ.setPend (some (b, true)) := by
  refine ballocLoop_safe _ (fun b hb => ?_) hp hop
  obtain ⟨m, -, rfl⟩ := List.mem_map.1 hb
  exact Nat.dvd_mul_left bpb m

/-- **`bfree`** of the block in slot `k` of an inode that is being truncated. -/
theorem bfree_safe {D : Set ℕ} (hk : γ.lk e = some (i, some (r, δ))) (hat : At γ.pc e)
    (hop : γ.op = true) (ho : r.own k = some b)
    (hr : ∀ blk, RowOk blk r → RowOk blk (r.free k D)) :
    Safe (logic L) p γ (bfree L.toSuperblock b) fun _ γ' =>
      γ' = γ.setLk e (some (i, some (r.free k D, δ))) := by
  unfold bfree
  refine Safe.bind (bread_safe (offLog_bblock b)) ?_
  rintro bp _ ⟨d, hfree, rfl⟩
  refine Safe.bind (data_safe (Local.setBuf_buf _)) ?_
  rintro d _ ⟨rfl, rfl⟩
  split_ifs
  · exact panic_safe
  · refine Safe.bind (setRow_safe (e := e) (i := i) (r := r) (δ := δ) (w := clearBit d (b % bpb))
      (z := γ.pend) (t := r.free k D) (Local.setBuf_buf _) hop (by simpa using hk) (by simpa using hat) rfl
      (L.bmapstart_le_bblock b) fun blk stale row pend hdata hd hrow hn hpend => ?_) ?_
    · change pend p = γ.pend at hpend
      rw [← hpend, update_eq_self, ← hd, ← hrow]
      exact hdata.free hn (by rw [hrow]; exact ho) (by rw [hrow]; exact hr)
    · rintro _ _ rfl
      refine Safe.bind (logWrite_safe (b := L.bblock b) (d := clearBit d (b % bpb)) (by simp)
        (by simpa using hop)) ?_
      rintro _ _ rfl
      refine Safe.mono (brelse_safe (b := L.bblock b) (d := clearBit d (b % bpb)) (by simp)) ?_
      rintro _ _ rfl
      simp only [Local.setPend_setBuf, Local.setLk_setBuf, Local.setBuf_setBuf, Local.setPend_setLk]
      rw [Local.setPend_same rfl, Local.setBuf_same (by simpa using hfree)]

/-! ## Inodes -/

/-- **`iupdate`** of a locked inode; afterwards the process is at `c` and knows `o` of it. -/
theorem iupdate_safe {c : Icache.Pc} {o : Option (Row × Bool)}
    (hk : γ.lk e = some (i, some (r, δ))) (hop : γ.op = true) (hat : At γ.pc e) (hat' : At c e)
    (hf : ∀ v w x, Facts v w x (γ.pc.stage e) → v.din = r.din → Facts v r.din false (c.stage e))
    (ho : o = some (r, false) ∧ r.din.type ≠ 0 ∨ o = none ∧ r.loose = false ∧ r.dead = ∅) :
    Safe (logic L) p γ (iupdate L.toSuperblock e) fun _ γ' =>
      γ' = (γ.goto c).setLk e (some (i, o)) := by
  unfold iupdate
  refine Safe.bind (inode_safe hk) ?_
  rintro v _ ⟨rfl, -, rfl⟩
  refine Safe.bind (bread_safe (offLog_iblock _)) ?_
  rintro bp _ ⟨d, hfree, rfl⟩
  refine Safe.bind (data_safe (Local.setBuf_buf _)) ?_
  rintro d _ ⟨rfl, rfl⟩
  refine Safe.bind (inode_safe (by simpa using hk)) ?_
  rintro w _ ⟨hnum, hdin, rfl⟩
  rw [hnum, hdin]
  refine Safe.bind (save_safe (Local.setBuf_buf _) hop (by simpa using hk) (by simpa using hat) hat'
    (by simpa using hf) ho) ?_
  rintro _ _ rfl
  refine Safe.bind (logWrite_safe (b := L.iblock v.inum) (d := putDinode r.din d v.inum) (by simp)
    (by simpa using hop)) ?_
  rintro _ _ rfl
  refine Safe.mono (brelse_safe (b := L.iblock v.inum) (d := putDinode r.din d v.inum) (by simp)) ?_
  rintro _ _ rfl
  simp only [Local.setLk_setBuf, Local.goto_setBuf, Local.setBuf_setBuf, Local.goto_setLk]
  exact Local.setBuf_same (by simpa using hfree)

theorem iupdate_idle_safe (hk : γ.lk e = some (i, some (r, δ))) (hop : γ.op = true)
    (hpc : γ.pc = .idle) (hty : r.din.type ≠ 0) :
    Safe (logic L) p γ (iupdate L.toSuperblock e) fun _ γ' =>
      γ' = γ.setLk e (some (i, some (r, false))) := by
  refine Safe.mono (iupdate_safe (c := .idle) hk hop (.inl hpc) (.inl rfl) ?_ (.inl ⟨rfl, hty⟩)) ?_
  · intro v w x hf hdin
    rw [hpc] at hf
    exact ⟨hf.1, hf.2.1, hty, fun _ => hdin⟩
  · rintro _ _ rfl
    rw [Local.goto_same hpc]

theorem iallocLoop_safe {type : UInt16} (l : List ℕ) (hl : ∀ n ∈ l, n < L.ninodes)
    (hop : γ.op = true) (hpc : γ.pc = .idle) :
    Safe (logic L) p γ (iallocLoop L.toSuperblock type l) fun _ γ' => γ' = γ := by
  induction l with
  | nil => exact panic_safe
  | cons inum l ih =>
    unfold iallocLoop
    refine Safe.bind (bread_safe (offLog_iblock _)) ?_
    rintro bp _ ⟨d, hfree, rfl⟩
    refine Safe.bind (data_safe (Local.setBuf_buf _)) ?_
    rintro d _ ⟨rfl, rfl⟩
    split_ifs with ht
    · have hn := hl inum (List.mem_cons_self ..)
      refine Safe.bind (allocInode_safe (Local.setBuf_buf _) hop hn ht) ?_
      rintro _ _ rfl
      rw [Local.setBuf_setBuf]
      refine Safe.bind (logWrite_safe (Local.setBuf_buf _) hop) ?_
      rintro _ _ rfl
      refine Safe.bind (brelse_safe (Local.setBuf_buf _)) ?_
      rintro _ _ rfl
      rw [Local.setBuf_setBuf, Local.setBuf_same hfree]
      refine Safe.mono (iget_safe hpc hn) ?_
      rintro _ _ rfl
      exact Local.goto_same hpc
    · refine Safe.bind (brelse_safe (Local.setBuf_buf _)) ?_
      rintro _ _ rfl
      rw [Local.setBuf_setBuf, Local.setBuf_same hfree]
      exact ih fun n hn => hl n (List.mem_cons_of_mem _ hn)

theorem ialloc_safe {type : UInt16} (hop : γ.op = true) (hpc : γ.pc = .idle) :
    Safe (logic L) p γ (ialloc L.toSuperblock type) fun _ γ' => γ' = γ := by
  refine iallocLoop_safe _ (fun n hn => ?_) hop hpc
  obtain ⟨m, hm, rfl⟩ := List.mem_map.1 hn
  rw [List.mem_range] at hm
  omega

theorem ilock_safe (hpc : γ.pc = .locking e) :
    Safe (logic L) p γ (ilock L.toSuperblock e) fun _ γ' => ∃ i, Loaded γ γ' e i := by
  unfold ilock
  refine Safe.bind refOk_safe ?_
  rintro ok _ rfl
  split_ifs
  · refine Safe.bind (acquiresleep_safe hpc) ?_
    rintro _ _ ⟨i, -, rfl⟩
    refine Safe.bind (load_safe (i := i) (by simp) (by simp)) ?_
    rintro v γ₁ ⟨rfl, hvalid, hnot⟩
    split_ifs with hv
    · refine Safe.ret ⟨v.inum, ?_⟩
      obtain ⟨r, hl, hdead, rfl⟩ := hvalid hv
      exact ⟨r, hl, hdead, by simp⟩
    · obtain rfl := hnot (by simpa using hv)
      refine Safe.bind (bread_safe (offLog_iblock _)) ?_
      rintro bp _ ⟨d, hfree, rfl⟩
      refine Safe.bind (data_safe (Local.setBuf_buf _)) ?_
      rintro d _ ⟨rfl, rfl⟩
      refine Safe.bind (fill_safe (by simp) (by simp) (Local.setBuf_buf _)) ?_
      rintro _ _ rfl
      refine Safe.bind (brelse_safe (b := L.iblock v.inum) (d := d) (by simp)) ?_
      rintro _ _ rfl
      refine Safe.bind (setValid_safe (i := v.inum) (by simp) (by simp)) ?_
      rintro _ _ rfl
      refine Safe.bind (check_safe (i := v.inum) (by simp) (by simp)) ?_
      rintro w γ₂ hw
      split_ifs with hty
      · exact panic_safe
      · refine Safe.ret ⟨v.inum, ?_⟩
        obtain ⟨r, hl, hdead, rfl⟩ := hw hty
        refine ⟨r, hl, hdead, ?_⟩
        simp only [Local.goto_setBuf, Local.setLk_setBuf, Local.setBuf_setBuf, Local.goto_setLk,
          Local.setLk_setLk, Local.goto_goto]
        exact Local.setBuf_same hfree
  · exact panic_safe

theorem iunlock_safe (hk : γ.lk e = some (i, some (r, false))) (hpc : γ.pc = .idle)
    (hl : r.loose = false) (hdead : r.dead = ∅) :
    Safe (logic L) p γ (iunlock e) fun _ γ' => γ' = γ.setLk e none := by
  unfold iunlock
  refine Safe.bind holdingsleep_safe ?_
  rintro ok _ rfl
  split_ifs
  · refine Safe.mono (releasesleep_safe hk hpc hl hdead) ?_
    rintro _ _ rfl
    rw [Local.goto_setLk, Local.goto_same hpc]
  · exact panic_safe

/-! ## Slots -/

theorem nmeta_pos (h : 0 < L.size) : 0 < L.nmeta := lt_of_le_of_lt (Nat.zero_le _) (L.bblock_lt h)

theorem DataOk.own_eq {blk : ℕ → Block} {stale : ℕ → Bool} {row : ℕ → Row}
    {pend : Pid → Option (ℕ × Bool)} (hdata : DataOk L blk stale row pend)
    (hty : (row i).din.type ≠ 0) (hk : k < nslot) (hd : k ∉ (row i).dead) :
    (row i).own k = if addr blk (row i).din k = 0 then none else some (addr blk (row i).din k) := by
  rw [(hdata.table.rows i).slot hty k hk hd, Row.addr]
  cases ho : (row i).own k with
  | none => rfl
  | some a =>
    have hrange := hdata.own_range ho
    have hpos := nmeta_pos (L := L) (by omega)
    rw [Option.getD_some, if_neg (by omega)]

namespace Inv

variable {s : State} {g : Pid → Local} {G : Shared} (hi : Inv L s g G)

include hi

theorem type_ne (hk : (g p).lk e = some (i, some (r, δ)))
    (hpc : (g p).pc = .idle ∨ (g p).pc = .own .trunc e) : r.din.type ≠ 0 := by
  have hf := hi.facts hk
  obtain ⟨-, hdin, -⟩ := hi.lock.known hk
  rw [← hdin]
  rcases hpc with hpc | hpc
  · rw [hpc] at hf
    exact hf.2.1
  · rw [hpc, stage_own] at hf
    exact hf.2.1

theorem rowOk (hk : (g p).lk e = some (i, some (r, δ))) : RowOk s.blk r := by
  obtain ⟨-, -, -, hrow, -⟩ := hi.lock.known hk
  rw [← hrow]
  exact hi.data.table.rows i

theorem own_eq (hk : (g p).lk e = some (i, some (r, δ))) (hty : r.din.type ≠ 0) (hn : k < nslot)
    (hd : k ∉ r.dead) :
    r.own k = if addr s.blk r.din k = 0 then none else some (addr s.blk r.din k) := by
  obtain ⟨-, -, -, hrow, -⟩ := hi.lock.known hk
  subst hrow
  exact hi.data.own_eq hty hn hd

theorem own_direct (hk : (g p).lk e = some (i, some (r, δ))) (hty : r.din.type ≠ 0)
    (k : Fin (ndirect + 1)) (hd : k.1 ∉ r.dead) :
    r.own k = if r.din.addrs k = 0 then none else some (r.din.addrs k).toNat := by
  have hn : k.1 < nslot := lt_of_lt_of_le k.2 (by decide)
  rw [hi.own_eq hk hty hn hd, addr_direct k.2]
  simp only [Fin.eta, toNat_eq_zero_iff]

theorem own_entry {a j : ℕ} (hk : (g p).lk e = some (i, some (r, δ))) (hty : r.din.type ≠ 0)
    (ho : r.own indSlot = some a) (hb : s.blk a = d) (hj : j < nindirect)
    (hd : indSlot + 1 + j ∉ r.dead) :
    r.own (indSlot + 1 + j) = if entry d j = 0 then none else some (entry d j) := by
  have hj' : j < 256 := hj
  have hlt : indSlot + 1 + j < nslot := by
    change 12 + 1 + j < 269
    omega
  have hlive : indSlot ∉ r.dead := fun hin =>
    hd ((hi.rowOk hk).dead hin _ (by change 12 < 12 + 1 + j; omega) hlt)
  have hind := hi.own_direct hk hty indirect hlive
  rw [show r.own indirect.1 = some a from ho] at hind
  split_ifs at hind with h0
  have ha : (r.din.addrs indirect).toNat = a := (Option.some.inj hind).symm
  rw [hi.own_eq hk hty hlt hd, addr, dif_neg (by change ¬ 12 + 1 + j < 13; omega), if_neg h0, ha, hb,
    show indSlot + 1 + j - (ndirect + 1) = j from Nat.add_sub_cancel_left ..]

theorem own_none_of_indirect (hk : (g p).lk e = some (i, some (r, δ))) (hty : r.din.type ≠ 0)
    (hdead : r.dead = ∅) (h0 : r.din.addrs indirect = 0) (hn : indSlot ≤ k) : r.own k = none := by
  have hlive : ∀ l, l ∉ r.dead := fun l => by simp [hdead]
  by_cases hlt : k < nslot
  · rw [hi.own_eq hk hty hlt (hlive k)]
    rcases hn.eq_or_lt with rfl | hgt
    · rw [addr_direct (by decide)]
      exact if_pos (toNat_eq_zero_iff.2 h0)
    · rw [addr_entry_zero hgt h0, if_pos rfl]
  · exact (hi.rowOk hk).empty k (.inr (.inl (Nat.le_of_not_lt hlt)))

end Inv

/-! ## Truncation -/

theorem clearAddr_safe {k : Fin (ndirect + 1)} (hk : γ.lk e = some (i, some (r, δ)))
    (hpc : γ.pc = .own .trunc e) (ho : r.own k = none)
    (hdead : ∀ l ∈ r.dead, l = k ∨ k = indirect ∧ ndirect < l)
    (hind : k = indirect → ∀ l, ndirect < l → r.own l = none) :
    Safe (logic L) p γ (store e (setAddr k 0)) fun _ γ' =>
      γ' = γ.setLk e (some (i, some (⟨setAddr k 0 r.din, r.own, ∅, true⟩, true))) := by
  have hat : At γ.pc e := .inr ⟨_, hpc⟩
  refine Safe.mono (store_safe (t := ⟨setAddr k 0 r.din, r.own, ∅, true⟩) (z := γ.pend) hk hat hat rfl
    (fun v w x hf _ => ?_) fun blk stale row pend hdata hrow hn hpend => ?_) ?_
  · rw [hpc, stage_own] at hf ⊢
    exact hf
  · rw [← hpend, update_eq_self]
    subst hrow
    exact hdata.setRow hn rfl ((hdata.table.rows i).clearAddr ho hdead hind)
  · rintro _ _ rfl
    rw [Local.goto_setLk, Local.setPend_setLk, Local.goto_same rfl, Local.setPend_same rfl]

structure Truncating (r r' : Row) : Prop where
  loose : r'.loose = true
  dead : r'.dead = ∅
  less : ∀ l, r.own l = none → r'.own l = none

theorem truncDirect_safe {k : Fin (ndirect + 1)} (hk : γ.lk e = some (i, some (r, δ)))
    (hpc : γ.pc = .own .trunc e) (hop : γ.op = true) (hl : r.loose = true) (hdead : r.dead = ∅)
    (hne : k ≠ indirect) :
    Safe (logic L) p γ (truncDirect L.toSuperblock e k) fun _ γ' =>
      ∃ r' δ', Truncating r r' ∧ r'.own k = none ∧ γ' = γ.setLk e (some (i, some (r', δ'))) := by
  have hat : At γ.pc e := .inr ⟨_, hpc⟩
  refine Safe.use (Φ := r.own k = if r.din.addrs k = 0 then none else some (r.din.addrs k).toNat)
    (fun s g ⟨G, hi⟩ hg => ?_) fun hown => ?_
  · subst hg
    exact hi.own_direct hk (hi.type_ne hk (.inr hpc)) k (by simp [hdead])
  · change Safe (logic L) p γ (truncDirect L.toSuperblock e k) _
    unfold truncDirect
    refine Safe.bind (inode_safe hk) ?_
    rintro v _ ⟨-, hdin, rfl⟩
    rw [hdin]
    split_ifs with h0
    · rw [if_pos h0] at hown
      exact Safe.ret ⟨r, δ, ⟨hl, hdead, fun _ => id⟩, hown, (Local.setLk_same hk).symm⟩
    · rw [if_neg h0] at hown
      refine Safe.bind (bfree_safe (D := {k.1}) hk hat hop hown fun blk hr => ?_) ?_
      · refine hr.free hl rfl (by simp [hdead]) (fun l hl => .inl hl) fun hin => ?_
        exact absurd (Fin.ext hin.symm) hne
      · rintro _ _ rfl
        have hnone := r.free_own_self (k := k) {k.1}
        refine Safe.mono (clearAddr_safe (r := r.free k {k.1}) (Local.setLk_lk _) hpc hnone
          (fun l hl => .inl hl) fun hi => absurd hi hne) ?_
        rintro _ _ rfl
        exact ⟨⟨setAddr k 0 r.din, (r.free k {k.1}).own, ∅, true⟩, true,
          ⟨rfl, rfl, fun l hl => Row.free_own_none {k.1} hl⟩, hnone, Local.setLk_setLk _⟩

/-- What `itrunc` has done so far to the entries of the indirect block `a`. -/
structure TruncatingEntries (r r' : Row) (a : ℕ) : Prop where
  loose : r'.loose = true
  din : r'.din = r.din
  own : r'.own indSlot = some a
  dead : ∀ l ∈ r'.dead, indSlot < l
  less : ∀ l, r.own l = none → r'.own l = none

theorem truncEntry_safe {a j : ℕ} {t : Row} (hk : γ.lk e = some (i, some (r, δ)))
    (hpc : γ.pc = .own .trunc e) (hop : γ.op = true) (hb : γ.buf h = some (a, d))
    (hr : TruncatingEntries t r a) (hj : j < nindirect) (hd : indSlot + 1 + j ∉ r.dead) :
    Safe (logic L) p γ (truncEntry L.toSuperblock h j) fun _ γ' =>
      ∃ r', TruncatingEntries t r' a ∧ r'.own (indSlot + 1 + j) = none ∧
        (∀ l, r.own l = none → r'.own l = none) ∧
        (∀ l ∈ r'.dead, l ∈ r.dead ∨ l = indSlot + 1 + j) ∧
        γ' = γ.setLk e (some (i, some (r', δ))) := by
  refine Safe.use (Φ := r.own (indSlot + 1 + j) = if entry d j = 0 then none else some (entry d j))
    (fun s g ⟨G, hi⟩ hg => ?_) fun hown => ?_
  · subst hg
    exact hi.own_entry hk (hi.type_ne hk (.inr hpc)) hr.own (hi.held hb).2 hj hd
  · change Safe (logic L) p γ (truncEntry L.toSuperblock h j) _
    unfold truncEntry
    refine Safe.bind (data_safe hb) ?_
    rintro d _ ⟨rfl, rfl⟩
    split_ifs with h0
    · rw [if_pos h0] at hown
      exact Safe.ret ⟨r, hr, hown, fun _ => id, fun _ => .inl, (Local.setLk_same hk).symm⟩
    · rw [if_neg h0] at hown
      have hne : indSlot ≠ indSlot + 1 + j := by
        change 12 ≠ 12 + 1 + j
        omega
      have hgt : indSlot < indSlot + 1 + j := by
        change 12 < 12 + 1 + j
        omega
      refine Safe.mono (bfree_safe (D := insert (indSlot + 1 + j) r.dead) hk (.inr ⟨_, hpc⟩) hop hown
        fun blk hok => ?_) ?_
      · refine hok.free hr.loose (Set.mem_insert ..) (Set.subset_insert ..) (fun l hl => ?_) fun hin => ?_
        · exact hl.imp_right fun hl => hok.empty l (.inr (.inr hl))
        · exact absurd (hr.dead _ (hin.resolve_left hne)) (lt_irrefl _)
      · rintro _ _ rfl
        refine ⟨r.free (indSlot + 1 + j) (insert (indSlot + 1 + j) r.dead), ⟨hr.loose, hr.din,
          (r.free_own_ne _ hne).trans hr.own, fun l hl => ?_,
          fun l hl => Row.free_own_none _ (hr.less l hl)⟩, r.free_own_self _,
          fun l hl => Row.free_own_none _ hl, fun l hl => hl.symm, rfl⟩
        rcases hl with rfl | hl
        · exact hgt
        · exact hr.dead l hl

theorem truncEntries_safe {a : ℕ} (hk : γ.lk e = some (i, some (r, δ)))
    (hpc : γ.pc = .own .trunc e) (hop : γ.op = true) (hb : γ.buf h = some (a, d))
    (hl : r.loose = true) (hdead : r.dead = ∅) (ho : r.own indSlot = some a) :
    Safe (logic L) p γ
      (.forEnum (fun _ j => truncEntry L.toSuperblock h j) 0 (List.range nindirect)) fun _ γ' =>
      ∃ r', TruncatingEntries r r' a ∧ (∀ j, j < nindirect → r'.own (indSlot + 1 + j) = none) ∧
        γ' = γ.setLk e (some (i, some (r', δ))) := by
  -- the entries that are left are not dead, and the others own nothing
  let J : ℕ → List ℕ → Local → Prop := fun _ l γ' => ∃ r', TruncatingEntries r r' a ∧ l.Nodup ∧
    (∀ j ∈ l, j < nindirect ∧ indSlot + 1 + j ∉ r'.dead) ∧
    (∀ j, j < nindirect → j ∉ l → r'.own (indSlot + 1 + j) = none) ∧
    γ' = γ.setLk e (some (i, some (r', δ)))
  refine Safe.mono (Safe.forEnum (J := J) ?_ 0 _ ?_) ?_
  · rintro - j l _ ⟨r', hr, hnd, hlive, hnone, rfl⟩
    obtain ⟨hj, hjd⟩ := hlive j (List.mem_cons_self ..)
    refine Safe.mono (truncEntry_safe (t := r) (Local.setLk_lk _) hpc hop hb hr hj hjd) ?_
    rintro - _ ⟨r'', hr', hown, hless, hdead', rfl⟩
    rw [List.nodup_cons] at hnd
    refine ⟨r'', hr', hnd.2, fun x hx => ?_, fun x hx hxl => ?_, Local.setLk_setLk _⟩
    · obtain ⟨hx', hxd⟩ := hlive x (List.mem_cons_of_mem _ hx)
      refine ⟨hx', fun hin => (hdead' _ hin).elim hxd fun heq => ?_⟩
      exact hnd.1 (Nat.add_left_cancel heq ▸ hx)
    · by_cases hxj : x = j
      · rw [hxj]
        exact hown
      · exact hless _ (hnone x hx (by simp [hxj, hxl]))
  · refine ⟨r, ⟨hl, rfl, ho, by simp [hdead], fun _ => id⟩, List.nodup_range, fun j hj => ?_,
      fun j hj hjl => ?_, (Local.setLk_same hk).symm⟩
    · exact ⟨List.mem_range.1 hj, by simp [hdead]⟩
    · exact absurd (List.mem_range.2 hj) hjl
  · rintro - _ ⟨r', hr, -, -, hnone, rfl⟩
    exact ⟨r', hr, fun j hj => hnone j hj (List.not_mem_nil), rfl⟩

theorem truncIndirect_safe (hk : γ.lk e = some (i, some (r, δ))) (hpc : γ.pc = .own .trunc e)
    (hop : γ.op = true) (hl : r.loose = true) (hdead : r.dead = ∅) :
    Safe (logic L) p γ (truncIndirect L.toSuperblock e) fun _ γ' =>
      ∃ r' δ', Truncating r r' ∧ (∀ l, indSlot ≤ l → r'.own l = none) ∧
        γ' = γ.setLk e (some (i, some (r', δ'))) := by
  have hat : At γ.pc e := .inr ⟨_, hpc⟩
  refine Safe.use (Φ := (r.din.addrs indirect = 0 → ∀ l, indSlot ≤ l → r.own l = none) ∧
    (r.din.addrs indirect ≠ 0 → r.own indSlot = some (r.din.addrs indirect).toNat ∧
      L.nmeta ≤ (r.din.addrs indirect).toNat) ∧ ∀ l, nslot ≤ l → r.own l = none)
    (fun s g ⟨G, hi⟩ hg => ?_) fun ⟨hzero, hsome, hbig⟩ => ?_
  · subst hg
    have hty := hi.type_ne hk (.inr hpc)
    refine ⟨fun h0 l hl => hi.own_none_of_indirect hk hty hdead h0 hl, fun h0 => ?_,
      fun l hl => (hi.rowOk hk).empty l (.inr (.inl hl))⟩
    have hown := hi.own_direct hk hty indirect (by simp [hdead])
    rw [if_neg h0] at hown
    obtain ⟨-, -, -, hrow, -⟩ := hi.lock.known hk
    exact ⟨hown, (hi.data.own_range (i := i) (k := indSlot) (by rw [hrow]; exact hown)).1⟩
  · change Safe (logic L) p γ (truncIndirect L.toSuperblock e) _
    unfold truncIndirect
    refine Safe.bind (inode_safe hk) ?_
    rintro v _ ⟨-, hdin, rfl⟩
    rw [hdin]
    split_ifs with h0
    · exact Safe.ret ⟨r, δ, ⟨hl, hdead, fun _ => id⟩, hzero h0, (Local.setLk_same hk).symm⟩
    · obtain ⟨hown, hmeta⟩ := hsome h0
      refine Safe.bind (bread_safe (offLog_data hmeta)) ?_
      rintro bp _ ⟨d, hfree, rfl⟩
      refine Safe.bind (truncEntries_safe (r := r) (by simpa using hk) hpc hop (Local.setBuf_buf _) hl
        hdead hown) ?_
      rintro _ _ ⟨r', hr, hnone, rfl⟩
      refine Safe.bind (brelse_safe (b := (r.din.addrs indirect).toNat) (d := d) (by simp)) ?_
      rintro _ _ rfl
      rw [Local.setLk_setBuf, Local.setBuf_setBuf, Local.setBuf_same (by simpa using hfree)]
      -- nothing is left above the indirect block
      have hentries : ∀ l, indSlot < l → r'.own l = none := fun l hgt => by
        by_cases hlt : l < nslot
        · have := hnone (l - 13) (by change l - 13 < 256; change l < 269 at hlt; omega)
          rwa [show indSlot + 1 + (l - 13) = l by change 12 < l at hgt; change 12 + 1 + (l - 13) = l; omega]
            at this
        · exact hr.less l (hbig l (Nat.le_of_not_lt hlt))
      refine Safe.bind (bfree_safe (D := {l | indSlot ≤ l}) (Local.setLk_lk _) hat hop hr.own
        fun blk hok => ?_) ?_
      · refine hok.free hr.loose (le_refl indSlot) (fun l hl => (hr.dead l hl).le) (fun l hl => ?_)
          fun _ l hgt _ => le_of_lt hgt
        rcases Nat.eq_or_lt_of_le hl with heq | hgt
        · exact .inl heq.symm
        · exact .inr (hentries l hgt)
      · rintro _ _ rfl
        rw [Local.setLk_setLk]
        have hall : ∀ l, indSlot ≤ l → (r'.free indSlot {l | indSlot ≤ l}).own l = none := fun l hle => by
          rcases Nat.eq_or_lt_of_le hle with heq | hgt
          · rw [← heq, r'.free_own_self]
          · exact Row.free_own_none _ (hentries l hgt)
        refine Safe.mono (clearAddr_safe (k := indirect) (Local.setLk_lk _) hpc (hall _ (le_refl _))
          (fun l hl => ?_) fun _ l hgt => hall l (le_of_lt hgt)) ?_
        · rcases Nat.eq_or_lt_of_le hl with heq | hgt
          · exact .inl heq.symm
          · exact .inr ⟨rfl, hgt⟩
        · rintro _ _ rfl
          exact ⟨⟨setAddr indirect 0 r'.din, (r'.free indSlot {l | indSlot ≤ l}).own, ∅, true⟩, true,
            ⟨rfl, rfl, fun l hl => Row.free_own_none {l | indSlot ≤ l} (hr.less l hl)⟩, hall,
            Local.setLk_setLk _⟩

theorem itrunc_safe (hk : γ.lk e = some (i, some (r, δ))) (hpc : γ.pc = .own .trunc e)
    (hop : γ.op = true) (hl : r.loose = true) (hdead : r.dead = ∅) :
    Safe (logic L) p γ (itrunc L.toSuperblock e) fun _ γ' =>
      ∃ r' : Row, (∀ k, r'.own k = none) ∧ r'.loose = false ∧ r'.dead = ∅ ∧
        γ' = (γ.goto (.own .saved e)).setLk e (some (i, some (r', false))) := by
  have hat : ∀ {st}, At (.own st e) e := .inr ⟨_, rfl⟩
  unfold itrunc
  -- the direct addresses
  let J : ℕ → List (Fin (ndirect + 1)) → Local → Prop := fun _ l γ' => ∃ r' δ', Truncating r r' ∧
    (∀ k ∈ l, k ≠ indirect) ∧ (∀ k, k ≠ indirect → k ∉ l → r'.own k.1 = none) ∧
    γ' = γ.setLk e (some (i, some (r', δ')))
  refine Safe.bind (Safe.forEnum (J := J) ?_ 0 _ ?_) ?_
  · rintro - k l _ ⟨r₁, δ₁, hr, hne, hnone, rfl⟩
    refine Safe.mono (truncDirect_safe (Local.setLk_lk _) hpc hop hr.loose hr.dead
      (hne k (List.mem_cons_self ..))) ?_
    rintro - _ ⟨r₂, bd₂, hr₂, hown, rfl⟩
    refine ⟨r₂, bd₂, ⟨hr₂.loose, hr₂.dead, fun l hl => hr₂.less l (hr.less l hl)⟩,
      fun x hx => hne x (List.mem_cons_of_mem _ hx), fun x hx hxl => ?_, Local.setLk_setLk _⟩
    by_cases hxk : x = k
    · rw [hxk]
      exact hown
    · exact hr₂.less _ (hnone x hx (by simp [hxk, hxl]))
  · refine ⟨r, δ, ⟨hl, hdead, fun _ => id⟩, fun k hk => ?_, fun k hk hkl => ?_,
      (Local.setLk_same hk).symm⟩
    · obtain ⟨j, -, rfl⟩ := List.mem_map.1 hk
      exact Fin.castSucc_ne_last j
    · refine absurd (List.mem_map.2 ⟨k.castPred hk, List.mem_finRange _, ?_⟩) hkl
      exact Fin.castSucc_castPred k hk
  · rintro - _ ⟨r₁, δ₁, hr₁, -, hdirect, rfl⟩
    refine Safe.bind (truncIndirect_safe (Local.setLk_lk _) hpc hop hr₁.loose hr₁.dead) ?_
    rintro - _ ⟨r₂, bd₂, hr₂, hind, rfl⟩
    rw [Local.setLk_setLk]
    have hnone : ∀ k, r₂.own k = none := fun k => by
      by_cases hk : k < indSlot
      · refine hr₂.less k (hdirect ⟨k, Nat.lt_succ_of_lt hk⟩ (fun e => ?_) List.not_mem_nil)
        exact absurd (Fin.val_eq_of_eq e) (ne_of_lt hk)
      · exact hind k (Nat.le_of_not_lt hk)
    -- the size
    let w : Dinode := { r₂.din with size := 0 }
    refine Safe.bind (store_safe (t := ⟨w, r₂.own, ∅, false⟩) (c := .own .trunc e) (z := γ.pend)
      (Local.setLk_lk _) (by rw [Local.setLk_pc, hpc]; exact hat) hat rfl (fun v w x hf _ => ?_)
      fun blk stale row pend hdata hrow hn hpend => ?_) ?_
    · rw [Local.setLk_pc, hpc, stage_own] at hf
      rw [stage_own]
      exact hf
    · change pend p = γ.pend at hpend
      rw [← hpend, update_eq_self]
      have hok := hdata.table.rows i
      rw [hrow] at hok
      refine hdata.setRow hn (by rw [hrow]) ?_
      refine ⟨fun hty k hk _ => ?_, fun k _ => hnone k, fun _ _ n hn => absurd hn (Nat.not_lt_zero _), nofun⟩
      exact hok.slot hty k hk (by simp [hr₂.dead])
    · rintro _ _ rfl
      simp only [Local.setLk_setLk, Local.goto_setLk, Local.setPend_setLk, Local.setPend_goto]
      rw [Local.setPend_same rfl, Local.goto_same hpc]
      refine Safe.use (Φ := w.type ≠ 0) (fun s g ⟨G, hi⟩ hg => ?_) fun hty => ?_
      · have hpc' : (g p).pc = .own .trunc e := by rw [hg]; exact hpc
        exact hi.type_ne (r := ⟨w, r₂.own, ∅, false⟩) (by rw [hg]; exact Local.setLk_lk _) (.inr hpc')
      · change Safe (logic L) p _ (iupdate L.toSuperblock e) _
        refine Safe.mono (iupdate_safe (c := .own .saved e) (Local.setLk_lk _) hop
          (by rw [Local.setLk_pc, hpc]; exact hat) hat (fun v x y hf hdin => ?_)
          (.inl ⟨rfl, hty⟩)) ?_
        · rw [Local.setLk_pc, hpc, stage_own] at hf
          rw [stage_own]
          exact ⟨rfl, hf.1, hdin, hty, hdin ▸ hf.2.2.1⟩
        · rintro _ _ rfl
          exact ⟨⟨w, r₂.own, ∅, false⟩, hnone, rfl, rfl, by simp⟩

theorem iput_safe (hpc : γ.pc = .drop e) (hop : γ.op = true) :
    Safe (logic L) p γ (iput L.toSuperblock e) fun _ γ' => γ' = γ.goto .idle := by
  have hat : ∀ {st}, At (.own st e) e := .inr ⟨_, rfl⟩
  unfold iput
  refine Safe.bind (iputStart_safe hpc) ?_
  rintro last γ₁ ⟨htrue, hfalse⟩
  split_ifs with hlast
  · obtain ⟨i, r, hnone, hl, hdead, rfl⟩ := htrue hlast
    refine Safe.bind (itrunc_safe (Local.setLk_lk _) (by simp) (by simpa using hop) hl hdead) ?_
    rintro - _ ⟨r', hown, hl', hdead', rfl⟩
    simp only [Local.goto_setLk, Local.goto_goto, Local.setLk_setLk]
    refine Safe.bind (store_safe (t := r'.setDin { r'.din with type := 0 }) (c := .own .typeless e)
      (z := γ.pend) (Local.setLk_lk _) hat hat rfl (fun v w x hf _ => ?_)
      fun blk stale row pend hdata hrow hn hpend => ?_) ?_
    · rw [Local.setLk_pc, Local.goto_pc, stage_own] at hf
      rw [stage_own]
      exact ⟨hf.2.1, rfl, hf.2.2.2⟩
    · change pend p = γ.pend at hpend
      rw [← hpend, update_eq_self]
      have hok := hdata.table.rows i
      rw [hrow] at hok
      exact hdata.setRow hn (by rw [hrow]; rfl) (hok.setFree hown rfl)
    · rintro - _ rfl
      simp only [Local.setLk_setLk, Local.goto_setLk, Local.setPend_setLk, Local.setPend_goto,
        Local.goto_goto]
      rw [Local.setPend_same rfl]
      refine Safe.bind (iupdate_safe (c := .own .freed e) (o := none) (Local.setLk_lk _) hop hat hat
        (fun v x y hf hdin => ?_) (.inr ⟨rfl, hl', hdead'⟩)) ?_
      · rw [Local.setLk_pc, Local.goto_pc, stage_own] at hf
        rw [stage_own]
        exact ⟨rfl, hf.1⟩
      · rintro - _ rfl
        simp only [Local.goto_setLk, Local.goto_goto, Local.setLk_setLk]
        refine Safe.bind (unvalid_safe (Local.setLk_lk _) (by simp)) ?_
        rintro - _ rfl
        refine Safe.bind (drop_safe (i := i) (by simp) (by simp)) ?_
        rintro - _ rfl
        refine Safe.mono (iputEnd_safe (by simp)) ?_
        rintro - _ rfl
        simp only [Local.goto_setLk, Local.goto_goto, Local.setLk_setLk]
        exact Local.setLk_same hnone
  · obtain rfl := hfalse (by simpa using hlast)
    exact Safe.ret rfl

/-! ## Inode content -/

structure Grown (r r' : Row) : Prop where
  loose : r'.loose = r.loose
  dead : r'.dead = r.dead
  size : r'.din.size = r.din.size
  own : ∀ l a, r.own l = some a → r'.own l = some a

theorem Grown.refl (r : Row) : Grown r r := ⟨rfl, rfl, rfl, fun _ _ => id⟩

theorem Grown.trans {r r' r'' : Row} (h : Grown r r') (h' : Grown r' r'') : Grown r r'' :=
  ⟨h'.loose.trans h.loose, h'.dead.trans h.dead, h'.size.trans h.size,
    fun l a ho => h'.own l a (h.own l a ho)⟩

theorem Grown.attach {v : Dinode} (hv : v.size = r.din.size) (ho : r.own k = none) :
    Grown r (r.attach v k b) := by
  refine ⟨rfl, rfl, hv, fun l a hl => ?_⟩
  have hlk : l ≠ k := by
    rintro rfl
    cases ho.symm.trans hl
  exact (update_of_ne hlk ..).trans hl

theorem attach_own_self (r : Row) (v : Dinode) : (r.attach v k b).own k = some b :=
  update_self ..

structure Working (γ : Local) (e : Ip) (i : ℕ) (r : Row) (δ : Bool) : Prop where
  lk : γ.lk e = some (i, some (r, δ))
  pc : γ.pc = .idle
  pend : γ.pend = none
  loose : r.loose = false
  dead : r.dead = ∅

namespace Working

variable (hw : Working γ e i r δ)

include hw

theorem setLk {r' : Row} {y : Bool} (hr : Grown r r') :
    Working (γ.setLk e (some (i, some (r', y)))) e i r' y :=
  ⟨Local.setLk_lk _, hw.pc, hw.pend, hr.loose.trans hw.loose, hr.dead.trans hw.dead⟩

theorem live (l : ℕ) : l ∉ r.dead := by simp [hw.dead]

end Working

/-- What `bmap` does: slot `k` owns block `b` afterwards, and if it had a block, nothing has changed. -/
def Maps (γ γ' : Local) (e : Ip) (i : ℕ) (r : Row) (δ : Bool) (k b : ℕ) : Prop :=
  ∃ r' δ', Grown r r' ∧ r'.own k = some b ∧ (r.own k ≠ none → r' = r ∧ δ' = δ) ∧
    γ' = γ.setLk e (some (i, some (r', δ')))

theorem bmapAddr_safe {k : Fin (ndirect + 1)} (hw : Working γ e i r δ)
    (hop : γ.op = true ∨ r.own k ≠ none) :
    Safe (logic L) p γ (bmapAddr L.toSuperblock e k) fun b γ' => Maps γ γ' e i r δ k b := by
  refine Safe.use (Φ := r.din.type ≠ 0 ∧
    r.own k = if r.din.addrs k = 0 then none else some (r.din.addrs k).toNat)
    (fun s g ⟨G, hi⟩ hg => ?_) fun ⟨hty, hown⟩ => ?_
  · subst hg
    have hty := hi.type_ne hw.lk (.inl hw.pc)
    exact ⟨hty, hi.own_direct hw.lk hty k (hw.live _)⟩
  · change Safe (logic L) p γ (bmapAddr L.toSuperblock e k) _
    unfold bmapAddr
    refine Safe.bind (inode_safe hw.lk) ?_
    rintro v _ ⟨-, hdin, rfl⟩
    rw [hdin]
    split_ifs with h0
    · rw [if_pos h0] at hown
      have hop' := hop.resolve_right fun hne => hne hown
      refine Safe.bind (balloc_safe hw.pend hop') ?_
      rintro b _ rfl
      refine Safe.bind (store_safe (t := r.attach (setAddr k b r.din) k b) (c := .idle) (z := none)
        hw.lk (.inl hw.pc) (.inl rfl) rfl (fun v w x hf hdin => ?_)
        fun blk stale row pend hdata hrow hn hpend => ?_) ?_
      · rw [Local.setPend_pc, hw.pc] at hf
        exact ⟨hf.1, hf.2.1, hf.2.2.1, nofun⟩
      · subst hrow
        have hrange := hdata.pend_range hpend
        have hsize := L.size_lt
        have hpos := nmeta_pos (L := L) (by omega)
        refine hdata.attach hn hpend hown (fun _ => rfl) ?_
        exact (hdata.table.rows i).attachAddr hty hw.dead hown (by omega) (by omega)
          fun _ => hdata.table.zero p b hpend
      · rintro - _ rfl
        refine Safe.ret ⟨r.attach (setAddr k b r.din) k b, true, Grown.attach rfl hown,
          attach_own_self _ _, fun hne => absurd hown hne, ?_⟩
        simp only [Local.goto_setLk, Local.setPend_setLk, Local.setPend_goto, Local.setPend_setPend]
        rw [Local.setPend_same hw.pend, Local.goto_same hw.pc]
    · rw [if_neg h0] at hown
      exact Safe.ret ⟨r, δ, .refl r, hown, fun _ => ⟨rfl, rfl⟩, (Local.setLk_same hw.lk).symm⟩

theorem Inv.own_range {s : State} {g : Pid → Local} {G : Shared} (hi : Inv L s g G)
    (hk : (g p).lk e = some (i, some (r, δ))) (ho : r.own k = some b) : L.nmeta ≤ b := by
  obtain ⟨-, -, -, hrow, -⟩ := hi.lock.known hk
  exact (hi.data.own_range (i := i) (k := k) (by rw [hrow]; exact ho)).1

theorem fileSlot_direct {bn : ℕ} (h : bn < ndirect) : fileSlot bn = bn := if_pos h

theorem fileSlot_entry {bn : ℕ} (h : ¬ bn < ndirect) : fileSlot bn = indSlot + 1 + (bn - ndirect) := by
  rw [fileSlot, if_neg h]
  change ¬ bn < 12 at h
  change bn + 1 = 12 + 1 + (bn - 12)
  omega

/-- **`bmap`** maps block `bn` of the file. It allocates only where the file has no block yet. -/
theorem bmap_safe {bn : ℕ} (hw : Working γ e i r δ)
    (hop : γ.op = true ∨ r.own (fileSlot bn) ≠ none) :
    Safe (logic L) p γ (bmap L.toSuperblock e bn) fun b γ' =>
      bn < maxFile ∧ Maps γ γ' e i r δ (fileSlot bn) b := by
  unfold bmap
  split_ifs with hdir hent
  · rw [fileSlot_direct hdir] at hop ⊢
    refine Safe.mono (bmapAddr_safe (k := direct bn hdir) hw hop) fun b γ' hm => ⟨?_, hm⟩
    exact lt_of_lt_of_le hdir (by decide)
  · rw [fileSlot_entry hdir] at hop ⊢
    generalize hj : bn - ndirect = j at *
    have hbn : bn < maxFile := by
      change bn < 268
      change bn - 12 = j at hj
      change j < 256 at hent
      omega
    refine Safe.use (Φ := r.din.type ≠ 0 ∧ (r.own (indSlot + 1 + j) ≠ none → r.own indSlot ≠ none))
      (fun s g ⟨G, hi⟩ hg => ?_) fun ⟨hty, himp⟩ => ?_
    · subst hg
      have hty := hi.type_ne hw.lk (.inl hw.pc)
      refine ⟨hty, fun hne hnone => hne ?_⟩
      have hown := hi.own_direct hw.lk hty indirect (hw.live _)
      rw [show r.own indirect.1 = none from hnone] at hown
      split_ifs at hown with h0
      exact hi.own_none_of_indirect hw.lk hty hw.dead h0 (by change 12 ≤ 12 + 1 + j; omega)
    · refine Safe.bind (bmapAddr_safe (k := indirect) hw (hop.imp_right himp)) ?_
      rintro a _ ⟨r₁, δ₁, hgrow, hown, hsame, rfl⟩
      have hw₁ := hw.setLk (y := δ₁) hgrow
      refine Safe.use (Φ := r₁.din.type ≠ 0 ∧ L.nmeta ≤ a) (fun s g ⟨G, hi⟩ hg => ?_) fun ⟨hty₁, ha⟩ => ?_
      · have hlk : (g p).lk e = some (i, some (r₁, δ₁)) := by rw [hg]; exact hw₁.lk
        exact ⟨hi.type_ne hlk (.inl (by rw [hg]; exact hw₁.pc)), hi.own_range hlk hown⟩
      · refine Safe.bind (bread_safe (offLog_data ha)) ?_
        rintro bp _ ⟨d, hfree, rfl⟩
        refine Safe.use (Φ := r₁.own (indSlot + 1 + j) =
          if entry d j = 0 then none else some (entry d j)) (fun s g ⟨G, hi⟩ hg => ?_) fun hentry => ?_
        · have hbuf : (g p).buf bp = some (a, d) := by rw [hg]; exact Local.setBuf_buf _
          exact hi.own_entry (by rw [hg]; exact hw₁.lk) hty₁ hown (hi.held hbuf).2 hent (hw₁.live _)
        · refine Safe.bind (data_safe (Local.setBuf_buf _)) ?_
          rintro d _ ⟨rfl, rfl⟩
          split_ifs with h0
          · rw [if_pos h0] at hentry
            have hnone : r.own (indSlot + 1 + j) = none := by
              rw [Option.eq_none_iff_forall_ne_some]
              intro x hx
              cases hentry.symm.trans (hgrow.own _ x hx)
            have hop' := hop.resolve_right fun hne => hne hnone
            refine Safe.bind (balloc_safe hw.pend hop') ?_
            rintro b _ rfl
            refine Safe.bind (data_safe (b := a) (d := d) (by simp)) ?_
            rintro d _ ⟨rfl, rfl⟩
            refine Safe.bind (setRow_safe (e := e) (i := i) (r := r₁) (δ := δ₁) (b := a) (d := d)
              (w := putEntry d j b) (z := none) (t := r₁.attach r₁.din (indSlot + 1 + j) b)
              (by simp) hop' (by simp) (.inl hw.pc) rfl (bmapstart_le_nmeta.trans ha)
              fun blk stale row pend hdata hd hrow hn hpend => ?_) ?_
            · subst hrow
              subst hd
              exact hdata.attachEntry hn hty₁ hw₁.dead hown hent hpend hentry
            · rintro - _ rfl
              refine Safe.bind (logWrite_safe (b := a) (d := putEntry d j b) (by simp) hop') ?_
              rintro - _ rfl
              refine Safe.bind (brelse_safe (b := a) (d := putEntry d j b) (by simp)) ?_
              rintro - _ rfl
              refine Safe.ret ⟨hbn, r₁.attach r₁.din (indSlot + 1 + j) b, δ₁,
                hgrow.trans (.attach rfl hentry), attach_own_self _ _, fun hne => absurd hnone hne, ?_⟩
              simp only [Local.setPend_setBuf, Local.setLk_setBuf, Local.setBuf_setBuf,
                Local.setPend_setLk, Local.setLk_setLk, Local.setPend_setPend]
              rw [Local.setPend_same hw.pend, Local.setBuf_same (by simpa using hfree)]
          · rw [if_neg h0] at hentry
            refine Safe.bind (brelse_safe (Local.setBuf_buf _)) ?_
            rintro - _ rfl
            rw [Local.setBuf_setBuf, Local.setBuf_same hfree]
            exact Safe.ret ⟨hbn, r₁, δ₁, hgrow, hentry, fun hne => hsame (himp hne), rfl⟩
  · exact panic_safe

theorem mapped_own {size n : ℕ} (hm : Mapped size r.addr) (hn : n * bsize < size) :
    r.own (fileSlot n) ≠ none := fun hnone => (hm n hn).2 (by rw [Row.addr, hnone]; rfl)

theorem div_mul_lt {off left : ℕ} (h : left ≠ 0) : off / bsize * bsize < off + left := by
  have := Nat.div_mul_le_self off bsize
  omega

theorem readLoop_safe {fuel : ℕ} {dst : Dest} {off left : ℕ} {out : List UInt8}
    (hw : Working γ e i r δ) (hm : Mapped (off + left) r.addr) :
    Safe (logic L) p γ (readLoop L.toSuperblock e fuel dst off left out) fun _ γ' => γ' = γ := by
  induction fuel generalizing dst off left out with
  | zero => exact Safe.ret rfl
  | succ fuel ih =>
    unfold readLoop
    split_ifs with hleft
    · exact Safe.ret rfl
    · have hown := mapped_own hm (div_mul_lt hleft)
      refine Safe.bind (bmap_safe hw (.inr hown)) ?_
      rintro b _ ⟨-, r', δ', -, hb, hsame, rfl⟩
      obtain ⟨rfl, rfl⟩ := hsame hown
      rw [Local.setLk_same hw.lk]
      refine Safe.use (Φ := L.nmeta ≤ b) (fun s g ⟨G, hi⟩ hg => ?_) fun hmeta => ?_
      · exact hi.own_range (by rw [hg]; exact hw.lk) hb
      · refine Safe.bind (bread_safe (offLog_data hmeta)) ?_
        rintro bp _ ⟨d, hfree, rfl⟩
        refine Safe.bind (data_safe (Local.setBuf_buf _)) ?_
        rintro d _ ⟨rfl, rfl⟩
        obtain ⟨k, ok⟩ := eitherCopyout dst (min left (bsize - off % bsize))
        dsimp only
        split_ifs
        · refine Safe.bind (brelse_safe (Local.setBuf_buf _)) ?_
          rintro - _ rfl
          rw [Local.setBuf_setBuf, Local.setBuf_same hfree]
          refine ih ?_
          rw [show off + min left (bsize - off % bsize) + (left - min left (bsize - off % bsize)) =
            off + left by omega]
          exact hm
        · refine Safe.bind (brelse_safe (Local.setBuf_buf _)) ?_
          rintro - _ rfl
          rw [Local.setBuf_setBuf, Local.setBuf_same hfree]
          exact Safe.ret rfl

theorem toNat_add_of_le {off n : UInt32} (h : ¬ off + n < off) :
    (off + n).toNat = off.toNat + n.toNat := by
  rw [UInt32.lt_iff_toNat_lt, UInt32.toNat_add] at h
  rw [UInt32.toNat_add]
  have := off.toNat_lt
  have := n.toNat_lt
  omega

theorem Working.mapped {s : State} {g : Pid → Local} {G : Shared} (hi : Inv L s g G)
    (hw : Working (g p) e i r δ) : Mapped r.din.size.toNat r.addr :=
  (hi.rowOk hw.lk).mapped (hi.type_ne hw.lk (.inl hw.pc)) hw.loose

theorem Mapped.mono {m n : ℕ} {slot : ℕ → ℕ} (h : Mapped n slot) (hmn : m ≤ n) : Mapped m slot :=
  fun k hk => h k (lt_of_lt_of_le hk hmn)

theorem readi_safe {dst : Dest} {off n : UInt32} (hw : Working γ e i r δ) :
    Safe (logic L) p γ (readi L.toSuperblock e dst off n) fun _ γ' => γ' = γ := by
  refine Safe.use (Φ := Mapped r.din.size.toNat r.addr) (fun s g ⟨G, hi⟩ hg => ?_) fun hm => ?_
  · subst hg
    exact hw.mapped hi
  · change Safe (logic L) p γ (readi L.toSuperblock e dst off n) _
    unfold readi
    refine Safe.bind (inode_safe hw.lk) ?_
    rintro v _ ⟨-, hdin, rfl⟩
    rw [hdin]
    split_ifs with hcheck hend
    · exact Safe.ret rfl
    · obtain ⟨hoff, -⟩ := not_or.1 hcheck
      have hle : off.toNat ≤ r.din.size.toNat := by
        have := mt UInt32.lt_iff_toNat_lt.2 hoff
        omega
      refine Safe.bind (readLoop_safe hw (hm.mono ?_)) fun _ _ hγ => Safe.ret hγ
      rw [UInt32.toNat_sub_of_le _ _ (UInt32.le_iff_toNat_le.2 hle)]
      omega
    · obtain ⟨-, hover⟩ := not_or.1 hcheck
      refine Safe.bind (readLoop_safe hw (hm.mono ?_)) fun _ _ hγ => Safe.ret hγ
      rw [← toNat_add_of_le hover]
      have := mt UInt32.lt_iff_toNat_lt.2 hend
      omega

theorem fileSlot_lt {n : ℕ} (h : n < maxFile) : fileSlot n < nslot := by
  unfold fileSlot
  change n < 268 at h
  change _ < 269
  split_ifs <;> omega

theorem fileSlot_inj {m n : ℕ} (h : fileSlot m = fileSlot n) : m = n := by
  unfold fileSlot at h
  split_ifs at h <;> omega

theorem fileSlot_ne_indSlot (n : ℕ) : fileSlot n ≠ indSlot := by
  unfold fileSlot
  split_ifs with hn
  · exact ne_of_lt hn
  · change ¬ n < 12 at hn
    change n + 1 ≠ 12
    omega

theorem Grown.mapped {r' : Row} {n : ℕ} (h : Grown r r') (hm : Mapped n r.addr) : Mapped n r'.addr := by
  intro k hk
  obtain ⟨hlt, hne⟩ := hm k hk
  refine ⟨hlt, ?_⟩
  cases ho : r.own (fileSlot k) with
  | none => exact absurd ho (mapped_own hm hk)
  | some a =>
    rw [Row.addr, ho] at hne
    rw [Row.addr, h.own _ a ho]
    exact hne

theorem Mapped.extend {off m : ℕ} {slot : ℕ → ℕ} (hm : Mapped off slot) (hn : off / bsize < maxFile)
    (hb : slot (fileSlot (off / bsize)) ≠ 0) (hlen : m ≤ bsize - off % bsize) :
    Mapped (off + m) slot := by
  intro k hk
  have hmod : off % 1024 < 1024 := Nat.mod_lt _ (by decide)
  have hdiv := Nat.div_add_mod off 1024
  change k * 1024 < off + m at hk
  change m ≤ 1024 - off % 1024 at hlen
  by_cases hlt : k < off / 1024
  · refine hm k ?_
    change k * 1024 < off
    omega
  · have heq : k = off / bsize := by
      change k = off / 1024
      omega
    subst heq
    exact ⟨hn, hb⟩

theorem writeLoop_safe {fuel : ℕ} {src : Source} {off left : ℕ} (hw : Working γ e i r δ)
    (hop : γ.op = true) (hm : Mapped off r.addr) :
    Safe (logic L) p γ (writeLoop L.toSuperblock e fuel src off left) fun off' γ' =>
      off' ≤ off + left ∧ ∃ r' δ', Grown r r' ∧ Mapped off' r'.addr ∧
        γ' = γ.setLk e (some (i, some (r', δ'))) := by
  induction fuel generalizing γ src off left r δ with
  | zero =>
    exact Safe.ret ⟨Nat.le_add_right .., r, δ, .refl r, hm, (Local.setLk_same hw.lk).symm⟩
  | succ fuel ih =>
    unfold writeLoop
    split_ifs with hleft
    · exact Safe.ret ⟨Nat.le_add_right .., r, δ, .refl r, hm, (Local.setLk_same hw.lk).symm⟩
    · refine Safe.bind (bmap_safe hw (.inl hop)) ?_
      rintro b _ ⟨hmax, r₁, δ₁, hgrow, hb, -, rfl⟩
      have hw₁ := hw.setLk (y := δ₁) hgrow
      refine Safe.use (Φ := L.nmeta ≤ b ∧ 0 < L.nmeta) (fun s g ⟨G, hi⟩ hg => ?_) fun ⟨hmeta, hpos⟩ => ?_
      · have hlk : (g p).lk e = some (i, some (r₁, δ₁)) := by rw [hg]; exact hw₁.lk
        obtain ⟨-, -, -, hrow, -⟩ := hi.lock.known hlk
        have hrange := hi.data.own_range (i := i) (by rw [hrow]; exact hb)
        exact ⟨hrange.1, nmeta_pos (by omega)⟩
      · refine Safe.bind (bread_safe (offLog_data hmeta)) ?_
        rintro bp _ ⟨d, hfree, rfl⟩
        refine Safe.bind (copyin_safe (Local.setBuf_buf _) hop hw₁.lk hb (fileSlot_ne_indSlot _)) ?_
        rintro ok _ ⟨d', rfl⟩
        rw [Local.setBuf_setBuf]
        split_ifs
        · refine Safe.bind (logWrite_safe (Local.setBuf_buf _) hop) ?_
          rintro - _ rfl
          refine Safe.bind (brelse_safe (Local.setBuf_buf _)) ?_
          rintro - _ rfl
          rw [Local.setBuf_setBuf, Local.setBuf_same hfree]
          have hb0 : r₁.addr (fileSlot (off / bsize)) ≠ 0 := by
            rw [Row.addr, hb]
            exact Nat.ne_of_gt (lt_of_lt_of_le hpos hmeta)
          have hm₁ := (hgrow.mapped hm).extend hmax hb0 (Nat.min_le_right left (bsize - off % bsize))
          refine Safe.mono (ih hw₁ hop hm₁) ?_
          rintro off' _ ⟨hoff, r₂, bd₂, hgrow₂, hm₂, rfl⟩
          exact ⟨by omega, r₂, bd₂, hgrow.trans hgrow₂, hm₂, Local.setLk_setLk _⟩
        · refine Safe.bind (brelse_safe (Local.setBuf_buf _)) ?_
          rintro - _ rfl
          rw [Local.setBuf_setBuf, Local.setBuf_same hfree]
          exact Safe.ret ⟨Nat.le_add_right .., r₁, δ₁, hgrow, hgrow.mapped hm, rfl⟩

theorem setFields_safe {f : Dinode → Dinode} (hw : Working γ e i r δ)
    (haddrs : (f r.din).addrs = r.din.addrs) (htype : (f r.din).type = r.din.type)
    (hm : Mapped (f r.din).size.toNat r.addr) :
    Safe (logic L) p γ (store e f) fun _ γ' =>
      γ' = γ.setLk e (some (i, some (r.setDin (f r.din), true))) := by
  refine Safe.mono (store_safe (t := r.setDin (f r.din)) (c := .idle) (z := γ.pend) hw.lk (.inl hw.pc)
    (.inl rfl) rfl (fun v w x hf hdin => ?_) fun blk stale row pend hdata hrow hn hpend => ?_) ?_
  · rw [hw.pc] at hf
    refine ⟨hf.1, ?_, hf.2.2.1, nofun⟩
    change (f v.din).type ≠ 0
    rw [hdin, htype, ← hdin]
    exact hf.2.1
  · rw [← hpend, update_eq_self]
    have hok := hdata.table.rows i
    rw [hrow] at hok
    exact hdata.setRow hn (by rw [hrow]; rfl) (hok.setDin haddrs (by rw [htype]) fun _ => hm)
  · rintro - _ rfl
    simp only [Local.goto_setLk, Local.setPend_setLk, Local.setPend_goto]
    rw [Local.setPend_same rfl, Local.goto_same hw.pc]

theorem update_safe {f : Dinode → Dinode} (hw : Working γ e i r δ) (hop : γ.op = true)
    (haddrs : (f r.din).addrs = r.din.addrs) (htype : (f r.din).type = r.din.type)
    (hm : Mapped (f r.din).size.toNat r.addr) :
    Safe (logic L) p γ (do store e f; iupdate L.toSuperblock e) fun _ γ' =>
      γ' = γ.setLk e (some (i, some (r.setDin (f r.din), false))) := by
  refine Safe.use (Φ := r.din.type ≠ 0) (fun s g ⟨G, hi⟩ hg => ?_) fun hty => ?_
  · exact hi.type_ne (by rw [hg]; exact hw.lk) (.inl (by rw [hg]; exact hw.pc))
  · refine Safe.bind (setFields_safe hw haddrs htype hm) ?_
    rintro - _ rfl
    refine Safe.mono (iupdate_idle_safe (Local.setLk_lk _) hop hw.pc ?_) ?_
    · change (f r.din).type ≠ 0
      rw [htype]
      exact hty
    · rintro - _ rfl
      exact Local.setLk_setLk _

/-- What a process knows of an inode it has locked, between two calls. -/
def Settled (γ γ' : Local) (e : Ip) (i : ℕ) : Prop :=
  ∃ r, r.loose = false ∧ r.dead = ∅ ∧ γ' = γ.setLk e (some (i, some (r, false)))

theorem writeSize_safe {off : ℕ} (hw : Working γ e i r δ) (hop : γ.op = true)
    (hm : Mapped off r.addr) (hoff : off < 2 ^ 32) :
    Safe (logic L) p γ (writeSize L.toSuperblock e off) fun _ γ' => Settled γ γ' e i := by
  refine Safe.use (Φ := r.din.type ≠ 0) (fun s g ⟨G, hi⟩ hg => ?_) fun hty => ?_
  · exact hi.type_ne (by rw [hg]; exact hw.lk) (.inl (by rw [hg]; exact hw.pc))
  · change Safe (logic L) p γ (writeSize L.toSuperblock e off) _
    unfold writeSize
    refine Safe.bind (inode_safe hw.lk) ?_
    rintro v _ ⟨-, -, rfl⟩
    split_ifs
    · refine Safe.mono (update_safe hw hop rfl rfl ?_) fun _ γ' hγ =>
        ⟨r.setDin { r.din with size := UInt32.ofNat off }, hw.loose, hw.dead, hγ⟩
      change Mapped (UInt32.ofNat off).toNat r.addr
      rw [UInt32.toNat_ofNat_of_lt' hoff]
      exact hm
    · exact Safe.mono (iupdate_idle_safe hw.lk hop hw.pc hty) fun _ γ' hγ =>
        ⟨_, hw.loose, hw.dead, hγ⟩

/-- **`writei`** leaves a file without holes, also when a copy fails midway. -/
theorem writei_safe {src : Source} {off n : UInt32} (hw : Working γ e i r false) (hop : γ.op = true) :
    Safe (logic L) p γ (writei L.toSuperblock e src off n) fun _ γ' => Settled γ γ' e i := by
  have hsame : Settled γ γ e i := ⟨r, hw.loose, hw.dead, (Local.setLk_same hw.lk).symm⟩
  refine Safe.use (Φ := Mapped r.din.size.toNat r.addr) (fun s g ⟨G, hi⟩ hg => ?_) fun hm => ?_
  · subst hg
    exact hw.mapped hi
  · change Safe (logic L) p γ (writei L.toSuperblock e src off n) _
    unfold writei
    refine Safe.bind (inode_safe hw.lk) ?_
    rintro v _ ⟨-, hdin, rfl⟩
    rw [hdin]
    split_ifs with hcheck hmax hn
    · exact Safe.ret hsame
    · exact Safe.ret hsame
    · obtain ⟨hoff, hover⟩ := not_or.1 hcheck
      rw [toNat_add_of_le hover] at hmax
      have hlt : off.toNat + n.toNat < 2 ^ 32 := lt_of_le_of_lt (Nat.le_of_not_lt hmax) (by decide)
      have hle : off.toNat ≤ r.din.size.toNat := by
        have := mt UInt32.lt_iff_toNat_lt.2 hoff
        omega
      refine Safe.bind (writeLoop_safe hw hop (hm.mono hle)) ?_
      rintro off' _ ⟨hoff', r', δ', hgrow, hm', rfl⟩
      refine Safe.bind (writeSize_safe (hw.setLk hgrow) hop hm' (by omega)) ?_
      rintro - _ ⟨r₂, hl, hdead, rfl⟩
      exact Safe.ret ⟨r₂, hl, hdead, Local.setLk_setLk _⟩
    · -- nothing to write: the loop returns at once
      have h0 : n.toNat = 0 :=
        Nat.eq_zero_of_not_pos fun hpos => hn (UInt32.lt_iff_toNat_lt.2 hpos)
      rw [h0]
      exact Safe.ret hsame

end Xv6.Fs

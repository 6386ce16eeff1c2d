import Mathlib.Tactic.Set
import Xv6.Log.Commit

/-!
# Crash atomicity of the redo log

A crash during `commit` leaves the disk after some prefix of the writes it issued, and recovery may
itself be cut any number of times. Two predicates cover every disk that can arise:

* `Clean g v d`: the header says `n = 0`, and outside the log area the disk is `v`;
* `Committed g lh new old d`: the header lists `lh`, the log blocks hold the `new` contents of its
  home blocks, and every block that is neither in the log area nor listed is `old`. The home blocks
  themselves may be half installed.

`write_log` keeps `Clean old`. The first `write_head` turns it into `Committed`, which
`install_trans` keeps, and the second `write_head`, once every home block is installed, turns
`Committed` into `Clean (installed lh new old)`. Recovery runs the last two phases again.
-/

namespace Xv6

open Function Replay LogState

variable {g : LogArea} {lh : LogHeader} {new old v d : Disk}

/-! ### The phases as lists of writes -/

theorem writeLogFrom_eq (g : LogArea) (tail : Nat) (bs : List UInt32) (s : LogState)
    (hout : ∀ b ∈ bs, ¬ g.Has b.toNat) (hfit : tail + bs.length < g.size) :
    writeLogFrom g tail bs s = s.writes (logWrites g s.buf tail bs) := by
  induction bs generalizing tail s with
  | nil => simp [writeLogFrom, logWrites]
  | cons b bs ih =>
    simp only [List.length_cons] at hfit
    rw [writeLogFrom, setBuf_bwrite,
      ih (tail + 1) _ (fun x hx => hout x (List.mem_cons_of_mem _ hx)) (by omega), writes_writes]
    -- the log block just written is not one of the home blocks still to be read
    rw [logWrites_congr g (tail + 1) bs fun x hx => by
      have hx' := hout x (List.mem_cons_of_mem _ hx)
      simp only [LogArea.Has] at hx'
      exact update_of_ne (by omega) _ _]
    rfl

/-- The pin counts after `bunpin` of every listed block. -/
def unpinned (pins : Nat → Int) (bs : List UInt32) : Nat → Int :=
  bs.foldl (fun p b => update p b.toNat (p b.toNat - 1)) pins

theorem installFrom_eq (g : LogArea) (recovering : Bool) (tail : Nat) (bs : List UInt32)
    (s : LogState) (hout : ∀ b ∈ bs, ¬ g.Has b.toNat) (hfit : tail + bs.length < g.size) :
    installFrom g recovering tail bs s =
      { s.writes (homeWrites g s.buf tail bs) with
        pins := if recovering then s.pins else unpinned s.pins bs } := by
  induction bs generalizing tail s with
  | nil => simp [installFrom, homeWrites, unpinned]
  | cons b bs ih =>
    simp only [List.length_cons] at hfit
    have hb := hout b List.mem_cons_self
    simp only [LogArea.Has] at hb
    -- the home block just written is not one of the log blocks still to be read
    have hread : homeWrites g (update s.buf b.toNat (s.buf (g.start + tail + 1)))
        (tail + 1) bs = homeWrites g s.buf (tail + 1) bs :=
      homeWrites_congr g (tail + 1) bs fun i hi => update_of_ne (by omega) _ _
    rw [installFrom, setBuf_bwrite,
      ih (tail + 1) _ (fun x hx => hout x (List.mem_cons_of_mem _ hx)) (by omega)]
    cases recovering <;> simp [writes, bunpin, homeWrites, hread, unpinned]

theorem writeHead_eq (g : LogArea) (s : LogState) :
    writeHead g s = s.writes [(g.start, storeHead s.lh (s.buf g.start))] :=
  setBuf_bwrite _ _ _

def commitWrites (g : LogArea) (s : LogState) : List (Nat × Block) :=
  logWrites g s.buf 0 s.lh.block ++ (g.start, storeHead s.lh (s.buf g.start)) ::
    (s.lh.block.map (fun b => (b.toNat, s.buf b.toNat)) ++
      [(g.start, storeHead .empty (storeHead s.lh (s.buf g.start)))])

theorem replay_not_has {ws : List (Nat × Block)} (h : ∀ w ∈ ws, g.Has w.1) {b : Nat}
    (hb : ¬ g.Has b) : replay d ws b = d b :=
  replay_of_forall_ne _ _ _ fun w hw heq => hb (heq ▸ h w hw)

theorem replay_start_of_home {ws : List (Nat × Block)} (hsize : 0 < g.size)
    (h : ∀ w ∈ ws, ¬ g.Has w.1) : replay d ws g.start = d g.start :=
  replay_of_forall_ne _ _ _ fun w hw heq => h w hw (by rw [heq]; exact ⟨Nat.le_refl _, by omega⟩)

theorem has_logWrites {c : Disk} {bs : List UInt32} (hfit : bs.length < g.size) {w : Nat × Block}
    (hw : w ∈ logWrites g c 0 bs) : g.Has w.1 ∧ w.1 ≠ g.start := by
  have := mem_logWrites hw
  exact ⟨⟨by omega, by omega⟩, by omega⟩

theorem commit_issued (g : LogArea) (s : LogState) (hpos : 1 ≤ s.lh.n)
    (hsize : s.lh.n ≤ g.size - 1) (hout : ∀ b ∈ s.lh.homes, ¬ g.Has b) :
    (commit g s).issued = s.issued ++ commitWrites g s := by
  have hlen : 0 + s.lh.block.length < g.size := by simp only [LogHeader.n] at hpos hsize; omega
  have hout' : ∀ b ∈ s.lh.block, ¬ g.Has b.toNat := fun b hb =>
    hout _ (List.mem_map_of_mem hb)
  have hstart : replay s.buf (logWrites g s.buf 0 s.lh.block) g.start = s.buf g.start :=
    replay_of_forall_ne _ _ _ fun w hw => (has_logWrites (by omega) hw).2
  -- what `install_trans` reads back from the log blocks
  have hlog : homeWrites g (update (replay s.buf (logWrites g s.buf 0 s.lh.block)) g.start
      (storeHead s.lh (s.buf g.start))) 0 s.lh.block =
        s.lh.block.map fun b => (b.toNat, s.buf b.toNat) := by
    apply homeWrites_eq_map
    intro i hi
    rw [update_of_ne (by omega), replay_logWrites _ _ _ _ _ _ hi]
  have hhead : replay (update (replay s.buf (logWrites g s.buf 0 s.lh.block)) g.start
      (storeHead s.lh (s.buf g.start))) (s.lh.block.map fun b => (b.toNat, s.buf b.toNat)) g.start =
        storeHead s.lh (s.buf g.start) := by
    rw [replay_start_of_home (by omega), update_self]
    intro w hw
    obtain ⟨b, hb, rfl⟩ := List.mem_map.mp hw
    exact hout' b hb
  rw [commit, if_pos (by omega), writeHead_eq, writeHead_eq, writeLog,
    writeLogFrom_eq g 0 _ s hout' hlen, installTrans]
  simp only [writes_lh]
  rw [installFrom_eq g false 0 _ _ hout' hlen]
  simp only [writes, clearHeader, replay_cons, replay_nil, hstart, hlog, hhead, commitWrites,
    List.append_assoc, List.cons_append, List.nil_append]

/-! ### The disks a crash can leave -/

/-- The header says `n = 0` and the blocks outside the log area are those of `v`. -/
def Clean (g : LogArea) (v d : Disk) : Prop :=
  headN (d g.start) = 0 ∧ ∀ b, ¬ g.Has b → d b = v b

/-- The header lists `lh` and the log blocks hold the new contents of the listed blocks. -/
structure Committed (g : LogArea) (lh : LogHeader) (new old d : Disk) : Prop where
  head : headBlocks (d g.start) = lh.block
  log : ∀ i (hi : i < lh.block.length), d (g.start + (0 + i) + 1) = new (lh.block[i]).toNat
  rest : ∀ b, ¬ g.Has b → b ∉ lh.homes → d b = old b

/-- All listed blocks at their new contents, every other block old. -/
def installed (lh : LogHeader) (new old : Disk) : Disk :=
  fun b => if b ∈ lh.homes then new b else old b

theorem clean_update_start (hsize : 0 < g.size) (h : ∀ b, ¬ g.Has b → d b = v b) (blk : Block) :
    Clean g v (update d g.start (storeHead .empty blk)) := by
  refine ⟨by rw [update_self]; rfl, fun b hb => ?_⟩
  rw [update_of_ne (fun heq => hb (by rw [heq]; exact ⟨Nat.le_refl _, by omega⟩)), h b hb]

theorem Committed.update_home (hsize : lh.n < g.size) (hout : ∀ b ∈ lh.homes, ¬ g.Has b)
    (h : Committed g lh new old d) {b : Nat} (hb : b ∈ lh.homes) (c : Block) :
    Committed g lh new old (update d b c) := by
  have hno := hout b hb
  simp only [LogArea.Has] at hno
  simp only [LogHeader.n] at hsize
  refine ⟨?_, fun i hi => ?_, fun x hx hxb => ?_⟩
  · rw [update_of_ne (by omega)]; exact h.head
  · rw [update_of_ne (by omega)]; exact h.log i hi
  · have hne : x ≠ b := fun heq => hxb (heq ▸ hb)
    rw [update_of_ne hne]; exact h.rest x hx hxb

theorem mem_homes_of_mem_map {bs : List UInt32} {w : Nat × Block}
    (hw : w ∈ bs.map fun b => (b.toNat, new b.toNat)) : w.1 ∈ bs.map UInt32.toNat := by
  obtain ⟨b, hb, rfl⟩ := List.mem_map.mp hw
  exact List.mem_map_of_mem hb

theorem replay_home_map (bs : List UInt32) (b : Nat) :
    replay d (bs.map fun x => (x.toNat, new x.toNat)) b =
      if b ∈ bs.map UInt32.toNat then new b else d b := by
  induction bs generalizing d with
  | nil => simp
  | cons x bs ih =>
    rw [List.map_cons, replay_cons, ih]
    by_cases hx : b = x.toNat
    · subst hx; simp
    · simp [hx]

/-- `install_trans` and the erasing `write_head`, cut anywhere, from a committed disk. -/
theorem Committed.throughout_install (hsize : lh.n < g.size) (hout : ∀ b ∈ lh.homes, ¬ g.Has b)
    (h : Committed g lh new old d) (blk : Block) :
    Throughout (fun e => Committed g lh new old e ∨ Clean g (installed lh new old) e) d
        ((lh.block.map fun b => (b.toNat, new b.toNat)) ++ [(g.start, storeHead .empty blk)]) ∧
      Clean g (installed lh new old) (replay d
        ((lh.block.map fun b => (b.toNat, new b.toNat)) ++ [(g.start, storeHead .empty blk)])) := by
  have hhome : Throughout (Committed g lh new old) d
      (lh.block.map fun b => (b.toNat, new b.toNat)) :=
    throughout_of_step h fun w hw e he => he.update_home hsize hout (mem_homes_of_mem_map hw) _
  have hdone : Clean g (installed lh new old) (update
      (replay d (lh.block.map fun b => (b.toNat, new b.toNat))) g.start (storeHead .empty blk)) := by
    refine clean_update_start (by omega) (fun b hb => ?_) blk
    rw [replay_home_map, installed, show lh.block.map UInt32.toNat = lh.homes from rfl]
    by_cases hm : b ∈ lh.homes
    · rw [if_pos hm, if_pos hm]
    · rw [if_neg hm, if_neg hm, h.rest b hb hm]
  refine ⟨throughout_append.mpr ⟨hhome.mono fun _ => Or.inl, ?_⟩, ?_⟩
  · exact throughout_cons.mpr ⟨Or.inl hhome.last, throughout_nil.mpr (Or.inr hdone)⟩
  · rw [replay_append]; exact hdone

/-! ### Recovery -/

/-- The disk after a run of `recover_from_log` on the disk `d` that a crash cuts after `k` writes. -/
def recoverCut (g : LogArea) (d : Disk) (k : Nat) : Option Disk :=
  (recoverFromLog g (boot d)).map fun s => replay d (s.issued.take k)

theorem recoverFromLog_boot (hout : ∀ b ∈ lh.homes, ¬ g.Has b) (hsize : lh.n < g.size)
    (hhead : headBlocks (d g.start) = lh.block) :
    ∃ s, recoverFromLog g (boot d) = some s ∧ s.disk = replay d s.issued ∧
      s.issued = homeWrites g d 0 lh.block ++ [(g.start, storeHead .empty (d g.start))] := by
  have hout' : ∀ b ∈ lh.block, ¬ g.Has b.toNat := fun b hb => hout _ (List.mem_map_of_mem hb)
  have hlen : 0 + lh.block.length < g.size := by simp only [LogHeader.n] at hsize; omega
  have hstart : replay d (homeWrites g d 0 lh.block) g.start = d g.start := by
    refine replay_start_of_home (by omega) fun w hw => ?_
    obtain ⟨b, hb, hbw⟩ := mem_homeWrites hw
    exact hbw ▸ hout' b hb
  have hread : readHead g (boot d) = some { boot d with lh := lh } := by
    simp only [readHead, boot, hhead, dif_pos lh.fits]
  refine ⟨_, by rw [recoverFromLog, hread]; rfl, ?_⟩
  simp only [writeHead_eq, installTrans]
  rw [installFrom_eq g true 0 _ _ hout' hlen]
  simp only [writes, clearHeader, boot, List.nil_append, hstart, replay_append, and_self]

theorem Committed.recover (hsize : lh.n < g.size) (hout : ∀ b ∈ lh.homes, ¬ g.Has b)
    (h : Committed g lh new old d) :
    ∃ s, recoverFromLog g (boot d) = some s ∧ Clean g (installed lh new old) s.disk ∧
      Throughout (fun e => Committed g lh new old e ∨ Clean g (installed lh new old) e)
        d s.issued := by
  obtain ⟨s, hs, hdisk, hissued⟩ := recoverFromLog_boot hout hsize h.head
  rw [homeWrites_eq_map g d new 0 _ h.log] at hissued
  obtain ⟨hthrough, hclean⟩ := h.throughout_install hsize hout (d g.start)
  rw [← hissued] at hthrough hclean
  exact ⟨s, hs, hdisk ▸ hclean, hthrough⟩

theorem Clean.recover (hsize : 0 < g.size) (h : Clean g v d) :
    ∃ s, recoverFromLog g (boot d) = some s ∧ Clean g v s.disk ∧
      Throughout (Clean g v) d s.issued := by
  have hhead : headBlocks (d g.start) = LogHeader.empty.block := by
    simp [headBlocks, h.1, LogHeader.empty]
  have hout : ∀ b ∈ LogHeader.empty.homes, ¬ g.Has b := by simp [LogHeader.homes, LogHeader.empty]
  obtain ⟨s, hs, hdisk, hissued⟩ := recoverFromLog_boot hout hsize hhead
  have hdone := clean_update_start hsize h.2 (d g.start)
  refine ⟨s, hs, ?_, ?_⟩
  · rw [hdisk, hissued]; exact hdone
  · rw [hissued]
    exact throughout_cons.mpr ⟨h, throughout_nil.mpr hdone⟩

/-- If every cut of a recovery from a disk in `R` leaves a disk in `R`, any number of cuts does. -/
theorem recover_cuts {R : Disk → Prop} (hR : ∀ d, R d → ∃ s, recoverFromLog g (boot d) = some s ∧
    Clean g v s.disk ∧ Throughout R d s.issued) (cuts : List Nat) (h : R d) :
    ∃ e s, cuts.foldlM (recoverCut g) d = some e ∧ recoverFromLog g (boot e) = some s ∧ Clean g v s.disk := by
  induction cuts generalizing d with
  | nil =>
    obtain ⟨s, hs, hclean, -⟩ := hR d h
    exact ⟨d, s, rfl, hs, hclean⟩
  | cons k cuts ih =>
    obtain ⟨s, hs, -, hthrough⟩ := hR d h
    obtain ⟨e, t, he, ht⟩ := ih (hthrough k)
    refine ⟨e, t, ?_, ht⟩
    rw [List.foldlM_cons, recoverCut, hs]
    exact he

/-! ### Commit -/

theorem committed_of_writeHead (s : LogState) (hsize : s.lh.n ≤ g.size - 1) (hpos : 1 ≤ s.lh.n) :
    Committed g s.lh s.buf s.disk (update (replay s.disk (logWrites g s.buf 0 s.lh.block))
      g.start (storeHead s.lh (s.buf g.start))) := by
  have hlen : s.lh.block.length < g.size := by simp only [LogHeader.n] at hpos hsize; omega
  refine ⟨?_, fun i hi => ?_, fun b hb _ => ?_⟩
  · rw [update_self, headBlocks_storeHead]
  · rw [update_of_ne (by omega), replay_logWrites _ _ _ _ _ _ hi]
  · rw [update_of_ne (fun heq => hb (by rw [heq]; exact ⟨Nat.le_refl _, by omega⟩)),
      replay_not_has (fun w hw => (has_logWrites hlen hw).1) hb]

/-- The disk after a prefix of `commit`'s writes: old and clean as long as the header has not been
written, committed or installed afterwards. -/
theorem commit_prefix (s : LogState) (hclean : headN (s.disk g.start) = 0) (hpos : 1 ≤ s.lh.n)
    (hsize : s.lh.n ≤ g.size - 1) (hout : ∀ b ∈ s.lh.homes, ¬ g.Has b) (k : Nat) :
    ((∃ w ∈ (commitWrites g s).take k, w.1 = g.start) ∧
      (Committed g s.lh s.buf s.disk (replay s.disk ((commitWrites g s).take k)) ∨
        Clean g (installed s.lh s.buf s.disk) (replay s.disk ((commitWrites g s).take k)))) ∨
    ((¬ ∃ w ∈ (commitWrites g s).take k, w.1 = g.start) ∧
      Clean g s.disk (replay s.disk ((commitWrites g s).take k))) := by
  have hlen : s.lh.block.length < g.size := by simp only [LogHeader.n] at hpos hsize; omega
  set ls := logWrites g s.buf 0 s.lh.block with hls
  have hlogHas : ∀ w ∈ ls, g.Has w.1 ∧ w.1 ≠ g.start := fun w hw => has_logWrites hlen hw
  have hcommitted := committed_of_writeHead s hsize hpos
  by_cases hk : k ≤ ls.length
  · -- the crash came during `write_log`: only log blocks were written
    right
    have htake : (commitWrites g s).take k = ls.take k := by
      rw [commitWrites, List.take_append_of_le_length hk]
    rw [htake]
    refine ⟨?_, ?_, fun b hb => ?_⟩
    · rintro ⟨w, hw, hstart⟩
      exact (hlogHas w (List.mem_of_mem_take hw)).2 hstart
    · rw [replay_of_forall_ne _ _ _ fun w hw => (hlogHas w (List.mem_of_mem_take hw)).2]
      exact hclean
    · exact replay_not_has (fun w hw => (hlogHas w (List.mem_of_mem_take hw)).1) hb
  · -- the first `write_head` reached the disk
    left
    obtain ⟨m, rfl⟩ : ∃ m, k = ls.length + (m + 1) := ⟨k - ls.length - 1, by omega⟩
    rw [commitWrites, List.take_length_add_append, List.take_succ_cons]
    refine ⟨⟨_, List.mem_append_right _ List.mem_cons_self, rfl⟩, ?_⟩
    rw [replay_append]
    exact (hcommitted.throughout_install (by omega) hout _).1 m

/-- **Crash atomicity of the redo log.** Start from a disk whose header says `n = 0` and an
in-memory header with `1 ≤ n ≤ log.size - 1` home blocks outside the log area, cut `commit` after `k`
block writes, then run recovery any number of times, each cut after some number of writes, and
finally once to the end. If the first `write_head` of the commit was among the `k` writes, the
listed blocks hold their cached contents and all other blocks outside the log area are old;
otherwise all of them are old. The header ends with `n = 0`. -/
theorem commit_crash_atomic (g : LogArea) (s : LogState) (hissued : s.issued = [])
    (hclean : headN (s.disk g.start) = 0) (hpos : 1 ≤ s.lh.n) (hsize : s.lh.n ≤ g.size - 1)
    (hout : ∀ b ∈ s.lh.homes, ¬ g.Has b) (k : Nat) (cuts : List Nat) :
    (commit g s).issued = commitWrites g s ∧
    ∃ d t, cuts.foldlM (recoverCut g) (replay s.disk ((commit g s).issued.take k)) = some d ∧
      recoverFromLog g (boot d) = some t ∧ headN (t.disk g.start) = 0 ∧
      ((∃ w ∈ (commit g s).issued.take k, w.1 = g.start) →
        ∀ b, ¬ g.Has b → t.disk b = if b ∈ s.lh.homes then s.buf b else s.disk b) ∧
      ((¬ ∃ w ∈ (commit g s).issued.take k, w.1 = g.start) →
        ∀ b, ¬ g.Has b → t.disk b = s.disk b) := by
  rw [commit_issued g s hpos hsize hout, hissued]
  refine ⟨rfl, ?_⟩
  rcases commit_prefix s hclean hpos hsize hout k with ⟨hhead, hdisk⟩ | ⟨hhead, hdisk⟩
  · obtain ⟨d, t, hd, ht, hn, hblocks⟩ := recover_cuts
      (R := fun e => Committed g s.lh s.buf s.disk e ∨ Clean g (installed s.lh s.buf s.disk) e) (fun e he => by
        rcases he with he | he
        · exact he.recover (by omega) hout
        · obtain ⟨t, ht, hclean, hthrough⟩ := he.recover (by omega)
          exact ⟨t, ht, hclean, fun j => .inr (hthrough j)⟩) cuts hdisk
    exact ⟨d, t, hd, ht, hn, fun _ => hblocks, fun hno => absurd hhead hno⟩
  · obtain ⟨d, t, hd, ht, hn, hblocks⟩ := recover_cuts (fun e he => he.recover (by omega)) cuts hdisk
    exact ⟨d, t, hd, ht, hn, fun hyes => absurd hyes hhead, fun _ => hblocks⟩

/-- A transaction of the single block 50, whose buffer holds sevens and whose disk copy zeroes. -/
def oneBlockState : LogState where
  disk := fun _ => default
  buf := update (fun _ => default) 50 (fun _ => 7)
  pins := fun _ => 1
  lh := ⟨[50], by decide⟩
  issued := []

/-- The crash comes right after the header write, and two recoveries are cut before they finish:
block 50 still ends up with its new contents. -/
theorem commit_crash_atomic_oneBlock :
    ∃ d t, [1, 0].foldlM (recoverCut ⟨2, 30⟩)
        (replay oneBlockState.disk ((commit ⟨2, 30⟩ oneBlockState).issued.take 2)) = some d ∧
      recoverFromLog ⟨2, 30⟩ (boot d) = some t ∧ t.disk 50 = fun _ => 7 := by
  obtain ⟨-, d, t, hd, ht, -, hnew, -⟩ := commit_crash_atomic ⟨2, 30⟩ oneBlockState rfl rfl (by decide)
    (by decide) (by decide) 2 [1, 0]
  refine ⟨d, t, hd, ht, ?_⟩
  rw [hnew ⟨_, List.mem_cons_of_mem _ List.mem_cons_self, rfl⟩ 50 (by decide)]
  rfl

end Xv6

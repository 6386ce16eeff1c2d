import Mathlib.Algebra.BigOperators.Group.List.Basic
import Mathlib.Data.Finset.Card
import Xv6.Disk.Superblock
import Xv6.Log.GroupCommit

/-!
# The reservation of `begin_op`

`begin_op` admits an operation while `lh.n + (outstanding + 1) * MAXOPBLOCKS <= LOGSIZE`, and
`log_write` panics once `lh.n >= log.size - 1`, before it looks for the block in the header. The log
of `mkfs` has `log.size = LOGSIZE` blocks with the header block among them, so the last two blocks
that `begin_op` promises do not exist. `reserve` counts what the operations in progress may still
add to the header, and the log is safe as long as `begin_op` only admits an operation that leaves
`lh.n` and the whole reserve at `log.size - 2` or below.
-/

namespace Xv6

open LogEvent

variable {P : Type} [DecidableEq P] {g : LogArea} {s t : GroupState P} {a : LogAct P}

/-- The log that `initlog` sets up: `log.start = sb->logstart; log.size = sb->nlog`. -/
def initlog (sb : Superblock) : LogArea := ⟨sb.logstart, sb.nlog⟩

/-! ### What an operation may still log -/

/-- The distinct blocks that operation `op` has passed to `log_write`. -/
def opBlocks : List LogEvent → Nat → Finset UInt32
  | [], _ => ∅
  | .logged o b :: t, op => if o = op then insert b (opBlocks t op) else opBlocks t op
  | _ :: t, op => opBlocks t op

theorem mem_opBlocks {t : List LogEvent} {op : Nat} {b : UInt32} :
    b ∈ opBlocks t op ↔ .logged op b ∈ t := by
  induction t with
  | nil => simp [opBlocks]
  | cons e t ih => cases e <;> grind [opBlocks]

/-- What operation `op` may still add to the header. -/
def allowance (s : GroupState P) (op : Nat) : Nat := MAXOPBLOCKS - (opBlocks s.trace op).card

/-- What the operations in progress may still add to the header. -/
def reserve (s : GroupState P) : Nat := (s.openOps.map (allowance s)).sum

/-- With block `b` the operation of a process at `k` comes to at most `MAXOPBLOCKS` distinct
blocks. -/
def FitsOp (t : List LogEvent) (b : UInt32) : LogPc → Prop
  | .inOp op => (insert b (opBlocks t op)).card ≤ MAXOPBLOCKS
  | _ => True

instance (t : List LogEvent) (b : UInt32) (k : LogPc) : Decidable (FitsOp t b k) := by
  cases k <;> unfold FitsOp <;> infer_instance

/-- Operations stay within their reservation: no operation passes more than `MAXOPBLOCKS` distinct
blocks to `log_write`. -/
def WithinReservation (s : GroupState P) : LogAct P → Prop
  | .logWrite p b => FitsOp s.trace b (s.pc p)
  | _ => True

instance (s : GroupState P) (a : LogAct P) : Decidable (WithinReservation s a) := by
  cases a <;> unfold WithinReservation <;> infer_instance

/-- Where `begin_op` admits an operation, the header, the reserve and the new operation together fit
into `log.size - 2` blocks. -/
def LeavesRoom (g : LogArea) (s : GroupState P) : LogAct P → Prop
  | .beginOp _ => s.committing = false →
      (s.lh.n : Int) + (s.outstanding + 1) * MAXOPBLOCKS ≤ LOGSIZE →
      s.lh.n + reserve s + MAXOPBLOCKS + 2 ≤ g.size
  | _ => True

instance (g : LogArea) (s : GroupState P) (a : LogAct P) : Decidable (LeavesRoom g s a) := by
  cases a <;> unfold LeavesRoom <;> infer_instance

omit [DecidableEq P] in
theorem sum_allowance_congr (ops : List Nat)
    (hblocks : ∀ op ∈ ops, opBlocks t.trace op = opBlocks s.trace op) :
    (ops.map (allowance t)).sum = (ops.map (allowance s)).sum := by
  refine congrArg List.sum (List.map_congr_left fun op hop => ?_)
  rw [allowance, allowance, hblocks op hop]

omit [DecidableEq P] in
theorem reserve_logged (hops : OpsInv s) {op : Nat} (hop : op ∈ s.openOps)
    (hopen : t.openOps = s.openOps)
    (hother : ∀ o, o ≠ op → opBlocks t.trace o = opBlocks s.trace o) :
    reserve t + allowance s op = reserve s + allowance t op := by
  have hs : allowance s op + ((s.openOps.erase op).map (allowance s)).sum = reserve s :=
    List.sum_map_erase _ hop
  have ht : allowance t op + ((s.openOps.erase op).map (allowance t)).sum = reserve t := by
    rw [reserve, hopen]
    exact List.sum_map_erase _ hop
  have hrest := sum_allowance_congr (s.openOps.erase op) fun o ho =>
    hother o (hops.open_nodup.mem_erase_iff.mp ho).1
  omega

/-! ### The header never outgrows the log -/

/-- The header fits the log, and the blocks written to the log area are inside it. -/
structure AreaInv (g : LogArea) (s : GroupState P) : Prop where
  fits : s.lh.n = 0 ∨ s.lh.n + 1 ≤ g.size
  inside : ∀ b, .wroteLog b ∈ s.trace → g.Has b

theorem areaInv_step (hinv : AreaInv g s) (hm : LogMove g s a t) : AreaInv g t := by
  obtain ⟨hfits, hinside⟩ := hinv
  cases hm with
  | append p op b hp hb hroom lh hlh =>
    refine ⟨Or.inr ?_, by simpa using hinside⟩
    show lh.block.length + 1 ≤ g.size
    have : s.lh.n = s.lh.block.length := rfl
    rw [hlh, List.length_append, List.length_singleton]
    omega
  | absorb p op b hp hb lh hlh =>
    have hn : lh.n = s.lh.n := congrArg List.length hlh
    exact ⟨by rw [hn]; exact hfits, by simpa using hinside⟩
  | endPanic p op hp hc t' ht' hlh htrace =>
    exact ⟨by rw [hlh]; exact hfits, by rw [htrace]; simpa using hinside⟩
  | writeLog p tail hp hn =>
    refine ⟨hfits, fun b hb => ?_⟩
    rcases List.mem_cons.mp hb with heq | hb
    · cases heq
      constructor <;> omega
    · exact hinside b hb
  | clear => exact ⟨Or.inl rfl, hinside⟩
  | tooBig | outsideTrans | wait | startCommit | emptyCommit | endWriteLog | endInstall =>
    exact ⟨hfits, hinside⟩
  | _ => exact ⟨hfits, by simpa using hinside⟩

theorem areaInv_run {as : List (LogAct P)}
    (hrun : Run.exec (GroupState.step g) .init as = some s) : AreaInv g s :=
  Run.exec_invariant
    (fun _ _ _ hinv _ h => areaInv_step hinv (GroupState.step_move h).2) hrun Run.along_true
    ⟨Or.inl rfl, by simp [GroupState.init]⟩

/-- While an operation is in progress, the header and what may still be added to it leave two blocks
of the log free. -/
def ReserveInv (g : LogArea) (s : GroupState P) : Prop :=
  s.openOps ≠ [] → s.lh.n + reserve s + 2 ≤ g.size

section

omit [DecidableEq P]

theorem GroupInv.mem_lh (hinv : GroupInv s) {op : Nat} {b : UInt32} (hop : op ∈ s.openOps)
    (hb : b ∈ opBlocks s.trace op) : b ∈ s.lh.block := by
  rw [((hinv.phase.phase.of_open hop).2.2.2).listed, hinv.trace.loggedIn_iff]
  exact ⟨op, hinv.ops.open_began op hop, mem_opBlocks.mp hb⟩

theorem ReserveInv.not_full (hres : ReserveInv g s) (hsize : g.size ≤ LOGSIZE + 1) {op : Nat}
    (hop : op ∈ s.openOps) : ¬ (LOGSIZE ≤ s.lh.n ∨ (g.size : Int) - 1 ≤ s.lh.n) := by
  have := hres (List.ne_nil_of_mem hop)
  omega

theorem ReserveInv.begin (hops : OpsInv s)
    (hroom : s.lh.n + reserve s + MAXOPBLOCKS + 2 ≤ g.size) (hlh : t.lh = s.lh)
    (hopen : t.openOps = s.nextOp :: s.openOps)
    (hblocks : ∀ op, opBlocks t.trace op = opBlocks s.trace op) : ReserveInv g t := by
  intro _
  have hnone : opBlocks s.trace s.nextOp = ∅ := by
    refine Finset.eq_empty_of_forall_notMem fun b hb => ?_
    exact absurd (hops.fresh _ (mem_opBlocks.mp hb) _ rfl) (Nat.lt_irrefl _)
  have hres : reserve t = MAXOPBLOCKS + reserve s := by
    unfold reserve
    rw [hopen, List.map_cons, List.sum_cons, sum_allowance_congr _ fun o _ => hblocks o, allowance,
      hblocks, hnone]
    rfl
  rw [hlh]
  omega

theorem ReserveInv.end (hres : ReserveInv g s) {op : Nat} (hop : op ∈ s.openOps) (hlh : t.lh = s.lh)
    (hopen : t.openOps = s.openOps.erase op)
    (hblocks : ∀ op, opBlocks t.trace op = opBlocks s.trace op) : ReserveInv g t := by
  intro _
  have hold := hres (List.ne_nil_of_mem hop)
  have hsum : allowance s op + ((s.openOps.erase op).map (allowance s)).sum = reserve s :=
    List.sum_map_erase _ hop
  have hnew : reserve t = ((s.openOps.erase op).map (allowance s)).sum := by
    unfold reserve
    rw [hopen]
    exact sum_allowance_congr _ fun o _ => hblocks o
  rw [hlh]
  omega

theorem ReserveInv.log (hres : ReserveInv g s) (hinv : GroupInv s) {op : Nat} {b : UInt32}
    (hop : op ∈ s.openOps) (hfits : (insert b (opBlocks s.trace op)).card ≤ MAXOPBLOCKS)
    (hn : t.lh.n = if b ∈ s.lh.block then s.lh.n else s.lh.n + 1) (hopen : t.openOps = s.openOps)
    (hself : opBlocks t.trace op = insert b (opBlocks s.trace op))
    (hother : ∀ o, o ≠ op → opBlocks t.trace o = opBlocks s.trace o) : ReserveInv g t := by
  intro _
  have hold := hres (List.ne_nil_of_mem hop)
  have hsum := reserve_logged hinv.ops hop hopen hother
  have hle : (opBlocks s.trace op).card ≤ (insert b (opBlocks s.trace op)).card :=
    Finset.card_le_card (Finset.subset_insert _ _)
  simp only [allowance, hself] at hsum
  rw [hn]
  split_ifs with hb
  · omega
  · -- a block new to the header is new to its operation
    have hcard := Finset.card_insert_of_notMem fun h => hb (hinv.mem_lh hop h)
    omega

end

theorem reserveInv_step (hres : ReserveInv g s) (hinv : GroupInv s) (hm : LogMove g s a t)
    (ht : t.panic = none) (hfits : WithinReservation s a) (hroom : LeavesRoom g s a) :
    ReserveInv g t := by
  cases hm with
  | wait a p k => exact hres
  | begin p hp hc hadm => exact .begin hinv.ops (hroom hc hadm) rfl rfl fun _ => rfl
  | tooBig | outsideTrans => simp [GroupState.fail] at ht
  | absorb p op b hp hb lh hlh =>
    simp only [WithinReservation, hp, FitsOp] at hfits
    refine hres.log hinv (hinv.ops.pc_open p op hp) hfits ?_ rfl (if_pos rfl) fun o ho => if_neg (Ne.symm ho)
    rw [if_pos hb]
    exact congrArg List.length hlh
  | append p op b hp hb hroom lh hlh =>
    simp only [WithinReservation, hp, FitsOp] at hfits
    refine hres.log hinv (hinv.ops.pc_open p op hp) hfits ?_ rfl (if_pos rfl) fun o ho => if_neg (Ne.symm ho)
    rw [if_neg hb]
    show lh.block.length = _
    rw [hlh, List.length_append]
    rfl
  | endPanic p op hp hc t' ht' => rw [ht] at ht'; cases ht'
  | endLast p op hp hc ho | endOther p op hp hc ho =>
    exact hres.end (hinv.ops.pc_open p op hp) rfl rfl fun _ => rfl
  | startCommit p hp | emptyCommit p hp | writeLog p _ hp | endWriteLog p _ hp | writeHead p hp
  | install p _ _ hp | endInstall p _ hp | clear p hp | eraseHead p hp | finish p hp =>
    -- nothing is in progress during a commit
    intro hne
    exact absurd (hinv.phase.phase.of_inCommit (by rw [hp]; rfl)).2.1 hne

/-! ### Safety of the reservation -/

/-- The invariant of the runs in which operations stay within their reservation and `begin_op`
leaves room for them. -/
structure SafeInv (g : LogArea) (s : GroupState P) : Prop where
  group : GroupInv s
  reserve : ReserveInv g s
  panic : s.panic = none

theorem safeInv_step (hsize : g.size ≤ LOGSIZE + 1) (hinv : SafeInv g s)
    (hfits : WithinReservation s a) (hroom : LeavesRoom g s a)
    (h : GroupState.step g s a = some t) : SafeInv g t := by
  obtain ⟨hs, hm⟩ := GroupState.step_move h
  have hgroup := groupInv_step hinv.group hm hs
  have ht : t.panic = none := by
    refine hgroup.panic.resolve_right fun hbig => ?_
    cases hm with
    | tooBig p op b hp hfull =>
      exact hinv.reserve.not_full hsize (hinv.group.ops.pc_open p op hp) hfull
    | outsideTrans => simp [GroupState.fail] at hbig
    | endPanic p op hp hc t' ht' => rw [hbig] at ht'; cases ht'
    | _ => exact absurd (hs.symm.trans hbig) (by simp)
  exact ⟨hgroup, reserveInv_step hinv.reserve hinv.group hm ht hfits hroom, ht⟩

omit [DecidableEq P] in
theorem safeInv_init : SafeInv g (GroupState.init : GroupState P) :=
  ⟨groupInv_init, fun h => absurd rfl h, rfl⟩

/-- With the log that `mkfs` creates, if operations stay within their reservation and each `begin_op`
that returns leaves room for the new operation, `log_write` does not panic with "too big a
transaction" and `write_log` stays inside the log area. -/
theorem reservation_sound (as : List (LogAct P)) (s : GroupState P)
    (hrun : Run.exec (GroupState.step (initlog Mkfs.sb)) .init as = some s)
    (hfits : Run.Along (GroupState.step (initlog Mkfs.sb)) WithinReservation .init as)
    (hroom : Run.Along (GroupState.step (initlog Mkfs.sb)) (LeavesRoom (initlog Mkfs.sb)) .init as) :
    s.panic ≠ some .tooBig ∧ ∀ b, .wroteLog b ∈ s.trace → (initlog Mkfs.sb).Has b := by
  have hsize : (initlog Mkfs.sb).size ≤ LOGSIZE + 1 := by decide
  have hinv := Run.exec_invariant
    (fun _ _ _ hinv hG h => safeInv_step hsize hinv hG.1 hG.2 h) hrun (hfits.and hroom) safeInv_init
  exact ⟨by rw [hinv.panic]; simp, (areaInv_run hrun).inside⟩

/-- Two operations of ten blocks each, admitted together, and their commit. -/
def twoFullOpsRun : List (LogAct Bool) :=
  [.callBegin true, .beginOp true] ++
  (List.range 10).map (fun i => .logWrite true (UInt32.ofNat (100 + i))) ++
  [.callBegin false, .beginOp false] ++
  (List.range 10).map (fun i => .logWrite false (UInt32.ofNat (200 + i))) ++
  [.logWrite true 100, .endOp true, .endOp false] ++ List.replicate 47 (.commitStep false)

theorem reservation_sound_twoFullOps :
    ∃ s, Run.exec (GroupState.step (initlog Mkfs.sb)) .init twoFullOpsRun = some s ∧
      s.panic ≠ some .tooBig ∧ ∀ b, .wroteLog b ∈ s.trace → (initlog Mkfs.sb).Has b := by
  obtain ⟨s, hs⟩ := Option.isSome_iff_exists.mp
    (show (Run.exec (GroupState.step (initlog Mkfs.sb)) .init twoFullOpsRun).isSome by decide +kernel)
  exact ⟨s, hs, reservation_sound _ s hs (by decide +kernel) (by decide +kernel)⟩

/-- Three operations that `begin_op` admits together; each logs ten distinct blocks. -/
def threeOpsRun : List (LogAct (Fin 3)) :=
  [.callBegin 0, .beginOp 0, .callBegin 1, .beginOp 1, .callBegin 2, .beginOp 2] ++
  (List.range 30).map fun i => .logWrite (Fin.ofNat 3 (i / 10)) (UInt32.ofNat (100 + i))

/-- All three operations stay within `MAXOPBLOCKS`, and the thirtieth `log_write` panics. -/
theorem reservation_unsound_threeOps :
    ∃ s, Run.exec (GroupState.step (initlog Mkfs.sb)) .init threeOpsRun = some s ∧
      Run.Along (GroupState.step (initlog Mkfs.sb)) WithinReservation .init threeOpsRun ∧
      s.panic = some .tooBig := by
  have hpanic : ((Run.exec (GroupState.step (initlog Mkfs.sb)) .init threeOpsRun).map
      fun s => s.panic) = some (some .tooBig) := by decide +kernel
  obtain ⟨s, hs, hp⟩ := Option.map_eq_some_iff.mp hpanic
  exact ⟨s, hs, by decide +kernel, hp⟩

end Xv6

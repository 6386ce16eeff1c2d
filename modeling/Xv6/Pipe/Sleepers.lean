import Xv6.Pipe.Steps

/-!
# Who may be asleep on a pipe

A process that sleeps on `&pi->nread` or `&pi->nwrite` waits for a condition to change, and whoever
changes it wakes the sleepers before it releases `pi->lock`. `pipewrite` breaks this rule: it leaves
the loop without a `wakeup` when it finds its process killed, even if it has already stored bytes.
-/

namespace Xv6

open Function

def PipePos.writes : PipePos → Bool
  | .writeLoop _ _ | .writeKilled _ _ | .writeBody _ _ => true
  | _ => false

namespace PipeMachine

variable {n : Nat} {s t : PipeMachine n} {p q : Fin n} {a : PipeAct n} {fault : Bool} {chan : PipeChan}

/-- The condition on which a process sleeps. -/
def Waits (pi : Pipe) : PipeChan → Prop
  | .nread => pi.empty = true ∧ pi.writeopen = true
  | .nwrite => pi.full = true ∧ pi.readopen = true

/-- The process at `b` will wake the slot `q` from `chan` before it releases the lock: it is in
`wakeup(chan)` and has not passed `q`, or in a loop that a call of `wakeup(chan)` follows. -/
def Wakes (pi : Pipe) (killed : Bool) (q : Fin n) : PipeChan → PipePos → Prop
  | chan, .wakeup chan' j _ => chan' = chan ∧ j ≤ q
  | .nread, .writeLoop _ _ | .nread, .writeKilled _ _ | .nread, .writeBody _ _ =>
    killed = false ∧ pi.readopen = true
  | .nwrite, .readCopy _ _ => True
  | _, _ => False

/-- What is known at the positions of a process. -/
def PosOk (pi : Pipe) (killed : Bool) : PipePos → Prop
  | .writeKilled _ _ => pi.readopen = true
  | .writeBody _ _ => pi.readopen = true ∧ killed = false
  | .wakeup _ _ (.sleep _ _) => Waits pi .nwrite
  | .readKilled _ => Waits pi .nread
  | .sleep chan _ => Waits pi chan
  | .sleepHeld chan _ => Waits pi chan
  | _ => True

/-- The state of the slot of a process at a position, and whether the process holds its lock. -/
def SlotOk (x : Proc n) (held : Bool) : PipePos → Prop
  | .asleep chan _ => held = false ∧ (x.state = .SLEEPING ∧ x.chan = chan.addr ∨ x.state = .RUNNABLE)
  | .sleepHeld _ _ | .sleepSet _ _ => held = true ∧ x.state = .RUNNING
  | _ => held = false ∧ x.state = .RUNNING

/-- `q` sleeps on `chan`, or has released `pi->lock` in order to. -/
def Sleeper (s : PipeMachine n) (q : Fin n) (chan : PipeChan) : Prop :=
  ∃ loop, s.pos q = .sleepSet chan loop ∨
    s.pos q = .asleep chan loop ∧ (s.proc q).state = .SLEEPING

structure SleepInv (s : PipeMachine n) : Prop where
  holder : HolderInv s
  slot : ∀ q, SlotOk (s.proc q) (s.plock q) (s.pos q)
  pos : ∀ q, PosOk s.pipe (s.proc q).killed (s.pos q)
  sleeper : ∀ q chan, Sleeper s q chan →
    Waits s.pipe chan ∨ ∃ h, s.lock = some h ∧ Wakes s.pipe (s.proc h).killed q chan (s.pos h)

/-- No `kill` reaches a process in the loop of `pipewrite`, which holds `pi->lock`. -/
def SparesWriter (s : PipeMachine n) : PipeAct n → Prop
  | .kill p => (s.pos p).writes = false
  | _ => True

instance (s : PipeMachine n) : ∀ a, Decidable (SparesWriter s a)
  | .kill p => inferInstanceAs (Decidable ((s.pos p).writes = false))
  | .call .. | .step .. => inferInstanceAs (Decidable True)

/-! ## The slots -/

theorem SlotOk.wakeup {x : Proc n} {held : Bool} {b : PipePos} (h : SlotOk x held b) (c : Chan n) :
    SlotOk (x.wakeup c) held b := by
  unfold Proc.wakeup
  split
  case isFalse => exact h
  case isTrue hc =>
    cases b <;> simp_all [SlotOk]

theorem SlotOk.kill {x : Proc n} {held : Bool} {b : PipePos} (h : SlotOk x held b) :
    SlotOk x.kill held b := by
  cases b <;> simp only [SlotOk, Proc.kill] at h ⊢
  case asleep => obtain ⟨hl, ⟨hs, -⟩ | hs⟩ := h <;> simp [hl, hs]
  all_goals
    obtain ⟨hl, hs⟩ := h
    simp [hl, hs]

theorem killed_wakeup (x : Proc n) (c : Chan n) : (x.wakeup c).killed = x.killed := by
  unfold Proc.wakeup
  split <;> rfl

theorem Goes.slotOk {b c : PipePos} {x : Proc n} {held : Bool} (h : Goes s p b c)
    (hb : SlotOk x held b) : SlotOk x held c := by
  cases h
  case wakeupEnd next _ => cases next <;> exact hb
  all_goals exact hb

theorem Acquires.slotOk {b c : PipePos} {x : Proc n} {held : Bool} (h : Acquires b c)
    (hb : SlotOk x held b) : SlotOk x held c := by
  cases h with
  | enter call => cases call <;> exact hb
  | relock loop => cases loop <;> exact hb

theorem PipeStep.slotOk_self (h : PipeStep s p fault t) (hs : SlotOk (s.proc p) (s.plock p) (s.pos p)) :
    SlotOk (t.proc p) (t.plock p) (t.pos p) := by
  cases h with rw [hp] at hs
  | goes hp hg | acquire hp hg => simpa using hg.slotOk hs
  | wakeup hp hq => simpa [setProc, SlotOk, Ne.symm hq] using hs
  | _ hp => simp_all [SlotOk, setProc, setPlock, pipeclose, release]

theorem PipeStep.other (h : PipeStep s p fault t) (hq : q ≠ p) :
    t.plock q = s.plock q ∧ (t.proc q = s.proc q ∨
      ∃ chan next, s.pos p = .wakeup chan q next ∧ s.plock q = false ∧
        t.proc q = (s.proc q).wakeup chan.addr) := by
  cases h with
  | wakeup hp _ hl =>
    rename_i chan next q' _
    by_cases hqq : q = q'
    · subst hqq
      exact ⟨rfl, .inr ⟨chan, next, hp, hl, by simp [setProc]⟩⟩
    · exact ⟨rfl, .inl (by simp [setProc, hqq])⟩
  | _ => simp [setProc, setPlock, pipeclose, release, hq]

theorem PipeStep.killed_eq (h : PipeStep s p fault t) (q : Fin n) :
    (t.proc q).killed = (s.proc q).killed := by
  by_cases hq : q = p
  · subst hq
    cases h with
    | wakeup _ hq => simp [setProc, Ne.symm hq]
    | _ => simp [setProc, setPlock, pipeclose, release]
  · rcases (h.other hq).2 with h' | ⟨_, _, _, _, h'⟩ <;> rw [h']
    exact killed_wakeup _ _

/-! ## What is known at a position -/

theorem PosOk.of_not_holds {pi : Pipe} {killed : Bool} {b : PipePos} (h : b.holds = false) :
    PosOk pi killed b := by
  cases b <;> trivial

theorem Goes.posOk {b c : PipePos} (h : Goes s p b c) (hb : PosOk s.pipe (s.proc p).killed b) :
    PosOk s.pipe (s.proc p).killed c := by
  cases h with
  | writeOpen _ hr => exact hr
  | writeLive hk => exact ⟨hb, hk⟩
  | writeFull hf => exact ⟨hf, hb.1⟩
  | readEmpty he hw => exact ⟨he, hw⟩
  | readSleep => exact hb
  | wakeupSelf =>
    rename_i next
    cases next <;> exact hb
  | wakeupEnd =>
    rename_i next _
    cases next <;> exact hb
  | _ => trivial

theorem PipeStep.posOk_self (h : PipeStep s p fault t)
    (hs : PosOk s.pipe (s.proc p).killed (s.pos p)) : PosOk t.pipe (t.proc p).killed (t.pos p) := by
  cases h with
  | goes hp hg =>
    rw [hp] at hs
    simpa using hg.posOk hs
  | acquire hp hg =>
    cases hg with
    | enter call => cases call <;> simp [start, PosOk]
    | relock loop => cases loop <;> simp [again, PosOk]
  | wakeup hp =>
    rename_i chan next _ _ _
    rw [hp] at hs
    cases next with
    | sleep => simpa [PosOk, setProc] using hs
    | leave => simp [PosOk]
  | sleep hp =>
    rw [hp] at hs
    simpa [PosOk, setPlock] using hs
  | _ => simp [PosOk, setProc, setPlock, pipeclose, release]

/-! ## The sleepers -/

theorem Goes.wakes {b c : PipePos} (h : Goes s p b c) (hq : q ≠ p)
    (hb : Wakes s.pipe (s.proc p).killed q chan b) : Wakes s.pipe (s.proc p).killed q chan c := by
  cases h with
  | wakeupSelf =>
    obtain ⟨rfl, hle⟩ := hb
    exact ⟨rfl, by omega⟩
  | wakeupEnd hn =>
    obtain ⟨-, hle⟩ := hb
    omega
  | _ => cases chan <;> simp_all [Wakes]

theorem not_sleeper_of_holds (h : (s.pos q).holds = true) : ¬Sleeper s q chan := by
  rintro ⟨loop, hset | ⟨hasleep, -⟩⟩
  · rw [hset] at h
    cases h
  · rw [hasleep] at h
    cases h

theorem PipeStep.sleeper_of_ne (h : PipeStep s p fault t) (hq : q ≠ p) (ht : Sleeper t q chan) :
    Sleeper s q chan := by
  obtain ⟨c, hpos, -⟩ := h.moves
  obtain ⟨loop, hset | ⟨hasleep, hstate⟩⟩ := ht <;>
    rw [hpos, update_of_ne hq] at *
  · exact ⟨loop, .inl hset⟩
  · refine ⟨loop, .inr ⟨hasleep, ?_⟩⟩
    rcases (h.other hq).2 with h' | ⟨_, _, _, _, h'⟩ <;> rw [h'] at hstate
    · exact hstate
    · unfold Proc.wakeup at hstate
      split at hstate
      · cases hstate
      · exact hstate

theorem not_sleeper_wakeup {next : PipeNext} (hslot : SlotOk (s.proc q) (s.plock q) (s.pos q))
    (hl : s.plock q = false) (hq : q ≠ p) :
    ¬Sleeper ((s.setProc q ((s.proc q).wakeup chan.addr)).goto p (.wakeup chan (q + 1) next)) q chan := by
  rintro ⟨loop, hset | ⟨hasleep, hstate⟩⟩
  · rw [goto_pos, update_of_ne hq] at hset
    rw [show s.pos q = .sleepSet chan loop from hset, hl] at hslot
    cases hslot.1
  · rw [goto_pos, update_of_ne hq] at hasleep
    rw [show s.pos q = .asleep chan loop from hasleep] at hslot
    simp only [goto_proc, setProc, update_self, Proc.wakeup] at hstate
    split at hstate
    case isTrue => cases hstate
    case isFalse hno =>
      obtain ⟨-, ⟨hsl, hch⟩ | hr⟩ := hslot
      · exact hno ⟨hsl, hch⟩
      · rw [hstate] at hr
        cases hr

theorem PipeStep.holder_wakes (h : PipeStep s p fault t) (hh : (s.pos p).holds = true)
    (hpos : PosOk s.pipe (s.proc p).killed (s.pos p))
    (hslot : SlotOk (s.proc q) (s.plock q) (s.pos q)) (hq : q ≠ p) (ht : Sleeper t q chan)
    (hs : Waits s.pipe chan ∨ Wakes s.pipe (s.proc p).killed q chan (s.pos p)) :
    Waits t.pipe chan ∨ t.lock = s.lock ∧ Wakes t.pipe (t.proc p).killed q chan (t.pos p) := by
  cases h with
  | goes hp hg =>
    rw [hp] at hs
    exact hs.imp (fun h => h) fun h => ⟨rfl, by simpa using hg.wakes hq h⟩
  | acquire hp hg =>
    rw [hp, hg.holds.1] at hh
    cases hh
  | store hp hf =>
    rw [hp] at hs hpos
    cases chan with
    | nread => exact .inr ⟨rfl, by simpa [Wakes, Pipe.store] using hpos.symm⟩
    | nwrite => simp [Waits, Wakes, hf] at hs
  | deliver hp he | drop hp he =>
    rw [hp] at hs
    cases chan with
    | nread => simp [Waits, Wakes, he] at hs
    | nwrite => exact .inr ⟨rfl, by simp [Wakes]⟩
  | close hp =>
    rename_i w
    cases chan <;> cases w <;> simp_all [Waits, Wakes, pipeclose, Pipe.close, Pipe.full, Pipe.empty]
  | wakeup hp hq' hl =>
    rename_i chan' next q'
    rw [hp] at hs
    refine hs.imp (fun h => h) fun ⟨hc, hle⟩ => ⟨rfl, ?_⟩
    subst hc
    have hne : (q' : Nat) ≠ q := by
      intro hc
      obtain rfl := Fin.ext hc
      exact not_sleeper_wakeup hslot hl hq ht
    simp only [goto_pos, update_self, Wakes, true_and]
    omega
  | sleep hp | sleepHeld hp | leave hp =>
    rw [hp] at hs
    exact .inl (hs.resolve_right (by cases chan <;> simp [Wakes]))
  | sleepSet hp =>
    rw [hp] at hh
    cases hh
  | resume hp =>
    rw [hp] at hh
    cases hh

theorem PipeStep.sleeper (h : PipeStep s p fault t) (hs : SleepInv s) (ht : Sleeper t q chan) :
    Waits t.pipe chan ∨ ∃ h, t.lock = some h ∧ Wakes t.pipe (t.proc h).killed q chan (t.pos h) := by
  -- the waker, if it is not the process that moves, is still there
  have hkeep : (s.pos p).holds = false → Sleeper s q chan → Waits t.pipe chan ∨
      ∃ h, t.lock = some h ∧ Wakes t.pipe (t.proc h).killed q chan (t.pos h) := by
    intro hh hsl
    obtain ⟨c, hpos, hcase⟩ := h.moves
    rw [h.pipe_eq hh]
    refine (hs.sleeper q chan hsl).imp (fun h => h) fun ⟨w, hl, hw⟩ => ⟨w, ?_, ?_⟩
    · rcases hcase with ⟨-, hlock⟩ | ⟨-, hnone, -⟩ | ⟨hhold, -⟩
      · rw [hlock, hl]
      · rw [hnone] at hl
        cases hl
      · rw [hh] at hhold
        cases hhold
    · have hne : w ≠ p := by
        rintro rfl
        rw [(hs.holder w).mpr hl] at hh
        cases hh
      rwa [h.killed_eq, hpos, update_of_ne hne]
  by_cases hq : q = p
  · subst hq
    cases h with
    | sleepHeld hp =>
      have hpos := hs.pos q
      rw [hp] at hpos
      obtain ⟨loop, hset | ⟨hasleep, -⟩⟩ := ht
      · simp only [goto_pos, update_self, PipePos.sleepSet.injEq] at hset
        obtain ⟨rfl, rfl⟩ := hset
        exact .inl hpos
      · simp at hasleep
    | sleepSet hp =>
      refine hkeep (by rw [hp]; rfl) ?_
      obtain ⟨loop, hset | ⟨hasleep, -⟩⟩ := ht
      · simp at hset
      · simp only [goto_pos, update_self, PipePos.asleep.injEq] at hasleep
        obtain ⟨rfl, rfl⟩ := hasleep
        exact ⟨_, .inl hp⟩
    | goes _ hg | acquire _ hg => exact absurd ht (not_sleeper_of_holds (by simp [hg.holds.2]))
    | _ => simp [Sleeper, pipeclose, release] at ht
  · have hsl := h.sleeper_of_ne hq ht
    cases hh : (s.pos p).holds with
    | false => exact hkeep hh hsl
    | true =>
      have hlock := (hs.holder p).mp hh
      refine (h.holder_wakes hh (hs.pos p) (hs.slot q) hq ht ?_).imp (fun h => h) fun ⟨hl, hw⟩ =>
        ⟨p, by rw [hl, hlock], hw⟩
      refine (hs.sleeper q chan hsl).imp (fun h => h) fun ⟨w, hl, hw⟩ => ?_
      rw [hlock, Option.some.injEq] at hl
      exact hl ▸ hw

theorem SleepInv.pipeStep (hs : SleepInv s) {ch : UInt8} (hstep : step s (.step p fault ch) = some t)
    (h : PipeStep s p fault t) : SleepInv t where
  holder := hs.holder.step hstep
  slot := by
    intro q
    by_cases hq : q = p
    · subst hq
      exact h.slotOk_self (hs.slot q)
    · obtain ⟨c, hpos, -⟩ := h.moves
      obtain ⟨hl, hproc⟩ := h.other hq
      rw [hpos, update_of_ne hq, hl]
      rcases hproc with h' | ⟨_, _, _, _, h'⟩ <;> rw [h']
      · exact hs.slot q
      · exact (hs.slot q).wakeup _
  pos := by
    intro q
    by_cases hq : q = p
    · subst hq
      exact h.posOk_self (hs.pos q)
    · obtain ⟨c, hpos, -⟩ := h.moves
      rw [hpos, update_of_ne hq, h.killed_eq]
      cases hh : (s.pos p).holds with
      | false => exact h.pipe_eq hh ▸ hs.pos q
      | true => exact .of_not_holds (hs.holder.others hh hq)
  sleeper := fun _ _ ht => h.sleeper hs ht

theorem SleepInv.call (hs : SleepInv s) {call : PipeCall} (hstep : step s (.call p call) = some t)
    (hp : s.pos p = .out) (ht : t = s.goto p (.enter call)) : SleepInv t := by
  have hholder := hs.holder.step hstep
  subst ht
  refine ⟨hholder, fun q => ?_, fun q => ?_, fun q chan hq => ?_⟩
  · by_cases hq : q = p
    · subst hq
      have := hs.slot q
      rw [hp] at this
      simpa [SlotOk] using this
    · simpa [hq] using hs.slot q
  · by_cases hq : q = p
    · subst hq
      simp [PosOk]
    · simpa [hq] using hs.pos q
  · have hne : q ≠ p := by
      rintro rfl
      simp [Sleeper] at hq
    have hsl : Sleeper s q chan := by simpa [Sleeper, hne] using hq
    refine (hs.sleeper q chan hsl).imp (fun h => h) fun ⟨w, hl, hw⟩ => ⟨w, hl, ?_⟩
    have hw' : w ≠ p := by
      rintro rfl
      have := (hs.holder w).mpr hl
      rw [hp] at this
      cases this
    simpa [hw'] using hw

theorem PosOk.kill {pi : Pipe} {k k' : Bool} {b : PipePos} (h : PosOk pi k b) (hb : b.writes = false) :
    PosOk pi k' b := by
  cases b with
  | writeBody => cases hb
  | wakeup chan j next => cases next <;> exact h
  | _ => exact h

theorem Wakes.kill {pi : Pipe} {k k' : Bool} {b : PipePos} (h : Wakes pi k q chan b)
    (hb : b.writes = false) : Wakes pi k' q chan b := by
  cases b <;> cases chan <;> first | exact h | cases hb

/-- A `kill` outside the loop of `pipewrite` leaves the sleepers to their wakers. -/
theorem SleepInv.kill (hs : SleepInv s) (hg : (s.pos p).writes = false) :
    SleepInv (s.setProc p (s.proc p).kill) := by
  refine ⟨hs.holder, fun q => ?_, fun q => ?_, fun q chan hq => ?_⟩
  · by_cases hq : q = p
    · subst hq
      simpa [setProc] using (hs.slot q).kill
    · simpa [setProc, hq] using hs.slot q
  · by_cases hq : q = p
    · subst hq
      simpa only [setProc, update_self] using (hs.pos q).kill hg
    · simpa [setProc, hq] using hs.pos q
  · have hsl : Sleeper s q chan := by
      obtain ⟨loop, hset | ⟨hasleep, hstate⟩⟩ := hq
      · exact ⟨loop, .inl hset⟩
      · refine ⟨loop, .inr ⟨hasleep, ?_⟩⟩
        by_cases hqp : q = p
        · subst hqp
          simp only [setProc, update_self, Proc.kill] at hstate
          split at hstate
          · cases hstate
          · exact hstate
        · simpa [setProc, hqp] using hstate
    refine (hs.sleeper q chan hsl).imp (fun h => h) fun ⟨w, hl, hw⟩ => ⟨w, hl, ?_⟩
    by_cases hwp : w = p
    · subst hwp
      simpa only [setProc, update_self] using hw.kill hg
    · simpa [setProc, hwp] using hw

theorem SleepInv.step (hs : SleepInv s) (hg : SparesWriter s a) (h : step s a = some t) :
    SleepInv t := by
  obtain ⟨p, call, rfl, hp, ht⟩ | ⟨p, fault, ch, rfl, hst⟩ | ⟨p, rfl, -, rfl⟩ := step_cases h
  · exact hs.call h hp ht
  · exact hs.pipeStep h hst
  · exact hs.kill hg

theorem sleepInv_boot (data : Nat → UInt8) : SleepInv (boot n data) where
  holder := holderInv_boot data
  slot := by
    intro q
    simp [boot, SlotOk]
  pos := by
    intro q
    simp [boot, PosOk]
  sleeper := by
    intro q chan h
    simp [boot, Sleeper] at h

/-! ## Whole runs -/

def NoneLeftAsleep (s : PipeMachine n) : Prop :=
  s.lock = none → ∀ q, (s.proc q).state = .SLEEPING →
    ((s.proc q).chan = PipeChan.nread.addr →
      s.pipe.nread = s.pipe.nwrite ∧ s.pipe.writeopen = true) ∧
    ((s.proc q).chan = PipeChan.nwrite.addr →
      s.pipe.nwrite = s.pipe.nread + UInt32.ofNat PIPESIZE ∧ s.pipe.readopen = true)

theorem PipeChan.addr_inj {c d : PipeChan} (h : (c.addr : Chan n) = d.addr) : c = d := by
  cases c <;> cases d <;> first | rfl | cases h

theorem SleepInv.waits (hs : SleepInv s) (hl : s.lock = none) (hq : (s.proc q).state = .SLEEPING)
    (hc : (s.proc q).chan = chan.addr) : Waits s.pipe chan := by
  have hslot := hs.slot q
  have hsl : Sleeper s q chan := by
    cases hpos : s.pos q with
    | asleep chan' loop =>
      rw [hpos] at hslot
      obtain ⟨-, ⟨-, hch⟩ | hr⟩ := hslot
      · rw [hc] at hch
        obtain rfl := PipeChan.addr_inj hch
        exact ⟨loop, .inr ⟨hpos, hq⟩⟩
      · rw [hr] at hq
        cases hq
    | _ =>
      rw [hpos] at hslot
      rw [hslot.2] at hq
      cases hq
  refine (hs.sleeper q chan hsl).resolve_right ?_
  rintro ⟨h, hlock, -⟩
  rw [hl] at hlock
  cases hlock

theorem none_left_asleep {data : Nat → UInt8} {acts : List (PipeAct n)}
    (hrun : Run.exec step (boot n data) acts = some s)
    (hspare : Run.Along step SparesWriter (boot n data) acts) : NoneLeftAsleep s := by
  have hs : SleepInv s :=
    Run.exec_invariant (fun _ _ _ hs hg h => SleepInv.step hs hg h) hrun hspare (sleepInv_boot data)
  intro hl q hq
  constructor
  · intro hc
    obtain ⟨he, hw⟩ := hs.waits hl hq hc
    exact ⟨by simpa [Pipe.empty] using he, hw⟩
  · intro hc
    obtain ⟨hf, hr⟩ := hs.waits hl hq hc
    exact ⟨by simpa [Pipe.full] using hf, hr⟩

/-- Process 1 sleeps in `piperead`, and process 0 stores one of two bytes. -/
def halfWriteRun : List (PipeAct 2) :=
  .call 1 (.read 1) :: List.replicate 6 (.step 1 false 0) ++
    .call 0 (.write 2) :: List.replicate 4 (.step 0 false 104)

/-- Process 0 stores the second byte and returns. -/
theorem none_left_asleep_halfWriteRun :
    ∃ s, Run.exec step (boot 2 fun _ => 0) (halfWriteRun ++ List.replicate 8 (.step 0 false 105)) =
        some s ∧ s.lock = none ∧ s.accepted = [104, 105] ∧ NoneLeftAsleep s := by
  have hrun : (Run.exec step (boot 2 fun _ => 0)
      (halfWriteRun ++ List.replicate 8 (.step 0 false 105))).map (fun s => (s.lock, s.accepted)) =
        some (none, [104, 105]) := by decide +kernel
  obtain ⟨s, hs, hobs⟩ := Option.map_eq_some_iff.mp hrun
  obtain ⟨hl, hacc⟩ := Prod.mk.inj hobs
  exact ⟨s, hs, hl, hacc, none_left_asleep hs (by decide +kernel)⟩

/-- Process 0 is killed before it stores the second byte: it leaves the first one in the pipe, and
process 1 asleep. -/
theorem killed_writer_leaves_reader_asleep :
    ∃ s, Run.exec step (boot 2 fun _ => 0)
        (halfWriteRun ++ .kill 0 :: List.replicate 3 (.step 0 false 105)) = some s ∧
      s.pos 0 = .out ∧ ¬NoneLeftAsleep s := by
  have hrun : (Run.exec step (boot 2 fun _ => 0)
      (halfWriteRun ++ .kill 0 :: List.replicate 3 (.step 0 false 105))).map
        (fun s => ((s.pos 0, s.lock), (s.proc 1).state, (s.proc 1).chan, s.pipe.nread, s.pipe.nwrite)) =
      some ((.out, none), .SLEEPING, PipeChan.nread.addr, 0, 1) := by decide +kernel
  obtain ⟨s, hs, hobs⟩ := Option.map_eq_some_iff.mp hrun
  simp only [Prod.mk.injEq] at hobs
  obtain ⟨⟨hpos, hl⟩, hstate, hchan, hr, hw⟩ := hobs
  refine ⟨s, hs, hpos, fun h => ?_⟩
  have hempty := ((h hl 1 hstate).1 hchan).1
  rw [hr, hw] at hempty
  exact absurd hempty (by decide)

end PipeMachine

end Xv6

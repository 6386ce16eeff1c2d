import Xv6.Pipe.Machine

/-!
# What a step of a pipe can do

`PipeStep` lists the effects of a step of one process, and `PipeMachine.step_cases` says that there are
no others. `HolderInv` is what holds of `pi->lock`: its holder is the process that stands at a position
of the critical section.
-/

namespace Xv6

open Function

def PipePos.holds : PipePos → Bool
  | .out | .enter _ | .sleepSet _ _ | .asleep _ _ | .relock _ => false
  | _ => true

namespace PipeMachine

variable {n : Nat} {s t : PipeMachine n} {p q : Fin n} {a : PipeAct n} {fault : Bool} {ch : UInt8}

/-- The steps that only move the process on, with the test that decides where. -/
inductive Goes (s : PipeMachine n) (p : Fin n) : PipePos → PipePos → Prop
  | writeOpen {i : Nat} {m : Int} : (i : Int) < m → s.pipe.readopen = true →
      Goes s p (.writeLoop i m) (.writeKilled i m)
  | writeShut {i : Nat} {m : Int} : (i : Int) < m → s.pipe.readopen = false →
      Goes s p (.writeLoop i m) (.leave (.write m) (-1))
  | writeDone {i : Nat} {m : Int} : ¬(i : Int) < m →
      Goes s p (.writeLoop i m) (.wakeup .nread 0 (.leave (.write m) i))
  | writeDead {i : Nat} {m : Int} : (s.proc p).killed = true →
      Goes s p (.writeKilled i m) (.leave (.write m) (-1))
  | writeLive {i : Nat} {m : Int} : (s.proc p).killed = false →
      Goes s p (.writeKilled i m) (.writeBody i m)
  | writeFull {i : Nat} {m : Int} : s.pipe.full = true →
      Goes s p (.writeBody i m) (.wakeup .nread 0 (.sleep i m))
  | writeFault {i : Nat} {m : Int} : Goes s p (.writeBody i m) (.wakeup .nread 0 (.leave (.write m) i))
  | readEmpty {m : Int} : s.pipe.empty = true → s.pipe.writeopen = true →
      Goes s p (.readLoop m) (.readKilled m)
  | readReady {m : Int} : ¬(s.pipe.empty = true ∧ s.pipe.writeopen = true) →
      Goes s p (.readLoop m) (.readCopy 0 m)
  | readDead {m : Int} : Goes s p (.readKilled m) (.leave (.read m) (-1))
  | readSleep {m : Int} : Goes s p (.readKilled m) (.sleep .nread (.read m))
  | readDone {i : Nat} {m : Int} : ¬((i : Int) < m ∧ s.pipe.empty = false) →
      Goes s p (.readCopy i m) (.wakeup .nwrite 0 (.leave (.read m) i))
  | wakeupSelf {chan : PipeChan} {next : PipeNext} :
      Goes s p (.wakeup chan p next) (.wakeup chan (p + 1) next)
  | wakeupEnd {chan : PipeChan} {j : Nat} {next : PipeNext} : n ≤ j →
      Goes s p (.wakeup chan j next) (after next)

/-- The steps with which a process gets `pi->lock`. -/
inductive Acquires : PipePos → PipePos → Prop
  | enter (call : PipeCall) : Acquires (.enter call) (start call)
  | relock (loop : PipeLoop) : Acquires (.relock loop) (again loop)

/-- What a step of the process `p` can do; `fault` is whether its `copyin` or `copyout` fails. -/
inductive PipeStep (s : PipeMachine n) (p : Fin n) (fault : Bool) : PipeMachine n → Prop
  | goes {b c : PipePos} : s.pos p = b → Goes s p b c → PipeStep s p fault (s.goto p c)
  | acquire {b c : PipePos} : s.pos p = b → Acquires b c → s.lock = none →
      PipeStep s p fault (goto { s with lock := some p } p c)
  | store {i : Nat} {m : Int} {ch : UInt8} : s.pos p = .writeBody i m → s.pipe.full = false →
      PipeStep s p fault (goto { s with
        pipe := s.pipe.store ch
        accepted := s.accepted ++ [ch] } p (.writeLoop (i + 1) m))
  | deliver {i : Nat} {m : Int} : s.pos p = .readCopy i m → s.pipe.empty = false → fault = false →
      PipeStep s p fault (goto { s with
        pipe := s.pipe.advance
        delivered := s.delivered ++ [s.pipe.front] } p (.readCopy (i + 1) m))
  | drop {i : Nat} {m : Int} : s.pos p = .readCopy i m → s.pipe.empty = false → fault = true →
      PipeStep s p fault
        (goto { s with pipe := s.pipe.advance } p (.wakeup .nwrite 0 (.leave (.read m) i)))
  | close {writable : Bool} : s.pos p = .closeBody writable → PipeStep s p fault (s.pipeclose p writable)
  | wakeup {chan : PipeChan} {next : PipeNext} {q : Fin n} : s.pos p = .wakeup chan q next → q ≠ p →
      s.plock q = false →
      PipeStep s p fault
        ((s.setProc q ((s.proc q).wakeup chan.addr)).goto p (.wakeup chan (q + 1) next))
  | sleep {chan : PipeChan} {loop : PipeLoop} : s.pos p = .sleep chan loop →
      PipeStep s p fault ((s.setPlock p true).goto p (.sleepHeld chan loop))
  | sleepHeld {chan : PipeChan} {loop : PipeLoop} : s.pos p = .sleepHeld chan loop →
      PipeStep s p fault (goto { s with lock := none } p (.sleepSet chan loop))
  | sleepSet {chan : PipeChan} {loop : PipeLoop} : s.pos p = .sleepSet chan loop →
      PipeStep s p fault (((s.setProc p { s.proc p with chan := chan.addr, state := .SLEEPING }).setPlock
        p false).goto p (.asleep chan loop))
  | resume {chan : PipeChan} {loop : PipeLoop} : s.pos p = .asleep chan loop →
      (s.proc p).state = .RUNNABLE →
      PipeStep s p fault
        ((s.setProc p { s.proc p with chan := .null, state := .RUNNING }).goto p (.relock loop))
  | leave {call : PipeCall} {r : Int} : s.pos p = .leave call r → PipeStep s p fault (s.release p call)

theorem pipewrite_cases {b : PipePos} (hp : s.pos p = b) (h : s.pipewrite p fault ch b = some t) :
    PipeStep s p fault t := by
  unfold pipewrite at h
  split at h
  · split_ifs at h with hi hr <;> cases h
    · exact .goes hp (.writeOpen hi hr)
    · exact .goes hp (.writeShut hi (by simpa using hr))
    · exact .goes hp (.writeDone hi)
  · split_ifs at h with hk <;> cases h
    · exact .goes hp (.writeDead hk)
    · exact .goes hp (.writeLive (by simpa using hk))
  · split_ifs at h with hf hc <;> cases h
    · exact .goes hp (.writeFull hf)
    · exact .goes hp .writeFault
    · exact .store hp (by simpa using hf)
  · cases h

theorem piperead_cases {b : PipePos} (hp : s.pos p = b) (h : s.piperead p fault b = some t) :
    PipeStep s p fault t := by
  unfold piperead at h
  split at h
  · split_ifs at h with he <;> cases h
    · rw [Bool.and_eq_true] at he
      exact .goes hp (.readEmpty he.1 he.2)
    · exact .goes hp (.readReady (by simpa using he))
  · split_ifs at h with hk <;> cases h
    · exact .goes hp .readDead
    · exact .goes hp .readSleep
  · split_ifs at h with hi hf <;> cases h
    · exact .drop hp hi.2 hf
    · exact .deliver hp hi.2 (by simpa using hf)
    · exact .goes hp (.readDone hi)
  · cases h

theorem wakeupSlot_cases {chan : PipeChan} {j : Nat} {next : PipeNext}
    (hp : s.pos p = .wakeup chan j next) (h : s.wakeupSlot p chan j next = some t) :
    PipeStep s p fault t := by
  unfold wakeupSlot at h
  split at h
  case isTrue hj =>
    dsimp only at h
    split_ifs at h with hself hlock <;> cases h
    · subst hself
      exact .goes hp .wakeupSelf
    · exact .wakeup hp hself (by simpa using hlock)
  case isFalse hj =>
    cases h
    exact .goes hp (.wakeupEnd (by omega))

theorem act_cases (h : s.act p fault ch = some t) : PipeStep s p fault t := by
  unfold act at h
  split at h
  case h_1 => cases h
  case h_2 call hp =>
    split_ifs at h with hl
    cases h
    exact .acquire hp (.enter call) hl
  case h_3 hp =>
    cases h
    exact .close hp
  case h_4 hp => exact wakeupSlot_cases hp h
  case h_5 hp =>
    split_ifs at h
    cases h
    exact .sleep hp
  case h_6 hp =>
    cases h
    exact .sleepHeld hp
  case h_7 hp =>
    cases h
    exact .sleepSet hp
  case h_8 hp =>
    split_ifs at h with hr
    cases h
    exact .resume hp hr.1
  case h_9 loop hp =>
    split_ifs at h with hl
    cases h
    exact .acquire hp (.relock loop) hl
  case h_10 hp =>
    cases h
    exact .leave hp
  case h_11 hp => exact piperead_cases hp h
  case h_12 hp => exact piperead_cases hp h
  case h_13 hp => exact piperead_cases hp h
  case h_14 => exact pipewrite_cases rfl h

theorem step_cases (h : step s a = some t) :
    (∃ p call, a = .call p call ∧ s.pos p = .out ∧ t = s.goto p (.enter call)) ∨
    (∃ p fault ch, a = .step p fault ch ∧ PipeStep s p fault t) ∨
    (∃ p, a = .kill p ∧ s.plock p = false ∧ t = s.setProc p (s.proc p).kill) := by
  cases a with
  | call p call =>
    simp only [step] at h
    split_ifs at h with hp
    cases h
    exact .inl ⟨p, call, rfl, hp, rfl⟩
  | step p fault ch => exact .inr (.inl ⟨p, fault, ch, rfl, act_cases h⟩)
  | kill p =>
    simp only [step] at h
    split_ifs at h with hl
    cases h
    exact .inr (.inr ⟨p, rfl, by simpa using hl, rfl⟩)

theorem Goes.holds {b c : PipePos} (h : Goes s p b c) : b.holds = true ∧ c.holds = true := by
  cases h
  case wakeupEnd next _ => cases next <;> exact ⟨rfl, rfl⟩
  all_goals exact ⟨rfl, rfl⟩

theorem Acquires.holds {b c : PipePos} (h : Acquires b c) : b.holds = false ∧ c.holds = true := by
  cases h with
  | enter call => cases call <;> exact ⟨rfl, rfl⟩
  | relock loop => cases loop <;> exact ⟨rfl, rfl⟩

theorem PipeStep.moves (h : PipeStep s p fault t) : ∃ c, t.pos = update s.pos p c ∧
    ((s.pos p).holds = c.holds ∧ t.lock = s.lock ∨
      c.holds = true ∧ s.lock = none ∧ t.lock = some p ∨
      (s.pos p).holds = true ∧ c.holds = false ∧ t.lock = none) := by
  cases h with
  | goes hp hg => exact ⟨_, rfl, .inl ⟨by rw [hp, hg.holds.1, hg.holds.2], rfl⟩⟩
  | acquire hp hg hl => exact ⟨_, rfl, .inr (.inl ⟨hg.holds.2, hl, rfl⟩)⟩
  | store hp | deliver hp | drop hp | close hp | wakeup hp | sleep hp | sleepSet hp | resume hp =>
    exact ⟨_, rfl, .inl ⟨by rw [hp]; rfl, rfl⟩⟩
  | sleepHeld hp | leave hp => exact ⟨_, rfl, .inr (.inr ⟨by rw [hp]; rfl, rfl, rfl⟩)⟩

theorem PipeStep.pipe_eq (h : PipeStep s p fault t) (hp : (s.pos p).holds = false) :
    t.pipe = s.pipe := by
  cases h with
  | store hpos | deliver hpos | drop hpos | close hpos => rw [hpos] at hp; cases hp
  | _ => rfl

def HolderInv (s : PipeMachine n) : Prop := ∀ q, (s.pos q).holds = true ↔ s.lock = some q

theorem HolderInv.step (hs : HolderInv s) (h : step s a = some t) : HolderInv t := by
  obtain ⟨p, call, rfl, hp, rfl⟩ | ⟨p, fault, ch, rfl, hst⟩ | ⟨p, rfl, -, rfl⟩ := step_cases h
  · intro q
    by_cases hq : q = p
    · subst hq
      simpa [PipePos.holds, hp] using hs q
    · simpa [hq] using hs q
  · obtain ⟨c, hpos, hcase⟩ := hst.moves
    intro q
    rw [hpos]
    by_cases hq : q = p
    · subst hq
      have hself := hs q
      rcases hcase with ⟨hh, hl⟩ | ⟨hh, -, hl⟩ | ⟨-, hh, hl⟩
      · simp [hl, ← hself, hh]
      · simp [hl, hh]
      · simp [hl, hh]
    · have hother := hs q
      have hholder := hs p
      rw [update_of_ne hq, hother]
      rcases hcase with ⟨-, hl⟩ | ⟨-, hn, hl⟩ | ⟨hh, -, hl⟩
      · rw [hl]
      · simp [hn, hl, Ne.symm hq]
      · simp [hholder.mp hh, hl, Ne.symm hq]
  · exact hs

theorem holderInv_boot (data : Nat → UInt8) : HolderInv (boot n data) := by
  intro q
  simp [boot, PipePos.holds]

theorem HolderInv.others (hs : HolderInv s) (hp : (s.pos p).holds = true) (hq : q ≠ p) :
    (s.pos q).holds = false := by
  have hl := (hs p).mp hp
  by_contra hc
  have := (hs q).mp (by simpa using hc)
  rw [hl, Option.some.injEq] at this
  exact hq this.symm

end PipeMachine

end Xv6

import Xv6.Proc.OneCpu

/-!
# Where a frame comes from

`Enters` reads the text of `proc.c` backwards: for a position in `sleep`, `wakeup`, `fork`, `exit` or
`wait` it names the operation that leads there. An invariant about a position is then checked at this
operation, and against the operations of the other threads.
-/

namespace Xv6

open Function

def Op.frames {n : Nat} : Op n → List (Frame n)
  | .step _ fs _ => fs
  | .sched _ f => [f]
  | _ => []

def Op.events {n : Nat} (q : Option (Fin n)) : Op n → List (ProcEvent n)
  | .step (.acquire l) _ ev => ev ++ [.acquired q l]
  | .step (.release l) _ ev => ev ++ [.released q l]
  | .step _ _ ev => ev
  | .wake p lk call => [.sleepRet p call, .acquired q lk]
  | _ => []

/-- The slot whose record an effect stores into. -/
def Effect.slot {n : Nat} : Effect n → Option (Fin n)
  | .set i _ | .found i | .run i => some i
  | _ => Option.none

namespace Machine

variable {C : Type} [DecidableEq C] {n : Nat} [NeZero n] {m m' : Machine C n} {c : C}
  {f g : Frame n} {fs rest : List (Frame n)} {p i j : Fin n} {op : Op n}

/-- The channel on which `exit` wakes the parent. -/
def parentChan (m : Machine C n) (p : Fin n) : Chan n := (m.proc p).parent.elim .null .proc

/-- The operation `op` at frame `f` that puts the given frame on the stack. -/
def Enters (m : Machine C n) (c : C) (f : Frame n) (op : Op n) : Frame n → Prop
  -- sleep
  | .sleepLock p ch lk k =>
    k = m.trace.length ∧ lk ∈ f.locks ∧ m.cproc c = some p ∧
      ((∃ l, lk = .other l) ∨ lk = .wait ∧ ch = .proc p ∧ ∃ addr, f = .waitSleep p addr) ∧
      ∃ g, op = .step .none [.sleepLock p ch lk k, g] [.sleepCall p ch lk k]
  | .sleepUnlockLk p ch lk k =>
    f = .sleepLock p ch lk k ∧ op = .step (.acquire (.proc p)) [.sleepUnlockLk p ch lk k] []
  | .sleepSet p ch lk k =>
    f = .sleepUnlockLk p ch lk k ∧ op = .step (.release lk) [.sleepSet p ch lk k] []
  | .sleepSched p ch lk k =>
    f = .sleepSet p ch lk k ∧
      op = .step (.set p { m.proc p with chan := ch, state := .SLEEPING }) [.sleepSched p ch lk k] []
  | .sleepTidy p ch lk k => f = .sleepSched p ch lk k ∧ op = .sched p (.sleepTidy p ch lk k)
  | .sleepUnlock p ch lk k =>
    f = .sleepTidy p ch lk k ∧
      op = .step (.set p { m.proc p with chan := .null }) [.sleepUnlock p ch lk k] []
  | .sleepRelock p ch lk k =>
    f = .sleepUnlock p ch lk k ∧ op = .step (.release (.proc p)) [.sleepRelock p ch lk k] []
  -- wakeup
  | .wakeup ch i =>
    (i = 0 ∧ (∃ g, op.frames = [.wakeup ch 0, g])) ∨
      (∃ j h, f = .wakeup ch j ∧ i = j + 1 ∧ m.cproc c = some ⟨j, h⟩ ∧
        op = .step .none [.wakeup ch i] []) ∨
      ∃ j : Fin n, f = .wakeupUnlock ch j ∧ i = j + 1 ∧
        op = .step (.release (.proc j)) [.wakeup ch i] []
  | .wakeupSet ch i => f = .wakeup ch i ∧ op = .step (.acquire (.proc i)) [.wakeupSet ch i] []
  | .wakeupUnlock ch i =>
    f = .wakeupSet ch i ∧ op = .step (.set i ((m.proc i).wakeup ch)) [.wakeupUnlock ch i] []
  -- fork
  | .forkAlloc p np =>
    f = .forkTest p np ∧ (m.proc np).state = .UNUSED ∧ op = .step (.found np) [.forkAlloc p np] []
  | .forkCopy p np => f = .forkAlloc p np ∧ op = .step (.newContext np) [.forkCopy p np] []
  | .forkUnlock p np => f = .forkCopy p np ∧ op = .step .none [.forkUnlock p np] []
  | .forkLockWait p np =>
    f = .forkUnlock p np ∧ op = .step (.release (.proc np)) [.forkLockWait p np] []
  | .forkParent p np => f = .forkLockWait p np ∧ op = .step (.acquire .wait) [.forkParent p np] []
  | .forkUnlockWait p np =>
    f = .forkParent p np ∧
      op = .step (.set np { m.proc np with parent := some p }) [.forkUnlockWait p np]
        [.forked (m.life p) (m.life np) (m.proc np).pid]
  -- exit
  | .exitLockWait p _ => p ≠ initproc
  | .reparent p st i =>
    (i = 0 ∧ f = .exitLockWait p st ∧ op = .step (.acquire .wait) [.reparent p st i] []) ∨
      ∃ j h, f = .reparent p st j ∧ i = j + 1 ∧
        ((m.proc ⟨j, h⟩).parent ≠ some p ∧ op = .step .none [.reparent p st i] [] ∨
          (m.proc ⟨j, h⟩).parent = some p ∧
            op = .step (.set ⟨j, h⟩ { m.proc ⟨j, h⟩ with parent := some initproc })
              [.wakeup (.proc initproc) 0, .reparent p st i]
              [.wakeupCall (m.running c) (.proc initproc)])
  | .exitWakeup p st => ∃ i, n ≤ i ∧ f = .reparent p st i ∧ op = .step .none [.exitWakeup p st] []
  | .exitLock p st =>
    f = .exitWakeup p st ∧
      op = .step .none [.wakeup (m.parentChan p) 0, .exitLock p st]
        [.wakeupCall (m.running c) (m.parentChan p)]
  | .exitSet p st => f = .exitLock p st ∧ op = .step (.acquire (.proc p)) [.exitSet p st] []
  -- wait
  | .waitScan p addr i kids =>
    (i = 0 ∧ kids = false ∧ f = .waitLockWait p addr) ∨
      (∃ j h, f = .waitScan p addr j kids ∧ i = j + 1 ∧ (m.proc ⟨j, h⟩).parent ≠ some p ∧
        op = .step .none [.waitScan p addr i kids] []) ∨
      ∃ j : Fin n, f = .waitNext p addr j ∧ i = j + 1 ∧ kids = true ∧
        op = .step (.release (.proc j)) [.waitScan p addr i kids] []
  | .waitTest p addr i =>
    ∃ kids, f = .waitScan p addr i kids ∧ (m.proc i).parent = some p ∧
      op = .step (.acquire (.proc i)) [.waitTest p addr i] []
  | .waitNext p addr i =>
    f = .waitTest p addr i ∧ (m.proc i).state ≠ .ZOMBIE ∧ op = .step .none [.waitNext p addr i] []
  | .waitFail p i =>
    f = .waitTest p true i ∧ (m.proc i).state = .ZOMBIE ∧
      op = .step .none [.waitFail p i] [.copyoutFailed p (m.life i)]
  | .waitReaped p i pid =>
    ∃ addr, f = .waitTest p addr i ∧ (m.proc i).state = .ZOMBIE ∧ pid = (m.proc i).pid ∧
      op = .step (.set i (m.proc i).freeproc) [.waitReaped p i pid]
        [.reaped p (m.life p) (m.life i) (m.proc i).pid (m.proc i).xstate]
  | .waitKilled p addr =>
    ∃ i, n ≤ i ∧ f = .waitScan p addr i true ∧
      op = .step (.acquire (.proc p)) [.waitKilled p addr] []
  | .waitKilledUnlock p addr k =>
    f = .waitKilled p addr ∧ k = (m.proc p).killed ∧
      op = .step .none [.waitKilledUnlock p addr k] []
  | .waitSleep p addr =>
    f = .waitKilledUnlock p addr false ∧ op = .step (.release (.proc p)) [.waitSleep p addr] []
  | .waitAgain p addr => f = .waitSleep p addr
  | .waitRet p r =>
    (∃ addr i, n ≤ i ∧ f = .waitScan p addr i false ∧ r = -1 ∧ op = .step .none [.waitRet p r] []) ∨
      (∃ i, f = .waitFail p i ∧ r = -1 ∧ op = .step (.release (.proc i)) [.waitRet p r] []) ∨
      (∃ i, f = .waitReaped p i r ∧ op = .step (.release (.proc i)) [.waitRet p r] []) ∨
      ∃ addr, f = .waitKilledUnlock p addr true ∧ r = -1 ∧
        op = .step (.release (.proc p)) [.waitRet p r] []
  | _ => True

/-- The operation `op` at frame `f` that adds the given event to the history. -/
def Logs (m : Machine C n) (c : C) (f : Frame n) (op : Op n) : ProcEvent n → Prop
  | .acquired q l => q = m.running c ∧
      ((∃ fs, op = .step (.acquire l) fs []) ∨ ∃ p k, op = .wake p l k)
  | .released q l => q = m.running c ∧ ∃ fs ev, op = .step (.release l) fs ev
  | .sleepCall p ch lk k =>
    ∃ g, op = .step .none [.sleepLock p ch lk k, g] [.sleepCall p ch lk k]
  | .sleepRet p k => ∃ ch lk, f = .sleepRelock p ch lk k ∧ op = .wake p lk k
  | .wakeupCall q ch => q = m.running c ∧ ∃ e g, op = .step e [.wakeup ch 0, g] [.wakeupCall q ch]
  | .wakeupRet q ch =>
    q = m.running c ∧ ∃ i, n ≤ i ∧ f = .wakeup ch i ∧ op = .step .none [] [.wakeupRet q ch]
  | .forked a b pid =>
    ∃ p np, f = .forkParent p np ∧ a = m.life p ∧ b = m.life np ∧ pid = (m.proc np).pid ∧
      op = .step (.set np { m.proc np with parent := some p }) [.forkUnlockWait p np]
        [.forked a b pid]
  | .exited a st =>
    ∃ p, f = .exitSet p st ∧ a = m.life p ∧
      op = .step (.set p { m.proc p with xstate := st, state := .ZOMBIE }) [.exitUnlockWait p]
        [.exited a st]
  | .reaped p a b pid st =>
    ∃ addr i, f = .waitTest p addr i ∧ a = m.life p ∧ b = m.life i ∧ pid = (m.proc i).pid ∧
      st = (m.proc i).xstate ∧ (m.proc i).state = .ZOMBIE ∧
      op = .step (.set i (m.proc i).freeproc) [.waitReaped p i pid] [.reaped p a b pid st]
  | .copyoutFailed p b =>
    ∃ i, f = .waitTest p true i ∧ b = m.life i ∧ (m.proc i).state = .ZOMBIE ∧
      op = .step .none [.waitFail p i] [.copyoutFailed p b]
  | .waitRet p r => f = .waitRet p r ∧ op = .step (.release .wait) [] [.waitRet p r]

/-- What an operation puts on the stack and adds to the history is as `Enters` and `Logs` say. -/
structure Explained (m : Machine C n) (c : C) (f : Frame n) (op : Op n) : Prop where
  enters : ∀ g ∈ op.frames, Enters m c f op g
  logs : ∀ e ∈ op.events (m.running c), Logs m c f op e

section

omit [DecidableEq C]

namespace Explained

variable {l : Lock n} {e : Effect n} {ev : ProcEvent n}

theorem acquire (h : Enters m c f (.step (.acquire l) [g] []) g) :
    Explained m c f (.step (.acquire l) [g] []) :=
  ⟨List.forall_mem_singleton.mpr h, List.forall_mem_singleton.mpr ⟨rfl, Or.inl ⟨_, rfl⟩⟩⟩

theorem release (h : Enters m c f (.step (.release l) [g] []) g) :
    Explained m c f (.step (.release l) [g] []) :=
  ⟨List.forall_mem_singleton.mpr h, List.forall_mem_singleton.mpr ⟨rfl, _, _, rfl⟩⟩

theorem ret : Explained m c f (.step (.release l) [] []) :=
  ⟨List.forall_mem_nil _, List.forall_mem_singleton.mpr ⟨rfl, _, _, rfl⟩⟩

/-- An operation without an event. -/
theorem quiet (hev : op.events (m.running c) = []) (h : ∀ g ∈ op.frames, Enters m c f op g) :
    Explained m c f op := ⟨h, hev ▸ List.forall_mem_nil _⟩

theorem goto (hev : op.events (m.running c) = []) (hfs : op.frames = [g]) (h : Enters m c f op g) :
    Explained m c f op := quiet hev (hfs ▸ List.forall_mem_singleton.mpr h)

theorem call {k : Frame n} (hev : op.events (m.running c) = []) (hfs : op.frames = [g, k])
    (hg : Enters m c f op g) (hk : Enters m c f op k) : Explained m c f op :=
  quiet hev (hfs ▸ List.forall_mem_cons.mpr ⟨hg, List.forall_mem_singleton.mpr hk⟩)

/-- An operation with one event. -/
theorem event (hev : op.events (m.running c) = [ev]) (h : ∀ g ∈ op.frames, Enters m c f op g)
    (hlog : Logs m c f op ev) : Explained m c f op := ⟨h, hev ▸ List.forall_mem_singleton.mpr hlog⟩

end Explained

theorem text_explained {ok : Bool} (hself : ∀ q, f.self = some q → m.cproc c = some q)
    (h : m.text c ok f = some op) : Explained m c f op := by
  cases f with
  | wakeup ch i =>
    simp only [text] at h
    split_ifs at h with hi hmine <;> cases h
    · exact .goto rfl rfl (Or.inr (Or.inl ⟨i, hi, rfl, rfl, hmine, rfl⟩))
    · exact .acquire ⟨rfl, rfl⟩
    · exact .event rfl (List.forall_mem_nil _) ⟨rfl, i, not_lt.mp hi, rfl, rfl⟩
  | wakeupUnlock ch i =>
    cases h
    exact .release (Or.inr (Or.inr ⟨i, rfl, rfl, rfl⟩))
  | exitLockWait p st | waitLockWait p addr =>
    cases h
    exact .acquire (Or.inl ⟨rfl, rfl, rfl⟩)
  | reparent p st i =>
    simp only [text] at h
    split_ifs at h with hi hparent <;> cases h
    · refine .event rfl (List.forall_mem_cons.mpr ⟨Or.inl ⟨rfl, _, rfl⟩, List.forall_mem_singleton.mpr ?_⟩)
        ⟨rfl, _, _, rfl⟩
      exact Or.inr ⟨i, hi, rfl, rfl, Or.inr ⟨hparent, rfl⟩⟩
    · exact .goto rfl rfl (Or.inr ⟨i, hi, rfl, rfl, Or.inl ⟨hparent, rfl⟩⟩)
    · exact .goto rfl rfl ⟨i, not_lt.mp hi, rfl, rfl⟩
  | exitWakeup p st =>
    cases h
    exact .event rfl (List.forall_mem_cons.mpr ⟨Or.inl ⟨rfl, _, rfl⟩, List.forall_mem_singleton.mpr ⟨rfl, rfl⟩⟩)
      ⟨rfl, _, _, rfl⟩
  | exitSet p st =>
    cases h
    exact .event rfl (List.forall_mem_singleton.mpr trivial) ⟨p, rfl, rfl, rfl⟩
  | forkParent p np =>
    cases h
    exact .event rfl (List.forall_mem_singleton.mpr ⟨rfl, rfl⟩) ⟨p, np, rfl, rfl, rfl, rfl, rfl⟩
  | waitScan p addr i kids =>
    simp only [text] at h
    split_ifs at h with hi hparent hkids <;> cases h
    · exact .acquire ⟨kids, rfl, hparent, rfl⟩
    · exact .goto rfl rfl (Or.inr (Or.inl ⟨i, hi, rfl, rfl, hparent, rfl⟩))
    · exact .acquire ⟨i, not_lt.mp hi, by rw [hkids], rfl⟩
    · exact .goto rfl rfl (Or.inl ⟨addr, i, not_lt.mp hi, by rw [eq_false_of_ne_true hkids], rfl, rfl⟩)
  | waitTest p addr i =>
    simp only [text, waitTest, Option.some.injEq] at h
    split_ifs at h with hzombie haddr <;> subst h
    · have hf : Frame.waitTest p addr i = .waitTest p true i := by rw [haddr.1]
      exact .event rfl (List.forall_mem_singleton.mpr ⟨hf, hzombie, rfl⟩) ⟨i, hf, rfl, hzombie, rfl⟩
    · exact .event rfl (List.forall_mem_singleton.mpr ⟨addr, rfl, hzombie, rfl, rfl⟩)
        ⟨addr, i, rfl, rfl, rfl, rfl, rfl, hzombie, rfl⟩
    · exact .goto rfl rfl ⟨rfl, hzombie, rfl⟩
  | waitNext p addr i =>
    cases h
    exact .release (Or.inr (Or.inr ⟨i, rfl, rfl, rfl, rfl⟩))
  | waitFail p i =>
    cases h
    exact .release (Or.inr (Or.inl ⟨i, rfl, rfl, rfl⟩))
  | waitReaped p i pid =>
    cases h
    exact .release (Or.inr (Or.inr (Or.inl ⟨i, rfl, rfl⟩)))
  | waitKilled p addr =>
    cases h
    exact .goto rfl rfl ⟨rfl, rfl, rfl⟩
  | waitKilledUnlock p addr killed =>
    cases h
    cases killed
    · exact .release ⟨rfl, rfl⟩
    · exact .release (Or.inr (Or.inr (Or.inr ⟨addr, rfl, rfl, rfl⟩)))
  | waitSleep p addr =>
    cases h
    refine .event rfl (List.forall_mem_cons.mpr ⟨?_, List.forall_mem_singleton.mpr rfl⟩) ⟨_, rfl⟩
    exact ⟨rfl, by simp [Frame.locks], hself p rfl, Or.inr ⟨rfl, rfl, addr, rfl⟩, _, rfl⟩
  | waitRet p r =>
    cases h
    exact ⟨List.forall_mem_nil _, List.forall_mem_cons.mpr ⟨⟨rfl, rfl⟩,
      List.forall_mem_singleton.mpr ⟨rfl, _, _, rfl⟩⟩⟩
  | sleepRelock p ch lk call =>
    cases h
    exact ⟨List.forall_mem_nil _, List.forall_mem_cons.mpr ⟨⟨ch, lk, rfl, rfl⟩,
      List.forall_mem_singleton.mpr ⟨rfl, Or.inr ⟨p, call, rfl⟩⟩⟩⟩
  | forkTest p i =>
    simp only [text] at h
    split_ifs at h with hunused <;> cases h
    · exact .goto rfl rfl ⟨rfl, hunused, rfl⟩
    · exact .goto rfl rfl trivial
  | kill pid i | killTest pid i | forkScan p i | forkAlloc p np | forkCopy p np | sched i | schedTest i =>
    simp only [text] at h
    split_ifs at h <;> cases h <;>
      first
      | exact .acquire trivial
      | exact .goto rfl rfl trivial
      | exact .goto rfl rfl ⟨rfl, rfl⟩
      | exact .quiet rfl (List.forall_mem_nil _)
  | killUnlock pid i found =>
    cases h
    cases found
    · exact .release trivial
    · exact .ret
  | forkret p =>
    simp only [text, hself p rfl, Option.map_some, Option.some.injEq] at h
    subst h
    exact .release trivial
  | code k held | waitAgain p addr => cases h
  | yieldUnlock p | setkilledUnlock p | forkUndo p np | forkDone p np =>
    cases h
    exact .ret
  | zombie p | schedSwtch i =>
    cases h
    exact .quiet rfl (List.forall_mem_nil _)
  | sleepLock p ch lk call | exitLock p st | forkLockWait p np =>
    cases h
    exact .acquire ⟨rfl, rfl⟩
  | sleepUnlockLk p ch lk call | sleepUnlock p ch lk call | forkUnlock p np =>
    cases h
    exact .release ⟨rfl, rfl⟩
  | sleepSet p ch lk call | sleepSched p ch lk call | sleepTidy p ch lk call | wakeupSet ch i =>
    cases h
    exact .goto rfl rfl ⟨rfl, rfl⟩
  | _ =>
    cases h
    first
    | exact .acquire trivial
    | exact .release trivial
    | exact .goto rfl rfl trivial

theorem callCode_explained {k : CodeKind} {held : List Nat} {ch : Choice n}
    (h : m.callCode c k held ch = some op) : Explained m c (.code k held) op := by
  cases ch with
  | acquire l =>
    cases h
    exact .acquire trivial
  | wakeup chan =>
    cases h
    exact .event rfl (List.forall_mem_cons.mpr ⟨Or.inl ⟨rfl, _, rfl⟩, List.forall_mem_singleton.mpr trivial⟩)
      ⟨rfl, _, _, rfl⟩
  | release l =>
    simp only [callCode] at h
    split_ifs at h
    cases h
    exact .release trivial
  | ret =>
    simp only [callCode] at h
    split_ifs at h
    cases h
    exact .quiet rfl (List.forall_mem_nil _)
  | kill pid =>
    simp only [callCode] at h
    split_ifs at h
    cases h
    exact .call rfl rfl trivial trivial
  | yield =>
    obtain ⟨p, hp, rfl⟩ := Option.map_eq_some_iff.mp h
    exact .call rfl rfl trivial trivial
  | sleep chan l =>
    simp only [callCode] at h
    split_ifs at h with hl
    obtain ⟨p, hp, rfl⟩ := Option.map_eq_some_iff.mp h
    refine .event rfl (List.forall_mem_cons.mpr ⟨?_, List.forall_mem_singleton.mpr trivial⟩) ⟨_, rfl⟩
    exact ⟨rfl, List.mem_map_of_mem hl.2, hp, Or.inl ⟨l, rfl⟩, _, rfl⟩
  | setkilled | fork | wait addr =>
    simp only [callCode] at h
    split_ifs at h
    obtain ⟨p, hp, rfl⟩ := Option.map_eq_some_iff.mp h
    exact .call rfl rfl trivial trivial
  | go | fail | interrupt | exit status => simp [callCode] at h

theorem callExit_explained {held : List Nat} {status : Int32} (h : m.callExit c held status = some op) :
    Explained m c (.code .main held) op := by
  obtain ⟨p, hp, rfl⟩ := Option.map_eq_some_iff.mp h
  split_ifs with hinit
  · exact .quiet rfl (List.forall_mem_nil _)
  · exact .quiet rfl (List.forall_mem_cons.mpr ⟨trivial,
      List.forall_mem_cons.mpr ⟨hinit, List.forall_mem_singleton.mpr trivial⟩⟩)

/-- An operation is explained, or it is an interrupt, which leaves the frame it has stopped on the stack. -/
theorem code_explained {ch : Choice n} (hself : ∀ q, f.self = some q → m.cproc c = some q)
    (h : m.code c f ch = some op) :
    op = .step .none [.code .intr [], f] [] ∧ m.noff c = 0 ∨ Explained m c f op := by
  rcases code_cases h with ⟨hnoff, rfl⟩ | ⟨ok, ht⟩ | ⟨held, status, rfl, he⟩ | ⟨k, held, rfl, hc⟩
  · exact Or.inl ⟨rfl, hnoff⟩
  · exact Or.inr (text_explained hself ht)
  · exact Or.inr (callExit_explained he)
  · exact Or.inr (callCode_explained hc)

end

/-! ### What an operation changes -/

def stored (m : Machine C n) : Effect n → Proc n → Proc n
  | .set _ r, _ => r
  | .found _, r => r.found m.nextpid
  | .run _, r => { r with state := .RUNNING }
  | _, r => r

omit [NeZero n] in
theorem store_proc_self {e : Effect n} (h : e.slot = some j) :
    (m.store c e).proc j = m.stored e (m.proc j) := by
  cases e <;> cases h <;> exact update_self ..

omit [NeZero n] in
theorem store_proc_of_ne {e : Effect n} (h : e.slot ≠ some j) : (m.store c e).proc j = m.proc j := by
  cases e with
  | set i r | found i | run i => exact update_of_ne (fun hij => h (congrArg some hij.symm)) ..
  | _ => rfl

/-- CPU `c`, with top frame `f` above `rest`, executes `op` and the machine becomes `m'`. -/
structure Does (m : Machine C n) (c : C) (f : Frame n) (rest : List (Frame n)) (op : Op n)
    (m' : Machine C n) : Prop where
  inv : SwitchInv m
  inv' : SwitchInv m'
  live : m.live c = f :: rest
  code : ∃ ch, m.code c f ch = some op
  ok : m'.panic = none
  result : Result m c f rest op m'

theorem SwitchInv.does (h : SwitchInv m) {a : C × Choice n} (hstep : m.step a = some m') :
    (∃ e, m' = m.fail e) ∨ ∃ f rest op, Does m a.1 f rest op m' := by
  obtain ⟨f, rest, op, hpanic, hlive, hop, hres⟩ := h.step_result hstep
  by_cases hfail : ∃ e, m' = m.fail e
  · exact Or.inl hfail
  · refine Or.inr ⟨f, rest, op, h, h.step hstep, hlive, ⟨a.2, hop⟩, ?_, hres⟩
    cases hres with
    | fail op e => exact absurd ⟨e, rfl⟩ hfail
    | quiet | acquire | release | exitUnlockWait | wake | sched => exact setLive_panic.trans hpanic
    | store e fs ev hst =>
      refine setLive_panic.trans ?_
      cases hst <;> exact hpanic
    | swtch => exact hpanic

/-- Frame `g` of the stack of `p` is not the one that CPU `c` moves on from. -/
def Kept (m : Machine C n) (c : C) (f : Frame n) (rest : List (Frame n)) (op : Op n) (p : Fin n)
    (g : Frame n) : Prop :=
  m.running c ≠ some p ∧ g ∈ m.kstack p ∨
    m.running c = some p ∧
      (g ∈ rest ∨ g = f ∧ op = .step .none [.code .intr [], f] [] ∧ m.noff c = 0)

namespace Does

variable (hd : Does m c f rest op m')

include hd

theorem locked {l : Lock n} (hl : l ∈ f.locks) : m.lock l = some c := by
  rw [hd.inv.lock.lock_iff, held_of_live hd.live]
  exact List.mem_append_left _ hl

theorem kstack_eq (hp : m.running c = some p) : m.kstack p = f :: rest := by
  rw [← live_of_running hp, hd.live]

theorem kstack_self (hp : m.running c = some p) :
    m'.kstack p = op.frames ++ rest ∨
      ∃ ch lk k g gs, f = .sleepRelock p ch lk k ∧ op = .wake p lk k ∧ rest = g :: gs ∧
        g.accepts lk ∧ m'.kstack p = g.give lk :: gs := by
  have hthread := hd.inv.thread
  obtain ⟨-, -, hlive, -, hok, hres⟩ := hd
  cases hres with
  | fail op e => exact absurd hok (by simp [fail])
  | quiet | sched => exact Or.inl (setLive_kstack_self hp)
  | acquire l => exact Or.inl (setLive_kstack_self hp)
  | release l => exact Or.inl (setLive_kstack_self hp)
  | exitUnlockWait => exact Or.inl (setLive_kstack_self hp)
  | store e fs ev hst =>
    exact Or.inl (setLive_kstack_self (by cases hst <;> exact hp))
  | wake q ch lk k hf =>
    subst hf
    obtain rfl := Option.some.inj (hp.symm.trans (hthread.running_of_self hlive rfl))
    have hcallers := hthread.callers p
    rw [← live_of_running hp, hlive] at hcallers
    obtain ⟨g, hhead, haccepts⟩ := hcallers.1.returns lk rfl
    obtain ⟨gs, rfl⟩ := List.head?_eq_some_iff.mp hhead
    exact Or.inr ⟨ch, lk, k, g, gs, rfl, rfl, rfl, haccepts,
      setLive_kstack_self hp⟩
  | swtch i hf =>
    subst hf
    rw [(hthread.idle_of_isSched hlive rfl).1] at hp
    cases hp

theorem kstack_of_ne (hp : m.running c ≠ some p) :
    m'.kstack p = m.kstack p ∨ (∃ q, f = .forkAlloc q p) ∧ m'.kstack p = [.forkret p] :=
  hd.inv.kstack_of_ne hd.live hd.result hp

theorem enters (hg : g ∈ op.frames) :
    g = f ∧ op = .step .none [.code .intr [], f] [] ∧ m.noff c = 0 ∨ Enters m c f op g := by
  obtain ⟨_, hcode⟩ := hd.code
  rcases code_explained (hd.inv.thread.top_self hd.live) hcode with ⟨rfl, hnoff⟩ | hex
  · rcases List.mem_pair.mp hg with rfl | rfl
    · exact Or.inr trivial
    · exact Or.inl ⟨rfl, rfl, hnoff⟩
  · exact Or.inr (hex.enters g hg)

theorem logs {e : ProcEvent n} (he : e ∈ op.events (m.running c)) : Logs m c f op e := by
  obtain ⟨_, hcode⟩ := hd.code
  rcases code_explained (hd.inv.thread.top_self hd.live) hcode with ⟨rfl, -⟩ | hex
  · cases he
  · exact hex.logs e he

theorem mem_of_kept (hg : Kept m c f rest op p g) : g ∈ m.kstack p := by
  rcases hg with ⟨-, hmem⟩ | ⟨hp, hmem | ⟨rfl, -⟩⟩
  · exact hmem
  · exact hd.kstack_eq hp ▸ List.mem_cons_of_mem _ hmem
  · exact hd.kstack_eq hp ▸ List.mem_cons_self

theorem frame (hg : g ∈ m'.kstack p) :
    Kept m c f rest op p g ∨
      (m.running c = some p ∧ g ∈ op.frames ∧ Enters m c f op g) ∨
      (∃ ch lk k gs e, m.running c = some p ∧ f = .sleepRelock p ch lk k ∧ op = .wake p lk k ∧
        rest = e :: gs ∧ e.accepts lk ∧ g = e.give lk) ∨
      ∃ q, f = .forkAlloc q p ∧ g = .forkret p := by
  by_cases hp : m.running c = some p
  · rcases hd.kstack_self hp with hk | ⟨ch, lk, k, e, gs, hf, hop, hrest, he, hk⟩
    · rw [hk] at hg
      rcases List.mem_append.mp hg with hg | hg
      · rcases hd.enters hg with hintr | henters
        · exact Or.inl (Or.inr ⟨hp, Or.inr hintr⟩)
        · exact Or.inr (Or.inl ⟨hp, hg, henters⟩)
      · exact Or.inl (Or.inr ⟨hp, Or.inl hg⟩)
    · rw [hk] at hg
      rcases List.mem_cons.mp hg with rfl | hg
      · exact Or.inr (Or.inr (Or.inl ⟨ch, lk, k, gs, e, hp, hf, hop, hrest, he, rfl⟩))
      · exact Or.inl (Or.inr ⟨hp, Or.inl (hrest ▸ List.mem_cons_of_mem _ hg)⟩)
  · rcases hd.kstack_of_ne hp with hk | ⟨⟨q, hf⟩, hk⟩
    · exact Or.inl (Or.inl ⟨hp, hk ▸ hg⟩)
    · rw [hk] at hg
      exact Or.inr (Or.inr (Or.inr ⟨q, hf, List.mem_singleton.mp hg⟩))

theorem trace : m'.trace = op.events (m.running c) ++ m.trace := by
  obtain ⟨-, -, -, -, hok, hres⟩ := hd
  cases hres with
  | fail op e => exact absurd hok (by simp [fail])
  | quiet fs ev => simp [log, Op.events]
  | acquire l fs ev | wake p ch lk k => simp [log, Op.events, take]
  | release l fs ev | exitUnlockWait p => simp [log, Op.events, drop]
  | store e fs ev hst => cases hst <;> simp [log, Op.events, store, setProc]
  | sched p g => simp [Op.events]
  | swtch i => rfl

theorem mem_trace {e : ProcEvent n} (he : e ∈ m.trace) : e ∈ m'.trace := by
  rw [hd.trace]
  exact List.mem_append_right _ he

theorem proc :
    m'.proc = m.proc ∨ ∃ e fs ev, op = .step e fs ev ∧ Store m f e fs ∧
      m'.proc = (m.store c e).proc := by
  obtain ⟨-, -, -, -, -, hres⟩ := hd
  cases hres with
  | fail | swtch => exact Or.inl rfl
  | quiet | acquire | release | exitUnlockWait | wake | sched => exact Or.inl setLive_proc
  | store e fs ev hst => exact Or.inr ⟨e, fs, ev, rfl, hst, setLive_proc⟩

theorem proc_eq {e : Effect n} {ev : List (ProcEvent n)}
    (hop : op = .step e fs ev) (he : e.slot = none) : m'.proc = m.proc := by
  rcases hd.proc with heq | ⟨e', fs', ev', hop', -, heq⟩
  · exact heq
  · rw [hop] at hop'
    cases hop'
    funext j
    rw [heq, store_proc_of_ne (by simp [he])]

theorem proc_set {r : Proc n} {ev : List (ProcEvent n)}
    (hop : op = .step (.set i r) fs ev) : m'.proc = update m.proc i r := by
  subst hop
  obtain ⟨-, -, -, -, hok, hres⟩ := hd
  cases hres with
  | fail op e => exact absurd hok (by simp [fail])
  | store => exact setLive_proc

/-- While a CPU runs a process, this is its `c->proc`. -/
theorem cproc_of_running {d : C} (hp : m.running d = some p) : m'.cproc d = some p := by
  have hcproc := hd.inv.thread.running_cproc d p hp
  obtain ⟨h, -, hlive, -, -, hres⟩ := hd
  -- the scheduler changes `c->proc` of its own CPU only, and that runs no process
  have hne : f.isSched = true → d ≠ c := by
    rintro hf rfl
    rw [(h.thread.idle_of_isSched hlive hf).1] at hp
    cases hp
  cases hres with
  | fail | swtch => exact hcproc
  | quiet | acquire | release | exitUnlockWait | wake | sched =>
    exact (congrFun setLive_cproc d).trans hcproc
  | store e fs ev hst =>
    refine (congrFun setLive_cproc d).trans ?_
    cases hst with
    | run | idle => exact (update_of_ne (hne rfl) ..).trans hcproc
    | _ => exact hcproc

theorem lock (l : Lock n) :
    m'.lock l = m.lock l ∨
      (m'.lock l = some c ∧ m.lock l = none ∧ .acquired (m.running c) l ∈ op.events (m.running c)) ∨
      m'.lock l = none ∧ m.lock l = some c ∧ .released (m.running c) l ∈ op.events (m.running c) := by
  have hlocked : ∀ {k}, k ∈ f.locks → m.lock k = some c := fun hk => hd.locked hk
  obtain ⟨-, -, -, -, -, hres⟩ := hd
  cases hres with
  | fail | swtch => exact Or.inl rfl
  | quiet | sched => exact Or.inl (congrFun setLive_lock l)
  | store e fs ev hst =>
    refine Or.inl ((congrFun setLive_lock l).trans ?_)
    cases hst <;> rfl
  | acquire k fs ev hfree | wake p ch k call hf hfree =>
    by_cases hl : l = k
    · subst hl
      refine Or.inr (Or.inl ⟨(congrFun setLive_lock l).trans (update_self ..), hfree, ?_⟩)
      simp [Op.events]
    · exact Or.inl ((congrFun setLive_lock l).trans (update_of_ne hl ..))
  | release k fs ev hlocks =>
    by_cases hl : l = k
    · subst hl
      refine Or.inr (Or.inr ⟨(congrFun setLive_lock l).trans (update_self ..),
        hlocked (hlocks.mem_iff.mpr List.mem_cons_self), ?_⟩)
      simp [Op.events]
    · exact Or.inl ((congrFun setLive_lock l).trans (update_of_ne hl ..))
  | exitUnlockWait p hf =>
    by_cases hl : l = .wait
    · subst hl hf
      refine Or.inr (Or.inr ⟨(congrFun setLive_lock _).trans (by simp [drop]),
        hlocked (by simp [Frame.locks]), ?_⟩)
      simp [Op.events]
    · exact Or.inl ((congrFun setLive_lock l).trans (update_of_ne hl ..))

theorem acquired {l : Lock n} {q : Option (Fin n)}
    (h : .acquired q l ∈ op.events (m.running c)) :
    q = m.running c ∧ m'.lock l = some c ∧ m'.running c = m.running c := by
  obtain ⟨hq, hop⟩ := hd.logs h
  refine ⟨hq, ?_⟩
  obtain ⟨-, -, -, -, hok, hres⟩ := hd
  rcases hop with ⟨fs, rfl⟩ | ⟨p, k, rfl⟩
  · cases hres with
    | fail op e => exact absurd hok (by simp [fail])
    | acquire => exact ⟨(congrFun setLive_lock l).trans (update_self ..), congrFun setLive_running c⟩
    | store _ _ _ hst => cases hst
  · cases hres with
    | fail op e => exact absurd hok (by simp [fail])
    | wake => exact ⟨(congrFun setLive_lock l).trans (update_self ..), congrFun setLive_running c⟩

theorem running_of_lock {d : C} {l : Lock n} (hl : m.lock l = some d)
    (hproc : ∀ q, l ≠ .proc q) : m'.running d = m.running d := by
  obtain ⟨h, -, hlive, -, -, hres⟩ := hd
  cases hres with
  | fail => rfl
  | quiet | acquire | release | exitUnlockWait | wake => exact congrFun setLive_running d
  | store e fs ev hst =>
    refine (congrFun setLive_running d).trans ?_
    cases hst <;> rfl
  | sched p g hfg hnoff =>
    refine update_of_ne ?_ ..
    rintro rfl
    -- `sched` needs `noff = 1`, and `p->lock` is held
    have hheld := h.lock.held_eq ((h.lock.lock_iff d (.proc p)).mpr (by
      rw [held_of_live hlive, stackLocks_cons, hfg.locks]
      exact List.mem_cons_self)) hnoff
    have hmem := (h.lock.lock_iff d l).mp hl
    rw [hheld] at hmem
    exact hproc p (List.mem_singleton.mp hmem)
  | swtch i hf =>
    subst hf
    refine update_of_ne ?_ ..
    rintro rfl
    obtain ⟨-, -, rfl, -⟩ := h.thread.idle_of_isSched hlive rfl
    have hmem := (h.lock.lock_iff d l).mp hl
    rw [held_of_live hlive] at hmem
    exact hproc i (List.mem_singleton.mp hmem)

end Does

end Machine

end Xv6

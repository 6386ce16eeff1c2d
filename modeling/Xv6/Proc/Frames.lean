import Mathlib.Data.List.Perm.Basic
import Xv6.Proc.Machine

/-!
# What a frame says

Annotations of the positions in `proc.c`: the locks that a thread holds there, the process it runs
for, the slot it is building. `code_result` says once what an operation can do to the top frame in
terms of these annotations.
-/

namespace Xv6

open Function

namespace Frame

variable {n : Nat}

def locks : Frame n → List (Lock n)
  | .code _ held => held.map .other
  | .yieldLock _ => []
  | .yieldSet p | .yieldSched p | .yieldUnlock p => [.proc p]
  | .sleepLock _ _ lk _ => [lk]
  | .sleepUnlockLk p _ lk _ => [.proc p, lk]
  | .sleepSet p _ _ _ | .sleepSched p _ _ _ | .sleepTidy p _ _ _ | .sleepUnlock p _ _ _ => [.proc p]
  | .sleepRelock _ _ _ _ => []
  | .wakeup _ _ => []
  | .wakeupSet _ i | .wakeupUnlock _ i => [.proc i]
  | .kill _ _ => []
  | .killTest _ i | .killUnlock _ i _ => [.proc i]
  | .setkilledLock _ => []
  | .setkilled p | .setkilledUnlock p => [.proc p]
  | .forkScan _ _ | .forkLockWait _ _ | .forkRelock _ _ => []
  | .forkTest _ i | .forkSkip _ i => [.proc i]
  | .forkAlloc _ np | .forkCopy _ np | .forkUndo _ np | .forkUnlock _ np | .forkSet _ np
  | .forkDone _ np => [.proc np]
  | .forkParent _ _ | .forkUnlockWait _ _ => [.wait]
  | .exitLockWait _ _ => []
  | .reparent _ _ _ | .exitWakeup _ _ | .exitLock _ _ => [.wait]
  | .exitSet p _ | .exitUnlockWait p => [.proc p, .wait]
  | .exitSched p | .zombie p => [.proc p]
  | .waitLockWait _ _ | .waitAgain _ _ => []
  | .waitScan _ _ _ _ | .waitSleep _ _ | .waitRet _ _ => [.wait]
  | .waitTest _ _ i | .waitNext _ _ i | .waitFail _ i | .waitReaped _ i _ => [.proc i, .wait]
  | .waitKilled p _ | .waitKilledUnlock p _ _ => [.proc p, .wait]
  | .forkret p => [.proc p]
  | .schedTop | .sched _ => []
  | .schedTest i | .schedSwtch i | .schedBack i | .schedUnlock i => [.proc i]

def self : Frame n → Option (Fin n)
  | .yieldLock p | .yieldSet p | .yieldSched p | .yieldUnlock p => some p
  | .sleepLock p _ _ _ | .sleepUnlockLk p _ _ _ | .sleepSet p _ _ _ | .sleepSched p _ _ _
  | .sleepTidy p _ _ _ | .sleepUnlock p _ _ _ | .sleepRelock p _ _ _ => some p
  | .setkilledLock p | .setkilled p | .setkilledUnlock p => some p
  | .forkScan p _ | .forkTest p _ | .forkSkip p _ | .forkAlloc p _ | .forkCopy p _ | .forkUndo p _
  | .forkUnlock p _ | .forkLockWait p _ | .forkParent p _ | .forkUnlockWait p _ | .forkRelock p _
  | .forkSet p _ | .forkDone p _ => some p
  | .exitLockWait p _ | .reparent p _ _ | .exitWakeup p _ | .exitLock p _ | .exitSet p _
  | .exitUnlockWait p | .exitSched p | .zombie p => some p
  | .waitLockWait p _ | .waitScan p _ _ _ | .waitTest p _ _ | .waitNext p _ _ | .waitFail p _
  | .waitReaped p _ _ | .waitKilled p _ | .waitKilledUnlock p _ _ | .waitSleep p _ | .waitAgain p _
  | .waitRet p _ => some p
  | .forkret p => some p
  | _ => none

/-- The slot that `fork` has claimed and not yet made runnable. -/
def builds : Frame n → Option (Fin n)
  | .forkAlloc _ np | .forkCopy _ np | .forkUnlock _ np | .forkLockWait _ np | .forkParent _ np
  | .forkUnlockWait _ np | .forkRelock _ np | .forkSet _ np => some np
  | _ => none

/-- The slot that `fork` is building, once its `context` is set. -/
def built : Frame n → Option (Fin n)
  | .forkCopy _ np | .forkUnlock _ np | .forkLockWait _ np | .forkParent _ np
  | .forkUnlockWait _ np | .forkRelock _ np | .forkSet _ np => some np
  | _ => none

def leaves : Frame n → Bool
  | .yieldSched _ | .sleepSched _ _ _ _ | .exitUnlockWait _ | .exitSched _ => true
  | _ => false

/-- Where a process that was switched out goes on. -/
def resumes : Frame n → Bool
  | .yieldUnlock _ | .sleepTidy _ _ _ _ | .zombie _ | .forkret _ => true
  | _ => false

def isSched : Frame n → Bool
  | .schedTop | .sched _ | .schedTest _ | .schedSwtch _ | .schedBack _ | .schedUnlock _ => true
  | _ => false

def isIntr : Frame n → Bool
  | .code .intr _ | .wakeup _ _ | .wakeupSet _ _ | .wakeupUnlock _ _ => true
  | _ => false

/-- The process that the scheduler has put into `c->proc`. -/
def chosen : Frame n → Option (Fin n)
  | .schedSwtch i | .schedBack i => some i
  | _ => none

/-- The lock that `sleep` takes back before it returns. -/
def sleeps : Frame n → Option (Lock n)
  | .sleepLock _ _ lk _ | .sleepUnlockLk _ _ lk _ | .sleepSet _ _ lk _ | .sleepSched _ _ lk _
  | .sleepTidy _ _ lk _ | .sleepUnlock _ _ lk _ | .sleepRelock _ _ lk _ => some lk
  | _ => none

/-- Frames that may stand above `sleep`: those of an interrupt and of `yield`. -/
def covers : Frame n → Bool
  | .code .intr _ | .wakeup _ _ | .wakeupSet _ _ | .wakeupUnlock _ _ => true
  | .yieldLock _ | .yieldSet _ | .yieldSched _ | .yieldUnlock _ => true
  | _ => false

/-- A caller of `sleep(ch, lk)`. -/
def accepts (lk : Lock n) : Frame n → Prop
  | .code _ _ => ∃ l, lk = .other l
  | .waitAgain _ _ => lk = .wait
  | _ => False

/-- The frame of `wait` below its call of `sleep`. -/
def isAgain : Frame n → Bool
  | .waitAgain _ _ => true
  | _ => false

/-- Frame `f` may stand above the frames `rest`: `sleep` returns to a caller that expects the lock,
only an interrupt or `yield` stands above `sleep`, and a sleeping `wait` is right below `sleep`. -/
structure Over (f : Frame n) (rest : List (Frame n)) : Prop where
  returns : ∀ lk, f.sleeps = some lk → ∃ g, rest.head? = some g ∧ g.accepts lk
  covered : f.covers = true ∨ ∀ g ∈ rest, g.sleeps = none
  again : f.covers = true ∨ (∀ g ∈ rest, g.isAgain = false) ∨
    f.sleeps = some .wait ∧ ∀ g ∈ rest.tail, g.isAgain = false

theorem Over.of_same {f g : Frame n} {rest : List (Frame n)} (h : f.Over rest)
    (hsleeps : g.sleeps = f.sleeps) (hcovers : g.covers = f.covers) : g.Over rest :=
  ⟨hsleeps ▸ h.returns, hcovers ▸ h.covered, by rw [hsleeps, hcovers]; exact h.again⟩

end Frame

/-- Every frame of a stack may stand above those below it. -/
def CallersOk {n : Nat} : List (Frame n) → Prop
  | [] => True
  | f :: rest => f.Over rest ∧ CallersOk rest

def stackLocks {n : Nat} (fs : List (Frame n)) : List (Lock n) := fs.flatMap Frame.locks

def stackBuilds {n : Nat} (fs : List (Frame n)) : List (Fin n) := fs.filterMap Frame.builds

section

variable {n : Nat}

@[simp] theorem stackLocks_nil : stackLocks ([] : List (Frame n)) = [] := rfl

@[simp] theorem stackLocks_cons (f : Frame n) (fs : List (Frame n)) :
    stackLocks (f :: fs) = f.locks ++ stackLocks fs := rfl

@[simp] theorem stackLocks_append (fs gs : List (Frame n)) :
    stackLocks (fs ++ gs) = stackLocks fs ++ stackLocks gs := List.flatMap_append

@[simp] theorem stackBuilds_nil : stackBuilds ([] : List (Frame n)) = [] := rfl

theorem stackBuilds_cons (f : Frame n) (fs : List (Frame n)) :
    stackBuilds (f :: fs) = f.builds.toList ++ stackBuilds fs := by
  unfold stackBuilds
  rw [List.filterMap_cons]
  cases f.builds <;> rfl

@[simp] theorem stackBuilds_append (fs gs : List (Frame n)) :
    stackBuilds (fs ++ gs) = stackBuilds fs ++ stackBuilds gs := List.filterMap_append

theorem mem_stackBuilds {fs : List (Frame n)} {i : Fin n} :
    i ∈ stackBuilds fs ↔ ∃ f ∈ fs, f.builds = some i := List.mem_filterMap

end

/-- The locks of the frames `fs` that take the place of `f`, by the effect of the operation. -/
def Effect.Balances {n : Nat} : Effect n → Frame n → List (Frame n) → Prop
  | .none, f, fs => (stackLocks fs).Perm f.locks
  | .acquire l, f, fs => (stackLocks fs).Perm (l :: f.locks)
  | .release l, f, fs => f.locks.Perm (l :: stackLocks fs)
  | _, _, _ => False

namespace Machine

variable {C : Type} [DecidableEq C] {n : Nat} [NeZero n] {m : Machine C n} {c : C} {f : Frame n}

/-! ### Stores -/

/-- The stores that the functions make, with the frame before and after. -/
inductive Store (m : Machine C n) : Frame n → Effect n → List (Frame n) → Prop where
  | yieldSet (p : Fin n) :
      Store m (.yieldSet p) (.set p { m.proc p with state := .RUNNABLE }) [.yieldSched p]
  | sleepSet (p : Fin n) (ch : Chan n) (lk : Lock n) (call : Nat) :
      Store m (.sleepSet p ch lk call) (.set p { m.proc p with chan := ch, state := .SLEEPING })
        [.sleepSched p ch lk call]
  | sleepTidy (p : Fin n) (ch : Chan n) (lk : Lock n) (call : Nat) :
      Store m (.sleepTidy p ch lk call) (.set p { m.proc p with chan := .null })
        [.sleepUnlock p ch lk call]
  | wakeup (ch : Chan n) (i : Fin n) :
      Store m (.wakeupSet ch i) (.set i ((m.proc i).wakeup ch)) [.wakeupUnlock ch i]
  | kill (pid : Int32) (i : Fin n) (h : (m.proc i).pid = pid) :
      Store m (.killTest pid i) (.set i (m.proc i).kill) [.killUnlock pid i true]
  | setkilled (p : Fin n) :
      Store m (.setkilled p) (.set p { m.proc p with killed := true }) [.setkilledUnlock p]
  | found (p i : Fin n) (h : (m.proc i).state = .UNUSED) :
      Store m (.forkTest p i) (.found i) [.forkAlloc p i]
  | newContext (p np : Fin n) : Store m (.forkAlloc p np) (.newContext np) [.forkCopy p np]
  | undo (p np : Fin n) (f : Frame n) (hf : f = .forkAlloc p np ∨ f = .forkCopy p np) :
      Store m f (.set np (m.proc np).freeproc) [.forkUndo p np]
  | forkParent (p np : Fin n) :
      Store m (.forkParent p np) (.set np { m.proc np with parent := some p }) [.forkUnlockWait p np]
  | forkSet (p np : Fin n) :
      Store m (.forkSet p np) (.set np { m.proc np with state := .RUNNABLE }) [.forkDone p np]
  | reparent (p : Fin n) (status : Int32) (i : Fin n) (h : (m.proc i).parent = some p) :
      Store m (.reparent p status i) (.set i { m.proc i with parent := some initproc })
        [.wakeup (.proc initproc) 0, .reparent p status (i + 1)]
  | exitSet (p : Fin n) (status : Int32) :
      Store m (.exitSet p status) (.set p { m.proc p with xstate := status, state := .ZOMBIE })
        [.exitUnlockWait p]
  | reap (p : Fin n) (addr : Bool) (i : Fin n) (h : (m.proc i).state = .ZOMBIE) :
      Store m (.waitTest p addr i) (.set i (m.proc i).freeproc) [.waitReaped p i (m.proc i).pid]
  | run (i : Fin n) (h : (m.proc i).state = .RUNNABLE) :
      Store m (.schedTest i) (.run i) [.schedSwtch i]
  | idle (i : Fin n) : Store m (.schedBack i) .idle [.schedUnlock i]

/-- A move from frame `f` to frames `fs` that stays on its stack: `fs` runs for the same process, and
is a scheduler or interrupt frame only if `f` is. -/
structure Stays (m : Machine C n) (c : C) (f : Frame n) (fs : List (Frame n)) : Prop where
  self : ∀ g ∈ fs, ∀ q, g.self = some q → f.self = some q ∨ m.cproc c = some q
  sched : f.isSched = true → (∃ g, fs = [g] ∧ g.isSched = true ∧ g.chosen = none) ∨
    fs = [.code .intr [], f]
  notSched : f.isSched = false → ∀ g ∈ fs, g.isSched = false
  intr : f.isIntr = true → m.cproc c = none → ∀ g ∈ fs, g.isIntr = true
  chosen : f.chosen = none
  callers : ∀ rest, CallersOk (f :: rest) → CallersOk (fs ++ rest)

/-- The frames `fs` build the slot that `f` builds. -/
structure SameBuilds (f : Frame n) (fs : List (Frame n)) : Prop where
  builds : stackBuilds fs = f.builds.toList
  built : ∀ g ∈ fs, ∀ i, g.built = some i → f.built = some i

/-- The annotations that a frame shares with the one it takes the place of. -/
structure Shape (n : Nat) where
  isSched : Bool
  isIntr : Bool
  covers : Bool
  sleeps : Option (Lock n)
  chosen : Option (Fin n)

def Shape.of (f : Frame n) : Shape n := ⟨f.isSched, f.isIntr, f.covers, f.sleeps, f.chosen⟩

/-- A move from `f` to `fs` that neither leaves the stack nor changes which slots are built. -/
structure Goes (m : Machine C n) (c : C) (f : Frame n) (fs : List (Frame n)) : Prop extends
    Stays m c f fs, SameBuilds f fs where
  leaves : f.leaves = false

/-- Process `p`, with its lock and no other, goes from `f` into the scheduler, to go on at `g`. -/
structure Departs (p : Fin n) (f g : Frame n) : Prop where
  leaves : f.leaves = true
  self : f.self = some p
  self' : g.self = some p
  resumes : g.resumes = true
  locks : f.locks = [.proc p]
  locks' : g.locks = [.proc p]
  sleeps : g.sleeps = f.sleeps
  covers : g.covers = f.covers

/-- What an operation `op` of CPU `c`, with top frame `f` above `rest`, leads to. -/
inductive Result (m : Machine C n) (c : C) (f : Frame n) (rest : List (Frame n)) :
    Op n → Machine C n → Prop where
  | fail (op : Op n) (e : ProcPanic) : Result m c f rest op (m.fail e)
  | quiet (fs : List (Frame n)) (ev : List (ProcEvent n)) (hlocks : (stackLocks fs).Perm f.locks)
      (h : Goes m c f fs) : Result m c f rest (.step .none fs ev) ((m.setLive c (fs ++ rest)).log ev)
  | acquire (l : Lock n) (fs : List (Frame n)) (ev : List (ProcEvent n)) (hfree : m.lock l = none)
      (hlocks : (stackLocks fs).Perm (l :: f.locks)) (h : Goes m c f fs) :
      Result m c f rest (.step (.acquire l) fs ev) (((m.take c l).setLive c (fs ++ rest)).log ev)
  | release (l : Lock n) (fs : List (Frame n)) (ev : List (ProcEvent n))
      (hlocks : f.locks.Perm (l :: stackLocks fs)) (h : Goes m c f fs) :
      Result m c f rest (.step (.release l) fs ev) (((m.drop c l).setLive c (fs ++ rest)).log ev)
  | exitUnlockWait (p : Fin n) (hf : f = .exitUnlockWait p) :
      Result m c f rest (.step (.release .wait) [.exitSched p] [])
        (((m.drop c .wait).setLive c (.exitSched p :: rest)).log [])
  | store (e : Effect n) (fs : List (Frame n)) (ev : List (ProcEvent n)) (h : Store m f e fs) :
      Result m c f rest (.step e fs ev) (((m.store c e).setLive c (fs ++ rest)).log ev)
  | wake (p : Fin n) (ch : Chan n) (lk : Lock n) (call : Nat) (hf : f = .sleepRelock p ch lk call)
      (hfree : m.lock lk = none) :
      Result m c f rest (.wake p lk call)
        (((m.take c lk).setLive c (rest.modifyHead (Frame.give lk))).log [.sleepRet p call])
  | sched (p : Fin n) (g : Frame n) (h : Departs p f g) (hnoff : m.noff c = 1)
      (hstate : (m.proc p).state ≠ .RUNNING) :
      Result m c f rest (.sched p g)
        { m.setLive c (g :: rest) with
          context := update m.context p (g :: rest)
          running := update m.running c none }
  | swtch (i : Fin n) (hf : f = .schedSwtch i) :
      Result m c f rest (.swtch i (.schedBack i))
        { m with
          sstack := update m.sstack c (.schedBack i :: rest)
          running := update m.running c (some i)
          kstack := update m.kstack i (m.context i) }

/-! ### Operations -/

section

variable {fs rest : List (Frame n)} {ev : List (ProcEvent n)} {m' : Machine C n}

theorem Goes.result {e : Effect n} (h : Goes m c f fs) (hlocks : e.Balances f fs)
    (hexec : m.exec c rest (.step e fs ev) = some m') : Result m c f rest (.step e fs ev) m' := by
  cases e with
  | none =>
    cases hexec
    exact .quiet fs ev hlocks h
  | acquire l =>
    simp only [exec] at hexec
    split_ifs at hexec with hmine hfree <;> cases hexec
    · exact .fail _ _
    · exact .acquire l fs ev hfree hlocks h
  | release l =>
    simp only [exec] at hexec
    split_ifs at hexec <;> cases hexec
    · exact .release l fs ev hlocks h
    · exact .fail _ _
  | _ => exact hlocks.elim

theorem Store.result {e : Effect n} (h : Store m f e fs) (hexec : m.exec c rest (.step e fs ev) = some m') :
    Result m c f rest (.step e fs ev) m' := by
  have : m' = ((m.store c e).setLive c (fs ++ rest)).log ev := by
    cases h <;> exact (Option.some.inj hexec).symm
  rw [this]
  exact .store e fs ev h

theorem Departs.result {p : Fin n} {g : Frame n} (h : Departs p f g)
    (hexec : m.exec c rest (.sched p g) = some m') : Result m c f rest (.sched p g) m' := by
  simp only [exec] at hexec
  split_ifs at hexec with hlock hnoff hstate <;> cases hexec
  · exact .fail _ _
  · exact .fail _ _
  · exact .fail _ _
  · exact .sched p g h (not_not.mp hnoff) hstate

end

/-! ### The text -/

section

omit [DecidableEq C] [NeZero n]

theorem Stays.single {g : Frame n} (hself : g.self = f.self ∨ g.self = none) (hshape : Shape.of g = Shape.of f)
    (hf : f.chosen = none) : Stays m c f [g] := by
  have hsched : g.isSched = f.isSched := congrArg Shape.isSched hshape
  refine ⟨?_, ?_, ?_, ?_, hf, fun rest h => ⟨h.1.of_same (congrArg Shape.sleeps hshape)
    (congrArg Shape.covers hshape), h.2⟩⟩
  · intro h hh q hq
    rw [List.mem_singleton] at hh
    subst hh
    rcases hself with heq | hnone
    · exact Or.inl (heq ▸ hq)
    · rw [hnone] at hq
      cases hq
  · exact fun h => Or.inl ⟨g, rfl, hsched.trans h, (congrArg Shape.chosen hshape).trans hf⟩
  · intro h k hk
    rw [List.mem_singleton.mp hk, hsched, h]
  · intro h _ k hk
    exact List.mem_singleton.mp hk ▸ (congrArg Shape.isIntr hshape).trans h

theorem builds_of_built {i : Fin n} (h : f.built = some i) : f.builds = some i := by
  cases f <;> first | exact h | cases h

theorem chosen_of_notSched (h : f.isSched = false) : f.chosen = none := by
  cases f <;> first | rfl | cases h

theorem SameBuilds.single {g : Frame n} (hbuilds : g.builds = f.builds) (hbuilt : g.built = f.built) :
    SameBuilds f [g] := by
  refine ⟨by rw [stackBuilds_cons, stackBuilds_nil, List.append_nil, hbuilds], fun k hk i hi => ?_⟩
  rw [List.mem_singleton.mp hk, hbuilt] at hi
  exact hi

theorem Goes.single {g : Frame n} (hself : g.self = f.self ∨ g.self = none) (hshape : Shape.of g = Shape.of f)
    (hf : f.chosen = none) (hbuilds : g.builds = f.builds) (hbuilt : g.built = f.built)
    (hleaves : f.leaves = false) : Goes m c f [g] :=
  ⟨.single hself hshape hf, .single hbuilds hbuilt, hleaves⟩

theorem Goes.ret (hsched : f.isSched = false) (hbuilds : f.builds = none) (hleaves : f.leaves = false) :
    Goes m c f [] := by
  refine ⟨⟨by simp, fun h => ?_, by simp, by simp, chosen_of_notSched hsched, fun rest h => h.2⟩,
    ⟨by rw [hbuilds]; rfl, by simp⟩, hleaves⟩
  rw [hsched] at h
  cases h

theorem Goes.call {g k : Frame n} (hg : ∀ q, g.self = some q → f.self = some q ∨ m.cproc c = some q)
    (hk : k.self = f.self) (hshape : Shape.of k = Shape.of f) (hsched : f.isSched = false)
    (hgs : g.isSched = false) (hintr : f.isIntr = true → m.cproc c = none → g.isIntr = true)
    (hsleeps : ∀ lk, g.sleeps = some lk → k.accepts lk) (hf : f.sleeps = none)
    (hgc : f.covers = true → g.covers = true) (hwait : k.isAgain = false ∨ g.sleeps = some .wait)
    (hgb : g.builds = none) (hkb : k.builds = f.builds) (hkb' : k.built = f.built) (hleaves : f.leaves = false) :
    Goes m c f [g, k] := by
  have hks : k.sleeps = f.sleeps := congrArg Shape.sleeps hshape
  refine ⟨⟨?_, ?_, ?_, ?_, chosen_of_notSched hsched, fun rest h => ⟨⟨fun lk hlk => ⟨k, rfl, hsleeps lk hlk⟩,
    ?_, ?_⟩, h.1.of_same hks (congrArg Shape.covers hshape), h.2⟩⟩, ⟨?_, fun x hx i hi => ?_⟩, hleaves⟩
  · intro h hh q hq
    rcases List.mem_pair.mp hh with rfl | rfl
    · exact hg q hq
    · exact Or.inl (hk ▸ hq)
  · intro h
    rw [hsched] at h
    cases h
  · intro _ h hh
    rcases List.mem_pair.mp hh with rfl | rfl
    · exact hgs
    · exact (congrArg Shape.isSched hshape).trans hsched
  · intro h1 h2 h hh
    rcases List.mem_pair.mp hh with rfl | rfl
    · exact hintr h1 h2
    · exact (congrArg Shape.isIntr hshape).trans h1
  · refine h.1.covered.imp hgc fun hrest x hx => ?_
    rcases List.mem_cons.mp hx with rfl | hx
    · rw [hks, hf]
    · exact hrest x hx
  · refine h.1.again.imp hgc fun hagain => ?_
    have hrest : ∀ x ∈ rest, x.isAgain = false :=
      hagain.resolve_right fun hw => absurd hw.1 (by simp [hf])
    refine hwait.imp (fun hk x hx => ?_) fun hg => ⟨hg, hrest⟩
    rcases List.mem_cons.mp hx with rfl | hx
    · exact hk
    · exact hrest x hx
  · rw [stackBuilds_cons, stackBuilds_cons, stackBuilds_nil, List.append_nil, hgb, hkb]
    rfl
  · rcases List.mem_pair.mp hx with rfl | rfl
    · rw [builds_of_built hi] at hgb
      cases hgb
    · exact hkb'.symm.trans hi

theorem Goes.callWakeup {k : Frame n} {ch : Chan n} (hk : k.self = f.self) (hshape : Shape.of k = Shape.of f)
    (hsched : f.isSched = false) (hf : f.sleeps = none) (hagain : k.isAgain = false) (hbuilds : k.builds = f.builds)
    (hbuilt : k.built = f.built) (hleaves : f.leaves = false) : Goes m c f [.wakeup ch 0, k] :=
  .call nofun hk hshape hsched rfl (fun _ _ => rfl) nofun hf (fun _ => rfl) (Or.inl hagain) rfl hbuilds hbuilt hleaves

end

theorem text_result {ok : Bool} {op : Op n} {rest : List (Frame n)} {m' : Machine C n}
    (hself : ∀ q, f.self = some q → m.cproc c = some q) (h : m.text c ok f = some op)
    (hexec : m.exec c rest op = some m') : Result m c f rest op m' := by
  cases f with
  | yieldLock p | sleepLock p ch lk call | setkilledLock p | forkLockWait p np | forkRelock p np
  | exitLockWait p status | exitLock p status | waitLockWait p addr
  | sleepUnlock p ch lk call | forkUnlock p np | forkUnlockWait p np | forkSkip p i
  | waitNext p addr i | waitFail p i | waitReaped p i pid | wakeupUnlock ch i | schedUnlock i
  | waitKilled p addr | schedTop =>
    cases h
    exact Goes.result (.single (Or.inl rfl) rfl rfl rfl rfl rfl) (List.Perm.refl _) hexec
  | sleepUnlockLk p ch lk call =>
    cases h
    exact Goes.result (.single (Or.inl rfl) rfl rfl rfl rfl rfl) (List.Perm.swap _ _ _) hexec
  | yieldUnlock p | setkilledUnlock p | forkUndo p np | forkDone p np | waitRet p r =>
    cases h
    exact Goes.result (.ret rfl rfl rfl) (List.Perm.refl _) hexec
  | yieldSched p | sleepSched p ch lk call | exitSched p =>
    cases h
    exact Departs.result ⟨rfl, rfl, rfl, rfl, rfl, rfl, rfl, rfl⟩ hexec
  | yieldSet p | sleepSet p ch lk call | sleepTidy p ch lk call | wakeupSet ch i | setkilled p | forkParent p np
  | forkSet p np | exitSet p status | schedBack i =>
    cases h
    exact Store.result (by constructor) hexec
  | sleepRelock p ch lk call =>
    cases h
    simp only [exec] at hexec
    split_ifs at hexec with hmine hfree <;> cases hexec
    · exact .fail _ _
    · exact .wake p ch lk call rfl hfree
  | wakeup ch i | kill pid i | forkScan p i | waitScan p addr i havekids | sched i =>
    simp only [text] at h
    split_ifs at h <;> cases h <;>
      first
      | exact Goes.result (.single (Or.inl rfl) rfl rfl rfl rfl rfl) (List.Perm.refl _) hexec
      | exact Goes.result (.ret rfl rfl rfl) (List.Perm.refl _) hexec
  | killTest pid i | forkTest p i | schedTest i =>
    simp only [text] at h
    split_ifs at h with htest <;> cases h
    · exact Store.result (by constructor; exact htest) hexec
    · exact Goes.result (.single (Or.inl rfl) rfl rfl rfl rfl rfl) (List.Perm.refl _) hexec
  | killUnlock pid i found =>
    cases h
    cases found with
    | true => exact Goes.result (.ret rfl rfl rfl) (List.Perm.refl _) hexec
    | false => exact Goes.result (.single (Or.inl rfl) rfl rfl rfl rfl rfl) (List.Perm.refl _) hexec
  | forkAlloc p np =>
    simp only [text] at h
    split_ifs at h <;> cases h
    · exact (Store.newContext p np).result hexec
    · exact (Store.undo p np _ (Or.inl rfl)).result hexec
  | forkCopy p np =>
    simp only [text] at h
    split_ifs at h <;> cases h
    · exact Goes.result (.single (Or.inl rfl) rfl rfl rfl rfl rfl) (List.Perm.refl _) hexec
    · exact (Store.undo p np _ (Or.inr rfl)).result hexec
  | reparent p status i =>
    simp only [text] at h
    split_ifs at h with hi hparent <;> cases h
    · exact (Store.reparent p status ⟨i, hi⟩ hparent).result hexec
    · exact Goes.result (.single (Or.inl rfl) rfl rfl rfl rfl rfl) (List.Perm.refl _) hexec
    · exact Goes.result (.single (Or.inl rfl) rfl rfl rfl rfl rfl) (List.Perm.refl _) hexec
  | exitWakeup p status =>
    cases h
    exact Goes.result (.callWakeup rfl rfl rfl rfl rfl rfl rfl rfl) (List.Perm.refl _) hexec
  | exitUnlockWait p =>
    cases h
    simp only [exec] at hexec
    split_ifs at hexec <;> cases hexec
    · exact .exitUnlockWait p rfl
    · exact .fail _ _
  | zombie p =>
    cases h
    cases hexec
    exact .fail _ _
  | waitTest p addr i =>
    simp only [text, waitTest, Option.some.injEq] at h
    split_ifs at h with hzombie <;> subst h
    · exact Goes.result (.single (Or.inl rfl) rfl rfl rfl rfl rfl) (List.Perm.refl _) hexec
    · exact (Store.reap p addr i hzombie).result hexec
    · exact Goes.result (.single (Or.inl rfl) rfl rfl rfl rfl rfl) (List.Perm.refl _) hexec
  | waitKilledUnlock p addr killed =>
    cases h
    cases killed <;>
      exact Goes.result (.single (Or.inl rfl) rfl rfl rfl rfl rfl) (List.Perm.refl _) hexec
  | waitSleep p addr =>
    cases h
    exact Goes.result (.call (fun _ => Or.inl) rfl rfl rfl rfl nofun
      (fun _ hlk => (Option.some.inj hlk).symm) rfl nofun (Or.inr rfl) rfl rfl rfl rfl) (List.Perm.refl _) hexec
  | forkret p =>
    simp only [text, hself p rfl, Option.map_some, Option.some.injEq] at h
    subst h
    exact Goes.result (.single (Or.inr rfl) rfl rfl rfl rfl rfl) (List.Perm.refl _) hexec
  | schedSwtch i =>
    cases h
    cases hexec
    exact .swtch i rfl
  | code k held | waitAgain p addr => cases h

omit [NeZero n] in
theorem code_shape (k : CodeKind) (held held' : List Nat) :
    Shape.of (.code k held : Frame n) = Shape.of (.code k held') := by
  cases k <;> rfl

omit [NeZero n] in
theorem locks_handover {held : List Nat} {l : Nat} (h : l ∈ held) :
    ((Lock.other l : Lock n) :: (held.erase l).map .other).Perm (held.map .other) :=
  (List.perm_cons_erase h).symm.map Lock.other

section

variable {k : CodeKind} {held held' : List Nat} {op : Op n} {rest : List (Frame n)} {m' : Machine C n}

omit [DecidableEq C] [NeZero n] in
theorem Goes.callMain {g : Frame n} {p : Fin n} (hp : m.cproc c = some p) (hg : g.self = some p)
    (hgs : g.isSched = false) (hsleeps : ∀ lk, g.sleeps = some lk → ∃ l, lk = .other l)
    (hcovers : k = .intr → g.covers = true) (hgb : g.builds = none) :
    Goes m c (.code k held) [g, .code k held'] := by
  refine .call (fun q hq => Or.inr ?_) rfl (code_shape ..) rfl hgs (fun _ h => ?_) hsleeps rfl (fun h => hcovers ?_)
    (Or.inl rfl) hgb rfl rfl rfl
  · rw [hp, ← hg, hq]
  · rw [hp] at h
    cases h
  · cases k <;> first | rfl | cases h

theorem callCode_result {ch : Choice n} (h : m.callCode c k held ch = some op)
    (hexec : m.exec c rest op = some m') : Result m c (.code k held) rest op m' := by
  cases ch with
  | acquire l =>
    cases h
    exact Goes.result (.single (Or.inl rfl) (code_shape ..) rfl rfl rfl rfl) (by simp [Effect.Balances, Frame.locks]) hexec
  | release l =>
    simp only [callCode] at h
    split_ifs at h with hl
    cases h
    refine Goes.result (.single (Or.inl rfl) (code_shape ..) rfl rfl rfl rfl) ?_ hexec
    simpa [Effect.Balances, Frame.locks] using (locks_handover hl).symm
  | wakeup chan =>
    cases h
    exact Goes.result (.callWakeup rfl rfl rfl rfl rfl rfl rfl rfl) (by simp [Effect.Balances, Frame.locks]) hexec
  | ret =>
    simp only [callCode] at h
    split_ifs at h with hk
    cases h
    exact Goes.result (.ret rfl rfl rfl) (by simp [Effect.Balances, Frame.locks, hk.2]) hexec
  | yield =>
    obtain ⟨p, hp, rfl⟩ := Option.map_eq_some_iff.mp h
    exact Goes.result (.callMain hp rfl rfl nofun (fun _ => rfl) rfl) (by simp [Effect.Balances, Frame.locks]) hexec
  | sleep chan l =>
    simp only [callCode] at h
    split_ifs at h with hl
    obtain ⟨p, hp, rfl⟩ := Option.map_eq_some_iff.mp h
    refine Goes.result (.callMain hp rfl rfl (fun _ hlk => ⟨l, (Option.some.inj hlk).symm⟩)
      (fun hk => absurd hk hl.1) rfl) ?_ hexec
    simpa [Effect.Balances, Frame.locks] using locks_handover hl.2
  | kill pid =>
    simp only [callCode] at h
    split_ifs at h with hk
    cases h
    subst hk
    exact Goes.result (.call nofun rfl rfl rfl rfl nofun nofun rfl nofun (Or.inl rfl) rfl rfl rfl rfl)
      (by simp [Effect.Balances, Frame.locks]) hexec
  | setkilled | fork | wait addr =>
    simp only [callCode] at h
    split_ifs at h with hk
    obtain ⟨p, hp, rfl⟩ := Option.map_eq_some_iff.mp h
    exact Goes.result (.callMain hp rfl rfl nofun (by simp [hk]) rfl) (by simp [Effect.Balances, Frame.locks]) hexec
  | go | fail | interrupt | exit status => simp [callCode] at h

theorem callExit_result {status : Int32} (h : m.callExit c held status = some op)
    (hexec : m.exec c rest op = some m') : Result m c (.code .main held) rest op m' := by
  obtain ⟨p, hp, rfl⟩ := Option.map_eq_some_iff.mp h
  split_ifs at hexec ⊢
  · cases hexec
    exact .fail _ _
  · refine Goes.result ⟨⟨by simp [Frame.self, hp], nofun, by simp [Frame.isSched], nofun, rfl, fun rest h => ?_⟩,
      ⟨rfl, by simp [Frame.built]⟩, rfl⟩ (by simp [Effect.Balances, Frame.locks]) hexec
    have hrest : ∀ g ∈ rest, g.sleeps = none := h.1.covered.resolve_left nofun
    have hagain : ∀ g ∈ rest, g.isAgain = false :=
      (h.1.again.resolve_left nofun).resolve_right fun h => absurd h.1 nofun
    exact ⟨⟨nofun, Or.inr (by simpa [Frame.sleeps] using hrest),
        Or.inr (Or.inl (by simpa [Frame.isAgain] using hagain))⟩,
      ⟨nofun, Or.inr (by simpa [Frame.sleeps] using hrest),
        Or.inr (Or.inl (by simpa [Frame.isAgain] using hagain))⟩, h.1.of_same rfl rfl, h.2⟩

omit [DecidableEq C] [NeZero n] in
theorem Goes.interrupt (hlocks : f.locks = []) : Goes m c f [.code .intr [], f] := by
  have hleaves : f.leaves = false := by cases f <;> first | rfl | cases hlocks
  have hchosen : f.chosen = none := by cases f <;> first | rfl | cases hlocks
  refine ⟨⟨?_, fun _ => Or.inr rfl, ?_, ?_, hchosen, fun rest h => ⟨⟨nofun, Or.inl rfl, Or.inl rfl⟩, h⟩⟩, ⟨?_, ?_⟩,
    hleaves⟩
  · intro g hg q hq
    rcases List.mem_pair.mp hg with rfl | rfl
    · cases hq
    · exact Or.inl hq
  · intro h g hg
    rcases List.mem_pair.mp hg with rfl | rfl
    · rfl
    · exact h
  · intro h _ g hg
    rcases List.mem_pair.mp hg with rfl | rfl
    · rfl
    · exact h
  · rw [stackBuilds_cons, stackBuilds_cons, stackBuilds_nil, List.append_nil]
    rfl
  · intro g hg i hi
    rcases List.mem_pair.mp hg with rfl | rfl
    · cases hi
    · exact hi

omit [DecidableEq C] in
/-- Where the operations of a thread come from. -/
theorem code_cases {ch : Choice n} (h : m.code c f ch = some op) :
    m.noff c = 0 ∧ op = .step .none [.code .intr [], f] [] ∨ (∃ ok, m.text c ok f = some op) ∨
      (∃ held status, f = .code .main held ∧ m.callExit c held status = some op) ∨
      ∃ k held, f = .code k held ∧ m.callCode c k held ch = some op := by
  cases ch with
  | interrupt =>
    simp only [code] at h
    split_ifs at h with hi
    cases h
    exact Or.inl ⟨hi, rfl⟩
  | go | fail => exact Or.inr (Or.inl ⟨_, h⟩)
  | exit status =>
    simp only [code] at h
    split at h
    · exact Or.inr (Or.inr (Or.inl ⟨_, _, rfl, h⟩))
    · cases h
  | acquire l | release l | sleep chan l | wakeup chan | yield | kill pid | setkilled | fork
  | wait addr | ret =>
    simp only [code] at h
    split at h
    · exact Or.inr (Or.inr (Or.inr ⟨_, _, rfl, h⟩))
    · cases h

theorem code_result {ch : Choice n} (hself : ∀ q, f.self = some q → m.cproc c = some q)
    (hnoff : m.noff c = 0 → f.locks = []) (h : m.code c f ch = some op)
    (hexec : m.exec c rest op = some m') : Result m c f rest op m' := by
  rcases code_cases h with ⟨hi, rfl⟩ | ⟨ok, ht⟩ | ⟨held, status, rfl, he⟩ | ⟨k, held, rfl, hc⟩
  · exact Goes.result (.interrupt (hnoff hi)) (by simp [Effect.Balances, Frame.locks]) hexec
  · exact text_result hself ht hexec
  · exact callExit_result he hexec
  · exact callCode_result hc hexec

end

omit [DecidableEq C]

theorem Store.stays {e : Effect n} {fs : List (Frame n)} (h : Store m f e fs)
    (hrun : ∀ i, e ≠ .run i) (hidle : e ≠ .idle) : Stays m c f fs := by
  cases h with
  | reparent p status i h =>
    exact Goes.toStays (.callWakeup rfl rfl rfl rfl rfl rfl rfl rfl)
  | undo p np f hf => rcases hf with rfl | rfl <;> exact .single (Or.inl rfl) rfl rfl
  | run i => exact absurd rfl (hrun i)
  | idle => exact absurd rfl hidle
  | _ => exact .single (Or.inl rfl) rfl rfl

theorem Store.leaves {e : Effect n} {fs : List (Frame n)} (h : Store m f e fs) : f.leaves = false := by
  cases h with
  | undo p np f hf => rcases hf with rfl | rfl <;> rfl
  | _ => rfl

theorem Store.locks_perm {e : Effect n} {fs : List (Frame n)} (h : Store m f e fs) :
    (stackLocks fs).Perm f.locks := by
  cases h with
  | undo p np f hf => rcases hf with rfl | rfl <;> exact .refl _
  | _ => exact .refl _

end Machine

end Xv6

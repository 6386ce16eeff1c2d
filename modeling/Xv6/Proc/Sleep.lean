import Xv6.Proc.Control

/-!
# sleep

What is true of a process inside `sleep(ch, lk)`: the call is in the history, a process in state
`SLEEPING` is at or after its call of `sched`, and `p->chan` is `ch` until `sleep` tidies up. The
slots of dead processes have no frames of `sleep`.
-/

namespace Xv6

namespace Frame

variable {n : Nat} {f g : Frame n} {ch : Chan n} {lk : Lock n} {k : Nat}

/-- The channel, the lock and the number of the call of `sleep` that a frame belongs to. -/
def sleepCall : Frame n → Option (Chan n × Lock n × Nat)
  | .sleepLock _ ch lk k | .sleepUnlockLk _ ch lk k | .sleepSet _ ch lk k | .sleepSched _ ch lk k
  | .sleepTidy _ ch lk k | .sleepUnlock _ ch lk k | .sleepRelock _ ch lk k => some (ch, lk, k)
  | _ => none

def goesToSleep : Frame n → Bool
  | .sleepLock _ _ _ _ | .sleepUnlockLk _ _ _ _ | .sleepSet _ _ _ _ | .sleepSched _ _ _ _ => true
  | _ => false

def asleep : Frame n → Bool
  | .sleepSched _ _ _ _ | .sleepTidy _ _ _ _ => true
  | _ => false

/-- What `p->chan` is at a position in `sleep`. -/
def chan : Frame n → Option (Chan n)
  | .sleepSched _ ch _ _ | .sleepTidy _ ch _ _ => some ch
  | .sleepUnlock _ _ _ _ | .sleepRelock _ _ _ _ => some .null
  | _ => none

theorem sleeps_of_sleepCall (h : f.sleepCall = some (ch, lk, k)) : f.sleeps = some lk := by
  cases f <;> simp_all [sleepCall, sleeps]

theorem sleepCall_of_sleeps (h : f.sleeps ≠ none) : ∃ ch lk k, f.sleepCall = some (ch, lk, k) := by
  cases f <;> first | exact ⟨_, _, _, rfl⟩ | exact absurd rfl h

theorem sleeps_of_asleep (h : f.asleep = true) : f.sleeps ≠ none := by
  cases f <;> simp_all [asleep, sleeps]

theorem covers_of_asleep (h : f.asleep = true) : f.covers = false := by
  cases f <;> simp_all [asleep, covers]

theorem sleeps_of_chan (h : f.chan = some ch) : f.sleeps ≠ none := by
  cases f <;> simp_all [chan, sleeps]

theorem sleeps_of_goesToSleep (h : f.goesToSleep = true) : f.sleeps ≠ none := by
  cases f <;> simp_all [goesToSleep, sleeps]

theorem resumes_of_goesToSleep (h : f.goesToSleep = true) : f.resumes = false := by
  cases f <;> simp_all [goesToSleep, resumes]

theorem locks_of_goesToSleep (h : f.goesToSleep = true) : f.locks ≠ [] := by
  cases f <;> simp_all [goesToSleep, locks]

theorem locks_of_resumes {p : Fin n} (h : f.resumes = true) (hp : f.self = some p) :
    f.locks = [.proc p] := by
  cases f <;> simp_all [resumes, self, locks]

theorem asleep_of_resumes (h : f.resumes = true) (hs : f.sleeps ≠ none) : f.asleep = true := by
  cases f <;> simp_all [resumes, sleeps, asleep]

theorem sleeps_give (h : g.accepts lk) : (g.give lk).sleeps = none := by
  cases g with
  | code k held =>
    obtain ⟨l, rfl⟩ := h
    rfl
  | waitAgain p addr => rfl
  | _ => exact h.elim

end Frame

/-- The calls of `sleep` in a history are numbered by their positions; the lock is not a `p->lock`, and
`wait_lock` is used by `wait` only. -/
def CallsOk {n : Nat} : List (ProcEvent n) → Prop
  | [] => True
  | e :: t => (∀ p ch lk k, e = .sleepCall p ch lk k →
      k = t.length ∧ (∀ q, lk ≠ .proc q) ∧ (lk = .wait → ch = .proc p)) ∧ CallsOk t

section

variable {n : Nat} {t u : List (ProcEvent n)} {p q : Fin n} {ch ch' : Chan n} {lk lk' : Lock n} {k : Nat}

theorem CallsOk.append (h : CallsOk t) (hu : ∀ p ch lk k, .sleepCall p ch lk k ∉ u) :
    CallsOk (u ++ t) := by
  induction u with
  | nil => exact h
  | cons e u ih =>
    refine ⟨fun p ch lk k he => ?_, ih fun p ch lk k hmem => hu p ch lk k (List.mem_cons_of_mem _ hmem)⟩
    exact absurd (he ▸ List.mem_cons_self) (hu p ch lk k)

theorem CallsOk.lt_length (h : CallsOk t) (hmem : .sleepCall p ch lk k ∈ t) : k < t.length := by
  induction t with
  | nil => cases hmem
  | cons e t ih =>
    rcases List.mem_cons.mp hmem with he | hmem
    · rw [(h.1 p ch lk k he.symm).1]
      exact Nat.lt_succ_self _
    · exact (ih h.2 hmem).trans (Nat.lt_succ_self _)

theorem CallsOk.lock (h : CallsOk t) (hmem : .sleepCall p ch lk k ∈ t) :
    (∀ q, lk ≠ .proc q) ∧ (lk = .wait → ch = .proc p) := by
  induction t with
  | nil => cases hmem
  | cons e t ih =>
    rcases List.mem_cons.mp hmem with he | hmem
    · exact (h.1 p ch lk k he.symm).2
    · exact ih h.2 hmem

theorem CallsOk.unique (h : CallsOk t) (hmem : .sleepCall p ch lk k ∈ t)
    (hmem' : .sleepCall q ch' lk' k ∈ t) : p = q ∧ ch = ch' ∧ lk = lk' := by
  induction t with
  | nil => cases hmem
  | cons e t ih =>
    rcases List.mem_cons.mp hmem with he | hold <;> rcases List.mem_cons.mp hmem' with he' | hold'
    · rw [← he] at he'
      cases he'
      exact ⟨rfl, rfl, rfl⟩
    · have := h.2.lt_length hold'
      rw [(h.1 p ch lk k he.symm).1] at this
      exact absurd this (lt_irrefl _)
    · have := h.2.lt_length hold
      rw [(h.1 q ch' lk' k he'.symm).1] at this
      exact absurd this (lt_irrefl _)
    · exact ih h.2 hold hold'

end

namespace Machine

variable {C : Type} [DecidableEq C] {n : Nat} [NeZero n] {m m' : Machine C n} {c d : C}
  {f g : Frame n} {fs rest : List (Frame n)} {p q i j : Fin n} {op : Op n} {e : Effect n}
  {ch : Chan n} {lk l : Lock n} {k : Nat}

/-- The slot of a process that does not run any more, or does not run yet. -/
def Resting (s : ProcState) : Prop := s = .UNUSED ∨ s = .USED ∨ s = .ZOMBIE

structure SleepInv (m : Machine C n) : Prop where
  trace : CallsOk m.trace
  calls : ∀ p, ∀ f ∈ m.kstack p, ∀ ch lk k, f.sleepCall = some (ch, lk, k) →
    .sleepCall p ch lk k ∈ m.trace
  asleep : ∀ p, (m.proc p).state = .SLEEPING → ∃ f rest, m.kstack p = f :: rest ∧ f.asleep = true
  chan : ∀ p, ∀ f ∈ m.kstack p, ∀ ch, f.chan = some ch → (m.proc p).chan = ch
  resting : ∀ p, Resting (m.proc p).state → ∀ f ∈ m.kstack p, f.sleeps = none
  off : ∀ p, (∀ c, m.running c ≠ some p) → ∀ l ∈ stackLocks (m.kstack p), l = .proc p

/-! ### Stores -/

theorem Store.sleeping (h : Store m f e fs) (hj : ((m.store c e).proc j).state = .SLEEPING) :
    (m.proc j).state = .SLEEPING ∨ ∃ ch lk k, f = .sleepSet j ch lk k := by
  by_cases hs : e.slot = some j
  · rw [store_proc_self hs] at hj
    cases h with cases hs
    | sleepSet p ch lk k => exact Or.inr ⟨ch, lk, k, rfl⟩
    | wakeup ch i =>
      simp only [stored, Proc.wakeup] at hj
      split_ifs at hj
      exact Or.inl hj
    | kill pid i hpid =>
      simp only [stored, Proc.kill] at hj
      split_ifs at hj with hsleep
      exact absurd hj hsleep
    | _ => first | exact Or.inl hj | cases hj
  · rw [store_proc_of_ne hs] at hj
    exact Or.inl hj

theorem Store.chan (h : Store m f e fs) (hj : ((m.store c e).proc j).chan ≠ (m.proc j).chan) :
    (∃ ch lk k, f = .sleepSet j ch lk k) ∨ (∃ ch lk k, f = .sleepTidy j ch lk k) ∨
      (f.builds = some j ∨ (m.proc j).state = .ZOMBIE) := by
  by_cases hs : e.slot = some j
  · rw [store_proc_self hs] at hj
    cases h with cases hs
    | sleepSet p ch lk k => exact Or.inl ⟨ch, lk, k, rfl⟩
    | sleepTidy p ch lk k => exact Or.inr (Or.inl ⟨ch, lk, k, rfl⟩)
    | undo p np f hf =>
      refine Or.inr (Or.inr (Or.inl ?_))
      rcases hf with rfl | rfl <;> rfl
    | reap p addr i hz => exact Or.inr (Or.inr (Or.inr hz))
    | wakeup ch i =>
      simp only [stored, Proc.wakeup] at hj
      split_ifs at hj <;> exact absurd rfl hj
    | _ => exact absurd rfl hj
  · exact absurd (by rw [store_proc_of_ne hs]) hj

theorem Store.resting (h : Store m f e fs) (hj : Resting ((m.store c e).proc j).state) :
    Resting (m.proc j).state ∨ f.builds = some j ∨ ∃ st, f = .exitSet j st := by
  by_cases hs : e.slot = some j
  · rw [store_proc_self hs] at hj
    cases h with cases hs
    | exitSet p st => exact Or.inr (Or.inr ⟨st, rfl⟩)
    | found p i hi => exact Or.inl (Or.inl hi)
    | undo p np f hf =>
      refine Or.inr (Or.inl ?_)
      rcases hf with rfl | rfl <;> rfl
    | reap p addr i hz => exact Or.inl (Or.inr (Or.inr hz))
    | wakeup ch i =>
      simp only [stored, Proc.wakeup] at hj
      split_ifs at hj
      · simp [Resting] at hj
      · exact Or.inl hj
    | kill pid i hpid =>
      simp only [stored, Proc.kill] at hj
      split_ifs at hj
      · simp [Resting] at hj
      · exact Or.inl hj
    | _ => first | exact Or.inl hj | simp [stored, Resting] at hj
  · rw [store_proc_of_ne hs] at hj
    exact Or.inl hj

/-! ### One operation -/

namespace Does

variable (hd : Does m c f rest op m')

include hd

/-- Only the top frame of a stack can belong to `sleep`, unless it is of an interrupt or of `yield`. -/
theorem rest_sleeps (hp : m.running c = some p) (hf : f.covers = false)
    (g : Frame n) (hg : g ∈ rest) : g.sleeps = none := by
  have hcallers := hd.inv.thread.callers p
  rw [hd.kstack_eq hp] at hcallers
  exact hcallers.1.covered.resolve_left (by simp [hf]) g hg

theorem used_of_builds (hf : f.builds = some p) : (m.proc p).state = .USED := by
  obtain ⟨q, hq⟩ : ∃ q, f.self = some q := by
    cases f <;> first | exact ⟨_, rfl⟩ | cases hf
  exact (hd.inv.builds_off hd.live hf hq).1

/-- A process is `RUNNING` until it is on the way into the scheduler. -/
theorem state_running (hp : m.running c = some p)
    (hf : f.leaves = false) : (m.proc p).state = .RUNNING := by
  refine hd.inv.state.running_of_top hd.live (hd.inv.thread.running_cproc c p hp) hf ?_
  rintro rfl
  have := hd.inv.thread.notSched p (.schedBack p) (hd.kstack_eq hp ▸ List.mem_cons_self)
  cases this

theorem leaving_op (hf : f.leaves = true) :
    (∃ p, f = .exitUnlockWait p ∧ op = .step (.release .wait) [.exitSched p] []) ∨
      ∃ p g, op = .sched p g ∧ g.resumes = true ∧ g.sleeps = f.sleeps := by
  obtain ⟨-, -, -, -, hok, hres⟩ := hd
  have habsurd : f.leaves = false → False := fun hfalse => by
    rw [hf] at hfalse
    cases hfalse
  cases hres with
  | fail op e => exact absurd hok (by simp [fail])
  | quiet fs ev hlocks hs | acquire l fs ev hfree hlocks hs | release l fs ev hlocks hs =>
    exact (habsurd hs.leaves).elim
  | exitUnlockWait p hfp => exact Or.inl ⟨p, hfp, rfl⟩
  | store e fs ev hst => exact (habsurd hst.leaves).elim
  | wake p ch lk k hfp => exact (habsurd (by rw [hfp]; rfl)).elim
  | sched p g hfg => exact Or.inr ⟨p, g, rfl, hfg.resumes, hfg.sleeps⟩
  | swtch i hfi => exact (habsurd (by rw [hfi]; rfl)).elim

theorem sleeping (hp : (m'.proc p).state = .SLEEPING) :
    (m.proc p).state = .SLEEPING ∨
      ∃ ch lk k, f = .sleepSet p ch lk k ∧ op.frames = [.sleepSched p ch lk k] := by
  rcases hd.proc with heq | ⟨e, fs, ev, rfl, hst, heq⟩
  · rw [heq] at hp
    exact Or.inl hp
  · rw [heq] at hp
    refine (hst.sleeping hp).imp id fun ⟨ch, lk, k, hf⟩ => ⟨ch, lk, k, hf, ?_⟩
    subst hf
    cases hst with
    | sleepSet => rfl
    | undo _ _ _ hf => rcases hf with hf | hf <;> cases hf

theorem newCall (henters : Enters m c f op (.sleepLock p ch lk k)) :
    k = m.trace.length ∧ (∀ q, lk ≠ .proc q) ∧ (lk = .wait → ch = .proc p) ∧ lk ∈ f.locks ∧
      f.leaves = false ∧ m.cproc c = some p ∧
      op.events (m.running c) = [.sleepCall p ch lk k] := by
  obtain ⟨hk, hlk, hcproc, hkind, g', hop⟩ := henters
  refine ⟨hk, ?_, ?_, hlk, ?_, hcproc, by rw [hop]; rfl⟩
  · rintro q rfl
    rcases hkind with ⟨l, hl⟩ | ⟨hl, -⟩ <;> cases hl
  · intro hwait
    rcases hkind with ⟨l, hl⟩ | ⟨-, hch, -⟩
    · rw [hwait] at hl
      cases hl
    · exact hch
  · by_contra hleaves
    rcases hd.leaving_op (by simpa using hleaves) with ⟨q, -, h⟩ | ⟨q, e, h, -⟩ <;>
      rw [hop] at h <;> cases h

omit [DecidableEq C] hd in
/-- A new frame of `sleep` belongs to the call of the frame before it, or to a new call. -/
theorem sleepCall_enters (henters : Enters m c f op g) (hg : g.sleepCall = some (ch, lk, k)) :
    f.sleepCall = some (ch, lk, k) ∨ ∃ p, g = .sleepLock p ch lk k := by
  cases g with
  | sleepLock p ch' lk' k' =>
    cases hg
    exact Or.inr ⟨p, rfl⟩
  | sleepUnlockLk p ch' lk' k' | sleepSet p ch' lk' k' | sleepSched p ch' lk' k'
  | sleepTidy p ch' lk' k' | sleepUnlock p ch' lk' k' | sleepRelock p ch' lk' k' =>
    cases hg
    obtain ⟨rfl, -⟩ := henters
    exact Or.inl rfl
  | _ => cases hg

theorem sleepCall_frame (hg : g ∈ m'.kstack p)
    (hcall : g.sleepCall = some (ch, lk, k)) :
    g ∈ m.kstack p ∨ m.running c = some p ∧ f ∈ m.kstack p ∧ Enters m c f op g := by
  rcases hd.frame hg with hold | ⟨hrun, -, henters⟩ | ⟨ch, lk, k, gs, e, -, -, -, -, he, rfl⟩ |
    ⟨q, -, rfl⟩
  · exact Or.inl (hd.mem_of_kept hold)
  · exact Or.inr ⟨hrun, hd.kstack_eq hrun ▸ List.mem_cons_self, henters⟩
  · have := Frame.sleeps_of_sleepCall hcall
    rw [Frame.sleeps_give he] at this
    cases this
  · cases hcall

theorem callsOk (ht : CallsOk m.trace) : CallsOk m'.trace := by
  rw [hd.trace]
  by_cases hcall : ∃ p ch lk k, .sleepCall p ch lk k ∈ op.events (m.running c)
  · obtain ⟨p, ch, lk, k, hmem⟩ := hcall
    obtain ⟨g, hop⟩ := hd.logs hmem
    have hframe : (.sleepLock p ch lk k : Frame n) ∈ op.frames := by
      rw [hop]
      exact List.mem_cons_self
    rcases hd.enters hframe with ⟨-, hintr, -⟩ | henters
    · rw [hop] at hintr
      cases hintr
    · obtain ⟨hk, hlk, hwait, -, -, -, hev⟩ := hd.newCall henters
      rw [hev]
      refine ⟨fun p' ch' lk' k' he => ?_, ht⟩
      cases he
      exact ⟨hk, hlk, hwait⟩
  · exact ht.append fun p ch lk k hmem => hcall ⟨p, ch, lk, k, hmem⟩

end Does

namespace SleepInv

section

variable (hi : SleepInv m) (hd : Does m c f rest op m')
include hi hd

theorem calls_step (hg : g ∈ m'.kstack p)
    (hcall : g.sleepCall = some (ch, lk, k)) : .sleepCall p ch lk k ∈ m'.trace := by
  rcases hd.sleepCall_frame hg hcall with hold | ⟨hrun, hf, henters⟩
  · exact hd.mem_trace (hi.calls p g hold ch lk k hcall)
  · rcases Does.sleepCall_enters henters hcall with hsame | ⟨q, rfl⟩
    · exact hd.mem_trace (hi.calls p f hf ch lk k hsame)
    · obtain ⟨-, -, -, -, -, hq, hev⟩ := hd.newCall henters
      obtain rfl := Option.some.inj (hq.symm.trans (hd.inv.thread.running_cproc c p hrun))
      rw [hd.trace, hev]
      exact List.mem_cons_self

theorem asleep_step (hp : (m'.proc p).state = .SLEEPING) :
    ∃ g gs, m'.kstack p = g :: gs ∧ g.asleep = true := by
  rcases hd.sleeping hp with hold | ⟨ch, lk, k, rfl, hframes⟩
  · obtain ⟨g, gs, hstack, hg⟩ := hi.asleep p hold
    by_cases hrun : m.running c = some p
    · have hf : f.leaves = true := by
        by_contra hf
        rw [hd.state_running hrun (by simpa using hf)] at hold
        cases hold
      rw [hd.kstack_eq hrun] at hstack
      obtain ⟨rfl, rfl⟩ := List.cons.inj hstack
      rcases hd.leaving_op hf with ⟨q, rfl, -⟩ | ⟨q, e, rfl, he, hsleeps⟩
      · cases hg
      · refine ⟨e, rest, ?_, Frame.asleep_of_resumes he (hsleeps ▸ Frame.sleeps_of_asleep hg)⟩
        rcases hd.kstack_self hrun with hk | ⟨_, _, _, _, _, _, hop, -⟩
        · exact hk
        · cases hop
    · rcases hd.kstack_of_ne hrun with hk | ⟨⟨q, rfl⟩, -⟩
      · exact ⟨g, gs, hk.trans hstack, hg⟩
      · rw [(hd.inv.builds_off hd.live rfl rfl).1] at hold
        cases hold
  · have hrun := hd.inv.thread.running_of_self hd.live rfl
    rcases hd.kstack_self hrun with hk | ⟨_, _, _, _, _, hf, -⟩
    · rw [hframes] at hk
      exact ⟨_, rest, hk, rfl⟩
    · cases hf

theorem chan_kept (hold : g ∈ m.kstack p)
    (hg : g ∈ m'.kstack p) (hchan : g.chan = some ch) : (m'.proc p).chan = (m.proc p).chan := by
  have hsleeps := Frame.sleeps_of_chan hchan
  by_contra hne
  rcases hd.proc with heq | ⟨e, fs, ev, hop, hst, heq⟩
  · exact hne (by rw [heq])
  · rw [heq] at hne
    rcases hst.chan hne with ⟨ch, lk, k, rfl⟩ | ⟨ch, lk, k, rfl⟩ | hf | hz
    · have hrun := hd.inv.thread.running_of_self hd.live rfl
      rw [hd.kstack_eq hrun] at hold
      rcases List.mem_cons.mp hold with rfl | hold
      · cases hchan
      · exact hsleeps (hd.rest_sleeps hrun rfl g hold)
    · have hrun := hd.inv.thread.running_of_self hd.live rfl
      have hfs : fs = [.sleepUnlock p ch lk k] := by
        cases hst with
        | sleepTidy => rfl
        | undo _ _ _ hf => rcases hf with hf | hf <;> cases hf
      have hrest : g ∉ rest := fun hmem => hsleeps (hd.rest_sleeps hrun rfl g hmem)
      rcases hd.kstack_self hrun with hk | ⟨_, _, _, _, _, hf, -⟩
      · rw [hk, hop, hfs] at hg
        rw [hd.kstack_eq hrun] at hold
        rcases List.mem_cons.mp hold with rfl | hmem
        · rcases List.mem_cons.mp hg with heq | hmem
          · cases heq
          · exact hrest hmem
        · exact hrest hmem
      · cases hf
    · exact hsleeps (hi.resting p (Or.inr (Or.inl (hd.used_of_builds hf))) g hold)
    · exact hsleeps (hi.resting p (Or.inr (Or.inr hz)) g hold)

theorem chan_step (hg : g ∈ m'.kstack p) (hchan : g.chan = some ch) : (m'.proc p).chan = ch := by
  rcases hd.frame hg with hold | ⟨hrun, -, henters⟩ | ⟨ch, lk, k, gs, e, -, -, -, -, he, rfl⟩ |
    ⟨q, -, rfl⟩
  · rw [hi.chan_kept hd (hd.mem_of_kept hold) hg hchan]
    exact hi.chan p g (hd.mem_of_kept hold) ch hchan
  · have hf : f ∈ m.kstack p := hd.kstack_eq hrun ▸ List.mem_cons_self
    have hself : ∀ q, f.self = some q → q = p := fun q hq => hd.inv.thread.self p f hf q hq
    cases g with cases hchan
    | sleepSched q ch' lk k | sleepUnlock q ch' lk k =>
      obtain ⟨rfl, hop⟩ := henters
      obtain rfl := hself q rfl
      rw [hd.proc_set hop, Function.update_self]
    | sleepTidy q ch' lk k =>
      obtain ⟨rfl, hop⟩ := henters
      rcases hd.proc with heq | ⟨e, fs, ev, hop', -⟩
      · rw [heq]
        exact hi.chan p _ hf ch rfl
      · rw [hop] at hop'
        cases hop'
    | sleepRelock q ch' lk k =>
      obtain ⟨rfl, hop⟩ := henters
      rcases hd.proc with heq | ⟨e, fs, ev, -, hst, -⟩
      · rw [heq]
        exact hi.chan p _ hf .null rfl
      · cases hst with
        | undo _ _ _ hf => rcases hf with hf | hf <;> cases hf
  · exact absurd (Frame.sleeps_give he) (Frame.sleeps_of_chan hchan)
  · cases hchan

theorem resting_step (hp : Resting (m'.proc p).state) (hg : g ∈ m'.kstack p) : g.sleeps = none := by
  have hcases : Resting (m.proc p).state ∨
      ∃ st, f = .exitSet p st ∧ op.frames = [.exitUnlockWait p] := by
    rcases hd.proc with heq | ⟨e, fs, ev, rfl, hst, heq⟩
    · rw [heq] at hp
      exact Or.inl hp
    · rw [heq] at hp
      rcases hst.resting hp with hr | hf | ⟨st, rfl⟩
      · exact Or.inl hr
      · exact Or.inl (Or.inr (Or.inl (hd.used_of_builds hf)))
      · refine Or.inr ⟨st, rfl, ?_⟩
        cases hst with
        | exitSet => rfl
        | undo _ _ _ hf => rcases hf with hf | hf <;> cases hf
  by_contra hne
  rcases hcases with hold | ⟨st, rfl, hframes⟩
  · rcases hd.frame hg with hmem | ⟨hrun, -, henters⟩ | ⟨ch, lk, k, gs, e, -, -, -, -, he, rfl⟩ |
      ⟨q, -, rfl⟩
    · exact hne (hi.resting p hold g (hd.mem_of_kept hmem))
    · obtain ⟨ch, lk, k, hcall⟩ := Frame.sleepCall_of_sleeps hne
      rcases Does.sleepCall_enters henters hcall with hf | ⟨q, rfl⟩
      · have := hi.resting p hold f (hd.kstack_eq hrun ▸ List.mem_cons_self)
        rw [Frame.sleeps_of_sleepCall hf] at this
        cases this
      · obtain ⟨-, -, -, -, hleaves, -⟩ := hd.newCall henters
        rw [hd.state_running hrun hleaves] at hold
        simp [Resting] at hold
    · exact hne (Frame.sleeps_give he)
    · exact hne rfl
  · have hrun := hd.inv.thread.running_of_self hd.live rfl
    rcases hd.kstack_self hrun with hk | ⟨_, _, _, _, _, hf, -⟩
    · rw [hk, hframes] at hg
      rcases List.mem_cons.mp hg with rfl | hmem
      · exact hne rfl
      · exact hne (hd.rest_sleeps hrun rfl g hmem)
    · cases hf

theorem off_step (hp : ∀ c, m'.running c ≠ some p) (hl : l ∈ stackLocks (m'.kstack p)) : l = .proc p := by
  by_cases hthread : HasThread (m'.proc p).state
  · rw [(hd.inv'.state.parked p hp hthread).2.locks] at hl
    exact List.mem_singleton.mp hl
  · have hoff : ∀ d, m.running d ≠ some p := fun d hrun =>
      hd.inv'.state.no_cproc_of_not_hasThread hthread d (hd.cproc_of_running hrun)
    rcases hd.kstack_of_ne (hoff c) with hk | ⟨-, hk⟩
    · exact hi.off p hoff l (hk ▸ hl)
    · rw [hk] at hl
      exact List.mem_singleton.mp hl

theorem does : SleepInv m' :=
  ⟨hd.callsOk hi.trace, fun _ _ hg _ _ _ hcall => hi.calls_step hd hg hcall,
    fun _ hp => hi.asleep_step hd hp, fun _ _ hg _ hchan => hi.chan_step hd hg hchan,
    fun _ hp _ hg => hi.resting_step hd hp hg, fun _ hp _ hl => hi.off_step hd hp hl⟩

end

omit [DecidableEq C] [NeZero n] in
theorem fail (hi : SleepInv m) (e : ProcPanic) : SleepInv (m.fail e) := by
  obtain ⟨h1, h2, h3, h4, h5, h6⟩ := hi
  exact ⟨h1, h2, h3, h4, h5, h6⟩

omit [DecidableEq C] in
theorem boot : SleepInv (Machine.boot : Machine C n) := by
  have hkstack : ∀ q, ∀ k ∈ (Machine.boot : Machine C n).kstack q, k = .forkret q :=
    fun q k hk => SwitchInv.boot_kstack hk
  refine ⟨trivial, fun p f hf ch lk k h => ?_, fun p hp => ?_, fun p f hf ch h => ?_,
    fun p _ f hf => ?_, fun p _ l hl => ?_⟩
  · rw [hkstack p f hf] at h
    cases h
  · by_cases hpi : p = initproc
    · subst hpi
      simp [Machine.boot] at hp
    · simp [Machine.boot, hpi, Proc.zero] at hp
  · rw [hkstack p f hf] at h
    cases h
  · rw [hkstack p f hf]
    rfl
  · obtain ⟨f, hf, hl⟩ := List.mem_flatMap.mp hl
    rw [hkstack p f hf] at hl
    exact List.mem_singleton.mp hl

end SleepInv

end Machine

end Xv6

import Xv6.Proc.Sleep

/-!
# wakeup

A process that has called `sleep(ch, lk)` and has been passed by a `wakeup(ch)` made under `lk` is
awake, or past `sched`. The argument is by the position of `wakeup` in the table: the processes before
this position are awake, and none of them can call `sleep(ch, lk)` anew while `lk` is held.
-/

namespace Xv6

/-- The channel and the first slot not yet passed, of a frame of `wakeup`. -/
def Frame.wakes {n : Nat} : Frame n → Option (Chan n × Nat)
  | .wakeup ch i => some (ch, i)
  | .wakeupSet ch i => some (ch, i)
  | .wakeupUnlock ch i => some (ch, i + 1)
  | _ => none

theorem Frame.wakes_give {n : Nat} {g : Frame n} {lk : Lock n} (h : g.accepts lk) :
    (g.give lk).wakes = none := by
  cases g with
  | code k held =>
    obtain ⟨l, rfl⟩ := h
    rfl
  | waitAgain p addr => rfl
  | _ => exact h.elim

/-- In history `t`, the code of process `B` has taken `l` and not released it. -/
def Holding {n : Nat} (B : Fin n) (l : Lock n) : List (ProcEvent n) → Prop
  | [] => False
  | e :: t => e = .acquired (some B) l ∨ e ≠ .released (some B) l ∧ Holding B l t

section

variable {n : Nat} {t u : List (ProcEvent n)} {B : Fin n} {l : Lock n}

theorem Holding.of_append (h : Holding B l (u ++ t)) :
    .acquired (some B) l ∈ u ∨ .released (some B) l ∉ u ∧ Holding B l t := by
  induction u with
  | nil => exact Or.inr ⟨List.not_mem_nil, h⟩
  | cons e u ih =>
    rcases h with rfl | ⟨hne, h⟩
    · exact Or.inl List.mem_cons_self
    · rcases ih h with hmem | ⟨hnot, h⟩
      · exact Or.inl (List.mem_cons_of_mem _ hmem)
      · exact Or.inr ⟨by simp [hnot, Ne.symm hne], h⟩

theorem Holding.append (h : Holding B l t) (hu : .released (some B) l ∉ u) : Holding B l (u ++ t) := by
  induction u with
  | nil => exact h
  | cons e u ih =>
    rw [List.mem_cons, not_or] at hu
    exact Or.inr ⟨Ne.symm hu.1, ih hu.2⟩

end

theorem cons_suffix_append {α : Type*} {g : α} {gs u rest : List α} (h : (g :: gs) <:+ u ++ rest) :
    (g :: gs) <:+ rest ∨ ∃ x a, u = x ++ g :: a ∧ gs = a ++ rest := by
  obtain ⟨x, hx⟩ := h
  rcases List.append_eq_append_iff.mp hx with ⟨a, hu, ha⟩ | ⟨y, -, hrest⟩
  · cases a with
    | nil => exact Or.inl ⟨[], ha⟩
    | cons e a =>
      obtain ⟨rfl, rfl⟩ := List.cons.inj ha
      exact Or.inr ⟨x, a, hu, rfl⟩
  · exact Or.inl ⟨y, hrest.symm⟩

namespace Machine

variable {C : Type} [DecidableEq C] {n : Nat} [NeZero n] {m m' : Machine C n} {c d : C}
  {f g : Frame n} {rest : List (Frame n)} {p i A B : Fin n} {op : Op n}
  {ch : Chan n} {lk l : Lock n} {k : Nat}

/-- A frame of `sleep` of process `A` that will not put `A` to sleep and on which `A` does not sleep. -/
def WokenFrame (m : Machine C n) (A : Fin n) (g : Frame n) : Prop :=
  g.goesToSleep = false ∧ (g.asleep = true → (m.proc A).state ≠ .SLEEPING)

/-- Process `A` is awake as far as its call `k` of `sleep` goes. -/
def Woken (m : Machine C n) (A : Fin n) (k : Nat) : Prop :=
  ∀ g ∈ m.kstack A, ∀ ch lk, g.sleepCall = some (ch, lk, k) → WokenFrame m A g

/-- Process `A` is awake as far as its calls of `sleep(ch, lk)` go. -/
def Awake (m : Machine C n) (A : Fin n) (ch : Chan n) (lk : Lock n) : Prop :=
  ∀ g ∈ m.kstack A, ∀ k, g.sleepCall = some (ch, lk, k) → WokenFrame m A g

/-! ### Awake processes stay awake -/

theorem WokenFrame.step (hd : Does m c f rest op m')
    (hold : ∀ e ∈ m.kstack A, e.sleepCall = some (ch, lk, k) → WokenFrame m A e)
    (hg : g ∈ m'.kstack A) (hcall : g.sleepCall = some (ch, lk, k)) :
    WokenFrame m' A g ∨ m.running c = some A ∧ ∃ p, Enters m c f op (.sleepLock p ch lk k) := by
  rcases hd.sleepCall_frame hg hcall with hmem | ⟨hrun, hf, henters⟩
  · obtain ⟨hgo, hawake⟩ := hold g hmem hcall
    refine Or.inl ⟨hgo, fun hasleep hstate => ?_⟩
    rcases hd.sleeping hstate with hs | ⟨ch', lk', k', rfl, -⟩
    · exact hawake hasleep hs
    · -- another call of `sleep` cannot be below or above this one
      have hrun := hd.inv.thread.running_of_self hd.live rfl
      rw [hd.kstack_eq hrun] at hmem
      rcases List.mem_cons.mp hmem with rfl | hmem
      · cases hgo
      · exact Frame.sleeps_of_asleep hasleep (hd.rest_sleeps hrun rfl g hmem)
  · cases g with
    | sleepLock p =>
      cases hcall
      exact Or.inr ⟨hrun, p, henters⟩
    | sleepUnlockLk | sleepSet | sleepSched | sleepTidy =>
      obtain ⟨rfl, -⟩ := henters
      cases (hold _ hf hcall).1
    | sleepUnlock | sleepRelock => exact Or.inl ⟨rfl, fun h => by cases h⟩
    | _ => cases hcall

theorem Woken.step (hd : Does m c f rest op m') (h : Woken m A k)
    (hk : k < m.trace.length) : Woken m' A k := by
  intro g hg ch lk hcall
  rcases WokenFrame.step hd (fun e he hcall => h e he ch lk hcall) hg hcall with
    hw | ⟨-, p, henters⟩
  · exact hw
  · exact absurd (hd.newCall henters).1 hk.ne

theorem Awake.step (hd : Does m c f rest op m') (h : Awake m A ch lk)
    (hAB : A ≠ B) (hB : m.running d = some B) (hlock : m.lock lk = some d) : Awake m' A ch lk := by
  intro g hg k hcall
  rcases WokenFrame.step hd (fun e he hcall => h e he k hcall) hg hcall with
    hw | ⟨hrun, p, henters⟩
  · exact hw
  · have hmine := hd.locked (hd.newCall henters).2.2.2.1
    rw [hlock] at hmine
    obtain rfl := Option.some.inj hmine
    rw [hrun] at hB
    exact absurd (Option.some.inj hB) hAB

omit [DecidableEq C] [NeZero n] in
theorem SleepInv.holder (hi : SleepInv m) (h : SwitchInv m) (hl : l ∈ stackLocks (m.kstack B))
    (hproc : ∀ q, l ≠ .proc q) : ∃ d, m.running d = some B ∧ m.lock l = some d := by
  by_cases hrun : ∃ d, m.running d = some B
  · obtain ⟨d, hd⟩ := hrun
    refine ⟨d, hd, (h.lock.lock_iff d l).mpr ?_⟩
    rwa [held_of_live (live_of_running hd)]
  · exact absurd (hi.off B (fun d hd => hrun ⟨d, hd⟩) l hl) (hproc B)

omit [DecidableEq C] [NeZero n] in
theorem SleepInv.running_of_goesToSleep (hi : SleepInv m) (h : SwitchInv m) (hg : g ∈ m.kstack A)
    (hgo : g.goesToSleep = true) : ∃ d, m.running d = some A := by
  by_contra hrun
  have hoff : ∀ d, m.running d ≠ some A := fun d hd => hrun ⟨d, hd⟩
  have hthread : HasThread (m.proc A).state := by
    by_contra hnot
    have hresting : Resting (m.proc A).state := by
      tauto
    exact Frame.sleeps_of_goesToSleep hgo (hi.resting A hresting g hg)
  -- the frame on top of a stack that was switched out holds the only lock of the stack
  obtain ⟨-, hparked⟩ := h.state.parked A hoff hthread
  obtain ⟨e, es, hstack, he, hself⟩ := hparked.top
  have hlocks := hparked.locks
  rw [hstack, stackLocks_cons] at hlocks
  rw [hstack] at hg
  rw [Frame.locks_of_resumes he hself] at hlocks
  have hrest : stackLocks es = [] := by simpa using hlocks
  rcases List.mem_cons.mp hg with rfl | hmem
  · rw [Frame.resumes_of_goesToSleep hgo] at he
    cases he
  · exact Frame.locks_of_goesToSleep hgo (List.flatMap_eq_nil_iff.mp hrest g hmem)

/-! ### The position of wakeup -/

/-- The processes that a `wakeup(ch)` made under `lk` has passed are awake. -/
def WakingInv (m : Machine C n) : Prop :=
  ∀ B f rest ch pos lk, (f :: rest) <:+ m.kstack B → f.wakes = some (ch, pos) →
    lk ∈ stackLocks rest → (∀ q, lk ≠ .proc q) → ∀ A, A ≠ B → A.val < pos → Awake m A ch lk

theorem awake_of_wakeupSet (hi : SleepInv m) (hd : Does m c (.wakeupSet ch i) rest op m')
    (hop : op = .step (.set i ((m.proc i).wakeup ch)) [.wakeupUnlock ch i] [])
    (hrun : m.running c = some B) (hiB : i ≠ B) (hlk : lk ∈ stackLocks rest) : Awake m' i ch lk := by
  intro g hg k hcall
  have hne : m.running c ≠ some i := fun h => hiB (Option.some.inj (h.symm.trans hrun))
  have hmem : g ∈ m.kstack i := by
    rcases hd.kstack_of_ne hne with hk | ⟨⟨q, hf⟩, -⟩
    · exact hk ▸ hg
    · cases hf
  have hlock : m.lock lk = some c := by
    rw [hd.inv.lock.lock_iff, held_of_live hd.live]
    exact List.mem_append_right _ hlk
  have hmine : m.lock (.proc i) = some c := hd.locked (by simp [Frame.locks])
  have hgo : g.goesToSleep = false := by
    by_contra hgo
    obtain ⟨d, hrun'⟩ := hi.running_of_goesToSleep hd.inv hmem (by simpa using hgo)
    -- `i` would hold `lk` or its own lock on another CPU
    have hheld : ∀ l' ∈ g.locks, m.lock l' = some d := fun l' hl' => by
      rw [hd.inv.lock.lock_iff, held_of_live (live_of_running hrun')]
      exact List.mem_flatMap.mpr ⟨g, hmem, hl'⟩
    have hdc : d ≠ c := fun h => hne (h ▸ hrun')
    have hself := hd.inv.thread.self i g hmem
    cases g with
    | sleepLock q _ _ _ | sleepUnlockLk q _ _ _ =>
      cases hcall
      have := hheld lk (by simp [Frame.locks])
      rw [hlock] at this
      exact hdc (Option.some.inj this).symm
    | sleepSet q _ _ _ | sleepSched q _ _ _ =>
      obtain rfl := hself q rfl
      have := hheld (.proc q) (by simp [Frame.locks])
      rw [hmine] at this
      exact hdc (Option.some.inj this).symm
    | _ => exact hgo rfl
  refine ⟨hgo, fun hasleep => ?_⟩
  have hchan : (m.proc i).chan = ch := by
    cases g with
    | sleepTidy =>
      cases hcall
      exact hi.chan i _ hmem ch rfl
    | sleepSched => cases hgo
    | _ => cases hasleep
  rw [hd.proc_set hop, Function.update_self, Proc.wakeup]
  split_ifs with hs
  · simp
  · exact fun hstate => hs ⟨hstate, hchan⟩

theorem WakingInv.step (hw : WakingInv m) (hi : SleepInv m) (hd : Does m c f rest op m') :
    WakingInv m' := by
  intro B g gs ch pos lk hsuffix hwakes hlk hproc A hAB hpos
  -- a frame of the same `wakeup` above the same frames, which has passed `A` already
  have hprev : ∀ e pos', (e :: gs) <:+ m.kstack B → e.wakes = some (ch, pos') → A.val < pos' →
      Awake m' A ch lk := fun e pos' hsuf he hpos' => by
    obtain ⟨d, hrun, hlock⟩ := hi.holder hd.inv (by
      obtain ⟨x, hx⟩ := hsuf
      rw [← hx, stackLocks_append]
      exact List.mem_append_right _ (List.mem_append_right _ hlk)) hproc
    exact (hw B e gs ch pos' lk hsuf he hlk hproc A hAB hpos').step hd hAB hrun hlock
  by_cases hrun : m.running c = some B
  · have hstack := hd.kstack_eq hrun
    rcases hd.kstack_self hrun with hk | ⟨_, lk', _, e, es, rfl, -, rfl, he, hk⟩
    · rw [hk] at hsuffix
      rcases cons_suffix_append hsuffix with hsuf | ⟨x, a, hframes, rfl⟩
      · exact hprev g pos (hstack ▸ hsuf.trans (List.suffix_cons _ _)) hwakes hpos
      · have hmem : g ∈ op.frames := by rw [hframes]; simp
        have hself : (f :: rest) <:+ m.kstack B := hstack ▸ List.suffix_refl _
        have hsingle : op.frames = [g] → a = [] := fun h => by
          cases x <;> simp_all
        rcases hd.enters hmem with ⟨rfl, hop, -⟩ | henters
        · have ha : a = [] := by
            rw [hop] at hframes
            cases x with
            | nil =>
              obtain ⟨rfl, -⟩ := List.cons.inj hframes
              cases hwakes
            | cons y x =>
              obtain ⟨-, htail⟩ := List.cons.inj hframes
              cases x <;> simp_all
          subst ha
          exact hprev g pos hself hwakes hpos
        · cases g with cases hwakes
          | wakeup ch' j =>
            rcases henters with ⟨rfl, -⟩ | ⟨j, hj, rfl, rfl, hmine, hop⟩ | ⟨j, rfl, rfl, hop⟩
            · exact absurd hpos (Nat.not_lt_zero _)
            · obtain rfl := hsingle (by rw [hop]; rfl)
              refine hprev _ j hself rfl (lt_of_le_of_ne (Nat.lt_succ_iff.mp hpos) fun h => hAB ?_)
              have := hmine.symm.trans (hd.inv.thread.running_cproc c B hrun)
              rw [← Option.some.inj this]
              exact Fin.ext h
            · obtain rfl := hsingle (by rw [hop]; rfl)
              exact hprev _ _ hself rfl hpos
          | wakeupSet ch' j =>
            obtain ⟨rfl, hop⟩ := henters
            obtain rfl := hsingle (by rw [hop]; rfl)
            exact hprev _ _ hself rfl hpos
          | wakeupUnlock ch' j =>
            obtain ⟨rfl, hop⟩ := henters
            obtain rfl := hsingle (by rw [hop]; rfl)
            by_cases hj : A = j
            · subst hj
              exact awake_of_wakeupSet hi hd hop hrun hAB hlk
            · refine hprev _ _ hself rfl (lt_of_le_of_ne (Nat.lt_succ_iff.mp hpos) fun h => hj ?_)
              exact Fin.ext h
    · rw [hk] at hsuffix
      rcases List.suffix_cons_iff.mp hsuffix with heq | hsuf
      · obtain ⟨rfl, -⟩ := List.cons.inj heq
        rw [Frame.wakes_give he] at hwakes
        cases hwakes
      · refine hprev g pos ?_ hwakes hpos
        rw [hstack]
        exact hsuf.trans ((List.suffix_cons _ _).trans (List.suffix_cons _ _))
  · rcases hd.kstack_of_ne hrun with hk | ⟨-, hk⟩
    · exact hprev g pos (hk ▸ hsuffix) hwakes hpos
    · rw [hk] at hsuffix
      rcases List.suffix_cons_iff.mp hsuffix with heq | hsuf
      · obtain ⟨rfl, -⟩ := List.cons.inj heq
        cases hwakes
      · cases List.suffix_nil.mp hsuf

theorem Does.wakes_op (hd : Does m c f rest op m') {pos : Nat} (hf : f.wakes = some (ch, pos)) :
    (op.frames = [] ∧ ∃ j, n ≤ j ∧ f = .wakeup ch j) ∨
      (∃ g pos', op.frames = [g] ∧ g.wakes = some (ch, pos')) ∨
      op = .step .none [.code .intr [], f] [] := by
  obtain ⟨a, hcode⟩ := hd.code
  have htext : ∀ ok, m.text c ok f = some op → (op.frames = [] ∧ ∃ j, n ≤ j ∧ f = .wakeup ch j) ∨
      ∃ g pos', op.frames = [g] ∧ g.wakes = some (ch, pos') := by
    intro ok h
    cases f with cases hf
    | wakeup ch' i =>
      simp only [text] at h
      split_ifs at h with hi hmine <;> cases h
      · exact Or.inr ⟨_, _, rfl, rfl⟩
      · exact Or.inr ⟨_, _, rfl, rfl⟩
      · exact Or.inl ⟨rfl, _, not_lt.mp hi, rfl⟩
    | wakeupSet ch' i | wakeupUnlock ch' i =>
      cases h
      exact Or.inr ⟨_, _, rfl, rfl⟩
  have hnot : ∀ k held, f ≠ .code k held := by
    rintro k held rfl
    cases hf
  cases a with
  | interrupt =>
    simp only [Machine.code] at hcode
    split_ifs at hcode
    cases hcode
    exact Or.inr (Or.inr rfl)
  | go => exact (htext true hcode).imp id Or.inl
  | fail => exact (htext false hcode).imp id Or.inl
  | exit status =>
    simp only [Machine.code] at hcode
    split at hcode
    · exact absurd rfl (hnot _ _)
    · cases hcode
  | _ =>
    simp only [Machine.code] at hcode
    cases hcode

/-! ### Histories -/

/-- A process that has taken a lock and not released it, in the history, holds it. -/
def HoldInv (m : Machine C n) : Prop :=
  ∀ B l, (∀ q, l ≠ .proc q) → Holding B l m.trace → ∃ d, m.running d = some B ∧ m.lock l = some d

theorem HoldInv.step (hh : HoldInv m) (hd : Does m c f rest op m') : HoldInv m' := by
  intro B l hproc hold
  rw [hd.trace] at hold
  rcases hold.of_append with hacq | ⟨hrel, hold⟩
  · obtain ⟨hB, hlock, hrun⟩ := hd.acquired hacq
    exact ⟨c, hrun.trans hB.symm, hlock⟩
  · obtain ⟨d, hrun, hlock⟩ := hh B l hproc hold
    refine ⟨d, (hd.running_of_lock hlock hproc).trans hrun, ?_⟩
    rcases hd.lock l with hsame | ⟨-, hfree, -⟩ | ⟨-, hmine, hmem⟩
    · exact hsame.trans hlock
    · rw [hlock] at hfree
      cases hfree
    · rw [hlock] at hmine
      obtain rfl := Option.some.inj hmine
      rw [hrun] at hmem hrel
      exact absurd hmem hrel

/-- In history `t`, `A` calls `sleep(ch, lk)` with number `k`, then `B` takes `lk` and, before it
releases it, performs `wakeup(ch)`. -/
def WokenBy (t : List (ProcEvent n)) (A B : Fin n) (ch : Chan n) (lk : Lock n) (k : Nat) : Prop :=
  ∃ t₀ t₁ t₂ t₃ t₄, t = t₀ ++ .wakeupRet (some B) ch :: (t₁ ++ .wakeupCall (some B) ch ::
      (t₂ ++ .acquired (some B) lk :: (t₃ ++ .sleepCall A ch lk k :: t₄))) ∧
    .released (some B) lk ∉ t₁ ∧ .released (some B) lk ∉ t₂

/-- A process whose call of `sleep` was followed by a `wakeup` under the lock is awake. -/
def WokenInv (m : Machine C n) : Prop :=
  ∀ A B ch lk k, A ≠ B → WokenBy m.trace A B ch lk k → Woken m A k

/-- When `wakeup(ch)` returns to a caller that holds `lk`, every other process that called
`sleep(ch, lk)` is awake. -/
theorem awake_of_return (hw : WakingInv m) {j : Nat}
    (hd : Does m c (.wakeup ch j) rest op m') (hj : n ≤ j) (hrun : m.running c = some B)
    (hlock : m.lock lk = some c) (hproc : ∀ q, lk ≠ .proc q) (hAB : A ≠ B) : Awake m A ch lk := by
  refine hw B (.wakeup ch j) rest ch j lk ?_ rfl ?_ hproc A hAB (A.isLt.trans_le hj)
  · exact (hd.kstack_eq hrun).symm ▸ List.suffix_refl _
  · have hmem := (hd.inv.lock.lock_iff c lk).mp hlock
    rwa [held_of_live hd.live] at hmem

omit [DecidableEq C] [NeZero n] in
theorem SleepInv.woken_of_awake (hi : SleepInv m) (hcall : .sleepCall A ch lk k ∈ m.trace)
    (h : Awake m A ch lk) : Woken m A k := by
  intro g hg ch' lk' hg'
  obtain ⟨-, rfl, rfl⟩ := hi.trace.unique hcall (hi.calls A g hg ch' lk' k hg')
  exact h g hg k hg'

theorem WokenInv.step (hv : WokenInv m) (hi : SleepInv m) (hw : WakingInv m) (hh : HoldInv m)
    (hd : Does m c f rest op m') : WokenInv m' := by
  intro A B ch lk k hAB ⟨t₀, t₁, t₂, t₃, t₄, ht, ht₁, ht₂⟩
  rw [hd.trace] at ht
  have hwoken : (.sleepCall A ch lk k ∈ m.trace) ∧ Woken m A k := by
    rcases List.append_eq_append_iff.mp ht with ⟨u, rfl, hu⟩ | ⟨u, hev, hu⟩
    · rw [hu]
      exact ⟨by simp, hv A B ch lk k hAB ⟨u, t₁, t₂, t₃, t₄, hu, ht₁, ht₂⟩⟩
    · cases u with
      | nil => exact ⟨by rw [← List.nil_append m.trace, ← hu]; simp,
          hv A B ch lk k hAB ⟨[], t₁, t₂, t₃, t₄, hu.symm, ht₁, ht₂⟩⟩
      | cons e u =>
        -- this operation is the return from `wakeup`
        obtain ⟨rfl, hu'⟩ := List.cons.inj hu
        obtain ⟨hB, j, hj, rfl, hop⟩ := hd.logs (e := .wakeupRet (some B) ch) (by rw [hev]; simp)
        obtain ⟨-, rfl⟩ : t₀ = [] ∧ u = [] := by
          cases t₀ <;> simp_all [Op.events]
        have htrace : m.trace = _ := hu'.symm
        have hcall : .sleepCall A ch lk k ∈ m.trace := by
          rw [htrace]
          simp
        have hold : Holding B lk m.trace := by
          rw [htrace]
          exact Holding.append (Or.inr ⟨by simp, Holding.append (Or.inl rfl) ht₂⟩) ht₁
        have hproc := (hi.trace.lock hcall).1
        obtain ⟨d, hrun, hlock⟩ := hh B lk hproc hold
        obtain rfl := hd.inv.thread.exclusive d c B hrun hB.symm
        exact ⟨hcall, hi.woken_of_awake hcall (awake_of_return hw hd hj hrun hlock hproc hAB)⟩
  exact hwoken.2.step hd (hi.trace.lt_length hwoken.1)

/-! ### Every run -/

structure WakeInv (m : Machine C n) : Prop where
  switch : SwitchInv m
  sleep : SleepInv m
  waking : WakingInv m
  hold : HoldInv m
  woken : WokenInv m

theorem WakeInv.does (h : WakeInv m) (hd : Does m c f rest op m') : WakeInv m' :=
  ⟨hd.inv', h.sleep.does hd, h.waking.step h.sleep hd, h.hold.step hd,
    h.woken.step h.sleep h.waking h.hold hd⟩

theorem WakeInv.step (h : WakeInv m) {a : C × Choice n} (hstep : m.step a = some m') : WakeInv m' := by
  rcases h.switch.does hstep with ⟨e, rfl⟩ | ⟨f, rest, op, hd⟩
  · exact ⟨h.switch.fail e, h.sleep.fail e, h.waking, h.hold, h.woken⟩
  · exact h.does hd

omit [DecidableEq C] in
theorem WakeInv.boot : WakeInv (Machine.boot : Machine C n) := by
  refine ⟨SwitchInv.boot, SleepInv.boot, fun B f rest ch pos lk hsuffix hf => ?_,
    fun B l _ h => h.elim, fun A B ch lk k _ h => ?_⟩
  · obtain ⟨x, hx⟩ := hsuffix
    rw [SwitchInv.boot_kstack (k := f) (by rw [← hx]; simp)] at hf
    cases hf
  · obtain ⟨t₀, t₁, t₂, t₃, t₄, ht, -⟩ := h
    simp [Machine.boot] at ht

theorem wakeInv_run {as : List (C × Choice n)} (hrun : Run.exec Machine.step boot as = some m) :
    WakeInv m :=
  Run.exec_invariant (fun _ _ _ h _ hstep => h.step hstep) hrun Run.along_true
    WakeInv.boot

/-- Process `A` is `SLEEPING` on account of its call `k` of `sleep`. -/
def SleepsIn (m : Machine C n) (A : Fin n) (k : Nat) : Prop :=
  (m.proc A).state = .SLEEPING ∧ ∃ g ∈ m.kstack A, ∃ ch lk, g.sleepCall = some (ch, lk, k)

omit [DecidableEq C] [NeZero n] in
theorem WakeInv.not_sleepsIn (h : WakeInv m) (hw : Woken m A k) : ¬ SleepsIn m A k := by
  rintro ⟨hstate, g, hg, ch, lk, hcall⟩
  obtain ⟨f, rest, hstack, hf⟩ := h.sleep.asleep A hstate
  obtain ⟨-, hawake⟩ := hw g hg ch lk hcall
  rw [hstack] at hg
  rcases List.mem_cons.mp hg with rfl | hmem
  · exact hawake hf hstate
  · -- only the top frame belongs to `sleep`
    have hcallers := h.switch.thread.callers A
    rw [hstack] at hcallers
    have := hcallers.1.covered.resolve_left (by simp [Frame.covers_of_asleep hf]) g hmem
    rw [Frame.sleeps_of_sleepCall hcall] at this
    cases this

/-- `wakeup` is not lost, and `sleep` returns as it was called. -/
structure NoLostWakeup (m : Machine C n) : Prop where
  /-- from the return of a `wakeup(ch)` that `B` made under `lk` on, `A` does not sleep on account of
  a call of `sleep(ch, lk)` that it made before `B` took `lk` -/
  woken : ∀ A B ch lk k, A ≠ B → WokenBy m.trace A B ch lk k → ¬ SleepsIn m A k
  /-- `sleep(ch, lk)` returns with `lk` held and `p->chan` cleared -/
  returned : ∀ a m' p k t, m.step a = some m' → m.trace.length < m'.trace.length →
    m'.trace = .sleepRet p k :: t → ∃ ch lk, .sleepCall p ch lk k ∈ m.trace ∧
      m'.running a.1 = some p ∧ m'.lock lk = some a.1 ∧ (m'.proc p).chan = .null

theorem WakeInv.returned (h : WakeInv m) (hd : Does m c f rest op m')
    (hmem : .sleepRet p k ∈ op.events (m.running c)) :
    ∃ ch lk, .sleepCall p ch lk k ∈ m.trace ∧ m'.running c = some p ∧ m'.lock lk = some c ∧
      (m'.proc p).chan = .null := by
  obtain ⟨ch, lk, rfl, rfl⟩ := hd.logs hmem
  have hrun := hd.inv.thread.running_of_self hd.live rfl
  have hf : (.sleepRelock p ch lk k : Frame n) ∈ m.kstack p := by
    rw [hd.kstack_eq hrun]
    exact List.mem_cons_self
  obtain ⟨-, hlock, hkeep⟩ := hd.acquired (l := lk) (q := m.running c) (by simp [Op.events])
  refine ⟨ch, lk, h.sleep.calls p _ hf ch lk k rfl, hkeep.trans hrun, hlock, ?_⟩
  rcases hd.proc with heq | ⟨_, _, _, hop, -⟩
  · rw [heq]
    exact h.sleep.chan p _ hf .null rfl
  · cases hop

/-- **No lost wakeup**: in every run of any number of CPUs and processes. -/
theorem no_lost_wakeup (as : List (C × Choice n)) (m : Machine C n)
    (hrun : Run.exec Machine.step boot as = some m) : NoLostWakeup m := by
  have h := wakeInv_run hrun
  refine ⟨fun A B ch lk k hAB hw => h.not_sleepsIn (h.woken A B ch lk k hAB hw),
    fun a m' p k t hstep hlen ht => ?_⟩
  rcases h.switch.does hstep with ⟨e, rfl⟩ | ⟨f, rest, op, hd⟩
  · exact absurd hlen (lt_irrefl _)
  · refine h.returned hd ?_
    rw [hd.trace] at ht hlen
    cases hev : op.events (m.running a.1) with
    | nil =>
      rw [hev] at hlen
      exact absurd hlen (lt_irrefl _)
    | cons e es =>
      rw [hev] at ht
      rw [(List.cons.inj ht).1]
      exact List.mem_cons_self

/-- The two processes of `forkRun` run on two CPUs; the first sleeps and the second wakes it. -/
def sleepRun : List (Bool × Choice 2) :=
  forkRun ++ [(false, .acquire 7), (false, .sleep (.other 5) 7)] ++ List.replicate 6 (false, .go) ++
    [(true, .acquire 7), (true, .wakeup (.other 5))] ++ List.replicate 5 (true, .go)

theorem no_lost_wakeup_sleepRun :
    ∃ m, Run.exec Machine.step boot sleepRun = some m ∧
      WokenBy m.trace 0 1 (.other 5) (.other 7) 16 ∧ NoLostWakeup m := by
  have hrun : (Run.exec Machine.step boot sleepRun).map (fun m => m.trace.take 9) =
      some [.wakeupRet (some 1) (.other 5), .released (some 1) (.proc 0),
        .acquired (some 1) (.proc 0), .wakeupCall (some 1) (.other 5),
        .acquired (some 1) (.other 7), .released none (.proc 0), .released (some 0) (.other 7),
        .acquired (some 0) (.proc 0), .sleepCall 0 (.other 5) (.other 7) 16] := by decide +kernel
  obtain ⟨m, hm, ht⟩ := Option.map_eq_some_iff.mp hrun
  refine ⟨m, hm, ⟨[], [.released (some 1) (.proc 0), .acquired (some 1) (.proc 0)], [],
    [.released none (.proc 0), .released (some 0) (.other 7), .acquired (some 0) (.proc 0)],
    m.trace.drop 9, ?_, by simp, by simp⟩, no_lost_wakeup sleepRun m hm⟩
  rw [← List.take_append_drop 9 m.trace, ht]
  simp

end Machine

end Xv6

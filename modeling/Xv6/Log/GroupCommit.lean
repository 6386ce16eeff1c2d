import Xv6.Log.GroupInv

/-!
# Group commit never splits an operation

`TraceOk` says of every event of the trace that it came at the right time. It is kept by every step
because `OpsInv` and `PhaseInv` hold in the state before it, and the guarantees of group commit are
read off the trace.
-/

namespace Xv6

open LogEvent

variable {P : Type} [DecidableEq P] {g : LogArea} {s t : GroupState P} {a : LogAct P}

/-! ### The order of events -/

/-- The event `e` came at the right time, `t` being the events before it. -/
def EventOk (t : List LogEvent) : LogEvent → Prop
  | .began op => .committing ∉ window t ∧ ∀ e ∈ t, e.op? ≠ some op
  | .logged op _ => .committing ∉ window t ∧ .began op ∈ window t
  | .ended op => .began op ∈ window t
  | .headWritten bs => bs ≠ [] → bs.Nodup ∧ (∀ b, b ∈ bs ↔ LoggedIn (window t) b) ∧
      ∀ op, .began op ∈ window t → .ended op ∈ window t
  | .committed => (∃ hs, Closed (window t) hs) ∧ (∃ pins, PinsOk (window t) pins) ∧
      ∀ op, .began op ∈ window t → .ended op ∈ window t
  | _ => True

/-- Every event of the trace came at the right time. -/
def TraceOk : List LogEvent → Prop
  | [] => True
  | e :: t => EventOk t e ∧ TraceOk t

theorem TraceOk.of_suffix {e : LogEvent} {t u : List LogEvent} (h : TraceOk u)
    (hsuf : e :: t <:+ u) : EventOk t e := by
  induction u with
  | nil => simp at hsuf
  | cons x u ih =>
    rcases List.suffix_cons_iff.mp hsuf with heq | hsuf
    · cases heq; exact h.1
    · exact ih h.2 hsuf

theorem traceOk_step (hinv : PhaseInv s) (hops : OpsInv s) (htr : TraceOk s.trace)
    (hm : LogMove g s a t) (ht : t.panic = none) : TraceOk t.trace := by
  cases hm with
  | wait | startCommit | emptyCommit | endWriteLog | endInstall | clear => exact htr
  | begin p hp hc hroom =>
    have hg := hinv.phase.resolve_right fun h => by rw [hc] at h; cases h.1
    refine ⟨⟨hg.2.2.1, fun e he heq => ?_⟩, htr⟩
    exact absurd (hops.fresh e he _ heq) (Nat.lt_irrefl _)
  | tooBig | outsideTrans => exact htr
  | absorb p op b hp =>
    have hmem := hops.pc_open p op hp
    exact ⟨⟨(hinv.phase.of_open hmem).2.2.1, hops.open_began op hmem⟩, htr⟩
  | append p op b hp =>
    have hmem := hops.pc_open p op hp
    exact ⟨trivial, ⟨(hinv.phase.of_open hmem).2.2.1, hops.open_began op hmem⟩, htr⟩
  | endPanic p op hp hc t' ht' => rw [ht] at ht'; cases ht'
  | endLast p op hp => exact ⟨trivial, hops.open_began op (hops.pc_open p op hp), htr⟩
  | endOther p op hp => exact ⟨hops.open_began op (hops.pc_open p op hp), htr⟩
  | writeLog => exact ⟨trivial, htr⟩
  | writeHead p hp =>
    obtain ⟨-, hopen, -, hstage⟩ := hinv.phase.of_inCommit (by rw [hp]; rfl)
    rw [hp] at hstage
    exact ⟨fun _ => ⟨hinv.lh_nodup, hstage.1.listed, hops.all_ended hopen⟩, htr⟩
  | install => exact ⟨trivial, htr⟩
  | eraseHead p hp =>
    have hstage := (hinv.phase.of_inCommit (by rw [hp]; rfl)).2.2.2
    rw [hp] at hstage
    exact ⟨fun hne => absurd hstage.1 hne, htr⟩
  | finish p hp =>
    obtain ⟨-, hopen, -, hstage⟩ := hinv.phase.of_inCommit (by rw [hp]; rfl)
    rw [hp] at hstage
    exact ⟨⟨hstage.2, ⟨_, hinv.pins⟩, hops.all_ended hopen⟩, htr⟩

/-! ### The invariant of every run -/

structure GroupInv (s : GroupState P) : Prop where
  ops : OpsInv s
  phase : PhaseInv s
  trace : TraceOk s.trace
  panic : s.panic = none ∨ s.panic = some .tooBig

omit [DecidableEq P] in
theorem groupInv_init : GroupInv (GroupState.init : GroupState P) := by
  refine ⟨⟨rfl, List.nodup_nil, ?_, ?_, ?_, ?_, ?_⟩, ⟨Or.inl ⟨rfl, fun _ => rfl, ?_, ?_⟩,
    List.nodup_nil, ?_, ?_⟩, trivial, Or.inl rfl⟩
  all_goals simp [GroupState.init, LogHeader.empty, LoggedIn]
  exact ⟨⟨by simp [LoggedIn], by simp⟩, by simp⟩

omit [DecidableEq P] in
theorem GroupInv.fail (hinv : GroupInv s) : GroupInv (s.fail .tooBig) := by
  obtain ⟨⟨h1, h2, h3, h4, h5, h6, h7⟩, ⟨h8, h9, h10⟩, h11, -⟩ := hinv
  exact ⟨⟨h1, h2, h3, h4, h5, h6, h7⟩,
    ⟨h8.congr rfl id rfl rfl (fun _ _ => rfl) fun _ => rfl, h9, h10⟩, h11, Or.inr rfl⟩

theorem groupInv_step (hinv : GroupInv s) (hm : LogMove g s a t) (hs : s.panic = none) :
    GroupInv t := by
  by_cases ht : t.panic = none
  · exact ⟨opsInv_step hinv.ops hinv.phase.phase hm ht, phaseInv_step hinv.phase hinv.ops hm ht,
      traceOk_step hinv.phase hinv.ops hinv.trace hm ht, Or.inl ht⟩
  · cases hm with
    | tooBig => exact hinv.fail
    | outsideTrans p op b hp ho =>
      -- the operation of `p` is counted in `outstanding`
      have hlen := List.length_pos_of_mem (hinv.ops.pc_open p op hp)
      have := hinv.ops.outstanding_eq
      omega
    | endPanic p op hp hc =>
      have := (hinv.phase.phase.of_open (hinv.ops.pc_open p op hp)).1
      rw [hc] at this
      cases this
    | _ => exact absurd hs ht

theorem groupInv_run {as : List (LogAct P)}
    (hrun : Run.exec (GroupState.step g) .init as = some s) : GroupInv s :=
  Run.exec_invariant
    (fun _ _ _ hinv _ h => groupInv_step hinv (GroupState.step_move h).2 (GroupState.step_move h).1)
    hrun Run.along_true groupInv_init

/-! ### Operations and their groups -/

/-- Operation `op` has an event in the group that follows `n` completed commits. -/
def InGroup (tr : List LogEvent) (op n : Nat) : Prop :=
  ∃ e t, e :: t <:+ tr ∧ e.op? = some op ∧ t.count .committed = n

theorem suffix_of_mem_window {e : LogEvent} {t : List LogEvent} (h : e ∈ window t) :
    ∃ u, e :: u <:+ t ∧ u.count .committed = t.count .committed := by
  induction t with
  | nil => simp at h
  | cons x t ih =>
    by_cases hx : x = .committed
    · subst hx; simp at h
    · rw [window_cons, if_neg hx, List.mem_cons] at h
      rcases h with rfl | h
      · exact ⟨t, List.suffix_refl _, by rw [List.count_cons_of_ne hx]⟩
      · obtain ⟨u, hu, hcount⟩ := ih h
        exact ⟨u, hu.trans (List.suffix_cons x t), by rw [hcount, List.count_cons_of_ne hx]⟩

theorem TraceOk.began_unique {tr t u : List LogEvent} {op : Nat} (h : TraceOk tr)
    (ht : .began op :: t <:+ tr) (hu : .began op :: u <:+ tr) : t = u := by
  induction tr with
  | nil => simp at ht
  | cons x tr ih =>
    rcases List.suffix_cons_iff.mp ht with heq | ht' <;>
      rcases List.suffix_cons_iff.mp hu with heq' | hu'
    · rw [← heq'] at heq; injection heq
    · cases heq
      exact absurd rfl (h.1.2 _ (hu'.subset List.mem_cons_self))
    · cases heq'
      exact absurd rfl (h.1.2 _ (ht'.subset List.mem_cons_self))
    · exact ih h.2 ht' hu'

theorem TraceOk.began_same_group {tr t : List LogEvent} {e : LogEvent} {op : Nat} (h : TraceOk tr)
    (ht : e :: t <:+ tr) (he : e.op? = some op) :
    ∃ u, .began op :: u <:+ tr ∧ u.count .committed = t.count .committed := by
  have hok := h.of_suffix ht
  have hwin : e = .began op ∨ .began op ∈ window t := by
    cases e <;> simp only [LogEvent.op?, Option.some.injEq, reduceCtorEq] at he
    · subst he; exact Or.inl rfl
    · subst he; exact Or.inr hok.2
    · subst he; exact Or.inr hok
  rcases hwin with rfl | hwin
  · exact ⟨t, ht, rfl⟩
  · obtain ⟨u, hu, hcount⟩ := suffix_of_mem_window hwin
    exact ⟨u, hu.trans ((List.suffix_cons e t).trans ht), hcount⟩

theorem TraceOk.existsUnique_inGroup {tr : List LogEvent} {op : Nat} (h : TraceOk tr)
    (hop : .began op ∈ tr) : ∃! n, InGroup tr op n := by
  obtain ⟨a, t, rfl⟩ := List.append_of_mem hop
  have ht : .began op :: t <:+ a ++ .began op :: t := List.suffix_append _ _
  refine ⟨t.count .committed, ⟨_, t, ht, rfl, rfl⟩, ?_⟩
  rintro n ⟨e, u, hu, he, rfl⟩
  obtain ⟨v, hv, hcount⟩ := h.began_same_group hu he
  rw [← hcount, h.began_unique hv ht]

theorem TraceOk.loggedIn_iff {t : List LogEvent} (h : TraceOk t) (b : UInt32) :
    LoggedIn (window t) b ↔ ∃ op, .began op ∈ window t ∧ .logged op b ∈ t := by
  induction t with
  | nil => simp [LoggedIn]
  | cons x t ih =>
    by_cases hx : x = .committed
    · subst hx; simp [LoggedIn]
    · have ih := ih h.2
      rw [window_cons, if_neg hx, loggedIn_cons, ih]
      constructor
      · rintro (⟨op, rfl⟩ | ⟨op, h1, h2⟩)
        · exact ⟨op, List.mem_cons_of_mem _ h.1.2, List.mem_cons_self⟩
        · exact ⟨op, List.mem_cons_of_mem _ h1, List.mem_cons_of_mem _ h2⟩
      · rintro ⟨op, h1, h2⟩
        rcases List.mem_cons.mp h2 with rfl | h2'
        · exact Or.inl ⟨op, rfl⟩
        · rcases List.mem_cons.mp h1 with rfl | h1
          · exact absurd rfl (h.1.2 _ h2')
          · exact Or.inr ⟨op, h1, h2'⟩

theorem TraceOk.tail_of_suffix {e : LogEvent} {t u : List LogEvent} (h : TraceOk u)
    (hsuf : e :: t <:+ u) : TraceOk t := by
  induction u with
  | nil => simp at hsuf
  | cons x u ih =>
    rcases List.suffix_cons_iff.mp hsuf with heq | hsuf
    · cases heq; exact h.2
    · exact ih h.2 hsuf

/-- What group commit guarantees in a state and of the trace that led to it. A suffix `e :: t` of the
trace is the event `e` together with everything before it. -/
structure GroupCommit (s : GroupState P) : Prop where
  /-- no operation is in progress while a commit runs -/
  outstanding : s.committing = true → s.outstanding = 0
  /-- between setting `committing` and the end of the commit no `begin_op` returns and no
  `log_write` happens -/
  quiet : ∀ e t, e :: t <:+ s.trace → .committing ∈ window t →
    (∀ op, e ≠ .began op) ∧ ∀ op b, e ≠ .logged op b
  /-- a header lists exactly the blocks of the operations begun since the last commit, and these
  have all ended -/
  header : ∀ bs t, .headWritten bs :: t <:+ s.trace → bs ≠ [] →
    bs.Nodup ∧ (∀ b, b ∈ bs ↔ ∃ op, .began op ∈ window t ∧ .logged op b ∈ t) ∧
      ∀ op, .began op ∈ window t → .ended op ∈ window t
  /-- all events of an operation lie in one group -/
  one_group : ∀ op, .began op ∈ s.trace → ∃! n, InGroup s.trace op n
  /-- when a commit completes, each block its header listed was pinned once and unpinned once in the
  group, no other block was, and every operation of the group has ended -/
  pinned_once : ∀ t, .committed :: t <:+ s.trace →
    (∀ op, .began op ∈ window t → .ended op ∈ window t) ∧
    ∃ bs, (bs ≠ [] → .headWritten bs ∈ window t) ∧
      (∀ hs, .headWritten hs ∈ window t → hs ≠ [] → hs = bs) ∧
      ∀ b, (window t).count (.pinned b) = (if b ∈ bs then 1 else 0) ∧
        (window t).count (.unpinned b) = if b ∈ bs then 1 else 0
  /-- the pins of the log on a block number at most one -/
  pins : ∀ b, s.pins b = 0 ∨ s.pins b = 1
  no_panic : s.panic ≠ some .committing ∧ s.panic ≠ some .outsideTrans

theorem Closed.pinned {w : List LogEvent} {hs : List UInt32} {pins : UInt32 → Int} (h : Closed w hs)
    (hp : PinsOk w pins) (b : UInt32) : w.count (.pinned b) = if b ∈ hs then 1 else 0 := by
  rcases hp.once b with ⟨h1, h2⟩ | ⟨h1, h2⟩
  · rw [h1, if_pos ((h.listed b).mpr h2)]
  · rw [h1, if_neg fun hb => h2 ((h.listed b).mp hb)]

theorem StageOk.progress {w : List LogEvent} {bs : List UInt32} {k : LogPc} (h : StageOk w bs k) :
    ∃ bs done, Progress w bs done ∧ ∀ b ∈ done, b ∈ bs := by
  cases k with
  | commit => exact ⟨_, _, h.toProgress, nofun⟩
  | writeLog | writeHead => exact ⟨_, _, h.1.toProgress, nofun⟩
  | install | clear => exact ⟨_, _, h.1.toProgress, fun _ => List.mem_of_mem_take⟩
  | eraseHead | finish =>
    obtain ⟨-, hs, hclosed⟩ := h
    exact ⟨_, _, hclosed.toProgress, fun _ hb => hb⟩
  | _ => exact h.elim

omit [DecidableEq P] in
theorem PhaseInv.pins_cases (hinv : PhaseInv s) (b : UInt32) : s.pins b = 0 ∨ s.pins b = 1 := by
  have hprogress : ∃ bs done, Progress (window s.trace) bs done ∧ ∀ b ∈ done, b ∈ bs := by
    rcases hinv.phase with ⟨-, -, -, hg⟩ | ⟨-, -, p, -, hstage⟩
    · exact ⟨_, _, hg.toProgress, nofun⟩
    · exact hstage.progress
  obtain ⟨bs, done, hp, hsub⟩ := hprogress
  rw [hinv.pins.pins_eq b, hp.unpinned b]
  rcases hinv.pins.once b with ⟨h1, -⟩ | ⟨h1, h2⟩
  · split_ifs <;> omega
  · rw [if_neg fun hb => h2 ((hp.listed b).mp (hsub b hb)), h1]
    exact Or.inl rfl

/-- **Group commit never splits an operation**: in every run of any number of processes. -/
theorem group_commit (g : LogArea) (as : List (LogAct P)) (s : GroupState P)
    (hrun : Run.exec (GroupState.step g) .init as = some s) : GroupCommit s := by
  have hinv := groupInv_run hrun
  refine ⟨fun hc => ?_, fun e t hsuf hcom => ?_, fun bs t hsuf hne => ?_, fun op hop => ?_,
    fun t hsuf => ?_, hinv.phase.pins_cases, ?_⟩
  · rcases hinv.phase.phase with ⟨h, -⟩ | ⟨-, hopen, -⟩
    · rw [hc] at h; cases h
    · rw [hinv.ops.outstanding_eq, hopen]; rfl
  · have hok := hinv.trace.of_suffix hsuf
    refine ⟨fun op he => ?_, fun op b he => ?_⟩
    · subst he; exact hok.1 hcom
    · subst he; exact hok.1 hcom
  · obtain ⟨hnodup, hlisted, hended⟩ := hinv.trace.of_suffix hsuf hne
    refine ⟨hnodup, fun b => ?_, hended⟩
    rw [hlisted b, (hinv.trace.tail_of_suffix hsuf).loggedIn_iff]
  · exact hinv.trace.existsUnique_inGroup hop
  · obtain ⟨⟨hs, hclosed⟩, ⟨pins, hpinned⟩, hended⟩ := hinv.trace.of_suffix hsuf
    exact ⟨hended, hs, hclosed.head, hclosed.heads,
      fun b => ⟨hclosed.pinned hpinned b, hclosed.unpinned b⟩⟩
  · rcases hinv.panic with h | h <;> rw [h] <;> simp

/-- Two operations that overlap and share block 40, and the commit of the group they make. -/
def twoOpsRun : List (LogAct Bool) :=
  [.callBegin true, .beginOp true, .logWrite true 40, .callBegin false, .beginOp false,
    .logWrite false 41, .logWrite false 40, .endOp true, .endOp false] ++
  List.replicate 11 (.commitStep false)

theorem group_commit_twoOps :
    ∃ s, Run.exec (GroupState.step ⟨2, 30⟩) .init twoOpsRun = some s ∧
      .headWritten [40, 41] ∈ s.trace ∧ .committed ∈ s.trace ∧ GroupCommit s := by
  obtain ⟨s, hs⟩ := Option.isSome_iff_exists.mp
    (show (Run.exec (GroupState.step ⟨2, 30⟩) .init twoOpsRun).isSome from rfl)
  have htrace : ((Run.exec (GroupState.step ⟨2, 30⟩) .init twoOpsRun).map fun s =>
      decide (.headWritten [40, 41] ∈ s.trace ∧ .committed ∈ s.trace)) = some true := by
    decide +kernel
  rw [hs, Option.map_some, Option.some.injEq, decide_eq_true_eq] at htrace
  exact ⟨s, hs, htrace.1, htrace.2, group_commit _ _ s hs⟩

end Xv6

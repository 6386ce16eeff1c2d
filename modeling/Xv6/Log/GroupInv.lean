import Mathlib.Data.List.Count
import Xv6.Log.Group

/-!
# Invariants of group commit

The trace is cut into windows by its `committed` events; `window` is the part since the last one.
`OpsInv` counts the operations in progress, and `PhaseInv` says what the process that runs
`commit()` has done in the current window.
-/

namespace Xv6

open Function LogEvent

/-! ### Windows of the trace -/

/-- The events since the last completed commit. -/
def window (t : List LogEvent) : List LogEvent := t.takeWhile fun e => decide (e ≠ .committed)

@[simp] theorem window_nil : window [] = [] := rfl
@[simp] theorem window_committed (t : List LogEvent) : window (.committed :: t) = [] := by
  simp [window]

@[grind =] theorem window_cons (e : LogEvent) (t : List LogEvent) :
    window (e :: t) = if e = .committed then [] else e :: window t := by
  by_cases he : e = .committed <;> simp [window, he]

@[grind →] theorem mem_of_mem_window {e : LogEvent} {t : List LogEvent} (h : e ∈ window t) : e ∈ t :=
  (List.takeWhile_subset _) h

theorem window_append {es : List LogEvent} (hes : ∀ e ∈ es, e ≠ .committed) (t : List LogEvent) :
    window (es ++ t) = es ++ window t := by
  induction es with
  | nil => rfl
  | cons e es ih =>
    rw [List.cons_append, window_cons, if_neg (hes e List.mem_cons_self),
      ih fun x hx => hes x (List.mem_cons_of_mem _ hx), List.cons_append]

variable {P : Type} {g : LogArea} {s t : GroupState P} {a : LogAct P}

/-! ### Operations in progress -/

/-- `log.outstanding` counts the operations between their `begin_op` and `end_op`; each of them began
in the current window, and every other operation of the window has ended. -/
structure OpsInv (s : GroupState P) : Prop where
  outstanding_eq : s.outstanding = s.openOps.length
  open_nodup : s.openOps.Nodup
  pc_open : ∀ p op, s.pc p = .inOp op → op ∈ s.openOps
  pc_inj : ∀ p q op, s.pc p = .inOp op → s.pc q = .inOp op → p = q
  open_began : ∀ op ∈ s.openOps, .began op ∈ window s.trace
  began_cases : ∀ op, .began op ∈ window s.trace → op ∈ s.openOps ∨ .ended op ∈ window s.trace
  fresh : ∀ e ∈ s.trace, ∀ op, e.op? = some op → op < s.nextOp

/-- `OpsInv` reads only the operations in progress: it survives every step that leaves them alone and
records neither the begin nor the end of an operation. -/
theorem OpsInv.frame (hinv : OpsInv s) (ho : t.outstanding = s.outstanding)
    (hopen : t.openOps = s.openOps) (hnext : t.nextOp = s.nextOp)
    (hpc : ∀ p op, t.pc p = .inOp op ↔ s.pc p = .inOp op) (es : List LogEvent)
    (htrace : t.trace = es ++ s.trace)
    (hes : ∀ e ∈ es, e ≠ .committed ∧ (∀ op, e ≠ .began op) ∧ (∀ op, e ≠ .ended op) ∧
      ∀ op, e.op? = some op → op < s.nextOp) : OpsInv t := by
  have hwin : window t.trace = es ++ window s.trace := by
    rw [htrace]; exact window_append (fun e he => (hes e he).1) _
  have hbegan : ∀ op, .began op ∈ window t.trace ↔ .began op ∈ window s.trace := by
    intro op
    rw [hwin, List.mem_append]
    exact or_iff_right fun he => (hes _ he).2.1 op rfl
  refine ⟨by rw [ho, hopen]; exact hinv.outstanding_eq, by rw [hopen]; exact hinv.open_nodup,
    fun p op h => by rw [hopen]; exact hinv.pc_open p op ((hpc p op).mp h),
    fun p q op hp hq => hinv.pc_inj p q op ((hpc p op).mp hp) ((hpc q op).mp hq), ?_, ?_, ?_⟩
  · intro op hop
    rw [hopen] at hop
    exact (hbegan op).mpr (hinv.open_began op hop)
  · intro op hop
    rw [hopen, hwin]
    exact (hinv.began_cases op ((hbegan op).mp hop)).imp id fun h => List.mem_append_right _ h
  · intro e he op hop
    rw [htrace, List.mem_append] at he
    rw [hnext]
    exact he.elim (fun h => (hes e h).2.2.2 op hop) fun h => hinv.fresh e h op hop

theorem OpsInv.all_ended (hinv : OpsInv s) (hopen : s.openOps = []) (op : Nat)
    (hop : .began op ∈ window s.trace) : .ended op ∈ window s.trace := by
  refine (hinv.began_cases op hop).resolve_left fun h => ?_
  rw [hopen] at h
  cases h

theorem wakeLog_eq_iff {pc : P → LogPc} {q : P} {k : LogPc} (h1 : k ≠ .asleep) (h2 : k ≠ .beginOp) :
    wakeLog pc q = k ↔ pc q = k := by
  unfold wakeLog
  split_ifs with h
  · rw [h]; exact ⟨fun e => absurd e.symm h2, fun e => absurd e.symm h1⟩
  · rfl

variable [DecidableEq P]

theorem update_eq_inOp {pc : P → LogPc} {p q : P} {k : LogPc} {op : Nat}
    (hp : ∀ o, pc p ≠ .inOp o) (hk : ∀ o, k ≠ .inOp o) :
    update pc p k q = .inOp op ↔ pc q = .inOp op := by
  by_cases hq : q = p
  · subst hq
    rw [update_self]
    exact ⟨fun h => absurd h (hk op), fun h => absurd h (hp op)⟩
  · rw [update_of_ne hq]

theorem OpsInv.begin (hinv : OpsInv s) {p : P} (hp : s.pc p = .beginOp) :
    OpsInv { s.goto p (.inOp s.nextOp) with
      outstanding := s.outstanding + 1
      nextOp := s.nextOp + 1
      openOps := s.nextOp :: s.openOps
      trace := .began s.nextOp :: s.trace } := by
  obtain ⟨h1, h2, h3, h4, h5, h6, h7⟩ := hinv
  -- the new operation's number is larger than all numbers in the trace
  have hnew : s.nextOp ∉ s.openOps := fun h =>
    absurd (h7 _ (mem_of_mem_window (h5 _ h)) _ rfl) (Nat.lt_irrefl _)
  refine ⟨?_, List.nodup_cons.mpr ⟨hnew, h2⟩, ?_, ?_, ?_, ?_, ?_⟩
  · simp [h1]
  all_goals simp only [GroupState.goto]
  · intro q op hq
    by_cases hqp : q = p
    · subst hqp; simp at hq; simp [hq]
    · rw [update_of_ne hqp] at hq
      exact List.mem_cons_of_mem _ (h3 q op hq)
  · grind
  · grind
  · grind
  · grind [LogEvent.op?]

omit [DecidableEq P] in
theorem OpsInv.end (hinv : OpsInv s) {p : P} {op : Nat} (hp : s.pc p = .inOp op)
    (es : List LogEvent) (hes : es = [] ∨ es = [.committing]) (pc : P → LogPc)
    (hpc : ∀ q o, pc q = .inOp o ↔ q ≠ p ∧ s.pc q = .inOp o) (committing : Bool) :
    OpsInv { s with
      outstanding := s.outstanding - 1
      openOps := s.openOps.erase op
      committing := committing
      pc := pc
      trace := es ++ .ended op :: s.trace } := by
  obtain ⟨h1, h2, h3, h4, h5, h6, h7⟩ := hinv
  have hmem := h3 p op hp
  have hwin : window (es ++ .ended op :: s.trace) = es ++ .ended op :: window s.trace := by
    rcases hes with rfl | rfl <;> simp [window_cons]
  have hlen := List.length_erase_of_mem hmem
  have hpos := List.length_pos_of_mem hmem
  refine ⟨?_, h2.erase op, ?_, ?_, ?_, ?_, ?_⟩
  · show s.outstanding - 1 = ((s.openOps.erase op).length : Int)
    omega
  · intro q o hq
    obtain ⟨hne, hq⟩ := (hpc q o).mp hq
    exact (h2.mem_erase_iff).mpr ⟨fun ho => hne (h4 q p op (ho ▸ hq) hp), h3 q o hq⟩
  · intro q r o hq hr
    exact h4 q r o ((hpc q o).mp hq).2 ((hpc r o).mp hr).2
  · intro o ho
    rw [hwin]
    exact List.mem_append_right _ (List.mem_cons_of_mem _ (h5 o (List.mem_of_mem_erase ho)))
  · intro o ho
    rcases hes with rfl | rfl <;> grind
  · intro e he o ho
    rcases hes with rfl | rfl <;> grind [LogEvent.op?]

/-! ### Phases of the commit -/

/-- Block `b` was passed to `log_write` in the window `w`. -/
def LoggedIn (w : List LogEvent) (b : UInt32) : Prop := ∃ op, .logged op b ∈ w

/-- The blocks `bs` are those logged in the window, and those in `done` have been unpinned, once. -/
structure Progress (w : List LogEvent) (bs done : List UInt32) : Prop where
  listed : ∀ b, b ∈ bs ↔ LoggedIn w b
  unpinned : ∀ b, w.count (.unpinned b) = if b ∈ done then 1 else 0

/-- Nothing of the window has been committed: the header lists the logged blocks. -/
structure Gathering (w : List LogEvent) (bs : List UInt32) : Prop extends Progress w bs [] where
  heads : ∀ hs, .headWritten hs ∉ w

/-- The header has been written and the first `k` listed blocks are installed. -/
structure Installing (w : List LogEvent) (bs : List UInt32) (k : Nat) : Prop
    extends Progress w bs (bs.take k) where
  heads : ∀ hs, .headWritten hs ∈ w ↔ hs = bs

/-- The window is done: `bs` is the header it committed, empty if there was nothing to commit. -/
structure Closed (w : List LogEvent) (bs : List UInt32) : Prop extends Progress w bs bs where
  head : bs ≠ [] → .headWritten bs ∈ w
  heads : ∀ hs, .headWritten hs ∈ w → hs ≠ [] → hs = bs

/-- What the process that commits has done, by its program counter. -/
def StageOk (w : List LogEvent) (bs : List UInt32) : LogPc → Prop
  | .commit => Gathering w bs
  | .writeLog tail => Gathering w bs ∧ bs ≠ [] ∧ tail ≤ bs.length
  | .writeHead => Gathering w bs ∧ bs ≠ []
  | .install tail => Installing w bs tail ∧ bs ≠ []
  | .clear => Installing w bs bs.length ∧ bs ≠ []
  | .eraseHead => bs = [] ∧ ∃ hs, Closed w hs
  | .finish => bs = [] ∧ ∃ hs, Closed w hs
  | _ => False

/-- Either no commit is running, or exactly one process runs it and no operation is in progress. -/
def PhaseOk (s : GroupState P) : Prop :=
  (s.committing = false ∧ (∀ p, (s.pc p).inCommit = false) ∧ .committing ∉ window s.trace ∧
    Gathering (window s.trace) s.lh.block) ∨
  (s.committing = true ∧ s.openOps = [] ∧ ∃ p, (∀ q, (s.pc q).inCommit = true ↔ q = p) ∧
    StageOk (window s.trace) s.lh.block (s.pc p))

/-- Each block logged in the window was pinned once and no other block was; `pins` is the number of
pins that have not been undone. -/
structure PinsOk (w : List LogEvent) (pins : UInt32 → Int) : Prop where
  once : ∀ b, w.count (.pinned b) = 1 ∧ LoggedIn w b ∨ w.count (.pinned b) = 0 ∧ ¬ LoggedIn w b
  pins_eq : ∀ b, pins b = w.count (.pinned b) - w.count (.unpinned b)

structure PhaseInv (s : GroupState P) : Prop where
  phase : PhaseOk s
  lh_nodup : s.lh.block.Nodup
  pins : PinsOk (window s.trace) s.pins

variable {e : LogEvent} {w : List LogEvent} {bs done : List UInt32} {op : Nat} {b : UInt32}
  {pins : UInt32 → Int}

theorem loggedIn_cons : LoggedIn (e :: w) b ↔ (∃ op, e = .logged op b) ∨ LoggedIn w b := by
  simp only [LoggedIn, List.mem_cons, exists_or, eq_comm]

theorem loggedIn_cons_of_ne (he : ∀ op b, e ≠ .logged op b) (b : UInt32) :
    LoggedIn (e :: w) b ↔ LoggedIn w b := by
  rw [loggedIn_cons]
  exact or_iff_right fun ⟨op, h⟩ => he op b h

theorem Progress.cons (h : Progress w bs done) (he : ∀ op b, e ≠ .logged op b)
    (hu : ∀ b, e ≠ .unpinned b) : Progress (e :: w) bs done := by
  refine ⟨fun b => ?_, fun b => ?_⟩
  · rw [loggedIn_cons_of_ne he]
    exact h.listed b
  · rw [List.count_cons_of_ne (hu b)]
    exact h.unpinned b

theorem Gathering.cons (h : Gathering w bs) (he : ∀ op b, e ≠ .logged op b)
    (hu : ∀ b, e ≠ .unpinned b) (hh : ∀ hs, e ≠ .headWritten hs) : Gathering (e :: w) bs := by
  refine ⟨h.toProgress.cons he hu, fun hs => ?_⟩
  rw [List.mem_cons, not_or]
  exact ⟨(hh hs).symm, h.heads hs⟩

theorem Gathering.logged {bs' : List UInt32} (h : Gathering w bs) (hbs : ∀ x, x ∈ bs' ↔ x = b ∨ x ∈ bs) :
    Gathering (.logged op b :: w) bs' := by
  refine ⟨⟨fun x => ?_, fun x => ?_⟩, fun hs => ?_⟩
  · rw [hbs, loggedIn_cons, h.listed x]
    simp [eq_comm]
  · rw [List.count_cons_of_ne (by simp)]
    exact h.unpinned x
  · simpa using h.heads hs

section

omit [DecidableEq P]

/-- `PhaseOk` reads of the program counters only which process commits and how far it is. -/
theorem PhaseOk.congr (h : PhaseOk s) (hc : t.committing = s.committing)
    (hopen : s.openOps = [] → t.openOps = []) (hlh : t.lh.block = s.lh.block)
    (htrace : t.trace = s.trace) (hpc : ∀ q, (s.pc q).inCommit = true → t.pc q = s.pc q)
    (hpc' : ∀ q, (t.pc q).inCommit = (s.pc q).inCommit) : PhaseOk t := by
  rcases h with ⟨h1, h2, h3, h4⟩ | ⟨h1, h2, p, h3, h4⟩
  · refine Or.inl ⟨hc.trans h1, fun q => (hpc' q).trans (h2 q), ?_, ?_⟩
    · rw [htrace]; exact h3
    · rw [htrace, hlh]; exact h4
  · refine Or.inr ⟨hc.trans h1, hopen h2, p, fun q => by rw [hpc' q]; exact h3 q, ?_⟩
    rw [htrace, hlh, hpc p ((h3 p).mpr rfl)]
    exact h4

theorem PhaseOk.of_open (h : PhaseOk s) {op : Nat} (hop : op ∈ s.openOps) :
    s.committing = false ∧ (∀ p, (s.pc p).inCommit = false) ∧ .committing ∉ window s.trace ∧
      Gathering (window s.trace) s.lh.block := by
  rcases h with h | ⟨-, h, -⟩
  · exact h
  · rw [h] at hop; cases hop

theorem PhaseOk.of_inCommit (h : PhaseOk s) {p : P} (hp : (s.pc p).inCommit = true) :
    s.committing = true ∧ s.openOps = [] ∧ (∀ q, (s.pc q).inCommit = true ↔ q = p) ∧
      StageOk (window s.trace) s.lh.block (s.pc p) := by
  rcases h with ⟨-, h, -⟩ | ⟨hc, ho, c, huniq, hstage⟩
  · rw [h p] at hp; cases hp
  · obtain rfl := (huniq p).mp hp
    exact ⟨hc, ho, huniq, hstage⟩

end

theorem PinsOk.cons (h : PinsOk w pins)
    (he : ∀ op b, e ≠ .logged op b) (hp : ∀ b, e ≠ .pinned b) (hu : ∀ b, e ≠ .unpinned b) :
    PinsOk (e :: w) pins := by
  refine ⟨fun b => ?_, fun b => ?_⟩
  · rw [List.count_cons_of_ne (hp b), loggedIn_cons_of_ne he]; exact h.once b
  · rw [List.count_cons_of_ne (hp b), List.count_cons_of_ne (hu b)]; exact h.pins_eq b

theorem PinsOk.absorb (h : PinsOk w pins) (hb : LoggedIn w b) : PinsOk (.logged op b :: w) pins := by
  refine ⟨fun x => ?_, fun x => ?_⟩
  · have hx : LoggedIn (.logged op b :: w) x ↔ LoggedIn w x := by
      rw [loggedIn_cons]
      refine or_iff_right_of_imp ?_
      rintro ⟨o, ho⟩
      cases ho
      exact hb
    rw [hx]
    exact h.once x
  · rw [List.count_cons_of_ne (by simp)]; exact h.pins_eq x

theorem PinsOk.append (h : PinsOk w pins) (hb : ¬ LoggedIn w b) :
    PinsOk (.pinned b :: .logged op b :: w) (update pins b (pins b + 1)) := by
  refine ⟨fun x => ?_, fun x => ?_⟩
  · rw [loggedIn_cons_of_ne (by simp), loggedIn_cons]
    by_cases hx : x = b
    · subst hx
      have hnone := (h.once x).resolve_left fun hl => hb hl.2
      refine Or.inl ⟨?_, Or.inl ⟨op, rfl⟩⟩
      rw [List.count_cons_self, List.count_cons_of_ne (by simp), hnone.1]
    · have hne : ¬ ∃ o, LogEvent.logged op b = .logged o x := by
        rintro ⟨o, ho⟩
        cases ho
        exact hx rfl
      rw [List.count_cons_of_ne (by simp [Ne.symm hx]),
        or_iff_right hne]
      exact h.once x
  · rw [List.count_cons,
      List.count_cons_of_ne (by simp)]
    by_cases hx : x = b
    · subst hx; simp [h.pins_eq x]; omega
    · simp [update_of_ne hx, h.pins_eq x, Ne.symm hx]

theorem PinsOk.unpin (h : PinsOk w pins) (b : UInt32) :
    PinsOk (.unpinned b :: w) (update pins b (pins b - 1)) := by
  refine ⟨fun x => ?_, fun x => ?_⟩
  · rw [loggedIn_cons_of_ne (by simp)]; exact h.once x
  · rw [List.count_cons]
    by_cases hx : x = b
    · subst hx; simp [h.pins_eq x]; omega
    · simp [update_of_ne hx, h.pins_eq x, Ne.symm hx]

/-- The committing process moves on from `k₀` to `k`, and `es` happens. -/
theorem PhaseInv.advance (hinv : PhaseInv s) {p : P} {k₀ k : LogPc} (hp : s.pc p = k₀)
    (hk₀ : k₀.inCommit = true) (hk : k.inCommit = true) (hc : t.committing = s.committing)
    (hopen : t.openOps = s.openOps) (hpc : t.pc = update s.pc p k) (es : List LogEvent)
    (htrace : t.trace = es ++ s.trace) (hes : ∀ e ∈ es, e ≠ .committed) (hnodup : t.lh.block.Nodup)
    (hpins : PinsOk (es ++ window s.trace) t.pins)
    (hstage : StageOk (window s.trace) s.lh.block k₀ → StageOk (es ++ window s.trace) t.lh.block k) :
    PhaseInv t := by
  obtain ⟨h1, h2, h3, h4⟩ := hinv.phase.of_inCommit (hp ▸ hk₀)
  have hwin : window t.trace = es ++ window s.trace := htrace ▸ window_append hes _
  refine ⟨Or.inr ⟨hc.trans h1, hopen.trans h2, p, fun q => ?_, ?_⟩, hnodup, hwin ▸ hpins⟩
  · rw [hpc]
    by_cases hq : q = p
    · subst hq; simp [hk]
    · rw [update_of_ne hq]; exact h3 q
  · rw [hpc, update_self, hwin]
    exact hstage (hp ▸ h4)

omit [DecidableEq P] in
theorem inCommit_wakeLog (pc : P → LogPc) (q : P) : (wakeLog pc q).inCommit = (pc q).inCommit := by
  unfold wakeLog
  split_ifs with h
  · rw [h]; rfl
  · rfl

theorem inCommit_update {pc : P → LogPc} {p : P} {k : LogPc} (h : k.inCommit = (pc p).inCommit)
    (q : P) : (update pc p k q).inCommit = (pc q).inCommit := by
  by_cases hq : q = p
  · subst hq; rw [update_self, h]
  · rw [update_of_ne hq]

theorem Installing.unpin {tail : Nat} (h : Installing w bs tail) (hnodup : bs.Nodup)
    (hb : bs[tail]? = some b) : Installing (.unpinned b :: w) bs (tail + 1) := by
  have htake : bs.take (tail + 1) = bs.take tail ++ [b] := by
    rw [List.take_add_one, hb]; rfl
  -- `b` is at position `tail`, so it is not among the blocks already unpinned
  have hnew : b ∉ bs.take tail := by
    have := (List.take_sublist (tail + 1) bs).nodup hnodup
    rw [htake, List.nodup_append] at this
    exact fun hmem => this.2.2 b hmem b List.mem_cons_self rfl
  refine ⟨⟨fun x => ?_, fun x => ?_⟩, fun hs => ?_⟩
  · rw [loggedIn_cons_of_ne (by simp)]; exact h.listed x
  · rw [List.count_cons, h.unpinned x, htake]
    by_cases hx : x = b
    · subst hx; simp [hnew]
    · simp [hx, Ne.symm hx]
  · simpa using h.heads hs

theorem Installing.full {tail : Nat} (h : Installing w bs tail) (ht : bs.length ≤ tail) :
    Installing w bs bs.length := by
  have hp := h.toProgress
  rw [List.take_of_length_le ht] at hp
  exact ⟨by rwa [List.take_length], h.heads⟩

theorem Installing.closed (h : Installing w bs bs.length) : Closed w bs := by
  refine ⟨?_, fun _ => (h.heads bs).mpr rfl, fun hs hmem _ => (h.heads hs).mp hmem⟩
  have := h.toProgress
  rwa [List.take_length] at this

theorem Closed.eraseHead {hs : List UInt32} (h : Closed w hs) : Closed (.headWritten [] :: w) hs := by
  refine ⟨h.toProgress.cons nofun nofun, fun hne => List.mem_cons_of_mem _ (h.head hne), ?_⟩
  intro bs hmem hne
  rw [List.mem_cons] at hmem
  refine h.heads bs (hmem.resolve_left ?_) hne
  rintro ⟨⟩
  exact hne rfl

theorem Gathering.writeHead (h : Gathering w bs) : Installing (.headWritten bs :: w) bs 0 :=
  ⟨h.toProgress.cons nofun nofun, fun hs => by simp [h.heads hs]⟩

theorem Gathering.closed_nil (h : Gathering w []) : Closed w [] :=
  ⟨h.toProgress, fun hne => absurd rfl hne, fun hs hmem => absurd hmem (h.heads hs)⟩

theorem PhaseInv.finish (hinv : PhaseInv s) {p : P} (hp : s.pc p = .finish) :
    PhaseInv { s with
      committing := false
      pc := wakeLog (update s.pc p .idle)
      trace := .committed :: s.trace } := by
  obtain ⟨-, hopen, huniq, hstage⟩ := hinv.phase.of_inCommit (by rw [hp]; rfl)
  rw [hp] at hstage
  obtain ⟨hnil, hs, hclosed⟩ := hstage
  refine ⟨Or.inl ⟨rfl, fun q => ?_, by simp, ⟨fun b => ?_, by simp⟩, by simp⟩, hinv.lh_nodup,
    fun b => by simp [LoggedIn], fun b => ?_⟩
  · show (wakeLog (update s.pc p .idle) q).inCommit = false
    rw [inCommit_wakeLog]
    by_cases hq : q = p
    · subst hq; rw [update_self]; rfl
    · rw [update_of_ne hq, Bool.eq_false_iff]
      exact fun h => hq ((huniq q).mp h)
  · simp [hnil, LoggedIn]
  · show s.pins b = _
    rw [hinv.pins.pins_eq b, hclosed.unpinned b]
    rcases hinv.pins.once b with ⟨h1, h2⟩ | ⟨h1, h2⟩
    · simp [h1, (hclosed.listed b).mpr h2]
    · have : b ∉ hs := fun hb => h2 ((hclosed.listed b).mp hb)
      simp [h1, this]

theorem PhaseInv.endLast (hinv : PhaseInv s) (hops : OpsInv s) {p : P} {op : Nat}
    (hp : s.pc p = .inOp op) (ho : s.outstanding - 1 = 0) :
    PhaseInv { s.goto p .commit with
      outstanding := s.outstanding - 1
      openOps := s.openOps.erase op
      committing := true
      trace := .committing :: .ended op :: s.trace } := by
  have hmem := hops.pc_open p op hp
  obtain ⟨-, hpcs, -, hgather⟩ := hinv.phase.of_open hmem
  have hempty : s.openOps.erase op = [] := by
    apply List.length_eq_zero_iff.mp
    have := hops.outstanding_eq
    rw [List.length_erase_of_mem hmem]
    omega
  have hwin : window (.committing :: .ended op :: s.trace) = [.committing, .ended op] ++ window s.trace :=
    window_append (by simp : ∀ e ∈ [LogEvent.committing, .ended op], e ≠ .committed) _
  refine ⟨Or.inr ⟨rfl, hempty, p, fun q => ?_, ?_⟩, hinv.lh_nodup, ?_⟩
  · show (update s.pc p .commit q).inCommit = true ↔ q = p
    by_cases hq : q = p
    · subst hq; simp [LogPc.inCommit]
    · rw [update_of_ne hq, hpcs q]; simp [hq]
  · show StageOk _ _ (update s.pc p .commit p)
    rw [update_self]
    exact Gathering.cons (hgather.cons nofun nofun nofun) nofun nofun nofun
  · rw [hwin]
    exact PinsOk.cons (hinv.pins.cons nofun nofun nofun) nofun nofun nofun

omit [DecidableEq P] in
theorem PhaseInv.gather (hc : t.committing = false)
    (hpcs : ∀ q, (t.pc q).inCommit = (s.pc q).inCommit) (hout : ∀ q, (s.pc q).inCommit = false)
    (hno : .committing ∉ window s.trace) (es : List LogEvent) (htrace : t.trace = es ++ s.trace)
    (hes : ∀ e ∈ es, e ≠ .committed ∧ e ≠ .committing)
    (hgather : Gathering (es ++ window s.trace) t.lh.block) (hnodup : t.lh.block.Nodup)
    (hpins : PinsOk (es ++ window s.trace) t.pins) : PhaseInv t := by
  have hwin : window t.trace = es ++ window s.trace :=
    htrace ▸ window_append (fun e he => (hes e he).1) _
  refine ⟨Or.inl ⟨hc, fun q => (hpcs q).trans (hout q), ?_, hwin ▸ hgather⟩, hnodup, hwin ▸ hpins⟩
  rw [hwin, List.mem_append]
  exact fun h => h.elim (fun he => (hes _ he).2 rfl) hno

theorem phaseInv_step (hinv : PhaseInv s) (hops : OpsInv s) (hm : LogMove g s a t)
    (ht : t.panic = none) : PhaseInv t := by
  obtain ⟨hphase, hnodup, hpins⟩ := id hinv
  cases hm with
  | wait a p k hp hk =>
    have hout : (s.pc p).inCommit = false := by rcases hp with h | h | h <;> rw [h] <;> rfl
    have hk' : k.inCommit = (s.pc p).inCommit := by rcases hk with rfl | rfl <;> rw [hout] <;> rfl
    refine ⟨hphase.congr rfl id rfl rfl (fun q hq => ?_) (inCommit_update hk'), hnodup, hpins⟩
    exact update_of_ne (fun heq => by rw [heq, hout] at hq; cases hq) _ _
  | begin p hp hc hroom =>
    obtain ⟨-, hout, hno, hgather⟩ := hphase.resolve_right fun h => by rw [hc] at h; cases h.1
    exact PhaseInv.gather hc (inCommit_update (by rw [hp]; rfl)) hout hno [.began s.nextOp] rfl (by simp)
      (hgather.cons nofun nofun nofun) hnodup (hpins.cons nofun nofun nofun)
  | tooBig | outsideTrans => simp [GroupState.fail] at ht
  | absorb p op b hp hb lh hlh =>
    obtain ⟨hc, hout, hno, hgather⟩ := hphase.of_open (hops.pc_open p op hp)
    refine PhaseInv.gather (s := s) hc (fun _ => rfl) hout hno [.logged op b] rfl (by simp) ?_ (hlh ▸ hnodup)
      (hpins.absorb ((hgather.listed b).mp hb))
    rw [hlh]
    exact hgather.logged fun x => ⟨Or.inr, fun h => h.elim (fun hx => hx ▸ hb) id⟩
  | append p op b hp hb hroom lh hlh =>
    obtain ⟨hc, hout, hno, hgather⟩ := hphase.of_open (hops.pc_open p op hp)
    refine PhaseInv.gather (s := s) hc (fun _ => rfl) hout hno [.pinned b, .logged op b] rfl (by simp) ?_ ?_
      (hpins.append fun h => hb ((hgather.listed b).mpr h))
    · rw [hlh]
      refine Gathering.cons (hgather.logged fun x => ?_) nofun nofun nofun
      rw [List.mem_append, List.mem_singleton, or_comm]
    · rw [hlh]
      exact List.nodup_append.mpr ⟨hnodup, by simp, fun x hx y hy => by
        rw [List.mem_singleton] at hy; rintro rfl; exact hb (hy ▸ hx)⟩
  | endPanic p op hp hc t' ht' => rw [ht] at ht'; cases ht'
  | endLast p op hp hc ho => exact hinv.endLast hops hp ho
  | endOther p op hp hc ho =>
    obtain ⟨-, hout, hno, hgather⟩ := hphase.of_open (hops.pc_open p op hp)
    refine PhaseInv.gather hc (fun q => ?_) hout hno [.ended op] rfl (by simp)
      (hgather.cons nofun nofun nofun) hnodup (hpins.cons nofun nofun nofun)
    show (wakeLog _ q).inCommit = _
    rw [inCommit_wakeLog, inCommit_update (by rw [hp]; rfl)]
  | startCommit p hp hn =>
    exact hinv.advance hp rfl rfl rfl rfl rfl [] rfl nofun hnodup hpins fun h =>
      ⟨h, List.ne_nil_of_length_pos hn, Nat.zero_le _⟩
  | emptyCommit p hp hn =>
    have hnil : s.lh.block = [] := List.length_eq_zero_iff.mp hn
    refine hinv.advance hp rfl rfl rfl rfl rfl [] rfl nofun hnodup hpins fun h => ⟨hnil, [], ?_⟩
    rw [hnil] at h
    exact Gathering.closed_nil h
  | writeLog p tail hp hn =>
    exact hinv.advance hp rfl rfl rfl rfl rfl [_] rfl (by simp) hnodup (hpins.cons nofun nofun nofun)
      fun h => ⟨h.1.cons nofun nofun nofun, h.2.1, hn⟩
  | endWriteLog p tail hp =>
    exact hinv.advance hp rfl rfl rfl rfl rfl [] rfl nofun hnodup hpins fun h => ⟨h.1, h.2.1⟩
  | writeHead p hp =>
    exact hinv.advance hp rfl rfl rfl rfl rfl [_] rfl (by simp) hnodup (hpins.cons nofun nofun nofun)
      fun h => ⟨h.1.writeHead, h.2⟩
  | install p tail b hp hb =>
    exact hinv.advance hp rfl rfl rfl rfl rfl [_] rfl (by simp) hnodup (hpins.unpin b)
      fun h => ⟨h.1.unpin hnodup hb, h.2⟩
  | endInstall p tail hp hb =>
    exact hinv.advance hp rfl rfl rfl rfl rfl [] rfl nofun hnodup hpins fun h => ⟨h.1.full hb, h.2⟩
  | clear p hp =>
    exact hinv.advance hp rfl rfl rfl rfl rfl [] rfl nofun List.nodup_nil hpins fun h =>
      ⟨rfl, _, h.1.closed⟩
  | eraseHead p hp =>
    refine hinv.advance hp rfl rfl rfl rfl rfl [_] rfl (by simp) hnodup (hpins.cons nofun nofun nofun)
      fun ⟨hnil, hs, hclosed⟩ => ⟨hnil, hs, ?_⟩
    rw [hnil]
    exact hclosed.eraseHead
  | finish p hp => exact hinv.finish hp

theorem opsInv_step (hinv : OpsInv s) (hphase : PhaseOk s) (hm : LogMove g s a t)
    (ht : t.panic = none) : OpsInv t := by
  cases hm with
  | wait a p k hp hk =>
    refine hinv.frame rfl rfl rfl (fun q op => update_eq_inOp ?_ ?_) [] rfl (by simp)
    · intro o; rcases hp with h | h | h <;> rw [h] <;> simp
    · intro o; rcases hk with rfl | rfl <;> simp
  | begin p hp hc hroom => exact hinv.begin hp
  | tooBig | outsideTrans => simp [GroupState.fail] at ht
  | absorb p op b hp hb lh hlh =>
    have hop := hinv.fresh _ (mem_of_mem_window (hinv.open_began op (hinv.pc_open p op hp))) op rfl
    exact hinv.frame rfl rfl rfl (fun _ _ => Iff.rfl) [.logged op b] rfl (by simp [LogEvent.op?, hop])
  | append p op b hp hb hroom lh hlh =>
    have hop := hinv.fresh _ (mem_of_mem_window (hinv.open_began op (hinv.pc_open p op hp))) op rfl
    exact hinv.frame rfl rfl rfl (fun _ _ => Iff.rfl) [.pinned b, .logged op b] rfl
      (by simp [LogEvent.op?, hop])
  | endPanic p op hp hc t' ht' => rw [ht] at ht'; cases ht'
  | endLast p op hp hc ho =>
    refine hinv.end hp [.committing] (Or.inr rfl) (update s.pc p .commit) (fun q o => ?_) true
    by_cases hq : q = p
    · subst hq; simp
    · rw [update_of_ne hq]; simp [hq]
  | endOther p op hp hc ho =>
    refine hinv.end hp [] (Or.inl rfl) (wakeLog (update s.pc p .idle)) (fun q o => ?_)
      s.committing
    rw [wakeLog_eq_iff (by simp) (by simp)]
    by_cases hq : q = p
    · subst hq; simp
    · rw [update_of_ne hq]; simp [hq]
  | startCommit p hp | emptyCommit p hp | endWriteLog p tail hp | endInstall p tail hp | clear p hp =>
    exact hinv.frame rfl rfl rfl (fun q op => update_eq_inOp (by simp [hp]) (by simp)) [] rfl (by simp)
  | writeLog p tail hp =>
    exact hinv.frame rfl rfl rfl (fun q op => update_eq_inOp (by simp [hp]) (by simp))
      [.wroteLog (g.start + tail + 1)] rfl (by simp [LogEvent.op?])
  | writeHead p hp | eraseHead p hp =>
    exact hinv.frame rfl rfl rfl (fun q op => update_eq_inOp (by simp [hp]) (by simp))
      [.headWritten s.lh.block] rfl (by simp [LogEvent.op?])
  | install p tail b hp =>
    exact hinv.frame rfl rfl rfl (fun q op => update_eq_inOp (by simp [hp]) (by simp))
      [.unpinned b] rfl (by simp [LogEvent.op?])
  | finish p hp =>
    -- the new window is empty, and so is the list of operations in progress
    have hopen := (hphase.of_inCommit (by rw [hp]; rfl)).2.1
    obtain ⟨h1, h2, h3, h4, h5, h6, h7⟩ := hinv
    have hpc : ∀ q op, wakeLog (update s.pc p .idle) q = .inOp op ↔ s.pc q = .inOp op :=
      fun q op => by
        rw [wakeLog_eq_iff (by simp) (by simp)]
        exact update_eq_inOp (by simp [hp]) (by simp)
    refine ⟨h1, h2, fun q op hq => h3 q op ((hpc q op).mp hq),
      fun q r op hq hr => h4 q r op ((hpc q op).mp hq) ((hpc r op).mp hr), ?_, by simp, ?_⟩
    · intro op hop
      rw [show s.openOps = [] from hopen] at hop
      cases hop
    · intro e he op hop
      rw [List.mem_cons] at he
      rcases he with rfl | he
      · cases hop
      · exact h7 e he op hop

end Xv6

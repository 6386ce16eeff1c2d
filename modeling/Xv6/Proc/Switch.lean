import Xv6.Proc.Frames

/-!
# Locks, stacks and CPUs

`LockInv` ties the lock table to the frames on the stacks on which the CPUs run. `ThreadInv` says
which stacks these are, and `StateInv` relates them to `p->state`: a process is `RUNNING`, or holds
its lock on the way into the scheduler, while it is `c->proc` of a CPU, and its `context` is its stack
while it is not on a CPU.
-/

namespace Xv6.Machine

open Function

variable {C : Type} [DecidableEq C] {n : Nat} {m m' : Machine C n} {c d : C}
  {f : Frame n} {fs rest old new : List (Frame n)} {p i : Fin n}

/-! ### The stack on which a CPU runs -/

section

omit [DecidableEq C]

theorem live_of_running (h : m.running c = some p) : m.live c = m.kstack p := by
  simp only [live, h]

theorem live_of_idle (h : m.running c = none) : m.live c = m.sstack c := by
  simp only [live, h]

theorem live_congr (hr : m'.running d = m.running d)
    (hk : ∀ q, m.running d = some q → m'.kstack q = m.kstack q) (hs : m'.sstack d = m.sstack d) :
    m'.live d = m.live d := by
  unfold live
  rw [hr]
  cases h : m.running d with
  | some q => exact hk q h
  | none => exact hs

end

@[simp] theorem setLive_proc : (m.setLive c fs).proc = m.proc := by unfold setLive; split <;> rfl
@[simp] theorem setLive_context : (m.setLive c fs).context = m.context := by unfold setLive; split <;> rfl
@[simp] theorem setLive_cproc : (m.setLive c fs).cproc = m.cproc := by unfold setLive; split <;> rfl
@[simp] theorem setLive_running : (m.setLive c fs).running = m.running := by unfold setLive; split <;> rfl
@[simp] theorem setLive_noff : (m.setLive c fs).noff = m.noff := by unfold setLive; split <;> rfl
@[simp] theorem setLive_lock : (m.setLive c fs).lock = m.lock := by unfold setLive; split <;> rfl
@[simp] theorem setLive_life : (m.setLive c fs).life = m.life := by unfold setLive; split <;> rfl
@[simp] theorem setLive_births : (m.setLive c fs).births = m.births := by unfold setLive; split <;> rfl
@[simp] theorem setLive_nextpid : (m.setLive c fs).nextpid = m.nextpid := by unfold setLive; split <;> rfl
@[simp] theorem setLive_trace : (m.setLive c fs).trace = m.trace := by unfold setLive; split <;> rfl
@[simp] theorem setLive_panic : (m.setLive c fs).panic = m.panic := by unfold setLive; split <;> rfl

theorem setLive_kstack_running (h : m.running c = some p) :
    (m.setLive c fs).kstack = update m.kstack p fs := by
  simp only [setLive, h]

theorem setLive_kstack_self (h : m.running c = some p) : (m.setLive c fs).kstack p = fs := by
  rw [setLive_kstack_running h, update_self]

theorem setLive_sstack_running (h : m.running c = some p) : (m.setLive c fs).sstack = m.sstack := by
  simp only [setLive, h]

theorem setLive_kstack_idle (h : m.running c = none) : (m.setLive c fs).kstack = m.kstack := by
  simp only [setLive, h]

theorem setLive_sstack_idle (h : m.running c = none) :
    (m.setLive c fs).sstack = update m.sstack c fs := by
  simp only [setLive, h]

theorem setLive_kstack_of_ne (h : m.running c ≠ some p) : (m.setLive c fs).kstack p = m.kstack p := by
  cases hc : m.running c with
  | some q =>
    rw [setLive_kstack_running hc, update_of_ne]
    rintro rfl
    exact h hc
  | none => rw [setLive_kstack_idle hc]

/-- The stack on which CPU `c` runs goes from `old` to `new`, and no other stack changes. -/
structure Moved (m m' : Machine C n) (c : C) (old new : List (Frame n)) : Prop where
  live : m.live c = old
  running : m'.running = m.running
  kstack_running : ∀ p, m.running c = some p → m'.kstack = update m.kstack p new
  sstack_running : ∀ p, m.running c = some p → m'.sstack = m.sstack
  kstack_idle : m.running c = none → m'.kstack = m.kstack
  sstack_idle : m.running c = none → m'.sstack = update m.sstack c new

theorem Moved.setLive (m₁ : Machine C n) (hlive : m.live c = old)
    (hrunning : m₁.running = m.running) (hkstack : m₁.kstack = m.kstack)
    (hsstack : m₁.sstack = m.sstack) (ev : List (ProcEvent n)) :
    Moved m ((m₁.setLive c new).log ev) c old new := by
  have hrun : ∀ q, m.running c = q → m₁.running c = q := fun q h => hrunning ▸ h
  refine ⟨hlive, setLive_running.trans hrunning, fun p h => ?_, fun p h => ?_, fun h => ?_, fun h => ?_⟩
  · exact hkstack ▸ setLive_kstack_running (hrun _ h)
  · exact (setLive_sstack_running (hrun _ h)).trans hsstack
  · exact (setLive_kstack_idle (hrun _ h)).trans hkstack
  · exact hsstack ▸ setLive_sstack_idle (hrun _ h)

section

variable (h : Moved m m' c old new)
include h

theorem Moved.kstack_of_ne (hp : m.running c ≠ some p) :
    m'.kstack p = m.kstack p := by
  cases hc : m.running c with
  | some q =>
    rw [h.kstack_running q hc, update_of_ne]
    rintro rfl
    exact hp hc
  | none => rw [h.kstack_idle hc]

theorem Moved.kstack_self (hp : m.running c = some p) :
    m'.kstack p = new := by
  rw [h.kstack_running p hp, update_self]

theorem Moved.kstack_before (hp : m.running c = some p) :
    m.kstack p = old := by
  rw [← live_of_running hp, h.live]

theorem Moved.sstack_of_ne (hd : d ≠ c) : m'.sstack d = m.sstack d := by
  cases hc : m.running c with
  | some q => rw [h.sstack_running q hc]
  | none => rw [h.sstack_idle hc, update_of_ne hd]

theorem Moved.forall_kstack {P : Fin n → List (Frame n) → Prop}
    (hnew : ∀ p, m.running c = some p → P p new) (hold : ∀ p, P p (m.kstack p)) (p : Fin n) :
    P p (m'.kstack p) := by
  by_cases hp : m.running c = some p
  · rw [h.kstack_self hp]
    exact hnew p hp
  · rw [h.kstack_of_ne hp]
    exact hold p

theorem Moved.live_self : m'.live c = new := by
  cases hrun : m.running c with
  | some p =>
    rw [live_of_running (by rw [h.running]; exact hrun), h.kstack_running p hrun, update_self]
  | none =>
    rw [live_of_idle (by rw [h.running]; exact hrun), h.sstack_idle hrun, update_self]

end

def Exclusive (m : Machine C n) : Prop :=
  ∀ c d p, m.running c = some p → m.running d = some p → c = d

theorem Moved.live_of_ne (h : Moved m m' c old new) (hexcl : Exclusive m) (hd : d ≠ c) :
    m'.live d = m.live d :=
  live_congr (by rw [h.running]) (fun q hq => h.kstack_of_ne fun hc => hd (hexcl d c q hq hc)) (h.sstack_of_ne hd)

/-! ### Locks -/

def held (m : Machine C n) (c : C) : List (Lock n) := stackLocks (m.live c)

structure LockInv (m : Machine C n) : Prop where
  lock_iff : ∀ c l, m.lock l = some c ↔ l ∈ m.held c
  nodup : ∀ c, (m.held c).Nodup
  noff_eq : ∀ c, m.noff c = (m.held c).length

omit [DecidableEq C] in
theorem LockInv.same (h : LockInv m) (hlock : m'.lock = m.lock) (hnoff : m'.noff = m.noff)
    (hheld : ∀ d, (m'.held d).Perm (m.held d)) : LockInv m' := by
  refine ⟨fun d l => ?_, fun d => ?_, fun d => ?_⟩
  · rw [hlock, h.lock_iff, (hheld d).mem_iff]
  · exact (hheld d).nodup_iff.mpr (h.nodup d)
  · rw [hnoff, h.noff_eq, (hheld d).length_eq]

/-- Only CPU `c` and the lock `l` change. -/
theorem LockInv.change (h : LockInv m) {l : Lock n} {o : Option C} {k : Nat} (hlock : m'.lock = update m.lock l o)
    (hnoff : m'.noff = update m.noff c k) (hother : ∀ d, d ≠ c → m'.held d = m.held d ∧ o ≠ some d ∧ l ∉ m.held d)
    (hself : ∀ x, x ≠ l → (x ∈ m'.held c ↔ x ∈ m.held c)) (hl : o = some c ↔ l ∈ m'.held c)
    (hnodup : (m'.held c).Nodup) (hk : k = (m'.held c).length) : LockInv m' := by
  refine ⟨fun d x => ?_, fun d => ?_, fun d => ?_⟩ <;> by_cases hd : d = c
  · subst hd
    rw [hlock]
    by_cases hx : x = l
    · rw [hx, update_self, hl]
    · rw [update_of_ne hx, hself x hx, h.lock_iff]
  · obtain ⟨heq, ho, hmem⟩ := hother d hd
    rw [hlock, heq]
    by_cases hx : x = l
    · rw [hx, update_self]
      exact iff_of_false ho hmem
    · rw [update_of_ne hx, h.lock_iff]
  · exact hd ▸ hnodup
  · exact (hother d hd).1 ▸ h.nodup d
  · rw [hd, hnoff, update_self, hk]
  · rw [hnoff, update_of_ne hd, (hother d hd).1, h.noff_eq]

theorem LockInv.acquire (h : LockInv m) {l : Lock n} (hfree : m.lock l = none)
    (hlock : m'.lock = update m.lock l (some c))
    (hnoff : m'.noff = update m.noff c (m.noff c + 1))
    (hself : (m'.held c).Perm (l :: m.held c)) (hother : ∀ d, d ≠ c → m'.held d = m.held d) :
    LockInv m' := by
  have hnew : ∀ d, l ∉ m.held d := fun d hl => by
    rw [← h.lock_iff, hfree] at hl
    cases hl
  refine h.change hlock hnoff (fun d hd => ⟨hother d hd, by simpa using Ne.symm hd, hnew d⟩) (fun x hx => ?_)
    (iff_of_true rfl (hself.mem_iff.mpr List.mem_cons_self))
    (hself.nodup_iff.mpr (List.nodup_cons.mpr ⟨hnew c, h.nodup c⟩)) ?_
  · rw [hself.mem_iff, List.mem_cons, or_iff_right hx]
  · rw [hself.length_eq, List.length_cons, h.noff_eq]

theorem LockInv.release (h : LockInv m) {l : Lock n}
    (hlock : m'.lock = update m.lock l none)
    (hnoff : m'.noff = update m.noff c (m.noff c - 1))
    (hself : (m.held c).Perm (l :: m'.held c)) (hother : ∀ d, d ≠ c → m'.held d = m.held d) :
    LockInv m' := by
  have hmem : l ∈ m.held c := hself.mem_iff.mpr List.mem_cons_self
  obtain ⟨hnot, hnodup⟩ := List.nodup_cons.mp (hself.nodup_iff.mp (h.nodup c))
  -- no other CPU holds `l`
  have honly : ∀ d, d ≠ c → l ∉ m.held d := fun d hd hl => by
    have h1 := (h.lock_iff d l).mpr hl
    rw [(h.lock_iff c l).mpr hmem] at h1
    exact hd (Option.some.inj h1).symm
  refine h.change hlock hnoff (fun d hd => ⟨hother d hd, nofun, honly d hd⟩) (fun x hx => ?_)
    (iff_of_false nofun hnot) hnodup ?_
  · rw [hself.mem_iff, List.mem_cons, or_iff_right hx]
  · rw [h.noff_eq, hself.length_eq, List.length_cons, Nat.add_sub_cancel]

omit [DecidableEq C] in
theorem LockInv.held_eq (h : LockInv m) {l : Lock n} (hlock : m.lock l = some c)
    (hnoff : m.noff c = 1) : m.held c = [l] := by
  have hmem := (h.lock_iff c l).mp hlock
  obtain ⟨k, hk⟩ := List.length_eq_one_iff.mp ((h.noff_eq c).symm.trans hnoff)
  rw [hk, List.mem_singleton] at hmem
  rw [hk, hmem]

/-! ### Stacks -/

/-- The scheduler stack of a CPU that has `q` in `c->proc`: a frame of `scheduler`, with frames of an
interrupt handler above it only while no process is chosen. -/
def SchedOk (q : Option (Fin n)) (fs : List (Frame n)) : Prop :=
  ∃ is g, fs = is ++ [g] ∧ g.isSched = true ∧ g.chosen = q ∧ (is ≠ [] → g.chosen = none) ∧
    ∀ f ∈ is, f.isIntr = true

theorem callersOk_forkret (p : Fin n) : CallersOk [.forkret p] :=
  ⟨⟨by simp [Frame.sleeps], Or.inr (by simp), Or.inr (Or.inl (by simp))⟩, trivial⟩

structure ThreadInv (m : Machine C n) : Prop where
  running_cproc : ∀ c p, m.running c = some p → m.cproc c = some p
  running_sstack : ∀ c p, m.running c = some p → m.sstack c = [.schedBack p]
  idle : ∀ c, m.running c = none → SchedOk (m.cproc c) (m.sstack c)
  cproc_inj : ∀ c d p, m.cproc c = some p → m.cproc d = some p → c = d
  self : ∀ p, ∀ f ∈ m.kstack p, ∀ q, f.self = some q → q = p
  notSched : ∀ p, ∀ f ∈ m.kstack p, f.isSched = false
  callers : ∀ p, CallersOk (m.kstack p)

theorem SchedOk.top {q : Option (Fin n)} (h : SchedOk q (f :: rest)) :
    f.isSched = true ∧ rest = [] ∧ f.chosen = q ∨ f.isIntr = true ∧ q = none := by
  obtain ⟨is, g, heq, hg, hq, htop, his⟩ := h
  cases is with
  | nil =>
    cases heq
    exact Or.inl ⟨hg, rfl, hq⟩
  | cons i is =>
    cases heq
    refine Or.inr ⟨his _ List.mem_cons_self, ?_⟩
    rw [← hq, htop (by simp)]

theorem SchedOk.single {g : Frame n} (hg : g.isSched = true) : SchedOk g.chosen [g] :=
  ⟨[], g, rfl, hg, rfl, by simp, by simp⟩

theorem self_of_isIntr (h : f.isIntr = true) : f.self = none := by
  cases f <;> simp_all [Frame.isIntr, Frame.self]

theorem self_of_isSched (h : f.isSched = true) : f.self = none := by
  cases f <;> simp_all [Frame.isSched, Frame.self]

theorem isSched_of_isIntr (h : f.isIntr = true) : f.isSched = false := by
  cases f <;> simp_all [Frame.isIntr, Frame.isSched]

omit [DecidableEq C] in
theorem SchedOk.move {q : Option (Fin n)} (hq : m.cproc c = q) (h : SchedOk q (f :: rest))
    (hs : Stays m c f fs) : SchedOk q (fs ++ rest) := by
  rcases h.top with ⟨hf, rfl, hchosen⟩ | ⟨hf, hnone⟩
  · rcases hs.sched hf with ⟨g, rfl, hg, hgc⟩ | rfl
    · obtain rfl : g.chosen = q := by rw [hgc, ← hchosen, hs.chosen]
      exact .single hg
    · exact ⟨[.code .intr []], f, rfl, hf, hchosen, fun _ => hs.chosen, by simp [Frame.isIntr]⟩
  · obtain ⟨is, g, heq, hg, hgq, htop, his⟩ := h
    cases is with
    | nil =>
      cases heq
      rw [isSched_of_isIntr hf] at hg
      cases hg
    | cons i is =>
      cases heq
      refine ⟨fs ++ is, g, by simp, hg, hgq, fun _ => htop (by simp), fun k hk => ?_⟩
      rcases List.mem_append.mp hk with hk | hk
      · exact hs.intr hf (hq.trans hnone) k hk
      · exact his k (List.mem_cons_of_mem _ hk)

namespace ThreadInv

section

omit [DecidableEq C]

theorem exclusive (h : ThreadInv m) : Exclusive m := fun c d p hc hd =>
  h.cproc_inj c d p (h.running_cproc c p hc) (h.running_cproc d p hd)

theorem running_of_self (h : ThreadInv m) (hlive : m.live c = f :: rest) (hq : f.self = some p) :
    m.running c = some p := by
  cases hrun : m.running c with
  | some q =>
    rw [live_of_running hrun] at hlive
    rw [h.self q f (by rw [hlive]; exact List.mem_cons_self) p hq]
  | none =>
    rw [live_of_idle hrun] at hlive
    have hok := h.idle c hrun
    rw [hlive] at hok
    rcases hok.top with ⟨hf, -⟩ | ⟨hf, -⟩
    · rw [self_of_isSched hf] at hq
      cases hq
    · rw [self_of_isIntr hf] at hq
      cases hq

/-- The top frame runs for the process in `c->proc`. -/
theorem top_self (h : ThreadInv m) (hlive : m.live c = f :: rest) (q : Fin n)
    (hq : f.self = some q) : m.cproc c = some q :=
  h.running_cproc c q (h.running_of_self hlive hq)

theorem top_notSched (h : ThreadInv m) (hlive : m.live c = f :: rest) (hrun : m.running c ≠ none) :
    f.isSched = false := by
  obtain ⟨p, hp⟩ := Option.ne_none_iff_exists'.mp hrun
  rw [live_of_running hp] at hlive
  exact h.notSched p f (by rw [hlive]; exact List.mem_cons_self)

theorem idle_of_isSched (h : ThreadInv m) (hlive : m.live c = f :: rest) (hf : f.isSched = true) :
    m.running c = none ∧ m.sstack c = [f] ∧ rest = [] ∧ m.cproc c = f.chosen := by
  cases hrun : m.running c with
  | some p =>
    have := h.top_notSched hlive (by rw [hrun]; simp)
    rw [hf] at this
    cases this
  | none =>
    rw [live_of_idle hrun] at hlive
    have hok := h.idle c hrun
    rw [hlive] at hok
    rcases hok.top with ⟨-, rfl, hq⟩ | ⟨hi, -⟩
    · exact ⟨rfl, hlive, rfl, hq.symm⟩
    · rw [isSched_of_isIntr hi] at hf
      cases hf

end

theorem replace (h : ThreadInv m) (hm : Moved m m' c old new) {q : Option (Fin n)}
    (hcproc : m'.cproc = update m.cproc c q) (hq : ∀ p, m.running c = some p → q = some p)
    (hfresh : ∀ d p, d ≠ c → q = some p → m.cproc d ≠ some p)
    (hself : ∀ p, m.running c = some p → ∀ g ∈ new, ∀ q, g.self = some q → q = p)
    (hsched : ∀ p, m.running c = some p → ∀ g ∈ new, g.isSched = false)
    (hcallers : ∀ p, m.running c = some p → CallersOk new)
    (hidle : m.running c = none → SchedOk q new) : ThreadInv m' := by
  have hc : m'.cproc c = q := by rw [hcproc, update_self]
  have hd : ∀ d, d ≠ c → m'.cproc d = m.cproc d := fun d hd => by rw [hcproc, update_of_ne hd]
  refine ⟨?_, ?_, ?_, fun d e p hdp hep => ?_,
    hm.forall_kstack (P := fun p fs => ∀ g ∈ fs, ∀ q, g.self = some q → q = p) hself h.self,
    hm.forall_kstack (P := fun _ fs => ∀ g ∈ fs, g.isSched = false) hsched h.notSched,
    hm.forall_kstack hcallers h.callers⟩
  · intro d p hdp
    rw [hm.running] at hdp
    by_cases hdc : d = c
    · subst hdc
      rw [hc, hq p hdp]
    · rw [hd d hdc, h.running_cproc d p hdp]
  · intro d p hdp
    rw [hm.running] at hdp
    by_cases hdc : d = c
    · subst hdc
      rw [hm.sstack_running p hdp, h.running_sstack d p hdp]
    · rw [hm.sstack_of_ne hdc, h.running_sstack d p hdp]
  · intro d hdn
    rw [hm.running] at hdn
    by_cases hdc : d = c
    · subst hdc
      rw [hc, hm.sstack_idle hdn, update_self]
      exact hidle hdn
    · rw [hd d hdc, hm.sstack_of_ne hdc]
      exact h.idle d hdn
  · by_cases hdc : d = c <;> by_cases hec : e = c
    · rw [hdc, hec]
    · rw [hdc, hc] at hdp
      rw [hd e hec] at hep
      exact absurd hep (hfresh e p hec hdp)
    · rw [hec, hc] at hep
      rw [hd d hdc] at hdp
      exact absurd hdp (hfresh d p hdc hep)
    · rw [hd d hdc] at hdp
      rw [hd e hec] at hep
      exact h.cproc_inj d e p hdp hep

theorem replace_same (h : ThreadInv m) (hm : Moved m m' c old new) (hcproc : m'.cproc = m.cproc)
    (hself : ∀ p, m.running c = some p → ∀ g ∈ new, ∀ q, g.self = some q → q = p)
    (hsched : ∀ p, m.running c = some p → ∀ g ∈ new, g.isSched = false)
    (hcallers : ∀ p, m.running c = some p → CallersOk new)
    (hidle : m.running c = none → SchedOk (m.cproc c) new) : ThreadInv m' :=
  h.replace hm (by rw [hcproc, update_eq_self]) (h.running_cproc c)
    (fun d p hd hp hdp => hd (h.cproc_inj d c p hdp hp)) hself hsched hcallers hidle

theorem move (h : ThreadInv m) (hm : Moved m m' c (f :: rest) (fs ++ rest)) (hs : Stays m c f fs)
    (hcproc : m'.cproc = m.cproc) : ThreadInv m' := by
  have hlive := hm.live
  have hmem : ∀ p, m.running c = some p → ∀ g ∈ f :: rest, g ∈ m.kstack p := by
    intro p hrun g hg
    rwa [← live_of_running hrun, hlive]
  refine h.replace_same hm hcproc (fun p hrun g hg q hq => ?_) (fun p hrun g hg => ?_) (fun p hrun => ?_)
    fun hrun => ?_
  · rcases List.mem_append.mp hg with hg | hg
    · rcases hs.self g hg q hq with hfq | hcq
      · exact h.self p f (hmem p hrun f List.mem_cons_self) q hfq
      · rw [h.running_cproc c p hrun] at hcq
        exact (Option.some.inj hcq).symm
    · exact h.self p g (hmem p hrun g (List.mem_cons_of_mem _ hg)) q hq
  · rcases List.mem_append.mp hg with hg | hg
    · exact hs.notSched (h.top_notSched hlive (by rw [hrun]; simp)) g hg
    · exact h.notSched p g (hmem p hrun g (List.mem_cons_of_mem _ hg))
  · refine hs.callers rest ?_
    rw [← hlive, live_of_running hrun]
    exact h.callers p
  · refine .move rfl ?_ hs
    rw [← hlive, live_of_idle hrun]
    exact h.idle c hrun

end ThreadInv

/-! ### States -/

/-- The slot holds a process that has run or is about to. -/
def HasThread (s : ProcState) : Prop := s ≠ .UNUSED ∧ s ≠ .USED

/-- A stack that was switched out: its process goes on with its lock held, and holds no other. -/
structure Parked (p : Fin n) (fs : List (Frame n)) : Prop where
  top : ∃ f rest, fs = f :: rest ∧ f.resumes = true ∧ f.self = some p
  locks : stackLocks fs = [.proc p]

/-- CPU `c` is on the way from process `p` back into the loop of `scheduler`. -/
def Leaving (m : Machine C n) (c : C) (p : Fin n) : Prop :=
  ∃ f rest, m.live c = f :: rest ∧ (f.leaves = true ∧ f.self = some p ∨ f = .schedBack p)

structure StateInv (m : Machine C n) : Prop where
  running_state : ∀ p, (m.proc p).state = .RUNNING → ∃ c, m.cproc c = some p
  cproc_state : ∀ c p, m.cproc c = some p →
    (m.proc p).state = .RUNNING ∨ Leaving m c p ∧ HasThread (m.proc p).state
  back_state : ∀ c p rest, m.live c = .schedBack p :: rest → (m.proc p).state ≠ .RUNNING
  parked : ∀ p, (∀ c, m.running c ≠ some p) → HasThread (m.proc p).state →
    m.context p = m.kstack p ∧ Parked p (m.kstack p)

/-- A slot under construction is `USED`, belongs to one frame, and once its context is set it can be
switched to. -/
structure BuildInv (m : Machine C n) : Prop where
  used : ∀ p i, i ∈ stackBuilds (m.kstack p) → (m.proc i).state = .USED
  parked : ∀ p, ∀ f ∈ m.kstack p, ∀ i, f.built = some i →
    m.context i = m.kstack i ∧ Parked i (m.kstack i)
  nodup : ∀ p, (stackBuilds (m.kstack p)).Nodup
  inj : ∀ p q i, i ∈ stackBuilds (m.kstack p) → i ∈ stackBuilds (m.kstack q) → p = q

theorem locks_of_leaves (h : f.leaves = true) (hp : f.self = some p) : Lock.proc p ∈ f.locks := by
  cases f <;> simp_all [Frame.leaves, Frame.self, Frame.locks]

section

omit [DecidableEq C]

theorem Leaving.lock (h : Leaving m c p) (hl : LockInv m) : m.lock (.proc p) = some c := by
  obtain ⟨f, rest, hlive, hf⟩ := h
  refine (hl.lock_iff c _).mpr ?_
  unfold held
  rw [hlive]
  refine List.mem_append_left _ ?_
  rcases hf with ⟨hf, hp⟩ | rfl
  · exact locks_of_leaves hf hp
  · simp [Frame.locks]

theorem Leaving.not_top (h : Leaving m c p) (hlive : m.live c = f :: rest) (hf : f.leaves = false)
    (hback : f ≠ .schedBack p) : False := by
  obtain ⟨g, gs, hg, hcase⟩ := h
  rw [hlive] at hg
  cases hg
  rcases hcase with ⟨hg, -⟩ | rfl
  · rw [hf] at hg
    cases hg
  · exact hback rfl

theorem StateInv.no_cproc (h : StateInv m) (hl : LockInv m) (hlive : m.live c = f :: rest)
    (hf : f.leaves = false) (hback : f ≠ .schedBack i) (hlock : .proc i ∈ f.locks)
    (hstate : (m.proc i).state ≠ .RUNNING) (d : C) : m.cproc d ≠ some i := by
  intro hd
  rcases h.cproc_state d i hd with hrun | ⟨hleave, -⟩
  · exact hstate hrun
  · have hmine : m.lock (.proc i) = some c := by
      refine (hl.lock_iff c _).mpr ?_
      unfold held
      rw [hlive]
      exact List.mem_append_left _ hlock
    rw [hleave.lock hl] at hmine
    obtain rfl := Option.some.inj hmine
    exact hleave.not_top hlive hf hback

theorem StateInv.no_cproc_of_not_hasThread (h : StateInv m) (hi : ¬ HasThread (m.proc i).state)
    (d : C) : m.cproc d ≠ some i := by
  intro hd
  rcases h.cproc_state d i hd with hrun | ⟨-, hthread⟩
  · exact hi (by rw [hrun]; simp [HasThread])
  · exact hi hthread

theorem StateInv.running_of_top (h : StateInv m) (hlive : m.live c = f :: rest)
    (hc : m.cproc c = some p) (hf : f.leaves = false) (hback : f ≠ .schedBack p) :
    (m.proc p).state = .RUNNING :=
  (h.cproc_state c p hc).resolve_right fun hl => hl.1.not_top hlive hf hback

end

theorem Moved.mem_kstack (h : Moved m m' c old new) {g : Frame n} (hg : g ∈ m'.kstack p) :
    g ∈ m.kstack p ∨ g ∈ new ∧ m.kstack p = old := by
  by_cases hp : m.running c = some p
  · rw [h.kstack_self hp] at hg
    exact Or.inr ⟨hg, h.kstack_before hp⟩
  · rw [h.kstack_of_ne hp] at hg
    exact Or.inl hg

omit [DecidableEq C] in
theorem Leaving.congr (h : Leaving m d p) (hlive : m'.live d = m.live d) : Leaving m' d p := by
  obtain ⟨g, gs, hg, hcase⟩ := h
  exact ⟨g, gs, hlive.trans hg, hcase⟩

theorem Leaving.moved (h : Leaving m d p) (ht : ThreadInv m) (hm : Moved m m' c old new)
    (hd : d ≠ c) : Leaving m' d p := h.congr (hm.live_of_ne ht.exclusive hd)

/-- A move of CPU `c` that changes at most the state of slot `i`. -/
theorem StateInv.move (h : StateInv m) (ht : ThreadInv m) (hm : Moved m m' c old new)
    (hleave : ∀ q, Leaving m c q → Leaving m' c q) (hback : ∀ q gs, new ≠ .schedBack q :: gs)
    (hcproc : m'.cproc = m.cproc) (hcontext : m'.context = m.context) (i : Fin n)
    (hother : ∀ j, j ≠ i → (m'.proc j).state = (m.proc j).state)
    (hrun : (m'.proc i).state = .RUNNING → (m.proc i).state = .RUNNING)
    (hstate : ∀ d, m.cproc d = some i → (m'.proc i).state = .RUNNING ∨
      Leaving m' d i ∧ HasThread (m'.proc i).state)
    (hpark : (∀ d, m.running d ≠ some i) → HasThread (m'.proc i).state →
      m.context i = m.kstack i ∧ Parked i (m.kstack i)) : StateInv m' := by
  refine ⟨fun p hp => ?_, fun d p hd => ?_, fun d p gs hd => ?_, fun p hp hthread => ?_⟩
  · rw [hcproc]
    by_cases hpi : p = i
    · subst hpi
      exact h.running_state p (hrun hp)
    · rw [hother p hpi] at hp
      exact h.running_state p hp
  · rw [hcproc] at hd
    by_cases hpi : p = i
    · subst hpi
      exact hstate d hd
    · rw [hother p hpi]
      refine (h.cproc_state d p hd).imp id fun hl => ⟨?_, hl.2⟩
      by_cases hdc : d = c
      · subst hdc
        exact hleave p hl.1
      · exact hl.1.moved ht hm hdc
  · by_cases hdc : d = c
    · subst hdc
      rw [hm.live_self] at hd
      exact absurd hd (hback p gs)
    · rw [hm.live_of_ne ht.exclusive hdc] at hd
      have hold := h.back_state d p gs hd
      by_cases hpi : p = i
      · subst hpi
        exact fun hnew => hold (hrun hnew)
      · rwa [hother p hpi]
  · rw [hm.running] at hp
    rw [hcontext, hm.kstack_of_ne (hp c)]
    by_cases hpi : p = i
    · subst hpi
      exact hpark hp hthread
    · rw [hother p hpi] at hthread
      exact h.parked p hp hthread

theorem StateInv.move_same [NeZero n] (h : StateInv m) (ht : ThreadInv m) (hm : Moved m m' c old new)
    (hleave : ∀ q, Leaving m c q → Leaving m' c q) (hback : ∀ q gs, new ≠ .schedBack q :: gs)
    (hcproc : m'.cproc = m.cproc) (hcontext : m'.context = m.context)
    (hstate : ∀ j, (m'.proc j).state = (m.proc j).state) : StateInv m' := by
  refine h.move ht hm hleave hback hcproc hcontext initproc (fun j _ => hstate j) ?_ ?_ ?_
  · rw [hstate]
    exact id
  · intro d hd
    rw [hstate]
    refine (h.cproc_state d _ hd).imp id fun hl => ⟨?_, hl.2⟩
    by_cases hdc : d = c
    · subst hdc
      exact hleave _ hl.1
    · exact hl.1.moved ht hm hdc
  · rw [hstate]
    exact h.parked initproc

omit [DecidableEq C] in
theorem BuildInv.off (h : BuildInv m) (hs : StateInv m) (ht : ThreadInv m)
    (hi : i ∈ stackBuilds (m.kstack p)) : m.running c ≠ some i := fun hc =>
  hs.no_cproc_of_not_hasThread (by simp [HasThread, h.used p i hi]) c (ht.running_cproc c i hc)

/-- A move after which CPU `c` builds some of the slots it was building, and slots that nobody was
building. -/
theorem BuildInv.change (h : BuildInv m) (hs : StateInv m) (ht : ThreadInv m)
    (hm : Moved m m' c old new) (hcontext : m'.context = m.context)
    (hnew : ∀ j ∈ stackBuilds new, j ∈ stackBuilds old ∨ ∀ q, j ∉ stackBuilds (m.kstack q))
    (hnodup : (stackBuilds old).Nodup → (stackBuilds new).Nodup)
    (hbuilt : ∀ g ∈ new, ∀ i, g.built = some i → i ∈ stackBuilds old ∧
      ((∃ k ∈ old, k.built = some i) ∨ m.context i = m.kstack i ∧ Parked i (m.kstack i)))
    (hused : ∀ p i, i ∈ stackBuilds (m'.kstack p) → (m'.proc i).state = .USED) : BuildInv m' := by
  -- who builds a slot now has built it before, or is CPU `c` and nobody has
  have hcase : ∀ p j, j ∈ stackBuilds (m'.kstack p) →
      j ∈ stackBuilds (m.kstack p) ∨ m.running c = some p ∧ ∀ q, j ∉ stackBuilds (m.kstack q) := by
    intro p j hj
    by_cases hp : m.running c = some p
    · rw [hm.kstack_self hp] at hj
      rw [hm.kstack_before hp]
      exact (hnew j hj).imp id fun hj => ⟨hp, hj⟩
    · rw [hm.kstack_of_ne hp] at hj
      exact Or.inl hj
  refine ⟨hused, ?_, ?_, fun p q j hp hq => ?_⟩
  · intro p g hg j hj
    rcases hm.mem_kstack hg with hg | ⟨hg, hk⟩
    · rw [hcontext, hm.kstack_of_ne (h.off hs ht (mem_stackBuilds.mpr ⟨g, hg, builds_of_built hj⟩))]
      exact h.parked p g hg j hj
    · obtain ⟨hold, hcase⟩ := hbuilt g hg j hj
      rw [← hk] at hold hcase
      rw [hcontext, hm.kstack_of_ne (h.off hs ht hold)]
      rcases hcase with ⟨k, hk', hkj⟩ | hparked
      · exact h.parked p k hk' j hkj
      · exact hparked
  · refine hm.forall_kstack (P := fun _ fs => (stackBuilds fs).Nodup) (fun p hp => hnodup ?_) h.nodup
    rw [← hm.kstack_before hp]
    exact h.nodup p
  · rcases hcase p j hp with hp | ⟨hp, hfree⟩ <;> rcases hcase q j hq with hq | ⟨hq, hfree'⟩
    · exact h.inj p q j hp hq
    · exact absurd hp (hfree' p)
    · exact absurd hq (hfree q)
    · exact Option.some.inj (hp.symm.trans hq)

theorem BuildInv.move (h : BuildInv m) (hs : StateInv m) (ht : ThreadInv m)
    (hm : Moved m m' c old new) (hb : stackBuilds new = stackBuilds old)
    (hbuilt : ∀ g ∈ new, ∀ i, g.built = some i →
      (∃ k ∈ old, k.built = some i) ∨ m.context i = m.kstack i ∧ Parked i (m.kstack i))
    (hcontext : m'.context = m.context)
    (hstate : ∀ j, (m.proc j).state = .USED → (m'.proc j).state = .USED) : BuildInv m' := by
  refine h.change hs ht hm hcontext (fun j hj => Or.inl (hb ▸ hj)) (fun hn => hb ▸ hn)
    (fun g hg i hi => ⟨hb ▸ mem_stackBuilds.mpr ⟨g, hg, builds_of_built hi⟩, hbuilt g hg i hi⟩) ?_
  refine hm.forall_kstack (P := fun _ fs => ∀ i ∈ stackBuilds fs, (m'.proc i).state = .USED)
    (fun p hp i hi => hstate i (h.used p i ?_)) (fun p i hi => hstate i (h.used p i hi))
  rwa [hm.kstack_before hp, ← hb]

omit [DecidableEq C]

theorem BuildInv.same (h : BuildInv m) (hk : m'.kstack = m.kstack) (hcontext : m'.context = m.context)
    (hstate : ∀ j, (m.proc j).state = .USED → (m'.proc j).state = .USED) : BuildInv m' := by
  refine ⟨?_, ?_, ?_, ?_⟩ <;> rw [hk]
  · exact fun p i hi => hstate i (h.used p i hi)
  · rw [hcontext]
    exact h.parked
  · exact h.nodup
  · exact h.inj

theorem Stays.not_leaving (hs : Stays m c f fs) (hleaves : f.leaves = false)
    (hlive : m.live c = f :: rest) (q : Fin n) : ¬ Leaving m c q := fun h => by
  refine h.not_top hlive hleaves ?_
  rintro rfl
  have := hs.chosen
  simp [Frame.chosen] at this

theorem Stays.no_back (hs : Stays m c f fs) (ht : ThreadInv m) (hlive : m.live c = f :: rest)
    (q : Fin n) (gs : List (Frame n)) : fs ++ rest ≠ .schedBack q :: gs := by
  intro heq
  have hmem : Frame.schedBack q ∈ fs ++ rest := by rw [heq]; exact List.mem_cons_self
  cases hf : f.isSched with
  | true =>
    obtain ⟨-, -, rfl, -⟩ := ht.idle_of_isSched hlive hf
    rcases hs.sched hf with ⟨g, rfl, -, hg⟩ | rfl
    · rw [← List.mem_singleton.mp hmem] at hg
      simp [Frame.chosen] at hg
    · cases heq
  | false =>
    rcases List.mem_append.mp hmem with hmem | hmem
    · have := hs.notSched hf _ hmem
      simp [Frame.isSched] at this
    · cases hrun : m.running c with
      | some p =>
        have := ht.notSched p (.schedBack q) (by
          rw [← live_of_running hrun, hlive]
          exact List.mem_cons_of_mem _ hmem)
        simp [Frame.isSched] at this
      | none =>
        obtain ⟨is, g, hstack, hg, hgc, htop, his⟩ := ht.idle c hrun
        rw [← live_of_idle hrun, hlive] at hstack
        cases is with
        | nil =>
          cases hstack
          rw [hf] at hg
          cases hg
        | cons i is =>
          cases hstack
          rcases List.mem_append.mp hmem with hmem | hmem
          · have := his _ (List.mem_cons_of_mem _ hmem)
            simp [Frame.isIntr] at this
          · obtain rfl := List.mem_singleton.mp hmem
            have := htop (by simp)
            simp [Frame.chosen] at this

end Xv6.Machine

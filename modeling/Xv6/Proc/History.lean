import Xv6.Proc.Lives

/-!
# The history of fork, exit and wait

What the history says of a process agrees with its slot: a `ZOMBIE` has exited with the status it
keeps, a process that was reaped is in no slot, and the parent of a process has forked it, unless it
is `initproc`.
-/

namespace Xv6

open Function

def ProcEvent.subject {n : Nat} : ProcEvent n → Option Nat
  | .forked _ b _ => some b
  | .exited a _ => some a
  | .reaped _ _ b _ _ => some b
  | _ => none

theorem Frame.builds_of_unborn {n : Nat} {g : Frame n} {i : Fin n} (h : g.unborn = some i) :
    g.builds = some i := by
  cases g <;> first | exact h | cases h

theorem Frame.unborn_give {n : Nat} {g : Frame n} {lk : Lock n} (h : g.accepts lk) :
    (g.give lk).unborn = none := by
  cases g with
  | code k held =>
    obtain ⟨l, rfl⟩ := h
    rfl
  | waitAgain => rfl
  | _ => exact h.elim

namespace Machine

variable {C : Type} [DecidableEq C] {n : Nat} [NeZero n] {m m' : Machine C n} {c d : C}
  {f g h : Frame n} {fs rest gs : List (Frame n)} {p q r i j : Fin n} {op : Op n} {e : ProcEvent n}

structure HistoryInv (m : Machine C n) : Prop where
  bound : ∀ e ∈ m.trace, ∀ b, e.subject = some b → b < m.births
  exited : ∀ a st, .exited a st ∈ m.trace → ∀ i, (m.proc i).state ≠ .UNUSED → m.life i = a →
    (m.proc i).state = .ZOMBIE ∧ (m.proc i).xstate = st
  zombie : ∀ i, (m.proc i).state = .ZOMBIE → .exited (m.life i) (m.proc i).xstate ∈ m.trace
  gone : ∀ p a b pid st, .reaped p a b pid st ∈ m.trace → ∀ i, (m.proc i).state ≠ .UNUSED →
    m.life i ≠ b
  parent : ∀ r q, (m.proc r).parent = some q →
    ∃ a, .forked a (m.life r) (m.proc r).pid ∈ m.trace ∧ (a = m.life q ∨ q = initproc)
  unborn : ∀ p, ∀ g ∈ m.kstack p, ∀ np, g.unborn = some np →
    ∀ a pid, .forked a (m.life np) pid ∉ m.trace
  reaped : ∀ p a b pid st, .reaped p a b pid st ∈ m.trace → .exited b st ∈ m.trace ∧
    pid = Int32.ofNat (b + 1) ∧ ∃ a', .forked a' b pid ∈ m.trace ∧ (a' = a ∨ p = initproc)
  forks : (m.trace.filterMap ProcEvent.forkedChild).Nodup
  exits : (m.trace.filterMap ProcEvent.exitedLife).Nodup
  reaps : (m.trace.filterMap ProcEvent.reapedChild).Nodup

namespace Does

variable (hd : Does m c f rest op m')

include hd

theorem text_of_locks (hlocks : f.locks ≠ [])
    (hf : ∀ k held, f ≠ .code k held) : ∃ ok, m.text c ok f = some op := by
  obtain ⟨a, hcode⟩ := hd.code
  cases a with
  | go => exact ⟨true, hcode⟩
  | fail => exact ⟨false, hcode⟩
  | interrupt =>
    simp only [Machine.code] at hcode
    split_ifs at hcode with hnoff
    exact absurd (hd.locks_of_noff hnoff) hlocks
  | exit status =>
    simp only [Machine.code] at hcode
    split at hcode
    · exact absurd rfl (hf _ _)
    · cases hcode
  | _ =>
    simp only [Machine.code] at hcode
    cases hcode

theorem exitSet_op {st : Int32} (hf : f = .exitSet p st) :
    op = .step (.set p { m.proc p with xstate := st, state := .ZOMBIE }) [.exitUnlockWait p]
      [.exited (m.life p) st] := by
  subst hf
  obtain ⟨ok, htext⟩ := hd.text_of_locks (by simp [Frame.locks]) (by simp)
  exact (Option.some.inj htext).symm

theorem mem_trace_cases (he : e ∈ m'.trace) : Logs m c f op e ∨ e ∈ m.trace := by
  rw [hd.trace] at he
  exact (List.mem_append.mp he).imp hd.logs id

theorem life_of_logs (hf : ∀ p i, f ≠ .forkTest p i) : m'.life = m.life := by
  rcases hd.born with ⟨hlife, -⟩ | ⟨p, i, hf', -⟩
  · exact hlife
  · exact absurd hf' (hf p i)

theorem life_cases (hi : (m'.proc i).state ≠ .UNUSED) :
    (m.proc i).state ≠ .UNUSED ∧ m'.life i = m.life i ∨
      m'.life i = m.births ∧ (m'.proc i).state = .USED := by
  rcases hd.born with ⟨hlife, -, -, hold⟩ | ⟨p, k, -, hu, -, hlife, -, -, hproc⟩
  · exact Or.inl ⟨(hold i hi).1, by rw [hlife]⟩
  · by_cases hik : i = k
    · subst hik
      rw [hlife, hproc, update_self, update_self]
      exact Or.inr ⟨rfl, rfl⟩
    · rw [hproc, update_of_ne hik] at hi
      rw [hlife, update_of_ne hik]
      exact Or.inl ⟨hi, rfl⟩

end Does

namespace HistoryInv

theorem builds_kept (hd : Does m c f rest op m') (hkept : Kept m c f rest op p g)
    (hself : f.self = some q) (hg : g.builds = some i) (hf : f.builds = some i) :
    op = .step .none [.code .intr [], f] [] := by
  have hrun := hd.inv.thread.running_of_self hd.live hself
  have hstack := hd.kstack_eq hrun
  have hmem : i ∈ stackBuilds (m.kstack q) :=
    mem_stackBuilds.mpr ⟨f, hstack ▸ List.mem_cons_self, hf⟩
  obtain rfl := hd.inv.build.inj p q i
    (mem_stackBuilds.mpr ⟨g, hd.mem_of_kept hkept, hg⟩) hmem
  rcases hkept with ⟨hne, -⟩ | ⟨-, hrest | ⟨-, hop, -⟩⟩
  · exact absurd hrun hne
  · have hnodup := hd.inv.build.nodup p
    rw [hstack, stackBuilds_cons, hf] at hnodup
    exact absurd (mem_stackBuilds.mpr ⟨g, hrest, hg⟩) (List.nodup_cons.mp hnodup).1
  · exact hop

section

variable (hh : HistoryInv m) (hd : Does m c f rest op m')
include hh hd

theorem bound_step (hl : LifeInv m) (he : e ∈ m'.trace) {b : Nat} (hb : e.subject = some b) : b < m'.births := by
  refine lt_of_lt_of_le ?_ hd.births_le
  rcases hd.mem_trace_cases he with hlogs | hold
  · cases e with
    | forked a b' pid =>
      obtain ⟨p, np, rfl, -, rfl, -⟩ := hlogs
      cases hb
      exact hl.lt np (by rw [hd.used_of_builds rfl]; simp)
    | exited a st =>
      obtain ⟨p, rfl, rfl, -⟩ := hlogs
      cases hb
      refine hl.lt p ?_
      rw [hd.state_running (hd.inv.thread.running_of_self hd.live rfl) rfl]
      simp
    | reaped p a b' pid st =>
      obtain ⟨addr, i, rfl, -, rfl, -, -, hz, -⟩ := hlogs
      cases hb
      exact hl.lt i (by rw [hz]; simp)
    | _ => cases hb
  · exact hh.bound e hold b hb

theorem exited_step (hl : LifeInv m) {a : Nat}
    {st : Int32} (he : .exited a st ∈ m'.trace) (hi : (m'.proc i).state ≠ .UNUSED)
    (ha : m'.life i = a) : (m'.proc i).state = .ZOMBIE ∧ (m'.proc i).xstate = st := by
  rcases hd.mem_trace_cases he with ⟨p, rfl, rfl, hop⟩ | hold
  · have hp : (m.proc p).state ≠ .UNUSED := by
      rw [hd.state_running (hd.inv.thread.running_of_self hd.live rfl) rfl]
      simp
    rcases hd.life_cases hi with ⟨hused, hlife⟩ | ⟨hnew, -⟩
    · obtain rfl := hl.inj i p hused hp (hlife.symm.trans ha)
      rw [hd.proc_set hop, update_self]
      exact ⟨rfl, rfl⟩
    · exact absurd (hl.lt p hp) (by omega)
  · rcases hd.life_cases hi with ⟨hused, hlife⟩ | ⟨hnew, -⟩
    · obtain ⟨hz, hx⟩ := hh.exited a st hold i hused (hlife.symm.trans ha)
      rcases hd.zombie_kept hz with ⟨hz', hx'⟩ | ⟨hfree, -⟩
      · exact ⟨hz', hx'.trans hx⟩
      · exact absurd hfree hi
    · exact absurd (hh.bound _ hold a rfl) (by omega)

theorem zombie_step (hi : (m'.proc i).state = .ZOMBIE) : .exited (m'.life i) (m'.proc i).xstate ∈ m'.trace := by
  rcases hd.zombie_cases hi with hz | ⟨st, hf⟩
  · rcases hd.zombie_kept hz with ⟨-, hx⟩ | ⟨hfree, -⟩
    · rw [hd.life_eq (by rw [hz]; simp), hx]
      exact hd.mem_trace (hh.zombie i hz)
    · rw [hi] at hfree
      cases hfree
  · have hop := hd.exitSet_op hf
    rw [hd.life_of_logs (by simp [hf]), hd.proc_set hop, update_self, hd.trace, hop]
    exact List.mem_cons_self

theorem gone_step (hl : LifeInv m) {a b : Nat}
    {pid st : Int32} (he : .reaped p a b pid st ∈ m'.trace) (hi : (m'.proc i).state ≠ .UNUSED) :
    m'.life i ≠ b := by
  rcases hd.mem_trace_cases he with ⟨addr, k, rfl, -, rfl, -, -, hz, hop⟩ | hold
  · have hk : (m.proc k).state ≠ .UNUSED := by rw [hz]; simp
    have hik : i ≠ k := by
      rintro rfl
      rw [hd.proc_set hop, update_self] at hi
      exact hi rfl
    rcases hd.life_cases hi with ⟨hused, hlife⟩ | ⟨hnew, -⟩
    · rw [hlife]
      exact fun heq => hik (hl.inj i k hused hk heq)
    · exact fun heq => absurd (hl.lt k hk) (by omega)
  · have hlt := hh.bound _ hold b rfl
    rcases hd.life_cases hi with ⟨hused, hlife⟩ | ⟨hnew, -⟩
    · rw [hlife]
      exact hh.gone p a b pid st hold i hused
    · omega

theorem parent_step (hl : LifeInv m) (hfam : FamilyInv m) (hr : (m'.proc r).parent = some q) :
    ∃ a, .forked a (m'.life r) (m'.proc r).pid ∈ m'.trace ∧ (a = m'.life q ∨ q = initproc) := by
  -- a process that had a parent before keeps its number and pid
  have hold : ∀ {p}, (m.proc r).parent = some p →
      ∃ a, .forked a (m'.life r) (m'.proc r).pid ∈ m'.trace ∧ (a = m'.life p ∨ p = initproc) := by
    intro p hp
    obtain ⟨a, hmem, ha⟩ := hh.parent r p hp
    have hused : (m.proc r).state ≠ .UNUSED := fun hu => by simp [hl.unused r hu] at hp
    have hused' : (m'.proc r).state ≠ .UNUSED := fun hu => by simp [hl.unused_step hd hu] at hr
    have hpid : (m'.proc r).pid = (m.proc r).pid := by
      rcases hd.born with ⟨-, -, -, hpid⟩ | ⟨_, k, -, hu, -, -, -, -, hproc⟩
      · exact (hpid r hused').2
      · rw [hproc, update_of_ne]
        rintro rfl
        exact hused hu
    have halive : (m.proc p).state ≠ .UNUSED := by
      rcases hfam.alive r p hp with hs | hs | hs <;> simp [hs]
    rw [hd.life_eq hused, hd.life_eq halive, hpid]
    exact ⟨a, hd.mem_trace hmem, ha⟩
  rcases hd.parent_cases hr with hp | ⟨rfl, hop⟩ | ⟨p, st, -, hp, rfl, -⟩
  · exact hold hp
  · rw [hd.life_of_logs (by simp), hd.proc_set hop, update_self, hd.trace, hop]
    exact ⟨m.life q, List.mem_cons_self, Or.inl rfl⟩
  · obtain ⟨a, hmem, -⟩ := hold hp
    exact ⟨a, hmem, Or.inr rfl⟩

theorem unborn_step (hl : LifeInv m) (hg : g ∈ m'.kstack p) (hi : g.unborn = some i) (a : Nat) (pid : Int32) :
    .forked a (m'.life i) pid ∉ m'.trace := by
  intro hmem
  rcases hd.frame hg with hkept | ⟨hrun, -, henters⟩ | ⟨_, _, _, _, e, -, -, -, -, he, rfl⟩ |
    ⟨q, -, rfl⟩
  · have hbuilds := Frame.builds_of_unborn hi
    have hused : (m.proc i).state = .USED :=
      hd.inv.build.used p i (mem_stackBuilds.mpr ⟨g, hd.mem_of_kept hkept, hbuilds⟩)
    rw [hd.life_eq (by rw [hused]; simp)] at hmem
    rcases hd.mem_trace_cases hmem with ⟨q, np, rfl, -, hlife, -, hop⟩ | hold
    · obtain rfl := hl.inj i np (by rw [hused]; simp) (by rw [hd.used_of_builds rfl]; simp) hlife
      rw [builds_kept hd hkept rfl hbuilds rfl] at hop
      cases hop
    · exact hh.unborn p g (hd.mem_of_kept hkept) i hi a pid hold
  · -- `allocproc` gives a new number; the later positions follow one that is not born either
    have hprev : f.unborn = some i → (∀ q, f ≠ .forkParent q i) → False := fun hf hne => by
      rw [hd.life_of_logs (by rintro q k rfl; cases hf)] at hmem
      rcases hd.mem_trace_cases hmem with ⟨q, np, rfl, -⟩ | hold
      · cases hf
        exact hne q rfl
      · exact hh.unborn p f (hd.kstack_eq hrun ▸ List.mem_cons_self) i hf a pid hold
    cases g with
    | forkAlloc q np =>
      cases hi
      obtain ⟨rfl, -, hop⟩ := henters
      rcases hd.counters with ⟨-, -, -, hne⟩ | ⟨k, fs, ev, hop', -, hlife, -⟩
      · exact hne _ _ _ hop
      · rw [hop] at hop'
        cases hop'
        rw [hd.trace, hop, hlife, update_self] at hmem
        exact lt_irrefl _ (hh.bound _ hmem _ rfl)
    | forkCopy q np | forkUnlock q np | forkLockWait q np | forkParent q np =>
      cases hi
      obtain ⟨rfl, -⟩ := henters
      exact hprev rfl (by simp)
    | _ => cases hi
  · rw [Frame.unborn_give he] at hi
    cases hi
  · cases hi

theorem reaped_step (hl : LifeInv m) (hfam : FamilyInv m) {a b : Nat} {pid st : Int32}
    (he : .reaped p a b pid st ∈ m'.trace) : .exited b st ∈ m'.trace ∧
      pid = Int32.ofNat (b + 1) ∧ ∃ a', .forked a' b pid ∈ m'.trace ∧ (a' = a ∨ p = initproc) := by
  rcases hd.mem_trace_cases he with ⟨addr, i, rfl, rfl, rfl, rfl, rfl, hz, -⟩ | hold
  · have hrun := hd.inv.thread.running_of_self hd.live rfl
    have hat := hfam.frames p _ (hd.kstack_eq hrun ▸ List.mem_cons_self)
    obtain ⟨a', hmem, ha'⟩ := hh.parent i p hat.2
    exact ⟨hd.mem_trace (hh.zombie i hz), hl.pid i (by rw [hz]; simp), a', hd.mem_trace hmem, ha'⟩
  · obtain ⟨hexit, hpid, a', hmem, ha'⟩ := hh.reaped p a b pid st hold
    exact ⟨hd.mem_trace hexit, hpid, a', hd.mem_trace hmem, ha'⟩

theorem forks_step :
    (m'.trace.filterMap ProcEvent.forkedChild).Nodup := by
  rw [hd.trace]
  refine nodup_filterMap_append hh.forks fun e he b hb => ?_
  cases e with
  | forked a b' pid =>
    cases hb
    obtain ⟨p, np, rfl, -, rfl, -, rfl⟩ := hd.logs he
    have hrun := hd.inv.thread.running_of_self hd.live rfl
    refine ⟨rfl, fun e' he' hb' => ?_⟩
    cases e' with
    | forked a' b' pid' =>
      cases hb'
      exact hh.unborn p _ (hd.kstack_eq hrun ▸ List.mem_cons_self) np rfl a' pid' he'
    | _ => cases hb'
  | _ => cases hb

theorem exits_step :
    (m'.trace.filterMap ProcEvent.exitedLife).Nodup := by
  rw [hd.trace]
  refine nodup_filterMap_append hh.exits fun e he b hb => ?_
  cases e with
  | exited a st =>
    cases hb
    obtain ⟨p, rfl, rfl, rfl⟩ := hd.logs he
    have hrunning := hd.state_running (hd.inv.thread.running_of_self hd.live rfl) rfl
    refine ⟨rfl, fun e' he' hb' => ?_⟩
    cases e' with
    | exited a' st' =>
      cases hb'
      have hz := (hh.exited _ st' he' p (by rw [hrunning]; simp) rfl).1
      rw [hrunning] at hz
      cases hz
    | _ => cases hb'
  | _ => cases hb

theorem reaps_step :
    (m'.trace.filterMap ProcEvent.reapedChild).Nodup := by
  rw [hd.trace]
  refine nodup_filterMap_append hh.reaps fun e he b hb => ?_
  cases e with
  | reaped p a b' pid st =>
    cases hb
    obtain ⟨addr, i, rfl, -, rfl, -, -, hz, rfl⟩ := hd.logs he
    refine ⟨rfl, fun e' he' hb' => ?_⟩
    cases e' with
    | reaped p' a' b' pid' st' =>
      cases hb'
      exact hh.gone p' a' _ pid' st' he' i (by rw [hz]; simp) rfl
    | _ => cases hb'
  | _ => cases hb

theorem does (hl : LifeInv m) (hfam : FamilyInv m) : HistoryInv m' where
  bound _ he _ hb := hh.bound_step hd hl he hb
  exited _ _ he _ hi ha := hh.exited_step hd hl he hi ha
  zombie _ hi := hh.zombie_step hd hi
  gone _ _ _ _ _ he _ hi := hh.gone_step hd hl he hi
  parent _ _ hr := hh.parent_step hd hl hfam hr
  unborn _ _ hg _ hi := hh.unborn_step hd hl hg hi
  reaped _ _ _ _ _ he := hh.reaped_step hd hl hfam he
  forks := hh.forks_step hd
  exits := hh.exits_step hd
  reaps := hh.reaps_step hd

end

omit [DecidableEq C] in
theorem boot : HistoryInv (Machine.boot : Machine C n) where
  bound _ he := by cases he
  exited _ _ he := by cases he
  zombie i hi := by
    by_cases h : i = initproc <;> simp [Machine.boot, h, Proc.zero] at hi
  gone _ _ _ _ _ he := by cases he
  parent r q hr := by
    rw [boot_parent] at hr
    cases hr
  unborn _ _ _ _ _ _ _ he := by cases he
  reaped _ _ _ _ _ he := by cases he
  forks := List.nodup_nil
  exits := List.nodup_nil
  reaps := List.nodup_nil

end HistoryInv

end Machine

end Xv6

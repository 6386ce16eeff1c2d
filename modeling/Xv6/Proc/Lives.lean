import Xv6.Proc.Zombie

/-!
# Births and deaths

Every process has a number in the order of births, and the slots in use hold different processes. So
the history of `fork`, `exit` and `wait` can be told by these numbers: a process is forked once, exits
once and is reaped once, whatever happens to its slot and its pid afterwards.
-/

namespace Xv6

open Function

namespace ProcEvent

variable {n : Nat}

def forkedChild : ProcEvent n → Option Nat
  | .forked _ b _ => some b
  | _ => none

def exitedLife : ProcEvent n → Option Nat
  | .exited a _ => some a
  | _ => none

def reapedChild : ProcEvent n → Option Nat
  | .reaped _ _ b _ _ => some b
  | _ => none

end ProcEvent

section

variable {α β : Type*} {key : α → Option β} {t u : List α} {e e' : α} {b : β}

theorem nodup_filterMap_append (ht : (t.filterMap key).Nodup)
    (hu : ∀ e ∈ u, ∀ b, key e = some b → u = [e] ∧ ∀ e' ∈ t, key e' ≠ some b) :
    ((u ++ t).filterMap key).Nodup := by
  by_cases hkey : ∃ e ∈ u, ∃ b, key e = some b
  · obtain ⟨e, he, b, hb⟩ := hkey
    obtain ⟨rfl, hnew⟩ := hu e he b hb
    rw [List.singleton_append, List.filterMap_cons_some hb, List.nodup_cons]
    refine ⟨fun hmem => ?_, ht⟩
    obtain ⟨e', he', hb'⟩ := List.mem_filterMap.mp hmem
    exact hnew e' he' hb'
  · have hnone : u.filterMap key = [] := by
      refine List.filterMap_eq_nil_iff.mpr fun e he => ?_
      rw [Option.eq_none_iff_forall_ne_some]
      exact fun b hb => hkey ⟨e, he, b, hb⟩
    rwa [List.filterMap_append, hnone]

theorem eq_of_nodup_filterMap (ht : (t.filterMap key).Nodup) (he : e ∈ t) (he' : e' ∈ t)
    (hb : key e = some b) (hb' : key e' = some b) : e = e' := by
  induction t with
  | nil => cases he
  | cons x t ih =>
    have hrest : (t.filterMap key).Nodup := ht.sublist ((List.sublist_cons_self x t).filterMap key)
    have hnew : ∀ y ∈ t, key x = some b → key y ≠ some b := fun y hy hx hyb => by
      rw [List.filterMap_cons_some hx, List.nodup_cons] at ht
      exact ht.1 (List.mem_filterMap.mpr ⟨y, hy, hyb⟩)
    rcases List.mem_cons.mp he with rfl | hmem <;> rcases List.mem_cons.mp he' with rfl | hmem'
    · rfl
    · exact absurd hb' (hnew e' hmem' hb)
    · exact absurd hb (hnew e hmem hb')
    · exact ih hrest hmem hmem'

end

/-- The slot that `fork` builds and whose parent it has not set. -/
def Frame.unborn {n : Nat} : Frame n → Option (Fin n)
  | .forkAlloc _ np | .forkCopy _ np | .forkUnlock _ np | .forkLockWait _ np
  | .forkParent _ np => some np
  | _ => none

namespace Machine

variable {C : Type} [DecidableEq C] {n : Nat} [NeZero n] {m m' : Machine C n} {c d : C}
  {f g h : Frame n} {fs rest gs : List (Frame n)} {p q r i j : Fin n} {op : Op n} {e : Effect n}

/-! ### Numbers of processes -/

structure LifeInv (m : Machine C n) : Prop where
  lt : ∀ i, (m.proc i).state ≠ .UNUSED → m.life i < m.births
  inj : ∀ i j, (m.proc i).state ≠ .UNUSED → (m.proc j).state ≠ .UNUSED → m.life i = m.life j → i = j
  pid : ∀ i, (m.proc i).state ≠ .UNUSED → (m.proc i).pid = Int32.ofNat (m.life i + 1)
  nextpid : m.nextpid = Int32.ofNat (m.births + 1)
  unused : ∀ i, (m.proc i).state = .UNUSED → (m.proc i).parent = none

theorem Store.used (h : Store m f e fs) (hne : ∀ i, e ≠ .found i)
    (hj : ((m.store c e).proc j).state ≠ .UNUSED) :
    ((m.store c e).proc j).pid = (m.proc j).pid ∧
      ((m.proc j).state ≠ .UNUSED ∨ f.builds = some j ∨ f.self = some j) := by
  by_cases hs : e.slot = some j
  · rw [store_proc_self hs] at hj ⊢
    cases h with cases hs
    | found p i => exact absurd rfl (hne _)
    | yieldSet | sleepSet | exitSet => exact ⟨rfl, Or.inr (Or.inr rfl)⟩
    | forkSet => exact ⟨rfl, Or.inr (Or.inl rfl)⟩
    | run i hr => exact ⟨rfl, Or.inl (by rw [hr]; simp)⟩
    | wakeup ch i =>
      simp only [stored, Proc.wakeup] at hj ⊢
      split_ifs at hj ⊢ with hsleep
      · exact ⟨rfl, Or.inl (by rw [hsleep.1]; simp)⟩
      · exact ⟨rfl, Or.inl hj⟩
    | kill pid i hpid =>
      refine ⟨rfl, Or.inl fun hu => hj ?_⟩
      simp [stored, Proc.kill, hu]
    | reap | undo => exact absurd rfl hj
    | _ => exact ⟨rfl, Or.inl hj⟩
  · rw [store_proc_of_ne hs] at hj ⊢
    exact ⟨rfl, Or.inl hj⟩

namespace Does

variable (hd : Does m c f rest op m')

include hd

theorem counters :
    (m'.life = m.life ∧ m'.births = m.births ∧ m'.nextpid = m.nextpid ∧
      ∀ i fs ev, op ≠ .step (.found i) fs ev) ∨
    ∃ i fs ev, op = .step (.found i) fs ev ∧ Store m f (.found i) fs ∧
      m'.life = update m.life i m.births ∧ m'.births = m.births + 1 ∧
      m'.nextpid = m.nextpid + 1 ∧ m'.proc = (m.store c (.found i)).proc := by
  obtain ⟨-, -, -, -, hok, hres⟩ := hd
  cases hres with
  | fail op e => exact absurd hok (by simp [fail])
  | quiet | acquire | release | exitUnlockWait | wake | sched =>
    exact Or.inl ⟨setLive_life, setLive_births, setLive_nextpid, fun i fs ev h => by cases h⟩
  | swtch => exact Or.inl ⟨rfl, rfl, rfl, fun i fs ev h => by cases h⟩
  | store e fs ev hst =>
    cases e with
    | found i =>
      exact Or.inr ⟨i, fs, ev, rfl, hst, setLive_life, setLive_births, setLive_nextpid, setLive_proc⟩
    | _ => exact Or.inl ⟨setLive_life, setLive_births, setLive_nextpid, fun i fs ev h => by cases h⟩

theorem born :
    (m'.life = m.life ∧ m'.births = m.births ∧ m'.nextpid = m.nextpid ∧
      ∀ j, (m'.proc j).state ≠ .UNUSED →
        (m.proc j).state ≠ .UNUSED ∧ (m'.proc j).pid = (m.proc j).pid) ∨
    ∃ p i, f = .forkTest p i ∧ (m.proc i).state = .UNUSED ∧
      op = .step (.found i) [.forkAlloc p i] [] ∧
      m'.life = update m.life i m.births ∧ m'.births = m.births + 1 ∧
      m'.nextpid = m.nextpid + 1 ∧ m'.proc = update m.proc i ((m.proc i).found m.nextpid) := by
  have hused : ∀ {j}, f.builds = some j ∨ f.self = some j → (m.proc j).state ≠ .UNUSED := by
    rintro j (hf | hf) hu
    · rw [hd.used_of_builds hf] at hu
      cases hu
    · have hcproc := hd.inv.thread.running_cproc c j (hd.inv.thread.running_of_self hd.live hf)
      exact hd.inv.state.no_cproc_of_not_hasThread (by simp [HasThread, hu]) c hcproc
  rcases hd.counters with ⟨hlife, hbirths, hpid, hne⟩ | ⟨i, fs, ev, hop, hst, hlife, hbirths, hpid, hproc⟩
  · refine Or.inl ⟨hlife, hbirths, hpid, fun j hj => ?_⟩
    rcases hd.proc with heq | ⟨e, fs, ev, hop, hst, heq⟩
    · rw [heq] at hj ⊢
      exact ⟨hj, rfl⟩
    · rw [heq] at hj ⊢
      obtain ⟨hp, hold⟩ := hst.used (fun i he => hne i fs ev (he ▸ hop)) hj
      exact ⟨hold.elim id hused, hp⟩
  · cases hst with
    | found p i hu =>
      rcases hd.enters (by rw [hop]; exact List.mem_cons_self) with
        ⟨heq, -⟩ | ⟨-, -, henters⟩
      · cases heq
      · exact Or.inr ⟨p, i, rfl, hu, henters, hlife, hbirths, hpid, hproc⟩

theorem life_eq (hj : (m.proc j).state ≠ .UNUSED) : m'.life j = m.life j := by
  rcases hd.born with ⟨hlife, -⟩ | ⟨p, i, -, hu, -, hlife, -⟩
  · rw [hlife]
  · rw [hlife, update_of_ne]
    rintro rfl
    exact hj hu

theorem births_le : m.births ≤ m'.births := by
  rcases hd.born with ⟨-, hbirths, -⟩ | ⟨_, _, -, -, -, -, hbirths, -⟩ <;> omega

theorem freed (hj : (m.proc j).state ≠ .UNUSED)
    (hfree : (m'.proc j).state = .UNUSED) : (m'.proc j).parent = none := by
  rcases hd.proc with heq | ⟨e, fs, ev, -, hst, heq⟩
  · rw [heq] at hfree
    exact absurd hfree hj
  · rw [heq] at hfree ⊢
    by_cases hs : e.slot = some j
    · rw [store_proc_self hs] at hfree ⊢
      cases hst with cases hs
      | reap | undo => rfl
      | wakeup ch i =>
        simp only [stored, Proc.wakeup] at hfree
        split_ifs at hfree
        exact absurd hfree hj
      | kill pid i hpid =>
        simp only [stored, Proc.kill] at hfree
        split_ifs at hfree
        exact absurd hfree hj
      | _ => first | exact absurd hfree hj | cases hfree
    · rw [store_proc_of_ne hs] at hfree
      exact absurd hfree hj

end Does

namespace LifeInv

theorem unused_step (hl : LifeInv m) (hd : Does m c f rest op m')
    (hi : (m'.proc i).state = .UNUSED) : (m'.proc i).parent = none := by
  by_contra hne
  obtain ⟨q, hq⟩ := Option.ne_none_iff_exists'.mp hne
  have hused : (m.proc i).state ≠ .UNUSED := by
    rcases hd.parent_cases hq with hold | ⟨rfl, -⟩ | ⟨p, st, -, hold, -⟩
    · exact fun hu => by simp [hl.unused i hu] at hold
    · rw [hd.used_of_builds rfl]
      simp
    · exact fun hu => by simp [hl.unused i hu] at hold
  exact hne (hd.freed hused hi)

theorem does (hl : LifeInv m) (hd : Does m c f rest op m') : LifeInv m' := by
  have hunused : ∀ i, (m'.proc i).state = .UNUSED → (m'.proc i).parent = none :=
    fun i hi => hl.unused_step hd hi
  rcases hd.born with ⟨hlife, hbirths, hnext, hold⟩ | ⟨p, k, -, hu, -, hlife, hbirths, hnext, hproc⟩
  · refine ⟨fun i hi => ?_, fun i j hi hj hij => ?_, fun i hi => ?_, ?_, hunused⟩
    · rw [hlife, hbirths]
      exact hl.lt i (hold i hi).1
    · rw [hlife] at hij
      exact hl.inj i j (hold i hi).1 (hold j hj).1 hij
    · rw [hlife, (hold i hi).2]
      exact hl.pid i (hold i hi).1
    · rw [hnext, hbirths]
      exact hl.nextpid
  · -- slot `k` gets the number `births`, which no other slot has
    have hself : m'.life k = m.births := by rw [hlife, update_self]
    have hother : ∀ {i}, i ≠ k → m'.life i = m.life i ∧ m'.proc i = m.proc i := fun hi =>
      ⟨by rw [hlife, update_of_ne hi], by rw [hproc, update_of_ne hi]⟩
    have hlt : ∀ {i}, i ≠ k → (m'.proc i).state ≠ .UNUSED → m'.life i < m.births := fun hi hs => by
      rw [(hother hi).1]
      exact hl.lt _ ((hother hi).2 ▸ hs)
    refine ⟨fun i hi => ?_, fun i j hi hj hij => ?_, fun i hi => ?_, ?_, hunused⟩
    · rw [hbirths]
      by_cases hik : i = k
      · rw [hik, hself]
        exact Nat.lt_succ_self _
      · exact (hlt hik hi).trans (Nat.lt_succ_self _)
    · by_cases hik : i = k <;> by_cases hjk : j = k
      · exact hik.trans hjk.symm
      · have := hlt hjk hj
        rw [← hij, hik, hself] at this
        exact absurd this (lt_irrefl _)
      · have := hlt hik hi
        rw [hij, hjk, hself] at this
        exact absurd this (lt_irrefl _)
      · rw [(hother hik).1, (hother hjk).1] at hij
        exact hl.inj i j ((hother hik).2 ▸ hi) ((hother hjk).2 ▸ hj) hij
    · by_cases hik : i = k
      · rw [hik, hself, hproc, update_self]
        exact hl.nextpid
      · rw [(hother hik).1, (hother hik).2]
        exact hl.pid i ((hother hik).2 ▸ hi)
    · rw [hnext, hbirths, hl.nextpid]
      exact (Int32.ofNat_add _ _).symm

omit [DecidableEq C] in
theorem boot : LifeInv (Machine.boot : Machine C n) := by
  have hinit : ∀ i, ((Machine.boot : Machine C n).proc i).state ≠ .UNUSED → i = initproc := by
    intro i hi
    by_contra hne
    exact hi (by simp [Machine.boot, hne, Proc.zero])
  refine ⟨fun i _ => Nat.zero_lt_one, fun i j hi hj _ => (hinit i hi).trans (hinit j hj).symm,
    fun i hi => ?_, rfl, fun i _ => boot_parent⟩
  rw [hinit i hi]
  simp [Machine.boot]

end LifeInv

end Machine

end Xv6

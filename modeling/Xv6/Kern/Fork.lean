import Xv6.Kern.Space
import Xv6.Vm.Clone

/-!
# `fork`

A child gets a copy of the memory of its parent in pages of its own. When a page is missing anywhere on the
way, everything that was allocated goes back.
-/

namespace Xv6.Kern

open Function Vm Wp

variable {k k' : Kernel} {s s' : Mem} {i p np : Fin NPROC} {E : Panic → Prop} {used out : Multiset Nat}
  {root sz tf tramp : Nat}

@[simp] theorem wp_onMem {α : Type} {f : VmM α} {Q : α → Kernel → Prop} :
    wp (onMem f) Q E k ↔ wp f (fun a s => Q a { k with mem := s }) E k.mem := wp_zoom

@[simp] theorem wp_modifyProc {f : Task → Task} {Q : Unit → Kernel → Prop} :
    wp (modifyProc i f) Q E k ↔ Q () { k with proc := update k.proc i (f (k.proc i)) } := Iff.rfl

/-! ## `freeproc` -/

/-- What `freeproc` does to the memory. -/
def Task.freeMem (p : Task) : VmM Unit := do
  if p.trapframe ≠ 0 then kfree p.trapframe
  if p.pagetable ≠ 0 then procFreepagetable p.pagetable p.sz

def Task.cleared (p : Task) : Task :=
  { p with toProc := p.toProc.freeproc, trapframe := 0, pagetable := 0, sz := 0, name := [] }

theorem wp_freeproc {Q : Unit → Kernel → Prop}
    (h : wp (k.proc i).freeMem
      (fun _ s => Q () { k with mem := s, proc := update k.proc i (k.proc i).cleared }) E k.mem) :
    wp (freeproc i) Q E k := by
  -- the slot is written between the two parts, but only the pointer that was freed
  have hslot : ∀ s, ({ k with
      mem := s
      proc := update (update k.proc i { k.proc i with trapframe := 0 }) i
        { update k.proc i { k.proc i with trapframe := 0 } i with
          toProc := (update k.proc i { k.proc i with trapframe := 0 } i).toProc.freeproc
          pagetable := 0
          sz := 0
          name := [] } } : Kernel) =
      { k with mem := s, proc := update k.proc i (k.proc i).cleared } := by
    intro s
    rw [update_idem, update_self]
    rfl
  have htail : ∀ {s : Mem}, wp (if (k.proc i).pagetable ≠ 0 then procFreepagetable (k.proc i).pagetable (k.proc i).sz
        else pure ()) (fun _ s =>
        Q () { k with mem := s, proc := update k.proc i (k.proc i).cleared }) E s →
      wp (do
        modifyProc i fun p => { p with trapframe := 0 }
        if (k.proc i).pagetable ≠ 0 then onMem (procFreepagetable (k.proc i).pagetable (k.proc i).sz)
        modifyProc i fun p => { p with toProc := p.toProc.freeproc, pagetable := 0, sz := 0, name := [] })
        Q E { k with mem := s } := by
    intro s h
    refine wp_bind.mpr (wp_modifyProc.mpr ?_)
    by_cases hpt : (k.proc i).pagetable ≠ 0
    · rw [if_pos hpt] at h ⊢
      refine wp_bind.mpr (wp_onMem.mpr (h.mono fun _ s hs => wp_modifyProc.mpr ?_))
      rw [← hslot s] at hs
      exact hs
    · rw [if_neg hpt] at h ⊢
      have hs : Q () _ := h
      rw [← hslot s] at hs
      exact hs
  unfold Task.freeMem at h
  refine wp_bind.mpr (wp_get.mpr ?_)
  by_cases htf : (k.proc i).trapframe ≠ 0
  · rw [if_pos htf] at h ⊢
    exact wp_bind.mpr (wp_onMem.mpr ((wp_bind.mp h).mono fun _ s hs => htail hs))
  · rw [if_neg htf] at h ⊢
    exact htail h

theorem wp_kfree_released {q : Nat} (h : Kfreeable s q) : wp (kfree q) (fun _ s' => Released s s' {q}) E s := by
  refine wp_kfree h ⟨?_, fun p hp => ?_, rfl⟩
  · rw [Multiset.singleton_add]
    rfl
  · exact update_of_ne (fun heq => hp (Multiset.mem_singleton.mpr heq)) _ _

theorem table_congr (h : ∀ q ∈ tables s root, s'.page q = s.page q) (ht : Table s root) : Table s' root where
  distinct := tables_congr h ▸ ht.distinct
  pointers := Radix.refs_congr (fun q hq => h q (Radix.mem_nodes_of_mem_inner hq)) ht.pointers

theorem Layout.congr (hl : Layout s root sz tf tramp) (h : ∀ q ∈ tables s root, s'.page q = s.page q) :
    Layout s' root sz tf tramp := by
  have hpte := pte_congr h
  obtain ⟨h1, h2, h3, h4, h5, h6⟩ := hl
  refine ⟨table_congr h h1, h2, ?_, ?_, ?_, ?_⟩
  · simpa only [hpte] using h3
  · rw [hpte, h4]
  · rw [hpte, h5]
  · simpa only [hpte] using h6

theorem wp_freeMem_none {p : Task} {Q : Unit → Mem → Prop} (htf : p.trapframe = 0) (hpt : p.pagetable = 0)
    (h : Q () s) : wp p.freeMem Q E s := by
  unfold Task.freeMem
  rw [if_neg (not_not.mpr htf), if_neg (not_not.mpr hpt)]
  exact h

theorem wp_freeMem_trapframe {p : Task} (hp : Pool s out) (h : Took s s' (p.trapframe ::ₘ used))
    (htf : p.trapframe ≠ 0) (hpt : p.pagetable = 0) : wp p.freeMem (fun _ s'' => Took s s'' used) E s' := by
  unfold Task.freeMem
  rw [if_pos htf, if_neg (not_not.mpr hpt)]
  refine (wp_kfree_released (h.kfreeable hp (Multiset.mem_cons_self _ _))).bind fun _ s₁ hr => ?_
  exact h.released hr

theorem wp_freeMem_empty {p : Task} (hp : Pool s out) (h : Took s s' (p.trapframe ::ₘ (tables s' p.pagetable + used)))
    (htf : p.trapframe ≠ 0) (hpt : p.pagetable ≠ 0) (hsz : p.sz = 0) (hl : Layout s' p.pagetable 0 tf tramp) :
    wp p.freeMem (fun _ s'' => Took s s'' used) E s' := by
  unfold Task.freeMem
  rw [if_pos htf, if_pos hpt, hsz]
  refine (wp_kfree_released (h.kfreeable hp (Multiset.mem_cons_self _ _))).bind fun _ s₁ hr => ?_
  have hn := h.nodup hp
  have hout : p.trapframe ∉ tables s' p.pagetable := fun hm =>
    (Multiset.nodup_cons.mp hn).1 (Multiset.mem_add.mpr (.inl hm))
  have hsame : ∀ q ∈ tables s' p.pagetable, s₁.page q = s'.page q := fun q hq =>
    hr.frame q fun hm => hout (Multiset.mem_singleton.mp hm ▸ hq)
  have h₁ := h.released hr
  have howned : owned s₁ p.pagetable 0 = tables s' p.pagetable := by
    rw [owned, tables_congr hsame]
    exact add_zero _
  rw [← howned] at h₁
  refine (wp_procFreepagetable (hl.congr hsame) ?_ fun q hq => ?_).mono fun _ s₂ hr₂ => h₁.released hr₂
  · rw [howned]
    exact hl.table.distinct
  · exact h₁.kfreeable hp (Multiset.mem_add.mpr (.inl hq))

/-! ## `allocproc` -/

/-- A slot that is not in use. -/
structure Idle (p : Task) : Prop where
  state : p.state = .UNUSED
  trapframe : p.trapframe = 0
  pagetable : p.pagetable = 0
  sz : p.sz = 0

theorem idle_cleared (p : Task) : Idle p.cleared := ⟨rfl, rfl, rfl, rfl⟩

/-- What the calls that create a process rely on: the free list, where the pages `used` are not free, and the slots
that are not in use. -/
structure Sound (k : Kernel) (used : Multiset Nat) : Prop where
  pool : Pool k.mem used
  kend : 0 < k.mem.kend
  trampoline : k.trampoline + PGSIZE ≤ 2 ^ 56
  idle : ∀ i, (k.proc i).state = .UNUSED → Idle (k.proc i)

/-- The same pages are free, the other pages are as they were, and a slot that has changed is not in use, before
and after. -/
structure Restored (k k' : Kernel) : Prop where
  mem : Took k.mem k'.mem 0
  proc : ∀ i, k'.proc i = k.proc i ∨ (k.proc i).state = .UNUSED ∧ Idle (k'.proc i)
  fileRef : k'.fileRef = k.fileRef
  inodeRef : k'.inodeRef = k.inodeRef

/-- `allocproc` has set up the slot `np` with an empty address space. -/
structure Fresh (k k' : Kernel) (np : Fin NPROC) (tf root : Nat) : Prop where
  unused : (k.proc np).state = .UNUSED
  mem : Took k.mem k'.mem (tables k'.mem root + {tf})
  layout : Layout k'.mem root 0 tf k.trampoline
  trapframe : tf ≠ 0
  pagetable : root ≠ 0
  kernel : k' = { k with
    mem := k'.mem
    nextpid := k.nextpid + 1
    proc := update k.proc np
      { k.proc np with toProc := (k.proc np).toProc.found k.nextpid, trapframe := tf, pagetable := root } }

theorem wp_freeproc_restored (hidle : (k.proc i).state = .UNUSED) (hproc : ∀ j, j ≠ i → k'.proc j = k.proc j)
    (hf : k'.fileRef = k.fileRef) (hi : k'.inodeRef = k.inodeRef)
    (h : wp (k'.proc i).freeMem (fun _ s => Took k.mem s 0) E k'.mem) {α : Type} (a : α) :
    wp (do freeproc i; return a) (fun r k'' => r = a ∧ Restored k k'') E k' := by
  refine wp_bind.mpr (wp_freeproc (h.mono fun _ s hs => ⟨rfl, hs, fun j => ?_, hf, hi⟩))
  by_cases hj : j = i
  · subst hj
    refine .inr ⟨hidle, ?_⟩
    show Idle (update k'.proc j (k'.proc j).cleared j)
    rw [update_self]
    exact idle_cleared _
  · refine .inl ?_
    show update k'.proc i (k'.proc i).cleared j = k.proc j
    rw [update_of_ne hj, hproc j hj]

theorem Took.ne_zero {taken : Multiset Nat} (h : Took s s' taken) (hp : Pool s used) (hkend : 0 < s.kend) {q : Nat}
    (hq : q ∈ taken) : q ≠ 0 :=
  (hkend.trans_le (hp.kfreeable q (h.mem_free (.inl hq))).2.1).ne'

theorem wp_allocproc (hk : Sound k used) :
    wp allocproc (fun r k' => (r = none ∧ Restored k k') ∨
      ∃ np tf root, r = some np ∧ Fresh k k' np tf root) E k := by
  refine wp_bind.mpr (wp_get.mpr ?_)
  cases hfind : (List.finRange NPROC).find? fun i => (k.proc i).state = .UNUSED with
  | none => exact .inl ⟨rfl, .refl _, fun i => .inl rfl, rfl, rfl⟩
  | some i =>
    have hfound := List.find?_some hfind
    have hunused : (k.proc i).state = .UNUSED := of_decide_eq_true hfound
    have hidle := hk.idle i hunused
    refine wp_bind.mpr ((wp_modify _).mpr (wp_bind.mpr (wp_modifyProc.mpr (wp_bind.mpr (wp_onMem.mpr ?_)))))
    refine wp_kalloc ?_ fun tf rest hfree => ?_
    · refine wp.mono (wp_freeproc_restored hunused ?_ ?_ ?_ ?_ none) fun _ _ h => .inl h
      · exact fun j hj => update_of_ne hj _ _
      · exact rfl
      · exact rfl
      · simp only [update_self]
        exact wp_freeMem_none hidle.trapframe hidle.pagetable ((Took.refl k.mem).deny _)
    · have htf : Took k.mem _ (tf ::ₘ 0) :=
        (Took.refl k.mem).kalloc hfree (fun _ => 5 * 0x0101010101010101) k.mem.deny.tail
      have hmem : tf ∈ tf ::ₘ (0 : Multiset Nat) := Multiset.mem_cons_self _ _
      have hsmall := hk.pool.kfreeable tf (htf.mem_free (.inl hmem))
      have hne := htf.ne_zero hk.pool hk.kend hmem
      have hpa : tf + PGSIZE ≤ 2 ^ 56 := by
        have hlt : tf < 0x88000000 := hsmall.2.2
        show tf + 4096 ≤ 2 ^ 56
        omega
      refine wp_bind.mpr (wp_modifyProc.mpr (wp_bind.mpr (wp_onMem.mpr ?_)))
      refine (wp_procPagetable htf hk.pool hpa hk.trampoline).mono ?_
      rintro r s' (⟨rfl, h⟩ | ⟨root, rfl, hroot, h, hl⟩)
      · refine wp.mono (wp_freeproc_restored hunused ?_ ?_ ?_ ?_ none) fun _ _ h => .inl h
        · exact fun j hj => (update_of_ne hj _ _).trans (update_of_ne hj _ _)
        · exact rfl
        · exact rfl
        · simp only [update_self]
          exact wp_freeMem_trapframe hk.pool h hne hidle.pagetable
      · refine wp_bind.mpr (wp_modifyProc.mpr (.inr ⟨i, tf, root, rfl, hunused, h, hl, hne, ?_, ?_⟩))
        · exact h.ne_zero hk.pool hk.kend (Multiset.mem_add.mpr (.inl Radix.self_mem_nodes))
        · simp only [update_idem, update_self]

/-! ## The open files -/

/-- The descriptors of the child when those in `l` have been copied. -/
def dupedFiles (k : Kernel) (p np : Fin NPROC) (l : List (Fin NOFILE)) : Fin NOFILE → Option Nat := fun i =>
  if i ∈ l then ((k.proc p).ofile i).or ((k.proc np).ofile i) else (k.proc np).ofile i

/-- The reference counts then. -/
def dupedRefs (k : Kernel) (p : Fin NPROC) (l : List (Fin NOFILE)) : Nat → Nat := fun f =>
  k.fileRef f + l.countP fun i => (k.proc p).ofile i = some f

def duped (k : Kernel) (p np : Fin NPROC) (l : List (Fin NOFILE)) : Kernel :=
  { k with
    fileRef := dupedRefs k p l
    proc := update k.proc np { k.proc np with ofile := dupedFiles k p np l } }

theorem duped_nil (k : Kernel) (p np : Fin NPROC) : duped k p np [] = k := by
  have hfiles : dupedFiles k p np [] = (k.proc np).ofile := funext fun i => if_neg List.not_mem_nil
  have hrefs : dupedRefs k p [] = k.fileRef := funext fun f => Nat.add_zero _
  rw [duped, hfiles, hrefs, update_eq_self]

variable {pre : List (Fin NOFILE)} {j : Fin NOFILE}

theorem dupedFiles_concat (hj : j ∉ pre) : dupedFiles k p np (pre ++ [j]) =
    update (dupedFiles k p np pre) j (((k.proc p).ofile j).or ((k.proc np).ofile j)) := by
  funext i
  by_cases hij : i = j
  · subst hij
    rw [update_self, dupedFiles, if_pos (List.mem_append_right _ List.mem_cons_self)]
  · rw [update_of_ne hij, dupedFiles]
    exact if_congr (by rw [List.mem_append, List.mem_singleton, or_iff_left hij]) rfl rfl

theorem dupedRefs_concat_none (h : (k.proc p).ofile j = none) : dupedRefs k p (pre ++ [j]) = dupedRefs k p pre := by
  funext f
  rw [dupedRefs, List.countP_append, List.countP_singleton, h]
  rfl

theorem dupedRefs_concat_some {f : Nat} (h : (k.proc p).ofile j = some f) : dupedRefs k p (pre ++ [j]) =
    update (dupedRefs k p pre) f (dupedRefs k p pre f + 1) := by
  funext g
  rw [dupedRefs, List.countP_append, List.countP_singleton, h]
  by_cases hg : g = f
  · subst hg
    rw [update_self, if_pos (by simp)]
    rfl
  · rw [update_of_ne hg, if_neg (by simpa using Ne.symm hg)]
    rfl

theorem wp_dupFile (hne : p ≠ np) (hj : j ∉ pre)
    (hfile : ∀ f, (k.proc p).ofile j = some f → 1 ≤ k.fileRef f) :
    wp (dupFile p np j) (fun _ k' => k' = duped k p np (pre ++ [j])) E (duped k p np pre) := by
  have hproc : (duped k p np pre).proc p = k.proc p := update_of_ne hne _ _
  have hsame : dupedFiles k p np pre j = (k.proc np).ofile j := if_neg hj
  refine wp_bind.mpr (wp_get.mpr ?_)
  rw [hproc]
  cases hf : (k.proc p).ofile j with
  | none =>
    show duped k p np pre = duped k p np (pre ++ [j])
    rw [duped, duped, dupedRefs_concat_none hf, dupedFiles_concat hj, hf, Option.none_or, ← hsame,
      update_eq_self]
  | some f =>
    have href : ¬ (duped k p np pre).fileRef f < 1 := not_lt.mpr ((hfile f hf).trans (Nat.le_add_right _ _))
    refine wp_bind.mpr ?_
    refine wp_bind.mpr (wp_get.mpr ?_)
    rw [if_neg href]
    refine (wp_modify _).mpr (wp_modifyProc.mpr ?_)
    rw [duped, duped, dupedRefs_concat_some hf, dupedFiles_concat hj, hf, Option.some_or]
    simp only [update_self, update_idem]

theorem wp_dupFiles {l : List (Fin NOFILE)} (hne : p ≠ np) (hl : l.Nodup)
    (hfile : ∀ j f, (k.proc p).ofile j = some f → 1 ≤ k.fileRef f) :
    wp (l.forM (dupFile p np)) (fun _ k' => k' = duped k p np l) E k := by
  refine wp_forM (fun pre u => u = duped k p np pre) (duped_nil k p np).symm ?_ fun _ h => h
  intro pre j post hpre u hu
  subst hu
  refine wp_dupFile hne (fun hj => ?_) (hfile j)
  rw [hpre, List.nodup_append] at hl
  exact hl.2.2 j hj j List.mem_cons_self rfl

end Xv6.Kern

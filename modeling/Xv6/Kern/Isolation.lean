import Xv6.Kern.Draft
import Xv6.Kern.Fork

/-!
# What `fork` leaves behind

The child has its parent's memory in pages that were free; the parent, and everybody else, keeps what it has.
-/

namespace Xv6.Kern

open Function Vm Wp

variable {k k₁ : Kernel} {s s' : Mem} {p np : Fin NPROC} {E : Panic → Prop} {root tf : Nat} {new : Multiset Nat}
  {ws : List Nat}

def Kernel.pagesOf (k : Kernel) (p : Fin NPROC) : Multiset Nat :=
  (k.proc p).trapframe ::ₘ owned k.mem (k.proc p).pagetable (k.proc p).sz

/-- A process that can call `fork`: its memory is an address space, and it holds references to its open files. -/
structure Forkable (k : Kernel) (p : Fin NPROC) : Prop where
  sound : Sound k (k.pagesOf p)
  used : (k.proc p).state ≠ .UNUSED
  space : AddressSpace k.mem (k.proc p).pagetable (k.proc p).sz (k.proc p).trapframe k.trampoline
  files : ∀ i f, (k.proc p).ofile i = some f → 1 ≤ k.fileRef f

theorem Forkable.notFree (h : Forkable k p) {q : Nat} (hq : q ∈ k.pagesOf p) : q ∉ k.mem.freelist :=
  fun hf => h.sound.pool.fresh q hf hq

theorem Forkable.ne (h : Forkable k p) (hf : Fresh k k₁ np tf root) : p ≠ np := by
  rintro rfl
  exact h.used hf.unused

theorem mem_pagesOf_table {q : Nat} (hq : q ∈ tables k.mem (k.proc p).pagetable) : q ∈ k.pagesOf p :=
  Multiset.mem_cons_of_mem (Multiset.mem_add.mpr (.inl hq))

theorem mem_pagesOf_data {vpn w : Nat} (hvpn : vpn < npages (k.proc p).sz)
    (hw : pte k.mem (k.proc p).pagetable vpn = some w) : pte2pa w ∈ k.pagesOf p :=
  Multiset.mem_cons_of_mem (Multiset.mem_add.mpr (.inr (mem_behind hvpn hw)))

theorem Forkable.copyable (h : Forkable k p) (hf : Fresh k k₁ np tf root) :
    Copyable k₁.mem (k.proc p).pagetable root (k.proc p).sz := by
  have hout : ∀ q ∈ k.pagesOf p, q ∉ tables k₁.mem root ∧ q ∉ k₁.mem.freelist := fun q hq =>
    ⟨fun ht => h.notFree hq (hf.mem.mem_free (.inl (Multiset.mem_add.mpr (.inl ht)))),
      fun hm => h.notFree hq (hf.mem.mem_free (.inr hm))⟩
  have hsame : ∀ q ∈ tables k.mem (k.proc p).pagetable, k₁.mem.page q = k.mem.page q := fun q hq =>
    hf.mem.frame q (h.notFree (mem_pagesOf_table hq))
  have hle := npages_le h.space.size
  refine ⟨hf.layout.table, ?_, h.space.size.trans (by decide), fun vpn hvpn => ?_, fun q hq => ?_, fun vpn hvpn => ?_⟩
  · exact (hf.mem.pool h.sound.pool).mono fun q hq => Multiset.mem_add.mpr (.inl (Multiset.mem_add.mpr (.inl hq)))
  · obtain ⟨w, hw, hleaf⟩ := h.space.user vpn hvpn
    exact ⟨w, (pte_congr hsame vpn).trans hw, pteFlags_ne hleaf, hout _ (mem_pagesOf_data hvpn hw)⟩
  · rw [tables_congr hsame] at hq
    exact hout q (mem_pagesOf_table hq)
  · have hlt : vpn < 67108862 := hvpn.trans_le hle
    exact hf.layout.other vpn (by omega) (Nat.zero_le _) hlt.ne (hlt.trans (by decide : 67108862 < 67108863)).ne

/-- The memory of a copy of the process `p`, at the page table `root` and with the trapframe page `tf`. -/
structure CopyOf (k : Kernel) (p : Fin NPROC) (s : Mem) (root tf : Nat) : Prop where
  took : Took k.mem s (tf ::ₘ owned s root (k.proc p).sz)
  layout : Layout s root (k.proc p).sz tf k.trampoline
  pages : ∀ vpn < npages (k.proc p).sz, ∃ w w', pte k.mem (k.proc p).pagetable vpn = some w ∧
    pte s root vpn = some w' ∧ pteFlags w' = pteFlags w ∧ s.page (pte2pa w') = k.mem.page (pte2pa w)

theorem pteFlags_and {w c : Nat} (hc : c < 1024) : pteFlags w &&& c = w &&& c := by
  have hmod : pteFlags w = w % 1024 := Nat.and_two_pow_sub_one_eq_mod w 10
  rw [hmod, ← and_eq_mod hc]

theorem Forkable.copyOf (h : Forkable k p) (hf : Fresh k k₁ np tf root)
    (hg : Grown k₁.mem s root 0 (rowOf k₁.mem (k.proc p).pagetable) (flagsOf k₁.mem (k.proc p).pagetable) new ws)
    (hlen : ws.length = npages (k.proc p).sz) : CopyOf k p s root tf := by
  have hc := h.copyable hf
  have hsame : ∀ q ∈ tables k.mem (k.proc p).pagetable, k₁.mem.page q = k.mem.page q := fun q hq =>
    hf.mem.frame q (h.notFree (mem_pagesOf_table hq))
  -- what is copied is what the parent has
  have hflag : ∀ vpn < npages (k.proc p).sz, ∃ w, pte k.mem (k.proc p).pagetable vpn = some w ∧
      flagsOf k₁.mem (k.proc p).pagetable vpn = pteFlags w ∧
      rowOf k₁.mem (k.proc p).pagetable vpn = k.mem.page (pte2pa w) := by
    intro vpn hvpn
    obtain ⟨w, hw, -⟩ := h.space.user vpn hvpn
    refine ⟨w, hw, ?_, ?_⟩
    · rw [flagsOf, pte_congr hsame, hw, Option.getD_some]
    · rw [rowOf, pte_congr hsame, hw]
      exact hf.mem.frame _ (h.notFree (mem_pagesOf_data hvpn hw))
  have hcount : npages (k.proc p).sz = npages 0 + ws.length := (Nat.zero_add _).symm ▸ hlen.symm
  have hg₀ : Grown k₁.mem s root (npages 0) (rowOf k₁.mem (k.proc p).pagetable)
    (flagsOf k₁.mem (k.proc p).pagetable) new ws := hg
  refine ⟨?_, hf.layout.grown hg₀ hc.pool (fun i hi => ?_) hcount h.space.size, fun vpn hvpn => ?_⟩
  · have htook := hf.mem.moves hg.moves
    have howned : tf ::ₘ owned s root (k.proc p).sz = tables s root + ((ws.map pte2pa : Multiset Nat) + {tf}) := by
      rw [owned_grown hg₀ hcount h.space.size, hg.moves.tables, owned, show behind _ 0 (npages 0) = 0 from rfl,
        ← Multiset.singleton_add]
      ac_rfl
    rwa [howned]
  · rw [show npages 0 = 0 from rfl, Nat.zero_add]
    obtain ⟨w, hw, hflags, -⟩ := hflag i (hi.trans_eq hlen)
    obtain ⟨w', hw', hleaf⟩ := h.space.user i (hi.trans_eq hlen)
    cases hw.symm.trans hw'
    rw [hflags, pteFlags_and (by decide)]
    exact ⟨pteFlags_lt w, hleaf⟩
  · obtain ⟨w, hw, hflags, hrow⟩ := hflag vpn hvpn
    have hi : vpn < ws.length := hvpn.trans_eq hlen.symm
    have hw' : ws[vpn]? = some ws[vpn] := List.getElem?_eq_getElem hi
    obtain ⟨hleaf, hpage⟩ := hg.words vpn _ hw'
    rw [Nat.zero_add] at hleaf hpage
    refine ⟨w, ws[vpn], hw, ?_, ?_, hpage.trans hrow⟩
    · have hplaced := @placed_self (pte k₁.mem root) 0 vpn ws hi
      rw [Nat.zero_add] at hplaced
      rw [hg.moves.pte vpn (hvpn.trans_le ((npages_le h.space.size).trans (by decide))), hplaced, hw']
    · rw [hleaf, hflags, pteFlags_leaf (pteFlags_lt w)]
      exact flags_or_valid (pte_some hw).1

theorem CopyOf.trapframe_notMem (h : CopyOf k p s root tf) {used : Multiset Nat} (hp : Pool k.mem used) :
    tf ∉ owned s root (k.proc p).sz := (Multiset.nodup_cons.mp (h.took.nodup hp)).1

theorem CopyOf.write (h : CopyOf k p s root tf) {used : Multiset Nat} (hp : Pool k.mem used)
    (row : Fin 512 → Nat) : CopyOf k p { s with page := update s.page tf row } root tf := by
  have hout := h.trapframe_notMem hp
  have hsame : ∀ q ∈ owned s root (k.proc p).sz, update s.page tf row q = s.page q := fun q hq =>
    update_of_ne (fun heq : q = tf => hout (heq ▸ hq)) _ _
  have htab : ∀ q ∈ tables s root, update s.page tf row q = s.page q := fun q hq =>
    hsame q (Multiset.mem_add.mpr (.inl hq))
  have hpte : ∀ vpn, pte { s with page := update s.page tf row } root vpn = pte s root vpn := pte_congr htab
  have howned : owned { s with page := update s.page tf row } root (k.proc p).sz =
      owned s root (k.proc p).sz := by
    rw [owned, owned, tables_congr htab, behind_congr fun vpn _ _ => hpte vpn]
  refine ⟨?_, h.layout.congr htab, fun vpn hvpn => ?_⟩
  · rw [howned]
    refine h.took.write rfl rfl fun q hq => update_of_ne ?_ _ _
    exact fun heq => hq (heq ▸ Multiset.mem_cons_self _ _)
  · obtain ⟨w, w', hw, hw', hflags, hpage⟩ := h.pages vpn hvpn
    have hkept := hsame (pte2pa w') (Multiset.mem_add.mpr (.inr (mem_behind hvpn hw')))
    refine ⟨w, w', hw, (hpte vpn).trans hw', hflags, ?_⟩
    simp only [hkept, hpage]

/-- The child of a process `p`. -/
structure Child (k k' : Kernel) (p np : Fin NPROC) : Prop where
  slot : (k.proc np).state = .UNUSED ∧ (k'.proc np).state = .RUNNABLE
  size : (k'.proc np).sz = (k.proc p).sz
  space : AddressSpace k'.mem (k'.proc np).pagetable (k.proc p).sz (k'.proc np).trapframe k.trampoline
  took : Took k.mem k'.mem (k'.pagesOf np)
  pages : ∀ vpn < npages (k.proc p).sz, ∃ w w', pte k.mem (k.proc p).pagetable vpn = some w ∧
    pte k'.mem (k'.proc np).pagetable vpn = some w' ∧ pteFlags w' = pteFlags w ∧
    k'.mem.page (pte2pa w') = k.mem.page (pte2pa w)
  registers : ∀ i : Fin 512, i.val < trapframeWords → k'.mem.page (k'.proc np).trapframe i =
    if i = wordA0 then 0 else k.mem.page (k.proc p).trapframe i
  others : ∀ j, j ≠ np → k'.proc j = k.proc j

def childFrame (s : Mem) (tf ptf : Nat) : Fin 512 → Nat := fun i =>
  if i = wordA0 then 0 else if i.val < trapframeWords then s.page ptf i else s.page tf i

theorem put_childFrame {ptf : Nat} :
    Radix.put (update s.page tf fun i => if i.val < trapframeWords then s.page ptf i else s.page tf i)
      (tf, wordA0) 0 = update s.page tf (childFrame s tf ptf) := by
  rw [Radix.put, update_self, update_idem]
  refine congrArg _ (funext fun i => ?_)
  by_cases hi : i = wordA0
  · rw [hi, update_self, childFrame, if_pos rfl]
  · rw [update_of_ne hi, childFrame, if_neg hi]

/-- The slot of the child when `allocproc` returns. -/
def freshTask (k : Kernel) (np : Fin NPROC) (tf root : Nat) : Task :=
  { k.proc np with toProc := (k.proc np).toProc.found k.nextpid, trapframe := tf, pagetable := root }

theorem Fresh.proc_self (hf : Fresh k k₁ np tf root) : k₁.proc np = freshTask k np tf root := by
  rw [hf.kernel]
  exact update_self _ _ _

theorem Fresh.proc_of_ne (hf : Fresh k k₁ np tf root) {j : Fin NPROC} (hj : j ≠ np) : k₁.proc j = k.proc j := by
  rw [hf.kernel]
  exact update_of_ne hj _ _

theorem Fresh.refs (hf : Fresh k k₁ np tf root) : k₁.fileRef = k.fileRef ∧ k₁.inodeRef = k.inodeRef := by
  rw [hf.kernel]
  exact ⟨rfl, rfl⟩

theorem Forkable.wp_giveUp (h : Forkable k p) (hf : Fresh k k₁ np tf root)
    (hm : Moves k₁.mem s root new 0 0 (pte k₁.mem root)) :
    wp (do freeproc np; return (-1 : Int)) (fun r k' => r = -1 ∧ Restored k k') E { k₁ with mem := s } := by
  refine wp_freeproc_restored hf.unused ?_ ?_ ?_ ?_ _
  · exact fun j hj => hf.proc_of_ne hj
  · exact hf.refs.1
  · exact hf.refs.2
  have hpool : Pool k₁.mem (tables k₁.mem root) := (h.copyable hf).pool
  have htook := hf.mem.moves hm
  show wp (k₁.proc np).freeMem _ E s
  rw [hf.proc_self]
  refine wp_freeMem_empty h.sound.pool ?_ hf.trapframe hf.pagetable (h.sound.idle np hf.unused).sz
    (hf.layout.moves hpool hm)
  rw [add_zero, ← Multiset.singleton_add, add_comm]
  rwa [zero_add] at htook

theorem CopyOf.child {k' : Kernel}
    (hc : CopyOf k p { s with page := update s.page tf (childFrame s tf (k.proc p).trapframe) } root tf)
    (h : Forkable k p) (hunused : (k.proc np).state = .UNUSED)
    (hmem : k'.mem = { s with page := update s.page tf (childFrame s tf (k.proc p).trapframe) })
    (hstate : (k'.proc np).state = .RUNNABLE) (hroot : (k'.proc np).pagetable = root)
    (htf : (k'.proc np).trapframe = tf) (hsz : (k'.proc np).sz = (k.proc p).sz)
    (hothers : ∀ j, j ≠ np → k'.proc j = k.proc j) : Child k k' p np := by
  rw [← hmem] at hc
  -- the page of the parent is another one
  have hparent : (k.proc p).trapframe ∉ k.mem.freelist := h.notFree (Multiset.mem_cons_self _ _)
  have hne : (k.proc p).trapframe ≠ tf := fun heq =>
    hparent (heq ▸ hc.took.mem_free (.inl (Multiset.mem_cons_self _ _)))
  have hkept : k.mem.page (k.proc p).trapframe = s.page (k.proc p).trapframe := by
    rw [← hc.took.frame _ hparent, hmem]
    exact update_of_ne hne _ _
  refine ⟨⟨hunused, hstate⟩, hsz, ?_, ?_, ?_, fun i hi => ?_, hothers⟩
  · rw [hroot, htf]
    exact ⟨hc.layout, hc.took.nodup h.sound.pool, fun q hq => hc.took.kfreeable h.sound.pool hq⟩
  · rw [Kernel.pagesOf, hroot, htf, hsz]
    exact hc.took
  · rw [hroot]
    exact hc.pages
  · rw [htf, hmem]
    simp only [update_self, childFrame]
    rw [if_pos hi, ← hkept]

theorem wp_fork (h : Forkable k p) :
    wp (fork p) (fun r k' => (r = -1 ∧ Restored k k') ∨ ∃ np, r = k.nextpid.toInt ∧ Child k k' p np) E k := by
  refine (wp_allocproc h.sound).bind ?_
  rintro r k₁ (⟨rfl, hr⟩ | ⟨np, tf, root, rfl, hf⟩)
  · exact .inl ⟨rfl, hr⟩
  have hne := h.ne hf
  have hp : k₁.proc p = k.proc p := hf.proc_of_ne hne
  have hnp := hf.proc_self
  refine wp_bind.mpr (wp_get.mpr ?_)
  rw [hp, hnp]
  refine wp_bind.mpr (wp_onMem.mpr ((wp_uvmcopy (h.copyable hf)).mono fun x s hx => ?_))
  cases hx with
  | failed hm =>
    exact (h.wp_giveUp hf hm).mono fun _ _ h => .inl h
  | done hg hlen =>
    have hcopy := (h.copyOf hf hg hlen).write h.sound.pool (childFrame s tf (k.proc p).trapframe)
    refine wp_bind.mpr (wp_modifyProc.mpr (wp_bind.mpr (wp_onMem.mpr ((wp_modify _).mpr ?_))))
    refine wp_bind.mpr (wp_onMem.mpr (wp_store.mpr ?_))
    refine (wp_dupFiles hne (List.nodup_finRange _) fun j f hj => ?_).bind fun _ k₃ hk₃ => ?_
    · have hfile : (update k₁.proc np _ p).ofile j = some f := hj
      rw [update_of_ne hne, hp] at hfile
      exact (h.files j f hfile).trans_eq (congrFun hf.refs.1 f).symm
    · subst hk₃
      refine wp_bind.mpr ((wp_modify _).mpr (wp_bind.mpr (wp_modifyProc.mpr (wp_bind.mpr (wp_get.mpr ?_)))))
      refine wp_bind.mpr (wp_modifyProc.mpr (wp_bind.mpr (wp_modifyProc.mpr ?_)))
      refine .inr ⟨np, ?_, hcopy.child h hf.unused ?_ ?_ ?_ ?_ ?_ fun j hj => ?_⟩
      · simp only [duped, update_self, hnp]
        rfl
      · simp only [duped, put_childFrame]
        rfl
      · simp only [update_self]
      · simp only [duped, update_self, hnp]
        rfl
      · simp only [duped, update_self, hnp]
        rfl
      · simp only [duped, update_self]
      · simp only [duped, update_of_ne hj]
        exact hf.proc_of_ne hj

/-- `fork` fails with -1, with the free pages, the slots and the reference counts as before; or it returns the pid of
a child that has a copy of the address space, in pages that were free, so that they are no pages of the parent. In
both cases the slot and the pages of the parent have not changed. -/
theorem fork_isolates (h : Forkable k p) : ∃ r k', (fork p).run k = .ok (r, k') ∧
    ((r = -1 ∧ (k'.mem.freelist : Multiset Nat) = k.mem.freelist ∧ k'.fileRef = k.fileRef ∧
        k'.inodeRef = k.inodeRef ∧ ∀ i, k'.proc i = k.proc i ∨ (k.proc i).state = .UNUSED ∧ Idle (k'.proc i)) ∨
      ∃ np, r = k.nextpid.toInt ∧ Child k k' p np ∧ ∀ q ∈ k'.pagesOf np, q ∉ k.pagesOf p) ∧
    k'.proc p = k.proc p ∧ ∀ q ∈ k.pagesOf p, k'.mem.page q = k.mem.page q := by
  have hwp : wp (fork p) _ (fun _ => False) k := wp_fork h
  obtain ⟨r, k', hrun, hpost⟩ := exists_of_wp hwp
  refine ⟨r, k', hrun, ?_⟩
  rcases hpost with ⟨rfl, hr⟩ | ⟨np, rfl, hc⟩
  · refine ⟨.inl ⟨rfl, ?_, hr.fileRef, hr.inodeRef, hr.proc⟩, ?_, fun q hq => ?_⟩
    · rw [hr.mem.free, zero_add]
    · exact (hr.proc p).resolve_right fun hidle => h.used hidle.1
    · exact hr.mem.frame q (h.notFree hq)
  · refine ⟨.inr ⟨np, rfl, hc, fun q hq hp => ?_⟩, hc.others p ?_, fun q hq => ?_⟩
    · exact h.notFree hp (hc.took.mem_free (.inl hq))
    · rintro rfl
      exact h.used hc.slot.1
    · exact hc.took.frame q (h.notFree hq)

/-! ## A process with one page -/

/-- A process that has just got its memory can call `fork`. -/
theorem Fresh.forkable {used : Multiset Nat} {sz : Nat} (hf : Fresh k k₁ np tf root) (hk : Sound k used)
    (hd : Draft k.mem s root sz tf k.trampoline {tf}) (hfiles : (k.proc np).ofile = fun _ => none) :
    Forkable { k₁ with mem := s, proc := update k₁.proc np { k₁.proc np with sz := sz } } np := by
  have hpages : (owned s root sz + {tf} : Multiset Nat) = tf ::ₘ owned s root sz := by
    rw [add_comm, Multiset.singleton_add]
  have htook := hd.took
  rw [hpages] at htook
  have hself := hf.proc_self
  have htramp : k₁.trampoline = k.trampoline := by rw [hf.kernel]
  refine ⟨⟨?_, ?_, ?_, fun i hi => ?_⟩, ?_, ?_, fun i f hi => ?_⟩
  · refine (htook.pool hk.pool).mono fun q hq => Multiset.mem_add.mpr (.inl ?_)
    simp only [Kernel.pagesOf, update_self, hself] at hq
    exact hq
  · exact hk.kend.trans_eq htook.kend.symm
  · exact htramp ▸ hk.trampoline
  · have hne : i ≠ np := by
      rintro rfl
      simp only [update_self, hself] at hi
      exact absurd hi nofun
    simp only [update_of_ne hne, hf.proc_of_ne hne] at hi ⊢
    exact hk.idle i hi
  · simp only [update_self, hself]
    exact nofun
  · simp only [update_self, hself, htramp]
    exact ⟨hd.layout, htook.nodup hk.pool, fun q hq => htook.kfreeable hk.pool hq⟩
  · simp only [update_self, hself] at hi
    have hnone : (k.proc np).ofile i = some f := hi
    rw [hfiles] at hnone
    cases hnone

/-- A new process that gets a byte of memory. -/
def newProc : KernM (Option (Fin NPROC)) := do
  match ← allocproc with
  | none => return none
  | some i =>
    if (← growproc i 1) = 0 then return some i
    return none

theorem wp_newProc {used : Multiset Nat} (hk : Sound k used) (hkend : KERNBASE ≤ k.mem.kend)
    (hfiles : ∀ i, (k.proc i).ofile = fun _ => none) :
    wp newProc (fun r k' => ∀ i, r = some i → Forkable k' i ∧ (k'.proc i).sz = 1 ∧
      k'.nextpid = k.nextpid + 1 ∧ k'.mem.kend = k.mem.kend) E k := by
  refine (wp_allocproc hk).bind ?_
  rintro r k₁ (⟨rfl, -⟩ | ⟨np, tf, root, rfl, hf⟩)
  · exact fun i hi => absurd hi nofun
  have hd : Draft k.mem k₁.mem root 0 tf k.trampoline {tf} := by
    refine ⟨?_, hf.layout⟩
    rw [owned, show behind _ 0 (npages 0) = 0 from rfl, add_zero]
    exact hf.mem
  have hself := hf.proc_self
  have hroot : (k₁.proc np).pagetable = root := by rw [hself]; rfl
  have hsz : (k₁.proc np).sz = 0 := by
    rw [hself]
    exact (hk.idle np hf.unused).sz
  refine wp_bind.mpr ?_
  refine wp_bind.mpr (wp_get.mpr ?_)
  rw [if_pos (by decide), hsz, hroot]
  refine wp_bind.mpr (wp_onMem.mpr ((hd.wp_uvmalloc hk.pool hkend (by decide) (Nat.zero_le _)).mono ?_))
  rintro r s (⟨rfl, -, -⟩ | ⟨rfl, hd', -⟩)
  · rw [if_pos rfl]
    exact fun i hi => absurd hi nofun
  · rw [if_neg (by decide)]
    refine wp_bind.mpr (wp_modifyProc.mpr ?_)
    rintro i hi
    cases hi
    refine ⟨hf.forkable hk hd' (hfiles np), ?_, ?_, hd'.took.kend⟩
    · simp only [update_self]
      rfl
    · exact hf.kernel ▸ rfl

/-- A kernel with `n` free pages and no process. -/
def bootKernel (n : Nat) : Kernel where
  mem := ⟨fun _ _ => 0, (List.range n).map fun i => 0x80002000 + i * PGSIZE, [], 0x80001000⟩
  proc _ := ⟨⟨.UNUSED, .null, false, 0, 0, none⟩, 0, 0, 0, fun _ => none, 0, []⟩
  nextpid := 1
  fileRef _ := 0
  inodeRef _ := 0
  trampoline := 0x80000000

theorem bootKernel_sound {n : Nat} (hn : n ≤ 1024) : Sound (bootKernel n) 0 where
  pool := by
    refine ⟨?_, fun q hq => ?_, fun q _ hu => absurd hu (Multiset.notMem_zero q)⟩
    · refine List.Nodup.map (fun i j hij => ?_) List.nodup_range
      have hij : 0x80002000 + i * 4096 = 0x80002000 + j * 4096 := hij
      omega
    · obtain ⟨i, hi, rfl⟩ := List.mem_map.mp hq
      have hi := List.mem_range.mp hi
      refine ⟨?_, ?_, ?_⟩
      · show (0x80002000 + i * 4096) % 4096 = 0
        omega
      · show 0x80001000 ≤ 0x80002000 + i * 4096
        omega
      · show 0x80002000 + i * 4096 < 0x88000000
        omega
  kend := show 0 < 0x80001000 by decide
  trampoline := show 0x80000000 + PGSIZE ≤ 2 ^ 56 by decide
  idle _ _ := ⟨rfl, rfl, rfl, rfl⟩

theorem exists_newProc {α β : Type} {n : Nat} {f : Fin NPROC → KernM α} {obs : α × Kernel → β} {b : β} (hn : n ≤ 1024)
    (hrun : ((do let i ← newProc; f (i.getD 1)).run (bootKernel n)).map obs = .ok b)
    (hsome : (newProc.run (bootKernel n)).map Prod.fst = .ok (some 0)) :
    ∃ k, Forkable k 0 ∧ (k.proc 0).sz = 1 ∧ k.nextpid = 2 ∧ k.mem.kend = 0x80001000 ∧
      ((f 0).run k).map obs = .ok b := by
  have hwp : wp newProc _ (fun _ => False) (bootKernel n) :=
    wp_newProc (bootKernel_sound hn) (show KERNBASE ≤ 0x80001000 by decide) fun _ => rfl
  obtain ⟨x, k, hk, hpost⟩ := exists_of_wp hwp
  rw [hk] at hsome
  obtain rfl : x = some 0 := Except.ok.inj hsome
  obtain ⟨hf, hsz, hpid, hkend⟩ := hpost 0 rfl
  refine ⟨k, hf, hsz, hpid, hkend, ?_⟩
  rw [← hrun, StateT.run_bind, hk]
  rfl

/-- A fork of a process with one page, with and without memory for the child. -/
theorem fork_isolates_onePage :
    (∃ k k' np, (k.proc 0).sz = 1 ∧ (fork 0).run k = .ok (2, k') ∧ Child k k' 0 np ∧
      ∀ q ∈ k'.pagesOf np, q ∉ k.pagesOf 0) ∧
    ∃ k k', (k.proc 0).sz = 1 ∧ (fork 0).run k = .ok (-1, k') ∧
      (k'.mem.freelist : Multiset Nat) = k.mem.freelist := by
  have hrun1 : ((do let i ← newProc; fork (i.getD 1)).run (bootKernel 16)).map Prod.fst = .ok 2 := by decide +kernel
  have hsome1 : (newProc.run (bootKernel 16)).map Prod.fst = .ok (some 0) := by decide +kernel
  have hrun2 : ((do let i ← newProc; fork (i.getD 1)).run (bootKernel 10)).map Prod.fst = .ok (-1) := by
    decide +kernel
  have hsome2 : (newProc.run (bootKernel 10)).map Prod.fst = .ok (some 0) := by decide +kernel
  constructor
  · obtain ⟨k, hf, hsz, -, -, hrun⟩ := exists_newProc (by decide) hrun1 hsome1
    obtain ⟨r, k', hfork, hpost, -⟩ := fork_isolates hf
    rw [hfork] at hrun
    obtain rfl : r = 2 := Except.ok.inj hrun
    obtain ⟨np, -, hc, hdisj⟩ := hpost.resolve_left fun hfail => absurd hfail.1 (by decide)
    exact ⟨k, k', np, hsz, hfork, hc, hdisj⟩
  · obtain ⟨k, hf, hsz, hpid, -, hrun⟩ := exists_newProc (by decide) hrun2 hsome2
    obtain ⟨r, k', hfork, hpost, -⟩ := fork_isolates hf
    rw [hfork] at hrun
    obtain rfl : r = -1 := Except.ok.inj hrun
    have hfail := hpost.resolve_right fun ⟨_, hnext, _⟩ => absurd (hpid ▸ hnext) (by decide)
    exact ⟨k, k', hsz, hfork, hfail.2.1⟩

end Xv6.Kern

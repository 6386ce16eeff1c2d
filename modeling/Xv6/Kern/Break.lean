import Xv6.Kern.Isolation

/-!
# The memory of a running process

`sbrk` moves the end of the memory of a process. The address space of a process is one that has been built out
of the pages it owns, so that the specifications of `Draft` apply.
-/

namespace Xv6.Kern

open Function Vm Wp

variable {k k' : Kernel} {s : Mem} {p : Fin NPROC} {E : Panic → Prop} {n : Int}

/-- `sys_sbrk`, with the argument that `argint` has fetched. -/
def sysSbrk (i : Fin NPROC) (n : Int) : KernM Int := do
  let addr := ((← get).proc i).sz
  if (← growproc i n) < 0 then return -1
  return addr

/-- A process whose memory is an address space; the pages that it owns are not free. -/
structure Running (k : Kernel) (p : Fin NPROC) : Prop where
  pool : Pool k.mem (k.pagesOf p)
  kend : KERNBASE ≤ k.mem.kend
  trampoline : k.trampoline + PGSIZE ≤ 2 ^ 56
  space : AddressSpace k.mem (k.proc p).pagetable (k.proc p).sz (k.proc p).trapframe k.trampoline

/-- Memory in which the address space of the process has not been built yet. -/
noncomputable def unbuilt (k : Kernel) (p : Fin NPROC) : Mem :=
  { k.mem with freelist := (owned k.mem (k.proc p).pagetable (k.proc p).sz).toList ++ k.mem.freelist }

theorem Running.pool_unbuilt (h : Running k p) : Pool (unbuilt k p) {(k.proc p).trapframe} := by
  have hn := Multiset.nodup_cons.mp h.space.distinct
  have hmem : ∀ q, q ∈ (unbuilt k p).freelist ↔
      q ∈ owned k.mem (k.proc p).pagetable (k.proc p).sz ∨ q ∈ k.mem.freelist := fun q => by
    rw [unbuilt, List.mem_append, Multiset.mem_toList]
  refine ⟨List.nodup_append'.mpr ⟨?_, h.pool.distinct, ?_⟩, fun q hq => ?_, fun q hq heq => ?_⟩
  · rw [← Multiset.coe_nodup, Multiset.coe_toList]
    exact hn.2
  · exact fun q hq hf => h.pool.fresh q hf (Multiset.mem_cons_of_mem (Multiset.mem_toList.mp hq))
  · rcases (hmem q).mp hq with hq | hq
    · exact h.space.memory q (Multiset.mem_cons_of_mem hq)
    · exact h.pool.kfreeable q hq
  · rw [Multiset.mem_singleton] at heq
    subst heq
    rcases (hmem _).mp hq with hq | hq
    · exact hn.1 hq
    · exact h.pool.fresh _ hq (Multiset.mem_cons_self _ _)

theorem Running.draft (h : Running k p) : Draft (unbuilt k p) k.mem (k.proc p).pagetable (k.proc p).sz
    (k.proc p).trapframe k.trampoline 0 := by
  refine ⟨⟨?_, fun _ _ => rfl, rfl⟩, h.space.toLayout⟩
  rw [unbuilt, ← Multiset.coe_add, Multiset.coe_toList, add_zero]

/-- The kernel when `p` has another size and memory has changed. -/
def resized (k : Kernel) (p : Fin NPROC) (s : Mem) (sz : Nat) : Kernel :=
  { k with mem := s, proc := update k.proc p { k.proc p with sz := sz } }

theorem resized_proc (k : Kernel) (p : Fin NPROC) (s : Mem) (sz : Nat) :
    (resized k p s sz).proc p = { k.proc p with sz := sz } := update_self _ _ _

theorem resized_self (k : Kernel) (p : Fin NPROC) (s : Mem) :
    resized k p s (k.proc p).sz = { k with mem := s } := by
  rw [resized, update_eq_self]

theorem Running.resize {sz : Nat} (h : Running k p)
    (hd : Draft (unbuilt k p) s (k.proc p).pagetable sz (k.proc p).trapframe k.trampoline 0) :
    Running (resized k p s sz) p := by
  have hp := h.pool_unbuilt
  have htook := hd.took
  rw [add_zero] at htook
  have hout : (k.proc p).trapframe ∉ owned s (k.proc p).pagetable sz := fun hm =>
    hp.fresh _ (htook.mem_free (.inl hm)) (Multiset.mem_singleton_self _)
  have hmemory : ∀ q ∈ (k.proc p).trapframe ::ₘ owned s (k.proc p).pagetable sz, Kfreeable s q := by
    intro q hq
    rcases Multiset.mem_cons.mp hq with rfl | hq
    · rw [Kfreeable, show s.kend = k.mem.kend from htook.kend]
      exact h.space.memory _ (Multiset.mem_cons_self _ _)
    · exact htook.kfreeable hp hq
  have hpages : (resized k p s sz).pagesOf p = (k.proc p).trapframe ::ₘ owned s (k.proc p).pagetable sz := by
    rw [Kernel.pagesOf, resized_proc]
    rfl
  refine ⟨?_, ?_, h.trampoline, ?_⟩
  · rw [hpages]
    refine (htook.pool hp).mono fun q hq => ?_
    rw [← Multiset.singleton_add, add_comm] at hq
    exact hq
  · exact h.kend.trans_eq htook.kend.symm
  · rw [resized_proc]
    exact ⟨hd.layout, Multiset.nodup_cons.mpr ⟨hout, htook.nodup hp⟩, hmemory⟩

theorem wp_growproc (h : Running k p) (hn : n < 2 ^ 31) (hsum : 0 ≤ (k.proc p).sz + n) :
    wp (growproc p n) (fun r k' =>
      (r = -1 ∧ 0 < n ∧ ∃ s, k' = { k with mem := s } ∧ Running k' p ∧
        ∀ vpn < 2 ^ 27, pte s (k.proc p).pagetable vpn = pte k.mem (k.proc p).pagetable vpn) ∨
      (r = 0 ∧ ∃ s, ∃ sz : Nat, (sz : Int) = (k.proc p).sz + n ∧ k' = resized k p s sz ∧ Running k' p)) E k := by
  have hsz : (k.proc p).sz ≤ 274877898752 := h.space.size
  obtain ⟨newsz, hnewsz⟩ := Int.eq_ofNat_of_zero_le hsum
  have hmod : (((k.proc p).sz + n) % 2 ^ 64).toNat = newsz := by
    omega
  refine wp_bind.mpr (wp_get.mpr ?_)
  simp only [hmod]
  refine wp_ite.mpr ⟨fun hpos => ?_, fun hpos => ?_⟩
  · have hle : (k.proc p).sz ≤ newsz := by omega
    refine wp_bind.mpr (wp_onMem.mpr
      ((h.draft.wp_uvmalloc h.pool_unbuilt h.kend (by decide : PTE_W < 1024) hle).mono ?_))
    rintro r s (⟨rfl, hd, new, hm⟩ | ⟨rfl, hd, -⟩)
    · rw [if_pos rfl]
      have hrun := h.resize hd
      rw [resized_self] at hrun
      exact .inl ⟨rfl, hpos, s, rfl, hrun, hm.pte⟩
    · rw [if_neg (by omega)]
      exact wp_bind.mpr (wp_modifyProc.mpr (.inr ⟨rfl, s, _, hnewsz.symm, rfl, h.resize hd⟩))
  · refine wp_ite.mpr ⟨fun hneg => ?_, fun hneg => ?_⟩
    · have hle : newsz ≤ (k.proc p).sz := by omega
      refine wp_bind.mpr (wp_onMem.mpr ((h.draft.wp_uvmdealloc h.pool_unbuilt hle).mono ?_))
      rintro r s ⟨rfl, hd⟩
      exact wp_bind.mpr (wp_modifyProc.mpr (.inr ⟨rfl, s, _, hnewsz.symm, rfl, h.resize hd⟩))
    · obtain rfl : n = 0 := by omega
      refine .inr ⟨rfl, k.mem, (k.proc p).sz, (Int.add_zero _).symm, (resized_self k p k.mem).symm, h⟩

theorem Running.mapped_iff (h : Running k p) {vpn : Nat} (hvpn : vpn < trapframeVpn) :
    (∃ w, pte k.mem (k.proc p).pagetable vpn = some w) ↔ vpn * PGSIZE < pgroundup (k.proc p).sz := by
  rw [lt_pgroundup]
  constructor
  · rintro ⟨w, hw⟩
    by_contra hge
    have hlt : vpn < 67108862 := hvpn
    rw [h.space.other vpn (by omega) (not_lt.mp hge) hlt.ne (hlt.trans (by decide : 67108862 < 67108863)).ne] at hw
    cases hw
  · exact fun hlt => (h.space.user vpn hlt).imp fun _ => And.left

/-- A request below zero wraps around to a size that is not below the old one: nothing is done. -/
theorem wp_growproc_below (hn : -2 ^ 31 ≤ n) (hsum : (k.proc p).sz + n < 0) :
    wp (growproc p n) (fun r k' => r = 0 ∧ k' = k) E k := by
  have hle : (k.proc p).sz ≤ (((k.proc p).sz + n) % 2 ^ 64).toNat := by omega
  refine wp_bind.mpr (wp_get.mpr ?_)
  rw [if_neg (by omega), if_pos (by omega)]
  refine wp_bind.mpr (wp_onMem.mpr (wp_ite.mpr ⟨fun _ => ?_, fun hlt => absurd hle hlt⟩))
  exact ⟨rfl, resized_self k p k.mem⟩

/-- The call has moved the end of the memory by exactly `n`, or has failed and changed neither the size nor the
mappings. -/
def BreakMoved (k : Kernel) (p : Fin NPROC) (n r : Int) (k' : Kernel) : Prop :=
  (r = -1 ∧ (k'.proc p).sz = (k.proc p).sz ∧
      ∀ vpn < 2 ^ 27, pte k'.mem (k.proc p).pagetable vpn = pte k.mem (k.proc p).pagetable vpn) ∨
    (r = (k.proc p).sz ∧ ((k'.proc p).sz : Int) = (k.proc p).sz + n ∧ ∀ vpn < trapframeVpn,
      (∃ w, pte k'.mem (k.proc p).pagetable vpn = some w) ↔ vpn * PGSIZE < pgroundup (k'.proc p).sz)

theorem wp_sysSbrk (h : Running k p) (hn : n < 2 ^ 31) (hsum : 0 ≤ (k.proc p).sz + n) :
    wp (sysSbrk p n) (fun r k' => Running k' p ∧ (k'.proc p).pagetable = (k.proc p).pagetable ∧
      BreakMoved k p n r k') E k := by
  refine wp_bind.mpr (wp_get.mpr ((wp_growproc h hn hsum).bind ?_))
  rintro r k' (⟨rfl, -, s, rfl, hrun, hpte⟩ | ⟨rfl, s, sz, hsz, rfl, hrun⟩)
  · exact ⟨hrun, rfl, .inl ⟨rfl, rfl, hpte⟩⟩
  · have hroot : ((resized k p s sz).proc p).pagetable = (k.proc p).pagetable := by rw [resized_proc]
    refine ⟨hrun, hroot, .inr ⟨rfl, ?_, fun vpn hvpn => ?_⟩⟩
    · rw [resized_proc]
      exact hsz
    · rw [← hroot]
      exact hrun.mapped_iff hvpn

/-- `sbrk` moves the end of the memory by exactly `n`, or fails and changes neither the size nor the mappings, if
and only if the sum is not negative; it always returns, and leaves an address space. -/
theorem sbrk_moves_break (h : Running k p) (hn : -2 ^ 31 ≤ n ∧ n < 2 ^ 31) :
    ∃ r k', (sysSbrk p n).run k = .ok (r, k') ∧ Running k' p ∧ (k'.proc p).pagetable = (k.proc p).pagetable ∧
      (BreakMoved k p n r k' ↔ 0 ≤ (k.proc p).sz + n) := by
  by_cases hsum : 0 ≤ (k.proc p).sz + n
  · obtain ⟨r, k', hrun, hrunning, hroot, hmoved⟩ := exists_of_wp (wp_sysSbrk h hn.2 hsum)
    exact ⟨r, k', hrun, hrunning, hroot, iff_of_true hmoved hsum⟩
  · have hwp : wp (sysSbrk p n) (fun r k' => r = (k.proc p).sz ∧ k' = k) (fun _ => False) k := by
      refine wp_bind.mpr (wp_get.mpr ((wp_growproc_below hn.1 (not_le.mp hsum)).bind ?_))
      rintro r k' ⟨rfl, rfl⟩
      exact ⟨rfl, rfl⟩
    obtain ⟨r, k', hrun, rfl, rfl⟩ := exists_of_wp hwp
    refine ⟨_, k', hrun, h, rfl, iff_of_false ?_ hsum⟩
    rintro (⟨hr, -⟩ | ⟨-, hsz, -⟩) <;> omega

theorem Forkable.running (h : Forkable k p) (hkend : KERNBASE ≤ k.mem.kend) : Running k p :=
  ⟨h.sound.pool, hkend, h.sound.trampoline, h.space⟩

def resultAndSize (x : Int × Kernel) : Int × Nat := (x.1, (x.2.proc 0).sz)

theorem newProc_boot : (newProc.run (bootKernel 16)).map Prod.fst = .ok (some 0) := by decide +kernel

/-- A process of one byte gets 8191 more. -/
theorem sbrk_moves_break_page : ∃ k k', Running k 0 ∧ (k.proc 0).sz = 1 ∧
    (sysSbrk 0 8191).run k = .ok (1, k') ∧ (k'.proc 0).sz = 8192 := by
  have hrun : ((do let i ← newProc; sysSbrk (i.getD 1) 8191).run (bootKernel 16)).map resultAndSize =
    .ok (1, 8192) := by decide +kernel
  obtain ⟨k, hf, hsz, -, hkend, hobs⟩ := exists_newProc (f := fun i => sysSbrk i 8191) (by decide) hrun newProc_boot
  have hk : Running k 0 := hf.running (hkend ▸ by decide)
  obtain ⟨r, k', hsbrk, -⟩ := sbrk_moves_break hk (by decide : (-2 ^ 31 : Int) ≤ 8191 ∧ (8191 : Int) < 2 ^ 31)
  rw [hsbrk] at hobs
  obtain ⟨rfl, hsz'⟩ := Prod.mk.inj (Except.ok.inj hobs)
  exact ⟨k, k', hk, hsz, hsbrk, hsz'⟩

/-- A request below zero: `sbrk(-2)` of a process of one byte returns the old size, and the size is the same. -/
theorem sbrk_below_zero : ∃ k k', Running k 0 ∧ (k.proc 0).sz = 1 ∧
    (sysSbrk 0 (-2)).run k = .ok (1, k') ∧ (k'.proc 0).sz = 1 := by
  have hrun : ((do let i ← newProc; sysSbrk (i.getD 1) (-2)).run (bootKernel 16)).map resultAndSize =
    .ok (1, 1) := by decide +kernel
  obtain ⟨k, hf, hsz, -, hkend, hobs⟩ := exists_newProc (f := fun i => sysSbrk i (-2)) (by decide) hrun newProc_boot
  obtain ⟨⟨r, k'⟩, hsbrk, hres⟩ := ok_of_map hobs
  obtain ⟨rfl, hsz'⟩ := Prod.mk.inj hres
  exact ⟨k, k', hf.running (hkend ▸ by decide), hsz, hsbrk, hsz'⟩

end Xv6.Kern

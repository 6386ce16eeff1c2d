import Xv6.Kern.Space
import Xv6.Vm.AllOrNothing

/-!
# An address space under construction

`uvmalloc` and `uvmdealloc` on an address space that has been built out of free pages: what it grows by was free,
and what it shrinks by is free again.
-/

namespace Xv6.Kern

open Vm Wp

variable {s s' : Mem} {root sz newsz tf tramp : Nat} {used out new : Multiset Nat} {ws : List Nat} {E : Panic → Prop}

/-- The address space at `root` has been built out of pages that were free in `s`. -/
structure Draft (s s' : Mem) (root sz tf tramp : Nat) (used : Multiset Nat) : Prop where
  took : Took s s' (owned s' root sz + used)
  layout : Layout s' root sz tf tramp

namespace Draft

variable (h : Draft s s' root sz tf tramp used)

include h

theorem mem_owned {q : Nat} (hq : q ∈ owned s' root sz) : q ∈ s.freelist :=
  h.took.mem_free (.inl (Multiset.mem_add.mpr (.inl hq)))

theorem pool (hp : Pool s out) : Pool s' (tables s' root) :=
  (h.took.pool hp).mono fun _ hq =>
    Multiset.mem_add.mpr (.inl (Multiset.mem_add.mpr (.inl (Multiset.mem_add.mpr (.inl hq)))))

theorem room (hp : Pool s out) (hkend : KERNBASE ≤ s.kend) :
    npages sz + s'.freelist.length ≤ 2 ^ 24 := by
  have hle := npages_le h.layout.size
  refine mapped_add_free_le h.layout.table (h.pool hp) (hkend.trans_eq h.took.kend.symm) (fun q hq => ?_)
    (hle.trans (by decide)) fun vpn hvpn => (h.layout.user vpn hvpn).imp fun _ => And.left
  exact h.took.kfreeable hp (Multiset.mem_add.mpr (.inl (Multiset.mem_add.mpr (.inl hq))))

theorem grown (hp : Pool s out) {s'' : Mem} {row : Nat → Fin 512 → Nat}
    {perm : Nat → Nat} (hg : Grown s' s'' root (npages sz) row perm new ws)
    (hperm : ∀ i < ws.length, perm (npages sz + i) < 1024 ∧
      perm (npages sz + i) &&& (PTE_R ||| PTE_W ||| PTE_X) ≠ 0)
    (hcount : npages newsz = npages sz + ws.length) (hsz : newsz ≤ TRAPFRAME) :
    Draft s s'' root newsz tf tramp used := by
  refine ⟨?_, h.layout.grown hg (h.pool hp) hperm hcount hsz⟩
  have htook := h.took
  rw [owned, add_assoc] at htook
  have hnew : owned s'' root newsz + used =
      tables s'' root + ((ws.map pte2pa : Multiset Nat) + (behind (pte s' root) 0 (npages sz) + used)) := by
    rw [owned_grown hg hcount hsz, hg.moves.tables]
    ac_rfl
  rw [hnew]
  exact htook.moves hg.moves

theorem moves (hp : Pool s out) {s'' : Mem}
    (hm : Moves s' s'' root new 0 0 (pte s' root)) : Draft s s'' root sz tf tramp used := by
  have hg : Grown s' s'' root (npages sz) (fun _ _ => 0) (fun _ => 0) new [] :=
    ⟨hm.congr fun vpn _ => by rw [placed_nil], fun _ _ h => absurd h nofun⟩
  exact h.grown hp hg (fun i hi => absurd hi (Nat.not_lt_zero i)) rfl h.layout.size

theorem wp_uvmalloc (hp : Pool s out) (hkend : KERNBASE ≤ s.kend)
    {xperm : Nat} (hx : xperm < 1024) (hle : sz ≤ newsz) :
    wp (uvmalloc root sz newsz xperm) (fun r s'' =>
      (r = 0 ∧ Draft s s'' root sz tf tramp used ∧ ∃ new, Moves s' s'' root new 0 0 (pte s' root)) ∨
      (r = newsz ∧ Draft s s'' root newsz tf tramp used ∧ ∃ new ws, npages newsz = npages sz + ws.length ∧
        Grown s' s'' root (npages sz) (fun _ _ => 0) (fun _ => PTE_R ||| PTE_U ||| xperm) new ws)) E s' := by
  have hroom := h.room hp hkend
  have hperm : PTE_R ||| PTE_U ||| xperm < 1024 := Nat.or_lt_two_pow (n := 10) (by decide) hx
  have hread : (PTE_R ||| PTE_U ||| xperm) &&& (PTE_R ||| PTE_W ||| PTE_X) ≠ 0 := or_and_ne_zero (by decide) _
  refine (Vm.wp_uvmalloc h.layout.table (h.pool hp) hperm hle (hroom.trans (by decide)) fun vpn h1 h2 => ?_).mono ?_
  · have hlt : vpn < 67108862 := by omega
    exact h.layout.other vpn (by omega) h1 hlt.ne (hlt.trans (by decide : 67108862 < 67108863)).ne
  · intro r s'' hr
    cases hr with
    | failed hm => exact .inl ⟨rfl, h.moves hp hm, _, hm⟩
    | done hg henough hneeded =>
      have hlen := hg.length_le
      have hcount := npages_of_grown hle (by omega) henough hneeded
      have hsz : newsz ≤ TRAPFRAME := by
        have henough : newsz ≤ (npages sz + _) * 4096 := henough
        show newsz ≤ 274877898752
        omega
      exact .inr ⟨rfl, h.grown hp hg (fun _ _ => ⟨hperm, hread⟩) hcount hsz, _, _, hcount, hg⟩

theorem shrunk {s'' : Mem} (hle : npages newsz ≤ npages sz) (hsz : newsz ≤ sz)
    (he : Edits s' s'' root 0 (behind (pte s' root) (npages newsz) (npages sz - npages newsz))
      (unmapped (pte s' root) (npages newsz) (npages sz - npages newsz))) :
    Draft s s'' root newsz tf tramp used := by
  have hmax := npages_le h.layout.size
  have hold : ∀ vpn < npages newsz, pte s'' root vpn = pte s' root vpn := by
    intro vpn hvpn
    rw [he.pte vpn (hvpn.trans_le (hle.trans (hmax.trans (by decide)))), unmapped, if_neg (by omega)]
  have hout : ∀ vpn < 2 ^ 27, npages sz ≤ vpn → pte s'' root vpn = pte s' root vpn := by
    intro vpn hvpn hge
    rw [he.pte vpn hvpn, unmapped, if_neg (by omega)]
  have howned : owned s' root sz = behind (pte s' root) (npages newsz) (npages sz - npages newsz) +
      owned s'' root newsz := by
    have hsplit := behind_add (pte s' root) 0 (npages newsz) (npages sz - npages newsz)
    rw [Nat.add_sub_cancel' hle] at hsplit
    have hbehind : behind (pte s'' root) 0 (npages newsz) = behind (pte s' root) 0 (npages newsz) :=
      behind_congr fun vpn _ hvpn => hold vpn (by omega)
    rw [owned, owned, hsplit, hbehind, he.tables]
    ac_rfl
  refine ⟨⟨?_, fun q hq => ?_, he.kend.trans h.took.kend⟩, ⟨he.table h.layout.table, ?_, fun vpn hvpn => ?_, ?_, ?_, ?_⟩⟩
  · have hfree := he.free
    rw [zero_add] at hfree
    rw [h.took.free, howned, ← hfree]
    ac_rfl
  · have hno : q ∉ owned s' root sz := fun hm => hq (h.mem_owned hm)
    rw [he.frame q (fun hm => hno (Multiset.mem_add.mpr (.inl hm))) (Multiset.notMem_zero q)
      (fun hm => hno (howned ▸ Multiset.mem_add.mpr (.inl hm))), h.took.frame q hq]
  · exact hsz.trans h.layout.size
  · rw [hold vpn hvpn]
    exact h.layout.user vpn (hvpn.trans_le hle)
  · rw [hout _ (by decide) hmax, h.layout.trapframe]
  · rw [hout _ (by decide) (hmax.trans (by decide)), h.layout.trampoline]
  · intro vpn hvpn hge h1 h2
    by_cases hlt : vpn < npages sz
    · rw [he.pte vpn hvpn, unmapped, if_pos ⟨hge, by omega⟩]
    · rw [hout vpn hvpn (not_lt.mp hlt)]
      exact h.layout.other vpn hvpn (not_lt.mp hlt) h1 h2

/-- `uvmdealloc` to a smaller size. -/
theorem wp_uvmdealloc (hp : Pool s out) (hle : newsz ≤ sz) :
    wp (uvmdealloc root sz newsz) (fun r s'' => r = newsz ∧ Draft s s'' root newsz tf tramp used) E s' := by
  have hmax : sz ≤ MAXVA := h.layout.size.trans (by decide)
  have hpages : npages newsz ≤ npages sz := by
    rw [npages_eq hmax, npages_eq (hle.trans hmax)]
    omega
  have hn : (owned s' root sz).Nodup := (Multiset.nodup_add.mp (h.took.nodup hp)).1
  have hk : ∀ q ∈ owned s' root sz, Kfreeable s' q := fun q hq =>
    h.took.kfreeable hp (Multiset.mem_add.mpr (.inl hq))
  exact (Vm.wp_uvmdealloc h.layout.table hmax hle fun vpn _ hvpn => h.layout.unmappable hn hk hvpn).mono
    fun r s'' ⟨hr, he⟩ => ⟨hr, h.shrunk hpages hle he⟩

end Draft

end Xv6.Kern

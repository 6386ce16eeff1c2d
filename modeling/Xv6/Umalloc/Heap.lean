import Xv6.Umalloc.Free

/-!
# The invariant of the heap

The free blocks and the allocated blocks are disjoint and together are what `sbrk` has returned.
-/

namespace Xv6.Umalloc

open DList Extents

variable {h : Heap} {base bp p a b n : Nat} {l : List Nat} {alloc : List (Nat × Nat)}

def InMem (mem : List (Nat × Nat)) (x : Nat) : Prop := ∃ c ∈ mem, c.1 ≤ x ∧ x < c.1 + HEADER * c.2

/-- No interval of the memory is too long for the field `size`. -/
def Short (mem : List (Nat × Nat)) : Prop :=
  ∀ a s, (∀ x, a ≤ x → x < a + HEADER * s → InMem mem x) → s < 2 ^ 32

/-- The allocated blocks: the addresses of their headers, and how many bytes were asked for. -/
structure HeapInv (base : Nat) (h : Heap) (alloc : List (Nat × Nat)) (l : List Nat) : Prop where
  list : FreeList base h l
  freep : h.freep ∈ base :: l
  usable : ∀ b ∈ alloc, b.2 + HEADER ≤ h.len b.1
  disj : alloc.Pairwise fun b c => ∀ x, In h.len b.1 x → ¬ In h.len c.1 x
  clear : ∀ b ∈ alloc, ∀ x, In h.len b.1 x → ¬ Cover h.len l x
  cover : ∀ x, InMem h.mem x ↔ Cover h.len l x ∨ Cover h.len (alloc.map Prod.fst) x
  above : ∀ c ∈ h.mem, base + HEADER ≤ c.1

namespace HeapInv

variable (hi : HeapInv base h alloc l)

include hi

theorem alloc_pos {b : Nat × Nat} (hb : b ∈ alloc) : 0 < h.len b.1 := by
  have := hi.usable b hb
  unfold HEADER at this
  omega

theorem in_self {b : Nat × Nat} (hb : b ∈ alloc) : In h.len b.1 b.1 :=
  ⟨Nat.le_refl _, Nat.lt_add_of_pos_right (hi.alloc_pos hb)⟩

theorem inMem_of_alloc {b : Nat × Nat} (hb : b ∈ alloc) {x : Nat}
    (hx : In h.len b.1 x) : InMem h.mem x :=
  (hi.cover x).mpr (.inr ⟨b.1, List.mem_map_of_mem hb, hx⟩)

theorem base_lt {b : Nat × Nat} (hb : b ∈ alloc) : base + HEADER ≤ b.1 := by
  obtain ⟨c, hc, hle, -⟩ := hi.inMem_of_alloc hb (hi.in_self hb)
  exact Nat.le_trans (hi.above c hc) hle

theorem not_mem {b : Nat × Nat} (hb : b ∈ alloc) : b.1 ∉ base :: l := by
  intro hmem
  rcases List.mem_cons.mp hmem with heq | hmem
  · have := hi.base_lt hb
    unfold HEADER at this
    omega
  · exact hi.clear b hb b.1 (hi.in_self hb) ⟨b.1, hmem, Nat.le_refl _, Nat.lt_add_of_pos_right (hi.list.pos _ hmem)⟩

theorem alloc_inj {b c : Nat × Nat} (hb : b ∈ alloc) (hc : c ∈ alloc)
    (hbc : b ≠ c) : ∀ x, In h.len b.1 x → ¬ In h.len c.1 x := by
  have hsymm : Std.Symm fun b c : Nat × Nat => ∀ x, In h.len b.1 x → ¬ In h.len c.1 x :=
    ⟨fun b c hbc x h1 h2 => hbc x h2 h1⟩
  exact List.Pairwise.forall hi.disj hb hc hbc

theorem congr {h' : Heap} (hhdr : ∀ a, a ∈ base :: l ∨ a ∈ alloc.map Prod.fst → h'.hdr a = h.hdr a)
    (hfreep : h'.freep = h.freep) (hmem : h'.mem = h.mem) : HeapInv base h' alloc l := by
  have hlen : ∀ a, a ∈ base :: l ∨ a ∈ alloc.map Prod.fst → h'.len a = h.len a := fun a ha =>
    congrArg (fun x => HEADER * x.size) (hhdr a ha)
  have hlenb : ∀ b ∈ alloc, h'.len b.1 = h.len b.1 := fun b hb => hlen b.1 (.inr (List.mem_map_of_mem hb))
  have hlenl : ∀ a ∈ l, h'.len a = h.len a := fun a ha => hlen a (.inl (List.mem_cons_of_mem _ ha))
  refine ⟨⟨?_, ?_, fun a ha => ?_, ?_⟩, hfreep ▸ hi.freep, fun b hb => ?_, ?_, fun b hb x => ?_, fun x => ?_,
    hmem ▸ hi.above⟩
  · exact hi.list.path.congr fun a ha => congrArg Header.ptr (hhdr a (.inl ha))
  · exact apart_congr (fun a ha => hlen a (.inl ha)) hi.list.apart
  · rw [hlenl a ha]
    exact hi.list.pos a ha
  · rw [hlen base (.inl List.mem_cons_self)]
    exact hi.list.base_len
  · rw [hlenb b hb]
    exact hi.usable b hb
  · refine List.Pairwise.imp_of_mem (fun {b c} hb hc hd x => ?_) hi.disj
    rw [in_congr (hlenb b hb), in_congr (hlenb c hc)]
    exact hd x
  · rw [in_congr (hlenb b hb), cover_congr hlenl]
    exact hi.clear b hb x
  · rw [hmem, hi.cover x, cover_congr hlenl, cover_congr fun a ha => hlen a (.inr ha)]

theorem free (hshort : Short h.mem) {b : Nat × Nat} (hb : b ∈ alloc) :
    ∃ F h' l', (∀ fuel ≥ F, h.free fuel (b.1 + HEADER) = .ok h') ∧
      HeapInv base h' (alloc.filter fun c => c.1 ≠ b.1) l' ∧ h'.mem = h.mem ∧
      ∀ x, In h.len b.1 x → Cover h'.len l' x := by
  have hbase : base < b.1 := by
    have := hi.base_lt hb
    unfold HEADER at this
    omega
  have hclear : ∀ a ∈ l, a + h.len a ≤ b.1 ∨ b.1 + h.len b.1 ≤ a := fun a ha =>
    (le_or_le (hi.alloc_pos hb) (hi.list.pos a ha) fun x hx hxa => hi.clear b hb x hx ⟨a, ha, hxa⟩).symm
  have hfits : Fits h.len (b.1 :: l) := fun a s hcov => hshort a s fun x h1 h2 => by
    rcases cover_cons.mp (hcov x h1 h2) with hx | hx
    · exact hi.inMem_of_alloc hb hx
    · exact (hi.cover x).mpr (.inl hx)
  obtain ⟨F, h', l', hfree, hl', hfreep', hcover', hsub, hframe, hmem'⟩ :=
    free_spec hi.list hi.freep hbase (hi.alloc_pos hb) hclear hfits
  have hkeep : ∀ c ∈ alloc.filter fun c => c.1 ≠ b.1, c ∈ alloc ∧ c.1 ≠ b.1 := fun c hc => by
    simpa using List.mem_filter.mp hc
  have hlen : ∀ c ∈ alloc.filter fun c => c.1 ≠ b.1, h'.len c.1 = h.len c.1 := fun c hc =>
    congrArg (fun x => HEADER * x.size) (hframe c.1 (hkeep c hc).2 (hi.not_mem (hkeep c hc).1))
  refine ⟨F, h', l', hfree, ⟨hl', hfreep', fun c hc => ?_, ?_, fun c hc x hx => ?_, fun x => ?_, hmem' ▸ hi.above⟩,
    hmem', fun x hx => (hcover' x).mpr (.inl hx)⟩
  · rw [hlen c hc]
    exact hi.usable c (hkeep c hc).1
  · refine List.Pairwise.imp_of_mem (fun {c d} hc hd hcd x => ?_) (hi.disj.filter _)
    rw [in_congr (hlen c hc), in_congr (hlen d hd)]
    exact hcd x
  · rw [in_congr (hlen c hc)] at hx
    rw [hcover']
    rintro (hxb | hxl)
    · exact hi.alloc_inj (hkeep c hc).1 hb (fun heq => (hkeep c hc).2 (congrArg Prod.fst heq)) x hx hxb
    · exact hi.clear c (hkeep c hc).1 x hx hxl
  · have hsplit : Cover h.len (alloc.map Prod.fst) x ↔
        In h.len b.1 x ∨ Cover h'.len ((alloc.filter fun c => c.1 ≠ b.1).map Prod.fst) x := by
      constructor
      · rintro ⟨a, ha, hx⟩
        obtain ⟨c, hc, rfl⟩ := List.mem_map.mp ha
        by_cases hcb : c.1 = b.1
        · exact .inl (hcb ▸ hx)
        · have hc' : c ∈ alloc.filter fun c => c.1 ≠ b.1 := List.mem_filter.mpr ⟨hc, by simpa using hcb⟩
          exact .inr ⟨c.1, List.mem_map_of_mem hc', (in_congr (hlen c hc')).mpr hx⟩
      · rintro (hx | ⟨a, ha, hx⟩)
        · exact ⟨b.1, List.mem_map_of_mem hb, hx⟩
        · obtain ⟨c, hc, rfl⟩ := List.mem_map.mp ha
          exact ⟨c.1, List.mem_map_of_mem (hkeep c hc).1, (in_congr (hlen c hc)).mp hx⟩
    rw [hmem', hi.cover x, hcover', hsplit, or_left_comm, or_assoc]

end HeapInv

end Xv6.Umalloc

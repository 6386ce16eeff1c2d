import Xv6.Lib.DList
import Xv6.Lib.Extents
import Xv6.Umalloc.Model

/-!
# `free` inserts a block into the free list

The free list is a ring of `base` and of the free blocks in the order of their addresses, with a gap
behind each block. `free` finds the place of the block in this order, and joins it with its neighbours
where they touch, so that gaps remain.
-/

namespace Xv6.Umalloc

open Function DList Extents

variable {h : Heap} {base bp p a b : Nat} {l : List Nat}

namespace Heap

def next (h : Heap) (a : Nat) : Nat := (h.hdr a).ptr

def len (h : Heap) (a : Nat) : Nat := HEADER * (h.hdr a).size

theorem stop_eq (h : Heap) (a : Nat) : h.stop a = a + h.len a := rfl

theorem hdr_setPtr_of_ne (hb : b ≠ a) : (h.setPtr a p).hdr b = h.hdr b := update_of_ne hb ..

theorem hdr_setSize_of_ne {n : Nat} (hb : b ≠ a) : (h.setSize a n).hdr b = h.hdr b :=
  update_of_ne hb ..

theorem hdr_setPtr_self : (h.setPtr a p).hdr a = ⟨p, (h.hdr a).size⟩ := update_self ..

theorem hdr_setSize_self {n : Nat} : (h.setSize a n).hdr a = ⟨(h.hdr a).ptr, n % 2 ^ 32⟩ :=
  update_self ..

@[simp] theorem next_setPtr : (h.setPtr a p).next = update h.next a p := by
  funext b
  by_cases hb : b = a
  · subst hb
    rw [update_self, next, hdr_setPtr_self]
  · rw [update_of_ne hb, next, hdr_setPtr_of_ne hb]
    rfl

@[simp] theorem len_setPtr : (h.setPtr a p).len = h.len := by
  funext b
  by_cases hb : b = a
  · subst hb
    rw [len, hdr_setPtr_self]
    rfl
  · rw [len, hdr_setPtr_of_ne hb]
    rfl

@[simp] theorem next_setSize {n : Nat} : (h.setSize a n).next = h.next := by
  funext b
  by_cases hb : b = a
  · subst hb
    rw [next, hdr_setSize_self]
    rfl
  · rw [next, hdr_setSize_of_ne hb]
    rfl

@[simp] theorem len_setSize {n : Nat} : (h.setSize a n).len = update h.len a (HEADER * (n % 2 ^ 32)) := by
  funext b
  by_cases hb : b = a
  · subst hb
    rw [update_self, len, hdr_setSize_self]
  · rw [update_of_ne hb, len, hdr_setSize_of_ne hb]
    rfl

end Heap

/-- The free list consists of `base` and of the blocks of `l`. -/
structure FreeList (base : Nat) (h : Heap) (l : List Nat) : Prop where
  path : Path h.next base l base
  apart : Apart h.len (base :: l)
  pos : ∀ a ∈ l, 0 < h.len a
  base_len : h.len base = 0

theorem seek_of_path {x y : Nat} {r : List Nat} (hp : Path h.next x r y) (hz : ∃ z ∈ x :: r, h.between bp z = true)
    {fuel : Nat} (hfuel : r.length < fuel) :
    ∃ z ∈ x :: r, h.between bp z = true ∧ h.seek bp fuel x = .ok z := by
  induction r generalizing x fuel with
  | nil =>
    obtain ⟨fuel, rfl⟩ := Nat.exists_eq_succ_of_ne_zero (Nat.ne_of_gt hfuel)
    obtain ⟨z, hz, hb⟩ := hz
    obtain rfl := List.mem_singleton.mp hz
    exact ⟨z, hz, hb, if_pos hb⟩
  | cons w r ih =>
    obtain ⟨fuel, rfl⟩ := Nat.exists_eq_succ_of_ne_zero (Nat.ne_zero_of_lt hfuel)
    by_cases hx : h.between bp x = true
    · exact ⟨x, List.mem_cons_self, hx, if_pos hx⟩
    · obtain ⟨z, hz, hb⟩ := hz
      have hz' : z ∈ w :: r := (List.mem_cons.mp hz).resolve_left fun hc => hx (hc ▸ hb)
      obtain ⟨z', hmem, hb', hseek⟩ := ih hp.2 ⟨z, hz', hb⟩ (Nat.lt_of_succ_lt_succ hfuel)
      refine ⟨z', List.mem_cons_of_mem _ hmem, hb', (if_neg hx).trans ?_⟩
      rw [← hseek, ← hp.1]
      rfl

namespace FreeList

variable (hl : FreeList base h l)
include hl

theorem sorted : (base :: l).Pairwise (· < ·) := hl.apart.sorted

theorem above (ha : a ∈ l) : base < a := (List.pairwise_cons.mp hl.sorted).1 a ha

theorem split {u v : List Nat} (heq : base :: l = u ++ p :: v) :
    (∀ a ∈ u, a < p) ∧ (∀ a ∈ v, p < a) ∧ base ≤ p := by
  have hs := hl.sorted
  rw [heq, List.pairwise_append, List.pairwise_cons] at hs
  refine ⟨fun a ha => hs.2.2 a ha p List.mem_cons_self, hs.2.1.1, ?_⟩
  have hmem : p ∈ base :: l := by
    rw [heq]
    simp
  rcases List.mem_cons.mp hmem with rfl | hmem
  · exact Nat.le_refl _
  · exact Nat.le_of_lt (hl.above hmem)

/-- The loop of `free` stops at the last block in front of `bp`, and only there. -/
theorem between_iff (hbp : base < bp) {u v : List Nat}
    (heq : base :: l = u ++ p :: v) : h.between bp p = true ↔ p < bp ∧ ∀ a ∈ v, bp < a := by
  have hpath := (hl.path.splice heq).1
  obtain ⟨-, hv, hbase⟩ := hl.split heq
  unfold Heap.between
  simp only [Bool.or_eq_true, Bool.and_eq_true, decide_eq_true_eq, ge_iff_le]
  cases v with
  | nil =>
    rw [show (h.hdr p).ptr = base from hpath]
    simp only [List.not_mem_nil, false_imp_iff, implies_true, and_true]
    omega
  | cons n v =>
    have hn := hv n List.mem_cons_self
    have hsorted : ∀ a ∈ v, n < a := by
      have hs := hl.sorted
      rw [heq, List.pairwise_append, List.pairwise_cons, List.pairwise_cons] at hs
      exact hs.2.1.2.1
    rw [show (h.hdr p).ptr = n from hpath.1, List.forall_mem_cons]
    constructor
    · intro hc
      refine ⟨by omega, by omega, fun a ha => Nat.lt_trans (by omega) (hsorted a ha)⟩
    · rintro ⟨h1, h2, -⟩
      omega

theorem place_unique {q : Nat} {u v u' v' : List Nat} (heq : base :: l = u ++ p :: v)
    (heq' : base :: l = u' ++ q :: v') (hp : p < bp) (hv : ∀ a ∈ v, bp < a) (hq : q < bp)
    (hv' : ∀ a ∈ v', bp < a) : p = q := by
  have hpmem : p ∈ u' ++ q :: v' := by
    rw [← heq', heq]
    simp
  have hqmem : q ∈ u ++ p :: v := by
    rw [← heq, heq']
    simp
  have hu := (hl.split heq).1
  have hu' := (hl.split heq').1
  have hpq : p ≤ q := by
    rcases List.mem_append.mp hpmem with h1 | h1
    · exact Nat.le_of_lt (hu' p h1)
    · rcases List.mem_cons.mp h1 with h1 | h1
      · exact Nat.le_of_eq h1
      · exact absurd (hv' p h1) (by omega)
  have hqp : q ≤ p := by
    rcases List.mem_append.mp hqmem with h1 | h1
    · exact Nat.le_of_lt (hu q h1)
    · rcases List.mem_cons.mp h1 with h1 | h1
      · exact Nat.le_of_eq h1
      · exact absurd (hv q h1) (by omega)
  omega

/-- The loop of `free` ends, at the place of `bp`. -/
theorem seek_eq (hbp : base < bp) (hnot : bp ∉ l) (hfreep : h.freep ∈ base :: l) :
    ∃ F, ∃ u p v, base :: l = u ++ p :: v ∧ p < bp ∧ (∀ a ∈ v, bp < a) ∧
      ∀ fuel ≥ F, h.seek bp fuel h.freep = .ok p := by
  obtain ⟨r, hr, hperm⟩ := hl.path.rotate hfreep
  obtain ⟨u, p, v, heq, hp, hv⟩ := Extents.exists_place hl.sorted hbp hnot
  have hpr : p ∈ h.freep :: r := by
    rw [hperm.mem_iff, heq]
    simp
  have hbetween := (hl.between_iff hbp heq).mpr ⟨hp, hv⟩
  refine ⟨r.length + 1, u, p, v, heq, hp, hv, fun fuel hfuel => ?_⟩
  obtain ⟨z, hz, hb, hseek⟩ := seek_of_path hr ⟨p, hpr, hbetween⟩ hfuel
  have hz' := hperm.mem_iff.mp hz
  obtain ⟨u', v', heq'⟩ := List.append_of_mem hz'
  obtain ⟨hz1, hz2⟩ := (hl.between_iff hbp heq').mp hb
  rw [hseek, hl.place_unique heq' heq hz1 hz2 hp hv]

end FreeList

/-- No interval that the blocks of `l` cover is too long for the field `size`. -/
def Fits (len : Nat → Nat) (l : List Nat) : Prop :=
  ∀ a s, (∀ x, a ≤ x → x < a + HEADER * s → Cover len l x) → s < 2 ^ 32

/-- The path from `b` through the nodes of `v` to `base`; `b` is the first of `v`, or `base`. -/
def Leads (f : Nat → Nat) (b : Nat) (v : List Nat) (base : Nat) : Prop :=
  (v = [] ∧ b = base) ∨ ∃ v', v = b :: v' ∧ Path f b v' base

/-- `a` has come in front of the blocks of `v`; it may have taken the first of them in. -/
structure Attached (base a : Nat) (v v' : List Nat) (h h' : Heap) : Prop where
  sub : ∀ c ∈ v', c ∈ v
  path : Path h'.next a v' base
  apart : Apart h'.len (a :: v')
  cover : ∀ x, Cover h'.len (a :: v') x ↔ Cover h.len (a :: v) x
  grows : h.len a ≤ h'.len a
  frame : ∀ c, c ≠ a → h'.hdr c = h.hdr c
  mem : h'.mem = h.mem

theorem attach_spec {v : List Nat} (hlead : Leads h.next b v base) (hapart : Apart h.len v)
    (hle : ∀ c ∈ v, a + h.len a ≤ c) (ha : a ∉ v)
    (hbase : v = [] → a + h.len a ≠ base) (hfits : Fits h.len (a :: v)) :
    ∃ v', Attached base a v v' h (h.attach a b) := by
  unfold Heap.attach
  split_ifs with hstop
  · rw [Heap.stop_eq] at hstop
    obtain ⟨hv, hb⟩ | ⟨v, rfl, hpath⟩ := hlead
    · exact absurd (hstop.trans hb) (hbase hv)
    -- the sum does not overflow, since the two blocks cover an interval
    have hsum : (h.hdr a).size + (h.hdr b).size < 2 ^ 32 := by
      refine hfits a _ fun x h1 h2 => ?_
      have h2' : x < a + (h.len a + h.len b) := by
        rw [Nat.mul_add] at h2
        exact h2
      rw [cover_cons, cover_cons]
      unfold In
      omega
    have hlen : ((h.setSize a ((h.hdr a).size + (h.hdr b).size)).setPtr a (h.hdr b).ptr).len =
        update h.len a (h.len a + h.len b) := by
      rw [Heap.len_setPtr, Heap.len_setSize, Nat.mod_eq_of_lt hsum, Nat.mul_add]
      rfl
    have hav : ∀ c ∈ v, update h.len a (h.len a + h.len b) c = h.len c := fun c hc =>
      update_of_ne (fun hca : c = a => ha (by rw [← hca]; exact List.mem_cons_of_mem _ hc)) ..
    refine ⟨v, fun c hc => List.mem_cons_of_mem _ hc, ?_, ?_, fun x => ?_, ?_, fun c hc => ?_, rfl⟩
    · rw [Heap.next_setPtr, Heap.next_setSize]
      exact hpath.bypass fun hc => ha (List.mem_cons_of_mem _ hc)
    · rw [hlen]
      refine List.pairwise_cons.mpr ⟨fun c hc => ?_, apart_congr hav hapart.tail⟩
      have := hapart.lt hc
      rw [update_self]
      omega
    · rw [hlen, cover_cons, cover_cons, cover_cons, cover_congr hav,
        in_join hstop (update_self a (h.len a + h.len b) h.len), or_assoc]
    · rw [hlen, update_self]
      exact Nat.le_add_right _ _
    · rw [Heap.hdr_setPtr_of_ne hc, Heap.hdr_setSize_of_ne hc]
  · rw [Heap.stop_eq] at hstop
    refine ⟨v, fun c hc => hc, ?_, ?_, fun x => ?_, ?_, fun c hc => Heap.hdr_setPtr_of_ne hc, rfl⟩
    · rw [Heap.next_setPtr]
      obtain ⟨rfl, rfl⟩ | ⟨v, rfl, hpath⟩ := hlead
      · exact update_self ..
      · exact ⟨update_self .., hpath.update ha⟩
    · rw [Heap.len_setPtr]
      refine List.pairwise_cons.mpr ⟨fun c hc => ?_, hapart⟩
      obtain ⟨rfl, rfl⟩ | ⟨v, rfl, hpath⟩ := hlead
      · cases hc
      · have := hle b List.mem_cons_self
        rcases List.mem_cons.mp hc with rfl | hc
        · omega
        · have := hapart.lt hc
          omega
    · rw [Heap.len_setPtr]
    · exact Nat.le_of_eq (congrFun Heap.len_setPtr a).symm

/-- `free` of a block that is not on the list: the blocks of the list and `bp` cover what they covered
before. -/
theorem free_spec (hl : FreeList base h l) (hfreep : h.freep ∈ base :: l) (hbp : base < bp) (hpos : 0 < h.len bp)
    (hclear : ∀ a ∈ l, a + h.len a ≤ bp ∨ bp + h.len bp ≤ a) (hfits : Fits h.len (bp :: l)) :
    ∃ F h' l', (∀ fuel ≥ F, h.free fuel (bp + HEADER) = .ok h') ∧ FreeList base h' l' ∧ h'.freep ∈ base :: l' ∧
      (∀ x, Cover h'.len l' x ↔ In h.len bp x ∨ Cover h.len l x) ∧
      (∀ a ∈ l', a ∈ bp :: l) ∧ (∀ c, c ≠ bp → c ∉ base :: l → h'.hdr c = h.hdr c) ∧ h'.mem = h.mem := by
  have hnot : bp ∉ l := fun hc => by
    have := hclear bp hc
    omega
  obtain ⟨F, u, p, v, heq, hp, hv, hseek⟩ := hl.seek_eq hbp hnot hfreep
  obtain ⟨hu, hpv, hbasep⟩ := hl.split heq
  obtain ⟨hpath, hsplice⟩ := hl.path.splice heq
  have happ := hl.apart
  rw [heq, apart_append] at happ
  have hvl : ∀ c ∈ v, c ∈ l := fun c hc => by
    have hmem : c ∈ base :: l := by
      rw [heq]
      simp [hc]
    have := hpv c hc
    exact (List.mem_cons.mp hmem).resolve_left (by omega)
  have hpl : p = base ∨ p ∈ l := by
    rw [← List.mem_cons, heq]
    simp
  -- `bp` and the blocks behind it
  have hlead : Leads h.next (h.hdr p).ptr v base := by
    cases v with
    | nil => exact .inl ⟨rfl, hpath⟩
    | cons n v =>
      refine .inr ⟨v, ?_, ?_⟩ <;> rw [show (h.hdr p).ptr = n from hpath.1]
      exact hpath.2
  have hbpv : ∀ c ∈ v, bp + h.len bp ≤ c := fun c hc => by
    have := hclear c (hvl c hc)
    have := hv c hc
    omega
  have hfits₁ : Fits h.len (bp :: v) := fun a s hcov => hfits a s fun x h1 h2 => by
    refine (cover_cons.mp (hcov x h1 h2)).elim (fun hin => cover_cons.mpr (.inl hin)) fun ⟨c, hc, hin⟩ => ?_
    exact cover_cons.mpr (.inr ⟨c, hvl c hc, hin⟩)
  obtain ⟨v₁, h₁⟩ := attach_spec hlead happ.2.1.tail hbpv (fun hc => hnot (hvl bp hc)) (fun _ => by omega) hfits₁
  -- `p` and what has become of `bp`
  have hple : p + h.len p ≤ bp := by
    rcases hpl with rfl | hmem
    · rw [hl.base_len]
      omega
    · have := hclear p hmem
      omega
  have hlenp : (h.attach bp (h.hdr p).ptr).len p = h.len p :=
    congrArg (fun x => HEADER * x.size) (h₁.frame p (by omega))
  have hfits₂ : Fits (h.attach bp (h.hdr p).ptr).len (p :: bp :: v₁) := fun a s hcov => hfits a s fun x h1 h2 => by
    have hx := hcov x h1 h2
    rw [cover_cons, h₁.cover, in_congr hlenp, cover_cons] at hx
    rw [cover_cons]
    rcases hx with hin | hin | ⟨c, hc, hin⟩
    · rcases hpl with rfl | hmem
      · unfold In at hin
        rw [hl.base_len] at hin
        omega
      · exact .inr ⟨p, hmem, hin⟩
    · exact .inl hin
    · exact .inr ⟨c, hvl c hc, hin⟩
  have hle₂ : ∀ c ∈ bp :: v₁, p + (h.attach bp (h.hdr p).ptr).len p ≤ c := fun c hc => by
    rw [hlenp]
    rcases List.mem_cons.mp hc with rfl | hc
    · exact hple
    · have := hv c (h₁.sub c hc)
      omega
  have hnot₂ : p ∉ bp :: v₁ := fun hc => by
    rcases List.mem_cons.mp hc with rfl | hc
    · omega
    · have := hpv p (h₁.sub p hc)
      omega
  obtain ⟨v₂, h₂⟩ := attach_spec (.inr ⟨v₁, rfl, h₁.path⟩) h₁.apart hle₂ hnot₂ nofun hfits₂
  have hframe : ∀ c, c ≠ p → c ≠ bp → ((h.attach bp (h.hdr p).ptr).attach p bp).hdr c = h.hdr c := fun c hcp hcb =>
    (h₂.frame c hcp).trans (h₁.frame c hcb)
  obtain ⟨l', hl'⟩ : ∃ l', base :: l' = u ++ p :: v₂ := by
    cases u with
    | nil => exact ⟨v₂, by rw [(List.cons.inj heq).1]; rfl⟩
    | cons b u => exact ⟨u ++ p :: v₂, by rw [(List.cons.inj heq).1]; rfl⟩
  have hframe_u : ∀ c ∈ u, ((h.attach bp (h.hdr p).ptr).attach p bp).hdr c = h.hdr c := fun c hc => by
    have := hu c hc
    exact hframe c (by omega) (by omega)
  generalize hh : ({ (h.attach bp (h.hdr p).ptr).attach p bp with freep := p } : Heap) = h'
  have hlen' : h'.len = ((h.attach bp (h.hdr p).ptr).attach p bp).len := by rw [← hh]; rfl
  have hlen_u : ∀ c ∈ u, h'.len c = h.len c := fun c hc => by
    rw [hlen']
    exact congrArg (fun x => HEADER * x.size) (hframe_u c hc)
  have hapart' : Apart h'.len (base :: l') := by
    rw [hl', apart_append]
    refine ⟨apart_congr hlen_u happ.1, hlen' ▸ h₂.apart, fun c hc d hd => ?_⟩
    have hcp := happ.2.2 c hc p List.mem_cons_self
    rw [hlen_u c hc]
    rcases List.mem_cons.mp hd with rfl | hd
    · exact hcp
    · have := h₂.apart.lt hd
      omega
  have hcover : ∀ x, Cover h'.len (base :: l') x ↔ In h.len bp x ∨ Cover h.len (base :: l) x := fun x => by
    rw [hl', heq, cover_append, cover_append, cover_congr hlen_u, hlen', h₂.cover, cover_cons, h₁.cover, cover_cons,
      cover_cons, in_congr hlenp]
    exact (or_congr_right or_left_comm).trans or_left_comm
  -- `base` is not joined with a block, since the list does not cover its address
  have hbase' : h'.len base = 0 := by
    by_contra h0
    have hx := (hcover base).mp (cover_cons.mpr (.inl ⟨Nat.le_refl _, by omega⟩))
    rcases hx with hin | ⟨c, hc, hin⟩
    · unfold In at hin
      omega
    · rcases List.mem_cons.mp hc with rfl | hc
      · unfold In at hin
        rw [hl.base_len] at hin
        omega
      · have := hl.above hc
        unfold In at hin
        omega
  have hmem : ∀ a ∈ l', a ∈ bp :: l ∧ 0 < h'.len a := fun a ha => by
    have hab : base < a := (List.pairwise_cons.mp hapart'.sorted).1 a ha
    have ha' : a ∈ u ++ p :: v₂ := by
      rw [← hl']
      exact List.mem_cons_of_mem _ ha
    have hold : ∀ c ∈ base :: l, c = a → a ∈ l := fun c hc hca =>
      hca ▸ (List.mem_cons.mp hc).resolve_left (by omega)
    rcases List.mem_append.mp ha' with hau | hap
    · have hal := hold a (heq ▸ List.mem_append_left _ hau) rfl
      exact ⟨List.mem_cons_of_mem _ hal, by rw [hlen_u a hau]; exact hl.pos a hal⟩
    rcases List.mem_cons.mp hap with rfl | hav
    · have hal := hpl.resolve_left (by omega)
      refine ⟨List.mem_cons_of_mem _ hal, ?_⟩
      rw [hlen']
      exact Nat.lt_of_lt_of_le (hl.pos a hal) (hlenp ▸ h₂.grows)
    have hap' : a ≠ p := fun hc => hnot₂ (hc ▸ h₂.sub a hav)
    have hlena : h'.len a = (h.attach bp (h.hdr p).ptr).len a := by
      rw [hlen']
      exact congrArg (fun x => HEADER * x.size) (h₂.frame a hap')
    rw [hlena]
    rcases List.mem_cons.mp (h₂.sub a hav) with rfl | hav
    · exact ⟨List.mem_cons_self, Nat.lt_of_lt_of_le hpos h₁.grows⟩
    · have hal := hvl a (h₁.sub a hav)
      refine ⟨List.mem_cons_of_mem _ hal, ?_⟩
      rw [show (h.attach bp (h.hdr p).ptr).len a = h.len a from
        congrArg (fun x => HEADER * x.size) (h₁.frame a fun hc => hnot (hc ▸ hal))]
      exact hl.pos a hal
  refine ⟨F, h', l', fun fuel hfuel => ?_, ⟨?_, hapart', fun a ha => (hmem a ha).2, hbase'⟩, ?_, fun x => ?_,
    fun a ha => (hmem a ha).1, fun c hcb hcl => ?_, by rw [← hh]; exact h₂.mem.trans h₁.mem⟩
  · show (h.seek (bp + HEADER - HEADER) fuel h.freep >>= _) = _
    rw [Nat.add_sub_cancel, hseek fuel hfuel, ← hh]
    rfl
  · refine hsplice _ l' v₂ (fun c hc => ?_) hl' ?_
    · rw [← hh]
      exact congrArg Header.ptr (hframe_u c hc)
    · rw [← hh]
      exact h₂.path
  · rw [hl', ← hh]
    exact List.mem_append_right _ List.mem_cons_self
  · rw [← cover_of_empty hbase', hcover, cover_of_empty hl.base_len]
  · rw [← hh]
    refine hframe c (fun hc => hcl ?_) hcb
    rw [hc, heq]
    exact List.mem_append_right _ List.mem_cons_self

end Xv6.Umalloc

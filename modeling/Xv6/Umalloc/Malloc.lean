import Xv6.Umalloc.Heap

/-!
# `malloc` takes a block from the free list

A block that fits exactly is unlinked; a longer one loses its tail. If no block is long enough, `morecore`
asks for memory and frees it, after which there is one.
-/

namespace Xv6.Umalloc

open Function DList Extents

variable {h : Heap} {base p prevp nunits n : Nat} {l : List Nat} {alloc : List (Nat × Nat)}

namespace FreeList

theorem behind (hl : FreeList base h l) (hprev : prevp ∈ base :: l) (hnext : h.next prevp = p) (hp : p ≠ base) :
    ∃ u v, base :: l = u ++ prevp :: p :: v := by
  obtain ⟨u, v, heq⟩ := List.append_of_mem hprev
  have hpath := (hl.path.splice heq).1
  cases v with
  | nil => exact absurd (hnext.symm.trans hpath) hp
  | cons q v =>
    obtain rfl : p = q := hnext.symm.trans hpath.1
    exact ⟨u, v, heq⟩

end FreeList

namespace HeapInv

variable (hi : HeapInv base h alloc l)
include hi

/-- A block `q` is carved out of the free blocks. -/
theorem carve {h' : Heap} {l' : List Nat} {q : Nat} (hl : FreeList base h' l')
    (hfreep : h'.freep ∈ base :: l') (hmem : h'.mem = h.mem) (hlen : ∀ b ∈ alloc, h'.len b.1 = h.len b.1)
    (husable : n + HEADER ≤ h'.len q) (hcover : ∀ x, Cover h.len l x ↔ In h'.len q x ∨ Cover h'.len l' x)
    (hdisj : ∀ x, In h'.len q x → ¬ Cover h'.len l' x) : HeapInv base h' ((q, n) :: alloc) l' := by
  have hclear : ∀ b ∈ alloc, ∀ x, In h'.len b.1 x → ¬ Cover h.len l x := fun b hb x hx =>
    hi.clear b hb x ((in_congr (hlen b hb)).mp hx)
  have halloc : ∀ a ∈ alloc.map Prod.fst, h'.len a = h.len a := fun a ha => by
    obtain ⟨b, hb, rfl⟩ := List.mem_map.mp ha
    exact hlen b hb
  refine ⟨hl, hfreep, ?_, ?_, ?_, fun x => ?_, hmem ▸ hi.above⟩
  · exact List.forall_mem_cons.mpr ⟨husable, fun b hb => by rw [hlen b hb]; exact hi.usable b hb⟩
  · refine List.pairwise_cons.mpr ⟨fun b hb x hx hxb => ?_, ?_⟩
    · exact hclear b hb x hxb ((hcover x).mpr (.inl hx))
    · refine List.Pairwise.imp_of_mem (fun {b c} hb hc hbc x => ?_) hi.disj
      rw [in_congr (hlen b hb), in_congr (hlen c hc)]
      exact hbc x
  · exact List.forall_mem_cons.mpr ⟨hdisj, fun b hb x hx hxl => hclear b hb x hx ((hcover x).mpr (.inr hxl))⟩
  · rw [hmem, hi.cover x, hcover, List.map_cons, cover_cons, cover_congr halloc, or_comm (a := In _ _ _), or_assoc]

theorem fits (hshort : Short h.mem) {a : Nat} (ha : a ∈ l) :
    (h.hdr a).size < 2 ^ 32 :=
  hshort a _ fun x h1 h2 => (hi.cover x).mpr (.inl ⟨a, ha, h1, h2⟩)

theorem takeAll {u v : List Nat} (heq : base :: l = u ++ prevp :: p :: v) (hn : n + HEADER ≤ h.len p) :
    ∃ l', HeapInv base { h.setPtr prevp (h.hdr p).ptr with freep := prevp } ((p, n) :: alloc) l' := by
  generalize hh : ({ h.setPtr prevp (h.hdr p).ptr with freep := prevp } : Heap) = h'
  have hlen : h'.len = h.len := by
    rw [← hh]
    exact Heap.len_setPtr
  have hnext : h'.next = update h.next prevp (h.next p) := by
    rw [← hh]
    exact Heap.next_setPtr
  obtain ⟨l', hl'⟩ : ∃ l', base :: l' = u ++ prevp :: v := by
    cases u with
    | nil => exact ⟨v, by rw [(List.cons.inj heq).1]; rfl⟩
    | cons b u => exact ⟨u ++ prevp :: v, by rw [(List.cons.inj heq).1]; rfl⟩
  have hsub : (base :: l').Sublist (base :: l) := by
    rw [hl', heq]
    exact List.Sublist.append_left ((List.sublist_cons_self p v).cons_cons prevp) u
  have hnodup : (u ++ prevp :: p :: v).Nodup := heq ▸ hi.list.sorted.imp Nat.ne_of_lt
  have hp : p ∉ base :: l' := by
    rw [hl']
    have := List.nodup_append.mp hnodup
    intro hc
    rcases List.mem_append.mp hc with hc | hc
    · exact this.2.2 p hc p (by simp) rfl
    · rcases List.mem_cons.mp hc with hc | hc
      · exact (List.nodup_cons.mp this.2.1).1 (by simp [hc])
      · exact (List.nodup_cons.mp (List.nodup_cons.mp this.2.1).2).1 hc
  have hmem : ∀ a ∈ l', a ∈ l ∧ p ≠ a := fun a ha => by
    have hab : base < a := (List.pairwise_cons.mp (hi.list.sorted.sublist hsub)).1 a ha
    have hal := hsub.subset (List.mem_cons_of_mem _ ha)
    exact ⟨(List.mem_cons.mp hal).resolve_left (by omega), fun hc => hp (hc ▸ List.mem_cons_of_mem _ ha)⟩
  have hpl : p ∈ l := by
    have hpb : p ∈ base :: l := by
      rw [heq]
      simp
    exact (List.mem_cons.mp hpb).resolve_left fun hc => hp (hc ▸ List.mem_cons_self)
  obtain ⟨hpath, hsplice⟩ := hi.list.path.splice heq
  refine ⟨l', hi.carve ⟨?_, ?_, fun a ha => ?_, ?_⟩ ?_ ?_ (fun b _ => congrFun hlen b.1) ?_ (fun x => ?_)
    fun x hx hc => ?_⟩
  · rw [hnext]
    have hprev := List.nodup_append.mp hnodup
    refine hsplice _ l' v (fun w hw => update_of_ne (fun hc => ?_) ..) hl' (hpath.2.bypass fun hc => ?_)
    · exact hprev.2.2 w hw prevp List.mem_cons_self hc
    · exact (List.nodup_cons.mp hprev.2.1).1 (List.mem_cons_of_mem _ hc)
  · rw [hlen]
    exact List.Pairwise.sublist hsub hi.list.apart
  · rw [hlen]
    exact hi.list.pos a (hmem a ha).1
  · rw [hlen]
    exact hi.list.base_len
  · rw [hl', ← hh]
    exact List.mem_append_right _ List.mem_cons_self
  · rw [← hh]
    rfl
  · rwa [hlen]
  · rw [hlen, ← cover_of_empty hi.list.base_len, heq, ← cover_of_empty (l := l') hi.list.base_len, hl', cover_append,
      cover_append, cover_cons, cover_cons, cover_cons, or_left_comm (a := In h.len prevp x), or_left_comm]
  · rw [hlen] at hx hc
    obtain ⟨a, ha, hxa⟩ := hc
    exact hi.list.apart.tail.disjoint hpl (hmem a ha).1 (hmem a ha).2 hx hxa

theorem takeTail (hshort : Short h.mem) (hprev : prevp ∈ base :: l) (hp : p ∈ l)
    (hsize : nunits < (h.hdr p).size) (hn : n + HEADER ≤ HEADER * nunits) :
    HeapInv base
      { (h.setSize p ((h.hdr p).size - nunits)).setSize (p + HEADER * ((h.hdr p).size - nunits)) nunits with
        freep := prevp }
      ((p + HEADER * ((h.hdr p).size - nunits), n) :: alloc) l := by
  have hfits := hi.fits hshort hp
  set q := p + HEADER * ((h.hdr p).size - nunits) with hq
  generalize hh : ({ (h.setSize p ((h.hdr p).size - nunits)).setSize q nunits with freep := prevp } : Heap) = h'
  have hlenp : h.len p = HEADER * (h.hdr p).size := rfl
  have hpq : p ≠ q := by
    unfold HEADER at hq
    omega
  have hlen : h'.len = update (update h.len p (HEADER * ((h.hdr p).size - nunits))) q
      (HEADER * nunits) := by
    have h1 : ((h.hdr p).size - nunits) % 2 ^ 32 = (h.hdr p).size - nunits := Nat.mod_eq_of_lt (by omega)
    have h2 : nunits % 2 ^ 32 = nunits := Nat.mod_eq_of_lt (by omega)
    rw [← hh]
    refine Heap.len_setSize.trans ?_
    rw [Heap.len_setSize, h1, h2]
  have hnext : h'.next = h.next := by
    rw [← hh]
    exact Heap.next_setSize.trans Heap.next_setSize
  have hp' : h'.len p = HEADER * ((h.hdr p).size - nunits) := by
    rw [hlen, update_of_ne hpq, update_self]
  have hq' : h'.len q = HEADER * nunits := by rw [hlen, update_self]
  have hother : ∀ a, a ≠ p → a ≠ q → h'.len a = h.len a := fun a hap haq => by
    rw [hlen, update_of_ne haq, update_of_ne hap]
  -- the two parts of the block
  unfold HEADER at hlenp hq hp' hq' hn
  have hparts : ∀ x, In h.len p x ↔ In h'.len q x ∨ In h'.len p x := fun x => by
    unfold In
    omega
  have hinq : In h.len p q := (hparts q).mpr (.inl ⟨Nat.le_refl _, by omega⟩)
  have hql : ∀ a ∈ l, a ≠ q := by
    rintro a ha rfl
    exact hi.list.apart.tail.disjoint hp ha hpq hinq ⟨Nat.le_refl _, Nat.lt_add_of_pos_right (hi.list.pos _ ha)⟩
  have hbasep := hi.list.above hp
  have hle : ∀ a ∈ base :: l, h'.len a ≤ h.len a := fun a ha => by
    by_cases hap : a = p
    · rw [hap]
      omega
    · refine Nat.le_of_eq (hother a hap ?_)
      rcases List.mem_cons.mp ha with rfl | ha
      · omega
      · exact hql a ha
  have hcover : ∀ x, Cover h.len l x ↔ In h'.len q x ∨ Cover h'.len l x := fun x => by
    constructor
    · rintro ⟨a, ha, hx⟩
      by_cases hap : a = p
      · subst hap
        exact ((hparts x).mp hx).imp_right fun hx' => ⟨a, ha, hx'⟩
      · exact .inr ⟨a, ha, (in_congr (hother a hap (hql a ha))).mpr hx⟩
    · rintro (hx | ⟨a, ha, hx⟩)
      · exact ⟨p, hp, (hparts x).mpr (.inl hx)⟩
      · have := hle a (List.mem_cons_of_mem _ ha)
        exact ⟨a, ha, hx.1, by unfold In at hx; omega⟩
  refine hi.carve ⟨?_, apart_mono hle hi.list.apart, fun a ha => ?_, ?_⟩ (hh ▸ hprev) (by rw [← hh]; rfl)
    (fun b hb => hother b.1 (fun hc => ?_) fun hc => ?_) (by unfold HEADER; omega) hcover fun x hx hc => ?_
  · rw [hnext]
    exact hi.list.path
  · by_cases hap : a = p
    · rw [hap]
      omega
    · rw [hother a hap (hql a ha)]
      exact hi.list.pos a ha
  · rw [hother base (by omega) (by omega)]
    exact hi.list.base_len
  · exact hi.not_mem hb (hc ▸ List.mem_cons_of_mem _ hp)
  · exact hi.clear b hb q (hc ▸ hi.in_self hb) ⟨p, hp, hinq⟩
  · obtain ⟨a, ha, hxa⟩ := hc
    by_cases hap : a = p
    · subst hap
      unfold In at hx hxa
      omega
    · rw [in_congr (hother a hap (hql a ha))] at hxa
      exact hi.list.apart.tail.disjoint ha hp hap hxa ((hparts x).mpr (.inl hx))

theorem take (hshort : Short h.mem) (hprev : prevp ∈ base :: l)
    (hnext : h.next prevp = p) (hsize : nunits ≤ (h.hdr p).size) (hn : n + HEADER ≤ HEADER * nunits) :
    ∃ q l', (h.take nunits prevp p).2 = q + HEADER ∧
      HeapInv base (h.take nunits prevp p).1 ((q, n) :: alloc) l' ∧ (h.take nunits prevp p).1.mem = h.mem := by
  have hp : p ≠ base := by
    rintro rfl
    have := hi.list.base_len
    unfold Heap.len HEADER at this
    unfold HEADER at hn
    omega
  obtain ⟨u, v, heq⟩ := hi.list.behind hprev hnext hp
  have hpl : p ∈ l := by
    have hmem : p ∈ base :: l := by
      rw [heq]
      simp
    exact (List.mem_cons.mp hmem).resolve_left hp
  unfold Heap.take
  split_ifs with hfit
  · rw [← hfit] at hn
    obtain ⟨l', hl'⟩ := hi.takeAll heq hn
    exact ⟨p, l', rfl, hl', rfl⟩
  · have hlt : nunits < (h.hdr p).size := Nat.lt_of_le_of_ne hsize (Ne.symm hfit)
    have hmod : ((h.hdr p).size - nunits) % 2 ^ 32 = (h.hdr p).size - nunits := by
      have := hi.fits hshort hpl
      exact Nat.mod_eq_of_lt (by omega)
    have hstop : (h.setSize p ((h.hdr p).size - nunits)).stop p = p + HEADER * ((h.hdr p).size - nunits) := by
      rw [Heap.stop, Heap.hdr_setSize_self, hmod]
    refine ⟨p + HEADER * ((h.hdr p).size - nunits), l, ?_, ?_, rfl⟩
    · show (h.setSize p ((h.hdr p).size - nunits)).stop p + HEADER = _
      rw [hstop]
    · show HeapInv base { (h.setSize p _).setSize ((h.setSize p _).stop p) nunits with freep := prevp } _ l
      rw [hstop]
      exact hi.takeTail hshort hprev hpl hlt hn

end HeapInv

theorem mallocLoop_next {answers : List (Option Nat)} {fuel : Nat} (hsize : ¬ nunits ≤ (h.hdr p).size)
    (hp : p ≠ h.freep) : Heap.mallocLoop nunits (fuel + 1) h answers prevp p =
      Heap.mallocLoop nunits fuel h answers p (h.next p) := by
  cases answers <;> exact (if_neg hsize).trans (if_neg hp)

theorem mallocLoop_found {answers : List (Option Nat)} {r : List Nat} (hnot : h.freep ∉ r) :
    ∀ {prevp : Nat}, Path h.next prevp r h.freep → (∃ z ∈ r ++ [h.freep], nunits ≤ (h.hdr z).size) →
      ∃ prev ∈ prevp :: r, nunits ≤ (h.hdr (h.next prev)).size ∧ ∀ fuel ≥ r.length + 1,
        Heap.mallocLoop nunits fuel h answers prevp (h.next prevp) =
          .ok (h.take nunits prev (h.next prev), answers) := by
  induction r with
  | nil =>
    intro prevp hpath hz
    obtain ⟨z, hz, hsize⟩ := hz
    obtain rfl := List.mem_singleton.mp hz
    rw [← show h.next prevp = h.freep from hpath] at hsize
    refine ⟨prevp, List.mem_cons_self, hsize, fun fuel hfuel => ?_⟩
    obtain ⟨fuel, rfl⟩ := Nat.exists_eq_add_of_le' hfuel
    exact if_pos hsize
  | cons w r ih =>
    intro prevp hpath hz
    by_cases hw : nunits ≤ (h.hdr w).size
    · rw [← hpath.1] at hw
      refine ⟨prevp, List.mem_cons_self, hw, fun fuel hfuel => ?_⟩
      obtain ⟨fuel, rfl⟩ := Nat.exists_eq_add_of_le' hfuel
      exact if_pos hw
    · obtain ⟨z, hz, hsize⟩ := hz
      have hz' : z ∈ r ++ [h.freep] := (List.mem_cons.mp hz).resolve_left fun hc => hw (hc ▸ hsize)
      obtain ⟨prev, hprev, hprevsize, hloop⟩ := ih (fun hc => hnot (List.mem_cons_of_mem _ hc)) hpath.2 ⟨z, hz', hsize⟩
      refine ⟨prev, List.mem_cons_of_mem _ hprev, hprevsize, fun fuel hfuel => ?_⟩
      obtain ⟨fuel, rfl⟩ := Nat.exists_eq_add_of_le' hfuel
      rw [hpath.1, ← hloop (fuel + (r.length + 1)) (Nat.le_add_left _ _)]
      exact mallocLoop_next hw fun hc => hnot (hc ▸ List.mem_cons_self)

/-- What `malloc` does after a search in vain. -/
def again (h : Heap) (nunits fuel : Nat) (answer : Option Nat) (answers : List (Option Nat)) :
    Except Stuck ((Heap × Nat) × List (Option Nat)) := do
  match ← h.morecore fuel nunits answer with
  | none => return ((h, 0), answers)
  | some h => Heap.mallocLoop nunits fuel h answers h.freep (h.hdr h.freep).ptr

theorem mallocLoop_full {answer : Option Nat} {answers : List (Option Nat)} {r : List Nat} (hnot : h.freep ∉ r)
    (fuel : Nat) : ∀ {prevp : Nat}, Path h.next prevp r h.freep → (∀ z ∈ r ++ [h.freep], (h.hdr z).size < nunits) →
      Heap.mallocLoop nunits (fuel + r.length + 1) h (answer :: answers) prevp (h.next prevp) =
        again h nunits fuel answer answers := by
  induction r with
  | nil =>
    intro prevp hpath hz
    have hsize := hz h.freep List.mem_cons_self
    rw [show h.next prevp = h.freep from hpath, Heap.mallocLoop, if_neg (Nat.not_le_of_lt hsize), if_pos rfl]
    rfl
  | cons w r ih =>
    intro prevp hpath hz
    obtain ⟨hw, hz⟩ := List.forall_mem_cons.mp hz
    rw [hpath.1, List.length_cons, mallocLoop_next (Nat.not_le_of_lt hw) fun hc => hnot (hc ▸ List.mem_cons_self)]
    exact ih (fun hc => hnot (List.mem_cons_of_mem _ hc)) hpath.2 hz

/-- `hp` lies above `base` and above all memory that `sbrk` has returned. -/
def Fresh (base : Nat) (mem : List (Nat × Nat)) (hp : Nat) : Prop :=
  base + HEADER ≤ hp ∧ ∀ c ∈ mem, c.1 + HEADER * c.2 ≤ hp

/-- How many units `morecore` asks for. -/
def request (nunits : Nat) : Nat := if nunits < 4096 then 4096 else nunits

theorem inMem_cons {hp nu x : Nat} {mem : List (Nat × Nat)} :
    InMem ((hp, nu) :: mem) x ↔ (hp ≤ x ∧ x < hp + HEADER * nu) ∨ InMem mem x := by
  simp [InMem]

theorem Fresh.not_inMem {hp x : Nat} {mem : List (Nat × Nat)} (hf : Fresh base mem hp) (hx : hp ≤ x) :
    ¬ InMem mem x := by
  rintro ⟨c, hc, -, hlt⟩
  have := hf.2 c hc
  omega

namespace HeapInv

variable (hi : HeapInv base h alloc l)
include hi

theorem extend {hp nu : Nat} (hf : Fresh base h.mem hp) (hnu : 0 < nu) (hbound : nu < 2 ^ 32) :
    HeapInv base (({ h with mem := (hp, nu) :: h.mem } : Heap).setSize hp nu) ((hp, 0) :: alloc) l := by
  generalize hh : ({ h with mem := (hp, nu) :: h.mem } : Heap).setSize hp nu = h'
  have hmem : h'.mem = (hp, nu) :: h.mem := by
    rw [← hh]
    rfl
  have hnew : ∀ a, a ∈ base :: l ∨ a ∈ alloc.map Prod.fst → a ≠ hp := by
    rintro a ha rfl
    refine hf.not_inMem (Nat.le_refl a) ?_
    rcases ha with ha | ha
    · rcases List.mem_cons.mp ha with rfl | ha
      · have := hf.1
        unfold HEADER at this
        omega
      · exact (hi.cover a).mpr (.inl ⟨a, ha, Nat.le_refl _, Nat.lt_add_of_pos_right (hi.list.pos a ha)⟩)
    · obtain ⟨b, hb, rfl⟩ := List.mem_map.mp ha
      exact hi.inMem_of_alloc hb (hi.in_self hb)
  have hhdr : ∀ a, a ∈ base :: l ∨ a ∈ alloc.map Prod.fst → h'.hdr a = h.hdr a := fun a ha => by
    rw [← hh, Heap.hdr_setSize_of_ne (hnew a ha)]
  have hlenhp : h'.len hp = HEADER * nu := by
    rw [← hh, Heap.len_setSize, update_self, Nat.mod_eq_of_lt hbound]
  -- the other blocks, in the memory that was there before
  have hold : HeapInv base { h' with mem := h.mem } alloc l :=
    hi.congr hhdr (by rw [← hh]; rfl) rfl
  have hfresh : ∀ x, In h'.len hp x → ¬ InMem h.mem x := fun x hx => hf.not_inMem hx.1
  have hlist : FreeList base h' l := ⟨hold.list.path, hold.list.apart, hold.list.pos, hold.list.base_len⟩
  refine ⟨hlist, hold.freep, ?_, ?_, ?_, fun x => ?_, ?_⟩
  · refine List.forall_mem_cons.mpr ⟨?_, hold.usable⟩
    rw [hlenhp]
    unfold HEADER
    omega
  · refine List.pairwise_cons.mpr ⟨fun b hb x hx hxb => hfresh x hx (hold.inMem_of_alloc hb hxb), hold.disj⟩
  · refine List.forall_mem_cons.mpr ⟨fun x hx hc => hfresh x hx ((hold.cover x).mpr (.inl hc)), hold.clear⟩
  · have hx := hold.cover x
    rw [hmem, inMem_cons, List.map_cons, cover_cons, ← hlenhp]
    exact (or_congr_right hx).trans or_left_comm
  · rw [hmem]
    exact List.forall_mem_cons.mpr ⟨hf.1, hi.above⟩

theorem morecore {hp : Nat} (hf : Fresh base h.mem hp) (hbound : nunits < 2 ^ 32)
    (hshort : Short ((hp, request nunits) :: h.mem)) :
    ∃ F h' l', (∀ fuel ≥ F, h.morecore fuel nunits (some hp) = .ok (some h')) ∧ HeapInv base h' alloc l' ∧
      h'.mem = (hp, request nunits) :: h.mem ∧ ∃ z ∈ l', nunits ≤ (h'.hdr z).size := by
  have hreq : nunits ≤ request nunits ∧ 0 < request nunits ∧ request nunits < 2 ^ 32 := by
    unfold request
    split_ifs <;> omega
  have hext := hi.extend hf hreq.2.1 hreq.2.2
  obtain ⟨F, h', l', hfree, hi', hmem', hcover'⟩ := hext.free hshort List.mem_cons_self
  have hlen : (({ h with mem := (hp, request nunits) :: h.mem } : Heap).setSize hp (request nunits)).len hp =
      HEADER * request nunits := by
    rw [Heap.len_setSize, update_self, Nat.mod_eq_of_lt hreq.2.2]
  have hfilter : ((hp, 0) :: alloc).filter (fun c => c.1 ≠ hp) = alloc := by
    rw [List.filter_cons_of_neg (by simp)]
    refine List.filter_eq_self.mpr fun b hb => ?_
    have hne : b.1 ≠ hp := by
      rintro rfl
      exact hf.not_inMem (Nat.le_refl _) (hi.inMem_of_alloc hb (hi.in_self hb))
    simpa using hne
  refine ⟨F, h', l', fun fuel hfuel => ?_, hfilter ▸ hi', hmem', ?_⟩
  · show (do
      let h ← (({ h with mem := (hp, request nunits) :: h.mem } : Heap).setSize hp (request nunits)).free fuel
        (hp + HEADER)
      return some h) = _
    rw [hfree fuel hfuel]
    rfl
  · obtain ⟨z, hz, hle, hge⟩ := hi'.list.apart.tail.interval
      (e := hp + HEADER * request nunits) (by unfold HEADER; omega)
      fun x h1 h2 => hcover' x ⟨h1, by rw [hlen]; exact h2⟩
    refine ⟨z, hz, ?_⟩
    unfold Heap.len HEADER at hge
    omega

theorem freep_ne (hbase : 0 < base) : h.freep ≠ 0 := by
  rcases List.mem_cons.mp hi.freep with heq | hmem
  · omega
  · have := hi.list.above hmem
    omega

theorem loop_take (hshort : Short h.mem) (hn : n + HEADER ≤ HEADER * nunits)
    (hz : ∃ z ∈ l, nunits ≤ (h.hdr z).size) (answers : List (Option Nat)) :
    ∃ F h' q l', (∀ fuel ≥ F, Heap.mallocLoop nunits fuel h answers h.freep (h.hdr h.freep).ptr =
        .ok ((h', q + HEADER), answers)) ∧ HeapInv base h' ((q, n) :: alloc) l' ∧ h'.mem = h.mem := by
  obtain ⟨r, hr, hperm⟩ := hi.list.path.rotate hi.freep
  have hnodup : (h.freep :: r).Nodup := hperm.nodup_iff.mpr (hi.list.sorted.imp Nat.ne_of_lt)
  have hz' : ∃ z ∈ r ++ [h.freep], nunits ≤ (h.hdr z).size := by
    obtain ⟨z, hz, hsize⟩ := hz
    have := hperm.mem_iff.mpr (List.mem_cons_of_mem base hz)
    exact ⟨z, by simpa [or_comm] using this, hsize⟩
  obtain ⟨prev, hprev, hsize, hloop⟩ := mallocLoop_found (List.nodup_cons.mp hnodup).1 hr hz'
  obtain ⟨q, l', hq, hi', hmem'⟩ := hi.take hshort (hperm.mem_iff.mp hprev) rfl hsize hn
  refine ⟨r.length + 1, _, q, l', fun fuel hfuel => ?_, hi', hmem'⟩
  refine (hloop fuel hfuel).trans ?_
  rw [← hq]

/-- A call of `malloc` ends; it returns a new block for `n` bytes, or 0 if `sbrk` has refused. -/
theorem malloc (hbase : 0 < base) (hshort : Short h.mem) (hn : Heap.units n < 2 ^ 32) {answer : Option Nat}
    (hanswer : ∀ hp, answer = some hp → Fresh base h.mem hp ∧ Short ((hp, request (Heap.units n)) :: h.mem)) :
    ∃ F h' p rest, (∀ fuel ≥ F, h.malloc base fuel n [answer] = .ok ((h', p), rest)) ∧
      ((p = 0 ∧ answer = none ∧ rest = [] ∧ ∃ l', HeapInv base h' alloc l') ∨
        ∃ q l', p = q + HEADER ∧ HeapInv base h' ((q, n) :: alloc) l') ∧ Short h'.mem := by
  have hunits : n + HEADER ≤ HEADER * Heap.units n := by
    unfold Heap.units HEADER
    omega
  have hinit : h.init base = h := if_neg (hi.freep_ne hbase)
  have hmalloc : ∀ fuel, h.malloc base fuel n [answer] =
      Heap.mallocLoop (Heap.units n) fuel h [answer] h.freep (h.hdr h.freep).ptr := fun fuel => by
    unfold Heap.malloc
    rw [hinit]
  simp only [hmalloc]
  by_cases hz : ∃ z ∈ l, Heap.units n ≤ (h.hdr z).size
  · obtain ⟨F, h', q, l', hloop, hi', hmem'⟩ := hi.loop_take hshort hunits hz [answer]
    exact ⟨F, h', q + HEADER, [answer], hloop, .inr ⟨q, l', rfl, hi'⟩, hmem' ▸ hshort⟩
  · -- once around the list, and then more memory
    obtain ⟨r, hr, hperm⟩ := hi.list.path.rotate hi.freep
    have hnodup : (h.freep :: r).Nodup := hperm.nodup_iff.mpr (hi.list.sorted.imp Nat.ne_of_lt)
    have hsmall : ∀ z ∈ r ++ [h.freep], (h.hdr z).size < Heap.units n := fun z hz' => by
      have hmem : z ∈ base :: l := hperm.mem_iff.mp (by simpa [or_comm] using hz')
      rcases List.mem_cons.mp hmem with rfl | hmem
      · have := hi.list.base_len
        unfold Heap.len HEADER at this
        unfold Heap.units HEADER
        omega
      · exact Nat.lt_of_not_le fun hc => hz ⟨z, hmem, hc⟩
    have hfull : ∀ fuel ≥ r.length + 1, Heap.mallocLoop (Heap.units n) fuel h [answer] h.freep (h.hdr h.freep).ptr =
        again h (Heap.units n) (fuel - (r.length + 1)) answer [] := fun fuel hfuel => by
      have := @mallocLoop_full h (Heap.units n) answer [] r (List.nodup_cons.mp hnodup).1
        (fuel - (r.length + 1)) _ hr hsmall
      rwa [show fuel - (r.length + 1) + r.length + 1 = fuel by omega] at this
    cases answer with
    | none =>
      refine ⟨r.length + 1, h, 0, [], fun fuel hfuel => ?_, .inl ⟨rfl, rfl, rfl, l, hi⟩, hshort⟩
      rw [hfull fuel hfuel]
      rfl
    | some hp =>
      obtain ⟨hf, hshort'⟩ := hanswer hp rfl
      obtain ⟨F, h₁, l₁, hmore, hi₁, hmem₁, hz₁⟩ := hi.morecore hf hn hshort'
      obtain ⟨F', h', q, l', hloop, hi', hmem'⟩ := hi₁.loop_take (hmem₁ ▸ hshort') hunits hz₁ []
      refine ⟨F + F' + (r.length + 1), h', q + HEADER, [], fun fuel hfuel => ?_, .inr ⟨q, l', rfl, hi'⟩, ?_⟩
      · rw [hfull fuel (by omega), again, hmore _ (by omega)]
        exact hloop _ (by omega)
      · rw [hmem', hmem₁]
        exact hshort'

end HeapInv

end Xv6.Umalloc

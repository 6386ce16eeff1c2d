import Xv6.Fs.State
import Xv6.Lib.Owns

/-!
# Which inode owns which block

An inode has `NDIRECT + 1 + NINDIRECT` slots for block numbers: `addrs[0]`, .., `addrs[NDIRECT]` and the
entries of the indirect block. `Store.ptr` is the block number in a slot of an allocated inode, and `Own`
says that the data blocks in use are those that occur in slots, each in one.
-/

namespace Xv6

open Function

def Superblock.datastart (sb : Superblock) : Nat := sb.bmapstart + sb.size / BPB + 1

/-- A block of the data region. -/
def Superblock.IsData (sb : Superblock) (b : Nat) : Prop := sb.datastart ≤ b ∧ b < sb.size

theorem Superblock.IsData.ne_zero {sb : Superblock} {b : Nat} (h : sb.IsData b) : b ≠ 0 := by
  rintro rfl
  exact absurd h.1 (Nat.not_succ_le_zero _)

/-- Slots of an inode. -/
abbrev NSLOT : Nat := NDIRECT + 1 + NINDIRECT

/-- The slot of the `bn`th block of a file. -/
def slotOf (bn : Nat) : Nat := if bn < NDIRECT then bn else bn + 1

theorem slotOf_inj {a b : Nat} (h : slotOf a = slotOf b) : a = b := by
  unfold slotOf at h
  split_ifs at h <;> omega

theorem slotOf_ne (bn : Nat) : slotOf bn ≠ NDIRECT := by
  unfold slotOf
  split_ifs <;> omega

namespace Dinode

/-- The block number in slot `k`, 0 if there is none. -/
def slot (d : Dinode) (data : Nat → Block) (k : Nat) : Nat :=
  if h : k < NDIRECT + 1 then d.addrs ⟨k, h⟩
  else if d.addrs (Fin.last NDIRECT) = 0 ∨ NSLOT ≤ k then 0
  else ((data (d.addrs (Fin.last NDIRECT))).getUint (4 * (k - (NDIRECT + 1)))).toNat

variable {d : Dinode} {data data' : Nat → Block} {k : Nat}

theorem slot_of_lt (h : k < NDIRECT + 1) : d.slot data k = d.addrs ⟨k, h⟩ := dif_pos h

theorem slot_last : d.slot data NDIRECT = d.addrs (Fin.last NDIRECT) := slot_of_lt (Nat.lt_succ_self _)

theorem slot_of_ge (h : NDIRECT + 1 ≤ k) (hk : k < NSLOT) (h0 : d.addrs (Fin.last NDIRECT) ≠ 0) :
    d.slot data k = ((data (d.addrs (Fin.last NDIRECT))).getUint (4 * (k - (NDIRECT + 1)))).toNat := by
  rw [slot, dif_neg (by omega), if_neg]
  rintro (h' | h')
  · exact h0 h'
  · omega

theorem slot_of_last_eq_zero (h : NDIRECT + 1 ≤ k) (h0 : d.addrs (Fin.last NDIRECT) = 0) :
    d.slot data k = 0 := by
  rw [slot, dif_neg (by omega), if_pos (.inl h0)]

theorem slot_of_NSLOT_le (h : NSLOT ≤ k) : d.slot data k = 0 := by
  rw [slot, dif_neg (by unfold NSLOT at h; omega), if_pos (.inr h)]

theorem slot_congr (h : d.addrs (Fin.last NDIRECT) ≠ 0 →
    data' (d.addrs (Fin.last NDIRECT)) = data (d.addrs (Fin.last NDIRECT))) (k : Nat) :
    d.slot data' k = d.slot data k := by
  unfold slot
  split_ifs with h1 h2
  · rfl
  · rfl
  · rw [h fun h0 => h2 (.inl h0)]

theorem slot_of_addrs {d' : Dinode} (h : d'.addrs = d.addrs) (k : Nat) : d'.slot data k = d.slot data k := by
  unfold slot
  rw [h]

end Dinode

namespace Fs

namespace Store

variable (sb : Superblock)

def Alloc (st : Store) (i : Nat) : Prop := i < sb.ninodes ∧ (st.dinode i).type ≠ .free

instance (st : Store) (i : Nat) : Decidable (st.Alloc sb i) := inferInstanceAs (Decidable (_ ∧ _))

/-- The block number in a slot `c.2` of the inode `c.1`. -/
def ptr (st : Store) (c : Nat × Nat) : Nat :=
  if st.Alloc sb c.1 then (st.dinode c.1).slot st.data c.2 else 0

/-- The disk after an `iupdate` of the inode `i`, whose fields are `d`. -/
def setDinode (st : Store) (i : Nat) (d : Dinode) : Store :=
  { st with dinode := update st.dinode i d }

variable {sb} {st st' : Store} {i j k : Nat} {d : Dinode}

theorem ptr_of_alloc (h : st.Alloc sb i) : st.ptr sb (i, k) = (st.dinode i).slot st.data k := if_pos h

theorem alloc_of_ptr (h : st.ptr sb (i, k) ≠ 0) : st.Alloc sb i := by
  by_contra ha
  exact h (if_neg ha)

theorem lt_NSLOT_of_ptr (h : st.ptr sb (i, k) ≠ 0) : k < NSLOT := by
  by_contra hk
  rw [ptr_of_alloc (alloc_of_ptr h)] at h
  exact h (Dinode.slot_of_NSLOT_le (Nat.le_of_not_lt hk))

@[simp] theorem setDinode_self : (st.setDinode i d).dinode i = d := update_self ..

theorem setDinode_of_ne (h : j ≠ i) : (st.setDinode i d).dinode j = st.dinode j :=
  update_of_ne h ..

@[simp] theorem setDinode_data : (st.setDinode i d).data = st.data := rfl

theorem setDinode_eq (h : st.dinode i = d) : st.setDinode i d = st := by
  simp only [setDinode]
  congr
  exact update_eq_self_iff.mpr h.symm

@[simp] theorem setDinode_setDinode {d' : Dinode} :
    (st.setDinode i d).setDinode i d' = st.setDinode i d' := by
  simp only [setDinode, update_idem]

theorem alloc_setDinode (ht : d.type = .free ↔ (st.dinode i).type = .free) :
    (st.setDinode i d).Alloc sb j ↔ st.Alloc sb j := by
  unfold Alloc
  by_cases hj : j = i
  · rw [hj, setDinode_self, ne_eq, ht]
  · rw [setDinode_of_ne hj]

theorem ptr_setDinode (ha : d.addrs = (st.dinode i).addrs)
    (ht : d.type = .free ↔ (st.dinode i).type = .free) (c : Nat × Nat) :
    (st.setDinode i d).ptr sb c = st.ptr sb c := by
  unfold ptr
  simp only [alloc_setDinode ht]
  by_cases hc : c.1 = i
  · rw [hc, setDinode_self, setDinode_data, Dinode.slot_of_addrs ha]
  · rw [setDinode_of_ne hc]
    rfl

/-- The disk after `balloc` has returned `b`. -/
def take (st : Store) (b : Nat) : Store :=
  { st with
    bitmap := update st.bitmap b true
    data := update st.data b .zero }

/-- The disk after the block number `b` has been stored in the entry `j` of the indirect block `ind`. -/
def setEntry (st : Store) (ind j b : Nat) : Store :=
  { st with data := update st.data ind ((st.data ind).setUint (4 * j) (UInt32.ofNat b)) }

end Store

/-- Of the blocks in `D` those in use are the blocks of the allocated inodes, once each; the other blocks
are in use; no inode has a hole. `D` is the data region, or what is left of it without lost blocks. -/
structure Own (sb : Superblock) (D : Nat → Prop) (st : Store) : Prop where
  owns : Owns (st.ptr sb) D st.bitmap
  metaBits : ∀ b < sb.size, ¬ D b → st.bitmap b = true
  noHole : ∀ i bn, st.Alloc sb i → bn * BSIZE < (st.dinode i).size → st.ptr sb (i, slotOf bn) ≠ 0
  notZero : ¬ D 0

namespace Own

variable {sb : Superblock} {D : Nat → Prop} {st st' : Store} {i k b : Nat}

variable (h : Own sb D st)
include h

theorem bn_lt (hi : st.Alloc sb i) {bn : Nat} (hbn : bn * BSIZE < (st.dinode i).size) :
    bn < MAXFILE := by
  have := Store.lt_NSLOT_of_ptr (h.noHole i bn hi hbn)
  unfold slotOf at this
  unfold NSLOT at this
  unfold MAXFILE
  split_ifs at this <;> omega

section

variable (hfree : st.bitmap b = false)
include hfree

theorem mem_of_free (hb : b < sb.size) : D b := by
  by_contra hd
  rw [h.metaBits b hb hd] at hfree
  cases hfree

theorem ne_zero_of_free (hb : b < sb.size) : b ≠ 0 := by
  rintro rfl
  exact h.notZero (h.mem_of_free hfree hb)

theorem record (hb : b < sb.size) {c : Nat × Nat} (hc : st.ptr sb c = 0) (hself : st'.ptr sb c = b)
    (hother : ∀ c', c' ≠ c → st'.ptr sb c' = st.ptr sb c')
    (hbitmap : st'.bitmap = update st.bitmap b true) (halloc : ∀ i, st'.Alloc sb i ↔ st.Alloc sb i)
    (hsize : ∀ i, (st'.dinode i).size = (st.dinode i).size) : Own sb D st' := by
  have hdata := h.mem_of_free hfree hb
  refine ⟨h.owns.record hc hdata hfree hself hother hbitmap, fun b' hb' hd => ?_, fun i bn hi hbn => ?_,
    h.notZero⟩
  · rw [hbitmap]
    by_cases hbb : b' = b
    · rw [hbb, update_self]
    · rw [update_of_ne hbb]
      exact h.metaBits b' hb' hd
  · rw [hsize] at hbn
    by_cases hcc : (i, slotOf bn) = c
    · rw [hcc, hself]
      exact h.ne_zero_of_free hfree hb
    · rw [hother _ hcc]
      exact h.noHole i bn ((halloc i).mp hi) hbn

theorem ptr_ne_free {c : Nat × Nat} (hc : st.ptr sb c ≠ 0) : st.ptr sb c ≠ b := h.owns.ne_of_unused hfree hc

theorem take_data {c : Nat × Nat} (hc : st.ptr sb c ≠ 0) : (st.take b).data (st.ptr sb c) = st.data (st.ptr sb c) :=
  update_of_ne (h.ptr_ne_free hfree hc) ..

theorem take_slot (hi : st.Alloc sb i) (k : Nat) :
    (st.dinode i).slot (st.take b).data k = st.ptr sb (i, k) := by
  rw [Store.ptr_of_alloc hi]
  refine Dinode.slot_congr (fun h0 => ?_) k
  rw [← @Dinode.slot_last _ st.data, ← Store.ptr_of_alloc hi] at h0 ⊢
  exact h.take_data hfree h0

theorem ptr_setAddr (hi : st.Alloc sb i) {k : Fin (NDIRECT + 1)} (hk : (st.dinode i).addrs k = 0) {d : Dinode}
    (hd : d = { st.dinode i with addrs := update (st.dinode i).addrs k b })
    (c : Nat × Nat) :
    ((st.take b).setDinode i d).ptr sb c = if c = (i, k.val) then b else st.ptr sb c := by
  obtain ⟨j, k'⟩ := c
  have halloc : ((st.take b).setDinode i d).Alloc sb j ↔ st.Alloc sb j := by
    by_cases hj : j = i
    · subst hj
      simp only [Store.Alloc, Store.setDinode_self, hd]
    · simp only [Store.Alloc, Store.setDinode_of_ne hj]
      rfl
  by_cases hja : st.Alloc sb j
  swap
  · have hji : j ≠ i := by
      rintro rfl
      exact hja hi
    rw [if_neg fun hc => hji (congrArg Prod.fst hc), Store.ptr, if_neg (fun ha => hja (halloc.mp ha)),
      Store.ptr, if_neg hja]
  rw [Store.ptr_of_alloc (halloc.mpr hja)]
  by_cases hji : j = i
  swap
  · rw [if_neg fun hc => hji (congrArg Prod.fst hc), Store.setDinode_of_ne hji]
    exact h.take_slot hfree hja k'
  subst hji
  rw [Store.setDinode_self]
  simp only [Prod.mk.injEq, true_and]
  by_cases hk' : k' < NDIRECT + 1
  · rw [Dinode.slot_of_lt hk', hd, Store.ptr_of_alloc hi, Dinode.slot_of_lt hk']
    simp only [update_apply, Fin.ext_iff]
  · rw [if_neg (by have := k.isLt; omega)]
    by_cases hlast : k = Fin.last NDIRECT
    · -- the new indirect block is empty
      subst hlast
      rw [Store.ptr_of_alloc hi, Dinode.slot_of_last_eq_zero (by omega) hk]
      by_cases hlt : k' < NSLOT
      · have hdl : d.addrs (Fin.last NDIRECT) = b := by
          rw [hd]
          simp only [update_self]
        by_cases hb0 : b = 0
        · exact Dinode.slot_of_last_eq_zero (by omega) (hdl.trans hb0)
        · rw [Dinode.slot_of_ge (by omega) hlt (hdl.symm ▸ hb0), hdl]
          simp only [Store.setDinode_data, Store.take, update_self, Block.getUint_zero]
          rfl
      · exact Dinode.slot_of_NSLOT_le (by omega)
    · have hdl : d.addrs (Fin.last NDIRECT) = (st.dinode j).addrs (Fin.last NDIRECT) := by
        rw [hd]
        simp only [update_of_ne (Ne.symm hlast)]
      have hslot : d.slot (st.take b).data k' = (st.dinode j).slot (st.take b).data k' := by
        unfold Dinode.slot
        rw [dif_neg hk', dif_neg hk', hdl]
      exact hslot.trans (h.take_slot hfree hi k')

theorem ptr_setEntry (hsize : b < 2 ^ 32) (hi : st.Alloc sb i) (hind : (st.dinode i).addrs (Fin.last NDIRECT) ≠ 0)
    {j : Nat} (hj : j < NINDIRECT) (c : Nat × Nat) :
    ((st.take b).setEntry ((st.dinode i).addrs (Fin.last NDIRECT)) j b).ptr sb c =
      if c = (i, NDIRECT + 1 + j) then b else st.ptr sb c := by
  obtain ⟨i', k⟩ := c
  set ind := (st.dinode i).addrs (Fin.last NDIRECT) with hindeq
  have hptr : st.ptr sb (i, NDIRECT) = ind := by rw [Store.ptr_of_alloc hi, Dinode.slot_last]
  by_cases hia : st.Alloc sb i'
  swap
  · have hne : i' ≠ i := by
      rintro rfl
      exact hia hi
    rw [if_neg fun hc => hne (congrArg Prod.fst hc)]
    exact (if_neg hia).trans (if_neg hia).symm
  have hself : ((st.take b).setEntry ind j b).ptr sb (i', k) =
      (st.dinode i').slot ((st.take b).setEntry ind j b).data k := if_pos hia
  rw [hself]
  by_cases hii : i' = i
  swap
  · -- the indirect block of another inode is another block
    rw [if_neg fun hc => hii (congrArg Prod.fst hc), ← h.take_slot hfree hia k]
    refine Dinode.slot_congr (fun h0 => update_of_ne (fun heq => hii ?_) ..) k
    have h0' : st.ptr sb (i', NDIRECT) = (st.dinode i').addrs (Fin.last NDIRECT) := by
      rw [Store.ptr_of_alloc hia, Dinode.slot_last]
    have := h.owns.inj (i', NDIRECT) (i, NDIRECT) (h0'.symm ▸ h0) (h0'.trans (heq.trans hptr.symm))
    exact congrArg Prod.fst this
  subst hii
  simp only [Prod.mk.injEq, true_and]
  by_cases hk : k < NDIRECT + 1
  · rw [if_neg (by omega), Store.ptr_of_alloc hi, Dinode.slot_of_lt hk, Dinode.slot_of_lt hk]
  · by_cases hlt : k < NSLOT
    · have hdata : (st.take b).data ind = st.data ind := by
        have := h.take_data hfree (hptr.symm ▸ hind)
        rwa [hptr] at this
      rw [Dinode.slot_of_ge (by omega) hlt hind, Store.ptr_of_alloc hi,
        Dinode.slot_of_ge (by omega) hlt hind]
      simp only [← hindeq, Store.setEntry, update_self, hdata]
      unfold NSLOT at hlt
      unfold NINDIRECT at hlt hj
      by_cases hkj : k = NDIRECT + 1 + j
      · rw [if_pos hkj, hkj, Nat.add_sub_cancel_left, Block.getUint_setUint_same _ _ _ (by omega),
          UInt32.toNat_ofNat_of_lt' hsize]
      · rw [if_neg hkj, Block.getUint_setUint_of_disjoint _ _ _ _ (by omega) (by omega)]
    · rw [if_neg (by unfold NSLOT at hlt; omega), Dinode.slot_of_NSLOT_le (by omega),
        Store.ptr_of_alloc hi, Dinode.slot_of_NSLOT_le (by omega)]

end

theorem ptr_setData {c : Nat × Nat} (hc : c.2 ≠ NDIRECT) {x : Block} (c' : Nat × Nat) :
    ({ st with data := update st.data (st.ptr sb c) x } : Store).ptr sb c' = st.ptr sb c' := by
  obtain ⟨i, k⟩ := c'
  by_cases hi : st.Alloc sb i
  · refine (if_pos hi).trans ((Dinode.slot_congr (fun hl => ?_) k).trans (if_pos hi).symm)
    have hl' : st.ptr sb (i, NDIRECT) = (st.dinode i).addrs (Fin.last NDIRECT) := by
      rw [Store.ptr_of_alloc hi, Dinode.slot_last]
    refine update_of_ne (fun heq => hc ?_) ..
    have := h.owns.inj (i, NDIRECT) c (hl'.symm ▸ hl) (hl'.trans heq)
    exact congrArg Prod.snd this.symm
  · exact (if_neg hi).trans (if_neg hi).symm

theorem congr (hptr : ∀ c, st'.ptr sb c = st.ptr sb c) (hbitmap : st'.bitmap = st.bitmap)
    (halloc : ∀ i, st'.Alloc sb i ↔ st.Alloc sb i) (hsize : ∀ i bn, st.Alloc sb i → bn * BSIZE < (st'.dinode i).size →
      st.ptr sb (i, slotOf bn) ≠ 0) : Own sb D st' := by
  have hp : st'.ptr sb = st.ptr sb := funext hptr
  refine ⟨?_, ?_, fun i bn hi hbn => ?_, h.notZero⟩
  · rw [hp, hbitmap]
    exact h.owns
  · rw [hbitmap]
    exact h.metaBits
  · rw [hptr]
    exact hsize i bn ((halloc i).mp hi) hbn

theorem setData {c : Nat × Nat} (hc : c.2 ≠ NDIRECT) {x : Block} :
    Own sb D { st with data := update st.data (st.ptr sb c) x } :=
  h.congr (h.ptr_setData hc) rfl (fun _ => Iff.rfl) h.noHole

end Own

end Fs

end Xv6

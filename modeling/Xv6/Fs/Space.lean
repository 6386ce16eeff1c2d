import Mathlib.Data.Finset.Card
import Mathlib.Data.Nat.Find
import Mathlib.Order.Interval.Finset.Nat
import Xv6.Fs.Content

/-!
# How much of a write fits

A write needs a block for each byte of its range, and the indirect block for bytes behind the direct
blocks. `room` is the length of the longest beginning of a write for which there are enough free blocks,
and it is what `writei` writes: when it stops early, it has filled as many slots as there were free blocks.
-/

namespace Xv6.Fs

variable {sb : Superblock} {D : Nat → Prop} {st st' : Store} {i off tot : Nat}

instance (bn k : Nat) : Decidable (BmapSlot bn k) := inferInstanceAs (Decidable (_ ∨ _))

variable (sb) in
def Store.freeBlocks (st : Store) : Finset Nat := (Finset.range sb.size).filter fun b => st.bitmap b = false

variable (sb) in
/-- The empty slots of the inode `i` that a write of `tot` bytes at `off` fills. -/
def Store.needs (st : Store) (i off tot : Nat) : Finset Nat :=
  (Finset.range NSLOT).filter fun k =>
    st.ptr sb (i, k) = 0 ∧ ∃ o ∈ Finset.Ico off (off + tot), BmapSlot (o / BSIZE) k

variable (sb) in
/-- Of a write of `n` bytes at `off`, the bytes for which there is space. -/
def Store.room (st : Store) (i off n : Nat) : Nat :=
  Nat.findGreatest (fun tot => (st.needs sb i off tot).card ≤ (st.freeBlocks sb).card) n

theorem Store.room_le {n : Nat} : st.room sb i off n ≤ n := Nat.findGreatest_le n

theorem Store.needs_mono {a b : Nat} (h : a ≤ b) : st.needs sb i off a ⊆ st.needs sb i off b := by
  intro k hk
  simp only [Store.needs, Finset.mem_filter, Finset.mem_Ico] at hk ⊢
  obtain ⟨hlt, h0, o, ho, hslot⟩ := hk
  exact ⟨hlt, h0, o, ⟨ho.1, by omega⟩, hslot⟩

theorem slotOf_lt_NSLOT {bn : Nat} (h : bn < MAXFILE) : slotOf bn < NSLOT := by
  unfold MAXFILE at h
  unfold slotOf NSLOT
  split_ifs <;> omega

theorem Store.ptr_indirect_ne {bn : Nat} (hbn : NDIRECT ≤ bn) (h : st.ptr sb (i, slotOf bn) ≠ 0) :
    st.ptr sb (i, NDIRECT) ≠ 0 := by
  have ha := Store.alloc_of_ptr h
  rw [Store.ptr_of_alloc ha] at h ⊢
  intro h0
  rw [slotOf, if_neg (by omega)] at h
  exact h (Dinode.slot_of_last_eq_zero (by omega) h0)

theorem Store.ptr_ne_of_bmapSlot {bn k : Nat} (h : st.ptr sb (i, slotOf bn) ≠ 0) (hk : BmapSlot bn k) :
    st.ptr sb (i, k) ≠ 0 := by
  rcases hk with rfl | ⟨rfl, hbn⟩
  · exact h
  · exact Store.ptr_indirect_ne hbn h

namespace Extends

variable {hi lo : Nat}

def filled (sb : Superblock) (i : Nat) (st st' : Store) : Finset Nat :=
  (Finset.range NSLOT).filter fun k => st.ptr sb (i, k) = 0 ∧ st'.ptr sb (i, k) ≠ 0

theorem needs_subset (h : Extends sb i off tot hi st st') : st.needs sb i off tot ⊆ filled sb i st st' := by
  intro k hk
  simp only [Store.needs, filled, Finset.mem_filter, Finset.mem_Ico] at hk ⊢
  obtain ⟨hlt, h0, o, ⟨ho1, ho2⟩, hslot⟩ := hk
  exact ⟨hlt, h0, Store.ptr_ne_of_bmapSlot (h.there o ho1 ho2) hslot⟩

theorem filled_subset (h : Extends sb i off tot (off + hi) st st') :
    filled sb i st st' ⊆ st.needs sb i off hi := by
  intro k hk
  simp only [Store.needs, filled, Finset.mem_filter, Finset.mem_Ico] at hk ⊢
  obtain ⟨hlt, h0, h1⟩ := hk
  obtain ⟨o, ho1, ho2, hslot⟩ := h.only k h0 h1
  exact ⟨hlt, h0, o, ⟨ho1, ho2⟩, hslot⟩

theorem card_filled_le (h : Extends sb i off tot hi st st') (hs : Own sb D st) (ht : Own sb D st')
    (hD : ∀ b, D b → b < sb.size) : (filled sb i st st').card ≤ (st.freeBlocks sb).card := by
  refine Finset.card_le_card_of_injOn (fun k => st'.ptr sb (i, k)) (fun k hk => ?_) fun k hk k' _ heq => ?_
  · simp only [filled, Finset.coe_filter, Set.mem_ofPred_eq] at hk
    simp only [Store.freeBlocks, Finset.coe_filter, Finset.mem_range, Set.mem_ofPred_eq]
    exact ⟨hD _ (ht.owns.inDom _ hk.2.2), hs.owns.unused_of_filled ht.owns h.keep hk.2.1 hk.2.2⟩
  · simp only [filled, Finset.coe_filter, Set.mem_ofPred_eq] at hk
    exact congrArg Prod.snd (ht.owns.inj (i, k) (i, k') hk.2.2 heq)

theorem card_free_le (h : Extends sb i off tot hi st st') (hs : Own sb D st) (ht : Own sb D st')
    (hfull : ∀ b < sb.size, st'.bitmap b = true) :
    (st.freeBlocks sb).card ≤ (filled sb i st st').card := by
  have hsub : st.freeBlocks sb ⊆ (filled sb i st st').image fun k => st'.ptr sb (i, k) := by
    intro b hb
    simp only [Store.freeBlocks, Finset.mem_filter, Finset.mem_range] at hb
    have hdom : D b := by
      by_contra hd
      rw [hs.metaBits b hb.1 hd] at hb
      exact Bool.noConfusion hb.2
    have hb0 : b ≠ 0 := fun h0 => hs.notZero (h0 ▸ hdom)
    obtain ⟨⟨j, k⟩, hc0, hcb⟩ := hs.owns.filled_of_unused ht.owns h.keep hb0 hdom hb.2 (hfull b hb.1)
    have hne : st'.ptr sb (j, k) ≠ 0 := hcb ▸ hb0
    have hj : j = i := by
      by_contra hji
      exact hne ((h.other (j, k) hji).trans hc0)
    subst hj
    refine Finset.mem_image.mpr ⟨k, ?_, hcb⟩
    simp only [filled, Finset.mem_filter, Finset.mem_range]
    exact ⟨Store.lt_NSLOT_of_ptr hne, hc0, hne⟩
  exact (Finset.card_le_card hsub).trans Finset.card_image_le

theorem trans {st'' : Store} {more : Nat} (h : Extends sb i off tot (off + tot) st st')
    (h' : Extends sb i (off + tot) more hi st' st'') (hle : off + tot ≤ hi) :
    Extends sb i off (tot + more) hi st st'' where
  keep c hc := by
    have hk := h.keep c hc
    exact (h'.keep c (hk.symm ▸ hc)).trans hk
  other c hc := (h'.other c hc).trans (h.other c hc)
  there o h1 h2 := by
    by_cases ho : o < off + tot
    · have h0 := h.there o h1 ho
      rwa [h'.keep _ h0]
    · exact h'.there o (by omega) (by omega)
  only k h0 h1 := by
    by_cases hk : st'.ptr sb (i, k) = 0
    · obtain ⟨o, ho1, ho2, hslot⟩ := h'.only k hk h1
      exact ⟨o, by omega, ho2, hslot⟩
    · obtain ⟨o, ho1, ho2, hslot⟩ := h.only k h0 hk
      exact ⟨o, ho1, by omega, hslot⟩

theorem eq_room {n : Nat} (h : Extends sb i off tot (off + min (tot + 1) n) st st') (hs : Own sb D st)
    (ht : Own sb D st') (hD : ∀ b, D b → b < sb.size) (htot : tot ≤ n) (hmax : off + n ≤ MAXFILE * BSIZE)
    (hfull : tot < n → ∀ b < sb.size, st'.bitmap b = true)
    (hempty : tot < n → st'.ptr sb (i, slotOf ((off + tot) / BSIZE)) = 0) : st.room sb i off n = tot := by
  have hfits : (st.needs sb i off tot).card ≤ (st.freeBlocks sb).card :=
    (Finset.card_le_card h.needs_subset).trans (h.card_filled_le hs ht hD)
  rw [Store.room, Nat.findGreatest_eq_iff]
  refine ⟨htot, fun _ => hfits, fun more hlt hle => Nat.not_le.mpr ?_⟩
  -- the slot of the next byte is needed too, and it was not filled
  have hstop : tot < n := by omega
  have hmin : min (tot + 1) n = tot + 1 := by omega
  rw [hmin] at h
  have hlast : slotOf ((off + tot) / BSIZE) ∉ filled sb i st st' := by
    intro hmem
    exact (Finset.mem_filter.mp hmem).2.2 (hempty hstop)
  have hbn : (off + tot) / BSIZE < MAXFILE := by
    rw [Nat.div_lt_iff_lt_mul (by decide)]
    omega
  have hneeded : slotOf ((off + tot) / BSIZE) ∈ st.needs sb i off (tot + 1) := by
    simp only [Store.needs, Finset.mem_filter, Finset.mem_range, Finset.mem_Ico]
    refine ⟨slotOf_lt_NSLOT hbn, ?_, off + tot, by omega, .inl rfl⟩
    by_contra h0
    exact h0 ((h.keep _ h0).symm.trans (hempty hstop))
  calc (st.freeBlocks sb).card
      ≤ (filled sb i st st').card := h.card_free_le hs ht (hfull hstop)
    _ < (st.needs sb i off (tot + 1)).card :=
      Finset.card_lt_card ⟨h.filled_subset, fun hsub => hlast (hsub hneeded)⟩
    _ ≤ (st.needs sb i off more).card := Finset.card_le_card (Store.needs_mono hlt)

end Extends

theorem Written.eq_room {s t : Fs} {ip : Ptr} {src rest : Nat → Option UInt8} {n : Nat}
    (hw : Written sb D ip src rest off tot s t)
    (hext : Extends sb (s.itable ip).inum off tot (off + min (tot + 1) n) s.store t.store) (hs : Own sb D s.store)
    (hD : ∀ b, D b → b < sb.size) (htot : tot ≤ n) (hmax : off + n ≤ MAXFILE * BSIZE)
    (hspace : tot < n → OutOfSpace sb ip (off + tot) t) : s.store.room sb (s.itable ip).inum off n = tot := by
  refine hext.eq_room hs hw.own hD htot hmax (fun hlt => (hspace hlt).full) fun hlt => ?_
  have hempty := (hspace hlt).empty
  rwa [show t.view ip = t.store from Store.setDinode_eq hw.clean, hw.inum] at hempty

end Xv6.Fs

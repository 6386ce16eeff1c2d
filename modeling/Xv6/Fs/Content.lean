import Xv6.Fs.Node

/-!
# Reading and writing contents

In an inode without holes `readi` changes nothing. `writei` writes a prefix of what it is given, adds the
blocks it needs and leaves every other inode as it was, also when it stops early.
-/

namespace Xv6.Fs

open Function Wp

variable {sb : Superblock} {D : Nat → Prop} {s t : Fs} {ip : Ptr} {E : Panic → Prop}

def Store.bytesFrom (sb : Superblock) (st : Store) (i off m : Nat) : List UInt8 :=
  (List.range m).map fun j => st.byteAt sb i (off + j)

theorem Store.bytesFrom_add {st : Store} {i off a b : Nat} :
    st.bytesFrom sb i off (a + b) = st.bytesFrom sb i off a ++ st.bytesFrom sb i (off + a) b := by
  simp [Store.bytesFrom, List.range_add, Nat.add_assoc, Function.comp_def]

theorem div_mod_add {off j m : Nat} (hm : off % BSIZE + m ≤ BSIZE) (hj : j < m) :
    (off + j) / BSIZE = off / BSIZE ∧ (off + j) % BSIZE = off % BSIZE + j := by
  unfold BSIZE at *
  omega

theorem Store.slice_eq {st : Store} {i off m : Nat} (hm : off % BSIZE + m ≤ BSIZE) :
    (st.data (st.ptr sb (i, slotOf (off / BSIZE)))).slice (off % BSIZE) m = st.bytesFrom sb i off m := by
  refine List.map_congr_left fun j hj => ?_
  obtain ⟨h1, h2⟩ := div_mod_add hm (List.mem_range.mp hj)
  rw [Store.byteAt, h1, h2]

/-- What `readi` reads when all copies succeed. -/
def Store.readBytes (sb : Superblock) (st : Store) (i size off n : Nat) : List UInt8 :=
  if size < off ∨ (off + n) % 2 ^ 32 < off then []
  else st.bytesFrom sb i off (if size < off + n then size - off else n)

theorem wp_readiLoop (h : Ready sb D ip s) (copyout : Nat → Bool) {off n : Nat} (hn : off + n ≤ (s.itable ip).copy.size)
    {Q : Option (List UInt8) → Fs → Prop}
    (hQ : ∀ r, ((∀ j, copyout j = true) →
      r = some ((s.view ip).bytesFrom sb (s.itable ip).inum off n)) → Q r s) :
    ∀ fuel tot, tot ≤ n → n - tot ≤ fuel →
      wp (readiLoop sb ip copyout fuel tot (off + tot) n
        ((s.view ip).bytesFrom sb (s.itable ip).inum off tot)) Q E s := by
  intro fuel
  induction fuel with
  | zero =>
    intro tot htot hfuel
    have : tot = n := by omega
    subst this
    exact hQ _ fun _ => rfl
  | succ fuel ih =>
    intro tot htot hfuel
    rw [readiLoop, wp_ite]
    refine ⟨fun hlt => ?_, fun hge => ?_⟩
    swap
    · have : tot = n := by omega
      subst this
      exact hQ _ fun _ => rfl
    have h0 : (s.view ip).ptr sb ((s.itable ip).inum, slotOf ((off + tot) / BSIZE)) ≠ 0 := by
      refine h.own.ptr_ne h.alloc ?_
      rw [view_self]
      omega
    rw [wp_bind]
    refine wp_bmap_of_ne h h0 ?_
    rw [if_neg h0, wp_ite]
    refine ⟨fun _ => ?_, fun hc => hQ none fun hall => absurd (hall tot) hc⟩
    rw [wp_bind, wp_get]
    have hpos : 0 < BSIZE - (off + tot) % BSIZE := Nat.sub_pos_of_lt (Nat.mod_lt _ (by decide))
    have hm : (off + tot) % BSIZE + min (n - tot) (BSIZE - (off + tot) % BSIZE) ≤ BSIZE := by omega
    rw [show s.store.data = (s.view ip).data from rfl, Store.slice_eq hm, ← Store.bytesFrom_add,
      Nat.add_assoc]
    exact ih _ (by omega) (by omega)

theorem wp_readi (h : Ready sb D ip s) (copyout : Nat → Bool) (off n : Nat) {Q : Option (List UInt8) → Fs → Prop}
    (hQ : ∀ r, ((∀ j, copyout j = true) → r = some ((s.view ip).readBytes sb (s.itable ip).inum
      (s.itable ip).copy.size off n)) → Q r s) : wp (readi sb ip copyout off n) Q E s := by
  show wp (if _ then _ else _) Q E s
  rw [wp_ite]
  refine ⟨fun hc => hQ _ fun _ => ?_, fun hc => ?_⟩
  · rw [Store.readBytes, if_pos hc]
  · refine @wp_readiLoop sb D s ip E h copyout off _ ?_ _ (fun r hr => hQ r fun hall => ?_) _ 0
      (Nat.zero_le _) (by omega)
    · split_ifs <;> omega
    · rw [hr hall, Store.readBytes, if_neg hc]

/-- `tot` bytes of `src` have been written at `off`; `rest` are the bytes outside of them that have been written
too. -/
structure Wrote (sb : Superblock) (D : Nat → Prop) (ip : Ptr) (src rest : Nat → Option UInt8) (off tot : Nat)
    (s t : Fs) : Prop where
  others : ∀ e, e ≠ ip → t.itable e = s.itable e
  self : ∃ addrs, t.itable ip =
    { s.itable ip with copy := { (s.itable ip).copy with addrs := addrs } }
  dinode : t.store.dinode = s.store.dinode
  own : Own sb D (t.view ip)
  keep : ∀ c, (s.view ip).ptr sb c ≠ 0 → (t.view ip).ptr sb c = (s.view ip).ptr sb c
  other : ∀ c, c.1 ≠ (s.itable ip).inum → (t.view ip).ptr sb c = (s.view ip).ptr sb c
  otherData : ∀ c, c.1 ≠ (s.itable ip).inum → c.2 ≠ NDIRECT → (s.view ip).ptr sb c ≠ 0 →
    t.store.data ((s.view ip).ptr sb c) = s.store.data ((s.view ip).ptr sb c)
  there : ∀ o, off ≤ o → o < off + tot →
    (t.view ip).ptr sb ((s.itable ip).inum, slotOf (o / BSIZE)) ≠ 0
  written : ∀ o, off ≤ o → o < off + tot →
    src (o - off) = some ((t.view ip).byteAt sb (s.itable ip).inum o)
  kept : ∀ o, (s.view ip).ptr sb ((s.itable ip).inum, slotOf (o / BSIZE)) ≠ 0 → o < off ∨ off + tot ≤ o →
    (t.view ip).byteAt sb (s.itable ip).inum o = (rest o).getD ((s.view ip).byteAt sb (s.itable ip).inum o)
  trace : t.trace = s.trace

section

variable {src rest : Nat → Option UInt8} {off n tot : Nat} {u : Fs}

theorem Wrote.inum (h : Wrote sb D ip src rest off tot s t) : (t.itable ip).inum = (s.itable ip).inum := by
  obtain ⟨addrs, ha⟩ := h.self
  rw [ha]

theorem Wrote.ready (h : Wrote sb D ip src rest off tot s t) (hs : Ready sb D ip s) : Ready sb D ip t := by
  obtain ⟨addrs, ha⟩ := h.self
  refine ⟨h.inum ▸ hs.lt, ?_, h.own⟩
  rw [ha]
  exact hs.type

theorem Wrote.zero (h : Own sb D (s.view ip)) : Wrote sb D ip src (fun _ => none) off 0 s s :=
  ⟨fun _ _ => rfl, ⟨_, rfl⟩, rfl, h, fun _ _ => rfl, fun _ _ => rfl, fun _ _ _ _ => rfl,
    fun _ h1 h2 => by omega, fun _ h1 h2 => by omega, fun _ _ _ => rfl, rfl⟩

theorem Wrote.grew (h : Wrote sb D ip src rest off tot s t) (hg : Grew sb D ip t u) :
    Wrote sb D ip src rest off tot s u where
  others e he := (hg.others e he).trans (h.others e he)
  self := by
    obtain ⟨a, ha⟩ := h.self
    obtain ⟨a', ha'⟩ := hg.self
    exact ⟨a', by rw [ha', ha]⟩
  dinode := hg.dinode.trans h.dinode
  own := hg.own
  keep c hc := by
    have := h.keep c hc
    exact (hg.keep c (this.symm ▸ hc)).trans this
  other c hc := (hg.other c (h.inum.symm ▸ hc)).trans (h.other c hc)
  otherData c hc hk h0 := by
    have hkeep := h.keep c h0
    have := hg.data c hk (hkeep.symm ▸ h0)
    rw [hkeep] at this
    exact this.trans (h.otherData c hc hk h0)
  there o h1 h2 := by
    have := h.there o h1 h2
    rwa [hg.keep _ this]
  written o h1 h2 := by
    rw [hg.byteAt (h.there o h1 h2)]
    exact h.written o h1 h2
  kept o h0 ho := by
    rw [hg.byteAt (by rwa [h.keep _ h0])]
    exact h.kept o h0 ho
  trace := hg.trace.trans h.trace

def blockAt (sb : Superblock) (ip : Ptr) (off : Nat) (t : Fs) : Nat :=
  (t.view ip).ptr sb ((t.itable ip).inum, slotOf (off / BSIZE))

/-- The state after `either_copyin` of `m` bytes at `off` into the block that is there. -/
def patched (sb : Superblock) (ip : Ptr) (src : Nat → Option UInt8) (off m : Nat) (t : Fs)
    (tr : Option (List Nat)) : Fs :=
  { t with
    store.data := update t.store.data (blockAt sb ip off t)
      ((t.store.data (blockAt sb ip off t)).patch (off % BSIZE) m src)
    trans := tr }

theorem patched_ptr (h : Own sb D (t.view ip)) {m : Nat} (tr : Option (List Nat)) (c : Nat × Nat) :
    ((patched sb ip src off m t tr).view ip).ptr sb c = (t.view ip).ptr sb c :=
  h.ptr_setData (slotOf_ne _) c

theorem patched_byteAt (h : Own sb D (t.view ip)) {m : Nat} (hm : off % BSIZE + m ≤ BSIZE)
    (h0 : blockAt sb ip off t ≠ 0) (tr : Option (List Nat)) (o : Nat) :
    ((patched sb ip src off m t tr).view ip).byteAt sb (t.itable ip).inum o =
      if off ≤ o ∧ o < off + m
      then (Block.upTo src (o - off)).getD ((t.view ip).byteAt sb (t.itable ip).inum o)
      else (t.view ip).byteAt sb (t.itable ip).inum o := by
  have hdata : ∀ b, ((patched sb ip src off m t tr).view ip).data b =
      update t.store.data (blockAt sb ip off t)
        ((t.store.data (blockAt sb ip off t)).patch (off % BSIZE) m src) b := fun _ => rfl
  rw [Store.byteAt, patched_ptr h, hdata]
  by_cases hbn : o / BSIZE = off / BSIZE
  · have hb : (t.view ip).ptr sb ((t.itable ip).inum, slotOf (o / BSIZE)) = blockAt sb ip off t := by
      rw [hbn]
      rfl
    rw [Store.byteAt, hb, update_self, Block.byte_patch _ _ _ _ (Nat.mod_lt _ (by decide))]
    have hiff : (off % BSIZE ≤ o % BSIZE ∧ o % BSIZE < off % BSIZE + m) ↔ (off ≤ o ∧ o < off + m) := by
      unfold BSIZE at *
      omega
    have hsub : off ≤ o → o % BSIZE - off % BSIZE = o - off := by
      intro hle
      unfold BSIZE at *
      omega
    simp only [hiff]
    split_ifs with hc
    · rw [hsub hc.1]
      rfl
    · rfl
  · have hne : (t.view ip).ptr sb ((t.itable ip).inum, slotOf (o / BSIZE)) ≠ blockAt sb ip off t := by
      intro heq
      have := h.owns.inj _ _ (heq.symm ▸ h0) heq
      exact hbn (slotOf_inj (congrArg Prod.snd this))
    have hout : ¬ (off ≤ o ∧ o < off + m) := by
      unfold BSIZE at *
      omega
    rw [update_of_ne hne, if_neg hout]
    rfl

/-- What a copy of `m` bytes to `off + tot` leaves there if not all of them are mapped. -/
def leftover (src : Nat → Option UInt8) (off tot m o : Nat) : Option UInt8 :=
  if (¬ ∀ j < m, (src (tot + j)).isSome) ∧ off + tot ≤ o ∧ o < off + tot + m
  then Block.upTo (fun j => src (tot + j)) (o - (off + tot)) else none

theorem leftover_of_mapped {m : Nat} (h : ∀ j < m, (src (tot + j)).isSome) : leftover src off tot m = fun _ => none :=
  funext fun _ => if_neg fun hc => hc.1 h

theorem Wrote.patch (h : Wrote sb D ip src (fun _ => none) off tot s t) {m : Nat}
    (hm : (off + tot) % BSIZE + m ≤ BSIZE) (h0 : blockAt sb ip (off + tot) t ≠ 0) (tr : Option (List Nat)) :
    Wrote sb D ip src (leftover src off tot m) off (if ∀ j < m, (src (tot + j)).isSome then tot + m else tot) s
      (patched sb ip (fun j => src (tot + j)) (off + tot) m t tr) := by
  set v := patched sb ip (fun j => src (tot + j)) (off + tot) m t tr with hv
  have hptr : ∀ c, (v.view ip).ptr sb c = (t.view ip).ptr sb c := patched_ptr h.own tr
  have hbyte := fun o => @patched_byteAt sb D t ip (fun j => src (tot + j)) _ h.own m hm h0 tr o
  rw [h.inum] at hbyte
  have h0' : (t.view ip).ptr sb ((s.itable ip).inum, slotOf ((off + tot) / BSIZE)) ≠ 0 := by
    rw [← h.inum]
    exact h0
  refine ⟨h.others, h.self, h.dinode,
    h.own.setData (slotOf_ne _),
    fun c hc => ?_, fun c hc => ?_, fun c hc hk hc0 => ?_, fun o h1 h2 => ?_, fun o h1 h2 => ?_,
    fun o ho hor => ?_, h.trace⟩
  · rw [hptr]
    exact h.keep c hc
  · rw [hptr]
    exact h.other c hc
  · have hne : (s.view ip).ptr sb c ≠ blockAt sb ip (off + tot) t := by
      rw [← h.keep c hc0]
      intro heq
      have := h.own.owns.inj _ _ (heq.symm ▸ h0) heq
      exact hc ((congrArg Prod.fst this).trans h.inum)
    exact (update_of_ne hne ..).trans (h.otherData c hc hk hc0)
  · rw [hptr]
    by_cases ho : o < off + tot
    · exact h.there o h1 ho
    · have hbn : o / BSIZE = (off + tot) / BSIZE := by
        split_ifs at h2
        · unfold BSIZE at *
          omega
        · omega
      rwa [hbn]
  · rw [hbyte]
    by_cases ho : o < off + tot
    · rw [if_neg (by omega)]
      exact h.written o h1 ho
    · split_ifs at h2 with hall
      · rw [if_pos (by omega), Block.upTo_of_isSome hall (by omega)]
        have hsub : o - off = tot + (o - (off + tot)) := by omega
        rw [hsub]
        obtain ⟨x, hx⟩ := Option.isSome_iff_exists.mp (hall (o - (off + tot)) (by omega))
        rw [hx]
        rfl
      · omega
  · have hold : (t.view ip).byteAt sb (s.itable ip).inum o = (s.view ip).byteAt sb (s.itable ip).inum o :=
      h.kept o ho (by split_ifs at hor <;> omega)
    rw [hbyte, hold]
    split_ifs at hor with hall
    · rw [leftover_of_mapped hall, if_neg (by omega)]
      rfl
    · unfold leftover
      simp only [hall, not_false_eq_true, true_and]
      split_ifs <;> rfl

/-- `writei` stops at the beginning, at the end or at a block boundary. -/
def StopsAt (off n tot : Nat) : Prop := tot = 0 ∨ tot = n ∨ (off + tot) % BSIZE = 0

theorem stopsAt_chunk {off n tot : Nat} (htot : tot ≤ n) :
    StopsAt off n (tot + min (n - tot) (BSIZE - (off + tot) % BSIZE)) := by
  by_cases h : n - tot ≤ BSIZE - (off + tot) % BSIZE
  · refine .inr (.inl ?_)
    omega
  · refine .inr (.inr ?_)
    rw [Nat.min_eq_right (by omega)]
    unfold BSIZE
    omega

/-- The slots that were filled are those for bytes from `lo` to `hi`. -/
def FilledIn (sb : Superblock) (ip : Ptr) (lo hi : Nat) (s t : Fs) : Prop :=
  ∀ k, (s.view ip).ptr sb ((s.itable ip).inum, k) = 0 → (t.view ip).ptr sb ((s.itable ip).inum, k) ≠ 0 →
    ∃ o, lo ≤ o ∧ o < hi ∧ BmapSlot (o / BSIZE) k

theorem FilledIn.mono {lo hi hi' : Nat} (h : FilledIn sb ip lo hi s t) (hle : hi ≤ hi') :
    FilledIn sb ip lo hi' s t := fun k h0 h1 => by
  obtain ⟨o, hlo, hhi, hslot⟩ := h k h0 h1
  exact ⟨o, hlo, hhi.trans_le hle, hslot⟩

theorem FilledIn.step {lo hi o : Nat} (h : FilledIn sb ip lo hi s t) (hinum : (t.itable ip).inum = (s.itable ip).inum)
    (honly : OnlySlots sb ip (BmapSlot (o / BSIZE)) t u) (hlo : lo ≤ o) (hhi : hi ≤ o) :
    FilledIn sb ip lo (o + 1) s u := fun k h0 h1 => by
  by_cases hk : BmapSlot (o / BSIZE) k
  · exact ⟨o, hlo, Nat.lt_succ_self o, hk⟩
  · rw [← hinum, honly k hk, hinum] at h1
    obtain ⟨o', hlo', hhi', hslot⟩ := h k h0 h1
    exact ⟨o', hlo', by omega, hslot⟩

/-- There is no block for the byte `o`, and none is free. -/
structure OutOfSpace (sb : Superblock) (ip : Ptr) (o : Nat) (t : Fs) : Prop where
  full : t.Full sb
  empty : (t.view ip).ptr sb ((t.itable ip).inum, slotOf (o / BSIZE)) = 0

/-- The blocks that the bytes `off`, .., `off + n - 1` of a file may lie in. -/
def spanned (off n : Nat) : Nat := if n = 0 then 0 else (n + off % BSIZE + (BSIZE - 1)) / BSIZE

/-- The slots that these blocks are in, with that of the indirect block. -/
def slots (off n : Nat) : Finset Nat :=
  (Finset.Ico off (off + n)).image (fun o => slotOf (o / BSIZE)) ∪
    if n = 0 ∨ off + n ≤ NDIRECT * BSIZE then ∅ else {NDIRECT}

theorem mem_slots {o k : Nat} (h1 : off ≤ o) (h2 : o < off + n) (hk : BmapSlot (o / BSIZE) k) : k ∈ slots off n := by
  refine Finset.mem_union.mpr (hk.imp ?_ ?_)
  · rintro rfl
    exact Finset.mem_image.mpr ⟨o, Finset.mem_Ico.mpr ⟨h1, h2⟩, rfl⟩
  · rintro ⟨rfl, hbn⟩
    rw [Nat.le_div_iff_mul_le (by decide)] at hbn
    rw [if_neg (by omega)]
    exact Finset.mem_singleton_self _

theorem slots_mono {m : Nat} (h : m ≤ n) : slots off m ⊆ slots off n := by
  refine Finset.union_subset_union (Finset.image_subset_image (Finset.Ico_subset_Ico_right (by omega))) ?_
  split_ifs with h1 h2
  · exact subset_rfl
  · exact Finset.empty_subset _
  · omega
  · exact subset_rfl

/-- How many slots there are at most. -/
def nslots (off n : Nat) : Nat := spanned off n + if n = 0 ∨ off + n ≤ NDIRECT * BSIZE then 0 else 1

theorem card_slots_le : (slots off n).card ≤ nslots off n := by
  refine (Finset.card_union_le _ _).trans (Nat.add_le_add ?_ ?_)
  · have hsub : (Finset.Ico off (off + n)).image (fun o => slotOf (o / BSIZE)) ⊆
        (Finset.Ico (off / BSIZE) (off / BSIZE + spanned off n)).image slotOf := by
      intro k hk
      obtain ⟨o, ho, rfl⟩ := Finset.mem_image.mp hk
      rw [Finset.mem_Ico] at ho
      refine Finset.mem_image_of_mem _ (Finset.mem_Ico.mpr ⟨Nat.div_le_div_right ho.1, ?_⟩)
      unfold spanned BSIZE
      rw [if_neg (by omega)]
      omega
    refine ((Finset.card_le_card hsub).trans Finset.card_image_le).trans_eq ?_
    rw [Nat.card_Ico, Nat.add_sub_cancel_left]
  · split_ifs <;> simp

/-- How many blocks `writei` logs at most: blocks of the file, of the free map, and the inode. -/
def writeCost (sb : Superblock) (off n : Nat) : Nat :=
  nslots off n + min (nslots off n) (sb.size / BPB + 1) + 1

/-- The bytes that `writei` copies to `off + tot` at once. -/
def chunk (off n tot : Nat) : Nat := min (n - tot) (BSIZE - (off + tot) % BSIZE)

/-- The block `b` is overwritten with `x`. -/
def setBlock (s : Fs) (b : Nat) (x : Block) : Fs :=
  { s with store := { s.store with data := update s.store.data b x } }

/-- What has been changed is logged; but the last copy may have changed the block at `off + tot` and not logged it. -/
def LoggedBut (sb : Superblock) (ip : Ptr) (off n tot : Nat) (s t : Fs) : Prop :=
  Logged sb s t ∨ tot < n ∧ blockAt sb ip (off + tot) t ≠ 0 ∧
    ∃ x, Logged sb s (t.setBlock (blockAt sb ip (off + tot) t) x)

theorem wp_writeiLoop (hsb : sb.size < 2 ^ 32) (hE : Room sb E (slots off n).card s) (hs : Ready sb D ip s)
    (src : Nat → Option UInt8) (hmax : off + n ≤ MAXFILE * BSIZE) {Q : Nat × Nat → Fs → Prop}
    (hQ : ∀ tot t, tot ≤ n → StopsAt off n tot → Wrote sb D ip src (leftover src off tot (chunk off n tot)) off tot s t →
      FilledIn sb ip off (off + min (tot + 1) n) s t →
      (tot < n → (∀ j < n, (src j).isSome) → OutOfSpace sb ip (off + tot) t) →
      (blockAt sb ip (off + tot) s ≠ 0 → Adds sb (slotBlocks sb ip (slots off tot) t) s.trans t.trans) →
      Adds sb (slotBlocks sb ip (slots off n) t) s.trans t.trans →
      LoggedBut sb ip off n tot s t → Q (tot, off + tot) t) :
    ∀ fuel tot t, tot ≤ n → n - tot ≤ fuel → StopsAt off n tot → Wrote sb D ip src (fun _ => none) off tot s t →
      FilledIn sb ip off (off + tot) s t → Journal sb (slotBlocks sb ip (slots off tot) t) s t →
      wp (writeiLoop sb ip src fuel tot (off + tot) n) Q E t := by
  have hend : ∀ tot t, tot ≤ n → ¬ tot < n → StopsAt off n tot → Wrote sb D ip src (fun _ => none) off tot s t →
      FilledIn sb ip off (off + tot) s t → Journal sb (slotBlocks sb ip (slots off tot) t) s t →
      Q (tot, off + tot) t := by
    intro tot t htot hge hstop h hfill hj
    obtain rfl : tot = n := by omega
    refine hQ tot t htot hstop ?_ (hfill.mono (by omega)) (fun hlt => absurd hlt hge) (fun _ => hj.adds) hj.adds
      (.inl hj.logged)
    rwa [leftover_of_mapped fun j hj => absurd hj (by unfold chunk; omega)]
  intro fuel
  induction fuel with
  | zero => exact fun tot t htot hfuel => hend tot t htot (by omega)
  | succ fuel ih =>
    intro tot t htot hfuel hstop h hfill hj
    rw [writeiLoop, wp_ite]
    refine ⟨fun hlt => ?_, fun hge => hend tot t htot hge hstop h hfill hj⟩
    have hbn : (off + tot) / BSIZE < MAXFILE := by
      rw [Nat.div_lt_iff_lt_mul (by decide)]
      omega
    have hsub : slots off (tot + 1) ⊆ slots off n := slots_mono hlt
    have hj₁ := hj.mono (slotBlocks_mono (slots_mono (Nat.le_succ tot) : slots off tot ⊆ _))
    rw [wp_bind]
    refine wp_bmap hsb (hE.mono (Finset.card_le_card hsub)) (h.ready hs) hj₁ hbn
      (fun k hk => mem_slots (Nat.le_add_right off tot) (by omega) hk) fun r u hg hju hr hsame hfull honly => ?_
    have hu := h.grew hg
    have hfillu : FilledIn sb ip off (off + (tot + 1)) s u :=
      hfill.step h.inum honly (Nat.le_add_right off tot) le_rfl
    -- a block that was there before is found, and nothing is logged
    have hdone : blockAt sb ip (off + tot) s ≠ 0 → Adds sb (slotBlocks sb ip (slots off tot) u) s.trans u.trans := by
      intro h0
      rw [hsame (by rw [h.inum, h.keep _ h0]; exact h0)]
      exact hj.adds
    rw [wp_ite]
    refine ⟨fun hr0 => hQ tot u htot hstop ?_ (hfillu.mono (by omega)) (fun _ _ => ⟨hfull hr0, ?_⟩) hdone
      (hju.adds.mono (slotBlocks_mono hsub)) (.inl hju.logged), fun hr0 => ?_⟩
    · refine ⟨hu.others, hu.self, hu.dinode, hu.own, hu.keep, hu.other, hu.otherData, hu.there, hu.written,
        fun o h0 ho => ?_, hu.trace⟩
      have hout : leftover src off tot (chunk off n tot) o = none := by
        refine if_neg fun hc => h0 ?_
        have hbn' : o / BSIZE = (off + tot) / BSIZE := by
          unfold chunk at hc
          unfold BSIZE at *
          omega
        by_contra h0'
        rw [hbn'] at h0'
        exact h0' ((hu.keep _ h0').symm.trans (h.inum ▸ hr ▸ hr0))
      rw [hout]
      exact hu.kept o h0 ho
    · exact hg.inum ▸ hr.symm.trans hr0
    have hblock : r = blockAt sb ip (off + tot) u := by
      rw [hr, blockAt, hg.inum]
    have hpos : 0 < BSIZE - (off + tot) % BSIZE := Nat.sub_pos_of_lt (Nat.mod_lt _ (by decide))
    have hm : min (n - tot) (BSIZE - (off + tot) % BSIZE) = chunk off n tot := rfl
    have hfit : (off + tot) % BSIZE + chunk off n tot ≤ BSIZE := by omega
    have hstep := hu.patch hfit (hblock ▸ hr0)
    have hfillp : ∀ {m : Nat} (tr : Option (List Nat)), FilledIn sb ip off (off + (tot + 1)) s
        (patched sb ip (fun j => src (tot + j)) (off + tot) m u tr) := fun tr k h0 h1 =>
      hfillu k h0 (patched_ptr hg.own tr _ ▸ h1)
    have hslots : ∀ (S : Finset Nat) {m : Nat} (tr : Option (List Nat)), slotBlocks sb ip S u ⊆ slotBlocks sb ip S
        (patched sb ip (fun j => src (tot + j)) (off + tot) m u tr) := fun S m tr =>
      slotBlocks_keep rfl fun c _ => patched_ptr hg.own tr c
    rw [wp_bind, wp_get, wp_bind, setData, wp_modify, wp_ite, hm]
    subst hblock
    refine ⟨fun hall => ?_, fun hall => ?_⟩
    · rw [wp_bind]
      have hmem : blockAt sb ip (off + tot) u ∈ slotBlocks sb ip (slots off (tot + 1)) u :=
        mem_slotBlocks (mem_slots (Nat.le_add_right off tot) (by omega) (.inl rfl)) hr0
      refine hju.wp_logWrite (hE.mono (Finset.card_le_card hsub)) card_slotBlocks_le hmem fun tr hlog => ?_
      have := hstep tr
      rw [if_pos hall, leftover_of_mapped hall] at this
      rw [Nat.add_assoc]
      refine ih _ _ (by omega) (by omega) (stopsAt_chunk htot) this ((hfillp tr).mono (by omega)) ?_
      exact hlog.mono ((slotBlocks_mono (slots_mono (by omega))).trans (hslots _ tr))
    · have := hstep u.trans
      rw [if_neg hall] at this
      set v := patched sb ip (fun j => src (tot + j)) (off + tot) (chunk off n tot) u u.trans with hv
      have hat : blockAt sb ip (off + tot) v = blockAt sb ip (off + tot) u := patched_ptr hg.own u.trans _
      have hback : v.setBlock (blockAt sb ip (off + tot) v) (u.store.data (blockAt sb ip (off + tot) u)) = u := by
        rw [hat]
        simp only [setBlock, hv, patched, update_idem, update_eq_self]
      refine hQ tot v htot hstop this ((hfillp u.trans).mono (by omega)) (fun _ hmapped =>
        absurd (fun j hj => hmapped (tot + j) ?_) hall) (fun h0 => (hdone h0).mono (hslots _ u.trans))
        (hju.adds.mono ((slotBlocks_mono hsub).trans (hslots _ u.trans)))
        (.inr ⟨hlt, hat.symm ▸ hr0, _, hback.symm ▸ hju.logged⟩)
      omega

/-- Slots of the inode `i` are filled, those of the bytes from `off` to `off + tot` among them, and only
slots for bytes below `hi`. -/
structure Extends (sb : Superblock) (i off tot hi : Nat) (st st' : Store) : Prop where
  keep : ∀ c, st.ptr sb c ≠ 0 → st'.ptr sb c = st.ptr sb c
  other : ∀ c, c.1 ≠ i → st'.ptr sb c = st.ptr sb c
  there : ∀ o, off ≤ o → o < off + tot → st'.ptr sb (i, slotOf (o / BSIZE)) ≠ 0
  only : ∀ k, st.ptr sb (i, k) = 0 → st'.ptr sb (i, k) ≠ 0 →
    ∃ o, off ≤ o ∧ o < hi ∧ BmapSlot (o / BSIZE) k

/-- `writei` has written `tot` bytes at `off` and updated the inode; `rest` are the bytes outside of them that it has
written too. -/
structure Written (sb : Superblock) (D : Nat → Prop) (ip : Ptr) (src rest : Nat → Option UInt8) (off tot : Nat)
    (s t : Fs) : Prop where
  others : ∀ e, e ≠ ip → t.itable e = s.itable e
  self : ∃ addrs, t.itable ip = { s.itable ip with
    copy := { (s.itable ip).copy with addrs := addrs, size := max (s.itable ip).copy.size (off + tot) } }
  dinode : t.store.dinode =
    update s.store.dinode (s.itable ip).inum (t.itable ip).copy
  own : Own sb D t.store
  nodeOther : ∀ j, j ≠ (s.itable ip).inum → t.store.node sb j = s.store.node sb j
  nodeSelf : ∃ bytes, t.store.node sb (s.itable ip).inum =
      { s.store.node sb (s.itable ip).inum with
        size := max (s.itable ip).copy.size (off + tot), bytes := bytes } ∧
    (∀ o, off ≤ o → o < off + tot → src (o - off) = some (bytes o)) ∧
    ∀ o, o < off ∨ off + tot ≤ o → bytes o = (if o < (s.itable ip).copy.size then rest o else none).getD
      ((s.store.node sb (s.itable ip).inum).bytes o)
  kept : ∀ o, s.store.ptr sb ((s.itable ip).inum, slotOf (o / BSIZE)) ≠ 0 → o < off ∨ off + tot ≤ o →
    t.store.byteAt sb (s.itable ip).inum o = (rest o).getD (s.store.byteAt sb (s.itable ip).inum o)
  trace : t.trace = s.trace

theorem Written.inum {rest : Nat → Option UInt8} (h : Written sb D ip src rest off tot s t) :
    (t.itable ip).inum = (s.itable ip).inum := by
  obtain ⟨addrs, hself⟩ := h.self
  rw [hself]

theorem Written.clean {rest : Nat → Option UInt8} (h : Written sb D ip src rest off tot s t) :
    t.store.dinode (t.itable ip).inum = (t.itable ip).copy := by
  rw [h.dinode, h.inum, update_self]

/-- Outside of the request, and outside of what has been written if all is mapped, the bytes are as before. -/
theorem Written.nodeKept (h : Written sb D ip src (leftover src off tot (chunk off n tot)) off tot s t)
    (htot : tot ≤ n) : ∃ bytes, t.store.node sb (s.itable ip).inum =
      { s.store.node sb (s.itable ip).inum with
        size := max (s.itable ip).copy.size (off + tot), bytes := bytes } ∧
    (∀ o, off ≤ o → o < off + tot → src (o - off) = some (bytes o)) ∧
    ∀ o, (o < off ∨ off + n ≤ o ∨ (∀ j < n, (src j).isSome) ∧ off + tot ≤ o) →
      bytes o = (s.store.node sb (s.itable ip).inum).bytes o := by
  obtain ⟨bytes, hnode, hwritten, hkept⟩ := h.nodeSelf
  refine ⟨bytes, hnode, hwritten, fun o ho => ?_⟩
  have hnone : leftover src off tot (chunk off n tot) o = none := by
    refine if_neg fun ⟨hall, hc⟩ => ?_
    unfold chunk at hall hc
    rcases ho with ho | ho | ⟨hmapped, -⟩
    · omega
    · omega
    · exact hall fun j hj => hmapped (tot + j) (by omega)
  rw [hkept o (by omega), hnone, ite_self]
  rfl

theorem ptr_view_setCopy {d : Dinode} (ha : d.addrs = (t.itable ip).copy.addrs)
    (ht : d.type = (t.itable ip).copy.type) (c : Nat × Nat) :
    ((t.setCopy ip d).view ip).ptr sb c = (t.view ip).ptr sb c := by
  have hview : (t.setCopy ip d).view ip = (t.view ip).setDinode (t.itable ip).inum d := by
    rw [view, setCopy, setInode]
    simp only [update_self]
    exact (@Store.setDinode_setDinode t.store _ _ _).symm
  rw [hview]
  exact Store.ptr_setDinode (by rw [view_self, ha]) (by rw [view_self, ht]) c

theorem Wrote.extends (h : Wrote sb D ip src rest off tot s t) {hi : Nat} (hfill : FilledIn sb ip off hi s t)
    {st st' : Store} (hs : st = s.view ip) (ht : ∀ c, st'.ptr sb c = (t.view ip).ptr sb c) :
    Extends sb (s.itable ip).inum off tot hi st st' := by
  subst hs
  refine ⟨fun c hc => ?_, fun c hc => ?_, fun o h1 h2 => ?_, fun k h0 h1 => ?_⟩
  · rw [ht, h.keep c hc]
  · rw [ht, h.other c hc]
  · rw [ht]
    exact h.there o h1 h2
  · rw [ht] at h1
    exact hfill k h0 h1

theorem Wrote.updated (h : Wrote sb D ip src rest off tot s t) (hs : Ready sb D ip s)
    (hclean : s.store.dinode (s.itable ip).inum = (s.itable ip).copy)
    (hoff : off ≤ (s.itable ip).copy.size) {u : Fs}
    (hu : u = t.setCopy ip (if (t.itable ip).copy.size < off + tot
      then { (t.itable ip).copy with size := off + tot } else (t.itable ip).copy))
    (tr : Option (List Nat)) :
    Written sb D ip src rest off tot s { u with store := u.view ip, trans := tr } := by
  obtain ⟨addrs, ha⟩ := h.self
  set d : Dinode := { (s.itable ip).copy with
    addrs := addrs, size := max (s.itable ip).copy.size (off + tot) } with hd
  have hself : u.itable ip = { s.itable ip with copy := d } := by
    rw [hu]
    refine (update_self ..).trans ?_
    rw [ha, hd]
    simp only
    split_ifs with hc
    · rw [Nat.max_eq_right (Nat.le_of_lt hc)]
    · rw [Nat.max_eq_left (by omega)]
  have hothers : ∀ e, e ≠ ip → u.itable e = s.itable e := by
    intro e he
    rw [hu]
    exact (update_of_ne he ..).trans (h.others e he)
  have hcopy : (t.view ip).dinode (s.itable ip).inum = { (s.itable ip).copy with addrs := addrs } := by
    rw [← h.inum, view_self, ha]
  have hview : u.view ip = (t.view ip).setDinode (s.itable ip).inum d := by
    rw [view, hself, view, h.inum, Store.setDinode_setDinode, hu]
    rfl
  have hptr : ∀ c, (u.view ip).ptr sb c = (t.view ip).ptr sb c := by
    intro c
    rw [hview]
    exact Store.ptr_setDinode (by rw [hcopy]) (by rw [hcopy]) c
  have halloc : ∀ j, (u.view ip).Alloc sb j ↔ (t.view ip).Alloc sb j := by
    intro j
    rw [hview]
    exact Store.alloc_setDinode (by rw [hcopy])
  have hbyte : ∀ j o, (u.view ip).byteAt sb j o = (t.view ip).byteAt sb j o := by
    intro j o
    rw [Store.byteAt, hptr, hview]
    rfl
  have hstore : s.view ip = s.store := Store.setDinode_eq hclean
  have hdu : (u.view ip).dinode (s.itable ip).inum = d := by rw [hview, Store.setDinode_self]
  have hsa : s.store.Alloc sb (s.itable ip).inum := hstore ▸ hs.alloc
  refine ⟨hothers, ⟨addrs, hself⟩, ?_, ?_, fun j hj => ?_, ?_, fun o h0 ho => ?_, ?_⟩
  · show update u.store.dinode (u.itable ip).inum _ = _
    rw [hself, hu]
    exact congrArg (update · _ _) h.dinode
  · refine h.own.congr hptr (by rw [hview]; rfl) halloc fun j bn hj hbn => ?_
    by_cases hji : j = (s.itable ip).inum
    · subst hji
      replace hbn : bn * BSIZE < d.size := hdu ▸ hbn
      by_cases hold : bn * BSIZE < (s.itable ip).copy.size
      · have hne := hs.own.noHole _ bn hs.alloc (by rw [view_self]; exact hold)
        rwa [h.keep _ hne]
      · have hmul : bn * BSIZE / BSIZE = bn := Nat.mul_div_cancel _ (by decide)
        have := h.there (bn * BSIZE) (by omega) (by rw [hd] at hbn; simp only at hbn; omega)
        rwa [hmul] at this
    · refine h.own.noHole j bn hj ?_
      rw [hview, Store.setDinode_of_ne hji] at hbn
      exact hbn
  · -- another inode keeps its slots and the blocks in them
    have hdj : (u.view ip).dinode j = s.store.dinode j := by
      rw [hview, Store.setDinode_of_ne hj, view, h.inum, Store.setDinode_of_ne hj, h.dinode]
    refine Store.node_congr (by rw [show (_ : Fs).store.dinode j = s.store.dinode j from hdj]; simp)
      fun hja o ho => ?_
    have hne : s.store.ptr sb (j, slotOf (o / BSIZE)) ≠ 0 :=
      (hstore ▸ hs.own).ptr_ne hja ho
    show (u.view ip).byteAt sb j o = _
    rw [hbyte, Store.byteAt, h.other _ hj]
    exact congrArg (fun b => Block.byte b (o % BSIZE))
      (by rw [← hstore] at hne ⊢; exact h.otherData _ hj (slotOf_ne _) hne)
  · have hta : (u.view ip).Alloc sb (s.itable ip).inum := by
      rw [halloc, ← h.inum]
      exact (h.ready hs).alloc
    refine ⟨fun o => if o < d.size then (u.view ip).byteAt sb (s.itable ip).inum o else 0, ?_,
      fun o h1 h2 => ?_, fun o ho => ?_⟩
    · show (u.view ip).node sb _ = _
      rw [Store.node_of_alloc hta, Store.node_of_alloc hsa, hdu, hclean]
    · have hlt : o < d.size := by
        rw [hd]
        simp only
        omega
      simp only [if_pos hlt, hbyte]
      exact h.written o h1 h2
    · rw [Store.node_of_alloc hsa, hclean]
      simp only [hbyte]
      by_cases hlt : o < (s.itable ip).copy.size
      · rw [if_pos hlt, if_pos hlt, if_pos (by rw [hd]; simp only; omega)]
        have hne : (s.view ip).ptr sb ((s.itable ip).inum, slotOf (o / BSIZE)) ≠ 0 :=
          hs.own.ptr_ne hs.alloc (by rw [view_self]; exact hlt)
        rw [h.kept o hne ho, hstore]
      · rw [if_neg hlt, if_neg hlt, if_neg (by rw [hd]; simp only; omega)]
        rfl
  · rw [← hstore] at h0 ⊢
    show (u.view ip).byteAt sb _ o = _
    rw [hbyte, h.kept o h0 ho]
  · rw [hu]
    exact h.trace

/-- What `writei` has logged. -/
structure WriteLog (sb : Superblock) (ip : Ptr) (off n tot : Nat) (s t : Fs) : Prop where
  logged : LoggedBut sb ip off n tot s t
  only : blockAt sb ip (off + tot) s ≠ 0 → ∀ b ∈ t.trans.getD [], b ∈ s.trans.getD [] ∨
    b = sb.iblock (s.itable ip).inum ∨ (∃ c < sb.size, b = sb.bblock c) ∨ b ∈ slotBlocks sb ip (slots off tot) t

theorem wp_writei (hsb : sb.size < 2 ^ 32)
    (hE : LogFails E ∨ ∃ l, s.trans = some l ∧ l.length + writeCost sb off n ≤ logCapacity sb) (hs : Ready sb D ip s)
    (hclean : s.store.dinode (s.itable ip).inum = (s.itable ip).copy) (src : Nat → Option UInt8)
    {Q : Option Nat → Fs → Prop}
    (hnone : ((s.itable ip).copy.size < off ∨ (off + n) % 2 ^ 32 < off ∨ MAXFILE * BSIZE < off + n) →
      Q none s)
    (hQ : ∀ tot t, off ≤ (s.itable ip).copy.size → off + n ≤ MAXFILE * BSIZE → tot ≤ n → StopsAt off n tot →
      (tot < n → (∀ j < n, (src j).isSome) → OutOfSpace sb ip (off + tot) t) →
      Extends sb (s.itable ip).inum off tot (off + min (tot + 1) n) s.store t.store →
      Written sb D ip src (leftover src off tot (chunk off n tot)) off tot s t → WriteLog sb ip off n tot s t →
      Q (some tot) t) : wp (writei sb ip src off n) Q E s := by
  show wp (if _ then _ else _) Q E s
  rw [wp_ite, wp_ite]
  refine ⟨fun hc => hnone (hc.imp_right .inl), fun hc => ⟨fun hbig => hnone (.inr (.inr hbig)), fun hbig => ?_⟩⟩
  rw [not_or, Nat.not_lt] at hc
  rw [Nat.not_lt] at hbig
  have hroom : Room sb E (nslots off n) s := by
    refine hE.imp_right ?_
    rintro ⟨l, hl, hlen⟩
    unfold writeCost at hlen
    exact ⟨l, hl, by omega⟩
  rw [wp_bind]
  refine wp_writeiLoop hsb (hroom.mono card_slots_le) hs src hbig
    (fun tot t htot hstop h hfill hspace hdone hadds hlogged => ?_) n 0 s (Nat.zero_le n)
    le_rfl (.inl rfl) (Wrote.zero hs.own) (fun k h0 h1 => absurd h0 h1) .refl
  show wp (do
    assign ip fun d => if d.size < off + tot then { d with size := off + tot } else d
    iupdate sb ip
    return some tot) Q E t
  rw [wp_bind, assign, wp_modify, wp_bind]
  set d := if (t.itable ip).copy.size < off + tot then { (t.itable ip).copy with size := off + tot }
    else (t.itable ip).copy with hd
  rw [iupdate, wp_bind, wp_modify, wp_bind]
  refine wp_logWrite_of ?_ fun l hl => ?_
  · exact (hroom.mono card_slots_le).canLog hadds card_slotBlocks_le
  have hstore : s.store = s.view ip := (Store.setDinode_eq hclean).symm
  have haddrs : d.addrs = (t.itable ip).copy.addrs := by
    rw [hd]
    split_ifs <;> rfl
  have htype : d.type = (t.itable ip).copy.type := by
    rw [hd]
    split_ifs <;> rfl
  have hptr : ∀ c, ((t.setCopy ip d).view ip).ptr sb c = (t.view ip).ptr sb c := ptr_view_setCopy haddrs htype
  have hinum : ((t.setCopy ip d).itable ip).inum = (t.itable ip).inum := by
    simp only [setCopy, setInode, update_self]
  set v : Fs := { t.setCopy ip d with
    store := (t.setCopy ip d).view ip
    trans := some (l.insert (sb.iblock ((t.setCopy ip d).itable ip).inum)) } with hv
  have hview : v.view ip = (t.setCopy ip d).view ip := Store.setDinode_eq view_self
  have hblock : blockAt sb ip (off + tot) v = blockAt sb ip (off + tot) t := by
    rw [blockAt, hview, hptr]
    exact congrArg (fun i => (t.view ip).ptr sb (i, _)) hinum
  refine hQ tot v hc.1 hbig htot hstop (fun hlt hmapped => ⟨(hspace hlt hmapped).full, ?_⟩)
    (h.extends hfill hstore hptr) (h.updated hs hclean hc.1 rfl _) ⟨?_, fun h0 b hb => ?_⟩
  · rw [hview, hptr]
    exact hinum ▸ (hspace hlt hmapped).empty
  · replace hl : t.trans = some l := hl
    have hmem : ∀ c ∈ t.trans.getD [], c ∈ v.trans.getD [] := by
      rw [hl]
      exact fun c hc => List.mem_insert_of_mem hc
    have hinode : ∀ i, v.store.dinode i ≠ t.store.dinode i → sb.iblock i ∈ v.trans.getD [] := by
      intro i hi
      obtain rfl : i = ((t.setCopy ip d).itable ip).inum := by
        by_contra hne
        exact hi (update_of_ne hne ..)
      exact List.mem_insert_self
    have hlog : ∀ t' v' : Fs, t'.trans = t.trans → v'.trans = v.trans → v'.store.data = t'.store.data →
        v'.store.bitmap = t'.store.bitmap → v'.store.dinode = v.store.dinode → t'.store.dinode = t.store.dinode →
        Logged sb t' v' := by
      intro t' v' h1 h2 h3 h4 h5 h6
      refine ⟨h1 ▸ h2 ▸ hmem, fun c hc => absurd (congrFun h3 c) hc, fun c hc => absurd (congrFun h4 c) hc,
        fun c hfree hused => ?_, h2 ▸ h5 ▸ h6 ▸ hinode⟩
      rw [h4, hfree] at hused
      cases hused
    refine hlogged.imp (·.trans (hlog _ _ rfl rfl rfl rfl rfl rfl)) ?_
    rintro ⟨hlt, h0, x, hx⟩
    refine ⟨hlt, hblock.symm ▸ h0, x, ?_⟩
    rw [hblock]
    exact hx.trans (hlog _ _ rfl rfl rfl rfl rfl rfl)
  · have hsame : slotBlocks sb ip (slots off tot) t ⊆ slotBlocks sb ip (slots off tot) v :=
      slotBlocks_keep hinum fun c _ => hview ▸ hptr c
    obtain ⟨new, htr, -, hnew⟩ := hdone h0
    rcases List.mem_insert_iff.mp hb with rfl | hb
    · rw [hinum, h.inum]
      exact .inr (.inl rfl)
    · cases hst : s.trans with
      | none =>
        rw [hst, show t.trans = some l from hl] at htr
        cases htr
      | some l₀ =>
        rw [hst, show t.trans = some l from hl] at htr
        obtain rfl := Option.some.inj htr
        rcases List.mem_append.mp hb with hb | hb
        · rcases hnew b hb with hX | ⟨c, -, hc⟩
          · exact .inr (.inr (.inr (hsame hX)))
          · exact .inr (.inr (.inl ⟨c, hc⟩))
        · exact .inl hb

end

end Xv6.Fs

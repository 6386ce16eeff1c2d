import Xv6.Fs.Blocks
import Xv6.Fs.Journal
import Xv6.Fs.Own

/-!
# Allocation of blocks

The specifications of `balloc`, `bfree` and `bmap`. While an inode is locked its copy may be ahead of the
disk; `view` is the disk as it will be after `iupdate`, and what `bmap` keeps is `Own` of this view.
-/

namespace Xv6.Fs

open Function Wp

variable {sb : Superblock} {D : Nat → Prop} {s t : Fs} {ip : Ptr} {E : Panic → Prop} {Q : Nat → Fs → Prop}

/-- The disk after `iupdate(ip)`. -/
def view (s : Fs) (ip : Ptr) : Store := s.store.setDinode (s.itable ip).inum (s.itable ip).copy

theorem wp_balloc {s₀ : Fs} {X : Finset Nat} {k : Nat} (hE : Room sb E k s₀) (hj : Journal sb X s₀ s)
    (hX : X.card < k) (hfull : (∀ b < sb.size, s.store.bitmap b = true) → Q 0 s)
    (hfree : ∀ b tr, b < sb.size → s.store.bitmap b = false →
      Journal sb (insert b X) s₀ { s with store := s.store.take b, trans := tr } →
      Q b { s with store := s.store.take b, trans := tr }) : wp (balloc sb) Q E s := by
  rw [balloc, wp_bind, wp_get]
  cases hf : (List.range sb.size).find? fun b => !s.store.bitmap b with
  | none =>
    refine hfull fun b hb => ?_
    have := List.find?_eq_none.mp hf b (List.mem_range.mpr hb)
    simpa using this
  | some b =>
    have hb : b < sb.size := List.mem_range.mp (List.mem_of_find?_eq_some hf)
    have hbit : s.store.bitmap b = false := by simpa using List.find?_some hf
    have hcard : (insert b X).card ≤ k := (Finset.card_insert_le _ _).trans hX
    have hadds := hj.adds.mono (Finset.subset_insert b X)
    show wp (do setBit b true; logWrite sb (sb.bblock b); bzero sb b; return b) Q E s
    rw [wp_bind, setBit, wp_modify, wp_bind]
    refine wp_logWrite_of ?_ fun l hl => ?_
    · exact hE.canLog hadds hcard
    replace hl : s.trans = some l := hl
    rw [wp_bind, bzero, wp_bind, setData]
    have hadds' := hadds.insert (.inr ⟨b, Finset.mem_insert_self _ _, hb, rfl⟩)
    rw [hl] at hadds'
    refine wp_logWrite_of ?_ fun l' hl' => hfree b _ hb hbit ⟨?_, hj.logged.trans ?_⟩
    · exact hE.canLog hadds' hcard
    all_goals obtain rfl : l.insert (sb.bblock b) = l' := Option.some.inj hl'
    · exact hadds'.insert (.inl (Finset.mem_insert_self _ _))
    · have hold : ∀ c ∈ s.trans.getD [], c ∈ (l.insert (sb.bblock b)).insert b := by
        rw [hl]
        exact fun c hc => List.mem_insert_of_mem (List.mem_insert_of_mem hc)
      have hself : ∀ c, s.store.bitmap c ≠ update s.store.bitmap b true c → c = b := fun c hc => by
        by_contra hne
        exact hc (update_of_ne hne ..).symm
      refine ⟨hold, fun c hc => ?_, fun c hc => ?_, fun c hclear hset => ?_, fun i hi => absurd rfl hi⟩
      · obtain rfl : c = b := by
          by_contra hne
          exact hc (update_of_ne hne ..)
        exact List.mem_insert_self
      · rw [hself c hc.symm]
        exact List.mem_insert_of_mem List.mem_insert_self
      · have hne : s.store.bitmap c ≠ update s.store.bitmap b true c := fun heq =>
          absurd (hclear.symm.trans (heq.trans hset)) Bool.false_ne_true
        rw [hself c hne]
        exact List.mem_insert_self

theorem wp_bfree (hE : LogFails E) {b : Nat} (hb : s.store.bitmap b = true) {Q : Unit → Fs → Prop}
    (h : ∀ tr, Q () { s with
      store := { s.store with bitmap := update s.store.bitmap b false }, trans := tr }) :
    wp (bfree sb b) Q E s := by
  rw [bfree, wp_bind, wp_get, hb]
  show wp (do setBit b false; logWrite sb (sb.bblock b)) Q E s
  rw [wp_bind, setBit]
  exact wp_logWrite hE fun tr => h tr

theorem wp_iupdate (hE : LogFails E) {Q : Unit → Fs → Prop}
    (h : ∀ tr, Q () { s with store := s.view ip, trans := tr }) : wp (iupdate sb ip) Q E s := by
  rw [iupdate, wp_bind, wp_modify, wp_bind]
  exact wp_logWrite hE fun tr => h tr

/-- The copy of the inode is that of an allocated inode, and the blocks are owned. -/
structure Ready (sb : Superblock) (D : Nat → Prop) (ip : Ptr) (s : Fs) : Prop where
  lt : (s.itable ip).inum < sb.ninodes
  type : (s.itable ip).copy.type ≠ .free
  own : Own sb D (s.view ip)

/-- Blocks are added to the inode of `ip`, and nothing else is changed. -/
structure Grew (sb : Superblock) (D : Nat → Prop) (ip : Ptr) (s t : Fs) : Prop where
  others : ∀ e, e ≠ ip → t.itable e = s.itable e
  self : ∃ addrs, t.itable ip =
    { s.itable ip with copy := { (s.itable ip).copy with addrs := addrs } }
  dinode : t.store.dinode = s.store.dinode
  own : Own sb D (t.view ip)
  keep : ∀ c, (s.view ip).ptr sb c ≠ 0 → (t.view ip).ptr sb c = (s.view ip).ptr sb c
  other : ∀ c, c.1 ≠ (s.itable ip).inum → (t.view ip).ptr sb c = (s.view ip).ptr sb c
  data : ∀ c, c.2 ≠ NDIRECT → (s.view ip).ptr sb c ≠ 0 →
    t.store.data ((s.view ip).ptr sb c) = s.store.data ((s.view ip).ptr sb c)
  trace : t.trace = s.trace

theorem Ready.alloc (h : Ready sb D ip s) : (s.view ip).Alloc sb (s.itable ip).inum := by
  refine ⟨h.lt, ?_⟩
  rw [view, Store.setDinode_self]
  exact h.type

theorem view_self : (s.view ip).dinode (s.itable ip).inum = (s.itable ip).copy := Store.setDinode_self

theorem Grew.refl (h : Own sb D (s.view ip)) : Grew sb D ip s s :=
  ⟨fun _ _ => rfl, ⟨_, rfl⟩, rfl, h, fun _ _ => rfl, fun _ _ => rfl, fun _ _ _ => rfl, rfl⟩

theorem Grew.inum (h : Grew sb D ip s t) : (t.itable ip).inum = (s.itable ip).inum := by
  obtain ⟨addrs, ha⟩ := h.self
  rw [ha]

theorem Grew.ready (h : Grew sb D ip s t) (hs : Ready sb D ip s) : Ready sb D ip t := by
  obtain ⟨addrs, ha⟩ := h.self
  refine ⟨h.inum ▸ hs.lt, ?_, h.own⟩
  rw [ha]
  exact hs.type

theorem Grew.trans {u : Fs} (h : Grew sb D ip s t) (h' : Grew sb D ip t u) : Grew sb D ip s u where
  others e he := (h'.others e he).trans (h.others e he)
  self := by
    obtain ⟨a, ha⟩ := h.self
    obtain ⟨a', ha'⟩ := h'.self
    exact ⟨a', by rw [ha', ha]⟩
  dinode := h'.dinode.trans h.dinode
  own := h'.own
  keep c hc := by
    have := h.keep c hc
    exact (h'.keep c (this.symm ▸ hc)).trans this
  other c hc := (h'.other c (h.inum.symm ▸ hc)).trans (h.other c hc)
  data c hc h0 := by
    have hk := h.keep c h0
    have := h'.data c hc (hk.symm ▸ h0)
    rw [hk] at this
    exact this.trans (h.data c hc h0)
  trace := h'.trace.trans h.trace

/-- The blocks in slots in `S` of the inode of `ip`. -/
def slotBlocks (sb : Superblock) (ip : Ptr) (S : Finset Nat) (s : Fs) : Finset Nat :=
  (S.image fun k => (s.view ip).ptr sb ((s.itable ip).inum, k)).erase 0

section

variable {S S' : Finset Nat} {k : Nat}

theorem mem_slotBlocks (hk : k ∈ S) (h0 : (s.view ip).ptr sb ((s.itable ip).inum, k) ≠ 0) :
    (s.view ip).ptr sb ((s.itable ip).inum, k) ∈ slotBlocks sb ip S s :=
  Finset.mem_erase.mpr ⟨h0, Finset.mem_image_of_mem _ hk⟩

theorem card_slotBlocks_le : (slotBlocks sb ip S s).card ≤ S.card :=
  (Finset.card_le_card (Finset.erase_subset _ _)).trans Finset.card_image_le

theorem card_slotBlocks_lt (hk : k ∈ S) (h0 : (s.view ip).ptr sb ((s.itable ip).inum, k) = 0) :
    (slotBlocks sb ip S s).card < S.card :=
  (Finset.card_erase_lt_of_mem (Finset.mem_image.mpr ⟨k, hk, h0⟩)).trans_le Finset.card_image_le

theorem slotBlocks_mono (h : S ⊆ S') : slotBlocks sb ip S s ⊆ slotBlocks sb ip S' s :=
  Finset.erase_subset_erase _ (Finset.image_subset_image h)

theorem slotBlocks_keep (hinum : (t.itable ip).inum = (s.itable ip).inum)
    (hkeep : ∀ c, (s.view ip).ptr sb c ≠ 0 → (t.view ip).ptr sb c = (s.view ip).ptr sb c) :
    slotBlocks sb ip S s ⊆ slotBlocks sb ip S t := by
  intro b hb
  obtain ⟨h0, hb⟩ := Finset.mem_erase.mp hb
  obtain ⟨k, hk, rfl⟩ := Finset.mem_image.mp hb
  refine Finset.mem_erase.mpr ⟨h0, Finset.mem_image.mpr ⟨k, hk, ?_⟩⟩
  rw [hinum, hkeep _ h0]

theorem Grew.slotBlocks (h : Grew sb D ip s t) : slotBlocks sb ip S s ⊆ Fs.slotBlocks sb ip S t :=
  slotBlocks_keep h.inum h.keep

/-- A slot in `S` has been filled with the block `b`. -/
theorem Grew.insert_slotBlocks (h : Grew sb D ip s t) (hk : k ∈ S) {b : Nat} (hb0 : b ≠ 0)
    (hb : (t.view ip).ptr sb ((s.itable ip).inum, k) = b) :
    insert b (Fs.slotBlocks sb ip S s) ⊆ Fs.slotBlocks sb ip S t := by
  refine Finset.insert_subset ?_ h.slotBlocks
  rw [← h.inum] at hb
  rw [← hb] at hb0 ⊢
  exact mem_slotBlocks hk hb0

end

theorem view_setAddr {b : Nat} {k : Fin (NDIRECT + 1)} (tr : Option (List Nat)) :
    (({ s with store := s.store.take b, trans := tr } : Fs).setCopy ip
      { (s.itable ip).copy with addrs := update (s.itable ip).copy.addrs k b }).view ip =
    ((s.view ip).take b).setDinode (s.itable ip).inum
      { (s.view ip).dinode (s.itable ip).inum with
        addrs := update ((s.view ip).dinode (s.itable ip).inum).addrs k b } := by
  rw [view_self, view, setCopy, setInode]
  simp only [update_self]
  exact (@Store.setDinode_setDinode (s.store.take b) _ _ _).symm

theorem ptr_view_setAddr (h : Ready sb D ip s) {b : Nat} (hfree : s.store.bitmap b = false)
    {k : Fin (NDIRECT + 1)} (hk : (s.itable ip).copy.addrs k = 0) (tr : Option (List Nat)) (c : Nat × Nat) :
    ((({ s with store := s.store.take b, trans := tr } : Fs).setCopy ip
      { (s.itable ip).copy with addrs := update (s.itable ip).copy.addrs k b }).view ip).ptr sb c =
    if c = ((s.itable ip).inum, k.val) then b else (s.view ip).ptr sb c := by
  rw [view_setAddr]
  exact h.own.ptr_setAddr hfree h.alloc (by rw [view_self, hk]) rfl c

theorem grew_setAddr (h : Ready sb D ip s) {b : Nat} (hb : b < sb.size) (hfree : s.store.bitmap b = false)
    {k : Fin (NDIRECT + 1)} (hk : (s.itable ip).copy.addrs k = 0) (tr : Option (List Nat)) :
    Grew sb D ip s (({ s with store := s.store.take b, trans := tr } : Fs).setCopy ip
      { (s.itable ip).copy with addrs := update (s.itable ip).copy.addrs k b }) := by
  have hview := @view_setAddr s ip b k tr
  have hptr := ptr_view_setAddr h hfree hk tr
  set t := ({ s with store := s.store.take b, trans := tr } : Fs).setCopy ip
    { (s.itable ip).copy with addrs := update (s.itable ip).copy.addrs k b } with ht
  have hself : t.itable ip = { s.itable ip with
      copy := { (s.itable ip).copy with addrs := update (s.itable ip).copy.addrs k b } } :=
    update_self ..
  have h0 : (s.view ip).ptr sb ((s.itable ip).inum, k.val) = 0 := by
    rw [Store.ptr_of_alloc h.alloc, Dinode.slot_of_lt k.isLt, view_self]
    exact hk
  have hdinode : ∀ j, ((t.view ip).dinode j).type = ((s.view ip).dinode j).type ∧
      ((t.view ip).dinode j).size = ((s.view ip).dinode j).size := by
    intro j
    rw [hview]
    by_cases hj : j = (s.itable ip).inum
    · subst hj
      rw [Store.setDinode_self]
      exact ⟨rfl, rfl⟩
    · rw [Store.setDinode_of_ne hj]
      exact ⟨rfl, rfl⟩
  refine ⟨fun e he => update_of_ne he .., ⟨_, hself⟩, rfl, ?_, fun c hc => ?_, fun c hc => ?_,
    fun c _ hc => h.own.take_data hfree hc, rfl⟩
  · refine h.own.record hfree hb h0 ((hptr _).trans (if_pos rfl)) (fun c hc => (hptr c).trans (if_neg hc))
      ?_ (fun j => ?_) fun j => (hdinode j).2
    · rw [hview]
      rfl
    · unfold Store.Alloc
      rw [(hdinode j).1]
  · rw [hptr, if_neg]
    rintro rfl
    exact hc h0
  · rw [hptr, if_neg]
    rintro rfl
    exact hc rfl

def OnlySlots (sb : Superblock) (ip : Ptr) (S : Nat → Prop) (s t : Fs) : Prop :=
  ∀ k, ¬ S k → (t.view ip).ptr sb ((s.itable ip).inum, k) = (s.view ip).ptr sb ((s.itable ip).inum, k)

theorem OnlySlots.refl {S : Nat → Prop} : OnlySlots sb ip S s s := fun _ _ => rfl

/-- The slots that `bmap` fills for the block `bn`. -/
def BmapSlot (bn k : Nat) : Prop := k = slotOf bn ∨ k = NDIRECT ∧ NDIRECT ≤ bn

def Full (sb : Superblock) (s : Fs) : Prop := ∀ b < sb.size, s.store.bitmap b = true

theorem Ready.ptr_eq (h : Ready sb D ip s) (k : Nat) :
    (s.view ip).ptr sb ((s.itable ip).inum, k) = (s.itable ip).copy.slot s.store.data k := by
  rw [Store.ptr_of_alloc h.alloc, view_self]
  rfl

theorem wp_addrOrAlloc {s₀ : Fs} {S : Finset Nat} (hE : Room sb E S.card s₀) (h : Ready sb D ip s)
    (hj : Journal sb (slotBlocks sb ip S s) s₀ s) (k : Fin (NDIRECT + 1)) (hk : k.val ∈ S)
    (hQ : ∀ r t, Grew sb D ip s t → Journal sb (slotBlocks sb ip S t) s₀ t → r = (t.itable ip).copy.addrs k →
      ((s.itable ip).copy.addrs k ≠ 0 → t = s) → (r = 0 → t.Full sb) →
      OnlySlots sb ip (· = k.val) s t → Q r t) :
    wp (addrOrAlloc sb ip k) Q E s := by
  show wp (do
    let d ← copyOf ip
    if d.addrs k = 0 then do
      let addr ← balloc sb
      if addr = 0 then return 0 else do setAddr ip k addr; return addr
    else return d.addrs k) Q E s
  show wp (if (s.itable ip).copy.addrs k = 0 then _ else _) Q E s
  rw [wp_ite]
  refine ⟨fun h0 => ?_, fun h0 => hQ _ s (Grew.refl h.own) hj rfl (fun _ => rfl) (fun h1 => absurd h1 h0) .refl⟩
  have hptr : (s.view ip).ptr sb ((s.itable ip).inum, k.val) = 0 := by
    rw [h.ptr_eq, Dinode.slot_of_lt k.isLt, h0]
  rw [wp_bind]
  refine wp_balloc hE hj (card_slotBlocks_lt hk hptr) (fun hfull => ?_) fun b tr hb hfree hj' => ?_
  · rw [if_pos rfl]
    exact hQ 0 s (Grew.refl h.own) hj h0.symm (fun _ => rfl) (fun _ => hfull) .refl
  · have hb0 : b ≠ 0 := h.own.ne_zero_of_free hfree hb
    have hg := grew_setAddr h hb hfree h0 tr
    rw [if_neg hb0, wp_bind, setAddr, assign]
    refine hQ b _ hg ?_ ?_ (fun h1 => absurd h0 h1) (fun h1 => absurd h1 hb0) fun j hjk => ?_
    · have hself := (ptr_view_setAddr h hfree h0 tr ((s.itable ip).inum, k.val)).trans (if_pos rfl)
      exact Journal.of_eq (hj'.mono (hg.insert_slotBlocks hk hb0 hself)) rfl rfl
    · simp only [setCopy, setInode, update_self]
    · refine (ptr_view_setAddr h hfree h0 tr _).trans (if_neg fun heq => hjk ?_)
      exact congrArg Prod.snd heq

theorem ptr_view_setEntry (hsb : sb.size < 2 ^ 32) (h : Ready sb D ip s) {b : Nat} (hb : b < sb.size)
    (hfree : s.store.bitmap b = false) {ind j : Nat}
    (hind : (s.itable ip).copy.addrs (Fin.last NDIRECT) = ind) (hind0 : ind ≠ 0) (hj : j < NINDIRECT)
    (tr : Option (List Nat)) (c : Nat × Nat) :
    (({ s with store := (s.store.take b).setEntry ind j b, trans := tr } : Fs).view ip).ptr sb c =
      if c = ((s.itable ip).inum, NDIRECT + 1 + j) then b else (s.view ip).ptr sb c := by
  have hlast : ((s.view ip).dinode (s.itable ip).inum).addrs (Fin.last NDIRECT) = ind := by
    rw [view_self, hind]
  have hview : ({ s with store := (s.store.take b).setEntry ind j b, trans := tr } : Fs).view ip =
      ((s.view ip).take b).setEntry
        (((s.view ip).dinode (s.itable ip).inum).addrs (Fin.last NDIRECT)) j b := by
    rw [hlast]
    rfl
  rw [hview]
  exact h.own.ptr_setEntry hfree (hb.trans hsb) h.alloc (hlast.symm ▸ hind0) hj c

theorem grew_setEntry (hsb : sb.size < 2 ^ 32) (h : Ready sb D ip s) {b : Nat} (hb : b < sb.size)
    (hfree : s.store.bitmap b = false) {ind j : Nat}
    (hind : (s.itable ip).copy.addrs (Fin.last NDIRECT) = ind) (hind0 : ind ≠ 0) (hj : j < NINDIRECT)
    (h0 : (s.view ip).ptr sb ((s.itable ip).inum, NDIRECT + 1 + j) = 0) (tr : Option (List Nat)) :
    Grew sb D ip s { s with store := (s.store.take b).setEntry ind j b, trans := tr } ∧
      (({ s with store := (s.store.take b).setEntry ind j b, trans := tr } : Fs).view ip).ptr sb
        ((s.itable ip).inum, NDIRECT + 1 + j) = b := by
  have hptr := ptr_view_setEntry hsb h hb hfree hind hind0 hj tr
  have hptrind : (s.view ip).ptr sb ((s.itable ip).inum, NDIRECT) = ind := by
    rw [Store.ptr_of_alloc h.alloc, Dinode.slot_last, view_self, hind]
  refine ⟨⟨fun _ _ => rfl, ⟨_, rfl⟩, rfl, ?_, fun c hc => ?_, fun c hc => ?_, fun c hc hc0 => ?_, rfl⟩,
    (hptr _).trans (if_pos rfl)⟩
  · exact h.own.record hfree hb h0 ((hptr _).trans (if_pos rfl)) (fun c hc => (hptr c).trans (if_neg hc))
      rfl (fun _ => Iff.rfl) fun _ => rfl
  · rw [hptr, if_neg]
    rintro rfl
    exact hc h0
  · rw [hptr, if_neg]
    rintro rfl
    exact hc rfl
  · -- the block is not the indirect block
    have hne : (s.view ip).ptr sb c ≠ ind := fun heq => hc
      (congrArg Prod.snd (h.own.owns.inj c ((s.itable ip).inum, NDIRECT) hc0 (heq.trans hptrind.symm)))
    exact (update_of_ne hne ..).trans (h.own.take_data hfree hc0)

/-- `bmap` returns what is in the slot afterwards, and changes nothing if the slot was full; it returns 0
only if no block is free. -/
theorem wp_bmap (hsb : sb.size < 2 ^ 32) {s₀ : Fs} {S : Finset Nat} (hE : Room sb E S.card s₀)
    (h : Ready sb D ip s) (hj : Journal sb (slotBlocks sb ip S s) s₀ s) {bn : Nat} (hbn : bn < MAXFILE)
    (hS : ∀ k, BmapSlot bn k → k ∈ S)
    (hQ : ∀ r t, Grew sb D ip s t → Journal sb (slotBlocks sb ip S t) s₀ t →
      r = (t.view ip).ptr sb ((s.itable ip).inum, slotOf bn) →
      ((s.view ip).ptr sb ((s.itable ip).inum, slotOf bn) ≠ 0 → t = s) → (r = 0 → t.Full sb) →
      OnlySlots sb ip (BmapSlot bn) s t → Q r t) :
    wp (bmap sb ip bn) Q E s := by
  unfold bmap
  by_cases hd : bn < NDIRECT
  · -- a direct block
    have hslot : slotOf bn = bn := if_pos hd
    rw [dif_pos hd]
    refine wp_addrOrAlloc hE h hj _ (hS _ (.inl hslot.symm)) fun r t hg hj' hr hsame hfull honly =>
      hQ r t hg hj' ?_ (fun h0 => hsame ?_) hfull fun k hk => honly k fun hkbn => hk (.inl (hkbn.trans hslot.symm))
    · rw [hslot, ← hg.inum, (hg.ready h).ptr_eq, Dinode.slot_of_lt (by omega), hr]
    · rwa [hslot, h.ptr_eq, Dinode.slot_of_lt (by omega)] at h0
  have hn : bn - NDIRECT < NINDIRECT := by
    unfold MAXFILE at hbn
    omega
  rw [dif_neg hd, if_pos hn]
  have hslot : slotOf bn = NDIRECT + 1 + (bn - NDIRECT) := by
    rw [slotOf, if_neg hd]
    omega
  have hlast : NDIRECT ∈ S := hS _ (.inr ⟨rfl, Nat.le_of_not_lt hd⟩)
  rw [wp_bind]
  refine wp_addrOrAlloc hE h hj _ hlast fun ind t hg hj' hind hsame hfull honly => ?_
  have hslots : OnlySlots sb ip (BmapSlot bn) s t := fun k hk =>
    honly k fun hkn => hk (.inr ⟨hkn, Nat.le_of_not_lt hd⟩)
  have ht := hg.ready h
  rw [wp_ite]
  refine ⟨fun hind0 => ?_, fun hind0 => ?_⟩
  · -- no indirect block, and no space for one
    refine hQ 0 t hg hj' ?_ (fun h0 => hsame fun h1 => h0 ?_) (fun _ => hfull hind0) hslots
    · rw [← hg.inum, ht.ptr_eq, Dinode.slot_of_last_eq_zero (by omega) (hind.symm.trans hind0)]
    · rw [h.ptr_eq, Dinode.slot_of_last_eq_zero (by omega) h1]
  have hentry : (t.view ip).ptr sb ((s.itable ip).inum, slotOf bn) =
      ((t.store.data ind).getUint (4 * (bn - NDIRECT))).toNat := by
    rw [← hg.inum, ht.ptr_eq, Dinode.slot_of_ge (by omega) (by unfold NSLOT; omega)
      (hind ▸ hind0), ← hind]
    congr 3
    omega
  rw [wp_bind, wp_get, wp_ite]
  refine ⟨fun h0 => ?_, fun h0 => ?_⟩
  · rw [h0] at hentry
    have hempty : ∀ h1 : (s.view ip).ptr sb ((s.itable ip).inum, slotOf bn) ≠ 0, False := fun h1 =>
      h1 ((hg.keep _ h1).symm.trans hentry)
    have hmem : slotOf bn ∈ S := hS _ (.inl rfl)
    rw [wp_bind]
    refine wp_balloc hE hj' (card_slotBlocks_lt hmem (hg.inum ▸ hentry)) (fun hall => ?_)
      fun b tr hb hfree hj'' => ?_
    · rw [if_pos rfl]
      exact hQ 0 t hg hj' hentry.symm (fun h1 => (hempty h1).elim) (fun _ => hall) hslots
    · have hb0 : b ≠ 0 := ht.own.ne_zero_of_free hfree hb
      have hcard := (Finset.card_insert_le b _).trans (card_slotBlocks_lt hmem (hg.inum ▸ hentry))
      have hindS : ind ∈ slotBlocks sb ip S t := by
        have hptr := ht.ptr_eq NDIRECT
        rw [Dinode.slot_last, ← hind] at hptr
        exact hptr ▸ mem_slotBlocks hlast (hptr ▸ hind0)
      rw [if_neg hb0, wp_bind, wp_get, wp_bind, setData, wp_modify, wp_bind]
      refine hj''.wp_logWrite hE hcard (Finset.mem_insert_of_mem hindS) fun tr' hlog => ?_
      rw [hslot, ← hg.inum] at hentry
      obtain ⟨hg', hself⟩ := grew_setEntry hsb ht hb hfree hind.symm hind0 hn hentry tr'
      refine hQ b _ (hg.trans hg') (hlog.mono (hg'.insert_slotBlocks (hslot ▸ hmem) hb0 hself)) ?_
        (fun h1 => (hempty h1).elim) (fun h1 => absurd h1 hb0) fun k hk => ?_
      · rw [hslot, ← hg.inum]
        exact hself.symm
      · rw [← hslots k hk]
        refine (ptr_view_setEntry hsb ht hb hfree hind.symm hind0 hn tr' _).trans (if_neg fun heq => hk ?_)
        exact .inl ((congrArg Prod.snd heq).trans hslot.symm)
  · refine hQ _ t hg hj' hentry.symm (fun h1 => hsame fun h2 => h1 ?_) (fun h1 => absurd h1 h0) hslots
    rw [h.ptr_eq, Dinode.slot_of_last_eq_zero (by omega) h2]

/-- `bmap` of a block that the inode has. It writes nothing, so no panic is possible. -/
theorem wp_bmap_of_ne (h : Ready sb D ip s) {bn : Nat}
    (h0 : (s.view ip).ptr sb ((s.itable ip).inum, slotOf bn) ≠ 0)
    (hQ : Q ((s.view ip).ptr sb ((s.itable ip).inum, slotOf bn)) s) : wp (bmap sb ip bn) Q E s := by
  have haddr : ∀ k : Fin (NDIRECT + 1), (s.itable ip).copy.addrs k ≠ 0 → ∀ R : Nat → Fs → Prop,
      R ((s.itable ip).copy.addrs k) s → wp (addrOrAlloc sb ip k) R E s := by
    intro k hk R hR
    show wp (do
      let d ← copyOf ip
      if d.addrs k = 0 then do
        let addr ← balloc sb
        if addr = 0 then return 0 else do setAddr ip k addr; return addr
      else return d.addrs k) R E s
    show wp (if (s.itable ip).copy.addrs k = 0 then _ else _) R E s
    rw [if_neg hk]
    exact hR
  rw [h.ptr_eq] at h0 hQ
  unfold bmap
  by_cases hd : bn < NDIRECT
  · have hslot : slotOf bn = bn := if_pos hd
    rw [hslot, Dinode.slot_of_lt (by omega)] at h0 hQ
    rw [dif_pos hd]
    exact haddr _ h0 Q hQ
  · have hslot : slotOf bn = NDIRECT + 1 + (bn - NDIRECT) := by
      rw [slotOf, if_neg hd]
      omega
    have hlast : (s.itable ip).copy.addrs (Fin.last NDIRECT) ≠ 0 := by
      intro hz
      rw [Dinode.slot_of_last_eq_zero (by omega) hz] at h0
      exact h0 rfl
    have hn : bn - NDIRECT < NINDIRECT := by
      by_contra hge
      refine h0 (Dinode.slot_of_NSLOT_le ?_)
      unfold NSLOT
      omega
    rw [hslot, Dinode.slot_of_ge (by omega) (by unfold NSLOT; omega) hlast, Nat.add_sub_cancel_left] at h0 hQ
    rw [dif_neg hd, if_pos hn, wp_bind]
    refine haddr _ hlast _ ?_
    rw [if_neg hlast, wp_bind, wp_get, if_neg h0]
    exact hQ

end Xv6.Fs

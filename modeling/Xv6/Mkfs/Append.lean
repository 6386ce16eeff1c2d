import Xv6.Fs.Content
import Xv6.Mkfs.Model

/-!
# What `iappend` does

While `mkfs` runs, the blocks below `freeblock` are those in use, so the free map of the image is taken to
be the one that `balloc` will write. With it `iappend` does to the image what `writei` does to the disk,
except that blocks come from `freeblock` and that a full image ends the run.
-/

namespace Xv6

open Function

namespace Fs

variable {sb : Superblock} {D : Nat → Prop} {s t : Fs} {ip : Ptr} {b : Nat}

theorem Grew.ptr_eq (h : Grew sb D ip s t) (hs : Own sb D (s.view ip))
    (hbits : t.store.bitmap = update s.store.bitmap b true) {c : Nat × Nat}
    (hc : (t.view ip).ptr sb c = b) {c' : Nat × Nat} (hne : c' ≠ c) :
    (t.view ip).ptr sb c' = (s.view ip).ptr sb c' := by
  by_cases h0 : (s.view ip).ptr sb c' = 0
  swap
  · exact h.keep c' h0
  by_contra hdiff
  have h1 : (t.view ip).ptr sb c' ≠ 0 := fun h1 => hdiff (h1.trans h0.symm)
  have hused : t.store.bitmap ((t.view ip).ptr sb c') = true := h.own.owns.isUsed c' h1
  have hneb : (t.view ip).ptr sb c' ≠ b := fun hb => hne (h.own.owns.inj c' c h1 (hb.trans hc.symm))
  rw [hbits, update_of_ne hneb] at hused
  -- the block was in use before, so another slot has it
  obtain ⟨c₁, hc₁⟩ := hs.owns.full _ h1 (h.own.owns.inDom c' h1) hused
  have hkeep := h.keep c₁ (hc₁.symm ▸ h1)
  have heq := h.own.owns.inj c' c₁ h1 (hc₁.symm.trans hkeep.symm)
  exact h1 (hc₁.symm.trans (heq ▸ h0))

end Fs

namespace Mkfs

open Fs Wp

variable {s t : Image} {E : Exit → Prop} {i b : Nat} {d din : Dinode}

theorem nmeta_eq : nmeta = 46 := rfl

theorem bmapstart_eq : sb.bmapstart = 45 := rfl

theorem ninodes_eq : sb.ninodes = 200 := rfl

/-! ## The image as a disk -/

/-- The disk while `mkfs` runs. -/
def Image.store (s : Image) : Store :=
  { s.img.store sb with bitmap := fun b => decide (b < s.freeblock) }

/-- A file system with this disk, and with the inode `i` in memory. -/
def Image.fs (s : Image) (i : Nat) (din : Dinode) : Fs where
  store := s.store
  itable := update (fun _ => ⟨0, 0, false, false, .zero .free⟩) 0 ⟨i, 1, true, true, din⟩
  trans := none
  trace := []

theorem Image.fs_self : (s.fs i din).itable 0 = ⟨i, 1, true, true, din⟩ := by
  simp only [Image.fs, update_self]

theorem Image.fs_view : (s.fs i din).view 0 = s.store.setDinode i din := by
  rfl

theorem Image.fs_setCopy : (s.fs i din).setCopy 0 d = s.fs i d := by
  simp only [Fs.setCopy, Fs.setInode, Image.fs, update_idem, update_self]

theorem iblock_lt (hi : i < sb.ninodes) : sb.iblock i < sb.bmapstart := by
  have : i < 200 := hi
  show i / 16 + 32 < 45
  omega

theorem Image.store_dinode (hi : sb.iblock i < sb.bmapstart) :
    s.store.dinode i = (s.img (sb.iblock i)).dinode (i % IPB * 64) := if_pos hi

theorem Image.write_self {x : Block} : (s.write b x).img b = x := update_self ..

theorem Image.write_of_ne {c : Nat} {x : Block} (h : c ≠ b) : (s.write b x).img c = s.img c :=
  update_of_ne h ..

theorem Image.store_write_data (hb : nmeta ≤ b) (x : Block) :
    (s.write b x).store = { s.store with data := update s.store.data b x } := by
  have hdinode : (s.write b x).store.dinode = s.store.dinode := by
    funext j
    show (if _ then ((s.write b x).img _).dinode _ else _) = if _ then (s.img _).dinode _ else _
    split_ifs with hj
    · have hne : sb.iblock j ≠ b := by
        rw [nmeta_eq] at hb
        rw [bmapstart_eq] at hj
        omega
      rw [Image.write_of_ne hne]
    · rfl
  have hdata : (s.write b x).store.data = update s.store.data b x := by
    funext c
    by_cases hc : c = b
    · subst hc
      rw [update_self]
      exact (if_pos hb).trans Image.write_self
    · rw [update_of_ne hc]
      show (if _ then (s.write b x).img c else _) = if _ then s.img c else _
      rw [Image.write_of_ne hc]
  exact congrArg₂ (fun dn da => (⟨fun b => decide (b < s.freeblock), dn, da⟩ : Store)) hdinode hdata

theorem Image.store_write_inode (hi : sb.iblock i < sb.bmapstart) (hd : d.Fits) :
    (s.write (sb.iblock i) ((s.img (sb.iblock i)).setDinode (i % IPB * 64) d)).store =
      s.store.setDinode i d := by
  set x := (s.img (sb.iblock i)).setDinode (i % IPB * 64) d with hx
  have hoff : ∀ j, j % IPB * 64 + 64 ≤ BSIZE := fun j => by
    show j % 16 * 64 + 64 ≤ 1024
    omega
  have hdinode : (s.write (sb.iblock i) x).store.dinode = update s.store.dinode i d := by
    funext j
    by_cases hji : j = i
    · subst hji
      rw [update_self, Image.store_dinode hi, Image.write_self,
        Block.dinode_setDinode (hoff j) hd]
    · rw [update_of_ne hji]
      show (if _ then ((s.write (sb.iblock i) x).img _).dinode _ else _) =
        if _ then (s.img _).dinode _ else _
      split_ifs with hj
      · by_cases hb : sb.iblock j = sb.iblock i
        · -- another inode of the same block
          have hdiv : j / 16 + 32 = i / 16 + 32 := hb
          have hdis : j % IPB * 64 + 64 ≤ i % IPB * 64 ∨ i % IPB * 64 + 64 ≤ j % IPB * 64 := by
            show j % 16 * 64 + 64 ≤ i % 16 * 64 ∨ i % 16 * 64 + 64 ≤ j % 16 * 64
            omega
          rw [hb, Image.write_self,
            Block.dinode_setDinode_of_disjoint (hoff j) hdis]
        · rw [Image.write_of_ne hb]
      · rfl
  have hdata : (s.write (sb.iblock i) x).store.data = s.store.data := by
    funext c
    show (if _ then (s.write (sb.iblock i) x).img c else _) = if _ then s.img c else _
    split_ifs with hc
    · have hne : c ≠ sb.iblock i := by
        rw [bmapstart_eq] at hi
        have : 46 ≤ c := hc
        omega
      rw [Image.write_of_ne hne]
    · rfl
  exact congrArg₂ (fun dn da => (⟨fun b => decide (b < s.freeblock), dn, da⟩ : Store)) hdinode hdata

/-! ## Taking blocks -/

/-- The blocks from `freeblock` on are zero. -/
structure Image.Ok (s : Image) : Prop where
  len : s.len = FSSIZE
  lo : nmeta ≤ s.freeblock
  hi : s.freeblock ≤ FSSIZE
  zero : ∀ b, s.freeblock ≤ b → s.img b = .zero

/-- Data blocks have been taken and written. -/
structure Kept (s t : Image) : Prop where
  freeinode : t.freeinode = s.freeinode
  metas : ∀ b < nmeta, t.img b = s.img b
  freeblock : s.freeblock ≤ t.freeblock

theorem Kept.refl : Kept s s := ⟨rfl, fun _ _ => rfl, Nat.le_refl _⟩

theorem Kept.trans {u : Image} (h : Kept s t) (h' : Kept t u) : Kept s u :=
  ⟨h'.freeinode.trans h.freeinode, fun b hb => (h'.metas b hb).trans (h.metas b hb),
    h.freeblock.trans h'.freeblock⟩

theorem Image.Ok.write (h : s.Ok) (hb : b < s.freeblock) (x : Block) : (s.write b x).Ok := by
  refine ⟨?_, h.lo, h.hi, fun c hc => ?_⟩
  · have := h.len
    have := h.hi
    show max s.len (b + 1) = FSSIZE
    omega
  · have hne : c ≠ b := by
      have : s.freeblock ≤ c := hc
      omega
    exact (Image.write_of_ne hne).trans (h.zero c hc)

theorem Kept.write (hb : nmeta ≤ b) (x : Block) : Kept s (s.write b x) :=
  ⟨rfl, fun _ hc => Image.write_of_ne (by omega), Nat.le_refl _⟩

def Image.bump (s : Image) : Image := { s with freeblock := s.freeblock + 1 }

theorem Image.Ok.bump (h : s.Ok) (hlt : s.freeblock < FSSIZE) : s.bump.Ok :=
  ⟨h.len, Nat.le_succ_of_le h.lo, hlt, fun b hb => h.zero b (Nat.le_of_succ_le hb)⟩

theorem Kept.bump : Kept s s.bump := ⟨rfl, fun _ _ => rfl, Nat.le_succ _⟩

theorem Image.Ok.data_zero (h : s.Ok) : s.store.data s.freeblock = .zero := by
  show (if _ then s.img s.freeblock else _) = _
  rw [h.zero _ (Nat.le_refl _), ite_self]

theorem Image.Ok.store_bump (h : s.Ok) : s.bump.store = s.store.take s.freeblock := by
  have hbits : (fun b => decide (b < s.freeblock + 1)) =
      update (fun b => decide (b < s.freeblock)) s.freeblock true := by
    funext b
    by_cases hb : b = s.freeblock
    · rw [hb, update_self, decide_eq_true (Nat.lt_succ_self _)]
    · rw [update_of_ne hb]
      exact decide_eq_decide.mpr (by omega)
  have hdata : s.store.data = update s.store.data s.freeblock .zero :=
    (update_eq_self_iff.mpr h.data_zero.symm).symm
  exact congrArg₂ (fun bm da => (⟨bm, s.store.dinode, da⟩ : Store)) hbits hdata

theorem Image.bitmap_freeblock : s.store.bitmap s.freeblock = false := decide_eq_false (Nat.lt_irrefl _)

/-- `din->addrs[k]` is there afterwards, from a block that was free if it was not there before, or the
image is full. -/
theorem wp_addrOrNext (h : s.Ok) (hr : Ready sb sb.IsData 0 (s.fs i din)) (k : Fin (NDIRECT + 1))
    {Q : Dinode → Image → Prop}
    (hQ : ∀ din' t, t.Ok → Kept s t → t.freeblock ≤ s.freeblock + 1 →
      Grew sb sb.IsData 0 (s.fs i din) (t.fs i din') → din'.addrs k ≠ 0 →
      (∀ c, c ≠ (i, k.val) →
        ((t.fs i din').view 0).ptr sb c = ((s.fs i din).view 0).ptr sb c) → Q din' t)
    (hfull : ∀ din' t, s.freeblock = FSSIZE → t.len = FSSIZE → din'.addrs k = FSSIZE → Q din' t) :
    wp (addrOrNext din k) Q E s := by
  rw [addrOrNext, wp_ite]
  refine ⟨fun h0 => ?_, fun h0 => hQ din s h .refl (Nat.le_succ _) (.refl hr.own) h0 fun _ _ => rfl⟩
  show Q { din with addrs := update din.addrs k s.freeblock } s.bump
  by_cases hlt : s.freeblock < FSSIZE
  swap
  · have heq : s.freeblock = FSSIZE := Nat.le_antisymm h.hi (Nat.not_lt.mp hlt)
    exact hfull _ _ heq h.len ((update_self ..).trans heq)
  have hg := grew_setAddr hr hlt Image.bitmap_freeblock
    (by rw [Image.fs_self]; exact h0) none
  have hfs : (({ s.fs i din with store := (s.fs i din).store.take s.freeblock, trans := none } : Fs).setCopy 0
      { ((s.fs i din).itable 0).copy with
        addrs := update ((s.fs i din).itable 0).copy.addrs k s.freeblock }) =
      s.bump.fs i { din with addrs := update din.addrs k s.freeblock } := by
    simp only [Fs.setCopy, Fs.setInode, Image.fs, update_idem, h.store_bump, update_self]
  rw [hfs] at hg
  have hself : (update din.addrs k s.freeblock) k = s.freeblock := update_self ..
  have hpos : s.freeblock ≠ 0 := by
    have := h.lo
    rw [nmeta_eq] at this
    omega
  refine hQ _ _ (h.bump hlt) .bump (Nat.le_refl _) hg (fun hz => hpos (hself.symm.trans hz)) fun c hc => ?_
  refine hg.ptr_eq hr.own (b := s.freeblock) ?_ ?_ hc
  · show s.bump.store.bitmap = _
    rw [h.store_bump]
    rfl
  · have hi := (hg.ready hr).alloc
    rw [Image.fs_self] at hi
    rw [Store.ptr_of_alloc hi, Image.fs_view, Store.setDinode_self, Dinode.slot_of_lt k.isLt]
    exact hself

theorem wp_rsect {sec : Nat} {Q : Block → Image → Prop} (hQ : sec < s.len → Q (s.img sec) s)
    (hdie : s.len ≤ sec → E .die) : wp (rsect sec) Q E s := by
  rw [rsect, wp_bind, wp_get, wp_ite]
  exact ⟨hQ, fun h => hdie (Nat.not_lt.mp h)⟩

theorem Image.ptr_lt (hr : Ready sb sb.IsData 0 (s.fs i din)) {c : Nat × Nat}
    (hc : ((s.fs i din).view 0).ptr sb c ≠ 0) :
    nmeta ≤ ((s.fs i din).view 0).ptr sb c ∧ ((s.fs i din).view 0).ptr sb c < s.freeblock :=
  ⟨(hr.own.owns.inDom c hc).1, of_decide_eq_true (hr.own.owns.isUsed c hc)⟩

theorem Image.store_data (hb : nmeta ≤ b) : s.store.data b = s.img b := if_pos hb

/-- `x` is the block in the slot afterwards, and no other block of the file has been added, or the image
is full. -/
theorem wp_blockFor (h : s.Ok) (hr : Ready sb sb.IsData 0 (s.fs i din)) {fbn : Nat} (hfbn : fbn < MAXFILE)
    (hdie : FSSIZE < s.freeblock + 2 → E .die) {Q : Dinode × Nat → Image → Prop}
    (hQ : ∀ din' t, t.Ok → Kept s t → t.freeblock ≤ s.freeblock + 2 →
      Grew sb sb.IsData 0 (s.fs i din) (t.fs i din') →
      ((t.fs i din').view 0).ptr sb (i, slotOf fbn) ≠ 0 →
      (∀ bn, bn ≠ fbn → ((t.fs i din').view 0).ptr sb (i, slotOf bn) =
        ((s.fs i din).view 0).ptr sb (i, slotOf bn)) →
      Q (din', ((t.fs i din').view 0).ptr sb (i, slotOf fbn)) t)
    (hfull : ∀ din' x t, FSSIZE < s.freeblock + 2 → t.len ≤ x → Q (din', x) t) :
    wp (blockFor din fbn) Q E s := by
  have hslot : ∀ {t : Image} {din' : Dinode}, Ready sb sb.IsData 0 (t.fs i din') → ∀ k,
      ((t.fs i din').view 0).ptr sb (i, k) = din'.slot t.store.data k := by
    intro t din' ht k
    have := ht.ptr_eq k
    rwa [Image.fs_self] at this
  unfold blockFor
  by_cases hd : fbn < NDIRECT
  · rw [dif_pos hd, wp_bind]
    have hslotOf : slotOf fbn = fbn := if_pos hd
    refine wp_addrOrNext h hr ⟨fbn, by omega⟩ (fun din' t ht hk hle hg h0 hother => ?_)
      fun din' t heq hlen hx => ?_
    · have hptr : ((t.fs i din').view 0).ptr sb (i, slotOf fbn) = din'.addrs ⟨fbn, by omega⟩ := by
        rw [hslot (hg.ready hr), hslotOf, Dinode.slot_of_lt (by omega)]
      have := hQ din' t ht hk (by omega) hg (hptr ▸ h0) fun bn hbn => hother _ fun hc => hbn ?_
      · rwa [hptr] at this
      · refine slotOf_inj ((congrArg Prod.snd hc).trans hslotOf.symm)
    · exact hfull din' _ t (by omega) (by rw [hx, hlen])
  rw [dif_neg hd, wp_bind]
  have hslotOf : slotOf fbn = NDIRECT + 1 + (fbn - NDIRECT) := by
    rw [slotOf, if_neg hd]
    omega
  have hlt : fbn - NDIRECT < NINDIRECT := by
    unfold MAXFILE at hfbn
    omega
  refine wp_addrOrNext h hr (Fin.last NDIRECT) (fun din' t ht hk hle hg h0 hother => ?_)
    fun din' t heq hlen hx => ?_
  swap
  · rw [wp_bind]
    exact wp_rsect (fun hbad => absurd hbad (by omega)) fun _ => hdie (by omega)
  have hrt := hg.ready hr
  set ind := din'.addrs (Fin.last NDIRECT) with hind
  have hptrind : ((t.fs i din').view 0).ptr sb (i, NDIRECT) = ind := by
    rw [hslot hrt, Dinode.slot_last]
  obtain ⟨hlo, hhi⟩ := Image.ptr_lt hrt (hptrind.symm ▸ h0)
  rw [hptrind] at hlo hhi
  have hdata : t.store.data ind = t.img ind := Image.store_data hlo
  have hothers : ∀ bn, ((t.fs i din').view 0).ptr sb (i, slotOf bn) =
      ((s.fs i din).view 0).ptr sb (i, slotOf bn) := fun bn =>
    hother _ fun hc => slotOf_ne bn (congrArg Prod.snd hc)
  have hentry : ((t.fs i din').view 0).ptr sb (i, slotOf fbn) =
      ((t.img ind).getUint (4 * (fbn - NDIRECT))).toNat := by
    rw [hslot hrt, Dinode.slot_of_ge (by omega) (by unfold NSLOT; omega) h0, hdata]
    congr 3
    omega
  rw [wp_bind]
  refine wp_rsect (fun _ => ?_) fun hbad => absurd hbad (by have := ht.len; have := ht.hi; omega)
  show wp (if _ then _ else _) Q E t
  rw [wp_ite]
  refine ⟨fun hx => ?_, fun hx => ?_⟩
  swap
  · have := hQ din' t ht hk (by omega) hg (hentry.symm ▸ hx) fun bn _ => hothers bn
    rwa [hentry] at this
  -- an entry of the indirect block
  show Q (din', t.freeblock) (t.bump.write ind ((t.img ind).setUint (4 * (fbn - NDIRECT))
    (UInt32.ofNat t.freeblock)))
  have hk' : Kept t (t.bump.write ind ((t.img ind).setUint (4 * (fbn - NDIRECT))
    (UInt32.ofNat t.freeblock))) := Kept.bump.trans (.write hlo _)
  by_cases hspace : t.freeblock < FSSIZE
  swap
  · refine hfull din' _ _ (by have := ht.hi; omega) ?_
    have := ht.len
    show max t.len (ind + 1) ≤ t.freeblock
    omega
  rw [hslotOf, hx] at hentry
  have hlast : ((t.fs i din').itable 0).copy.addrs (Fin.last NDIRECT) = ind := by rw [Image.fs_self]
  obtain ⟨hg', hself⟩ := grew_setEntry (by decide) hrt hspace Image.bitmap_freeblock
    hlast h0 hlt (by rw [Image.fs_self]; exact hentry) none
  set u := t.bump.write ind ((t.img ind).setUint (4 * (fbn - NDIRECT)) (UInt32.ofNat t.freeblock)) with hu
  have hne : ind ≠ t.freeblock := by omega
  have hfs : ({ t.fs i din' with
      store := ((t.fs i din').store.take t.freeblock).setEntry ind (fbn - NDIRECT) t.freeblock,
      trans := none } : Fs) = u.fs i din' := by
    have hstore : u.store = (t.store.take t.freeblock).setEntry ind (fbn - NDIRECT) t.freeblock := by
      rw [Image.store_write_data hlo, ht.store_bump, Store.setEntry]
      have : (t.store.take t.freeblock).data ind = t.img ind :=
        (update_of_ne hne ..).trans hdata
      rw [this]
    show (⟨_, _, _, _⟩ : Fs) = ⟨u.store, _, _, _⟩
    rw [hstore]
    rfl
  rw [hfs] at hg' hself
  rw [Image.fs_self, ← hslotOf] at hself
  have hu2 : u.Ok := (ht.bump hspace).write (Nat.lt_succ_of_lt hhi) _
  have hpos : t.freeblock ≠ 0 := by
    have := ht.lo
    omega
  have := hQ din' u hu2 (hk.trans hk') (by show t.freeblock + 1 ≤ _; omega) (hg.trans hg')
    (hself.symm ▸ hpos) fun bn hbn => ?_
  · rwa [hself] at this
  rw [← hothers bn]
  refine hg'.ptr_eq hrt.own ?_ hself fun hc => hbn (slotOf_inj (congrArg Prod.snd hc))
  rw [← hfs]
  rfl

/-! ## The loop -/

def touched (off n : Nat) : Nat := if n = 0 then 0 else (off + n - 1) / BSIZE + 1 - off / BSIZE

/-- `tot` of the bytes `p` have been appended at `off` to the inode `i`. -/
structure Appending (i : Nat) (p : List UInt8) (off tot : Nat) (s₀ : Image) (din₀ : Dinode) (s : Image)
    (din : Dinode) : Prop where
  ok : s.Ok
  kept : Kept s₀ s
  wrote : Wrote sb sb.IsData 0 (fun j => p[j]?) (fun _ => none) off tot (s₀.fs i din₀) (s.fs i din)
  tight : ∀ bn, ((s.fs i din).view 0).ptr sb (i, slotOf bn) ≠ 0 → bn * BSIZE < off + tot
  room : s.freeblock ≤ s₀.freeblock + 2 * touched off tot

variable {p : List UInt8} {off tot : Nat} {s₀ : Image} {din₀ : Dinode}

theorem touched_mono (off : Nat) {n m : Nat} (h : n ≤ m) : touched off n ≤ touched off m := by
  unfold touched
  simp only [BSIZE]
  split_ifs <;> omega

theorem touched_chunk {off tot : Nat} (htot : tot = 0 ∨ (off + tot) % BSIZE = 0) {m : Nat} (hm : 0 < m)
    (hle : (off + tot) % BSIZE + m ≤ BSIZE) : touched off (tot + m) = touched off tot + 1 := by
  unfold touched
  simp only [BSIZE] at *
  split_ifs <;> omega

theorem Appending.zero (h : s₀.Ok) (hr : Ready sb sb.IsData 0 (s₀.fs i din₀))
    (htight : ∀ bn, ((s₀.fs i din₀).view 0).ptr sb (i, slotOf bn) ≠ 0 → bn * BSIZE < off) :
    Appending i p off 0 s₀ din₀ s₀ din₀ :=
  ⟨h, .refl, .zero hr.own, htight, Nat.le_add_right _ _⟩

theorem Appending.chunk (h : Appending i p off tot s₀ din₀ s din) (hs : Ready sb sb.IsData 0 (s₀.fs i din₀))
    {din' : Dinode} (ht : t.Ok) (hk : Kept s t)
    (hle : t.freeblock ≤ s.freeblock + 2) (hg : Grew sb sb.IsData 0 (s.fs i din) (t.fs i din'))
    (h0 : ((t.fs i din').view 0).ptr sb (i, slotOf ((off + tot) / BSIZE)) ≠ 0)
    (hother : ∀ bn, bn ≠ (off + tot) / BSIZE → ((t.fs i din').view 0).ptr sb (i, slotOf bn) =
        ((s.fs i din).view 0).ptr sb (i, slotOf bn))
    (hstop : tot = 0 ∨ (off + tot) % BSIZE = 0) {m : Nat} (hm : 0 < m) (hlen : tot + m ≤ p.length)
    (hfit : (off + tot) % BSIZE + m ≤ BSIZE) {x : Nat}
    (hx : x = ((t.fs i din').view 0).ptr sb (i, slotOf ((off + tot) / BSIZE))) :
    Appending i p off (tot + m) s₀ din₀
      (t.write x ((t.img x).patch ((off + tot) % BSIZE) m fun j => (p.drop tot)[j]?)) din' := by
  have hr := (h.wrote.ready hs)
  have hrt := hg.ready hr
  obtain ⟨hlo, hhi⟩ := Image.ptr_lt hrt h0
  rw [← hx] at hlo hhi
  set u := t.write x ((t.img x).patch ((off + tot) % BSIZE) m fun j => (p.drop tot)[j]?) with hu
  have hblock : blockAt sb 0 (off + tot) (t.fs i din') = x := by
    rw [blockAt, Image.fs_self, hx]
  have hpatch := (h.wrote.grew hg).patch hfit (by rwa [hblock, hx]) none
  have hsome : ∀ j < m, (p[tot + j]?).isSome := by
    intro j hj
    rw [List.getElem?_eq_getElem (by omega)]
    rfl
  rw [if_pos hsome, leftover_of_mapped hsome] at hpatch
  have hfs : patched sb 0 (fun j => p[tot + j]?) (off + tot) m (t.fs i din') none = u.fs i din' := by
    have hstore : u.store = { t.store with
        data := update t.store.data x
          ((t.store.data x).patch ((off + tot) % BSIZE) m fun j => p[tot + j]?) } := by
      rw [Image.store_write_data hlo, Image.store_data hlo]
      simp only [List.getElem?_drop]
    rw [patched, hblock]
    show (⟨_, _, _, _⟩ : Fs) = ⟨u.store, _, _, _⟩
    rw [hstore]
    rfl
  rw [hfs] at hpatch
  have hptr : ∀ bn, ((u.fs i din').view 0).ptr sb (i, slotOf bn) =
      ((t.fs i din').view 0).ptr sb (i, slotOf bn) := by
    intro bn
    rw [← hfs]
    exact patched_ptr hrt.own none _
  refine ⟨ht.write hhi _, (h.kept.trans hk).trans (.write hlo _), hpatch, fun bn hbn => ?_, ?_⟩
  · rw [hptr] at hbn
    by_cases hbn' : bn = (off + tot) / BSIZE
    · have := Nat.div_mul_le_self (off + tot) BSIZE
      rw [hbn']
      omega
    · rw [hother bn hbn'] at hbn
      have := h.tight bn hbn
      omega
  · have := h.room
    rw [touched_chunk hstop hm hfit]
    show t.freeblock ≤ _
    omega

theorem wp_iappendLoop (hs : Ready sb sb.IsData 0 (s₀.fs i din₀))
    (hE : (∀ e, E e) ∨
      s₀.freeblock + 2 * touched off p.length ≤ FSSIZE ∧ off + p.length ≤ MAXFILE * BSIZE)
    {Q : Dinode × Nat → Image → Prop}
    (hQ : ∀ s din, Appending i p off p.length s₀ din₀ s din → Q (din, off + p.length) s) :
    ∀ fuel tot s din, tot ≤ p.length → p.length - tot ≤ fuel → StopsAt off p.length tot →
      Appending i p off tot s₀ din₀ s din → wp (iappendLoop fuel din (off + tot) (p.drop tot)) Q E s := by
  intro fuel
  induction fuel with
  | zero =>
    intro tot s din htot hfuel _ h
    have : tot = p.length := by omega
    subst this
    exact hQ s din h
  | succ fuel ih =>
    intro tot s din htot hfuel hstop h
    rw [iappendLoop, wp_ite, List.length_drop]
    refine ⟨fun hlt => ?_, fun hge => ?_⟩
    swap
    · have : tot = p.length := by omega
      subst this
      exact hQ s din h
    rw [wp_ite]
    refine ⟨fun hbig => ?_, fun hbn => ?_⟩
    · rcases hE with hE | ⟨-, hmax⟩
      · exact hE _
      · rw [Nat.le_div_iff_mul_le (by decide)] at hbig
        omega
    have hstop' : tot = 0 ∨ (off + tot) % BSIZE = 0 := by
      rcases hstop with h1 | h1 | h1
      · exact .inl h1
      · omega
      · exact .inr h1
    have hpos : 0 < BSIZE - (off + tot) % BSIZE := Nat.sub_pos_of_lt (Nat.mod_lt _ (by decide))
    have hchunk : ((off + tot) / BSIZE + 1) * BSIZE - (off + tot) = BSIZE - (off + tot) % BSIZE := by
      simp only [BSIZE]
      omega
    have hmod : off + tot - (off + tot) / BSIZE * BSIZE = (off + tot) % BSIZE := by
      simp only [BSIZE]
      omega
    have hfull : FSSIZE < s.freeblock + 2 → E .die := by
      intro hfull
      rcases hE with hE | ⟨hroom, -⟩
      · exact hE _
      · have h1 := touched_chunk hstop' (m := 1) (by omega) (by omega)
        have h2 := touched_mono off (n := tot + 1) (m := p.length) (by omega)
        have := h.room
        omega
    rw [wp_bind, hchunk, hmod]
    refine wp_blockFor h.ok (h.wrote.ready hs) (Nat.not_le.mp hbn) hfull
      (fun din' t ht hk hle hg h0 hother => ?_) fun din' x t hf hlen => ?_
    · rw [wp_bind]
      refine wp_rsect (fun _ => ?_) fun hbad => absurd hbad ?_
      · rw [wp_bind]
        show wp _ Q E (t.write _ _)
        have := h.chunk hs ht hk hle hg h0 hother hstop'
          (m := min (p.length - tot) (BSIZE - (off + tot) % BSIZE)) (by omega) (by omega) (by omega) rfl
        rw [List.drop_drop, Nat.add_assoc]
        exact ih _ _ _ (by omega) (by omega) (stopsAt_chunk htot) this
      · have h1 := (Image.ptr_lt (hg.ready (h.wrote.ready hs)) h0).2
        have := ht.len
        have := ht.hi
        omega
    · rw [wp_bind]
      exact wp_rsect (fun hbad => absurd hbad (by omega)) fun _ => hfull hf

end Mkfs

end Xv6

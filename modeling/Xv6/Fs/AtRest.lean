import Xv6.Fs.System
import Xv6.Fs.Walk

/-!
# The file system between calls

`AtRest` is the state between two calls, with the references that open files and processes hold; `Tree` is a
set of directories and files that walks stay in. The disk that `mkfs` makes without files is an example.
-/

namespace Xv6.Fs

open Wp

/-- All that can be shown about a run. -/
def Mode.strict : Mode := ⟨True, True, id⟩

/-- The file system between two calls: `B` are the references of open files and processes, `N` the inodes. -/
abbrev AtRest (sb : Superblock) (B : Base) (N : Nat → Node) (s : Fs) : Prop := Ctx .strict sb B [] [] N s

/-- A set of allocated inodes that contains what its directories name; the directories are lists of entries. -/
structure Tree (N : Nat → Node) (S : Nat → Prop) : Prop where
  next : ∀ i k, S i → (N i).type = .dir → (N i).slotInum k ≠ 0 → S ((N i).slotInum k)
  alloc : ∀ i, S i → (N i).type ≠ .free
  aligned : ∀ i, S i → (N i).type = .dir → 16 ∣ (N i).size

variable {sb : Superblock} {s t : Fs} {B : Base} {N : Nat → Node} {S : Nat → Prop} {i : Nat} {E : Panic → Prop}

theorem Tree.closed (h : Tree N S) : Closed .strict N S := ⟨h.next, fun _ => h.alloc⟩

theorem Tree.walkFails (h : Tree N S) (hi : S i) : WalkFails E (N i) := by
  refine ⟨fun hfree => absurd hfree (h.alloc i hi), fun hdir => ?_⟩
  have hal := h.aligned i hi hdir
  exact ⟨fun hn => absurd hdir hn, fun hn => absurd hal hn, fun hn => absurd hal hn, fun hn => absurd hal hn⟩

/-! ## The disk without files -/

def rootDinode : Dinode :=
  ⟨.dir, 0, 0, 1, BSIZE, fun k => if k.val = 0 then Mkfs.sb.datastart else 0⟩

/-- A disk with a root directory of one block; besides, there are `n` empty directories without a name. -/
def rootDisk (root : Block) (n : Nat) : Store where
  bitmap b := decide (b ≤ Mkfs.sb.datastart)
  dinode i := if i = ROOTINO then rootDinode else .zero (if 2 ≤ i ∧ i < n + 2 then .dir else .free)
  data b := if b = Mkfs.sb.datastart then root else .zero

section

variable {root : Block} {n : Nat}

theorem rootDisk_dinode_root : (rootDisk root n).dinode ROOTINO = rootDinode := rfl

theorem rootDisk_dinode_of_ne (h : i ≠ ROOTINO) :
    (rootDisk root n).dinode i = .zero (if 2 ≤ i ∧ i < n + 2 then .dir else .free) := if_neg h

theorem rootDisk_alloc_root : (rootDisk root n).Alloc Mkfs.sb ROOTINO :=
  ⟨by decide, by rw [rootDisk_dinode_root]; nofun⟩

theorem rootDisk_ptr (c : Nat × Nat) :
    (rootDisk root n).ptr Mkfs.sb c = if c = (ROOTINO, 0) then Mkfs.sb.datastart else 0 := by
  obtain ⟨i, k⟩ := c
  have hzero : ∀ d : Dinode, (∀ k, d.addrs k = 0) → d.slot (rootDisk root n).data k = 0 := by
    intro d hd
    unfold Dinode.slot
    split_ifs with h1 h2
    · exact hd _
    · rfl
    · exact absurd (.inl (hd _)) h2
  by_cases hi : i = ROOTINO
  · subst hi
    rw [Store.ptr_of_alloc rootDisk_alloc_root]
    by_cases hk : k < NDIRECT + 1
    · rw [Dinode.slot_of_lt hk]
      show (if _ then _ else _) = _
      simp
    · rw [Dinode.slot_of_last_eq_zero (Nat.le_of_not_lt hk) rfl, if_neg]
      rintro h
      obtain ⟨-, rfl⟩ := Prod.mk.inj h
      exact hk (Nat.succ_pos _)
  · rw [if_neg fun h => hi (Prod.mk.inj h).1]
    by_cases ha : (rootDisk root n).Alloc Mkfs.sb i
    · rw [Store.ptr_of_alloc ha, rootDisk_dinode_of_ne hi]
      exact hzero _ fun _ => rfl
    · exact if_neg ha

theorem rootDisk_own : Own Mkfs.sb Mkfs.sb.IsData (rootDisk root n) := by
  have hroot : ∀ c, (rootDisk root n).ptr Mkfs.sb c ≠ 0 →
      c = (ROOTINO, 0) ∧ (rootDisk root n).ptr Mkfs.sb c = Mkfs.sb.datastart := by
    intro c hc
    rw [rootDisk_ptr] at hc ⊢
    split_ifs at hc ⊢ with h
    · exact ⟨h, rfl⟩
    · exact absurd rfl hc
  refine ⟨⟨fun c hc => ?_, fun c hc => ?_, fun c c' hc heq => ?_, fun b _ hd hu => ?_⟩, fun b _ hd => ?_,
    fun i bn ha hbn => ?_, fun h => h.ne_zero rfl⟩
  · rw [(hroot c hc).2]
    exact ⟨le_rfl, by decide⟩
  · rw [(hroot c hc).2]
    exact decide_eq_true (Nat.le_refl Mkfs.sb.datastart)
  · rw [(hroot c hc).1, (hroot c' (heq ▸ hc)).1]
  · have hb : b ≤ Mkfs.sb.datastart := of_decide_eq_true hu
    exact ⟨(ROOTINO, 0), by rw [rootDisk_ptr]; exact le_antisymm hd.1 hb⟩
  · exact decide_eq_true (Nat.le_of_not_lt fun hlt => hd ⟨hlt.le, ‹_›⟩)
  · rw [rootDisk_ptr]
    by_cases hi : i = ROOTINO
    · rw [hi] at hbn
      have h0 : bn = 0 := by
        have : bn * 1024 < 1024 := hbn
        omega
      rw [hi, h0]
      decide
    · rw [rootDisk_dinode_of_ne hi] at hbn
      exact absurd hbn (Nat.not_lt_zero _)

def blockNode (root : Block) : Node := ⟨.dir, 0, 0, 1, BSIZE, fun o => root.byte o⟩

theorem rootDisk_node_root : (rootDisk root n).node Mkfs.sb ROOTINO = blockNode root := by
  have hdata : (rootDisk root n).data Mkfs.sb.datastart = root := by
    show (if Mkfs.sb.datastart = Mkfs.sb.datastart then root else Block.zero) = root
    exact if_pos rfl
  refine Node.ext rfl rfl rfl rfl rfl (funext fun o => ?_)
  show (if o < BSIZE then (rootDisk root n).byteAt Mkfs.sb ROOTINO o else 0) = root.byte o
  split_ifs with ho
  · have hslot : slotOf (o / BSIZE) = 0 := by rw [Nat.div_eq_of_lt ho]; rfl
    rw [Store.byteAt, hslot, rootDisk_ptr, if_pos rfl, Nat.mod_eq_of_lt ho, hdata]
  · rw [Block.byte, dif_neg ho]

theorem rootDisk_node_of_ne (h : i ≠ ROOTINO) :
    (rootDisk root n).node Mkfs.sb i =
      { Node.free with type := if 2 ≤ i ∧ i < n + 2 ∧ i < Mkfs.sb.ninodes then .dir else .free } := by
  by_cases ha : (rootDisk root n).Alloc Mkfs.sb i
  · have htype : 2 ≤ i ∧ i < n + 2 := by
      by_contra hno
      refine ha.2 ?_
      rw [rootDisk_dinode_of_ne h, if_neg hno]
      rfl
    rw [Store.node_of_alloc ha, rootDisk_dinode_of_ne h, if_pos htype, if_pos ⟨htype.1, htype.2, ha.1⟩]
    rfl
  · rw [Store.node_of_not_alloc ha, if_neg]
    · rfl
    · rintro ⟨h1, h2, h3⟩
      refine ha ⟨h3, ?_⟩
      rw [rootDisk_dinode_of_ne h, if_pos ⟨h1, h2⟩]
      nofun

/-- The root directory that `mkfs` makes, with the entries `.` and `..` for itself. -/
def rootBlock : Block := fun o =>
  if o.val = 0 ∨ o.val = 16 then 1 else if o.val = 2 ∨ o.val = 18 ∨ o.val = 19 then 46 else 0

/-- The disk that `mkfs` makes without files, if `n` is 0. -/
abbrev bareDisk (n : Nat) : Store := rootDisk rootBlock n

theorem rootBlock_byte {o : Nat} (h : 20 ≤ o) : rootBlock.byte o = 0 := by
  unfold Block.byte
  split_ifs with ho
  · unfold rootBlock
    rw [if_neg (by simp only; omega), if_neg (by simp only; omega)]
  · rfl

theorem rootBlock_slotInum (k : Nat) : (blockNode rootBlock).slotInum k = if k < 2 then ROOTINO else 0 := by
  match k with
  | 0 => decide
  | 1 => decide
  | k + 2 =>
    show (rootBlock.byte (16 * (k + 2))).toNat + 256 * (rootBlock.byte (16 * (k + 2) + 1)).toNat = _
    rw [rootBlock_byte (by omega), rootBlock_byte (by omega)]
    rfl

theorem bareDisk_slotInum (k : Nat) :
    ((bareDisk n).node Mkfs.sb i).slotInum k = 0 ∨ ((bareDisk n).node Mkfs.sb i).slotInum k = ROOTINO := by
  by_cases hi : i = ROOTINO
  · rw [hi, rootDisk_node_root, rootBlock_slotInum]
    split_ifs
    · exact .inr rfl
    · exact .inl rfl
  · rw [rootDisk_node_of_ne hi]
    exact .inl (Eq.refl 0)

theorem bareDisk_tree : Tree ((bareDisk n).node Mkfs.sb) fun i => ((bareDisk n).node Mkfs.sb i).type ≠ .free := by
  refine ⟨fun i k _ _ h0 => ?_, fun i hi => hi, fun i _ _ => ?_⟩
  · rw [(bareDisk_slotInum k).resolve_left h0]
    nofun
  · by_cases hi : i = ROOTINO
    · rw [hi, rootDisk_node_root]
      decide
    · rw [rootDisk_node_of_ne hi]
      exact ⟨0, rfl⟩

theorem bareDisk_atRest (hstore : s.store = bareDisk n) (htrace : s.trace = [])
    (hlock : ∀ e, (s.itable e).locked = false) (href : ∀ e, (s.itable e).ref = B.cnt e)
    (hinum : ∀ e, 0 < B.cnt e → (s.itable e).inum = B.inum e)
    (htype : ∀ e, 0 < B.cnt e → ((bareDisk n).node Mkfs.sb (B.inum e)).type = B.type e ∧ B.type e ≠ .free)
    (huniq : ∀ e e', 0 < B.cnt e → 0 < B.cnt e' → B.inum e = B.inum e' → e = e')
    (hvalid : ∀ e, 0 < B.cnt e → (s.itable e).valid = true → (bareDisk n).dinode (B.inum e) = (s.itable e).copy)
    (horphan : ∀ i, 2 ≤ i → i < n + 2 → ∃ e, 0 < B.cnt e ∧ B.inum e = i ∧ (s.itable e).valid = true) :
    AtRest Mkfs.sb B ((bareDisk n).node Mkfs.sb) s := by
  have halloc : ∀ e, 0 < B.cnt e → (bareDisk n).Alloc Mkfs.sb (B.inum e) := by
    intro e he
    by_contra hno
    have := htype e he
    rw [Store.node_type_free.mpr hno] at this
    exact this.2 this.1.symm
  refine ⟨⟨?_, fun i k _ => ?_, fun e e' h1 h2 heq => ?_, fun e h1 => ?_, fun e h1 h2 => ?_, fun e _ => hlock e,
    fun e h1 => absurd h1 (by rw [hlock e]; nofun), fun _ i ha hn => ?_⟩, fun e => ?_, nofun, fun e => ?_,
    fun e he => ⟨hinum e he, htype e he⟩, fun i => by rw [hstore], fun ev hev => ?_⟩
  · rw [hstore]
    exact rootDisk_own
  · rw [hstore]
    rcases bareDisk_slotInum k with h | h <;> rw [h] <;> decide
  · rw [href] at h1 h2
    rw [hinum e h1, hinum e' h2] at heq
    exact huniq e e' h1 h2 heq
  · rw [href] at h1
    rw [hinum e h1]
    exact (halloc e h1).1
  · rw [href] at h1
    have hd := hvalid e h1 h2
    rw [hstore, hinum e h1, ← hd]
    exact ⟨rfl, (halloc e h1).2⟩
  · rw [hstore] at ha hn
    have hi : i ≠ ROOTINO := by
      rintro rfl
      rw [rootDisk_dinode_root] at hn
      exact absurd hn (by decide)
    have hrange : 2 ≤ i ∧ i < n + 2 := by
      by_contra hno
      refine ha.2 ?_
      rw [rootDisk_dinode_of_ne hi, if_neg hno]
      rfl
    obtain ⟨e, h1, h2, h3⟩ := horphan i hrange.1 hrange.2
    exact ⟨e, by rwa [href], by rwa [hinum e h1], h3⟩
  · rw [href]
    rfl
  · rw [hlock e]
    exact iff_of_false nofun List.not_mem_nil
  · rw [htrace] at hev
    cases hev

/-- After `userinit` the only reference is that of the first process, to the root directory. -/
def bootBase : Base := ⟨fun e => if e = 0 then 1 else 0, fun _ => ROOTINO, fun _ => .dir⟩

theorem bootBase_pos {e : Ptr} (h : 0 < bootBase.cnt e) : e = 0 := by
  by_contra hne
  rw [show bootBase.cnt e = 0 from if_neg hne] at h
  exact absurd h (Nat.lt_irrefl _)

theorem boot_ctx {P : Type} [DecidableEq P] {sb : Superblock} {st : Store} (hown : Own sb sb.IsData st)
    (hdirs : ∀ i k, (st.node sb i).type = .dir → (st.node sb i).slotInum k < sb.ninodes)
    (hroot : (st.node sb ROOTINO).type = .dir) (hlinks : ∀ i, st.Alloc sb i → (st.dinode i).nlink ≠ 0) (p : P) :
    AtRest sb bootBase (st.node sb) (Sys.boot st p).fs := by
  have halloc : st.Alloc sb ROOTINO := by
    by_contra hno
    rw [Store.node_type_free.mpr hno] at hroot
    cases hroot
  have href : ∀ e, ((Sys.boot st p).fs.itable e).ref = bootBase.cnt e := fun e => by
    show (if e = 0 then _ else _ : Inode).ref = if e = 0 then 1 else 0
    split_ifs <;> rfl
  have hlock : ∀ e, ((Sys.boot st p).fs.itable e).locked = false := fun e => by
    show (if e = 0 then _ else _ : Inode).locked = false
    split_ifs <;> rfl
  have hzero : ∀ e, 0 < ((Sys.boot st p).fs.itable e).ref → e = 0 := fun e he => bootBase_pos (href e ▸ he)
  refine ⟨⟨hown, hdirs, fun e e' h1 h2 _ => (hzero e h1).trans (hzero e' h2).symm, fun e h1 => ?_, fun e h1 h2 => ?_,
    fun e _ => hlock e, fun e h1 => ?_, fun _ i ha hn => absurd hn (hlinks i ha)⟩, fun e => ?_, nofun, fun e => ?_,
    fun e he => ?_, fun _ => rfl, nofun⟩
  · rw [hzero e h1]
    exact halloc.1
  · rw [hzero e h1] at h2
    cases h2
  · rw [hlock e] at h1
    cases h1
  · rw [href]
    rfl
  · rw [hlock e]
    exact iff_of_false nofun List.not_mem_nil
  · rw [bootBase_pos he]
    exact ⟨rfl, hroot, nofun⟩

theorem boot_atRest {P : Type} [DecidableEq P] (p : P) :
    AtRest Mkfs.sb bootBase ((bareDisk 0).node Mkfs.sb) (Sys.boot (bareDisk 0) p).fs := by
  refine boot_ctx rootDisk_own (fun i k _ => ?_) ?_ (fun i ha => ?_) p
  · rcases bareDisk_slotInum k with h | h <;> rw [h] <;> decide
  · rw [rootDisk_node_root]
    rfl
  · have hi : i = ROOTINO := by
      by_contra hi
      refine ha.2 ?_
      rw [rootDisk_dinode_of_ne hi, if_neg (by omega)]
      rfl
    rw [hi]
    decide

end

end Xv6.Fs

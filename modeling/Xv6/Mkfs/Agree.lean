import Xv6.Fs.Boot
import Xv6.Mkfs.Build

/-!
# The image as the kernel reads it

After the files `mkfs` rounds the size of the root directory up and writes the free map. If the root
directory does not end at a block boundary before, every inode has the blocks that its size asks for, and
the kernel finds the files and their bytes.
-/

namespace Xv6.Mkfs

open Function Fs Wp

variable {s : Image} {files : List HostFile} {f : HostFile} {i b k : Nat}

/-! ## The free map -/

theorem bit_usedBits (used : Nat) {j : Nat} (hj : j < BPB) : (usedBits used).bit j = decide (j < used) := by
  induction used with
  | zero => exact Block.bit_zero j
  | succ used ih =>
    rw [usedBits, List.range_succ, List.foldl_append, List.foldl_cons, List.foldl_nil,
      Block.bit_setBit hj, ← usedBits, ih, ← Bool.decide_or]
    exact decide_eq_decide.mpr (by omega)

/-! ## The disk at the end -/

/-- The root inode with the size of whole blocks. -/
def Image.rootDinode (s : Image) : Dinode :=
  { s.store.dinode ROOTINO with size := ((s.store.dinode ROOTINO).size / BSIZE + 1) * BSIZE }

/-- The disk that the kernel reads. -/
abbrev Image.disk (s : Image) : Store := s.img.store sb

theorem size_root (h : Built files s) : (s.store.dinode ROOTINO).size = 16 * (files.length + 2) := by
  have hnode : s.store.node sb ROOTINO = ofBytes .dir (rootBytes files) := congrFun h.nodes ROOTINO
  rw [size_of_node hnode (alloc_of_node hnode (by decide)), length_rootBytes]

theorem Built.alloc_root (h : Built files s) : s.store.Alloc sb ROOTINO :=
  alloc_of_node (congrFun h.nodes ROOTINO) (by decide)

theorem finish_img (hb : b ≠ sb.iblock ROOTINO) (hb' : b ≠ sb.bmapstart) : s.finish.img b = s.img b := by
  rw [Image.finish, Image.write_of_ne hb', Image.write_of_ne hb]

theorem finish_bitmap (hb : b < sb.size) : s.finish.disk.bitmap b = decide (b < s.freeblock) := by
  have hlt : b < 2000 := hb
  have hblock : sb.bblock b = sb.bmapstart := by
    show b / 8192 + 45 = 45
    omega
  have hmod : b % BPB = b := Nat.mod_eq_of_lt (by show b < 8192; omega)
  show (s.finish.img (sb.bblock b)).bit (b % BPB) = _
  rw [hblock, hmod, Image.finish, Image.write_self, bit_usedBits _ (by show b < 8192; omega)]

theorem getElem_flatMap_bytes {l : List Dirent} {de : Dirent} (hk : l[k]? = some de) {j : Nat} (hj : j < 16) :
    (l.flatMap Dirent.bytes)[16 * k + j]? = de.bytes[j]? := by
  induction l generalizing k with
  | nil => cases hk
  | cons x l ih =>
    rw [List.flatMap_cons]
    match k with
    | 0 =>
      have hx : x = de := Option.some.inj hk
      rw [hx, Nat.zero_add, List.getElem?_append_left (by rw [Dirent.length_bytes]; exact hj)]
    | k + 1 =>
      rw [List.getElem?_append_right (by rw [Dirent.length_bytes]; omega), Dirent.length_bytes,
        show 16 * (k + 1) + j - 16 = 16 * k + j by omega]
      exact ih hk

theorem getElem_dirents (hk : files[k]? = some f) : (dirents files)[k + 2]? = some ⟨k + 2, f.shortname⟩ := by
  simp only [dirents, List.getElem?_cons_succ, List.getElem?_mapIdx, hk, Option.map_some]

theorem mem_path_of_shortname {c : UInt8} (hc : c ∈ f.shortname) : c ∈ f.path := by
  have hbase : c ∈ f.base := by
    unfold HostFile.shortname at hc
    split_ifs at hc
    · exact List.mem_of_mem_drop hc
    · exact hc
  unfold HostFile.base at hbase
  split_ifs at hbase
  · exact List.mem_of_mem_drop hbase
  · exact hbase

theorem cstr_shortname (hlen : f.shortname.length ≤ DIRSIZ) : cstr f.shortname = f.shortname := by
  rw [cstr, List.take_of_length_le hlen, List.takeWhile_eq_self_iff]
  intro c hc
  refine decide_eq_true fun h0 => f.path_ne_zero ?_
  rw [← h0]
  exact mem_path_of_shortname hc

theorem read_ofBytes {type : InodeType} {l : List UInt8} {off n : Nat} (h : off + n < 2 ^ 32) :
    (ofBytes type l).read off n = (l.drop off).take n := by
  unfold Node.read ofBytes
  by_cases hoff : l.length < off
  · rw [if_pos (.inl hoff), List.drop_eq_nil_of_le (Nat.le_of_lt hoff), List.take_nil]
  · rw [if_neg (by simp only; omega)]
    refine List.ext_getElem ?_ fun j h1 h2 => ?_
    · rw [List.length_map, List.length_range, List.length_take, List.length_drop]
      simp only
      split_ifs <;> omega
    · rw [List.length_take, List.length_drop] at h2
      rw [List.getElem_map, List.getElem_range, List.getElem_take, List.getElem_drop]
      show (l[off + j]?).getD 0 = l[off + j]
      rw [List.getElem?_eq_getElem (by omega), Option.getD_some]

/-! ## Agreement -/

/-- The image is the file system that the kernel expects for the files. -/
structure Consistent (files : List HostFile) (s : Image) : Prop where
  superblock : (s.img 1).readsb = sb
  /-- the free map marks the blocks below `freeblock` -/
  bitmap : ∀ b < sb.size, s.disk.bitmap b = true ↔ b < s.freeblock
  /-- the allocated inodes have numbers that the superblock allows -/
  inodes : ∀ i, (s.disk.dinode i).type ≠ .free ↔ 1 ≤ i ∧ i < s.freeinode
  inum_lt : s.freeinode ≤ sb.ninodes
  /-- the blocks that the sizes ask for are there -/
  blocks : ∀ i bn, (s.disk.dinode i).type ≠ .free → bn < ((s.disk.dinode i).size + (BSIZE - 1)) / BSIZE →
    nmeta ≤ s.disk.ptr sb (i, slotOf bn) ∧ s.disk.ptr sb (i, slotOf bn) < s.freeblock
  /-- and no two of them are one -/
  distinct : ∀ i bn j bm, (s.disk.dinode i).type ≠ .free →
    bn < ((s.disk.dinode i).size + (BSIZE - 1)) / BSIZE →
    s.disk.ptr sb (i, slotOf bn) = s.disk.ptr sb (j, slotOf bm) → i = j ∧ bn = bm
  /-- `readi` returns the bytes of the file -/
  contents : ∀ k f, files[k]? = some f → (s.disk.dinode (k + 2)).size = f.contents.length ∧
    ∀ (t : Fs) ip off n, t.store = s.disk → (t.itable ip).inum = k + 2 →
      (t.itable ip).copy = s.disk.dinode (k + 2) → off + n < 2 ^ 32 →
      (readi sb ip (fun _ => true) off n).run t = .ok (some ((f.contents.drop off).take n), t)
  /-- `dirlookup` in the root directory finds the name -/
  lookup : ∀ k f, files[k]? = some f → ∀ (t : Fs) dp, t.store = s.disk → (t.itable dp).inum = ROOTINO →
    (t.itable dp).copy = s.disk.dinode ROOTINO →
    ((t.findInode (k + 2)).isSome ∨ t.emptyInode.isSome) →
    ∃ ip off u, (dirlookup sb dp f.shortname).run t = .ok (some (ip, off), u) ∧ (u.itable ip).inum = k + 2

section

variable (h : Built files s) (hlen : files.length + 1 < sb.ninodes)

include h hlen

theorem Built.fits : s.rootDinode.Fits := by
  have hfits := fits_of_own h.inv.own h.alloc_root
  refine ⟨?_, hfits.addrs⟩
  have hlt : files.length + 1 < 200 := hlen
  show ((s.store.dinode ROOTINO).size / 1024 + 1) * 1024 < 2 ^ 32
  rw [size_root h]
  omega

theorem finish_disk : s.finish.disk.dinode = update s.store.dinode ROOTINO s.rootDinode ∧
      s.finish.disk.data = s.store.data := by
  have hstore : (s.write (sb.iblock ROOTINO) ((s.img (sb.iblock ROOTINO)).setDinode (ROOTINO % IPB * 64)
      s.rootDinode)).store = s.store.setDinode ROOTINO s.rootDinode :=
    Image.store_write_inode (iblock_lt (by decide)) (h.fits hlen)
  set u := s.write (sb.iblock ROOTINO) ((s.img (sb.iblock ROOTINO)).setDinode (ROOTINO % IPB * 64)
    s.rootDinode) with hu
  have himg : ∀ c, c ≠ sb.bmapstart → s.finish.img c = u.img c := fun c hc => Image.write_of_ne hc
  have hdinode : u.store.dinode = update s.store.dinode ROOTINO s.rootDinode := by
    rw [hstore]
    rfl
  have hdata : u.store.data = s.store.data := by rw [hstore, Store.setDinode_data]
  constructor
  · rw [← hdinode]
    funext i
    show (if _ then (s.finish.img _).dinode _ else _) = if _ then (u.img _).dinode _ else _
    split_ifs with hi
    · rw [himg _ (Nat.ne_of_lt hi)]
    · rfl
  · rw [← hdata]
    funext c
    show (if _ then s.finish.img c else _) = if _ then u.img c else _
    split_ifs with hc
    · rw [himg c (by rintro rfl; exact absurd hc (by decide))]
    · rfl

theorem finish_dinode_of_ne (hi : i ≠ ROOTINO) : s.finish.disk.dinode i = s.store.dinode i := by
  rw [(finish_disk h hlen).1, update_of_ne hi]

theorem finish_dinode_root : s.finish.disk.dinode ROOTINO = s.rootDinode := by
  rw [(finish_disk h hlen).1, update_self]

theorem finish_type (i : Nat) : (s.finish.disk.dinode i).type = (s.store.dinode i).type := by
  by_cases hi : i = ROOTINO
  · rw [hi, finish_dinode_root h hlen]
    rfl
  · rw [finish_dinode_of_ne h hlen hi]

theorem finish_alloc : s.finish.disk.Alloc sb i ↔ s.store.Alloc sb i := by
  unfold Store.Alloc
  rw [finish_type h hlen]

theorem finish_ptr (c : Nat × Nat) : s.finish.disk.ptr sb c = s.store.ptr sb c := by
  unfold Store.ptr
  simp only [finish_alloc h hlen, (finish_disk h hlen).2]
  by_cases hc : c.1 = ROOTINO
  · have hslot : s.rootDinode.slot s.store.data c.2 = (s.store.dinode ROOTINO).slot s.store.data c.2 :=
      Dinode.slot_of_addrs rfl c.2
    rw [hc, finish_dinode_root h hlen, hslot]
  · rw [finish_dinode_of_ne h hlen hc]

theorem finish_byteAt (i o : Nat) : s.finish.disk.byteAt sb i o = s.store.byteAt sb i o := by
  rw [Store.byteAt, Store.byteAt, finish_ptr h hlen, (finish_disk h hlen).2]

theorem finish_own (hround : (files.length + 2) % 64 ≠ 0) : Own sb sb.IsData s.finish.disk := by
  have hptr : s.finish.disk.ptr sb = s.store.ptr sb := funext (finish_ptr h hlen)
  have hown := h.inv.own
  refine ⟨⟨?_, fun c hc => ?_, ?_, fun b hb hd hu => ?_⟩, fun b hb hd => ?_, fun i bn hi hbn => ?_, hown.notZero⟩
  · rw [hptr]
    exact hown.owns.inDom
  · rw [hptr] at hc ⊢
    rw [finish_bitmap (hown.owns.inDom c hc).2]
    exact hown.owns.isUsed c hc
  · rw [hptr]
    exact hown.owns.inj
  · rw [hptr]
    rw [finish_bitmap hd.2] at hu
    exact hown.owns.full b hb hd hu
  · rw [finish_bitmap hb]
    exact hown.metaBits b hb hd
  · rw [hptr]
    rw [finish_alloc h hlen] at hi
    by_cases hir : i = ROOTINO
    · subst hir
      rw [finish_dinode_root h hlen] at hbn
      refine hown.noHole _ bn hi ?_
      replace hbn : bn * 1024 < ((s.store.dinode ROOTINO).size / 1024 + 1) * 1024 := hbn
      rw [size_root h] at hbn ⊢
      simp only [BSIZE]
      omega
    · rw [finish_dinode_of_ne h hlen hir] at hbn
      exact hown.noHole i bn hi hbn

theorem finish_node (hi : i ≠ ROOTINO) : s.finish.disk.node sb i = nodes files i := by
  rw [← h.nodes]
  refine Store.node_congr (by rw [finish_dinode_of_ne h hlen hi]; simp) fun _ o _ => finish_byteAt h hlen i o

/-! ## The root directory -/

theorem finish_root_bytes {de : Dirent} (hk : (dirents files)[k]? = some de) {j : Nat} (hj : j < 16) :
    (s.finish.disk.node sb ROOTINO).bytes (16 * k + j) = (de.bytes[j]?).getD 0 := by
  have hlt : k < files.length + 2 := by
    rw [← length_dirents]
    exact (List.getElem?_eq_some_iff.mp hk).1
  have hnode : s.store.node sb ROOTINO = ofBytes .dir (rootBytes files) := congrFun h.nodes ROOTINO
  have hold : (s.store.node sb ROOTINO).bytes (16 * k + j) = s.store.byteAt sb ROOTINO (16 * k + j) := by
    rw [Store.node_of_alloc h.alloc_root]
    exact if_pos (by rw [size_root h]; omega)
  have hnew : (s.finish.disk.node sb ROOTINO).bytes (16 * k + j) =
      s.finish.disk.byteAt sb ROOTINO (16 * k + j) := by
    rw [Store.node_of_alloc ((finish_alloc h hlen).mpr h.alloc_root), finish_dinode_root h hlen]
    refine if_pos ?_
    show 16 * k + j < ((s.store.dinode ROOTINO).size / 1024 + 1) * 1024
    rw [size_root h]
    omega
  rw [hnew, finish_byteAt h hlen, ← hold, hnode]
  show ((rootBytes files)[16 * k + j]?).getD 0 = _
  rw [rootBytes, getElem_flatMap_bytes hk hj]

theorem finish_root_size {de : Dirent} (hk : (dirents files)[k]? = some de) :
    16 * k + 16 ≤ (s.finish.disk.node sb ROOTINO).size := by
  have hlt := (List.getElem?_eq_some_iff.mp hk).1
  rw [length_dirents] at hlt
  rw [Store.node_of_alloc ((finish_alloc h hlen).mpr h.alloc_root), finish_dinode_root h hlen]
  show _ ≤ ((s.store.dinode ROOTINO).size / 1024 + 1) * 1024
  rw [size_root h]
  omega

theorem finish_root_type : (s.finish.disk.node sb ROOTINO).type = .dir := by
  rw [Store.node_of_alloc ((finish_alloc h hlen).mpr h.alloc_root), finish_type h hlen]
  have hroot : s.store.node sb ROOTINO = ofBytes .dir (rootBytes files) := congrFun h.nodes ROOTINO
  rw [Store.node_of_alloc h.alloc_root] at hroot
  exact congrArg Node.type hroot

theorem finish_root_names {de : Dirent} (hk : (dirents files)[k]? = some de) (name : List UInt8) :
    (s.finish.disk.node sb ROOTINO).Names name k ↔ de.inum % 2 ^ 16 ≠ 0 ∧ cstr name = cstr de.name := by
  have hbytes := fun j (hj : j < 16) => finish_root_bytes h hlen hk hj
  rw [Node.Names, Node.slotInum_of_bytes hbytes, Node.slotName_of_bytes hbytes, namecmp, decide_eq_true_iff,
    cstr_padded]

theorem finish_blocks (hround : (files.length + 2) % 64 ≠ 0) {bn : Nat} (hi : (s.finish.disk.dinode i).type ≠ .free)
    (hlt : i < sb.ninodes) (hbn : bn < ((s.finish.disk.dinode i).size + (BSIZE - 1)) / BSIZE) :
    s.finish.disk.ptr sb (i, slotOf bn) ≠ 0 := by
  refine (finish_own h hlen hround).noHole i bn ⟨hlt, hi⟩ ?_
  simp only [BSIZE] at hbn ⊢
  omega

theorem finish_inodes (i : Nat) : (s.finish.disk.dinode i).type ≠ .free ↔ 1 ≤ i ∧ i < s.freeinode := by
  rw [finish_type h hlen]
  have hfree := h.freeinode
  constructor
  · intro hi
    by_contra hout
    by_cases h0 : i = 0
    · -- number 0 is not used
      subst h0
      have hnode : s.store.node sb 0 = .free := congrFun h.nodes 0
      have hna : ¬ s.store.Alloc sb 0 := Store.node_type_free.mp (by rw [hnode]; rfl)
      exact hna ⟨by decide, hi⟩
    · exact hi (h.inv.fresh i (by omega))
  · rintro ⟨h1, h2⟩
    have hnode : s.store.node sb i = nodes files i := congrFun h.nodes i
    match i, h1 with
    | 1, _ => exact h.alloc_root.2
    | j + 2, _ =>
      have hj : j < files.length := by omega
      rw [nodes, List.getElem?_eq_getElem hj] at hnode
      exact (alloc_of_node hnode (by decide)).2

theorem finish_lookup (hnames : (files.map HostFile.shortname).Nodup) (hname : ∀ f ∈ files, f.shortname.length ≤ DIRSIZ)
    (hdots : ∀ f ∈ files, f.shortname ≠ dot ∧ f.shortname ≠ dotdot) (hk : files[k]? = some f) :
    (s.finish.disk.node sb ROOTINO).Names f.shortname (k + 2) ∧
      ∀ k' < k + 2, ¬ (s.finish.disk.node sb ROOTINO).Names f.shortname k' := by
  obtain ⟨hlt, hf⟩ := List.getElem?_eq_some_iff.mp hk
  have hmem : f ∈ files := hf ▸ List.getElem_mem hlt
  have hinum : k + 2 < 200 := by
    have : files.length + 1 < 200 := hlen
    omega
  refine ⟨(finish_root_names h hlen (getElem_dirents hk) _).mpr ⟨?_, rfl⟩, fun k' hk' => ?_⟩
  · show (k + 2) % 65536 ≠ 0
    omega
  match k', hk' with
  | 0, _ =>
    have hdot : (dirents files)[0]? = some ⟨ROOTINO, dot⟩ := rfl
    rw [finish_root_names h hlen hdot, cstr_shortname (hname f hmem)]
    exact fun hn => (hdots f hmem).1 hn.2
  | 1, _ =>
    have hdot : (dirents files)[1]? = some ⟨ROOTINO, dotdot⟩ := rfl
    rw [finish_root_names h hlen hdot, cstr_shortname (hname f hmem)]
    exact fun hn => (hdots f hmem).2 hn.2
  | j + 2, hj =>
    have hj' : j < files.length := by omega
    rw [finish_root_names h hlen (getElem_dirents (List.getElem?_eq_getElem hj')),
      cstr_shortname (hname f hmem), cstr_shortname (hname _ (List.getElem_mem hj'))]
    rintro ⟨-, heq⟩
    have hkm : k < (files.map HostFile.shortname).length := by rwa [List.length_map]
    have hinj : (files.map HostFile.shortname)[k] = (files.map HostFile.shortname)[j] → k = j :=
      hnames.getElem_inj_iff.mp
    have hkj := hinj (by rw [List.getElem_map, List.getElem_map, hf]; exact heq)
    omega

theorem finish_consistent
    (hround : (files.length + 2) % 64 ≠ 0) (hnames : (files.map HostFile.shortname).Nodup)
    (hname : ∀ f ∈ files, f.shortname.length ≤ DIRSIZ)
    (hdots : ∀ f ∈ files, f.shortname ≠ dot ∧ f.shortname ≠ dotdot) : Consistent files s.finish := by
  have hown := finish_own h hlen hround
  have hfree : s.finish.freeinode = files.length + 2 := h.freeinode
  have hlt : ∀ i, (s.finish.disk.dinode i).type ≠ .free → i < sb.ninodes := by
    intro i hi
    have h2 : i < s.freeinode := ((finish_inodes h hlen i).mp hi).2
    have h3 := h.freeinode
    have h4 : files.length + 1 < 200 := hlen
    show i < 200
    omega
  refine ⟨?_, fun b hb => ?_, finish_inodes h hlen, ?_, fun i bn hi hbn => ?_, fun i bn j bm hi hbn heq => ?_,
    fun k f hk => ?_, fun k f hk t dp hstore hinum hcopy hspace => ?_⟩
  · rw [finish_img (by decide) (by decide), h.inv.metas 1 (by decide)]
    exact Block.readsb_setBytes (by decide)
  · rw [finish_bitmap hb]
    exact decide_eq_true_iff
  · rw [hfree]
    have : files.length + 1 < 200 := hlen
    show files.length + 2 ≤ 200
    omega
  · have h0 := finish_blocks h hlen hround hi (hlt i hi) hbn
    refine ⟨(hown.owns.inDom _ h0).1, ?_⟩
    have hused := hown.owns.isUsed _ h0
    rw [finish_bitmap (hown.owns.inDom _ h0).2] at hused
    exact of_decide_eq_true hused
  · have h0 := finish_blocks h hlen hround hi (hlt i hi) hbn
    have hinj := hown.owns.inj _ _ h0 heq
    exact ⟨congrArg Prod.fst hinj, slotOf_inj (congrArg Prod.snd hinj)⟩
  · have hnode : s.finish.disk.node sb (k + 2) = ofBytes .file f.contents := by
      rw [finish_node h hlen (by show k + 2 ≠ 1; omega), nodes, hk]
    have halloc : s.finish.disk.Alloc sb (k + 2) := by
      by_contra hna
      rw [Store.node_of_not_alloc hna] at hnode
      exact InodeType.noConfusion (congrArg Node.type hnode)
    refine ⟨?_, fun t ip off n hstore hinum hcopy hbound => ?_⟩
    · rw [Store.node_of_alloc halloc] at hnode
      exact congrArg Node.size hnode
    · have hh : Holding sb t ip (k + 2) := ⟨hstore ▸ hown, hstore ▸ halloc, hinum, hstore ▸ hcopy⟩
      rw [hh.readi_eq, hstore, hnode, read_ofBytes hbound]
  · obtain ⟨hn, hfirst⟩ := finish_lookup h hlen hnames hname hdots hk
    have hkl : k < files.length := (List.getElem?_eq_some_iff.mp hk).1
    have hlen' : files.length + 1 < 200 := hlen
    have halloc : s.finish.disk.Alloc sb ROOTINO := (finish_alloc h hlen).mpr h.alloc_root
    have hh : Holding sb t dp ROOTINO := ⟨hstore ▸ hown, hstore ▸ halloc, hinum, hstore ▸ hcopy⟩
    have hinode : (s.finish.disk.node sb ROOTINO).slotInum (k + 2) = k + 2 := by
      rw [Node.slotInum_of_bytes fun j hj => finish_root_bytes h hlen (getElem_dirents hk) hj]
      exact Nat.mod_eq_of_lt (show k + 2 < 65536 by omega)
    have hsize := finish_root_size h hlen (getElem_dirents hk)
    have htype := finish_root_type h hlen
    rw [← hstore] at hn hfirst hinode hsize htype
    obtain ⟨ip, u, hrun, hu⟩ := hh.dirlookup_eq htype hsize hn hfirst (by rw [hinode]; exact hspace)
    exact ⟨ip, _, u, hrun, hu.trans hinode⟩

end

/-! ## What is needed for it -/

/-- If the code ends, then it has taken `n` inode numbers. -/
def Takes {α : Type} (n : Nat) (f : M α) : Prop :=
  ∀ s, wp f (fun _ t => t.freeinode = s.freeinode + n) (fun _ => True) s

namespace Takes

variable {α β : Type} {n m : Nat} {g : M α}

theorem pure (a : α) : Takes 0 (pure a : M α) := fun _ => rfl

theorem throw (e : Exit) : Takes n (throw e : M α) := fun _ => trivial

theorem bind (h : Takes n g) {g' : α → M β} (h' : ∀ a, Takes m (g' a)) : Takes (n + m) (g >>= g') := fun s =>
  (h s).bind fun a t ht => (h' a t).mono fun _ u hu => by omega

theorem ite {c : Prop} [Decidable c] {g' : M α} (h : Takes n g) (h' : Takes n g') :
    Takes n (if c then g else g') := by
  split_ifs
  · exact h
  · exact h'

theorem wsect (sec : Nat) (buf : Block) : Takes 0 (wsect sec buf) := fun _ => rfl

theorem nextBlock : Takes 0 nextBlock := fun _ => rfl

theorem rsect (sec : Nat) : Takes 0 (rsect sec) := fun _ => wp_rsect (fun _ => rfl) fun _ => trivial

theorem winode (inum : Nat) (ip : Dinode) : Takes 0 (winode inum ip) := (rsect _).bind fun _ => wsect _ _

theorem rinode (inum : Nat) : Takes 0 (rinode inum) := (rsect _).bind fun _ => pure _

theorem ialloc (type : InodeType) : Takes 1 (ialloc type) :=
  (show Takes 1 nextInode from fun _ => rfl).bind fun _ => (winode _ _).bind fun _ => pure _

theorem addrOrNext (din : Dinode) (k : Fin (NDIRECT + 1)) : Takes 0 (addrOrNext din k) :=
  ite (nextBlock.bind fun _ => pure _) (pure _)

theorem blockFor (din : Dinode) (fbn : Nat) : Takes 0 (blockFor din fbn) := by
  unfold Mkfs.blockFor
  split_ifs
  · exact (addrOrNext _ _).bind fun _ => pure _
  · refine (addrOrNext _ _).bind fun _ => (rsect _).bind fun _ => ite ?_ (pure _)
    exact nextBlock.bind fun _ => (wsect _ _).bind fun _ => pure _

theorem iappendLoop (fuel : Nat) : ∀ din off p, Takes 0 (iappendLoop fuel din off p) := by
  induction fuel with
  | zero => exact fun _ _ _ => pure _
  | succ fuel ih =>
    refine fun din off p => ite (ite (throw _) ?_) (pure _)
    exact (blockFor _ _).bind fun _ => (rsect _).bind fun _ => (wsect _ _).bind fun _ => ih _ _ _

theorem iappend (inum : Nat) (p : List UInt8) : Takes 0 (iappend inum p) :=
  (rinode _).bind fun _ => (iappendLoop _ _ _ _).bind fun _ => winode _ _

theorem forM {γ : Type} {g : γ → M PUnit} (h : ∀ c, Takes n (g c)) (l : List γ) :
    Takes (l.length * n) (l.forM g) := by
  induction l with
  | nil => exact fun s => (by simp : s.freeinode = s.freeinode + 0 * n)
  | cons c l ih =>
    rw [List.length_cons, Nat.succ_mul, Nat.add_comm]
    exact (h c).bind fun _ => ih

theorem addFile (rootino : Nat) (f : HostFile) : Takes 1 (addFile rootino f) := by
  have hreads : ∀ inum, Takes 0 (f.reads.forM (Mkfs.iappend inum)) := fun inum =>
    forM (n := 0) (iappend inum) f.reads
  refine ite (throw _) (ite (throw _) (ite (throw _) ?_))
  exact (ialloc _).bind fun inum => (iappend _ _).bind fun _ => hreads inum

theorem main (files : List HostFile) :
    wp (main files) (fun _ t => t.freeinode = files.length + 2) (fun _ => True) Image.init := by
  rw [Mkfs.main, wp_bind]
  refine wp_writeZeroes ?_
  have hroot : Takes 1 makeRoot := (ialloc _).bind fun _ =>
    ite (throw _) ((iappend _ _).bind fun _ => (iappend _ _).bind fun _ => pure _)
  have hfix : ∀ i, Takes 0 (fixRoot i) := fun _ => (rinode _).bind fun _ => winode _ _
  have hget : Takes 0 (do Mkfs.balloc (← get).freeblock) := fun s => ite (n := 0) (throw _) (wsect _ _) s
  refine (hroot.bind fun i => (forM (addFile i) files).bind fun _ => (hfix i).bind fun _ => hget) _ |>.mono ?_
  intro _ t ht
  have hone : Image.zeroes.freeinode = 1 := rfl
  omega

end Takes

/-- If the entries of the root directory fill whole blocks, the block behind them is asked for and not there. -/
theorem finish_root_hole (h : Built files s) (hlen : files.length + 1 < sb.ninodes)
    (hround : (files.length + 2) % 64 = 0) : ∃ bn, (s.finish.disk.dinode ROOTINO).type ≠ .free ∧
      bn < ((s.finish.disk.dinode ROOTINO).size + (BSIZE - 1)) / BSIZE ∧
      s.finish.disk.ptr sb (ROOTINO, slotOf bn) = 0 := by
  have hsize : (s.finish.disk.dinode ROOTINO).size = ((files.length + 2) / 64 + 1) * 1024 := by
    rw [finish_dinode_root h hlen]
    show ((s.store.dinode ROOTINO).size / 1024 + 1) * 1024 = _
    rw [size_root h]
    omega
  refine ⟨(files.length + 2) / 64, ?_, ?_, ?_⟩
  · rw [finish_type h hlen]
    exact h.alloc_root.2
  · rw [hsize]
    simp only [BSIZE]
    omega
  · rw [finish_ptr h hlen]
    by_contra h0
    have := h.inv.tight ROOTINO _ h0
    rw [size_root h] at this
    simp only [BSIZE] at this
    omega

/-- In the table the inode of the root directory is the only one. -/
def rootOnly (st : Store) : Fs where
  store := st
  itable ip := if ip = 0 then ⟨ROOTINO, 1, true, true, st.dinode ROOTINO⟩ else ⟨0, 0, false, false, .zero .free⟩
  trans := none
  trace := []

theorem finish_dots (h : Built files s) (hc : Consistent files s.finish) (hlen : files.length + 1 < sb.ninodes)
    (hround : (files.length + 2) % 64 ≠ 0) : ∀ f ∈ files, f.shortname ≠ dot ∧ f.shortname ≠ dotdot := by
  intro f hf
  obtain ⟨k, hk⟩ := List.getElem?_of_mem hf
  -- an entry `j` of the root directory itself that is the first with the name
  have hnone : ∀ j name, (dirents files)[j]? = some ⟨ROOTINO, name⟩ → f.shortname = name →
      (∀ j' < j, ¬ (s.finish.disk.node sb ROOTINO).Names name j') → False := by
    rintro j name hj rfl hfirst
    obtain ⟨ip, off, u, hrun, hinum⟩ := hc.lookup k f hk (rootOnly s.finish.disk) 0 rfl rfl rfl (.inr rfl)
    have halloc : s.finish.disk.Alloc sb ROOTINO := (finish_alloc h hlen).mpr h.alloc_root
    have hh : Holding sb (rootOnly s.finish.disk) 0 ROOTINO := ⟨finish_own h hlen hround, halloc, rfl, rfl⟩
    have hslot : (s.finish.disk.node sb ROOTINO).slotInum j = ROOTINO :=
      Node.slotInum_of_bytes fun i hi => finish_root_bytes h hlen hj hi
    obtain ⟨e, t, hrun', ht⟩ := hh.dirlookup_eq (finish_root_type h hlen) (finish_root_size h hlen hj)
      ((finish_root_names h hlen hj _).mpr ⟨Nat.one_ne_zero, rfl⟩) hfirst (.inr rfl)
    cases hrun.symm.trans hrun'
    exact absurd (hinum.symm.trans (ht.trans hslot)) (by show k + 2 ≠ 1; omega)
  refine ⟨fun hd => hnone 0 dot rfl hd nofun, fun hd => hnone 1 dotdot rfl hd fun j' hj' => ?_⟩
  obtain rfl : j' = 0 := by omega
  rw [finish_root_names h hlen (show (dirents files)[0]? = some ⟨ROOTINO, dot⟩ from rfl)]
  exact fun hn => absurd hn.2 (by decide)

/-- If `mkfs` reaches its end, then the image is consistent if and only if the entries of the root directory do
not fill whole blocks, there are inodes for the files, and no file has the name of an entry of the root
directory. -/
theorem image_agrees (files : List HostFile) (hnames : (files.map HostFile.shortname).Nodup)
    (hname : ∀ f ∈ files, 1 ≤ f.shortname.length ∧ f.shortname.length ≤ DIRSIZ) {s : Image}
    (hrun : (main files).run Image.init = .ok ((), s)) :
    Consistent files s ↔ (files.length + 2) % (BSIZE / 16) ≠ 0 ∧ files.length + 1 < NINODES ∧
      ∀ f ∈ files, f.shortname ≠ dot ∧ f.shortname ≠ dotdot := by
  by_cases hlen : files.length + 1 < NINODES
  · have hwp : wp (main files) (fun _ t => ∃ u, t = u.finish ∧ Built files u) (fun _ => True) Image.init :=
      wp_main hlen (.inl fun _ => trivial) fun t ht => ⟨t, rfl, ht⟩
    obtain ⟨u, rfl, hu⟩ := wp_of_ok hwp hrun
    refine ⟨fun hc => ?_, fun ⟨hround, _, hdots⟩ =>
      finish_consistent hu hlen hround hnames (fun f hf => (hname f hf).2) hdots⟩
    have hround : (files.length + 2) % 64 ≠ 0 := fun h0 => by
      obtain ⟨bn, htype, hbn, hptr⟩ := finish_root_hole hu hlen h0
      have hlow := (hc.blocks ROOTINO bn htype hbn).1
      rw [hptr] at hlow
      exact absurd hlow (by decide)
    exact ⟨hround, hlen, finish_dots hu hc hlen hround⟩
  · refine iff_of_false (fun hc => hlen ?_) fun h => hlen h.2.1
    have hfree := wp_of_ok (Takes.main files) hrun
    have hle : s.freeinode ≤ NINODES := hc.inum_lt
    omega

theorem exists_run (hlen : files.length + 1 < NINODES) (hfits : ∀ f ∈ files, f.Fits)
    (hroom : nmeta + 4 + (files.map HostFile.cost).sum ≤ FSSIZE) :
    ∃ s, (main files).run Image.init = .ok ((), s.finish) ∧ Built files s := by
  have hwp : wp (main files) (fun _ t => ∃ s, t = s.finish ∧ Built files s) (fun _ => False) Image.init :=
    wp_main hlen (.inr ⟨hfits, hroom⟩) fun t ht => ⟨t, rfl, ht⟩
  obtain ⟨_, t, hrun, s, rfl, hs⟩ := exists_of_wp hwp
  exact ⟨s, hrun, hs⟩

/-- The file `user/_cat` with three bytes. -/
def catFile : HostFile where
  path := [117, 115, 101, 114, 47, 95, 99, 97, 116]
  opens := true
  reads := [[127, 69, 76]]
  path_ne_zero := by decide
  read_ne_nil := by decide
  read_le := by decide

theorem catFile_fits : catFile.Fits := ⟨by decide, rfl, by decide, by decide⟩

theorem image_agrees_one : ∃ s, (main [catFile]).run Image.init = .ok ((), s) ∧ Consistent [catFile] s := by
  obtain ⟨s, hrun, -⟩ := @exists_run [catFile] (by decide)
    (fun f hf => List.mem_singleton.mp hf ▸ catFile_fits) (by decide)
  exact ⟨s.finish, hrun, (image_agrees [catFile] (by decide) (by decide) hrun).mpr (by decide)⟩

/-- An empty file with a name of two letters. -/
def emptyFile (k : Fin 62) : HostFile where
  path := [UInt8.ofNat (97 + k / 26), UInt8.ofNat (97 + k % 26)]
  opens := true
  reads := []
  path_ne_zero := by revert k; decide
  read_ne_nil := nofun
  read_le := nofun

/-- With 62 files the entries of the root directory fill one block, and the size of two blocks that `mkfs`
gives it asks for a block that is not there. -/
theorem root_block_missing : ∃ (files : List HostFile) (s : Image),
    (files.map HostFile.shortname).Nodup ∧
    (∀ f ∈ files, 1 ≤ f.shortname.length ∧ f.shortname.length ≤ DIRSIZ) ∧
    (main files).run Image.init = .ok ((), s) ∧
    1 < ((s.disk.dinode ROOTINO).size + (BSIZE - 1)) / BSIZE ∧
    s.disk.ptr sb (ROOTINO, slotOf 1) = 0 ∧ ¬ Consistent files s := by
  have hfits : ∀ f ∈ (List.finRange 62).map emptyFile, f.Fits := by
    intro f hf
    obtain ⟨k, -, rfl⟩ := List.mem_map.mp hf
    refine ⟨?_, rfl, ?_, Nat.zero_le _⟩
    · exact (by decide : ∀ k, slash ∉ (emptyFile k).base) k
    · exact (by decide : ∀ k, (emptyFile k).shortname.length ≤ DIRSIZ) k
  have hlen : ((List.finRange 62).map emptyFile).length = 62 := by
    rw [List.length_map, List.length_finRange]
  have hcost : (((List.finRange 62).map emptyFile).map HostFile.cost).sum = 124 := by decide
  have hlt : ((List.finRange 62).map emptyFile).length + 1 < NINODES := by
    decide
  obtain ⟨s, hrun, hs⟩ := exists_run hlt hfits (by rw [hcost]; decide)
  have hsize : (s.finish.disk.dinode ROOTINO).size = 2048 := by
    rw [finish_dinode_root hs hlt]
    show ((s.store.dinode ROOTINO).size / 1024 + 1) * 1024 = 2048
    rw [size_root hs, hlen]
  have hasks : 1 < ((s.finish.disk.dinode ROOTINO).size + (BSIZE - 1)) / BSIZE := by
    rw [hsize]
    decide
  have hptr : s.finish.disk.ptr sb (ROOTINO, slotOf 1) = 0 := by
    rw [finish_ptr hs hlt]
    by_contra h0
    have := hs.inv.tight ROOTINO 1 h0
    rw [size_root hs] at this
    exact absurd this (by decide)
  refine ⟨_, s.finish, by decide, ?_, hrun, hasks, hptr, fun hc => ?_⟩
  · intro f hf
    obtain ⟨k, -, rfl⟩ := List.mem_map.mp hf
    exact (by decide : ∀ k, 1 ≤ (emptyFile k).shortname.length ∧ (emptyFile k).shortname.length ≤ DIRSIZ) k
  · have hroot : (s.finish.disk.dinode ROOTINO).type ≠ .free := by
      rw [finish_type hs hlt]
      exact hs.alloc_root.2
    have := (hc.blocks ROOTINO 1 hroot hasks).1
    rw [hptr] at this
    exact absurd this (by decide)

end Xv6.Mkfs

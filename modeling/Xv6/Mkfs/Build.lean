import Xv6.Fs.Directory
import Xv6.Mkfs.Append

/-!
# The image that `mkfs` builds

The inodes of the image are described by their contents: `ialloc` makes an empty one, and `iappend` appends
to the bytes of one. From these two the whole run follows. A run that ends early is excluded where the
image has room for all blocks, so that the same lemmas give runs that reach the end.
-/

namespace Xv6.Mkfs

open Function Fs Wp

def ofBytes (type : InodeType) (l : List UInt8) : Node := ⟨type, 0, 0, 1, l.length, fun o => (l[o]?).getD 0⟩

def sbBlock : Block := Block.zero.setBytes 0 32 sb.byte

structure Inv (s : Image) : Prop where
  ok : s.Ok
  own : Own sb sb.IsData s.store
  /-- no inode has blocks behind its end -/
  tight : ∀ i bn, s.store.ptr sb (i, slotOf bn) ≠ 0 → bn * BSIZE < (s.store.dinode i).size
  fresh : ∀ i, s.freeinode ≤ i → (s.store.dinode i).type = .free
  metas : ∀ b < sb.inodestart, s.img b = if b = 1 then sbBlock else .zero

variable {s t : Image} {E : Exit → Prop} {i : Nat} {type : InodeType} {l p : List UInt8}
  {Q : Unit → Image → Prop}

theorem alloc_of_node (hi : s.store.node sb i = ofBytes type l) (htype : type ≠ .free) :
    s.store.Alloc sb i := by
  by_contra hna
  rw [Store.node_of_not_alloc hna] at hi
  exact htype (congrArg Node.type hi).symm

theorem size_of_node (hi : s.store.node sb i = ofBytes type l) (ha : s.store.Alloc sb i) :
    (s.store.dinode i).size = l.length := by
  rw [Store.node_of_alloc ha] at hi
  exact congrArg Node.size hi

theorem fits_of_own {st : Store} (h : Own sb sb.IsData st) (ha : st.Alloc sb i) : (st.dinode i).Fits := by
  refine ⟨?_, fun k => ?_⟩
  · by_contra hbig
    have hlarge : MAXFILE * BSIZE < (st.dinode i).size := by
      simp only [MAXFILE, NDIRECT, NINDIRECT, BSIZE]
      omega
    exact Nat.lt_irrefl _ (h.bn_lt ha hlarge)
  · by_cases h0 : (st.dinode i).addrs k = 0
    · rw [h0]
      exact Nat.two_pow_pos _
    · have hptr : st.ptr sb (i, k.val) = (st.dinode i).addrs k := by
        rw [Store.ptr_of_alloc ha, Dinode.slot_of_lt k.isLt]
      have hlt : (st.dinode i).addrs k < 2000 := hptr ▸ (h.owns.inDom _ (hptr.symm ▸ h0)).2
      omega

theorem wp_rinode (h : s.Ok) (hi : i < sb.ninodes) {Q : Dinode → Image → Prop}
    (hQ : Q (s.store.dinode i) s) : wp (rinode i) Q E s := by
  have hlt := iblock_lt hi
  rw [Image.store_dinode hlt] at hQ
  rw [rinode, wp_bind]
  refine wp_rsect (fun _ => hQ) fun hbad => absurd hbad ?_
  rw [bmapstart_eq] at hlt
  rw [h.len]
  show ¬ 2000 ≤ _
  omega

theorem wp_winode (h : s.Ok) (hi : i < sb.ninodes) {d : Dinode}
    (hQ : Q () (s.write (sb.iblock i) ((s.img (sb.iblock i)).setDinode (i % IPB * 64) d))) :
    wp (winode i d) Q E s := by
  have hlt := iblock_lt hi
  rw [winode, wp_bind]
  refine wp_rsect (fun _ => hQ) fun hbad => absurd hbad ?_
  rw [bmapstart_eq] at hlt
  rw [h.len]
  show ¬ 2000 ≤ _
  omega

theorem Image.Ok.write_inode (h : s.Ok) (hi : i < sb.ninodes) (x : Block) :
    (s.write (sb.iblock i) x).Ok := by
  refine h.write ?_ x
  have hlt := iblock_lt hi
  have := h.lo
  rw [nmeta_eq] at this
  rw [bmapstart_eq] at hlt
  omega

theorem iblock_ne {b : Nat} (hb : b < sb.inodestart) : b ≠ sb.iblock i := by
  have : b < 32 := hb
  show b ≠ i / 16 + 32
  omega

/-- `iappend` appends the bytes to the inode and leaves the others as they are. -/
theorem wp_iappend (h : Inv s) (hnode : s.store.node sb i = ofBytes type l) (htype : type ≠ .free)
    (hE : (∀ e, E e) ∨
      s.freeblock + 2 * touched l.length p.length ≤ FSSIZE ∧ l.length + p.length ≤ MAXFILE * BSIZE)
   
    (hQ : ∀ t, Inv t → t.freeinode = s.freeinode →
      t.store.node sb = update (s.store.node sb) i (ofBytes type (l ++ p)) →
      t.freeblock ≤ s.freeblock + 2 * touched l.length p.length → Q () t) :
    wp (iappend i p) Q E s := by
  have ha := alloc_of_node hnode htype
  have hsize := size_of_node hnode ha
  rw [iappend, wp_bind]
  refine wp_rinode h.ok ha.1 ?_
  rw [wp_bind]
  set d₀ := s.store.dinode i with hd₀
  have hview : (s.fs i d₀).view 0 = s.store := Image.fs_view.trans (Store.setDinode_eq rfl)
  have hr : Ready sb sb.IsData 0 (s.fs i d₀) := by
    refine ⟨?_, ?_, hview.symm ▸ h.own⟩
    · rw [Image.fs_self]
      exact ha.1
    · rw [Image.fs_self]
      exact ha.2
  have hzero : Appending i p d₀.size 0 s d₀ s d₀ := .zero h.ok hr fun bn hbn => by
    rw [hview] at hbn
    exact h.tight i bn hbn
  rw [← hsize] at hE
  refine wp_iappendLoop hr hE (fun u din hu => ?_) p.length 0 s d₀ (Nat.zero_le _) (Nat.le_refl _) (.inl rfl)
    hzero
  -- the loop is done, and the inode is written
  obtain ⟨addrs, hself⟩ := hu.wrote.self
  have hdin : din = { d₀ with addrs := addrs } := congrArg Fs.Inode.copy hself
  set d : Dinode := { din with size := d₀.size + p.length } with hd
  have hcopy : (if ((u.fs i din).itable 0).copy.size < d₀.size + p.length
      then { ((u.fs i din).itable 0).copy with size := d₀.size + p.length }
      else ((u.fs i din).itable 0).copy) = d := by
    rw [Image.fs_self]
    split_ifs with hlt
    · rfl
    · have hz : p.length = 0 := by
        rw [hdin] at hlt
        simp only at hlt
        omega
      rw [hd, hdin, hz]
      rfl
  have hupd := hu.wrote.updated hr (by rw [Image.fs_self]; rfl) (by rw [Image.fs_self]) rfl none
  rw [hcopy] at hupd
  set v := u.write (sb.iblock i) ((u.img (sb.iblock i)).setDinode (i % IPB * 64) d) with hv
  have hown : Own sb sb.IsData (u.store.setDinode i d) := Image.fs_view ▸ hupd.own
  have hdtype : d.type = (s.store.dinode i).type := by rw [hd, hdin]
  have hda : (u.store.setDinode i d).Alloc sb i := ⟨ha.1, by rw [Store.setDinode_self, hdtype]; exact ha.2⟩
  have hfits : d.Fits := by
    have := fits_of_own hown hda
    rwa [Store.setDinode_self] at this
  have hstore : v.store = u.store.setDinode i d := Image.store_write_inode (iblock_lt ha.1) hfits
  have hvstore : (u.fs i d).view 0 = v.store := Image.fs_view.trans hstore.symm
  have hdinode : ∀ j, j ≠ i → v.store.dinode j = s.store.dinode j := by
    intro j hj
    rw [hstore, Store.setDinode_of_ne hj]
    exact congrFun hu.wrote.dinode j
  have hptr : ∀ c, v.store.ptr sb c = ((u.fs i din).view 0).ptr sb c := by
    intro c
    rw [hstore, ← Store.setDinode_setDinode (d := din)]
    exact Store.ptr_setDinode (by rw [Store.setDinode_self]) (by rw [Store.setDinode_self]) c
  refine wp_winode hu.ok ha.1 (hQ v ⟨hu.ok.write_inode ha.1 _, hstore ▸ hown, fun j bn hbn => ?_,
    fun j hj => ?_, fun b hb => ?_⟩ hu.kept.freeinode ?_ (hsize ▸ hu.room))
  · rw [hptr] at hbn
    by_cases hji : j = i
    · rw [hji, hstore, Store.setDinode_self]
      exact hu.tight bn (hji ▸ hbn)
    · rw [hdinode j hji]
      rw [hu.wrote.other _ (by rw [Image.fs_self]; exact hji), hview] at hbn
      exact h.tight j bn hbn
  · have hj' : s.freeinode ≤ j := hu.kept.freeinode ▸ hj
    have hji : j ≠ i := by
      rintro rfl
      exact ha.2 (h.fresh j hj')
    rw [hdinode j hji]
    exact h.fresh j hj'
  · rw [Image.write_of_ne (iblock_ne hb), hu.kept.metas b (Nat.lt_trans hb (by decide))]
    exact h.metas b hb
  · -- the bytes
    funext j
    by_cases hji : j = i
    · subst hji
      rw [update_self]
      obtain ⟨bytes, hn, hw, hk⟩ := hupd.nodeSelf
      replace hn : v.store.node sb j = _ := hvstore ▸ hn
      replace hn : v.store.node sb j = { s.store.node sb j with
          size := max d₀.size (d₀.size + p.length), bytes := bytes } := hn
      simp only [ite_self, Option.getD_none] at hk
      replace hk : ∀ o, o < d₀.size ∨ d₀.size + p.length ≤ o → bytes o = (s.store.node sb j).bytes o := hk
      rw [hnode, hsize] at hn
      rw [hnode] at hk
      rw [hsize] at hw
      rw [hn, ofBytes, ofBytes, List.length_append, Nat.max_eq_right (Nat.le_add_right _ _)]
      refine Node.ext rfl rfl rfl rfl rfl (funext fun o => ?_)
      show bytes o = ((l ++ p)[o]?).getD 0
      by_cases hin : l.length ≤ o ∧ o < l.length + p.length
      · rw [List.getElem?_append_right hin.1, hw o hin.1 hin.2]
        rfl
      · rw [hk o (by omega)]
        show (l[o]?).getD 0 = _
        by_cases ho : o < l.length
        · rw [List.getElem?_append_left ho]
        · rw [List.getElem?_eq_none (by omega), List.getElem?_eq_none (by rw [List.length_append]; omega)]
    · rw [update_of_ne hji]
      have := hupd.nodeOther j (by rw [Image.fs_self]; exact hji)
      exact hvstore ▸ this

theorem wp_ialloc (h : Inv s) (hlt : s.freeinode < sb.ninodes) (htype : type ≠ .free)
    {Q : Nat → Image → Prop}
    (hQ : ∀ t, Inv t → t.freeinode = s.freeinode + 1 → t.freeblock = s.freeblock →
      t.store.node sb = update (s.store.node sb) s.freeinode (ofBytes type []) → Q s.freeinode t) :
    wp (ialloc type) Q E s := by
  set i := s.freeinode with hi
  set d : Dinode := { Dinode.zero type with nlink := 1 } with hd
  set u : Image := { s with freeinode := i + 1 } with hu
  show wp (do winode i d; return i) Q E u
  rw [wp_bind]
  have huok : u.Ok := ⟨h.ok.len, h.ok.lo, h.ok.hi, h.ok.zero⟩
  refine wp_winode huok hlt ?_
  set t := u.write (sb.iblock i) ((u.img (sb.iblock i)).setDinode (i % IPB * 64) d) with ht
  have hfits : d.Fits := ⟨Nat.two_pow_pos _, fun _ => Nat.two_pow_pos _⟩
  have hstore : t.store = s.store.setDinode i d := Image.store_write_inode (iblock_lt hlt) hfits
  have hna : ¬ s.store.Alloc sb i := fun ha => ha.2 (h.fresh i (Nat.le_refl _))
  have hother : ∀ j, j ≠ i → t.store.dinode j = s.store.dinode j := fun j hj => by
    rw [hstore, Store.setDinode_of_ne hj]
  refine hQ t ⟨huok.write_inode hlt _, ?_, fun j bn hbn => ?_, fun j hj => ?_, fun b hb => ?_⟩ rfl rfl ?_
  · rw [hstore]
    exact h.own.setFresh hna rfl rfl
  · rw [hstore, Store.ptr_setFresh hna rfl] at hbn
    have hji : j ≠ i := by
      rintro rfl
      exact hbn (if_neg hna)
    rw [hother j hji]
    exact h.tight j bn hbn
  · have hj' : i + 1 ≤ j := hj
    rw [hother j (by omega)]
    exact h.fresh j (by omega)
  · rw [Image.write_of_ne (iblock_ne hb)]
    exact h.metas b hb
  · funext j
    by_cases hji : j = i
    · have ha : t.store.Alloc sb i := ⟨hlt, by rw [hstore, Store.setDinode_self]; exact htype⟩
      rw [hji, update_self, Store.node_of_alloc ha, hstore, Store.setDinode_self]
      rfl
    · rw [update_of_ne hji, hstore, Store.node_setDinode_of_ne hji]

/-! ## The files -/

theorem touched_le (off : Nat) {n : Nat} (h : n ≤ BSIZE) : touched off n ≤ 2 := by
  unfold touched
  simp only [BSIZE] at *
  split_ifs <;> omega

theorem wp_appendAll (h : Inv s) (hnode : s.store.node sb i = ofBytes type l) (htype : type ≠ .free)
    {reads : List (List UInt8)} (hle : ∀ c ∈ reads, c.length ≤ BSIZE)
    (hE : (∀ e, E e) ∨ s.freeblock + 4 * reads.length ≤ FSSIZE ∧
      l.length + reads.flatten.length ≤ MAXFILE * BSIZE)
    (hQ : ∀ t, Inv t → t.freeinode = s.freeinode → t.freeblock ≤ s.freeblock + 4 * reads.length →
      t.store.node sb = update (s.store.node sb) i (ofBytes type (l ++ reads.flatten)) → Q () t) :
    wp (reads.forM (iappend i)) Q E s := by
  refine wp_forM (fun pre t => Inv t ∧ t.freeinode = s.freeinode ∧ t.freeblock ≤ s.freeblock + 4 * pre.length ∧
    t.store.node sb = update (s.store.node sb) i (ofBytes type (l ++ pre.flatten))) ?_ ?_ ?_
  · refine ⟨h, rfl, Nat.le_add_right _ _, ?_⟩
    rw [List.flatten_nil, List.append_nil, ← hnode, update_eq_self]
  · rintro pre c post hreads t ⟨hinv, hfree, hroom, hnodes⟩
    have hself : t.store.node sb i = ofBytes type (l ++ pre.flatten) := by
      rw [hnodes, update_self]
    have hc := touched_le (l ++ pre.flatten).length (hle c (by rw [hreads]; simp))
    refine wp_iappend hinv hself htype ?_ fun u hu hf hn hr => ⟨hu, hf.trans hfree, ?_, ?_⟩
    · rcases hE with hE | ⟨h1, h2⟩
      · exact .inl hE
      · refine .inr ⟨?_, ?_⟩
        · rw [hreads, List.length_append, List.length_cons] at h1
          omega
        · rw [hreads, List.flatten_append, List.length_append, List.flatten_cons, List.length_append] at h2
          rw [List.length_append]
          omega
    · rw [List.length_append, List.length_singleton]
      omega
    · rw [hn, hnodes, update_idem, List.flatten_append, List.flatten_singleton, List.append_assoc]
  · rintro t ⟨hinv, hfree, hroom, hnodes⟩
    exact hQ t hinv hfree hroom hnodes

def dirents (files : List HostFile) : List Dirent :=
  ⟨ROOTINO, dot⟩ :: ⟨ROOTINO, dotdot⟩ :: files.mapIdx fun k f => ⟨k + 2, f.shortname⟩

def rootBytes (files : List HostFile) : List UInt8 := (dirents files).flatMap Dirent.bytes

def nodes (files : List HostFile) : Nat → Node
  | 0 => .free
  | 1 => ofBytes .dir (rootBytes files)
  | j + 2 => match files[j]? with
    | some f => ofBytes .file f.contents
    | none => .free

theorem length_dirents (files : List HostFile) : (dirents files).length = files.length + 2 := by
  simp [dirents]

theorem length_rootBytes (files : List HostFile) : (rootBytes files).length = 16 * (files.length + 2) := by
  have hlen : ∀ l : List Dirent, (l.flatMap Dirent.bytes).length = 16 * l.length := by
    intro l
    induction l with
    | nil => rfl
    | cons de l ih =>
      rw [List.flatMap_cons, List.length_append, Dirent.length_bytes, List.length_cons]
      omega
  rw [rootBytes, hlen, length_dirents]

theorem rootBytes_concat (files : List HostFile) (f : HostFile) :
    rootBytes (files ++ [f]) = rootBytes files ++ Dirent.bytes ⟨files.length + 2, f.shortname⟩ := by
  simp [rootBytes, dirents, List.mapIdx_append]

theorem nodes_concat (files : List HostFile) (f : HostFile) :
    nodes (files ++ [f]) = update (update (nodes files) 1
      (ofBytes .dir (rootBytes (files ++ [f])))) (files.length + 2) (ofBytes .file f.contents) := by
  funext j
  match j with
  | 0 =>
    rfl
  | 1 =>
    rfl
  | j + 2 =>
    by_cases hj : j = files.length
    · subst hj
      rw [update_self, nodes, List.getElem?_concat_length]
    · rw [update_of_ne (by omega), update_of_ne (by omega), nodes, nodes]
      by_cases hlt : j < files.length
      · rw [List.getElem?_append_left hlt]
      · rw [List.getElem?_eq_none (by rw [List.length_append, List.length_singleton]; omega),
          List.getElem?_eq_none (by omega)]

/-- The root directory and the inodes of `files` have been written. -/
structure Built (files : List HostFile) (s : Image) : Prop where
  inv : Inv s
  freeinode : s.freeinode = files.length + 2
  nodes : s.store.node sb = nodes files

/-- A file that `mkfs` accepts. -/
structure HostFile.Fits (f : HostFile) : Prop where
  slash : slash ∉ f.base
  opens : f.opens = true
  name : f.shortname.length ≤ DIRSIZ
  size : f.contents.length ≤ MAXFILE * BSIZE

/-- As many blocks as the file and its entry need at most. -/
def HostFile.cost (f : HostFile) : Nat := 2 + 4 * f.reads.length

theorem touched_dirent (k : Nat) : touched (16 * k) 16 = 1 := by
  unfold touched
  simp only [BSIZE]
  rw [if_neg (by omega)]
  omega

variable {files : List HostFile} {f : HostFile}

theorem wp_iappend_dirent {k : Nat} {de : Dirent} (h : Inv s) (hnode : s.store.node sb i = ofBytes .dir l)
    (hlen : l.length = 16 * k) (hE : (∀ e, E e) ∨ s.freeblock + 2 ≤ FSSIZE ∧ k ≤ 200)
   
    (hQ : ∀ t, Inv t → t.freeinode = s.freeinode → t.freeblock ≤ s.freeblock + 2 →
      t.store.node sb = update (s.store.node sb) i (ofBytes .dir (l ++ de.bytes)) → Q () t) :
    wp (iappend i de.bytes) Q E s := by
  have ht : touched l.length de.bytes.length = 1 := by rw [hlen, de.length_bytes, touched_dirent]
  refine wp_iappend h hnode (by decide) ?_ fun t hinv hf hn hr => hQ t hinv hf (by rw [ht] at hr; omega) hn
  rcases hE with hE | ⟨h1, h2⟩
  · exact .inl hE
  · refine .inr ⟨by rw [ht]; omega, ?_⟩
    rw [de.length_bytes]
    simp only [MAXFILE, NDIRECT, NINDIRECT, BSIZE]
    omega

theorem wp_addFile (h : Built files s) (hlt : files.length + 2 < sb.ninodes)
    (hE : (∀ e, E e) ∨ f.Fits ∧ s.freeblock + f.cost ≤ FSSIZE)
    (hQ : ∀ t, Built (files ++ [f]) t → t.freeblock ≤ s.freeblock + f.cost → Q () t) :
    wp (addFile ROOTINO f) Q E s := by
  have hfail : ∀ {c : Prop} {e : Exit}, c → (f.Fits → ¬ c) → E e := by
    intro c e hc hno
    rcases hE with hE | ⟨hf, -⟩
    · exact hE e
    · exact absurd hc (hno hf)
  rw [addFile, wp_ite]
  refine ⟨fun hc => hfail hc fun hf => hf.slash, fun _ => ?_⟩
  rw [wp_ite]
  refine ⟨fun hc => hfail hc fun hf => by simp [hf.opens], fun _ => ?_⟩
  rw [wp_ite]
  refine ⟨fun hc => hfail hc fun hf => Nat.not_lt.mpr hf.name, fun _ => ?_⟩
  rw [wp_bind]
  have hfree := h.freeinode
  refine wp_ialloc h.inv (hfree ▸ hlt) (by decide) fun t ht hti htb htn => ?_
  rw [h.nodes, hfree] at htn
  rw [wp_bind, hfree]
  have hne : files.length + 2 ≠ ROOTINO := by
    show files.length + 2 ≠ 1
    omega
  have hroot : t.store.node sb ROOTINO = ofBytes .dir (rootBytes files) := by
    rw [htn]
    rfl
  refine wp_iappend_dirent ht hroot (length_rootBytes files) ?_ fun u hu hui hub hun => ?_
  · rcases hE with hE | ⟨-, hroom⟩
    · exact .inl hE
    · rw [HostFile.cost] at hroom
      rw [ninodes_eq] at hlt
      exact .inr ⟨by omega, by omega⟩
  rw [← rootBytes_concat, htn, update_comm hne] at hun
  have hself : u.store.node sb (files.length + 2) = ofBytes .file [] := by
    rw [hun, update_self]
  refine wp_appendAll hu hself (by decide) f.read_le ?_ fun v hv hvi hvb hvn => hQ v ⟨hv, ?_, ?_⟩ ?_
  · rcases hE with hE | ⟨hf, hroom⟩
    · exact .inl hE
    · rw [HostFile.cost] at hroom
      exact .inr ⟨by omega, by rw [List.length_nil, Nat.zero_add]; exact hf.size⟩
  · rw [hvi, hui, hti, hfree, List.length_append, List.length_singleton]
  · rw [hvn, hun, nodes_concat, List.nil_append, update_idem, ← HostFile.contents]
  · rw [HostFile.cost]
    omega

theorem wp_addFiles (h : Built [] s) (hlt : files.length + 1 < sb.ninodes)
    (hE : (∀ e, E e) ∨ (∀ f ∈ files, f.Fits) ∧ s.freeblock + (files.map HostFile.cost).sum ≤ FSSIZE)
    (hQ : ∀ t, Built files t → Q () t) :
    wp (files.forM (addFile ROOTINO)) Q E s := by
  refine wp_forM (fun pre t => Built pre t ∧ t.freeblock ≤ s.freeblock + (pre.map HostFile.cost).sum)
    ⟨h, Nat.le_add_right _ _⟩ ?_ fun t ht => hQ t ht.1
  rintro pre f post rfl t ⟨ht, hroom⟩
  rw [List.length_append, List.length_cons] at hlt
  refine wp_addFile ht (by omega) ?_ fun u hu hle => ⟨hu, ?_⟩
  · rcases hE with hE | ⟨hf, htotal⟩
    · exact .inl hE
    · refine .inr ⟨hf f (by simp), ?_⟩
      rw [List.map_append, List.sum_append, List.map_cons, List.sum_cons] at htotal
      omega
  · rw [List.map_append, List.sum_append, List.map_singleton, List.sum_singleton]
    omega

/-! ## The whole run -/

theorem wp_zeroBlocks (n : Nat) {b : Nat} (hQ : Q () ⟨fun _ => .zero, n, 1, b⟩) :
    wp (zeroBlocks n) Q E ⟨fun _ => .zero, 0, 1, b⟩ := by
  rw [zeroBlocks]
  refine wp_forM (fun pre t => t = ⟨fun _ => .zero, pre.length, 1, b⟩) rfl ?_ ?_
  · rintro pre c post hl t rfl
    have hc : c = pre.length := by
      have h1 := congrArg (fun l => l[pre.length]?) hl
      simp only [List.getElem?_append_right (Nat.le_refl _), Nat.sub_self, List.getElem?_cons_zero] at h1
      obtain ⟨hlt, heq⟩ := List.getElem?_eq_some_iff.mp h1
      rw [List.getElem_range] at heq
      exact heq.symm
    show (Image.write _ c .zero) = _
    rw [Image.write, hc, List.length_append]
    simp only [Image.mk.injEq, and_true]
    exact ⟨update_eq_self_iff.mpr rfl, Nat.max_eq_right (Nat.le_succ _)⟩
  · rintro t rfl
    rw [List.length_range]
    exact hQ

/-- The image with zeroes and the superblock. -/
def Image.zeroes : Image := Image.write ⟨fun _ => .zero, FSSIZE, 1, nmeta⟩ 1 sbBlock

theorem Image.zeroes_img {b : Nat} (hb : b ≠ 1) : Image.zeroes.img b = .zero := Image.write_of_ne hb

theorem wp_writeZeroes (hQ : Q () Image.zeroes) :
    wp writeZeroes Q E Image.init := by
  rw [writeZeroes, wp_bind, wp_modify, wp_bind]
  exact wp_zeroBlocks FSSIZE hQ

theorem zeroes_free (i : Nat) : (Image.zeroes.store.dinode i).type = .free := by
  show (if _ then (Image.zeroes.img _).dinode _ else _ : Dinode).type = _
  split_ifs
  · have hne : sb.iblock i ≠ 1 := by
      show i / 16 + 32 ≠ 1
      omega
    have hbyte : ∀ o, Block.zero.byte o = 0 := fun o => by
      unfold Block.byte
      split <;> rfl
    rw [Image.zeroes_img hne]
    simp only [Block.dinode, Block.getUshort, hbyte]
    rfl
  · rfl

theorem not_alloc_zeroes (i : Nat) : ¬ Image.zeroes.store.Alloc sb i := fun ha => ha.2 (zeroes_free i)

theorem inv_zeroes : Inv Image.zeroes := by
  have hptr : ∀ c, Image.zeroes.store.ptr sb c = 0 := fun c => if_neg (not_alloc_zeroes c.1)
  refine ⟨⟨Nat.max_eq_left (by decide), Nat.le_refl _, by decide, fun b hb => ?_⟩, ⟨⟨fun c h0 => absurd (hptr c) h0,
    fun c h0 => absurd (hptr c) h0, fun c _ h0 => absurd (hptr c) h0, fun b hb hd hu => ?_⟩,
    fun b hb hd => ?_, fun i bn ha => absurd ha (not_alloc_zeroes i), fun hd => hd.ne_zero rfl⟩,
    fun i bn h0 => absurd (hptr _) h0, fun i _ => zeroes_free i, fun b hb => ?_⟩
  · have hb' : 46 ≤ b := hb
    exact Image.zeroes_img (by omega)
  · -- no data block is in use
    have hlt : b < 46 := of_decide_eq_true hu
    have hge : 46 ≤ b := hd.1
    omega
  · exact decide_eq_true (Nat.lt_of_not_le fun hge => hd ⟨hge, hb⟩)
  · by_cases h1 : b = 1
    · rw [h1]
      exact Image.write_self
    · rw [if_neg h1, Image.zeroes_img h1]

theorem wp_makeRoot (h : Inv s) (hfree : s.freeinode = 1) (hblock : s.freeblock = nmeta)
    (hnode : s.store.node sb = fun _ => .free) {Q : Nat → Image → Prop}
    (hQ : ∀ t, Built [] t → t.freeblock ≤ nmeta + 4 → Q ROOTINO t) : wp makeRoot Q E s := by
  rw [makeRoot, wp_bind]
  refine wp_ialloc h (by rw [hfree]; decide) (by decide) fun t ht hti htb htn => ?_
  rw [hfree] at hti htn ⊢
  rw [wp_ite]
  refine ⟨fun hc => absurd rfl hc, fun _ => ?_⟩
  rw [wp_bind]
  have hroom : nmeta + 4 ≤ FSSIZE := by decide
  refine wp_iappend_dirent (k := 0) ht (by rw [htn, update_self]) rfl
    (.inr ⟨by omega, by omega⟩) fun u hu hui hub hun => ?_
  rw [wp_bind]
  refine wp_iappend_dirent (k := 1) hu (by rw [hun, update_self]) ?_
    (.inr ⟨by omega, by omega⟩) fun v hv hvi hvb hvn => hQ v ⟨hv, ?_, ?_⟩ (by omega)
  · rw [List.nil_append, Dirent.length_bytes]
  · rw [hvi, hui, hti]
    rfl
  · rw [hvn, hun, htn, hnode, update_idem]
    funext j
    match j with
    | 0 => rfl
    | 1 => exact update_self ..
    | j + 2 => exact update_of_ne (by omega) ..

/-- What remains to be done after the files: the size of the root directory and the free map. -/
def Image.finish (s : Image) : Image :=
  (s.write (sb.iblock ROOTINO) ((s.img (sb.iblock ROOTINO)).setDinode (ROOTINO % IPB * 64)
    { s.store.dinode ROOTINO with size := ((s.store.dinode ROOTINO).size / BSIZE + 1) * BSIZE })).write
      sb.bmapstart (usedBits s.freeblock)

theorem wp_main (hlt : files.length + 1 < sb.ninodes)
    (hE : (∀ e, E e) ∨ (∀ f ∈ files, f.Fits) ∧
      nmeta + 4 + (files.map HostFile.cost).sum ≤ FSSIZE)
    (hQ : ∀ t, Built files t → Q () t.finish) : wp (main files) Q E Image.init := by
  rw [main, wp_bind]
  refine wp_writeZeroes ?_
  rw [wp_bind]
  refine wp_makeRoot inv_zeroes rfl rfl (funext fun i => Store.node_of_not_alloc (not_alloc_zeroes i))
    fun s hs hroom => ?_
  rw [wp_bind]
  refine wp_addFiles hs hlt ?_ fun t ht => ?_
  · rcases hE with hE | ⟨hf, htotal⟩
    · exact .inl hE
    · exact .inr ⟨hf, by omega⟩
  rw [wp_bind, fixRoot, wp_bind]
  refine wp_rinode ht.inv.ok (by decide) (wp_winode ht.inv.ok (by decide) ?_)
  rw [wp_bind, wp_get, balloc, wp_ite]
  refine ⟨fun hbig => absurd hbig ?_, fun _ => hQ t ht⟩
  have : t.freeblock ≤ 2000 := ht.inv.ok.hi
  show ¬ 8192 ≤ t.freeblock
  omega

end Xv6.Mkfs

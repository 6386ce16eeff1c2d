import Xv6.Fs.Content
import Xv6.Fs.LogRoom
import Xv6.Fs.Trunc

/-!
# Files are arrays of bytes

`Node.contents` is an inode as a list of bytes. A sequence of `readi`, `writei` and `itrunc`, each in a
transaction of its own, acts on these lists as the same operations on an array: a read returns a part of
the list, a write replaces a part of it and may append, `itrunc` empties it, and the lists of the other
inodes stay the same.
-/

namespace Xv6.Fs

open Function Wp

def Node.contents (n : Node) : List UInt8 := (List.range n.size).map n.bytes

@[simp] theorem Node.length_contents (n : Node) : n.contents.length = n.size := by simp [Node.contents]

theorem Node.getElem_contents {n : Node} {o : Nat} (h : o < n.contents.length) : n.contents[o] = n.bytes o := by
  simp [Node.contents]

/-- A call on the inode at `ip`; all copies to and from memory succeed. -/
inductive FileOp where
  | read (ip : Ptr) (off n : UInt32)
  | write (ip : Ptr) (src : Nat → UInt8) (off n : UInt32)
  | trunc (ip : Ptr)

/-- What a call returns; `none` is -1. -/
inductive FileReply where
  | read (r : Option (List UInt8))
  | write (r : Option Nat)
  | trunc
  deriving DecidableEq

namespace FileOp

variable (sb : Superblock)

def ip : FileOp → Ptr
  | read ip _ _ => ip
  | write ip _ _ _ => ip
  | trunc ip => ip

def call : FileOp → M FileReply
  | read ip off n => .read <$> readi sb ip (fun _ => true) off.toNat n.toNat
  | write ip src off n => .write <$> writei sb ip (fun j => some (src j)) off.toNat n.toNat
  | trunc ip => (fun _ => .trunc) <$> itrunc sb ip

def run (op : FileOp) : M FileReply := do
  beginOp
  let r ← call sb op
  endOp
  return r

def runAll : List FileOp → M (List FileReply)
  | [] => return []
  | op :: ops => do
    let r ← run sb op
    let rs ← runAll ops
    return r :: rs

def written (src : Nat → UInt8) (tot : Nat) : List UInt8 := (List.range tot).map src

/-- What a call does to the files: `s` and `t` are the states before and after it. -/
def Does (s t : Fs) : FileOp → FileReply → Prop
  | read ip off n, .read r =>
    let file := (s.store.node sb (s.itable ip).inum).contents
    r = some (if file.length < off.toNat ∨ 2 ^ 32 ≤ off.toNat + n.toNat then []
      else (file.drop off.toNat).take n.toNat) ∧
    t.store = s.store ∧ t.itable = s.itable
  | write ip src off n, .write r =>
    let i := (s.itable ip).inum
    let file := (s.store.node sb i).contents
    if file.length < off.toNat ∨ 2 ^ 32 ≤ off.toNat + n.toNat ∨ MAXFILE * BSIZE < off.toNat + n.toNat then
      r = none ∧ t.store = s.store ∧ t.itable = s.itable
    else ∃ tot, r = some tot ∧ tot ≤ n.toNat ∧ (tot < n.toNat → t.Full sb) ∧
      (t.store.node sb i).contents = file.take off.toNat ++ written src tot ++ file.drop (off.toNat + tot) ∧
      ∀ j, j ≠ i → t.store.node sb j = s.store.node sb j
  | trunc ip, .trunc =>
    let i := (s.itable ip).inum
    (t.store.node sb i).contents = [] ∧ ∀ j, j ≠ i → t.store.node sb j = s.store.node sb j
  | _, _ => False

/-- The calls of a sequence, each from the state that the one before it has left. -/
inductive DoAll : Fs → List FileOp → List FileReply → Fs → Prop
  | nil (s : Fs) : DoAll s [] [] s
  | cons {s t u : Fs} {op : FileOp} {r : FileReply} {ops : List FileOp} {rs : List FileReply} :
      Does sb s t op r → DoAll t ops rs u → DoAll s (op :: ops) (r :: rs) u

/-- How many blocks the call logs at most. -/
def cost : FileOp → Nat
  | read _ _ _ => 0
  | write _ _ off n => writeCost sb off.toNat n.toNat
  | trunc _ => sb.size / BPB + 2

end FileOp

/-- Block ownership is consistent: the pointers are distinct and marked in the free map, and no block
below the size of an inode is unallocated. -/
structure Consistent (sb : Superblock) (st : Store) : Prop where
  distinct : ∀ c c', st.ptr sb c ≠ 0 → st.ptr sb c = st.ptr sb c' → c = c'
  marked : ∀ c, st.ptr sb c ≠ 0 → st.bitmap (st.ptr sb c) = true
  noHole : ∀ i bn, st.Alloc sb i → bn * BSIZE < (st.dinode i).size → st.ptr sb (i, slotOf bn) ≠ 0

/-- Inodes use blocks of the data region, and the blocks outside of it are marked in the free map. -/
structure Reserved (sb : Superblock) (st : Store) : Prop where
  inData : ∀ c, st.ptr sb c ≠ 0 → sb.IsData (st.ptr sb c)
  metaBits : ∀ b < sb.size, ¬ sb.IsData b → st.bitmap b = true

/-- The entries in `live` hold distinct allocated inodes as they are on the disk. -/
structure Loaded (sb : Superblock) (live : Ptr → Prop) (s : Fs) : Prop where
  lt : ∀ ip, live ip → (s.itable ip).inum < sb.ninodes
  type : ∀ ip, live ip → (s.itable ip).copy.type ≠ .free
  clean : ∀ ip, live ip → s.store.dinode (s.itable ip).inum = (s.itable ip).copy
  inj : ∀ ip ip', live ip → live ip' → (s.itable ip).inum = (s.itable ip').inum → ip = ip'

section

variable {sb : Superblock} {D : Nat → Prop} {s t : Fs} {live : Ptr → Prop} {E : Panic → Prop}

theorem Consistent.own {st : Store} (h : Consistent sb st) (hr : Reserved sb st) :
    Own sb (fun b => sb.IsData b ∧ (st.bitmap b = false ∨ ∃ c, st.ptr sb c = b)) st where
  owns :=
    { inDom := fun c hc => ⟨hr.inData c hc, .inr ⟨c, rfl⟩⟩
      isUsed := h.marked
      inj := h.distinct
      full := fun b _ hd hu => hd.2.resolve_left fun hfree => by simp [hu] at hfree }
  metaBits := fun b hb hd => by
    by_contra hbit
    have hfree : st.bitmap b = false := by simpa using hbit
    refine hd ⟨?_, .inl hfree⟩
    by_contra hdata
    exact hbit (hr.metaBits b hb hdata)
  noHole := h.noHole
  notZero := fun h0 => h0.1.ne_zero rfl

/-- What the calls keep. -/
structure FilesOk (sb : Superblock) (D : Nat → Prop) (live : Ptr → Prop) (s : Fs) : Prop where
  own : Own sb D s.store
  loaded : Loaded sb live s

namespace FilesOk

variable {ip : Ptr}

section

variable (h : FilesOk sb D live s)
include h

theorem view_eq (hip : live ip) : s.view ip = s.store :=
  Store.setDinode_eq (h.loaded.clean ip hip)

theorem ready (hip : live ip) : Ready sb D ip s := by
  refine ⟨h.loaded.lt ip hip, h.loaded.type ip hip, ?_⟩
  rw [h.view_eq hip]
  exact h.own

theorem alloc (hip : live ip) : s.store.Alloc sb (s.itable ip).inum := by
  refine ⟨h.loaded.lt ip hip, ?_⟩
  rw [h.loaded.clean ip hip]
  exact h.loaded.type ip hip

theorem node_size (hip : live ip) :
    (s.store.node sb (s.itable ip).inum).size = (s.itable ip).copy.size := by
  rw [Store.node_of_alloc (h.alloc hip), h.loaded.clean ip hip]

theorem of_eq (hst : t.store = s.store) (hit : t.itable = s.itable) :
    FilesOk sb D live t := by
  refine ⟨hst ▸ h.own, ?_⟩
  obtain ⟨h1, h2, h3, h4⟩ := h.loaded
  constructor <;> rw [hit]
  · exact h1
  · exact h2
  · rwa [hst]
  · exact h4

theorem update (hip : live ip) (hown : Own sb D t.store)
    (hothers : ∀ e, e ≠ ip → t.itable e = s.itable e) (hinum : (t.itable ip).inum = (s.itable ip).inum)
    (htype : (t.itable ip).copy.type = (s.itable ip).copy.type)
    (hdisk : t.store.dinode = update s.store.dinode (s.itable ip).inum (t.itable ip).copy) :
    FilesOk sb D live t := by
  have hnum : ∀ e, (t.itable e).inum = (s.itable e).inum := fun e => by
    by_cases he : e = ip
    · rw [he, hinum]
    · rw [hothers e he]
  refine ⟨hown, fun e he => ?_, fun e he => ?_, fun e he => ?_, fun e e' he he' heq => ?_⟩
  · rw [hnum]
    exact h.loaded.lt e he
  · by_cases hei : e = ip
    · rw [hei, htype]
      exact h.loaded.type ip hip
    · rw [hothers e hei]
      exact h.loaded.type e he
  · rw [hdisk, hnum]
    by_cases hei : e = ip
    · rw [hei, update_self]
    · rw [update_of_ne fun hn => hei (h.loaded.inj e ip he hip hn), hothers e hei]
      exact h.loaded.clean e he
  · rw [hnum, hnum] at heq
    exact h.loaded.inj e e' he he' heq

end

end FilesOk

theorem overflow_iff (off n : UInt32) :
    (off.toNat + n.toNat) % 2 ^ 32 < off.toNat ↔ 2 ^ 32 ≤ off.toNat + n.toNat := by
  have h2 := n.toNat_lt
  omega

theorem contents_read (n : Node) (off cnt : Nat) : (n.contents.drop off).take cnt =
    (List.range (if n.size < off + cnt then n.size - off else cnt)).map fun j => n.bytes (off + j) := by
  refine List.ext_getElem ?_ fun j h1 h2 => ?_
  · simp only [List.length_take, List.length_drop, Node.length_contents, List.length_map, List.length_range]
    split_ifs <;> omega
  · simp [Node.contents]

theorem FilesOk.readBytes (h : FilesOk sb D live s) {ip : Ptr} (hip : live ip) (off n : UInt32) :
    s.store.readBytes sb (s.itable ip).inum (s.itable ip).copy.size off.toNat n.toNat =
      if (s.store.node sb (s.itable ip).inum).contents.length < off.toNat ∨ 2 ^ 32 ≤ off.toNat + n.toNat then []
      else ((s.store.node sb (s.itable ip).inum).contents.drop off.toNat).take n.toNat := by
  simp only [contents_read, Node.length_contents, h.node_size hip, Store.readBytes, overflow_iff]
  split_ifs with hc hlt
  · rfl
  all_goals
    refine List.map_congr_left fun j hj => ?_
    have hj' := List.mem_range.mp hj
    rw [Store.node_of_alloc (h.alloc hip), h.loaded.clean ip hip]
    exact (if_pos (by omega)).symm

theorem contents_write {n y : Node} {src : Nat → UInt8} {off tot : Nat} (hoff : off ≤ n.size)
    (hsize : y.size = max n.size (off + tot))
    (hnew : ∀ o, off ≤ o → o < off + tot → src (o - off) = y.bytes o)
    (hold : ∀ o, o < off ∨ off + tot ≤ o → y.bytes o = n.bytes o) :
    y.contents = n.contents.take off ++ FileOp.written src tot ++ n.contents.drop (off + tot) := by
  refine List.ext_getElem ?_ fun o h1 h2 => ?_
  · simp only [Node.length_contents, List.length_append, List.length_take, List.length_drop, FileOp.written,
      List.length_map, List.length_range, hsize]
    omega
  · rw [Node.getElem_contents, List.getElem_append]
    have hlen : (n.contents.take off ++ FileOp.written src tot).length = off + tot := by
      simp only [List.length_append, List.length_take, Node.length_contents, FileOp.written, List.length_map,
        List.length_range]
      omega
    split_ifs with hmid
    · rw [List.getElem_append]
      split_ifs with hlo
      · rw [List.length_take] at hlo
        rw [List.getElem_take, Node.getElem_contents]
        exact hold o (.inl (by omega))
      · rw [List.length_take, Node.length_contents] at hlo
        simp only [FileOp.written, List.getElem_map, List.getElem_range, List.length_take, Node.length_contents,
          Nat.min_eq_left hoff]
        exact (hnew o (by omega) (by omega)).symm
    · rw [List.getElem_drop, Node.getElem_contents, hlen]
      rw [show off + tot + (o - (off + tot)) = o by omega]
      exact hold o (.inr (by omega))

theorem wp_call (hsb : sb.size < 2 ^ 32) (h : FilesOk sb D live s) {op : FileOp} (hip : live op.ip) :
    wp (op.call sb) (fun r t => op.Does sb s t r ∧ FilesOk sb D live t) Panic.OfLog s := by
  cases op with
  | read ip off n =>
    replace hip : live ip := hip
    rw [FileOp.call, wp_map]
    refine wp_readi (h.ready hip) _ _ _ fun r hr => ⟨⟨?_, rfl, rfl⟩, h⟩
    rw [hr fun _ => rfl, h.view_eq hip, h.readBytes hip]
  | write ip src off n =>
    replace hip : live ip := hip
    have hsize := h.node_size hip
    rw [FileOp.call, wp_map]
    refine wp_writei hsb (.inl logFails_ofLog) (h.ready hip) (h.loaded.clean ip hip) _ (fun hbad => ⟨?_, h⟩)
      fun tot t hoff hmax htot _ hspace _ hw _ => ⟨?_, ?_⟩
    · rw [← hsize, ← Node.length_contents, overflow_iff] at hbad
      exact (if_pos hbad).mpr ⟨rfl, rfl, rfl⟩
    · have hgood : ¬ ((s.store.node sb (s.itable ip).inum).contents.length < off.toNat ∨
          2 ^ 32 ≤ off.toNat + n.toNat ∨ MAXFILE * BSIZE < off.toNat + n.toNat) := by
        rw [Node.length_contents]
        have hbytes : MAXFILE * BSIZE < 2 ^ 32 := by decide
        omega
      refine (if_neg hgood).mpr ⟨tot, rfl, htot, fun hlt => (hspace hlt fun _ _ => rfl).full, ?_, hw.nodeOther⟩
      obtain ⟨bytes, hnode, hnew, hold⟩ := hw.nodeKept htot
      rw [hnode]
      refine contents_write (hsize ▸ hoff) (by rw [hsize]) (fun o h1 h2 => Option.some.inj (hnew o h1 h2))
        fun o ho => hold o (ho.imp_right fun hge => .inr ⟨fun _ _ => rfl, hge⟩)
    · obtain ⟨addrs, hself⟩ := hw.self
      exact h.update hip hw.own hw.others (by rw [hself]) (by rw [hself]) hw.dinode
  | trunc ip =>
    replace hip : live ip := hip
    have hready := h.ready hip
    rw [FileOp.call, wp_map]
    refine wp_itrunc logFails_ofLog hready fun t ht => ⟨⟨?_, fun j hj => ?_⟩, ?_⟩
    · rw [ht.node_self hready]
      rfl
    · rw [ht.node_other hj, h.view_eq hip]
    · refine h.update hip (ht.own hready) ht.others (by rw [ht.self]) (by rw [ht.self]; rfl) ?_
      rw [ht.self]
      exact ht.dinode

theorem FileOp.Does.of_eq {s' t' : Fs} {op : FileOp} {r : FileReply} (h : op.Does sb s t r)
    (hs : s'.store = s.store) (hs' : s'.itable = s.itable) (ht : t'.store = t.store)
    (ht' : t'.itable = t.itable) : op.Does sb s' t' r := by
  have hfull : t'.Full sb ↔ t.Full sb := by
    unfold Full
    rw [ht]
  cases op <;> cases r <;> simp only [FileOp.Does, hs, hs', ht, ht', hfull] at h ⊢ <;> exact h

theorem wp_fileOp (hsb : sb.size < 2 ^ 32) (h : FilesOk sb D live s) {op : FileOp} (hip : live op.ip) :
    wp (op.run sb) (fun r t => op.Does sb s t r ∧ FilesOk sb D live t) Panic.OfLog s := by
  have hbegin : FilesOk sb D live { s with trans := some [] } := h.of_eq rfl rfl
  rw [FileOp.run, wp_bind, beginOp]
  refine (wp_call hsb hbegin hip).bind fun r t ⟨hdoes, hok⟩ => ?_
  rw [wp_bind, endOp]
  exact ⟨hdoes.of_eq rfl rfl rfl rfl, hok.of_eq rfl rfl⟩

theorem wp_fileOp_room (hsb : sb.size < 2 ^ 32) (hD : ∀ b, D b → b < sb.size) (h : FilesOk sb D live s)
    {op : FileOp} (hip : live op.ip) (hcost : op.cost sb ≤ logCapacity sb) :
    wp (op.run sb) (fun _ _ => True) (fun e => ¬ e.OfLog) s := by
  have hbegin : FilesOk sb D live { s with trans := some [] } := h.of_eq rfl rfl
  rw [FileOp.run, wp_bind, beginOp]
  suffices hcall : wp (op.call sb) (fun _ _ => True) (fun e => ¬ e.OfLog) { s with trans := some [] } from
    hcall.bind fun _ _ _ => trivial
  cases op with
  | read ip off n =>
    rw [FileOp.call, wp_map]
    exact wp_readi (hbegin.ready hip) _ _ _ fun _ _ => trivial
  | write ip src off n =>
    have hroom : ([] : List Nat).length + writeCost sb off.toNat n.toNat ≤ logCapacity sb := by
      rw [List.length_nil, Nat.zero_add]
      exact hcost
    rw [FileOp.call, wp_map]
    exact wp_writei hsb (.inr ⟨[], rfl, hroom⟩) (hbegin.ready hip) (hbegin.loaded.clean ip hip) _ (fun _ => trivial)
      fun _ _ _ _ _ _ _ _ _ _ => trivial
  | trunc ip =>
    have hready : Ready sb D ip { s with trans := some [] } := hbegin.ready hip
    rw [FileOp.call, wp_map]
    refine wp_itrunc_room rfl hcost fun k hk => ?_
    rw [← hready.ptr_eq] at hk ⊢
    exact hD _ (hready.own.owns.inDom _ hk)

theorem wp_runAll {E : Panic → Prop} (ops : List FileOp) (hop : ∀ op ∈ ops, ∀ s, FilesOk sb D live s →
    wp (op.run sb) (fun r t => op.Does sb s t r ∧ FilesOk sb D live t) E s) :
    ∀ {s : Fs}, FilesOk sb D live s → wp (FileOp.runAll sb ops) (FileOp.DoAll sb s ops) E s := by
  induction ops with
  | nil => exact fun {s} _ => FileOp.DoAll.nil s
  | cons op ops ih =>
    intro s h
    obtain ⟨hfirst, hrest⟩ := List.forall_mem_cons.mp hop
    refine (hfirst s h).bind fun r t hrt => ?_
    exact (ih hrest hrt.2).bind fun rs u hall => FileOp.DoAll.cons hrt.1 hall

/-- A sequence of calls, from a consistent disk: each does to the files what it does to arrays of bytes, or
panics in the log, which it does not if the transaction has room. -/
theorem files_are_byte_arrays (sb : Superblock) (hsb : sb.size < 2 ^ 32) (live : Ptr → Prop) (s : Fs)
    (hc : Consistent sb s.store) (hr : Reserved sb s.store) (hl : Loaded sb live s) (ops : List FileOp)
    (hops : ∀ op ∈ ops, live op.ip) :
    wp (FileOp.runAll sb ops) (FileOp.DoAll sb s ops) Panic.OfLog s ∧
      ((∀ op ∈ ops, op.cost sb ≤ logCapacity sb) →
        ∃ rs t, (FileOp.runAll sb ops).run s = .ok (rs, t) ∧ FileOp.DoAll sb s ops rs t) := by
  have hok : FilesOk sb _ live s := ⟨hc.own hr, hl⟩
  refine ⟨wp_runAll ops (fun op ho s h => wp_fileOp hsb h (hops op ho)) hok, fun hcost =>
    exists_of_wp (wp_runAll ops (fun op ho s h => ?_) hok)⟩
  exact (wp_fileOp hsb h (hops op ho)).of_not
    (wp_fileOp_room hsb (fun b hb => hb.1.2) h (hops op ho) (hcost op ho))

end

/-- A disk of `mkfs`'s size with the free map `bits` on which the inode 1 is an empty file. -/
def oneFile (bits : Nat → Bool) : Store where
  bitmap := bits
  dinode := fun i => .zero (if i = 1 then .file else .free)
  data := fun _ => .zero

/-- Every entry of the table holds the inode 1. -/
def oneFileFs (bits : Nat → Bool) : Fs where
  store := oneFile bits
  itable := fun _ => { inum := 1, ref := 1, valid := true, locked := true, copy := (oneFile bits).dinode 1 }
  trans := none
  trace := []

theorem oneFile_ptr (bits : Nat → Bool) (c : Nat × Nat) : (oneFile bits).ptr Mkfs.sb c = 0 := by
  unfold Store.ptr
  split_ifs
  · by_cases hk : c.2 < NDIRECT + 1
    · exact Dinode.slot_of_lt hk
    · exact Dinode.slot_of_last_eq_zero (by omega) rfl
  · rfl

theorem oneFile_consistent (bits : Nat → Bool) : Consistent Mkfs.sb (oneFile bits) where
  distinct := fun c _ hc => absurd (oneFile_ptr bits c) hc
  marked := fun c hc => absurd (oneFile_ptr bits c) hc
  noHole := fun _ _ _ hbn => absurd hbn (Nat.not_lt_zero _)

theorem oneFile_loaded (bits : Nat → Bool) : Loaded Mkfs.sb (fun ip => ip = 0) (oneFileFs bits) where
  lt := fun _ _ => show 1 < Mkfs.NINODES by decide
  type := fun _ _ => nofun
  clean := fun _ _ => rfl
  inj := fun _ _ h h' _ => h.trans h'.symm

/-- The calls for a file: write three bytes, read from the second on, and truncate it. -/
theorem files_are_byte_arrays_session :
    ∃ rs t, (FileOp.runAll Mkfs.sb [.write 0 (fun j => .ofNat (j + 7)) 0 3, .read 0 1 9, .trunc 0]).run
        (oneFileFs fun b => decide (b < Mkfs.sb.datastart)) = .ok (rs, t) ∧
      FileOp.DoAll Mkfs.sb (oneFileFs fun b => decide (b < Mkfs.sb.datastart))
        [.write 0 (fun j => .ofNat (j + 7)) 0 3, .read 0 1 9, .trunc 0] rs t := by
  refine (files_are_byte_arrays Mkfs.sb (by decide) (fun ip => ip = 0) _ (oneFile_consistent _) ?_
    (oneFile_loaded _) _ ?_).2 ?_
  · refine ⟨fun c hc => absurd (oneFile_ptr _ c) hc, fun b hb hd => ?_⟩
    refine decide_eq_true ?_
    by_contra hge
    exact hd ⟨Nat.le_of_not_lt hge, hb⟩
  · simp [FileOp.ip]
  · decide

/-- The block numbers are distinct and marked, and there are no holes, but the bit of block 0 is clear:
`balloc` returns 0, which `bmap` takes for failure, and nothing is written though other blocks are free. -/
theorem writei_stops_at_block_zero :
    Consistent Mkfs.sb (oneFileFs fun _ => false).store ∧
    Loaded Mkfs.sb (fun ip => ip = 0) (oneFileFs fun _ => false) ∧
    ∃ t, (FileOp.run Mkfs.sb (.write 0 (fun _ => 7) 0 1)).run (oneFileFs fun _ => false) = .ok (.write (some 0), t) ∧
      1 < Mkfs.sb.size ∧ t.store.bitmap 1 = false := by
  refine ⟨oneFile_consistent _, oneFile_loaded _, ?_⟩
  have hrun : (((FileOp.run Mkfs.sb (.write 0 (fun _ => 7) 0 1)).run (oneFileFs fun _ => false)).map
      fun x => (x.1, x.2.store.bitmap 1)) = .ok (.write (some 0), false) := by decide +kernel
  obtain ⟨⟨r, t⟩, hx, hobs⟩ := ok_of_map hrun
  obtain ⟨rfl, ht⟩ := Prod.mk.inj hobs
  exact ⟨t, hx, by decide, ht⟩

end Xv6.Fs

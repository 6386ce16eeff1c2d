import Xv6.Fs.AtRest
import Xv6.Fs.Files

/-!
# Directories are finite maps

A sequence of `dirlookup`, `dirlink` and removals of entries on one directory, each in a transaction of its
own, acts on `Node.bindings` as the same operations on a finite map from names to inode numbers. Unlike the
calls that the ledger describes, `dirlink` may be given any inode number here.
-/

namespace Xv6.Fs

open Function Wp

inductive DirOp where
  | lookup (name : List UInt8)
  | link (name : List UInt8) (inum : Nat)
  /-- the removal of an entry in `sys_unlink` -/
  | erase (name : List UInt8)

/-- What a call returns: the inode number and the offset of the entry; whether `dirlink` returned 0; whether
there was an entry to remove. -/
inductive DirReply where
  | lookup (r : Option (Nat × Nat))
  | link (done : Bool)
  | erase (done : Bool)
  deriving DecidableEq

namespace DirOp

variable (sb : Superblock) (dp : Ptr)

def call : DirOp → M DirReply
  | lookup name => do
    match ← dirlookup sb dp name with
    | none => return .lookup none
    | some (ip, off) =>
      let inum := ((← get).itable ip).inum
      iput sb ip
      return .lookup (some (inum, off))
  | link name inum => return .link (← dirlink sb dp name inum)
  | erase name => do
    match ← dirlookup sb dp name with
    | none => return .erase false
    | some (ip, off) =>
      if ← writeDirent sb dp ⟨0, []⟩ off then
        iput sb ip
        return .erase true
      else throw .unlinkWritei

def run (op : DirOp) : M DirReply := do
  beginOp
  let r ← call sb dp op
  endOp
  return r

def runAll : List DirOp → M (List DirReply)
  | [] => return []
  | op :: ops => do
    let r ← run sb dp op
    let rs ← runAll ops
    return r :: rs

/-- The inode numbers that can be linked. -/
def Ok : DirOp → Prop
  | link _ inum => 0 < inum ∧ inum < 2 ^ 16
  | _ => True

end DirOp

/-! ## The maps -/

/-- A map from names to inode numbers. -/
abbrev DirMap : Type := List UInt8 → Option Nat

/-- The map with one name changed; only the bytes up to a 0 and up to `DIRSIZ` count. -/
def DirMap.set (f : DirMap) (name : List UInt8) (v : Option Nat) : DirMap := fun name' =>
  if cstr name' = cstr name then v else f name'

def DirOp.apply (f : DirMap) : DirOp → DirReply → DirMap
  | link name inum, .link true => f.set name (some inum)
  | erase name, .erase true => f.set name none
  | _, _ => f

def DirOp.applyAll (f : DirMap) : List DirOp → List DirReply → DirMap
  | op :: ops, r :: rs => applyAll (op.apply f r) ops rs
  | _, _ => f

def Node.HasFree (n : Node) : Prop := ∃ k, 16 * k + 16 ≤ n.size ∧ n.slotInum k = 0

/-- There is an entry that is not in use, or the directory can grow by one. -/
def Store.CanLink (sb : Superblock) (st : Store) (i : Nat) (n : Node) : Prop :=
  n.HasFree ∨ st.HasSlot sb i (n.size / 16)

def nodeAt (sb : Superblock) (s : Fs) (ip : Ptr) : Node := s.store.node sb (s.itable ip).inum

/-- What a call on the directory `n` of the inode `i` returns, and what it leaves as it was; `n'` is the
directory after the call. -/
def DirOp.Replies (sb : Superblock) (st : Store) (i : Nat) (n n' : Node) : DirOp → DirReply → Prop
  | lookup name, .lookup r =>
    r.map Prod.fst = n.bindings name ∧ n' = n ∧
    ∀ j off, r = some (j, off) → ∃ k, off = 16 * k ∧ n.Names name k ∧ n.slotInum k = j
  | link name _, .link done =>
    (done = true ↔ n.bindings name = none ∧ st.CanLink sb i n) ∧ (done = false → n' = n) ∧
    (done = true → (n.HasFree → n'.size = n.size) ∧ (¬ n.HasFree → n'.size = n.size + 16))
  | erase name, .erase done =>
    (done = true ↔ n.bindings name ≠ none) ∧ (done = false → n' = n) ∧ n'.size = n.size
  | _, _ => False

/-- What a call does: `s` and `t` are the states before and after it. -/
structure DirOp.Does (sb : Superblock) (dp : Ptr) (s t : Fs) (op : DirOp) (r : DirReply) : Prop where
  map : (nodeAt sb t dp).bindings = op.apply (nodeAt sb s dp).bindings r
  other : ∀ j, j ≠ (s.itable dp).inum → t.store.node sb j = s.store.node sb j
  reply : op.Replies sb s.store (s.itable dp).inum (nodeAt sb s dp) (nodeAt sb t dp) r

/-- The calls of a sequence, each from the state that the one before it has left. -/
inductive DirOp.DoAll (sb : Superblock) (dp : Ptr) : Fs → List DirOp → List DirReply → Fs → Prop
  | nil (s : Fs) : DoAll sb dp s [] [] s
  | cons {s t u : Fs} {op : DirOp} {r : DirReply} {ops : List DirOp} {rs : List DirReply} :
      Does sb dp s t op r → DoAll sb dp t ops rs u → DoAll sb dp s (op :: ops) (r :: rs) u

theorem DirOp.DoAll.bindings {sb : Superblock} {dp : Ptr} {s t : Fs} {ops : List DirOp} {rs : List DirReply}
    (h : DoAll sb dp s ops rs t) : (nodeAt sb t dp).bindings = applyAll (nodeAt sb s dp).bindings ops rs := by
  induction h with
  | nil => rfl
  | cons hdoes _ ih => rw [ih, hdoes.map, applyAll]

/-! ## Slots -/

namespace Node

variable {n : Node} {name : List UInt8}

theorem freeSlot_lt (h : n.HasFree) : n.freeSlot < n.size / 16 := by
  obtain ⟨k, hk, h0⟩ := h
  rcases freeSlot_cases with hlt | ⟨-, hall⟩
  · exact hlt.1
  · exact absurd h0 (hall k (by omega))

theorem freeSlot_of_not (h : ¬ n.HasFree) : n.freeSlot = n.size / 16 := by
  rcases freeSlot_cases with ⟨hlt, h0, -⟩ | ⟨heq, -⟩
  · exact absurd ⟨_, by omega, h0⟩ h
  · exact heq

theorem IsDir.bindings_eq_none (h : n.IsDir) : n.bindings name = none ↔ ∀ k, ¬ n.Names name k := by
  constructor
  · intro hnone k hk
    have := h.bindings_eq_some.mpr ⟨k, hk, rfl⟩
    rw [hnone] at this
    cases this
  · intro hno
    rw [bindings, slot?_eq_none_of hno]
    rfl

end Node

variable {sb : Superblock} {D : Nat → Prop} {s t u : Fs} {live : Ptr → Prop} {dp e : Ptr} {i k : Nat} {n : Node}
  {E : Panic → Prop} {name : List UInt8}

theorem Own.hasSlot {st : Store} (h : Own sb D st) (ha : st.Alloc sb i) (hk : 16 * k + 16 ≤ (st.dinode i).size) :
    st.HasSlot sb i k := by
  have hle : (st.dinode i).size ≤ MAXFILE * BSIZE := by
    by_contra hbig
    exact Nat.lt_irrefl _ (h.bn_lt ha (Nat.lt_of_not_le hbig))
  refine ⟨hk.trans hle, ?_⟩
  have hneeds : st.needs sb i (16 * k) 16 = ∅ := by
    refine Finset.filter_eq_empty_iff.mpr fun j _ hj => ?_
    obtain ⟨h0, o, ho, hslot⟩ := hj
    have ho' := Finset.mem_Ico.mp ho
    exact Store.ptr_ne_of_bmapSlot (h.ptr_ne ha (by omega)) hslot h0
  rw [Store.room, Nat.findGreatest_eq_iff]
  refine ⟨le_rfl, fun _ => ?_, fun j h1 h2 => absurd h2 (Nat.not_le.mpr h1)⟩
  rw [hneeds]
  exact Nat.zero_le _

theorem Own.hasSlot_freeSlot {st : Store} (h : Own sb D st) (ha : st.Alloc sb i) :
    st.HasSlot sb i (st.node sb i).freeSlot ↔ st.CanLink sb i (st.node sb i) := by
  have hsize : (st.node sb i).size = (st.dinode i).size := by rw [Store.node_of_alloc ha]
  by_cases hfree : (st.node sb i).HasFree
  · have hlt := Node.freeSlot_lt hfree
    exact iff_of_true (h.hasSlot ha (by omega)) (.inl hfree)
  · rw [Node.freeSlot_of_not hfree]
    exact ⟨.inr, fun hc => hc.resolve_left hfree⟩

/-! ## References -/

/-- A reference to the inode `j` has been taken, at `e`. -/
structure Took (e : Ptr) (j : Nat) (s t : Fs) : Prop where
  store : t.store = s.store
  trans : t.trans = s.trans
  inum : (t.itable e).inum = j
  ref : (t.itable e).ref = (s.itable e).ref + 1
  other : ∀ e', e' ≠ e → t.itable e' = s.itable e'
  /-- it is one more for an entry in use, or the only one for an entry that is not loaded -/
  self : 0 < (s.itable e).ref ∧ t.itable e = { s.itable e with ref := (s.itable e).ref + 1 } ∨
    (s.itable e).ref = 0 ∧ (t.itable e).valid = false

theorem wp_iget_took (hroom : ∃ e, (s.itable e).ref = 0) {Q : Ptr → Fs → Prop}
    (hQ : ∀ e t, Took e i s t → Q e t) : wp (iget i) Q E s := by
  refine wp_iget_raw (fun hfull => ?_) (fun e href hinum => hQ e _ ?_) fun e href _ => hQ e _ ?_
  · obtain ⟨e, he⟩ := hroom
    exact absurd he (hfull e)
  · have hself : (s.setInode e { s.itable e with ref := (s.itable e).ref + 1 }).itable e = _ :=
      update_self ..
    exact ⟨rfl, rfl, by rw [hself]; exact hinum, by rw [hself], fun e' he => update_of_ne he ..,
      .inl ⟨href, hself⟩⟩
  · have hself : (s.setInode e { s.itable e with inum := i, ref := 1, valid := false }).itable e = _ :=
      update_self ..
    exact ⟨rfl, rfl, by rw [hself], by rw [hself, href], fun e' he => update_of_ne he ..,
      .inr ⟨href, by rw [hself]⟩⟩

/-- The entry is still as it was when the reference was taken, but for fields that `writei` changes. -/
theorem Took.not_last (h : Took e i s t) (href : (u.itable e).ref = (t.itable e).ref)
    (hvalid : (u.itable e).valid = (t.itable e).valid) : (u.itable e).last = false := by
  unfold Inode.last
  rw [href, hvalid, h.ref]
  rcases h.self with ⟨hpos, -⟩ | ⟨-, hv⟩
  · exact decide_eq_false fun hl => by omega
  · rw [hv]
    exact decide_eq_false fun hl => by cases hl.2.1

theorem Took.keeps (h : Took e i s t) {e' : Ptr} (hpos : 0 < (s.itable e').ref) :
    (t.itable e').inum = (s.itable e').inum ∧ (t.itable e').copy = (s.itable e').copy := by
  by_cases he : e' = e
  · subst he
    rcases h.self with ⟨-, hself⟩ | ⟨h0, -⟩
    · rw [hself]
      exact ⟨rfl, rfl⟩
    · exact absurd h0 (Nat.ne_of_gt hpos)
  · rw [h.other e' he]
    exact ⟨rfl, rfl⟩

/-- A reference has been dropped, at `e`. -/
structure GaveBack (e : Ptr) (s t : Fs) : Prop where
  store : t.store = s.store
  other : ∀ e', e' ≠ e → t.itable e' = s.itable e'
  self : t.itable e = { s.itable e with ref := (s.itable e).ref - 1 }

theorem GaveBack.keeps (h : GaveBack e s t) (e' : Ptr) :
    (t.itable e').inum = (s.itable e').inum ∧ (t.itable e').copy = (s.itable e').copy := by
  by_cases he : e' = e
  · rw [he, h.self]
    exact ⟨rfl, rfl⟩
  · rw [h.other e' he]
    exact ⟨rfl, rfl⟩

theorem wp_iput_not_last (hlast : (s.itable e).last = false) {Q : Unit → Fs → Prop}
    (hQ : ∀ t, GaveBack e s t → Q () t) : wp (iput sb e) Q E s := by
  rw [iput, wp_bind, wp_get, hlast]
  exact hQ _ ⟨rfl, fun e' he => update_of_ne he .., update_self ..⟩

theorem Took.ref_gaveBack {v : Fs} (h : Took e i s t) (hu : ∀ e', (u.itable e').ref = (t.itable e').ref)
    (hv : GaveBack e u v) (e' : Ptr) : (v.itable e').ref = (s.itable e').ref := by
  by_cases he : e' = e
  · rw [he, hv.self]
    show (u.itable e).ref - 1 = _
    rw [hu, h.ref, Nat.add_sub_cancel]
  · rw [hv.other e' he, hu, h.other e' he]

theorem FilesOk.of_copies (h : FilesOk sb D live s) (hst : t.store = s.store)
    (hc : ∀ e, live e → (t.itable e).inum = (s.itable e).inum ∧ (t.itable e).copy = (s.itable e).copy) :
    FilesOk sb D live t := by
  refine ⟨hst ▸ h.own, fun e he => ?_, fun e he => ?_, fun e he => ?_, fun e e' he he' heq => ?_⟩
  · rw [(hc e he).1]
    exact h.loaded.lt e he
  · rw [(hc e he).2]
    exact h.loaded.type e he
  · rw [hst, (hc e he).1, (hc e he).2]
    exact h.loaded.clean e he
  · rw [(hc e he).1, (hc e' he').1] at heq
    exact h.loaded.inj e e' he he' heq

/-! ## Writing an entry -/

/-- `writei` has changed the inode at `dp` to `n'`. -/
structure Entered (sb : Superblock) (D : Nat → Prop) (live : Ptr → Prop) (dp : Ptr) (n' : Node) (s t : Fs) : Prop where
  files : FilesOk sb D live t
  other : ∀ e, e ≠ dp → t.itable e = s.itable e
  self : ∃ d, t.itable dp = { s.itable dp with copy := d }
  nodeOther : ∀ j, j ≠ (s.itable dp).inum → t.store.node sb j = s.store.node sb j
  nodeSelf : t.store.node sb (s.itable dp).inum = n'

theorem Entered.ref {n' : Node} (h : Entered sb D live dp n' s t) (e : Ptr) :
    (t.itable e).inum = (s.itable e).inum ∧ (t.itable e).ref = (s.itable e).ref ∧
      (t.itable e).valid = (s.itable e).valid := by
  by_cases he : e = dp
  · obtain ⟨d, hd⟩ := h.self
    rw [he, hd]
    exact ⟨rfl, rfl, rfl⟩
  · rw [h.other e he]
    exact ⟨rfl, rfl, rfl⟩

theorem Entered.nodeAt_eq {n' : Node} (h : Entered sb D live dp n' s t) : nodeAt sb t dp = n' := by
  rw [nodeAt, (h.ref dp).1]
  exact h.nodeSelf

theorem writeCost_dirent (k : Nat) : writeCost sb (16 * k) 16 ≤ 7 := by
  have hspan : spanned (16 * k) 16 = 1 := by
    unfold spanned BSIZE
    rw [if_neg (by decide)]
    omega
  unfold writeCost nslots
  split_ifs <;> omega

theorem FilesOk.wp_writeDirent (hsb : sb.size < 2 ^ 32) (hD : ∀ b, D b → b < sb.size) (h : FilesOk sb D live s)
    (hdp : live dp) {l : List Nat} (htrans : s.trans = some l) (hlog : l.length + 7 ≤ logCapacity sb) {de : Dirent}
    (hk : 16 * k ≤ (nodeAt sb s dp).size) {Q : Bool → Fs → Prop}
    (htrue : ∀ t, s.store.HasSlot sb (s.itable dp).inum k →
      Entered sb D live dp ((nodeAt sb s dp).setSlot k de) s t → Q true t)
    (hfalse : ∀ t, ¬ s.store.HasSlot sb (s.itable dp).inum k → Entered sb D live dp (nodeAt sb s dp) s t → Q false t) :
    wp (writeDirent sb dp de (16 * k)) Q E s := by
  have hbig : MAXFILE * BSIZE < 2 ^ 32 := by decide
  have hsize := h.node_size hdp
  have hle := ((h.ready hdp).shows (h.loaded.clean dp hdp)).size_le
  have hcost : l.length + writeCost sb (16 * k) 16 ≤ logCapacity sb :=
    (Nat.add_le_add_left (writeCost_dirent k) _).trans hlog
  rw [writeDirent, wp_bind]
  refine wp_writei hsb (.inr ⟨l, htrans, hcost⟩) (h.ready hdp) (h.loaded.clean dp hdp) _ (fun hbad => ?_)
    fun tot t hoff hmax htot hstop hspace hext hw _ => ?_
  · refine hfalse s (fun hs => ?_) ⟨h, fun _ _ => rfl, ⟨_, rfl⟩, fun _ _ => rfl, rfl⟩
    have := hs.1
    unfold nodeAt at hk hle
    omega
  · have heq := hw.eq_room hext h.own hD htot hmax fun hlt => hspace hlt de.mapped
    obtain ⟨bytes, hnode, hwritten, hkept⟩ := hw.nodeKept htot
    obtain ⟨addrs, hself⟩ := hw.self
    rw [← hsize] at hnode
    have hover : Overwritten (fun j => de.bytes[j]?) (16 * k) 16 tot (nodeAt sb s dp)
        { nodeAt sb s dp with size := max (nodeAt sb s dp).size (16 * k + tot), bytes := bytes } :=
      ⟨rfl, hwritten, hkept⟩
    have hfiles : FilesOk sb D live t := h.update hdp hw.own hw.others (by rw [hself]) (by rw [hself]) hw.dinode
    rcases hover.dirent htot hstop hk with ⟨rfl, hy⟩ | ⟨hne, hy⟩
    · exact htrue t ⟨hmax, heq⟩ ⟨hfiles, hw.others, ⟨_, hself⟩, hw.nodeOther, hnode.trans hy⟩
    · show Q (decide (some tot = some 16)) t
      rw [decide_eq_false fun h16 => hne (Option.some.inj h16)]
      exact hfalse t (fun hs => hne (heq.symm.trans hs.2)) ⟨hfiles, hw.others, ⟨_, hself⟩, hw.nodeOther, hnode.trans hy⟩

/-! ## The calls -/

/-- The directory at `dp`, and what the calls need of the table. -/
structure DirOk (sb : Superblock) (D : Nat → Prop) (dp : Ptr) (s : Fs) : Prop where
  files : FilesOk sb D (· = dp) s
  used : 0 < (s.itable dp).ref
  room : ∃ e, (s.itable e).ref = 0
  dir : (nodeAt sb s dp).IsDir

namespace DirOk

section

variable (h : DirOk sb D dp s)
include h

theorem shows : Shows sb s dp (nodeAt sb s dp) :=
  (h.files.ready rfl).shows (h.files.loaded.clean dp rfl)

theorem wp_dirlookup {Q : Option (Ptr × Nat) → Fs → Prop} (hnone : (∀ k, ¬ (nodeAt sb s dp).Names name k) → Q none s)
    (hsome : ∀ k e t, (nodeAt sb s dp).Names name k → Took e ((nodeAt sb s dp).slotInum k) s t →
      Q (some (e, 16 * k)) t) : wp (dirlookup sb dp name) Q E s := by
  refine h.shows.wp_dirlookup (fun hn => absurd h.dir.type hn) (fun _ hn => absurd h.dir.aligned hn)
    (fun _ hno => hnone hno) fun k _ hk => ?_
  refine wp_iget_took ?_ fun e t ht => hsome k e t (h.dir.slot?_iff.mp hk) ?_
  · exact h.room
  · exact ⟨ht.store, ht.trans, ht.inum, ht.ref, ht.other, ht.self⟩

theorem of_ref (hfiles : FilesOk sb D (· = dp) t)
    (href : ∀ e, (t.itable e).ref = (s.itable e).ref) (hdir : (nodeAt sb t dp).IsDir) : DirOk sb D dp t := by
  refine ⟨hfiles, by rw [href]; exact h.used, ?_, hdir⟩
  obtain ⟨e, he⟩ := h.room
  exact ⟨e, by rw [href, he]⟩

theorem took (ht : Took e i s t) :
    FilesOk sb D (· = dp) t ∧ nodeAt sb t dp = nodeAt sb s dp ∧ (t.itable dp).inum = (s.itable dp).inum := by
  have hkeeps := ht.keeps h.used
  refine ⟨h.files.of_copies ht.store ?_, ?_, hkeeps.1⟩
  · rintro _ rfl
    exact hkeeps
  · rw [nodeAt, ht.store, hkeeps.1, nodeAt]

theorem wp_put (ht : Took e i s t) {Q : Unit → Fs → Prop}
    (hQ : ∀ u, DirOk sb D dp u → nodeAt sb u dp = nodeAt sb s dp → u.store = s.store → Q () u) :
    wp (iput sb e) Q E t := by
  obtain ⟨hfiles, hnode, hinum⟩ := h.took ht
  refine wp_iput_not_last (ht.not_last rfl rfl) fun u hu => ?_
  have hnode' : nodeAt sb u dp = nodeAt sb s dp := by
    rw [← hnode, nodeAt, nodeAt, hu.store, (hu.keeps dp).1]
  refine hQ u (h.of_ref (hfiles.of_copies hu.store fun e' _ => hu.keeps e') ?_ ?_) hnode' (hu.store.trans ht.store)
  · exact ht.ref_gaveBack (fun _ => rfl) hu
  · rw [hnode']
    exact h.dir

theorem wp_lookup (name : List UInt8) :
    wp (DirOp.call sb dp (.lookup name))
      (fun r t => DirOp.Does sb dp s t (.lookup name) r ∧ DirOk sb D dp t) E s := by
  rw [DirOp.call, wp_bind]
  refine h.wp_dirlookup (fun hno => ⟨⟨rfl, fun _ _ => rfl, ?_, rfl, nofun⟩, h⟩) fun k e t hk ht => ?_
  · rw [h.dir.bindings_eq_none.mpr hno]
    rfl
  · show wp (do
      iput sb e
      return DirReply.lookup (some ((t.itable e).inum, 16 * k))) _ E t
    rw [wp_bind, ht.inum]
    refine h.wp_put ht fun u hu hnode hstore => ⟨⟨?_, fun j _ => by rw [hstore], ?_, hnode, ?_⟩, hu⟩
    · rw [hnode]
      rfl
    · exact (h.dir.bindings_eq_some.mpr ⟨k, hk, rfl⟩).symm
    · rintro _ _ ⟨⟩
      exact ⟨k, rfl, hk, rfl⟩

theorem size_link (de : Dirent) :
    ((nodeAt sb s dp).HasFree →
      ((nodeAt sb s dp).setSlot (nodeAt sb s dp).freeSlot de).size = (nodeAt sb s dp).size) ∧
    (¬ (nodeAt sb s dp).HasFree →
      ((nodeAt sb s dp).setSlot (nodeAt sb s dp).freeSlot de).size = (nodeAt sb s dp).size + 16) := by
  have hal := h.dir.aligned
  constructor
  · intro hfree
    have hlt := Node.freeSlot_lt hfree
    show max _ (16 * (nodeAt sb s dp).freeSlot + 16) = _
    omega
  · intro hfree
    show max _ (16 * (nodeAt sb s dp).freeSlot + 16) = _
    rw [Node.freeSlot_of_not hfree]
    omega

theorem wp_link (hsb : sb.size < 2 ^ 32) (hD : ∀ b, D b → b < sb.size) {l : List Nat}
    (htrans : s.trans = some l) (hlog : l.length + 7 ≤ logCapacity sb) (name : List UInt8) {j : Nat} (hj : 0 < j)
    (hj' : j < 2 ^ 16) :
    wp (DirOp.call sb dp (.link name j))
      (fun r t => DirOp.Does sb dp s t (.link name j) r ∧ DirOk sb D dp t) E s := by
  have hcan : s.store.HasSlot sb (s.itable dp).inum (nodeAt sb s dp).freeSlot ↔
      s.store.CanLink sb (s.itable dp).inum (nodeAt sb s dp) :=
    h.files.own.hasSlot_freeSlot (h.files.alloc rfl)
  rw [DirOp.call, wp_bind, dirlink, wp_bind]
  refine h.wp_dirlookup (fun hno => ?_) fun k e t hk ht => ?_
  · show wp (do
      let off ← emptyLoop sb dp ((s.itable dp).copy.size / 16 + 1) 0
      writeDirent sb dp ⟨j, name⟩ off) _ E s
    rw [h.shows.size, wp_bind]
    refine h.shows.wp_emptyLoop h.dir.fails (fun h0 hk => ?_) _ 0 (by omega) (Nat.zero_le _) (by simp)
    have hnone := h.dir.bindings_eq_none.mpr hno
    refine h.files.wp_writeDirent hsb hD rfl htrans hlog hk (fun t hs ht => ?_) fun t hs ht => ?_
    all_goals have hnode := ht.nodeAt_eq
    · have hdir : ((nodeAt sb s dp).setSlot (nodeAt sb s dp).freeSlot ⟨j, name⟩).IsDir :=
        h.dir.setSlot hk fun _ k' _ => hno k'
      refine ⟨⟨funext fun name' => ?_, ht.nodeOther, ?_⟩, h.of_ref ht.files (fun e => (ht.ref e).2.1) (hnode ▸ hdir)⟩
      · rw [hnode, h.dir.bindings_link hj hj' hk h0 hno]
        rfl
      · refine ⟨iff_of_true rfl ⟨hnone, hcan.mp hs⟩, by simp, fun _ => ?_⟩
        rw [hnode]
        exact h.size_link _
    · refine ⟨⟨by rw [hnode]; rfl, ht.nodeOther, iff_of_false (by simp) fun hc => hs (hcan.mpr hc.2),
        fun _ => hnode, by simp⟩,
        h.of_ref ht.files (fun e => (ht.ref e).2.1) (hnode ▸ h.dir)⟩
  · show wp (do
      iput sb e
      return false) _ E t
    rw [wp_bind]
    refine h.wp_put ht fun u hu hnode hstore => ⟨⟨by rw [hnode]; rfl, fun j _ => by rw [hstore], ?_⟩, hu⟩
    refine ⟨iff_of_false (by simp) fun hc => ?_, fun _ => hnode, by simp⟩
    exact h.dir.bindings_eq_none.mp hc.1 k hk

theorem wp_erase (hsb : sb.size < 2 ^ 32) (hD : ∀ b, D b → b < sb.size) {l : List Nat}
    (htrans : s.trans = some l) (hlog : l.length + 7 ≤ logCapacity sb) (name : List UInt8) :
    wp (DirOp.call sb dp (.erase name))
      (fun r t => DirOp.Does sb dp s t (.erase name) r ∧ DirOk sb D dp t) E s := by
  rw [DirOp.call, wp_bind]
  refine h.wp_dirlookup (fun hno => ⟨⟨rfl, fun _ _ => rfl, iff_of_false nofun fun hc => ?_, fun _ => rfl, rfl⟩, h⟩)
    fun k e t hk ht => ?_
  · exact hc (h.dir.bindings_eq_none.mpr hno)
  obtain ⟨hfiles, hnode, hinum⟩ := h.took ht
  have hin := h.dir.lt_of_used hk.1
  show wp (do
    if ← writeDirent sb dp ⟨0, []⟩ (16 * k) then
      iput sb e
      return DirReply.erase true
    else throw .unlinkWritei) _ E t
  rw [wp_bind]
  refine hfiles.wp_writeDirent hsb hD rfl (ht.trans.trans htrans) hlog (by rw [hnode]; omega) (fun u _ hu => ?_)
    fun u hs _ => absurd ?_ hs
  · rw [if_pos rfl, wp_bind]
    have hlast : (u.itable e).last = false := ht.not_last (hu.ref e).2.1 (hu.ref e).2.2
    refine wp_iput_not_last hlast fun v hv => ?_
    have hnode' : nodeAt sb v dp = (nodeAt sb s dp).setSlot k ⟨0, []⟩ := by
      rw [← hnode, ← hu.nodeSelf, nodeAt, hv.store, (hv.keeps dp).1, (hu.ref dp).1]
    have hdir : ((nodeAt sb s dp).setSlot k ⟨0, []⟩).IsDir := h.dir.setSlot (by omega) fun h0 => absurd rfl h0
    refine ⟨⟨funext fun name' => ?_, fun j hj => ?_, iff_of_true rfl fun hc => ?_, nofun, ?_⟩, h.of_ref
      (hu.files.of_copies hv.store fun e' _ => hv.keeps e') (ht.ref_gaveBack (fun e' => (hu.ref e').2.1) hv)
      (hnode' ▸ hdir)⟩
    · rw [hnode', h.dir.bindings_erase hk]
      rfl
    · rw [hv.store, hu.nodeOther j (by rwa [hinum]), ht.store]
    · exact h.dir.bindings_eq_none.mp hc k hk
    · rw [hnode']
      exact Nat.max_eq_left hin
  · refine hfiles.own.hasSlot (hfiles.alloc rfl) ?_
    have := hfiles.node_size (rfl : dp = dp)
    rw [hfiles.loaded.clean dp rfl]
    have hsz : (nodeAt sb t dp).size = (nodeAt sb s dp).size := by rw [hnode]
    unfold nodeAt at hsz hin
    omega

theorem of_eq (hst : t.store = s.store) (hit : t.itable = s.itable) : DirOk sb D dp t := by
  refine h.of_ref (h.files.of_eq hst hit) (fun e => by rw [hit]) ?_
  rw [nodeAt, hst, hit]
  exact h.dir

end

end DirOk

theorem DirOp.Does.of_eq {s' t' : Fs} {op : DirOp} {r : DirReply} (h : op.Does sb dp s t r)
    (hs : s'.store = s.store) (hs' : s'.itable = s.itable) (ht : t'.store = t.store)
    (ht' : t'.itable = t.itable) : op.Does sb dp s' t' r := by
  have hns : nodeAt sb s' dp = nodeAt sb s dp := by rw [nodeAt, hs, hs', nodeAt]
  have hnt : nodeAt sb t' dp = nodeAt sb t dp := by rw [nodeAt, ht, ht', nodeAt]
  obtain ⟨h1, h2, h3⟩ := h
  refine ⟨by rw [hns, hnt, h1], fun j hj => ?_, ?_⟩
  · rw [ht, hs]
    exact h2 j (by rwa [hs'] at hj)
  · rw [hns, hnt, hs, hs']
    exact h3

theorem wp_dirOp (hsb : sb.size < 2 ^ 32) (hlog : 7 ≤ logCapacity sb) (hD : ∀ b, D b → b < sb.size)
    (h : DirOk sb D dp s) {op : DirOp} (hop : op.Ok) :
    wp (op.run sb dp) (fun r t => op.Does sb dp s t r ∧ DirOk sb D dp t) E s := by
  have hbegin : DirOk sb D dp { s with trans := some [] } := h.of_eq rfl rfl
  rw [DirOp.run, wp_bind, beginOp]
  have hcall : wp (op.call sb dp) (fun r t => op.Does sb dp { s with trans := some [] } t r ∧ DirOk sb D dp t) E
      { s with trans := some [] } := by
    have hroom : ([] : List Nat).length + 7 ≤ logCapacity sb := by rwa [List.length_nil]
    cases op with
    | lookup name => exact hbegin.wp_lookup name
    | link name j => exact hbegin.wp_link hsb hD rfl hroom name hop.1 hop.2
    | erase name => exact hbegin.wp_erase hsb hD rfl hroom name
  refine hcall.bind fun r t ht => ?_
  rw [wp_bind, endOp]
  exact ⟨ht.1.of_eq rfl rfl rfl rfl, ht.2.of_eq rfl rfl⟩

theorem wp_dirOps (hsb : sb.size < 2 ^ 32) (hlog : 7 ≤ logCapacity sb) (hD : ∀ b, D b → b < sb.size)
    (ops : List DirOp) : ∀ {s : Fs}, DirOk sb D dp s → (∀ op ∈ ops, op.Ok) →
      wp (DirOp.runAll sb dp ops) (fun rs t => DirOp.DoAll sb dp s ops rs t ∧ DirOk sb D dp t) E s := by
  induction ops with
  | nil => exact fun {s} h _ => ⟨.nil s, h⟩
  | cons op ops ih =>
    intro s h hops
    obtain ⟨hop, hrest⟩ := List.forall_mem_cons.mp hops
    refine (wp_dirOp hsb hlog hD h hop).bind fun r t ⟨hdoes, hok⟩ => ?_
    exact (ih hok hrest).bind fun rs u ⟨hall, hu⟩ => ⟨.cons hdoes hall, hu⟩

/-- A sequence of calls on a directory of a consistent disk, in transactions with room: each does to the
directory what it does to a finite map. -/
theorem directory_is_finite_map (hsb : sb.size < 2 ^ 32) (hlog : 7 ≤ logCapacity sb) (hc : Consistent sb s.store)
    (hr : Reserved sb s.store) (hl : Loaded sb (· = dp) s) (hused : 0 < (s.itable dp).ref)
    (hdir : (nodeAt sb s dp).IsDir) (hroom : ∃ e, (s.itable e).ref = 0) (ops : List DirOp)
    (hops : ∀ op ∈ ops, op.Ok) :
    ∃ rs t, (DirOp.runAll sb dp ops).run s = .ok (rs, t) ∧ DirOp.DoAll sb dp s ops rs t ∧
      (nodeAt sb t dp).IsDir ∧ (nodeAt sb t dp).bindings = DirOp.applyAll (nodeAt sb s dp).bindings ops rs := by
  have hok : DirOk sb _ dp s := ⟨⟨hc.own hr, hl⟩, hused, hroom, hdir⟩
  obtain ⟨rs, t, hrun, hall, ht⟩ := exists_of_wp (wp_dirOps hsb hlog (fun b hb => hb.1.2) ops hok hops)
  exact ⟨rs, t, hrun, hall, ht.dir, hall.bindings⟩

/-- Every entry of the table is in use; the first has the root directory `root`. -/
def crowdedRoot (root : Block) : Fs where
  store := rootDisk root 49
  itable e := ⟨e + 1, 1, true, false, (rootDisk root 49).dinode (e + 1)⟩
  trans := none
  trace := []

/-- The same with only the first entry in use. -/
def loadedRoot (root : Block) : Fs :=
  { crowdedRoot root with itable := fun e => { (crowdedRoot root).itable e with ref := if e = 0 then 1 else 0 } }

section

variable {root : Block}

theorem crowdedRoot_nodeAt : nodeAt Mkfs.sb (crowdedRoot root) 0 = blockNode root := rootDisk_node_root

theorem crowdedRoot_loaded (root : Block) :
    Consistent Mkfs.sb (crowdedRoot root).store ∧ Reserved Mkfs.sb (crowdedRoot root).store ∧
    Loaded Mkfs.sb (· = 0) (crowdedRoot root) := by
  have hown : Own Mkfs.sb Mkfs.sb.IsData (rootDisk root 49) := rootDisk_own
  refine ⟨⟨hown.owns.inj, hown.owns.isUsed, hown.noHole⟩, ⟨hown.owns.inDom, hown.metaBits⟩, ?_⟩
  refine ⟨fun e he => ?_, fun e he => ?_, fun _ _ => rfl, fun e e' he he' _ => he.trans he'.symm⟩
  · subst he
    exact (@rootDisk_alloc_root root 49).1
  · subst he
    exact (@rootDisk_alloc_root root 49).2

theorem blockNode_isDir (h : ∀ k k', (blockNode root).slotInum k ≠ 0 → (blockNode root).slotInum k' ≠ 0 →
    cstr ((blockNode root).slotName k) = cstr ((blockNode root).slotName k') → k = k') : (blockNode root).IsDir :=
  ⟨rfl, ⟨64, rfl⟩, fun _ ho => dif_neg (Nat.not_lt.mpr ho), h⟩

/-- The calls for a name in the root directory of `mkfs`. -/
theorem directory_is_finite_map_session :
    ∃ rs t, (DirOp.runAll Mkfs.sb 0 [.link [97] 7, .lookup [97], .erase [97], .lookup [97]]).run (loadedRoot rootBlock) =
        .ok (rs, t) ∧
      DirOp.DoAll Mkfs.sb 0 (loadedRoot rootBlock) [.link [97] 7, .lookup [97], .erase [97], .lookup [97]] rs t ∧
      (nodeAt Mkfs.sb t 0).IsDir ∧ (nodeAt Mkfs.sb t 0).bindings =
        DirOp.applyAll (blockNode rootBlock).bindings [.link [97] 7, .lookup [97], .erase [97], .lookup [97]] rs := by
  obtain ⟨hc, hr, hl⟩ := crowdedRoot_loaded rootBlock
  have hnode : nodeAt Mkfs.sb (loadedRoot rootBlock) 0 = blockNode rootBlock := rootDisk_node_root
  rw [← hnode]
  have hl' : Loaded Mkfs.sb (· = 0) (loadedRoot rootBlock) := ⟨hl.lt, hl.type, hl.clean, hl.inj⟩
  refine directory_is_finite_map (s := loadedRoot rootBlock) (by decide) (by decide) hc hr hl' Nat.one_pos ?_
    ⟨1, rfl⟩ _ ?_
  · have hlt : ∀ k, (blockNode rootBlock).slotInum k ≠ 0 → k < 2 := by
      intro k hk
      rw [rootBlock_slotInum] at hk
      by_contra hge
      exact hk (if_neg hge)
    rw [hnode]
    refine blockNode_isDir fun k k' hk hk' => ?_
    have hdec : ∀ k < 2, ∀ k' < 2, cstr ((blockNode rootBlock).slotName k) = cstr ((blockNode rootBlock).slotName k') →
        k = k' := by decide +kernel
    exact hdec k (hlt k hk) k' (hlt k' hk')
  · simp [DirOp.Ok]

/-- A root directory with one entry, `a` for the inode 60. -/
def oneEntry : Block := fun o => if o.val = 0 then 60 else if o.val = 2 then 97 else 0

theorem oneEntry_slotInum {k : Nat} (hk : k ≠ 0) : (blockNode oneEntry).slotInum k = 0 := by
  have hbyte : ∀ o, 3 ≤ o → oneEntry.byte o = 0 := by
    intro o ho
    unfold Block.byte
    split_ifs with hlt
    · unfold oneEntry
      rw [if_neg (by simp only; omega), if_neg (by simp only; omega)]
    · rfl
  show (oneEntry.byte (16 * k)).toNat + 256 * (oneEntry.byte (16 * k + 1)).toNat = 0
  rw [hbyte _ (by omega), hbyte _ (by omega)]
  rfl

/-- `dirlookup` needs an entry of the inode table for the inode that it finds. -/
theorem dirlookup_full_table : Consistent Mkfs.sb (crowdedRoot oneEntry).store ∧
    Reserved Mkfs.sb (crowdedRoot oneEntry).store ∧ Loaded Mkfs.sb (· = 0) (crowdedRoot oneEntry) ∧
    (nodeAt Mkfs.sb (crowdedRoot oneEntry) 0).IsDir ∧
    (nodeAt Mkfs.sb (crowdedRoot oneEntry) 0).bindings [97] = some 60 ∧
    (DirOp.run Mkfs.sb 0 (.lookup [97])).run (crowdedRoot oneEntry) = .error .igetNoInodes := by
  obtain ⟨hc, hr, hl⟩ := crowdedRoot_loaded oneEntry
  refine ⟨hc, hr, hl, ?_, ?_, ?_⟩
  · rw [crowdedRoot_nodeAt]
    refine blockNode_isDir fun k k' hk hk' _ => ?_
    rw [not_imp_comm.mp oneEntry_slotInum hk, not_imp_comm.mp oneEntry_slotInum hk']
  · rw [crowdedRoot_nodeAt]
    decide +kernel
  · rfl

end

end Xv6.Fs

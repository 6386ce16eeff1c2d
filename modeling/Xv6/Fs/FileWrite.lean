import Xv6.Fs.Files
import Xv6.Fs.Space
import Xv6.Fs.System

/-!
# `filewrite` is one write

`filewrite` splits a request into transactions of at most `writeMax` bytes. On a consistent disk, and
while nobody else uses the inode, the result is that of a single `writei`: a beginning of the request is
written, as long as there is space, and the offset moves behind it.
-/

namespace Xv6.Fs

open Wp

/-- The inode after `tot` bytes of `src` have been written at `off`. -/
def Node.write (x : Node) (src : Nat → UInt8) (off tot : Nat) : Node :=
  { x with
    size := max x.size (off + tot)
    bytes := fun o => if off ≤ o ∧ o < off + tot then src (o - off) else x.bytes o }

theorem Node.write_write (x : Node) (src : Nat → UInt8) (off a b : Nat) :
    (x.write src off a).write (fun j => src (a + j)) (off + a) b = x.write src off (a + b) := by
  refine Node.ext rfl rfl rfl rfl ?_ (funext fun o => ?_)
  · simp only [write]
    omega
  · simp only [write]
    by_cases h1 : off + a ≤ o ∧ o < off + a + b
    · rw [if_pos h1, if_pos (by omega), show a + (o - (off + a)) = o - off by omega]
    · rw [if_neg h1]
      split_ifs <;> first | rfl | omega

/-- The entry `ip` refers to an allocated inode; nobody holds its lock. -/
structure Opened (sb : Superblock) (ip : Ptr) (s : Fs) : Prop where
  ref : 0 < (s.itable ip).ref
  unlocked : (s.itable ip).locked = false
  lt : (s.itable ip).inum < sb.ninodes
  type : (s.store.dinode (s.itable ip).inum).type ≠ .free
  clean : (s.itable ip).valid = true → (s.itable ip).copy = s.store.dinode (s.itable ip).inum

variable {sb : Superblock} {D : Nat → Prop} {s t u : Fs} {ip : Ptr} {E : Panic → Prop}

def Opened.inode (s : Fs) (ip : Ptr) : Inode :=
  { s.itable ip with
    locked := true
    valid := true
    copy := s.store.dinode (s.itable ip).inum }

theorem wp_ilock_opened (h : Opened sb ip s) {Q : Unit → Fs → Prop}
    (hQ : Q () (s.setInode ip (Opened.inode s ip))) : wp (ilock ip) Q E s := by
  rw [ilock, wp_bind, wp_get, if_neg (by have := h.ref; omega), wp_bind, acquireInode, wp_bind, wp_get,
    if_neg (by rw [h.unlocked]; exact Bool.false_ne_true), wp_modify, wp_bind, wp_get]
  have hself : ((s.setInode ip { s.itable ip with locked := true }).itable ip) =
      { s.itable ip with locked := true } := Function.update_self ..
  rw [hself, wp_ite]
  have hset : (s.setInode ip { s.itable ip with locked := true }).setInode ip (Opened.inode s ip) =
      s.setInode ip (Opened.inode s ip) := by
    simp only [Fs.setInode, Function.update_idem]
  refine ⟨fun hv => ?_, fun _ => ?_⟩
  · have hv' : (s.itable ip).valid = true := hv
    have hx : Opened.inode s ip = { s.itable ip with locked := true } := by
      rw [Opened.inode, ← h.clean hv', ← hv']
    rw [hx] at hQ
    exact hQ
  · rw [wp_bind, wp_modify, wp_bind, copyOf, wp_bind, wp_get, wp_pure]
    rw [← hset] at hQ
    simp only [setInode, Function.update_self, Opened.inode] at hQ ⊢
    rw [if_neg h.type]
    exact hQ

theorem wp_iunlock_held (hl : (s.itable ip).locked = true) (hr : 0 < (s.itable ip).ref) {Q : Unit → Fs → Prop}
    (hQ : Q () (s.setInode ip { s.itable ip with locked := false })) : wp (iunlock ip) Q E s := by
  rw [iunlock, wp_bind, wp_get, wp_bind, wp_get, if_neg]
  · exact hQ
  · rw [hl]
    simp only [Bool.not_true, Bool.false_eq_true, false_or]
    omega

/-- Of a request to write `n` bytes of `src` at `off`, all bytes that fit have been written, `tot` in
number. -/
structure WroteFile (sb : Superblock) (D : Nat → Prop) (ip : Ptr) (src : Nat → UInt8) (off n tot : Nat)
    (s t : Fs) : Prop where
  le : tot ≤ n
  own : Own sb D t.store
  opened : Opened sb ip t
  inum : (t.itable ip).inum = (s.itable ip).inum
  ext : Extends sb (s.itable ip).inum off tot (off + min (tot + 1) n) s.store t.store
  full : tot < n → t.Full sb
  empty : tot < n → t.store.ptr sb ((s.itable ip).inum, slotOf ((off + tot) / BSIZE)) = 0
  self : t.store.node sb (s.itable ip).inum = (s.store.node sb (s.itable ip).inum).write src off tot
  other : ∀ j, j ≠ (s.itable ip).inum → t.store.node sb j = s.store.node sb j

namespace WroteFile

variable {src : Nat → UInt8} {off n tot : Nat}

theorem eq_room (h : WroteFile sb D ip src off n tot s t) (hs : Own sb D s.store)
    (hD : ∀ b, D b → b < sb.size) (hmax : off + n ≤ MAXFILE * BSIZE) :
    s.store.room sb (s.itable ip).inum off n = tot :=
  h.ext.eq_room hs h.own hD h.le hmax h.full h.empty

theorem size_eq (h : WroteFile sb D ip src off n tot s t) (hs : Opened sb ip s) :
    (t.store.dinode (t.itable ip).inum).size = max (s.store.dinode (s.itable ip).inum).size (off + tot) := by
  have hnode := congrArg Node.size h.self
  have ha : s.store.Alloc sb (s.itable ip).inum := ⟨hs.lt, hs.type⟩
  have ha' : t.store.Alloc sb (s.itable ip).inum := h.inum ▸ ⟨h.opened.lt, h.opened.type⟩
  rw [Store.node_of_alloc ha, Store.node_of_alloc ha'] at hnode
  rw [h.inum]
  exact hnode

theorem append {a b : Nat} (h : WroteFile sb D ip src off a a s t)
    (h' : WroteFile sb D ip (fun j => src (a + j)) (off + a) b tot t u) :
    WroteFile sb D ip src off (a + b) (a + tot) s u where
  le := Nat.add_le_add_left h'.le a
  own := h'.own
  opened := h'.opened
  inum := h'.inum.trans h.inum
  ext := by
    have hext := h.ext
    have hext' := h'.ext
    rw [show min (a + 1) a = a by omega] at hext
    rw [h.inum, show off + a + min (tot + 1) b = off + min (a + tot + 1) (a + b) by omega] at hext'
    refine hext.trans hext' ?_
    omega
  full hlt := h'.full (by omega)
  empty hlt := by
    rw [← h.inum, ← Nat.add_assoc]
    exact h'.empty (by omega)
  self := by
    rw [← Node.write_write, ← h.self, ← h.inum]
    exact h'.self
  other j hj := (h'.other j (h.inum ▸ hj)).trans (h.other j hj)

theorem short {b : Nat} (h : WroteFile sb D ip src off n tot s t) (hlt : tot < n) (hb : n ≤ b) :
    WroteFile sb D ip src off b tot s t where
  le := h.le.trans hb
  own := h.own
  opened := h.opened
  inum := h.inum
  ext := by
    rw [show min (tot + 1) b = min (tot + 1) n by omega]
    exact h.ext
  full _ := h.full hlt
  empty _ := h.empty hlt
  self := h.self
  other := h.other

end WroteFile

section

variable {src : Nat → UInt8} {off n : Nat}

theorem Opened.ready (h : Opened sb ip s) (hown : Own sb D s.store) (tr : Option (List Nat)) :
    Ready sb D ip (({ s with trans := tr } : Fs).setInode ip (Opened.inode s ip)) ∧
      (({ s with trans := tr } : Fs).setInode ip (Opened.inode s ip)).itable ip = Opened.inode s ip := by
  have hself : (({ s with trans := tr } : Fs).setInode ip (Opened.inode s ip)).itable ip =
      Opened.inode s ip := Function.update_self ..
  refine ⟨⟨?_, ?_, ?_⟩, hself⟩
  · rw [hself]
    exact h.lt
  · rw [hself]
    exact h.type
  · rw [view, hself]
    exact (@Store.setDinode_eq s.store _ _ rfl).symm ▸ hown

theorem Written.node_eq {tot : Nat} {rest : Nat → Option UInt8} (hrest : rest = fun _ => none)
    (h : Written sb D ip (fun j => some (src j)) rest off tot s t) (ha : s.store.Alloc sb (s.itable ip).inum)
    (hclean : s.store.dinode (s.itable ip).inum = (s.itable ip).copy) :
    t.store.node sb (s.itable ip).inum = (s.store.node sb (s.itable ip).inum).write src off tot := by
  obtain ⟨bytes, hnode, hnew, hold⟩ := h.nodeSelf
  have hsize : (s.store.node sb (s.itable ip).inum).size = (s.itable ip).copy.size := by
    rw [Store.node_of_alloc ha, hclean]
  rw [hnode, Node.write, hsize]
  refine Node.ext rfl rfl rfl rfl rfl (funext fun o => ?_)
  show bytes o = if _ then _ else _
  split_ifs with ho
  · exact (Option.some.inj (hnew o ho.1 ho.2)).symm
  · rw [hold o (by omega), hrest, ite_self]
    rfl

theorem wp_writeChunk (hsb : sb.size < 2 ^ 32) (hE : LogFails E ∨ writeCost sb off n ≤ logCapacity sb)
    (h : Opened sb ip s) (hown : Own sb D s.store)
    (hoff : off ≤ (s.store.dinode (s.itable ip).inum).size) (hmax : off + n ≤ MAXFILE * BSIZE) :
    wp (Sys.writeChunk sb ip (fun j => some (src j)) off n)
      (fun r t => ∃ tot, r = some tot ∧ WroteFile sb D ip src off n tot s t) E s := by
  obtain ⟨hready, hself⟩ := h.ready hown (some [])
  rw [Sys.writeChunk, wp_bind, beginOp, wp_modify, wp_bind]
  refine wp_ilock_opened (s := { s with trans := some [] }) ⟨h.ref, h.unlocked, h.lt, h.type, h.clean⟩ ?_
  rw [wp_bind]
  change wp _ _ E (({ s with trans := some [] } : Fs).setInode ip (Opened.inode s ip))
  set v := ({ s with trans := some [] } : Fs).setInode ip (Opened.inode s ip) with hv
  have hinum : (v.itable ip).inum = (s.itable ip).inum := by rw [hself]; rfl
  have hcopy : (v.itable ip).copy = s.store.dinode (s.itable ip).inum := by rw [hself]; rfl
  have hclean : v.store.dinode (v.itable ip).inum = (v.itable ip).copy := by rw [hinum, hcopy]; rfl
  refine wp_writei hsb (hE.imp_right fun hcost => ⟨[], rfl, by rwa [List.length_nil, Nat.zero_add]⟩) hready hclean _
    (fun hbad => ?_) fun tot t _ _ htot _ hspace hext hw _ => ?_
  · have hbytes : MAXFILE * BSIZE < 2 ^ 32 := by decide
    rw [hcopy] at hbad
    omega
  obtain ⟨addrs, hadd⟩ := hw.self
  have hlocked : (t.itable ip).locked = true := by rw [hadd, hself]; rfl
  have href : (t.itable ip).ref = (s.itable ip).ref := by rw [hadd, hself]; rfl
  have htinum : (t.itable ip).inum = (s.itable ip).inum := by rw [hadd, hself]; rfl
  have htcopy : t.store.dinode (s.itable ip).inum = (t.itable ip).copy := by
    rw [hw.dinode, hinum, Function.update_self]
  have hview : t.view ip = t.store := Store.setDinode_eq (by rw [htinum, htcopy])
  rw [wp_bind]
  refine wp_iunlock_held hlocked (href ▸ h.ref) ?_
  rw [wp_bind, endOp]
  have hitself : (t.setInode ip { t.itable ip with locked := false }).itable ip =
      { t.itable ip with locked := false } := Function.update_self ..
  have ha : v.store.Alloc sb (v.itable ip).inum := hinum ▸ ⟨h.lt, h.type⟩
  refine ⟨tot, rfl, htot, hw.own, ?_, ?_, hinum ▸ hext, fun hlt => ?_, fun hlt => ?_, ?_, ?_⟩
  · constructor
    · show 0 < ((t.setInode ip _).itable ip).ref
      rw [hitself]
      exact href ▸ h.ref
    · show ((t.setInode ip _).itable ip).locked = false
      rw [hitself]
    · show ((t.setInode ip _).itable ip).inum < _
      rw [hitself]
      exact htinum ▸ h.lt
    · show (t.store.dinode ((t.setInode ip _).itable ip).inum).type ≠ .free
      rw [hitself]
      show (t.store.dinode (t.itable ip).inum).type ≠ .free
      rw [htinum, htcopy, hadd]
      show (v.itable ip).copy.type ≠ .free
      rw [hcopy]
      exact h.type
    · intro _
      show ((t.setInode ip _).itable ip).copy = t.store.dinode ((t.setInode ip _).itable ip).inum
      rw [hitself]
      show (t.itable ip).copy = t.store.dinode (t.itable ip).inum
      rw [htinum, htcopy]
  · show ((t.setInode ip _).itable ip).inum = _
    rw [hitself]
    exact htinum
  · exact (hspace hlt fun _ _ => rfl).full
  · have hempty := (hspace hlt fun _ _ => rfl).empty
    rw [hview, htinum] at hempty
    exact hempty
  · have hnode := hw.node_eq (leftover_of_mapped fun _ _ => rfl) ha hclean
    rw [hinum] at hnode
    exact hnode
  · intro j hj
    exact hw.nodeOther j (hinum ▸ hj)

/-- A chunk of `filewrite` has room in the log. -/
theorem writeCost_chunk (off : Nat) (hn : n ≤ Sys.writeMax) : writeCost sb off n ≤ 25 := by
  have hspan : spanned off n ≤ 4 := by
    have hmax : Sys.writeMax = 3 * 1024 := by decide
    unfold spanned BSIZE
    split_ifs <;> omega
  unfold writeCost nslots
  split_ifs <;> omega

variable (sb D ip E) in
/-- What `filewrite` needs to know about one transaction. -/
def ChunkOk : Prop := ∀ (src : Nat → UInt8) (off n : Nat) (t : Fs), Opened sb ip t → Own sb D t.store →
  off ≤ (t.store.dinode (t.itable ip).inum).size → off + n ≤ MAXFILE * BSIZE → n ≤ Sys.writeMax →
    wp (Sys.writeChunk sb ip (fun j => some (src j)) off n)
      (fun r u => ∃ tot, r = some tot ∧ WroteFile sb D ip src off n tot t u) E t

theorem chunkOk_ofLog (hsb : sb.size < 2 ^ 32) : ChunkOk sb D ip Panic.OfLog :=
  fun _ _ _ _ hopen hown hoff hmax _ => wp_writeChunk hsb (.inl logFails_ofLog) hopen hown hoff hmax

theorem chunkOk_of_room (hsb : sb.size < 2 ^ 32) (hroom : 25 ≤ logCapacity sb) :
    ChunkOk sb D ip fun _ => False := fun _ off _ _ hopen hown hoff hmax hn =>
  wp_writeChunk hsb (.inr ((writeCost_chunk off hn).trans hroom)) hopen hown hoff hmax

theorem WroteFile.zero (hown : Own sb D s.store) (hopen : Opened sb ip s)
    (hoff : off ≤ (s.store.dinode (s.itable ip).inum).size) : WroteFile sb D ip src off 0 0 s s where
  le := le_rfl
  own := hown
  opened := hopen
  inum := rfl
  ext := ⟨fun _ _ => rfl, fun _ _ => rfl, fun _ _ _ => by omega, fun _ h0 h1 => absurd h0 h1⟩
  full := fun h => absurd h (Nat.lt_irrefl 0)
  empty := fun h => absurd h (Nat.lt_irrefl 0)
  self := by
    have ha : s.store.Alloc sb (s.itable ip).inum := ⟨hopen.lt, hopen.type⟩
    refine Node.ext rfl rfl rfl rfl ?_ (funext fun o => ?_)
    · rw [Store.node_of_alloc ha]
      simp only [Node.write]
      omega
    · simp only [Node.write]
      rw [if_neg (by omega)]
  other _ _ := rfl

end

end Xv6.Fs

namespace Xv6.Sys

open Wp Fs

variable {P : Type} {sb : Superblock} {D : Nat → Prop} {E : Panic → Prop} {s : Sys P}
  {f : Fin NFILE} {src : Nat → UInt8} {off n : Nat}

/-- The file system is `t`, and the offset of `f` is `off`. -/
def wrote (s : Sys P) (f : Fin NFILE) (t : Fs) (off : Nat) : Sys P :=
  ({ s with fs := t } : Sys P).setFile f { s.ftable f with off := off }

theorem ftable_wrote (s : Sys P) (f : Fin NFILE) (t : Fs) (off : Nat) :
    (s.wrote f t off).ftable f = { s.ftable f with off := off } := Function.update_self ..

theorem wrote_wrote (s : Sys P) (f : Fin NFILE) (t u : Fs) (off off' : Nat) :
    (s.wrote f t off).wrote f u off' = s.wrote f u off' := by
  simp only [wrote, setFile, Function.update_self, Function.update_idem]

/-- What the loop of `filewrite` does from a state in which the first `i` bytes have been written. -/
theorem wp_filewriteLoop (hE : ChunkOk sb D (s.ftable f).ip E)
    (hopen : Opened sb (s.ftable f).ip s.fs)
    (hmax : off + n ≤ MAXFILE * BSIZE) : ∀ fuel i t, i ≤ n → n - i ≤ fuel →
      WroteFile sb D (s.ftable f).ip src off i i s.fs t →
      wp (filewriteLoop sb f (fun j => some (src j)) fuel i n)
        (fun r u => ∃ tot v, u = s.wrote f v (off + tot) ∧
          WroteFile sb D (s.ftable f).ip src off n tot s.fs v ∧ (r = n ↔ tot = n)) E
        (s.wrote f t (off + i)) := by
  intro fuel
  induction fuel with
  | zero =>
    intro i t hi hfuel h
    have hin : i = n := by omega
    subst hin
    exact ⟨i, t, rfl, h, Iff.rfl⟩
  | succ fuel ih =>
    intro i t hi hfuel h
    rw [filewriteLoop, wp_ite]
    refine ⟨fun hlt => ?_, fun hge => ?_⟩
    swap
    · have hin : i = n := by omega
      subst hin
      exact ⟨i, t, rfl, h, Iff.rfl⟩
    have hmaxpos : 0 < writeMax := by decide
    have hsize := h.size_eq hopen
    rw [wp_bind, wp_get, ftable_wrote, wp_bind, lift, wp_zoom]
    refine (hE (fun j => src (i + j)) (off + i) (min (n - i) writeMax) t h.opened h.own (by omega) (by omega)
      (by omega)).mono fun r u hru => ?_
    obtain ⟨tot, rfl, hchunk⟩ := hru
    rw [wp_bind]
    have hnext : ({ s.wrote f t (off + i) with fs := u } : Sys P).setFile f
        { ({ s.wrote f t (off + i) with fs := u } : Sys P).ftable f with off := off + i + tot } =
        s.wrote f u (off + (i + tot)) := by
      rw [Nat.add_assoc]
      exact wrote_wrote s f t u (off + i) (off + (i + tot))
    show wp _ _ E (({ s.wrote f t (off + i) with fs := u } : Sys P).setFile f
      { ({ s.wrote f t (off + i) with fs := u } : Sys P).ftable f with off := off + i + tot })
    rw [hnext, wp_ite]
    refine ⟨fun hall => ?_, fun hshort => ?_⟩
    · have htot : tot = min (n - i) writeMax := Option.some.inj hall
      subst htot
      exact ih _ u (by omega) (by omega) (h.append hchunk)
    · have hle := hchunk.le
      have hlt' : tot < min (n - i) writeMax := by
        refine Nat.lt_of_le_of_ne hle fun heq => hshort ?_
        rw [heq]
      have hrest : WroteFile sb D (s.ftable f).ip (fun j => src (i + j)) (off + i) (n - i) tot t u :=
        hchunk.short hlt' (by omega)
      refine ⟨i + tot, u, rfl, ?_, iff_of_false (by omega) (by omega)⟩
      have happ := h.append hrest
      rwa [Nat.add_sub_cancel' hi] at happ

/-- The result of `filewrite` on an inode. -/
theorem wp_filewrite {m dev : Int} (hE : ChunkOk sb D (s.ftable f).ip E) (hown : Own sb D s.fs.store)
    (htype : (s.ftable f).type = .inode) (hwritable : (s.ftable f).writable = true)
    (hopen : Opened sb (s.ftable f).ip s.fs)
    (hoff : (s.ftable f).off ≤ (s.fs.store.dinode (s.fs.itable (s.ftable f).ip).inum).size) (hm : 0 ≤ m)
    (hmax : (s.ftable f).off + m.toNat ≤ MAXFILE * BSIZE) :
    wp (filewrite sb f (fun j => some (src j)) m dev)
      (fun r u => ∃ tot v, u = s.wrote f v ((s.ftable f).off + tot) ∧
        WroteFile sb D (s.ftable f).ip src (s.ftable f).off m.toNat tot s.fs v ∧
        r = if tot = m.toNat then m else -1) E s := by
  have hstart : s = s.wrote f s.fs ((s.ftable f).off + 0) := by
    simp only [wrote, setFile, Nat.add_zero, Function.update_eq_self]
  rw [filewrite, wp_bind, wp_get]
  simp only [hwritable, htype, Bool.not_true, Bool.false_eq_true, if_false]
  have hloop := @wp_filewriteLoop P sb D E s f src _ _ hE hopen hmax m.toNat 0 s.fs (Nat.zero_le _) (Nat.sub_le _ _)
    (WroteFile.zero hown hopen hoff)
  rw [← hstart] at hloop
  refine hloop.bind fun r u hru => ?_
  obtain ⟨tot, v, hu, hw, hr⟩ := hru
  refine ⟨tot, v, hu, hw, ?_⟩
  have hiff : (r : Int) = m ↔ tot = m.toNat := by omega
  simp only [hiff]

/-- The disk after the first `tot` of `n` bytes have been written to the inode `i`, and no more than these
fit. -/
structure DiskWrote (sb : Superblock) (i : Nat) (src : Nat → UInt8) (off n tot : Nat) (s t : Fs) : Prop where
  self : t.store.node sb i = (s.store.node sb i).write src off tot
  other : ∀ j, j ≠ i → t.store.node sb j = s.store.node sb j
  full : tot < n → t.Full sb

theorem diskWrote {ip : Ptr} {tot : Nat} {t u : Fs} (h : WroteFile sb D ip src off n tot t u) :
    DiskWrote sb (t.itable ip).inum src off n tot t u := ⟨h.self, h.other, h.full⟩

/-- What `filewrite(f, src, m)` returns and leaves behind when `tot` bytes fit. -/
structure FileWrote (sb : Superblock) (f : Fin NFILE) (src : Nat → UInt8) (m : Int) (tot : Nat) (s : Sys P)
    (r : Int) (t : Sys P) : Prop where
  disk : DiskWrote sb (s.fs.itable (s.ftable f).ip).inum src (s.ftable f).off m.toNat tot s.fs t.fs
  offset : t.ftable f = { s.ftable f with off := (s.ftable f).off + tot }
  result : r = if tot = m.toNat then m else -1

/-- From a consistent disk `filewrite` does what a single `writei` of the whole request does: both write
the bytes for which there is room, unless they panic in the log, and for `filewrite` the log of `mkfs` has
enough blocks. -/
theorem filewrite_eq_writei {P : Type} (sb : Superblock) (hsb : sb.size < 2 ^ 32) (s : Sys P) (f : Fin NFILE)
    (src : Nat → UInt8) (m dev : Int) (hc : Consistent sb s.fs.store) (hr : Reserved sb s.fs.store)
    (htype : (s.ftable f).type = .inode) (hwritable : (s.ftable f).writable = true)
    (hopen : Opened sb (s.ftable f).ip s.fs)
    (hoff : (s.ftable f).off ≤ (s.fs.store.dinode (s.fs.itable (s.ftable f).ip).inum).size) (hm : 0 ≤ m)
    (hmax : (s.ftable f).off + m ≤ MAXFILE * BSIZE) :
    ∃ tot ≤ m.toNat,
      tot = s.fs.store.room sb (s.fs.itable (s.ftable f).ip).inum (s.ftable f).off m.toNat ∧
      wp (writeChunk sb (s.ftable f).ip (fun j => some (src j)) (s.ftable f).off m.toNat)
        (fun r t => r = some tot ∧
          DiskWrote sb (s.fs.itable (s.ftable f).ip).inum src (s.ftable f).off m.toNat tot s.fs t)
        Panic.OfLog s.fs ∧
      wp (filewrite sb f (fun j => some (src j)) m dev) (FileWrote sb f src m tot s) Panic.OfLog s ∧
      (25 ≤ logCapacity sb →
        ∃ r t, (filewrite sb f (fun j => some (src j)) m dev).run s = .ok (r, t) ∧
          FileWrote sb f src m tot s r t) := by
  obtain ⟨D, hown, hD⟩ : ∃ D, Own sb D s.fs.store ∧ ∀ b, D b → b < sb.size :=
    ⟨_, hc.own hr, fun b hb => hb.1.2⟩
  have hmax' : (s.ftable f).off + m.toNat ≤ MAXFILE * BSIZE := by omega
  have hroom : ∀ {tot : Nat} {v : Fs}, WroteFile sb D (s.ftable f).ip src (s.ftable f).off m.toNat tot s.fs v →
      s.fs.store.room sb (s.fs.itable (s.ftable f).ip).inum (s.ftable f).off m.toNat = tot := fun h =>
    h.eq_room hown hD hmax'
  have hfile : ∀ {E : Panic → Prop}, ChunkOk sb D (s.ftable f).ip E →
      wp (filewrite sb f (fun j => some (src j)) m dev)
        (FileWrote sb f src m
          (s.fs.store.room sb (s.fs.itable (s.ftable f).ip).inum (s.ftable f).off m.toNat) s) E s := by
    intro E hE
    refine (wp_filewrite hE hown htype hwritable hopen hoff hm hmax').mono fun r u hru => ?_
    obtain ⟨tot, v, rfl, hw, hres⟩ := hru
    rw [hroom hw]
    exact ⟨diskWrote hw, ftable_wrote s f v _, hres⟩
  refine ⟨s.fs.store.room sb (s.fs.itable (s.ftable f).ip).inum (s.ftable f).off m.toNat, Store.room_le, rfl, ?_,
    hfile (chunkOk_ofLog hsb), fun hlog => ?_⟩
  · refine (wp_writeChunk hsb (.inl logFails_ofLog) hopen hown hoff hmax').mono fun r t hrt => ?_
    obtain ⟨tot, rfl, hw⟩ := hrt
    rw [hroom hw]
    exact ⟨rfl, diskWrote hw⟩
  · exact exists_of_wp (hfile (chunkOk_of_room hsb hlog))

/-- A process with a descriptor for an empty file, on a disk without other files. -/
def oneFileSys : Sys Unit where
  fs := {
    store := oneFile fun b => decide (b < Mkfs.sb.datastart)
    itable := fun _ => ⟨1, 1, false, false, .zero .free⟩
    trans := none
    trace := [] }
  ftable := fun _ => ⟨.inode, 1, true, true, 0, 0, 0⟩
  proc := fun _ => ⟨true, 0, fun _ => some 0⟩

/-- A request of two chunks. -/
theorem filewrite_eq_writei_twoChunks :
    ∃ tot r t, (filewrite Mkfs.sb 0 (fun j => some (.ofNat j)) 4000 0).run oneFileSys = .ok (r, t) ∧
      FileWrote Mkfs.sb 0 (fun j => .ofNat j) 4000 tot oneFileSys r t := by
  obtain ⟨tot, _, _, _, _, hrun⟩ := filewrite_eq_writei Mkfs.sb (by decide) oneFileSys 0
    (fun j => .ofNat j) 4000 0 (oneFile_consistent _)
    ⟨fun c hc => absurd (oneFile_ptr _ c) hc, fun b hb hd => decide_eq_true (by
      by_contra hge
      exact hd ⟨Nat.le_of_not_lt hge, hb⟩)⟩
    rfl rfl ⟨Nat.zero_lt_one, rfl, show 1 < Mkfs.NINODES by decide, nofun, nofun⟩ (Nat.zero_le _) (by decide)
    (by decide)
  exact ⟨tot, hrun (by decide)⟩

end Xv6.Sys

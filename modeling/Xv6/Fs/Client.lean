import Xv6.Fs.NameCalls
import Xv6.Lib.Run

/-!
# Any client of the file system

Open files and current directories are references to entries of the inode table that the rest of the kernel
holds from one call to the next. Here the references are a list, and a step is a call by any holder. Whatever the
calls are, each entry is counted as often as it is held, and each block in use belongs to one inode.
-/

namespace Xv6.Fs

open Function Wp

/-- A reference: the entry, and whether it is an open file that may be written. -/
abbrev Ref : Type := Ptr × Bool

structure Client where
  held : List Ref
  fs : Fs

inductive ClientCall where
  | names (cwd : Ptr) (c : NameCall)
  /-- `full`: no open file or no descriptor is free -/
  | open (cwd : Ptr) (path : List UInt8) (m : Sys.Omode) (full : Bool)
  | chdir (cwd : Ptr) (path : Option (List UInt8))
  | read (x : Ref) (copyout : Nat → Bool) (off n : Nat)
  /-- one transaction of `filewrite` -/
  | write (e : Ptr) (src : Nat → Option UInt8) (off n : Nat)
  /-- the current directory in `fork` -/
  | dup (x : Ref)
  /-- `fileclose` of the last descriptor, and the current directory in `exit` -/
  | close (x : Ref)

variable (sb : Superblock)

namespace ClientCall

def uses : ClientCall → Ref
  | names cwd _ | .open cwd _ _ _ | chdir cwd _ => (cwd, false)
  | read x _ _ _ | dup x | close x => x
  | write e _ _ _ => (e, true)

/-- The call, with the references that are held after it. -/
def run (h : List Ref) : ClientCall → M (List Ref)
  | names cwd c => do
    let _ ← c.run sb cwd
    return h
  | .open cwd path m full => do
    match ← openRef sb cwd path m full with
    | none => return h
    | some ip => return (ip, m.writable) :: h
  | chdir cwd path => do
    match ← sysChdir sb cwd path with
    | none => return h
    | some ip => return ((ip, false) :: h).erase (cwd, false)
  | read x copyout off n => do
    ilock x.1
    let _ ← readi sb x.1 copyout off n
    iunlock x.1
    return h
  | write e src off n => do
    let _ ← Sys.writeChunk sb e src off n
    return h
  | dup x => do
    let _ ← idup x.1
    return x :: h
  | close x => do
    beginOp
    iput sb x.1
    endOp
    return h.erase x

end ClientCall

namespace Client

/-- There is no next state after a panic, or without the reference. -/
def step (s : Client) (a : ClientCall) : Option Client :=
  if a.uses ∈ s.held then match (a.run sb s.held).run s.fs with
    | .ok (h, t) => some ⟨h, t⟩
    | .error _ => none
  else none

/-- After `userinit` on the disk `st`: the first process is in the root directory. -/
def boot (st : Store) : Client := ⟨[(0, false)], (Sys.boot st ()).fs⟩

end Client

variable {sb}
variable {s t : Fs} {B : Base} {R T : List (Ptr × Nat)} {L : List Ptr} {N N' : Nat → Node} {e cwd : Ptr} {i : Nat}
  {h k : List Ref} {x : Ref}

/-- The panics that may occur. -/
def Fails (e : Panic) : Prop := e ≠ .freeingFreeBlock

theorem allows_fails : Allows .plain Fails := ⟨fun _ h _ _ => h, .inl nofun⟩

/-- The references `h` of the client are counted beside those of the call, and what it may write is not a
directory. -/
structure Rests (sb : Superblock) (h : List Ref) (R : List (Ptr × Nat)) (L : List Ptr) (B : Base) (N : Nat → Node)
    (s : Fs) : Prop where
  ctx : Ctx .plain sb B R L N s
  cnt : ∀ e, B.cnt e = (h.map Prod.fst).count e
  notDir : ∀ e, (e, true) ∈ h → B.type e ≠ .dir

/-- Between two calls. -/
def Idle (sb : Superblock) (h : List Ref) (s : Fs) : Prop := ∃ B N, Rests sb h [] [] B N s

namespace Rests

theorem pos (hs : Rests sb h R L B N s) (hx : x ∈ h) : 0 < B.cnt x.1 := by
  rw [hs.cnt]
  exact List.count_pos_iff.mpr (List.mem_map_of_mem hx)

theorem idle (hs : Rests sb h R L B N s) (ht : Ctx .plain sb B [] [] N' t) : Idle sb h t :=
  ⟨B, N', ht, hs.cnt, hs.notDir⟩

/-- References pass from a call to the client, or back. -/
theorem move (hs : Rests sb h R L B N s)
    (hperm : (T.map Prod.fst ++ k.map Prod.fst).Perm (R.map Prod.fst ++ h.map Prod.fst))
    (hT : ∀ y ∈ T, Holds B R y.1 y.2) (hfree : ∀ y ∈ R, (N y.2).type ≠ .free)
    (hdir : ∀ e, (e, true) ∈ k → (e, true) ∈ h ∨ ∃ i, (e, i) ∈ R ∧ (N i).type ≠ .dir) :
    ∃ B', Rests sb k T L B' N s := by
  have htype : ∀ e, 0 < B.cnt e → (N (s.itable e).inum).type = B.type e := fun e he => by
    rw [(hs.ctx.base e he).1, (hs.ctx.base e he).2.1]
  have href : ∀ e, (s.itable e).ref = (k.map Prod.fst).count e + (T.map Prod.fst).count e := fun e => by
    rw [hs.ctx.ref, hs.cnt, add_comm, ← List.count_append, ← hperm.count_eq, List.count_append, add_comm]
  refine ⟨⟨fun e => (k.map Prod.fst).count e, fun e => (s.itable e).inum, fun e => (N (s.itable e).inum).type⟩,
    { hs.ctx with
      ref := href
      refs := fun y hy => hs.ctx.inum (hT y hy)
      base := fun e he => ⟨rfl, rfl, ?_⟩ }, fun _ => rfl, fun e he => ?_⟩
  · show (N (s.itable e).inum).type ≠ .free
    rcases hs.ctx.holds_of_ref (href e ▸ Nat.add_pos_left he _) with hmem | ⟨hb, -⟩
    · exact hfree _ hmem
    · exact htype e hb ▸ (hs.ctx.base e hb).2.2
  · show (N (s.itable e).inum).type ≠ .dir
    rcases hdir e he with hold | ⟨i, hmem, hne⟩
    · exact htype e (hs.pos hold) ▸ hs.notDir e hold
    · rwa [hs.ctx.refs _ hmem]

theorem give (hs : Rests sb h [(e, i)] [] B N s) (hfree : (N i).type ≠ .free) {w : Bool}
    (hdir : w = true → (N i).type ≠ .dir) : Idle sb ((e, w) :: h) s := by
  have hw : ∀ a, (a, true) ∈ (e, w) :: h → (a, true) ∈ h ∨ ∃ j, (a, j) ∈ [(e, i)] ∧ (N j).type ≠ .dir := fun a ha => by
    rcases List.mem_cons.mp ha with heq | ha
    · obtain ⟨rfl, hw⟩ := Prod.mk.inj heq
      exact .inr ⟨i, List.mem_cons_self, hdir hw.symm⟩
    · exact .inl ha
  obtain ⟨B', hB'⟩ := hs.move (T := []) (.refl _) nofun (by simpa using hfree) hw
  exact ⟨B', N, hB'⟩

theorem lend (hs : Rests sb h [] [] B N s) (hx : x ∈ h) : ∃ B' i, Rests sb (h.erase x) [(x.1, i)] [] B' N s := by
  obtain ⟨B', hB'⟩ := hs.move (T := [(x.1, B.inum x.1)]) ((List.perm_cons_erase hx).symm.map Prod.fst)
    (by simpa using .inr ⟨hs.pos hx, rfl⟩) nofun fun a ha => .inl (List.mem_of_mem_erase ha)
  exact ⟨B', _, hB'⟩

end Rests

/-! ## One call -/

theorem wp_iput_idle {α : Type} (hs : Rests sb h [(e, i)] [] B N s) {a : α} {Q : α → Fs → Prop}
    (hQ : ∀ t, Idle sb h t → Q a t) : wp (do iput sb e; endOp; return a) Q Fails s := by
  have hend : ∀ t N', Ctx .plain sb B [] [] N' t → wp (do endOp; return a) Q Fails t := fun _ _ ht =>
    wp_endOp ht fun u hu => hQ u (hs.idle hu)
  exact wp_bind.mpr (wp_iput hs.ctx nofun (fun _ => allows_fails.log) (fun t _ => hend t _) fun t _ => hend t _)

theorem wp_ilock_plain (hs : Ctx .plain sb B R [] N s) (he : Holds B R e i) {Q : Unit → Fs → Prop}
    (hQ : ∀ t, Ctx .plain sb B R [e] N t → Q () t) : wp (ilock e) Q Fails s :=
  wp_ilock hs he nofun (fun _ => nofun) fun t _ => hQ t

section

variable (hsb : Layout sb)
include hsb

theorem wp_names (hs : Rests sb h [] [] B N s) (hcwd : (cwd, false) ∈ h) (c : NameCall) :
    wp (c.run sb cwd) (fun _ => Idle sb h) Fails s := by
  have hmake : ∀ path type major minor, type ≠ .free →
      wp (sysMake sb cwd path type major minor) (fun _ => Idle sb h) Fails s := fun path type major minor htype =>
    wp_sysMake (H := fun _ => True) hsb allows_fails False.elim hs.ctx (hs.pos hcwd) (fun _ => walks_plain) path
      htype major minor (fun _ _ _ => hs.idle) fun _ _ _ => hs.idle
  cases c with
  | link old new =>
    exact wp_sysLink hsb allows_fails hs.ctx (hs.pos hcwd) (fun _ => walks_plain) old new
      (fun _ _ _ => hs.idle) fun _ _ _ => hs.idle
  | unlink path =>
    exact wp_sysUnlink (H := fun _ => True) hsb allows_fails hs.ctx (hs.pos hcwd) (fun _ => walks_plain)
      (fun _ _ _ _ _ _ => nofun) path (fun _ _ _ => hs.idle) fun _ _ _ => hs.idle
  | create path | mknod path major minor | mkdir path => exact hmake _ _ _ _ (by decide)

theorem wp_namei_plain (hs : Ctx .plain sb B [] [] N s) (hcwd : 0 < B.cnt cwd) (path : List UInt8)
    {Q : Option Ptr → Fs → Prop} (hnone : ∀ t N', Ctx .plain sb B [] [] N' t → Q none t)
    (hsome : ∀ e i t N', Ctx .plain sb B [(e, i)] [] N' t → Q (some e) t) : wp (namei sb cwd path) Q Fails s := by
  have hw : Walks .plain B cwd N fun _ => True := walks_plain
  exact wp_namei hsb hs hcwd path (fun _ => ⟨hw.closed, trivial⟩) (allows_fails.walk fun _ => hw.closed)
    (fun _ => allows_fails.log) (.inl allows_fails.full) (fun t N' _ => hnone t N') fun e i t N' _ => hsome e i t N'

theorem wp_openInode_plain (hs : Ctx .plain sb B [] [] N s) (hcwd : 0 < B.cnt cwd) (path : List UInt8)
    (creates rdonly : Bool) {Q : Option Ptr → Fs → Prop} (hnone : ∀ t N', Ctx .plain sb B [] [] N' t → Q none t)
    (hsome : ∀ e i t N', ((N' i).type = .dir → rdonly = true) → Ctx .plain sb B [(e, i)] [e] N' t → Q (some e) t) :
    wp (openInode sb cwd path creates rdonly) Q Fails s := by
  rw [openInode, wp_ite]
  refine ⟨fun hc => ?_, fun _ => ?_⟩
  · refine wp_create (H := fun _ => True) hsb allows_fails False.elim hs hcwd (fun _ => walks_plain) path (by decide) 0
      0 (fun t N' _ => hnone t N') fun e i t N' hrel ht => hsome e i t N' (fun hd => ?_) ht
    obtain ⟨d, name, -, -, ⟨-, -, rfl, -, htype | htype⟩ | ⟨-, ⟨-, htype, -⟩, -⟩⟩ := hrel trivial <;>
    · rw [htype] at hd
      cases hd
  · rw [wp_bind]
    refine wp_namei_plain hsb hs hcwd path hnone fun e i s1 N1 h1 => ?_
    show wp (ilock e >>= _) Q Fails s1
    rw [wp_bind]
    refine wp_ilock_plain h1 .head fun s2 h2 => ?_
    show wp (if (s2.itable e).copy.type = .dir ∧ !rdonly then _ else _) Q Fails s2
    rw [wp_ite, h2.copy_type .head List.mem_cons_self]
    refine ⟨fun _ => wp_unlockput_free allows_fails.log h2 List.not_mem_nil fun t N' _ => hnone t N', fun hno => ?_⟩
    exact hsome e i s2 N1 (fun hd => by simpa [hd] using hno) h2

theorem wp_trunc (hs : Ctx .plain sb B R L N s) (he : Holds B R e i) (hl : e ∈ L) {Q : Unit → Fs → Prop}
    (hQ : ∀ t, Ctx .plain sb B R L (update N i (N i).trunc) t → Q () t) : wp (itrunc sb e) Q Fails s := by
  have hlock := (hs.lock e).mpr hl
  have hready := hs.good.ready hlock
  refine wp_itrunc allows_fails.log hready fun t ht => hQ t (hs.update he hl (d := (s.itable e).copy.trunc) rfl
    ht.others ht.self ?_ (ht.own hready) ?_ rfl (fun _ _ => hsb.root_lt.pos) (fun j hj => ?_) ht.trace)
  · rw [ht.dinode, hs.inum he]
  · have := ht.node_self hready
    rwa [hs.good.view_eq hlock, hs.inum he, hs.node] at this
  · rw [ht.node_other (hs.inum he ▸ hj), hs.good.view_eq hlock]

theorem wp_openRef (hs : Rests sb h [] [] B N s) (hcwd : (cwd, false) ∈ h) (path : List UInt8) (m : Sys.Omode)
    (full : Bool) :
    wp (openRef sb cwd path m full) (fun r => Idle sb (r.elim h fun e => (e, m.writable) :: h)) Fails s := by
  refine wp_beginOp hs.ctx fun s1 h1 => ?_
  rw [wp_bind]
  refine wp_openInode_plain hsb h1 (hs.pos hcwd) path _ _ (fun t N' ht => wp_endOp ht fun _ => hs.idle)
    fun e i s2 N2 hdir h2 => ?_
  show wp (if ((s2.itable e).copy.type = .device ∧ _) ∨ _ then _ else _) _ _ s2
  rw [wp_ite]
  refine ⟨fun _ => ?_, fun _ => ?_⟩
  · exact wp_unlockput_free allows_fails.log h2 List.not_mem_nil fun t N' _ ht => wp_endOp ht fun _ => hs.idle
  have hend : ∀ N', (N' i).type = (N2 i).type → ∀ t, Ctx .plain sb B [(e, i)] [e] N' t →
      wp (do iunlock e; endOp; return some e) (fun r => Idle sb (r.elim h fun e => (e, m.writable) :: h)) Fails t := by
    intro N' htype t ht
    rw [wp_bind]
    refine wp_iunlock ht List.not_mem_nil fun u hu => wp_endOp hu fun v hv => ?_
    refine Rests.give ⟨hv, hs.cnt, hs.notDir⟩ (ht.type_ne .head List.mem_cons_self) fun hw hd => ?_
    have hm : m.bits = 0 := of_decide_eq_true (hdir (htype ▸ hd))
    simp [Sys.Omode.writable, hm] at hw
  rw [wp_ite]
  refine ⟨fun _ => wp_bind.mpr ?_, fun _ => hend N2 rfl s2 h2⟩
  exact wp_trunc hsb h2 .head List.mem_cons_self fun t ht => hend _ (by rw [update_self]; rfl) t ht

theorem wp_sysChdir (hs : Rests sb h [] [] B N s) (hcwd : (cwd, false) ∈ h) (path : Option (List UInt8)) :
    wp (sysChdir sb cwd path) (fun r => Idle sb (r.elim h fun e => ((e, false) :: h).erase (cwd, false))) Fails s := by
  refine wp_beginOp hs.ctx fun s1 h1 => ?_
  cases argstr path with
  | none => exact wp_endOp h1 fun _ => hs.idle
  | some path =>
  rw [wp_bind]
  refine wp_namei_plain hsb h1 (hs.pos hcwd) path (fun t N' ht => wp_endOp ht fun _ => hs.idle)
    fun e i s2 N2 h2 => ?_
  show wp (ilock e >>= _) _ _ s2
  rw [wp_bind]
  refine wp_ilock_plain h2 .head fun s3 h3 => ?_
  show wp (if (s3.itable e).copy.type ≠ .dir then _ else _) _ _ s3
  rw [wp_ite]
  refine ⟨fun _ => ?_, fun _ => ?_⟩
  · exact wp_unlockput_free allows_fails.log h3 List.not_mem_nil fun t N' _ ht => wp_endOp ht fun _ => hs.idle
  rw [wp_bind]
  refine wp_iunlock h3 List.not_mem_nil fun s4 h4 => ?_
  -- the new directory is the client's now, the old one the call's
  obtain ⟨B', N', hB'⟩ := Rests.give ⟨h4, hs.cnt, hs.notDir⟩ (h3.type_ne .head List.mem_cons_self) (w := false) nofun
  obtain ⟨B'', i', hB''⟩ := hB'.lend (.tail _ hcwd)
  exact wp_iput_idle hB'' fun _ => id

theorem wp_write_client (hs : Rests sb h [] [] B N s) (he : (e, true) ∈ h) (src : Nat → Option UInt8) (off n : Nat) :
    wp (Sys.writeChunk sb e src off n) (fun _ => Idle sb h) Fails s := by
  refine wp_beginOp hs.ctx fun s1 h1 => ?_
  rw [wp_bind]
  refine wp_ilock_plain h1 (.inr ⟨hs.pos he, rfl⟩) fun s2 h2 => ?_
  have hend : ∀ (r : Option Nat) N' t, Ctx .plain sb B [] [e] N' t →
      wp (do iunlock e; endOp; return r) (fun _ => Idle sb h) Fails t := fun r N' t ht => by
    rw [wp_bind]
    exact wp_iunlock ht List.not_mem_nil fun u hu => wp_endOp hu fun _ => hs.idle
  rw [wp_bind]
  refine wp_write hsb allows_fails.log h2 (.inr ⟨hs.pos he, rfl⟩) List.mem_cons_self src off n (fun _ => hend _ N _ h2)
    (fun tot y _ _ _ hy hd => ?_) fun tot t y _ _ _ _ _ _ ht => hend _ _ t ht
  rw [hy.rest] at hd
  exact absurd ((hs.ctx.base e (hs.pos he)).2.1.symm.trans hd) (hs.notDir e he)

theorem wp_clientCall (hs : Idle sb h s) {a : ClientCall} (ha : a.uses ∈ h) :
    wp (a.run sb h) (Idle sb) Fails s := by
  obtain ⟨B, N, hs⟩ := hs
  cases a with
  | names cwd c => exact wp_bind.mpr (wp_names hsb hs ha c)
  | «open» cwd path m full =>
    refine (wp_openRef hsb hs ha path m full).bind fun r t ht => ?_
    cases r <;> exact ht
  | chdir cwd path =>
    refine (wp_sysChdir hsb hs ha path).bind fun r t ht => ?_
    cases r <;> exact ht
  | read x copyout off n =>
    rw [ClientCall.run, wp_bind]
    refine wp_ilock_plain hs.ctx (.inr ⟨hs.pos ha, rfl⟩) fun s1 h1 => ?_
    rw [wp_bind]
    refine wp_readi (h1.good.ready ((h1.lock _).mpr List.mem_cons_self)) copyout off n fun _ _ => ?_
    rw [wp_bind]
    exact wp_iunlock h1 List.not_mem_nil fun _ => hs.idle
  | write e src off n => exact wp_bind.mpr (wp_write_client hsb hs ha src off n)
  | dup x =>
    rw [ClientCall.run, wp_bind]
    obtain ⟨-, htype, hfree⟩ := hs.ctx.base x.1 (hs.pos ha)
    refine wp_idup hs.ctx (.inr ⟨hs.pos ha, rfl⟩) fun t ht => ?_
    refine Rests.give ⟨ht, hs.cnt, hs.notDir⟩ (htype ▸ hfree) fun hw => htype ▸ hs.notDir x.1 ?_
    rw [← hw]
    exact ha
  | close x =>
    obtain ⟨B', i, hB'⟩ := hs.lend ha
    exact wp_beginOp hB'.ctx fun t ht => wp_iput_idle ⟨ht, hB'.cnt, hB'.notDir⟩ fun _ => id

end

/-! ## Runs -/

namespace Client

/-- What the disk has to be at boot: its blocks are owned, directory entries are in range, and every inode has a
link. -/
structure Sound (sb : Superblock) (st : Store) : Prop where
  layout : Layout sb
  own : Own sb sb.IsData st
  dirs : ∀ i k, (st.node sb i).type = .dir → (st.node sb i).slotInum k < sb.ninodes
  root : (st.node sb ROOTINO).type = .dir
  links : ∀ i, st.Alloc sb i → (st.dinode i).nlink ≠ 0

variable {st : Store} {as : List ClientCall} {c : Client}

theorem idle_of_run (h : Sound sb st) (hrun : Run.exec (step sb) (boot st) as = some c) : Idle sb c.held c.fs := by
  refine Run.exec_invariant (I := fun c => Idle sb c.held c.fs) (fun s a t hs _ hstep => ?_) hrun Run.along_true ?_
  · unfold step at hstep
    split at hstep
    · rename_i ha
      cases hx : (a.run sb s.held).run s.fs with
      | error p => simp [hx] at hstep
      | ok r =>
        rw [hx] at hstep
        cases hstep
        exact wp_of_ok (wp_clientCall h.layout hs ha) hx
    · cases hstep
  · refine ⟨bootBase, st.node sb, (boot_ctx h.own h.dirs h.root h.links ()).weaken (fun _ => trivial) False.elim,
      fun e => ?_, by simp [boot]⟩
    by_cases he : e = 0 <;> simp [boot, bootBase, he, eq_comm]

/-- In every run each entry of the inode table is counted as often as it is referred to, no two entries are for one
inode and none is locked, what is referred to is allocated, and an inode is freed exactly when the last reference to
it is dropped and it has no link. -/
theorem references_exact (h : Sound sb st) (hrun : Run.exec (step sb) (boot st) as = some c) :
    (∀ e, (c.fs.itable e).ref = (c.held.map Prod.fst).count e ∧ (c.fs.itable e).locked = false) ∧
    (∀ e e', 0 < (c.fs.itable e).ref → 0 < (c.fs.itable e').ref →
      (c.fs.itable e).inum = (c.fs.itable e').inum → e = e') ∧
    (∀ x ∈ c.held, c.fs.store.Alloc sb (c.fs.itable x.1).inum) ∧
    (∀ i d left freed, .put i d left freed ∈ c.fs.trace →
      (freed = true ↔ left = 0 ∧ d.type ≠ .free ∧ d.nlink = 0)) ∧
    ∀ i n, .alloc i n ∈ c.fs.trace → n = 0 := by
  obtain ⟨B, N, hc⟩ := idle_of_run h hrun
  refine ⟨fun e => ⟨?_, ?_⟩, hc.ctx.good.uniq, fun x hx => ?_, fun i d left freed hev => hc.ctx.traced _ hev trivial,
    fun i n hev => hc.ctx.traced _ hev trivial⟩
  · rw [hc.ctx.ref, hc.cnt]
    rfl
  · simpa using hc.ctx.lock e
  · obtain ⟨hinum, hN, hfree⟩ := hc.ctx.base x.1 (hc.pos hx)
    rw [← hN, ← hinum, ← hc.ctx.node, ne_eq, Store.node_type_free, not_not] at hfree
    exact hfree

/-- In every run the data blocks in use are those of the inodes, each in one place of one inode, no inode has a
hole, and no call frees a free block. -/
theorem blocks_owned (h : Sound sb st) (hrun : Run.exec (step sb) (boot st) as = some c) :
    Own sb sb.IsData c.fs.store ∧
      ∀ a : ClientCall, a.uses ∈ c.held → (a.run sb c.held).run c.fs ≠ .error .freeingFreeBlock := by
  have hc := idle_of_run h hrun
  refine ⟨?_, fun a ha herr => wp_of_error (wp_clientCall h.layout hc ha) herr rfl⟩
  obtain ⟨B, N, hc⟩ := hc
  exact hc.ctx.good.own

/-- In every run the entries of every directory name inodes of the disk, and no directory is open for writing. -/
theorem directories_protected (h : Sound sb st) (hrun : Run.exec (step sb) (boot st) as = some c) :
    (∀ i k, (c.fs.store.node sb i).type = .dir → (c.fs.store.node sb i).slotInum k < sb.ninodes) ∧
      ∀ e, (e, true) ∈ c.held → (c.fs.store.node sb (c.fs.itable e).inum).type ≠ .dir := by
  obtain ⟨B, N, hc⟩ := idle_of_run h hrun
  refine ⟨hc.ctx.good.dirs, fun e he => ?_⟩
  obtain ⟨hinum, hN, -⟩ := hc.ctx.base e (hc.pos he)
  rw [hinum, hc.ctx.node, hN]
  exact hc.notDir e he

/-- The file `a` is created, written, and removed before it is closed. -/
def unlinkedRun : List ClientCall :=
  [.open 0 [97] ⟨0x202⟩ false, .write 1 (fun _ => some 7) 0 3, .names 0 (.unlink (some [97])), .close (1, true)]

theorem bareDisk_sound : Sound Mkfs.sb (bareDisk 0) where
  layout := ⟨by decide, by decide⟩
  own := rootDisk_own
  dirs i k _ := by rcases bareDisk_slotInum k with hk | hk <;> rw [hk] <;> decide
  root := by rw [rootDisk_node_root]; rfl
  links i hi := by
    by_cases hr : i = ROOTINO
    · rw [hr]
      decide
    · refine absurd ?_ hi.2
      rw [rootDisk_dinode_of_ne hr, if_neg (by omega)]
      rfl

def EndsIn (c : Client) : Prop := Run.exec (step Mkfs.sb) (boot (bareDisk 0)) unlinkedRun = some c

theorem exists_endsIn : ∃ c, EndsIn c := Option.isSome_iff_exists.mp (by decide +kernel)

theorem references_exact_unlinked : ∃ c, EndsIn c ∧ ∀ e, (c.fs.itable e).ref = (c.held.map Prod.fst).count e := by
  obtain ⟨c, hc⟩ := exists_endsIn
  exact ⟨c, hc, fun e => ((references_exact bareDisk_sound hc).1 e).1⟩

theorem blocks_owned_unlinked : ∃ c, EndsIn c ∧ Own Mkfs.sb Mkfs.sb.IsData c.fs.store := by
  obtain ⟨c, hc⟩ := exists_endsIn
  exact ⟨c, hc, (blocks_owned bareDisk_sound hc).1⟩

theorem directories_protected_unlinked : ∃ c, EndsIn c ∧
    ∀ e, (e, true) ∈ c.held → (c.fs.store.node Mkfs.sb (c.fs.itable e).inum).type ≠ .dir := by
  obtain ⟨c, hc⟩ := exists_endsIn
  exact ⟨c, hc, (directories_protected bareDisk_sound hc).2⟩

end Client

end Xv6.Fs

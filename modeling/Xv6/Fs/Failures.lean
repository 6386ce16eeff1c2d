import Xv6.Fs.AtRest
import Xv6.Fs.Calls

/-!
# Calls that fail

A call of `create`, `link` or `unlink` that fails leaves every inode as it was. `open` does not: it creates
the file before it looks for an entry of the file table and for a descriptor, and the file stays if there are
none. This is the only way in which it fails and changes anything.
-/

namespace Xv6

namespace Fs

open Wp

/-- Inodes without links are freed when their last reference goes; names may lead to free inodes. -/
def Mode.plain : Mode := ⟨True, False, False.elim⟩

variable {m m' : Mode} {sb : Superblock} {s t : Fs} {i : Nat} {B : Base} {R : List (Ptr × Nat)} {L : List Ptr}
  {N N' : Nat → Node} {E : Panic → Prop} {cwd : Ptr}

theorem Ctx.weaken (h : Ctx m sb B R L N s) (hexact : m'.exact → m.exact) (hsafe : m'.safe → m.safe) :
    Ctx m' sb B R L N s := by
  obtain ⟨⟨h1, h2, h3, h4, h5, h6, h7, h8⟩, href, hrefs, hlock, hbase, hnode, htraced⟩ := h
  refine ⟨⟨h1, h2, h3, h4, h5, h6, h7, fun hm => h8 (hexact hm)⟩, href, hrefs, hlock, hbase, hnode, fun ev hev => ?_⟩
  have hok := htraced ev hev
  cases ev with
  | put i d left freed | alloc i refs => exact fun hm => hok (hexact hm)
  | found i type => exact fun hm => hok (hsafe hm)

theorem allows_all : Allows m fun _ => True := ⟨fun _ _ _ _ => trivial, .inl trivial⟩

theorem walks_plain : Walks .plain B cwd N fun _ => True := ⟨⟨fun _ _ _ _ _ => trivial, nofun⟩, trivial, trivial⟩

/-- The inodes with their contents, the links and the directories are as they were. -/
def SameNodes (sb : Superblock) (s t : Fs) : Prop := ∀ i, t.store.node sb i = s.store.node sb i

theorem Ctx.sameNodes (h : Ctx m sb B R L N s) (ht : Ctx m' sb B R L N t) : SameNodes sb s t := fun i => by
  rw [ht.node, h.node]

/-- If `create`, `link` or `unlink` fails, nothing has changed. -/
theorem failed_calls_change_nothing (hsb : Layout sb) (h : Ctx .plain sb B [] [] N s) (hcwd : 0 < B.cnt cwd) :
    (∀ path type major minor t, type ≠ .free → (create sb cwd path type major minor).run s = .ok (none, t) →
      SameNodes sb s t ∧ Ctx .plain sb B [] [] N t) ∧
    (∀ old new t, (sysLink sb cwd old new).run s = .ok (false, t) →
      SameNodes sb s t ∧ Ctx .plain sb B [] [] N t) ∧
    ∀ path t, (sysUnlink sb cwd path).run s = .ok (false, t) → SameNodes sb s t ∧ Ctx .plain sb B [] [] N t := by
  have hsame : ∀ t N', (Mode.plain.exact → N' = N) → Ctx .plain sb B [] [] N' t →
      SameNodes sb s t ∧ Ctx .plain sb B [] [] N t := by
    intro t N' hN' ht
    obtain rfl := hN' trivial
    exact ⟨h.sameNodes ht, ht⟩
  refine ⟨fun path type major minor t htype hrun => ?_, fun old new t hrun => ?_, fun path t hrun => ?_⟩
  · have hwp := wp_create (H := fun _ => True) (Q := fun r t => r = none → SameNodes sb s t ∧ Ctx .plain sb B [] [] N t)
      hsb allows_all False.elim h hcwd (fun _ => walks_plain) path htype major minor (fun t N' hN' ht _ => hsame t N' hN' ht)
      fun _ _ _ _ _ _ => nofun
    exact wp_of_ok hwp hrun rfl
  · have hwp := wp_sysLink (Q := fun r t => r = false → SameNodes sb s t ∧ Ctx .plain sb B [] [] N t) hsb allows_all h
      hcwd (fun _ => walks_plain) old new (fun t N' hN' ht _ => hsame t N' hN' ht) fun _ _ _ _ => nofun
    exact wp_of_ok hwp hrun rfl
  · have hwp := wp_sysUnlink (H := fun _ => True)
      (Q := fun r t => r = false → SameNodes sb s t ∧ Ctx .plain sb B [] [] N t) hsb allows_all h hcwd
      (fun _ => walks_plain) (fun _ _ _ _ _ _ => trivial) path (fun t N' hN' ht _ => hsame t N' hN' ht)
      fun _ _ _ _ => nofun
    exact wp_of_ok hwp hrun rfl

/-- The root directory cannot be removed by the name `/.`. -/
theorem failed_calls_change_nothing_dot : ∃ t,
    (sysUnlink Mkfs.sb 0 (some [slash, 46])).run (Sys.boot (bareDisk 0) ()).fs = .ok (false, t) ∧
      SameNodes Mkfs.sb (Sys.boot (bareDisk 0) ()).fs t := by
  have hrun : ((sysUnlink Mkfs.sb 0 (some [slash, 46])).run (Sys.boot (bareDisk 0) ()).fs).map Prod.fst =
      .ok false := by decide +kernel
  obtain ⟨⟨r, t⟩, hx, rfl⟩ := ok_of_map hrun
  have hctx : Ctx .plain Mkfs.sb bootBase [] [] ((bareDisk 0).node Mkfs.sb) (Sys.boot (bareDisk 0) ()).fs :=
    (boot_atRest ()).weaken (fun _ => trivial) False.elim
  exact ⟨t, hx, ((failed_calls_change_nothing ⟨by decide, by decide⟩ hctx (by decide)).2.2 _ t hx).1⟩

/-- `sys_open` as far as the file system is concerned: the entry that the open file refers to. -/
def openRef (sb : Superblock) (cwd : Ptr) (path : List UInt8) (m : Sys.Omode) (full : Bool) : M (Option Ptr) := do
  beginOp
  match ← openInode sb cwd path m.creates m.rdonly with
  | none =>
    endOp
    return none
  | some ip =>
    let d ← copyOf ip
    if d.type = .device ∧ (d.major < 0 ∨ Int16.ofNat NDEV ≤ d.major) ∨ full then
      iunlockput sb ip
      endOp
      return none
    else
      if m.truncates ∧ d.type = .file then itrunc sb ip else pure ()
      iunlock ip
      endOp
      return some ip

/-- `openRef` makes the file, and then nothing is free. -/
def OpenCreates (sb : Superblock) (B : Base) (N : Nat → Node) (s : Fs) (cwd : Ptr) (q : List UInt8) (m : Sys.Omode)
    (full : Bool) : Prop :=
  m.creates = true ∧ full = true ∧ resolve N (startOf B cwd q) (components q) = none ∧
    ∃ e u, (create sb cwd q .file 0 0).run { s with trans := some [] } = .ok (some e, u)

theorem wp_openRef_exact (hsb : Layout sb) (h : Ctx .plain sb B [] [] N s) (hcwd : 0 < B.cnt cwd) (q : List UInt8)
    (m : Sys.Omode) (full : Bool) :
    wp (openRef sb cwd q m full) (fun r u => r = none →
      ∃ N', Ctx .plain sb B [] [] N' u ∧ (N' = N ↔ ¬ OpenCreates sb B N s cwd q m full)) (fun _ => True) s := by
  have hopen : wp (openInode sb cwd q m.creates m.rdonly) (fun r u => (r = none → Ctx .plain sb B [] [] N u) ∧
      ∀ e, r = some e → ∃ i N', Ctx .plain sb B [(e, i)] [e] N' u ∧
        (N' = N ∧ Kept B [] N e i ∧ (m.creates = true → resolve N (startOf B cwd q) (components q) ≠ none) ∨
          m.creates = true ∧ resolve N (startOf B cwd q) (components q) = none ∧ Made .file i N N'))
      (fun _ => True) { s with trans := some [] } := by
    have hbegin : Ctx .plain sb B [] [] N { s with trans := some [] } := h.of_eq rfl rfl rfl
    refine wp_openInode hsb allows_all False.elim hbegin hcwd (fun _ => walks_plain) q m.creates m.rdonly
      (fun u N' hN' hu => ⟨fun _ => hN' trivial ▸ hu, fun e he => by cases he⟩) fun e i u N' hrel hu => ?_
    refine ⟨fun he => (by cases he), fun e' he => ?_⟩
    cases he
    exact ⟨i, N', hu, hrel trivial⟩
  rw [openRef, wp_bind, beginOp, wp_modify, wp_bind]
  refine hopen.with_run.mono fun r u hux => ?_
  obtain ⟨hu, hx⟩ := hux
  cases r with
  | none =>
    show wp (endOp >>= _) _ _ u
    rw [wp_bind, endOp]
    refine fun _ => ⟨N, (hu.1 rfl).of_eq rfl rfl rfl, iff_of_true rfl ?_⟩
    rintro ⟨hc, -, -, e, v, hrun⟩
    rw [openInode, if_pos hc, hrun] at hx
    cases hx
  | some e =>
    obtain ⟨i, N', hctx, hrel⟩ := hu.2 e rfl
    show wp (if (u.itable e).copy.type = .device ∧ _ ∨ _ then _ else _) _ _ u
    rw [wp_ite, hctx.copy_type .head List.mem_cons_self]
    refine ⟨fun hfail => ?_, fun _ => ?_⟩
    · have hk : Kept B [] N' e i := by
        rcases hrel with ⟨rfl, hk, -⟩ | ⟨-, -, hmade⟩
        · exact hk
        · refine .inr (.inr (.inl ?_))
          rw [hmade.linked (by decide)]
          decide
      refine wp_unlockput (allows_all (m := .plain)).log hctx List.not_mem_nil (fun _ => hk) fun v N'' hN'' hv => ?_
      obtain rfl := hN'' trivial
      rw [wp_bind, endOp]
      refine fun _ => ⟨N'', hv.of_eq rfl rfl rfl, ?_⟩
      rcases hrel with ⟨heq, -, hres⟩ | ⟨hc, hres, hmade⟩
      · exact iff_of_true heq fun hopens => hres hopens.1 hopens.2.2.1
      · refine iff_of_false (fun heq => ?_) (not_not.mpr ⟨hc, hfail.resolve_left fun hdev => ?_, hres, e, u, ?_⟩)
        · have := hmade.typed
          rw [heq, hmade.wasFree] at this
          cases this
        · rw [hmade.typed] at hdev
          cases hdev.1
        · rwa [openInode, if_pos hc] at hx
    · -- from here on the call succeeds
      have hend : ∀ v, wp (do iunlock e; endOp; return some e) (fun r u => r = none →
          ∃ N', Ctx .plain sb B [] [] N' u ∧ (N' = N ↔ ¬ OpenCreates sb B N s cwd q m full)) (fun _ => True) v := by
        refine fun v => wp_bind.mpr (.of_forall (fun _ w => wp_bind.mpr ?_) fun _ => trivial)
        exact .of_forall (fun _ x hr => by cases hr) fun _ => trivial
      rw [wp_ite]
      exact ⟨fun _ => wp_bind.mpr (.of_forall (fun _ => hend) fun _ => trivial), fun _ => hend u⟩

end Fs

namespace Sys

open Wp Fs

variable {P : Type} {sb : Superblock} {s t : Sys P} {p : P} {B : Base} {N N' : Nat → Node} {E : Panic → Prop}

theorem wp_lift {α : Type} {f : Fs.M α} {Q : α → Sys P → Prop}
    (h : wp f (fun a u => Q a { s with fs := u }) E s.fs) : wp (lift f : SysM P α) Q E s := wp_zoom.mpr h

theorem wp_filealloc {Q : Option (Fin NFILE) → Sys P → Prop} (hnone : (∀ f, (s.ftable f).ref ≠ 0) → Q none s)
    (hsome : ∀ f, (s.ftable f).ref = 0 → Q (some f) (s.setFile f { s.ftable f with ref := 1 })) :
    wp (filealloc : SysM P _) Q E s := by
  rw [filealloc, wp_bind, wp_get]
  cases hf : (List.finRange NFILE).find? fun f => (s.ftable f).ref = 0 with
  | none =>
    refine hnone fun f hf0 => ?_
    have := List.find?_eq_none.mp hf f (List.mem_finRange f)
    exact this (decide_eq_true hf0)
  | some f =>
    have := List.find?_some hf
    exact hsome f (of_decide_eq_true this)

theorem wp_fileclose_new {f : Fin NFILE} (href : (s.ftable f).ref = 0) (htype : (s.ftable f).type = .none)
    {Q : Unit → Sys P → Prop} (hQ : Q () s) :
    wp (fileclose sb f) Q E (s.setFile f { s.ftable f with ref := 1 }) := by
  have hself : (s.setFile f { s.ftable f with ref := 1 }).ftable f = { s.ftable f with ref := 1 } :=
    Function.update_self ..
  rw [fileclose, wp_bind, wp_get, hself]
  show wp (do
    modify fun u => u.setFile f { s.ftable f with ref := 0, type := .none }
    if (s.ftable f).type = .inode ∨ (s.ftable f).type = .device then _ else pure ()) Q E _
  rw [wp_bind, wp_modify, htype]
  have hback : (s.setFile f { s.ftable f with ref := 1 }).setFile f { s.ftable f with ref := 0, type := .none } = s := by
    rw [← href, ← htype]
    simp only [setFile, Function.update_idem, Function.update_eq_self]
  rw [hback]
  exact hQ

variable [DecidableEq P]

theorem wp_fdalloc {f : Fin NFILE} {Q : Option (Fin NOFILE) → Sys P → Prop}
    (hnone : (∀ fd, (s.proc p).ofile fd ≠ none) → Q none s)
    (hsome : ∀ fd, (s.proc p).ofile fd = none → Q (some fd) (s.setFd p fd (some f))) :
    wp (fdalloc p f) Q E s := by
  rw [fdalloc, wp_bind, wp_get]
  cases hf : (List.finRange NOFILE).find? fun fd => (s.proc p).ofile fd = none with
  | none =>
    refine hnone fun fd hfd => ?_
    have := List.find?_eq_none.mp hf fd (List.mem_finRange fd)
    exact this (decide_eq_true hfd)
  | some fd =>
    have := List.find?_some hf
    exact hsome fd (of_decide_eq_true this)

/-- What a failing call must leave as it was. -/
structure Same (sb : Superblock) (B : Base) (N : Nat → Node) (s t : Sys P) : Prop where
  nodes : SameNodes sb s.fs t.fs
  ftable : t.ftable = s.ftable
  proc : t.proc = s.proc
  ctx : Ctx .plain sb B [] [] N t.fs

/-- No entry of the file table, or no descriptor of `p`, is free. -/
def Full (s : Sys P) (p : P) : Prop := (∀ f, (s.ftable f).ref ≠ 0) ∨ ∀ fd, (s.proc p).ofile fd ≠ none

instance : Decidable (s.Full p) := inferInstanceAs (Decidable (_ ∨ _))

/-- The descriptor `fd` of `p` is new, and it is for the new file `f` with the inode `e`. -/
structure Opens (p : P) (f : Fin NFILE) (fd : Fin NOFILE) (e : Ptr) (m : Omode) (s t : Sys P) : Prop where
  ref : (s.ftable f).ref = 0
  free : (s.proc p).ofile fd = none
  file : t.ftable = Function.update s.ftable f (t.ftable f)
  ip : (t.ftable f).ip = e
  writable : (t.ftable f).writable = m.writable
  ofile : (t.proc p).ofile = Function.update (s.proc p).ofile fd (some f)

theorem opens_set {f : Fin NFILE} {fd : Fin NOFILE} {e : Ptr} {m : Omode} {u : Fs} {x y : OpenFile}
    (hf : (s.ftable f).ref = 0) (hfd : (s.proc p).ofile fd = none) (hip : y.ip = e) (hw : y.writable = m.writable) :
    Opens p f fd e m s ((((({ s with fs := u } : Sys P).setFile f x).setFd p fd (some f))).setFile f y) := by
  have hself : Function.update (Function.update s.ftable f x) f y f = y := Function.update_self ..
  refine ⟨hf, hfd, ?_, (congrArg OpenFile.ip hself).trans hip, (congrArg OpenFile.writable hself).trans hw, ?_⟩
  · exact (Function.update_idem x y s.ftable).trans (congrArg (Function.update s.ftable f) hself.symm)
  · show (Function.update s.proc p _ p).ofile = _
    rw [Function.update_self]
    rfl

theorem wp_sysOpen {path : Option (List UInt8)} {m : Omode} {q : List UInt8}
    (hfiles : ∀ f, (s.ftable f).ref = 0 → (s.ftable f).type = .none) (hq : argstr path = some q)
    {T : Option Ptr → Fs → Prop} {Q : Option (Fin NOFILE) → Sys P → Prop}
    (h : wp (openRef sb (s.proc p).cwd q m (s.Full p)) T E s.fs) (hnone : ∀ u, T none u → Q none { s with fs := u })
    (hsome : ∀ e f fd t, T (some e) t.fs → Opens p f fd e m s t → Q (some fd) t) :
    wp (sysOpen sb p path m) Q E s := by
  have hfail : ∀ e v, wp (do iunlockput sb e; endOp; return none) T E v →
      wp (do openFail sb e; return none) Q E { s with fs := v } := by
    intro e v hv
    rw [wp_bind]
    refine wp_lift (wp_bind.mpr ((wp_bind.mp hv).mono fun _ w hw => ?_))
    exact (wp_bind.mp hw).mono fun _ => hnone
  have hend : ∀ e f fd t, Opens p f fd e m s t → ∀ v, wp (do iunlock e; endOp; return some e) T E v →
      wp (do iunlock e; endOp) (fun _ w => Q (some fd) { t with fs := w }) E v := by
    intro e f fd t ht v hv
    refine wp_bind.mpr ((wp_bind.mp hv).mono fun _ w hw => (wp_bind.mp hw).mono fun _ y hy => ?_)
    exact hsome e f fd { t with fs := y } hy ⟨ht.ref, ht.free, ht.file, ht.ip, ht.writable, ht.ofile⟩
  rw [openRef, wp_bind] at h
  rw [sysOpen, hq, wp_bind]
  refine wp_lift (h.mono fun _ u h => ?_)
  rw [wp_bind, wp_get, wp_bind]
  refine wp_lift ((wp_bind.mp h).mono fun r u h => ?_)
  cases r with
  | none => exact wp_bind.mpr (wp_lift ((wp_bind.mp h).mono fun _ => hnone))
  | some e =>
    change wp (if (u.itable e).copy.type = .device ∧ _ ∨ _ then _ else _) _ _ u at h
    show wp (if (u.itable e).copy.type = .device ∧ _ then _ else _) _ _ { s with fs := u }
    rw [wp_ite] at h ⊢
    refine ⟨fun hdev => hfail e u (h.1 (.inl hdev)), fun hdev => wp_bind.mpr ?_⟩
    refine wp_filealloc (fun hfull => hfail e u (h.1 (.inr (decide_eq_true (.inl hfull))))) fun f hf => ?_
    refine wp_bind.mpr (wp_fdalloc (fun hfull => ?_) fun fd hfd => ?_)
    · refine wp_bind.mpr (wp_fileclose_new hf (hfiles f hf) ?_)
      exact hfail e u (h.1 (.inr (decide_eq_true (.inr hfull))))
    · have hfree : ¬ s.Full p := fun hfull => hfull.elim (fun hno => hno f hf) fun hno => hno fd hfd
      have h2 := h.2 fun hor => hor.elim hdev fun hd => hfree (of_decide_eq_true hd)
      rw [wp_bind, openFile, wp_bind]
      refine wp_lift (wp_bind.mpr (wp_lift ?_))
      rw [wp_ite] at h2 ⊢
      exact ⟨fun hc => wp_bind.mpr ((wp_bind.mp (h2.1 hc)).mono fun _ => hend e f fd _ (opens_set hf hfd rfl rfl)),
        fun hc => hend e f fd _ (opens_set hf hfd rfl rfl) _ (h2.2 hc)⟩

/-- A call of `open` that finds nothing free creates the file before that. -/
def LeavesFile (sb : Superblock) (B : Base) (N : Nat → Node) (s : Sys P) (p : P) (path : Option (List UInt8))
    (m : Omode) : Prop :=
  ∃ q, argstr path = some q ∧ OpenCreates sb B N s.fs (s.proc p).cwd q m (s.Full p)

/-- A failing `open` has changed nothing, exactly if it has not created the file and then found no entry of the file
table or no descriptor. -/
theorem failed_open_changes_nothing (hsb : Layout sb) (h : Ctx .plain sb B [] [] N s.fs)
    (hcwd : 0 < B.cnt (s.proc p).cwd) (hfiles : ∀ f, (s.ftable f).ref = 0 → (s.ftable f).type = .none)
    (path : Option (List UInt8)) (m : Omode) (hrun : (sysOpen sb p path m).run s = .ok (none, t)) :
    Same sb B N s t ↔ ¬ LeavesFile sb B N s p path m := by
  suffices hwp : wp (sysOpen sb p path m) (fun r t => r = none → (Same sb B N s t ↔ ¬ LeavesFile sb B N s p path m))
    (fun _ => True) s from wp_of_ok hwp hrun rfl
  cases hq : argstr path with
  | none =>
    rw [sysOpen, hq]
    refine fun _ => iff_of_true ⟨fun _ => rfl, rfl, rfl, h⟩ ?_
    rintro ⟨q, hq', -⟩
    rw [hq] at hq'
    cases hq'
  | some q =>
    refine wp_sysOpen hfiles hq (wp_openRef_exact hsb h hcwd q m (s.Full p)) (fun u hu _ => ?_)
      fun e f fd t _ _ hr => by cases hr
    obtain ⟨N', hctx, hiff⟩ := hu rfl
    have hleaves : LeavesFile sb B N s p path m ↔ OpenCreates sb B N s.fs (s.proc p).cwd q m (s.Full p) := by
      refine ⟨fun ⟨q', hq', hc⟩ => ?_, fun hc => ⟨q, hq, hc⟩⟩
      rwa [Option.some.inj (hq.symm.trans hq')]
    rw [hleaves, ← hiff]
    refine ⟨fun hsame => funext fun i => ?_, ?_⟩
    · rw [← hctx.node, hsame.nodes, h.node]
    · rintro rfl
      exact ⟨h.sameNodes hctx, rfl, rfl, hctx⟩

/-- The first process has no descriptor left: all are the reading end of one pipe. -/
def noDescriptor : Sys Unit :=
  { boot (bareDisk 0) () with
    ftable := fun f => if f = 0 then ⟨.pipe, NOFILE, true, false, 0, 0, 0⟩ else ⟨.none, 0, false, false, 0, 0, 0⟩
    proc := fun _ => ⟨true, 0, fun _ => some 0⟩ }

theorem noDescriptor_ctx :
    Ctx .plain Mkfs.sb bootBase [] [] ((bareDisk 0).node Mkfs.sb) noDescriptor.fs ∧
      ∀ f, (noDescriptor.ftable f).ref = 0 → (noDescriptor.ftable f).type = .none := by
  refine ⟨(boot_atRest ()).weaken (fun _ => trivial) False.elim, fun f hf => ?_⟩
  have hne : f ≠ 0 := by
    rintro rfl
    cases hf
  rw [show noDescriptor.ftable f = _ from if_neg hne]

/-- `open(".", O_RDONLY)` fails, and nothing has changed. -/
theorem failed_open_changes_nothing_dot : ∃ t,
    (sysOpen Mkfs.sb () (some [46]) ⟨0⟩).run noDescriptor = .ok (none, t) ∧
      Same Mkfs.sb bootBase ((bareDisk 0).node Mkfs.sb) noDescriptor t := by
  have hrun : ((sysOpen Mkfs.sb () (some [46]) ⟨0⟩).run noDescriptor).map Prod.fst = .ok none := by decide +kernel
  obtain ⟨⟨r, t⟩, hx, rfl⟩ := ok_of_map hrun
  exact ⟨t, hx, failed_open_changes_nothing ⟨by decide, by decide⟩ noDescriptor_ctx.1 (by decide)
    noDescriptor_ctx.2 _ _ hx |>.mpr fun ⟨_, _, hc, _⟩ => absurd hc (by decide)⟩

/-- `open("a", O_CREATE | O_WRONLY)` returns -1 and leaves the new file. -/
theorem open_creates_and_fails :
    Ctx .plain Mkfs.sb bootBase [] [] ((bareDisk 0).node Mkfs.sb) noDescriptor.fs ∧
    (∀ f, (noDescriptor.ftable f).ref = 0 → (noDescriptor.ftable f).type = .none) ∧ ∃ t,
    (sysOpen Mkfs.sb () (some [97]) ⟨0x201⟩).run noDescriptor = .ok (none, t) ∧
      (noDescriptor.fs.store.dinode 2).type = .free ∧ (t.fs.store.dinode 2).type = .file ∧
      (noDescriptor.fs.store.node Mkfs.sb ROOTINO).bindings [97] = none ∧
      (t.fs.store.node Mkfs.sb ROOTINO).bindings [97] = some 2 := by
  refine ⟨noDescriptor_ctx.1, noDescriptor_ctx.2, ?_⟩
  have hrun : (((sysOpen Mkfs.sb () (some [97]) ⟨0x201⟩).run noDescriptor).map fun x =>
      (x.1, (x.2.fs.store.dinode 2).type, (x.2.fs.store.node Mkfs.sb ROOTINO).bindings [97])) =
      .ok (none, .file, some 2) := by decide +kernel
  obtain ⟨⟨r, t⟩, hx, hobs⟩ := ok_of_map hrun
  obtain ⟨rfl, hrest⟩ := Prod.mk.inj hobs
  obtain ⟨htype, hbind⟩ := Prod.mk.inj hrest
  refine ⟨t, hx, rfl, htype, ?_, hbind⟩
  decide +kernel

end Sys

end Xv6

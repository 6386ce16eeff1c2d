import Xv6.Fs.Failures
import Xv6.Fs.ManyLinks

/-!
# Runs of link, unlink, create and mkdir

`ip->nlink` is a 16-bit number, and neither `sys_link` nor `create` looks whether it can be incremented. In a
run in which every count that is incremented is below 32767 before, an inode with a name has between 1 and 32767
links. A disk made by `mkfs` has room for more names of one inode than that: `link` then makes the count
negative, and the next `unlink` panics.
-/

namespace Xv6.Fs

open Function Wp Count

/-- The calls that change names. -/
inductive NameCall where
  | link (old new : Option (List UInt8))
  | unlink (path : Option (List UInt8))
  | create (path : Option (List UInt8))
  | mknod (path : Option (List UInt8)) (major minor : Int16)
  | mkdir (path : Option (List UInt8))

namespace NameCall

/-- The call of a process in the directory `cwd`. -/
def run (sb : Superblock) (cwd : Ptr) : NameCall → M Bool
  | link old new => sysLink sb cwd old new
  | unlink path => sysUnlink sb cwd path
  | create path => sysMake sb cwd path .file 0 0
  | mknod path major minor => sysMake sb cwd path .device major minor
  | mkdir path => sysMkdir sb cwd path

/-- The link count that the call increments is below 32767: that of the inode that gets a second name, and that
of the parent of a new directory. -/
def InRange (N : Nat → Node) (start : List UInt8 → Nat) : NameCall → Prop
  | link old _ => ∀ path i, argstr old = some path → resolve N (start path) (components path) = some i →
      (N i).nlink < 32767
  | mkdir path => ∀ path' d name, argstr path = some path' →
      resolveParent N (start path') (components path') = some (d, name) → (N d).nlink < 32767
  | _ => True

end NameCall

/-- The inode that the path `old` leads to has one link more. -/
def LinkAdded (start : List UInt8 → Nat) (old : Option (List UInt8)) (N N' : Nat → Node) : Prop :=
  ∃ path i, argstr old = some path ∧ resolve N (start path) (components path) = some i ∧
    (N' i).nlink.toInt = (N i).nlink.toInt + 1

/-- One call after another, by processes in any directories, each with its counts in range. -/
inductive Runs (sb : Superblock) (B : Base) (s : Fs) : Fs → Prop
  | refl : Runs sb B s s
  | call {t u : Fs} {cwd : Ptr} {c : NameCall} {r : Bool} : Runs sb B s t → 0 < B.cnt cwd →
      c.InRange (t.store.node sb) (startOf B cwd) → (c.run sb cwd).run t = .ok (r, u) → Runs sb B s u

/-! ## One call -/

/-- Every panic but that of `unlink`. -/
def NotLow (p : Panic) : Prop := p ≠ .unlinkNlink

variable {sb : Superblock} {B : Base} {N N' : Nat → Node} {s t u : Fs} {cwd : Ptr} {c : NameCall} {d i k : Nat}

theorem allows_notLow : Allows .plain NotLow := ⟨fun _ _ _ h => h, .inl (by decide : Panic.ilockNoType ≠ .unlinkNlink)⟩

section

variable (hsb : Layout sb) (h : Ctx .plain sb B [] [] N s) (hN : Counted N) (hcwd : 0 < B.cnt cwd)
include hsb h hN hcwd

theorem wp_link_counted {old new : Option (List UInt8)} (hc : (NameCall.link old new).InRange N (startOf B cwd)) :
    wp (sysLink sb cwd old new) (fun r t => ∃ N', Ctx .plain sb B [] [] N' t ∧ Counted N' ∧
      (r = true → LinkAdded (startOf B cwd) old N N')) NotLow s := by
  refine wp_sysLink hsb allows_notLow h hcwd (fun _ => walks_plain) old new (fun t N' hN' ht => ?_) fun t N' hrel ht => ?_
  · obtain rfl := hN' trivial
    exact ⟨N', ht, hN, nofun⟩
  · obtain ⟨path, i, hpath, hres, -, hfree, hdir, X, ⟨d, k, name, -, hroom, rfl⟩, hfrees⟩ := hrel trivial
    have hmax := hc path i hpath hres
    have hid : i ≠ d := fun heq => hdir (heq ▸ hroom.dir)
    have hX := hN.addName (n := (N i).addLink) hroom hdir hdir hfree (hN.small i hfree) (toInt_add_one hmax)
    have hi : (update (update N i (N i).addLink) d ((N d).setSlot k ⟨i, name⟩) i).nlink.toInt =
        (N i).nlink.toInt + 1 := by
      rw [update_of_ne hid, update_self]
      exact toInt_add_one hmax
    -- the inode has links, so nothing is freed
    have hnot : (update (update N i (N i).addLink) d ((N d).setSlot k ⟨i, name⟩) i).nlink ≠ 0 := by
      intro h0
      rw [h0] at hi
      have := hN.le i
      rw [show Int16.toInt 0 = 0 from rfl] at hi
      omega
    obtain rfl := hfrees.resolve_right fun hf => hnot hf.1
    exact ⟨_, ht, hX, fun _ => ⟨path, i, hpath, hres, hi⟩⟩

theorem wp_make_counted (hino : sb.ninodes ≤ 2 ^ 16) {path : Option (List UInt8)} {type : InodeType} {major minor : Int16}
    (htype : type ≠ .free)
    (hc : type = .dir → major = 0 ∧ minor = 0 ∧ (NameCall.mkdir path).InRange N (startOf B cwd)) :
    wp (sysMake sb cwd path type major minor) (fun _ t => ∃ N', Ctx .plain sb B [] [] N' t ∧ Counted N') NotLow s := by
  refine wp_sysMake (H := (· < 32767)) hsb allows_notLow False.elim h hcwd (fun _ => walks_plain) path htype major minor
    (fun t N' hN' ht => ?_) fun t N' hrel ht => ⟨N', ht, ?_⟩
  · obtain rfl := hN' trivial
    exact ⟨N', ht, hN⟩
  · obtain rfl | ⟨path', d, name, X, i, hpath, -, hres, hcr, hfrees⟩ := hrel trivial
    · exact hN
    · refine Counted.changes (D := (· = d)) hN ?_
      obtain ⟨Y, hY, hYX⟩ := hcr hino fun hdir => ⟨(hc hdir).1, (hc hdir).2.1, (hc hdir).2.2 path' d name hpath hres⟩
      exact ⟨Y, hY, hYX.trans hfrees.nodeFrees⟩

theorem wp_unlink_counted (path : Option (List UInt8)) :
    wp (sysUnlink sb cwd path) (fun _ t => ∃ N', Ctx .plain sb B [] [] N' t ∧ Counted N') NotLow s := by
  refine wp_sysUnlink hsb allows_notLow h hcwd (fun _ => walks_plain) (fun N' d k hex hname hlow => ?_)
    path (fun t N' hN' ht => ?_) fun t N' hrel ht => ⟨N', ht, hN.changes (hrel trivial)⟩
  · obtain ⟨rfl, -⟩ := hex trivial
    have hpos := hN.nlink_pos (gives_of_hasName hname)
    exact absurd (Int16.lt_iff_toInt_lt.mp hlow) (by
      have := Fs.nlink_pos.mp hpos
      rw [show Int16.toInt 1 = 1 from rfl]
      omega)
  · obtain rfl := hN' trivial
    exact ⟨N', ht, hN⟩

theorem wp_call_counted (hino : sb.ninodes ≤ 2 ^ 16) (hc : c.InRange N (startOf B cwd)) :
    wp (c.run sb cwd) (fun _ t => ∃ N', Ctx .plain sb B [] [] N' t ∧ Counted N') NotLow s := by
  cases c with
  | link old new =>
    refine (wp_link_counted hsb h hN hcwd hc).mono fun _ t ht => ?_
    obtain ⟨N', hctx, hN', -⟩ := ht
    exact ⟨N', hctx, hN'⟩
  | unlink path => exact wp_unlink_counted hsb h hN hcwd path
  | create path | mknod path major minor =>
    exact wp_make_counted hsb h hN hcwd hino (by decide) (absurd · (by decide))
  | mkdir path => exact wp_make_counted hsb h hN hcwd hino (by decide) fun _ => ⟨rfl, rfl, hc⟩

theorem wp_call_notLow (c : NameCall) : wp (c.run sb cwd) (fun _ _ => True) NotLow s := by
  have hmake : ∀ path type major minor, type ≠ .free →
      wp (sysMake sb cwd path type major minor) (fun _ _ => True) NotLow s := fun path type major minor htype =>
    wp_sysMake (H := fun _ => True) hsb allows_notLow False.elim h hcwd (fun _ => walks_plain) path htype major minor
      (fun _ _ _ _ => trivial) fun _ _ _ _ => trivial
  cases c with
  | link old new =>
    exact wp_sysLink hsb allows_notLow h hcwd (fun _ => walks_plain) old new (fun _ _ _ _ => trivial)
      fun _ _ _ _ => trivial
  | unlink path => exact (wp_unlink_counted hsb h hN hcwd path).mono fun _ _ _ => trivial
  | create path | mknod path major minor | mkdir path => exact hmake _ _ _ _ (by decide)

end

/-! ## Runs -/

theorem Ctx.nodes_eq (h : Ctx .plain sb B [] [] N s) : s.store.node sb = N := funext h.node

theorem Runs.counted (hsb : Layout sb) (hino : sb.ninodes ≤ 2 ^ 16)
    (h : Ctx .plain sb B [] [] (s.store.node sb) s) (hN : Counted (s.store.node sb)) (hrun : Runs sb B s t) :
    Ctx .plain sb B [] [] (t.store.node sb) t ∧ Counted (t.store.node sb) := by
  induction hrun with
  | refl => exact ⟨h, hN⟩
  | call _ hcwd hc hcall ih =>
    obtain ⟨N', hctx, hN'⟩ := wp_of_ok (wp_call_counted hsb ih.1 ih.2 hcwd hino hc) hcall
    rw [hctx.nodes_eq]
    exact ⟨hctx, hN'⟩

/-- In a run of calls with counts in range every inode with a name has between 1 and 32767 links, a successful
`link` adds one, and `unlink` does not panic. -/
theorem link_counts_stay_in_range (hsb : Layout sb) (hino : sb.ninodes ≤ 2 ^ 16)
    (h : Ctx .plain sb B [] [] (s.store.node sb) s) (hN : Counted (s.store.node sb)) (hrun : Runs sb B s t) :
    (∀ d k, (t.store.node sb d).Gives k →
      1 ≤ (t.store.node sb ((t.store.node sb d).slotInum k)).nlink.toInt ∧
        (t.store.node sb ((t.store.node sb d).slotInum k)).nlink.toInt ≤ 32767) ∧
    (∀ cwd old new u, 0 < B.cnt cwd → (NameCall.link old new).InRange (t.store.node sb) (startOf B cwd) →
      (sysLink sb cwd old new).run t = .ok (true, u) →
      LinkAdded (startOf B cwd) old (t.store.node sb) (u.store.node sb)) ∧
    ∀ cwd (c : NameCall), 0 < B.cnt cwd → (c.run sb cwd).run t ≠ .error .unlinkNlink := by
  obtain ⟨ht, hNt⟩ := hrun.counted hsb hino h hN
  refine ⟨fun d k hg => ⟨?_, ?_⟩, fun cwd old new u hcwd hc hcall => ?_, fun cwd c hcwd herr => ?_⟩
  · exact Fs.nlink_pos.mp (hNt.nlink_pos hg)
  · have := Int16.toInt_lt (t.store.node sb ((t.store.node sb d).slotInum k)).nlink
    omega
  · obtain ⟨N', hctx, -, hadd⟩ := wp_of_ok (wp_link_counted hsb ht hNt hcwd hc) hcall
    rw [hctx.nodes_eq]
    exact hadd rfl
  · exact wp_of_error (wp_call_notLow hsb ht hNt hcwd c) herr rfl

theorem bare_counted : Counted ((bareDisk 0).node Mkfs.sb) := by
  have hnone : ∀ p, links ((bareDisk 0).node Mkfs.sb) p = none := by
    rintro ⟨d, k, b⟩
    refine links_of_not fun hg => ?_
    by_cases hd : d = ROOTINO
    · rw [hd, rootDisk_node_root] at hg
      have hk : k < 2 := by
        by_contra hk
        refine hg.2.1 ?_
        rw [rootBlock_slotInum, if_neg hk]
      obtain rfl | rfl : k = 0 ∨ k = 1 := by omega
      · exact hg.2.2.1 (by decide)
      · exact hg.2.2.2 (by decide)
    · rw [rootDisk_node_of_ne hd] at hg
      exact hg.2.1 rfl
  have hfin : (support (links ((bareDisk 0).node Mkfs.sb))).Finite :=
    Set.finite_empty.subset fun p hp => hp (hnone p)
  refine ⟨hfin, fun i => ?_, fun i hi => ?_, fun i hi => ?_⟩
  · rw [(uses_eq_zero hfin).mpr fun p => by rw [hnone]; nofun]
    by_cases hd : i = ROOTINO
    · rw [hd]
      decide
    · rw [rootDisk_node_of_ne hd]
      exact (by decide : ((0 : Nat) : Int) ≤ (0 : Int16).toInt)
  · by_cases hd : i = ROOTINO
    · rw [hd] at hi
      cases hi
    · rw [rootDisk_node_of_ne hd]
      rfl
  · by_contra hge
    refine hi (Store.node_type_free.mpr fun ha => hge (ha.1.trans (by decide)))

/-- The file `a` is created on the disk of `mkfs`. -/
theorem link_counts_stay_in_range_create : ∃ t,
    Runs Mkfs.sb bootBase (Sys.boot (bareDisk 0) ()).fs t ∧
      ∀ cwd c, 0 < bootBase.cnt cwd → (NameCall.run Mkfs.sb cwd c).run t ≠ .error .unlinkNlink := by
  have hrun : (((NameCall.create (some [97])).run Mkfs.sb 0).run (Sys.boot (bareDisk 0) ()).fs).toOption.isSome := by
    decide +kernel
  cases hx : ((NameCall.create (some [97])).run Mkfs.sb 0).run (Sys.boot (bareDisk 0) ()).fs with
  | error e =>
    rw [hx] at hrun
    cases hrun
  | ok x =>
    have hctx : Ctx .plain Mkfs.sb bootBase [] [] ((bareDisk 0).node Mkfs.sb) (Sys.boot (bareDisk 0) ()).fs :=
      (boot_atRest ()).weaken (fun _ => trivial) False.elim
    have hr : Runs Mkfs.sb bootBase (Sys.boot (bareDisk 0) ()).fs x.2 :=
      .call (c := .create (some [97])) .refl (by decide) trivial hx
    exact ⟨x.2, hr, (link_counts_stay_in_range ⟨by decide, by decide⟩ (by decide) hctx bare_counted hr).2.2⟩

/-- The file 2 has 32767 names and as many links. `link("a", "b")` returns 0 and makes the count negative; then
`unlink("b")` panics. -/
theorem link_count_wraps : ∃ t,
    Ctx .plain Mkfs.sb bootBase [] [] manyNodes (Sys.boot manyDisk ()).fs ∧ Counted manyNodes ∧
    uses (links manyNodes) 2 = 32767 ∧ (manyNodes 2).nlink.toInt = 32767 ∧
    (sysLink Mkfs.sb 0 (some [97]) (some [98])).run (Sys.boot manyDisk ()).fs = .ok (true, t) ∧
    (t.store.node Mkfs.sb 2).nlink.toInt = -32768 ∧
    (sysUnlink Mkfs.sb 0 (some [98])).run t = .error .unlinkNlink := by
  have hrun : (((sysLink Mkfs.sb 0 (some [97]) (some [98])).run (Sys.boot manyDisk ()).fs).map fun x =>
      (x.1, (x.2.store.node Mkfs.sb 2).nlink.toInt, match (sysUnlink Mkfs.sb 0 (some [98])).run x.2 with
        | .ok _ => none
        | .error p => some p)) = .ok (true, -32768, some .unlinkNlink) := by decide +kernel
  obtain ⟨⟨r, t⟩, hx, hobs⟩ := ok_of_map hrun
  obtain ⟨rfl, hrest⟩ := Prod.mk.inj hobs
  obtain ⟨hn, hu⟩ := Prod.mk.inj hrest
  refine ⟨t, many_boot.weaken (fun _ => trivial) False.elim, many_counted, many_uses_file, ?_, hx, hn, ?_⟩
  · rw [many_node_file.2]
    rfl
  · cases hy : (sysUnlink Mkfs.sb 0 (some [98])).run t with rw [hy] at hu
    | ok y => cases hu
    | error e => rw [Option.some.inj hu]

end Xv6.Fs

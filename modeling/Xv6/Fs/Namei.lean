import Xv6.Fs.AtRest

/-!
# Path resolution

On a tree of directories that nobody else changes, `namei` returns the inode that the components of the path
lead to, one lookup after the other, and `nameiparent` the directory of the last component. Both return, with
one more reference if they return an inode, and with no lock; only a full inode table stops them.
-/

namespace Xv6.Fs

open Wp

variable {sb : Superblock} {s t : Fs} {B : Base} {N : Nat → Node} {S : Nat → Prop} {cwd : Ptr} {i : Nat}
  {names : List (List UInt8)} {E : Panic → Prop}

/-! ## The walks -/

section

variable (hsb : Layout sb) (h : AtRest sb B N s) (hcwd : 0 < B.cnt cwd) (hT : Tree N S) (hroot : S ROOTINO)
  (hhere : S (B.inum cwd))

include hroot hhere in
theorem mem_startOf (path : List UInt8) : S (startOf B cwd path) := by
  unfold startOf
  split_ifs
  · exact hroot
  · exact hhere

include hT in
theorem Tree.walks (N' : Nat → Node) (i : Nat) (hi : Mode.strict.exact → N' = N ∧ S i) :
    WalkFails E (N' i) := by
  obtain ⟨rfl, hmem⟩ := hi trivial
  exact hT.walkFails hmem

include hsb h hcwd hT hroot hhere

/-- The result of `namei` is the inode that the components lead to, and the state is as before but for a
reference to it. -/
theorem wp_namei_strict (hroom : E .igetNoInodes ∨ 1 < B.free.card) (path : List UInt8) : wp (namei sb cwd path)
    (fun r t => match resolve N (startOf B cwd path) (components path) with
      | none => r = none ∧ AtRest sb B N t
      | some i => ∃ e, r = some e ∧ Ctx .strict sb B [(e, i)] [] N t)
    E s := by
  refine wp_namei hsb h hcwd path (fun _ => ⟨hT.closed, mem_startOf hroot hhere path⟩) hT.walks
    (fun hm => absurd trivial hm) hroom (fun t N' hex ht => ?_) fun e i t N' hex ht => ?_
  · obtain ⟨rfl, hres⟩ := hex trivial
    rw [hres]
    exact ⟨rfl, ht⟩
  · obtain ⟨rfl, hres, -⟩ := hex trivial
    rw [hres]
    exact ⟨e, rfl, ht⟩

theorem wp_nameiparent_strict (hroom : E .igetNoInodes ∨ 1 < B.free.card) (path : List UInt8) :
    wp (nameiparent sb cwd path)
      (fun r t => match resolveParent N (startOf B cwd path) (components path) with
        | none => r = none ∧ AtRest sb B N t
        | some (i, name) => ∃ e, r = some (e, name) ∧ Ctx .strict sb B [(e, i)] [] N t) E s := by
  refine wp_nameiparent hsb h hcwd path (fun _ => ⟨hT.closed, mem_startOf hroot hhere path⟩) hT.walks
    (fun hm => absurd trivial hm) hroom (fun t N' hex ht => ?_) fun e i name t N' hex ht => ?_
  · obtain ⟨rfl, hres⟩ := hex trivial
    rw [hres]
    exact ⟨rfl, ht⟩
  · obtain ⟨rfl, hres, -⟩ := hex trivial
    rw [hres]
    exact ⟨e, rfl, ht⟩

/-- Path resolution is the fold of the lookups. -/
theorem namei_follows_path (hroom : 2 ≤ B.free.card) (path : List UInt8) :
    (∃ r t, (namei sb cwd path).run s = .ok (r, t) ∧ (∀ e, (t.itable e).locked = false) ∧
      (r = none ↔ Broken N (startOf B cwd path) (components path)) ∧ (r = none → AtRest sb B N t) ∧
      ∀ e, r = some e → ∃ i, resolve N (startOf B cwd path) (components path) = some i ∧
        Ctx .strict sb B [(e, i)] [] N t) ∧
    (∃ r t, (nameiparent sb cwd path).run s = .ok (r, t) ∧ (∀ e, (t.itable e).locked = false) ∧
      (r = none ↔ components path = [] ∨
        ∀ d, resolve N (startOf B cwd path) (components path).dropLast = some d → (N d).type ≠ .dir) ∧
      (r = none → AtRest sb B N t) ∧
      ∀ e name, r = some (e, name) → (components path).getLast? = some name ∧
        ∃ i, resolve N (startOf B cwd path) (components path).dropLast = some i ∧
          Ctx .strict sb B [(e, i)] [] N t) ∧
    ∀ q name rest, skipelem q = some (name, rest) → (written name).length ≤ DIRSIZ := by
  have hunlocked : ∀ {R t}, Ctx .strict sb B R [] N t → ∀ e, (t.itable e).locked = false := fun ht e =>
    Bool.eq_false_iff.mpr fun hl => absurd ((ht.lock e).mp hl) List.not_mem_nil
  refine ⟨?_, ?_, fun q name rest hq => length_written hq⟩
  · obtain ⟨r, t, hrun, hr⟩ := exists_of_wp (wp_namei_strict hsb h hcwd hT hroot hhere (.inr hroom) path)
    refine ⟨r, t, hrun, ?_⟩
    rw [← resolve_eq_none]
    split at hr
    · rename_i hres
      obtain ⟨rfl, ht⟩ := hr
      exact ⟨hunlocked ht, iff_of_true rfl hres, fun _ => ht, nofun⟩
    · rename_i i hres
      obtain ⟨e, rfl, ht⟩ := hr
      refine ⟨hunlocked ht, iff_of_false nofun (by rw [hres]; nofun), nofun, ?_⟩
      rintro _ ⟨⟩
      exact ⟨i, hres, ht⟩
  · obtain ⟨r, t, hrun, hr⟩ := exists_of_wp (wp_nameiparent_strict hsb h hcwd hT hroot hhere (.inr hroom) path)
    refine ⟨r, t, hrun, ?_⟩
    rw [← resolveParent_eq_none]
    split at hr
    · rename_i hres
      obtain ⟨rfl, ht⟩ := hr
      exact ⟨hunlocked ht, iff_of_true rfl hres, fun _ => ht, nofun⟩
    · rename_i i name hres
      obtain ⟨e, rfl, ht⟩ := hr
      refine ⟨hunlocked ht, iff_of_false nofun (by rw [hres]; nofun), nofun, ?_⟩
      rintro _ _ ⟨⟩
      rw [resolveParent_eq_some] at hres
      exact ⟨hres.1, i, hres.2.1, ht⟩

end

/-- `/..` is the root directory, after `userinit`. -/
theorem namei_follows_path_boot : ∃ e t,
    (namei Mkfs.sb 0 [slash, 46, 46]).run (Sys.boot (bareDisk 0) ()).fs = .ok (some e, t) ∧
      Ctx .strict Mkfs.sb bootBase [(e, ROOTINO)] [] ((bareDisk 0).node Mkfs.sb) t := by
  have hroot : ((bareDisk 0).node Mkfs.sb ROOTINO).type ≠ .free := by
    nofun
  have hres : resolve ((bareDisk 0).node Mkfs.sb) ROOTINO [[46, 46]] = some ROOTINO := by
    show (blockNode rootBlock).bindings [46, 46] >>= some = some ROOTINO
    decide +kernel
  have hcomp : components [slash, 46, 46] = [[46, 46]] := by decide +kernel
  have hstart : startOf bootBase 0 [slash, 46, 46] = ROOTINO := by decide
  obtain ⟨⟨r, t, hrun, -, hnone, -, hsome⟩, -⟩ := namei_follows_path ⟨by decide, by decide⟩ (boot_atRest ())
    (show 0 < bootBase.cnt 0 by decide) bareDisk_tree hroot hroot (by decide) [slash, 46, 46]
  rw [hstart, hcomp] at hnone hsome
  cases r with
  | none =>
    rw [resolve_eq_none.mpr (hnone.mp rfl)] at hres
    cases hres
  | some e =>
    obtain ⟨i, hi, ht⟩ := hsome e rfl
    cases hres.symm.trans hi
    exact ⟨e, t, hrun, ht⟩

/-- Every entry of the inode table is in use, for a directory that has been removed. -/
def crowded : Fs where
  store := bareDisk NINODE
  itable e := ⟨e + 2, 1, true, false, .zero .dir⟩
  trans := none
  trace := []

def crowdedBase : Base := ⟨fun _ => 1, fun e => e + 2, fun _ => .dir⟩

/-- No walk can start in the root directory if the table is full. -/
theorem namei_full_table : AtRest Mkfs.sb crowdedBase ((bareDisk NINODE).node Mkfs.sb) crowded ∧
    (namei Mkfs.sb 0 [slash]).run crowded = .error .igetNoInodes ∧
    (nameiparent Mkfs.sb 0 [slash]).run crowded = .error .igetNoInodes := by
  have hdir : ∀ e : Ptr, (bareDisk NINODE).dinode (e + 2) = .zero .dir := fun e => by
    rw [rootDisk_dinode_of_ne (by unfold ROOTINO; omega), if_pos ⟨by omega, by omega⟩]
  refine ⟨bareDisk_atRest rfl rfl (fun e => rfl) (fun e => rfl) (fun e _ => rfl) (fun e _ => ?_)
    (fun e e' _ _ h => ?_) (fun e _ _ => hdir e) (fun i h1 h2 => ?_), ?_, ?_⟩
  · show ((bareDisk NINODE).node Mkfs.sb (e + 2)).type = .dir ∧ _
    rw [rootDisk_node_of_ne (by unfold ROOTINO; omega), if_pos]
    · exact ⟨rfl, nofun⟩
    · exact ⟨by omega, by omega, lt_of_lt_of_le (Nat.add_lt_add_right e.2 2) (by decide)⟩
  · exact Fin.ext (Nat.add_right_cancel h)
  · exact ⟨⟨i - 2, by omega⟩, Nat.one_pos, Nat.sub_add_cancel h1, rfl⟩
  · rfl
  · rfl

end Xv6.Fs

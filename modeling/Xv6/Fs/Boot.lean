import Xv6.Fs.Directory

/-!
# Reading a file system at rest

On a disk that satisfies `Own`, `readi` of a loaded inode returns its bytes and `dirlookup` finds a name
that is in the directory. Neither can panic, so these are statements about the runs themselves.
-/

namespace Xv6.Fs

open Wp

variable {sb : Superblock} {s : Fs} {ip : Ptr} {i : Nat} {E : Panic → Prop}

/-- The entry `ip` of the table has the inode `i` as it is on the disk. -/
structure Holding (sb : Superblock) (s : Fs) (ip : Ptr) (i : Nat) : Prop where
  own : Own sb sb.IsData s.store
  alloc : s.store.Alloc sb i
  inum : (s.itable ip).inum = i
  copy : (s.itable ip).copy = s.store.dinode i

theorem Holding.view (h : Holding sb s ip i) : s.view ip = s.store :=
  Store.setDinode_eq (by rw [h.inum, h.copy])

theorem Holding.ready (h : Holding sb s ip i) : Ready sb sb.IsData ip s :=
  ⟨h.inum.symm ▸ h.alloc.1, h.copy.symm ▸ h.alloc.2, h.view.symm ▸ h.own⟩

theorem Holding.shows (h : Holding sb s ip i) : Shows sb s ip (s.store.node sb i) :=
  h.inum ▸ h.ready.shows (by rw [h.inum, h.copy])

theorem Holding.readi_eq (h : Holding sb s ip i) (off n : Nat) :
    (readi sb ip (fun _ => true) off n).run s = .ok (some ((s.store.node sb i).read off n), s) := h.shows.read off n

theorem wp_iget_of_space {inum : Nat} (hspace : (s.findInode inum).isSome ∨ s.emptyInode.isSome)
    {Q : Ptr → Fs → Prop} (hQ : ∀ ip t, (t.itable ip).inum = inum → Q ip t) : wp (iget inum) Q E s := by
  rw [iget, wp_bind, wp_get]
  cases hf : s.findInode inum with
  | some ip =>
    have := List.find?_some hf
    refine hQ ip _ ?_
    simp only [setInode, Function.update_self]
    exact (of_decide_eq_true this).2
  | none =>
    rw [hf] at hspace
    obtain ⟨ip, he⟩ := Option.isSome_iff_exists.mp (hspace.resolve_left (by simp))
    simp only [he]
    refine hQ ip _ ?_
    simp only [setInode, Function.update_self]

/-- `dirlookup` finds the first entry with the name. -/
theorem Holding.dirlookup_eq (h : Holding sb s ip i) (hdir : (s.store.node sb i).type = .dir)
    {name : List UInt8} {k : Nat} (hk : 16 * k + 16 ≤ (s.store.node sb i).size)
    (hnames : (s.store.node sb i).Names name k) (hfirst : ∀ k' < k, ¬ (s.store.node sb i).Names name k')
    (hspace : (s.findInode ((s.store.node sb i).slotInum k)).isSome ∨ s.emptyInode.isSome) :
    ∃ e t, (dirlookup sb ip name).run s = .ok (some (e, 16 * k), t) ∧
      (t.itable e).inum = (s.store.node sb i).slotInum k := by
  have hslot : (s.store.node sb i).slot? name = some k := Node.slot?_eq_some.mpr ⟨hk, hnames, hfirst⟩
  have hwp : wp (dirlookup sb ip name) (fun r t => ∃ e, r = some (e, 16 * k) ∧
      (t.itable e).inum = (s.store.node sb i).slotInum k) (fun _ => False) s := by
    refine h.shows.wp_dirlookup (fun hn => hn hdir) (fun hn => ?_) (fun _ hno => absurd hnames (hno k)) fun k' _ hk' => ?_
    · rw [hslot] at hn
      cases hn
    · rw [hslot] at hk'
      obtain rfl := Option.some.inj hk'
      refine wp_iget_of_space ?_ fun e t ht => ⟨e, rfl, ht⟩
      exact hspace
  obtain ⟨r, t, hrun, e, rfl, ht⟩ := exists_of_wp hwp
  exact ⟨e, t, hrun, ht⟩

end Xv6.Fs

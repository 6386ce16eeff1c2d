import Mathlib.Logic.Relation
import Xv6.Fs.Directory

/-!
# What calls do to inodes

The inodes with their contents change in a few ways only: a name is added or removed together with the
link counts it belongs to, a new inode appears with its name, or the contents of a file change. `NodeStep` is
the list of these. After it, inodes without links may be freed. It says nothing of blocks, of the inode table
or of failing calls, which change nothing.
-/

namespace Xv6.Fs

open Function

/-- `ip->nlink++` -/
def Node.addLink (n : Node) : Node := { n with nlink := n.nlink + 1 }

/-- `ip->nlink--` -/
def Node.dropLink (n : Node) : Node := { n with nlink := n.nlink - 1 }

/-- The directory `i` that `mkdir` has made in the directory `d`. -/
def Node.newDir (i d : Nat) : Node :=
  ((Node.fresh .dir 0 0).setSlot 0 ⟨i, dot⟩).setSlot 1 ⟨d, dotdot⟩

/-- The name `name` can be added to the directory `n` at the entry `k`. -/
structure Node.HasRoom (n : Node) (name : List UInt8) (k : Nat) : Prop where
  dir : n.type = .dir
  new : ∀ k', ¬ n.Names name k'
  unused : n.slotInum k = 0
  le : 16 * k ≤ n.size

/-- The entry `k` of the directory `n` is a name that can be removed. -/
structure Node.HasName (n : Node) (k : Nat) : Prop where
  dir : n.type = .dir
  lt : 16 * k + 16 ≤ n.size
  used : n.slotInum k ≠ 0
  notDot : cstr (n.slotName k) ≠ dot ∧ cstr (n.slotName k) ≠ dotdot

/-- One change of the inodes `N`. The directories that get or lose a name are in `D`, and a link count
that is incremented satisfies `H`. -/
inductive NodeStep (D : Nat → Prop) (H : Int16 → Prop) : (Nat → Node) → (Nat → Node) → Prop
  | link {N : Nat → Node} {d i k : Nat} {name : List UInt8} : D d → D i → (N d).HasRoom name k →
      (N i).type ≠ .free → (N i).type ≠ .dir → H (N i).nlink →
      NodeStep D H N (update (update N i (N i).addLink) d ((N d).setSlot k ⟨i, name⟩))
  | unlink {N : Nat → Node} {d i k : Nat} : D d → (N d).HasName k → (N d).slotInum k = i →
      (N i).type ≠ .free → (N i).type ≠ .dir → 1 ≤ (N i).nlink →
      NodeStep D H N (update (update N d ((N d).setSlot k ⟨0, []⟩)) i (N i).dropLink)
  | rmdir {N : Nat → Node} {d i k : Nat} : D d → d ≠ i → (N d).HasName k → (N d).slotInum k = i →
      (N i).type = .dir → 1 ≤ (N i).nlink → (∀ k, 2 ≤ k → (N i).slotInum k = 0) →
      NodeStep D H N
        (update (update N d ((N d).setSlot k ⟨0, []⟩).dropLink) i (N i).dropLink)
  | create {N : Nat → Node} {d i k : Nat} {name : List UInt8} {type : InodeType} {major minor : Int16} :
      D d → (N d).HasRoom name k → (N i).type = .free → 0 < i → i < 2 ^ 16 → type ≠ .free → type ≠ .dir →
      NodeStep D H N
        (update (update N i (.fresh type major minor)) d ((N d).setSlot k ⟨i, name⟩))
  | mkdir {N : Nat → Node} {d i k : Nat} {name : List UInt8} : D d → (N d).HasRoom name k →
      (N i).type = .free → 0 < i → i < 2 ^ 16 → H (N d).nlink →
      NodeStep D H N
        (update (update N i (.newDir i d)) d ((N d).setSlot k ⟨i, name⟩).addLink)
  | data {N : Nat → Node} {i : Nat} {n : Node} : (N i).type ≠ .dir → n.type = (N i).type →
      n.nlink = (N i).nlink → NodeStep D H N (update N i n)

/-- Inodes without links are freed. -/
abbrev NodeFrees : (Nat → Node) → (Nat → Node) → Prop :=
  Relation.ReflTransGen fun N N' => ∃ i, (N i).nlink = 0 ∧ N' = update N i .free

/-- What a call does: one change, and then inodes may be freed. -/
def Changes (D : Nat → Prop) (H : Int16 → Prop) (N N' : Nat → Node) : Prop :=
  ∃ X, NodeStep D H N X ∧ NodeFrees X N'

theorem forall_update₂ {P : Nat → Node → Prop} {N : Nat → Node} {n n' : Node} {a b : Nat} (ha : P a n) (hb : P b n')
    (ho : ∀ j, j ≠ a → j ≠ b → P j (N j)) : ∀ j, P j (update (update N b n') a n j) := by
  intro j
  by_cases hja : j = a
  · subst hja
    rwa [update_self]
  · rw [update_of_ne hja]
    by_cases hjb : j = b
    · subst hjb
      rwa [update_self]
    · rw [update_of_ne hjb]
      exact ho j hja hjb

theorem NodeStep.mono {D D' : Nat → Prop} {H : Int16 → Prop} (hD : ∀ d, D d → D' d) {N N' : Nat → Node}
    (h : NodeStep D H N N') : NodeStep D' H N N' := by
  cases h with
  | link hd hi h1 h2 h3 h4 => exact .link (hD _ hd) (hD _ hi) h1 h2 h3 h4
  | unlink hd h1 h2 h3 h4 h5 => exact .unlink (hD _ hd) h1 h2 h3 h4 h5
  | rmdir hd h1 h2 h3 h4 h5 h6 => exact .rmdir (hD _ hd) h1 h2 h3 h4 h5 h6
  | create hd h1 h2 h3 h4 h5 h6 => exact .create (hD _ hd) h1 h2 h3 h4 h5 h6
  | mkdir hd h1 h2 h3 h4 h5 => exact .mkdir (hD _ hd) h1 h2 h3 h4 h5
  | data h1 h2 h3 => exact .data h1 h2 h3

theorem Changes.mono {D D' : Nat → Prop} {H : Int16 → Prop} (hD : ∀ d, D d → D' d) {N N' : Nat → Node}
    (h : Changes D H N N') : Changes D' H N N' := by
  obtain ⟨X, hX, hfree⟩ := h
  exact ⟨X, hX.mono hD, hfree⟩

end Xv6.Fs

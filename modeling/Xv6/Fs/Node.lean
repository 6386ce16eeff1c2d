import Xv6.Fs.Bmap
import Xv6.Fs.Inodes

/-!
# What an inode contains

`Store.node` is an inode as its users see it: the fields and the bytes up to its size. It does not depend
on where the blocks are.
-/

namespace Xv6.Fs

open Wp

/-- An inode with its contents; `bytes` is 0 from `size` on. -/
@[ext] structure Node where
  type : InodeType
  major : Int16
  minor : Int16
  nlink : Int16
  size : Nat
  bytes : Nat → UInt8

def Node.free : Node := ⟨.free, 0, 0, 0, 0, fun _ => 0⟩

/-- The inode number in the `k`th entry of a directory. -/
def Node.slotInum (n : Node) (k : Nat) : Nat := (n.bytes (16 * k)).toNat + 256 * (n.bytes (16 * k + 1)).toNat

/-- The name in the `k`th entry of a directory. -/
def Node.slotName (n : Node) (k : Nat) : List UInt8 :=
  (List.range DIRSIZ).map fun j => n.bytes (16 * k + 2 + j)

namespace Store

variable (sb : Superblock)

def byteAt (st : Store) (i o : Nat) : UInt8 :=
  (st.data (st.ptr sb (i, slotOf (o / BSIZE)))).byte (o % BSIZE)

def node (st : Store) (i : Nat) : Node :=
  if st.Alloc sb i then
    { type := (st.dinode i).type
      major := (st.dinode i).major
      minor := (st.dinode i).minor
      nlink := (st.dinode i).nlink
      size := (st.dinode i).size
      bytes := fun o => if o < (st.dinode i).size then st.byteAt sb i o else 0 }
  else .free

variable {sb} {st st' : Store} {i j : Nat}

theorem node_of_alloc (h : st.Alloc sb i) : st.node sb i =
    { type := (st.dinode i).type
      major := (st.dinode i).major
      minor := (st.dinode i).minor
      nlink := (st.dinode i).nlink
      size := (st.dinode i).size
      bytes := fun o => if o < (st.dinode i).size then st.byteAt sb i o else 0 } := if_pos h

theorem node_of_not_alloc (h : ¬ st.Alloc sb i) : st.node sb i = .free := if_neg h

theorem node_type_free : (st.node sb i).type = .free ↔ ¬ st.Alloc sb i := by
  by_cases h : st.Alloc sb i
  · rw [node_of_alloc h]
    exact ⟨fun h' => absurd h' h.2, fun h' => absurd h h'⟩
  · rw [node_of_not_alloc h]
    exact ⟨fun _ => h, fun _ => rfl⟩

theorem node_congr (hd : (st'.dinode i).type = (st.dinode i).type ∧
      (st'.dinode i).major = (st.dinode i).major ∧ (st'.dinode i).minor = (st.dinode i).minor ∧
      (st'.dinode i).nlink = (st.dinode i).nlink ∧ (st'.dinode i).size = (st.dinode i).size)
    (hb : st.Alloc sb i → ∀ o < (st.dinode i).size, st'.byteAt sb i o = st.byteAt sb i o) :
    st'.node sb i = st.node sb i := by
  obtain ⟨h1, h2, h3, h4, h5⟩ := hd
  have ha : st'.Alloc sb i ↔ st.Alloc sb i := by
    unfold Alloc
    rw [h1]
  by_cases hi : st.Alloc sb i
  · rw [node_of_alloc hi, node_of_alloc (ha.mpr hi)]
    refine Node.ext h1 h2 h3 h4 h5 (funext fun o => ?_)
    show (if o < (st'.dinode i).size then _ else _) = if o < (st.dinode i).size then _ else _
    rw [h5]
    split_ifs with ho
    · exact hb hi o ho
    · rfl
  · rw [node_of_not_alloc hi, node_of_not_alloc fun h => hi (ha.mp h)]

theorem node_setDinode_of_ne {d : Dinode} (h : j ≠ i) :
    (st.setDinode i d).node sb j = st.node sb j := by
  have ha : (st.setDinode i d).Alloc sb j ↔ st.Alloc sb j := by
    unfold Alloc
    rw [setDinode_of_ne h]
  refine node_congr (by simp [setDinode_of_ne h]) fun _ o _ => ?_
  unfold byteAt ptr
  simp only [ha, setDinode_of_ne h, setDinode_data]

theorem node_setDinode_self {d : Dinode} (ha : st.Alloc sb i) (haddrs : d.addrs = (st.dinode i).addrs)
    (hsize : d.size = (st.dinode i).size) (htype : d.type ≠ .free) :
    (st.setDinode i d).node sb i =
      { st.node sb i with type := d.type, major := d.major, minor := d.minor, nlink := d.nlink } := by
  have hptr : ∀ c, (st.setDinode i d).ptr sb c = st.ptr sb c :=
    ptr_setDinode haddrs (iff_of_false htype ha.2)
  rw [node_of_alloc ha, node_of_alloc ⟨ha.1, by rwa [setDinode_self]⟩, setDinode_self]
  simp only [hsize, byteAt, hptr, setDinode_data]

end Store

variable {sb : Superblock} {D : Nat → Prop} {s t : Fs} {ip : Ptr}

theorem Own.ptr_ne {st : Store} (h : Own sb D st) {i o : Nat} (hi : st.Alloc sb i)
    (ho : o < (st.dinode i).size) : st.ptr sb (i, slotOf (o / BSIZE)) ≠ 0 :=
  h.noHole i _ hi (by
    have := Nat.div_mul_le_self o BSIZE
    omega)

theorem Grew.byteAt (h : Grew sb D ip s t) {i o : Nat}
    (h0 : (s.view ip).ptr sb (i, slotOf (o / BSIZE)) ≠ 0) :
    (t.view ip).byteAt sb i o = (s.view ip).byteAt sb i o := by
  unfold Store.byteAt
  rw [h.keep _ h0]
  exact congrArg (fun b => Block.byte b (o % BSIZE)) (h.data _ (slotOf_ne _) h0)

end Xv6.Fs

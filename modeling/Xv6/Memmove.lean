import Mathlib.Data.BitVec
import Xv6.Lib.Moves

/-!
# `memmove`

The `memmove` of the kernel and that of the user library, which choose the direction of the copy by
different tests. Addresses are 64-bit numbers, so that pointers wrap.
-/

namespace Xv6.Memmove

open Function Moves

abbrev Mem := BitVec 64 → UInt8

/-- `while(n-- > 0) *d++ = *s++` -/
def copyUp : Nat → Mem → BitVec 64 → BitVec 64 → Mem
  | 0, m, _, _ => m
  | n + 1, m, d, s => copyUp n (update m d (m s)) (d + 1) (s + 1)

/-- `while(n-- > 0) *--d = *--s` -/
def copyDown : Nat → Mem → BitVec 64 → BitVec 64 → Mem
  | 0, m, _, _ => m
  | n + 1, m, d, s => copyDown n (update m (d - 1) (m (s - 1))) (d - 1) (s - 1)

/-- `memmove` of the kernel: the memory afterwards and what it returns. -/
def memmove (m : Mem) (dst src : BitVec 64) (n : Nat) : Mem × BitVec 64 :=
  if n = 0 then (m, dst)
  else if src < dst ∧ src + BitVec.ofNat 64 n > dst then
    (copyDown n m (dst + BitVec.ofNat 64 n) (src + BitVec.ofNat 64 n), dst)
  else (copyUp n m dst src, dst)

/-- `memmove` of the user library. -/
def User.memmove (m : Mem) (vdst vsrc : BitVec 64) (n : Nat) : Mem × BitVec 64 :=
  if vsrc > vdst then (copyUp n m vdst vsrc, vdst)
  else (copyDown n m (vdst + BitVec.ofNat 64 n) (vsrc + BitVec.ofNat 64 n), vdst)

/-! ### The loops copy cell by cell -/

variable {m : Mem} {d s : BitVec 64} {n i j : Nat}

/-- The address of `p[i]`. -/
def cell (p : BitVec 64) (i : Nat) : BitVec 64 := p + BitVec.ofNat 64 i

theorem cell_succ (p : BitVec 64) (i : Nat) : cell p (i + 1) = cell p i + 1 := by
  simp [cell, BitVec.ofNat_add, BitVec.add_assoc]

theorem cell_add_one (p : BitVec 64) (i : Nat) : cell (p + 1) i = cell p (i + 1) := by
  rw [cell_succ, cell, cell, BitVec.add_assoc, BitVec.add_assoc, BitVec.add_comm 1]

theorem toNat_cell (h : d.toNat + n ≤ 2 ^ 64) (hi : i < n) : (cell d i).toNat = d.toNat + i := by
  rw [cell, BitVec.toNat_add, BitVec.toNat_ofNat]
  omega

theorem copyUp_eq (n : Nat) (m : Mem) (d s : BitVec 64) :
    copyUp n m d s = moves (cell d) (cell s) (List.range n) m := by
  induction n generalizing m d s with
  | zero => rfl
  | succ n ih =>
    have hshift : ∀ p, cell (p + 1) = cell p ∘ Nat.succ := fun p => funext (cell_add_one p)
    have hzero : ∀ p, cell p 0 = p := fun p => BitVec.add_zero p
    rw [copyUp, ih, List.range_succ_eq_map, moves_cons, hzero, hzero, hshift, hshift, moves, moves,
      List.foldl_map]
    rfl

theorem copyDown_eq (n : Nat) (m : Mem) (d s : BitVec 64) :
    copyDown n m (cell d n) (cell s n) = moves (cell d) (cell s) (List.range n).reverse m := by
  induction n generalizing m with
  | zero => rfl
  | succ n ih =>
    rw [copyDown, cell_succ, cell_succ, BitVec.add_sub_cancel, BitVec.add_sub_cancel, ih, List.range_succ,
      List.reverse_append]
    rfl

/-! ### Both copy the region -/

/-- The memory `m'` holds at `dst` the `n` bytes that `m` has at `src`, and is `m` elsewhere. -/
structure Moved (m m' : Mem) (dst src : BitVec 64) (n : Nat) : Prop where
  copied : ∀ i < n, m' (cell dst i) = m (cell src i)
  kept : ∀ a, (∀ i < n, a ≠ cell dst i) → m' a = m a

theorem Moved.of_moves (hd : d.toNat + n ≤ 2 ^ 64) {is : List Nat} (hmem : ∀ i, i ∈ is ↔ i < n)
    (hnodup : is.Nodup) (hsafe : is.Pairwise fun i j => cell d i ≠ cell s j) :
    Moved m (moves (cell d) (cell s) is m) d s n := by
  have hinj : is.Pairwise fun i j => cell d i ≠ cell d j := by
    refine hnodup.imp_of_mem fun {i j} hi hj hne heq => hne ?_
    have := congrArg BitVec.toNat heq
    rw [toNat_cell hd ((hmem i).mp hi), toNat_cell hd ((hmem j).mp hj)] at this
    omega
  exact ⟨fun i hi => moves_self m hinj hsafe ((hmem i).mpr hi),
    fun a ha => moves_other m fun i hi => ha i ((hmem i).mp hi)⟩

/-- Copying upwards is safe unless `dst` lies inside the source, above its start. -/
theorem moved_copyUp (hd : d.toNat + n ≤ 2 ^ 64) (hs : s.toNat + n ≤ 2 ^ 64)
    (hdir : d.toNat ≤ s.toNat ∨ s.toNat + n ≤ d.toNat) : Moved m (copyUp n m d s) d s n := by
  rw [copyUp_eq]
  refine .of_moves hd (fun i => List.mem_range) List.nodup_range ?_
  refine List.pairwise_lt_range.imp_of_mem fun {i j} hi hj hij heq => ?_
  have := congrArg BitVec.toNat heq
  rw [toNat_cell hd (List.mem_range.mp hi), toNat_cell hs (List.mem_range.mp hj)] at this
  have := List.mem_range.mp hj
  omega

theorem moved_copyDown (hd : d.toNat + n ≤ 2 ^ 64) (hs : s.toNat + n ≤ 2 ^ 64)
    (hdir : s.toNat ≤ d.toNat) : Moved m (copyDown n m (cell d n) (cell s n)) d s n := by
  rw [copyDown_eq]
  refine .of_moves hd (fun i => by simp) (List.nodup_reverse.mpr List.nodup_range) ?_
  rw [List.pairwise_reverse]
  refine List.pairwise_lt_range.imp_of_mem fun {j i} hj hi hji heq => ?_
  have := congrArg BitVec.toNat heq
  rw [toNat_cell hd (List.mem_range.mp hi), toNat_cell hs (List.mem_range.mp hj)] at this
  omega

/-- **Both `memmove`s copy the region**, however the two regions overlap. -/
theorem memmoves_copy (m : Mem) (dst src : BitVec 64) (n : Nat) (hn : n < 2 ^ 31)
    (hdst : dst.toNat + n ≤ 2 ^ 64) (hsrc : src.toNat + n ≤ 2 ^ 64) :
    Moved m (memmove m dst src n).1 dst src n ∧ Moved m (User.memmove m dst src n).1 dst src n := by
  constructor
  · unfold memmove
    split_ifs with h0 hback
    · subst h0
      exact ⟨nofun, fun _ _ => rfl⟩
    · exact moved_copyDown hdst hsrc (BitVec.lt_def.mp hback.1).le
    · refine moved_copyUp hdst hsrc ?_
      by_contra hdir
      -- the regions overlap with `src` below, so `src + n` does not wrap
      refine hback ⟨BitVec.lt_def.mpr (by omega), BitVec.lt_def.mpr ?_⟩
      rw [BitVec.toNat_add, BitVec.toNat_ofNat]
      omega
  · unfold User.memmove
    split_ifs with hup
    · exact moved_copyUp hdst hsrc (Or.inl (BitVec.lt_def.mp hup).le)
    · exact moved_copyDown hdst hsrc (not_lt.mp fun h => hup (BitVec.lt_def.mpr h))

theorem memmoves_copy_overlap :
    Moved (fun a => a.toNat.toUInt8) (memmove (fun a => a.toNat.toUInt8) 1 0 3).1 1 0 3 ∧
      Moved (fun a => a.toNat.toUInt8) (User.memmove (fun a => a.toNat.toUInt8) 1 0 3).1 1 0 3 :=
  memmoves_copy _ 1 0 3 (by decide) (by decide) (by decide)

end Xv6.Memmove

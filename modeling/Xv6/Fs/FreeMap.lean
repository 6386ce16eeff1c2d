import Xv6.Disk.Bitmap
import Xv6.Fs.LogRoom

/-!
# The free map as bits and as a set

`balloc` and `bfree` of the file system work on the free map as a set of blocks. On the bytes of the disk the same
calls return the same blocks, panic at the same call, and leave a disk that holds the same file system.
-/

namespace Xv6.Fs

open Function Wp
open Bitmap (bmapBlock smallSb smallDisk)

variable {sb : Superblock} {img : Disk} {st : Store} {s : Fs} {b : Nat}

/-- The disk `img` holds `st`, and the blocks before the data are in use. -/
structure Bytes (sb : Superblock) (img : Disk) (st : Store) : Prop where
  size : sb.size < 2 ^ 31
  le : sb.datastart ≤ sb.size
  bits : ∀ c < sb.size, st.bitmap c = Bitmap.bit sb img c
  used : ∀ c < sb.datastart, st.bitmap c = true
  data : ∀ c, sb.IsData c → img c = st.data c
  inodes : ∀ i, sb.iblock i < sb.bmapstart → (img (sb.iblock i)).dinode (i % IPB * 64) = st.dinode i

inductive BlockCall where
  | balloc
  | bfree (b : Nat)

namespace BlockCall

variable (sb)

def run : BlockCall → M Nat
  | balloc => Fs.balloc sb
  | bfree b => do
    Fs.bfree sb b
    return 0

/-- The call on the bytes; there is no result after a panic. -/
def onDisk : BlockCall → StateT Disk Option Nat
  | balloc => fun img => some ((Bitmap.balloc sb img).2, (Bitmap.balloc sb img).1)
  | bfree b => fun img => (Bitmap.bfree sb img b).map (0, ·)

end BlockCall

theorem Bytes.region (h : Bytes sb img st) (hb : b < sb.size) :
    sb.bmapstart ≤ bmapBlock sb b ∧ bmapBlock sb b < sb.datastart := by
  have hsize := h.size
  have hle := h.le
  have hdiv : b / BPB ≤ sb.size / BPB := Nat.div_le_div_right hb.le
  unfold Superblock.datastart at *
  rw [bmapBlock, Superblock.bblock, Nat.mod_eq_of_lt (by omega)]
  exact ⟨Nat.le_add_left .., by omega⟩

theorem Bytes.write (h : Bytes sb img st) {img' : Disk} {v : Bool} {f : Nat → Block} (hb : sb.IsData b)
    (hmap : Bitmap.SetsBit sb img img' b v) (hkept : ∀ k, k ≠ b → k ≠ bmapBlock sb b → img' k = img k)
    (hself : img' b = f b) (hother : ∀ c, c ≠ b → f c = st.data c) :
    Bytes sb img' { st with bitmap := update st.bitmap b v, data := f } := by
  obtain ⟨hlo, hhi⟩ := h.region hb.2
  have hdata := hb.1
  refine ⟨h.size, h.le, fun c hc => ?_, fun c hc => ?_, fun c hc => ?_, fun i hi => ?_⟩
  · rw [hmap.bits c hc, ← h.bits c hc]
    exact update_apply ..
  · exact (update_of_ne (by omega) ..).trans (h.used c hc)
  · by_cases hcb : c = b
    · rw [hcb, hself]
    · have := hc.1
      exact (hkept c hcb (by omega)).trans ((h.data c hc).trans (hother c hcb).symm)
  · rw [hkept _ (by omega) (by omega)]
    exact h.inodes i hi

theorem wp_balloc_bytes (h : Bytes sb img s.store) : wp (balloc sb) (fun r t => r = (Bitmap.balloc sb img).2 ∧
    Bytes sb (Bitmap.balloc sb img).1 t.store) Panic.OfLog s := by
  rw [balloc, wp_bind, wp_get, ← Bitmap.first_eq_find h.bits]
  cases hfirst : Bitmap.first sb img with
  | none =>
    rw [Bitmap.balloc_of_none hfirst]
    exact ⟨rfl, h⟩
  | some b =>
    have halloc := Bitmap.balloc_allocates h.size (fun c hc hlt => by
      rw [← h.bits _ hlt]
      exact h.used _ (h.region hc).2) hfirst
    have hdata : sb.datastart ≤ b := by
      by_contra hlt
      have hclear := halloc.clear
      rw [← h.bits b halloc.lt, h.used b (by omega)] at hclear
      cases hclear
    show wp (do setBit b true; logWrite sb (sb.bblock b); bzero sb b; return b) _ _ s
    rw [wp_bind, setBit, wp_modify, wp_bind]
    refine wp_logWrite logFails_ofLog fun _ => ?_
    rw [wp_bind, bzero, wp_bind, setData]
    refine wp_logWrite logFails_ofLog fun _ => ⟨by rw [((Bitmap.first_spec sb img).1 b hfirst).2.2.2], ?_⟩
    have hself := (update_self b Block.zero s.store.data).symm
    exact h.write ⟨hdata, halloc.lt⟩ halloc.map halloc.kept (halloc.zeroed.trans hself) fun c hc =>
      update_of_ne hc ..

theorem wp_blockCall (h : Bytes sb img s.store) {a : BlockCall} (ha : ∀ b, a = .bfree b → sb.IsData b) :
    wp (a.run sb) (fun r t => ∃ img', (a.onDisk sb).run img = some (r, img') ∧ Bytes sb img' t.store)
      (fun e => e.OfLog ∨ e = .freeingFreeBlock ∧ (a.onDisk sb).run img = none) s := by
  cases a with
  | balloc =>
    refine (wp_balloc_bytes h).imp (fun r t ⟨hr, ht⟩ => ⟨_, ?_, ht⟩) fun _ => .inl
    rw [hr]
    rfl
  | bfree b =>
    have hb := ha b rfl
    obtain ⟨-, hhi⟩ := h.region hb.2
    rw [BlockCall.run, wp_bind]
    cases hset : s.store.bitmap b with
    | true =>
      have hbit := (h.bits b hb.2).symm.trans hset
      refine wp_bfree ⟨.inl (.inl rfl), .inl (.inr rfl)⟩ hset fun _ => ⟨_, congrArg (Option.map _) (if_pos hbit), ?_⟩
      refine h.write hb (.of_update h.size hb.2 fun j hj => ?_) (fun k _ hk => update_of_ne hk ..) ?_
        fun _ _ => rfl
      · rw [Block.bit_clearBit hj]
        by_cases hj : j = b % BPB <;> simp [hj]
      · have := hb.1
        exact (update_of_ne (by omega) ..).trans (h.data b hb)
    | false =>
      rw [bfree, wp_bind, wp_get, hset]
      refine .inr ⟨rfl, congrArg (Option.map _) (if_neg ?_)⟩
      rw [← Bitmap.bit, ← h.bits b hb.2, hset]
      decide

/-- In every sequence of calls that frees data blocks only, the bytes and the set agree on every result and on every
panic but those of the log. -/
theorem free_map_refined (as : List BlockCall) (hfree : ∀ b, .bfree b ∈ as → sb.IsData b) (h : Bytes sb img s.store) :
    wp (as.mapM (BlockCall.run sb)) (fun rs t => ∃ img', (as.mapM (BlockCall.onDisk sb)).run img = some (rs, img') ∧
      Bytes sb img' t.store)
      (fun e => e.OfLog ∨ e = .freeingFreeBlock ∧ (as.mapM (BlockCall.onDisk sb)).run img = none) s := by
  induction as generalizing img s with
  | nil => exact ⟨img, rfl, h⟩
  | cons a as ih =>
    rw [List.mapM_cons, List.mapM_cons, wp_bind]
    refine (wp_blockCall h fun b hb => hfree b (hb ▸ List.mem_cons_self)).imp
      (fun r t ⟨img₁, hrun₁, ht⟩ => ?_) fun e he => he.imp_right fun ⟨hp, hrun⟩ => ⟨hp, ?_⟩
    · rw [wp_bind]
      refine (ih (fun b hb => hfree b (.tail _ hb)) ht).imp (fun rs u ⟨img', hrun, hu⟩ => ⟨img', ?_, hu⟩)
        fun e he => he.imp_right fun ⟨hp, hrun⟩ => ⟨hp, ?_⟩ <;>
      · rw [StateT.run_bind, hrun₁]
        show ((as.mapM (BlockCall.onDisk sb)).run img₁).bind _ = _
        rw [hrun]
        rfl
    · rw [StateT.run_bind, hrun]
      rfl

/-- Block 2 is allocated, the disk is full, and the block is freed. -/
def smallCalls : List BlockCall := [.balloc, .balloc, .bfree 2]

theorem free_map_refined_small : ∃ img',
    (smallCalls.mapM (BlockCall.onDisk (smallSb 3))).run (smallDisk 2) = some ([2, 0, 0], img') := by
  let s : Fs := ⟨(smallDisk 2).store (smallSb 3), fun _ => ⟨0, 0, false, false, .zero .free⟩, some [], []⟩
  have h : Bytes (smallSb 3) (smallDisk 2) s.store := ⟨by decide, by decide, by decide +kernel, by decide +kernel,
    fun c hc => (if_pos hc.1).symm, fun i hi => absurd hi (Nat.not_lt.mpr (Nat.le_add_left_of_le (by decide)))⟩
  have hrun := free_map_refined smallCalls (by simp [smallCalls, Superblock.IsData]; decide) h
  obtain ⟨img', hbytes, -⟩ := wp_of_ok hrun rfl
  exact ⟨img', hbytes⟩

end Xv6.Fs

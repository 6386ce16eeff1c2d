import Xv6.Disk.Block
import Xv6.Lib.Replay

/-!
# Writing and recovering the redo log

The disk side of `log.c`: `write_log`, `write_head`, `install_trans`, `commit` and
`recover_from_log`. `LogState.buf` is what `bread` returns (the cached buffer, or the disk's copy of
a block that is not cached), so a `memmove` into `b->data` changes `buf` and a `bwrite` copies `buf`
to `disk`. Every `bwrite` is also appended to `issued`; a crash leaves the disk after a prefix of
that list.
-/

namespace Xv6

open Function Replay

/-- `log.start` and `log.size`, as `initlog` takes them from the superblock. -/
structure LogArea where
  start : Nat
  size : Nat

/-- Block `b` belongs to the log area. -/
def LogArea.Has (g : LogArea) (b : Nat) : Prop := g.start ≤ b ∧ b < g.start + g.size

instance (g : LogArea) (b : Nat) : Decidable (g.Has b) :=
  inferInstanceAs (Decidable (_ ∧ _))

/-- The in-memory `struct logheader`; `n` is the length of `block`. -/
structure LogHeader where
  block : List UInt32
  fits : block.length ≤ LOGSIZE

namespace LogHeader

def empty : LogHeader := ⟨[], Nat.zero_le _⟩

def n (lh : LogHeader) : Nat := lh.block.length

def homes (lh : LogHeader) : List Nat := lh.block.map UInt32.toNat

end LogHeader

/-! ### The on-disk header -/

/-- `lh->n` of a header block, a C `int`. -/
def headN (blk : Block) : Int := (blk.getUint 0).toInt32.toInt

/-- `lh->block[0 .. n)` of a header block. -/
def headBlocks (blk : Block) : List UInt32 :=
  (List.range (headN blk).toNat).map fun i => blk.getUint (4 + 4 * i)

/-- The loop `hb->block[i] = log.lh.block[i]`. -/
def storeBlocks (i : Nat) : List UInt32 → Block → Block
  | [], blk => blk
  | b :: bs, blk => storeBlocks (i + 1) bs (blk.setUint (4 + 4 * i) b)

/-- The header block `blk` with `n` and `block[0 .. n)` overwritten; the other bytes stay. -/
def storeHead (lh : LogHeader) (blk : Block) : Block :=
  storeBlocks 0 lh.block (blk.setUint 0 (UInt32.ofNat lh.n))

/-! ### State and functions -/

structure LogState where
  disk : Disk
  buf : Disk
  pins : Nat → Int
  lh : LogHeader
  issued : List (Nat × Block)

namespace LogState

/-- The kernel after a reboot: nothing cached, nothing pinned, an empty in-memory header. -/
def boot (d : Disk) : LogState := ⟨d, d, fun _ => 0, .empty, []⟩

/-- Overwrite `b->data` of the buffer of block `b`. -/
def setBuf (s : LogState) (b : Nat) (v : Block) : LogState :=
  { s with buf := update s.buf b v }

def bwrite (s : LogState) (b : Nat) : LogState :=
  { s with disk := update s.disk b (s.buf b), issued := s.issued ++ [(b, s.buf b)] }

def bunpin (s : LogState) (b : Nat) : LogState :=
  { s with pins := update s.pins b (s.pins b - 1) }

def writeHead (g : LogArea) (s : LogState) : LogState :=
  (s.setBuf g.start (storeHead s.lh (s.buf g.start))).bwrite g.start

/-- `none` where the header on the disk does not fit `log.lh`: the copy loop would run past the end
of `log.lh.block`. -/
def readHead (g : LogArea) (s : LogState) : Option LogState :=
  if h : (headBlocks (s.buf g.start)).length ≤ LOGSIZE then
    some { s with lh := ⟨headBlocks (s.buf g.start), h⟩ }
  else none

/-- The loop of `write_log` from `tail` on. -/
def writeLogFrom (g : LogArea) (tail : Nat) : List UInt32 → LogState → LogState
  | [], s => s
  | b :: bs, s =>
    writeLogFrom g (tail + 1) bs
      ((s.setBuf (g.start + tail + 1) (s.buf b.toNat)).bwrite (g.start + tail + 1))

def writeLog (g : LogArea) (s : LogState) : LogState := writeLogFrom g 0 s.lh.block s

/-- The loop of `install_trans` from `tail` on. -/
def installFrom (g : LogArea) (recovering : Bool) (tail : Nat) :
    List UInt32 → LogState → LogState
  | [], s => s
  | b :: bs, s =>
    let s' := (s.setBuf b.toNat (s.buf (g.start + tail + 1))).bwrite b.toNat
    installFrom g recovering (tail + 1) bs (if recovering then s' else s'.bunpin b.toNat)

def installTrans (g : LogArea) (recovering : Bool) (s : LogState) : LogState :=
  installFrom g recovering 0 s.lh.block s

/-- `log.lh.n = 0`. -/
def clearHeader (s : LogState) : LogState := { s with lh := .empty }

def commit (g : LogArea) (s : LogState) : LogState :=
  if 0 < s.lh.n then
    writeHead g (clearHeader (installTrans g false (writeHead g (writeLog g s))))
  else s

def recoverFromLog (g : LogArea) (s : LogState) : Option LogState :=
  (readHead g s).map fun s => writeHead g (clearHeader (installTrans g true s))

/-- Write `v` to block `b` through the cache: buffer and disk both hold `v` afterwards. -/
def writes (s : LogState) (ws : List (Nat × Block)) : LogState :=
  { s with disk := replay s.disk ws, buf := replay s.buf ws, issued := s.issued ++ ws }

@[simp] theorem writes_lh (s : LogState) (ws : List (Nat × Block)) : (s.writes ws).lh = s.lh := rfl
@[simp] theorem writes_buf (s : LogState) (ws : List (Nat × Block)) :
    (s.writes ws).buf = replay s.buf ws := rfl
@[simp] theorem writes_nil (s : LogState) : s.writes [] = s := by simp [writes]

theorem writes_writes (s : LogState) (ws vs : List (Nat × Block)) :
    (s.writes ws).writes vs = s.writes (ws ++ vs) := by
  simp [writes, replay_append]

theorem setBuf_bwrite (s : LogState) (b : Nat) (v : Block) :
    (s.setBuf b v).bwrite b = s.writes [(b, v)] := by
  simp [setBuf, bwrite, writes]

end LogState

/-! ### The header block -/

theorem storeBlocks_getUint_lt (i : Nat) (bs : List UInt32) (blk : Block) (off : Nat)
    (hoff : off + 4 ≤ 4 + 4 * i) (hfit : 4 + 4 * (i + bs.length) ≤ BSIZE) :
    (storeBlocks i bs blk).getUint off = blk.getUint off := by
  induction bs generalizing i blk with
  | nil => rfl
  | cons b bs ih =>
    simp only [List.length_cons] at hfit
    rw [storeBlocks, ih (i + 1) _ (by omega) (by omega),
      Block.getUint_setUint_of_disjoint _ _ _ _ (by omega) (Or.inl hoff)]

theorem storeBlocks_getUint (i : Nat) (bs : List UInt32) (blk : Block)
    (hfit : 4 + 4 * (i + bs.length) ≤ BSIZE) (j : Nat) (hj : j < bs.length) :
    (storeBlocks i bs blk).getUint (4 + 4 * (i + j)) = bs[j] := by
  induction bs generalizing i blk j with
  | nil => simp at hj
  | cons b bs ih =>
    simp only [List.length_cons] at hfit hj
    rw [storeBlocks]
    cases j with
    | zero =>
      rw [storeBlocks_getUint_lt (i + 1) bs _ _ (by omega) (by omega)]
      exact Block.getUint_setUint_same _ _ _ (by omega)
    | succ j =>
      rw [show i + (j + 1) = i + 1 + j by omega, ih (i + 1) _ (by omega) j (by omega)]
      rfl

theorem LogHeader.fits_block (lh : LogHeader) : 4 + 4 * (0 + lh.block.length) ≤ BSIZE := by
  have := lh.fits
  simp only [LOGSIZE, MAXOPBLOCKS, BSIZE] at this ⊢
  omega

theorem headN_storeHead (lh : LogHeader) (blk : Block) : headN (storeHead lh blk) = lh.n := by
  have hn : lh.n < 2 ^ 31 := Nat.lt_of_le_of_lt lh.fits (by decide)
  rw [headN, storeHead, storeBlocks_getUint_lt 0 lh.block _ 0 (by omega) lh.fits_block,
    Block.getUint_setUint_same _ _ _ (by decide)]
  simp only [Int32.toInt, UInt32.toBitVec_toInt32, UInt32.toBitVec_ofNat', BitVec.toInt_ofNat',
    Int.bmod_def]
  omega

theorem headBlocks_storeHead (lh : LogHeader) (blk : Block) :
    headBlocks (storeHead lh blk) = lh.block := by
  rw [headBlocks, headN_storeHead]
  apply List.ext_getElem
  · simp [LogHeader.n]
  · intro i h1 h2
    have := storeBlocks_getUint 0 lh.block (blk.setUint 0 (UInt32.ofNat lh.n)) lh.fits_block i h2
    simpa [storeHead] using this

/-! ### The writes each phase issues -/

def logWrites (g : LogArea) (c : Disk) (tail : Nat) : List UInt32 → List (Nat × Block)
  | [] => []
  | b :: bs => (g.start + tail + 1, c b.toNat) :: logWrites g c (tail + 1) bs

def homeWrites (g : LogArea) (c : Disk) (tail : Nat) : List UInt32 → List (Nat × Block)
  | [] => []
  | b :: bs => (b.toNat, c (g.start + tail + 1)) :: homeWrites g c (tail + 1) bs

theorem logWrites_congr (g : LogArea) {c d : Disk} (tail : Nat) (bs : List UInt32)
    (h : ∀ b ∈ bs, c b.toNat = d b.toNat) : logWrites g c tail bs = logWrites g d tail bs := by
  induction bs generalizing tail with
  | nil => rfl
  | cons b bs ih =>
    rw [logWrites, logWrites, h b List.mem_cons_self,
      ih (tail + 1) fun x hx => h x (List.mem_cons_of_mem _ hx)]

theorem homeWrites_congr (g : LogArea) {c c' : Disk} (tail : Nat) (bs : List UInt32)
    (h : ∀ i, i < bs.length → c (g.start + (tail + i) + 1) = c' (g.start + (tail + i) + 1)) :
    homeWrites g c tail bs = homeWrites g c' tail bs := by
  induction bs generalizing tail with
  | nil => rfl
  | cons b bs ih =>
    rw [homeWrites, homeWrites, ih (tail + 1) fun i hi => by
      have := h (i + 1) (by simpa using hi)
      rwa [show tail + (i + 1) = tail + 1 + i by omega] at this]
    rw [show c (g.start + tail + 1) = c' (g.start + tail + 1) from h 0 (by simp)]

theorem mem_logWrites {g : LogArea} {c : Disk} {tail : Nat} {bs : List UInt32} {w : Nat × Block}
    (h : w ∈ logWrites g c tail bs) :
    g.start + tail + 1 ≤ w.1 ∧ w.1 < g.start + tail + 1 + bs.length := by
  induction bs generalizing tail with
  | nil => simp [logWrites] at h
  | cons b bs ih =>
    simp only [logWrites, List.mem_cons, List.length_cons] at h ⊢
    rcases h with rfl | h
    · simp only; omega
    · have := ih h; omega

theorem mem_homeWrites {g : LogArea} {c : Disk} {tail : Nat} {bs : List UInt32} {w : Nat × Block}
    (h : w ∈ homeWrites g c tail bs) : ∃ b ∈ bs, b.toNat = w.1 := by
  induction bs generalizing tail with
  | nil => simp [homeWrites] at h
  | cons b bs ih =>
    simp only [homeWrites, List.mem_cons] at h
    rcases h with rfl | h
    · exact ⟨b, List.mem_cons_self, rfl⟩
    · obtain ⟨x, hx, hw⟩ := ih h
      exact ⟨x, List.mem_cons_of_mem _ hx, hw⟩

theorem replay_logWrites (g : LogArea) (c d : Disk) (tail : Nat) (bs : List UInt32) (i : Nat)
    (hi : i < bs.length) :
    replay d (logWrites g c tail bs) (g.start + (tail + i) + 1) = c (bs[i]).toNat := by
  induction bs generalizing tail d i with
  | nil => simp at hi
  | cons b bs ih =>
    rw [logWrites, replay_cons]
    cases i with
    | zero =>
      rw [replay_of_forall_ne _ _ _ fun w hw => by have := mem_logWrites hw; omega]
      simp
    | succ i =>
      rw [show tail + (i + 1) = tail + 1 + i by omega, ih _ _ i (by simpa using hi)]
      rfl

theorem homeWrites_eq_map (g : LogArea) (c new : Disk) (tail : Nat) (bs : List UInt32)
    (h : ∀ i (hi : i < bs.length), c (g.start + (tail + i) + 1) = new (bs[i]).toNat) :
    homeWrites g c tail bs = bs.map fun b => (b.toNat, new b.toNat) := by
  induction bs generalizing tail with
  | nil => rfl
  | cons b bs ih =>
    rw [homeWrites, List.map_cons, ih (tail + 1) fun i hi => by
      have := h (i + 1) (by simpa using hi)
      rwa [show tail + (i + 1) = tail + 1 + i by omega] at this]
    rw [show c (g.start + tail + 1) = new b.toNat from h 0 (by simp)]

end Xv6

import Mathlib.Algebra.Order.BigOperators.Group.Finset
import Xv6.Bio.Lru

/-!
# The buffer cache is transparent

The counts of references are exact, so a buffer that someone uses is not given to another block; and the
contents of a block are in its buffer, if it has one, or else on the disk.
-/

namespace Xv6

open Function

/-- The position is one that counts in `refcnt` of `b` without the lock. -/
def BufPos.uses {N : Nat} (b : Fin N) : BufPos N → Nat
  | .wait c _ => if c = b then 1 else 0
  | .relse c => if c = b then 1 else 0
  | _ => 0

def BufPos.waitsFor {N : Nat} (b : Fin N) : BufPos N → Bool
  | .wait c _ => c = b
  | _ => false

namespace Bcache

variable {N : Nat} {P α : Type} [Fintype P] {dev : Nat} {s t : Bcache N P α} {b c : Fin N} {k : Nat}
  {p q : P}

def users (s : Bcache N P α) (b : Fin N) : Nat := ∑ p, (s.pos p).uses b

theorem uses_le_users (s : Bcache N P α) (p : P) (b : Fin N) : (s.pos p).uses b ≤ s.users b :=
  Finset.single_le_sum (fun q _ => Nat.zero_le ((s.pos q).uses b)) (Finset.mem_univ p)

/-- What holds of one buffer. -/
structure BufOk (dev : Nat) (s : Bcache N P α) (b : Fin N) : Prop where
  /-- no block has been given to it yet -/
  fresh : (s.buf b).dev ≠ dev → (s.buf b).valid = false ∧ (s.buf b).refcnt = 0
  refs : (s.buf b).refcnt = (if (s.buf b).lock = none then 0 else 1) + s.users b + s.pins b
  data : (s.buf b).valid = true → (s.buf b).data = s.contents (s.buf b).blockno
  clean : (s.buf b).dev = dev → s.dirty b = false →
    s.disk (s.buf b).blockno = s.contents (s.buf b).blockno
  invalid : (s.buf b).valid = false → s.dirty b = false
  /-- a modified buffer is locked or pinned -/
  kept : s.dirty b = true → (s.buf b).lock ≠ none ∨ 0 < s.pins b

/-- What is known about the buffer at a position. -/
def PosOk (dev : Nat) (s : Bcache N P α) (p : P) : BufPos N → Prop
  | .wait b k => (s.buf b).dev = dev ∧ (s.buf b).blockno = k
  | .fill b k => (s.buf b).dev = dev ∧ (s.buf b).blockno = k ∧ (s.buf b).lock = some p
  | _ => True

structure CacheInv (dev : Nat) (s : Bcache N P α) : Prop where
  buf : ∀ b, BufOk dev s b
  unique : ∀ b c, (s.buf b).dev = dev → (s.buf c).dev = dev →
    (s.buf b).blockno = (s.buf c).blockno → b = c
  /-- a block without a buffer is on the disk -/
  uncached : ∀ k, (∀ b, (s.buf b).dev = dev → (s.buf b).blockno ≠ k) → s.disk k = s.contents k
  pos : ∀ p, PosOk dev s p (s.pos p)
  /-- the buffers that `bread` has returned are valid -/
  returned : ∀ b p, (s.buf b).lock = some p → (∃ k, s.pos p = .fill b k) ∨ (s.buf b).valid = true

theorem BufOk.refcnt_pos_of_lock (h : BufOk dev s b) (hb : (s.buf b).lock = some p) :
    0 < (s.buf b).refcnt := by
  have := h.refs
  rw [hb, if_neg (by simp)] at this
  omega

theorem BufOk.refcnt_pos_of_uses (h : BufOk dev s b) (hp : (s.pos p).uses b = 1) :
    0 < (s.buf b).refcnt := by
  have := h.refs
  have := uses_le_users s p b
  omega

theorem BufOk.dev_eq (h : BufOk dev s b) (hb : 0 < (s.buf b).refcnt) : (s.buf b).dev = dev := by
  by_contra hc
  have := (h.fresh hc).2
  omega

theorem BufOk.dev_eq_of_valid (h : BufOk dev s b) (hb : (s.buf b).valid = true) :
    (s.buf b).dev = dev := by
  by_contra hc
  rw [(h.fresh hc).1] at hb
  cases hb

theorem BufOk.of_free (h : BufOk dev s b) (hb : (s.buf b).refcnt = 0) :
    (s.buf b).lock = none ∧ s.users b = 0 ∧ s.pins b = 0 ∧ s.dirty b = false := by
  have hrefs := h.refs
  have hl : (s.buf b).lock = none := by
    by_contra hc
    rw [if_neg hc] at hrefs
    omega
  refine ⟨hl, by omega, by omega, ?_⟩
  cases hd : s.dirty b with
  | false => rfl
  | true =>
    rcases h.kept hd with hk | hk
    · exact absurd hl hk
    · omega

theorem CacheInv.valid_of_held (hs : CacheInv dev s) (hp : s.pos p = .out)
    (hl : (s.buf b).lock = some p) : (s.buf b).valid = true := by
  refine (hs.returned b p hl).resolve_left ?_
  rintro ⟨k, hk⟩
  rw [hp] at hk
  cases hk

theorem cacheInv_boot (hdev : dev ≠ 0) (zero : α) (disk : Nat → α) :
    CacheInv dev (boot N P zero disk) where
  buf b := by
    constructor <;> simp [boot, users, BufPos.uses]
  unique b c h := absurd h (by simpa [boot] using Ne.symm hdev)
  uncached k _ := rfl
  pos p := trivial
  returned b p h := by simp [boot] at h

/-! ## One step -/

/-- A step of `p` that changes the buffer `b`: the buffer keeps its block, or it is free and gets a
block that no buffer has. -/
structure Touches (dev : Nat) (s t : Bcache N P α) (p : P) (b : Fin N) : Prop where
  pos : ∀ q, q ≠ p → t.pos q = s.pos q
  /-- only references to `b` change -/
  uses : ∀ c, c ≠ b → (t.pos p).uses c = (s.pos p).uses c
  fill : ∀ c k, c ≠ b → s.pos p = .fill c k → t.pos p = .fill c k
  buf : ∀ c, c ≠ b → t.buf c = s.buf c ∧ t.dirty c = s.dirty c ∧ t.pins c = s.pins c
  lock : ∀ q, q ≠ p → (s.buf b).lock = some q → (t.buf b).lock = some q
  disk : ∀ k, k ≠ (t.buf b).blockno → t.disk k = s.disk k ∧ t.contents k = s.contents k
  block : (s.buf b).dev = dev ∧ (t.buf b).blockno = (s.buf b).blockno ∨
    (s.buf b).refcnt = 0 ∧ ∀ c, ¬((s.buf c).dev = dev ∧ (s.buf c).blockno = (t.buf b).blockno)
  dev : (t.buf b).dev = dev

theorem Touches.blockno_ne (h : Touches dev s t p b) (hs : CacheInv dev s) (hc : c ≠ b)
    (hcd : (s.buf c).dev = dev) : (s.buf c).blockno ≠ (t.buf b).blockno := by
  intro heq
  rcases h.block with ⟨hbd, hb⟩ | ⟨-, hn⟩
  · exact hc (hs.unique c b hcd hbd (heq.trans hb))
  · exact hn c ⟨hcd, heq⟩

omit [Fintype P] in
theorem Touches.block_of_used (h : Touches dev s t p b) (hc : 0 < (s.buf c).refcnt) :
    (t.buf c).dev = (s.buf c).dev ∧ (t.buf c).blockno = (s.buf c).blockno := by
  by_cases hcb : c = b
  · subst hcb
    rcases h.block with ⟨hd, hb⟩ | ⟨hf, -⟩
    · exact ⟨h.dev.trans hd.symm, hb⟩
    · omega
  · rw [(h.buf c hcb).1]
    exact ⟨rfl, rfl⟩

/-- A block without a buffer is on the disk: it had none before, or it has lost `b`, which was free. -/
theorem Touches.uncached (h : Touches dev s t p b) (hs : CacheInv dev s)
    (hk : ∀ c, (t.buf c).dev = dev → (t.buf c).blockno ≠ k) : t.disk k = t.contents k := by
  obtain ⟨hd, hc⟩ := h.disk k (Ne.symm (hk b h.dev))
  rw [hd, hc]
  by_cases hb : (s.buf b).dev = dev ∧ (s.buf b).blockno = k
  · rcases h.block with ⟨-, hblk⟩ | ⟨hf, -⟩
    · exact absurd (hblk.trans hb.2) (hk b h.dev)
    · exact hb.2 ▸ (hs.buf b).clean hb.1 ((hs.buf b).of_free hf).2.2.2
  · refine hs.uncached k fun c hcd hck => ?_
    by_cases hcb : c = b
    · exact hb (hcb ▸ ⟨hcd, hck⟩)
    · have := hk c
      rw [(h.buf c hcb).1] at this
      exact this hcd hck

variable [DecidableEq P] {a : BioAct N P α} {l : List (Fin N)} {x : Buf P α}

theorem Touches.users (h : Touches dev s t p b) (c : Fin N) :
    t.users c + (s.pos p).uses c = s.users c + (t.pos p).uses c := by
  have hold := Finset.add_sum_erase Finset.univ (fun q => (s.pos q).uses c) (Finset.mem_univ p)
  have hnew := Finset.add_sum_erase Finset.univ (fun q => (t.pos q).uses c) (Finset.mem_univ p)
  have hsame : ∑ q ∈ Finset.univ.erase p, (t.pos q).uses c =
      ∑ q ∈ Finset.univ.erase p, (s.pos q).uses c :=
    Finset.sum_congr rfl fun q hq => by rw [h.pos q (Finset.ne_of_mem_erase hq)]
  simp only [Bcache.users]
  omega

theorem Touches.bufOk (h : Touches dev s t p b) (hs : CacheInv dev s) (hc : c ≠ b) :
    BufOk dev t c := by
  obtain ⟨hbuf, hdirty, hpins⟩ := h.buf c hc
  have hold := hs.buf c
  have husers : t.users c = s.users c := by
    have := h.users c
    rw [h.uses c hc] at this
    omega
  have hdata := fun hcd => h.disk _ (h.blockno_ne hs hc hcd)
  constructor <;> simp only [hbuf, hdirty, hpins, husers]
  · exact hold.fresh
  · exact hold.refs
  · intro hv
    rw [(hdata (hold.dev_eq_of_valid hv)).2]
    exact hold.data hv
  · intro hcd hd
    rw [(hdata hcd).1, (hdata hcd).2]
    exact hold.clean hcd hd
  · exact hold.invalid
  · exact hold.kept

omit [DecidableEq P] in
theorem Touches.posOk (h : Touches dev s t p b) (hs : CacheInv dev s) (hq : q ≠ p) :
    PosOk dev t q (t.pos q) := by
  have hold := hs.pos q
  rw [h.pos q hq]
  cases hpos : s.pos q with
  | wait c k =>
    rw [hpos] at hold
    have := h.block_of_used ((hs.buf c).refcnt_pos_of_uses (p := q) (by simp [hpos, BufPos.uses]))
    simpa only [PosOk, this] using hold
  | fill c k =>
    rw [hpos] at hold
    have := h.block_of_used ((hs.buf c).refcnt_pos_of_lock hold.2.2)
    refine ⟨this.1.trans hold.1, this.2.trans hold.2.1, ?_⟩
    by_cases hc : c = b
    · subst hc
      exact h.lock q hq hold.2.2
    · rw [(h.buf c hc).1]
      exact hold.2.2
  | _ => trivial

/-- A valid buffer has the contents of its block, and so has the disk unless the buffer is `dirty`. -/
structure DataOk (x : Buf P α) (disk contents : α) (dirty : Bool) : Prop where
  data : x.valid = true → x.data = contents
  clean : dirty = false → disk = contents
  invalid : x.valid = false → dirty = false

omit [DecidableEq P] in
theorem BufOk.dataOk (h : BufOk dev s b) (hdev : (s.buf b).dev = dev)
    (hx : x.valid = (s.buf b).valid ∧ x.data = (s.buf b).data) :
    DataOk x (s.disk (s.buf b).blockno) (s.contents (s.buf b).blockno) (s.dirty b) := by
  refine ⟨?_, h.clean hdev, ?_⟩ <;> rw [hx.1]
  · rw [hx.2]
    exact h.data
  · exact h.invalid

/-- What is left to show of the buffer that changes, and of the process that makes the step. -/
structure Local (dev : Nat) (s t : Bcache N P α) (p : P) (b : Fin N) : Prop where
  refs : (t.buf b).refcnt + (if (s.buf b).lock = none then 0 else 1) + (s.pos p).uses b + s.pins b =
    (s.buf b).refcnt + (if (t.buf b).lock = none then 0 else 1) + (t.pos p).uses b + t.pins b
  data : DataOk (t.buf b) (t.disk (t.buf b).blockno) (t.contents (t.buf b).blockno) (t.dirty b)
  kept : t.dirty b = true → (t.buf b).lock ≠ none ∨ 0 < t.pins b
  pos : PosOk dev t p (t.pos p)
  returned : ∀ q, (t.buf b).lock = some q → (∃ k, t.pos q = .fill b k) ∨ (t.buf b).valid = true

theorem CacheInv.touches (hs : CacheInv dev s) (p : P) (b : Fin N) (h : Touches dev s t p b) (hl : Local dev s t p b) :
    CacheInv dev t where
  buf c := by
    by_cases hc : c = b
    · subst hc
      refine ⟨fun hd => absurd h.dev hd, ?_, hl.data.data, fun _ => hl.data.clean, hl.data.invalid,
        hl.kept⟩
      have hold := (hs.buf c).refs
      have hnew := hl.refs
      have := h.users c
      omega
    · exact h.bufOk hs hc
  unique c d hcd hdd heq := by
    by_cases hc : c = b <;> by_cases hd : d = b
    · exact hc.trans hd.symm
    · subst hc
      rw [(h.buf d hd).1] at hdd heq
      exact absurd heq.symm (h.blockno_ne hs hd hdd)
    · subst hd
      rw [(h.buf c hc).1] at hcd heq
      exact absurd heq (h.blockno_ne hs hc hcd)
    · rw [(h.buf c hc).1] at hcd heq
      rw [(h.buf d hd).1] at hdd heq
      exact hs.unique c d hcd hdd heq
  uncached k := h.uncached hs
  pos q := by
    by_cases hq : q = p
    · exact hq ▸ hl.pos
    · exact h.posOk hs hq
  returned c q := by
    by_cases hc : c = b
    · exact hc ▸ hl.returned q
    · rw [(h.buf c hc).1]
      intro hlock
      refine (hs.returned c q hlock).imp_left fun ⟨k, hk⟩ => ⟨k, ?_⟩
      by_cases hq : q = p
      · exact hq ▸ h.fill c k hc (hq ▸ hk)
      · rwa [h.pos q hq]

/-- `p`, which is not in `bread`, moves to `y`. -/
theorem CacheInv.returned_update (hs : CacheInv dev s) {y : BufPos N} (hp : ∀ k, s.pos p ≠ .fill b k)
    (hl : (s.buf b).lock = some q) :
    (∃ k, update s.pos p y q = .fill b k) ∨ (s.buf b).valid = true := by
  refine (hs.returned b q hl).imp_left fun ⟨k, hk⟩ => ⟨k, ?_⟩
  have hq : q ≠ p := by
    rintro rfl
    exact hp k hk
  rwa [update_of_ne hq]

theorem CacheInv.step (hs : CacheInv dev s) (ho : Order s l) (hst : Step dev s a t)
    (hg : Disciplined s a) : CacheInv dev t := by
  cases hst with have hold := hs.buf b
  | @hit p k b hp hb =>
    obtain ⟨hdev, hk⟩ := ho.cached_some hb
    refine hs.touches p b ?_ ?_
    · constructor <;> simp +contextual [goto, setBuf, hp, hdev, BufPos.uses, Ne.symm]
    · constructor <;> simp only [goto, setBuf, update_self, PosOk]
      · simp only [hp, BufPos.uses, if_true]
        omega
      · exact hold.dataOk hdev ⟨rfl, rfl⟩
      · exact hold.kept
      · exact ⟨hdev, hk⟩
      · exact fun q => hs.returned_update (by simp [hp])
  | @recycle p k b hp hn hb =>
    obtain ⟨hfree, -⟩ := ho.unused_some hb
    obtain ⟨hl, -, hpin, hd⟩ := hold.of_free hfree
    have hnone := ho.cached_none hn
    refine hs.touches p b ?_ ?_
    · constructor <;> simp +contextual [goto, setBuf, hp, hfree, BufPos.uses, Ne.symm]
      exact .inr fun c hcd hck => hnone c ⟨hcd, hck⟩
    · constructor <;> simp only [goto, setBuf, update_self, PosOk]
      · simp [hp, hfree, hl, BufPos.uses]
      · exact ⟨by simp, fun _ => hs.uncached k fun c hc hk => hnone c ⟨hc, hk⟩, fun _ => hd⟩
      · simp [hd]
      · exact ⟨trivial, trivial⟩
      · simp [hl]
  | @lock p k b hp hl =>
    have hpos := hs.pos p
    rw [hp] at hpos
    obtain ⟨hdev, hk⟩ := hpos
    refine hs.touches p b ?_ ?_
    · constructor <;> simp +contextual [goto, setBuf, hp, hdev, hl, BufPos.uses, Ne.symm]
    · constructor <;> simp only [goto, setBuf, update_self, PosOk]
      · simp [hp, hl, BufPos.uses]
      · exact hold.dataOk hdev ⟨rfl, rfl⟩
      · simp
      · exact ⟨hdev, hk, trivial⟩
      · simp +contextual
  | @fillValid p k b hp hv =>
    have hpos := hs.pos p
    rw [hp] at hpos
    obtain ⟨hdev, hk, hl⟩ := hpos
    refine hs.touches p b ?_ ?_
    · constructor <;> simp +contextual [goto, hp, hdev, BufPos.uses, Ne.symm]
    · constructor <;> simp only [goto, update_self, PosOk]
      · simp [hp, hl, BufPos.uses]
      · exact hold.dataOk hdev ⟨rfl, rfl⟩
      · exact hold.kept
      · exact fun _ _ => .inr hv
  | @fillRead p k b hp hv =>
    have hpos := hs.pos p
    rw [hp] at hpos
    obtain ⟨hdev, hk, hl⟩ := hpos
    refine hs.touches p b ?_ ?_
    · constructor <;> simp +contextual [goto, setBuf, hp, hdev, BufPos.uses, Ne.symm]
    · constructor <;> simp only [goto, setBuf, update_self, PosOk]
      · simp [hp, BufPos.uses]
      · exact ⟨fun _ => hold.clean hdev (hold.invalid hv), hold.clean hdev, by simp⟩
      · exact hold.kept
      · simp
  | @modify p b z hp hl =>
    have hdev := hold.dev_eq (hold.refcnt_pos_of_lock hl)
    have hv := hs.valid_of_held hp hl
    refine hs.touches p b ?_ ?_
    · constructor <;> simp +contextual [setBuf, hp, hdev]
    · constructor <;> simp only [setBuf, update_self, hp, PosOk]
      · exact ⟨fun _ => rfl, by simp, by simp [hv]⟩
      · simp [hl]
      · exact fun _ _ => .inr hv
  | @bwrite p b hp hl =>
    have hdev := hold.dev_eq (hold.refcnt_pos_of_lock hl)
    have hv := hs.valid_of_held hp hl
    refine hs.touches p b ?_ ?_
    · constructor <;> simp +contextual [hp, hdev]
    · constructor <;> simp only [update_self, hp, PosOk]
      · exact ⟨hold.data, fun _ => hold.data hv, fun _ => rfl⟩
      · simp
      · exact fun _ _ => .inr hv
  | @brelse p b hp hl =>
    have hdev := hold.dev_eq (hold.refcnt_pos_of_lock hl)
    refine hs.touches p b ?_ ?_
    · constructor <;> simp +contextual [goto, setBuf, hp, hdev, hl, BufPos.uses, Ne.symm]
    · constructor <;> simp only [goto, setBuf, update_self, PosOk]
      · simp [hp, hl, BufPos.uses]
      · exact hold.dataOk hdev ⟨rfl, rfl⟩
      · exact fun hd => .inr (hg hd)
      · simp
  | @dropFree p b hp | @dropKeep p b hp =>
    have hpos := hold.refcnt_pos_of_uses (p := p) (by simp [hp, BufPos.uses])
    have hdev := hold.dev_eq hpos
    refine hs.touches p b ?_ ?_
    · constructor <;> simp +contextual [goto, setBuf, hp, hdev, BufPos.uses, Ne.symm]
    · constructor <;> simp only [goto, setBuf, update_self, PosOk]
      · simp only [hp, BufPos.uses, if_true]
        omega
      · exact hold.dataOk hdev ⟨rfl, rfl⟩
      · exact hold.kept
      · exact fun q => hs.returned_update (by simp [hp])
  | @bpin p b hp hdev =>
    refine hs.touches p b ?_ ?_
    · constructor <;> simp +contextual [setBuf, hp, hdev]
    · constructor <;> simp only [setBuf, update_self, hp, PosOk]
      · omega
      · exact hold.dataOk hdev ⟨rfl, rfl⟩
      · exact fun _ => .inr (by omega)
      · exact fun q => hs.returned b q
  | @bunpin p b hp =>
    obtain ⟨hl, hpin, hd⟩ := hg
    have hpos := hold.refcnt_pos_of_lock hl
    have hdev := hold.dev_eq hpos
    refine hs.touches p b ?_ ?_
    · constructor <;> simp +contextual [setBuf, hp, hdev]
    · constructor <;> simp only [setBuf, update_self, hp, PosOk]
      · omega
      · exact hold.dataOk hdev ⟨rfl, rfl⟩
      · simp [hl]
      · exact fun q => hs.returned b q

/-! ## Whole runs -/

omit [DecidableEq P] in
theorem users_eq [DecidableEq (BufPos N)] (s : Bcache N P α) (b : Fin N) : s.users b =
    (Finset.univ.filter fun p => s.pos p = .relse b).card +
      (Finset.univ.filter fun p => (s.pos p).waitsFor b).card := by
  rw [Finset.card_filter, Finset.card_filter, ← Finset.sum_add_distrib]
  refine Finset.sum_congr rfl fun p _ => ?_
  cases s.pos p <;> simp [BufPos.uses, BufPos.waitsFor]

/-- The processes that have the lock of `b`, or have released it in `brelse` and not yet dropped their
reference. -/
def holders (s : Bcache N P α) (b : Fin N) : Nat :=
  (if (s.buf b).lock = none then 0 else 1) + (Finset.univ.filter fun p => s.pos p = .relse b).card

def waiters (s : Bcache N P α) (b : Fin N) : Nat :=
  (Finset.univ.filter fun p => (s.pos p).waitsFor b).card

/-- The buffer cache is transparent. -/
structure Transparent (dev : Nat) (s : Bcache N P α) : Prop where
  /-- the links form one ring of the head and of all buffers, in both directions -/
  ring : ∃ l : List (Fin N), DList.Ring s.links none (l.map some) ∧ ∀ b, b ∈ l
  unique : ∀ b c, b ≠ c → (s.buf b).valid = true ∨ 0 < (s.buf b).refcnt →
    (s.buf c).valid = true ∨ 0 < (s.buf c).refcnt →
    ((s.buf b).dev, (s.buf b).blockno) ≠ ((s.buf c).dev, (s.buf c).blockno)
  refs : ∀ b, (s.buf b).refcnt = s.holders b + s.waiters b + s.pins b
  /-- there is a reference to drop, in `brelse` and in `bunpin` -/
  drops : (∀ p b, s.pos p = .relse b → 0 < (s.buf b).refcnt) ∧ ∀ b, 0 < s.pins b → 0 < (s.buf b).refcnt
  /-- no step gives a buffer in use to another block -/
  stays : ∀ a t, step dev s a = some t → ∀ b, 0 < (s.buf b).refcnt →
    (t.buf b).dev = (s.buf b).dev ∧ (t.buf b).blockno = (s.buf b).blockno
  /-- a `bread` of `k` that returns `b` -/
  bread : ∀ p b k t, s.pos p = .fill b k → step dev s (.fill p) = some t →
    (t.buf b).dev = dev ∧ (t.buf b).blockno = k ∧ (t.buf b).lock = some p ∧ (t.buf b).data = t.contents k
  /-- a `bget` that recycles `b` because no buffer is that of block `k` -/
  recycled : ∀ p b k t, (∀ c, ¬((s.buf c).dev = dev ∧ (s.buf c).blockno = k)) →
    step dev s (.bread p k) = some t → t.pos p = .wait b k →
    (s.buf b).refcnt = 0 ∧ ∀ c, (s.buf c).refcnt = 0 → s.freed b ≤ s.freed c

omit [Fintype P] [DecidableEq P] in
theorem update_block (f : Fin N → Buf P α) (c : Fin N) (hd : x.dev = (f c).dev)
    (hb : x.blockno = (f c).blockno) (b : Fin N) : (update f c x b).dev = (f b).dev ∧
      (update f c x b).blockno = (f b).blockno := by
  by_cases hc : b = c
  · subst hc
    simp [hd, hb]
  · simp [hc]

omit [Fintype P] in
theorem Order.stays (ho : Order s l) (hst : Step dev s a t) (hb : 0 < (s.buf b).refcnt) :
    (t.buf b).dev = (s.buf b).dev ∧ (t.buf b).blockno = (s.buf b).blockno := by
  cases hst with
  | recycle hp hn hc =>
    rename_i p k c
    have hne : b ≠ c := by
      rintro rfl
      have := (ho.unused_some hc).1
      omega
    simp [goto, setBuf, hne]
  | fillValid => exact ⟨rfl, rfl⟩
  | bwrite => exact ⟨rfl, rfl⟩
  | _ => apply update_block <;> rfl

theorem bcache_transparent (hdev : dev ≠ 0) {zero : α} {disk : Nat → α} {acts : List (BioAct N P α)}
    (hrun : Run.exec (step dev) (boot N P zero disk) acts = some s)
    (hdisc : Run.Along (step dev) Disciplined (boot N P zero disk) acts) : Transparent dev s := by
  have hinv : CacheInv dev s ∧ ∃ l, Order s l := by
    refine Run.exec_invariant (I := fun s => CacheInv dev s ∧ ∃ l, Order s l) ?_ hrun hdisc
      ⟨cacheInv_boot hdev zero disk, _, order_boot zero disk⟩
    rintro s a t ⟨hs, l, ho⟩ hg h
    exact ⟨hs.step ho (step_cases h) hg, ho.step (step_cases h)⟩
  obtain ⟨hs, l, ho⟩ := hinv
  have hown : ∀ b, (s.buf b).valid = true ∨ 0 < (s.buf b).refcnt → (s.buf b).dev = dev := by
    rintro b (hv | hr)
    · exact (hs.buf b).dev_eq_of_valid hv
    · exact (hs.buf b).dev_eq hr
  refine ⟨⟨l, ho.ring, ho.all⟩, fun b c hbc hb hc heq => ?_, fun b => ?_, ⟨fun p b hp => ?_,
    fun b hb => ?_⟩, fun a t h b hb => ho.stays (step_cases h) hb, fun p b k t hp h => ?_,
    fun p b k t hn h hpos => ?_⟩
  · exact hbc (hs.unique b c (hown b hb) (hown c hc) (congrArg Prod.snd heq))
  · rw [(hs.buf b).refs, users_eq, holders, waiters]
    omega
  · exact (hs.buf b).refcnt_pos_of_uses (p := p) (by simp [hp, BufPos.uses])
  · have := (hs.buf b).refs
    omega
  · have ht := hs.step ho (step_cases h) trivial
    have hold := hs.pos p
    rw [hp] at hold
    have hposb : 0 < (s.buf b).refcnt := (hs.buf b).refcnt_pos_of_lock hold.2.2
    obtain ⟨hd, hk⟩ := ho.stays (step_cases h) hposb
    rw [hold.1] at hd
    rw [hold.2.1] at hk
    have hout : t.pos p = .out ∧ (t.buf b).lock = some p := by
      simp only [step, hp, fill, Option.some.injEq] at h
      subst h
      split <;> simp [goto, setBuf, hold.2.2]
    exact ⟨hd, hk, hout.2, hk ▸ (ht.buf b).data (ht.valid_of_held hout.1 hout.2)⟩
  · cases step_cases h with
    | hit _ hc => exact absurd (ho.cached_some hc) (hn _)
    | recycle _ _ hc =>
      obtain rfl : _ = b := by simpa [goto] using hpos
      exact ho.unused_some hc

/-- With two buffers, process `false` changes block 5 from 50 to 51, pins it and releases it; process
`true` reads block 6, which takes the other buffer, and releases it, and then reads block 5. -/
def pinRun : List (BioAct 2 Bool Nat) :=
  [.bread false 5, .acquiresleep false, .fill false, .modify false 0 51, .bpin false 0, .brelse false 0,
    .drop false, .bread true 6, .acquiresleep true, .fill true, .brelse true 1, .drop true,
    .bread true 5, .acquiresleep true, .fill true]

theorem bcache_transparent_pinRun :
    ∃ s, Run.exec (step 1) (boot 2 Bool 0 (· * 10)) pinRun = some s ∧
      (s.buf 0).data = 51 ∧ s.disk 5 = 50 ∧ Transparent 1 s := by
  have hrun : (Run.exec (step 1) (boot 2 Bool 0 (· * 10)) pinRun).map
      (fun s => ((s.buf 0).data, s.disk 5)) = some (51, 50) := by decide +kernel
  obtain ⟨s, hs, hobs⟩ := Option.map_eq_some_iff.mp hrun
  obtain ⟨hdata, hdisk⟩ := Prod.mk.inj hobs
  exact ⟨s, hs, hdata, hdisk, bcache_transparent (by decide) hs (by decide +kernel)⟩

end Bcache

end Xv6

import Xv6.File.Shared
import Xv6.Lib.Tiles

/-!
# Shared descriptors append

`f->off` is read and moved on with the inode locked. So the chunks of all calls lie end to end in the file,
in the order in which they moved the offset, and those of one call are in order; and when there is space and
the buffers are mapped, every call returns its length.
-/

namespace Xv6

open Function

namespace WritePos

def locked : WritePos → Bool
  | writei .. | copy .. | update .. | load .. | store .. | iunlock .. => true
  | _ => false

/-- The call, and how many of its bytes have moved the offset. -/
def reach : WritePos → Option (WriteCall × Nat)
  | out => none
  | loop c i | beginOp c i _ | ilock c i _ | writei c i _ | copy c i _ _ _ | update c i _ _ _
  | load c i _ _ _ | store c i _ _ _ _ => some (c, i)
  | iunlock c i _ r | endOp c i _ r => some (c, i + r.getD 0)
  | ret c done _ => some (c, done)

/-- A chunk that `writei` is called for ends below the largest size of a file. -/
def Fits (off : Nat) : WritePos → Prop
  | writei _ _ n1 => off + n1 ≤ MAXFILE * BSIZE
  | _ => True

instance (off : Nat) : ∀ x, Decidable (Fits off x)
  | writei _ _ n1 => inferInstanceAs (Decidable (off + n1 ≤ MAXFILE * BSIZE))
  | out | loop .. | beginOp .. | ilock .. | copy .. | update .. | load .. | store .. | iunlock .. | endOp ..
  | ret .. => inferInstanceAs (Decidable True)

end WritePos

namespace SharedFile

variable {P : Type} [DecidableEq P] {s t : SharedFile P} {p : P} {full : Bool} {a b : WritePos}

/-- The steps that change the position of the process only. -/
inductive Moves (s : SharedFile P) (full : Bool) : WritePos → WritePos → Prop
  | chunk {c : WriteCall} {i : Nat} (h : (i : Int) < c.n) :
    Moves s full (.loop c i) (.beginOp c i (min (c.n - i).toNat Sys.writeMax))
  | done {c : WriteCall} {i : Nat} (h : ¬ (i : Int) < c.n) :
    Moves s full (.loop c i) (.ret c i (if (i : Int) = c.n then c.n else -1))
  | began {c : WriteCall} {i n1 : Nat} : Moves s full (.beginOp c i n1) (.ilock c i n1)
  | refused {c : WriteCall} {i n1 : Nat}
      (h : s.size < s.off ∨ (s.off + n1) % 2 ^ 32 < s.off ∨ MAXFILE * BSIZE < s.off + n1) :
    Moves s full (.writei c i n1) (.iunlock c i n1 none)
  | entered {c : WriteCall} {i n1 : Nat} : Moves s full (.writei c i n1) (.copy c i n1 s.off 0)
  | stopped {c : WriteCall} {i n1 start tot : Nat} (h : ¬ (tot < n1 ∧ full = false)) :
    Moves s full (.copy c i n1 start tot) (.update c i n1 start tot)
  | loaded {c : WriteCall} {i n1 start r : Nat} : Moves s full (.load c i n1 start r) (.store c i n1 start r s.off)
  | nothing {c : WriteCall} {i n1 start r : Nat} (h : ¬ 0 < r) :
    Moves s full (.load c i n1 start r) (.iunlock c i n1 (some r))
  | again {c : WriteCall} {i n1 : Nat} : Moves s full (.endOp c i n1 (some n1)) (.loop c (i + n1))
  | short {c : WriteCall} {i n1 : Nat} {r : Option Nat} (h : r ≠ some n1) :
    Moves s full (.endOp c i n1 r) (.ret c (i + r.getD 0) (if (i : Int) = c.n then c.n else -1))

/-- What a step of `p` can do. -/
inductive Acts (s : SharedFile P) (p : P) (full : Bool) : SharedFile P → Prop
  | move {x y : WritePos} (ha : s.pos p = x) (h : Moves s full x y) : Acts s p full (s.goto p y)
  | lock {c : WriteCall} {i n1 : Nat} (ha : s.pos p = .ilock c i n1) (h : s.holder = none) :
    Acts s p full (goto { s with holder := some p } p (.writei c i n1))
  | copy {c : WriteCall} {i n1 start tot m : Nat} (ha : s.pos p = .copy c i n1 start tot) (hm : tot + m ≤ n1)
      (h : ∀ j < m, (c.src (i + tot + j)).isSome) :
    Acts s p full (goto { s with
      data := copyin s.data (fun j => c.src (i + tot + j)) (start + tot) m } p (.copy c i n1 start (tot + m)))
  | fault {c : WriteCall} {i n1 start tot m : Nat} (ha : s.pos p = .copy c i n1 start tot) (hm : tot + m ≤ n1)
      (h : ¬ ∀ j < m, (c.src (i + tot + j)).isSome) :
    Acts s p full (goto { s with
      data := copyin s.data (fun j => c.src (i + tot + j)) (start + tot) m } p (.update c i n1 start tot))
  | size {c : WriteCall} {i n1 start tot : Nat} (ha : s.pos p = .update c i n1 start tot) :
    Acts s p full (goto { s with size := max s.size (start + tot) } p (.load c i n1 start tot))
  | store {c : WriteCall} {i n1 start r v : Nat} (ha : s.pos p = .store c i n1 start r v) :
    Acts s p full (goto { s with
      off := v + r
      chunks := s.chunks ++ [⟨c, i, start, r⟩] } p (.iunlock c i n1 (some r)))
  | unlock {c : WriteCall} {i n1 : Nat} {r : Option Nat} (ha : s.pos p = .iunlock c i n1 r) :
    Acts s p full (goto { s with holder := none } p (.endOp c i n1 r))
  | ret {c : WriteCall} {done : Nat} {r : Int} (ha : s.pos p = .ret c done r) :
    Acts s p full (goto { s with returned := (c, r) :: s.returned } p .out)

theorem acts_of_act (h : s.act p full = some t) : Acts s p full t := by
  unfold act at h
  split at h
  case h_1 => cases h
  case h_2 ha =>
    split at h <;> cases h
    exacts [.move ha (.chunk ‹_›), .move ha (.done ‹_›)]
  case h_3 ha =>
    cases h
    exact .move ha .began
  case h_4 ha =>
    split at h <;> cases h
    exact .lock ha ‹_›
  case h_5 ha =>
    split at h <;> cases h
    exacts [.move ha (.refused ‹_›), .move ha .entered]
  case h_6 c i n1 start tot ha =>
    cases h
    unfold copyBlock
    split
    case isTrue =>
      dsimp only
      split
      case isTrue hall => exact .copy ha (by omega) hall
      case isFalse hall => exact .fault ha (by omega) hall
    case isFalse hgo => exact .move ha (.stopped hgo)
  case h_7 ha =>
    cases h
    exact .size ha
  case h_8 ha =>
    split at h <;> cases h
    exacts [.move ha .loaded, .move ha (.nothing ‹_›)]
  case h_9 ha =>
    cases h
    exact .store ha
  case h_10 ha =>
    cases h
    exact .unlock ha
  case h_11 ha =>
    split at h
    case isTrue hr =>
      subst hr
      cases h
      exact .move ha .again
    case isFalse hr =>
      cases h
      exact .move ha (.short hr)
  case h_12 ha =>
    cases h
    exact .ret ha

theorem pos_goto_self : (s.goto p b).pos p = b := update_self ..

theorem pos_goto_of_ne {q : P} (h : q ≠ p) : (s.goto p b).pos q = s.pos q := update_of_ne h ..

omit [DecidableEq P] in
theorem Moves.locked_eq (h : Moves s full a b) : b.locked = a.locked := by
  cases h <;> rfl

omit [DecidableEq P] in
theorem Moves.reach_eq (h : Moves s full a b) :
    ∃ c k, a.reach = some (c, k) ∧ b.reach = some (c, k) := by
  cases h with
  | nothing hr =>
    obtain rfl := Nat.eq_zero_of_not_pos hr
    exact ⟨_, _, rfl, rfl⟩
  | _ => exact ⟨_, _, rfl, rfl⟩

/-! ## The chunks in the file -/

/-- The first `m` bytes from `i` on of the call `c` are in the file, at `start`. -/
def Copied (s : SharedFile P) (c : WriteCall) (i start m : Nat) : Prop :=
  ∀ j < m, c.src (i + j) = some (s.data (start + j))

/-- What a process knows between `ilock` and `iunlock`. -/
def Held (s : SharedFile P) : WritePos → Prop
  | .copy c i _ start tot | .update c i _ start tot => start = s.off ∧ s.Copied c i start tot
  | .load c i _ start r => start = s.off ∧ start + r ≤ s.size ∧ s.Copied c i start r
  | .store c i _ start r v => v = start ∧ start = s.off ∧ start + r ≤ s.size ∧ s.Copied c i start r
  | _ => True

section

omit [DecidableEq P]

theorem held_of_not_locked (h : a.locked = false) : Held s a := by
  cases a <;> trivial

theorem held_congr (hoff : t.off = s.off) (hsize : t.size = s.size) (hdata : t.data = s.data) (x : WritePos) :
    Held t x ↔ Held s x := by
  cases x <;> simp only [Held, Copied, hoff, hsize, hdata]

theorem Moves.held (h : Moves s full a b) (ha : Held s a) : Held s b := by
  cases h with
  | entered => exact ⟨rfl, fun j hj => absurd hj (Nat.not_lt_zero j)⟩
  | stopped => exact ha
  | loaded => exact ⟨ha.1.symm, ha⟩
  | _ => trivial

end

/-- The chunks lie end to end, from the first offset to `f->off`, and their bytes are in the file. -/
structure Layout (off₀ : Nat) (s : SharedFile P) : Prop where
  excl : ∀ q, (s.pos q).locked = true → s.holder = some q
  tiles : Tiles WriteChunk.off WriteChunk.len off₀ s.chunks s.off
  size : s.off ≤ s.size
  written : ∀ x ∈ s.chunks, s.Copied x.call x.pos x.off x.len
  held : ∀ q, Held s (s.pos q)

theorem copyin_of_lt {data : Nat → UInt8} {src : Nat → Option UInt8} {off m o : Nat} (h : o < off) :
    copyin data src off m o = data o := if_neg (by omega)

theorem copyin_of_mem {data : Nat → UInt8} {src : Nat → Option UInt8} {off m j : Nat}
    (hall : ∀ j < m, (src j).isSome) (h : j < m) : src j = some (copyin data src off m (off + j)) := by
  rw [copyin, if_pos (by omega), Nat.add_sub_cancel_left, Block.upTo_of_isSome hall h]
  obtain ⟨x, hx⟩ := Option.isSome_iff_exists.mp (hall j h)
  rw [hx]
  rfl

omit [DecidableEq P] in
theorem Copied.copyin {c : WriteCall} {i start m o n : Nat} {src : Nat → Option UInt8}
    (h : s.Copied c i start m) (hle : start + m ≤ o) :
    Copied { s with data := copyin s.data src o n } c i start m :=
  fun j hj => (h j hj).trans (congrArg some (copyin_of_lt (by omega)).symm)

namespace Layout

variable {off₀ : Nat}

omit [DecidableEq P] in
theorem opened {off size : Nat} {data : Nat → UInt8} (h : off ≤ size) :
    Layout off (opened off size data : SharedFile P) where
  excl _ hq := Bool.noConfusion hq
  tiles := .nil
  size := h
  written _ hx := absurd hx List.not_mem_nil
  held _ := trivial

omit [DecidableEq P] in
theorem not_locked (h : Layout off₀ s) (hp : (s.pos p).locked = true) {q : P} (hq : q ≠ p) :
    (s.pos q).locked = false := by
  rw [← Bool.not_eq_true]
  intro hl
  exact hq (Option.some.inj ((h.excl q hl).symm.trans (h.excl p hp)))

/-- The process `p`, in the locked part, goes on to another position there, and `t` differs from `s` in
what only the holder of the lock may change. -/
theorem of_holder (h : Layout off₀ s) (hp : (s.pos p).locked = true)
    (hpos : t.pos = update s.pos p b) (hholder : t.holder = s.holder)
    (htiles : Tiles WriteChunk.off WriteChunk.len off₀ t.chunks t.off) (hsize : t.off ≤ t.size)
    (hwritten : ∀ x ∈ t.chunks, t.Copied x.call x.pos x.off x.len) (hheld : Held t b) : Layout off₀ t where
  excl := by
    rw [hpos, hholder, forall_update_iff s.pos fun q x => x.locked = true → s.holder = some q]
    exact ⟨fun _ => h.excl p hp, fun q _ => h.excl q⟩
  tiles := htiles
  size := hsize
  written := hwritten
  held := by
    rw [hpos, forall_update_iff s.pos fun _ => Held t]
    exact ⟨hheld, fun q hq => held_of_not_locked (h.not_locked hp hq)⟩

theorem of_eq (h : Layout off₀ s) (hpos : t.pos = update s.pos p b)
    (hp : b.locked = true → t.holder = some p)
    (hexcl : ∀ q, q ≠ p → (s.pos q).locked = true → t.holder = some q) (hoff : t.off = s.off)
    (hsize : t.size = s.size) (hdata : t.data = s.data) (hchunks : t.chunks = s.chunks)
    (hheld : Held s b) : Layout off₀ t where
  excl := by
    rw [hpos, forall_update_iff s.pos fun q x => x.locked = true → t.holder = some q]
    exact ⟨hp, hexcl⟩
  tiles := by
    rw [hchunks, hoff]
    exact h.tiles
  size := by
    rw [hoff, hsize]
    exact h.size
  written := by
    rw [hchunks]
    unfold Copied
    rw [hdata]
    exact h.written
  held := by
    simp only [held_congr hoff hsize hdata]
    rw [hpos, forall_update_iff s.pos fun _ => Held s]
    exact ⟨hheld, fun q _ => h.held q⟩

theorem acts (h : Layout off₀ s) (hstep : Acts s p full t) : Layout off₀ t := by
  have hheldp := h.held p
  cases hstep with
  | move ha hm =>
    rw [ha] at hheldp
    refine h.of_eq rfl (fun hl => h.excl p ?_) (fun q _ => h.excl q) rfl rfl rfl rfl (hm.held hheldp)
    rw [ha, ← hm.locked_eq, hl]
  | lock ha hfree =>
    exact h.of_eq rfl (fun _ => rfl) (fun q _ hq => absurd ((h.excl q hq).symm.trans hfree) nofun)
      rfl rfl rfl rfl trivial
  | @copy c i n1 start tot m ha _ hall =>
    rw [ha] at hheldp
    obtain ⟨rfl, hcopied⟩ := hheldp
    refine h.of_holder (by rw [ha]; rfl) rfl rfl h.tiles h.size
      (fun x hx => (h.written x hx).copyin ?_) ⟨rfl, fun j hj => ?_⟩
    · exact (h.tiles.end_le hx).trans (Nat.le_add_right _ _)
    · by_cases hlt : j < tot
      · exact hcopied.copyin le_rfl j hlt
      · obtain ⟨k, rfl⟩ := Nat.exists_eq_add_of_le (Nat.le_of_not_lt hlt)
        rw [← Nat.add_assoc, ← Nat.add_assoc]
        exact copyin_of_mem hall (by omega)
  | @fault c i n1 start tot m ha _ _ =>
    rw [ha] at hheldp
    obtain ⟨rfl, hcopied⟩ := hheldp
    refine h.of_holder (by rw [ha]; rfl) rfl rfl h.tiles h.size
      (fun x hx => (h.written x hx).copyin ?_) ⟨rfl, hcopied.copyin le_rfl⟩
    exact (h.tiles.end_le hx).trans (Nat.le_add_right _ _)
  | @size c i n1 start tot ha =>
    rw [ha] at hheldp
    obtain ⟨hstart, hcopied⟩ := hheldp
    exact h.of_holder (by rw [ha]; rfl) rfl rfl h.tiles
      (h.size.trans (Nat.le_max_left _ _)) h.written ⟨hstart, Nat.le_max_right _ _, hcopied⟩
  | @store c i n1 start r v ha =>
    rw [ha] at hheldp
    obtain ⟨rfl, rfl, hsize, hcopied⟩ := hheldp
    refine h.of_holder (by rw [ha]; rfl) rfl rfl (h.tiles.concat rfl) hsize
      (fun x hx => ?_) trivial
    rcases List.mem_append.mp hx with hx | hx
    · exact h.written x hx
    · rw [List.mem_singleton.mp hx]
      exact hcopied
  | unlock ha =>
    refine h.of_eq rfl nofun (fun q hq hl => ?_) rfl rfl rfl rfl trivial
    rw [h.not_locked (by rw [ha]; rfl) hq] at hl
    cases hl
  | ret ha => exact h.of_eq rfl nofun (fun q _ => h.excl q) rfl rfl rfl rfl trivial

end Layout

/-! ## The chunks of one call -/

def chunksOf (s : SharedFile P) (id : Nat) : List WriteChunk := s.chunks.filter fun x => x.call.id = id

/-- The chunks of the call `id` are its first `k` bytes, in order. -/
def Part (s : SharedFile P) (id k : Nat) : Prop :=
  Tiles WriteChunk.pos WriteChunk.len 0 (s.chunksOf id) k

/-- The chunks of each call are its bytes so far. -/
structure Calls (s : SharedFile P) : Prop where
  progress : ∀ q c k, (s.pos q).reach = some (c, k) → c.id < s.calls ∧ s.Part c.id k
  distinct : ∀ q q' c c' k k', (s.pos q).reach = some (c, k) → (s.pos q').reach = some (c', k') →
    c.id = c'.id → q = q'
  parts : ∀ id, ∃ k, s.Part id k
  fresh : ∀ x ∈ s.chunks, x.call.id < s.calls
  gone : ∀ x ∈ s.returned, x.1.id < s.calls ∧ ∀ q c k, (s.pos q).reach = some (c, k) → c.id ≠ x.1.id
  owned : ∀ x ∈ s.chunks,
    (∃ q c k, (s.pos q).reach = some (c, k) ∧ c.id = x.call.id) ∨ x.call.id ∈ s.returned.map (·.1.id)
  nodup : (s.returned.map (·.1.id)).Nodup

/-- A step of `p`, which is in the call `c`, leaves the calls as they are, or a chunk moves the offset, or
the call returns. -/
inductive CallStep (s : SharedFile P) (p : P) (t : SharedFile P) : Prop where
  | same {c : WriteCall} {k : Nat} (hp : (s.pos p).reach = some (c, k)) (hp' : (t.pos p).reach = some (c, k))
      (hchunks : t.chunks = s.chunks) (hret : t.returned = s.returned)
  | chunk (x : WriteChunk) (hp : (s.pos p).reach = some (x.call, x.pos))
      (hp' : (t.pos p).reach = some (x.call, x.pos + x.len)) (hchunks : t.chunks = s.chunks ++ [x])
      (hret : t.returned = s.returned)
  | ret (c : WriteCall) (done : Nat) (r : Int) (hp : s.pos p = .ret c done r) (hp' : (t.pos p).reach = none)
      (hchunks : t.chunks = s.chunks) (hret : t.returned = (c, r) :: s.returned)

theorem Acts.frame (h : Acts s p full t) : t.calls = s.calls ∧ ∀ q, q ≠ p → t.pos q = s.pos q := by
  cases h <;> exact ⟨rfl, fun q hq => update_of_ne hq ..⟩

theorem Acts.callStep (h : Acts s p full t) : CallStep s p t := by
  cases h with
  | move ha hm =>
    obtain ⟨c, k, hx, hy⟩ := hm.reach_eq
    exact .same (by rw [ha, hx]) (by rw [pos_goto_self, hy]) rfl rfl
  | @store c i n1 start r v ha =>
    exact .chunk ⟨c, i, start, r⟩ (by rw [ha]; rfl) (by rw [pos_goto_self]; rfl) rfl rfl
  | ret ha => exact .ret _ _ _ ha (by rw [pos_goto_self]; rfl) rfl rfl
  | lock ha | copy ha | fault ha | size ha | unlock ha =>
    exact .same (by rw [ha]; rfl) (by rw [pos_goto_self]; rfl) rfl rfl

section

omit [DecidableEq P]

theorem part_concat {x : WriteChunk} (hchunks : t.chunks = s.chunks ++ [x]) (h : s.Part x.call.id x.pos) :
    t.Part x.call.id (x.pos + x.len) := by
  have hof : t.chunksOf x.call.id = s.chunksOf x.call.id ++ [x] := by
    rw [chunksOf, hchunks, List.filter_append, List.filter_singleton, decide_eq_true rfl]
    rfl
  rw [Part, hof]
  exact Tiles.concat h rfl

theorem chunksOf_other {x : WriteChunk} {id : Nat} (hchunks : t.chunks = s.chunks ++ [x])
    (hid : id ≠ x.call.id) : t.chunksOf id = s.chunksOf id := by
  rw [chunksOf, hchunks, List.filter_append, List.filter_singleton, decide_eq_false hid.symm]
  exact List.append_nil _

theorem part_same {id k : Nat} (hchunks : t.chunks = s.chunks) (h : s.Part id k) : t.Part id k := by
  rw [Part, chunksOf, hchunks]
  exact h

end

namespace Calls

omit [DecidableEq P] in
theorem opened {off size : Nat} {data : Nat → UInt8} : Calls (opened off size data : SharedFile P) where
  progress _ _ _ hq := nomatch hq
  distinct _ _ _ _ _ _ hq := nomatch hq
  parts _ := ⟨0, .nil⟩
  fresh _ hx := absurd hx List.not_mem_nil
  gone _ hx := absurd hx List.not_mem_nil
  owned _ hx := absurd hx List.not_mem_nil
  nodup := .nil

/-- The process `p` works on the call `id`, which is no other's and has not returned yet. -/
theorem change {id k : Nat} (h : Calls s) (hpos : ∀ q, q ≠ p → t.pos q = s.pos q)
    (hs : ∀ c k, (s.pos p).reach = some (c, k) → c.id = id)
    (hother : ∀ q c k, (s.pos q).reach = some (c, k) → c.id = id → q = p)
    (hnew : id ∉ s.returned.map (·.1.id)) (hcalls : s.calls ≤ t.calls) (hid : id < t.calls)
    (hof : ∀ i, i ≠ id → t.chunksOf i = s.chunksOf i) (hpart : t.Part id k)
    (ht : (∃ c, (t.pos p).reach = some (c, k) ∧ c.id = id) ∧ t.returned = s.returned ∨
      (t.pos p).reach = none ∧ ∃ x, x.1.id = id ∧ t.returned = x :: s.returned) : Calls t := by
  have hreach : ∀ q c j, (t.pos q).reach = some (c, j) →
      q = p ∧ c.id = id ∧ j = k ∧ t.returned = s.returned ∨
        q ≠ p ∧ (s.pos q).reach = some (c, j) ∧ c.id ≠ id := by
    intro q c j hq
    by_cases hqp : q = p
    · subst hqp
      rcases ht with ⟨⟨c', hc', hid'⟩, hret⟩ | ⟨hnone, -⟩
      · rw [hc'] at hq
        cases hq
        exact .inl ⟨rfl, hid', rfl, hret⟩
      · rw [hnone] at hq
        cases hq
    · rw [hpos q hqp] at hq
      exact .inr ⟨hqp, hq, fun hc => hqp (hother q c j hq hc)⟩
  have hold : ∀ x ∈ t.chunks, x.call.id ≠ id → x ∈ s.chunks := fun x hx hne => by
    have hmem : x ∈ t.chunksOf x.call.id := by simp [chunksOf, hx]
    rw [hof _ hne] at hmem
    exact List.mem_of_mem_filter hmem
  have hret : ∀ x ∈ t.returned, x ∈ s.returned ∨ x.1.id = id ∧ (t.pos p).reach = none := by
    rcases ht with ⟨-, hret⟩ | ⟨hnone, x, hx, hret⟩ <;> rw [hret]
    · exact fun x => .inl
    · exact List.forall_mem_cons.mpr ⟨.inr ⟨hx, hnone⟩, fun x => .inl⟩
  refine ⟨fun q c j hq => ?_, fun q q' c c' j j' hq hq' heq => ?_, fun i => ?_, fun x hx => ?_,
    fun x hx => ?_, fun x hx => ?_, ?_⟩
  · rcases hreach q c j hq with ⟨-, rfl, rfl, -⟩ | ⟨-, hq, hne⟩
    · exact ⟨hid, hpart⟩
    · have hprog := h.progress q c j hq
      refine ⟨hprog.1.trans_le hcalls, ?_⟩
      rw [Part, hof _ hne]
      exact hprog.2
  · rcases hreach q c j hq with ⟨rfl, hc, -⟩ | ⟨-, hq, hne⟩ <;>
      rcases hreach q' c' j' hq' with ⟨rfl, hc', -⟩ | ⟨-, hq', hne'⟩
    · rfl
    · exact absurd (heq.symm.trans hc) hne'
    · exact absurd (heq.trans hc') hne
    · exact h.distinct q q' c c' j j' hq hq' heq
  · by_cases hi : i = id
    · exact ⟨k, hi ▸ hpart⟩
    · simp only [Part, hof i hi]
      exact h.parts i
  · by_cases hx' : x.call.id = id
    · exact hx' ▸ hid
    · exact (h.fresh x (hold x hx hx')).trans_le hcalls
  · rcases hret x hx with hx | ⟨hx, hnone⟩
    · refine ⟨(h.gone x hx).1.trans_le hcalls, fun q c j hq => ?_⟩
      rcases hreach q c j hq with ⟨-, hc, -⟩ | ⟨-, hq, -⟩
      · exact fun heq => hnew (List.mem_map.mpr ⟨x, hx, heq.symm.trans hc⟩)
      · exact (h.gone x hx).2 q c j hq
    · refine ⟨hx ▸ hid, fun q c j hq => ?_⟩
      rcases hreach q c j hq with ⟨rfl, -⟩ | ⟨-, -, hne⟩
      · rw [hnone] at hq
        cases hq
      · exact fun heq => hne (heq.trans hx)
  · by_cases hx' : x.call.id = id
    · rcases ht with ⟨⟨c, hc, hcid⟩, -⟩ | ⟨-, y, hy, hret⟩
      · exact .inl ⟨p, c, k, hc, hcid.trans hx'.symm⟩
      · exact .inr (by simp [hret, hy, hx'])
    · rcases h.owned x (hold x hx hx') with ⟨q, c, j, hq, hc⟩ | hr
      · refine .inl ⟨q, c, j, ?_, hc⟩
        rwa [hpos q]
        rintro rfl
        exact hx' (hc.symm.trans (hs c j hq))
      · right
        rcases ht with ⟨-, hret⟩ | ⟨-, y, -, hret⟩ <;> rw [hret]
        · exact hr
        · exact List.mem_cons_of_mem _ hr
  · rcases ht with ⟨-, hx⟩ | ⟨-, x, rfl, hx⟩ <;> rw [hx]
    · exact h.nodup
    · exact List.nodup_cons.mpr ⟨hnew, h.nodup⟩

theorem step (h : Calls s) (hf : t.calls = s.calls ∧ ∀ q, q ≠ p → t.pos q = s.pos q)
    (hs : CallStep s p t) : Calls t := by
  have hcall : ∃ c k, (s.pos p).reach = some (c, k) := by
    cases hs with
    | same hp | chunk _ hp => exact ⟨_, _, hp⟩
    | ret _ _ _ hp => exact ⟨_, _, by rw [hp]; rfl⟩
  obtain ⟨c, k, hp⟩ := hcall
  have hc := h.progress p c k hp
  have hnew : c.id ∉ s.returned.map (·.1.id) := fun hmem => by
    obtain ⟨x, hx, heq⟩ := List.mem_map.mp hmem
    exact (h.gone x hx).2 p c k hp heq.symm
  have change := fun k' => h.change (k := k') hf.2 (fun c' k' hp' => by rw [hp] at hp'; cases hp'; rfl)
    (fun q c' k' hq heq => h.distinct q p c' c k' k hq hp heq) hnew hf.1.ge (hf.1 ▸ hc.1)
  cases hs with
  | same hp₁ hp' hchunks hret =>
    rw [hp₁] at hp
    cases hp
    exact change k (fun i _ => by rw [chunksOf, hchunks]; rfl) (part_same hchunks hc.2) (.inl ⟨⟨c, hp', rfl⟩, hret⟩)
  | chunk x hp₁ hp' hchunks hret =>
    rw [hp₁] at hp
    cases hp
    exact change _ (fun i => chunksOf_other hchunks) (part_concat hchunks hc.2) (.inl ⟨⟨_, hp', rfl⟩, hret⟩)
  | ret c₀ done r hp₁ hp' hchunks hret =>
    rw [hp₁] at hp
    cases hp
    exact change _ (fun i _ => by rw [chunksOf, hchunks]; rfl) (part_same hchunks hc.2)
      (.inr ⟨hp', (c, r), rfl, hret⟩)

theorem call (h : Calls s) (hp : s.pos p = .out) (src : Nat → Option UInt8) (n : Int) :
    Calls (goto { s with calls := s.calls + 1 } p (.loop ⟨s.calls, src, n⟩ 0)) := by
  have hempty : s.chunksOf s.calls = [] := by
    refine List.filter_eq_nil_iff.mpr fun x hx => ?_
    simpa using Nat.ne_of_lt (h.fresh x hx)
  refine @change _ _ _ _ p s.calls 0 h (fun q hq => pos_goto_of_ne hq) (by simp [hp, WritePos.reach])
    (fun q c k hq hc => ?_) (fun hmem => ?_) (Nat.le_succ _) (Nat.lt_succ_self _) (fun _ _ => rfl) ?_
    (.inl ⟨⟨_, by rw [pos_goto_self]; rfl, rfl⟩, rfl⟩)
  · exact absurd hc (Nat.ne_of_lt (h.progress q c k hq).1)
  · obtain ⟨x, hx, heq⟩ := List.mem_map.mp hmem
    exact Nat.ne_of_lt (h.gone x hx).1 heq
  · show Tiles _ _ 0 (s.chunksOf s.calls) 0
    rw [hempty]
    exact .nil

end Calls

/-! ## The results of the calls -/

def Mapped (c : WriteCall) : Prop := 0 ≤ c.n ∧ ∀ j : Nat, (j : Int) < c.n → (c.src j).isSome

def LenOk : WritePos → Prop
  | .out => True
  | .loop c i => Mapped c ∧ (i : Int) ≤ c.n
  | .beginOp c i n1 | .ilock c i n1 | .writei c i n1 => Mapped c ∧ (i + n1 : Int) ≤ c.n
  | .copy c i n1 _ tot => Mapped c ∧ (i + n1 : Int) ≤ c.n ∧ tot ≤ n1
  | .update c i n1 _ r | .load c i n1 _ r | .store c i n1 _ r _ => Mapped c ∧ (i + n1 : Int) ≤ c.n ∧ r = n1
  | .iunlock c i n1 r | .endOp c i n1 r => Mapped c ∧ (i + n1 : Int) ≤ c.n ∧ r = some n1
  | .ret c done r => (done : Int) = c.n ∧ r = c.n

/-- There is space on the disk, and the buffers are mapped. -/
def Roomy (_ : SharedFile P) : WriteAct P → Prop
  | .call _ src n => 0 ≤ n ∧ ∀ j : Nat, (j : Int) < n → (src j).isSome
  | .step _ full => full = false

def Below (s : SharedFile P) : WriteAct P → Prop
  | .call _ _ _ => True
  | .step p _ => (s.pos p).Fits s.off

/-- Every call returns its length, and its chunks are all of its bytes. -/
structure Lengths (s : SharedFile P) : Prop where
  going : ∀ q, LenOk (s.pos q)
  done : ∀ x ∈ s.returned, x.2 = x.1.n ∧ s.Part x.1.id x.1.n.toNat

omit [DecidableEq P] in
theorem Moves.lenOk {off₀ : Nat} (h : Moves s false a b) (ha : LenOk a) (hl : Layout off₀ s)
    (hbelow : ∀ c i n1, a = .writei c i n1 → s.off + n1 ≤ MAXFILE * BSIZE) : LenOk b := by
  cases h with
  | chunk hlt =>
    refine ⟨ha.1, ?_⟩
    omega
  | done hge =>
    obtain ⟨hmapped, hle⟩ := ha
    have heq : _ = _ := Int.le_antisymm hle (Int.not_lt.mp hge)
    exact ⟨heq, if_pos heq⟩
  | began => exact ha
  | @refused c i n1 hbad =>
    have hsize := hl.size
    have hmax := hbelow c i n1 rfl
    have hbytes : MAXFILE * BSIZE < 2 ^ 32 := by decide
    omega
  | entered => exact ⟨ha.1, ha.2, Nat.zero_le _⟩
  | stopped hstop =>
    refine ⟨ha.1, ha.2.1, ?_⟩
    have hle := ha.2.2
    rw [eq_self, and_true] at hstop
    omega
  | loaded => exact ha
  | nothing hr => exact ⟨ha.1, ha.2.1, congrArg some ha.2.2⟩
  | again =>
    refine ⟨ha.1, ?_⟩
    have hle := ha.2.1
    omega
  | short hr => exact absurd ha.2.2 hr

omit [DecidableEq P] in
theorem Lengths.done_of_callStep (h : Lengths s) (hc : Calls s) (hs : CallStep s p t) :
    ∀ x ∈ t.returned, x.2 = x.1.n ∧ t.Part x.1.id x.1.n.toNat := by
  intro x hx
  cases hs with rw [hret] at hx
  | same _ _ hchunks hret => exact ⟨(h.done x hx).1, part_same hchunks (h.done x hx).2⟩
  | chunk y hp _ hchunks hret =>
    have hne := ((hc.gone x hx).2 p y.call y.pos hp).symm
    rw [Part, chunksOf_other hchunks hne]
    exact h.done x hx
  | ret c done r hp _ hchunks hret =>
    rcases List.mem_cons.mp hx with rfl | hx
    · have hlen := h.going p
      rw [hp] at hlen
      obtain ⟨hdone, hr⟩ := hlen
      have hpart := (hc.progress p c done (by rw [hp]; rfl)).2
      refine ⟨hr, part_same hchunks ?_⟩
      rw [show c.n.toNat = done by omega]
      exact hpart
    · exact ⟨(h.done x hx).1, part_same hchunks (h.done x hx).2⟩

theorem Lengths.acts {off₀ : Nat} (h : Lengths s) (hl : Layout off₀ s) (hc : Calls s) (hstep : Acts s p false t)
    (hbelow : ∀ c i n1, s.pos p = .writei c i n1 → s.off + n1 ≤ MAXFILE * BSIZE) : Lengths t := by
  refine ⟨fun q => ?_, h.done_of_callStep hc hstep.callStep⟩
  by_cases hq : q = p
  · subst hq
    have hlen := h.going q
    cases hstep with
    | move ha hm =>
      rw [ha] at hlen hbelow
      rw [pos_goto_self]
      exact hm.lenOk hlen hl hbelow
    | copy ha hm _ =>
      rw [ha] at hlen
      rw [pos_goto_self]
      exact ⟨hlen.1, hlen.2.1, hm⟩
    | fault ha hm hbad =>
      rw [ha] at hlen
      refine absurd (fun j hj => hlen.1.2 _ ?_) hbad
      have hle := hlen.2.1
      omega
    | store ha =>
      rw [ha] at hlen
      rw [pos_goto_self]
      exact ⟨hlen.1, hlen.2.1, congrArg some hlen.2.2⟩
    | ret ha =>
      rw [pos_goto_self]
      trivial
    | lock ha | size ha | unlock ha =>
      rw [ha] at hlen
      rwa [pos_goto_self]
  · rw [hstep.frame.2 q hq]
    exact h.going q

/-- The writers have not overwritten each other: the ranges of the chunks are disjoint, in order, and
together they are the bytes from the first offset to `f->off`; each holds the bytes of its call, and the
chunks of one call are in order. -/
structure Appended (off₀ : Nat) (s : SharedFile P) : Prop where
  disjoint : s.chunks.Pairwise fun x y => x.off + x.len ≤ y.off
  cover : ∀ o, (∃ x ∈ s.chunks, x.off ≤ o ∧ o < x.off + x.len) ↔ off₀ ≤ o ∧ o < s.off
  bytes : ∀ x ∈ s.chunks, ∀ j < x.len, x.call.src (x.pos + j) = some (s.data (x.off + j))
  inOrder : ∀ id, ∃ k, Tiles WriteChunk.pos WriteChunk.len 0 (s.chunksOf id) k
  total : s.off = off₀ + (s.chunks.map WriteChunk.len).sum

omit [DecidableEq P] in
theorem Layout.appended {off₀ : Nat} (h : Layout off₀ s) (hc : Calls s) : Appended off₀ s where
  disjoint := h.tiles.pairwise
  cover _ := h.tiles.mem_iff
  bytes := h.written
  inOrder := hc.parts
  total := h.tiles.sum_eq

omit [DecidableEq P] in
theorem off_eq_sum {off₀ : Nat} (h : Layout off₀ s) (hc : Calls s) (hl : Lengths s)
    (hout : ∀ q, s.pos q = .out) : s.off = off₀ + (s.returned.map fun x => x.1.n.toNat).sum := by
  have howned : ∀ x ∈ s.chunks, x.call.id ∈ s.returned.map (·.1.id) := fun x hx => by
    refine (hc.owned x hx).resolve_left ?_
    rintro ⟨q, c, k, hq, _⟩
    rw [hout q] at hq
    cases hq
  rw [h.tiles.sum_eq, Tiles.sum_by_key hc.nodup howned, List.map_map]
  congr 2
  refine List.map_congr_left fun x hx => ?_
  have hpart := (hl.done x hx).2
  rw [hpart.sum_eq, Nat.zero_add]
  rfl

theorem Layout.step {off₀ : Nat} {x : WriteAct P} (h : Layout off₀ s ∧ Calls s) (hs : step s x = some t) :
    Layout off₀ t ∧ Calls t := by
  cases x with
  | step q full =>
    have hact := acts_of_act hs
    exact ⟨h.1.acts hact, h.2.step hact.frame hact.callStep⟩
  | call q src n =>
    simp only [SharedFile.step] at hs
    split at hs
    next hout =>
      cases hs
      exact ⟨h.1.of_eq rfl nofun (fun r _ => h.1.excl r) rfl rfl rfl rfl trivial, h.2.call hout src n⟩
    next => cases hs

theorem Lengths.step {off₀ : Nat} {x : WriteAct P} (h : Lengths s) (hl : Layout off₀ s) (hc : Calls s)
    (hroomy : Roomy s x) (hbelow : Below s x) (hs : SharedFile.step s x = some t) : Lengths t := by
  cases x with
  | step q full =>
    obtain rfl : full = false := hroomy
    refine h.acts hl hc (acts_of_act hs) fun c i n1 hpos => ?_
    simp only [Below, hpos] at hbelow
    exact hbelow
  | call q src n =>
    simp only [SharedFile.step] at hs
    split at hs
    next hout =>
      cases hs
      refine ⟨?_, h.done⟩
      exact (forall_update_iff s.pos fun _ => LenOk).mpr ⟨⟨hroomy, hroomy.1⟩, fun q _ => h.going q⟩
    next => cases hs

/-! ## Every call comes to an end -/

/-- The call is under way or has returned. -/
def Known (s : SharedFile P) (c : WriteCall) : Prop :=
  (∃ q k, (s.pos q).reach = some (c, k)) ∨ c ∈ s.returned.map Prod.fst

theorem Known.mono {c : WriteCall} (h : Known t c) (hpos : ∀ q, q ≠ p → t.pos q = s.pos q)
    (hp : ∀ c k, (t.pos p).reach = some (c, k) → Known s c)
    (hret : ∀ c ∈ t.returned.map Prod.fst, Known s c) : Known s c := by
  rcases h with ⟨q, k, hq⟩ | h
  · by_cases hqp : q = p
    · subst hqp
      exact hp c k hq
    · rw [hpos q hqp] at hq
      exact .inl ⟨q, k, hq⟩
  · exact hret c h

theorem CallStep.known (h : CallStep s p t) (hpos : ∀ q, q ≠ p → t.pos q = s.pos q) (c : WriteCall) :
    Known t c ↔ Known s c := by
  have hback : ∀ q, q ≠ p → s.pos q = t.pos q := fun q hq => (hpos q hq).symm
  have hgoing : ∀ {c k k'}, (s.pos p).reach = some (c, k) → (t.pos p).reach = some (c, k') →
      t.returned = s.returned → ∀ c, Known t c ↔ Known s c := by
    intro c k k' hs ht hret c'
    refine ⟨fun h => h.mono hpos (fun x j hx => ?_) fun x hx => .inr (hret ▸ hx),
      fun h => h.mono hback (fun x j hx => ?_) fun x hx => .inr (hret.symm ▸ hx)⟩
    · rw [ht] at hx
      cases hx
      exact .inl ⟨p, k, hs⟩
    · rw [hs] at hx
      cases hx
      exact .inl ⟨p, k', ht⟩
  cases h with
  | same hp hp' _ hret | chunk x hp hp' _ hret => exact hgoing hp hp' hret c
  | ret c₀ done r hp hp' _ hret =>
    have hreach : (s.pos p).reach = some (c₀, done) := by rw [hp]; rfl
    refine ⟨fun h => h.mono hpos (fun x j hx => ?_) fun x hx => ?_,
      fun h => h.mono hback (fun x j hx => ?_) fun x hx => .inr ?_⟩
    · rw [hp'] at hx
      cases hx
    · rw [hret] at hx
      rcases List.mem_cons.mp hx with rfl | hx
      · exact .inl ⟨p, done, hreach⟩
      · exact .inr hx
    · rw [hreach] at hx
      cases hx
      exact .inr (by rw [hret]; exact List.mem_cons_self)
    · rw [hret]
      exact List.mem_cons_of_mem _ hx

/-- The calls of a run, numbered from `k` on. -/
def callsIn : Nat → List (WriteAct P) → List WriteCall
  | _, [] => []
  | k, .call _ src n :: as => ⟨k, src, n⟩ :: callsIn (k + 1) as
  | k, .step _ _ :: as => callsIn k as

theorem exec_known {as : List (WriteAct P)} (hrun : Run.exec step s as = some t) (c : WriteCall) :
    Known t c ↔ Known s c ∨ c ∈ callsIn s.calls as := by
  induction as generalizing s with
  | nil =>
    cases hrun
    exact (or_iff_left List.not_mem_nil).symm
  | cons a as ih =>
    obtain ⟨u, hu, ht⟩ := Run.exec_cons.mp hrun
    rw [ih ht]
    cases a with
    | step q full =>
      have hact := acts_of_act hu
      rw [hact.frame.1, hact.callStep.known hact.frame.2]
      rfl
    | call q src n =>
      simp only [SharedFile.step] at hu
      split at hu
      next hout =>
        cases hu
        rw [callsIn, List.mem_cons, ← or_assoc]
        refine or_congr_left ⟨fun h => ?_, fun h => ?_⟩
        · rcases h with ⟨r, k, hr⟩ | h
          · by_cases hrq : r = q
            · rw [hrq, pos_goto_self] at hr
              cases hr
              exact .inr rfl
            · rw [pos_goto_of_ne hrq] at hr
              exact .inl (.inl ⟨r, k, hr⟩)
          · exact .inl (.inr h)
        · rcases h with (⟨r, k, hr⟩ | h) | rfl
          · have hrq : r ≠ q := by
              rintro rfl
              rw [hout] at hr
              cases hr
            exact .inl ⟨r, k, by rwa [pos_goto_of_ne hrq]⟩
          · exact .inr h
          · exact .inl ⟨q, 0, by rw [pos_goto_self]; rfl⟩
      next => cases hu

/-- The holder of the inode is between `ilock` and `iunlock`. -/
def HolderIn (s : SharedFile P) : Prop := ∀ q, s.holder = some q → (s.pos q).locked = true

theorem HolderIn.acts (h : HolderIn s) (hs : Acts s p full t) : HolderIn t := by
  intro q hq
  by_cases hqp : q = p
  · subst hqp
    cases hs with
    | move ha hm =>
      rw [pos_goto_self, hm.locked_eq, ← ha]
      exact h q hq
    | ret ha =>
      have := h q hq
      rw [ha] at this
      cases this
    | unlock ha => cases hq
    | lock | copy | fault | size | store =>
      rw [pos_goto_self]
      rfl
  · rw [hs.frame.2 q hqp]
    cases hs with
    | lock => exact absurd (Option.some.inj hq).symm hqp
    | unlock => cases hq
    | move | copy | fault | size | store | ret => exact h q hq

theorem HolderIn.step {x : WriteAct P} (h : HolderIn s) (hs : SharedFile.step s x = some t) : HolderIn t := by
  cases x with
  | step q full => exact h.acts (acts_of_act hs)
  | call q src n =>
    simp only [SharedFile.step] at hs
    split at hs
    next hout =>
      cases hs
      intro r hr
      have hl := h r hr
      have hrq : r ≠ q := by
        rintro rfl
        rw [hout] at hl
        cases hl
      rwa [pos_goto_of_ne hrq]
    next => cases hs

/-- A process waits for nothing but the lock of the inode. -/
theorem act_isSome (hout : s.pos p ≠ .out) (hlock : ∀ c i n1, s.pos p = .ilock c i n1 → s.holder = none)
    (full : Bool) : (s.act p full).isSome := by
  unfold act
  split
  case h_1 h => exact absurd h hout
  case h_4 h => rw [if_pos (hlock _ _ _ h)]; rfl
  all_goals first | rfl | (split <;> rfl)

theorem HolderIn.progress (h : HolderIn s) (hout : s.pos p ≠ .out) (full : Bool) :
    ∃ q, (SharedFile.step s (.step q full)).isSome := by
  cases hh : s.holder with
  | none => exact ⟨p, act_isSome hout (fun _ _ _ _ => hh) full⟩
  | some q =>
    have hq := h q hh
    refine ⟨q, act_isSome (fun ho => ?_) (fun c i n1 ho => ?_) full⟩ <;>
    · rw [ho] at hq
      cases hq

/-- Any number of processes write through one `struct file`, in any interleaving. They append; as long as a call
is under way a process can go on, and when none is all calls have returned. With space on the disk, mapped buffers
and a file that stays below its largest size, each call returns its length, all its bytes are in its chunks, and
in the end `f->off` has moved by the sum of the lengths. -/
theorem shared_writes_append {P : Type} [DecidableEq P] (off size : Nat) (data : Nat → UInt8) (hoff : off ≤ size)
    (as : List (WriteAct P)) (t : SharedFile P) (hrun : Run.exec step (opened off size data) as = some t) :
    Appended off t ∧
      (∀ p, t.pos p ≠ .out → ∀ full, ∃ q, (step t (.step q full)).isSome) ∧
      ((∀ q, t.pos q = .out) → ∀ c, c ∈ t.returned.map Prod.fst ↔ c ∈ callsIn 0 as) ∧
      (Run.Along step Roomy (opened off size data) as → Run.Along step Below (opened off size data) as →
        (∀ x ∈ t.returned, x.2 = x.1.n ∧
          Tiles WriteChunk.pos WriteChunk.len 0 (t.chunksOf x.1.id) x.1.n.toNat) ∧
        ((∀ q, t.pos q = .out) → t.off = off + (t.returned.map fun x => x.1.n.toNat).sum)) := by
  have hinit : Layout off (opened off size data : SharedFile P) ∧ Calls (opened off size data : SharedFile P) :=
    ⟨.opened hoff, .opened⟩
  obtain ⟨hl, hc⟩ := Run.exec_invariant (fun _ _ _ hI _ hs => Layout.step hI hs) hrun
    Run.along_true hinit
  have hholder : HolderIn t := Run.exec_invariant (fun _ _ _ hI _ hs => hI.step hs) hrun
    Run.along_true fun q hq => by cases hq
  refine ⟨hl.appended hc, fun p hp full => hholder.progress hp full, fun hout c => ?_, fun hroomy hbelow => ?_⟩
  · have hknown : ∀ {u : SharedFile P}, (∀ q, u.pos q = .out) → (Known u c ↔ c ∈ u.returned.map Prod.fst) := by
      refine fun hu => or_iff_right ?_
      rintro ⟨q, k, hq⟩
      rw [hu q] at hq
      cases hq
    have h := exec_known hrun c
    rw [hknown hout, hknown fun _ => rfl] at h
    exact h.trans (or_iff_right List.not_mem_nil)
  have hlen : Lengths t := by
    refine (Run.exec_invariant (I := fun s => (Layout off s ∧ Calls s) ∧ Lengths s)
      (fun s x u hI hG hs => ⟨Layout.step hI.1 hs, hI.2.step hI.1.1 hI.1.2 hG.1 hG.2 hs⟩) hrun
      (hroomy.and hbelow) ⟨hinit, fun _ => trivial, fun x hx => absurd hx List.not_mem_nil⟩).2
  exact ⟨hlen.done, off_eq_sum hl hc hlen⟩

instance decidableBelow (s : SharedFile P) : ∀ x, Decidable (Below s x)
  | .call _ _ _ => inferInstanceAs (Decidable True)
  | .step p _ => inferInstanceAs (Decidable ((s.pos p).Fits s.off))

/-- Process 0 writes two bytes and process 1 three; both are in `begin_op` before either locks the inode. -/
def twoWriters : List (WriteAct (Fin 2)) :=
  .call 0 (fun j => some (.ofNat j)) 2 :: .call 1 (fun j => some (.ofNat (j + 10))) 3 ::
    [.step 0 false, .step 0 false, .step 1 false, .step 1 false] ++
    List.replicate 8 (.step 1 false) ++ List.replicate 8 (.step 0 false) ++
    List.replicate 3 (.step 0 false) ++ List.replicate 3 (.step 1 false)

theorem shared_writes_append_twoWriters :
    ∃ t, Run.exec step (opened 5 5 fun _ => 0) twoWriters = some t ∧ Appended 5 t ∧ t.off = 10 ∧
      ∀ x ∈ t.returned, x.2 = x.1.n := by
  have hrun : (Run.exec step (opened 5 5 fun _ => 0) twoWriters).map (·.off) = some 10 := by decide +kernel
  obtain ⟨t, ht, hoff⟩ := Option.map_eq_some_iff.mp hrun
  obtain ⟨happ, -, -, hlen⟩ := shared_writes_append 5 5 (fun _ => 0) le_rfl twoWriters t ht
  have hroomy : Run.Along step Roomy (opened 5 5 fun _ => 0) twoWriters := by
    refine Run.along_of_forall fun x hx s => ?_
    simp only [twoWriters, List.cons_append, List.nil_append, List.mem_cons, List.mem_append,
      List.mem_replicate] at hx
    rcases hx with rfl | rfl | rfl | rfl | rfl | rfl | ((⟨_, rfl⟩ | ⟨_, rfl⟩) | ⟨_, rfl⟩) | ⟨_, rfl⟩ <;>
      first | rfl | exact ⟨by decide, fun _ _ => rfl⟩
  exact ⟨t, ht, happ, hoff, fun x hx => ((hlen hroomy (by decide +kernel)).1 x hx).1⟩

/-- A write of one byte to a file of the largest size. -/
def pastEnd : List (WriteAct (Fin 1)) := .call 0 (fun _ => some 7) 1 :: List.replicate 7 (.step 0 false)

/-- With space on the disk and a mapped buffer the call returns -1, since a file has at most `MAXFILE` blocks. -/
theorem shared_write_refused :
    Run.Along step Roomy (opened (MAXFILE * BSIZE) (MAXFILE * BSIZE) fun _ => 0) pastEnd ∧
    ∃ t, Run.exec step (opened (MAXFILE * BSIZE) (MAXFILE * BSIZE) fun _ => 0) pastEnd = some t ∧
      t.returned.map (fun x => (x.1.n, x.2)) = [(1, -1)] := by
  refine ⟨Run.along_of_forall fun x hx s => ?_, ?_⟩
  · simp only [pastEnd, List.mem_cons, List.mem_replicate] at hx
    rcases hx with rfl | ⟨_, rfl⟩
    · exact ⟨by decide, fun _ _ => rfl⟩
    · rfl
  · have hrun : (Run.exec step (opened (MAXFILE * BSIZE) (MAXFILE * BSIZE) fun _ => 0) pastEnd).map
        (fun t => t.returned.map fun x => (x.1.n, x.2)) = some [(1, -1)] := by decide +kernel
    exact Option.map_eq_some_iff.mp hrun

end SharedFile

end Xv6

import Xv6.Console.Driver
import Xv6.Lib.Ring

/-!
# The console is a line discipline

`Line` is what the console is for: a queue of committed bytes and a line that is being edited. The driver
keeps both in one ring with the free-running indices `r`, `w` and `e`; `Cons.line` reads them off, and every
interrupt and every read does to them what it does to the abstract device.
-/

namespace Xv6

open Function

open Cons (ctrlD ctrlH ctrlP ctrlU newline carriageReturn delete Stop)

/-! ## The abstract device -/

structure Line where
  queue : List UInt8
  edit : List UInt8

namespace Line

def length (l : Line) : Nat := l.queue.length + l.edit.length

/-- A byte is appended to the line; the line is committed if it is complete or the device is full. -/
def append (c : UInt8) (l : Line) : Line :=
  if c = newline ∨ c = ctrlD ∨ l.length + 1 = INPUT_BUF_SIZE then ⟨l.queue ++ (l.edit ++ [c]), []⟩
  else ⟨l.queue, l.edit ++ [c]⟩

/-- The byte `c` arrives. Control-P and 0 are no input. -/
def intr (c : UInt8) (l : Line) : Line :=
  if c = ctrlP ∨ c = 0 then l
  else if c = ctrlU then { l with edit := [] }
  else if c = ctrlH ∨ c = delete then { l with edit := l.edit.dropLast }
  else if l.length < INPUT_BUF_SIZE then l.append (if c = carriageReturn then newline else c)
  else l

/-- A read of `n` more bytes after `dst`: it ends after a newline, and before a control-D, which only a
read that has delivered nothing takes away. -/
def take : (n : Nat) → (dst : List UInt8) → (queue : List UInt8) → Stop × List UInt8
  | 0, dst, q => (.done dst, q)
  | n + 1, dst, [] => (.sleep (n + 1) dst, [])
  | n + 1, dst, c :: q =>
    if c = ctrlD then (.done dst, if dst = [] then q else c :: q)
    else if c = newline then (.done (dst ++ [c]), q)
    else take n (dst ++ [c]) q

def read (n : Nat) (dst : List UInt8) (l : Line) : Stop × Line :=
  ((take n dst l.queue).1, { l with queue := (take n dst l.queue).2 })

def device : ReadDevice Line := ⟨intr, fun _ n dst => read n dst⟩

end Line

/-! ## The indices -/

namespace Cons

variable {s : Cons} {c : UInt8}

def used (s : Cons) : Nat := (s.e - s.r).toNat

def ready (s : Cons) : Nat := (s.w - s.r).toNat

def bytes (s : Cons) : List UInt8 := Ring.items INPUT_BUF_SIZE s.buf s.r.toNat s.used

/-- The committed bytes and the line that is being edited. -/
def line (s : Cons) : Line := ⟨s.bytes.take s.ready, s.bytes.drop s.ready⟩

/-- The indices are in order, and the line that is being edited has no newline in it. -/
structure Ok (s : Cons) : Prop where
  ready_le : s.ready ≤ s.used
  used_le : s.used ≤ INPUT_BUF_SIZE
  noNewline : newline ∉ s.line.edit

theorem length_bytes : s.bytes.length = s.used := Ring.length_items

theorem length_line : s.line.length = s.used := by
  rw [line, Line.length, ← List.length_append, List.take_append_drop, length_bytes]

theorem e_toNat (s : Cons) : s.e.toNat = (s.r.toNat + s.used) % 2 ^ 32 := by
  have h1 := s.e.toNat_lt
  have h2 := s.r.toNat_lt
  rw [used, UInt32.toNat_sub]
  omega

theorem e_cell (s : Cons) : s.e.toNat % INPUT_BUF_SIZE = (s.r.toNat + s.used) % INPUT_BUF_SIZE := by
  rw [e_toNat, Nat.mod_mod_of_dvd _ (by decide)]

theorem e_eq_w_iff : s.e = s.w ↔ s.used = s.ready := by
  have h1 := s.e.toNat_lt
  have h3 := s.w.toNat_lt
  rw [used, ready, ← UInt32.toNat_inj, UInt32.toNat_sub, UInt32.toNat_sub]
  omega

theorem r_eq_w_iff : s.r = s.w ↔ s.ready = 0 := by
  have h2 := s.r.toNat_lt
  have h3 := s.w.toNat_lt
  rw [ready, ← UInt32.toNat_inj, UInt32.toNat_sub]
  omega

theorem sub_w (h : s.ready ≤ s.used) : (s.e - s.w).toNat = s.used - s.ready := by
  have h3 := s.w.toNat_lt
  simp only [used, ready, UInt32.toNat_sub] at h ⊢
  omega

/-! ## Editing -/

def erase (s : Cons) : Cons := { s with e := s.e - 1 }

theorem used_erase (h : s.ready < s.used) : s.erase.used = s.used - 1 := by
  simp only [used, ready, erase, UInt32.toNat_sub, UInt32.toNat_one] at h ⊢
  omega

theorem bytes_erase (h : s.ready < s.used) :
    s.bytes = s.erase.bytes ++ [s.at_ (s.e - 1)] := by
  have hu := used_erase h
  have hcell : (s.e - 1).toNat % INPUT_BUF_SIZE = (s.r.toNat + s.erase.used) % INPUT_BUF_SIZE := s.erase.e_cell
  obtain ⟨n, hn⟩ : ∃ n, s.used = n + 1 := ⟨s.used - 1, by omega⟩
  have hn' : s.erase.used = n := by omega
  rw [bytes, bytes, hn, Ring.items_concat, at_, hcell, hn']
  rfl

theorem line_erase (h : s.ready < s.used) :
    s.line = ⟨s.erase.line.queue, s.erase.line.edit ++ [s.at_ (s.e - 1)]⟩ := by
  have hlen : s.erase.ready ≤ s.erase.bytes.length := by
    rw [length_bytes, used_erase h]
    exact Nat.le_sub_one_of_lt h
  rw [line, bytes_erase h]
  have hr : s.erase.ready = s.ready := rfl
  simp only [line, hr] at hlen ⊢
  rw [List.take_append_of_le_length hlen, List.drop_append_of_le_length hlen]

theorem Ok.erase (hs : s.Ok) (h : s.ready < s.used) : s.erase.Ok := by
  refine ⟨?_, ?_, fun hmem => hs.noNewline ?_⟩
  · rw [used_erase h]
    exact Nat.le_sub_one_of_lt h
  · rw [used_erase h]
    exact Nat.le_trans (Nat.sub_le _ _) hs.used_le
  · rw [line_erase h]
    exact List.mem_append_left _ hmem

theorem killLine_line (hs : s.Ok) {fuel : Nat} (hf : s.used - s.ready ≤ fuel) :
    (killLine fuel s).Ok ∧ (killLine fuel s).line = { s.line with edit := [] } ∧
      (killLine fuel s).e = (killLine fuel s).w := by
  induction fuel generalizing s with
  | zero =>
    have heq : s.used = s.ready := by have := hs.ready_le; omega
    refine ⟨hs, ?_, e_eq_w_iff.mpr heq⟩
    rw [killLine, line, List.drop_of_length_le (by rw [length_bytes]; omega)]
  | succ fuel ih =>
    by_cases heq : s.used = s.ready
    · rw [killLine, if_neg fun h => h.1 (e_eq_w_iff.mpr heq)]
      refine ⟨hs, ?_, e_eq_w_iff.mpr heq⟩
      rw [line, List.drop_of_length_le (by rw [length_bytes]; omega)]
    · have hlt : s.ready < s.used := Nat.lt_of_le_of_ne hs.ready_le (Ne.symm heq)
      have hnl : s.at_ (s.e - 1) ≠ newline := by
        intro h
        refine hs.noNewline ?_
        rw [line_erase hlt, h]
        exact List.mem_append_right _ (List.mem_singleton.mpr rfl)
      rw [killLine, if_pos ⟨fun h => heq (e_eq_w_iff.mp h), hnl⟩]
      have hr : s.erase.ready = s.ready := rfl
      obtain ⟨h1, h2, h3⟩ := ih (hs.erase hlt) (by rw [used_erase hlt]; omega)
      refine ⟨h1, h2.trans ?_, h3⟩
      rw [line_erase hlt]

theorem used_store (h : s.used < INPUT_BUF_SIZE) : (s.store c).used = s.used + 1 := by
  simp only [used, store, UInt32.toNat_add, UInt32.toNat_sub, UInt32.toNat_one, INPUT_BUF_SIZE] at h ⊢
  omega

theorem bytes_store (h : s.used < INPUT_BUF_SIZE) : (s.store c).bytes = s.bytes ++ [c] := by
  rw [bytes, used_store h]
  simp only [store]
  rw [e_cell]
  exact Ring.items_update c h

theorem line_store (hs : s.Ok) (h : s.used < INPUT_BUF_SIZE) : (s.store c).line = s.line.append c := by
  have hfull : s.e + 1 - s.r = UInt32.ofNat INPUT_BUF_SIZE ↔ s.used + 1 = INPUT_BUF_SIZE := by
    have hu := used_store (c := c) h
    have hu' : (s.e + 1 - s.r).toNat = s.used + 1 := hu
    rw [← UInt32.toNat_inj, hu']
    rfl
  have hready : (s.store c).ready =
      if c = newline ∨ c = ctrlD ∨ s.used + 1 = INPUT_BUF_SIZE then s.used + 1 else s.ready := by
    have hu' : (s.e + 1 - s.r).toNat = s.used + 1 := used_store (c := c) h
    simp only [ready, store, hfull]
    split_ifs
    · exact hu'
    · rfl
  have hle : s.ready ≤ s.bytes.length := by
    rw [length_bytes]
    exact hs.ready_le
  rw [line, bytes_store h, hready, Line.append, length_line]
  split_ifs with hc
  · rw [List.take_of_length_le (by simp [length_bytes]), List.drop_of_length_le (by simp [length_bytes]),
      line, ← List.append_assoc, List.take_append_drop]
  · rw [List.take_append_of_le_length hle, List.drop_append_of_le_length hle]
    rfl

theorem Ok.store (hs : s.Ok) (h : s.used < INPUT_BUF_SIZE) : (s.store c).Ok := by
  have hline := line_store (c := c) hs h
  refine ⟨?_, ?_, ?_⟩
  · have hready : (s.store c).ready = s.ready ∨ (s.store c).ready = (s.store c).used := by
      simp only [ready, used, Cons.store]
      split_ifs
      · exact .inr rfl
      · exact .inl rfl
    rcases hready with hr | hr
    · rw [hr, used_store h]
      exact Nat.le_succ_of_le hs.ready_le
    · exact Nat.le_of_eq hr
  · rw [used_store h]
    exact h
  · rw [hline, Line.append]
    split_ifs with hc
    · exact List.not_mem_nil
    · intro hmem
      rcases List.mem_append.mp hmem with hold | hnew
      · exact hs.noNewline hold
      · exact hc (.inl (List.mem_singleton.mp hnew).symm)

theorem consoleintr_line (hs : s.Ok) (c : UInt8) :
    (consoleintr c s).Ok ∧ (consoleintr c s).line = s.line.intr c := by
  have hroom : s.e - s.r < UInt32.ofNat INPUT_BUF_SIZE ↔ s.used < INPUT_BUF_SIZE := by
    rfl
  unfold consoleintr Line.intr
  by_cases hP : c = ctrlP
  · rw [if_pos hP, if_pos (.inl hP)]
    exact ⟨hs, rfl⟩
  by_cases hU : c = ctrlU
  · have h0 : c ≠ 0 := by
      rw [hU]
      decide
    rw [if_neg hP, if_pos hU, if_neg (not_or.mpr ⟨hP, h0⟩), if_pos hU]
    obtain ⟨h1, h2, -⟩ := killLine_line hs (Nat.le_of_eq (sub_w hs.ready_le).symm)
    exact ⟨h1, h2⟩
  by_cases hH : c = ctrlH ∨ c = delete
  · have h0 : c ≠ 0 := by
      rcases hH with rfl | rfl <;> decide
    rw [if_neg hP, if_neg hU, if_pos hH, if_neg (not_or.mpr ⟨hP, h0⟩), if_neg hU, if_pos hH]
    by_cases heq : s.e = s.w
    · rw [if_neg fun h => h heq]
      have hnil : s.line.edit = [] :=
        List.drop_of_length_le (Nat.le_of_eq (length_bytes.trans (e_eq_w_iff.mp heq)))
      refine ⟨hs, ?_⟩
      rw [hnil, List.dropLast_nil, ← hnil]
    · have hlt : s.ready < s.used :=
        Nat.lt_of_le_of_ne hs.ready_le fun h => heq (e_eq_w_iff.mpr h.symm)
      rw [if_pos heq]
      refine ⟨hs.erase hlt, ?_⟩
      rw [line_erase hlt, List.dropLast_concat]
      rfl
  rw [if_neg hP, if_neg hU, if_neg hH]
  by_cases h0 : c = 0
  · rw [if_neg fun h => h.1 h0, if_pos (.inr h0)]
    exact ⟨hs, rfl⟩
  rw [if_neg (not_or.mpr ⟨hP, h0⟩), if_neg hU, if_neg hH, length_line]
  by_cases hlt : s.used < INPUT_BUF_SIZE
  · rw [if_pos ⟨h0, hroom.mpr hlt⟩, if_pos hlt]
    exact ⟨hs.store hlt, line_store hs hlt⟩
  · rw [if_neg fun h => hlt (hroom.mp h.2), if_neg hlt]
    exact ⟨hs, rfl⟩

/-! ## Reading -/

def next (s : Cons) : Cons := { s with r := s.r + 1 }

theorem used_next (hs : s.Ok) (h : 0 < s.ready) : s.next.used + 1 = s.used ∧ s.next.ready + 1 = s.ready := by
  have h2 := s.r.toNat_lt
  have hle := hs.ready_le
  have hle' := hs.used_le
  simp only [used, ready, next, UInt32.toNat_add, UInt32.toNat_sub, UInt32.toNat_one, INPUT_BUF_SIZE]
    at h hle hle' ⊢
  omega

theorem bytes_next (hs : s.Ok) (h : 0 < s.ready) : s.bytes = s.at_ s.r :: s.next.bytes := by
  have hnext : s.next.r.toNat = (s.r.toNat + 1) % 2 ^ 32 := by
    simp [next, UInt32.toNat_add]
  rw [bytes, ← (used_next hs h).1, Ring.items_succ]
  rw [bytes, hnext, Ring.items_mod (by decide)]
  rfl

theorem line_next (hs : s.Ok) (h : 0 < s.ready) :
    s.line = ⟨s.at_ s.r :: s.next.line.queue, s.next.line.edit⟩ := by
  rw [line, bytes_next hs h, ← (used_next hs h).2, List.drop_succ_cons]
  rfl

theorem Ok.next (hs : s.Ok) (h : 0 < s.ready) : s.next.Ok := by
  obtain ⟨h1, h2⟩ := used_next hs h
  have hle := hs.ready_le
  have hle' := hs.used_le
  refine ⟨by omega, by omega, fun hmem => hs.noNewline ?_⟩
  rw [line_next hs h]
  exact hmem

theorem line_queue_nil (h : s.ready = 0) : s.line.queue = [] := by
  rw [line, h, List.take_zero]

theorem readLoop_line (hs : s.Ok) {target n : Nat} {dst : List UInt8} (htarget : target = n + dst.length) :
    (readLoop target n dst s).2.Ok ∧ (readLoop target n dst s).1 = (s.line.read n dst).1 ∧
      (readLoop target n dst s).2.line = (s.line.read n dst).2 := by
  induction n generalizing s dst with
  | zero => exact ⟨hs, rfl, rfl⟩
  | succ n ih =>
    by_cases h0 : s.ready = 0
    · have hnil := line_queue_nil h0
      rw [readLoop, if_pos (r_eq_w_iff.mpr h0), Line.read, hnil]
      refine ⟨hs, rfl, ?_⟩
      show s.line = { s.line with queue := [] }
      rw [← hnil]
    have hpos : 0 < s.ready := Nat.pos_of_ne_zero h0
    rw [readLoop, if_neg fun h => h0 (r_eq_w_iff.mp h), Line.read, line_next hs hpos, Line.take]
    by_cases hD : s.at_ s.r = ctrlD
    · rw [if_pos hD, if_pos hD]
      have hiff : n + 1 < target ↔ dst ≠ [] := by
        rw [← List.length_pos_iff]
        omega
      by_cases hd : dst = []
      · rw [if_neg fun h => hiff.mp h hd, if_pos hd]
        exact ⟨hs.next hpos, rfl, rfl⟩
      · rw [if_pos (hiff.mpr hd), if_neg hd]
        have hback : ({ s with r := s.r + 1 - 1 } : Cons) = s := by
          rw [UInt32.add_sub_cancel]
        show ({ s with r := s.r + 1 - 1 } : Cons).Ok ∧ _ ∧ ({ s with r := s.r + 1 - 1 } : Cons).line = _
        rw [hback]
        exact ⟨hs, rfl, line_next hs hpos⟩
    · rw [if_neg hD, if_neg hD]
      by_cases hN : s.at_ s.r = newline
      · rw [if_pos hN, if_pos hN]
        exact ⟨hs.next hpos, rfl, rfl⟩
      · rw [if_neg hN, if_neg hN]
        refine ih (hs.next hpos) ?_
        rw [List.length_append, List.length_singleton]
        omega

end Cons

theorem Cons.zero_line : Cons.zero.line = ⟨[], []⟩ := by
  have hused : Cons.zero.used = 0 := rfl
  rw [Cons.line, Cons.bytes, hused, Ring.items_zero, List.take_nil, List.drop_nil]

theorem Cons.zero_ok : Cons.zero.Ok := by
  refine ⟨Nat.le_refl _, Nat.zero_le _, ?_⟩
  exact List.not_mem_nil

/-! ## Runs -/

theorem Line.take_sleep {n n' : Nat} {dst dst' q : List UInt8} (h : (Line.take n dst q).1 = .sleep n' dst') :
    n' + dst'.length = n + dst.length := by
  induction n generalizing dst q with
  | zero => cases h
  | succ n ih => cases q with
    | nil =>
      obtain ⟨rfl, rfl⟩ := Stop.sleep.inj h
      rfl
    | cons c q =>
      rw [Line.take] at h
      split_ifs at h
      have := ih h
      rw [List.length_append, List.length_singleton] at this
      omega

namespace Readers

variable {P : Type} [DecidableEq P] {s t : Readers Cons P} {x : Readers Line P} {a : ReadAct P}

/-- The driver and the abstract device are in corresponding states. -/
structure Refines (s : Readers Cons P) (x : Readers Line P) : Prop where
  ok : s.dev.Ok
  dev : x.dev = s.dev.line
  reader : x.reader = s.reader
  killed : x.killed = s.killed
  returned : x.returned = s.returned
  target : ∀ p y, s.reader p = some y → y.target = y.n + y.dst.length

theorem Refines.advance (h : Refines s x) (p : P) {y : Reader} (hy : y.target = y.n + y.dst.length) :
    Refines (s.advance Cons.device p y) (x.advance Line.device p y) := by
  obtain ⟨hok, hstop, hline⟩ := Cons.readLoop_line h.ok hy
  have hread : Line.device.read y.target y.n y.dst x.dev =
      ((Cons.readLoop y.target y.n y.dst s.dev).1, (Cons.readLoop y.target y.n y.dst s.dev).2.line) := by
    rw [hstop, hline, h.dev]
    rfl
  have htake : ∀ n dst, (Cons.readLoop y.target y.n y.dst s.dev).1 = .sleep n dst →
      y.target = n + dst.length := by
    intro n dst hs
    rw [hstop] at hs
    rw [hy, ← Line.take_sleep hs]
  have hnone : ∀ q z, update s.reader p none q = some z → z.target = z.n + z.dst.length := by
    intro q z hz
    by_cases hq : q = p
    · rw [hq, update_self] at hz
      cases hz
    · rw [update_of_ne hq] at hz
      exact h.target q z hz
  have hcons : Cons.device.read = Cons.readLoop := rfl
  unfold Readers.advance
  rw [hread, hcons]
  cases hres : Cons.readLoop y.target y.n y.dst s.dev with
  | mk stop dev =>
    rw [hres] at hok htake
    cases stop with
    | done dst => exact ⟨hok, rfl, by rw [h.reader], h.killed, by rw [h.returned], hnone⟩
    | sleep n dst =>
      simp only [h.killed]
      split_ifs
      · exact ⟨hok, rfl, by rw [h.reader], rfl, by rw [h.returned], hnone⟩
      · refine ⟨hok, rfl, by rw [h.reader], rfl, h.returned, fun q z hz => ?_⟩
        by_cases hq : q = p
        · have hz' : update s.reader p (some ⟨y.target, n, dst⟩) q = some z := hz
          rw [hq, update_self, Option.some.injEq] at hz'
          rw [← hz']
          exact htake n dst rfl
        · have hz' : update s.reader p (some ⟨y.target, n, dst⟩) q = some z := hz
          rw [update_of_ne hq] at hz'
          exact h.target q z hz'

theorem Refines.step (h : Refines s x) (hstep : step Cons.device s a = some t) :
    ∃ y, step Line.device x a = some y ∧ Refines t y := by
  cases a with
  | intr c =>
    obtain rfl := Option.some.inj hstep
    obtain ⟨hok, hline⟩ := Cons.consoleintr_line h.ok c
    refine ⟨_, rfl, hok, ?_, h.reader, h.killed, h.returned, h.target⟩
    show x.dev.intr c = _
    rw [h.dev, ← hline]
    rfl
  | call p n =>
    simp only [Readers.step, h.reader] at hstep ⊢
    cases hp : s.reader p with
    | some y => simp [hp] at hstep
    | none =>
      simp only [hp, Option.some.injEq] at hstep
      subst hstep
      exact ⟨_, rfl, h.advance p rfl⟩
  | wake p =>
    simp only [Readers.step, h.reader] at hstep ⊢
    cases hp : s.reader p with
    | none => simp [hp] at hstep
    | some y =>
      simp only [hp, Option.some.injEq] at hstep
      subst hstep
      exact ⟨_, rfl, h.advance p (h.target p y hp)⟩
  | kill p =>
    obtain rfl := Option.some.inj hstep
    refine ⟨_, rfl, h.ok, h.dev, h.reader, ?_, h.returned, h.target⟩
    show update x.killed p true = update s.killed p true
    rw [h.killed]

omit [DecidableEq P] in
theorem Refines.init : Refines (P := P) (.init .zero) (.init ⟨[], []⟩) where
  ok := Cons.zero_ok
  dev := Cons.zero_line.symm
  reader := rfl
  killed := rfl
  returned := rfl
  target := nofun

/-- In every run the indices are in order, and every read has returned what the abstract device returns. -/
theorem console_line_discipline (as : List (ReadAct P)) (s : Readers Cons P)
    (h : Run.exec (step Cons.device) (.init .zero) as = some s) :
    (s.dev.w - s.dev.r ≤ s.dev.e - s.dev.r ∧ s.dev.e - s.dev.r ≤ UInt32.ofNat INPUT_BUF_SIZE) ∧
      ∃ x : Readers Line P, Run.exec (step Line.device) (.init ⟨[], []⟩) as = some x ∧
        x.returned = s.returned ∧ x.reader = s.reader ∧ x.dev.length ≤ INPUT_BUF_SIZE := by
  have hsim : ∀ (s : Readers Cons P) (x : Readers Line P) a t, Refines s x → step Cons.device s a = some t →
      ∃ y, step Line.device x a = some y ∧ Refines t y := fun _ _ _ _ hs ha => hs.step ha
  obtain ⟨x, hx, hR⟩ := Run.exec_simulates hsim h Refines.init
  refine ⟨⟨UInt32.le_iff_toNat_le.mpr hR.ok.ready_le, UInt32.le_iff_toNat_le.mpr hR.ok.used_le⟩, x, hx,
    hR.returned, hR.reader, ?_⟩
  rw [hR.dev, Cons.length_line]
  exact hR.ok.used_le

/-- `a`, `b`, backspace, `c`, carriage return, then Control-D; a read of two bytes, one of ten, and one that
the Control-D ends. -/
def session : List (ReadAct Unit) :=
  [.intr 97, .intr 98, .intr 8, .intr 99, .call () 2, .intr 13, .wake (), .call () 10, .intr 4, .call () 10]

theorem console_line_discipline_session :
    ∃ s : Readers Cons Unit, Run.exec (step Cons.device) (.init .zero) session = some s ∧
      s.returned = [((), some []), ((), some [10]), ((), some [97, 99])] ∧
      ∃ x : Readers Line Unit, Run.exec (step Line.device) (.init ⟨[], []⟩) session = some x ∧
        x.returned = s.returned := by
  have hrun : (Run.exec (step Cons.device) (.init .zero) session).map returned =
      some [((), some []), ((), some [10]), ((), some [97, 99])] := by decide +kernel
  obtain ⟨s, hs, hret⟩ := Option.map_eq_some_iff.mp hrun
  obtain ⟨-, x, hx, hxr, -⟩ := console_line_discipline session s hs
  exact ⟨s, hs, hret, x, hx, hxr⟩

end Readers

end Xv6

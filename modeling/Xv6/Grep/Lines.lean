import Xv6.Grep.Match

/-!
# The lines that `grep` prints

The loop of `grep.c` over the input. `buf` is the list of the bytes `buf[0]` to `buf[m-1]`; `buf[m]` is the
NUL behind them. `sched` are the numbers of bytes that the calls of `read` want to return, of which they
return as many as were requested and are left, and at least one if they can.
-/

namespace Xv6.Grep

/-- `strchr(s, c)`: the distance to the byte. -/
def strchr (c : UInt8) : (s : List UInt8) → Option Nat
  | [] => none
  | b :: s => if b = 0 then none else if b = c then some 0 else (strchr c s).map (· + 1)

def cstr (s : List UInt8) : List UInt8 := s.takeWhile (· ≠ 0)

/-- The loop over the lines in `buf`: what it leaves in `buf`, the value of `p`, and what it writes. -/
def printLines (pattern : List UInt8) : (fuel : Nat) → (buf : List UInt8) → (p : Nat) →
    List UInt8 × Nat × List UInt8
  | 0, buf, p => (buf, p, [])
  | fuel + 1, buf, p =>
    match strchr 10 (buf.drop p) with
    | none => (buf, p, [])
    | some i =>
      let q := p + i
      let buf := buf.set q 0
      if match_ pattern (cstr (buf.drop p)) then
        let buf := buf.set q 10
        let (buf', p', out) := printLines pattern fuel buf (q + 1)
        (buf', p', (buf.drop p).take (q + 1 - p) ++ out)
      else printLines pattern fuel buf (q + 1)

/-- The loop of `grep`: what it writes, and what it does not read. -/
def grepLoop (pattern : List UInt8) : (fuel : Nat) → (sched : Nat → Nat) → (buf input : List UInt8) →
    List UInt8 × List UInt8
  | 0, _, _, input => ([], input)
  | fuel + 1, sched, buf, input =>
    let n := min (max 1 (sched 0)) (min (1024 - buf.length - 1) input.length)
    if 0 < n then
      let buf := buf ++ input.take n
      let (buf', p, out) := printLines pattern buf.length buf 0
      let (out', input') := grepLoop pattern fuel (fun i => sched (i + 1)) (buf'.drop p) (input.drop n)
      (out ++ out', input')
    else ([], input)

/-- `grep(pattern, fd)`; each round reads at least one byte. -/
def grep (pattern : List UInt8) (sched : Nat → Nat) (input : List UInt8) : List UInt8 × List UInt8 :=
  grepLoop pattern (input.length + 1) sched [] input

/-! ## Lines -/

/-- The lines of a stream, each with its newline if there is one. -/
def lines : List UInt8 → List (List UInt8)
  | [] => []
  | c :: s =>
    if c = 10 then [c] :: lines s
    else
      match lines s with
      | [] => [[c]]
      | l :: ls => (c :: l) :: ls

/-- The pattern matches the line, without its newline. -/
def lineMatches (pattern l : List UInt8) : Bool := match_ pattern (l.takeWhile (· ≠ 10))

def selected (pattern s : List UInt8) : List UInt8 := ((lines s).filter (lineMatches pattern)).flatten

variable {pattern u v s buf : List UInt8} {p : Nat}

theorem lines_append_newline (hu : 10 ∉ u) : lines (u ++ 10 :: v) = (u ++ [10]) :: lines v := by
  induction u with
  | nil => exact if_pos rfl
  | cons c u ih =>
    rw [List.mem_cons, not_or] at hu
    rw [List.cons_append, lines, if_neg (Ne.symm hu.1), ih hu.2]
    rfl

theorem lines_of_notMem (hu : 10 ∉ u) (hne : u ≠ []) : lines u = [u] := by
  induction u with
  | nil => exact absurd rfl hne
  | cons c u ih =>
    rw [List.mem_cons, not_or] at hu
    rw [lines, if_neg (Ne.symm hu.1)]
    cases u with
    | nil => rfl
    | cons d u => rw [ih hu.2 nofun]

theorem takeWhile_append_cons {c : UInt8} (hu : c ∉ u) (v : List UInt8) :
    (u ++ c :: v).takeWhile (· ≠ c) = u := by
  have hall : ∀ b ∈ u, decide (b ≠ c) = true := fun b hb => decide_eq_true fun heq => hu (heq ▸ hb)
  rw [List.takeWhile_append_of_pos hall, List.takeWhile_cons_of_neg (by simp), List.append_nil]

theorem selected_append_newline (hu : 10 ∉ u) : selected pattern (u ++ 10 :: v) =
    (if match_ pattern u then u ++ [10] else []) ++ selected pattern v := by
  rw [selected, lines_append_newline hu, List.filter_cons, lineMatches, takeWhile_append_cons hu]
  split
  · rfl
  · rfl

theorem strchr_cases (hnul : 0 ∉ s) :
    (strchr 10 s = none ∧ 10 ∉ s) ∨ ∃ u v, s = u ++ 10 :: v ∧ 10 ∉ u ∧ strchr 10 s = some u.length := by
  induction s with
  | nil => exact .inl ⟨rfl, List.not_mem_nil⟩
  | cons b s ih =>
    rw [List.mem_cons, not_or] at hnul
    rw [strchr, if_neg (Ne.symm hnul.1)]
    by_cases hb : b = 10
    · exact .inr ⟨[], s, by rw [hb]; rfl, List.not_mem_nil, if_pos hb⟩
    · rw [if_neg hb]
      rcases ih hnul.2 with ⟨hnone, hs⟩ | ⟨u, v, rfl, hu, hsome⟩
      · exact .inl ⟨by rw [hnone]; rfl, fun h => (List.mem_cons.mp h).elim (fun h => hb h.symm) hs⟩
      · refine .inr ⟨b :: u, v, rfl, fun h => (List.mem_cons.mp h).elim (fun h => hb h.symm) hu, ?_⟩
        rw [hsome]
        rfl

/-! ## The loop over the lines -/

/-- The lines of `s` that are complete have been printed as far as they match, and `v` is left. -/
structure Printed (pattern s v out : List UInt8) : Prop where
  rest : 10 ∉ v
  suffix : v <:+ s
  lines : ∀ t, ∃ ls, lines (s ++ t) = ls ++ lines (v ++ t) ∧ ∀ l ∈ ls, l.length ≤ s.length ∧ l.getLast? = some 10
  out : ∀ t, selected pattern (s ++ t) = out ++ selected pattern (v ++ t)

theorem Printed.nil (h : 10 ∉ s) : Printed pattern s s [] :=
  ⟨h, List.suffix_refl s, fun _ => ⟨[], rfl, nofun⟩, fun _ => rfl⟩

theorem Printed.cons {w out : List UInt8} (hu : 10 ∉ u) (h : Printed pattern v w out) :
    Printed pattern (u ++ 10 :: v) w ((if match_ pattern u then u ++ [10] else []) ++ out) where
  rest := h.rest
  suffix := h.suffix.trans ⟨u ++ [10], by rw [List.append_assoc]; rfl⟩
  lines t := by
    obtain ⟨ls, hls, hall⟩ := h.lines t
    refine ⟨(u ++ [10]) :: ls, ?_, List.forall_mem_cons.mpr ⟨⟨?_, List.getLast?_concat⟩, fun l hl => ⟨?_, (hall l hl).2⟩⟩⟩
    · rw [List.append_assoc, List.cons_append, lines_append_newline hu, hls, List.cons_append]
    · simp only [List.length_append, List.length_cons, List.length_nil]
      omega
    · have hle := (hall l hl).1
      simp only [List.length_append, List.length_cons]
      omega
  out t := by
    rw [List.append_assoc, List.cons_append, selected_append_newline hu, h.out, List.append_assoc]

theorem drop_set_newline (h : buf.drop p = u ++ 10 :: v) (c : UInt8) :
    (buf.set (p + u.length) c).drop p = u ++ c :: v := by
  rw [← List.set_drop, h, List.set_append_right _ _ le_rfl, Nat.sub_self, List.set_cons_zero]

theorem drop_set_next (h : buf.drop p = u ++ 10 :: v) (c : UInt8) :
    (buf.set (p + u.length) c).drop (p + u.length + 1) = v := by
  rw [Nat.add_assoc, ← List.drop_drop, drop_set_newline h, ← List.drop_drop, List.drop_left, List.drop_one, List.tail_cons]

theorem printLines_spec (pattern : List UInt8) {fuel : Nat} (hfuel : s.length ≤ fuel) (hs : buf.drop p = s) (hnul : 0 ∉ s) :
    ∃ buf' p' out, printLines pattern fuel buf p = (buf', p', out) ∧ Printed pattern s (buf'.drop p') out := by
  induction fuel generalizing buf p s with
  | zero =>
    obtain rfl := List.length_eq_zero_iff.mp (Nat.le_zero.mp hfuel)
    refine ⟨buf, p, [], rfl, ?_⟩
    rw [hs]
    exact .nil List.not_mem_nil
  | succ fuel ih =>
    rw [printLines, hs]
    rcases strchr_cases hnul with ⟨hnone, hno⟩ | ⟨u, v, rfl, hu, hsome⟩
    · refine ⟨buf, p, [], by rw [hnone], ?_⟩
      rw [hs]
      exact .nil hno
    · rw [hsome]
      have hnul' : 0 ∉ u ∧ 0 ∉ v := by simpa using hnul
      have hlen : v.length ≤ fuel := by
        simp only [List.length_append, List.length_cons] at hfuel
        omega
      have hcstr : cstr ((buf.set (p + u.length) 0).drop p) = u := by
        rw [drop_set_newline hs, cstr, takeWhile_append_cons hnul'.1]
      simp only [hcstr]
      by_cases hm : match_ pattern u = true
      · -- the newline is put back, and the line is written with it
        obtain ⟨buf', p', out, hrun, h⟩ := ih hlen (drop_set_next hs 10) hnul'.2
        have hline : ((buf.set (p + u.length) 10).drop p).take (p + u.length + 1 - p) = u ++ [10] := by
          rw [drop_set_newline hs, Nat.add_assoc, Nat.add_sub_cancel_left, List.take_length_add_append]
          rfl
        have hcons := h.cons hu
        rw [if_pos hm] at hcons
        refine ⟨buf', p', u ++ [10] ++ out, ?_, hcons⟩
        rw [if_pos hm, List.set_set, hrun, hline]
      · obtain ⟨buf', p', out, hrun, h⟩ := ih hlen (drop_set_next hs 0) hnul'.2
        have hcons := h.cons hu
        rw [if_neg hm] at hcons
        refine ⟨buf', p', out, ?_, hcons⟩
        rw [if_neg hm, hrun]

/-! ## The loop over the input -/

/-- What `grep` can cope with: each line fits into the buffer, and a line that matches ends with a newline. -/
def Fits (pattern s : List UInt8) : Prop :=
  ∀ l ∈ lines s, l.length ≤ 1023 ∧ (lineMatches pattern l = true → l.getLast? = some 10)

theorem Printed.fits_iff {v out : List UInt8} (h : Printed pattern s v out) (hs : s.length ≤ 1023) (t : List UInt8) :
    Fits pattern (s ++ t) ↔ Fits pattern (v ++ t) := by
  obtain ⟨ls, hls, hall⟩ := h.lines t
  rw [Fits, hls, List.forall_mem_append]
  exact and_iff_right fun l hl => ⟨(hall l hl).1.trans hs, fun _ => (hall l hl).2⟩

theorem exists_longer_line {input : List UInt8} (hbuf : 10 ∉ buf) (hne : input ≠ []) :
    ∃ l ∈ lines (buf ++ input), buf.length < l.length := by
  by_cases hmem : 10 ∈ input
  · obtain ⟨u, v, rfl, hu⟩ := List.eq_append_cons_of_mem hmem
    have hnot : 10 ∉ buf ++ u := fun h => (List.mem_append.mp h).elim hbuf hu
    refine ⟨buf ++ u ++ [10], ?_, ?_⟩
    · rw [← List.append_assoc, lines_append_newline hnot]
      exact List.mem_cons_self
    · simp only [List.length_append, List.length_cons, List.length_nil]
      omega
  · have hnot : 10 ∉ buf ++ input := fun h => (List.mem_append.mp h).elim hbuf hmem
    refine ⟨buf ++ input, ?_, ?_⟩
    · rw [lines_of_notMem hnot fun h => hne (List.append_eq_nil_iff.mp h).2]
      exact List.mem_singleton_self _
    · rw [List.length_append]
      exact Nat.lt_add_of_pos_right (List.length_pos_of_ne_nil hne)

theorem selected_eq_nil_iff (hbuf : 10 ∉ buf) (hlen : buf.length ≤ 1023) :
    selected pattern buf = [] ↔ Fits pattern buf := by
  by_cases hne : buf = []
  · subst hne
    exact iff_of_true rfl nofun
  · have hlast : buf.getLast? ≠ some 10 := fun h => hbuf (List.mem_of_getLast? h)
    rw [selected, Fits, lines_of_notMem hbuf hne, List.forall_mem_singleton, List.filter_singleton]
    by_cases hm : lineMatches pattern buf = true
    · rw [hm, cond_true, List.flatten_singleton]
      exact iff_of_false hne fun h => hlast (h.2 rfl)
    · rw [Bool.not_eq_true] at hm
      rw [hm]
      exact iff_of_true rfl ⟨hlen, nofun⟩

theorem stop_iff {input : List UInt8} (hbuf : 10 ∉ buf) (hlen : buf.length ≤ 1023)
    (hstop : buf.length = 1023 ∨ input = []) :
    (([] : List UInt8), input) = (selected pattern (buf ++ input), []) ↔ Fits pattern (buf ++ input) := by
  by_cases hne : input = []
  · subst hne
    rw [List.append_nil, Prod.mk.injEq, and_iff_left rfl, eq_comm]
    exact selected_eq_nil_iff hbuf hlen
  · refine iff_of_false (fun h => hne (congrArg Prod.snd h)) fun h => ?_
    obtain ⟨l, hl, hlt⟩ := exists_longer_line hbuf hne
    have hle := (h l hl).1
    have heq := hstop.resolve_right hne
    omega

theorem grepLoop_iff {fuel : Nat} {sched : Nat → Nat} {input : List UInt8} (hfuel : input.length < fuel)
    (hbuf : 10 ∉ buf) (hlen : buf.length ≤ 1023) (hnul : 0 ∉ buf ++ input) :
    grepLoop pattern fuel sched buf input = (selected pattern (buf ++ input), []) ↔ Fits pattern (buf ++ input) := by
  induction fuel generalizing sched buf input with
  | zero => exact absurd hfuel (Nat.not_lt_zero _)
  | succ fuel ih =>
    rw [grepLoop]
    set n := min (max 1 (sched 0)) (min (1024 - buf.length - 1) input.length) with hn
    by_cases hpos : 0 < n
    · -- a read of `n` bytes; the lines that it completes are printed
      have hinput : input.take n ++ input.drop n = input := List.take_append_drop n input
      have hsplit : buf ++ input = (buf ++ input.take n) ++ input.drop n := by
        rw [List.append_assoc, hinput]
      have hlen' : (buf ++ input.take n).length ≤ 1023 := by
        rw [List.length_append, List.length_take]
        omega
      have hnul' : 0 ∉ buf ++ input.take n := fun h => hnul (hsplit ▸ List.mem_append_left _ h)
      obtain ⟨buf', p, out, hrun, h⟩ := printLines_spec pattern le_rfl List.drop_zero hnul'
      have hrest : ∀ b, b ∈ buf'.drop p ++ input.drop n → b ∈ buf ++ input := by
        intro b hb
        rw [hsplit]
        exact (List.mem_append.mp hb).elim (fun hb => List.mem_append_left _ (h.suffix.subset hb))
          (List.mem_append_right _)
      have hfuel' : (input.drop n).length < fuel := by
        rw [List.length_drop]
        omega
      have hstep := @ih (buf'.drop p) (fun i => sched (i + 1)) (input.drop n) hfuel' h.rest
        (h.suffix.length_le.trans hlen') fun hz => hnul (hrest 0 hz)
      rw [if_pos hpos, hsplit, h.out, h.fits_iff hlen', ← hstep]
      simp only [hrun, Prod.ext_iff, List.append_cancel_left_eq]
    · rw [if_neg hpos]
      refine stop_iff hbuf hlen ?_
      by_cases hne : input = []
      · exact .inr hne
      · have hi := List.length_pos_of_ne_nil hne
        omega

/-- `grep` reads the whole stream and prints exactly the matching lines, however the reads split the stream, if
and only if each line fits into the buffer and a matching line ends with a newline. -/
theorem grep_prints_matching (pattern : List UInt8) (sched : Nat → Nat) (input : List UInt8) (hnul : 0 ∉ input) :
    grep pattern sched input = (selected pattern input, []) ↔
      ∀ l ∈ lines input, l.length ≤ 1023 ∧ (lineMatches pattern l = true → l.getLast? = some 10) :=
  grepLoop_iff (Nat.lt_succ_self _) List.not_mem_nil (Nat.zero_le _) hnul

/-- Three lines, the second of which does not match `b`, read in chunks of 2 bytes. -/
theorem grep_prints_matching_chunks :
    grep [98] (fun _ => 2) [97, 98, 10, 97, 10, 98, 10] = ([97, 98, 10, 98, 10], []) := by
  refine (grep_prints_matching [98] (fun _ => 2) [97, 98, 10, 97, 10, 98, 10] (by decide)).mpr ?_
  have hlines : lines [97, 98, 10, 97, 10, 98, 10] = [[97, 98, 10], [97, 10], [98, 10]] := by decide
  decide

/-- A matching line without a newline at the end of the stream is not printed. -/
theorem grep_drops_last_line : selected [97] [97] = [97] ∧ grep [97] (fun _ => 1) [97] = ([], []) := by
  decide

end Xv6.Grep

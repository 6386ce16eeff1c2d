import Xv6.Sh.Accepts

/-!
# `parsecmd`

`nulterminate` writes a NUL behind each word, and no word is changed by the NULs behind the others, so the
strings of the returned command are the words of the line. `parsecmd` returns the command that the grammar
assigns to the line, if there is one, and panics if there is none.
-/

namespace Xv6.Sh

open Function Wp

variable {buf : List UInt8}

namespace Cmd

def map {V W : Type} (f : V → W) : Cmd V → Cmd W
  | exec argv => exec (argv.map f)
  | redir cmd file mode fd => redir (cmd.map f) (f file) mode fd
  | pipe left right => pipe (left.map f) (right.map f)
  | list left right => list (left.map f) (right.map f)
  | back cmd => back (cmd.map f)

def words {W : Type} : Cmd W → List W
  | exec argv => argv
  | redir cmd file _ _ => cmd.words ++ [file]
  | pipe left right => left.words ++ right.words
  | list left right => left.words ++ right.words
  | back cmd => cmd.words

end Cmd

/-- The string at `q` in memory; the line has its NUL at `n`. -/
def cstring (mem : Nat → UInt8) (n q : Nat) : Word := ((List.range' q (n + 1 - q)).map mem).takeWhile (· ≠ 0)

theorem foldl_update (argv : List Span) (i : Nat) : ∀ mem : Nat → UInt8,
    argv.foldl (fun mem w => update mem w.eq 0) mem i = if i ∈ argv.map Span.eq then 0 else mem i := by
  induction argv with
  | nil => exact fun mem => rfl
  | cons w argv ih =>
    intro mem
    rw [List.foldl_cons, ih, List.map_cons]
    by_cases hi : i = w.eq
    · subst hi
      rw [update_self, if_pos List.mem_cons_self]
      exact ite_self 0
    · rw [update_of_ne hi]
      refine if_congr ?_ rfl rfl
      rw [List.mem_cons, or_iff_right hi]

theorem nulterminate_words (c : Cmd Span) : ∀ mem : Nat → UInt8,
    nulterminate c mem = c.words.foldl (fun mem w => update mem w.eq 0) mem := by
  induction c with
  | exec argv => exact fun mem => rfl
  | redir cmd file mode fd ih =>
    intro mem
    rw [nulterminate, ih, Cmd.words, List.foldl_append]
    rfl
  | pipe left right ihl ihr | list left right ihl ihr =>
    intro mem
    rw [nulterminate, ihr, ihl, Cmd.words, List.foldl_append]
  | back cmd ih => exact ih

theorem covers_append {ws ws' : List Span} {xs xs' : List Word} (h : ∀ w ∈ ws, ∃ x ∈ xs, Covers buf w x)
    (h' : ∀ w ∈ ws', ∃ x ∈ xs', Covers buf w x) : ∀ w ∈ ws ++ ws', ∃ x ∈ xs ++ xs', Covers buf w x := by
  intro w hmem
  rcases List.mem_append.mp hmem with hmem | hmem
  · obtain ⟨x, hx, hcov⟩ := h w hmem
    exact ⟨x, List.mem_append_left _ hx, hcov⟩
  · obtain ⟨x, hx, hcov⟩ := h' w hmem
    exact ⟨x, List.mem_append_right _ hx, hcov⟩

theorem Matches.covers {c : Cmd Span} {d : Cmd Word} (h : Matches buf c d) :
    ∀ w ∈ c.words, ∃ x ∈ d.words, Covers buf w x := by
  induction h with
  | @exec ws xs hws =>
    intro w hw
    induction hws with
    | nil => cases hw
    | cons hx _ ih =>
      rcases List.mem_cons.mp hw with rfl | hw
      · exact ⟨_, List.mem_cons_self, hx⟩
      · obtain ⟨x, hx, hcov⟩ := ih hw
        exact ⟨x, List.mem_cons_of_mem _ hx, hcov⟩
  | redir _ hw ih =>
    intro w hmem
    rcases List.mem_append.mp hmem with hmem | hmem
    · obtain ⟨x, hx, hcov⟩ := ih w hmem
      exact ⟨x, List.mem_append_left _ hx, hcov⟩
    · rw [List.mem_singleton.mp hmem]
      exact ⟨_, List.mem_append_right _ List.mem_cons_self, hw⟩
  | pipe _ _ ihl ihr | list _ _ ihl ihr => exact covers_append ihl ihr
  | back _ ih => exact ih

theorem Matches.map_eq {c : Cmd Span} {d : Cmd Word} {f : Span → Word} (h : Matches buf c d) :
    (∀ w ∈ c.words, ∀ x, Covers buf w x → f w = x) → c.map f = d := by
  induction h with
  | @exec ws xs hws =>
    intro hf
    rw [Cmd.map]
    congr 1
    induction hws with
    | nil => rfl
    | cons hx _ ih =>
      rw [List.map_cons, hf _ List.mem_cons_self _ hx, ih fun w hw => hf w (List.mem_cons_of_mem _ hw)]
  | redir _ hw ih =>
    intro hf
    rw [Cmd.map, ih fun w hmem => hf w (List.mem_append_left _ hmem),
      hf _ (List.mem_append_right _ List.mem_cons_self) _ hw]
  | pipe _ _ ihl ihr | list _ _ ihl ihr =>
    intro hf
    rw [Cmd.map, ihl fun w hmem => hf w (List.mem_append_left _ hmem),
      ihr fun w hmem => hf w (List.mem_append_right _ hmem)]
  | back _ ih =>
    intro hf
    rw [Cmd.map, ih hf]

theorem Covers.getD_eq {w : Span} {x : Word} (h : Covers buf w x) {j : Nat} (hj : j < x.length) :
    buf.getD (w.q + j) 0 = x[j] := by
  have : (buf.drop w.q)[j]? = some x[j] := by
    rw [h.text, List.getElem?_append_left hj, List.getElem?_eq_getElem hj]
  rw [List.getElem?_drop] at this
  rw [List.getD_eq_getElem?_getD, this]
  rfl

theorem Covers.eq_ne {w v : Span} {x y : Word} (hw : Covers buf w x) (hv : Covers buf v y) {j : Nat}
    (hj : j < x.length) : w.q + j ≠ v.eq := by
  intro heq
  have hx := hw.getD_eq hj
  rw [heq, getD_drop] at hx
  have hlt : w.q + j < w.eq := by
    rw [hw.eq]
    omega
  cases hr : buf.drop v.eq with
  | nil =>
    have := hw.le
    have := List.drop_eq_nil_iff.mp hr
    omega
  | cons c cs =>
    rw [hr, List.headD_cons] at hx
    have := hv.stop c cs hr
    rw [hx, hw.inside _ (List.getElem_mem hj)] at this
    cases this

theorem cstring_eq {mem : Nat → UInt8} {n q : Nat} {x : Word} (hq : q + x.length ≤ n)
    (hx : ∀ j (hj : j < x.length), mem (q + j) = x[j]) (h0 : ∀ c ∈ x, c ≠ 0) (hend : mem (q + x.length) = 0) :
    cstring mem n q = x := by
  have hrange : (List.range' q (n + 1 - q)).map mem =
      x ++ 0 :: (List.range' (q + x.length + 1) (n - q - x.length)).map mem := by
    have hsplit : n + 1 - q = x.length + (1 + (n - q - x.length)) := by omega
    rw [hsplit, ← List.range'_append_1, ← List.range'_append_1, List.map_append]
    congr 1
    · refine List.ext_getElem (by simp) fun j h1 h2 => ?_
      simp only [List.getElem_map, List.getElem_range', Nat.one_mul]
      exact hx j h2
    · simp [hend]
  rw [cstring, hrange, List.takeWhile_append_of_pos fun c hc => by simpa using h0 c hc]
  simp

theorem nulterminate_apply (c : Cmd Span) (mem : Nat → UInt8) (i : Nat) :
    nulterminate c mem i = if i ∈ c.words.map Span.eq then 0 else mem i := by
  rw [nulterminate_words]
  exact foldl_update _ i _

theorem Matches.cstring_word {c : Cmd Span} {d : Cmd Word} (h : Matches buf c d) (hbuf : ∀ c ∈ buf, c ≠ 0) {w : Span}
    {x : Word} (hw : w ∈ c.words) (hx : Covers buf w x) :
    cstring (nulterminate c fun i => buf.getD i 0) buf.length w.q = x := by
  refine cstring_eq (hx.eq ▸ hx.le) (fun j hj => ?_) (fun b hb => ?_) ?_
  · rw [nulterminate_apply, if_neg, hx.getD_eq hj]
    intro hj'
    obtain ⟨v, hv, hveq⟩ := List.mem_map.mp hj'
    obtain ⟨y, -, hy⟩ := h.covers v hv
    exact hx.eq_ne hy hj hveq.symm
  · refine hbuf b (List.mem_of_mem_drop (i := w.q) ?_)
    rw [hx.text]
    exact List.mem_append_left _ hb
  · rw [nulterminate_apply, ← hx.eq, if_pos (List.mem_map_of_mem hw)]

theorem strings_eq (hbuf : ∀ c ∈ buf, c ≠ 0) {c : Cmd Span} {d : Cmd Word} (h : Matches buf c d) :
    c.map (fun w => cstring (nulterminate c fun i => buf.getD i 0) buf.length w.q) = d :=
  h.map_eq fun _ hw _ hx => h.cstring_word hbuf hw hx

/-- `parsecmd` up to the check for leftovers. -/
def parseall (buf : List UInt8) : P (Cmd Span) := do
  let cmd ← parseline buf (depth buf)
  let _ ← peek buf []
  return cmd

theorem parsecmd_eq (buf : List UInt8) : parsecmd buf = (do
    let (cmd, s) ← (parseall buf).run 0
    if s ≠ buf.length then throw (.panic "syntax")
    else return (cmd, nulterminate cmd fun i => buf.getD i 0)) := rfl

theorem depth_lt (buf : List UInt8) (p : Nat) : 4 * (toks buf p).length + 3 < depth buf := by
  have := length_toks_lt buf p
  unfold depth
  omega

theorem parseall_of_derives (hbuf : ∀ c ∈ buf, c ≠ 0) {d : Cmd Word} (hd : Derives .line (tokens buf) d) :
    ∃ c, (parseall buf).run 0 = .ok (c, buf.length) ∧ Matches buf c d := by
  have h : wp (parseall buf) (fun c p => p = buf.length ∧ Matches buf c d) (fun _ => False) 0 := by
    rw [parseall, wp_bind]
    refine parse_complete hbuf hd (Nat.zero_le _) (List.append_nil _).symm (.inl rfl) (depth_lt buf 0)
      fun c p _ htoks hc => ?_
    rw [wp_bind]
    exact wp_peek hbuf (by decide) ‹_› fun p' _ _ hend => ⟨hend htoks, hc⟩
  obtain ⟨c, p, hrun, rfl, hc⟩ := exists_of_wp h
  exact ⟨c, hrun, hc⟩

theorem wp_parseall (hbuf : ∀ c ∈ buf, c ≠ 0) (hno : ∀ d, ¬ Derives .line (tokens buf) d) :
    wp (parseall buf) (fun _ p => p ≠ buf.length) (fun e => ∃ msg, e = .panic msg) 0 := by
  rw [parseall, wp_bind]
  refine (parse_sound hbuf (fun msg => ⟨msg, rfl⟩) _ 0 (Nat.zero_le _)).1 (depth_lt buf 0)
    fun ts c d p hp htoks _ hts => ?_
  rw [wp_bind]
  refine wp_peek hbuf (by decide) hp fun p' _ htoks' _ hend => hno d ?_
  have hnil : toks buf p = [] := by
    rw [← htoks', hend, toks, List.drop_length, tokens]
  rw [hnil, List.append_nil] at htoks
  rw [show tokens buf = ts from htoks]
  exact hts

/-- `parsecmd` returns the command that the grammar assigns to the line, or panics if it assigns none. -/
theorem parsecmd_accepts_grammar (line : List UInt8) (hline : ∀ c ∈ line, c ≠ 0) :
    (∃ cmd mem d, parsecmd line = .ok (cmd, mem) ∧
      cmd.map (fun w => cstring mem line.length w.q) = d ∧
      Derives .line (tokens line) d ∧ ∀ d', Derives .line (tokens line) d' → d' = d) ∨
    (∃ msg, parsecmd line = .error (.panic msg)) ∧ ∀ d, ¬ Derives .line (tokens line) d := by
  rw [parsecmd_eq]
  by_cases h : ∃ d, Derives .line (tokens line) d
  · obtain ⟨d, hd⟩ := h
    obtain ⟨c, hrun, hc⟩ := parseall_of_derives hline hd
    refine .inl ⟨c, _, d, ?_, strings_eq hline hc, hd, fun d' hd' => ?_⟩
    · rw [hrun]
      exact if_neg (not_not.mpr rfl)
    · obtain ⟨c', hrun', hc'⟩ := parseall_of_derives hline hd'
      obtain rfl : c = c' := congrArg Prod.fst (Except.ok.inj (hrun.symm.trans hrun'))
      rw [← strings_eq hline hc, ← strings_eq hline hc']
  · rw [not_exists] at h
    refine .inr ⟨?_, h⟩
    have hwp := wp_parseall hline h
    cases hrun : (parseall line).run 0 with
    | error e =>
      obtain ⟨msg, rfl⟩ := wp_of_error hwp hrun
      exact ⟨msg, rfl⟩
    | ok x => exact ⟨"syntax", if_pos (wp_of_ok hwp hrun)⟩

def bytes (s : String) : List UInt8 := s.toList.map Char.toUInt8

theorem parsecmd_accepts_grammar_pipe :
    (∃ cmd mem d, parsecmd (bytes "a <x|b&;(c)>>y") = .ok (cmd, mem) ∧
      cmd.map (fun w => cstring mem (bytes "a <x|b&;(c)>>y").length w.q) = d ∧
      Derives .line (tokens (bytes "a <x|b&;(c)>>y")) d ∧
      ∀ d', Derives .line (tokens (bytes "a <x|b&;(c)>>y")) d' → d' = d) ∨
    (∃ msg, parsecmd (bytes "a <x|b&;(c)>>y") = .error (.panic msg)) ∧
      ∀ d, ¬ Derives .line (tokens (bytes "a <x|b&;(c)>>y")) d :=
  parsecmd_accepts_grammar (bytes "a <x|b&;(c)>>y") fun _ hc h0 => absurd (h0 ▸ hc) (by decide)

example : (parsecmd (bytes "a <x|b&;(c)>>y")).toOption.map
      (fun r => r.1.map fun w => cstring r.2 (bytes "a <x|b&;(c)>>y").length w.q) =
    some (.list (.back (.pipe (.redir (.exec [bytes "a"]) (bytes "x") O_RDONLY 0) (.exec [bytes "b"])))
      (.redir (.exec [bytes "c"]) (bytes "y") (O_WRONLY ||| O_CREATE) 1)) := by
  decide +kernel

end Xv6.Sh

import Xv6.Sh.Shell

/-!
# What `nulterminate` writes

The words of a parsed line are apart from each other: the byte behind a word is no byte of a word. So the NULs
can be written in any order, and each string of the command is the token that it was parsed from.
-/

namespace Xv6.Sh

open Function Wp

variable {buf : List UInt8}

/-- The bytes of the line from `w.q` up to `w.eq`. -/
def Span.text (buf : List UInt8) (w : Span) : Word := (buf.drop w.q).take (w.eq - w.q)

theorem Covers.text_eq {w : Span} {x : Word} (h : Covers buf w x) : w.text buf = x := by
  rw [Span.text, h.text, h.eq, Nat.add_sub_cancel_left, List.take_left]

theorem Covers.toks_eq {w : Span} {x : Word} (h : Covers buf w x) (hne : x ≠ []) :
    toks buf w.q = .word x :: toks buf w.eq := by
  cases x with
  | nil => exact absurd rfl hne
  | cons c cs =>
    have hc : isWord c = true := h.inside c List.mem_cons_self
    rw [isWord, Bool.and_eq_true, Bool.not_eq_true', Bool.not_eq_true'] at hc
    have hcs : ∀ b ∈ cs, isWord b = true := fun b hb => h.inside b (List.mem_cons_of_mem _ hb)
    have hstop : (buf.drop w.eq).takeWhile isWord = [] ∧ (buf.drop w.eq).dropWhile isWord = buf.drop w.eq := by
      cases hr : buf.drop w.eq with
      | nil => exact ⟨rfl, rfl⟩
      | cons b bs =>
        have hb := h.stop b bs hr
        exact ⟨List.takeWhile_cons_of_neg (by simp [hb]), List.dropWhile_cons_of_neg (by simp [hb])⟩
    rw [toks, h.text, List.cons_append, tokens_word (by simp [hc.1]) (by simp [hc.2]),
      List.takeWhile_append_of_pos hcs, List.dropWhile_append_of_pos hcs, hstop.1, hstop.2, List.append_nil]
    rfl

theorem tokens_word_ne_nil (l : List UInt8) : .word [] ∉ tokens l := by
  fun_induction tokens l with
  | case1 => exact List.not_mem_nil
  | case2 c cs _ ih => exact ih
  | case3 c cs _ _ ih => simpa using ih
  | case4 c cs _ _ _ ih => exact fun h => (List.mem_cons.mp h).elim (fun h => symbolTok_ne_word c [] h.symm) ih
  | case5 c cs _ _ _ ih => simpa using ih

/-! ## The words of a derivation -/

theorem words_redirs (rs : List Redir) (c : Cmd Word) : (redirs rs c).words = c.words ++ rs.map Redir.file := by
  induction rs using List.reverseRecOn with
  | nil => exact (List.append_nil _).symm
  | append_singleton rs r ih =>
    rw [redirs_concat, Cmd.words, ih, List.map_append, List.append_assoc]
    rfl

theorem words_backs (n : Nat) (c : Cmd Word) : (backs n c).words = c.words := by
  induction n generalizing c with
  | zero => rfl
  | succ n ih => exact ih (.back c)

theorem mem_redirToks {rs : List Redir} {x : Word} (h : x ∈ rs.map Redir.file) : .word x ∈ redirToks rs := by
  obtain ⟨r, hr, rfl⟩ := List.mem_map.mp h
  exact List.mem_flatMap.mpr ⟨r, hr, List.mem_cons_of_mem _ List.mem_cons_self⟩

theorem Derives.mem_words {nt : Nonterminal} {ts : List Tok} {d : Cmd Word} (h : Derives nt ts d) :
    ∀ x ∈ d.words, .word x ∈ ts := by
  induction h with
  | last n _ ih =>
    intro x hx
    rw [words_backs] at hx
    exact List.mem_append_left _ (ih x hx)
  | seq n _ _ ih ih' =>
    intro x hx
    rw [Cmd.words, words_backs] at hx
    rcases List.mem_append.mp hx with hx | hx
    · exact List.mem_append_left _ (List.mem_append_left _ (ih x hx))
    · exact List.mem_append_right _ (List.mem_cons_of_mem _ (ih' x hx))
  | one _ ih => exact ih
  | bar _ _ ih ih' =>
    intro x hx
    rcases List.mem_append.mp hx with hx | hx
    · exact List.mem_append_left _ (ih x hx)
    · exact List.mem_append_right _ (List.mem_cons_of_mem _ (ih' x hx))
  | block rs _ ih =>
    intro x hx
    rw [words_redirs] at hx
    rcases List.mem_append.mp hx with hx | hx
    · exact List.mem_append_left _ (List.mem_cons_of_mem _ (ih x hx))
    · exact List.mem_append_right _ (List.mem_cons_of_mem _ (mem_redirToks hx))
  | simple rs args hargs =>
    intro x hx
    rw [words_redirs, List.map_append] at hx
    rcases List.mem_append.mp hx with hx | hx
    · obtain ⟨a, ha, rfl⟩ := List.mem_map.mp hx
      exact List.mem_append_right _ (List.mem_flatMap.mpr ⟨a, ha, List.mem_cons_self⟩)
    · rcases List.mem_append.mp hx with hx | hx
      · exact List.mem_append_left _ (mem_redirToks hx)
      · obtain ⟨r, hr, rfl⟩ := List.mem_map.mp hx
        obtain ⟨a, ha, hra⟩ := List.mem_flatMap.mp hr
        exact List.mem_append_right _ (List.mem_flatMap.mpr
          ⟨a, ha, List.mem_cons_of_mem _ (mem_redirToks (List.mem_map_of_mem hra))⟩)

/-! ## `nulterminate` -/

theorem matches_of_parsecmd {line : List UInt8} {cmd : Cmd Span} {mem : Nat → UInt8} (hline : ∀ c ∈ line, c ≠ 0)
    (h : parsecmd line = .ok (cmd, mem)) : mem = nulterminate cmd (fun i => line.getD i 0) ∧
      ∃ d, Derives .line (tokens line) d ∧ Matches line cmd d := by
  rw [parsecmd_eq] at h
  by_cases hd : ∃ d, Derives .line (tokens line) d
  · obtain ⟨d, hd⟩ := hd
    obtain ⟨c, hrun, hc⟩ := parseall_of_derives hline hd
    rw [hrun] at h
    have hok : Except.ok (c, nulterminate c fun i => line.getD i 0) = Except.ok (cmd, mem) :=
      (if_neg (not_not.mpr rfl)).symm.trans h
    obtain ⟨rfl, rfl⟩ := Prod.mk.inj (Except.ok.inj hok)
    exact ⟨rfl, d, hd, hc⟩
  · rw [not_exists] at hd
    have hwp := wp_parseall hline hd
    cases hrun : (parseall line).run 0 with
    | error e =>
      rw [hrun] at h
      cases h
    | ok x =>
      rw [hrun] at h
      have herr : Except.error (Stop.panic "syntax") = Except.ok (cmd, mem) :=
        (if_pos (wp_of_ok hwp hrun)).symm.trans h
      cases herr

theorem foldl_perm {l l' : List Span} (h : l.Perm l') (mem : Nat → UInt8) :
    l.foldl (fun mem w => update mem w.eq 0) mem = l'.foldl (fun mem w => update mem w.eq 0) mem := by
  funext i
  rw [foldl_update, foldl_update]
  exact if_congr (h.map Span.eq).mem_iff rfl rfl

/-- `nulterminate` delivers exactly the tokens. In a line that the parser accepts, each string of the command is
the word token that it was parsed from, and the command of these words is the one that the grammar derives. The
NUL behind a word is written, it is no byte of a word, and the order of these writes does not matter. -/
theorem nulterminate_delivers_tokens (line : List UInt8) (hline : ∀ c ∈ line, c ≠ 0) (cmd : Cmd Span)
    (mem : Nat → UInt8) (h : parsecmd line = .ok (cmd, mem)) :
    (∀ w ∈ cmd.words, cstring mem line.length w.q = w.text line ∧ mem w.eq = 0 ∧
      toks line w.q = .word (w.text line) :: toks line w.eq) ∧
    Derives .line (tokens line) (cmd.map (Span.text line)) ∧
    (∀ v ∈ cmd.words, ∀ w ∈ cmd.words, ¬ (w.q ≤ v.eq ∧ v.eq < w.eq)) ∧
    ∀ order : List Span, order.Perm cmd.words →
      order.foldl (fun m w => update m w.eq 0) (fun i => line.getD i 0) = mem := by
  obtain ⟨rfl, d, hd, hm⟩ := matches_of_parsecmd hline h
  refine ⟨fun w hw => ?_, ?_, fun v hv w hw hin => ?_, fun order horder => ?_⟩
  · obtain ⟨x, hx, hcov⟩ := hm.covers w hw
    have hne : x ≠ [] := fun h0 => tokens_word_ne_nil line (h0 ▸ hd.mem_words x hx)
    rw [hcov.text_eq]
    refine ⟨hm.cstring_word hline hw hcov, ?_, hcov.toks_eq hne⟩
    rw [nulterminate_apply, if_pos (List.mem_map_of_mem hw)]
  · rwa [hm.map_eq fun w _ x hcov => hcov.text_eq]
  · obtain ⟨x, -, hcov⟩ := hm.covers w hw
    obtain ⟨y, -, hcov'⟩ := hm.covers v hv
    have hlen := hcov.eq
    refine hcov.eq_ne hcov' (show v.eq - w.q < x.length by omega) ?_
    omega
  · rw [foldl_perm horder, nulterminate_words]

/-- Words that abut symbols and the end of the line. -/
theorem nulterminate_delivers_tokens_abut : ∃ cmd mem, parsecmd (bytes "a<x|b>y") = .ok (cmd, mem) ∧
    cmd.words.map (fun w => cstring mem 7 w.q) = [bytes "a", bytes "x", bytes "b", bytes "y"] := by
  have hline : ∀ c ∈ bytes "a<x|b>y", c ≠ 0 := fun _ hc h0 => absurd (h0 ▸ hc) (by decide)
  have hrun : (parsecmd (bytes "a<x|b>y")).toOption.map (fun r => r.1.words.map (Span.text (bytes "a<x|b>y"))) =
    some [bytes "a", bytes "x", bytes "b", bytes "y"] := by decide +kernel
  cases h : parsecmd (bytes "a<x|b>y") with
  | error e =>
    rw [h] at hrun
    cases hrun
  | ok r =>
    rw [h] at hrun
    refine ⟨r.1, r.2, rfl, ?_⟩
    rw [← Option.some.inj hrun]
    exact List.map_congr_left fun w hw => ((nulterminate_delivers_tokens _ hline r.1 r.2 h).1 w hw).1

end Xv6.Sh

import Mathlib.Data.List.Forall2
import Mathlib.Data.List.Induction
import Xv6.Sh.Lexer

/-!
# What the parser returns is derivable

Every function of the parser ends and either panics or returns the command of a derivation of the tokens
it has read. The measure is four times the number of tokens that are left, plus the place of the function
in the chain `parseline`, `parsepipe`, `parseexec`, `parseblock`.
-/

namespace Xv6.Sh

open Wp

variable {buf : List UInt8} {E : Stop → Prop} {p : Nat}

/-- A command of the parser has the shape of `d`, and its words are those of `d`. -/
inductive Matches (buf : List UInt8) : Cmd Span → Cmd Word → Prop
  | exec {ws : List Span} {xs : List Word} : List.Forall₂ (Covers buf) ws xs → Matches buf (.exec ws) (.exec xs)
  | redir {c : Cmd Span} {d : Cmd Word} {w : Span} {x : Word} {mode fd : Nat} :
      Matches buf c d → Covers buf w x → Matches buf (.redir c w mode fd) (.redir d x mode fd)
  | pipe {c c' : Cmd Span} {d d' : Cmd Word} :
      Matches buf c d → Matches buf c' d' → Matches buf (.pipe c c') (.pipe d d')
  | list {c c' : Cmd Span} {d d' : Cmd Word} :
      Matches buf c d → Matches buf c' d' → Matches buf (.list c c') (.list d d')
  | back {c : Cmd Span} {d : Cmd Word} : Matches buf c d → Matches buf (.back c) (.back d)

theorem redirs_concat (rs : List Redir) (r : Redir) (c : Cmd Word) :
    redirs (rs ++ [r]) c = .redir (redirs rs c) r.file r.dir.mode r.dir.fd := by
  simp [redirs]

theorem redirs_append (rs rs' : List Redir) (c : Cmd Word) : redirs (rs ++ rs') c = redirs rs' (redirs rs c) := by
  simp [redirs]

theorem Matches.push {w : Span} {x : Word} (hw : Covers buf w x) {xs : List Word} (rs : List Redir) :
    ∀ {c : Cmd Span}, Matches buf c (redirs rs (.exec xs)) →
      Matches buf (c.push w) (redirs rs (.exec (xs ++ [x]))) := by
  induction rs using List.reverseRecOn with
  | nil =>
    intro c h
    cases h with
    | exec hws => exact .exec (List.rel_append hws (.cons hw .nil))
  | append_singleton rs r ih =>
    intro c h
    rw [redirs_concat] at h ⊢
    cases h with
    | redir hc hfile => exact .redir (ih hc) hfile

theorem length_tokens_le (l : List UInt8) : (tokens l).length ≤ l.length := by
  fun_induction tokens l with
  | case1 => exact Nat.le_refl 0
  | case2 c cs _ ih => exact Nat.le_succ_of_le ih
  | case3 c cs _ _ ih =>
    rw [List.length_tail] at ih
    simp only [List.length_cons]
    omega
  | case4 c cs _ _ _ ih => exact Nat.succ_le_succ ih
  | case5 c cs _ _ _ ih => exact Nat.succ_le_succ (ih.trans (List.length_dropWhile_le _ _))

theorem length_toks_lt (buf : List UInt8) (p : Nat) : (toks buf p).length < buf.length + 1 := by
  refine Nat.lt_succ_of_le ((length_tokens_le _).trans ?_)
  rw [List.length_drop]
  exact Nat.sub_le _ _

theorem code_eq_aTok {t : Tok} (h : t.code = aTok) : ∃ x, t = .word x := by
  cases t with
  | word x => exact ⟨x, rfl⟩
  | _ => exact absurd h (by decide)

theorem code_ne_zero (t : Tok) : t.code ≠ 0 := by
  cases t with
  | word x => exact (by decide : aTok ≠ 0)
  | _ => decide

theorem heads_redir {ts : List Tok} (h : heads ['<', '>'] ts = true) : ∃ dir : Direction, ∃ us, ts = dir.tok :: us := by
  cases ts with
  | nil => cases h
  | cons t us =>
    cases t with
    | lt => exact ⟨.input, us, rfl⟩
    | gt => exact ⟨.output, us, rfl⟩
    | gtgt => exact ⟨.append, us, rfl⟩
    | _ => exact absurd h Bool.false_ne_true

theorem redircmd_code (dir : Direction) (c : Cmd Span) (w : Span) :
    redircmd dir.tok.code c w = .redir c w dir.mode dir.fd := by
  cases dir <;> rfl

/-- `t` is the only token that `peek` of the one symbol `ch` accepts. -/
def Symbol (ch : Char) (t : Tok) : Prop := ∀ t', t'.first.any (strchr ([ch].map Char.toUInt8)) = true → t' = t

theorem symbol_amp : Symbol '&' .amp := fun t h => by
  cases t <;> first | rfl | exact absurd h Bool.false_ne_true

theorem symbol_semi : Symbol ';' .semi := fun t h => by
  cases t <;> first | rfl | exact absurd h Bool.false_ne_true

theorem symbol_bar : Symbol '|' .bar := fun t h => by
  cases t <;> first | rfl | exact absurd h Bool.false_ne_true

theorem symbol_lpar : Symbol '(' .lpar := fun t h => by
  cases t <;> first | rfl | exact absurd h Bool.false_ne_true

theorem symbol_rpar : Symbol ')' .rpar := fun t h => by
  cases t <;> first | rfl | exact absurd h Bool.false_ne_true

theorem Symbol.eq_cons {ch : Char} {t : Tok} (hs : Symbol ch t) {ts : List Tok} (h : heads [ch] ts = true) :
    ∃ us, ts = t :: us := by
  cases ts with
  | nil => cases h
  | cons t' us => exact ⟨us, by rw [hs t' h]⟩

theorem wp_eat (hbuf : ∀ c ∈ buf, c ≠ 0) (hp : p ≤ buf.length) {t : Tok} {us : List Tok}
    (htoks : toks buf p = t :: us) {Q : UInt8 × Span → Nat → Prop}
    (hQ : ∀ r p', p' ≤ buf.length → toks buf p' = us → Q r p') : wp (gettoken buf) Q E p := by
  refine wp_gettoken hbuf hp (fun hnil => ?_) fun t' ts w htok _ p' hp' htoks' => hQ _ p' hp' ?_
  · rw [htoks] at hnil
    cases hnil
  · rw [htoks', (List.cons.inj (htoks.symm.trans htok)).2]

section

variable (hbuf : ∀ c ∈ buf, c ≠ 0) (hE : ∀ msg, E (.panic msg))

include hbuf hE

theorem wp_parseredirs_sound (fuel : Nat) : ∀ {c : Cmd Span} {d : Cmd Word} {p : Nat}, p ≤ buf.length →
    (toks buf p).length < fuel → Matches buf c d → ∀ {Q : Cmd Span → Nat → Prop},
    (∀ rs c' p', p' ≤ buf.length → toks buf p = redirToks rs ++ toks buf p' → Matches buf c' (redirs rs d) →
      Q c' p') → wp (parseredirs buf fuel c) Q E p := by
  induction fuel with
  | zero => exact fun _ hfuel => absurd hfuel (Nat.not_lt_zero _)
  | succ fuel ih =>
    intro c d p hp hfuel hcd Q hQ
    rw [parseredirs, wp_bind]
    refine wp_peek hbuf (by decide) hp fun p₁ hp₁ htoks₁ _ => ?_
    rw [wp_ite]
    refine ⟨fun hhead => ?_, fun _ => hQ [] c p₁ hp₁ htoks₁.symm hcd⟩
    obtain ⟨dir, us, hus⟩ := heads_redir hhead
    rw [wp_bind]
    refine wp_gettoken hbuf hp₁ (fun hnil => ?_) fun t ts w₀ htok _ p₂ hp₂ htoks₂ => ?_
    · rw [htoks₁, hus] at hnil
      cases hnil
    rw [htoks₁, hus] at htok
    obtain ⟨rfl, rfl⟩ := List.cons.inj htok
    show wp (gettoken buf >>= _) Q E p₂
    rw [wp_bind]
    refine wp_gettoken hbuf hp₂ (fun _ _ _ _ _ => hE _) fun t' ts' w htok' hcov p₃ hp₃ htoks₃ => ?_
    show wp (if t'.code ≠ aTok then _ else _) Q E p₃
    rw [wp_ite]
    refine ⟨fun _ => hE _, fun hcode => ?_⟩
    obtain ⟨x, rfl⟩ := code_eq_aTok (not_not.mp hcode)
    rw [htoks₂] at htok'
    subst htok'
    rw [redircmd_code]
    have hlen := hfuel
    rw [hus] at hlen
    simp only [List.length_cons] at hlen
    refine ih hp₃ (by rw [htoks₃]; omega) (.redir hcd (hcov x rfl)) fun rs c' p' hp' heq hm => ?_
    refine hQ (⟨dir, x⟩ :: rs) c' p' hp' ?_ hm
    rw [hus, ← htoks₃, heq]
    rfl

omit hE in
theorem wp_parsebacks_sound (fuel : Nat) : ∀ {c : Cmd Span} {d : Cmd Word} {p : Nat}, p ≤ buf.length →
    (toks buf p).length < fuel → Matches buf c d → ∀ {Q : Cmd Span → Nat → Prop},
    (∀ n c' p', p' ≤ buf.length → toks buf p = List.replicate n .amp ++ toks buf p' → Matches buf c' (backs n d) →
      Q c' p') → wp (parsebacks buf fuel c) Q E p := by
  induction fuel with
  | zero => exact fun _ hfuel => absurd hfuel (Nat.not_lt_zero _)
  | succ fuel ih =>
    intro c d p hp hfuel hcd Q hQ
    rw [parsebacks, wp_bind]
    refine wp_peek hbuf (by decide) hp fun p₁ hp₁ htoks₁ _ => ?_
    rw [wp_ite]
    refine ⟨fun hhead => ?_, fun _ => hQ 0 c p₁ hp₁ htoks₁.symm hcd⟩
    obtain ⟨us, hus⟩ := symbol_amp.eq_cons hhead
    rw [wp_bind]
    refine wp_eat hbuf hp₁ (htoks₁.trans hus) fun _ p₂ hp₂ htoks₂ => ?_
    rw [hus, List.length_cons] at hfuel
    refine ih hp₂ (by rw [htoks₂]; omega) (.back hcd) fun n c' p' hp' heq hm => hQ (n + 1) c' p' hp' ?_ hm
    rw [hus, ← htoks₂, heq]
    rfl

/-- The loop of `parseexec`: `xs` are the words so far, inside of the redirections `rs`. -/
theorem wp_parseargs_sound (fuel : Nat) : ∀ {argc : Nat} {c : Cmd Span} {rs : List Redir} {xs : List Word} {p : Nat},
    p ≤ buf.length → (toks buf p).length < fuel → argc < MAXARGS → Matches buf c (redirs rs (.exec xs)) →
    ∀ {Q : Nat × Cmd Span → Nat → Prop},
    (∀ args c' p', p' ≤ buf.length → toks buf p = argToks args ++ toks buf p' → argc + args.length < MAXARGS →
      Matches buf c' (redirs (rs ++ args.flatMap Prod.snd) (.exec (xs ++ args.map Prod.fst))) →
      Q (argc + args.length, c') p') → wp (parseargs buf fuel argc c) Q E p := by
  induction fuel with
  | zero => exact fun _ hfuel => absurd hfuel (Nat.not_lt_zero _)
  | succ fuel ih =>
    intro argc c rs xs p hp hfuel hargc hc Q hQ
    -- no word is left
    have hdone : ∀ p' ≤ buf.length, toks buf p' = toks buf p → Q (argc, c) p' := fun p' hp' htoks => by
      refine hQ [] c p' hp' htoks.symm hargc ?_
      rwa [List.flatMap_nil, List.append_nil, List.map_nil, List.append_nil]
    rw [parseargs, wp_bind]
    refine wp_peek hbuf (by decide) hp fun p₁ hp₁ htoks₁ _ => ?_
    rw [wp_ite]
    refine ⟨fun _ => hdone p₁ hp₁ htoks₁, fun _ => ?_⟩
    rw [wp_bind]
    refine wp_gettoken hbuf hp₁ (fun hnil w p₂ hp₂ hnil₂ => hdone p₂ hp₂ ?_)
      fun t ts w htok hcov p₂ hp₂ htoks₂ => ?_
    · rw [hnil₂, ← htoks₁, hnil]
    show wp (if t.code = 0 then _ else if t.code ≠ aTok then _ else _) Q E p₂
    rw [if_neg (code_ne_zero t), wp_ite]
    refine ⟨fun _ => hE _, fun hcode => ?_⟩
    obtain ⟨x, rfl⟩ := code_eq_aTok (not_not.mp hcode)
    rw [if_neg (Nat.not_le_of_lt hargc), wp_ite]
    refine ⟨fun _ => hE _, fun hmore => ?_⟩
    rw [htoks₁] at htok
    rw [htok, List.length_cons] at hfuel
    rw [wp_bind]
    refine wp_parseredirs_sound hbuf hE _ hp₂ (length_toks_lt _ _) (hc.push (hcov x rfl))
      fun rs' c' p₃ hp₃ heq₃ hm => ?_
    rw [← redirs_append] at hm
    have hlen : (toks buf p₃).length < fuel := by
      have := congrArg List.length heq₃
      rw [htoks₂, List.length_append] at this
      omega
    refine ih hp₃ hlen (Nat.lt_of_not_le hmore) hm fun args c'' p' hp' heq hcount hm' => ?_
    rw [Nat.add_right_comm] at hcount ⊢
    refine hQ ((x, rs') :: args) c'' p' hp' ?_ hcount ?_
    · rw [htok, ← htoks₂, heq₃, heq]
      simp [argToks]
    · simpa using hm'

/-- `f` at `p` returns the command of a derivation from `x`. -/
def Sound (buf : List UInt8) (E : Stop → Prop) (x : Nonterminal) (f : P (Cmd Span)) (p : Nat) : Prop :=
  ∀ {Q : Cmd Span → Nat → Prop}, (∀ ts c d p', p' ≤ buf.length → toks buf p = ts ++ toks buf p' →
    Matches buf c d → Derives x ts d → Q c p') → wp f Q E p

theorem parseblock_sound {fuel : Nat} (hp : p ≤ buf.length)
    (hline : ∀ p' ≤ buf.length, (toks buf p').length < (toks buf p).length →
      Sound buf E .line (parseline buf fuel) p') : Sound buf E .exec (parseblock buf (fuel + 1)) p := by
  intro Q hQ
  rw [parseblock, wp_bind]
  refine wp_peek hbuf (by decide) hp fun p₁ hp₁ htoks₁ _ => ?_
  rw [wp_ite]
  refine ⟨fun _ => hE _, fun hhead => ?_⟩
  obtain ⟨us, hus⟩ := symbol_lpar.eq_cons (by simpa using hhead)
  rw [wp_bind]
  refine wp_eat hbuf hp₁ (htoks₁.trans hus) fun _ p₂ hp₂ htoks₂ => ?_
  rw [wp_bind]
  refine hline p₂ hp₂ (by rw [htoks₂, hus]; exact Nat.lt_succ_self _) fun ts c d p₃ hp₃ heq₃ hcd hts => ?_
  rw [wp_bind]
  refine wp_peek hbuf (by decide) hp₃ fun p₄ hp₄ htoks₄ _ => ?_
  rw [wp_ite]
  refine ⟨fun _ => hE _, fun hhead' => ?_⟩
  obtain ⟨vs, hvs⟩ := symbol_rpar.eq_cons (by simpa using hhead')
  rw [wp_bind]
  refine wp_eat hbuf hp₄ (htoks₄.trans hvs) fun _ p₅ hp₅ htoks₅ => ?_
  refine wp_parseredirs_sound hbuf hE _ hp₅ (length_toks_lt _ _) hcd
    fun rs c' p' hp' heq hm => hQ _ c' _ p' hp' ?_ hm (.block rs hts)
  rw [hus, ← htoks₂, heq₃, hvs, ← htoks₅, heq]
  simp

theorem parseexec_sound {fuel : Nat} (hp : p ≤ buf.length)
    (hblock : ∀ p' ≤ buf.length, toks buf p' = toks buf p → Sound buf E .exec (parseblock buf fuel) p') :
    Sound buf E .exec (parseexec buf (fuel + 1)) p := by
  intro Q hQ
  rw [parseexec, wp_bind]
  refine wp_peek hbuf (by decide) hp fun p₁ hp₁ htoks₁ _ => ?_
  rw [wp_ite]
  refine ⟨fun _ => hblock p₁ hp₁ htoks₁ (htoks₁ ▸ hQ), fun _ => ?_⟩
  rw [wp_bind]
  refine wp_parseredirs_sound hbuf hE _ hp₁ (length_toks_lt _ _) (.exec .nil)
    fun rs c p₂ hp₂ heq₂ hc => ?_
  rw [wp_bind]
  refine wp_parseargs_sound hbuf hE _ hp₂ (length_toks_lt _ _) (by decide) hc
    fun args c' p' hp' heq hargs hm => ?_
  show wp (if MAXARGS ≤ 0 + args.length then _ else _) Q E p'
  rw [if_neg (Nat.not_le_of_lt hargs)]
  rw [Nat.zero_add] at hargs
  refine hQ _ c' _ p' hp' ?_ hm (.simple rs args hargs)
  rw [← htoks₁, heq₂, heq, List.append_assoc]

omit hE in
theorem parsepipe_sound {fuel : Nat}
    (hexec : Sound buf E .exec (parseexec buf fuel) p)
    (hpipe : ∀ p' ≤ buf.length, (toks buf p').length < (toks buf p).length →
      Sound buf E .pipe (parsepipe buf fuel) p') : Sound buf E .pipe (parsepipe buf (fuel + 1)) p := by
  intro Q hQ
  rw [parsepipe, wp_bind]
  refine hexec fun ts c d p₁ hp₁ heq₁ hcd hts => ?_
  rw [wp_bind]
  refine wp_peek hbuf (by decide) hp₁ fun p₂ hp₂ htoks₂ _ => ?_
  rw [wp_ite]
  refine ⟨fun hhead => ?_, fun _ => hQ ts c d p₂ hp₂ (by rw [heq₁, htoks₂]) hcd (.one hts)⟩
  obtain ⟨us, hus⟩ := symbol_bar.eq_cons hhead
  rw [wp_bind]
  refine wp_eat hbuf hp₂ (htoks₂.trans hus) fun _ p₃ hp₃ htoks₃ => ?_
  rw [wp_bind]
  have hlen : (toks buf p₃).length < (toks buf p).length := by
    rw [heq₁, hus, htoks₃, List.length_append, List.length_cons]
    omega
  refine hpipe p₃ hp₃ hlen fun ts' c' d' p' hp' heq hcd' hts' => ?_
  refine hQ _ _ _ p' hp' ?_ (.pipe hcd hcd') (.bar hts hts')
  rw [heq₁, hus, ← htoks₃, heq]
  simp

omit hE in
theorem parseline_sound {fuel : Nat}
    (hpipe : Sound buf E .pipe (parsepipe buf fuel) p)
    (hline : ∀ p' ≤ buf.length, (toks buf p').length < (toks buf p).length →
      Sound buf E .line (parseline buf fuel) p') : Sound buf E .line (parseline buf (fuel + 1)) p := by
  intro Q hQ
  rw [parseline, wp_bind]
  refine hpipe fun ts c d p₁ hp₁ heq₁ hcd hts => ?_
  rw [wp_bind]
  refine wp_parsebacks_sound hbuf _ hp₁ (length_toks_lt _ _) hcd
    fun n c' p₂ hp₂ heq₂ hcd' => ?_
  rw [wp_bind]
  refine wp_peek hbuf (by decide) hp₂ fun p₃ hp₃ htoks₃ _ => ?_
  rw [wp_ite]
  refine ⟨fun hhead => ?_, fun _ => hQ _ c' _ p₃ hp₃ ?_ hcd' (.last n hts)⟩
  · obtain ⟨us, hus⟩ := symbol_semi.eq_cons hhead
    rw [wp_bind]
    refine wp_eat hbuf hp₃ (htoks₃.trans hus) fun _ p₄ hp₄ htoks₄ => ?_
    rw [wp_bind]
    have hlen : (toks buf p₄).length < (toks buf p).length := by
      rw [heq₁, heq₂, hus, htoks₄, List.length_append, List.length_append, List.length_cons]
      omega
    refine hline p₄ hp₄ hlen fun ts' c'' d' p' hp' heq hcd'' hts' => ?_
    refine hQ _ _ _ p' hp' ?_ (.list hcd' hcd'') (.seq n hts hts')
    rw [heq₁, heq₂, hus, ← htoks₄, heq]
    simp
  · rw [heq₁, heq₂, htoks₃, List.append_assoc]

theorem parse_sound (fuel : Nat) : ∀ p ≤ buf.length,
    (4 * (toks buf p).length + 3 < fuel → Sound buf E .line (parseline buf fuel) p) ∧
    (4 * (toks buf p).length + 2 < fuel → Sound buf E .pipe (parsepipe buf fuel) p) ∧
    (4 * (toks buf p).length + 1 < fuel → Sound buf E .exec (parseexec buf fuel) p) ∧
    (4 * (toks buf p).length < fuel → Sound buf E .exec (parseblock buf fuel) p) := by
  induction fuel with
  | zero => exact fun p _ => ⟨fun h => absurd h (Nat.not_lt_zero _), fun h => absurd h (Nat.not_lt_zero _),
      fun h => absurd h (Nat.not_lt_zero _), fun h => absurd h (Nat.not_lt_zero _)⟩
  | succ fuel ih =>
    intro p hp
    refine ⟨fun h => ?_, fun h => ?_, fun h => ?_, fun h => ?_⟩
    · exact parseline_sound hbuf ((ih p hp).2.1 (by omega))
        fun p' hp' hlt => (ih p' hp').1 (by omega)
    · exact parsepipe_sound hbuf ((ih p hp).2.2.1 (by omega))
        fun p' hp' hlt => (ih p' hp').2.1 (by omega)
    · exact parseexec_sound hbuf hE hp fun p' hp' heq => (ih p' hp').2.2.2 (by rw [heq]; omega)
    · exact parseblock_sound hbuf hE hp fun p' hp' hlt => (ih p' hp').1 (by omega)

end

end Xv6.Sh

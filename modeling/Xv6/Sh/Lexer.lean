import Mathlib.Data.List.GetD
import Mathlib.Data.List.TakeWhile
import Mathlib.Tactic.SplitIfs
import Xv6.Lib.Wp
import Xv6.Sh.Grammar

/-!
# `peek` and `gettoken` read tokens

At a pointer `p` the rest of the line has the tokens `toks buf p`. `peek` and `gettoken` are specified by
these tokens alone, and the parser is then read as a parser of token lists.
-/

namespace Xv6.Sh

open Wp

variable {buf : List UInt8} {E : Stop → Prop} {p s : Nat}

theorem wp_load {Q : UInt8 → Nat → Prop} (hs : s ≤ buf.length) (hQ : Q (buf.getD s 0) p) :
    wp (load buf s) Q E p := by
  rw [load, if_pos hs]
  exact hQ

theorem getD_drop (buf : List UInt8) (s : Nat) : buf.getD s 0 = (buf.drop s).headD 0 := by
  rw [List.headD_eq_head?_getD, List.head?_drop]
  rfl

theorem wp_scanLoop (cond : UInt8 → Bool) {Q : Nat → Nat → Prop} (fuel : Nat) : ∀ s, s ≤ buf.length →
    buf.length + 1 - s ≤ fuel → Q (s + ((buf.drop s).takeWhile cond).length) p →
    wp (scanLoop buf cond fuel s) Q E p := by
  induction fuel with
  | zero =>
    intro s hs hfuel
    omega
  | succ fuel ih =>
    intro s hs hfuel hQ
    rw [scanLoop, wp_ite]
    refine ⟨fun hlt => ?_, fun hge => ?_⟩
    · rw [wp_bind]
      refine wp_load hs ?_
      rw [List.drop_eq_getElem_cons hlt, List.takeWhile_cons] at hQ
      rw [List.getD_eq_getElem _ _ hlt, wp_ite]
      refine ⟨fun hc => ih (s + 1) hlt (by omega) ?_, fun hc => ?_⟩
      · rw [if_pos hc] at hQ
        rwa [Nat.add_assoc, Nat.add_comm 1]
      · rwa [if_neg hc] at hQ
    · rwa [List.drop_eq_nil_of_le (by omega)] at hQ

theorem wp_scan (cond : UInt8 → Bool) {Q : Nat → Nat → Prop} (hs : s ≤ buf.length)
    (hQ : Q (s + ((buf.drop s).takeWhile cond).length) p) : wp (scan buf cond s) Q E p :=
  wp_scanLoop cond _ s hs le_rfl hQ

theorem drop_scan (cond : UInt8 → Bool) (buf : List UInt8) (s : Nat) :
    buf.drop (s + ((buf.drop s).takeWhile cond).length) = (buf.drop s).dropWhile cond := by
  rw [← List.drop_drop]
  generalize buf.drop s = l
  calc l.drop (l.takeWhile cond).length
      = (l.takeWhile cond ++ l.dropWhile cond).drop (l.takeWhile cond).length := by
        rw [List.takeWhile_append_dropWhile]
    _ = l.dropWhile cond := List.drop_left

theorem scan_le (cond : UInt8 → Bool) (hs : s ≤ buf.length) :
    s + ((buf.drop s).takeWhile cond).length ≤ buf.length := by
  have := (List.takeWhile_sublist (p := cond) (l := buf.drop s)).length_le
  rw [List.length_drop] at this
  omega

/-- The tokens from `p` on. -/
def toks (buf : List UInt8) (p : Nat) : List Tok := tokens (buf.drop p)

theorem tokens_dropWhile (l : List UInt8) : tokens (l.dropWhile (strchr whitespace)) = tokens l := by
  induction l with
  | nil => rfl
  | cons c cs ih =>
    rw [List.dropWhile_cons]
    split_ifs with hc
    · rw [ih, tokens, if_pos hc]
    · rfl

/-- The byte that a symbol begins with. -/
def Tok.first : Tok → Option UInt8
  | .word _ => none
  | .lt => some '<'.toUInt8
  | .gt => some '>'.toUInt8
  | .gtgt => some '>'.toUInt8
  | .bar => some '|'.toUInt8
  | .amp => some '&'.toUInt8
  | .semi => some ';'.toUInt8
  | .lpar => some '('.toUInt8
  | .rpar => some ')'.toUInt8

def Tok.code : Tok → UInt8
  | .word _ => aTok
  | .lt => '<'.toUInt8
  | .gt => '>'.toUInt8
  | .gtgt => plusTok
  | .bar => '|'.toUInt8
  | .amp => '&'.toUInt8
  | .semi => ';'.toUInt8
  | .lpar => '('.toUInt8
  | .rpar => ')'.toUInt8

/-- The next token is a symbol that begins with one of `l`. -/
def heads (l : List Char) : List Tok → Bool
  | [] => false
  | t :: _ => t.first.any (strchr (l.map Char.toUInt8))

theorem symbol_cases {c : UInt8} (h : strchr symbols c = true) (hgt : c ≠ '>'.toUInt8) :
    (symbolTok c).first = some c ∧ (symbolTok c).code = c ∧ c ≠ 0 ∧
      strchr (['|', '(', ')', ';', '&', '<'].map Char.toUInt8) c = true := by
  simp only [strchr, symbols, List.map_cons, List.map_nil, List.mem_cons, List.not_mem_nil, or_false,
    decide_eq_true_eq] at h
  rcases h with rfl | rfl | rfl | rfl | rfl | rfl | rfl
  all_goals first | exact absurd rfl hgt | decide

theorem symbolTok_ne_word (c : UInt8) (x : Word) : symbolTok c ≠ .word x := by
  unfold symbolTok
  split_ifs <;> nofun

theorem symbols_of_mem {c : UInt8} (h : c ∈ ['|', '(', ')', ';', '&', '<'].map Char.toUInt8) : c ∈ symbols := by
  have hsub : (['|', '(', ')', ';', '&', '<'].map Char.toUInt8).all (strchr symbols) = true := by decide
  exact of_decide_eq_true (List.all_eq_true.mp hsub c h)

theorem tokens_symbol {c : UInt8} {cs : List UInt8} (h : strchr symbols c = true) (hgt : c ≠ '>'.toUInt8)
    (hb : ¬ strchr whitespace c = true) : tokens (c :: cs) = symbolTok c :: tokens cs := by
  rw [tokens, if_neg hb, if_neg fun hg => hgt hg.1, if_pos h]

theorem tokens_gt (cs : List UInt8) : tokens ('>'.toUInt8 :: cs) =
    if cs.head? = some '>'.toUInt8 then .gtgt :: tokens cs.tail else .gt :: tokens cs := by
  have hb : ¬ strchr whitespace '>'.toUInt8 = true := by decide
  have hs : strchr symbols '>'.toUInt8 = true := by decide
  rw [tokens]
  split_ifs with h1 h2 h3
  · rfl
  · exact absurd h1.2 h2
  · exact absurd ⟨rfl, h3⟩ h1
  · rfl

theorem tokens_word {c : UInt8} {cs : List UInt8} (hb : ¬ strchr whitespace c = true)
    (hs : ¬ strchr symbols c = true) :
    tokens (c :: cs) = .word (c :: cs.takeWhile isWord) :: tokens (cs.dropWhile isWord) := by
  have hgt : c ≠ '>'.toUInt8 := by
    rintro rfl
    exact hs (by decide)
  rw [tokens, if_neg hb, if_neg fun hg => hgt hg.1, if_neg hs]

theorem tokens_ne_nil {c : UInt8} {cs : List UInt8} (hb : ¬ strchr whitespace c = true) :
    tokens (c :: cs) ≠ [] := by
  rw [tokens]
  split_ifs <;> exact List.cons_ne_nil _ _

theorem heads_tokens {l : List Char} (hl : (l.map Char.toUInt8).all (strchr symbols) = true) {c : UInt8}
    {cs : List UInt8} (hb : ¬ strchr whitespace c = true) :
    heads l (tokens (c :: cs)) = strchr (l.map Char.toUInt8) c := by
  by_cases hs : strchr symbols c = true
  · by_cases hgt : c = '>'.toUInt8
    · subst hgt
      rw [tokens_gt]
      split_ifs <;> rfl
    · rw [tokens_symbol hs hgt hb, heads, (symbol_cases hs hgt).1]
      rfl
  · rw [tokens_word hb hs, heads]
    refine (decide_eq_false fun hmem => hs (List.all_eq_true.mp hl c hmem)).symm

theorem not_blank_of_dropWhile {l cs : List UInt8} {c : UInt8} (h : l.dropWhile (strchr whitespace) = c :: cs) :
    ¬ strchr whitespace c = true := by
  have := List.dropWhile_get_zero_not (p := strchr whitespace) l (by rw [h]; exact Nat.succ_pos _)
  simpa [h] using this

/-- The word `x` stands in the line where `w` says. -/
structure Covers (buf : List UInt8) (w : Span) (x : Word) : Prop where
  le : w.eq ≤ buf.length
  text : buf.drop w.q = x ++ buf.drop w.eq
  eq : w.eq = w.q + x.length
  inside : ∀ c ∈ x, isWord c = true
  stop : ∀ c cs, buf.drop w.eq = c :: cs → isWord c = false

section

variable (hbuf : ∀ c ∈ buf, c ≠ 0)

include hbuf

theorem ne_zero_of_drop {p : Nat} {c : UInt8} {cs : List UInt8} (h : buf.drop p = c :: cs) : c ≠ 0 :=
  hbuf c (List.mem_of_mem_drop (h ▸ List.mem_cons_self))

theorem wp_peek {l : List Char} (hl : (l.map Char.toUInt8).all (strchr symbols) = true) (hp : p ≤ buf.length)
    {Q : Bool → Nat → Prop}
    (hQ : ∀ p' ≤ buf.length, toks buf p' = toks buf p → (toks buf p = [] → p' = buf.length) →
      Q (heads l (toks buf p)) p') : wp (peek buf l) Q E p := by
  rw [peek, wp_bind, wp_get, wp_bind]
  refine wp_scan _ hp ?_
  set p' := p + ((buf.drop p).takeWhile (strchr whitespace)).length with hp'
  have hle : p' ≤ buf.length := scan_le _ hp
  have hdrop : buf.drop p' = (buf.drop p).dropWhile (strchr whitespace) := drop_scan _ _ _
  have htoks : toks buf p' = toks buf p := by
    rw [toks, hdrop, tokens_dropWhile]
    rfl
  show wp (do let c ← load buf p'; return c ≠ 0 && strchr (l.map Char.toUInt8) c) Q E p'
  rw [wp_bind]
  refine wp_load hle ?_
  rw [getD_drop]
  cases hr : buf.drop p' with
  | nil =>
    have hend : p' = buf.length := Nat.le_antisymm hle (List.drop_eq_nil_iff.mp hr)
    have := hQ p' hle htoks fun _ => hend
    rwa [← htoks, toks, hr, tokens] at this
  | cons c cs =>
    have hb : ¬ strchr whitespace c = true := not_blank_of_dropWhile (hdrop.symm.trans hr)
    have h0 : c ≠ 0 := ne_zero_of_drop hbuf hr
    have hne : toks buf p ≠ [] := by
      rw [← htoks, toks, hr]
      exact tokens_ne_nil hb
    have := hQ p' hle htoks fun h => absurd h hne
    rw [← htoks, toks, hr, heads_tokens hl hb] at this
    simpa [h0] using this

theorem wp_token {q : Nat} {c : UInt8} {cs : List UInt8} (hr : buf.drop q = c :: cs)
    (hb : ¬ strchr whitespace c = true) {Q : UInt8 × Nat → Nat → Prop}
    (hQ : ∀ t e, e ≤ buf.length → tokens (c :: cs) = t :: tokens (buf.drop e) →
      (∀ x, t = .word x → Covers buf ⟨q, e⟩ x) → Q (t.code, e) p) : wp (token buf q) Q E p := by
  have hq : q < buf.length := by
    by_contra hge
    rw [List.drop_eq_nil_of_le (Nat.le_of_not_lt hge)] at hr
    cases hr
  have hcs : buf.drop (q + 1) = cs := by
    rw [← List.tail_drop, hr]
    rfl
  have h0 : c ≠ 0 := ne_zero_of_drop hbuf hr
  rw [token, wp_bind]
  refine wp_load (Nat.le_of_lt hq) ?_
  rw [getD_drop, hr, List.headD_cons, if_neg h0]
  by_cases hs : strchr symbols c = true
  · by_cases hgt : c = '>'.toUInt8
    · subst hgt
      rw [if_neg (by decide), if_pos rfl, wp_bind]
      refine wp_load hq ?_
      rw [getD_drop, hcs, wp_ite]
      cases cs with
      | nil =>
        refine ⟨fun h => absurd h (by decide), fun _ => hQ .gt (q + 1) hq ?_ nofun⟩
        rw [hcs]
        exact tokens_gt []
      | cons d ds =>
        have hds : buf.drop (q + 2) = ds := by
          rw [← List.tail_drop, hcs]
          rfl
        refine ⟨fun hd => hQ .gtgt (q + 2) ?_ ?_ nofun, fun hd => hQ .gt (q + 1) hq ?_ nofun⟩
        · have := congrArg List.length hcs
          rw [List.length_drop, List.length_cons] at this
          omega
        · replace hd : d = '>'.toUInt8 := hd
          rw [hds, tokens_gt, List.head?_cons, if_pos (congrArg some hd)]
          rfl
        · replace hd : d ≠ '>'.toUInt8 := hd
          rw [hcs, tokens_gt, List.head?_cons, if_neg fun h => hd (Option.some.inj h)]
    · obtain ⟨-, hcode, -, hone⟩ := symbol_cases hs hgt
      have := hQ (symbolTok c) (q + 1) hq (by rw [tokens_symbol hs hgt hb, hcs]) ?_
      · rw [if_pos hone]
        rwa [hcode] at this
      · exact fun x hx => absurd hx (symbolTok_ne_word c x)
  · have hw : isWord c = true := by simp [isWord, hb, hs]
    have hgt : c ≠ '>'.toUInt8 := by
      rintro rfl
      exact hs (by decide)
    have hone : ¬ strchr (['|', '(', ')', ';', '&', '<'].map Char.toUInt8) c = true := fun h =>
      hs (decide_eq_true (symbols_of_mem (of_decide_eq_true h)))
    have hword : (buf.drop q).takeWhile isWord = c :: cs.takeWhile isWord := by
      rw [hr, List.takeWhile_cons, if_pos hw]
    have hrest : buf.drop (q + ((buf.drop q).takeWhile isWord).length) = cs.dropWhile isWord := by
      rw [drop_scan, hr, List.dropWhile_cons, if_pos hw]
    rw [if_neg hone, if_neg hgt, wp_bind]
    refine wp_scan _ (Nat.le_of_lt hq) (hQ (.word (c :: cs.takeWhile isWord)) _ (scan_le _ (Nat.le_of_lt hq)) ?_ ?_)
    · rw [hrest, tokens_word hb hs]
    · rintro x hx
      obtain rfl := Tok.word.inj hx
      refine ⟨scan_le _ (Nat.le_of_lt hq), ?_, by rw [hword], ?_, fun d ds hd => ?_⟩
      · show buf.drop q = _ ++ buf.drop (q + _)
        rw [drop_scan, ← hword, List.takeWhile_append_dropWhile]
      · rw [← hword]
        exact fun d hd => List.mem_takeWhile_imp hd
      · rw [drop_scan] at hd
        have := List.dropWhile_get_zero_not (p := isWord) (buf.drop q) (by rw [hd]; exact Nat.succ_pos _)
        simpa [hd] using this

theorem wp_gettoken (hp : p ≤ buf.length) {Q : UInt8 × Span → Nat → Prop}
    (hend : toks buf p = [] → ∀ w, ∀ p' ≤ buf.length, toks buf p' = [] → Q (0, w) p')
    (htok : ∀ t ts w, toks buf p = t :: ts → (∀ x, t = .word x → Covers buf w x) → ∀ p' ≤ buf.length,
      toks buf p' = ts → Q (t.code, w) p') : wp (gettoken buf) Q E p := by
  rw [gettoken, wp_bind, wp_get, wp_bind]
  refine wp_scan _ hp ?_
  set q := p + ((buf.drop p).takeWhile (strchr whitespace)).length with hq
  have hle : q ≤ buf.length := scan_le _ hp
  have hdrop : buf.drop q = (buf.drop p).dropWhile (strchr whitespace) := drop_scan _ _ _
  have htoks : tokens (buf.drop q) = toks buf p := by
    rw [hdrop, tokens_dropWhile]
    rfl
  -- the blanks behind the token
  have hblank : ∀ e, toks buf (e + ((buf.drop e).takeWhile (strchr whitespace)).length) = tokens (buf.drop e) :=
    fun e => by rw [toks, drop_scan, tokens_dropWhile]
  rw [wp_bind]
  cases hr : buf.drop q with
  | nil =>
    rw [hr, tokens] at htoks
    rw [token, wp_bind]
    refine wp_load hle ?_
    rw [getD_drop, hr]
    show wp (do set (← scan buf (strchr whitespace) q); return ((0 : UInt8), (⟨q, q⟩ : Span))) Q E p
    rw [wp_bind]
    refine wp_scan _ hle (hend htoks.symm _ _ (scan_le _ hle) ?_)
    rw [hblank, hr, tokens]
  | cons c cs =>
    have hb : ¬ strchr whitespace c = true := not_blank_of_dropWhile (hdrop.symm.trans hr)
    refine wp_token hbuf hr hb fun t e he heq hcov => ?_
    show wp (do set (← scan buf (strchr whitespace) e); return (t.code, (⟨q, e⟩ : Span))) Q E p
    rw [wp_bind]
    refine wp_scan _ he (htok t _ _ ?_ hcov _ (scan_le _ he) (hblank e))
    rw [← htoks, hr, heq]

end

end Xv6.Sh

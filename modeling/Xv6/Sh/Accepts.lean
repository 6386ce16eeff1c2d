import Xv6.Sh.Sound

/-!
# The parser accepts what the grammar derives

By induction on the derivation: where the tokens of a derivation are followed by a token that may follow
them, or by the end of the line, the parser reads exactly these tokens and returns their command. With
soundness the parser and the grammar agree, and no line has two commands.
-/

namespace Xv6.Sh

open Wp

variable {buf : List UInt8} {E : Stop → Prop} {p : Nat}

def followers : Nonterminal → List Char
  | .line => [')']
  | .pipe => ['&', ';', ')']
  | .exec => ['|', '&', ';', ')']

/-- The tokens `rest` may stand behind `x`. -/
def Follow (x : Nonterminal) (rest : List Tok) : Prop := rest = [] ∨ heads (followers x) rest = true

theorem Follow.heads_eq {x : Nonterminal} {rest : List Tok} (h : Follow x rest) {l : List Char}
    (hdisj : ((followers x).map Char.toUInt8).all (fun c => !strchr (l.map Char.toUInt8) c) = true) :
    heads l rest = false := by
  rcases h with rfl | h
  · rfl
  · cases rest with
    | nil => cases h
    | cons t us =>
      simp only [heads] at h ⊢
      cases ht : t.first with
      | none => rfl
      | some c =>
        rw [ht] at h
        exact Bool.not_eq_true' _ ▸ List.all_eq_true.mp hdisj c (of_decide_eq_true h)

theorem Follow.mono {x y : Nonterminal} {rest : List Tok} (h : Follow x rest)
    (hsub : ((followers x).map Char.toUInt8).all (strchr ((followers y).map Char.toUInt8)) = true) : Follow y rest := by
  refine h.imp_right fun h => ?_
  cases rest with
  | nil => cases h
  | cons t us =>
    simp only [heads] at h ⊢
    cases ht : t.first with
    | none =>
      rw [ht] at h
      cases h
    | some c =>
      rw [ht] at h
      exact List.all_eq_true.mp hsub c (of_decide_eq_true h)

theorem heads_redirToks (r : Redir) (rs : List Redir) (rest : List Tok) :
    heads ['<', '>'] (redirToks (r :: rs) ++ rest) = true ∧ heads ['('] (redirToks (r :: rs) ++ rest) = false := by
  obtain ⟨dir, file⟩ := r
  cases dir <;> exact ⟨rfl, rfl⟩

theorem heads_perm {ts : List Tok} (h : heads (followers .exec) ts = true) :
    heads ['|', ')', '&', ';'] ts = true := by
  cases ts with
  | nil => cases h
  | cons t us => cases t <;> first | rfl | exact absurd h Bool.false_ne_true

theorem heads_argToks {rest : List Tok} (h : Follow .exec rest) (args : List (Word × List Redir)) :
    heads ['<', '>'] (argToks args ++ rest) = false ∧ heads ['('] (argToks args ++ rest) = false := by
  cases args with
  | nil => exact ⟨h.heads_eq (by decide), h.heads_eq (by decide)⟩
  | cons a args => exact ⟨rfl, rfl⟩

def parse (buf : List UInt8) : Nonterminal → Nat → P (Cmd Span)
  | .line => parseline buf
  | .pipe => parsepipe buf
  | .exec => parseexec buf

def rank : Nonterminal → Nat
  | .line => 3
  | .pipe => 2
  | .exec => 1

/-- `f` at `p` returns `d` and stops in front of `rest`. -/
def Reads (buf : List UInt8) (E : Stop → Prop) (f : P (Cmd Span)) (p : Nat) (d : Cmd Word) (rest : List Tok) :
    Prop :=
  ∀ {Q : Cmd Span → Nat → Prop}, (∀ c p', p' ≤ buf.length → toks buf p' = rest → Matches buf c d → Q c p') →
    wp f Q E p

/-- What the grammar derives from `x` is read by the function for `x`. -/
def Complete (buf : List UInt8) (E : Stop → Prop) (x : Nonterminal) (ts : List Tok) (d : Cmd Word) : Prop :=
  ∀ {fuel p : Nat} {rest : List Tok}, p ≤ buf.length → toks buf p = ts ++ rest → Follow x rest →
    4 * (toks buf p).length + rank x < fuel → Reads buf E (parse buf x fuel) p d rest

theorem follow_replicate {rest : List Tok} (n : Nat) (h : Follow .pipe rest) :
    Follow .pipe (List.replicate n .amp ++ rest) := by
  cases n with
  | zero => exact h
  | succ n => exact .inr rfl

section

variable (hbuf : ∀ c ∈ buf, c ≠ 0)

include hbuf

theorem wp_parseredirs_complete (rs : List Redir) {rest : List Tok} (hrest : heads ['<', '>'] rest = false) :
    ∀ {fuel : Nat} {c : Cmd Span} {d : Cmd Word} {p : Nat}, p ≤ buf.length → (toks buf p).length < fuel →
    toks buf p = redirToks rs ++ rest → Matches buf c d → ∀ {Q : Cmd Span → Nat → Prop},
    (∀ c' p', p' ≤ buf.length → toks buf p' = rest → Matches buf c' (redirs rs d) → Q c' p') →
    wp (parseredirs buf fuel c) Q E p := by
  induction rs with
  | nil =>
    intro fuel c d p hp hfuel htoks hcd Q hQ
    obtain ⟨fuel, rfl⟩ := Nat.exists_eq_succ_of_ne_zero (Nat.ne_zero_of_lt hfuel)
    rw [parseredirs, wp_bind]
    refine wp_peek hbuf (by decide) hp fun p₁ hp₁ htoks₁ _ => ?_
    rw [show toks buf p = rest from htoks] at htoks₁ ⊢
    rw [if_neg (by rw [hrest]; exact Bool.false_ne_true)]
    exact hQ c p₁ hp₁ htoks₁ hcd
  | cons r rs ih =>
    intro fuel c d p hp hfuel htoks hcd Q hQ
    obtain ⟨fuel, rfl⟩ := Nat.exists_eq_succ_of_ne_zero (Nat.ne_zero_of_lt hfuel)
    rw [parseredirs, wp_bind]
    refine wp_peek hbuf (by decide) hp fun p₁ hp₁ htoks₁ _ => ?_
    rw [htoks] at htoks₁ ⊢
    rw [if_pos (heads_redirToks r rs rest).1, wp_bind]
    have htoks₁' : toks buf p₁ = r.dir.tok :: .word r.file :: (redirToks rs ++ rest) := htoks₁
    refine wp_gettoken hbuf hp₁ (fun hnil => ?_) fun t ts w₀ htok _ p₂ hp₂ htoks₂ => ?_
    · rw [htoks₁'] at hnil
      cases hnil
    obtain ⟨rfl, rfl⟩ := List.cons.inj (htoks₁'.symm.trans htok)
    show wp (gettoken buf >>= _) Q E p₂
    rw [wp_bind]
    refine wp_gettoken hbuf hp₂ (fun hnil => ?_) fun t ts w htok' hcov p₃ hp₃ htoks₃ => ?_
    · rw [htoks₂] at hnil
      cases hnil
    obtain ⟨rfl, rfl⟩ := List.cons.inj (htoks₂.symm.trans htok')
    show wp (if aTok ≠ aTok then _ else _) Q E p₃
    rw [redircmd_code]
    refine ih hp₃ ?_ htoks₃ (.redir hcd (hcov _ rfl)) hQ
    rw [htoks, ← htoks₁, htoks₁', List.length_cons, List.length_cons, ← htoks₃] at hfuel
    omega

theorem wp_parsebacks_complete (n : Nat) {rest : List Tok} (hrest : heads ['&'] rest = false) :
    ∀ {fuel : Nat} {c : Cmd Span} {d : Cmd Word} {p : Nat}, p ≤ buf.length → (toks buf p).length < fuel →
    toks buf p = List.replicate n .amp ++ rest → Matches buf c d → ∀ {Q : Cmd Span → Nat → Prop},
    (∀ c' p', p' ≤ buf.length → toks buf p' = rest → Matches buf c' (backs n d) → Q c' p') →
    wp (parsebacks buf fuel c) Q E p := by
  induction n with
  | zero =>
    intro fuel c d p hp hfuel htoks hcd Q hQ
    obtain ⟨fuel, rfl⟩ := Nat.exists_eq_succ_of_ne_zero (Nat.ne_zero_of_lt hfuel)
    rw [parsebacks, wp_bind]
    refine wp_peek hbuf (by decide) hp fun p₁ hp₁ htoks₁ _ => ?_
    rw [show toks buf p = rest from htoks] at htoks₁ ⊢
    rw [if_neg (by rw [hrest]; exact Bool.false_ne_true)]
    exact hQ c p₁ hp₁ htoks₁ hcd
  | succ n ih =>
    intro fuel c d p hp hfuel htoks hcd Q hQ
    obtain ⟨fuel, rfl⟩ := Nat.exists_eq_succ_of_ne_zero (Nat.ne_zero_of_lt hfuel)
    rw [List.replicate_succ, List.cons_append] at htoks
    rw [parsebacks, wp_bind]
    refine wp_peek hbuf (by decide) hp fun p₁ hp₁ htoks₁ _ => ?_
    rw [htoks] at htoks₁ ⊢
    rw [if_pos (show heads ['&'] (.amp :: _) = true from rfl), wp_bind]
    refine wp_eat hbuf hp₁ htoks₁ fun _ p₂ hp₂ htoks₂ => ih hp₂ ?_ htoks₂ (.back hcd) hQ
    rw [htoks, List.length_cons, ← htoks₂] at hfuel
    omega

theorem wp_parseargs_complete {rest : List Tok} (hrest : Follow .exec rest) (args : List (Word × List Redir)) :
    ∀ {fuel argc : Nat} {c : Cmd Span} {rs : List Redir} {xs : List Word} {p : Nat}, p ≤ buf.length →
    (toks buf p).length < fuel → toks buf p = argToks args ++ rest → argc + args.length < MAXARGS →
    Matches buf c (redirs rs (.exec xs)) → ∀ {Q : Nat × Cmd Span → Nat → Prop},
    (∀ c' p', p' ≤ buf.length → toks buf p' = rest →
      Matches buf c' (redirs (rs ++ args.flatMap Prod.snd) (.exec (xs ++ args.map Prod.fst))) →
      Q (argc + args.length, c') p') → wp (parseargs buf fuel argc c) Q E p := by
  induction args with
  | nil =>
    intro fuel argc c rs xs p hp hfuel htoks hargc hc Q hQ
    obtain ⟨fuel, rfl⟩ := Nat.exists_eq_succ_of_ne_zero (Nat.ne_zero_of_lt hfuel)
    have hdone : ∀ p' ≤ buf.length, toks buf p' = rest → Q (argc, c) p' := fun p' hp' htoks' => by
      refine hQ c p' hp' htoks' ?_
      rwa [List.flatMap_nil, List.append_nil, List.map_nil, List.append_nil]
    rw [parseargs, wp_bind]
    refine wp_peek hbuf (by decide) hp fun p₁ hp₁ htoks₁ _ => ?_
    rw [show toks buf p = rest from htoks] at htoks₁ ⊢
    rw [wp_ite]
    refine ⟨fun _ => hdone p₁ hp₁ htoks₁, fun hhead => ?_⟩
    -- only the end of the line is left
    have hnil : rest = [] := hrest.resolve_right fun h => hhead (heads_perm h)
    rw [wp_bind]
    refine wp_gettoken hbuf hp₁ (fun _ w p₂ hp₂ hnil₂ => hdone p₂ hp₂ (hnil₂.trans hnil.symm))
      fun t ts w htok _ p₂ hp₂ htoks₂ => ?_
    rw [htoks₁, hnil] at htok
    cases htok
  | cons a args ih =>
    intro fuel argc c rs xs p hp hfuel htoks hargc hc Q hQ
    obtain ⟨x, rs'⟩ := a
    obtain ⟨fuel, rfl⟩ := Nat.exists_eq_succ_of_ne_zero (Nat.ne_zero_of_lt hfuel)
    have htoks' : toks buf p = .word x :: (redirToks rs' ++ (argToks args ++ rest)) := by
      rw [htoks]
      simp [argToks]
    rw [List.length_cons] at hargc
    rw [htoks', List.length_cons] at hfuel
    rw [parseargs, wp_bind]
    refine wp_peek hbuf (by decide) hp fun p₁ hp₁ htoks₁ _ => ?_
    rw [htoks'] at htoks₁ ⊢
    rw [if_neg (show ¬ heads _ (.word x :: _) = true from Bool.false_ne_true), wp_bind]
    refine wp_gettoken hbuf hp₁ (fun hnil => ?_) fun t ts w htok hcov p₂ hp₂ htoks₂ => ?_
    · rw [htoks₁] at hnil
      cases hnil
    obtain ⟨rfl, rfl⟩ := List.cons.inj (htoks₁.symm.trans htok)
    show wp (if aTok = 0 then _ else if aTok ≠ aTok then _ else _) Q E p₂
    rw [if_neg (by decide), if_neg (not_not.mpr rfl), if_neg (by omega), if_neg (by omega), wp_bind]
    refine wp_parseredirs_complete hbuf rs' (heads_argToks hrest args).1 hp₂
      (length_toks_lt _ _) htoks₂ (hc.push (hcov x rfl)) fun c' p₃ hp₃ htoks₃ hm => ?_
    rw [← redirs_append] at hm
    have hlen : (toks buf p₃).length < fuel := by
      rw [List.length_append, ← htoks₃] at hfuel
      omega
    refine ih hp₃ hlen htoks₃ (by omega) hm fun c'' p' hp' htoks'' hm' => ?_
    have := hQ c'' p' hp' htoks'' (by simpa using hm')
    rwa [List.length_cons, Nat.add_comm args.length, ← Nat.add_assoc] at this

/-- The part of `parseline` in front of `;`. -/
theorem wp_backs_of_pipe {ts rest : List Tok} {d : Cmd Word} {n fuel : Nat} (hpipe : Complete buf E .pipe ts d)
    (hp : p ≤ buf.length) (htoks : toks buf p = ts ++ (List.replicate n .amp ++ rest)) (hf : Follow .pipe rest)
    (hamp : heads ['&'] rest = false) (hfuel : 4 * (toks buf p).length + 2 < fuel)
    {Q : Cmd Span → Nat → Prop}
    (hQ : ∀ c p', p' ≤ buf.length → toks buf p' = rest → Matches buf c (backs n d) → Q c p') :
    wp (do parsebacks buf (buf.length + 1) (← parsepipe buf fuel)) Q E p := by
  rw [wp_bind]
  refine hpipe hp htoks (follow_replicate n hf) hfuel fun c p₁ hp₁ htoks₁ hc => ?_
  exact wp_parsebacks_complete hbuf n hamp hp₁ (length_toks_lt _ _) htoks₁ hc hQ

theorem parse_complete {x : Nonterminal} {ts : List Tok} {d : Cmd Word} (h : Derives x ts d) :
    Complete buf E x ts d := by
  induction h with
  | @last ts c n _ ih =>
    intro fuel p rest hp htoks hf hfuel Q hQ
    obtain ⟨fuel, rfl⟩ := Nat.exists_eq_succ_of_ne_zero (Nat.ne_zero_of_lt hfuel)
    rw [List.append_assoc] at htoks
    show wp (parseline buf (fuel + 1)) Q E p
    rw [parseline, ← bind_assoc, wp_bind]
    refine wp_backs_of_pipe hbuf ih hp htoks (hf.mono (by decide)) (hf.heads_eq (by decide))
      (Nat.lt_of_succ_lt_succ hfuel) fun c' p₁ hp₁ htoks₁ hc' => ?_
    rw [wp_bind]
    refine wp_peek hbuf (by decide) hp₁ fun p₂ hp₂ htoks₂ _ => ?_
    rw [htoks₁, hf.heads_eq (by decide)]
    exact hQ c' p₂ hp₂ (htoks₂.trans htoks₁) hc'
  | @seq ts us c d n _ _ ih ih' =>
    intro fuel p rest hp htoks hf hfuel Q hQ
    obtain ⟨fuel, rfl⟩ := Nat.exists_eq_succ_of_ne_zero (Nat.ne_zero_of_lt hfuel)
    rw [List.append_assoc, List.append_assoc, List.cons_append] at htoks
    show wp (parseline buf (fuel + 1)) Q E p
    rw [parseline, ← bind_assoc, wp_bind]
    refine wp_backs_of_pipe hbuf ih hp htoks (.inr rfl) rfl (Nat.lt_of_succ_lt_succ hfuel)
      fun c' p₁ hp₁ htoks₁ hc' => ?_
    rw [wp_bind]
    refine wp_peek hbuf (by decide) hp₁ fun p₂ hp₂ htoks₂ _ => ?_
    rw [htoks₁, if_pos (show heads [';'] (.semi :: _) = true from rfl), wp_bind]
    refine wp_eat hbuf hp₂ (htoks₂.trans htoks₁) fun _ p₃ hp₃ htoks₃ => ?_
    rw [wp_bind]
    have hlen : 4 * (toks buf p₃).length + 3 < fuel := by
      rw [htoks, List.length_append, List.length_append, List.length_cons, ← htoks₃] at hfuel
      omega
    exact ih' hp₃ htoks₃ hf hlen fun c'' p' hp' htoks' hc'' => hQ _ p' hp' htoks' (.list hc' hc'')
  | @one ts c _ ih =>
    intro fuel p rest hp htoks hf hfuel Q hQ
    obtain ⟨fuel, rfl⟩ := Nat.exists_eq_succ_of_ne_zero (Nat.ne_zero_of_lt hfuel)
    show wp (parsepipe buf (fuel + 1)) Q E p
    rw [parsepipe, wp_bind]
    refine ih hp htoks (hf.mono (by decide)) (Nat.lt_of_succ_lt_succ hfuel) fun c' p₁ hp₁ htoks₁ hc' => ?_
    rw [wp_bind]
    refine wp_peek hbuf (by decide) hp₁ fun p₂ hp₂ htoks₂ _ => ?_
    rw [htoks₁, hf.heads_eq (by decide)]
    exact hQ c' p₂ hp₂ (htoks₂.trans htoks₁) hc'
  | @bar ts us c d _ _ ih ih' =>
    intro fuel p rest hp htoks hf hfuel Q hQ
    obtain ⟨fuel, rfl⟩ := Nat.exists_eq_succ_of_ne_zero (Nat.ne_zero_of_lt hfuel)
    rw [List.append_assoc, List.cons_append] at htoks
    show wp (parsepipe buf (fuel + 1)) Q E p
    rw [parsepipe, wp_bind]
    refine ih hp htoks (.inr rfl) (Nat.lt_of_succ_lt_succ hfuel) fun c' p₁ hp₁ htoks₁ hc' => ?_
    rw [wp_bind]
    refine wp_peek hbuf (by decide) hp₁ fun p₂ hp₂ htoks₂ _ => ?_
    rw [htoks₁, if_pos (show heads ['|'] (.bar :: _) = true from rfl), wp_bind]
    refine wp_eat hbuf hp₂ (htoks₂.trans htoks₁) fun _ p₃ hp₃ htoks₃ => ?_
    rw [wp_bind]
    have hlen : 4 * (toks buf p₃).length + 2 < fuel := by
      rw [htoks, List.length_append, List.length_cons, ← htoks₃] at hfuel
      omega
    exact ih' hp₃ htoks₃ hf hlen fun c'' p' hp' htoks' hc'' => hQ _ p' hp' htoks' (.pipe hc' hc'')
  | @block ts c rs _ ih =>
    intro fuel p rest hp htoks hf hfuel Q hQ
    simp only [rank] at hfuel
    rw [List.cons_append, List.cons_append, List.append_assoc, List.cons_append] at htoks
    rw [htoks, List.length_cons] at hfuel
    obtain ⟨fuel, rfl⟩ : ∃ k, fuel = k + 1 + 1 := ⟨fuel - 2, by omega⟩
    show wp (parseexec buf (fuel + 1 + 1)) Q E p
    rw [parseexec, wp_bind]
    refine wp_peek hbuf (by decide) hp fun p₁ hp₁ htoks₁ _ => ?_
    rw [htoks] at htoks₁
    rw [htoks, if_pos (show heads ['('] (.lpar :: _) = true from rfl), parseblock, wp_bind]
    refine wp_peek hbuf (by decide) hp₁ fun p₂ hp₂ htoks₂ _ => ?_
    rw [htoks₁] at htoks₂
    rw [htoks₁, if_neg (show ¬ (!heads ['('] (.lpar :: _)) = true from Bool.false_ne_true), wp_bind]
    refine wp_eat hbuf hp₂ htoks₂ fun _ p₃ hp₃ htoks₃ => ?_
    rw [wp_bind]
    have hlen : 4 * (toks buf p₃).length + 3 < fuel := by
      rw [← htoks₃] at hfuel
      omega
    refine ih hp₃ htoks₃ (.inr rfl) hlen fun c' p₄ hp₄ htoks₄ hc' => ?_
    rw [wp_bind]
    refine wp_peek hbuf (by decide) hp₄ fun p₅ hp₅ htoks₅ _ => ?_
    rw [htoks₄] at htoks₅
    rw [htoks₄, if_neg (show ¬ (!heads [')'] (.rpar :: _)) = true from Bool.false_ne_true), wp_bind]
    refine wp_eat hbuf hp₅ htoks₅ fun _ p₆ hp₆ htoks₆ => ?_
    exact wp_parseredirs_complete hbuf rs (hf.heads_eq (by decide)) hp₆ (length_toks_lt _ _)
      htoks₆ hc' hQ
  | simple rs args hargs =>
    intro fuel p rest hp htoks hf hfuel Q hQ
    obtain ⟨fuel, rfl⟩ := Nat.exists_eq_succ_of_ne_zero (Nat.ne_zero_of_lt hfuel)
    rw [List.append_assoc] at htoks
    have hlpar : heads ['('] (redirToks rs ++ (argToks args ++ rest)) = false := by
      cases rs with
      | nil => exact (heads_argToks hf args).2
      | cons r rs => exact (heads_redirToks r rs _).2
    show wp (parseexec buf (fuel + 1)) Q E p
    rw [parseexec, wp_bind]
    refine wp_peek hbuf (by decide) hp fun p₁ hp₁ htoks₁ _ => ?_
    rw [htoks] at htoks₁
    rw [htoks, hlpar, if_neg Bool.false_ne_true, wp_bind]
    refine wp_parseredirs_complete hbuf rs (heads_argToks hf args).1 hp₁ (length_toks_lt _ _)
      htoks₁ (.exec .nil) fun c p₂ hp₂ htoks₂ hc => ?_
    rw [wp_bind]
    refine wp_parseargs_complete hbuf hf args hp₂ (length_toks_lt _ _) htoks₂
      (by rwa [Nat.zero_add]) hc fun c' p' hp' htoks' hm => ?_
    show wp (if MAXARGS ≤ 0 + args.length then _ else _) Q E p'
    rw [if_neg (by rw [Nat.zero_add]; exact Nat.not_le_of_lt hargs)]
    exact hQ c' p' hp' htoks' hm

end

end Xv6.Sh

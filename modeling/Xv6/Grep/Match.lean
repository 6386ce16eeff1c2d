import Mathlib.Computability.Language

/-!
# The pattern matcher of `grep`

`match`, `matchhere` and `matchstar` of `grep.c`, and the language of a pattern. A string is a list of bytes;
the NUL is its end.
-/

namespace Xv6.Grep

/-- `matchstar(c, re, text)`, where `here` is `matchhere(re, ·)`. -/
def matchstar (here : List UInt8 → Bool) (c : UInt8) : List UInt8 → Bool
  | [] => here []
  | b :: text => here (b :: text) || ((b == c || c == 46) && matchstar here c text)

/-- Search for `re` at the beginning of `text`; 42 is `*`, 36 is `$` and 46 is `.`. -/
def matchhere : (re text : List UInt8) → Bool
  | [], _ => true
  | [c], text =>
    if c = 36 then text.isEmpty
    else
      match text with
      | [] => false
      | b :: text => (c == 46 || c == b) && matchhere [] text
  | c :: d :: re, text =>
    if d = 42 then matchstar (matchhere re) c text
    else
      match text with
      | [] => false
      | b :: text => (c == 46 || c == b) && matchhere (d :: re) text

/-- The loop of `match`. -/
def matchFrom (re : List UInt8) : (text : List UInt8) → Bool
  | [] => matchhere re []
  | b :: text => matchhere re (b :: text) || matchFrom re text

/-- `match(re, text)`; 94 is `^`. -/
def match_ : (re text : List UInt8) → Bool
  | 94 :: re, text => matchhere re text
  | re, text => matchFrom re text

/-! ## The language of a pattern -/

inductive Item where
  | one (c : UInt8)
  | star (c : UInt8)
  deriving DecidableEq, Repr

/-- The byte `c` of a pattern stands for `b`. -/
def Stands (c b : UInt8) : Prop := c = 46 ∨ c = b

/-- The words of one byte that `c` stands for. -/
def byteLang (c : UInt8) : Language UInt8 := {w : List UInt8 | ∃ b, w = [b] ∧ Stands c b}

def Item.lang : Item → Language UInt8
  | one c => byteLang c
  | star c => KStar.kstar (byteLang c)

/-- A pattern, read from left to right: its items, and whether it ends with `$`. -/
def items : List UInt8 → List Item × Bool
  | [] => ([], false)
  | [c] => if c = 36 then ([], true) else ([.one c], false)
  | c :: d :: re =>
    if d = 42 then (.star c :: (items re).1, (items re).2)
    else (.one c :: (items (d :: re)).1, (items (d :: re)).2)

/-- The words that the items of a pattern match. -/
def lang (l : List Item) : Language UInt8 := (l.map Item.lang).prod

/-- `mid` is a word of the pattern, and `post` may stand behind it. -/
def Matches (re mid post : List UInt8) : Prop := mid ∈ lang (items re).1 ∧ ((items re).2 = true → post = [])

variable {re mid post text w : List UInt8} {c d b : UInt8} {here : List UInt8 → Bool}

theorem lang_nil : w ∈ lang [] ↔ w = [] := Language.mem_one w

theorem lang_cons {i : Item} {l : List Item} :
    w ∈ lang (i :: l) ↔ ∃ u ∈ i.lang, ∃ v ∈ lang l, u ++ v = w := by
  exact Language.mem_mul

theorem mem_lang_star : w ∈ (Item.star c).lang ↔ ∀ b ∈ w, Stands c b := by
  constructor
  · rintro ⟨l, rfl, hl⟩ b hb
    obtain ⟨u, hu, hbu⟩ := List.mem_flatten.mp hb
    obtain ⟨b', rfl, hb'⟩ := hl u hu
    rwa [List.mem_singleton.mp hbu]
  · intro h
    refine ⟨w.map ([·]), ?_, fun u hu => ?_⟩
    · rw [← List.flatMap_def, List.flatMap_singleton']
    · obtain ⟨b, hb, rfl⟩ := List.mem_map.mp hu
      exact ⟨b, rfl, h b hb⟩

theorem stands_iff : (c == 46 || c == b) = true ↔ Stands c b := by
  simp only [Bool.or_eq_true, beq_iff_eq, Stands]

/-! ## `matchhere` -/

/-- A byte of the pattern that is matched by a byte of the text. -/
def matchByte (c : UInt8) (re : List UInt8) : List UInt8 → Bool
  | [] => false
  | b :: text => (c == 46 || c == b) && matchhere re text

theorem matchhere_last (hc : c ≠ 36) : matchhere [c] text = matchByte c [] text := by
  cases text with
  | nil => exact if_neg hc
  | cons b text => exact if_neg hc

theorem matchhere_star : matchhere (c :: 42 :: re) text = matchstar (matchhere re) c text := by
  cases text with
  | nil => exact if_pos rfl
  | cons b text => exact if_pos rfl

theorem matchhere_byte (hd : d ≠ 42) : matchhere (c :: d :: re) text = matchByte c (d :: re) text := by
  cases text with
  | nil => exact if_neg hd
  | cons b text => exact if_neg hd

theorem matchstar_iff : matchstar here c text = true ↔
    ∃ u v, text = u ++ v ∧ (∀ b ∈ u, Stands c b) ∧ here v = true := by
  induction text with
  | nil =>
    constructor
    · exact fun h => ⟨[], [], rfl, nofun, h⟩
    · rintro ⟨u, v, huv, -, hv⟩
      obtain ⟨rfl, rfl⟩ := List.append_eq_nil_iff.mp huv.symm
      exact hv
  | cons b text ih =>
    have hb : (b == c || c == 46) = true ↔ Stands c b := by
      rw [Bool.or_eq_true, beq_iff_eq, beq_iff_eq, Stands, or_comm, eq_comm (a := b)]
    rw [matchstar, Bool.or_eq_true, Bool.and_eq_true, hb, ih]
    constructor
    · rintro (h | ⟨hb, u, v, rfl, hu, hv⟩)
      · exact ⟨[], b :: text, rfl, nofun, h⟩
      · exact ⟨b :: u, v, rfl, List.forall_mem_cons.mpr ⟨hb, hu⟩, hv⟩
    · rintro ⟨u, v, huv, hu, hv⟩
      cases u with
      | nil =>
        obtain rfl : b :: text = v := huv
        exact .inl hv
      | cons b' u =>
        obtain ⟨rfl, rfl⟩ := List.cons.inj huv
        obtain ⟨hb, hu⟩ := List.forall_mem_cons.mp hu
        exact .inr ⟨hb, u, v, rfl, hu, hv⟩

theorem matches_nil : Matches [] mid post ↔ mid = [] := by
  exact and_iff_left nofun

theorem matches_dollar : Matches [36] mid post ↔ mid = [] ∧ post = [] := by
  exact and_congr_right fun _ => ⟨fun h => h rfl, fun h _ => h⟩

theorem matches_one (hone : items (c :: re) = (.one c :: (items re).1, (items re).2)) :
    Matches (c :: re) mid post ↔ ∃ b mid', mid = b :: mid' ∧ Stands c b ∧ Matches re mid' post := by
  rw [Matches, hone]
  constructor
  · rintro ⟨⟨u, ⟨b, rfl, hb⟩, v, hv, rfl⟩, hend⟩
    exact ⟨b, v, rfl, hb, hv, hend⟩
  · rintro ⟨b, v, rfl, hb, hv, hend⟩
    exact ⟨⟨[b], ⟨b, rfl, hb⟩, v, hv, rfl⟩, hend⟩

theorem matches_star : Matches (c :: 42 :: re) mid post ↔
    ∃ u v, mid = u ++ v ∧ (∀ b ∈ u, Stands c b) ∧ Matches re v post := by
  constructor
  · rintro ⟨⟨u, hu, v, hv, rfl⟩, hend⟩
    exact ⟨u, v, rfl, mem_lang_star.mp hu, hv, hend⟩
  · rintro ⟨u, v, rfl, hu, hv, hend⟩
    exact ⟨⟨u, mem_lang_star.mpr hu, v, hv, rfl⟩, hend⟩

theorem matches_one_iff (hone : items (c :: re) = (.one c :: (items re).1, (items re).2)) :
    (∃ mid post, text = mid ++ post ∧ Matches (c :: re) mid post) ↔
      ∃ b text', text = b :: text' ∧ Stands c b ∧ ∃ mid post, text' = mid ++ post ∧ Matches re mid post := by
  simp only [matches_one hone]
  constructor
  · rintro ⟨_, post, rfl, b, mid, rfl, hb, hm⟩
    exact ⟨b, mid ++ post, rfl, hb, mid, post, rfl, hm⟩
  · rintro ⟨b, _, rfl, hb, mid, post, rfl, hm⟩
    exact ⟨b :: mid, post, rfl, b, mid, rfl, hb, hm⟩

theorem matchByte_iff (hone : items (c :: re) = (.one c :: (items re).1, (items re).2))
    (ih : ∀ text, matchhere re text = true ↔ ∃ mid post, text = mid ++ post ∧ Matches re mid post) :
    matchByte c re text = true ↔ ∃ mid post, text = mid ++ post ∧ Matches (c :: re) mid post := by
  rw [matches_one_iff hone]
  cases text with
  | nil => exact ⟨fun h => absurd h nofun, fun ⟨_, _, h, _⟩ => absurd h nofun⟩
  | cons b text =>
    rw [matchByte, Bool.and_eq_true, stands_iff, ih]
    constructor
    · rintro ⟨hb, hm⟩
      exact ⟨b, text, rfl, hb, hm⟩
    · rintro ⟨_, _, h, hb, hm⟩
      cases h
      exact ⟨hb, hm⟩

theorem matchhere_iff (re text : List UInt8) :
    matchhere re text = true ↔ ∃ mid post, text = mid ++ post ∧ Matches re mid post := by
  induction re using items.induct generalizing text with
  | case1 =>
    simp only [matchhere, matches_nil, true_iff]
    exact ⟨[], text, rfl, rfl⟩
  | case2 =>
    simp only [matchhere, if_true, List.isEmpty_iff, matches_dollar]
    constructor
    · rintro rfl
      exact ⟨[], [], rfl, rfl, rfl⟩
    · rintro ⟨_, _, rfl, rfl, rfl⟩
      rfl
  | case3 c hc =>
    rw [matchhere_last hc]
    refine matchByte_iff (if_neg hc) fun text => ?_
    simp only [matchhere, matches_nil, true_iff]
    exact ⟨[], text, rfl, rfl⟩
  | case4 c re ih =>
    rw [matchhere_star, matchstar_iff]
    simp only [ih, matches_star]
    constructor
    · rintro ⟨u, _, rfl, hu, mid, post, rfl, hm⟩
      exact ⟨u ++ mid, post, (List.append_assoc _ _ _).symm, u, mid, rfl, hu, hm⟩
    · rintro ⟨_, post, rfl, u, v, rfl, hu, hm⟩
      exact ⟨u, v ++ post, List.append_assoc _ _ _, hu, v, post, rfl, hm⟩
  | case5 c d re hd ih =>
    rw [matchhere_byte hd]
    exact matchByte_iff (if_neg hd) ih

/-! ## `match` -/

/-- The pattern without the `^` at its beginning, and whether there is one. -/
def anchor : List UInt8 → List UInt8 × Bool
  | 94 :: re => (re, true)
  | re => (re, false)

theorem matchFrom_iff (re text : List UInt8) :
    matchFrom re text = true ↔ ∃ pre rest, text = pre ++ rest ∧ matchhere re rest = true := by
  induction text with
  | nil =>
    constructor
    · exact fun h => ⟨[], [], rfl, h⟩
    · rintro ⟨pre, rest, h, hm⟩
      obtain ⟨rfl, rfl⟩ := List.append_eq_nil_iff.mp h.symm
      exact hm
  | cons b text ih =>
    rw [matchFrom, Bool.or_eq_true, ih]
    constructor
    · rintro (h | ⟨pre, rest, rfl, hm⟩)
      · exact ⟨[], b :: text, rfl, h⟩
      · exact ⟨b :: pre, rest, rfl, hm⟩
    · rintro ⟨pre, rest, h, hm⟩
      cases pre with
      | nil =>
        obtain rfl : b :: text = rest := h
        exact .inl hm
      | cons b' pre =>
        obtain ⟨rfl, rfl⟩ := List.cons.inj h
        exact .inr ⟨pre, rest, rfl, hm⟩

/-- `match` implements its pattern language: it returns 1 exactly if a part of the text, at its beginning when the
pattern begins with `^` and at its end when it ends with `$`, is a word of the items of the pattern. -/
theorem match_iff (re text : List UInt8) : match_ re text = true ↔
    ∃ pre mid post, text = pre ++ mid ++ post ∧ ((anchor re).2 = true → pre = []) ∧
      mid ∈ lang (items (anchor re).1).1 ∧ ((items (anchor re).1).2 = true → post = []) := by
  unfold match_ anchor
  split
  · rw [matchhere_iff]
    constructor
    · rintro ⟨mid, post, rfl, hm⟩
      exact ⟨[], mid, post, rfl, fun _ => rfl, hm⟩
    · rintro ⟨pre, mid, post, rfl, hpre, hm⟩
      exact ⟨mid, post, by rw [hpre rfl, List.nil_append], hm⟩
  · rw [matchFrom_iff]
    simp only [matchhere_iff]
    constructor
    · rintro ⟨pre, _, rfl, mid, post, rfl, hm⟩
      exact ⟨pre, mid, post, (List.append_assoc _ _ _).symm, nofun, hm⟩
    · rintro ⟨pre, mid, post, rfl, -, hm⟩
      exact ⟨pre, mid ++ post, List.append_assoc _ _ _, mid, post, rfl, hm⟩

end Xv6.Grep

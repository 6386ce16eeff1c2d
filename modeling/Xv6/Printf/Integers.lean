import Xv6.Printf.Model

/-!
# The integers that `printf` prints

The digit loop stores the digits of its working variable, the lowest first, and never more than
`buf[20]` holds. What is printed is the numeral of the value that reaches this variable; the
conversions on the way there decide for which arguments it is the value of the directive.
-/

namespace Xv6.Printf

variable {w b v : Nat} {table : List Char} {cs : Char → Char} {xx arg : BitVec 64} {sign neg : Bool}

/-- The standard representation of `v` in base `b`, with `cs` applied to the digits. -/
def numeral (cs : Char → Char) (b : Nat) (v : Int) : List Char :=
  (if v < 0 then ['-'] else []) ++ (Nat.toDigits b v.natAbs).map cs

/-- The table holds the digits of a base up to 16, with `cs` applied to them. -/
structure Spells (table : List Char) (cs : Char → Char) : Prop where
  getD : ∀ i < 16, table.getD i ' ' = cs i.digitChar
  inj : ∀ i < 16, ∀ j < 16, cs i.digitChar = cs j.digitChar → i = j
  ne : ∀ i < 16, cs i.digitChar ≠ '-'

theorem Spells.digits_inj (h : Spells table cs) (hb : 1 < b) (hb16 : b ≤ 16) {m : Nat} :
    ∀ {k}, (Nat.toDigits b m).map cs = (Nat.toDigits b k).map cs → m = k := by
  induction m using Nat.strongRecOn with
  | ind m ih =>
    intro k heq
    have hlen := congrArg List.length heq
    rw [Nat.toDigits_eq_if hb, Nat.toDigits_eq_if (n := k) hb] at heq hlen
    have hpos := fun n => @Nat.length_toDigits_pos b n
    split_ifs at heq hlen with hm hk hk
    · exact h.inj m (by omega) k (by omega) (List.cons.inj heq).1
    · have := hpos (k / b)
      simp at hlen
    · have := hpos (m / b)
      simp at hlen
    · rw [List.map_append, List.map_append] at heq
      obtain ⟨hdiv, hmod⟩ := List.append_inj' heq rfl
      have hlt : ∀ n, n % b < 16 := fun n => (Nat.mod_lt n (by omega)).trans_le hb16
      rw [← Nat.div_add_mod m b, ← Nat.div_add_mod k b, ih _ (Nat.div_lt_self (by omega) hb) hdiv,
        h.inj _ (hlt m) _ (hlt k) (List.cons.inj hmod).1]

theorem Spells.ne_minus (h : Spells table cs) (hb : 1 < b) (hb16 : b ≤ 16) (m : Nat) :
    ∀ c ∈ (Nat.toDigits b m).map cs, c ≠ '-' := by
  induction m using Nat.strongRecOn with
  | ind m ih =>
    rw [Nat.toDigits_eq_if hb]
    split_ifs with hm
    · simpa using h.ne m (by omega)
    · rw [List.map_append]
      intro c hc
      rcases List.mem_append.mp hc with hc | hc
      · exact ih _ (Nat.div_lt_self (by omega) hb) c hc
      · rw [List.mem_singleton.mp hc]
        exact h.ne _ ((Nat.mod_lt m (by omega)).trans_le hb16)

theorem Spells.numeral_inj (h : Spells table cs) (hb : 1 < b) (hb16 : b ≤ 16) {m : Nat} {v : Int} :
    (if neg then ['-'] else []) ++ (Nat.toDigits b m).map cs = numeral cs b v ↔
      (neg = true ↔ v < 0) ∧ m = v.natAbs := by
  have hne := fun n => h.ne_minus hb hb16 n '-'
  unfold numeral
  refine ⟨fun heq => ?_, fun ⟨hneg, hm⟩ => by rw [hm]; simp only [hneg]⟩
  by_cases hv : v < 0 <;> cases neg <;>
    simp only [hv, if_true, if_false, List.nil_append, Bool.false_eq_true] at heq
  · exact absurd rfl (hne m (heq ▸ List.mem_append_left _ List.mem_cons_self))
  · exact ⟨by simp [hv], h.digits_inj hb hb16 (List.append_cancel_left heq)⟩
  · exact ⟨by simp [hv], h.digits_inj hb hb16 heq⟩
  · exact absurd rfl (hne v.natAbs (heq ▸ List.mem_append_left _ List.mem_cons_self))

/-! ### `printint` -/

theorem put_eq_ok {buf : List Char} (h : buf.length < 20) (c : Char) : put buf c = .ok (buf ++ [c]) := if_pos h

theorem digitLoop_eq (hb : 1 < b) (hb16 : b ≤ 16) (hw : 16 < 2 ^ w)
    (htable : ∀ i < 16, table.getD i ' ' = cs i.digitChar) (fuel : Nat) (x : BitVec w) (buf : List Char)
    (hfuel : (Nat.toDigits b x.toNat).length ≤ fuel)
    (hbuf : buf.length + (Nat.toDigits b x.toNat).length ≤ 20) :
    digitLoop table (BitVec.ofNat w b) fuel x buf =
      .ok (buf ++ ((Nat.toDigits b x.toNat).map cs).reverse) := by
  have hbase : (BitVec.ofNat w b).toNat = b := by
    exact Nat.mod_eq_of_lt (by omega)
  induction fuel generalizing x buf with
  | zero =>
    rw [Nat.toDigits_eq_if hb] at hfuel
    split_ifs at hfuel <;> simp at hfuel
  | succ fuel ih =>
    have hmod : x.toNat % b < b := Nat.mod_lt _ (by omega)
    have hdiv : (x / BitVec.ofNat w b).toNat = x.toNat / b := by rw [BitVec.toNat_udiv, hbase]
    have hzero : x / BitVec.ofNat w b ≠ 0 ↔ ¬ x.toNat < b := by
      rw [Ne, ← BitVec.toNat_inj, hdiv, BitVec.ofNat_eq_ofNat, BitVec.toNat_ofNat, Nat.zero_mod,
        Nat.div_eq_zero_iff_lt (by omega)]
    simp only [digitLoop, BitVec.toNat_umod, hbase, htable _ (hmod.trans_le hb16), hzero]
    by_cases hx : x.toNat < b
    · rw [Nat.toDigits_of_lt_base hx] at hbuf ⊢
      rw [put_eq_ok (by simp at hbuf; omega)]
      refine (if_neg (not_not.mpr hx)).trans ?_
      rw [Nat.mod_eq_of_lt hx]
      rfl
    · have hle : b ≤ x.toNat := not_lt.mp hx
      rw [Nat.toDigits_of_base_le hb hle, List.length_append, List.length_singleton, ← hdiv] at hfuel hbuf
      rw [put_eq_ok (by omega), Nat.toDigits_of_base_le hb hle, ← hdiv]
      refine (if_pos hx).trans ((ih (x / BitVec.ofNat w b) _ (by omega) ?_).trans ?_)
      · rw [List.length_append, List.length_singleton]
        omega
      · simp

theorem printintAt_eq (hb : 1 < b) (hb16 : b ≤ 16) (hw : 20 ≤ w)
    (htable : ∀ i < 16, table.getD i ' ' = cs i.digitChar) (hneg : (sign && xx.slt 0) = neg)
    (hv : ((if neg then -xx else xx).setWidth w).toNat = v)
    (hlen : (Nat.toDigits b v).length + neg.toNat ≤ 20) :
    printintAt w table xx b sign = .ok ((if neg then ['-'] else []) ++ (Nat.toDigits b v).map cs) := by
  have hpow : 16 < 2 ^ w := lt_of_lt_of_le (by decide) (Nat.pow_le_pow_right (by decide) hw)
  have hloop := digitLoop_eq hb hb16 hpow htable w ((if neg then -xx else xx).setWidth w) []
  rw [hv, List.length_nil, List.nil_append] at hloop
  simp only [printintAt, hneg, hloop (by omega) (by omega)]
  cases neg with
  | false =>
    show Except.ok ((Nat.toDigits b v).map cs).reverse.reverse = _
    rw [List.reverse_reverse]
    rfl
  | true =>
    have hput : ((Nat.toDigits b v).map cs).reverse.length < 20 := by
      simp only [List.length_reverse, List.length_map]
      exact hlen
    show (put ((Nat.toDigits b v).map cs).reverse '-' >>= fun buf => .ok buf.reverse) = _
    rw [put_eq_ok hput]
    exact congrArg Except.ok (by simp)

theorem base_bounds (hb : b = 10 ∨ b = 16) : 1 < b ∧ b ≤ 16 := by
  rcases hb with rfl | rfl <;> decide

theorem length_toDigits_lt {k : Nat} (hb : b = 10 ∨ b = 16) (hk : 0 < k) (hv : v < 10 ^ k) :
    (Nat.toDigits b v).length ≤ k := by
  rcases hb with rfl | rfl
  · exact (Nat.length_toDigits_le_iff (by decide) hk).mpr hv
  · refine (Nat.length_toDigits_le_iff (by decide) hk).mpr (hv.trans_le ?_)
    exact Nat.pow_le_pow_left (by decide) k

theorem slt_zero (xx : BitVec 64) : xx.slt 0 = decide (xx.toInt < 0) := by
  simp [BitVec.slt]

theorem toNat_neg_of_neg (h : xx.toInt < 0) : (-xx).toNat = xx.toInt.natAbs := by
  rw [BitVec.toInt_eq_toNat_cond] at h ⊢
  rw [BitVec.toNat_neg]
  split_ifs at h ⊢ <;> omega

theorem magnitude_lt (w : Nat) (xx : BitVec 64) :
    xx.toInt.natAbs % 2 ^ w < 10 ^ 19 ∧ xx.toNat % 2 ^ w < 10 ^ 20 := by
  have hle := BitVec.le_toInt xx
  have hlt' := @BitVec.toInt_lt _ xx
  exact ⟨(Nat.mod_le _ _).trans_lt (by omega), (Nat.mod_le _ _).trans_lt (by omega)⟩

theorem printintAt_digits (hb : b = 10 ∨ b = 16) (hw : 20 ≤ w) (htable : Spells table cs) (xx : BitVec 64)
    (sign : Bool) :
    printintAt w table xx b sign =
      .ok ((if sign && xx.slt 0 then ['-'] else []) ++
        (Nat.toDigits b ((if sign && xx.slt 0 then xx.toInt.natAbs else xx.toNat) % 2 ^ w)).map cs) := by
  obtain ⟨hb1, hb16⟩ := base_bounds hb
  refine printintAt_eq hb1 hb16 hw htable.getD rfl ?_ ?_
  all_goals cases hneg : sign && xx.slt 0
  · simp
  · rw [if_pos rfl, if_pos rfl, BitVec.toNat_setWidth, toNat_neg_of_neg]
    rw [Bool.and_eq_true] at hneg
    exact of_decide_eq_true hneg.2
  · exact length_toDigits_lt hb (by decide) (magnitude_lt w xx).2
  · exact Nat.add_le_add_right (length_toDigits_lt hb (by decide) (magnitude_lt w xx).1) 1

theorem printintAt_signed (hb : b = 10 ∨ b = 16) (hw : 20 ≤ w) (htable : Spells table cs) :
    printintAt w table xx b true = .ok (numeral cs b xx.toInt) ↔ xx.toInt.natAbs < 2 ^ w := by
  obtain ⟨hb1, hb16⟩ := base_bounds hb
  have hmag : (if true && xx.slt 0 then xx.toInt.natAbs else xx.toNat) = xx.toInt.natAbs := by
    rw [slt_zero, Bool.true_and]
    simp only [decide_eq_true_eq]
    rw [BitVec.toInt_eq_toNat_cond]
    split_ifs <;> omega
  rw [printintAt_digits hb hw htable, Except.ok.injEq, htable.numeral_inj hb1 hb16, hmag, slt_zero]
  refine ⟨fun h => by omega, fun h => ⟨by simp, Nat.mod_eq_of_lt h⟩⟩

theorem printintAt_unsigned (hb : b = 10 ∨ b = 16) (hw : 20 ≤ w) (htable : Spells table cs) :
    printintAt w table xx b false = .ok (numeral cs b (v : Nat)) ↔ xx.toNat % 2 ^ w = v := by
  obtain ⟨hb1, hb16⟩ := base_bounds hb
  rw [printintAt_digits hb hw htable, Except.ok.injEq, htable.numeral_inj hb1 hb16]
  simp

theorem spells_digits : Spells digits id := ⟨by decide, by decide, by decide⟩

/-- **The digit buffer never overflows**: `printint` returns, and has stored at most 20 characters. -/
theorem printint_fits (xx : BitVec 64) (base : Nat) (sign : Bool) (hbase : base = 10 ∨ base = 16) :
    ∃ out, printint xx base sign = .ok out ∧ out.length ≤ 20 := by
  refine ⟨_, printintAt_digits hbase (by decide) spells_digits xx sign, ?_⟩
  rw [List.length_append, List.length_map]
  split_ifs with hneg
  · have := length_toDigits_lt hbase (by decide) (magnitude_lt 64 xx).1
    rw [List.length_singleton]
    omega
  · simpa using length_toDigits_lt hbase (by decide) (magnitude_lt 64 xx).2

/-- The lowest number takes all of `buf`. -/
theorem printint_fits_lowest : ∃ out, printint (BitVec.intMin 64) 10 true = .ok out ∧ out.length ≤ 20 :=
  printint_fits (BitVec.intMin 64) 10 true (Or.inl rfl)

/-! ### Directives -/

/-- The letters before the conversion: none, `l` or `ll`. -/
inductive Width
  | int
  | long
  | longLong
  deriving DecidableEq, Repr

inductive Kind
  | d
  | u
  | x
  deriving DecidableEq, Repr

/-- The nine directives for integers. -/
structure Directive where
  width : Width
  kind : Kind
  deriving DecidableEq, Repr

namespace Directive

variable (d : Directive)

def letter : Char :=
  match d.kind with
  | .d => 'd'
  | .u => 'u'
  | .x => 'x'

def text : List Char :=
  match d.width with
  | .int => ['%', d.letter]
  | .long => ['%', 'l', d.letter]
  | .longLong => ['%', 'l', 'l', d.letter]

def base : Nat := if d.kind = .x then 16 else 10

def signed : Bool := d.kind = .d

/-- The value that the directive is to print: 32 or 64 bits of its argument, signed or unsigned. -/
def value (arg : BitVec 64) : Int :=
  match d.width, d.kind with
  | .int, .d => (arg.setWidth 32).toInt
  | .int, _ => (arg.setWidth 32).toNat
  | _, .d => arg.toInt
  | _, _ => arg.toNat

/-- What `va_arg` and the conversion to `long long` make of the argument. -/
def fetch (arg : BitVec 64) : BitVec 64 :=
  if d.width = .int then (arg.setWidth 32).signExtend 64 else arg

theorem base_cases : d.base = 10 ∨ d.base = 16 := by
  unfold base
  split_ifs <;> simp

/-- The tests on the characters of the directive select its conversion. -/
theorem conversionAt_text (rest : List Char) :
    ∃ c0 t, d.text = '%' :: c0 :: t ∧ c0 ≠ '\x00' ∧
      (conversionAt c0 (t ++ rest)).1 = .int (decide (d.width ≠ .int)) d.base d.signed ∧
      (t ++ rest).drop (conversionAt c0 (t ++ rest)).2 = rest := by
  obtain ⟨width, kind⟩ := d
  cases width <;> cases kind <;> exact ⟨_, _, rfl, by decide, rfl, rfl⟩

theorem emit_int (w : Nat) (table : List Char) (str : BitVec 64 → List Char) (c0 : Char) (arg : BitVec 64) :
    emit w table str c0 arg (.int (decide (d.width ≠ .int)) d.base d.signed) =
      (printintAt w table (d.fetch arg) d.base d.signed).map (·, 1) := by
  unfold fetch
  by_cases h : d.width = .int
  · rw [if_pos h, decide_eq_false (not_not.mpr h)]
    rfl
  · rw [if_neg h, decide_eq_true h]
    rfl

theorem toInt_fetch_int (h : d.width = .int) (arg : BitVec 64) :
    (d.fetch arg).toInt = (arg.setWidth 32).toInt := by
  rw [fetch, if_pos h, BitVec.toInt_signExtend_of_le (by decide)]

theorem toNat_fetch_int (h : d.width = .int) :
    (d.fetch arg).toNat % 2 ^ 32 = (arg.setWidth 32).toNat ∧
      ((d.fetch arg).toNat = (arg.setWidth 32).toNat ↔ (arg.setWidth 32).toNat < 2 ^ 31) := by
  have hint := d.toInt_fetch_int h arg
  rw [BitVec.toInt_eq_toNat_cond, BitVec.toInt_eq_toNat_cond] at hint
  split_ifs at hint <;> omega

theorem value_signed (h : d.kind = .d) : d.value arg = (d.fetch arg).toInt := by
  obtain ⟨width, kind⟩ := d
  subst h
  cases width with
  | int => exact (toInt_fetch_int _ rfl _).symm
  | long => rfl
  | longLong => rfl

theorem value_unsigned (h : d.kind ≠ .d) :
    d.value arg = (if d.width = .int then (arg.setWidth 32).toNat else arg.toNat : Nat) := by
  obtain ⟨width, kind⟩ := d
  cases width <;> cases kind <;> first | rfl | exact absurd rfl h

end Directive

/-! ### The loops over the format -/

variable {d : Directive} {str : BitVec 64 → List Char} {rest out : List Char} {ap : Nat → BitVec 64}

def Conv.Based : Conv → Prop
  | .int _ b _ => b = 10 ∨ b = 16
  | _ => True

theorem conversionAt_based (c0 : Char) (t : List Char) : (conversionAt c0 t).1.Based := by
  repeat' refine iteInduction (motive := fun r : Conv × Nat => r.1.Based) (fun _ => ?_) fun _ => ?_
  all_goals simp [Conv.Based]

theorem emit_ok (hw : 20 ≤ w) (htable : Spells table cs) (str : BitVec 64 → List Char) (c0 : Char)
    (t : List Char) (arg : BitVec 64) : ∃ r, emit w table str c0 arg (conversionAt c0 t).1 = .ok r := by
  have hbased := conversionAt_based c0 t
  cases hconv : (conversionAt c0 t).1 with
  | int long b sign =>
    rw [hconv] at hbased
    have hprint := fun xx => printintAt_digits hbased hw htable xx sign
    cases long <;> simp only [emit, hprint] <;> exact ⟨_, rfl⟩
  | ptr | str | percent | unknown => exact ⟨_, rfl⟩

theorem printf_ok (str : BitVec 64 → List Char) (fmt : List Char) (ap : Nat → BitVec 64) :
    ∃ out, printf str fmt ap = .ok out := by
  fun_induction printf str fmt ap with
  | case1 | case2 | case4 | case5 => exact ⟨_, rfl⟩
  | case3 ap cx t _ _ ih =>
    obtain ⟨out, hout⟩ := ih
    exact ⟨_, by rw [hout]; rfl⟩
  | case6 _ ap _ _ c0 t _ ih =>
    obtain ⟨⟨out, used⟩, hemit⟩ := emit_ok (w := 64) (by decide) spells_digits str c0 t (ap 0)
    obtain ⟨tail, htail⟩ := ih used
    exact ⟨_, by rw [hemit]; simp only [bind, Except.bind, htail]; rfl⟩

theorem printf_directive (hout : printint (d.fetch (ap 0)) d.base d.signed = .ok out) :
    printf str (d.text ++ rest) ap = (printf str rest fun k => ap (k + 1)).map (out ++ ·) := by
  obtain ⟨c0, t, htext, hc0, hconv, hdrop⟩ := d.conversionAt_text rest
  rw [htext, List.cons_append, List.cons_append, printf, if_neg (by decide)]
  simp only [if_neg hc0, hconv, hdrop, d.emit_int]
  rw [show printintAt 64 digits (d.fetch (ap 0)) d.base d.signed = _ from hout]
  rfl

theorem map_append_inj {r : Except Fault (List Char)} {out' : List Char} (h : ∃ tail, r = .ok tail) :
    r.map (out ++ ·) = r.map (out' ++ ·) ↔ out = out' := by
  obtain ⟨tail, rfl⟩ := h
  refine ⟨fun heq => ?_, fun heq => by rw [heq]⟩
  exact List.append_cancel_right (Except.ok.inj heq)

/-- The directive prints its numeral if and only if `printint` returns it. -/
theorem printf_directive_iff :
    printf str (d.text ++ rest) ap = (printf str rest fun k => ap (k + 1)).map (out ++ ·) ↔
      printint (d.fetch (ap 0)) d.base d.signed = .ok out := by
  obtain ⟨out', hout, -⟩ := printint_fits (d.fetch (ap 0)) d.base d.signed d.base_cases
  rw [printf_directive hout, map_append_inj (printf_ok ..), hout, Except.ok.injEq]

/-- **`printf` prints integers exactly** if and only if a 32-bit argument of `%u` or `%x` has its top bit
clear. -/
theorem printf_prints_integers (d : Directive) (str : BitVec 64 → List Char) (rest : List Char)
    (ap : Nat → BitVec 64) :
    printf str (d.text ++ rest) ap =
        (printf str rest fun k => ap (k + 1)).map (numeral id d.base (d.value (ap 0)) ++ ·) ↔
      (d.width = .int → d.kind ≠ .d → ((ap 0).setWidth 32).toNat < 2 ^ 31) := by
  rw [printf_directive_iff, printint]
  by_cases hd : d.kind = .d
  · rw [d.value_signed hd, Directive.signed, decide_eq_true hd,
      printintAt_signed d.base_cases (by decide) spells_digits]
    have hle := BitVec.le_toInt (d.fetch (ap 0))
    have hlt := @BitVec.toInt_lt _ (d.fetch (ap 0))
    exact iff_of_true (by omega) fun _ hnd => absurd hd hnd
  · rw [d.value_unsigned hd, Directive.signed, decide_eq_false hd,
      printintAt_unsigned d.base_cases (by decide) spells_digits, Nat.mod_eq_of_lt (d.fetch (ap 0)).isLt]
    by_cases hw : d.width = .int
    · rw [if_pos hw, (d.toNat_fetch_int hw).2]
      exact ⟨fun h _ _ => h, fun h => h hw hd⟩
    · rw [if_neg hw, Directive.fetch, if_neg hw]
      exact iff_of_true rfl fun h => absurd h hw

theorem printf_prints_integers_hex :
    printf (fun _ => []) ['%', 'x'] (fun _ => 255) = .ok ['f', 'f'] := by
  refine ((printf_prints_integers ⟨.int, .x⟩ (fun _ => []) [] fun _ => 255).mpr fun _ _ => by decide).trans ?_
  decide +kernel

/-- The argument 4294967295 of `%u` is sign-extended. -/
theorem printf_extends_sign :
    printf (fun _ => []) ['%', 'u'] (fun _ => 4294967295) = .ok "18446744073709551615".toList ∧
      "18446744073709551615".toList ≠
        numeral id (Directive.base ⟨.int, .u⟩) (Directive.value ⟨.int, .u⟩ 4294967295) := by
  refine ⟨?_, by decide +kernel⟩
  show printf _ (Directive.text ⟨.int, .u⟩ ++ []) _ = _
  rw [printf_directive (printintAt_digits (Directive.base_cases _) (by decide) spells_digits _ _)]
  decide +kernel

namespace User

theorem spells_digits : Spells digits Char.toUpper := ⟨by decide, by decide, by decide⟩

theorem vprintf_ok (str : BitVec 64 → List Char) (state : Char) (fmt : List Char) (ap : Nat → BitVec 64) :
    ∃ out, vprintf str state fmt ap = .ok out := by
  fun_induction vprintf str state fmt ap with
  | case1 | case2 => exact ⟨_, rfl⟩
  | case3 _ _ _ ih | case6 _ _ _ _ _ _ _ ih => exact ih
  | case4 _ _ _ _ _ ih =>
    obtain ⟨out, hout⟩ := ih
    exact ⟨_, by rw [hout]; rfl⟩
  | case5 c0 t ap _ _ ih =>
    obtain ⟨⟨out, used⟩, hemit⟩ := emit_ok (w := 32) (by decide) spells_digits str c0 t (ap 0)
    obtain ⟨tail, htail⟩ := ih used
    exact ⟨_, by rw [hemit]; simp only [bind, Except.bind, htail]; rfl⟩

theorem vprintf_directive (hout : printint (d.fetch (ap 0)) d.base d.signed = .ok out) :
    vprintf str '\x00' (d.text ++ rest) ap = (vprintf str '\x00' rest fun k => ap (k + 1)).map (out ++ ·) := by
  obtain ⟨c0, t, htext, hc0, hconv, hdrop⟩ := d.conversionAt_text rest
  rw [htext, List.cons_append, List.cons_append, vprintf, if_pos rfl, if_pos rfl,
    vprintf, if_neg hc0, if_pos rfl]
  simp only [hconv, hdrop, d.emit_int]
  rw [show printintAt 32 digits (d.fetch (ap 0)) d.base d.signed = _ from hout]
  rfl

theorem vprintf_directive_iff :
    vprintf str '\x00' (d.text ++ rest) ap =
        (vprintf str '\x00' rest fun k => ap (k + 1)).map (out ++ ·) ↔
      printint (d.fetch (ap 0)) d.base d.signed = .ok out := by
  have hout := printintAt_digits d.base_cases (w := 32) (by decide) spells_digits (d.fetch (ap 0)) d.signed
  rw [vprintf_directive hout, map_append_inj (vprintf_ok ..), printint, hout, Except.ok.injEq]

/-- **`vprintf` prints integers exactly** if and only if the magnitude of a 64-bit argument is below
2^32. -/
theorem vprintf_prints_integers (d : Directive) (str : BitVec 64 → List Char) (rest : List Char)
    (ap : Nat → BitVec 64) :
    vprintf str '\x00' (d.text ++ rest) ap =
        (vprintf str '\x00' rest fun k => ap (k + 1)).map
          (numeral Char.toUpper d.base (d.value (ap 0)) ++ ·) ↔
      (d.width ≠ .int → (d.value (ap 0)).natAbs < 2 ^ 32) := by
  rw [vprintf_directive_iff, printint]
  by_cases hd : d.kind = .d
  · rw [d.value_signed hd, Directive.signed, decide_eq_true hd,
      printintAt_signed d.base_cases (by decide) spells_digits]
    refine ⟨fun h _ => h, fun h => ?_⟩
    by_cases hw : d.width = .int
    · rw [d.toInt_fetch_int hw]
      have hle := BitVec.le_toInt ((ap 0).setWidth 32)
      have hlt := @BitVec.toInt_lt _ ((ap 0).setWidth 32)
      omega
    · exact h hw
  · rw [d.value_unsigned hd, Directive.signed, decide_eq_false hd,
      printintAt_unsigned d.base_cases (by decide) spells_digits]
    by_cases hw : d.width = .int
    · rw [if_pos hw, (d.toNat_fetch_int hw).1]
      exact iff_of_true rfl fun h => absurd hw h
    · rw [if_neg hw, Directive.fetch, if_neg hw, Nat.mod_eq_iff_lt (by decide)]
      exact ⟨fun h _ => h, fun h => h hw⟩

theorem vprintf_prints_integers_negative :
    vprintf (fun _ => []) '\x00' ['%', 'l', 'd'] (fun _ => -7) = .ok ['-', '7'] := by
  refine ((vprintf_prints_integers ⟨.long, .d⟩ (fun _ => []) [] fun _ => -7).mpr fun _ => by decide).trans ?_
  decide +kernel

/-- Of the argument 4294967296 of `%ld` no bit reaches `x`. -/
theorem vprintf_truncates :
    vprintf (fun _ => []) '\x00' ['%', 'l', 'd'] (fun _ => 4294967296) = .ok ['0'] ∧
      ['0'] ≠ numeral Char.toUpper (Directive.base ⟨.long, .d⟩)
        (Directive.value ⟨.long, .d⟩ 4294967296) := by
  refine ⟨?_, by decide +kernel⟩
  show vprintf _ _ (Directive.text ⟨.long, .d⟩ ++ []) _ = _
  rw [vprintf_directive (printintAt_digits (Directive.base_cases _) (by decide) spells_digits _ _)]
  decide +kernel

end User

end Xv6.Printf

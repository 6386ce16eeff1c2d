import Mathlib.Order.Interval.Finset.Nat
import Mathlib.Tactic.IntervalCases
import Xv6.Fs.AtRest
import Xv6.Fs.LinkCount

/-!
# A file with 32767 names

A disk of the size that `mkfs` makes, with the file 2: it has the name `a` in the root directory, and the other
32766 names in the directories `x` and `y`. These are the inodes 3 and 4; each has a run of blocks, with the
indirect block at its place among them.
-/

namespace Xv6.Fs

open Count

/-- The number of entries of the directories 3 and 4. -/
def manyCount (i : Nat) : Nat := if i = 3 then 17152 else 15618

/-- The first block of the directories 3 and 4. -/
def manyBase (i : Nat) : Nat := 47 + NSLOT * (i - 3)

def manyDinode (i : Nat) : Dinode :=
  if i = ROOTINO then ⟨.dir, 0, 0, 3, BSIZE, fun k => if k.val = 0 then 46 else 0⟩
  else if i = 2 then ⟨.file, 0, 0, 32767, 0, fun _ => 0⟩
  else if i = 3 ∨ i = 4 then ⟨.dir, 0, 0, 1, 16 * manyCount i, fun k => manyBase i + k⟩
  else .zero .free

/-- The root directory: `.`, `..`, `a`, `x` and `y`. -/
def manyRoot (o : Nat) : UInt8 :=
  match o with
  | 0 => 1 | 2 => 46
  | 16 => 1 | 18 => 46 | 19 => 46
  | 32 => 2 | 34 => 97
  | 48 => 3 | 50 => 120
  | 64 => 4 | 66 => 121
  | _ => 0

/-- The byte `r` of the entry `e` of the directories 3 and 4: from the third entry on, a name of three bytes for the
file 2. -/
def manyEntry (i : Nat) : Nat → Nat → UInt8
  | 0, 0 => .ofNat i
  | 0, 2 => 46
  | 1, 0 => 1
  | 1, 2 => 46
  | 1, 3 => 46
  | _ + 2, 0 => 2
  | e + 2, 2 => .ofNat (128 + e / 16384)
  | e + 2, 3 => .ofNat (128 + e / 128 % 128)
  | e + 2, 4 => .ofNat (128 + e % 128)
  | _, _ => 0

def manyByte (i o : Nat) : UInt8 := manyEntry i (o / 16) (o % 16)

def manyBlock (b : Nat) : Block := fun o =>
  if b = 46 then manyRoot o
  else if (b - 47) % NSLOT = NDIRECT then .ofNat ((b + 1 + o / 4) / 256 ^ (o.val % 4))
  else
    let k := (b - 47) % NSLOT
    manyByte (3 + (b - 47) / NSLOT) ((if k < NDIRECT then k else k - 1) * BSIZE + o)

def manyDisk : Store where
  bitmap b := b < 585
  dinode := manyDinode
  data := manyBlock

variable {i k e o : Nat}

/-! ## The blocks -/

/-- The directories 3 and 4. -/
def IsMany (i : Nat) : Prop := i = 3 ∨ i = 4

instance (i : Nat) : Decidable (IsMany i) := inferInstanceAs (Decidable (_ ∨ _))

theorem many_dinode (h : IsMany i) :
    manyDinode i = ⟨.dir, 0, 0, 1, 16 * manyCount i, fun k => manyBase i + k⟩ := by
  rcases h with rfl | rfl <;> rfl

theorem many_word (h : IsMany i) {j : Nat} (hj : j < NINDIRECT) :
    ((manyBlock (manyBase i + NDIRECT)).getUint (4 * j)).toNat = manyBase i + NDIRECT + 1 + j := by
  have hpos : (manyBase i + NDIRECT - 47) % NSLOT = NDIRECT := by rcases h with rfl | rfl <;> rfl
  have hne : manyBase i + NDIRECT ≠ 46 := by rcases h with rfl | rfl <;> decide
  have hbase : manyBase i + NDIRECT < 1000 := by rcases h with rfl | rfl <;> decide
  have hbyte : ∀ r < 4, ((manyBlock (manyBase i + NDIRECT)).byte (4 * j + r)).toNat =
      (manyBase i + NDIRECT + 1 + j) / 256 ^ r % 256 := by
    intro r hr
    have hlt : 4 * j + r < BSIZE := by
      have : j < 256 := hj
      show _ < 1024
      omega
    rw [Block.byte, dif_pos hlt, manyBlock, if_neg hne, if_pos hpos]
    show (UInt8.ofNat ((manyBase i + NDIRECT + 1 + (4 * j + r) / 4) / 256 ^ ((4 * j + r) % 4))).toNat = _
    rw [UInt8.toNat_ofNat', show (4 * j + r) / 4 = j by omega, show (4 * j + r) % 4 = r by omega]
  have h0 := hbyte 0 (by decide)
  have h1 := hbyte 1 (by decide)
  have h2 := hbyte 2 (by decide)
  have h3 := hbyte 3 (by decide)
  have : j < 256 := hj
  rw [Block.getUint, UInt32.toNat_ofNat', ← Nat.add_zero (4 * j), h0, h1, h2, h3]
  omega

theorem many_slot (h : IsMany i) (hk : k < NSLOT) : (manyDinode i).slot manyBlock k = manyBase i + k := by
  have hbase : manyBase i ≠ 0 := by rcases h with rfl | rfl <;> decide
  rw [many_dinode h]
  by_cases hd : k < NDIRECT + 1
  · rw [Dinode.slot_of_lt hd]
  · have hj : k - (NDIRECT + 1) < NINDIRECT := by
      unfold NSLOT at hk
      omega
    rw [Dinode.slot_of_ge (Nat.le_of_not_lt hd) hk]
    · show ((manyBlock (manyBase i + NDIRECT)).getUint (4 * (k - (NDIRECT + 1)))).toNat = _
      rw [many_word h hj]
      omega
    · show manyBase i + NDIRECT ≠ 0
      omega

theorem slot_of_first {d : Dinode} {data : Nat → Block} (h : ∀ k, k ≠ 0 → d.addrs k = 0) :
    d.slot data k = if k = 0 then d.addrs 0 else 0 := by
  by_cases hk : k < NDIRECT + 1
  · rw [Dinode.slot_of_lt hk]
    split_ifs with h0
    · subst h0
      rfl
    · exact h _ fun heq => h0 (congrArg Fin.val heq)
  · have hne : k ≠ 0 := fun h0 => hk (h0 ▸ Nat.succ_pos _)
    rw [Dinode.slot_of_last_eq_zero (Nat.le_of_not_lt hk) (h _ (by decide)), if_neg hne]

theorem many_alloc : manyDisk.Alloc Mkfs.sb i ↔ 1 ≤ i ∧ i ≤ 4 := by
  constructor
  · rintro ⟨-, htype⟩
    by_contra hno
    refine htype ?_
    show (manyDinode i).type = .free
    rw [manyDinode, if_neg (by show i ≠ 1; omega), if_neg (by omega), if_neg (by omega)]
    rfl
  · intro h
    obtain rfl | rfl | rfl | rfl : i = 1 ∨ i = 2 ∨ i = 3 ∨ i = 4 := by omega
    all_goals decide

theorem many_ptr (c : Nat × Nat) : manyDisk.ptr Mkfs.sb c =
    if c = (ROOTINO, 0) then 46 else if IsMany c.1 ∧ c.2 < NSLOT then manyBase c.1 + c.2 else 0 := by
  obtain ⟨i, k⟩ := c
  by_cases ha : 1 ≤ i ∧ i ≤ 4
  · rw [Store.ptr_of_alloc (many_alloc.mpr ha)]
    show (manyDinode i).slot manyBlock k = _
    obtain rfl | rfl | hi : i = 1 ∨ i = 2 ∨ IsMany i := by
      unfold IsMany
      omega
    · rw [slot_of_first fun k hk => if_neg (Fin.val_ne_of_ne hk)]
      by_cases hk : k = 0
      · subst hk
        rfl
      · rw [if_neg hk, if_neg (by simpa using hk), if_neg (by simp [IsMany])]
    · have hne : (2, k) ≠ (ROOTINO, 0) := fun heq => absurd (Prod.mk.inj heq).1 (by decide)
      have hno : ¬ (IsMany 2 ∧ k < NSLOT) := fun hc => absurd hc.1 (by decide)
      exact ite_self _
    · have hne : (i, k) ≠ (ROOTINO, 0) := fun heq => by
        rw [(Prod.mk.inj heq).1] at hi
        exact absurd hi (by decide)
      rw [if_neg hne]
      by_cases hk : k < NSLOT
      · rw [many_slot hi hk, if_pos ⟨hi, hk⟩]
      · rw [Dinode.slot_of_NSLOT_le (Nat.le_of_not_lt hk), if_neg fun hc => hk hc.2]
  · have hne : (i, k) ≠ (ROOTINO, 0) := fun heq => ha ((Prod.mk.inj heq).1 ▸ by decide)
    have hno : ¬ IsMany i := fun hi => ha (by unfold IsMany at hi; omega)
    rw [if_neg hne, if_neg fun hc => hno hc.1]
    exact if_neg fun hc => ha (many_alloc.mp hc)

theorem many_own : Own Mkfs.sb Mkfs.sb.IsData manyDisk := by
  -- a block number in use, and the slot that holds it
  have hslot : ∀ c, manyDisk.ptr Mkfs.sb c ≠ 0 → (c = (1, 0) ∧ manyDisk.ptr Mkfs.sb c = 46) ∨
      ((c.1 = 3 ∨ c.1 = 4) ∧ c.2 < 269 ∧ manyDisk.ptr Mkfs.sb c = 47 + 269 * (c.1 - 3) + c.2) := by
    intro c hc
    rw [many_ptr] at hc ⊢
    split_ifs at hc ⊢ with h1 h2
    · exact .inl ⟨h1, rfl⟩
    · exact .inr ⟨h2.1, h2.2, rfl⟩
    · exact absurd rfl hc
  refine ⟨⟨fun c hc => ?_, fun c hc => ?_, fun c c' hc heq => ?_, fun b _ hd hu => ?_⟩, fun b hb hd => ?_,
    fun i bn ha hbn => ?_, fun h => h.ne_zero rfl⟩
  · show 46 ≤ _ ∧ _ < 2000
    rcases hslot c hc with ⟨-, h⟩ | ⟨h1, h2, h⟩ <;> omega
  · refine decide_eq_true (?_ : _ < 585)
    rcases hslot c hc with ⟨-, h⟩ | ⟨h1, h2, h⟩ <;> omega
  · have hc' : manyDisk.ptr Mkfs.sb c' ≠ 0 := heq ▸ hc
    rcases hslot c hc with ⟨rfl, h⟩ | ⟨h1, h2, h⟩ <;> rcases hslot c' hc' with ⟨rfl, h'⟩ | ⟨h1', h2', h'⟩
    · rfl
    · omega
    · omega
    · exact Prod.ext (by omega) (by omega)
  · have hb : b < 585 := of_decide_eq_true hu
    have hlow : 46 ≤ b := hd.1
    by_cases h46 : b = 46
    · exact ⟨(ROOTINO, 0), by rw [many_ptr, if_pos rfl, h46]⟩
    · refine ⟨(3 + (b - 47) / 269, (b - 47) % 269), ?_⟩
      have hi : IsMany (3 + (b - 47) / 269) := by
        unfold IsMany
        omega
      have hne : (3 + (b - 47) / 269, (b - 47) % 269) ≠ (ROOTINO, 0) := fun heq => by
        have : 3 + (b - 47) / 269 = 1 := (Prod.mk.inj heq).1
        omega
      rw [many_ptr, if_neg hne, if_pos ⟨hi, Nat.mod_lt _ (by decide)⟩]
      show 47 + 269 * (3 + (b - 47) / 269 - 3) + (b - 47) % 269 = b
      omega
  · refine decide_eq_true (?_ : _ < 585)
    have : ¬ (46 ≤ b ∧ b < 2000) := hd
    have : b < 2000 := hb
    omega
  · obtain rfl | rfl | hi : i = 1 ∨ i = 2 ∨ IsMany i := by
      have := many_alloc.mp ha
      unfold IsMany
      omega
    · have h0 : bn = 0 := by
        have : bn * 1024 < 1024 := hbn
        omega
      rw [h0]
      decide
    · exact absurd hbn (Nat.not_lt_zero _)
    · have hlt : bn * 1024 < 16 * manyCount i := by
        have hbn : bn * BSIZE < (manyDinode i).size := hbn
        rwa [many_dinode hi] at hbn
      have hmany : manyCount i ≤ 17152 := by rcases hi with rfl | rfl <;> decide
      have hslot : slotOf bn < NSLOT := by
        unfold slotOf NSLOT NDIRECT
        have : NINDIRECT = 256 := rfl
        split_ifs <;> omega
      have hne : (i, slotOf bn) ≠ (ROOTINO, 0) := fun heq => by
        rw [(Prod.mk.inj heq).1] at hi
        exact absurd hi (by decide)
      rw [many_ptr, if_neg hne, if_pos ⟨hi, hslot⟩]
      show 47 + _ + _ ≠ 0
      omega

/-! ## The inodes -/

def manyNode (i : Nat) : Node :=
  ⟨.dir, 0, 0, 1, 16 * manyCount i, fun o => if o < 16 * manyCount i then manyByte i o else 0⟩

theorem many_block (h : IsMany i) {bn : Nat} (hbn : bn < 268) (ho : o < BSIZE) :
    (manyBlock (manyBase i + slotOf bn)).byte o = manyByte i (bn * BSIZE + o) := by
  have hslot : slotOf bn < 269 := by
    unfold slotOf NDIRECT
    split_ifs <;> omega
  have hback : (if slotOf bn < NDIRECT then slotOf bn else slotOf bn - 1) = bn := by
    unfold slotOf NDIRECT
    split_ifs <;> omega
  have hoff : manyBase i + slotOf bn - 47 = 269 * (i - 3) + slotOf bn := by
    show 47 + 269 * (i - 3) + slotOf bn - 47 = _
    omega
  have hmod : (manyBase i + slotOf bn - 47) % NSLOT = slotOf bn := by
    rw [hoff]
    show (269 * (i - 3) + slotOf bn) % 269 = _
    omega
  have hdiv : 3 + (manyBase i + slotOf bn - 47) / NSLOT = i := by
    rw [hoff]
    show 3 + (269 * (i - 3) + slotOf bn) / 269 = _
    unfold IsMany at h
    omega
  have hne : manyBase i + slotOf bn ≠ 46 := by
    show 47 + 269 * (i - 3) + slotOf bn ≠ 46
    omega
  rw [Block.byte, dif_pos ho, manyBlock, if_neg hne, if_neg (by rw [hmod]; exact slotOf_ne bn)]
  show manyByte (3 + _ / NSLOT) ((if _ % NSLOT < NDIRECT then _ % NSLOT else _ % NSLOT - 1) * BSIZE + o) = _
  rw [hmod, hdiv, hback]

theorem many_node (h : IsMany i) : manyDisk.node Mkfs.sb i = manyNode i := by
  have ha : manyDisk.Alloc Mkfs.sb i := many_alloc.mpr (by unfold IsMany at h; omega)
  rw [Store.node_of_alloc ha, show manyDisk.dinode i = _ from many_dinode h]
  refine Node.ext rfl rfl rfl rfl rfl (funext fun o => ?_)
  show (if o < 16 * manyCount i then manyDisk.byteAt Mkfs.sb i o else 0) = if _ then manyByte i o else 0
  split_ifs with ho
  · have hbn : o / 1024 < 268 := by
      have hmany : manyCount i ≤ 17152 := by rcases h with rfl | rfl <;> decide
      omega
    have hslot : slotOf (o / BSIZE) < NSLOT := by
      show (if o / 1024 < 12 then o / 1024 else o / 1024 + 1) < 269
      split_ifs <;> omega
    have hne : (i, slotOf (o / BSIZE)) ≠ (ROOTINO, 0) := fun heq => by
      rw [(Prod.mk.inj heq).1] at h
      exact absurd h (by decide)
    rw [Store.byteAt, many_ptr, if_neg hne, if_pos ⟨h, hslot⟩]
    show (manyBlock (manyBase i + slotOf (o / BSIZE))).byte (o % BSIZE) = _
    rw [many_block h hbn (Nat.mod_lt _ (by decide)), Nat.div_add_mod']
  · rfl

theorem many_node_free (h : ¬ (1 ≤ i ∧ i ≤ 4)) : manyDisk.node Mkfs.sb i = .free :=
  Store.node_of_not_alloc fun ha => h (many_alloc.mp ha)

theorem many_node_file : (manyDisk.node Mkfs.sb 2).type = .file ∧ (manyDisk.node Mkfs.sb 2).nlink = 32767 := by
  exact ⟨rfl, rfl⟩

theorem many_node_root : manyDisk.node Mkfs.sb ROOTINO = ⟨.dir, 0, 0, 3, BSIZE, manyRoot⟩ := by
  refine Node.ext rfl rfl rfl rfl rfl (funext fun o => ?_)
  show (if o < BSIZE then manyDisk.byteAt Mkfs.sb ROOTINO o else 0) = manyRoot o
  split_ifs with ho
  · have hslot : slotOf (o / BSIZE) = 0 := by rw [Nat.div_eq_of_lt ho]; rfl
    rw [Store.byteAt, hslot, many_ptr, Nat.mod_eq_of_lt ho]
    show (manyBlock 46).byte o = _
    rw [Block.byte, dif_pos ho, manyBlock, if_pos rfl]
  · have : 1024 ≤ o := Nat.le_of_not_lt ho
    unfold manyRoot
    split <;> first | omega | rfl

/-! ## The names -/

theorem manyNode_byte {r : Nat} (he : e < manyCount i) (hr : r < 16) :
    (manyNode i).bytes (16 * e + r) = manyEntry i e r := by
  show (if 16 * e + r < 16 * manyCount i then manyByte i (16 * e + r) else 0) = _
  rw [if_pos (by omega), manyByte, show (16 * e + r) / 16 = e by omega, show (16 * e + r) % 16 = r by omega]

theorem manyNode_slotInum (h : IsMany i) : (manyNode i).slotInum e =
    if e < manyCount i then (if e = 0 then i else if e = 1 then 1 else 2) else 0 := by
  unfold Node.slotInum
  split_ifs with he h0 h1
  · subst h0
    rcases h with rfl | rfl <;> rfl
  · subst h1
    rcases h with rfl | rfl <;> rfl
  · obtain ⟨e, rfl⟩ : ∃ e', e = e' + 2 := ⟨e - 2, by omega⟩
    have hbyte := manyNode_byte (r := 0) he (by decide)
    rw [Nat.add_zero] at hbyte
    rw [hbyte, manyNode_byte he (by decide)]
    rfl
  · have h1 : (manyNode i).bytes (16 * e) = 0 := if_neg (by omega)
    have h2 : (manyNode i).bytes (16 * e + 1) = 0 := if_neg (by omega)
    rw [h1, h2]
    rfl

theorem manyNode_gives (h : IsMany i) : (manyNode i).Gives e ↔ 2 ≤ e ∧ e < manyCount i := by
  have hcount : manyCount i ≤ 17152 := by rcases h with rfl | rfl <;> decide
  constructor
  · rintro ⟨-, hused, hdot, hdotdot⟩
    have he : e < manyCount i := by
      by_contra hno
      rw [manyNode_slotInum h, if_neg hno] at hused
      exact hused rfl
    have h0 : e ≠ 0 := by
      rintro rfl
      rcases h with rfl | rfl <;> exact hdot (by decide +kernel)
    have h1 : e ≠ 1 := by
      rintro rfl
      rcases h with rfl | rfl <;> exact hdotdot (by decide +kernel)
    omega
  · rintro ⟨h2, he⟩
    obtain ⟨e, rfl⟩ : ∃ e', e = e' + 2 := ⟨e - 2, by omega⟩
    -- the first byte of the name is neither 0 nor that of a dot
    have hfirst : (manyNode i).bytes (16 * (e + 2) + 2) = .ofNat (128 + e / 16384) := manyNode_byte he (by decide)
    have hcases : UInt8.ofNat (128 + e / 16384) = 128 ∨ UInt8.ofNat (128 + e / 16384) = 129 := by
      have : e / 16384 = 0 ∨ e / 16384 = 1 := by omega
      rcases this with h | h <;> rw [h] <;> decide
    have hname : ∃ l, cstr ((manyNode i).slotName (e + 2)) = UInt8.ofNat (128 + e / 16384) :: l := by
      have hne : UInt8.ofNat (128 + e / 16384) ≠ 0 := by rcases hcases with h | h <;> rw [h] <;> decide
      rw [← hfirst] at hne ⊢
      exact ⟨_, List.takeWhile_cons_of_pos (decide_eq_true hne)⟩
    obtain ⟨l, hl⟩ := hname
    refine ⟨rfl, ?_, ?_, ?_⟩
    · rw [manyNode_slotInum h, if_pos he, if_neg (by omega), if_neg (by omega)]
      decide
    · rw [hl]
      rcases hcases with h | h <;> rw [h] <;> exact fun hc => absurd (List.cons.inj hc).1 (by decide)
    · rw [hl]
      rcases hcases with h | h <;> rw [h] <;> exact fun hc => absurd (List.cons.inj hc).1 (by decide)

theorem manyRoot_zero (h : 67 ≤ o) : manyRoot o = 0 := by
  unfold manyRoot
  split <;> first | omega | rfl

theorem manyRoot_unused {n : Node} (hn : n.bytes = manyRoot) (hk : 5 ≤ k) : n.slotInum k = 0 := by
  unfold Node.slotInum
  rw [hn, manyRoot_zero (by omega), manyRoot_zero (by omega)]
  rfl

theorem manyRoot_gives {n : Node} (hn : n = ⟨.dir, 0, 0, 3, BSIZE, manyRoot⟩) :
    n.Gives k ↔ 2 ≤ k ∧ k ≤ 4 := by
  subst hn
  by_cases hk : k ≤ 4
  · interval_cases k <;> decide
  · exact iff_of_false (not_gives_unused (manyRoot_unused rfl (by omega))) fun h => hk h.2

theorem manyRoot_slotInum (h2 : 2 ≤ k) (hk : k ≤ 4) : (manyDisk.node Mkfs.sb ROOTINO).slotInum k = k := by
  rw [many_node_root]
  interval_cases k <;> decide

/-- The inodes on the disk. -/
abbrev manyNodes : Nat → Node := manyDisk.node Mkfs.sb

theorem many_gives {d : Nat} : (manyNodes d).Gives k ↔
    d = 1 ∧ 2 ≤ k ∧ k ≤ 4 ∨ IsMany d ∧ 2 ≤ k ∧ k < manyCount d := by
  by_cases h1 : d = 1
  · have hno : ¬ IsMany d := by
      subst h1
      decide
    subst h1
    rw [manyRoot_gives many_node_root]
    tauto
  · by_cases hm : IsMany d
    · rw [show manyNodes d = _ from many_node hm, manyNode_gives hm]
      tauto
    · refine iff_of_false (not_gives_type ?_) (by tauto)
      by_cases h2 : d = 2
      · rw [h2]
        decide
      · rw [show manyNodes d = _ from many_node_free (by unfold IsMany at hm; omega)]
        decide

theorem many_links_false {d j : Nat} : links manyNodes (d, k, false) = some j ↔
    d = 1 ∧ 2 ≤ k ∧ k ≤ 4 ∧ j = k ∨ IsMany d ∧ 2 ≤ k ∧ k < manyCount d ∧ j = 2 := by
  by_cases hg : (manyNodes d).Gives k
  · rw [links_false hg, Option.some.injEq]
    rcases many_gives.mp hg with ⟨rfl, h2, h4⟩ | ⟨hm, h2, hlt⟩
    · have hno : ¬ IsMany 1 := by decide
      rw [show (manyNodes 1).slotInum k = k from manyRoot_slotInum h2 h4]
      tauto
    · have hno : d ≠ 1 := by
        rintro rfl
        exact absurd hm (by decide)
      rw [show manyNodes d = _ from many_node hm, manyNode_slotInum hm, if_pos hlt, if_neg (by omega), if_neg (by omega)]
      tauto
  · rw [links_of_not hg]
    refine iff_of_false nofun fun h => hg (many_gives.mpr ?_)
    tauto

theorem many_links_true {d j : Nat} : links manyNodes (d, k, true) = some j ↔ d = 1 ∧ 3 ≤ k ∧ k ≤ 4 ∧ j = 1 := by
  have hdir : (manyNodes d).Gives k ∧ (manyNodes ((manyNodes d).slotInum k)).type = .dir ↔ d = 1 ∧ 3 ≤ k ∧ k ≤ 4 := by
    rw [many_gives]
    constructor
    · rintro ⟨⟨rfl, h2, h4⟩ | ⟨hm, h2, hlt⟩, htype⟩
      · rw [show (manyNodes 1).slotInum k = k from manyRoot_slotInum h2 h4] at htype
        have hk : k ≠ 2 := by
          rintro rfl
          rw [many_node_file.1] at htype
          cases htype
        omega
      · rw [show manyNodes d = _ from many_node hm, manyNode_slotInum hm, if_pos hlt, if_neg (by omega),
          if_neg (by omega)] at htype
        cases htype
    · rintro ⟨rfl, h3, h4⟩
      refine ⟨.inl ⟨rfl, by omega, h4⟩, ?_⟩
      have hm : IsMany k := by
        unfold IsMany
        omega
      rw [show (manyNodes 1).slotInum k = k from manyRoot_slotInum (by omega) h4, show manyNodes k = _ from many_node hm]
      rfl
  rw [links, Option.ite_none_right_eq_some, hdir, Option.some.injEq]
  constructor
  · rintro ⟨⟨rfl, h3, h4⟩, rfl⟩
    exact ⟨rfl, h3, h4, rfl⟩
  · rintro ⟨rfl, h3, h4, rfl⟩
    exact ⟨⟨rfl, h3, h4⟩, rfl⟩

/-- The names of the file 2, one after the other. -/
def manyName (j : Nat) : Nat × Nat × Bool :=
  if j = 0 then (1, 2, false) else if j < 17151 then (3, j + 1, false) else (4, j - 17149, false)

theorem many_uses_file : uses (links manyNodes) 2 = 32767 := by
  have hset : {a | links manyNodes a = some 2} = manyName '' ↑(Finset.range 32767) := by
    ext ⟨d, k, b⟩
    simp only [Set.mem_ofPred_eq, Set.mem_image, Finset.coe_range, Set.mem_Iio]
    constructor
    · cases b with
      | true => exact fun h => absurd (many_links_true.mp h).2.2.2 (by decide)
      | false =>
        intro h
        rcases many_links_false.mp h with ⟨rfl, -, -, rfl⟩ | ⟨rfl | rfl, h2, hlt, -⟩
        · exact ⟨0, by decide, rfl⟩
        · have hlt : k < 17152 := hlt
          exact ⟨k - 1, by omega, by rw [manyName, if_neg (by omega), if_pos (by omega), Nat.sub_add_cancel (by omega)]⟩
        · have hlt : k < 15618 := hlt
          refine ⟨k + 17149, by omega, ?_⟩
          rw [manyName, if_neg (by omega), if_neg (by omega), Nat.add_sub_cancel]
    · rintro ⟨j, hj, heq⟩
      rw [← heq, manyName]
      split_ifs with h0 h1 <;> refine many_links_false.mpr ?_
      · exact .inl ⟨rfl, by decide, by decide, rfl⟩
      · exact .inr ⟨.inl rfl, by omega, by show _ < 17152; omega, rfl⟩
      · exact .inr ⟨.inr rfl, by omega, by show _ < 15618; omega, rfl⟩
  have hinj : Set.InjOn manyName ↑(Finset.range 32767) := by
    intro j _ j' _ heq
    unfold manyName at heq
    split_ifs at heq <;> simp only [Prod.mk.injEq, and_true] at heq <;> omega
  rw [uses, hset, hinj.ncard_image, Set.ncard_coe_finset, Finset.card_range]

theorem many_finite : (support (links manyNodes)).Finite := by
  refine ((Set.finite_Iio 5).prod ((Set.finite_Iio 17152).prod Set.finite_univ)).subset ?_
  rintro ⟨d, k, b⟩ hne
  obtain ⟨j, hj⟩ := Option.ne_none_iff_exists'.mp hne
  have hdk : d < 5 ∧ k < 17152 := by
    cases b with
    | false =>
      rcases many_links_false.mp hj with ⟨rfl, -, h4, -⟩ | ⟨rfl | rfl, -, hlt, -⟩
      · omega
      · exact ⟨by decide, hlt⟩
      · exact ⟨by decide, hlt.trans (by decide)⟩
    | true =>
      obtain ⟨rfl, -, h4, -⟩ := many_links_true.mp hj
      omega
  exact ⟨hdk.1, hdk.2, trivial⟩

theorem many_uses_root : uses (links manyNodes) 1 ≤ 2 := by
  have hsub : {a | links manyNodes a = some 1} ⊆ {(1, 3, true), (1, 4, true)} := by
    rintro ⟨d, k, b⟩ ha
    cases b with
    | false =>
      rcases many_links_false.mp ha with ⟨-, h2, -, h1⟩ | ⟨-, -, -, h1⟩ <;> omega
    | true =>
      obtain ⟨rfl, h3, h4, -⟩ := many_links_true.mp ha
      obtain rfl | rfl : k = 3 ∨ k = 4 := by omega
      · exact .inl rfl
      · exact .inr rfl
  have hle := Set.ncard_le_ncard hsub (Set.toFinite _)
  exact hle.trans ((Set.ncard_insert_le _ _).trans (by rw [Set.ncard_singleton]))

theorem many_uses_dir (h1 : i ≠ 1) (h2 : i ≠ 2) : uses (links manyNodes) i ≤ 1 := by
  refine uses_le_one (a := (1, i, false)) many_finite ?_
  rintro ⟨d, k, b⟩ ha
  cases b with
  | false =>
    rcases many_links_false.mp ha with ⟨rfl, -, -, rfl⟩ | ⟨-, -, -, hi⟩
    · rfl
    · exact absurd hi h2
  | true => exact absurd (many_links_true.mp ha).2.2.2 h1

theorem many_counted : Counted manyNodes := by
  refine ⟨many_finite, fun i => ?_, fun i hi => ?_, fun i hi => ?_⟩
  · by_cases h2 : i = 2
    · rw [h2, many_uses_file]
      decide
    by_cases h1 : i = 1
    · have := many_uses_root
      rw [h1, show manyNodes 1 = _ from many_node_root, show Int16.toInt 3 = 3 from rfl]
      omega
    by_cases hm : IsMany i
    · have := many_uses_dir h1 h2
      rw [show manyNodes i = _ from many_node hm, show (manyNode i).nlink.toInt = 1 from rfl]
      omega
    · have hzero : uses (links manyNodes) i = 0 := by
        refine (uses_eq_zero many_finite).mpr ?_
        rintro ⟨d, k, b⟩ ha
        cases b with
        | false =>
          rcases many_links_false.mp ha with ⟨-, hlow, hhigh, rfl⟩ | ⟨-, -, -, hi⟩
          · unfold IsMany at hm
            omega
          · exact h2 hi
        | true => exact h1 (many_links_true.mp ha).2.2.2
      rw [hzero, show manyNodes i = _ from many_node_free (by unfold IsMany at hm; omega)]
      decide
  · have hno : ¬ (1 ≤ i ∧ i ≤ 4) := fun h => Store.node_type_free.mp hi (many_alloc.mpr h)
    rw [show manyNodes i = _ from many_node_free hno]
    rfl
  · have ha : manyDisk.Alloc Mkfs.sb i := by
      by_contra hno
      exact hi (Store.node_type_free.mpr hno)
    have := many_alloc.mp ha
    omega

theorem many_boot : AtRest Mkfs.sb bootBase manyNodes (Sys.boot manyDisk ()).fs := by
  refine boot_ctx many_own (fun i k hdir => ?_) ?_ (fun i ha => ?_) ()
  · by_cases h1 : i = 1
    · rw [h1, show manyDisk.node Mkfs.sb 1 = _ from many_node_root]
      by_cases hk : k ≤ 4
      · interval_cases k <;> decide
      · rw [manyRoot_unused rfl (by omega)]
        decide
    · have hm : IsMany i := by
        by_contra hm
        by_cases h2 : i = 2
        · rw [h2] at hdir
          cases hdir
        · rw [many_node_free (by unfold IsMany at hm; omega)] at hdir
          cases hdir
      rw [many_node hm, manyNode_slotInum hm]
      have : i ≤ 4 := by
        unfold IsMany at hm
        omega
      show _ < 200
      split_ifs <;> omega
  · rw [many_node_root]
  · obtain ⟨h1, h4⟩ := many_alloc.mp ha
    interval_cases i <;> decide

end Xv6.Fs

import Mathlib.Data.List.TakeWhile
import Xv6.Fs.Node

/-!
# Directory entries

A directory is an inode whose bytes are entries, 16 bytes each. `Node.bindings` is the finite map from names
to inode numbers that they stand for; names count up to the first 0 and up to `DIRSIZ` bytes. Writing an
entry changes the map at one name.
-/

namespace Xv6.Fs

/-! ## Entries -/

/-- The `k`th entry of a directory is written. -/
def Node.setSlot (n : Node) (k : Nat) (de : Dirent) : Node :=
  { n with
    size := max n.size (16 * k + 16)
    bytes := fun o => if 16 * k ≤ o ∧ o < 16 * k + 16 then (de.bytes[o - 16 * k]?).getD 0 else n.bytes o }

theorem Dirent.length_bytes (de : Dirent) : de.bytes.length = 16 := by
  simp [Dirent.bytes, DIRSIZ]

theorem Dirent.mapped (de : Dirent) (j : Nat) (hj : j < 16) : (de.bytes[j]?).isSome := by
  rwa [isSome_getElem?, de.length_bytes]

theorem cstr_length (l : List UInt8) : (cstr l).length ≤ DIRSIZ :=
  (List.takeWhile_prefix _).length_le.trans (List.length_take_le ..)

theorem cstr_ne_zero {l : List UInt8} {b : UInt8} (h : b ∈ cstr l) : b ≠ 0 := by
  have := List.mem_takeWhile_imp h
  simpa using this

theorem cstr_padded (l : List UInt8) :
    cstr ((cstr l ++ List.replicate DIRSIZ 0).take DIRSIZ) = cstr l := by
  have hlen := cstr_length l
  have htake : ((cstr l ++ List.replicate DIRSIZ 0).take DIRSIZ) =
      cstr l ++ List.replicate (DIRSIZ - (cstr l).length) 0 := by
    rw [List.take_append, List.take_of_length_le hlen, List.take_replicate,
      Nat.min_eq_left (Nat.sub_le _ _)]
  rw [cstr, List.take_take, Nat.min_self, htake, List.takeWhile_append_of_pos]
  · cases hk : DIRSIZ - (cstr l).length with
    | zero => simp
    | succ k => simp [List.replicate_succ]
  · intro b hb
    simpa using cstr_ne_zero hb

namespace Node

variable {n : Node} {k k' : Nat} {de : Dirent}

theorem bytes_setSlot_of_ne {o : Nat} (h : o < 16 * k ∨ 16 * k + 16 ≤ o) :
    (n.setSlot k de).bytes o = n.bytes o := if_neg (by omega)

theorem bytes_setSlot {j : Nat} (h : j < 16) :
    (n.setSlot k de).bytes (16 * k + j) = (de.bytes[j]?).getD 0 := by
  show (if _ then _ else _) = _
  rw [if_pos (by omega), Nat.add_sub_cancel_left]

theorem slotInum_setSlot_of_ne (h : k' ≠ k) : (n.setSlot k de).slotInum k' = n.slotInum k' := by
  unfold slotInum
  rw [bytes_setSlot_of_ne (by omega), bytes_setSlot_of_ne (by omega)]

theorem slotName_setSlot_of_ne (h : k' ≠ k) : (n.setSlot k de).slotName k' = n.slotName k' := by
  refine List.map_congr_left fun j hj => bytes_setSlot_of_ne ?_
  have : j < 14 := List.mem_range.mp hj
  omega

theorem slotInum_of_bytes (h : ∀ j < 16, n.bytes (16 * k + j) = (de.bytes[j]?).getD 0) :
    n.slotInum k = de.inum % 2 ^ 16 := by
  have h0 := h 0 (by omega)
  have h1 := h 1 (by omega)
  rw [Nat.add_zero] at h0
  unfold slotInum
  rw [h0, h1]
  simp only [Dirent.bytes, List.getElem?_cons_zero, List.getElem?_cons_succ, Option.getD_some,
    UInt8.toNat_ofNat']
  omega

theorem slotName_of_bytes (h : ∀ j < 16, n.bytes (16 * k + j) = (de.bytes[j]?).getD 0) :
    n.slotName k = (cstr de.name ++ List.replicate DIRSIZ 0).take DIRSIZ := by
  have hlen : ((cstr de.name ++ List.replicate DIRSIZ 0).take DIRSIZ).length = DIRSIZ := by simp
  refine List.ext_getElem (by simp [slotName, hlen]) fun j h1 h2 => ?_
  have hj : j < 14 := Nat.lt_of_lt_of_eq h2 hlen
  simp only [slotName, List.getElem_map, List.getElem_range, Nat.add_assoc]
  rw [h _ (by omega)]
  simp only [Dirent.bytes, Nat.add_comm 2 j, List.getElem?_cons_succ, List.getElem?_eq_getElem h2,
    Option.getD_some]

theorem slotInum_setSlot : (n.setSlot k de).slotInum k = de.inum % 2 ^ 16 :=
  slotInum_of_bytes fun _ hj => bytes_setSlot hj

theorem slotName_setSlot :
    (n.setSlot k de).slotName k = (cstr de.name ++ List.replicate DIRSIZ 0).take DIRSIZ :=
  slotName_of_bytes fun _ hj => bytes_setSlot hj

theorem cstr_slotName_setSlot : cstr ((n.setSlot k de).slotName k) = cstr de.name := by
  rw [slotName_setSlot, cstr_padded]

@[simp] theorem setSlot_type : (n.setSlot k de).type = n.type := rfl

@[simp] theorem setSlot_nlink : (n.setSlot k de).nlink = n.nlink := rfl

end Node

/-! ## The map -/

/-- The entry `k` of the directory is in use with the name `name`. -/
def Node.Names (n : Node) (name : List UInt8) (k : Nat) : Prop :=
  n.slotInum k ≠ 0 ∧ namecmp name (n.slotName k) = true

instance (n : Node) (name : List UInt8) (k : Nat) : Decidable (n.Names name k) := inferInstanceAs (Decidable (_ ∧ _))

def Node.slot? (n : Node) (name : List UInt8) : Option Nat := (List.range (n.size / 16)).find? (n.Names name)

def Node.bindings (n : Node) (name : List UInt8) : Option Nat := (n.slot? name).map n.slotInum

/-- The first entry that is not in use, or the one behind the last. -/
def Node.freeSlot (n : Node) : Nat :=
  ((List.range (n.size / 16)).find? fun k => n.slotInum k = 0).getD (n.size / 16)

namespace Node

variable {n : Node} {name : List UInt8} {k : Nat}

theorem namecmp_iff {s t : List UInt8} : namecmp s t = true ↔ cstr s = cstr t := decide_eq_true_iff

theorem find?_range {p : Nat → Prop} [DecidablePred p] {b : Nat} :
    (List.range b).find? (fun k => p k) = some k ↔ k < b ∧ p k ∧ ∀ k' < k, ¬ p k' := by
  rw [List.find?_range_eq_some]
  simp only [decide_eq_true_eq, List.mem_range, Bool.not_eq_eq_eq_not, Bool.not_true, decide_eq_false_iff_not]
  tauto

theorem slot?_eq_some : n.slot? name = some k ↔
    16 * k + 16 ≤ n.size ∧ n.Names name k ∧ ∀ k' < k, ¬ n.Names name k' := by
  have hlt : k < n.size / 16 ↔ 16 * k + 16 ≤ n.size := by omega
  rw [Node.slot?, find?_range, hlt]

theorem slot?_eq_none_of (h : ∀ k, ¬ n.Names name k) : n.slot? name = none :=
  List.find?_eq_none.mpr fun k _ => by simpa using h k

theorem freeSlot_le : n.freeSlot ≤ n.size / 16 := by
  unfold freeSlot
  cases h : (List.range (n.size / 16)).find? fun k => n.slotInum k = 0 with
  | none => exact le_rfl
  | some k => exact Nat.le_of_lt (find?_range.mp h).1

theorem freeSlot_cases : (n.freeSlot < n.size / 16 ∧ n.slotInum n.freeSlot = 0 ∧ ∀ k < n.freeSlot, n.slotInum k ≠ 0) ∨
    n.freeSlot = n.size / 16 ∧ ∀ k < n.size / 16, n.slotInum k ≠ 0 := by
  unfold freeSlot
  cases h : (List.range (n.size / 16)).find? fun k => n.slotInum k = 0 with
  | none =>
    refine .inr ⟨rfl, fun k hk => ?_⟩
    simpa using List.find?_eq_none.mp h k (List.mem_range.mpr hk)
  | some k => exact .inl (find?_range.mp h)

theorem freeSlot_eq (hk : n.slotInum k = 0) (hle : k < n.size / 16) (hfirst : ∀ k' < k, n.slotInum k' ≠ 0) :
    n.freeSlot = k := by
  unfold freeSlot
  rw [find?_range.mpr ⟨hle, hk, hfirst⟩]
  rfl

theorem names_congr {name' : List UInt8} (h : cstr name' = cstr name) : n.Names name' k ↔ n.Names name k := by
  unfold Names
  rw [namecmp_iff, namecmp_iff, h]

theorem names_setSlot_self {de : Dirent} : (n.setSlot k de).Names name k ↔
    de.inum % 2 ^ 16 ≠ 0 ∧ cstr name = cstr de.name := by
  unfold Names
  rw [slotInum_setSlot, namecmp_iff, cstr_slotName_setSlot]

theorem names_setSlot_of_ne {de : Dirent} {k' : Nat} (h : k' ≠ k) :
    (n.setSlot k de).Names name k' ↔ n.Names name k' := by
  unfold Names
  rw [slotInum_setSlot_of_ne h, slotName_setSlot_of_ne h]

/-- A directory: its size is that of a number of entries, and no two entries in use have the same name. -/
structure IsDir (n : Node) : Prop where
  type : n.type = .dir
  aligned : 16 ∣ n.size
  rest : ∀ o, n.size ≤ o → n.bytes o = 0
  inj : ∀ k k', n.slotInum k ≠ 0 → n.slotInum k' ≠ 0 → cstr (n.slotName k) = cstr (n.slotName k') → k = k'

namespace IsDir

theorem slotInum_eq_zero (h : n.IsDir) (hk : n.size ≤ 16 * k) : n.slotInum k = 0 := by
  unfold slotInum
  rw [h.rest _ hk, h.rest _ (hk.trans (Nat.le_succ _))]
  rfl

theorem lt_of_used (h : n.IsDir) (hk : n.slotInum k ≠ 0) : 16 * k + 16 ≤ n.size := by
  have hlt : 16 * k < n.size := by
    by_contra hge
    exact hk (h.slotInum_eq_zero (Nat.le_of_not_lt hge))
  have := h.aligned
  omega

theorem slot?_iff (h : n.IsDir) : n.slot? name = some k ↔ n.Names name k := by
  rw [slot?_eq_some]
  refine ⟨fun hk => hk.2.1, fun hk => ⟨h.lt_of_used hk.1, hk, fun k' hlt hk' => ?_⟩⟩
  have hname := (namecmp_iff.mp hk'.2).symm.trans (namecmp_iff.mp hk.2)
  exact Nat.ne_of_lt hlt (h.inj k' k hk'.1 hk.1 hname)

theorem bindings_eq_some (h : n.IsDir) {j : Nat} :
    n.bindings name = some j ↔ ∃ k, n.Names name k ∧ n.slotInum k = j := by
  rw [bindings, Option.map_eq_some_iff]
  simp only [h.slot?_iff]

theorem setSlot (h : n.IsDir) {de : Dirent} (hle : 16 * k ≤ n.size)
    (hnew : de.inum % 2 ^ 16 ≠ 0 → ∀ k' ≠ k, ¬ n.Names de.name k') : (n.setSlot k de).IsDir := by
  have hal := h.aligned
  have hone : ∀ k' ≠ k, (n.setSlot k de).slotInum k ≠ 0 → (n.setSlot k de).slotInum k' ≠ 0 →
      cstr ((n.setSlot k de).slotName k) ≠ cstr ((n.setSlot k de).slotName k') := by
    intro k' hne hk hk' heq
    rw [slotInum_setSlot] at hk
    rw [slotInum_setSlot_of_ne hne] at hk'
    rw [cstr_slotName_setSlot, slotName_setSlot_of_ne hne] at heq
    exact hnew hk k' hne ⟨hk', namecmp_iff.mpr heq⟩
  refine ⟨h.type, ?_, fun o ho => ?_, fun k₁ k₂ h₁ h₂ heq => ?_⟩
  · show 16 ∣ max n.size (16 * k + 16)
    omega
  · have ho' : max n.size (16 * k + 16) ≤ o := ho
    rw [bytes_setSlot_of_ne (by omega)]
    exact h.rest o (by omega)
  · by_cases hk₁ : k₁ = k <;> by_cases hk₂ : k₂ = k
    · rw [hk₁, hk₂]
    · subst hk₁
      exact absurd heq (hone k₂ hk₂ h₁ h₂)
    · subst hk₂
      exact absurd heq.symm (hone k₁ hk₁ h₂ h₁)
    · rw [slotInum_setSlot_of_ne hk₁] at h₁
      rw [slotInum_setSlot_of_ne hk₂] at h₂
      rw [slotName_setSlot_of_ne hk₁, slotName_setSlot_of_ne hk₂] at heq
      exact h.inj k₁ k₂ h₁ h₂ heq

theorem bindings_link (h : n.IsDir) {j : Nat} (hj : 0 < j) (hj' : j < 2 ^ 16) (hle : 16 * k ≤ n.size)
    (hfree : n.slotInum k = 0) (hnew : ∀ k', ¬ n.Names name k') (name' : List UInt8) :
    (n.setSlot k ⟨j, name⟩).bindings name' = if cstr name' = cstr name then some j else n.bindings name' := by
  have h' : (n.setSlot k ⟨j, name⟩).IsDir := h.setSlot hle fun _ k' _ => hnew k'
  have hjm : j % 2 ^ 16 = j := Nat.mod_eq_of_lt hj'
  have hself : (n.setSlot k ⟨j, name⟩).slotInum k = j := slotInum_setSlot.trans hjm
  refine Option.ext fun j' => ?_
  rw [h'.bindings_eq_some]
  split_ifs with heq
  · constructor
    · rintro ⟨k', hk', rfl⟩
      by_cases hkk : k' = k
      · rw [hkk, hself]
      · rw [names_setSlot_of_ne hkk, names_congr heq] at hk'
        exact absurd hk' (hnew k')
    · intro hj'
      obtain rfl := Option.some.inj hj'
      exact ⟨k, names_setSlot_self.mpr ⟨hjm.symm ▸ Nat.ne_of_gt hj, heq⟩, hself⟩
  · rw [h.bindings_eq_some]
    refine exists_congr fun k' => ?_
    by_cases hkk : k' = k
    · subst hkk
      refine iff_of_false (fun hk' => heq (names_setSlot_self.mp hk'.1).2) fun hk' => hk'.1.1 hfree
    · rw [names_setSlot_of_ne hkk, slotInum_setSlot_of_ne hkk]

theorem bindings_erase (h : n.IsDir) (hk : n.Names name k) (name' : List UInt8) :
    (n.setSlot k ⟨0, []⟩).bindings name' = if cstr name' = cstr name then none else n.bindings name' := by
  have h' : (n.setSlot k ⟨0, []⟩).IsDir :=
    h.setSlot (Nat.le_of_add_right_le (h.lt_of_used hk.1)) fun h0 => absurd rfl h0
  refine Option.ext fun j' => ?_
  rw [h'.bindings_eq_some]
  split_ifs with heq
  · refine iff_of_false ?_ nofun
    rintro ⟨k', hk', -⟩
    by_cases hkk : k' = k
    · rw [hkk, names_setSlot_self] at hk'
      exact hk'.1 rfl
    · rw [names_setSlot_of_ne hkk, names_congr heq, ← h.slot?_iff, h.slot?_iff.mpr hk] at hk'
      exact hkk (Option.some.inj hk').symm
  · rw [h.bindings_eq_some]
    refine exists_congr fun k' => ?_
    by_cases hkk : k' = k
    · subst hkk
      refine iff_of_false (fun hk' => (names_setSlot_self.mp hk'.1).1 rfl) fun hk' => heq ?_
      exact (namecmp_iff.mp hk'.1.2).trans (namecmp_iff.mp hk.2).symm
    · rw [names_setSlot_of_ne hkk, slotInum_setSlot_of_ne hkk]

end IsDir

end Node

end Xv6.Fs

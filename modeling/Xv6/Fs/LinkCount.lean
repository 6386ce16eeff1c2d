import Xv6.Fs.NodeStep
import Xv6.Lib.Count

/-!
# Link counts

An inode has at least as many links as names, not counting `"."` and `".."`, and a directory at least one more for
each of its subdirectories. Every change of the inodes keeps this, as long as no count is incremented beyond
32767. A directory without links may still be in use and get names, and it is freed with them; so the count
need not be exact.
-/

namespace Xv6.Fs

open Function Count

def Node.Gives (n : Node) (k : Nat) : Prop :=
  n.type = .dir ∧ n.slotInum k ≠ 0 ∧ cstr (n.slotName k) ≠ dot ∧ cstr (n.slotName k) ≠ dotdot

instance (n : Node) (k : Nat) : Decidable (n.Gives k) := inferInstanceAs (Decidable (_ ∧ _ ∧ _ ∧ _))

/-- The reasons for links: the entry `k` of the directory `d` is one for the inode it names, and if that is a
directory also for `d`, to which the `".."` of the inode leads. -/
def links (N : Nat → Node) : Nat × Nat × Bool → Option Nat
  | (d, k, false) => if (N d).Gives k then some ((N d).slotInum k) else none
  | (d, k, true) => if (N d).Gives k ∧ (N ((N d).slotInum k)).type = .dir then some d else none

/-- Every link count is as large as the number of reasons. -/
structure Counted (N : Nat → Node) : Prop where
  finite : (support (links N)).Finite
  le : ∀ i, (uses (links N) i : Int) ≤ (N i).nlink.toInt
  free : ∀ i, (N i).type = .free → (N i).nlink = 0
  small : ∀ i, (N i).type ≠ .free → i < 2 ^ 16

variable {N N' : Nat → Node} {n n' : Node} {i d k : Nat} {name : List UInt8} {D : Nat → Prop}

theorem links_false (h : (N d).Gives k) : links N (d, k, false) = some ((N d).slotInum k) := if_pos h

theorem links_of_not {b : Bool} (h : ¬ (N d).Gives k) : links N (d, k, b) = none := by
  cases b
  · exact if_neg h
  · exact if_neg fun hc => h hc.1

theorem not_gives_unused (h : n.slotInum k = 0) : ¬ n.Gives k := fun hg => hg.2.1 h

theorem not_gives_type (h : n.type ≠ .dir) : ¬ n.Gives k := fun hg => h hg.1

theorem gives_setSlot_of_ne {de : Dirent} {j : Nat} (hj : j ≠ k) : (n.setSlot k de).Gives j ↔ n.Gives j := by
  unfold Node.Gives
  rw [Node.slotInum_setSlot_of_ne hj, Node.slotName_setSlot_of_ne hj, Node.setSlot_type]

theorem gives_of_hasName (h : n.HasName k) : n.Gives k := ⟨h.dir, h.used, h.notDot⟩

theorem not_gives_newDir {j : Nat} : ¬ (Node.newDir i d).Gives j := by
  intro hg
  by_cases h1 : j = 1
  · rw [h1] at hg
    exact hg.2.2.2 Node.cstr_slotName_setSlot
  · rw [Node.newDir, gives_setSlot_of_ne h1] at hg
    by_cases h0 : j = 0
    · rw [h0] at hg
      exact hg.2.2.1 Node.cstr_slotName_setSlot
    · exact hg.2.1 (Node.slotInum_setSlot_of_ne h0)

theorem one_false_le (hs : (N d).slotInum k = i) (j : Nat) : one (links N (d, k, false)) j ≤ one (some i) j := by
  by_cases hg : (N d).Gives k
  · rw [links_false hg, hs]
  · rw [links_of_not hg]
    exact one_nonneg _ _

theorem one_true_le (j : Nat) : one (links N (d, k, true)) j ≤ one (some d) j := by
  rw [links]
  split_ifs
  · exact le_rfl
  · exact one_nonneg _ _

/-! ## Numbers -/

theorem nlink_pos {x : Int16} : 0 < x ↔ 0 < x.toInt := Int16.lt_iff_toInt_lt

theorem toInt_add_one {x : Int16} (h : x < 32767) : (x + 1).toInt = x.toInt + 1 := by
  have h1 : x.toInt < 32767 := Int16.lt_iff_toInt_lt.mp h
  have h2 := Int16.le_toInt x
  rw [Int16.toInt_add, show (1 : Int16).toInt = 1 from rfl, Int.bmod_eq_of_le] <;> omega

theorem toInt_sub_one {x : Int16} (h : 0 < x) : (x - 1).toInt = x.toInt - 1 := by
  have h1 : 0 < x.toInt := nlink_pos.mp h
  have h2 := Int16.toInt_lt x
  rw [Int16.toInt_sub, show (1 : Int16).toInt = 1 from rfl, Int.bmod_eq_of_le] <;> omega

namespace Counted

theorem nlink_pos (h : Counted N) (hg : (N d).Gives k) : 0 < (N ((N d).slotInum k)).nlink := by
  have hone := uses_pos h.finite (links_false hg)
  have hle := h.le ((N d).slotInum k)
  rw [Fs.nlink_pos]
  omega

theorem not_named (h : Counted N) (hi : (N i).nlink = 0) (hg : (N d).Gives k) : (N d).slotInum k ≠ i := by
  intro heq
  have hpos := h.nlink_pos hg
  rw [heq, hi] at hpos
  exact absurd hpos (by decide)

/-- The inode `e` may become `n`, when the entry `k` of the directory `d` changes: no other entry is new, and it
is no new directory for those that name it. -/
structure Fits (N : Nat → Node) (d k e : Nat) (n : Node) : Prop where
  cell : ∀ j, (e, j) ≠ (d, k) → n.Gives j → (N e).Gives j ∧ n.slotInum j = (N e).slotInum j
  type : ∀ e' j, (N e').Gives j → (N e').slotInum j = e → n.type = .dir → (N e).type = .dir
  free : n.type = .free → n.nlink = 0
  small : n.type ≠ .free → e < 2 ^ 16

theorem fits (h : Counted N) (e : Nat) : Fits N d k e (N e) :=
  ⟨fun _ _ hg => ⟨hg, rfl⟩, fun _ _ _ _ ht => ht, h.free e, h.small e⟩

theorem fits_links (h : Counted N) (hi : (N i).type ≠ .free) (x : Int16) : Fits N d k i { N i with nlink := x } :=
  ⟨fun _ _ hg => ⟨hg, rfl⟩, fun _ _ _ _ ht => ht, fun hf => absurd hf hi, h.small i⟩

theorem fits_slot (h : Counted N) (hd : (N d).type = .dir) (de : Dirent) (x : Int16) :
    Fits N d k d { (N d).setSlot k de with nlink := x } where
  cell j hj hg := by
    have hjk : j ≠ k := fun heq => hj (by rw [heq])
    exact ⟨(gives_setSlot_of_ne hjk).mp hg, Node.slotInum_setSlot_of_ne hjk⟩
  type _ _ _ _ _ := hd
  free hf := absurd (hd.symm.trans hf) (by decide)
  small := h.small d

theorem links_below (hfit : ∀ e, Fits N d k e (N' e)) :
    Below (links N') (update (update (links N) (d, k, false) (links N' (d, k, false))) (d, k, true)
      (links N' (d, k, true))) := by
  rintro ⟨e, j, b⟩
  by_cases hej : (e, j) = (d, k)
  · obtain ⟨rfl, rfl⟩ := Prod.mk.inj hej
    right
    cases b
    · rw [update_of_ne (by simp), update_self]
    · rw [update_self]
  · have hne : ∀ b', (e, j, b) ≠ (d, k, b') := fun b' heq => hej (by simp only [Prod.mk.injEq] at heq ⊢; tauto)
    rw [update_of_ne (hne true), update_of_ne (hne false)]
    by_cases hg : (N' e).Gives j
    · obtain ⟨hg', hslot⟩ := (hfit e).cell j hej hg
      cases b with
      | false =>
        right
        rw [links_false hg, links_false hg', hslot]
      | true =>
        by_cases hdir : (N' ((N' e).slotInum j)).type = .dir
        · right
          rw [hslot] at hdir
          rw [links, hslot, if_pos ⟨hg, hdir⟩, links, if_pos ⟨hg', (hfit _).type e j hg' rfl hdir⟩]
        · exact .inl (if_neg fun hc => hdir hc.2)
    · exact .inl (links_of_not hg)

section

variable (h : Counted N)
include h

theorem of_fits (hfit : ∀ e, Fits N d k e (N' e))
    (hlinks : ∀ j, (N j).nlink.toInt + one (links N' (d, k, false)) j - one (links N (d, k, false)) j +
      one (links N' (d, k, true)) j - one (links N (d, k, true)) j ≤ (N' j).nlink.toInt) : Counted N' := by
  have hbelow := links_below hfit
  have hfin := finite_update (finite_update h.finite (d, k, false) (links N' (d, k, false))) (d, k, true)
    (links N' (d, k, true))
  refine ⟨hbelow.finite hfin, fun j => ?_, fun j => (hfit j).free, fun j => (hfit j).small⟩
  have hle := hbelow.uses_le hfin j
  have heq := uses_update (finite_update h.finite (d, k, false) (links N' (d, k, false))) (d, k, true)
    (links N' (d, k, true)) j
  rw [uses_update h.finite, update_of_ne (by simp)] at heq
  have := h.le j
  have := hlinks j
  omega

/-- The inode `i` becomes `n` and gets a name in the directory `d`, whose count is `x` then. -/
theorem addEntry (hroom : (N d).HasRoom name k) (hid : d ≠ i) (hfits : Fits N d k i n) (hi : i < 2 ^ 16)
    (hn : (N i).nlink.toInt + 1 ≤ n.nlink.toInt) {x : Int16}
    (hx : (N d).nlink.toInt + one (if n.type = .dir then some d else none) d ≤ x.toInt) :
    Counted (update (update N i n) d { (N d).setSlot k ⟨i, name⟩ with nlink := x }) := by
  refine h.of_fits (forall_update₂ (h.fits_slot hroom.dir _ _) hfits fun j _ _ => h.fits j) fun j => ?_
  rw [links_of_not (not_gives_unused hroom.unused), links_of_not (not_gives_unused hroom.unused)]
  obtain ⟨M, hM⟩ : ∃ M, M = update (update N i n) d { (N d).setSlot k ⟨i, name⟩ with nlink := x } := ⟨_, rfl⟩
  have hslot : (M d).slotInum k = i := by
    rw [hM, update_self]
    exact Node.slotInum_setSlot.trans (Nat.mod_eq_of_lt hi)
  have hup : one (links M (d, k, true)) j ≤ one (if n.type = .dir then some d else none) j := by
    split_ifs with hdir
    · exact one_true_le j
    · rw [links, if_neg fun hc => hdir ?_]
      rw [← hc.2, hslot, hM, update_of_ne hid.symm, update_self]
  have hone := one_false_le hslot j
  rw [← hM, one_none]
  refine le_trans (by omega :
    _ ≤ (N j).nlink.toInt + one (some i) j + one (if n.type = .dir then some d else none) j) ?_
  have hother : ∀ j ≠ d, one (if n.type = .dir then some d else none) j = 0 := fun j hj => by
    split_ifs <;> simp [one_some, one_none, hj.symm]
  rw [hM]
  refine forall_update₂ (P := fun j n' => (N j).nlink.toInt + one (some i) j +
    one (if n.type = .dir then some d else none) j ≤ n'.nlink.toInt) ?_ ?_ (fun j hd hj => ?_) j
  · rwa [one_some, if_neg hid.symm, add_zero]
  · rwa [one_some, if_pos rfl, hother i hid.symm, add_zero]
  · rw [one_some, if_neg hj.symm, hother j hd, add_zero, add_zero]

/-- The file `i` gets a name, and a link with it. -/
theorem addName (hroom : (N d).HasRoom name k) (hold : (N i).type ≠ .dir) (hnew : n.type ≠ .dir)
    (hfree : n.type ≠ .free) (hi : i < 2 ^ 16) (hn : n.nlink.toInt = (N i).nlink.toInt + 1) :
    Counted (update (update N i n) d ((N d).setSlot k ⟨i, name⟩)) := by
  have hid : d ≠ i := fun heq => hold (heq ▸ hroom.dir)
  have hfits : Fits N d k i n :=
    ⟨fun _ _ hg => absurd hg.1 hnew, fun _ _ _ _ ht => absurd ht hnew, fun hf => absurd hf hfree, fun _ => hi⟩
  refine h.addEntry hroom hid hfits hi hn.ge ?_
  rw [if_neg hnew, one_none, add_zero]

/-- The inode `i` loses its name in the directory `d`; the counts are `x` and `y` then. -/
theorem removeName (hid : d ≠ i) (hname : (N d).HasName k) (hslot : (N d).slotInum k = i)
    (hi : (N i).type ≠ .free) {x y : Int16} (hy : y.toInt = (N i).nlink.toInt - 1)
    (hx : x.toInt = (N d).nlink.toInt - if (N i).type = .dir then 1 else 0) :
    Counted (update (update N d { (N d).setSlot k ⟨0, []⟩ with nlink := x }) i
      { N i with nlink := y }) := by
  have hg := gives_of_hasName hname
  refine h.of_fits
    (forall_update₂ (h.fits_links hi _) (h.fits_slot hname.dir _ _) fun j _ _ => h.fits j) ?_
  have hnone : ∀ b, links (update (update N d { (N d).setSlot k ⟨0, []⟩ with nlink := x }) i
      { N i with nlink := y }) (d, k, b) = none := fun b => by
    refine links_of_not (not_gives_unused ?_)
    rw [update_of_ne hid, update_self]
    exact Node.slotInum_setSlot
  have hold : links N (d, k, true) = if (N i).type = .dir then some d else none := by
    rw [links, hslot]
    simp only [hg, true_and]
  rw [links_false hg, hslot, hold, hnone, hnone]
  refine forall_update₂ (P := fun j n => (N j).nlink.toInt + one none j - one (some i) j + one none j -
    one (if (N i).type = .dir then some d else none) j ≤ n.nlink.toInt) ?_ ?_ fun j h1 h2 => ?_
  · rw [one_some, one_none]
    show _ ≤ y.toInt
    have := one_nonneg (if (N i).type = .dir then some d else none) i
    omega
  · rw [one_some, if_neg hid.symm, one_none]
    show _ ≤ x.toInt
    split_ifs at hx ⊢
    · rw [one_some]
      omega
    · rw [one_none]
      omega
  · rw [one_some, one_none]
    have := one_nonneg (if (N i).type = .dir then some d else none) j
    omega

theorem removeFile (hname : (N d).HasName k) (hslot : (N d).slotInum k = i) (hfree : (N i).type ≠ .free)
    (hdir : (N i).type ≠ .dir) :
    Counted (update (update N d ((N d).setSlot k ⟨0, []⟩)) i (N i).dropLink) := by
  have hid : d ≠ i := fun heq => hdir (heq ▸ hname.dir)
  have hpos := hslot ▸ h.nlink_pos (gives_of_hasName hname)
  refine h.removeName hid hname hslot hfree (toInt_sub_one hpos) ?_
  rw [if_neg hdir, sub_zero]

/-- The parent loses the link of the `".."` of the directory. -/
theorem removeDir (hid : d ≠ i) (hname : (N d).HasName k) (hslot : (N d).slotInum k = i) (hdir : (N i).type = .dir) :
    Counted (update (update N d ((N d).setSlot k ⟨0, []⟩).dropLink) i (N i).dropLink) := by
  have hg := gives_of_hasName hname
  have hpos := hslot ▸ h.nlink_pos hg
  have hup : links N (d, k, true) = some d := if_pos ⟨hg, by rw [hslot, hdir]⟩
  have hdpos : 0 < (N d).nlink := by
    have h1 := uses_pos h.finite hup
    have h2 := h.le d
    rw [Fs.nlink_pos]
    omega
  refine h.removeName hid hname hslot (by rw [hdir]; decide) (toInt_sub_one hpos) ?_
  rw [if_pos hdir]
  exact toInt_sub_one hdpos

/-- A new directory gets a name, and its parent a link from its `".."`. -/
theorem addDir (hroom : (N d).HasRoom name k) (hi : (N i).type = .free) (hi16 : i < 2 ^ 16)
    (hmax : (N d).nlink < 32767) :
    Counted (update (update N i (.newDir i d)) d ((N d).setSlot k ⟨i, name⟩).addLink) := by
  have hid : d ≠ i := fun heq => by
    have := hroom.dir
    rw [heq, hi] at this
    cases this
  have hfits : Fits N d k i (.newDir i d) :=
    ⟨fun _ _ hg => absurd hg not_gives_newDir, fun _ _ hg hs _ => absurd hs (h.not_named (h.free i hi) hg), nofun,
      fun _ => hi16⟩
  refine h.addEntry hroom hid hfits hi16 ?_ ?_
  · rw [h.free i hi]
    exact (by decide : Int16.toInt 0 + 1 ≤ Int16.toInt 1)
  rw [if_pos (by rfl), one_some, if_pos rfl]
  exact (toInt_add_one hmax).ge

theorem replace (hn : n.type ≠ .dir) (hlinks : n.nlink = (N i).nlink) (hfree : n.type = .free → n.nlink = 0)
    (hsmall : n.type ≠ .free → i < 2 ^ 16) : Counted (update N i n) := by
  have hfits : Fits N i 0 i n := ⟨fun _ _ hg => absurd hg.1 hn, fun _ _ _ _ ht => absurd ht hn, hfree, hsmall⟩
  have hnone : ∀ b, links (update N i n) (i, 0, b) = none := fun b => by
    refine links_of_not (not_gives_type ?_)
    rwa [update_self]
  refine h.of_fits (d := i) (k := 0) (fun e => ?_) fun j => ?_
  · by_cases he : e = i
    · rw [he, update_self]
      exact hfits
    · rw [update_of_ne he]
      exact h.fits e
  · have h1 := one_nonneg (links N (i, 0, false)) j
    have h2 := one_nonneg (links N (i, 0, true)) j
    have hsame : (update N i n j).nlink = (N j).nlink := by
      by_cases hj : j = i
      · rw [hj, update_self, hlinks]
      · rw [update_of_ne hj]
    rw [hnone, hnone, one_none, hsame]
    omega

theorem step (hstep : NodeStep D (· < 32767) N N') : Counted N' := by
  cases hstep with
  | link _ _ hroom hfree hdir hmax =>
    exact h.addName hroom hdir hdir hfree (h.small _ hfree) (toInt_add_one hmax)
  | unlink _ hname hslot hfree hdir _ => exact h.removeFile hname hslot hfree hdir
  | rmdir _ hid hname hslot hdir _ _ => exact h.removeDir hid hname hslot hdir
  | create _ hroom hi _ hi16 hfree hdir =>
    refine h.addName hroom (by rw [hi]; decide) hdir hfree hi16 ?_
    rw [h.free _ hi]
    rfl
  | mkdir _ hroom hi _ hi16 hmax => exact h.addDir hroom hi hi16 hmax
  | data hdir htype hlinks =>
    refine h.replace (htype ▸ hdir) hlinks (fun hf => ?_) fun hf => h.small _ (htype ▸ hf)
    rw [hlinks, h.free _ (htype ▸ hf)]

end

theorem changes (h : Counted N) (hc : Changes D (· < 32767) N N') : Counted N' := by
  obtain ⟨X, hX, hfrees⟩ := hc
  have hX := h.step hX
  induction hfrees with
  | refl => exact hX
  | tail _ hstep ih =>
    obtain ⟨i, hi, rfl⟩ := hstep
    exact ih.replace (by decide) hi.symm (fun _ => rfl) (absurd rfl)

end Counted

end Xv6.Fs

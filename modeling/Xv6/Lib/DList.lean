import Mathlib.Algebra.GroupWithZero.Nat
import Mathlib.Data.List.Nodup
import Mathlib.Logic.Function.Basic

/-!
# Circular doubly linked lists

Nodes with two pointers each. `Path f x l y` says that following `f` from `x` one meets the nodes of `l`
in their order and then `y`; a ring with the head `h` and the nodes `l` is a path along `next` from `h`
back to `h`, and the reversed path along `prev`. `unlink` and `insertAfter` are the usual sequences of
pointer assignments.
-/

namespace DList

variable {ν : Type*} {f : ν → ν} {a b h x y z : ν} {l u v : List ν}

/-- From `x` the pointers `f` lead through the nodes of `l` to `y`. -/
def Path (f : ν → ν) (x : ν) : List ν → ν → Prop
  | [], y => f x = y
  | z :: l, y => f x = z ∧ Path f z l y

theorem Path.append : Path f x (u ++ z :: v) y ↔ Path f x u z ∧ Path f z v y := by
  induction u generalizing x with
  | nil => exact Iff.rfl
  | cons w u ih =>
    simp only [List.cons_append, Path, ih]
    exact and_assoc.symm

theorem Path.first (hp : Path f x l y) : (l ++ [y]).head? = some (f x) := by
  cases l with
  | nil => simp [show f x = y from hp]
  | cons z l => simp [hp.1]

theorem Path.congr {g : ν → ν} (hg : ∀ z ∈ x :: l, g z = f z) (hp : Path f x l y) : Path g x l y := by
  induction l generalizing x with
  | nil => exact (hg x List.mem_cons_self).trans hp
  | cons z l ih =>
    exact ⟨(hg x List.mem_cons_self).trans hp.1, ih (fun w hw => hg w (List.mem_cons_of_mem _ hw)) hp.2⟩

theorem Path.splice (hp : Path f x l y) (hl : x :: l = u ++ z :: v) :
    Path f z v y ∧ ∀ g l' v', (∀ w ∈ u, g w = f w) → x :: l' = u ++ z :: v' → Path g z v' y → Path g x l' y := by
  cases u with
  | nil =>
    obtain ⟨rfl, rfl⟩ := List.cons.inj hl
    refine ⟨hp, fun g l' v' _ hl' hg => ?_⟩
    rwa [(List.cons.inj hl').2]
  | cons w u =>
    obtain ⟨rfl, rfl⟩ : x = w ∧ l = u ++ z :: v := List.cons.inj hl
    obtain ⟨h1, h2⟩ := Path.append.mp hp
    refine ⟨h2, fun g l' v' hg hl' hgz => ?_⟩
    rw [show l' = u ++ z :: v' from (List.cons.inj hl').2]
    exact Path.append.mpr ⟨h1.congr hg, hgz⟩

theorem Path.rotate (hp : Path f x l x) (hz : z ∈ x :: l) : ∃ r, Path f z r z ∧ (z :: r).Perm (x :: l) := by
  rcases List.mem_cons.mp hz with rfl | hz
  · exact ⟨l, hp, .refl _⟩
  · obtain ⟨u, v, rfl⟩ := List.append_of_mem hz
    obtain ⟨h1, h2⟩ := Path.append.mp hp
    exact ⟨v ++ x :: u, Path.append.mpr ⟨h2, h1⟩, @List.perm_append_comm _ (z :: v) (x :: u)⟩

variable [DecidableEq ν]

theorem Path.update (ha : a ∉ x :: l) (hp : Path f x l y) : Path (Function.update f a b) x l y := by
  induction l generalizing x with
  | nil =>
    have hx : x ≠ a := fun hc => ha (by simp [hc])
    simpa [Path, hx] using hp
  | cons z l ih =>
    have hx : x ≠ a := fun hc => ha (by simp [hc])
    refine ⟨by simpa [hx] using hp.1, ih (fun hc => ha (List.mem_cons_of_mem _ hc)) hp.2⟩

theorem Path.bypass (ha : a ∉ l) (hp : Path f b l y) : Path (Function.update f a (f b)) a l y := by
  cases l with
  | nil => simpa [Path] using hp
  | cons z l => exact ⟨by simpa using hp.1, hp.2.update ha⟩

theorem Path.remove (hn : (x :: (u ++ b :: v)).Nodup) (hp : Path f x (u ++ b :: v) y)
    (ha : (x :: u).getLast? = some a) : Path (Function.update f a (f b)) x (u ++ v) y := by
  obtain rfl | ⟨u, w, rfl⟩ := u.eq_nil_or_concat
  · obtain rfl : x = a := by simpa using ha
    refine hp.2.bypass fun hc => ?_
    exact (List.nodup_cons.mp hn).1 (List.mem_cons_of_mem _ hc)
  · obtain rfl : w = a := by simpa [List.getLast?_cons] using ha
    simp only [List.concat_eq_append, List.append_assoc, List.cons_append, List.nil_append] at hn hp ⊢
    obtain ⟨hu, hw⟩ := Path.append.mp hp
    have hn' := List.nodup_append.mp (show ((x :: u) ++ w :: b :: v).Nodup from hn)
    refine Path.append.mpr ⟨hu.update fun hc => hn'.2.2 w hc w (by simp) rfl, hw.2.bypass fun hc => ?_⟩
    exact (List.nodup_cons.mp hn'.2.1).1 (List.mem_cons_of_mem _ hc)

/-- The search along `f` from `x` to `stop`, over at most `fuel` nodes. -/
def find (f : ν → ν) (stop : ν) (p : ν → Bool) : Nat → ν → Option ν
  | 0, _ => none
  | fuel + 1, x => if x = stop then none else if p x then some x else find f stop p fuel (f x)

theorem Path.find_eq {p : ν → Bool} {fuel : Nat} (hp : Path f x l y) (hy : y ∉ l)
    (hl : l.length < fuel) : find f y p fuel (f x) = l.find? p := by
  induction l generalizing x fuel with
  | nil =>
    obtain ⟨fuel, rfl⟩ := Nat.exists_eq_succ_of_ne_zero (by omega : fuel ≠ 0)
    rw [show f x = y from hp]
    simp [find]
  | cons z l ih =>
    obtain ⟨fuel, rfl⟩ := Nat.exists_eq_succ_of_ne_zero (by omega : fuel ≠ 0)
    have hz : z ≠ y := fun hc => hy (by simp [hc])
    rw [hp.1, find, if_neg hz, List.find?_cons]
    cases p z with
    | true => rfl
    | false => exact ih hp.2 (fun hc => hy (List.mem_cons_of_mem _ hc)) (by simpa using hl)

structure Links (ν : Type*) where
  prev : ν → ν
  next : ν → ν

namespace Links

/-- `b->next->prev = b->prev; b->prev->next = b->next;` -/
def unlink (k : Links ν) (b : ν) : Links ν :=
  let k := { k with prev := Function.update k.prev (k.next b) (k.prev b) }
  { k with next := Function.update k.next (k.prev b) (k.next b) }

/-- `b->next = h->next; b->prev = h; h->next->prev = b; h->next = b;` -/
def insertAfter (k : Links ν) (h b : ν) : Links ν :=
  let k := { k with next := Function.update k.next b (k.next h) }
  let k := { k with prev := Function.update k.prev b h }
  let k := { k with prev := Function.update k.prev (k.next h) b }
  { k with next := Function.update k.next h b }

end Links

/-- The links form one ring of the head `h` and the nodes `l`, in both directions. -/
structure Ring (k : Links ν) (h : ν) (l : List ν) : Prop where
  nodup : (h :: l).Nodup
  next : Path k.next h l h
  prev : Path k.prev h l.reverse h

variable {k : Links ν}

omit [DecidableEq ν] in
theorem Ring.head_notMem (hk : Ring k h l) : h ∉ l := (List.nodup_cons.mp hk.nodup).1

theorem Ring.unlink (hk : Ring k h (u ++ b :: v)) : Ring (k.unlink b) h (u ++ v) := by
  obtain ⟨hn, hnext, hprev⟩ := hk
  have hrev : (u ++ b :: v).reverse = v.reverse ++ b :: u.reverse := by simp
  rw [hrev] at hprev
  have hnrev : (h :: (v.reverse ++ b :: u.reverse)).Nodup := by
    rw [← hrev, List.nodup_cons, List.mem_reverse, List.nodup_reverse]
    exact List.nodup_cons.mp hn
  have hb : b ≠ h := fun hc => (List.nodup_cons.mp hn).1 (by simp [hc])
  have hbuv : b ∉ u ∧ b ∉ v := by
    have := (List.nodup_append.mp (List.nodup_cons.mp hn).2)
    exact ⟨fun hc => this.2.2 b hc b (by simp) rfl, (List.nodup_cons.mp this.2.1).1⟩
  -- the neighbours of b
  have ha : (h :: u).getLast? = some (k.prev b) := by
    rw [← List.head?_reverse, List.reverse_cons]
    exact (Path.append.mp hprev).2.first
  have hc : (h :: v.reverse).getLast? = some (k.next b) := by
    rw [← List.head?_reverse, List.reverse_cons, List.reverse_reverse]
    exact (Path.append.mp hnext).2.first
  have hcb : k.next b ≠ b := fun hcb => by
    have := List.mem_of_getLast? hc
    rw [hcb] at this
    simp [hb, hbuv.2] at this
  refine ⟨?_, ?_, ?_⟩
  · exact hn.sublist (.cons_cons h (.append_left (.cons b (.refl v)) u))
  · have := hnext.remove hn ha
    simpa [Links.unlink, Function.update_of_ne (Ne.symm hcb)] using this
  · have := hprev.remove hnrev hc
    simpa [Links.unlink] using this

theorem Ring.insertAfter (hk : Ring k h l) (hb : b ∉ h :: l) : Ring (k.insertAfter h b) h (b :: l) := by
  obtain ⟨hn, hnext, hprev⟩ := hk
  have hbh : b ≠ h := fun hc => hb (by simp [hc])
  have hbl : b ∉ l := fun hc => hb (List.mem_cons_of_mem _ hc)
  have hhl : h ∉ l := (List.nodup_cons.mp hn).1
  refine ⟨?_, ?_, ?_⟩
  · rw [List.nodup_cons, List.nodup_cons]
    exact ⟨by simp [Ne.symm hbh, hhl], hbl, (List.nodup_cons.mp hn).2⟩
  · have hpath := (hnext.bypass hbl).update (a := h) (b := b) (by simp [Ne.symm hbh, hhl])
    exact ⟨by simp [Links.insertAfter], hpath⟩
  · rw [List.reverse_cons]
    refine Path.append.mpr ⟨?_, ?_⟩
    · cases l with
      | nil =>
        have hh : k.next h = h := hnext
        simp [Path, Links.insertAfter, Function.update_of_ne (Ne.symm hbh), hh]
      | cons z l =>
        have hz : k.next h = z := hnext.1
        have hzh : z ∉ h :: l.reverse := by
          have := List.nodup_cons.mp (List.nodup_cons.mp hn).2
          simp only [List.mem_cons, List.mem_reverse, not_or]
          exact ⟨fun hc => hhl (by simp [hc]), this.1⟩
        have hbr : b ∉ h :: l.reverse := by
          simp only [List.mem_cons, List.mem_reverse, not_or]
          exact ⟨hbh, fun hc => hbl (List.mem_cons_of_mem _ hc)⟩
        rw [List.reverse_cons] at hprev ⊢
        refine Path.append.mpr ⟨?_, ?_⟩
        · have := ((Path.append.mp hprev).1.update (b := h) hbr).update (b := b) hzh
          simpa [Links.insertAfter, Function.update_of_ne (Ne.symm hbh), hz] using this
        · simp [Path, Links.insertAfter, Function.update_of_ne (Ne.symm hbh), hz]
    · have hne : b ≠ k.next h := by
        intro hc
        cases l with
        | nil => exact hbh (hc.trans hnext)
        | cons z l => exact hbl (by simp [hc, show k.next h = z from hnext.1])
      simp [Path, Links.insertAfter, Function.update_of_ne (Ne.symm hbh), Function.update_of_ne hne]

theorem Ring.find_next (hk : Ring k h l) {p : ν → Bool} {fuel : Nat} (hl : l.length < fuel) :
    find k.next h p fuel (k.next h) = l.find? p :=
  hk.next.find_eq hk.head_notMem hl

theorem Ring.find_prev (hk : Ring k h l) {p : ν → Bool} {fuel : Nat} (hl : l.length < fuel) :
    find k.prev h p fuel (k.prev h) = l.reverse.find? p :=
  hk.prev.find_eq (by simpa using hk.head_notMem) (by simpa using hl)

end DList

import Mathlib.Data.Fintype.Card
import Xv6.Fs.Directory
import Xv6.Fs.Path

/-!
# Path walks

`namex` returns with one more reference, to the inode that the path leads to, or with none if it leads
nowhere; no other reference and no lock is left over, and no contents change.
-/

namespace Xv6.Fs

open Wp

variable {m : Mode} {sb : Superblock} {s t : Fs} {e : Ptr} {i : Nat} {B : Base} {R : List (Ptr × Nat)}
  {L : List Ptr} {N : Nat → Node} {E : Panic → Prop}

/-- A set of inodes that contains what its directories name; if walks are to be safe, of allocated ones. -/
structure Closed (m : Mode) (N : Nat → Node) (S : Nat → Prop) : Prop where
  next : ∀ i k, S i → (N i).type = .dir → (N i).slotInum k ≠ 0 → S ((N i).slotInum k)
  alloc : m.safe → ∀ i, S i → (N i).type ≠ .free

theorem skipelem_length {path name rest : List UInt8} (h : skipelem path = some (name, rest)) :
    rest.length < path.length := by
  unfold skipelem at h
  split at h
  · cases h
  · rename_i hp
    obtain ⟨-, rfl⟩ := Prod.mk.inj (Option.some.inj h)
    have h1 : (path.dropWhile (· = slash)).length ≤ path.length := (List.dropWhile_suffix _).length_le
    obtain ⟨c, l, hcl⟩ := List.exists_cons_of_ne_nil hp
    have hc : c ≠ slash := by
      have := List.head_dropWhile_not (fun c => decide (c = slash)) hp
      simpa [hcl] using this
    have h2 : ((path.dropWhile (· = slash)).dropWhile (· ≠ slash)).length ≤ l.length := by
      rw [hcl, List.dropWhile_cons_of_pos (by simpa using hc)]
      exact (List.dropWhile_suffix _).length_le
    have h3 := (List.dropWhile_suffix (l := (path.dropWhile (· = slash)).dropWhile (· ≠ slash))
      (fun c => decide (c = slash))).length_le
    rw [hcl, List.length_cons] at h1
    omega

theorem Kept.cons {x : Ptr × Nat} (h : Kept B R N e i) : Kept B (x :: R) N e i :=
  h.imp_right (Or.imp_left (List.mem_cons_of_mem _))

theorem Kept.of_cons {e' : Ptr} {i' : Nat} (h : Kept B ((e, i) :: R) N e' i')
    (he : e' = e → Kept B R N e' i') : Kept B R N e' i' := by
  rcases h with hb | hR | hn | ht
  · exact .inl hb
  · rcases List.mem_cons.mp hR with heq | hmem
    · exact he heq
    · exact .inr (.inl hmem)
  · exact .inr (.inr (.inl hn))
  · exact .inr (.inr (.inr ht))

/-! ## Space in the inode table -/

/-- The entries that no open file and no process refers to. -/
def Base.free (B : Base) : Finset Ptr := Finset.univ.filter fun e => B.cnt e = 0

theorem Ctx.exists_unused (h : Ctx m sb B R L N s) (hlt : R.length < B.free.card) : ∃ e, (s.itable e).ref = 0 := by
  have hcard : (R.map Prod.fst).toFinset.card < B.free.card :=
    (List.toFinset_card_le _).trans_lt (by rwa [List.length_map])
  obtain ⟨e, he, hnot⟩ := Finset.exists_mem_notMem_of_card_lt_card hcard
  refine ⟨e, ?_⟩
  rw [List.mem_toFinset] at hnot
  rw [h.ref, (Finset.mem_filter.mp he).2, List.count_eq_zero_of_not_mem hnot]

theorem Ctx.not_full (h : Ctx m sb B R L N s) (hroom : E .igetNoInodes ∨ R.length < B.free.card) :
    (∀ e, (s.itable e).ref ≠ 0) → E .igetNoInodes := by
  intro hfull
  refine hroom.resolve_right fun hlt => ?_
  obtain ⟨e, he⟩ := h.exists_unused hlt
  exact hfull e he

/-! ## The walk -/

/-- Where a walk of the names from the inode `i` ends. -/
def Reaches (N : Nat → Node) (parent : Bool) (i : Nat) (names : List (List UInt8)) (r : Option (Nat × List UInt8)) :
    Prop :=
  if parent then r = resolveParent N i names else r.map Prod.fst = resolve N i names

theorem Reaches.cons {parent : Bool} {name : List UInt8} {names : List (List UInt8)} {j : Nat}
    {r : Option (Nat × List UInt8)} (hj : lookupIn N i name = some j) (hp : parent = true → names ≠ [])
    (h : Reaches N parent j names r) : Reaches N parent i (name :: names) r := by
  unfold Reaches at h ⊢
  cases parent with
  | true => rw [resolveParent_cons (hp rfl), hj]; exact h
  | false => rw [resolve_cons, hj]; exact h

theorem reaches_none {parent : Bool} {name : List UInt8} {names : List (List UInt8)}
    (hj : lookupIn N i name = none) (hp : parent = true → (N i).type = .dir → names ≠ []) :
    Reaches N parent i (name :: names) none := by
  unfold Reaches
  cases parent with
  | true =>
    rcases names with _ | ⟨name', names⟩
    · have hdir : (N i).type ≠ .dir := fun h => hp rfl h rfl
      exact (if_neg hdir).symm
    · rw [resolveParent_cons (List.cons_ne_nil _ _), hj]; rfl
  | false => rw [resolve_cons, hj]; rfl

/-- What stops a walk: an inode that is not allocated, or a directory with an odd size. -/
def WalkFails (E : Panic → Prop) (n : Node) : Prop :=
  (n.type = .free → E .ilockNoType) ∧ (n.type = .dir → DirFails E n)

section

variable {S : Nat → Prop} {parent : Bool}

theorem wp_namexLoop (hS : m.exact → Closed m N S)
    (hE : ∀ N' i, (m.exact → N' = N ∧ S i) → WalkFails E (N' i)) (hlog : ¬ m.exact → LogFails E)
    (hroom : E .igetNoInodes ∨ R.length + 1 < B.free.card) {Q : Option (Ptr × List UInt8) → Fs → Prop}
    {start : Nat} {names : List (List UInt8)}
    (hnone : ∀ t N', (m.exact → N' = N ∧ Reaches N parent start names none) → Ctx m sb B R [] N' t → Q none t)
    (hsome : ∀ e i name t N', (m.exact → N' = N ∧ Reaches N parent start names (some (i, name)) ∧
      Kept B R N' e i ∧ S i) → Ctx m sb B ((e, i) :: R) [] N' t → Q (some (e, name)) t) :
    ∀ fuel path e i name s N', path.length < fuel → (m.exact → N' = N ∧ Kept B R N' e i ∧ S i ∧
        ∀ r, Reaches N parent i (components path) r → Reaches N parent start names r) →
      Ctx m sb B ((e, i) :: R) [] N' s → wp (namexLoop sb parent fuel path e name) Q E s := by
  intro fuel
  induction fuel with
  | zero => exact fun path e i name s N' hlt => absurd hlt (Nat.not_lt_zero _)
  | succ fuel ih =>
    intro path e i name s N' hlt hex h
    obtain ⟨hfree, hdirs⟩ := hE N' i fun hm => ⟨(hex hm).1, (hex hm).2.2.1⟩
    have hcomp := components_skipelem path
    -- the walk ends without a result, and the reference is dropped
    have hput : ∀ t, (m.exact → Reaches N parent i (components path) none) → Ctx m sb B ((e, i) :: R) [e] N' t →
        wp (do iunlockput sb e; return none) Q E t := by
      intro t hno ht
      rw [wp_bind]
      refine wp_iunlockput ht List.not_mem_nil (fun hnk => hlog fun hm => hnk (hex hm).2.1)
        (fun u _ hu => hnone u N' (fun hm => ⟨(hex hm).1, (hex hm).2.2.2 _ (hno hm)⟩) hu) fun u hnk hu => ?_
      exact hnone u _ (fun hm => absurd (hex hm).2.1 hnk) hu
    rw [namexLoop]
    cases hskip : skipelem path with
    | none =>
      rw [hskip] at hcomp
      show wp (if _ then _ else _) Q E s
      rw [wp_ite]
      refine ⟨fun hpar => ?_, fun hpar => hsome e i name s N' (fun hm => ?_) h⟩
      · have hno : m.exact → Reaches N parent start names none := fun hm =>
          (hex hm).2.2.2 _ (by rw [hcomp, Reaches, if_pos hpar, resolveParent_nil])
        rw [wp_bind]
        refine wp_iput h (fun hmem => absurd hmem List.not_mem_nil) (fun hnk => hlog fun hm => hnk (hex hm).2.1)
          (fun u _ hu => hnone u N' (fun hm => ⟨(hex hm).1, hno hm⟩) hu) fun u hnk hu => ?_
        exact hnone u _ (fun hm => absurd (hex hm).2.1 hnk) hu
      · obtain ⟨hN, hkept, hsi, hr⟩ := hex hm
        exact ⟨hN, hr _ (by rw [hcomp, Reaches, if_neg hpar]; rfl), hkept, hsi⟩
    | some x =>
      obtain ⟨elem, rest⟩ := x
      replace hcomp : components path = elem :: components rest := by rw [hcomp, hskip]
      have hrest := skipelem_length hskip
      have hlast := components_rest hskip
      show wp (ilock e >>= _) Q E s
      rw [wp_bind]
      refine wp_ilock h .head nofun hfree fun t _ ht => ?_
      show wp (if (t.itable e).copy.type ≠ .dir then _ else _) Q E t
      rw [ht.copy_type .head List.mem_cons_self, wp_ite]
      refine ⟨fun hdir => hput t (fun hm => ?_) ht, fun hdir => ?_⟩
      · rw [hcomp]
        rw [(hex hm).1] at hdir
        exact reaches_none (if_neg hdir) fun _ h => absurd h hdir
      have hdir' : (N' i).type = .dir := not_not.mp hdir
      rw [wp_ite]
      refine ⟨fun hstop => ?_, fun hstop => ?_⟩
      · -- one level early
        rw [wp_bind]
        refine wp_iunlock ht List.not_mem_nil fun u hu => hsome e i elem u N' (fun hm => ?_) hu
        obtain ⟨hN, hkept, hsi, hr⟩ := hex hm
        rw [hN] at hdir'
        refine ⟨hN, hr _ ?_, hkept, hsi⟩
        rw [hcomp, hlast.mpr hstop.2, Reaches, if_pos hstop.1, resolveParent_singleton, if_pos hdir']
      · have hpar : parent = true → components rest ≠ [] := fun hp hc => hstop ⟨hp, hlast.mp hc⟩
        rw [wp_bind]
        refine wp_dirlookup ht .head List.mem_cons_self (hdirs hdir')
          (ht.not_full (hroom.imp_right fun hlt => by rwa [List.length_cons])) elem (fun hs k hk => ?_)
          (fun _ hno => hput t (fun hm => ?_) ht) fun k e' u hf => ?_
        · have hm := m.exact_of_safe hs
          obtain ⟨rfl, -, hsi, -⟩ := hex hm
          exact (hS hm).alloc hs _ ((hS hm).next i k hsi hdir' hk)
        · obtain ⟨rfl, -⟩ := hex hm
          rw [hcomp]
          refine reaches_none ?_ fun hp _ => hpar hp
          rw [lookupIn, if_pos hdir', Node.bindings, Node.slot?_eq_none_of hno]
          rfl
        · show wp (do iunlockput sb e; namexLoop sb parent fuel rest e' elem) Q E u
          have hex' : m.exact → N' = N ∧ Kept B R N' e' ((N' i).slotInum k) ∧ S ((N' i).slotInum k) ∧
              ∀ r, Reaches N parent ((N' i).slotInum k) (components rest) r → Reaches N parent start names r := by
            intro hm
            obtain ⟨rfl, hkept, hsi, hr⟩ := hex hm
            refine ⟨rfl, (hf.kept hm).of_cons fun heq => ?_, (hS hm).next i k hsi hdir' hf.names.1, fun r hreach => hr r ?_⟩
            · subst heq
              rw [← hf.ctx.inum .head, hf.ctx.inum (.cons .head)]
              exact hkept
            · rw [hcomp]
              refine Reaches.cons ?_ hpar hreach
              rw [lookupIn, if_pos hdir', Node.bindings, hf.slot]
              rfl
          rw [wp_bind]
          refine wp_iunlockput (hf.ctx.perm (.swap ..) .rfl) List.not_mem_nil
            (fun hnk => hlog fun hm => hnk (hex hm).2.1.cons)
            (fun v _ hv => ih rest e' _ elem v N' (by omega) hex' hv) fun v hnk hv => ?_
          have hnm : ¬ m.exact := fun hm => hnk (hex hm).2.1.cons
          exact ih rest e' _ elem v _ (by omega) (fun hm => absurd hm hnm) hv

/-- Where the walk of `path` starts, for a process in the directory `cwd`. -/
def startOf (B : Base) (cwd : Ptr) (path : List UInt8) : Nat :=
  if path.head? = some slash then ROOTINO else B.inum cwd

variable (hsb : Layout sb) (h : Ctx m sb B R [] N s) {cwd : Ptr} (hcwd : 0 < B.cnt cwd) (path : List UInt8)
  (hS : m.exact → Closed m N S ∧ S (startOf B cwd path))
  (hE : ∀ N' i, (m.exact → N' = N ∧ S i) → WalkFails E (N' i)) (hlog : ¬ m.exact → LogFails E)
  (hroom : E .igetNoInodes ∨ R.length + 1 < B.free.card)

include hsb h hcwd hS hE hlog hroom

theorem wp_namex (parent : Bool) {Q : Option (Ptr × List UInt8) → Fs → Prop}
    (hnone : ∀ t N', (m.exact → N' = N ∧ Reaches N parent (startOf B cwd path) (components path) none) →
      Ctx m sb B R [] N' t → Q none t)
    (hsome : ∀ e i name t N', (m.exact → N' = N ∧
      Reaches N parent (startOf B cwd path) (components path) (some (i, name)) ∧ Kept B R N' e i ∧ S i) →
      Ctx m sb B ((e, i) :: R) [] N' t → Q (some (e, name)) t) :
    wp (namex sb cwd path parent) Q E s := by
  have hloop : ∀ e t, Ctx m sb B ((e, startOf B cwd path) :: R) [] N t →
      (m.exact → Kept B R N e (startOf B cwd path)) →
      wp (namexLoop sb parent (path.length + 1) path e []) Q E t := fun e t ht hkept =>
    wp_namexLoop (fun hm => (hS hm).1) hE hlog hroom hnone hsome _ path e _ [] t N (Nat.lt_succ_self _)
      (fun hm => ⟨rfl, hkept hm, (hS hm).2, fun _ hr => hr⟩) ht
  unfold startOf at hloop
  rw [namex]
  by_cases habs : path.head? = some slash
  · simp only [if_pos habs] at hloop ⊢
    rw [wp_bind]
    exact wp_iget h hsb.root_lt (h.not_full (hroom.imp_right fun hlt => by omega)) hloop
  · simp only [if_neg habs] at hloop ⊢
    rw [wp_bind]
    exact wp_idup h (.inr ⟨hcwd, rfl⟩) fun t ht => hloop cwd t ht fun _ => .inl hcwd

theorem wp_namei {Q : Option Ptr → Fs → Prop}
    (hnone : ∀ t N', (m.exact → N' = N ∧ resolve N (startOf B cwd path) (components path) = none) →
      Ctx m sb B R [] N' t → Q none t)
    (hsome : ∀ e i t N', (m.exact → N' = N ∧ resolve N (startOf B cwd path) (components path) = some i ∧
      Kept B R N' e i ∧ S i) → Ctx m sb B ((e, i) :: R) [] N' t → Q (some e) t) :
    wp (namei sb cwd path) Q E s := by
  rw [namei, wp_bind]
  refine wp_namex hsb h hcwd path hS hE hlog hroom false (fun t N' hex ht => ?_) fun e i name t N' hex ht => ?_
  · exact hnone t N' (fun hm => ⟨(hex hm).1, (hex hm).2.symm⟩) ht
  · exact hsome e i t N' (fun hm => ⟨(hex hm).1, (hex hm).2.1.symm, (hex hm).2.2⟩) ht

theorem wp_nameiparent {Q : Option (Ptr × List UInt8) → Fs → Prop}
    (hnone : ∀ t N', (m.exact → N' = N ∧ resolveParent N (startOf B cwd path) (components path) = none) →
      Ctx m sb B R [] N' t → Q none t)
    (hsome : ∀ e i name t N', (m.exact → N' = N ∧
      resolveParent N (startOf B cwd path) (components path) = some (i, name) ∧ Kept B R N' e i ∧ S i) →
      Ctx m sb B ((e, i) :: R) [] N' t → Q (some (e, name)) t) :
    wp (nameiparent sb cwd path) Q E s := by
  refine wp_namex hsb h hcwd path hS hE hlog hroom true (fun t N' hex ht => ?_)
    fun e i name t N' hex ht => ?_
  · exact hnone t N' (fun hm => ⟨(hex hm).1, (hex hm).2.symm⟩) ht
  · exact hsome e i name t N' (fun hm => ⟨(hex hm).1, (hex hm).2.1.symm, (hex hm).2.2⟩) ht

end

end Xv6.Fs

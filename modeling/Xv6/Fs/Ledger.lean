import Mathlib.Data.List.Count
import Xv6.Fs.Content
import Xv6.Fs.Trunc

/-!
# The inode table and what a call holds

`Good` is the invariant of the inode table and the disk. A call holds references to inodes beside those
of open files and processes, and locks; `Ctx` is a ledger of both, with the contents of all inodes. The
specifications of `iget`, `ilock`, `iput` and so on say how an entry of the ledger comes and goes.
-/

namespace Xv6.Fs

open Wp

/-- What is to be shown about a run: `exact` that inodes without links are freed when their last reference
goes, which needs that there are no others to begin with; `safe` that path walks lead to allocated inodes. -/
structure Mode where
  exact : Prop
  safe : Prop
  exact_of_safe : safe → exact

/-- An event is as it should be. -/
def Event.Ok (m : Mode) : Event → Prop
  | .put _ d left freed => m.exact → (freed = true ↔ left = 0 ∧ d.type ≠ .free ∧ d.nlink = 0)
  | .alloc _ refs => m.exact → refs = 0
  | .found _ type => m.safe → type ≠ .free

/-- The superblock is one that the code can work with. -/
structure Layout (sb : Superblock) : Prop where
  size_lt : sb.size < 2 ^ 32
  root_lt : ROOTINO < sb.ninodes

variable {m : Mode} {sb : Superblock} {s t : Fs} {e : Ptr} {i : Nat} {E : Panic → Prop}

/-! ## The table -/

/-- The blocks are owned, the entries in use are of distinct inodes, and a valid entry is a copy of an
allocated inode. -/
structure Good (m : Mode) (sb : Superblock) (s : Fs) : Prop where
  own : Own sb sb.IsData s.store
  dirs : ∀ i k, (s.store.node sb i).type = .dir → (s.store.node sb i).slotInum k < sb.ninodes
  uniq : ∀ e e', 0 < (s.itable e).ref → 0 < (s.itable e').ref →
    (s.itable e).inum = (s.itable e').inum → e = e'
  range : ∀ e, 0 < (s.itable e).ref → (s.itable e).inum < sb.ninodes
  clean : ∀ e, 0 < (s.itable e).ref → (s.itable e).valid = true →
    s.store.dinode (s.itable e).inum = (s.itable e).copy ∧ (s.itable e).copy.type ≠ .free
  idle : ∀ e, (s.itable e).ref = 0 → (s.itable e).locked = false
  held : ∀ e, (s.itable e).locked = true → (s.itable e).valid = true
  orphan : m.exact → ∀ i, s.store.Alloc sb i → (s.store.dinode i).nlink = 0 →
    ∃ e, 0 < (s.itable e).ref ∧ (s.itable e).inum = i ∧ (s.itable e).valid = true

namespace Good

section

variable (h : Good m sb s)
include h

theorem ref_of_locked (hl : (s.itable e).locked = true) : 0 < (s.itable e).ref := by
  by_contra h0
  rw [h.idle e (Nat.eq_zero_of_not_pos h0)] at hl
  cases hl

theorem of_eq (hst : t.store = s.store) (hit : t.itable = s.itable) : Good m sb t := by
  obtain ⟨h1, h2, h3, h4, h5, h6, h7, h8⟩ := h
  exact ⟨hst ▸ h1, hst ▸ h2, hit ▸ h3, hit ▸ h4, hst ▸ hit ▸ h5, hit ▸ h6, hit ▸ h7, hst ▸ hit ▸ h8⟩

theorem ready (hl : (s.itable e).locked = true) : Ready sb sb.IsData e s := by
  have href := h.ref_of_locked hl
  obtain ⟨hclean, htype⟩ := h.clean e href (h.held e hl)
  refine ⟨h.range e href, htype, ?_⟩
  rw [view, Store.setDinode_eq hclean]
  exact h.own

theorem view_eq (hl : (s.itable e).locked = true) : s.view e = s.store :=
  Store.setDinode_eq (h.clean e (h.ref_of_locked hl) (h.held e hl)).1

theorem alloc (hl : (s.itable e).locked = true) :
    s.store.Alloc sb (s.itable e).inum := h.view_eq hl ▸ (h.ready hl).alloc

theorem setInode {x : Inode} (huniq : 0 < x.ref → ∀ e', e' ≠ e → 0 < (s.itable e').ref → (s.itable e').inum ≠ x.inum)
    (hrange : 0 < x.ref → x.inum < sb.ninodes)
    (hclean : 0 < x.ref → x.valid = true → s.store.dinode x.inum = x.copy ∧ x.copy.type ≠ .free)
    (hidle : x.ref = 0 → x.locked = false) (hheld : x.locked = true → x.valid = true)
    (horphan : m.exact → 0 < (s.itable e).ref → (s.itable e).valid = true →
      s.store.Alloc sb (s.itable e).inum → (s.store.dinode (s.itable e).inum).nlink = 0 →
      0 < x.ref ∧ x.inum = (s.itable e).inum ∧ x.valid = true) : Good m sb (s.setInode e x) := by
  have hself : (s.setInode e x).itable e = x := Function.update_self ..
  have hother : ∀ e', e' ≠ e → (s.setInode e x).itable e' = s.itable e' :=
    fun e' he => Function.update_of_ne he ..
  refine ⟨h.own, h.dirs, fun e₁ e₂ h1 h2 heq => ?_, fun e' => ?_, fun e' => ?_, fun e' => ?_, fun e' => ?_,
    fun hm i ha hn => ?_⟩
  · by_cases he1 : e₁ = e <;> by_cases he2 : e₂ = e
    · rw [he1, he2]
    · rw [he1, hself] at h1 heq
      rw [hother e₂ he2] at h2 heq
      exact absurd heq.symm (huniq h1 e₂ he2 h2)
    · rw [he2, hself] at h2 heq
      rw [hother e₁ he1] at h1 heq
      exact absurd heq (huniq h2 e₁ he1 h1)
    · rw [hother e₁ he1] at h1 heq
      rw [hother e₂ he2] at h2 heq
      exact h.uniq e₁ e₂ h1 h2 heq
  · by_cases he : e' = e
    · rw [he, hself]
      exact hrange
    · rw [hother e' he]
      exact h.range e'
  · by_cases he : e' = e
    · rw [he, hself]
      exact hclean
    · rw [hother e' he]
      exact h.clean e'
  · by_cases he : e' = e
    · rw [he, hself]
      exact hidle
    · rw [hother e' he]
      exact h.idle e'
  · by_cases he : e' = e
    · rw [he, hself]
      exact hheld
    · rw [hother e' he]
      exact h.held e'
  · obtain ⟨e', href, hinum, hvalid⟩ := h.orphan hm i ha hn
    refine ⟨e', ?_⟩
    by_cases he : e' = e
    · subst he
      subst hinum
      rw [hself]
      exact horphan hm href hvalid ha hn
    · rw [hother e' he]
      exact ⟨href, hinum, hvalid⟩

theorem touch (href : 0 < (s.itable e).ref) {x : Inode} (hx : 0 < x.ref) (hinum : x.inum = (s.itable e).inum)
    (hclean : x.valid = true → s.store.dinode x.inum = x.copy ∧ x.copy.type ≠ .free)
    (hheld : x.locked = true → x.valid = true) (hvalid : (s.itable e).valid = true → x.valid = true) :
    Good m sb (s.setInode e x) :=
  h.setInode (fun _ e' hne h' heq => hne (h.uniq e' e h' href (heq.trans hinum)))
    (fun _ => hinum ▸ h.range e href) (fun _ => hclean) (fun h0 => absurd h0 (Nat.ne_of_gt hx)) hheld
    fun _ _ hv _ _ => ⟨hx, hinum, hvalid hv⟩

theorem update (hl : (s.itable e).locked = true) {d : Dinode} (hd : d.type ≠ .free)
    (hother : ∀ e', e' ≠ e → t.itable e' = s.itable e') (hself : t.itable e = { s.itable e with copy := d })
    (hdinode : t.store.dinode = Function.update s.store.dinode (s.itable e).inum d)
    (hown : Own sb sb.IsData t.store)
    (hdirs : ∀ i k, (t.store.node sb i).type = .dir → (t.store.node sb i).slotInum k < sb.ninodes) :
    Good m sb t := by
  have href := h.ref_of_locked hl
  have hproj : ∀ e', (t.itable e').inum = (s.itable e').inum ∧ (t.itable e').ref = (s.itable e').ref ∧
      (t.itable e').valid = (s.itable e').valid ∧ (t.itable e').locked = (s.itable e').locked := by
    intro e'
    by_cases he : e' = e
    · rw [he, hself]
      exact ⟨rfl, rfl, rfl, rfl⟩
    · rw [hother e' he]
      exact ⟨rfl, rfl, rfl, rfl⟩
  refine ⟨hown, hdirs, fun e₁ e₂ h1 h2 heq => ?_, fun e' h1 => ?_, fun e' h1 h2 => ?_, fun e' h1 => ?_,
    fun e' h1 => ?_, fun hm i ha hn => ?_⟩
  · rw [(hproj e₁).2.1] at h1
    rw [(hproj e₂).2.1] at h2
    rw [(hproj e₁).1, (hproj e₂).1] at heq
    exact h.uniq e₁ e₂ h1 h2 heq
  · rw [(hproj e').2.1] at h1
    rw [(hproj e').1]
    exact h.range e' h1
  · rw [(hproj e').2.1] at h1
    rw [(hproj e').2.2.1] at h2
    by_cases he : e' = e
    · rw [he, hself, hdinode, Function.update_self]
      exact ⟨rfl, hd⟩
    · have hne : (s.itable e').inum ≠ (s.itable e).inum := fun heq => he (h.uniq e' e h1 href heq)
      rw [hother e' he, hdinode, Function.update_of_ne hne]
      exact h.clean e' h1 h2
  · rw [(hproj e').2.1] at h1
    rw [(hproj e').2.2.2]
    exact h.idle e' h1
  · rw [(hproj e').2.2.2] at h1
    rw [(hproj e').2.2.1]
    exact h.held e' h1
  · by_cases hi : i = (s.itable e).inum
    · subst hi
      refine ⟨e, ?_⟩
      rw [(hproj e).1, (hproj e).2.1, (hproj e).2.2.1]
      exact ⟨href, rfl, h.held e hl⟩
    · unfold Store.Alloc at ha
      rw [hdinode, Function.update_of_ne hi] at ha hn
      obtain ⟨e', h1, h2, h3⟩ := h.orphan hm i ha hn
      refine ⟨e', ?_⟩
      rw [(hproj e').1, (hproj e').2.1, (hproj e').2.2.1]
      exact ⟨h1, h2, h3⟩

theorem free (href : 0 < (s.itable e).ref) {d : Dinode} (hd : d.type = .free)
    (hother : ∀ e', e' ≠ e → t.itable e' = s.itable e') (hself : (t.itable e).ref = 0 ∧ (t.itable e).locked = false)
    (hdinode : t.store.dinode = Function.update s.store.dinode (s.itable e).inum d) (hown : Own sb sb.IsData t.store)
    (hnodes : ∀ i, i ≠ (s.itable e).inum → t.store.node sb i = s.store.node sb i) : Good m sb t := by
  have hne : ∀ e', 0 < (t.itable e').ref → e' ≠ e := by
    rintro e' h' rfl
    exact absurd hself.1 (Nat.ne_of_gt h')
  have hinum : ∀ e', e' ≠ e → 0 < (s.itable e').ref → (s.itable e').inum ≠ (s.itable e).inum :=
    fun e' he h' heq => he (h.uniq e' e h' href heq)
  have hfree : (t.store.node sb (s.itable e).inum).type = .free := by
    rw [Store.node_type_free]
    intro ha
    refine ha.2 ?_
    rw [hdinode, Function.update_self, hd]
  refine ⟨hown, fun i k hi => ?_, fun e₁ e₂ h1 h2 heq => ?_, fun e' h1 => ?_, fun e' h1 h2 => ?_,
    fun e' h1 => ?_, fun e' h1 => ?_, fun hm i ha hn => ?_⟩
  · by_cases hii : i = (s.itable e).inum
    · rw [hii, hfree] at hi
      cases hi
    · rw [hnodes i hii] at hi ⊢
      exact h.dirs i k hi
  · have he1 := hne e₁ h1
    have he2 := hne e₂ h2
    rw [hother e₁ he1] at h1 heq
    rw [hother e₂ he2] at h2 heq
    exact h.uniq e₁ e₂ h1 h2 heq
  · have he := hne e' h1
    rw [hother e' he] at h1 ⊢
    exact h.range e' h1
  · have he := hne e' h1
    rw [hother e' he] at h1 h2 ⊢
    rw [hdinode, Function.update_of_ne (hinum e' he h1)]
    exact h.clean e' h1 h2
  · by_cases he : e' = e
    · rw [he]
      exact hself.2
    · rw [hother e' he] at h1 ⊢
      exact h.idle e' h1
  · by_cases he : e' = e
    · rw [he, hself.2] at h1
      cases h1
    · rw [hother e' he] at h1 ⊢
      exact h.held e' h1
  · have hii : i ≠ (s.itable e).inum := by
      rintro rfl
      exact Store.node_type_free.mp hfree ha
    unfold Store.Alloc at ha
    rw [hdinode, Function.update_of_ne hii] at ha hn
    obtain ⟨e', h1, h2, h3⟩ := h.orphan hm i ha hn
    refine ⟨e', ?_⟩
    rw [hother e']
    · exact ⟨h1, h2, h3⟩
    · rintro rfl
      exact hii h2.symm

end

end Good

/-! ## The ledger -/

/-- The references of open files and processes, with the inodes and their types. -/
structure Base where
  cnt : Ptr → Nat
  inum : Ptr → Nat
  type : Ptr → InodeType

/-- The state in a call. The call holds the references `R`, each to an entry of the table with its inode,
and the locks `L`; `N` are the inodes with their contents. -/
structure Ctx (m : Mode) (sb : Superblock) (B : Base) (R : List (Ptr × Nat)) (L : List Ptr) (N : Nat → Node)
    (s : Fs) : Prop where
  good : Good m sb s
  ref : ∀ e, (s.itable e).ref = B.cnt e + (R.map Prod.fst).count e
  refs : ∀ x ∈ R, (s.itable x.1).inum = x.2
  lock : ∀ e, (s.itable e).locked = true ↔ e ∈ L
  base : ∀ e, 0 < B.cnt e →
    (s.itable e).inum = B.inum e ∧ (N (B.inum e)).type = B.type e ∧ B.type e ≠ .free
  node : ∀ i, s.store.node sb i = N i
  traced : ∀ ev ∈ s.trace, ev.Ok m

/-- The entry `e` is for the inode `i`, and will be as long as the call holds `R`. -/
def Holds (B : Base) (R : List (Ptr × Nat)) (e : Ptr) (i : Nat) : Prop :=
  (e, i) ∈ R ∨ 0 < B.cnt e ∧ B.inum e = i

/-- If the call drops a reference to `e` and has `R` left, the inode is not freed. -/
def Kept (B : Base) (R : List (Ptr × Nat)) (N : Nat → Node) (e : Ptr) (i : Nat) : Prop :=
  0 < B.cnt e ∨ e ∈ R.map Prod.fst ∨ (N i).nlink ≠ 0 ∨ (N i).type = .free

variable {B : Base} {R R' : List (Ptr × Nat)} {L L' : List Ptr} {N : Nat → Node} {Q : Unit → Fs → Prop}

theorem Holds.cons {x : Ptr × Nat} (h : Holds B R e i) : Holds B (x :: R) e i :=
  h.imp_left (List.mem_cons_of_mem _)

theorem Holds.head : Holds B ((e, i) :: R) e i := .inl List.mem_cons_self

namespace Ctx

theorem perm (h : Ctx m sb B R L N s) (hR : R.Perm R') (hL : L.Perm L') : Ctx m sb B R' L' N s where
  good := h.good
  ref e := by rw [h.ref e, (hR.map _).count_eq]
  refs x hx := h.refs x (hR.mem_iff.mpr hx)
  lock e := (h.lock e).trans hL.mem_iff
  base := h.base
  node := h.node
  traced := h.traced

theorem holds_of_ref (h : Ctx m sb B R L N s) (href : 0 < (s.itable e).ref) :
    Holds B R e (s.itable e).inum := by
  rw [h.ref e] at href
  by_cases hb : 0 < B.cnt e
  · exact .inr ⟨hb, (h.base e hb).1.symm⟩
  · obtain ⟨x, hx, rfl⟩ := List.mem_map.mp (List.count_pos_iff.mp (by omega : 0 < (R.map Prod.fst).count e))
    rw [h.refs x hx]
    exact .inl hx

section

variable (h : Ctx m sb B R L N s) (he : Holds B R e i)
include h he

theorem ref_pos : 0 < (s.itable e).ref := by
  rw [h.ref e]
  rcases he with hmem | ⟨hb, -⟩
  · have : 0 < (R.map Prod.fst).count e := List.count_pos_iff.mpr (List.mem_map_of_mem hmem)
    omega
  · omega

theorem inum : (s.itable e).inum = i := by
  rcases he with hmem | ⟨hb, rfl⟩
  · exact h.refs (e, i) hmem
  · exact (h.base e hb).1

theorem range : i < sb.ninodes :=
  h.inum he ▸ h.good.range e (h.ref_pos he)

theorem uniq {e' : Ptr} (he' : Holds B R e' i) : e = e' :=
  h.good.uniq e e' (h.ref_pos he) (h.ref_pos he') ((h.inum he).trans (h.inum he').symm)

variable (hl : e ∈ L)
include hl

theorem alloc : s.store.Alloc sb i :=
  h.inum he ▸ h.good.alloc ((h.lock e).mpr hl)

theorem node_eq : N i =
    { type := (s.itable e).copy.type
      major := (s.itable e).copy.major
      minor := (s.itable e).copy.minor
      nlink := (s.itable e).copy.nlink
      size := (s.itable e).copy.size
      bytes := fun o => if o < (s.itable e).copy.size then s.store.byteAt sb i o else 0 } := by
  have hlock := (h.lock e).mpr hl
  have hclean := (h.good.clean e (h.good.ref_of_locked hlock) (h.good.held e hlock)).1
  rw [h.inum he] at hclean
  rw [← h.node, Store.node_of_alloc (h.alloc he hl), hclean]

theorem copy_type : (s.itable e).copy.type = (N i).type := by rw [h.node_eq he hl]

theorem copy_nlink : (s.itable e).copy.nlink = (N i).nlink := by rw [h.node_eq he hl]

theorem copy_size : (s.itable e).copy.size = (N i).size := by rw [h.node_eq he hl]

theorem type_ne : (N i).type ≠ .free := by
  rw [← h.node, ne_eq, Store.node_type_free, not_not]
  exact h.alloc he hl

end

theorem of_eq (h : Ctx m sb B R L N s) (hst : t.store = s.store) (hit : t.itable = s.itable)
    (htr : t.trace = s.trace) : Ctx m sb B R L N t where
  good := h.good.of_eq hst hit
  ref := hit ▸ h.ref
  refs := hit ▸ h.refs
  lock := hit ▸ h.lock
  base := hit ▸ h.base
  node := hst ▸ h.node
  traced := htr ▸ h.traced

theorem update (h : Ctx m sb B R L N s) (he : Holds B R e i) (hl : e ∈ L) {d : Dinode} {n : Node}
    (hd : d.type = (s.itable e).copy.type)
    (hother : ∀ e', e' ≠ e → t.itable e' = s.itable e')
    (hself : t.itable e = { s.itable e with copy := d })
    (hdinode : t.store.dinode = Function.update s.store.dinode i d) (hown : Own sb sb.IsData t.store)
    (hn : t.store.node sb i = n) (htype : n.type = (N i).type)
    (hdir : n.type = .dir → ∀ k, n.slotInum k < sb.ninodes)
    (hnodes : ∀ j, j ≠ i → t.store.node sb j = s.store.node sb j) (htr : t.trace = s.trace) :
    Ctx m sb B R L (Function.update N i n) t := by
  have hlock := (h.lock e).mpr hl
  have hproj : ∀ e', (t.itable e').inum = (s.itable e').inum ∧ (t.itable e').ref = (s.itable e').ref ∧
      (t.itable e').locked = (s.itable e').locked := by
    intro e'
    by_cases he' : e' = e
    · rw [he', hself]
      exact ⟨rfl, rfl, rfl⟩
    · rw [hother e' he']
      exact ⟨rfl, rfl, rfl⟩
  have hnode : ∀ j, t.store.node sb j = Function.update N i n j := by
    intro j
    by_cases hj : j = i
    · rw [hj, Function.update_self, hn]
    · rw [Function.update_of_ne hj, hnodes j hj, h.node]
  refine ⟨h.good.update hlock ?_ hother hself (h.inum he ▸ hdinode) hown fun j k hj => ?_, fun e' => ?_,
    fun x hx => ?_, fun e' => ?_, fun e' hb => ?_, hnode, fun ev hev => h.traced ev (htr ▸ hev)⟩
  · rw [hd, h.copy_type he hl]
    exact h.type_ne he hl
  · by_cases hji : j = i
    · subst hji
      rw [hn] at hj ⊢
      exact hdir hj k
    · rw [hnodes j hji] at hj ⊢
      exact h.good.dirs j k hj
  · rw [(hproj e').2.1, h.ref]
  · rw [(hproj x.1).1, h.refs x hx]
  · rw [(hproj e').2.2, h.lock]
  · obtain ⟨h1, h2, h3⟩ := h.base e' hb
    refine ⟨(hproj e').1.trans h1, ?_, h3⟩
    by_cases hj : B.inum e' = i
    · rw [hj, Function.update_self, htype, ← hj, h2]
    · rw [Function.update_of_ne hj, h2]

theorem setInode (h : Ctx m sb B R L N s) {x : Inode} (hgood : Good m sb (s.setInode e x))
    (hinum : 0 < (s.itable e).ref → x.inum = (s.itable e).inum)
    (href : x.ref = B.cnt e + (R'.map Prod.fst).count e)
    (hcount : ∀ e', e' ≠ e → (R'.map Prod.fst).count e' = (R.map Prod.fst).count e')
    (hrefs : ∀ y ∈ R', y ∈ R ∨ y = (e, x.inum))
    (hself : x.locked = true ↔ e ∈ L') (hother : ∀ e', e' ≠ e → (e' ∈ L' ↔ e' ∈ L)) :
    Ctx m sb B R' L' N (s.setInode e x) := by
  have hitself : (s.setInode e x).itable e = x := Function.update_self ..
  have hitother : ∀ e', e' ≠ e → (s.setInode e x).itable e' = s.itable e' :=
    fun e' he => Function.update_of_ne he ..
  refine ⟨hgood, fun e' => ?_, fun y hy => ?_, fun e' => ?_, fun e' hb => ?_, h.node, h.traced⟩
  · by_cases he : e' = e
    · rw [he, hitself, href]
    · rw [hitother e' he, h.ref, hcount e' he]
  · rcases hrefs y hy with hold | rfl
    · by_cases he : y.1 = e
      · rw [he, hitself, hinum, ← he, h.refs y hold]
        exact he ▸ h.ref_pos (.inl hold)
      · rw [hitother _ he, h.refs y hold]
    · rw [hitself]
  · by_cases he : e' = e
    · rw [he, hitself, hself]
    · rw [hitother e' he, h.lock, hother e' he]
  · obtain ⟨h1, h2⟩ := h.base e' hb
    refine ⟨?_, h2⟩
    by_cases he : e' = e
    · rw [he, hitself, hinum, ← he, h1]
      rw [← he, h.ref]
      omega
    · rw [hitother e' he, h1]

end Ctx

/-! ## References -/

theorem wp_iget_raw (hfull : (∀ e, (s.itable e).ref ≠ 0) → E .igetNoInodes) {Q : Ptr → Fs → Prop}
    (hfound : ∀ e, 0 < (s.itable e).ref → (s.itable e).inum = i →
      Q e (s.setInode e { s.itable e with ref := (s.itable e).ref + 1 }))
    (hnew : ∀ e, (s.itable e).ref = 0 → (∀ e', 0 < (s.itable e').ref → (s.itable e').inum ≠ i) →
      Q e (s.setInode e { s.itable e with inum := i, ref := 1, valid := false })) :
    wp (iget i) Q E s := by
  rw [iget, wp_bind, wp_get]
  cases hf : s.findInode i with
  | some e =>
    have := List.find?_some hf
    obtain ⟨h1, h2⟩ := of_decide_eq_true this
    exact hfound e h1 h2
  | none =>
    have hnone : ∀ e', 0 < (s.itable e').ref → (s.itable e').inum ≠ i := by
      intro e' h1 h2
      have := List.find?_eq_none.mp hf e' (List.mem_finRange e')
      exact this (decide_eq_true ⟨h1, h2⟩)
    cases he : s.emptyInode with
    | some e =>
      have := List.find?_some he
      exact hnew e (of_decide_eq_true this) hnone
    | none =>
      refine hfull fun e href => ?_
      have := List.find?_eq_none.mp he e (List.mem_finRange e)
      exact this (decide_eq_true href)

theorem Ctx.incr (h : Ctx m sb B R L N s) (he : Holds B R e i) :
    Ctx m sb B ((e, i) :: R) L N (s.setInode e { s.itable e with ref := (s.itable e).ref + 1 }) := by
  have href := h.ref_pos he
  refine h.setInode ?_ (fun _ => rfl) ?_ (fun e' hne => List.count_cons_of_ne (Ne.symm hne))
    (fun y hy => ?_) (h.lock e) fun _ _ => Iff.rfl
  · exact h.good.touch href (Nat.succ_pos _) rfl (h.good.clean e href) (h.good.held e) id
  · rw [List.map_cons, List.count_cons_self]
    show (s.itable e).ref + 1 = _
    rw [h.ref]
    omega
  · rcases List.mem_cons.mp hy with rfl | hold
    · exact .inr (by rw [h.inum he])
    · exact .inl hold

theorem wp_iget (h : Ctx m sb B R L N s) (hi : i < sb.ninodes)
    (hfull : (∀ e, (s.itable e).ref ≠ 0) → E .igetNoInodes) {Q : Ptr → Fs → Prop}
    (hQ : ∀ e t, Ctx m sb B ((e, i) :: R) L N t → (m.exact → Kept B R N e i) → Q e t) :
    wp (iget i) Q E s := by
  refine wp_iget_raw hfull (fun e href hinum => ?_) fun e href hnone => ?_
  · refine hQ e _ (h.incr (hinum ▸ h.holds_of_ref href)) fun _ => ?_
    by_cases hb : 0 < B.cnt e
    · exact .inl hb
    · refine .inr (.inl (List.count_pos_iff.mp ?_))
      rw [h.ref] at href
      omega
  refine hQ e _ (h.setInode ?_ (fun h0 => absurd href (Nat.ne_of_gt h0)) ?_
    (fun e' hne => List.count_cons_of_ne (Ne.symm hne)) (fun y hy => ?_) (h.lock e) fun _ _ => Iff.rfl)
    fun hm => ?_
  · refine h.good.setInode (fun _ e' _ h' => hnone e' h') (fun _ => hi) nofun nofun (fun hl => ?_)
      fun _ h0 => absurd href (Nat.ne_of_gt h0)
    rw [h.good.idle e href] at hl
    cases hl
  · rw [List.map_cons, List.count_cons_self]
    rw [h.ref] at href
    show 1 = _
    omega
  · rcases List.mem_cons.mp hy with rfl | hold
    · exact .inr rfl
    · exact .inl hold
  · -- an inode without links would have had an entry
    by_contra hk
    unfold Kept at hk
    push Not at hk
    obtain ⟨-, -, hlink, htype⟩ := hk
    rw [← h.node] at hlink htype
    have ha : s.store.Alloc sb i := by
      rwa [ne_eq, Store.node_type_free, not_not] at htype
    rw [Store.node_of_alloc ha] at hlink
    obtain ⟨e', h1, h2, -⟩ := h.good.orphan hm i ha hlink
    exact hnone e' h1 h2

theorem wp_idup (h : Ctx m sb B R L N s) (he : Holds B R e i) {Q : Ptr → Fs → Prop}
    (hQ : ∀ t, Ctx m sb B ((e, i) :: R) L N t → Q e t) : wp (idup e) Q E s := by
  rw [idup, wp_bind]
  exact hQ _ (h.incr he)

/-! ## Locks -/

/-- An entry that is locked, with the copy read from the disk if it was not valid. -/
def lockedInode (s : Fs) (e : Ptr) : Inode :=
  { s.itable e with
    locked := true
    valid := true
    copy := if (s.itable e).valid then (s.itable e).copy else s.store.dinode (s.itable e).inum }

theorem wp_ilock_raw (href : 0 < (s.itable e).ref) (hblocked : (s.itable e).locked = true → E .blocked)
    (hno : (s.itable e).valid = false → (s.store.dinode (s.itable e).inum).type = .free → E .ilockNoType)
   
    (hQ : (s.itable e).locked = false →
      ((s.itable e).valid = false → (s.store.dinode (s.itable e).inum).type ≠ .free) →
      Q () (s.setInode e (s.lockedInode e))) : wp (ilock e) Q E s := by
  rw [ilock, wp_bind, wp_get, if_neg (Nat.not_lt.mpr href)]
  rw [wp_bind, acquireInode, wp_bind, wp_get, wp_ite]
  refine ⟨hblocked, fun hnl => ?_⟩
  replace hQ := hQ (Bool.eq_false_of_not_eq_true hnl)
  rw [wp_modify, wp_bind, wp_get, wp_ite]
  have hself : ((s.setInode e { s.itable e with locked := true }).itable e) =
      { s.itable e with locked := true } := Function.update_self ..
  rw [hself]
  refine ⟨fun hv => ?_, fun hv => ?_⟩
  · have hx : s.lockedInode e = { s.itable e with locked := true } := by
      have hv' : (s.itable e).valid = true := hv
      simp only [lockedInode, hv', if_true]
    rw [hx] at hQ
    exact hQ fun hv' => absurd hv' (by simpa using hv)
  · have hv' : (s.itable e).valid = false := Bool.eq_false_of_not_eq_true hv
    have hx : s.lockedInode e = { s.itable e with
        locked := true, valid := true, copy := s.store.dinode (s.itable e).inum } := by
      simp only [lockedInode, hv', Bool.false_eq_true, if_false]
    rw [wp_bind, wp_modify]
    have hset : (s.setInode e { s.itable e with locked := true }).setInode e (s.lockedInode e) =
        s.setInode e (s.lockedInode e) := by
      simp only [Fs.setInode, Function.update_idem]
    rw [← hset, hx] at hQ
    rw [wp_bind, copyOf, wp_bind, wp_get, wp_pure, wp_ite]
    simp only [setInode, Function.update_self] at hQ ⊢
    exact ⟨hno hv', fun htype => hQ fun _ => htype⟩

theorem wp_ilock (h : Ctx m sb B R L N s) (he : Holds B R e i) (hblocked : e ∈ L → E .blocked)
    (hno : (N i).type = .free → E .ilockNoType)
    (hQ : ∀ t, e ∉ L → Ctx m sb B R (e :: L) N t → Q () t) : wp (ilock e) Q E s := by
  have href := h.ref_pos he
  refine wp_ilock_raw href (fun hl => hblocked ((h.lock e).mp hl)) (fun _ hfree => hno ?_) fun hnl htype => ?_
  · rw [← h.node, Store.node_type_free]
    intro ha
    rw [h.inum he] at hfree
    exact ha.2 hfree
  · have hnot : e ∉ L := fun hmem => by
      rw [(h.lock e).mpr hmem] at hnl
      cases hnl
    refine hQ _ hnot (h.setInode ?_ (fun _ => rfl) (h.ref e) (fun _ _ => rfl) (fun y hy => .inl hy)
      (iff_of_true rfl List.mem_cons_self) fun e' hne => ?_)
    · refine h.good.touch href href rfl (fun _ => ?_) (fun _ => rfl) fun _ => rfl
      cases hv : (s.itable e).valid with
      | true =>
        simp only [lockedInode, hv, if_true]
        exact h.good.clean e href hv
      | false =>
        simp only [lockedInode, hv, Bool.false_eq_true, if_false]
        exact ⟨trivial, htype hv⟩
    · rw [List.mem_cons, or_iff_right hne]

theorem wp_iunlock (h : Ctx m sb B R (e :: L) N s) (hne : e ∉ L)
    (hQ : ∀ t, Ctx m sb B R L N t → Q () t) : wp (iunlock e) Q E s := by
  have hl := (h.lock e).mpr List.mem_cons_self
  have href := h.good.ref_of_locked hl
  rw [iunlock, wp_bind, wp_get, wp_bind, wp_get, if_neg (by simp [hl, Nat.ne_of_gt href])]
  rw [releaseInode]
  refine hQ _ (h.setInode ?_ (fun _ => rfl) (h.ref e) (fun _ _ => rfl) (fun y hy => .inl hy)
    (iff_of_false nofun hne) fun e' hne' => ?_)
  · exact h.good.touch href href rfl (h.good.clean e href) nofun id
  · rw [List.mem_cons, or_iff_right hne']

/-! ## Dropping a reference -/

/-- The state after the part of `iput` that frees the inode, and after its end. -/
structure Dropped (sb : Superblock) (e : Ptr) (s t : Fs) : Prop where
  others : ∀ e', e' ≠ e → t.itable e' = s.itable e'
  ref : (t.itable e).ref = (s.itable e).ref
  locked : (t.itable e).locked = false
  dinode : ∃ d : Dinode, d.type = .free ∧
    t.store.dinode = Function.update s.store.dinode (s.itable e).inum d
  own : Own sb sb.IsData t.store
  nodes : ∀ i, i ≠ (s.itable e).inum → t.store.node sb i = s.store.node sb i
  trace : t.trace = s.trace

theorem wp_freeInode (hE : LogFails E) (h : Good m sb s) (href : 0 < (s.itable e).ref)
    (hv : (s.itable e).valid = true) (hnl : (s.itable e).locked = false)
    (hQ : ∀ t, Dropped sb e s t → Q () t) : wp (freeInode sb e) Q E s := by
  rw [freeInode, wp_bind, acquireInode, wp_bind, wp_get, if_neg (by simp [hnl]), wp_modify]
  set s1 := s.setInode e { s.itable e with locked := true } with hs1
  have hself1 : s1.itable e = { s.itable e with locked := true } := Function.update_self ..
  have hother1 : ∀ e', e' ≠ e → s1.itable e' = s.itable e' := fun e' he => Function.update_of_ne he ..
  have hg1 : Good m sb s1 := h.touch href href rfl (h.clean e href) (fun _ => hv) id
  have hl1 : (s1.itable e).locked = true := by rw [hself1]
  have hinum1 : (s1.itable e).inum = (s.itable e).inum := by rw [hself1]
  have hready := hg1.ready hl1
  have hview : s1.view e = s.store := hg1.view_eq hl1
  rw [wp_bind]
  refine wp_itrunc hE hready fun t1 ht => ?_
  rw [wp_bind, assign, wp_modify, wp_bind]
  set t2 := t1.setCopy e { (t1.itable e).copy with type := .free } with ht2
  have hself2 : t2.itable e = { t1.itable e with copy := { (t1.itable e).copy with type := .free } } :=
    Function.update_self ..
  have hinum2 : (t2.itable e).inum = (s.itable e).inum := by rw [hself2, ht.self, hinum1]
  have hstore2 : t2.view e = t1.store.setDinode (s.itable e).inum (t2.itable e).copy := by
    rw [view, hinum2]
    rfl
  have hzero : ∀ k, t1.store.ptr sb ((s.itable e).inum, k) = 0 := hinum1 ▸ ht.ptr_self
  have htype : (t2.itable e).copy.type = .free := by rw [hself2]
  refine wp_iupdate hE fun tr => ?_
  rw [wp_bind, releaseInode]
  have hitable : ∀ e', e' ≠ e → t2.itable e' = s.itable e' := fun e' he =>
    (Function.update_of_ne he ..).trans ((ht.others e' he).trans (hother1 e' he))
  refine hQ _ ⟨fun e' he => ?_, ?_, ?_, ⟨_, htype, ?_⟩, ?_, fun i hi => ?_, ?_⟩
  · simp only [setInode, Function.update_of_ne he]
    exact hitable e' he
  · simp only [setInode, Function.update_self]
    rw [hself2, ht.self, hself1]
  · simp only [setInode, Function.update_self]
  · show (t2.view e).dinode = _
    rw [hstore2]
    show Function.update t1.store.dinode _ _ = _
    rw [ht.dinode, hinum1, Function.update_idem]
    rfl
  · show Own sb sb.IsData (t2.view e)
    rw [hstore2]
    exact (ht.own hready).setFree htype hzero
  · show (t2.view e).node sb i = _
    rw [hstore2, Store.node_setDinode_of_ne hi, ht.node_other (hinum1.symm ▸ hi), hview]
  · exact ht.trace

/-- `iput` frees the inode exactly if its last reference goes and it has no links. -/
theorem Ctx.last_iff (h : Ctx m sb B ((e, i) :: R) L N s) :
    (s.itable e).last = true →
      (s.itable e).ref = 1 ∧ (s.store.dinode i).type ≠ .free ∧ (s.store.dinode i).nlink = 0 := by
  intro hlast
  obtain ⟨h1, h2, h3⟩ := of_decide_eq_true hlast
  obtain ⟨hclean, htype⟩ := h.good.clean e (by omega) h2
  rw [h.inum .head] at hclean
  rw [hclean]
  exact ⟨h1, htype, h3⟩

theorem Ctx.last_of_exact (h : Ctx m sb B ((e, i) :: R) L N s) (hm : m.exact)
    (href : (s.itable e).ref = 1) (htype : (s.store.dinode i).type ≠ .free)
    (hlink : (s.store.dinode i).nlink = 0) : (s.itable e).last = true := by
  have hh : Holds B ((e, i) :: R) e i := .head
  obtain ⟨e', h1, h2, h3⟩ := h.good.orphan hm i ⟨h.range hh, htype⟩ hlink
  obtain rfl := h.good.uniq e' e h1 (h.ref_pos hh) (h2.trans (h.inum hh).symm)
  have hclean := (h.good.clean e' h1 h3).1
  rw [h2] at hclean
  refine decide_eq_true ⟨href, h3, ?_⟩
  rw [← hclean]
  exact hlink

theorem Ctx.not_kept_iff (h : Ctx m sb B ((e, i) :: R) L N s) : ¬ Kept B R N e i ↔
    (s.itable e).ref = 1 ∧ (s.store.dinode i).type ≠ .free ∧ (s.store.dinode i).nlink = 0 := by
  have href : (s.itable e).ref = B.cnt e + ((R.map Prod.fst).count e + 1) := by
    rw [h.ref, List.map_cons, List.count_cons_self]
  have hi := h.range (Holds.head : Holds B ((e, i) :: R) e i)
  have hcount : e ∈ R.map Prod.fst ↔ 0 < (R.map Prod.fst).count e := List.count_pos_iff.symm
  unfold Kept
  rw [← h.node, Store.node_type_free, hcount]
  by_cases ha : s.store.Alloc sb i
  · rw [Store.node_of_alloc ha]
    constructor
    · intro hk
      push Not at hk
      exact ⟨by omega, ha.2, hk.2.2.1⟩
    · rintro ⟨h1, -, h3⟩ (hk | hk | hk | hk)
      · omega
      · omega
      · exact hk h3
      · exact hk ha
  · refine iff_of_false (fun hk => hk (.inr (.inr (.inr ha)))) fun hd => ha ⟨hi, hd.2.1⟩

theorem wp_iput (h : Ctx m sb B ((e, i) :: R) L N s) (hl : e ∈ L → Holds B R e i)
    (hE : ¬ Kept B R N e i → LogFails E)
    (hkeep : ∀ t, (m.exact → Kept B R N e i) → Ctx m sb B R L N t → Q () t)
    (hfree : ∀ t, ¬ Kept B R N e i → Ctx m sb B R L (Function.update N i .free) t → Q () t) :
    wp (iput sb e) Q E s := by
  have hh : Holds B ((e, i) :: R) e i := .head
  have hinum := h.inum hh
  have href : (s.itable e).ref = B.cnt e + (R.map Prod.fst).count e + 1 := by
    rw [h.ref, List.map_cons, List.count_cons_self, Nat.add_assoc]
  have hcount : ∀ e', e' ≠ e → ((R.map Prod.fst).count e') = (((e, i) :: R).map Prod.fst).count e' :=
    fun e' hne => (List.count_cons_of_ne (Ne.symm hne)).symm
  have hev : (Event.put i (s.store.dinode i) ((s.itable e).ref - 1) (s.itable e).last).Ok m := by
    intro hm
    constructor
    · intro hlast
      obtain ⟨h1, h2⟩ := h.last_iff hlast
      exact ⟨by omega, h2⟩
    · rintro ⟨h1, h2, h3⟩
      exact h.last_of_exact hm (by omega) h2 h3
  rw [iput, wp_bind, wp_get, hinum]
  cases hlast : (s.itable e).last with
  | true =>
    rw [hlast] at hev
    have hd := h.last_iff hlast
    have hnk := h.not_kept_iff.mpr hd
    have hnl : e ∉ L := fun hmem => hnk ((hl hmem).elim
      (fun hR => .inr (.inl (List.mem_map_of_mem hR))) fun hb => .inl hb.1)
    have hnl' : (s.itable e).locked = false := Bool.eq_false_of_not_eq_true fun hlock => hnl ((h.lock e).mp hlock)
    show wp (freeInode sb e >>= _) Q E s
    rw [wp_bind]
    refine wp_freeInode (hE hnk) h.good (h.ref_pos hh) (of_decide_eq_true hlast).2.1 hnl' fun t ht => ?_
    rw [wp_modify]
    apply hfree _ hnk
    obtain ⟨d, hdt, hdd⟩ := ht.dinode
    set u : Fs := { t.setInode e { t.itable e with ref := (t.itable e).ref - 1 } with
      trace := .put i (s.store.dinode i) ((s.itable e).ref - 1) true :: t.trace } with hu
    have hself : u.itable e = { t.itable e with ref := (t.itable e).ref - 1 } := Function.update_self ..
    have hother : ∀ e', e' ≠ e → u.itable e' = s.itable e' := fun e' he =>
      (Function.update_of_ne he ..).trans (ht.others e' he)
    have href0 : (u.itable e).ref = 0 := by
      rw [hself]
      show (t.itable e).ref - 1 = 0
      rw [ht.ref, hd.1]
    have hloc : (u.itable e).locked = false := by
      rw [hself]
      exact ht.locked
    have hgood : Good m sb u :=
      h.good.free (h.ref_pos hh) hdt hother ⟨href0, hloc⟩ hdd ht.own ht.nodes
    have hR : ∀ x ∈ R, x.1 ≠ e := by
      intro x hx heq
      have : 0 < (R.map Prod.fst).count e := List.count_pos_iff.mpr (heq ▸ List.mem_map_of_mem hx)
      omega
    refine ⟨hgood, fun e' => ?_, fun x hx => ?_, fun e' => ?_, fun e' hb => ?_, fun j => ?_, ?_⟩
    · by_cases he : e' = e
      · rw [he]
        omega
      · rw [hother e' he, h.ref, hcount e' he]
    · rw [hother _ (hR x hx)]
      exact h.refs x (List.mem_cons_of_mem _ hx)
    · by_cases he : e' = e
      · rw [he, hloc]
        exact iff_of_false nofun hnl
      · rw [hother e' he, h.lock]
    · have he : e' ≠ e := by
        rintro rfl
        omega
      obtain ⟨h1, h2, h3⟩ := h.base e' hb
      rw [hother e' he]
      refine ⟨h1, ?_, h3⟩
      rw [Function.update_of_ne, h2]
      intro heq
      exact he (h.good.uniq e' e (by rw [h.ref]; omega) (h.ref_pos hh) ((h1.trans heq).trans hinum.symm))
    · show t.store.node sb j = _
      by_cases hj : j = i
      · rw [hj, Function.update_self]
        refine Store.node_of_not_alloc fun ha => ha.2 ?_
        rw [hdd, hinum, Function.update_self, hdt]
      · rw [Function.update_of_ne hj, ht.nodes j (hinum.symm ▸ hj), h.node]
    · intro ev hmem
      rcases List.mem_cons.mp hmem with rfl | hold
      · exact hev
      · exact h.traced ev (ht.trace ▸ hold)
  | false =>
    rw [hlast] at hev
    have hk : m.exact → Kept B R N e i := by
      intro hm
      by_contra hnk
      obtain ⟨h1, h2, h3⟩ := h.not_kept_iff.mp hnk
      rw [h.last_of_exact hm h1 h2 h3] at hlast
      cases hlast
    show wp (modify _) Q E s
    rw [wp_modify]
    apply hkeep _ hk
    have hctx : Ctx m sb B R L N (s.setInode e { s.itable e with ref := (s.itable e).ref - 1 }) := by
      refine h.setInode ?_ (fun _ => rfl) ?_ hcount (fun y hy => .inl (List.mem_cons_of_mem _ hy)) (h.lock e)
        fun _ _ => Iff.rfl
      · refine h.good.setInode (fun _ e' hne h' heq => hne (h.good.uniq e' e h' (h.ref_pos hh) heq))
          (fun _ => h.good.range e (h.ref_pos hh)) (fun _ => h.good.clean e (h.ref_pos hh)) (fun h0 => ?_)
          (h.good.held e) fun hm _ hv ha hn => ⟨?_, rfl, hv⟩
        · by_contra hloc
          have h0' : (s.itable e).ref - 1 = 0 := h0
          rcases hl ((h.lock e).mp (Bool.eq_true_of_not_eq_false hloc)) with hR | ⟨hb, -⟩
          · have : 0 < (R.map Prod.fst).count e := List.count_pos_iff.mpr (List.mem_map_of_mem hR)
            omega
          · omega
        · rw [hinum] at ha hn
          show 0 < (s.itable e).ref - 1
          by_contra h0
          rw [h.last_of_exact hm (by omega) ha.2 hn] at hlast
          cases hlast
      · show (s.itable e).ref - 1 = _
        omega
    refine ⟨hctx.good.of_eq rfl rfl, hctx.ref, hctx.refs, hctx.lock, hctx.base, hctx.node, ?_⟩
    intro ev hmem
    rcases List.mem_cons.mp hmem with rfl | hold
    · exact hev
    · exact h.traced ev hold

theorem wp_iunlockput (h : Ctx m sb B ((e, i) :: R) (e :: L) N s) (hl : e ∉ L)
    (hE : ¬ Kept B R N e i → LogFails E)
    (hkeep : ∀ t, (m.exact → Kept B R N e i) → Ctx m sb B R L N t → Q () t)
    (hfree : ∀ t, ¬ Kept B R N e i → Ctx m sb B R L (Function.update N i .free) t → Q () t) :
    wp (iunlockput sb e) Q E s := by
  rw [iunlockput, wp_bind]
  exact wp_iunlock h hl fun t ht => wp_iput ht (fun hmem => absurd hmem hl) hE hkeep hfree

end Xv6.Fs

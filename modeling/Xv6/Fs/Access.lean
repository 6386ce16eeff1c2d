import Xv6.Fs.Ledger
import Xv6.Fs.Space

/-!
# Reading and changing inodes

The specifications of `readi`, `writei`, `itrunc` and of changes to `nlink`, for an inode that the call
has locked, and of `ialloc` with the initialisation in `create`.
-/

namespace Xv6.Fs

open Wp

variable {m : Mode} {sb : Superblock} {s t : Fs} {e : Ptr} {i : Nat} {B : Base} {R : List (Ptr × Nat)}
  {L : List Ptr} {N : Nat → Node} {E : Panic → Prop}

def Node.read (n : Node) (off cnt : Nat) : List UInt8 :=
  if n.size < off ∨ (off + cnt) % 2 ^ 32 < off then []
  else (List.range (if n.size < off + cnt then n.size - off else cnt)).map fun j => n.bytes (off + j)

theorem Store.readBytes_eq {st : Store} (ha : st.Alloc sb i) (off cnt : Nat) :
    st.readBytes sb i (st.dinode i).size off cnt = (st.node sb i).read off cnt := by
  rw [Store.readBytes, Node.read, Store.node_of_alloc ha]
  split_ifs with hc hlt
  · rfl
  all_goals
    refine List.map_congr_left fun j hj => ?_
    have hj' := List.mem_range.mp hj
    exact (if_pos (by omega)).symm

/-- `tot` of the `cnt` bytes of `src` have been written at `off` of the inode `x`, and perhaps a part of
the others, if not all of them are mapped; the result is `y`. -/
structure Overwritten (src : Nat → Option UInt8) (off cnt tot : Nat) (x y : Node) : Prop where
  rest : y = { x with size := max x.size (off + tot), bytes := y.bytes }
  written : ∀ o, off ≤ o → o < off + tot → src (o - off) = some (y.bytes o)
  kept : ∀ o, (o < off ∨ off + cnt ≤ o ∨ (∀ j < cnt, (src j).isSome) ∧ off + tot ≤ o) →
    y.bytes o = x.bytes o

theorem wp_write (hsb : Layout sb) (hE : LogFails E) (h : Ctx m sb B R L N s) (he : Holds B R e i) (hl : e ∈ L)
    (src : Nat → Option UInt8) (off cnt : Nat) {Q : Option Nat → Fs → Prop}
    (hnone : (N i).size < off ∨ (off + cnt) % 2 ^ 32 < off ∨ MAXFILE * BSIZE < off + cnt → Q none s)
    (hdir : ∀ tot y, off ≤ (N i).size → tot ≤ cnt → StopsAt off cnt tot →
      Overwritten src off cnt tot (N i) y → y.type = .dir → ∀ k, y.slotInum k < sb.ninodes)
    (hQ : ∀ tot t y, off ≤ (N i).size → off + cnt ≤ MAXFILE * BSIZE → tot ≤ cnt → StopsAt off cnt tot →
      ((∀ j < cnt, (src j).isSome) → s.store.room sb i off cnt = tot) →
      Overwritten src off cnt tot (N i) y → Ctx m sb B R L (Function.update N i y) t → Q (some tot) t) :
    wp (writei sb e src off cnt) Q E s := by
  have hlock := (h.lock e).mpr hl
  have hclean := (h.good.clean e (h.good.ref_of_locked hlock) (h.good.held e hlock)).1
  refine wp_writei hsb.size_lt (.inl hE) (h.good.ready hlock) hclean src (fun hbad => hnone ?_)
    fun tot t hoff hmax htot hstop hspace hext hw _ => ?_
  · rwa [h.copy_size he hl] at hbad
  rw [h.copy_size he hl] at hoff
  have hroom : (∀ j < cnt, (src j).isSome) → s.store.room sb i off cnt = tot := by
    intro hmapped
    rw [← h.inum he]
    exact hw.eq_room hext h.good.own (fun b hb => hb.2) htot hmax fun hlt => hspace hlt hmapped
  obtain ⟨bytes, hnode, hwritten, hkept⟩ := hw.nodeKept htot
  obtain ⟨addrs, hself⟩ := hw.self
  rw [h.inum he, h.node, h.copy_size he hl] at hnode
  rw [h.inum he, h.node] at hkept
  have hover : Overwritten src off cnt tot (N i)
      { N i with size := max (N i).size (off + tot), bytes := bytes } := ⟨rfl, hwritten, hkept⟩
  refine hQ tot t _ hoff hmax htot hstop hroom hover (h.update he hl (d := (t.itable e).copy) ?_ hw.others ?_ ?_ hw.own
    hnode rfl (hdir tot _ hoff htot hstop hover) ?_ hw.trace)
  · rw [hself]
  · rw [hself]
  · rw [hw.dinode, h.inum he]
  · rw [← h.inum he]
    exact hw.nodeOther

def Node.trunc (n : Node) : Node := { n with size := 0, bytes := fun _ => 0 }

theorem wp_setNlink (hE : LogFails E) (h : Ctx m sb B R L N s) (he : Holds B R e i) (hl : e ∈ L)
    (g : Int16 → Int16)
    {Q : Unit → Fs → Prop}
    (hQ : ∀ t, Ctx m sb B R L (Function.update N i { N i with nlink := g (N i).nlink }) t → Q () t) :
    wp (do assign e fun d => { d with nlink := g d.nlink }; iupdate sb e) Q E s := by
  have hlock := (h.lock e).mpr hl
  have hclean := (h.good.clean e (h.good.ref_of_locked hlock) (h.good.held e hlock)).1
  rw [h.inum he] at hclean
  rw [wp_bind, assign]
  set d : Dinode := { (s.itable e).copy with nlink := g (s.itable e).copy.nlink } with hd
  have hself : (s.setCopy e d).itable e = { s.itable e with copy := d } := Function.update_self ..
  have hview : (s.setCopy e d).view e = s.store.setDinode i d := by
    rw [view, hself]
    show (s.setCopy e d).store.setDinode (s.itable e).inum d = _
    rw [h.inum he]
    rfl
  have ha := h.alloc he hl
  have hptr : ∀ c, (s.store.setDinode i d).ptr sb c = s.store.ptr sb c := fun c =>
    Store.ptr_setDinode (by rw [hclean]) (by rw [hclean]) c
  have hnode : (s.store.setDinode i d).node sb i = { N i with nlink := g (N i).nlink } := by
    rw [Store.node_setDinode_self ha (by rw [hclean]) (by rw [hclean]) (by rw [hd]; exact hclean ▸ ha.2),
      h.node, h.node_eq he hl]
  refine wp_iupdate hE fun tr => hQ _ (h.update he hl (d := d) rfl
    (fun e' he' => Function.update_of_ne he' ..) hself ?_ ?_ ?_ rfl (fun hdir k => ?_) (fun j hj => ?_) rfl)
  · show ((s.setCopy e d).view e).dinode = _
    rw [hview]
    rfl
  · show Own sb sb.IsData ((s.setCopy e d).view e)
    rw [hview]
    refine h.good.own.congr hptr rfl (fun j => Store.alloc_setDinode (by rw [hclean])) fun j bn hj hbn => ?_
    refine h.good.own.noHole j bn hj ?_
    by_cases hji : j = i
    · subst hji
      rw [Store.setDinode_self] at hbn
      rw [hclean]
      exact hbn
    · rwa [Store.setDinode_of_ne hji] at hbn
  · show ((s.setCopy e d).view e).node sb i = _
    rw [hview, hnode]
  · have := h.good.dirs i k
    rw [h.node] at this
    exact this hdir
  · show ((s.setCopy e d).view e).node sb j = _
    rw [hview, Store.node_setDinode_of_ne hj]

/-! ## A new inode -/

def Node.fresh (type : InodeType) (major minor : Int16) : Node := ⟨type, major, minor, 1, 0, fun _ => 0⟩

/-- `ialloc` has taken the inode `i` and the entry `e` for it, but the inode has no link yet. -/
structure Fresh (m : Mode) (sb : Superblock) (B : Base) (R : List (Ptr × Nat)) (L : List Ptr) (N : Nat → Node)
    (type : InodeType) (e : Ptr) (i : Nat) (t : Fs) : Prop where
  typeNe : type ≠ .free
  pos : 0 < i
  lt : i < sb.ninodes
  free : (N i).type = .free
  from_ : ∃ s tr, Ctx m sb B R L N s ∧ (s.itable e).ref = 0 ∧
    (∀ e', 0 < (s.itable e').ref → (s.itable e').inum ≠ i) ∧
    t = ({ s with
      store := s.store.setDinode i (.zero type)
      trace := .alloc i 0 :: s.trace
      trans := tr } : Fs).setInode e { s.itable e with inum := i, ref := 1, valid := false }

theorem wp_ialloc (hE : LogFails E) (hfull : (∀ e, (s.itable e).ref ≠ 0) → E .igetNoInodes)
    (h : Ctx m sb B R L N s) (hR : ∀ x ∈ R, (N x.2).type ≠ .free) {type : InodeType}
    (htype : type ≠ .free) {Q : Option Ptr → Fs → Prop} (hnone : Q none s)
    (hsome : ∀ e i t, Fresh m sb B R L N type e i t → Q (some e) t) : wp (ialloc sb type) Q E s := by
  rw [ialloc, wp_bind, wp_get]
  cases hf : (List.range' 1 (sb.ninodes - 1)).find? fun i => (s.store.dinode i).type = .free with
  | none => exact hnone
  | some i =>
    obtain ⟨hpos, hlt⟩ := List.mem_range'_1.mp (List.mem_of_find?_eq_some hf)
    have hfree : (s.store.dinode i).type = .free := by
      have := List.find?_some hf
      exact of_decide_eq_true this
    have hni : (N i).type = .free := by
      rw [← h.node, Store.node_type_free]
      exact fun ha => ha.2 hfree
    -- all entries in use are of allocated inodes
    have hno : ∀ e, 0 < (s.itable e).ref → (s.itable e).inum ≠ i := by
      intro e href heq
      rcases h.holds_of_ref href with hmem | ⟨hb, hinum⟩
      · exact hR _ hmem (heq ▸ hni)
      · obtain ⟨-, h2, h3⟩ := h.base e hb
        rw [hinum, heq, hni] at h2
        exact h3 h2.symm
    have hentries : s.entriesFor i = 0 := by
      refine List.length_eq_zero_iff.mpr (List.filter_eq_nil_iff.mpr fun e _ hc => ?_)
      obtain ⟨h1, h2⟩ := of_decide_eq_true hc
      exact hno e h1 h2
    show wp (do
      modify fun s => { s with
        store.dinode := Function.update s.store.dinode i (.zero type)
        trace := .alloc i (s.entriesFor i) :: s.trace }
      logWrite sb (sb.iblock i)
      return some (← iget i)) Q E s
    rw [wp_bind, wp_modify, wp_bind, hentries]
    refine wp_logWrite hE fun tr => ?_
    rw [wp_bind]
    refine wp_iget_raw ?_ ?_ ?_
    · exact hfull
    · exact fun e href hinum => absurd hinum (hno e href)
    · exact fun e href _ => hsome e i _ ⟨htype, hpos, by omega, hni, s, tr, h, href, hno, rfl⟩

theorem Store.ptr_setFresh {st : Store} (hi : ¬ st.Alloc sb i) {d : Dinode} (haddrs : d.addrs = fun _ => 0)
    (c : Nat × Nat) : (st.setDinode i d).ptr sb c = st.ptr sb c := by
  obtain ⟨j, k⟩ := c
  by_cases hj : j = i
  · subst hj
    rw [show st.ptr sb (j, k) = 0 from if_neg hi]
    by_cases ha : (st.setDinode j d).Alloc sb j
    · rw [Store.ptr_of_alloc ha, Store.setDinode_self]
      by_cases hk : k < NDIRECT + 1
      · rw [Dinode.slot_of_lt hk, haddrs]
      · exact Dinode.slot_of_last_eq_zero (by omega) (by rw [haddrs])
    · exact if_neg ha
  · have ha : (st.setDinode i d).Alloc sb j ↔ st.Alloc sb j := by
      unfold Store.Alloc
      rw [Store.setDinode_of_ne hj]
    unfold Store.ptr
    simp only [ha, Store.setDinode_of_ne hj, Store.setDinode_data]

theorem Own.setFresh {st : Store} (h : Own sb sb.IsData st) (hi : ¬ st.Alloc sb i) {d : Dinode}
    (haddrs : d.addrs = fun _ => 0) (hsize : d.size = 0) : Own sb sb.IsData (st.setDinode i d) := by
  have hp : (st.setDinode i d).ptr sb = st.ptr sb := funext (Store.ptr_setFresh hi haddrs)
  refine ⟨?_, h.metaBits, fun j bn hj hbn => ?_, h.notZero⟩
  · rw [hp]
    exact h.owns
  · by_cases hji : j = i
    · rw [hji, Store.setDinode_self, hsize] at hbn
      exact absurd hbn (Nat.not_lt_zero _)
    · rw [Store.setDinode_of_ne hji] at hbn
      unfold Store.Alloc at hj
      rw [Store.setDinode_of_ne hji] at hj
      rw [hp]
      exact h.noHole j bn hj hbn

theorem Ctx.fresh (h : Ctx m sb B R L N s) (href : (s.itable e).ref = 0)
    (hno : ∀ e', 0 < (s.itable e').ref → (s.itable e').inum ≠ i) (hfree : (N i).type = .free)
    (hlt : i < sb.ninodes) {type : InodeType} (htype : type ≠ .free) {major minor : Int16} {d : Dinode}
    (hd : d = { Dinode.zero type with major := major, minor := minor, nlink := 1 }) {u : Fs}
    (hstore : u.store = s.store.setDinode i d)
    (hitable : u.itable = Function.update s.itable e ⟨i, 1, true, true, d⟩)
    (htrace : ∀ ev ∈ u.trace, ev.Ok m) :
    Ctx m sb B ((e, i) :: R) (e :: L) (Function.update N i (.fresh type major minor)) u := by
  have hna : ¬ s.store.Alloc sb i := by rwa [← Store.node_type_free, h.node]
  have hself : u.itable e = ⟨i, 1, true, true, d⟩ := by rw [hitable, Function.update_self]
  have hother : ∀ e', e' ≠ e → u.itable e' = s.itable e' := by
    intro e' he
    rw [hitable, Function.update_of_ne he]
  have hdtype : d.type ≠ .free := by rwa [hd]
  have halloc : u.store.Alloc sb i := by
    refine ⟨hlt, ?_⟩
    rwa [hstore, Store.setDinode_self]
  have hnode : ∀ j, u.store.node sb j = Function.update N i (.fresh type major minor) j := by
    intro j
    by_cases hj : j = i
    · subst hj
      rw [Function.update_self, Store.node_of_alloc halloc, hstore, Store.setDinode_self, hd]
      rfl
    · rw [Function.update_of_ne hj, hstore, Store.node_setDinode_of_ne hj, h.node]
  have hdinode : ∀ e', e' ≠ e → 0 < (s.itable e').ref →
      u.store.dinode (s.itable e').inum = s.store.dinode (s.itable e').inum := by
    intro e' _ h'
    rw [hstore, Store.setDinode_of_ne (hno e' h')]
  have hcount : (R.map Prod.fst).count e = 0 ∧ B.cnt e = 0 := by
    rw [h.ref] at href
    omega
  refine ⟨⟨?_, fun j k hj => ?_, fun e₁ e₂ h1 h2 heq => ?_, fun e' h1 => ?_, fun e' h1 h2 => ?_,
    fun e' h1 => ?_, fun e' h1 => ?_, fun hm j ha hn => ?_⟩, fun e' => ?_, fun y hy => ?_, fun e' => ?_,
    fun e' hb => ?_, hnode, htrace⟩
  · rw [hstore]
    exact h.good.own.setFresh hna (by rw [hd]; rfl) (by rw [hd]; rfl)
  · rw [hnode] at hj ⊢
    by_cases hji : j = i
    · rw [hji, Function.update_self]
      exact Nat.lt_of_le_of_lt (Nat.zero_le _) hlt
    · rw [Function.update_of_ne hji, ← h.node] at hj ⊢
      exact h.good.dirs j k hj
  · by_cases he1 : e₁ = e <;> by_cases he2 : e₂ = e
    · rw [he1, he2]
    · rw [hother e₂ he2] at h2 heq
      rw [he1, hself] at heq
      exact absurd heq.symm (hno e₂ h2)
    · rw [hother e₁ he1] at h1 heq
      rw [he2, hself] at heq
      exact absurd heq (hno e₁ h1)
    · rw [hother e₁ he1] at h1 heq
      rw [hother e₂ he2] at h2 heq
      exact h.good.uniq e₁ e₂ h1 h2 heq
  · by_cases he : e' = e
    · rw [he, hself]
      exact hlt
    · rw [hother e' he] at h1 ⊢
      exact h.good.range e' h1
  · by_cases he : e' = e
    · rw [he, hself, hstore, Store.setDinode_self]
      exact ⟨rfl, hdtype⟩
    · rw [hother e' he] at h1 h2 ⊢
      rw [hdinode e' he h1]
      exact h.good.clean e' h1 h2
  · by_cases he : e' = e
    · rw [he, hself] at h1
      cases h1
    · rw [hother e' he] at h1 ⊢
      exact h.good.idle e' h1
  · by_cases he : e' = e
    · rw [he, hself]
    · rw [hother e' he] at h1 ⊢
      exact h.good.held e' h1
  · have hji : j ≠ i := by
      rintro rfl
      rw [hstore, Store.setDinode_self, hd] at hn
      exact absurd hn (show (1 : Int16) ≠ 0 by decide)
    unfold Store.Alloc at ha
    rw [hstore, Store.setDinode_of_ne hji] at ha hn
    obtain ⟨e', h1, h2, h3⟩ := h.good.orphan hm j ha hn
    refine ⟨e', ?_⟩
    rw [hother e']
    · exact ⟨h1, h2, h3⟩
    · rintro rfl
      omega
  · by_cases he : e' = e
    · rw [he, hself, List.map_cons, List.count_cons_self]
      show 1 = _
      omega
    · rw [hother e' he, h.ref, List.map_cons, List.count_cons_of_ne (Ne.symm he)]
  · rcases List.mem_cons.mp hy with rfl | hold
    · rw [hself]
    · have hye : y.1 ≠ e := by
        intro heq
        have : 0 < (R.map Prod.fst).count e := List.count_pos_iff.mpr (heq ▸ List.mem_map_of_mem hold)
        omega
      rw [hother _ hye, h.refs y hold]
  · by_cases he : e' = e
    · rw [he, hself]
      exact iff_of_true rfl List.mem_cons_self
    · rw [hother e' he, h.lock, List.mem_cons, or_iff_right he]
  · have he : e' ≠ e := by
      rintro rfl
      omega
    obtain ⟨h1, h2, h3⟩ := h.base e' hb
    rw [hother e' he]
    refine ⟨h1, ?_, h3⟩
    rw [Function.update_of_ne, h2]
    rintro rfl
    rw [hfree] at h2
    exact h3 h2.symm

theorem wp_init (hE : LogFails E) {type : InodeType} (h : Fresh m sb B R L N type e i t) (major minor : Int16)
    {Q : Unit → Fs → Prop}
    (hQ : ∀ u, e ∉ L → Ctx m sb B ((e, i) :: R) (e :: L) (Function.update N i (.fresh type major minor)) u →
      Q () u) :
    wp (do
      ilock e
      assign e fun d => { d with major := major, minor := minor, nlink := 1 }
      iupdate sb e) Q E t := by
  obtain ⟨s, tr, hc, href, hno, ht⟩ := h.from_
  have heL : e ∉ L := by
    rw [← hc.lock, hc.good.idle e href]
    nofun
  have hself : t.itable e = { s.itable e with inum := i, ref := 1, valid := false } := by
    rw [ht]
    exact Function.update_self ..
  have hother : ∀ e', e' ≠ e → t.itable e' = s.itable e' := by
    intro e' he
    rw [ht]
    exact Function.update_of_ne he ..
  have hstore : t.store = s.store.setDinode i (.zero type) := by
    rw [ht]
    rfl
  have hdinode : t.store.dinode (t.itable e).inum = .zero type := by
    rw [hself, hstore]
    exact Store.setDinode_self
  have hx : t.lockedInode e = ⟨i, 1, true, true, .zero type⟩ := by
    simp only [lockedInode, hself, hstore, Store.setDinode_self, Bool.false_eq_true, if_false]
  rw [wp_bind]
  refine wp_ilock_raw ?_ (fun hl => ?_) (fun _ hfree => absurd ?_ h.typeNe) fun _ _ => ?_
  · rw [hself]
    exact Nat.one_pos
  · rw [hself] at hl
    rw [hc.good.idle e href] at hl
    cases hl
  · rw [hdinode] at hfree
    exact hfree
  rw [hx, wp_bind, assign]
  have hself1 : (t.setInode e ⟨i, 1, true, true, .zero type⟩).itable e = ⟨i, 1, true, true, .zero type⟩ :=
    Function.update_self ..
  refine wp_iupdate hE fun tr' => hQ _ heL (hc.fresh href hno h.free h.lt h.typeNe rfl ?_ ?_ ?_)
  · simp only [view, setCopy, setInode, Function.update_self, hstore, Store.setDinode_setDinode]
  · funext e'
    by_cases he : e' = e
    · subst he
      simp only [setCopy, setInode, Function.update_self]
    · simp only [setCopy, setInode, Function.update_of_ne he, hother e' he]
  · show ∀ ev ∈ t.trace, ev.Ok m
    rw [ht]
    intro ev hev
    rcases List.mem_cons.mp hev with rfl | hold
    · exact fun _ => rfl
    · exact hc.traced ev hold

end Xv6.Fs

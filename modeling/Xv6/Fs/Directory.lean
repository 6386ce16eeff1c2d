import Xv6.Fs.Access
import Xv6.Fs.Entries
import Xv6.Fs.Syscalls

/-!
# Directories

The specifications of `dirlookup`, `dirlink` and `isdirempty` in terms of the entries. Reading a directory is
the same for every inode that is loaded, which `Shows` says; what the calls do to the inode table and to the
disk is said of the ledger.
-/

namespace Xv6.Fs

open Function Wp

variable {m : Mode} {sb : Superblock} {s t : Fs} {e : Ptr} {i : Nat} {B : Base} {R : List (Ptr × Nat)}
  {L : List Ptr} {N : Nat → Node} {E : Panic → Prop} {n : Node} {name : List UInt8}

theorem Store.node_bytes {st : Store} {o : Nat} (h : (st.node sb i).size ≤ o) :
    (st.node sb i).bytes o = 0 := by
  by_cases ha : st.Alloc sb i
  · rw [Store.node_of_alloc ha] at h ⊢
    exact if_neg (Nat.not_lt.mpr h)
  · rw [Store.node_of_not_alloc ha]
    rfl

/-! ## Reading a directory -/

/-- The entry `e` of the table has the inode `n`, which can be read. -/
structure Shows (sb : Superblock) (s : Fs) (e : Ptr) (n : Node) : Prop where
  type : (s.itable e).copy.type = n.type
  size : (s.itable e).copy.size = n.size
  size_le : n.size ≤ MAXFILE * BSIZE
  rest : ∀ o, n.size ≤ o → n.bytes o = 0
  read : ∀ off cnt, (readi sb e (fun _ => true) off cnt).run s = .ok (some (n.read off cnt), s)

theorem Ready.shows {D : Nat → Prop} (h : Ready sb D e s)
    (hclean : s.store.dinode (s.itable e).inum = (s.itable e).copy) :
    Shows sb s e (s.store.node sb (s.itable e).inum) := by
  have hview : s.view e = s.store := Store.setDinode_eq hclean
  have ha : s.store.Alloc sb (s.itable e).inum := hview ▸ h.alloc
  have hnode := Store.node_of_alloc ha
  have hown : Own sb D s.store := hview ▸ h.own
  refine ⟨by rw [hnode, hclean], by rw [hnode, hclean], ?_, fun o ho => Store.node_bytes ho, fun off cnt => ?_⟩
  · rw [hnode]
    by_contra hbig
    exact Nat.lt_irrefl _ (hown.bn_lt ha (Nat.lt_of_not_le hbig))
  · have hwp : wp (readi sb e (fun _ => true) off cnt)
        (fun r t => r = some ((s.store.node sb (s.itable e).inum).read off cnt) ∧ t = s) (fun _ => False) s := by
      refine wp_readi h _ off cnt fun r hr => ⟨?_, rfl⟩
      rw [hr fun _ => rfl, hview, ← Store.readBytes_eq ha, hclean]
    obtain ⟨r, t, hrun, rfl, rfl⟩ := exists_of_wp hwp
    exact hrun

theorem Ctx.shows (h : Ctx m sb B R L N s) (he : Holds B R e i) (hl : e ∈ L) : Shows sb s e (N i) := by
  have hlock := (h.lock e).mpr hl
  have hclean := (h.good.clean e (h.good.ref_of_locked hlock) (h.good.held e hlock)).1
  have hs := (h.good.ready hlock).shows hclean
  rwa [h.inum he, h.node] at hs

/-- The panics of a directory that is none, or whose size is not that of a number of entries. -/
structure DirFails (E : Panic → Prop) (n : Node) : Prop where
  notDir : n.type ≠ .dir → E .dirlookupNotDir
  lookup : ¬ 16 ∣ n.size → E .dirlookupRead
  link : ¬ 16 ∣ n.size → E .dirlinkRead
  empty : ¬ 16 ∣ n.size → E .isdiremptyReadi

theorem Node.IsDir.fails (h : n.IsDir) : DirFails E n :=
  ⟨fun hn => absurd h.type hn, fun hn => absurd h.aligned hn, fun hn => absurd h.aligned hn,
    fun hn => absurd h.aligned hn⟩

namespace Shows

section

variable (h : Shows sb s e n)
include h

theorem slotInum_eq_zero {k : Nat} (hk : n.size ≤ 16 * k) : n.slotInum k = 0 := by
  unfold Node.slotInum
  rw [h.rest _ hk, h.rest _ (hk.trans (Nat.le_succ _))]
  rfl

theorem wp_readDirent {pe : Panic} {k : Nat} (hpe : n.size < 16 * k + 16 → E pe)
    {Q : Dirent → Fs → Prop} (hQ : 16 * k + 16 ≤ n.size → Q ⟨n.slotInum k, n.slotName k⟩ s) :
    wp (readDirent sb pe e (16 * k)) Q E s := by
  rw [readDirent, wp_bind, wp_run (h.read _ _)]
  show wp (if (n.read (16 * k) 16).length = 16 then _ else _) Q E s
  have hbig : MAXFILE * BSIZE < 2 ^ 32 := by decide
  have hle := h.size_le
  by_cases hk : 16 * k + 16 ≤ n.size
  · have hread : n.read (16 * k) 16 = (List.range 16).map fun j => n.bytes (16 * k + j) := by
      unfold Node.read
      rw [if_neg (by omega), if_neg (by omega)]
    rw [hread]
    exact hQ hk
  · rw [wp_ite]
    refine ⟨fun hlen => absurd hlen ?_, fun _ => hpe (by omega)⟩
    unfold Node.read
    split_ifs
    · simp
    · rw [List.length_map, List.length_range]
      omega
    · omega

theorem wp_dirlookupLoop (hE : n.slot? name = none → ¬ 16 ∣ n.size → E .dirlookupRead)
    {Q : Option (Ptr × Nat) → Fs → Prop} (hnone : (∀ k, ¬ n.Names name k) → Q none s)
    (hsome : ∀ k, n.slot? name = some k → wp (iget (n.slotInum k)) (fun e' t => Q (some (e', 16 * k)) t) E
      { s with trace := .found (n.slotInum k) (s.store.dinode (n.slotInum k)).type :: s.trace }) :
    ∀ fuel k, n.size / 16 + 1 ≤ k + fuel → (∀ k' < k, ¬ n.Names name k') →
      wp (dirlookupLoop sb e name fuel (16 * k)) Q E s := by
  have hend : ∀ k, n.size ≤ 16 * k → (∀ k' < k, ¬ n.Names name k') → Q none s := by
    refine fun k hk hlt => hnone fun k' hn => ?_
    by_cases hkk : k' < k
    · exact hlt k' hkk hn
    · exact hn.1 (h.slotInum_eq_zero (by omega))
  intro fuel
  induction fuel with
  | zero => exact fun k hk hlt => hend k (by omega) hlt
  | succ fuel ih =>
    intro k hk hlt
    show wp (if 16 * k < (s.itable e).copy.size then _ else _) Q E s
    rw [h.size, wp_ite]
    refine ⟨fun hin => ?_, fun hge => hend k (by omega) hlt⟩
    rw [wp_bind]
    refine h.wp_readDirent (fun hshort => hE ?_ (by omega)) fun hsize => ?_
    · refine Option.eq_none_iff_forall_ne_some.mpr fun k' hk' => ?_
      obtain ⟨hk', hn, -⟩ := Node.slot?_eq_some.mp hk'
      exact hlt k' (by omega) hn
    rw [wp_ite]
    refine ⟨fun hn => ?_, fun hn => ih (k + 1) (by omega) fun k' hk' => ?_⟩
    · rw [wp_bind, wp_modify, wp_bind]
      exact hsome k (Node.slot?_eq_some.mpr ⟨hsize, hn, hlt⟩)
    · rcases Nat.lt_succ_iff_lt_or_eq.mp hk' with hlt' | rfl
      · exact hlt k' hlt'
      · exact hn

theorem wp_dirlookup (hdir : n.type ≠ .dir → E .dirlookupNotDir)
    (hE : n.slot? name = none → ¬ 16 ∣ n.size → E .dirlookupRead) {Q : Option (Ptr × Nat) → Fs → Prop}
    (hnone : n.type = .dir → (∀ k, ¬ n.Names name k) → Q none s) (hsome : ∀ k, n.type = .dir → n.slot? name = some k →
      wp (iget (n.slotInum k)) (fun e' t => Q (some (e', 16 * k)) t) E
        { s with trace := .found (n.slotInum k) (s.store.dinode (n.slotInum k)).type :: s.trace }) :
    wp (dirlookup sb e name) Q E s := by
  show wp (if (s.itable e).copy.type ≠ .dir then _ else _) Q E s
  rw [h.type, wp_ite]
  refine ⟨hdir, fun hd => ?_⟩
  have hdir' : n.type = .dir := not_not.mp hd
  show wp (dirlookupLoop sb e name ((s.itable e).copy.size / 16 + 1) 0) Q E s
  rw [h.size]
  exact h.wp_dirlookupLoop hE (hnone hdir') (fun k hk => hsome k hdir' hk) _ 0 (by omega) nofun

theorem wp_emptyLoop (hE : DirFails E n) {Q : Nat → Fs → Prop}
    (hQ : n.slotInum n.freeSlot = 0 → 16 * n.freeSlot ≤ n.size → Q (16 * n.freeSlot) s) :
    ∀ fuel k, n.size / 16 + 1 ≤ k + fuel → 16 * k ≤ n.size → (∀ k' < k, n.slotInum k' ≠ 0) →
      wp (emptyLoop sb e fuel (16 * k)) Q E s := by
  intro fuel
  induction fuel with
  | zero => exact fun k hk hle _ => absurd hle (by omega)
  | succ fuel ih =>
    intro k hk hle hused
    show wp (if 16 * k < (s.itable e).copy.size then _ else _) Q E s
    rw [h.size, wp_ite]
    refine ⟨fun hin => ?_, fun hge => ?_⟩
    · rw [wp_bind]
      refine h.wp_readDirent (fun hshort => hE.link (by omega)) fun hsize => ?_
      rw [wp_ite]
      refine ⟨fun h0 => ?_, fun h0 => ih (k + 1) (by omega) (by omega) fun k' hk' => ?_⟩
      · have hfree := Node.freeSlot_eq h0 (by omega) hused
        rw [hfree] at hQ
        exact hQ h0 hle
      · rcases Nat.lt_succ_iff_lt_or_eq.mp hk' with hlt | rfl
        · exact hused k' hlt
        · exact h0
    · -- the end: all entries are in use
      have hfree : n.freeSlot = k := by
        rcases Node.freeSlot_cases with ⟨hlt, h0, -⟩ | ⟨heq, -⟩
        · exact absurd h0 (hused _ (by omega))
        · omega
      rw [hfree] at hQ
      exact hQ (h.slotInum_eq_zero (by omega)) hle

theorem wp_isdiremptyLoop (hE : DirFails E n) {Q : Bool → Fs → Prop}
    (htrue : (∀ k, 2 ≤ k → n.slotInum k = 0) → Q true s) (hfalse : ∀ k, 2 ≤ k → n.slotInum k ≠ 0 → Q false s) :
    ∀ fuel k, n.size / 16 + 1 ≤ k + fuel → (∀ k' < k, 2 ≤ k' → n.slotInum k' = 0) → 2 ≤ k →
      wp (isdiremptyLoop sb e fuel (16 * k)) Q E s := by
  have hend : ∀ k, n.size ≤ 16 * k → (∀ k' < k, 2 ≤ k' → n.slotInum k' = 0) → Q true s := by
    refine fun k hk hlt => htrue fun k' hk' => ?_
    by_cases hkk : k' < k
    · exact hlt k' hkk hk'
    · exact h.slotInum_eq_zero (by omega)
  intro fuel
  induction fuel with
  | zero => exact fun k hk hlt _ => hend k (by omega) hlt
  | succ fuel ih =>
    intro k hk hlt h2
    show wp (if 16 * k < (s.itable e).copy.size then _ else _) Q E s
    rw [h.size, wp_ite]
    refine ⟨fun hin => ?_, fun hge => hend k (by omega) hlt⟩
    rw [wp_bind]
    refine h.wp_readDirent (fun hshort => hE.empty (by omega)) fun hsize => ?_
    rw [wp_ite]
    refine ⟨fun hn => hfalse k h2 hn, fun hn => ih (k + 1) (by omega) (fun k' hk' h2' => ?_) (by omega)⟩
    rcases Nat.lt_succ_iff_lt_or_eq.mp hk' with hlt' | rfl
    · exact hlt k' hlt' h2'
    · exact not_not.mp hn

theorem wp_isdirempty (hE : DirFails E n) {Q : Bool → Fs → Prop}
    (htrue : (∀ k, 2 ≤ k → n.slotInum k = 0) → Q true s) (hfalse : ∀ k, 2 ≤ k → n.slotInum k ≠ 0 → Q false s) :
    wp (isdirempty sb e) Q E s := by
  show wp (isdiremptyLoop sb e ((s.itable e).copy.size / 16 + 1) (16 * 2)) Q E s
  rw [h.size]
  exact h.wp_isdiremptyLoop hE htrue hfalse _ 2 (by omega) (fun k' h1 h2 => by omega) le_rfl

end

end Shows

/-! ## Looking for a name -/

/-- What `dirlookup` found: the entry `e'` of the table for the inode in the entry `k` of the directory. -/
structure Found (m : Mode) (sb : Superblock) (B : Base) (R : List (Ptr × Nat)) (L : List Ptr) (N : Nat → Node)
    (i : Nat) (name : List UInt8) (k : Nat) (e' : Ptr) (t : Fs) : Prop where
  dir : (N i).type = .dir
  slot : (N i).slot? name = some k
  kept : m.exact → Kept B R N e' ((N i).slotInum k)
  ctx : Ctx m sb B ((e', (N i).slotInum k) :: R) L N t

theorem Found.names {k : Nat} {e' : Ptr} (h : Found m sb B R L N i name k e' t) : (N i).Names name k :=
  (Node.slot?_eq_some.mp h.slot).2.1

theorem wp_dirlookup (h : Ctx m sb B R L N s) (he : Holds B R e i) (hl : e ∈ L) (hE : DirFails E (N i))
    (hfull : (∀ e, (s.itable e).ref ≠ 0) → E .igetNoInodes) (name : List UInt8)
    (hsafe : m.safe → ∀ k, (N i).slotInum k ≠ 0 → (N ((N i).slotInum k)).type ≠ .free)
    {Q : Option (Ptr × Nat) → Fs → Prop}
    (hnone : (N i).type = .dir → (∀ k, ¬ (N i).Names name k) → Q none s)
    (hsome : ∀ k e' t, Found m sb B R L N i name k e' t → Q (some (e', 16 * k)) t) :
    wp (dirlookup sb e name) Q E s := by
  refine (h.shows he hl).wp_dirlookup hE.notDir (fun _ => hE.lookup) hnone fun k hdir hk => ?_
  obtain ⟨-, hn, -⟩ := Node.slot?_eq_some.mp hk
  have hrange : (N i).slotInum k < sb.ninodes := by
    rw [← h.node]
    exact h.good.dirs i k (by rw [h.node, hdir])
  have hctx : Ctx m sb B R L N { s with
      trace := .found ((N i).slotInum k) (s.store.dinode ((N i).slotInum k)).type :: s.trace } := by
    refine ⟨h.good.of_eq rfl rfl, h.ref, h.refs, h.lock, h.base, h.node, fun ev hev => ?_⟩
    rcases List.mem_cons.mp hev with rfl | hold
    · intro hs hfree
      refine hsafe hs k hn.1 ?_
      rw [← h.node, Store.node_type_free]
      exact fun ha => ha.2 hfree
    · exact h.traced ev hold
  exact wp_iget hctx hrange hfull fun e' t ht hkept => hsome k e' t ⟨hdir, hk, hkept, ht⟩

/-! ## Writing an entry -/

/-- There is a block for the entry `k`, or one can be allocated. -/
def Store.HasSlot (sb : Superblock) (st : Store) (i k : Nat) : Prop :=
  16 * k + 16 ≤ MAXFILE * BSIZE ∧ st.room sb i (16 * k) 16 = 16

theorem Overwritten.dirent {de : Dirent} {k tot : Nat} {x y : Node}
    (h : Overwritten (fun j => de.bytes[j]?) (16 * k) 16 tot x y) (htot : tot ≤ 16)
    (hstop : StopsAt (16 * k) 16 tot) (hk : 16 * k ≤ x.size) :
    tot = 16 ∧ y = x.setSlot k de ∨ tot ≠ 16 ∧ y = x := by
  have hcases : tot = 0 ∨ tot = 16 := by
    rcases hstop with h0 | h16 | hmod
    · exact .inl h0
    · exact .inr h16
    · unfold BSIZE at hmod
      omega
  have hrest := h.rest
  rcases hcases with rfl | rfl
  · refine .inr ⟨by decide, hrest.trans ?_⟩
    have hbytes : y.bytes = x.bytes := by
      funext o
      refine h.kept o ?_
      by_cases ho : o < 16 * k
      · exact .inl ho
      · exact .inr (.inr ⟨de.mapped, by omega⟩)
    rw [hbytes, Nat.add_zero, Nat.max_eq_left hk]
  · refine .inl ⟨rfl, hrest.trans ?_⟩
    have hbytes : y.bytes = (x.setSlot k de).bytes := by
      funext o
      by_cases ho : 16 * k ≤ o ∧ o < 16 * k + 16
      · have hw := h.written o ho.1 ho.2
        show _ = if 16 * k ≤ o ∧ o < 16 * k + 16 then (de.bytes[o - 16 * k]?).getD 0 else x.bytes o
        rw [if_pos ho, hw]
        rfl
      · rw [Node.bytes_setSlot_of_ne (by omega)]
        exact h.kept o (by omega)
    rw [hbytes]
    rfl

theorem wp_writeDirent (hsb : Layout sb) (hE : LogFails E) (h : Ctx m sb B R L N s) (he : Holds B R e i) (hl : e ∈ L)
    {de : Dirent} (hde : de.inum < sb.ninodes) {k : Nat} (hk : 16 * k ≤ (N i).size) {Q : Bool → Fs → Prop}
    (htrue : ∀ t, s.store.HasSlot sb i k → Ctx m sb B R L (update N i ((N i).setSlot k de)) t → Q true t)
    (hfalse : ∀ t, ¬ s.store.HasSlot sb i k → Ctx m sb B R L N t → Q false t) :
    wp (writeDirent sb e de (16 * k)) Q E s := by
  have hdirs : ∀ k', (N i).type = .dir → (N i).slotInum k' < sb.ninodes := by
    intro k'
    rw [← h.node]
    exact h.good.dirs i k'
  have hbig : MAXFILE * BSIZE < 2 ^ 32 := by decide
  rw [writeDirent, wp_bind]
  refine wp_write hsb hE h he hl _ _ _ (fun hbad => hfalse s (fun hs => ?_) h)
    (fun tot y hoff htot hstop hy hdir k' => ?_) fun tot t y hoff hmax htot hstop hroom hy ht => ?_
  · have := hs.1
    omega
  · rcases hy.dirent htot hstop hk with ⟨-, rfl⟩ | ⟨-, rfl⟩
    · by_cases hkk : k' = k
      · rw [hkk, Node.slotInum_setSlot]
        exact Nat.lt_of_le_of_lt (Nat.mod_le _ _) hde
      · rw [Node.slotInum_setSlot_of_ne hkk]
        exact hdirs k' hdir
    · exact hdirs k' hdir
  · rcases hy.dirent htot hstop hk with ⟨rfl, rfl⟩ | ⟨hne, rfl⟩
    · exact htrue t ⟨hmax, hroom de.mapped⟩ ht
    · rw [update_eq_self] at ht
      have hdec : decide (some tot = some 16) = false := decide_eq_false fun heq => hne (Option.some.inj heq)
      show Q (decide (some tot = some 16)) t
      rw [hdec]
      exact hfalse t (fun hs => hne ((hroom de.mapped).symm.trans hs.2)) ht

/-- `dirlink` writes an entry with a new name into the first free slot; or the name is there already or there
is no space, and it leaves the directory as it was. -/
theorem wp_dirlink (hsb : Layout sb) (hlog : LogFails E) (h : Ctx m sb B R L N s) (he : Holds B R e i) (hl : e ∈ L)
    (hE : DirFails E (N i)) (hfull : (∀ e, (s.itable e).ref ≠ 0) → E .igetNoInodes)
    (name : List UInt8) {j : Nat} (hj : j < sb.ninodes)
    (hsafe : m.safe → ∀ k, (N i).slotInum k ≠ 0 → (N ((N i).slotInum k)).type ≠ .free)
    {Q : Bool → Fs → Prop}
    (htrue : ∀ t, (N i).type = .dir → (∀ k', ¬ (N i).Names name k') → (N i).slotInum (N i).freeSlot = 0 →
      16 * (N i).freeSlot ≤ (N i).size → s.store.HasSlot sb i (N i).freeSlot →
      Ctx m sb B R L (update N i ((N i).setSlot (N i).freeSlot ⟨j, name⟩)) t → Q true t)
    (hfalse : ∀ t N', (m.exact → N' = N) →
      (∃ k, (N i).Names name k) ∨ ¬ s.store.HasSlot sb i (N i).freeSlot → Ctx m sb B R L N' t → Q false t) :
    wp (dirlink sb e name j) Q E s := by
  rw [dirlink, wp_bind]
  refine wp_dirlookup h he hl hE hfull name hsafe (fun hdir hno => ?_) fun k e' t hf => ?_
  · show wp (do
      let d ← copyOf e
      let off ← emptyLoop sb e (d.size / 16 + 1) 0
      writeDirent sb e ⟨j, name⟩ off) Q E s
    show wp (do
      let off ← emptyLoop sb e ((s.itable e).copy.size / 16 + 1) 0
      writeDirent sb e ⟨j, name⟩ off) Q E s
    rw [h.copy_size he hl, wp_bind]
    refine (h.shows he hl).wp_emptyLoop hE (fun h0 hk => ?_) _ 0 (by omega) (Nat.zero_le _) nofun
    exact wp_writeDirent hsb hlog h he hl hj hk (fun t hs ht => htrue t hdir hno h0 hk hs ht)
      fun t hs ht => hfalse t N (fun _ => rfl) (.inr hs) ht
  · have hname : (∃ k, (N i).Names name k) ∨ ¬ s.store.HasSlot sb i (N i).freeSlot := .inl ⟨k, hf.names⟩
    show wp (do iput sb e'; return false) Q E t
    rw [wp_bind]
    refine wp_iput hf.ctx (fun hmem => ?_) (fun _ => hlog) (fun u _ hu => hfalse u N (fun _ => rfl) hname hu)
      fun u hnk hu => hfalse u _ (fun hm => absurd (hf.kept hm) hnk) hname hu
    -- a locked entry is one that the call holds a reference to
    have hh := h.holds_of_ref (h.good.ref_of_locked ((h.lock e').mpr hmem))
    have hinum := hf.ctx.inum hh.cons
    rw [hf.ctx.inum .head] at hinum
    rwa [hinum]

end Xv6.Fs

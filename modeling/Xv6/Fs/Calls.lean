import Xv6.Fs.NodeStep
import Xv6.Fs.Walk

/-!
# The calls on names

What `create`, `link` and `unlink` do to the inodes. A call that fails leaves them as they were, one that
succeeds makes one of the changes of `NodeStep`, perhaps followed by the end of an inode without links. The
statements are about exact modes, in which path walks free nothing; in the other modes they say that the
ledger is balanced.
-/

namespace Xv6.Fs

open Function Wp

/-- The panics that the specifications do not exclude; `ilock` finds a type if walks are safe. -/
structure Allows (m : Mode) (E : Panic → Prop) : Prop where
  rest : ∀ p, p ≠ .freeingFreeBlock → p ≠ .ilockNoType → p ≠ .unlinkNlink → E p
  type : E .ilockNoType ∨ m.safe

/-- Walks of a process in the directory `cwd` stay in `S`. -/
structure Walks (m : Mode) (B : Base) (cwd : Ptr) (N : Nat → Node) (S : Nat → Prop) : Prop where
  closed : Closed m N S
  root : S ROOTINO
  here : S (B.inum cwd)

variable {m : Mode} {sb : Superblock} {s t : Fs} {e dp : Ptr} {i d : Nat} {B : Base} {R : List (Ptr × Nat)}
  {L : List Ptr} {N N' : Nat → Node} {S : Nat → Prop} {E : Panic → Prop} {cwd : Ptr} {name : List UInt8}
  {Q : Bool → Fs → Prop}

theorem Walks.start (h : Walks m B cwd N S) (path : List UInt8) : S (startOf B cwd path) := by
  unfold startOf
  split_ifs
  · exact h.root
  · exact h.here

theorem Walks.congr (h : Walks m B cwd N S) (htype : ∀ j, (N' j).type = (N j).type)
    (hbytes : ∀ j, (N' j).bytes = (N j).bytes) : Walks m B cwd N' S := by
  have hslot : ∀ j k, (N' j).slotInum k = (N j).slotInum k := fun j k => by
    unfold Node.slotInum
    rw [hbytes]
  refine ⟨⟨fun j k hj hdir h0 => ?_, fun hs j hj => ?_⟩, h.root, h.here⟩
  · rw [hslot] at h0 ⊢
    exact h.closed.next j k hj (by rwa [← htype]) h0
  · rw [htype]
    exact h.closed.alloc hs j hj

namespace Allows

theorem log (h : Allows m E) : LogFails E := ⟨h.rest _ nofun nofun nofun, h.rest _ nofun nofun nofun⟩

theorem dir (h : Allows m E) {n : Node} : DirFails E n :=
  ⟨fun _ => h.rest _ nofun nofun nofun, fun _ => h.rest _ nofun nofun nofun, fun _ => h.rest _ nofun nofun nofun,
    fun _ => h.rest _ nofun nofun nofun⟩

theorem full (h : Allows m E) : E .igetNoInodes := h.rest _ nofun nofun nofun

theorem blocked (h : Allows m E) : E .blocked := h.rest _ nofun nofun nofun

theorem noType (h : Allows m E) (hS : m.exact → Closed m N S) (hi : m.exact → N' i = N i ∧ S i) :
    (N' i).type = .free → E .ilockNoType := by
  refine fun hfree => h.type.resolve_right fun hs => ?_
  have hm := m.exact_of_safe hs
  obtain ⟨heq, hi⟩ := hi hm
  exact (hS hm).alloc hs i hi (heq ▸ hfree)

theorem walk (h : Allows m E) (hS : m.exact → Closed m N S) (N' : Nat → Node) (i : Nat)
    (hi : m.exact → N' = N ∧ S i) : WalkFails E (N' i) :=
  ⟨h.noType hS fun hm => ⟨by rw [(hi hm).1], (hi hm).2⟩, fun _ => h.dir⟩

end Allows

/-! ## Pieces of the calls -/

section

variable {α : Type} {Q : α → Fs → Prop}

theorem wp_beginOp (h : Ctx m sb B R L N s) {k : M α} (hQ : ∀ t, Ctx m sb B R L N t → wp k Q E t) :
    wp (do beginOp; k) Q E s := by
  rw [wp_bind, beginOp]
  exact hQ _ (h.of_eq rfl rfl rfl)

theorem wp_endOp (h : Ctx m sb B R L N s) {a : α} (hQ : ∀ t, Ctx m sb B R L N t → Q a t) :
    wp (do endOp; return a) Q E s := by
  rw [wp_bind, endOp]
  exact hQ _ (h.of_eq rfl rfl rfl)

theorem wp_nlink (hE : LogFails E) (h : Ctx m sb B R L N s) (he : Holds B R e i) (hl : e ∈ L) (g : Int16 → Int16)
    {k : M α} (hQ : ∀ t, Ctx m sb B R L (update N i { N i with nlink := g (N i).nlink }) t → wp k Q E t) :
    wp (do assign e fun d => { d with nlink := g d.nlink }; iupdate sb e; k) Q E s := by
  have hset := wp_setNlink hE h he hl g (Q := fun _ t => wp k Q E t) hQ
  rw [wp_bind] at hset ⊢
  exact hset.mono fun _ _ ht => wp_bind.mpr ht

theorem wp_unlockput (hE : LogFails E) (h : Ctx m sb B ((e, i) :: R) (e :: L) N s) (hl : e ∉ L)
    (hk : m.exact → Kept B R N e i) {k : M α}
    (hQ : ∀ t N', (m.exact → N' = N) → Ctx m sb B R L N' t → wp k Q E t) :
    wp (do iunlockput sb e; k) Q E s := by
  rw [wp_bind]
  refine wp_iunlockput h hl (fun _ => hE) (fun t _ ht => hQ t N (fun _ => rfl) ht) fun t hnk ht => ?_
  exact hQ t _ (fun hm => absurd (hk hm) hnk) ht

end

theorem Kept.congr (h : Kept B R N e i) (hn : (N' i).nlink = (N i).nlink) (ht : (N' i).type = (N i).type) :
    Kept B R N' e i := by
  unfold Kept at h ⊢
  rwa [hn, ht]

theorem Ctx.node_free (h : Ctx m sb B R L N s) (hi : (N i).type = .free) : N i = .free := by
  rw [← h.node] at hi ⊢
  exact Store.node_of_not_alloc (Store.node_type_free.mp hi)

theorem Node.dropLink_addLink (n : Node) : n.addLink.dropLink = n := by
  show ({ n with nlink := n.nlink + 1 - 1 } : Node) = n
  rw [Int16.add_sub_cancel]

/-- The inode `i` may be freed if it has no links. -/
def MayFree (i : Nat) (N N' : Nat → Node) : Prop := N' = N ∨ (N i).nlink = 0 ∧ N' = update N i .free

/-! ## link -/

/-- The name of the inode `i` is added to a directory in `S`. -/
def AddsName (S : Nat → Prop) (i : Nat) (N N' : Nat → Node) : Prop :=
  ∃ d k name, S d ∧ (N d).HasRoom name k ∧
    N' = update (update N i (N i).addLink) d ((N d).setSlot k ⟨i, name⟩)

theorem wp_linkBad (hE : Allows m E) (h : Ctx m sb B [(e, i)] [] N s) (hno : (N i).type = .free → E .ilockNoType)
    (hk : m.exact → Kept B [] (update N i (N i).dropLink) e i)
    (hQ : ∀ t N', (m.exact → N' = update N i (N i).dropLink) → Ctx m sb B [] [] N' t → Q false t) :
    wp (linkBad sb e) Q E s := by
  rw [linkBad, wp_bind]
  refine wp_ilock h .head nofun hno fun t1 _ h1 => ?_
  refine wp_nlink hE.log h1 .head List.mem_cons_self (· - 1) fun t2 h2 => ?_
  refine wp_unlockput hE.log h2 List.not_mem_nil hk fun t3 N3 hN3 h3 => ?_
  exact wp_endOp h3 fun t4 h4 => hQ t4 N3 hN3 h4

theorem wp_linkName (hsb : Layout sb) (hE : Allows m E) (h : Ctx m sb B [(e, i)] [] N s) (hcwd : 0 < B.cnt cwd)
    (hS : m.exact → Walks m B cwd N S) (htype : (N i).type ≠ .free)
    (hk : m.exact → Kept B [] (update N i (N i).dropLink) e i) (new : List UInt8)
    (hfalse : ∀ t N', (m.exact → N' = update N i (N i).dropLink) → Ctx m sb B [] [] N' t → Q false t)
    (htrue : ∀ t N', (m.exact → ∃ d k name, S d ∧ (N d).HasRoom name k ∧
      MayFree i (update N d ((N d).setSlot k ⟨i, name⟩)) N') → Ctx m sb B [] [] N' t → Q true t) :
    wp (do
      match ← nameiparent sb cwd new with
      | none => linkBad sb e
      | some (dp, name) =>
        ilock dp
        if ← dirlink sb dp name ((← get).itable e).inum then
          iunlockput sb dp
          iput sb e
          endOp
          return true
        else
          iunlockput sb dp
          linkBad sb e) Q E s := by
  have hbad : ∀ t N', (m.exact → N' = N) → Ctx m sb B [(e, i)] [] N' t → wp (linkBad sb e) Q E t := by
    intro t N' hN' ht
    refine wp_linkBad hE ht (fun hfree => hE.type.resolve_right fun hs => ?_) (fun hm => ?_) fun u N₂ hN₂ hu => ?_
    · rw [hN' (m.exact_of_safe hs)] at hfree
      exact htype hfree
    · rw [hN' hm]
      exact hk hm
    · exact hfalse u N₂ (fun hm => by rw [hN₂ hm, hN' hm]) hu
  rw [wp_bind]
  refine wp_nameiparent hsb h hcwd new (fun hm => ⟨(hS hm).closed, (hS hm).start new⟩)
    (hE.walk fun hm => (hS hm).closed) (fun _ => hE.log) (.inl hE.full)
    (fun s1 N1 hex h1 => hbad s1 N1 (fun hm => (hex hm).1) h1) fun dp d name s1 N1 hex h1 => ?_
  show wp (ilock dp >>= _) Q E s1
  rw [wp_bind]
  refine wp_ilock h1 .head nofun (hE.noType (fun hm => (hS hm).closed) fun hm => ⟨by rw [(hex hm).1], (hex hm).2.2.2⟩)
    fun s2 _ h2 => ?_
  rw [wp_bind, wp_get, h2.inum (.cons .head), wp_bind]
  refine wp_dirlink hsb hE.log h2 .head List.mem_cons_self hE.dir (fun _ => hE.full) name
    (h2.range (.cons .head)) (fun hs k hused => ?_) (fun s3 hdir hnew h0 hle _ h3 => ?_) fun s3 N3 hN3 _ h3 => ?_
  · have hm := m.exact_of_safe hs
    obtain ⟨rfl, hres, -, hd⟩ := hex hm
    exact (hS hm).closed.alloc hs _ ((hS hm).closed.next d k hd (resolveParent_eq_some.mp hres).2.2 hused)
  · set X := update N1 d ((N1 d).setSlot (N1 d).freeSlot ⟨i, name⟩) with hX
    refine wp_unlockput hE.log h3 List.not_mem_nil (fun hm => ?_) fun s4 N4 hN4 h4 => ?_
    · refine (hex hm).2.2.1.congr ?_ ?_
      · rw [hX, update_self, Node.setSlot_nlink]
      · rw [hX, update_self, Node.setSlot_type]
    have hrel : m.exact → ∃ d k name, S d ∧ (N d).HasRoom name k ∧
        N4 = update N d ((N d).setSlot k ⟨i, name⟩) := by
      intro hm
      obtain ⟨rfl, -, -, hd⟩ := hex hm
      exact ⟨d, _, name, hd, ⟨hdir, hnew, h0, hle⟩, hN4 hm⟩
    rw [wp_bind]
    refine wp_iput h4 nofun (fun _ => hE.log) (fun s5 _ h5 => ?_) fun s5 hnk h5 => ?_
    · refine wp_endOp h5 fun t ht => htrue t N4 (fun hm => ?_) ht
      obtain ⟨d, k, name, hd, hroom, heq⟩ := hrel hm
      exact ⟨d, k, name, hd, hroom, .inl heq⟩
    · refine wp_endOp h5 fun t ht => htrue t _ (fun hm => ?_) ht
      obtain ⟨d, k, name, hd, hroom, heq⟩ := hrel hm
      refine ⟨d, k, name, hd, hroom, .inr ⟨?_, by rw [heq]⟩⟩
      rw [← heq]
      by_contra hn
      exact hnk (.inr (.inr (.inl hn)))
  · show wp (iunlockput sb dp >>= _) Q E s3
    refine wp_unlockput hE.log h3 List.not_mem_nil (fun hm => ?_) fun s4 N4 hN4 h4 => ?_
    · rw [hN3 hm]
      exact (hex hm).2.2.1
    · exact hbad s4 N4 (fun hm => (hN4 hm).trans ((hN3 hm).trans (hex hm).1)) h4

/-- `link` adds a name for the inode that the old path leads to, or fails and changes nothing. -/
theorem wp_sysLink (hsb : Layout sb) (hE : Allows m E) (h : Ctx m sb B [] [] N s) (hcwd : 0 < B.cnt cwd)
    (hS : m.exact → Walks m B cwd N S) (old new : Option (List UInt8))
    (hfalse : ∀ t N', (m.exact → N' = N) → Ctx m sb B [] [] N' t → Q false t)
    (htrue : ∀ t N', (m.exact → ∃ path i, argstr old = some path ∧
      resolve N (startOf B cwd path) (components path) = some i ∧ S i ∧ (N i).type ≠ .free ∧ (N i).type ≠ .dir ∧
      ∃ X, AddsName S i N X ∧ MayFree i X N') → Ctx m sb B [] [] N' t → Q true t) :
    wp (sysLink sb cwd old new) Q E s := by
  rw [sysLink]
  cases hold : argstr old with
  | none => exact hfalse s N (fun _ => rfl) h
  | some old =>
  cases argstr new with
  | none => exact hfalse s N (fun _ => rfl) h
  | some new =>
  refine wp_beginOp h fun s1 h1 => ?_
  rw [wp_bind]
  refine wp_namei hsb h1 hcwd old (fun hm => ⟨(hS hm).closed, (hS hm).start old⟩) (hE.walk fun hm => (hS hm).closed)
    (fun _ => hE.log) (.inl hE.full) (fun s2 N2 hex h2 => ?_) fun e i s2 N2 hex h2 => ?_
  · exact wp_endOp h2 fun t ht => hfalse t N2 (fun hm => (hex hm).1) ht
  have hno : (N2 i).type = .free → E .ilockNoType :=
    hE.noType (fun hm => (hS hm).closed) fun hm => ⟨by rw [(hex hm).1], (hex hm).2.2.2⟩
  show wp (ilock e >>= _) Q E s2
  rw [wp_bind]
  refine wp_ilock h2 .head nofun hno fun s3 _ h3 => ?_
  show wp (if (s3.itable e).copy.type = .dir then _ else _) Q E s3
  rw [h3.copy_type .head List.mem_cons_self, wp_ite]
  refine ⟨fun hdir => ?_, fun hdir => ?_⟩
  · -- a directory gets no second name
    refine wp_unlockput hE.log h3 List.not_mem_nil (fun hm => (hex hm).2.2.1) fun s4 N4 hN4 h4 => ?_
    exact wp_endOp h4 fun t ht => hfalse t N4 (fun hm => (hN4 hm).trans (hex hm).1) ht
  have htype := h3.type_ne .head List.mem_cons_self
  refine wp_nlink hE.log h3 .head List.mem_cons_self (· + 1) fun s4 h4 => ?_
  rw [wp_bind]
  refine wp_iunlock h4 List.not_mem_nil fun s5 h5 => ?_
  obtain ⟨N5, hN5⟩ : ∃ X, X = update N2 i (N2 i).addLink := ⟨_, rfl⟩
  replace h5 : Ctx m sb B [(e, i)] [] N5 s5 := hN5 ▸ h5
  have hself : N5 i = (N2 i).addLink := by rw [hN5, update_self]
  have hbytes : ∀ j, (N5 j).type = (N2 j).type ∧ (N5 j).bytes = (N2 j).bytes := by
    intro j
    by_cases hj : j = i
    · rw [hj, hself]
      exact ⟨rfl, rfl⟩
    · rw [hN5, update_of_ne hj]
      exact ⟨rfl, rfl⟩
  have hback : update N5 i (N5 i).dropLink = N2 := by
    rw [hself, hN5, update_idem, Node.dropLink_addLink, update_eq_self]
  refine wp_linkName (S := S) hsb hE h5 hcwd (fun hm => ?_) (by rwa [(hbytes i).1]) (fun hm => ?_) new
    (fun t N' hN' ht => ?_) fun t N' hrel ht => ?_
  · obtain ⟨rfl, -⟩ := hex hm
    exact (hS hm).congr (fun j => (hbytes j).1) fun j => (hbytes j).2
  · rw [hback]
    exact (hex hm).2.2.1
  · exact hfalse t N' (fun hm => by rw [hN' hm, hback, (hex hm).1]) ht
  · refine htrue t N' (fun hm => ?_) ht
    obtain ⟨rfl, hres, -, hi⟩ := hex hm
    obtain ⟨d, k, name, hd, hroom, hfree⟩ := hrel hm
    have hne : d ≠ i := by
      rintro rfl
      exact hdir ((hbytes d).1 ▸ hroom.dir)
    have hNd : N5 d = N2 d := by rw [hN5, update_of_ne hne]
    rw [hNd] at hroom hfree
    refine ⟨old, i, hold, hres, hi, htype, hdir, _, ⟨d, k, name, hd, hroom, rfl⟩, ?_⟩
    rwa [hN5] at hfree

/-! ## unlink -/

theorem wp_unlockput_free {α : Type} {Q : α → Fs → Prop} (hE : LogFails E) (h : Ctx m sb B ((e, i) :: R) (e :: L) N s)
    (hl : e ∉ L) {k : M α} (hQ : ∀ t N', MayFree i N N' → Ctx m sb B R L N' t → wp k Q E t) :
    wp (do iunlockput sb e; k) Q E s := by
  rw [wp_bind]
  refine wp_iunlockput h hl (fun _ => hE) (fun t _ ht => hQ t N (.inl rfl) ht) fun t hnk ht => ?_
  refine hQ t _ (.inr ⟨?_, rfl⟩) ht
  by_contra hn
  exact hnk (.inr (.inr (.inl hn)))

theorem MayFree.nodeFrees (h : MayFree i N N') : NodeFrees N N' := by
  rcases h with rfl | ⟨h0, rfl⟩
  · exact .refl
  · exact .single ⟨i, h0, rfl⟩

theorem MayFree.update {n : Node} (h : MayFree d N N') (hne : i ≠ d) :
    MayFree d (update N i n) (update N' i n) := by
  rcases h with rfl | ⟨h0, rfl⟩
  · exact .inl rfl
  · refine .inr ⟨?_, update_comm hne.symm ..⟩
    rwa [update_of_ne hne.symm]

theorem MayFree.other (h : MayFree d N N') (hne : i ≠ d) : N' i = N i := by
  rcases h with rfl | ⟨-, rfl⟩
  · rfl
  · rw [update_of_ne hne]

theorem wp_unlinkEnd (hE : LogFails E) {ip : Ptr} (h : Ctx m sb B [(ip, i), (dp, d)] [ip, dp] N s) (hne : ip ≠ dp)
    (hid : i ≠ d)
    (hQ : ∀ t N', (∃ Y, MayFree d (update N i (N i).dropLink) Y ∧ MayFree i Y N') → Ctx m sb B [] [] N' t →
      Q true t) :
    wp (do
      iunlockput sb dp
      assign ip fun d => { d with nlink := d.nlink - 1 }
      iupdate sb ip
      iunlockput sb ip
      endOp
      return true) Q E s := by
  have hswap : Ctx m sb B [(dp, d), (ip, i)] [dp, ip] N s := h.perm (.swap ..) (.swap ..)
  refine wp_unlockput_free hE hswap (by simpa using hne.symm) fun t1 N1 hf1 h1 => ?_
  refine wp_nlink hE h1 .head List.mem_cons_self (· - 1) fun t2 h2 => ?_
  refine wp_unlockput_free hE h2 List.not_mem_nil fun t3 N3 hf3 h3 => ?_
  refine wp_endOp h3 fun t4 h4 => hQ t4 N3 ⟨_, hf1.update hid, ?_⟩ h4
  rwa [← hf1.other hid]

theorem wp_unlinkEntry {H : Int16 → Prop} (hsb : Layout sb) (hE : Allows m E) {ip : Ptr}
    (h : Ctx m sb B [(ip, i), (dp, d)] [ip, dp] N s) (hne : ip ≠ dp) {k : Nat} (hname : (N d).HasName k)
    (hk : (N d).slotInum k = i) (hlinks : 1 ≤ (N i).nlink)
    (hempty : (N i).type = .dir → ∀ k, 2 ≤ k → (N i).slotInum k = 0)
    (hQ : ∀ t N', Changes (· = d) H N N' → Ctx m sb B [] [] N' t → Q true t) :
    wp (unlinkEntry sb dp ip (16 * k)) Q E s := by
  have hid : i ≠ d := fun hid => hne (h.uniq .head (hid ▸ .cons .head))
  have htype := h.type_ne .head List.mem_cons_self
  have hpos : 0 < sb.ninodes := Nat.lt_of_le_of_lt (Nat.zero_le _) hsb.root_lt
  rw [unlinkEntry, wp_bind]
  refine wp_writeDirent hsb hE.log h (.cons .head) (List.mem_cons_of_mem _ List.mem_cons_self) hpos
    (by have := hname.lt; omega) (fun t1 _ h1 => ?_) fun t1 _ _ => hE.rest _ nofun nofun nofun
  have hXi : update N d ((N d).setSlot k ⟨0, []⟩) i = N i := update_of_ne hid ..
  show wp (copyOf ip >>= _) Q E t1
  show wp (do
    if (t1.itable ip).copy.type = .dir then
      assign dp fun d => { d with nlink := d.nlink - 1 }
      iupdate sb dp
    else pure ()
    _) Q E t1
  rw [h1.copy_type .head List.mem_cons_self, hXi]
  by_cases hdir : (N i).type = .dir
  · rw [if_pos hdir]
    refine wp_nlink hE.log h1 (.cons .head) (List.mem_cons_of_mem _ List.mem_cons_self) (· - 1) fun t2 h2 => ?_
    rw [update_self, update_idem] at h2
    refine wp_unlinkEnd hE.log h2 hne hid fun t N' ⟨Y, hY, hN'⟩ ht => hQ t N' ?_ ht
    rw [update_of_ne hid] at hY
    exact ⟨_, .rmdir rfl hid.symm hname hk hdir hlinks (hempty hdir), hY.nodeFrees.trans hN'.nodeFrees⟩
  · rw [if_neg hdir]
    refine wp_unlinkEnd hE.log h1 hne hid fun t N' ⟨Y, hY, hN'⟩ ht => hQ t N' ?_ ht
    rw [hXi] at hY
    exact ⟨_, .unlink rfl hname hk htype hdir hlinks, hY.nodeFrees.trans hN'.nodeFrees⟩

theorem wp_unlinkBad (hE : LogFails E) (h : Ctx m sb B [(dp, d)] [dp] N s) (hk : m.exact → Kept B [] N dp d)
    (hQ : ∀ t N', (m.exact → N' = N) → Ctx m sb B [] [] N' t → Q false t) :
    wp (unlinkBad sb dp) Q E s := by
  refine wp_unlockput hE h List.not_mem_nil hk fun t1 N1 hN1 h1 => ?_
  exact wp_endOp h1 fun t ht => hQ t N1 hN1 ht

/-- `unlink` removes a name, or fails and changes nothing. -/
theorem wp_sysUnlink {H : Int16 → Prop} (hsb : Layout sb) (hE : Allows m E) (h : Ctx m sb B [] [] N s)
    (hcwd : 0 < B.cnt cwd) (hS : m.exact → Walks m B cwd N S)
    (hlow : ∀ N' d k, (m.exact → N' = N ∧ S d) → (N' d).HasName k → (N' ((N' d).slotInum k)).nlink < 1 →
      E .unlinkNlink) (path : Option (List UInt8))
    (hfalse : ∀ t N', (m.exact → N' = N) → Ctx m sb B [] [] N' t → Q false t)
    (htrue : ∀ t N', (m.exact → Changes S H N N') → Ctx m sb B [] [] N' t → Q true t) :
    wp (sysUnlink sb cwd path) Q E s := by
  rw [sysUnlink]
  cases argstr path with
  | none => exact hfalse s N (fun _ => rfl) h
  | some path =>
  refine wp_beginOp h fun s1 h1 => ?_
  rw [wp_bind]
  refine wp_nameiparent hsb h1 hcwd path (fun hm => ⟨(hS hm).closed, (hS hm).start path⟩)
    (hE.walk fun hm => (hS hm).closed) (fun _ => hE.log) (.inl hE.full) (fun s2 N2 hex h2 => ?_)
    fun dp d name s2 N2 hex h2 => ?_
  · exact wp_endOp h2 fun t ht => hfalse t N2 (fun hm => (hex hm).1) ht
  have hbad : ∀ t N3, (m.exact → N3 = N2) → Ctx m sb B [(dp, d)] [dp] N3 t → wp (unlinkBad sb dp) Q E t := by
    intro t N3 hN3 ht
    refine wp_unlinkBad hE.log ht (fun hm => ?_) fun u N4 hN4 hu => hfalse u N4 (fun hm => ?_) hu
    · rw [hN3 hm]
      exact (hex hm).2.2.1
    · rw [hN4 hm, hN3 hm, (hex hm).1]
  have hd : m.exact → N2 = N ∧ S d := fun hm => ⟨(hex hm).1, (hex hm).2.2.2⟩
  have hnext : ∀ k, (N2 d).type = .dir → (N2 d).slotInum k ≠ 0 → m.exact → N2 = N ∧ S ((N2 d).slotInum k) := by
    intro k hdir hused hm
    obtain ⟨rfl, hmem⟩ := hd hm
    exact ⟨rfl, (hS hm).closed.next d k hmem hdir hused⟩
  show wp (ilock dp >>= _) Q E s2
  rw [wp_bind]
  refine wp_ilock h2 .head nofun (hE.walk (fun hm => (hS hm).closed) N2 d hd).1 fun s3 _ h3 => ?_
  rw [wp_ite]
  refine ⟨fun _ => hbad s3 N2 (fun _ => rfl) h3, fun hdots => ?_⟩
  rw [wp_bind]
  refine wp_dirlookup h3 .head List.mem_cons_self hE.dir (fun _ => hE.full) name (fun hs k hused => ?_)
    (fun _ _ => hbad s3 N2 (fun _ => rfl) h3) fun k ip s4 hf => ?_
  · have hm := m.exact_of_safe hs
    have hdir := (resolveParent_eq_some.mp (hex hm).2.1).2.2
    rw [← (hex hm).1] at hdir
    obtain ⟨rfl, hmem⟩ := hnext k hdir hused hm
    exact (hS hm).closed.alloc hs _ hmem
  have hused := hf.names.1
  have hname : (N2 d).HasName k := by
    refine ⟨hf.dir, (Node.slot?_eq_some.mp hf.slot).1, hused, ?_⟩
    have heq := Node.namecmp_iff.mp hf.names.2
    rw [← heq]
    exact ⟨fun hc => hdots (.inl (Node.namecmp_iff.mpr hc)), fun hc => hdots (.inr (Node.namecmp_iff.mpr hc))⟩
  obtain ⟨i, hi⟩ : ∃ i, (N2 d).slotInum k = i := ⟨_, rfl⟩
  have h4 : Ctx m sb B [(ip, i), (dp, d)] [dp] N2 s4 := hi ▸ hf.ctx
  show wp (ilock ip >>= _) Q E s4
  rw [wp_bind]
  refine wp_ilock h4 .head (fun _ => hE.blocked)
    (hE.walk (fun hm => (hS hm).closed) N2 i (hi ▸ hnext k hf.dir hused)).1 fun s5 hnot h5 => ?_
  have hne : ip ≠ dp := by simpa using hnot
  rw [wp_bind]
  show wp (if (s5.itable ip).copy.nlink < 1 then _ else _) Q E s5
  rw [h5.copy_nlink .head List.mem_cons_self, wp_ite]
  refine ⟨fun hlt => hlow N2 d k hd hname (hi.symm ▸ hlt), fun hge => ?_⟩
  have hlinks : 1 ≤ (N2 i).nlink := Int16.not_lt.mp hge
  have hentry : ((N2 i).type = .dir → ∀ k, 2 ≤ k → (N2 i).slotInum k = 0) →
      wp (unlinkEntry sb dp ip (16 * k)) Q E s5 := fun hempty => by
    refine wp_unlinkEntry (H := H) hsb hE h5 hne hname hi hlinks hempty fun t N' hsteps ht => htrue t N' (fun hm => ?_) ht
    obtain ⟨rfl, hmem⟩ := hd hm
    exact hsteps.mono fun _ heq => heq ▸ hmem
  show wp (if (s5.itable ip).copy.type = .dir then _ else _) Q E s5
  rw [h5.copy_type .head List.mem_cons_self, wp_ite]
  refine ⟨fun _ => ?_, fun hnd => hentry fun hdir => absurd hdir hnd⟩
  rw [wp_bind]
  refine (h5.shows .head List.mem_cons_self).wp_isdirempty hE.dir (fun hempty => hentry fun _ => hempty) fun _ _ _ => ?_
  show wp (iunlockput sb ip >>= _) Q E s5
  refine wp_unlockput hE.log h5 (by simpa using hne) (fun hm => ?_) fun s6 N6 hN6 h6 => hbad s6 N6 hN6 h6
  exact hi ▸ hf.kept hm

/-! ## create -/

namespace Fresh

variable {type : InodeType}

theorem unused (h : Fresh m sb B R L N type e i t) : B.cnt e = 0 ∧ e ∉ R.map Prod.fst := by
  obtain ⟨s, _, hc, href, -⟩ := h.from_
  rw [hc.ref] at href
  exact ⟨by omega, List.count_eq_zero.mp (by omega)⟩

theorem node (h : Fresh m sb B R L N type e i t) : N i = .free := by
  obtain ⟨s, _, hc, -⟩ := h.from_
  exact hc.node_free h.free

theorem wp_then {α : Type} {Q : α → Fs → Prop} (hE : LogFails E) (h : Fresh m sb B R L N type e i t)
    (major minor : Int16) {k : M α}
    (hQ : ∀ u, Ctx m sb B ((e, i) :: R) (e :: L) (update N i (.fresh type major minor)) u → wp k Q E u) :
    wp (do
      ilock e
      assign e fun d => { d with major := major, minor := minor, nlink := 1 }
      iupdate sb e
      k) Q E t := by
  have hinit := wp_init hE h major minor (Q := fun _ u => wp k Q E u) fun u _ hu => hQ u hu
  rw [wp_bind] at hinit ⊢
  refine hinit.mono fun _ u hu => ?_
  rw [wp_bind] at hu ⊢
  exact hu.mono fun _ v hv => wp_bind.mpr hv

end Fresh

theorem wp_createFail (hE : LogFails E) {ip : Ptr} (h : Ctx m sb B [(ip, i), (dp, d)] [ip, dp] N s) (hne : ip ≠ dp)
    (hnew : B.cnt ip = 0) (hk : m.exact → Kept B [] (update N i .free) dp d) {Q : Option Ptr → Fs → Prop}
    (hQ : ∀ t N', (m.exact → N' = update N i .free) → Ctx m sb B [] [] N' t → Q none t) :
    wp (createFail sb dp ip) Q E s := by
  have hput : ∀ t N', (m.exact → N' = update N i .free) → Ctx m sb B [(dp, d)] [dp] N' t →
      wp (do iunlockput sb dp; return none) Q E t := by
    intro t N' hN' ht
    refine wp_unlockput hE ht List.not_mem_nil (fun hm => ?_) fun u N'' hN'' hu => hQ u N'' (fun hm => ?_) hu
    · rw [hN' hm]
      exact hk hm
    · rw [hN'' hm, hN' hm]
  refine wp_nlink hE h .head List.mem_cons_self (fun _ => 0) fun t1 h1 => ?_
  rw [wp_bind]
  refine wp_iunlockput h1 (by simpa using hne) (fun _ => hE) (fun t2 hkept h2 => ?_) fun t2 _ h2 => ?_
  · -- the entry is the only reference, and there is no link
    refine hput t2 _ (fun hm => ?_) h2
    rcases hkept hm with hb | hR | hn | ht
    · omega
    · exact absurd (by simpa using hR) hne
    · rw [update_self] at hn
      exact absurd rfl hn
    · exact absurd ht (h1.type_ne .head List.mem_cons_self)
  · refine hput t2 _ (fun _ => ?_) h2
    rw [update_idem]

theorem Node.fresh_slotInum {type : InodeType} {major minor : Int16} (k : Nat) :
    (Node.fresh type major minor).slotInum k = 0 := rfl

theorem Node.fresh_freeSlot {type : InodeType} {major minor : Int16} :
    (Node.fresh type major minor).freeSlot = 0 := by
  have hle : (Node.fresh type major minor).freeSlot ≤ 0 / 16 := Node.freeSlot_le
  omega

theorem Node.freeSlot_dot {n : Node} (hn : n.size = 0) (hi : i % 2 ^ 16 ≠ 0) :
    (n.setSlot 0 ⟨i, dot⟩).freeSlot = 1 := by
  have hsize : (n.setSlot 0 ⟨i, dot⟩).size = 16 := by
    show max n.size 16 = 16
    rw [hn]
    rfl
  rcases Node.freeSlot_cases with ⟨hlt, h0, -⟩ | ⟨heq, -⟩
  · rw [hsize] at hlt
    have hz : (n.setSlot 0 ⟨i, dot⟩).freeSlot = 0 := by omega
    rw [hz, Node.slotInum_setSlot] at h0
    exact absurd h0 hi
  · rw [heq, hsize]

/-- What `create` has done when it made an inode in the directory `d`. -/
def Creates (sb : Superblock) (H : Int16 → Prop) (d : Nat) (type : InodeType) (major minor : Int16)
    (N N' : Nat → Node) : Prop :=
  sb.ninodes ≤ 2 ^ 16 → (type = .dir → major = 0 ∧ minor = 0 ∧ H (N d).nlink) → Changes (· = d) H N N'

/-- The inode `i` is new. -/
structure Made (type : InodeType) (i : Nat) (N N' : Nat → Node) : Prop where
  wasFree : (N i).type = .free
  typed : (N' i).type = type
  linked : type ≠ .dir → (N' i).nlink = 1

theorem resolve_of_resolveParent {names : List (List UInt8)} {d : Nat} {name : List UInt8}
    (h : resolveParent N i names = some (d, name)) : resolve N i names = (N d).bindings name := by
  obtain ⟨hlast, hres, hdir⟩ := resolveParent_eq_some.mp h
  rcases names.eq_nil_or_concat' with rfl | ⟨pre, last, rfl⟩
  · cases hlast
  · rw [List.getLast?_concat] at hlast
    obtain rfl := Option.some.inj hlast
    rw [List.dropLast_concat] at hres
    rw [resolve_append, hres, Option.bind_some, resolve_cons, lookupIn, if_pos hdir]
    cases (N d).bindings last <;> rfl

section

variable {H : Int16 → Prop} {type : InodeType} {ip : Ptr} {major minor : Int16} {Q : Option Ptr → Fs → Prop}
  (hsb : Layout sb) (hE : Allows m E)
include hsb hE

theorem wp_newName {n : Node}
    (h : Ctx m sb B [(ip, i), (dp, d)] [ip, dp] (update N i n) s) (hid : i ≠ d) (hn : n.type ≠ .free)
    (hsafe : m.safe → ∀ k, (N d).slotInum k ≠ 0 → (N ((N d).slotInum k)).type ≠ .free) (name : List UInt8)
    {k k' : M (Option Ptr)}
    (hfail : ∀ t N', (m.exact → ∃ n, N' = update N i n) → Ctx m sb B [(ip, i), (dp, d)] [ip, dp] N' t →
      wp k' Q E t)
    (hdone : ∀ t k₀, (N d).HasRoom name k₀ → Ctx m sb B [(ip, i), (dp, d)] [ip, dp]
      (update (update N i n) d ((N d).setSlot k₀ ⟨i, name⟩)) t → wp k Q E t) :
    wp (do
      if ← dirlink sb dp name ((← get).itable ip).inum then k else k') Q E s := by
  have hNd : update N i n d = N d := update_of_ne hid.symm ..
  rw [wp_bind, wp_get, h.inum .head, wp_bind]
  refine wp_dirlink hsb hE.log h (.cons .head) (List.mem_cons_of_mem _ List.mem_cons_self) hE.dir (fun _ => hE.full)
    name (h.range .head) (fun hs k hk => ?_) (fun t1 hdir hnew h0 hle _ h1 => ?_)
    fun t1 N1 hN1 _ h1 => hfail t1 N1 (fun hm => ⟨n, hN1 hm⟩) h1
  · rw [hNd] at hk ⊢
    by_cases heq : (N d).slotInum k = i
    · rw [heq, update_self]
      exact hn
    · rw [update_of_ne heq]
      exact hsafe hs k hk
  · rw [hNd] at hdir hnew h0 hle h1
    exact hdone t1 _ ⟨hdir, hnew, h0, hle⟩ h1

variable (hsmall : m.safe → sb.ninodes ≤ 2 ^ 16)
include hsmall

theorem wp_newDots (h : Ctx m sb B [(ip, i), (dp, d)] [ip, dp] (update N i (.fresh .dir major minor)) s)
    (hpos : 0 < i) {k k' : M (Option Ptr)}
    (hfail : ∀ t N', (m.exact → ∃ n, N' = update N i n) → Ctx m sb B [(ip, i), (dp, d)] [ip, dp] N' t →
      wp k' Q E t)
    (hdone : ∀ t n, n.type = .dir →
      (sb.ninodes ≤ 2 ^ 16 → n = ((Node.fresh .dir major minor).setSlot 0 ⟨i, dot⟩).setSlot 1 ⟨d, dotdot⟩) →
      Ctx m sb B [(ip, i), (dp, d)] [ip, dp] (update N i n) t → wp k Q E t) :
    wp (do
      if ← dirlink sb ip dot ((← get).itable ip).inum then
        if ← dirlink sb ip dotdot ((← get).itable dp).inum then k else k'
      else k') Q E s := by
  have hself : ∀ n, update N i n i = n := fun n => update_self ..
  have hlt : sb.ninodes ≤ 2 ^ 16 → i % 2 ^ 16 = i := fun hs =>
    Nat.mod_eq_of_lt (Nat.lt_of_lt_of_le (h.range .head) hs)
  rw [wp_bind, wp_get, h.inum .head, wp_bind]
  refine wp_dirlink hsb hE.log h .head List.mem_cons_self hE.dir (fun _ => hE.full) dot (h.range .head)
    (fun _ k hk => ?_) (fun t1 _ _ _ _ _ h1 => ?_) fun t1 N1 hN1 _ h1 => hfail t1 N1 (fun hm => ⟨_, hN1 hm⟩) h1
  · rw [hself] at hk
    exact absurd (Node.fresh_slotInum k) hk
  rw [hself, update_idem, Node.fresh_freeSlot] at h1
  show wp (get >>= _) Q E t1
  rw [wp_bind, wp_get, h1.inum (.cons .head), wp_bind]
  refine wp_dirlink hsb hE.log h1 .head List.mem_cons_self hE.dir (fun _ => hE.full) dotdot (h1.range (.cons .head))
    (fun hs k hk => ?_) (fun t2 hdir _ _ _ _ h2 => ?_) fun t2 N2 hN2 _ h2 => hfail t2 N2 (fun hm => ⟨_, hN2 hm⟩) h2
  · have hk0 : k = 0 := by
      by_contra hne
      rw [hself, Node.slotInum_setSlot_of_ne hne] at hk
      exact hk (Node.fresh_slotInum k)
    rw [hk0, hself, Node.slotInum_setSlot, hlt (hsmall hs), hself]
    nofun
  · rw [hself, update_idem] at h2
    refine hdone t2 _ rfl (fun hs => ?_) h2
    rw [Node.freeSlot_dot rfl (by rw [hlt hs]; omega)]

theorem wp_createNew
    (hf : Fresh m sb B [(dp, d)] [dp] N type ip i s) (hdir : (N d).type = .dir) (hk : m.exact → Kept B [] N dp d)
    (hsafe : m.safe → ∀ k, (N d).slotInum k ≠ 0 → (N ((N d).slotInum k)).type ≠ .free) (name : List UInt8)
    (hnone : ∀ t N', (m.exact → N' = N) → Ctx m sb B [] [] N' t → Q none t)
    (hsome : ∀ t N', (m.exact → Made type i N N' ∧ Creates sb H d type major minor N N') →
      Ctx m sb B [(ip, i)] [ip] N' t → Q (some ip) t) :
    wp (createNew sb dp ip name type major minor) Q E s := by
  obtain ⟨hcnt, hnot⟩ := hf.unused
  have hne : ip ≠ dp := by simpa using hnot
  have hid : i ≠ d := by
    rintro rfl
    rw [hf.free] at hdir
    cases hdir
  have hback : ∀ n, update (update N i n) i .free = N := fun n => by
    rw [update_idem, ← hf.node, update_eq_self]
  have hfail : ∀ t N', (m.exact → ∃ n, N' = update N i n) →
      Ctx m sb B [(ip, i), (dp, d)] [ip, dp] N' t → wp (createFail sb dp ip) Q E t := by
    intro t N' hN' ht
    refine wp_createFail hE.log ht hne hcnt (fun hm => ?_) fun u N'' hN'' hu => hnone u N'' (fun hm => ?_) hu
    · obtain ⟨n, rfl⟩ := hN' hm
      rw [hback]
      exact hk hm
    · obtain ⟨n, rfl⟩ := hN' hm
      rw [hN'' hm, hback]
  refine hf.wp_then hE.log major minor fun u hu => ?_
  by_cases htype : type = .dir
  · subst htype
    refine wp_newDots hsb hE hsmall hu hf.pos hfail fun t1 n hn hdots h1 => ?_
    refine wp_newName hsb hE h1 hid (by rw [hn]; nofun) hsafe name hfail fun t2 k₀ hroom h2 => ?_
    refine wp_nlink hE.log h2 (.cons .head) (List.mem_cons_of_mem _ List.mem_cons_self) (· + 1) fun t3 h3 => ?_
    rw [update_self, update_idem] at h3
    have hswap := h3.perm (.swap ..) (.swap ..)
    refine wp_unlockput_free hE.log hswap (by simpa using hne.symm) fun t4 N4 hf4 h4 =>
      hsome t4 N4 (fun _ => ⟨⟨hf.free, ?_, absurd rfl⟩, fun hs hH => ?_⟩) h4
    · rw [hf4.other hid, update_of_ne hid, update_self, hn]
    obtain ⟨rfl, rfl, hcount⟩ := hH rfl
    rw [hdots hs] at hf4
    exact ⟨_, .mkdir rfl hroom hf.free hf.pos (hf.lt.trans_le hs) hcount, hf4.nodeFrees⟩
  · rw [if_neg htype]
    refine wp_newName hsb hE hu hid hf.typeNe hsafe name hfail fun t2 k₀ hroom h2 => ?_
    have hswap := h2.perm (.swap ..) (.swap ..)
    refine wp_unlockput hE.log hswap (by simpa using hne.symm) (fun hm => (hk hm).cons.congr ?_ ?_)
      fun t3 N3 hN3 h3 => hsome t3 N3 (fun hm => ⟨?_, fun hs _ => ?_⟩) h3
    · rw [update_self, Node.setSlot_nlink]
    · rw [update_self, Node.setSlot_type]
    · have hnode : N3 i = .fresh type major minor := by rw [hN3 hm, update_of_ne hid, update_self]
      exact ⟨hf.free, congrArg Node.type hnode, fun _ => congrArg Node.nlink hnode⟩
    · rw [hN3 hm]
      exact ⟨_, .create rfl hroom hf.free hf.pos (hf.lt.trans_le hs) hf.typeNe htype, .refl⟩

/-- `create` finds a file, or makes an inode with a name; or it fails and changes nothing. -/
theorem wp_create
    (h : Ctx m sb B [] [] N s) (hcwd : 0 < B.cnt cwd) (hS : m.exact → Walks m B cwd N S) (path : List UInt8)
    (htype : type ≠ .free) (major minor : Int16)
    (hnone : ∀ t N', (m.exact → N' = N) → Ctx m sb B [] [] N' t → Q none t)
    (hsome : ∀ e i t N', (m.exact → ∃ d name, S d ∧
      resolveParent N (startOf B cwd path) (components path) = some (d, name) ∧
      ((N d).bindings name = some i ∧ S i ∧ N' = N ∧ Kept B [] N e i ∧ ((N i).type = .file ∨ (N i).type = .device) ∨
        (N d).bindings name = none ∧ Made type i N N' ∧ Creates sb H d type major minor N N')) →
      Ctx m sb B [(e, i)] [e] N' t → Q (some e) t) :
    wp (create sb cwd path type major minor) Q E s := by
  rw [create, wp_bind]
  refine wp_nameiparent hsb h hcwd path (fun hm => ⟨(hS hm).closed, (hS hm).start path⟩)
    (hE.walk fun hm => (hS hm).closed) (fun _ => hE.log) (.inl hE.full)
    (fun s1 N1 hex h1 => hnone s1 N1 (fun hm => (hex hm).1) h1) fun dp d name s1 N1 hex h1 => ?_
  have hd : m.exact → N1 = N ∧ S d := fun hm => ⟨(hex hm).1, (hex hm).2.2.2⟩
  have hnext : ∀ k, (N1 d).type = .dir → (N1 d).slotInum k ≠ 0 → m.exact → N1 = N ∧ S ((N1 d).slotInum k) := by
    intro k hdir hused hm
    obtain ⟨rfl, hmem⟩ := hd hm
    exact ⟨rfl, (hS hm).closed.next d k hmem hdir hused⟩
  have hsafe : (N1 d).type = .dir → m.safe → ∀ k, (N1 d).slotInum k ≠ 0 → (N1 ((N1 d).slotInum k)).type ≠ .free := by
    intro hdir hs k hused
    have hm := m.exact_of_safe hs
    obtain ⟨rfl, hmem⟩ := hnext k hdir hused hm
    exact (hS hm).closed.alloc hs _ hmem
  show wp (ilock dp >>= _) Q E s1
  rw [wp_bind]
  refine wp_ilock h1 .head nofun (hE.walk (fun hm => (hS hm).closed) N1 d hd).1 fun s2 _ h2 => ?_
  rw [wp_bind]
  refine wp_dirlookup h2 .head List.mem_cons_self hE.dir (fun _ => hE.full) name (fun hs => hsafe ?_ hs)
    (fun hdir hno => ?_) fun k ip s3 hf => ?_
  · have hm := m.exact_of_safe hs
    rw [(hex hm).1]
    exact (resolveParent_eq_some.mp (hex hm).2.1).2.2
  · -- the name is new
    show wp (ialloc sb type >>= _) Q E s2
    rw [wp_bind]
    refine wp_ialloc hE.log (fun _ => hE.full) h2 ?_ htype ?_ fun ip i s3 hf => ?_
    · intro x hx
      rw [List.mem_singleton.mp hx, hdir]
      nofun
    · refine wp_unlockput hE.log h2 List.not_mem_nil (fun hm => (hex hm).2.2.1) fun s3 N3 hN3 h3 => ?_
      exact hnone s3 N3 (fun hm => (hN3 hm).trans (hex hm).1) h3
    · refine wp_createNew (H := H) hsb hE hsmall hf hdir (fun hm => (hex hm).2.2.1) (hsafe hdir) name
        (fun t N' hN' ht => hnone t N' (fun hm => (hN' hm).trans (hex hm).1) ht) fun t N' hc ht => ?_
      refine hsome ip i t N' (fun hm => ?_) ht
      obtain ⟨rfl, hmem⟩ := hd hm
      refine ⟨d, name, hmem, (hex hm).2.1, .inr ⟨?_, hc hm⟩⟩
      rw [Node.bindings, Node.slot?_eq_none_of hno]
      rfl
  · -- the name is there
    have hswap := hf.ctx.perm (.swap ..) .rfl
    refine wp_unlockput hE.log hswap List.not_mem_nil (fun hm => (hex hm).2.2.1.cons) fun s4 N4 hN4 h4 => ?_
    have hN4' : m.exact → N4 = N ∧ S ((N1 d).slotInum k) := fun hm =>
      ⟨(hN4 hm).trans (hex hm).1, (hnext k hf.dir hf.names.1 hm).2⟩
    rw [wp_bind]
    refine wp_ilock h4 .head nofun (hE.walk (fun hm => (hS hm).closed) N4 _ hN4').1 fun s5 _ h5 => ?_
    show wp (if type = .file ∧ ((s5.itable ip).copy.type = .file ∨ (s5.itable ip).copy.type = .device) then _ else _) Q E s5
    rw [h5.copy_type .head List.mem_cons_self, wp_ite]
    have hkept : m.exact → Kept B [] N4 ip ((N1 d).slotInum k) := by
      intro hm
      refine ((hf.kept hm).of_cons fun heq => ?_).congr (by rw [hN4 hm]) (by rw [hN4 hm])
      subst heq
      have hinum := hf.ctx.inum (.cons .head)
      rw [hf.ctx.inum .head] at hinum
      rw [hinum]
      exact (hex hm).2.2.1
    refine ⟨fun hfile => hsome ip _ s5 N4 (fun hm => ?_) h5, fun _ => ?_⟩
    · obtain ⟨rfl, hmem⟩ := hd hm
      obtain ⟨rfl, hi⟩ := hN4' hm
      refine ⟨d, name, hmem, (hex hm).2.1, .inl ⟨?_, hi, rfl, hkept hm, hfile.2⟩⟩
      rw [Node.bindings, hf.slot]
      rfl
    · refine wp_unlockput hE.log h5 List.not_mem_nil hkept fun s6 N6 hN6 h6 => ?_
      exact hnone s6 N6 (fun hm => (hN6 hm).trans (hN4' hm).1) h6

/-- The inode that `open` opens is there, or is made. -/
theorem wp_openInode
    (h : Ctx m sb B [] [] N s) (hcwd : 0 < B.cnt cwd) (hS : m.exact → Walks m B cwd N S) (path : List UInt8)
    (creates rdonly : Bool) (hnone : ∀ t N', (m.exact → N' = N) → Ctx m sb B [] [] N' t → Q none t)
    (hsome : ∀ e i t N', (m.exact → N' = N ∧ Kept B [] N e i ∧
        (creates = true → resolve N (startOf B cwd path) (components path) ≠ none) ∨
      creates = true ∧ resolve N (startOf B cwd path) (components path) = none ∧ Made .file i N N') →
      Ctx m sb B [(e, i)] [e] N' t → Q (some e) t) :
    wp (openInode sb cwd path creates rdonly) Q E s := by
  rw [openInode, wp_ite]
  refine ⟨fun hc => ?_, fun _ => ?_⟩
  · have htype : InodeType.file ≠ .free := by decide
    refine wp_create (H := fun _ => True) hsb hE hsmall h hcwd hS path htype 0 0 hnone fun e i t N' hrel ht =>
      hsome e i t N' (fun hm => ?_) ht
    obtain ⟨d, name, -, hres, ⟨hbind, -, heq, hkept, -⟩ | ⟨hno, hmade, -⟩⟩ := hrel hm
    · refine .inl ⟨heq, hkept, fun _ => ?_⟩
      rw [resolve_of_resolveParent hres, hbind]
      exact Option.some_ne_none i
    · exact .inr ⟨hc, (resolve_of_resolveParent hres).trans hno, hmade⟩
  · rw [wp_bind]
    refine wp_namei hsb h hcwd path (fun hm => ⟨(hS hm).closed, (hS hm).start path⟩) (hE.walk fun hm => (hS hm).closed)
      (fun _ => hE.log) (.inl hE.full) (fun t N' hex ht => hnone t N' (fun hm => (hex hm).1) ht) fun e i s1 N1 hex h1 => ?_
    show wp (ilock e >>= _) Q E s1
    rw [wp_bind]
    refine wp_ilock h1 .head nofun
      (hE.walk (fun hm => (hS hm).closed) N1 i fun hm => ⟨(hex hm).1, (hex hm).2.2.2⟩).1 fun s2 _ h2 => ?_
    show wp (if (s2.itable e).copy.type = .dir ∧ !rdonly then _ else _) Q E s2
    rw [wp_ite]
    refine ⟨fun _ => ?_, fun _ => hsome e i s2 N1 (fun hm => .inl ?_) h2⟩
    · refine wp_unlockput hE.log h2 List.not_mem_nil (fun hm => (hex hm).2.2.1) fun t N' hN' ht => ?_
      exact hnone t N' (fun hm => (hN' hm).trans (hex hm).1) ht
    · obtain ⟨rfl, -, hkept, -⟩ := hex hm
      exact ⟨rfl, hkept, fun hc => absurd hc ‹_›⟩

theorem wp_sysMake
    (h : Ctx m sb B [] [] N s) (hcwd : 0 < B.cnt cwd) (hS : m.exact → Walks m B cwd N S) (path : Option (List UInt8))
    (htype : type ≠ .free) (major minor : Int16) {Q : Bool → Fs → Prop}
    (hfalse : ∀ t N', (m.exact → N' = N) → Ctx m sb B [] [] N' t → Q false t)
    (htrue : ∀ t N', (m.exact → N' = N ∨ ∃ path' d name X i, argstr path = some path' ∧ S d ∧
      resolveParent N (startOf B cwd path') (components path') = some (d, name) ∧ Creates sb H d type major minor N X ∧
      MayFree i X N') → Ctx m sb B [] [] N' t → Q true t) :
    wp (sysMake sb cwd path type major minor) Q E s := by
  refine wp_beginOp h fun s1 h1 => ?_
  cases hpath : argstr path with
  | none => exact wp_endOp h1 fun t ht => hfalse t N (fun _ => rfl) ht
  | some path' =>
    rw [wp_bind]
    refine wp_create (H := H) hsb hE hsmall h1 hcwd hS path' htype major minor
      (fun s2 N2 hN2 h2 => wp_endOp h2 fun t ht => hfalse t N2 hN2 ht) fun e i s2 N2 hrel h2 => ?_
    rw [wp_bind]
    refine wp_iunlockput h2 List.not_mem_nil (fun _ => hE.log) (fun s3 _ h3 => ?_) fun s3 hnk h3 => ?_
    · refine wp_endOp h3 fun t ht => htrue t N2 (fun hm => ?_) ht
      obtain ⟨d, name, hd, hres, ⟨-, -, heq, -, -⟩ | ⟨-, -, hcr⟩⟩ := hrel hm
      · exact .inl heq
      · exact .inr ⟨path', d, name, N2, i, hpath, hd, hres, hcr, .inl rfl⟩
    · refine wp_endOp h3 fun t ht => htrue t _ (fun hm => .inr ?_) ht
      obtain ⟨d, name, hd, hres, ⟨-, -, rfl, hkept, -⟩ | ⟨-, -, hcr⟩⟩ := hrel hm
      · exact absurd hkept hnk
      · have hn : (N2 i).nlink = 0 := by
          by_contra hn
          exact hnk (.inr (.inr (.inl hn)))
        exact ⟨path', d, name, N2, i, hpath, hd, hres, hcr, .inr ⟨hn, rfl⟩⟩

end

end Xv6.Fs

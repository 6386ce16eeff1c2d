import Xv6.Fs.Node

/-!
# Truncation

`itrunc` frees the blocks of an inode, each once, and no other block.
-/

namespace Xv6.Fs

open Function Wp

variable {sb : Superblock} {D : Nat → Prop} {s t : Fs} {ip : Ptr} {E : Panic → Prop} {Q : Unit → Fs → Prop}

/-- `bits'` is `bits` after the blocks in the cells of `done` are freed; `p` is what the cells hold. -/
def Freed (p : Nat → Nat) (bits : Nat → Bool) (done : Nat → Prop) (bits' : Nat → Bool) : Prop :=
  ∀ b, bits' b = true ↔ bits b = true ∧ ∀ k, done k → p k ≠ 0 → p k ≠ b

namespace Freed

variable {p : Nat → Nat} {bits bits' : Nat → Bool} {done done' : Nat → Prop} {k : Nat}

theorem nil (hd : ∀ k, ¬ done k) : Freed p bits done bits :=
  fun _ => ⟨fun hb => ⟨hb, fun k hk => absurd hk (hd k)⟩, fun hb => hb.1⟩

theorem skip (h : Freed p bits done bits') (hdone : ∀ k', done' k' → done k' ∨ p k' = 0)
    (hsub : ∀ k', done k' → done' k') : Freed p bits done' bits' := fun b => by
  rw [h b]
  refine and_congr_right fun _ => ⟨fun hne k' hk' h0 => ?_, fun hne k' hk' => hne k' (hsub k' hk')⟩
  rcases hdone k' hk' with hd | hz
  · exact hne k' hd h0
  · exact absurd hz h0

theorem free (h : Freed p bits done bits') (hinj : ∀ k', p k ≠ 0 → p k = p k' → k = k')
    (hk : ¬ done k) (h0 : p k ≠ 0) (hbit : bits (p k) = true) (hdone : ∀ k', done' k' ↔ done k' ∨ k' = k) :
    bits' (p k) = true ∧ Freed p bits done' (update bits' (p k) false) := by
  refine ⟨(h _).mpr ⟨hbit, fun k' hk' _ heq => hk ?_⟩, fun b => ?_⟩
  · rw [hinj k' h0 heq.symm]
    exact hk'
  · by_cases hb : b = p k
    · subst hb
      rw [update_self]
      refine ⟨nofun, fun hne => absurd rfl (hne.2 k ((hdone k).mpr (.inr rfl)) h0)⟩
    · rw [update_of_ne hb, h b]
      refine and_congr_right fun _ => ⟨fun hne k' hk' h0' => ?_, fun hne k' hk' =>
        hne k' ((hdone k').mpr (.inl hk'))⟩
      rcases (hdone k').mp hk' with hd | rfl
      · exact hne k' hd h0'
      · exact Ne.symm hb

end Freed

/-- The state of `itrunc` after the slots of `done` have been freed. -/
structure Truncating (sb : Superblock) (ip : Ptr) (s : Fs) (done : Nat → Prop) (t : Fs) : Prop where
  others : ∀ e, e ≠ ip → t.itable e = s.itable e
  self : t.itable ip = { s.itable ip with
    copy := { (s.itable ip).copy with addrs := (t.itable ip).copy.addrs } }
  isZero : ∀ k : Fin (NDIRECT + 1), done k → (t.itable ip).copy.addrs k = 0
  same : ∀ k : Fin (NDIRECT + 1), ¬ done k → (t.itable ip).copy.addrs k = (s.itable ip).copy.addrs k
  dinode : t.store.dinode = s.store.dinode
  data : t.store.data = s.store.data
  freed : Freed (fun k => (s.view ip).ptr sb ((s.itable ip).inum, k)) s.store.bitmap done t.store.bitmap
  trace : t.trace = s.trace

namespace Truncating

variable {done done' : Nat → Prop}

theorem refl (hd : ∀ k, ¬ done k) : Truncating sb ip s done s :=
  ⟨fun _ _ => rfl, rfl, fun _ hk => absurd hk (hd _), fun _ _ => rfl, rfl, rfl, .nil hd, rfl⟩

theorem skip (h : Truncating sb ip s done t) (hs : Ready sb D ip s)
    (hdone : ∀ k, done' k → done k ∨ (s.view ip).ptr sb ((s.itable ip).inum, k) = 0)
    (hsub : ∀ k, done k → done' k) : Truncating sb ip s done' t := by
  refine ⟨h.others, h.self, fun k hk => ?_, fun k hk => h.same k fun hd => hk (hsub k hd), h.dinode, h.data,
    h.freed.skip hdone hsub, h.trace⟩
  by_cases hd : done k
  · exact h.isZero k hd
  · have h0 := (hdone k hk).resolve_left hd
    rw [hs.ptr_eq, Dinode.slot_of_lt k.isLt] at h0
    exact (h.same k hd).trans h0

/-- The block of a slot is freed, by a `bfree` that does not panic. -/
theorem free (h : Truncating sb ip s done t) (hs : Ready sb D ip s) {k b : Nat} (hk : ¬ done k)
    (hb : (s.view ip).ptr sb ((s.itable ip).inum, k) = b) (hb0 : b ≠ 0)
    (hdone : ∀ k', done' k' ↔ done k' ∨ k' = k) : t.store.bitmap b = true ∧
      Freed (fun k => (s.view ip).ptr sb ((s.itable ip).inum, k)) s.store.bitmap done'
        (update t.store.bitmap b false) := by
  subst hb
  refine h.freed.free (fun k' h0 heq => ?_) hk hb0 (hs.own.owns.isUsed _ hb0) hdone
  exact congrArg Prod.snd (hs.own.owns.inj _ _ h0 heq)

end Truncating

theorem wp_freeAddr (hE : LogFails E) (hs : Ready sb D ip s) {done done' : Nat → Prop}
    (h : Truncating sb ip s done t) {k : Fin (NDIRECT + 1)} (hk : ¬ done k)
    (h0 : (t.itable ip).copy.addrs k ≠ 0) (hdone : ∀ k', done' k' ↔ done k' ∨ k' = k)
    (hQ : ∀ u, Truncating sb ip s done' u → Q () u) :
    wp (do bfree sb ((t.itable ip).copy.addrs k); setAddr ip k 0) Q E t := by
  have hptr : (s.view ip).ptr sb ((s.itable ip).inum, k.val) = (t.itable ip).copy.addrs k := by
    rw [hs.ptr_eq, Dinode.slot_of_lt k.isLt]
    exact (h.same k hk).symm
  obtain ⟨hbit, hfreed⟩ := h.free hs hk hptr h0 hdone
  rw [wp_bind]
  refine wp_bfree hE hbit fun tr => ?_
  rw [setAddr, assign]
  apply hQ
  set u := ({ t with
    store := { t.store with bitmap := update t.store.bitmap ((t.itable ip).copy.addrs k) false }
    trans := tr } : Fs).setCopy ip
      { (t.itable ip).copy with addrs := update (t.itable ip).copy.addrs k 0 } with hu
  have hself : u.itable ip = { t.itable ip with
      copy := { (t.itable ip).copy with addrs := update (t.itable ip).copy.addrs k 0 } } :=
    update_self ..
  refine ⟨fun e he => (update_of_ne he ..).trans (h.others e he), ?_, fun k' hk' => ?_,
    fun k' hk' => ?_, h.dinode, h.data, hfreed, h.trace⟩
  · show u.itable ip = _
    rw [hself, h.self]
  · show (u.itable ip).copy.addrs k' = 0
    rw [hself]
    by_cases hkk : k' = k
    · rw [hkk]
      exact update_self ..
    · refine (update_of_ne hkk ..).trans (h.isZero k' ?_)
      exact ((hdone k').mp hk').resolve_right fun heq => hkk (Fin.ext heq)
  · show (u.itable ip).copy.addrs k' = _
    rw [hself]
    have hkk : k' ≠ k := fun heq => hk' ((hdone k').mpr (.inr (congrArg Fin.val heq)))
    exact (update_of_ne hkk ..).trans (h.same k' fun hd => hk' ((hdone k').mpr (.inl hd)))

theorem wp_truncDirects (hE : LogFails E) (hs : Ready sb D ip s)
    (hQ : ∀ t, Truncating sb ip s (· < NDIRECT) t → Q () t) :
    wp ((List.finRange NDIRECT).forM (truncDirect sb ip)) Q E s := by
  refine wp_forM (fun pre t => Truncating sb ip s (fun k => ∃ i ∈ pre, i.val = k) t)
    (.refl fun k hk => ?_) (fun pre i post hl t ht => ?_) fun t ht => hQ t (ht.skip hs (fun k hk => ?_) ?_)
  · obtain ⟨i, hi, -⟩ := hk
    exact absurd hi List.not_mem_nil
  · have hnd : (pre ++ i :: post).Nodup := hl ▸ List.nodup_finRange NDIRECT
    have hi : ¬ ∃ i' ∈ pre, i'.val = i.castSucc.val := by
      rintro ⟨i', hi', heq⟩
      rw [Fin.ext heq] at hi'
      exact (List.nodup_append.mp hnd).2.2 i hi' i List.mem_cons_self rfl
    have hdone : ∀ k', (∃ i' ∈ pre ++ [i], i'.val = k') ↔ (∃ i' ∈ pre, i'.val = k') ∨ k' = i.castSucc.val := by
      intro k'
      simp only [List.mem_append, List.mem_singleton, or_and_right, exists_or, exists_eq_left]
      exact or_congr_right eq_comm
    show wp (do
      let d ← copyOf ip
      if d.addrs i.castSucc ≠ 0 then do bfree sb (d.addrs i.castSucc); setAddr ip i.castSucc 0
      else pure ()) _ E t
    show wp (if (t.itable ip).copy.addrs i.castSucc ≠ 0 then _ else _) _ E t
    rw [wp_ite]
    refine ⟨fun h0 => wp_freeAddr hE hs ht hi h0 hdone fun u hu => hu, fun h0 => ?_⟩
    refine ht.skip hs (fun k hk => ?_) fun k hk => (hdone k).mpr (.inl hk)
    refine ((hdone k).mp hk).imp_right fun heq => ?_
    subst heq
    rw [hs.ptr_eq, Dinode.slot_of_lt i.castSucc.isLt]
    exact (ht.same i.castSucc hi).symm.trans (not_not.mp h0)
  · exact .inl ⟨⟨k, hk⟩, List.mem_finRange _, rfl⟩
  · rintro k ⟨i, -, rfl⟩
    exact i.isLt

theorem wp_truncIndirects (hE : LogFails E) (hs : Ready sb D ip s) (h : Truncating sb ip s (· < NDIRECT) t)
    {ind : Nat} (hind : (s.itable ip).copy.addrs (Fin.last NDIRECT) = ind) (hind0 : ind ≠ 0)
    (hQ : ∀ u, Truncating sb ip s (· ≠ NDIRECT) u → Q () u) :
    wp ((List.range NINDIRECT).forM (truncIndirect sb (s.store.data ind))) Q E t := by
  have hptr : ∀ j < NINDIRECT, (s.view ip).ptr sb ((s.itable ip).inum, NDIRECT + 1 + j) =
      ((s.store.data ind).getUint (4 * j)).toNat := by
    intro j hj
    rw [hs.ptr_eq, Dinode.slot_of_ge (by omega) (by unfold NSLOT; omega) (hind ▸ hind0), hind,
      Nat.add_sub_cancel_left]
  refine wp_forM (fun pre u => Truncating sb ip s (fun k => k < NDIRECT ∨ ∃ j ∈ pre, NDIRECT + 1 + j = k) u)
    (h.skip hs (fun k hk => ?_) fun k hk => .inl hk) (fun pre j post hl u hu => ?_)
    fun u hu => hQ u (hu.skip hs (fun k hk => ?_) ?_)
  · refine .inl (hk.resolve_right ?_)
    rintro ⟨j, hj, -⟩
    exact absurd hj List.not_mem_nil
  · have hmem : j ∈ List.range NINDIRECT := hl ▸ List.mem_append_right _ List.mem_cons_self
    have hj := List.mem_range.mp hmem
    have hnd : (pre ++ j :: post).Nodup := hl ▸ List.nodup_range
    have hnot : ¬ (NDIRECT + 1 + j < NDIRECT ∨ ∃ j' ∈ pre, NDIRECT + 1 + j' = NDIRECT + 1 + j) := by
      rintro (hlt | ⟨j', hj', heq⟩)
      · omega
      · rw [Nat.add_left_cancel heq] at hj'
        exact (List.nodup_append.mp hnd).2.2 j hj' j List.mem_cons_self rfl
    have hdone : ∀ k, (k < NDIRECT ∨ ∃ j' ∈ pre ++ [j], NDIRECT + 1 + j' = k) ↔
        (k < NDIRECT ∨ ∃ j' ∈ pre, NDIRECT + 1 + j' = k) ∨ k = NDIRECT + 1 + j := by
      intro k
      simp only [List.mem_append, List.mem_singleton, or_and_right, exists_or, exists_eq_left, or_assoc]
      exact or_congr_right (or_congr_right eq_comm)
    rw [truncIndirect, wp_ite]
    refine ⟨fun h0 => ?_, fun h0 => hu.skip hs (fun k hk => ?_) fun k hk => (hdone k).mpr (.inl hk)⟩
    · obtain ⟨hbit, hfreed⟩ := hu.free hs hnot (hptr j hj) h0 hdone
      refine wp_bfree hE hbit fun tr => ?_
      refine ⟨hu.others, hu.self, fun k hk => hu.isZero k ?_, fun k hk => hu.same k ?_, hu.dinode, hu.data,
        hfreed, hu.trace⟩
      · have := k.isLt
        exact ((hdone k).mp hk).resolve_right (by omega)
      · exact fun hd => hk ((hdone k).mpr (.inl hd))
    · refine ((hdone k).mp hk).imp_right fun heq => ?_
      subst heq
      rw [hptr j hj]
      exact not_not.mp h0
  · by_cases hlt : k < NDIRECT
    · exact .inl (.inl hlt)
    · by_cases hk' : k < NSLOT
      · refine .inl (.inr ⟨k - (NDIRECT + 1), List.mem_range.mpr ?_, ?_⟩)
        · unfold NSLOT at hk'
          omega
        · omega
      · refine .inr ?_
        by_contra h0
        exact hk' (Store.lt_NSLOT_of_ptr h0)
  · rintro k (hlt | ⟨j, -, rfl⟩) <;> omega

/-- The inode has lost its contents, and its blocks are free. -/
structure Truncated (sb : Superblock) (ip : Ptr) (s t : Fs) : Prop where
  others : ∀ e, e ≠ ip → t.itable e = s.itable e
  self : t.itable ip = { s.itable ip with copy := (s.itable ip).copy.trunc }
  dinode : t.store.dinode = update s.store.dinode (s.itable ip).inum (s.itable ip).copy.trunc
  data : t.store.data = s.store.data
  freed : Freed (fun k => (s.view ip).ptr sb ((s.itable ip).inum, k)) s.store.bitmap (fun _ => True)
    t.store.bitmap
  trace : t.trace = s.trace

theorem Truncating.end_ (h : Truncating sb ip s (fun _ => True) t) {u : Fs}
    (hu : u = t.setCopy ip { (t.itable ip).copy with size := 0 }) (tr : Option (List Nat)) :
    Truncated sb ip s { u with store := u.view ip, trans := tr } := by
  have haddrs : (t.itable ip).copy.addrs = fun _ => 0 := funext fun k => h.isZero k trivial
  have hself : u.itable ip = { s.itable ip with copy := (s.itable ip).copy.trunc } := by
    rw [hu]
    refine (update_self ..).trans ?_
    rw [h.self, haddrs]
    rfl
  refine ⟨fun e he => ?_, hself, ?_, ?_, ?_, ?_⟩
  · rw [hu]
    exact (update_of_ne he ..).trans (h.others e he)
  · show update u.store.dinode (u.itable ip).inum (u.itable ip).copy = _
    rw [hself, hu]
    exact congrArg (update · _ _) h.dinode
  · rw [hu]
    exact h.data
  · rw [hu]
    exact h.freed
  · rw [hu]
    exact h.trace

theorem wp_itrunc (hE : LogFails E) (hs : Ready sb D ip s)
    (hQ : ∀ t, Truncated sb ip s t → Q () t) : wp (itrunc sb ip) Q E s := by
  have hfinish : ∀ t, Truncating sb ip s (fun _ => True) t → wp (do
      assign ip fun d => { d with size := 0 }
      iupdate sb ip) Q E t := by
    intro t ht
    rw [wp_bind, assign]
    exact wp_iupdate hE fun tr => hQ _ (ht.end_ rfl tr)
  rw [itrunc, wp_bind]
  refine wp_truncDirects hE hs fun t ht => ?_
  have hlast : (t.itable ip).copy.addrs (Fin.last NDIRECT) = (s.itable ip).copy.addrs (Fin.last NDIRECT) :=
    ht.same _ (lt_irrefl NDIRECT)
  show wp (if (t.itable ip).copy.addrs (Fin.last NDIRECT) ≠ 0 then _ else _) Q E t
  rw [wp_ite]
  refine ⟨fun h0 => ?_, fun h0 => hfinish t (ht.skip hs (fun k _ => ?_) fun _ _ => trivial)⟩
  · rw [wp_bind, wp_get, ht.data, wp_bind]
    refine wp_truncIndirects hE hs ht hlast.symm h0 fun u hu => ?_
    have hlast' : (u.itable ip).copy.addrs (Fin.last NDIRECT) =
        (t.itable ip).copy.addrs (Fin.last NDIRECT) := (hu.same _ (fun hne => hne rfl)).trans hlast.symm
    rw [← hlast'] at h0 ⊢
    rw [← bind_assoc, wp_bind]
    exact wp_freeAddr hE hs hu (fun hne => hne rfl) h0
      (fun k => ⟨fun _ => (em (k = NDIRECT)).symm, fun _ => trivial⟩) hfinish
  · by_cases hlt : k < NDIRECT
    · exact .inl hlt
    · have hl0 := hlast.symm.trans (not_not.mp h0)
      refine .inr ?_
      rw [hs.ptr_eq]
      by_cases hk : k = NDIRECT
      · subst hk
        exact hl0
      · exact Dinode.slot_of_last_eq_zero (by omega) hl0

namespace Truncated

variable (h : Truncated sb ip s t)
include h

theorem store_eq :
    t.store = { (s.view ip).setDinode (s.itable ip).inum (s.itable ip).copy.trunc with
      bitmap := t.store.bitmap } := by
  have hd := h.dinode
  have hdata := h.data
  cases hst : t.store
  rw [hst] at hd hdata
  subst hd hdata
  simp only [view, Store.setDinode_setDinode]
  rfl

theorem ptr_self (k : Nat) : t.store.ptr sb ((s.itable ip).inum, k) = 0 := by
  by_cases ha : t.store.Alloc sb (s.itable ip).inum
  · rw [Store.ptr_of_alloc ha, h.dinode, update_self]
    by_cases hk : k < NDIRECT + 1
    · exact Dinode.slot_of_lt hk
    · exact Dinode.slot_of_last_eq_zero (by omega) rfl
  · exact if_neg ha

theorem alloc (i : Nat) : t.store.Alloc sb i ↔ (s.view ip).Alloc sb i := by
  rw [h.store_eq]
  refine Store.alloc_setDinode ?_
  rw [view_self]
  rfl

theorem dinode_other {i : Nat} (hi : i ≠ (s.itable ip).inum) :
    t.store.dinode i = (s.view ip).dinode i := by
  rw [h.dinode, update_of_ne hi, view, Store.setDinode_of_ne hi]

theorem ptr_other {c : Nat × Nat} (hc : c.1 ≠ (s.itable ip).inum) :
    t.store.ptr sb c = (s.view ip).ptr sb c := by
  unfold Store.ptr
  simp only [h.alloc, h.dinode_other hc, h.data]
  rfl

theorem own (hs : Ready sb D ip s) : Own sb D t.store := by
  refine ⟨?_, fun b hb hd => ?_, fun i bn hi hbn => ?_, hs.own.notZero⟩
  · refine hs.own.owns.release (fun c => c.1 = (s.itable ip).inum) ?_ (fun c hc => h.ptr_other hc) fun b => ?_
    · rintro ⟨i, k⟩ rfl
      exact h.ptr_self k
    · refine (h.freed b).trans (and_congr_right fun _ => ⟨?_, fun hne k _ => hne (_, k) rfl⟩)
      rintro hne ⟨i, k⟩ rfl
      exact hne k trivial
  · refine (h.freed b).mpr ⟨hs.own.metaBits b hb hd, fun k _ h0 heq => hd ?_⟩
    exact heq ▸ hs.own.owns.inDom _ h0
  · by_cases hii : i = (s.itable ip).inum
    · subst hii
      rw [h.dinode, update_self] at hbn
      exact absurd hbn (Nat.not_lt_zero _)
    · rw [h.ptr_other hii]
      rw [h.dinode_other hii] at hbn
      exact hs.own.noHole i bn ((h.alloc i).mp hi) hbn

theorem node_other {i : Nat} (hi : i ≠ (s.itable ip).inum) :
    t.store.node sb i = (s.view ip).node sb i := by
  refine Store.node_congr (by simp [h.dinode_other hi]) fun _ o _ => ?_
  rw [Store.byteAt, h.ptr_other hi, h.data]
  rfl

theorem node_self (hs : Ready sb D ip s) : t.store.node sb (s.itable ip).inum =
    { (s.view ip).node sb (s.itable ip).inum with size := 0, bytes := fun _ => 0 } := by
  rw [Store.node_of_alloc ((h.alloc _).mpr hs.alloc), Store.node_of_alloc hs.alloc, h.dinode,
    update_self, view_self]
  rfl

end Truncated

theorem Store.ptr_setFree {st : Store} {i : Nat} {d : Dinode} (hd : d.type = .free)
    (hz : ∀ k, st.ptr sb (i, k) = 0) (c : Nat × Nat) : (st.setDinode i d).ptr sb c = st.ptr sb c := by
  obtain ⟨j, k⟩ := c
  by_cases hj : j = i
  · rw [hj, hz]
    refine if_neg fun ha => ha.2 ?_
    rw [Store.setDinode_self, hd]
  · have ha : (st.setDinode i d).Alloc sb j ↔ st.Alloc sb j := by
      unfold Store.Alloc
      rw [Store.setDinode_of_ne hj]
    unfold Store.ptr
    simp only [ha, Store.setDinode_of_ne hj, Store.setDinode_data]

theorem Own.setFree {st : Store} {i : Nat} {d : Dinode} (h : Own sb D st) (hd : d.type = .free)
    (hz : ∀ k, st.ptr sb (i, k) = 0) : Own sb D (st.setDinode i d) := by
  have hptr : (st.setDinode i d).ptr sb = st.ptr sb := funext fun c => Store.ptr_setFree hd hz c
  refine ⟨?_, h.metaBits, fun j bn hj hbn => ?_, h.notZero⟩
  · rw [hptr]
    exact h.owns
  · have hji : j ≠ i := by
      rintro rfl
      refine hj.2 ?_
      rw [Store.setDinode_self, hd]
    rw [hptr]
    rw [Store.setDinode_of_ne hji] at hbn
    refine h.noHole j bn ⟨hj.1, ?_⟩ hbn
    rw [← Store.setDinode_of_ne hji]
    exact hj.2

end Xv6.Fs

import Xv6.Fs.Bmap

/-!
# How many blocks `itrunc` logs

`itrunc` may free hundreds of blocks but writes only to the free map and to its inode.
-/

namespace Xv6.Fs

open Function Wp

variable {sb : Superblock} {s : Fs} {ip : Ptr}

def Panic.OfLog (e : Panic) : Prop := e = .logWriteOutside ∨ e = .tooBigTransaction

theorem not_ofLog_freeing : ¬ Panic.freeingFreeBlock.OfLog := by
  rintro (h | h) <;> cases h

theorem logFails_ofLog : LogFails Panic.OfLog := ⟨.inl rfl, .inr rfl⟩

def MapOnly (sb : Superblock) (s : Fs) : Prop :=
  ∃ l, s.trans = some l ∧ l.Nodup ∧ ∀ b ∈ l, b ∈ List.range' sb.bmapstart (sb.size / BPB + 1)

theorem MapOnly.canLog {E : Panic → Prop} (h : MapOnly sb s) (hroom : sb.size / BPB + 1 < logCapacity sb) :
    CanLog sb E s := by
  obtain ⟨l, hl, hnodup, hmem⟩ := h
  have hlen := (List.subperm_of_subset hnodup hmem).length_le
  rw [List.length_range'] at hlen
  exact .inr ⟨l, hl, hlen.trans_lt hroom⟩

theorem wp_bfree_mapOnly (h : MapOnly sb s) (hroom : sb.size / BPB + 1 < logCapacity sb) {b : Nat}
    (hb : b < sb.size) {Q : Unit → Fs → Prop}
    (hQ : ∀ bits tr, MapOnly sb { s with store := { s.store with bitmap := bits }, trans := tr } →
      Q () { s with store := { s.store with bitmap := bits }, trans := tr }) :
    wp (bfree sb b) Q (fun e => ¬ e.OfLog) s := by
  have hcan : CanLog sb (fun e => ¬ e.OfLog) s := h.canLog hroom
  obtain ⟨l, hl, hnodup, hmem⟩ := h
  have hblock : sb.bblock b ∈ List.range' sb.bmapstart (sb.size / BPB + 1) := by
    have hle : b / BPB ≤ sb.size / BPB := Nat.div_le_div_right (Nat.le_of_lt hb)
    rw [List.mem_range'_1, Superblock.bblock]
    exact ⟨Nat.le_add_left _ _, by rw [Nat.add_comm]; exact Nat.add_lt_add_left (Nat.lt_succ_of_le hle) _⟩
  show wp (if _ then _ else _) Q _ s
  rw [wp_ite]
  refine ⟨fun _ => not_ofLog_freeing, fun _ => ?_⟩
  rw [wp_bind, setBit]
  refine wp_logWrite_of ?_ fun l' hl' => hQ _ _ ⟨_, rfl, ?_⟩
  · exact hcan
  obtain rfl : l = l' := Option.some.inj (hl.symm.trans hl')
  refine ⟨hnodup.insert, fun c hc => ?_⟩
  rcases List.mem_insert_iff.mp hc with rfl | hc
  · exact hblock
  · exact hmem c hc

theorem wp_itrunc_room (htr : s.trans = some []) (hroom : sb.size / BPB + 1 < logCapacity sb)
    (hslot : ∀ k, (s.itable ip).copy.slot s.store.data k ≠ 0 →
      (s.itable ip).copy.slot s.store.data k < sb.size) :
    wp (itrunc sb ip) (fun _ _ => True) (fun e => ¬ e.OfLog) s := by
  -- what the first loop keeps: the slots are those of `s` or empty, and the indirect block is that of `s`
  let I : Fs → Prop := fun t => MapOnly sb t ∧ t.store.data = s.store.data ∧
    (∀ k, (t.itable ip).copy.addrs k ≠ 0 → (t.itable ip).copy.addrs k < sb.size) ∧
    (t.itable ip).copy.addrs (Fin.last NDIRECT) = (s.itable ip).copy.addrs (Fin.last NDIRECT)
  have hI : I s := by
    refine ⟨⟨[], htr, List.nodup_nil, nofun⟩, rfl, fun k hk => ?_, rfl⟩
    have hk' : (s.itable ip).copy.slot s.store.data k = (s.itable ip).copy.addrs k := Dinode.slot_of_lt k.isLt
    rw [← hk'] at hk ⊢
    exact hslot k hk
  have hend : ∀ t, MapOnly sb t →
      wp (do assign ip fun d => { d with size := 0 }; iupdate sb ip) (fun _ _ => True) (fun e => ¬ e.OfLog) t := by
    intro t ht
    rw [wp_bind, assign, wp_modify, iupdate, wp_bind, wp_modify, wp_bind]
    refine wp_logWrite_of ?_ fun _ _ => trivial
    exact ht.canLog hroom
  rw [itrunc, wp_bind]
  refine wp_forM (fun _ => I) hI (fun _ i _ _ t ht => ?_) fun t ht => ?_
  · obtain ⟨hmap, hdata, haddr, hlast⟩ := ht
    show wp (if _ then _ else _) _ _ t
    rw [wp_ite]
    refine ⟨fun h0 => ?_, fun _ => ⟨hmap, hdata, haddr, hlast⟩⟩
    rw [wp_bind]
    refine wp_bfree_mapOnly hmap hroom (haddr _ h0) fun bits tr hmap' => ?_
    rw [setAddr, assign]
    have hself : ∀ (u : Fs) d, ((u.setCopy ip d).itable ip).copy = d := fun u d => by
      simp only [setCopy, setInode, update_self]
    refine ⟨hmap', hdata, fun k hk => ?_, ?_⟩
    · simp only [hself] at hk ⊢
      by_cases hki : k = i.castSucc
      · rw [hki, update_self] at hk
        exact absurd rfl hk
      · rw [update_of_ne hki] at hk ⊢
        exact haddr k hk
    · simp only [hself]
      rw [update_of_ne (Fin.castSucc_lt_last i).ne']
      exact hlast
  · obtain ⟨hmap, hdata, haddr, hlast⟩ := ht
    show wp (if (t.itable ip).copy.addrs (Fin.last NDIRECT) ≠ 0 then _ else _) _ _ t
    rw [wp_ite]
    refine ⟨fun h0 => ?_, fun _ => hend t hmap⟩
    rw [wp_bind, wp_get, hdata, wp_bind]
    refine wp_forM (fun _ => MapOnly sb) hmap (fun pre j post hrange u hu => ?_) fun u hu => ?_
    · have hj : j < NINDIRECT := by
        rw [← List.mem_range, hrange]
        simp
      rw [truncIndirect, wp_ite]
      refine ⟨fun hne => wp_bfree_mapOnly hu hroom ?_ fun _ _ h => h, fun _ => hu⟩
      rw [hlast] at h0 hne ⊢
      have hge : (s.itable ip).copy.slot s.store.data (NDIRECT + 1 + j) = _ :=
        Dinode.slot_of_ge (Nat.le_add_right _ _) (Nat.add_lt_add_left hj _) h0
      rw [Nat.add_sub_cancel_left] at hge
      rw [← hge] at hne ⊢
      exact hslot _ hne
    · rw [wp_bind]
      refine wp_bfree_mapOnly hu hroom (haddr _ h0) fun bits tr hmap' => ?_
      rw [wp_bind, setAddr, assign]
      exact hend _ hmap'

end Xv6.Fs

import Xv6.Lib.Digit
import Xv6.Vm.Translation

/-!
# Bytes of physical memory

A page is 512 words; the byte at a physical address is a digit of one of them. `write` is `memmove` to
physical memory from a buffer outside of it, and `trans` is the physical address that a virtual address is
mapped to.
-/

namespace Xv6.Vm

def pageOf (pa : Nat) : Nat := pa / PGSIZE * PGSIZE

def wordOf (pa : Nat) : Fin 512 := ⟨pa % PGSIZE / 8, by
  have h : pa % 4096 < 4096 := Nat.mod_lt _ (by decide)
  show pa % 4096 / 8 < 512
  omega⟩

namespace Mem

def byte (s : Mem) (pa : Nat) : UInt8 := .ofNat (Digit.get 256 (s.page (pageOf pa) (wordOf pa)) (pa % 8))

def setByte (s : Mem) (pa : Nat) (b : UInt8) : Mem :=
  let w := Digit.set 256 (s.page (pageOf pa) (wordOf pa)) (pa % 8) b.toNat
  { s with page := Radix.put s.page (pageOf pa, wordOf pa) w }

/-- `n` bytes of `src` are copied to `pa`. -/
def write (s : Mem) (pa : Nat) (src : Nat → UInt8) : Nat → Mem
  | 0 => s
  | n + 1 => (s.write pa src n).setByte (pa + n) (src n)

variable {s t : Mem} {pa x n q : Nat} {b : UInt8} {src : Nat → UInt8}

theorem pageOf_wordOf_ne (h : x ≠ pa) (hmod : x % 8 = pa % 8) : (pageOf x, wordOf x) ≠ (pageOf pa, wordOf pa) := by
  intro heq
  have h1 : x / 4096 * 4096 = pa / 4096 * 4096 := congrArg Prod.fst heq
  have h2 : x % 4096 / 8 = pa % 4096 / 8 := congrArg (fun y => y.2.val) heq
  omega

theorem byte_setByte_self : (s.setByte pa b).byte pa = b := by
  have hb : b.toNat < 256 := b.toNat_lt
  simp only [byte, setByte]
  rw [Radix.put_self, Digit.get_set_self hb, UInt8.ofNat_toNat]

theorem byte_setByte_of_ne (h : x ≠ pa) : (s.setByte pa b).byte x = s.byte x := by
  have hb : b.toNat < 256 := b.toNat_lt
  simp only [byte, setByte]
  by_cases hw : (pageOf x, wordOf x) = (pageOf pa, wordOf pa)
  · obtain ⟨h1, h2⟩ := Prod.mk.inj hw
    have hmod : x % 8 ≠ pa % 8 := fun hmod => pageOf_wordOf_ne h hmod hw
    rw [h1, h2, Radix.put_self, Digit.get_set_of_ne hb hmod]
  · rw [Radix.put_of_ne_index hw]

theorem page_setByte_of_ne (h : q ≠ pageOf pa) : (s.setByte pa b).page q = s.page q := Radix.put_of_ne h

theorem byte_write : (s.write pa src n).byte x = if pa ≤ x ∧ x < pa + n then src (x - pa) else s.byte x := by
  induction n with
  | zero => exact (if_neg (by omega)).symm
  | succ n ih =>
    rw [write]
    by_cases hx : x = pa + n
    · subst hx
      rw [byte_setByte_self, if_pos (by omega), Nat.add_sub_cancel_left]
    · rw [byte_setByte_of_ne hx, ih]
      exact if_congr (by omega) rfl rfl

theorem page_write_of_ne (h : ∀ j < n, q ≠ pageOf (pa + j)) : (s.write pa src n).page q = s.page q := by
  induction n with
  | zero => rfl
  | succ n ih =>
    rw [write, page_setByte_of_ne (h n (Nat.lt_succ_self n)), ih fun j hj => h j (Nat.lt_succ_of_lt hj)]

@[simp] theorem freelist_write : (s.write pa src n).freelist = s.freelist := by
  induction n with
  | zero => rfl
  | succ n ih => exact ih

@[simp] theorem deny_write : (s.write pa src n).deny = s.deny := by
  induction n with
  | zero => rfl
  | succ n ih => exact ih

@[simp] theorem kend_write : (s.write pa src n).kend = s.kend := by
  induction n with
  | zero => rfl
  | succ n ih => exact ih

end Mem

/-! ## Addresses of user memory -/

theorem pte2pa_mod (w : Nat) : pte2pa w % PGSIZE = 0 := by
  show ((w >>> 10) <<< 12) % 2 ^ 64 % 4096 = 0
  omega

/-- The physical address of a virtual address that is mapped. -/
def trans (s : Mem) (pagetable va : Nat) : Nat :=
  pte2pa ((pte s pagetable (va / PGSIZE)).getD 0) + va % PGSIZE

/-- The user may read, or write, the byte at `va`. -/
def Allowed (s : Mem) (pagetable : Nat) (write : Bool) (va : Nat) : Prop :=
  va < MAXVA ∧ ∃ w, pte s pagetable (va / PGSIZE) = some w ∧ w &&& PTE_U ≠ 0 ∧ (write = true → w &&& PTE_W ≠ 0)

theorem pageOf_add {pa o : Nat} (hpa : pa % PGSIZE = 0) (ho : o < PGSIZE) : pageOf (pa + o) = pa := by
  have ho : o < 4096 := ho
  have hpa : pa % 4096 = 0 := hpa
  show (pa + o) / 4096 * 4096 = pa
  omega

theorem pageOf_trans {s : Mem} {pagetable va : Nat} :
    pageOf (trans s pagetable va) = pte2pa ((pte s pagetable (va / PGSIZE)).getD 0) :=
  pageOf_add (pte2pa_mod _) (Nat.mod_lt _ (by decide))

section

variable {s t : Mem} {pagetable : Nat} (h : ∀ q ∈ tables s pagetable, t.page q = s.page q)
include h

theorem pte_congr (vpn : Nat) : pte t pagetable vpn = pte s pagetable vpn := Radix.lookup_congr h

theorem tables_congr : tables t pagetable = tables s pagetable :=
  Radix.nodes_congr fun q hq => h q (Radix.mem_nodes_of_mem_inner hq)

theorem trans_congr (va : Nat) : trans t pagetable va = trans s pagetable va := by
  rw [trans, trans, pte_congr h]

theorem allowed_congr {write : Bool} {va : Nat} : Allowed t pagetable write va ↔ Allowed s pagetable write va := by
  rw [Allowed, Allowed, pte_congr h]

end

end Xv6.Vm

import Mathlib.Data.List.DropRight
import Xv6.Fs.Entries

/-!
# Paths

A path is the list of its components, the maximal runs without a slash, cut to `DIRSIZ` bytes each. It leads
from one inode to another by looking up one component after the other.
-/

namespace Xv6.Fs

def components (path : List UInt8) : List (List UInt8) :=
  ((path.splitOnP (· = slash)).filter (· ≠ [])).map (List.take DIRSIZ)

def lookupIn (N : Nat → Node) (i : Nat) (name : List UInt8) : Option Nat :=
  if (N i).type = .dir then (N i).bindings name else none

/-- What the names lead to from the inode `i`. -/
def resolve (N : Nat → Node) (i : Nat) (names : List (List UInt8)) : Option Nat := names.foldlM (lookupIn N) i

/-- The directory that all names but the last lead to, with the last name. -/
def resolveParent (N : Nat → Node) (i : Nat) (names : List (List UInt8)) : Option (Nat × List UInt8) :=
  match names.getLast? with
  | none => none
  | some name => (resolve N i names.dropLast).bind fun d => if (N d).type = .dir then some (d, name) else none

/-! ## Components -/

section

variable {path u v : List UInt8}

theorem components_nil : components [] = [] := by simp [components]

theorem components_slash (v : List UInt8) : components (slash :: v) = components v := by
  have hsplit := List.splitOnP_append_cons (p := fun c => decide (c = slash)) [] v
    (by simp : decide (slash = slash) = true)
  rw [components, ← List.nil_append (slash :: v), hsplit]
  simp [components]

theorem components_dropWhile (path : List UInt8) : components (path.dropWhile (· = slash)) = components path := by
  induction path with
  | nil => rfl
  | cons c path ih =>
    by_cases hc : c = slash
    · rw [List.dropWhile_cons_of_pos (by simpa using hc), ih, hc, components_slash]
    · rw [List.dropWhile_cons_of_neg (by simpa using hc)]

theorem components_append (hu : u ≠ []) (hs : slash ∉ u) (hv : v = [] ∨ ∃ w, v = slash :: w) :
    components (u ++ v) = u.take DIRSIZ :: components v := by
  have hone : u.splitOnP (· = slash) = [u] := List.splitOnP_eq_singleton fun c hc => by
    have : c ≠ slash := fun h => hs (h ▸ hc)
    simpa using this
  rcases hv with rfl | ⟨w, rfl⟩
  · rw [List.append_nil, components_nil, components, hone]
    simp [hu]
  · have hsplit := List.splitOnP_append_cons (p := fun c => decide (c = slash)) u w
      (by simp : decide (slash = slash) = true)
    rw [components_slash, components, hsplit, hone]
    simp [components, hu]

theorem dropWhile_cons_slash (p : List UInt8) :
    p.dropWhile (· ≠ slash) = [] ∨ ∃ w, p.dropWhile (· ≠ slash) = slash :: w := by
  cases h : p.dropWhile (· ≠ slash) with
  | nil => exact .inl rfl
  | cons c w =>
    refine .inr ⟨w, ?_⟩
    have hne : p.dropWhile (· ≠ slash) ≠ [] := by
      rw [h]
      nofun
    have hc := List.head_dropWhile_not (fun c => decide (c ≠ slash)) hne
    simp only [h, List.head_cons] at hc
    simpa using hc

theorem components_skipelem (path : List UInt8) : components path =
    match skipelem path with
    | none => []
    | some (name, rest) => name :: components rest := by
  rw [← components_dropWhile path, skipelem]
  generalize hp : path.dropWhile (· = slash) = p
  cases p with
  | nil => exact components_nil
  | cons c l =>
    have hne : path.dropWhile (· = slash) ≠ [] := by
      rw [hp]
      nofun
    have hc : c ≠ slash := by
      have := List.head_dropWhile_not (fun c => decide (c = slash)) hne
      simpa [hp] using this
    have hu : (c :: l).takeWhile (· ≠ slash) ≠ [] := by
      rw [List.takeWhile_cons_of_pos (by simpa using hc)]
      nofun
    have hs : slash ∉ (c :: l).takeWhile (· ≠ slash) := fun hmem => by
      have := List.mem_takeWhile_imp hmem
      simp at this
    have happ := components_append hu hs (dropWhile_cons_slash (c :: l))
    rw [List.takeWhile_append_dropWhile] at happ
    simp only
    rw [happ, components_dropWhile]

theorem skipelem_eq_none : skipelem path = none ↔ path.dropWhile (· = slash) = [] := by
  unfold skipelem
  cases path.dropWhile (· = slash) with
  | nil => exact iff_of_true rfl rfl
  | cons c l => exact iff_of_false nofun nofun

theorem components_rest {name rest : List UInt8} (h : skipelem path = some (name, rest)) :
    components rest = [] ↔ rest = [] := by
  constructor
  · intro hc
    have hrest : rest.dropWhile (· = slash) = rest := by
      unfold skipelem at h
      split at h
      · cases h
      · obtain ⟨-, rfl⟩ := Prod.mk.inj (Option.some.inj h)
        exact List.dropWhile_idempotent _ _
    rw [components_skipelem] at hc
    cases hs : skipelem rest with
    | none => exact hrest.symm.trans (skipelem_eq_none.mp hs)
    | some x =>
      rw [hs] at hc
      cases hc
  · rintro rfl
    exact components_nil

/-- `skipelem` writes the element to `name`, with a 0 behind it if it is shorter than `DIRSIZ`. -/
def written (name : List UInt8) : List UInt8 := if DIRSIZ ≤ name.length then name else name ++ [0]

theorem length_written {name rest : List UInt8} (h : skipelem path = some (name, rest)) :
    (written name).length ≤ DIRSIZ := by
  have hle : name.length ≤ DIRSIZ := by
    unfold skipelem at h
    split at h
    · cases h
    · obtain ⟨rfl, -⟩ := Prod.mk.inj (Option.some.inj h)
      exact List.length_take_le ..
  unfold written
  split_ifs with hlong
  · exact hle
  · rw [List.length_append, List.length_singleton]
    omega

end

/-! ## Walks -/

section

variable {N : Nat → Node} {i : Nat} {name : List UInt8} {names : List (List UInt8)}

theorem resolve_nil : resolve N i [] = some i := rfl

theorem resolve_cons : resolve N i (name :: names) = (lookupIn N i name).bind fun j => resolve N j names := rfl

theorem resolveParent_nil : resolveParent N i [] = none := rfl

theorem resolveParent_singleton :
    resolveParent N i [name] = if (N i).type = .dir then some (i, name) else none := rfl

theorem resolveParent_cons (h : names ≠ []) :
    resolveParent N i (name :: names) = (lookupIn N i name).bind fun j => resolveParent N j names := by
  obtain ⟨last, hlast⟩ := List.getLast?_isSome.mpr h |> Option.isSome_iff_exists.mp
  unfold resolveParent
  rw [List.getLast?_cons, hlast, List.dropLast_cons_of_ne_nil h]
  simp only [Option.getD_some, resolve_cons]
  cases lookupIn N i name <;> rfl

/-- A component is looked up that is missing, or in an inode that is no directory. -/
def Broken (N : Nat → Node) (i : Nat) (names : List (List UInt8)) : Prop :=
  ∃ pre name post d, names = pre ++ name :: post ∧ resolve N i pre = some d ∧
    ((N d).type ≠ .dir ∨ (N d).bindings name = none)

theorem lookupIn_eq_none {name : List UInt8} :
    lookupIn N i name = none ↔ (N i).type ≠ .dir ∨ (N i).bindings name = none := by
  unfold lookupIn
  split_ifs with hdir
  · exact ⟨.inr, fun h => h.resolve_left fun hn => hn hdir⟩
  · exact iff_of_true rfl (.inl hdir)

theorem resolve_append (pre post : List (List UInt8)) :
    resolve N i (pre ++ post) = (resolve N i pre).bind fun d => resolve N d post := List.foldlM_append

theorem resolve_eq_none : resolve N i names = none ↔ Broken N i names := by
  constructor
  · induction names generalizing i with
    | nil => nofun
    | cons name names ih =>
      intro h
      rw [resolve_cons] at h
      cases hj : lookupIn N i name with
      | none => exact ⟨[], name, names, i, rfl, rfl, lookupIn_eq_none.mp hj⟩
      | some j =>
        rw [hj] at h
        obtain ⟨pre, name', post, d, rfl, hd, hbad⟩ := ih h
        exact ⟨name :: pre, name', post, d, rfl, by rw [resolve_cons, hj]; exact hd, hbad⟩
  · rintro ⟨pre, name, post, d, rfl, hd, hbad⟩
    rw [resolve_append, hd, Option.bind_some, resolve_cons, lookupIn_eq_none.mpr hbad]
    rfl

theorem resolveParent_append (pre : List (List UInt8)) (name : List UInt8) : resolveParent N i (pre ++ [name]) =
    (resolve N i pre).bind fun d => if (N d).type = .dir then some (d, name) else none := by
  rw [resolveParent, List.getLast?_concat, List.dropLast_concat]

theorem resolveParent_eq_none : resolveParent N i names = none ↔
    names = [] ∨ ∀ d, resolve N i names.dropLast = some d → (N d).type ≠ .dir := by
  rcases names.eq_nil_or_concat' with rfl | ⟨pre, name, rfl⟩
  · exact iff_of_true rfl (.inl rfl)
  · rw [resolveParent_append, List.dropLast_concat]
    cases resolve N i pre with
    | none => exact iff_of_true rfl (.inr nofun)
    | some d =>
      rw [Option.bind_some]
      split_ifs with hdir
      · refine iff_of_false nofun ?_
        rintro (h | h)
        · exact List.append_ne_nil_of_right_ne_nil _ (List.cons_ne_nil _ _) h
        · exact h d rfl hdir
      · exact iff_of_true rfl (.inr fun d' h => Option.some.inj h ▸ hdir)

theorem resolveParent_eq_some {d : Nat} {name : List UInt8} : resolveParent N i names = some (d, name) ↔
    names.getLast? = some name ∧ resolve N i names.dropLast = some d ∧ (N d).type = .dir := by
  rcases names.eq_nil_or_concat' with rfl | ⟨pre, last, rfl⟩
  · exact iff_of_false nofun nofun
  · rw [resolveParent_append, List.dropLast_concat, List.getLast?_concat]
    cases resolve N i pre with
    | none => exact iff_of_false nofun nofun
    | some d' =>
      rw [Option.bind_some]
      split_ifs with hdir
      · simp only [Option.some.injEq, Prod.mk.injEq]
        refine ⟨?_, ?_⟩
        · rintro ⟨rfl, rfl⟩
          exact ⟨rfl, rfl, hdir⟩
        · rintro ⟨rfl, rfl, -⟩
          exact ⟨rfl, rfl⟩
      · refine iff_of_false nofun ?_
        rintro ⟨-, h, hd⟩
        exact hdir (Option.some.inj h ▸ hd)

end

end Xv6.Fs

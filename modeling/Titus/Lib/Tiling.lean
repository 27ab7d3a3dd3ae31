import Mathlib.Algebra.GroupWithZero.Nat
import Mathlib.Data.List.Basic
import Mathlib.Data.List.Pairwise
import Mathlib.Algebra.Order.Group.Nat

/-! Records of different sizes laid end to end in an address range: what a layout says about the
ranges of its records, and how to walk over the records that a memory holds. -/

namespace Tiling

variable {β : Type*} (size : β → ℕ)

/-- The records of `l`, each with its address, fill the range from `a` to `b` in order. -/
def Tiles : ℕ → ℕ → List (ℕ × β) → Prop
  | a, b, [] => a = b
  | a, b, (off, x) :: l => off = a ∧ Tiles (a + size x) b l

/-- The records of a list, laid end to end from `a` on. -/
def layOut : ℕ → List β → List (ℕ × β)
  | _, [] => []
  | a, x :: l => (a, x) :: layOut (a + size x) l

/-- The space that the records of a list take. -/
def extent (l : List β) : ℕ := (l.map size).sum

/-- The records met from `off` to `last`, each where the one before ends.  `none` if an address has
no record, or if the walk is not at `last` after `fuel` records. -/
def visit (cells : ℕ → Option β) (last : ℕ) : ℕ → ℕ → Option (List (ℕ × β))
  | 0, off => if off = last then some [] else none
  | fuel + 1, off =>
    if off = last then some []
    else
      match cells off with
      | none => none
      | some x => (visit cells last fuel (off + size x)).map ((off, x) :: ·)

/-- The memory after record `x` was written at `off`: what it overlaps is lost. -/
def put (cells : ℕ → Option β) (off : ℕ) (x : β) : ℕ → Option β := fun i =>
  if i = off then some x
  else
    match cells i with
    | none => none
    | some y => if i < off + size x ∧ off < i + size y then none else some y

variable {size} {a b c : ℕ} {l l' : List (ℕ × β)} {x : β} {p q : ℕ × β}

theorem length_layOut (a : ℕ) (l : List β) : (layOut size a l).length = l.length := by
  induction l generalizing a with
  | nil => rfl
  | cons x l ih => simp [layOut, ih]

theorem layOut_ne_nil (a : ℕ) {l : List β} (hne : l ≠ []) : layOut size a l ≠ [] := by
  rw [← List.length_pos_iff, length_layOut]
  exact List.length_pos_of_ne_nil hne

theorem map_layOut (a : ℕ) (l : List β) : (layOut size a l).map Prod.snd = l := by
  induction l generalizing a with
  | nil => rfl
  | cons x l ih => simp [layOut, ih]

theorem tiles_layOut (a : ℕ) (l : List β) : Tiles size a (a + extent size l) (layOut size a l) := by
  induction l generalizing a with
  | nil => rfl
  | cons x l ih =>
    refine ⟨rfl, ?_⟩
    have := ih (a + size x)
    rwa [Nat.add_assoc] at this

theorem Tiles.append (h : Tiles size a b l) (h' : Tiles size b c l') :
    Tiles size a c (l ++ l') := by
  induction l generalizing a with
  | nil => exact (show a = b from h) ▸ h'
  | cons p l ih => exact ⟨h.1, ih h.2⟩

theorem Tiles.le (h : Tiles size a b l) : a ≤ b := by
  induction l generalizing a with
  | nil => exact (show a = b from h).le
  | cons p l ih => exact (Nat.le_add_right _ _).trans (ih h.2)

/-- A record lies inside the range. -/
theorem Tiles.mem_range (h : Tiles size a b l) (hp : p ∈ l) :
    a ≤ p.1 ∧ p.1 + size p.2 ≤ b := by
  induction l generalizing a with
  | nil => cases hp
  | cons q l ih =>
    obtain ⟨hq, hl⟩ := h
    rcases List.mem_cons.mp hp with rfl | hp
    · exact ⟨hq.ge, hq ▸ hl.le⟩
    · exact ⟨(Nat.le_add_right _ _).trans (ih hl hp).1, (ih hl hp).2⟩

/-- Every record ends before the next ones begin. -/
theorem Tiles.pairwise (h : Tiles size a b l) :
    l.Pairwise fun p q => p.1 + size p.2 ≤ q.1 := by
  induction l generalizing a with
  | nil => exact .nil
  | cons q l ih =>
    obtain ⟨hq, hl⟩ := h
    exact List.pairwise_cons.mpr ⟨fun p hp => hq ▸ (hl.mem_range hp).1, ih hl⟩

theorem Tiles.eq_of_nil (h : Tiles size a b ([] : List (ℕ × β))) : a = b := h

/-- Records of a layout at different positions do not overlap. -/
theorem Tiles.disjoint (h : Tiles size a b l) {i j : ℕ} (hi : l[i]? = some p)
    (hj : l[j]? = some q) (hij : i ≠ j) :
    p.1 + size p.2 ≤ q.1 ∨ q.1 + size q.2 ≤ p.1 := by
  obtain ⟨hi', rfl⟩ := List.getElem?_eq_some_iff.mp hi
  obtain ⟨hj', rfl⟩ := List.getElem?_eq_some_iff.mp hj
  rcases Nat.lt_or_gt_of_ne hij with hlt | hlt
  · exact .inl (List.pairwise_iff_getElem.mp h.pairwise i j hi' hj' hlt)
  · exact .inr (List.pairwise_iff_getElem.mp h.pairwise j i hj' hi' hlt)

/-- A walk over a memory that holds the records of a layout meets exactly these. -/
theorem visit_of_tiles {cells : ℕ → Option β} (h : Tiles size a b l)
    (hcells : ∀ p ∈ l, cells p.1 = some p.2) (hpos : ∀ p ∈ l, 0 < size p.2) {fuel : ℕ}
    (hfuel : b - a ≤ fuel) : visit size cells b fuel a = some l := by
  induction l generalizing a fuel with
  | nil =>
    have hab : a = b := h
    cases fuel <;> simp [visit, hab]
  | cons p l ih =>
    obtain ⟨hp, hl⟩ := h
    have hpos' := hpos p (List.mem_cons_self ..)
    have hle := hl.le
    have hcell := hcells p (List.mem_cons_self ..)
    rw [hp] at hcell
    cases fuel with
    | zero => omega
    | succ fuel =>
      have hne : a ≠ b := by omega
      have := ih hl (fun q hq => hcells q (List.mem_cons_of_mem _ hq))
        (fun q hq => hpos q (List.mem_cons_of_mem _ hq)) (show b - (a + size p.2) ≤ fuel by omega)
      simp only [visit, if_neg hne, hcell, this, Option.map_some]
      rw [← hp]

theorem put_self (cells : ℕ → Option β) (off : ℕ) (x : β) : put size cells off x off = some x :=
  if_pos rfl

/-- A write keeps the records that it does not overlap. -/
theorem put_of_disjoint {cells : ℕ → Option β} {off i : ℕ} {y : β} (hi : cells i = some y)
    (h : off + size x ≤ i ∨ i + size y ≤ off) (hpos : 0 < size x) (hpos' : 0 < size y) :
    put size cells off x i = some y := by
  unfold put
  rw [if_neg (by omega), hi]
  exact if_neg (by omega)

end Tiling

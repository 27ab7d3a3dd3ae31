import Mathlib.Data.List.Perm.Basic

/-! Taking some entries of a group out of a list: the entries of the group are those with a
property, and a list of flags, one for each of them in order, says which are taken. -/

namespace Selection

variable {α β : Type*}

/-- The entries whose flag is `true`. -/
def pick : List Bool → List α → List α
  | true :: sel, x :: l => x :: pick sel l
  | false :: sel, _ :: l => pick sel l
  | _, _ => []

/-- The list without the entries of the group `p` whose flag is `true`.  Entries beyond the flags
are kept. -/
def keep (p : α → Bool) : List Bool → List α → List α
  | [], l => l
  | _, [] => []
  | b :: sel, x :: l =>
    if p x then if b then keep p sel l else x :: keep p sel l else x :: keep p (b :: sel) l

variable {p : α → Bool} {sel : List Bool} {l : List α}

@[simp] theorem keep_nil (p : α → Bool) (l : List α) : keep p [] l = l := by
  cases l <;> rfl

@[simp] theorem pick_nil (l : List α) : pick [] l = [] := by
  cases l <;> rfl

theorem pick_sublist (sel : List Bool) (l : List α) : (pick sel l).Sublist l := by
  induction l generalizing sel with
  | nil => cases sel with
    | nil => exact .slnil
    | cons b sel => cases b <;> exact .slnil
  | cons x l ih =>
    cases sel with
    | nil => exact List.nil_sublist _
    | cons b sel =>
      cases b with
      | false => exact (ih sel).cons _
      | true => exact (ih sel).cons_cons _

theorem keep_sublist (p : α → Bool) (sel : List Bool) (l : List α) : (keep p sel l).Sublist l := by
  induction l generalizing sel with
  | nil => cases sel <;> exact .slnil
  | cons x l ih =>
    cases sel with
    | nil => exact List.Sublist.refl _
    | cons b sel =>
      unfold keep
      split
      · split
        · exact (ih sel).cons _
        · exact (ih sel).cons_cons _
      · exact (ih (b :: sel)).cons_cons _

/-- What is taken and what is kept are the whole list. -/
theorem pick_append_keep_perm (p : α → Bool) (sel : List Bool) (l : List α) :
    (pick sel (l.filter p) ++ keep p sel l).Perm l := by
  induction l generalizing sel with
  | nil => cases sel with
    | nil => exact .nil
    | cons b sel => cases b <;> exact .nil
  | cons x l ih =>
    cases sel with
    | nil =>
      rw [pick_nil, keep_nil]
      exact .refl _
    | cons b sel =>
      by_cases hx : p x
      · cases b with
        | true =>
          simp only [List.filter_cons, hx, if_true, pick, keep]
          exact (ih sel).cons x
        | false =>
          simp only [List.filter_cons, hx, if_true, pick, keep, Bool.false_eq_true, if_false]
          exact List.perm_middle.trans ((ih sel).cons x)
      · simp only [List.filter_cons, hx, Bool.false_eq_true, if_false, keep]
        exact List.perm_middle.trans ((ih (b :: sel)).cons x)

/-- Erasing the first entry of a group takes what `find?` finds. -/
theorem cons_eraseP_perm {x : α} (h : l.find? p = some x) : (x :: l.eraseP p).Perm l := by
  obtain ⟨hx, front, back, rfl, hfront⟩ := List.find?_eq_some_iff_append.mp h
  have hnot : ∀ y ∈ front, ¬ p y := by simpa using hfront
  rw [List.eraseP_append_right _ hnot, List.eraseP_cons_of_pos hx]
  exact List.perm_middle.symm

/-- When nothing is taken, everything is kept. -/
theorem keep_eq_self (h : pick sel (l.filter p) = []) : keep p sel l = l := by
  have hperm := pick_append_keep_perm p sel l
  rw [h, List.nil_append] at hperm
  exact (keep_sublist p sel l).eq_of_length hperm.length_eq

/-- Taking entries commutes with reading them, when all of them can be read. -/
theorem pick_filterMap {f : α → Option β} (sel : List Bool) (h : ∀ x ∈ l, (f x).isSome) :
    pick sel (l.filterMap f) = (pick sel l).filterMap f := by
  induction l generalizing sel with
  | nil => cases sel with
    | nil => rfl
    | cons b sel => cases b <;> rfl
  | cons x l ih =>
    obtain ⟨y, hy⟩ := Option.isSome_iff_exists.mp (h x (List.mem_cons_self ..))
    have hl : ∀ x ∈ l, (f x).isSome := fun z hz => h z (List.mem_cons_of_mem _ hz)
    rw [List.filterMap_cons_some hy]
    cases sel with
    | nil => rfl
    | cons b sel =>
      cases b with
      | false => exact ih sel hl
      | true =>
        simp only [pick]
        rw [List.filterMap_cons_some hy, ih sel hl]

end Selection

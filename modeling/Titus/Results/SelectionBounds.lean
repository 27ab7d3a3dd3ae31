import Titus.Results.PackedPush
import Mathlib.Data.BitVec

/-! `select_elts_to_push` on machine integers: what it selects is below both limits, and no element
that it rejects could be added. -/

namespace Titus.Results

open Memory StructLayout

/-! ### The selection on natural numbers -/

section Natural

variable {own : Mem} {r : SelectedElts} {l : List EltLoc} {x : EltLoc}
  {availableSize maxEltsCount i : ℕ}

/-- Nothing that has been selected is given back. -/
theorem le_selectElts (own : Mem) (availableSize maxEltsCount : ℕ) (r : SelectedElts)
    (l : List EltLoc) :
    r.toReserve ≤ (selectElts own availableSize maxEltsCount r l).toReserve ∧
      r.eltCount ≤ (selectElts own availableSize maxEltsCount r l).eltCount ∧
      r.selected <+: (selectElts own availableSize maxEltsCount r l).selected := by
  induction l generalizing r with
  | nil => exact ⟨le_rfl, le_rfl, List.prefix_rfl⟩
  | cons x l ih =>
    unfold selectElts
    split
    · obtain ⟨hreserve, hcount, hselected⟩ := ih ⟨r.eltCount + 1,
        r.toReserve + (x.ptr own).bufferEntrySize, r.selected ++ [true]⟩
      exact ⟨(Nat.le_add_right _ _).trans hreserve, (Nat.le_succ _).trans hcount,
        (List.prefix_append _ _).trans hselected⟩
    · obtain ⟨hreserve, hcount, hselected⟩ := ih { r with selected := r.selected ++ [false] }
      exact ⟨hreserve, hcount, (List.prefix_append _ _).trans hselected⟩

theorem eltCount_selectElts_le (h : r.eltCount ≤ maxEltsCount) :
    (selectElts own availableSize maxEltsCount r l).eltCount ≤ maxEltsCount := by
  induction l generalizing r with
  | nil => exact h
  | cons x l ih =>
    unfold selectElts
    split
    · rename_i hfits
      exact ih hfits.2
    · exact ih h

/-- An element that has been rejected would still be rejected in the end. -/
theorem rejected_selectElts (hx : l[i]? = some x)
    (hrejected : (selectElts own availableSize maxEltsCount r l).selected[r.selected.length + i]? =
      some false) :
    availableSize ≤ (selectElts own availableSize maxEltsCount r l).toReserve + sizeOn own x ∨
      maxEltsCount < (selectElts own availableSize maxEltsCount r l).eltCount + 1 := by
  induction l generalizing r i with
  | nil => cases hx
  | cons y l ih =>
    unfold selectElts at hrejected ⊢
    split at hrejected
    · rename_i hfits
      rw [if_pos hfits]
      cases i with
      | zero =>
        obtain ⟨-, -, flags, hflags⟩ := le_selectElts own availableSize maxEltsCount
          ⟨r.eltCount + 1, r.toReserve + (y.ptr own).bufferEntrySize, r.selected ++ [true]⟩ l
        rw [← hflags, List.append_assoc, List.getElem?_append_right (Nat.le_add_right _ _),
          Nat.add_sub_cancel_left] at hrejected
        cases hrejected
      | succ i =>
        apply ih hx
        rw [← hrejected]
        congr 1
        simp only [List.length_append, List.length_singleton]
        omega
    · rename_i hfits
      rw [if_neg hfits]
      cases i with
      | zero =>
        cases hx
        obtain ⟨hreserve, hcount, -⟩ := le_selectElts own availableSize maxEltsCount
          { r with selected := r.selected ++ [false] } l
        simp only at hreserve hcount
        unfold sizeOn
        omega
      | succ i =>
        apply ih hx
        rw [← hrejected]
        congr 1
        simp only [List.length_append, List.length_singleton]
        omega

end Natural

/-! ### The selection on machine integers -/

namespace Machine

/-- `selected_elts_to_push`, where a `gaspi_number_t` has `w` bits. -/
structure SelectedElts (w : ℕ) where
  eltCount : BitVec w
  toReserve : BitVec 64
  selected : List Bool
deriving DecidableEq

section Functions

variable {w : ℕ} (own : Mem) (availableSize maxEltsCount : BitVec 64)

/-- `buffer_entry_size`. -/
def bufferEntrySize (x : EltLoc) : BitVec 64 := .ofNat 64 (x.ptr own).bufferEntrySize

/-- The loop body of `select_elts_to_push`. -/
def selectElt (r : SelectedElts w) (x : EltLoc) : SelectedElts w :=
  if availableSize - r.toReserve > bufferEntrySize own x ∧
      r.eltCount.toNat < maxEltsCount.toNat then
    ⟨r.eltCount + 1, r.toReserve + bufferEntrySize own x, r.selected ++ [true]⟩
  else { r with selected := r.selected ++ [false] }

/-- The loop. -/
def selectElts (l : List EltLoc) : SelectedElts w :=
  l.foldl (selectElt own availableSize maxEltsCount) ⟨0, 0, []⟩

/-- `select_elts_to_push`, on one of `nbRanks` ranks with a result segment of `segmentSize` bytes.
`none` if an assertion fails. -/
def selectEltsToPush (w nbRanks : ℕ) (segmentSize : BitVec 64) (range : List EltLoc) :
    Option (SelectedElts w) :=
  if range.all fun x => (x.ptr own).isValid nbRanks segmentSize.toNat then
    let r := selectElts own availableSize maxEltsCount range
    if r.toReserve < availableSize then some r else none
  else none

end Functions

variable {w nbRanks : ℕ} {own : Mem} {availableSize maxEltsCount segmentSize : BitVec 64}
  {range l : List EltLoc} {r : SelectedElts w} {r' : Results.SelectedElts}

/-- Words that stand for a selection. -/
structure Represents (r : SelectedElts w) (r' : Results.SelectedElts) : Prop where
  eltCount : r.eltCount.toNat = r'.eltCount
  toReserve : r.toReserve.toNat = r'.toReserve
  selected : r.selected = r'.selected

/-- What is promised of a selection from `range`. -/
structure Selected (own : Mem) (availableSize maxEltsCount : BitVec 64) (range : List EltLoc)
    (r : SelectedElts w) : Prop where
  length : r.selected.length = range.length
  eltCount : r.eltCount.toNat = (Selection.pick r.selected range).length
  toReserve : r.toReserve.toNat = ((Selection.pick r.selected range).map (sizeOn own)).sum
  eltCount_le : r.eltCount.toNat ≤ maxEltsCount.toNat
  /-- Before each element, and in the end, less is reserved than is available. -/
  reserve_lt : ∀ done rest, done ++ rest = range →
    (selectElts (w := w) own availableSize maxEltsCount done).toReserve < availableSize
  /-- No element that has been rejected could be added. -/
  maximal : ∀ (i : ℕ) x, range[i]? = some x → r.selected[i]? = some false →
    availableSize.toNat ≤ r.toReserve.toNat + sizeOn own x ∨
      maxEltsCount.toNat < r.eltCount.toNat + 1

/-- The loop on words is the loop on natural numbers while the words can hold these. -/
theorem Represents.selectElts (h : Represents r r') (hroom : r'.toReserve < availableSize.toNat)
    (hsize : ∀ x ∈ l, sizeOn own x < 2 ^ 64)
    (hcount : min maxEltsCount.toNat (r'.eltCount + l.length) < 2 ^ w) :
    Represents (l.foldl (selectElt own availableSize maxEltsCount) r)
      (Results.selectElts own availableSize.toNat maxEltsCount.toNat r' l) := by
  induction l generalizing r r' with
  | nil => exact h
  | cons x l ih =>
    have hword : (bufferEntrySize own x).toNat = (x.ptr own).bufferEntrySize := by
      rw [bufferEntrySize, BitVec.toNat_ofNat]
      exact Nat.mod_eq_of_lt (hsize x List.mem_cons_self)
    have hleft : (availableSize - r.toReserve).toNat = availableSize.toNat - r'.toReserve := by
      rw [BitVec.toNat_sub_of_le, h.toReserve]
      rw [BitVec.le_def, h.toReserve]
      exact hroom.le
    have htest : (availableSize - r.toReserve > bufferEntrySize own x ∧
          r.eltCount.toNat < maxEltsCount.toNat) ↔
        (availableSize.toNat - r'.toReserve > (x.ptr own).bufferEntrySize ∧
          r'.eltCount < maxEltsCount.toNat) := by
      rw [gt_iff_lt, BitVec.lt_def, hword, hleft, h.eltCount, gt_iff_lt]
    rw [List.length_cons] at hcount
    rw [List.foldl_cons, selectElt, Results.selectElts]
    by_cases hfits : availableSize.toNat - r'.toReserve > (x.ptr own).bufferEntrySize ∧
        r'.eltCount < maxEltsCount.toNat
    · rw [if_pos (htest.mpr hfits), if_pos hfits]
      have htotal := availableSize.isLt
      have hnext : (r'.eltCount + 1) % 2 ^ w = r'.eltCount + 1 := Nat.mod_eq_of_lt (by omega)
      apply ih
      · constructor
        · simp only [BitVec.toNat_add, h.eltCount, BitVec.ofNat_eq_ofNat, BitVec.toNat_ofNat,
            Nat.add_mod_mod, hnext]
        · simp only [BitVec.toNat_add, h.toReserve, hword]
          exact Nat.mod_eq_of_lt (by omega)
        · simp only [h.selected]
      · simp only
        omega
      · exact fun y hy => hsize y (List.mem_cons_of_mem _ hy)
      · simp only
        omega
    · rw [if_neg (mt htest.mp hfits), if_neg hfits]
      apply ih
      · exact ⟨h.eltCount, h.toReserve, congrArg (· ++ [false]) h.selected⟩
      · exact hroom
      · exact fun y hy => hsize y (List.mem_cons_of_mem _ hy)
      · simp only
        omega

theorem represents_selectElts (h1 : 1 ≤ availableSize.toNat)
    (hsize : ∀ x ∈ l, sizeOn own x < 2 ^ 64)
    (hcount : min maxEltsCount.toNat l.length < 2 ^ w) :
    Represents (selectElts (w := w) own availableSize maxEltsCount l)
      (Results.selectElts own availableSize.toNat maxEltsCount.toNat ⟨0, 0, []⟩ l) := by
  have hstart : Represents (⟨0, 0, []⟩ : SelectedElts w) ⟨0, 0, []⟩ := by
    constructor
    · exact BitVec.toNat_zero
    · exact BitVec.toNat_zero
    · rfl
  apply hstart.selectElts h1 hsize
  simpa using hcount

theorem selection_bounded_maximal (h1 : 1 ≤ availableSize.toNat)
    (hvalid : ∀ x ∈ range, (x.ptr own).isValid nbRanks segmentSize.toNat)
    (hcount : min maxEltsCount.toNat range.length < 2 ^ w) :
    ∃ r, selectEltsToPush own availableSize maxEltsCount w nbRanks segmentSize range = some r ∧
      Selected own availableSize maxEltsCount range r := by
  have hsize : ∀ x ∈ range, sizeOn own x < 2 ^ 64 := by
    intro x hx
    have hfits := hvalid x hx
    simp only [EltPtr.isValid, decide_eq_true_eq] at hfits
    exact hfits.2.1.trans_lt segmentSize.isLt
  have hprefix : ∀ done rest, done ++ rest = range →
      (selectElts (w := w) own availableSize maxEltsCount done).toReserve < availableSize := by
    intro done rest happend
    have hlen : done.length ≤ range.length := by
      rw [← happend, List.length_append]
      exact Nat.le_add_right _ _
    have hdone : Represents (selectElts (w := w) own availableSize maxEltsCount done)
        (Results.selectElts own availableSize.toNat maxEltsCount.toNat ⟨0, 0, []⟩ done) := by
      apply represents_selectElts h1
      · exact fun x hx => hsize x (happend ▸ List.mem_append_left rest hx)
      · omega
    rw [BitVec.lt_def, hdone.toReserve]
    exact toReserve_selectElts_lt h1
  have hall : (range.all fun x => (x.ptr own).isValid nbRanks segmentSize.toNat) = true :=
    List.all_eq_true.mpr hvalid
  have h : Represents (selectElts (w := w) own availableSize maxEltsCount range) _ :=
    represents_selectElts h1 hsize hcount
  have hselected := selected_of_range own range availableSize.toNat maxEltsCount.toNat
  refine ⟨selectElts own availableSize maxEltsCount range, ?_, ?_⟩
  · simp only [selectEltsToPush, hall, if_true, hprefix range [] (List.append_nil range)]
  · constructor
    · rw [h.selected]
      exact hselected.length
    · rw [h.eltCount, h.selected]
      exact hselected.eltCount
    · rw [h.toReserve, h.selected]
      exact hselected.toReserve
    · rw [h.eltCount]
      exact eltCount_selectElts_le (Nat.zero_le _)
    · exact hprefix
    · intro i x hx hrejected
      rw [h.selected] at hrejected
      rw [h.toReserve, h.eltCount]
      apply rejected_selectElts hx
      rwa [List.length_nil, Nat.zero_add]

/-- An element of 48 bytes with one result. -/
def smallElt : EltLoc :=
  .inMemory fun i => if i = offsetOf bufferEltFields 1 then 1 else
    if i = offsetOf bufferEltFields 2 then 8 else 0

theorem selection_bounded_maximal_two :
    ∃ r, selectEltsToPush (fun _ => 0) 60 60000 32 2 4096 [smallElt, smallElt] = some r ∧
      Selected (fun _ => 0) 60 60000 [smallElt, smallElt] r :=
  selection_bounded_maximal (by decide) (by decide) (by decide)

end Machine

end Titus.Results

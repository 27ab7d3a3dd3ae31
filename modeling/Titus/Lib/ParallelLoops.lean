import Mathlib
import Titus.Lib.Transition

/-! Loops that many owners run side by side, round after round.  In a round each owner has a loop of
its own, over items that any party may compute, and an array that its outputs are stored in.  The
owners begin a round one after the other and end it one after the other, and nobody ends a round
before all outputs of it are stored. -/

namespace ParallelLoops

/-- The loops: in round `k` owner `i` has `count k i` items, the output of each is `size k` cells
long, and the array of the owner is `initial k i` before. -/
structure Loops (ι β : Type*) where
  count : ℕ → ι → ℕ
  size : ℕ → ℕ
  output : ℕ → ι → ℕ → ℕ → β
  initial : ℕ → ι → ℕ → β

variable {ι β : Type*}

/-- An item of a loop. -/
@[ext] structure Item (ι : Type*) where
  round : ℕ
  owner : ι
  index : ℕ

@[ext] structure State (ι β : Type*) where
  begun : ι → ℕ
  ended : ι → ℕ
  computed : Set (Item ι)
  stored : Set (Item ι)
  array : ι → ℕ → β

/-- The items of a loop from index `first` on. -/
def span (k : ℕ) (i : ι) (first len : ℕ) : Set (Item ι) :=
  {x | x.round = k ∧ x.owner = i ∧ first ≤ x.index ∧ x.index < first + len}

namespace Loops

variable (L : Loops ι β)

/-- The array with the outputs of the items from index `first` on. -/
def store (k : ℕ) (i : ι) (first len : ℕ) (array : ℕ → β) (c : ℕ) : β :=
  if L.size k * first ≤ c ∧ c < L.size k * (first + len) then
    L.output k i (c / L.size k) (c % L.size k)
  else array c

/-- The array after the owner has run its loop alone, one item after the other. -/
def run (k : ℕ) (i : ι) : ℕ → β :=
  (List.range (L.count k i)).foldl (fun array j => L.store k i j 1 array) (L.initial k i)

/-- The cells of a span of items. -/
theorem mem_cells_iff {size first len c : ℕ} :
    size * first ≤ c ∧ c < size * (first + len) ↔
      0 < size ∧ first ≤ c / size ∧ c / size < first + len := by
  rcases Nat.eq_zero_or_pos size with rfl | hpos
  · simp
  · rw [Nat.le_div_iff_mul_le hpos, Nat.div_lt_iff_lt_mul hpos, Nat.mul_comm first,
      Nat.mul_comm (first + len)]
    exact ⟨fun h => ⟨hpos, h⟩, fun h => h.2⟩

/-- Stores of adjacent spans are one store. -/
theorem store_store (k : ℕ) (i : ι) (first len len' : ℕ) (array : ℕ → β) :
    L.store k i (first + len) len' (L.store k i first len array) =
      L.store k i first (len + len') array := by
  funext c
  simp only [store, Nat.mul_add]
  by_cases hlow : L.size k * first ≤ c
  · by_cases hfirst : c < L.size k * first + L.size k * len
    · rw [if_neg (by omega), if_pos ⟨hlow, hfirst⟩, if_pos ⟨hlow, by omega⟩]
    · have hno : ¬ (L.size k * first ≤ c ∧ c < L.size k * first + L.size k * len) :=
        fun h => hfirst h.2
      rw [if_neg hno]
      congr 1
      rw [eq_iff_iff]
      omega
  · rw [if_neg (by omega), if_neg (by omega), if_neg (by omega)]

/-- The loop leaves what a store of all items does. -/
theorem run_eq_store (k : ℕ) (i : ι) :
    L.run k i = L.store k i 0 (L.count k i) (L.initial k i) := by
  unfold run
  induction L.count k i with
  | zero =>
    funext c
    simp [store]
  | succ m ih =>
    rw [List.range_succ, List.foldl_append, ih]
    simp only [List.foldl_cons, List.foldl_nil]
    have hstore := L.store_store k i 0 m 1 (L.initial k i)
    rwa [Nat.zero_add] at hstore

end Loops

inductive Action (ι : Type*)
  | begin (i : ι)
  | compute (x : Item ι)
  | store (k : ℕ) (i : ι) (first len : ℕ)
  | finish (i : ι)

/-- All loops of round `k` have begun, and none has ended. -/
def Open (s : State ι β) (k : ℕ) : Prop := ∀ q, k < s.begun q ∧ s.ended q ≤ k

/-- All outputs of round `k` are stored. -/
def Complete (L : Loops ι β) (s : State ι β) (k : ℕ) : Prop :=
  ∀ q j, j < L.count k q → (⟨k, q, j⟩ : Item ι) ∈ s.stored

variable [DecidableEq ι]

open Classical in
/-- A step, where its condition holds. -/
noncomputable def next (L : Loops ι β) (s : State ι β) : Action ι → Option (State ι β)
  | .begin i =>
    if s.ended i = s.begun i then
      some { s with
        begun := Function.update s.begun i (s.begun i + 1)
        array := Function.update s.array i (L.initial (s.begun i) i) }
    else none
  | .compute x =>
    if Open s x.round ∧ x.index < L.count x.round x.owner ∧ x ∉ s.computed then
      some { s with computed := insert x s.computed }
    else none
  | .store k i first len =>
    if Open s k ∧ span k i first len ⊆ s.computed ∧ Disjoint (span k i first len) s.stored then
      some { s with
        stored := s.stored ∪ span k i first len
        array := Function.update s.array i (L.store k i first len (s.array i)) }
    else none
  | .finish i =>
    if s.ended i < s.begun i ∧ (∀ q, s.ended i < s.begun q) ∧ Complete L s (s.ended i) then
      some { s with ended := Function.update s.ended i (s.ended i + 1) }
    else none

/-- The loops, before the first round. -/
noncomputable def system (L : Loops ι β) : Transition.System (State ι β) (Action ι) where
  init s := (∀ i, s.begun i = 0) ∧ (∀ i, s.ended i = 0) ∧ s.computed = ∅ ∧ s.stored = ∅
  next := next L

variable {L : Loops ι β} {s s' : State ι β} {i : ι} {k first len : ℕ} {x : Item ι}

/-! ### Invariants -/

open Classical in
structure Ok (L : Loops ι β) (s : State ι β) : Prop where
  ended_le : ∀ i, s.ended i ≤ s.begun i
  begun_le : ∀ i, s.begun i ≤ s.ended i + 1
  computed : ∀ x ∈ s.computed, x.index < L.count x.round x.owner ∧ ∀ q, x.round < s.begun q
  stored : s.stored ⊆ s.computed
  complete : ∀ i k, k < s.ended i → Complete L s k
  /-- The array has the outputs that are stored, and is as it was elsewhere. -/
  array : ∀ i k, s.begun i = k + 1 → ∀ c,
    s.array i c = if 0 < L.size k ∧ (⟨k, i, c / L.size k⟩ : Item ι) ∈ s.stored then
      L.output k i (c / L.size k) (c % L.size k) else L.initial k i c

theorem Ok.init (h : (system L).init s) : Ok L s := by
  obtain ⟨hbegun, hended, hcomputed, hstored⟩ := h
  constructor
  · intro i
    rw [hended]
    exact Nat.zero_le _
  · intro i
    rw [hbegun]
    exact Nat.zero_le _
  · simp [hcomputed]
  · rw [hstored]
    exact Set.empty_subset _
  · intro i k hk
    rw [hended] at hk
    cases hk
  · intro i k hk
    rw [hbegun] at hk
    cases hk

theorem Ok.begin (h : Ok L s) (hi : s.ended i = s.begun i) :
    Ok L { s with
      begun := Function.update s.begun i (s.begun i + 1)
      array := Function.update s.array i (L.initial (s.begun i) i) } := by
  have hle : ∀ q, s.begun q ≤ Function.update s.begun i (s.begun i + 1) q := by
    intro q
    by_cases hq : q = i
    · subst hq
      rw [Function.update_self]
      exact Nat.le_succ _
    · rw [Function.update_of_ne hq]
  constructor
  · exact fun q => (h.ended_le q).trans (hle q)
  · intro q
    by_cases hq : q = i
    · subst hq
      simp [hi]
    · simpa [hq] using h.begun_le q
  · exact fun x hx => ⟨(h.computed x hx).1, fun q => ((h.computed x hx).2 q).trans_le (hle q)⟩
  · exact h.stored
  · exact h.complete
  · intro q k hk c
    by_cases hq : q = i
    · subst hq
      simp only [Function.update_self, Nat.add_right_cancel_iff] at hk ⊢
      subst hk
      rw [if_neg]
      rintro ⟨-, hstored⟩
      exact Nat.lt_irrefl _ ((h.computed _ (h.stored hstored)).2 q)
    · simp only [Function.update_of_ne hq] at hk ⊢
      exact h.array q k hk c

omit [DecidableEq ι] in
theorem Ok.compute (h : Ok L s) (hopen : Open s x.round)
    (hx : x.index < L.count x.round x.owner) :
    Ok L { s with computed := insert x s.computed } := by
  refine ⟨h.ended_le, h.begun_le, ?_, h.stored.trans (Set.subset_insert _ _), h.complete, h.array⟩
  rintro y (rfl | hy)
  · exact ⟨hx, fun q => (hopen q).1⟩
  · exact h.computed y hy

theorem Ok.store (h : Ok L s) (hopen : Open s k) (hsub : span k i first len ⊆ s.computed) :
    Ok L { s with
      stored := s.stored ∪ span k i first len
      array := Function.update s.array i (L.store k i first len (s.array i)) } := by
  classical
  refine ⟨h.ended_le, h.begun_le, h.computed, Set.union_subset h.stored hsub, ?_, ?_⟩
  · intro q k' hk' q' j hj
    exact .inl (h.complete q k' hk' q' j hj)
  · intro q k' hk' c
    simp only at hk' ⊢
    by_cases hq : q = i
    · subst hq
      -- the owner is in round `k`
      have hround : k' = k := by
        have hb := h.begun_le q
        have ho := hopen q
        omega
      subst hround
      rw [Function.update_self, Loops.store, h.array q k' hk' c]
      simp only [Loops.mem_cells_iff, Set.mem_union, span, Set.mem_ofPred_eq, true_and]
      by_cases hin : first ≤ c / L.size k' ∧ c / L.size k' < first + len
      · by_cases hpos : 0 < L.size k' <;> simp [hin, hpos]
      · simp [hin]
    · rw [Function.update_of_ne hq, h.array q k' hk' c]
      have hno : (⟨k', q, c / L.size k'⟩ : Item ι) ∉ span k i first len := fun hx => hq hx.2.1
      simp only [Set.mem_union, hno, or_false]

theorem Ok.finish (h : Ok L s) (hi : s.ended i < s.begun i) (hdone : Complete L s (s.ended i)) :
    Ok L { s with ended := Function.update s.ended i (s.ended i + 1) } := by
  constructor
  · intro q
    by_cases hq : q = i
    · subst hq
      simpa using Nat.succ_le_of_lt hi
    · simpa [hq] using h.ended_le q
  · intro q
    have hb := h.begun_le q
    by_cases hq : q = i
    · subst hq
      simp only [Function.update_self]
      omega
    · simpa [hq] using hb
  · exact h.computed
  · exact h.stored
  · intro q k hk
    by_cases hq : q = i
    · subst hq
      simp only [Function.update_self] at hk
      rcases Nat.lt_succ_iff_lt_or_eq.mp hk with hlt | rfl
      · exact h.complete q k hlt
      · exact hdone
    · simp only [Function.update_of_ne hq] at hk
      exact h.complete q k hk
  · exact h.array

theorem invariant (L : Loops ι β) : (system L).Invariant (Ok L) := by
  constructor
  · exact fun s => Ok.init
  · intro s a s' _ h hs
    cases a with
    | begin i =>
      simp only [system, next] at hs
      split at hs <;> cases hs
      exact h.begin ‹_›
    | compute x =>
      simp only [system, next] at hs
      split at hs <;> cases hs
      rename_i hx
      exact h.compute hx.1 hx.2.1
    | store k i first len =>
      simp only [system, next] at hs
      split at hs <;> cases hs
      rename_i hx
      exact h.store hx.1 hx.2.1
    | finish i =>
      simp only [system, next] at hs
      split at hs <;> cases hs
      rename_i hi
      exact h.finish hi.1 hi.2.2

/-! ### What an owner sees -/

omit [DecidableEq ι] in
/-- An owner that has ended its last round has in its array what its loop leaves. -/
theorem Ok.array_of_ended (h : Ok L s) (hbegun : s.begun i = k + 1) (hended : s.ended i = k + 1) :
    s.array i = L.run k i := by
  classical
  funext c
  have hcomplete := h.complete i k (by omega)
  have hiff : (⟨k, i, c / L.size k⟩ : Item ι) ∈ s.stored ↔ c / L.size k < L.count k i := by
    constructor
    · exact fun hx => (h.computed _ (h.stored hx)).1
    · exact hcomplete i _
  have hcells : L.size k * 0 ≤ c ∧ c < L.size k * (0 + L.count k i) ↔
      0 < L.size k ∧ c / L.size k < L.count k i := by
    rw [Loops.mem_cells_iff, Nat.zero_add]
    exact and_congr_right fun _ => and_iff_right (Nat.zero_le _)
  rw [h.array i k hbegun c, Loops.run_eq_store, Loops.store]
  simp only [hcells, hiff]

end ParallelLoops

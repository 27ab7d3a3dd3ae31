import Titus.Lib.HeapTree
import Titus.VictimSelector.Symmetry
import Mathlib.Data.Finset.Sort
import Mathlib.Order.Fin.Basic

/-! The registrations that the contexts make: with the parent and the children in the tree of
termination detection, and with the ranks that victim selection may return. -/

namespace Titus.Startup

open VictimSelector

variable {n : ℕ}

/-! ### The functions -/

/-- `registrations_status` of one rank. -/
abbrev Registrations (n : ℕ) := Fin n → Bool

/-- `register_to_rank`, which fails at its assertion for a number that is no rank. -/
def registerToRank (reg : Registrations n) (arg : ℕ) : Option (Registrations n) :=
  if h : arg < n then some (Function.update reg ⟨arg, h⟩ true) else none

/-- `register_to_rank` for each of the ranks `l` in turn. -/
def registerToRanks (reg : Registrations n) (l : List ℕ) : Option (Registrations n) :=
  l.foldlM registerToRank reg

/-- The ranks that `TITUS_DLB_init_context` registers to on `rank`. -/
def treeRanks (rank : Fin n) : List ℕ :=
  (if rank.val ≠ 0 then [(rank.val - 1) / 2] else []) ++
    (if 2 * rank.val + 1 < n then [2 * rank.val + 1] else []) ++
    if 2 * rank.val + 2 < n then [2 * rank.val + 2] else []

/-- The registrations that `TITUS_DLB_init_context` makes on `rank`. -/
def initContext (rank : Fin n) : Option (Registrations n) :=
  registerToRanks (Function.update (fun _ => false) rank true) (treeRanks rank)

/-- `DVS_SW_SMALLEST_SIZE`. -/
def smallestSmallWorld : ℕ := 8

/-- The implementation of victim selection on `n` ranks: random, or the small-world graph that every
rank generates from the same seed. -/
inductive VictimSelection (n : ℕ)
  | random
  | smallWorld (neighbors : Neighbors)

/-- The constructor of `DVS_Context`, where `degree` and `draws` are what the generator uses.  Small
worlds of fewer than `DVS_SW_SMALLEST_SIZE` ranks fall back to random selection. -/
def selectMode (n : ℕ) (smallWorld : Bool) (degree : ℕ) (draws : List Draw) :
    Option (VictimSelection n) :=
  if smallWorld ∧ ¬ n < smallestSmallWorld then
    (d1KleinbergNeighboringGenerator n degree 1 draws).map .smallWorld
  else some .random

namespace VictimSelection

/-- The ranks that the constructor registers to on `rank`. -/
def registered (selection : VictimSelection n) (rank : Fin n) : List ℕ :=
  match selection with
  | random => List.range n
  | smallWorld neighbors => (neighbors rank).sort (· ≤ ·)

/-- `select_target_rank` on `rank`, where `rand()` returns `drawn`. -/
def selectTargetRank (selection : VictimSelection n) (rank : Fin n) (drawn : ℕ) : Option ℕ :=
  match selection with
  | random =>
    let a := toRank drawn % (n - 1)
    some (if rank.val ≤ a then a + 1 else a)
  | smallWorld neighbors =>
    ((neighbors rank).sort (· ≤ ·))[drawn % (neighbors rank).card]?

/-- `select_next_hop_to` on `rank`, where `endValue` says what `*lower_bound` reads at the end
position. -/
def selectNextHopTo (selection : VictimSelection n) (endValue : ℕ → ℕ → ℕ) (rank : Fin n)
    (dest : ℕ) : Option ℕ :=
  match selection with
  | random => some dest
  | smallWorld neighbors => VictimSelector.selectNextHopTo n endValue neighbors rank dest

end VictimSelection

/-- The registrations of `rank` after the constructor of its context. -/
def constructContext (selection : VictimSelection n) (rank : Fin n) : Option (Registrations n) :=
  (initContext rank).bind (registerToRanks · (selection.registered rank))

/-! ### What is registered -/

theorem registerToRanks_eq {reg reg' : Registrations n} {l : List ℕ}
    (h : registerToRanks reg l = some reg') (b : Fin n) :
    reg' b = true ↔ reg b = true ∨ b.val ∈ l := by
  induction l generalizing reg with
  | nil =>
    cases h
    simp
  | cons a l ih =>
    obtain ⟨reg₁, h₁, hrest⟩ := Option.bind_eq_some_iff.mp h
    unfold registerToRank at h₁
    split at h₁ <;> cases h₁
    rw [ih hrest]
    by_cases hb : b.val = a
    · subst hb
      simp
    · have hne : b ≠ ⟨a, by assumption⟩ := fun heq => hb (by rw [heq])
      simp [Function.update_of_ne hne, hb]

theorem exists_registerToRanks (reg : Registrations n) {l : List ℕ} (h : ∀ a ∈ l, a < n) :
    ∃ reg', registerToRanks reg l = some reg' := by
  induction l generalizing reg with
  | nil => exact ⟨reg, rfl⟩
  | cons a l ih =>
    obtain ⟨reg', hreg'⟩ := ih (Function.update reg ⟨a, h a (List.mem_cons_self ..)⟩ true)
      fun b hb => h b (List.mem_cons_of_mem _ hb)
    refine ⟨reg', Option.bind_eq_some_iff.mpr ⟨_, ?_, hreg'⟩⟩
    exact dif_pos _

/-- The tree links a rank with its parent and with the ranks whose parent it is. -/
theorem mem_treeRanks {a b : Fin n} :
    b.val ∈ treeRanks a ↔
      0 < a.val ∧ b = HeapTree.parent a ∨ 0 < b.val ∧ a = HeapTree.parent b := by
  simp only [treeRanks, HeapTree.parent, Fin.ext_iff, List.mem_append]
  constructor
  · rintro ((h | h) | h) <;> split at h <;> simp at h <;> omega
  · rintro (⟨ha, h⟩ | ⟨ha, h⟩)
    · left; left
      rw [if_pos (by omega)]
      simp [h]
    · rcases Nat.mod_two_eq_zero_or_one b.val with hmod | hmod
      · right
        rw [if_pos (by omega), List.mem_singleton]
        omega
      · left; right
        rw [if_pos (by omega), List.mem_singleton]
        omega

theorem treeRanks_lt (a : Fin n) : ∀ b ∈ treeRanks a, b < n := by
  intro b hb
  simp only [treeRanks, List.mem_append] at hb
  rcases hb with (h | h) | h <;> split at h <;> simp at h <;> omega

/-- Rank `a` registers `b`: it is itself, or next to it in the tree, or victim selection asks for
it. -/
def Registers (selection : VictimSelection n) (a b : Fin n) : Prop :=
  b = a ∨ b.val ∈ treeRanks a ∨ b.val ∈ selection.registered a

theorem constructContext_eq {selection : VictimSelection n} {a : Fin n} {reg : Registrations n}
    (h : constructContext selection a = some reg) (b : Fin n) :
    reg b = true ↔ Registers selection a b := by
  obtain ⟨reg₁, h₁, h₂⟩ := Option.bind_eq_some_iff.mp h
  have hself : Function.update (fun _ => false) a true b = true ↔ b = a := by
    by_cases hb : b = a
    · simp [hb]
    · simp [hb]
  rw [registerToRanks_eq h₂, registerToRanks_eq h₁, hself, or_assoc]
  rfl

end Titus.Startup

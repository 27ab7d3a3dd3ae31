import Titus.Startup.Handshake
import Titus.Startup.Registration

/-! The registrations of all contexts together: they are mutual, they contain every pair of ranks
that communicates, and the handshakes over them come to an end. -/

namespace Titus.Startup

open VictimSelector

variable {n : ℕ} {selection : VictimSelection n}

/-! ### The pairs of ranks -/

/-- What construction makes sure of. -/
def Selected : VictimSelection n → Prop
  | .random => True
  | .smallWorld neighbors => 2 ≤ n ∧ Ringed n neighbors ∧ Mutual neighbors

theorem selected_of_selectMode {smallWorld : Bool} {degree : ℕ} {draws : List Draw}
    (h : selectMode n smallWorld degree draws = some selection) : Selected selection := by
  unfold selectMode at h
  split at h
  · rename_i hmode
    obtain ⟨neighbors, hbuild, rfl⟩ := Option.map_eq_some_iff.mp h
    have h2 : 2 ≤ n := (by decide : 2 ≤ smallestSmallWorld).trans (Nat.le_of_not_lt hmode.2)
    exact ⟨h2, ringed_construct h2 hbuild, mutual_construct hbuild⟩
  · cases h
    trivial

theorem mem_registered_smallWorld {neighbors : Neighbors} {a : Fin n} {b : ℕ} :
    b ∈ (VictimSelection.smallWorld neighbors).registered a ↔ b ∈ neighbors a :=
  Finset.mem_sort _

theorem registered_lt (h : Selected selection) (a : Fin n) :
    ∀ b ∈ selection.registered a, b < n := by
  cases selection with
  | random =>
    intro b hb
    exact List.mem_range.mp hb
  | smallWorld neighbors =>
    intro b hb
    exact h.2.1.lt a b (mem_registered_smallWorld.mp hb)

theorem exists_constructContext (h : Selected selection) (a : Fin n) :
    ∃ reg, constructContext selection a = some reg := by
  obtain ⟨reg₁, h₁⟩ := exists_registerToRanks (Function.update (fun _ => false) a true)
    (treeRanks_lt a)
  obtain ⟨reg, hreg⟩ := exists_registerToRanks reg₁ (registered_lt h a)
  exact ⟨reg, Option.bind_eq_some_iff.mpr ⟨reg₁, h₁, hreg⟩⟩

/-- The registrations of all ranks. -/
def registrations (selection : VictimSelection n) (a : Fin n) : Registrations n :=
  (constructContext selection a).getD fun _ => false

theorem registrations_eq (h : Selected selection) (a b : Fin n) :
    registrations selection a b = true ↔ Registers selection a b := by
  obtain ⟨reg, hreg⟩ := exists_constructContext h a
  rw [registrations, hreg]
  exact constructContext_eq hreg b

theorem registers_symm (h : Selected selection) {a b : Fin n} (hab : Registers selection a b) :
    Registers selection b a := by
  rcases hab with rfl | htree | hselection
  · exact .inl rfl
  · exact .inr (.inl (mem_treeRanks.mpr (mem_treeRanks.mp htree).symm))
  · cases selection with
    | random => exact .inr (.inr (List.mem_range.mpr a.isLt))
    | smallWorld neighbors =>
      rw [mem_registered_smallWorld] at hselection
      exact .inr (.inr (mem_registered_smallWorld.mpr (h.2.2 a b hselection)))

theorem selectTargetRank_mem (h : Selected selection) (h2 : 2 ≤ n) (a : Fin n) (drawn : ℕ) :
    ∃ v ∈ selection.registered a, selection.selectTargetRank a drawn = some v := by
  cases selection with
  | random =>
    refine ⟨_, List.mem_range.mpr ?_, rfl⟩
    have hlt : toRank drawn % (n - 1) < n - 1 := Nat.mod_lt _ (by omega)
    split <;> omega
  | smallWorld neighbors =>
    have hpos : 0 < (neighbors a).card :=
      Finset.card_pos.mpr ⟨_, h.2.1.forward_mem a a.isLt⟩
    have hlt : drawn % (neighbors a).card < ((neighbors a).sort (· ≤ ·)).length := by
      rw [Finset.length_sort]
      exact Nat.mod_lt _ hpos
    exact ⟨_, List.getElem_mem hlt, List.getElem?_eq_getElem hlt⟩

theorem selectNextHopTo_mem (h : Selected selection) (hn : n < 2 ^ 16) {endValue : ℕ → ℕ → ℕ}
    (hend : ∀ rank dest, endValue rank dest ≠ dest) (a dest : Fin n) :
    ∃ hop ∈ selection.registered a, selection.selectNextHopTo endValue a dest = some hop := by
  cases selection with
  | random => exact ⟨dest, List.mem_range.mpr dest.isLt, rfl⟩
  | smallWorld neighbors =>
    obtain ⟨hop, hmem, heq, -⟩ := getClosestNeighbor_spec hn dest.isLt (h.2.1.lt a)
      ⟨_, h.2.1.forward_mem a a.isLt⟩ (hend a dest)
    exact ⟨hop, mem_registered_smallWorld.mpr hmem, heq⟩

/-! ### Connectivity -/

/-- The handshakes in state `s`. -/
structure Awaited (reg : Fin n → Fin n → Bool) (s : State n) : Prop where
  /-- The assertions on what a rank has read hold. -/
  running : ∀ r, s.phase r ≠ .aborted
  /-- No rank waits for a notification that is never sent. -/
  progress : ∀ r, s.phase r ≠ .opened → ∃ a s', next reg s a = some s'
  terminating : ∀ a s', next reg s a = some s' → remaining s' < remaining s
  /-- No notification is left over. -/
  clean : ∀ r k, (s.phase r).hasOpened k = true →
    (∀ q, ⟨r, k, q⟩ ∉ s.posted) ∧ ∀ i, s.slots r k i = 0

/-- What the registrations of all contexts make sure of. -/
structure Connected (selection : VictimSelection n) (endValue : ℕ → ℕ → ℕ) : Prop where
  constructs : ∀ a, ∃ reg, constructContext selection a = some reg
  refl : ∀ a, registrations selection a a = true
  symm : ∀ a b, registrations selection a b = registrations selection b a
  parent : ∀ a : Fin n, 0 < a.val → registrations selection a (HeapTree.parent a) = true
  leftChild : ∀ a c, HeapTree.left a = some c → registrations selection a c = true
  rightChild : ∀ a c, HeapTree.right a = some c → registrations selection a c = true
  target : 2 ≤ n → ∀ a drawn, ∃ v : Fin n, selection.selectTargetRank a drawn = some v.val ∧
    registrations selection a v = true
  nextHop : ∀ a dest : Fin n, ∃ hop : Fin n,
    selection.selectNextHopTo endValue a dest = some hop.val ∧ registrations selection a hop = true
  handshakes : ∀ s, (handshake (registrations selection)).Reachable s →
    Awaited (registrations selection) s

theorem contexts_connected (hn : n < 2 ^ 16) {smallWorld : Bool} {degree : ℕ} {draws : List Draw}
    (hmode : selectMode n smallWorld degree draws = some selection) {endValue : ℕ → ℕ → ℕ}
    (hend : ∀ rank dest, endValue rank dest ≠ dest) : Connected selection endValue := by
  have h := selected_of_selectMode hmode
  have hreg := registrations_eq h
  have hsymm : ∀ a b, registrations selection a b = registrations selection b a := by
    intro a b
    rw [Bool.eq_iff_iff, hreg, hreg]
    exact ⟨registers_symm h, registers_symm h⟩
  have htree : ∀ a b : Fin n, b.val ∈ treeRanks a → registrations selection a b = true :=
    fun a b hb => (hreg a b).mpr (.inr (.inl hb))
  have hselection : ∀ a b : Fin n, b.val ∈ selection.registered a →
      registrations selection a b = true := fun a b hb => (hreg a b).mpr (.inr (.inr hb))
  constructor
  · exact exists_constructContext h
  · intro a
    exact (hreg a a).mpr (.inl rfl)
  · exact hsymm
  · intro a ha
    exact htree a _ (mem_treeRanks.mpr (.inl ⟨ha, rfl⟩))
  · intro a c hc
    have hval := HeapTree.left_eq_some.mp hc
    exact htree a c (mem_treeRanks.mpr
      (.inr ⟨by omega, (HeapTree.parent_eq (.inl hval)).symm⟩))
  · intro a c hc
    have hval := HeapTree.right_eq_some.mp hc
    exact htree a c (mem_treeRanks.mpr
      (.inr ⟨by omega, (HeapTree.parent_eq (.inr hval)).symm⟩))
  · intro h2 a drawn
    obtain ⟨v, hv, heq⟩ := selectTargetRank_mem h h2 a drawn
    exact ⟨⟨v, registered_lt h a v hv⟩, heq, hselection a _ hv⟩
  · intro a dest
    obtain ⟨hop, hhop, heq⟩ := selectNextHopTo_mem h hn hend a dest
    exact ⟨⟨hop, registered_lt h a hop hhop⟩, heq, hselection a _ hhop⟩
  · intro s hs
    have hok := (ok_invariant hsymm).holds hs
    exact ⟨hok.running, fun r hr => hok.exists_next hsymm hr, fun a s' => remaining_lt,
      fun r k => hok.clean⟩

/-- Eight ranks, each linked with the rank two further on. -/
theorem contexts_connected_eight :
    ∃ selection : VictimSelection 8,
      selectMode 8 true 1 (List.replicate 8 ⟨2, true⟩) = some selection ∧
        Connected selection fun _ dest => dest + 1 := by
  have h : (selectMode 8 true 1 (List.replicate 8 ⟨2, true⟩)).isSome := by decide +kernel
  exact ⟨_, (Option.some_get h).symm, contexts_connected (by decide) (Option.some_get h).symm
    fun _ dest => Nat.succ_ne_self dest⟩

end Titus.Startup

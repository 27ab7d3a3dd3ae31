import Mathlib.Data.List.Nodup
import Mathlib.Data.List.Perm.Basic
import Mathlib.Data.List.Perm.Subperm

/-! The other ends of the edges at a vertex, and the edges from the vertices of a forest to their
children. -/

namespace Incidence

variable {α : Type*} [DecidableEq α] {a b u v w : α} {edges done rest : List (α × α)}

/-! ### Ends -/

/-- The other end of an edge, if it is an edge at `v`. -/
def otherEnd (v : α) (e : α × α) : List α :=
  (if e.1 = v then [e.2] else []) ++ if e.2 = v then [e.1] else []

/-- The other ends of the edges at `v`, in the order of the edges. -/
def ends (v : α) (edges : List (α × α)) : List α := edges.flatMap (otherEnd v)

theorem otherEnd_left (h : a ≠ b) : otherEnd a (a, b) = [b] := by
  rw [otherEnd, if_pos rfl, if_neg h.symm, List.append_nil]

theorem otherEnd_right (h : a ≠ b) : otherEnd b (a, b) = [a] := by
  rw [otherEnd, if_neg h, if_pos rfl, List.nil_append]

theorem otherEnd_of_ne (ha : v ≠ a) (hb : v ≠ b) : otherEnd v (a, b) = [] := by
  rw [otherEnd, if_neg ha.symm, if_neg hb.symm, List.append_nil]

theorem mem_otherEnd {e : α × α} (h : w ∈ otherEnd v e) : w = e.1 ∨ w = e.2 := by
  rw [otherEnd, List.mem_append] at h
  rcases h with h | h
  · split at h
    · exact .inr (List.mem_singleton.mp h)
    · cases h
  · split at h
    · exact .inl (List.mem_singleton.mp h)
    · cases h

theorem ends_cons (v : α) (e : α × α) (edges : List (α × α)) :
    ends v (e :: edges) = otherEnd v e ++ ends v edges := List.flatMap_cons

theorem ends_append (v : α) (edges edges' : List (α × α)) :
    ends v (edges ++ edges') = ends v edges ++ ends v edges' := List.flatMap_append

theorem ends_concat (v : α) (edges : List (α × α)) (e : α × α) :
    ends v (edges ++ [e]) = ends v edges ++ otherEnd v e := by
  rw [ends_append, ends_cons]
  exact congrArg _ (List.append_nil _)

/-- Each edge counts at both of its ends. -/
theorem count_ends (v w : α) (edges : List (α × α)) :
    (ends v edges).count w = edges.count (v, w) + edges.count (w, v) := by
  induction edges with
  | nil => rfl
  | cons e edges ih =>
    obtain ⟨a, b⟩ := e
    have hedge : (otherEnd v (a, b)).count w =
        (if a = v ∧ b = w then 1 else 0) + if a = w ∧ b = v then 1 else 0 := by
      rw [otherEnd, List.count_append]
      congr 1
      · by_cases hav : a = v
        · by_cases hbw : b = w <;> simp [hav, hbw]
        · simp [hav]
      · by_cases hbv : b = v
        · by_cases haw : a = w <;> simp [hbv, haw]
        · simp [hbv]
    rw [ends_cons, List.count_append, hedge, ih, List.count_cons, List.count_cons]
    simp only [beq_iff_eq, Prod.mk.injEq]
    omega

/-- An edge that is still to come adds to the ends at `v`. -/
theorem length_ends_lt (hab : a ≠ b) (hv : v = a ∨ v = b) :
    (ends v done).length < (ends v (done ++ (a, b) :: rest)).length := by
  rw [ends_append, ends_cons, List.length_append, List.length_append]
  rcases hv with rfl | rfl
  · rw [otherEnd_left hab, List.length_singleton]
    omega
  · rw [otherEnd_right hab, List.length_singleton]
    omega

/-! ### Forests -/

variable {children : α → List α} {l : List α}

/-- The edges from the vertices of a list to their children. -/
def childEdges (children : α → List α) (l : List α) : List (α × α) :=
  l.flatMap fun p => (children p).map (Prod.mk p)

omit [DecidableEq α] in
theorem mem_childEdges : (a, b) ∈ childEdges children l ↔ a ∈ l ∧ b ∈ children a := by
  rw [childEdges, List.mem_flatMap]
  constructor
  · rintro ⟨p, hp, he⟩
    obtain ⟨c, hc, heq⟩ := List.mem_map.mp he
    cases heq
    exact ⟨hp, hc⟩
  · rintro ⟨ha, hb⟩
    exact ⟨a, ha, List.mem_map_of_mem hb⟩

theorem count_childEdges (hl : l.Nodup) (hchildren : ∀ p ∈ l, (children p).Nodup) :
    (childEdges children l).count (a, b) = if a ∈ l ∧ b ∈ children a then 1 else 0 := by
  have hnodup : (childEdges children l).Nodup := by
    rw [childEdges, List.nodup_flatMap]
    constructor
    · intro p hp
      exact (hchildren p hp).map (fun _ _ heq => congrArg Prod.snd heq)
    · apply hl.imp
      intro p q hpq e hp hq
      obtain ⟨c, -, rfl⟩ := List.mem_map.mp hp
      obtain ⟨d, -, heq⟩ := List.mem_map.mp hq
      exact hpq (congrArg Prod.fst heq).symm
  rw [hnodup.count]
  simp only [mem_childEdges]

/-- At a vertex of a forest end the edges from its parent and to its children. -/
theorem ends_childEdges_perm {parent : Option α} (hl : l.Nodup)
    (hchildren : ∀ p ∈ l, (children p).Nodup) (hv : v ∈ l)
    (hparent : ∀ p, parent = some p ↔ p ∈ l ∧ v ∈ children p) :
    (ends v (childEdges children l)).Perm (parent.toList ++ children v) := by
  rw [List.perm_iff_count]
  intro w
  rw [count_ends, count_childEdges hl hchildren, count_childEdges hl hchildren,
    List.count_append, (hchildren v hv).count, Nat.add_comm]
  congr 1
  · simp only [← hparent]
    cases parent with
    | none => rfl
    | some p =>
      rw [Option.toList_some, List.count_singleton]
      simp only [beq_iff_eq, Option.some.injEq]
  · simp only [hv, true_and]

omit [DecidableEq α] in
/-- No vertex is the child of two. -/
theorem length_childEdges_le (hl : l.Nodup) (hchildren : ∀ p ∈ l, (children p).Nodup)
    (hmem : ∀ p ∈ l, ∀ c ∈ children p, c ∈ l)
    (hone : ∀ p ∈ l, ∀ q ∈ l, ∀ c, c ∈ children p → c ∈ children q → p = q) :
    (childEdges children l).length ≤ l.length := by
  have hsnd : (childEdges children l).map Prod.snd = l.flatMap children := by
    rw [childEdges, List.map_flatMap]
    simp only [List.map_map, Function.comp_def, List.map_id']
  have hnodup : (l.flatMap children).Nodup := by
    rw [List.nodup_flatMap]
    refine ⟨hchildren, ?_⟩
    apply hl.imp_of_mem
    intro p q hp hq hpq c hc hc'
    exact hpq (hone p hp q hq c hc hc')
  have hsubset : l.flatMap children ⊆ l := by
    intro c hc
    obtain ⟨p, hp, hc⟩ := List.mem_flatMap.mp hc
    exact hmem p hp c hc
  rw [← List.length_map Prod.snd, hsnd]
  exact (hnodup.subperm hsubset).length_le

end Incidence

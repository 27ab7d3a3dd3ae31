import Mathlib.Data.List.Pairwise
import Mathlib.Logic.Function.Basic
import Mathlib.Algebra.Order.Group.Nat

/-! Slots that many writers reserve in blocks, fill in any order, and announce block by block, and a
reader that waits for the announcements in order.  When it has passed the last slot, every slot is
filled and nothing is on its way. -/

namespace Announcement

/-- A block of `length` slots from index `first` on that is not announced yet, and what is still to
be written there. -/
structure Block (α : Type*) where
  first : ℕ
  length : ℕ
  writes : List α
deriving DecidableEq

variable {ι α : Type*}

/-- The block has the slot at index `j`. -/
def Block.Covers (b : Block α) (j : ℕ) : Prop := b.first ≤ j ∧ j < b.first + b.length

/-- Two blocks have no slot in common. -/
def Apart (b c : Block α) : Prop :=
  b.first + b.length ≤ c.first ∨ c.first + c.length ≤ b.first

/-- The block is posted, or its writer still carries it. -/
def Pending (posted : List (Block α)) (carried : ι → Option (Block α)) (b : Block α) : Prop :=
  b ∈ posted ∨ ∃ i, carried i = some b

/-- The invariant of the slots: `posted` are the blocks on their way, `carried` those that writers
have not posted yet, and `announced` has the length of an announced block at its first index. -/
structure Ok (slots : List α) (arrived : α → Prop) (posted : List (Block α))
    (carried : ι → Option (Block α)) (announced : ℕ → ℕ) : Prop where
  length_pos : ∀ b, Pending posted carried b → 1 ≤ b.length
  inside : ∀ b, Pending posted carried b → b.first + b.length ≤ slots.length
  writes : ∀ b, Pending posted carried b → ∀ x ∈ b.writes, ∃ j, b.Covers j ∧ slots[j]? = some x
  filled : ∀ (j : ℕ) (x : α), slots[j]? = some x →
    arrived x ∨ ∃ b, Pending posted carried b ∧ b.Covers j ∧ x ∈ b.writes
  posted_apart : posted.Pairwise Apart
  carried_posted : ∀ i b, carried i = some b → ∀ c ∈ posted, Apart b c
  carried_carried : ∀ i j b c, i ≠ j → carried i = some b → carried j = some c → Apart b c
  announced_inside : ∀ i, announced i ≠ 0 → i + announced i ≤ slots.length
  announced_pending : ∀ i, announced i ≠ 0 → ∀ b, Pending posted carried b →
    b.first + b.length ≤ i ∨ i + announced i ≤ b.first
  announced_announced : ∀ i j, i ≠ j → announced i ≠ 0 → announced j ≠ 0 →
    i + announced i ≤ j ∨ j + announced j ≤ i

/-- The reader waits at index `i`: nothing before it is pending or announced. -/
structure Passed (posted : List (Block α)) (carried : ι → Option (Block α)) (announced : ℕ → ℕ)
    (i : ℕ) : Prop where
  pending : ∀ b, Pending posted carried b → i ≤ b.first
  announced : ∀ j, announced j ≠ 0 → i ≤ j

variable {slots : List α} {arrived arrived' : α → Prop} {posted posted' : List (Block α)}
  {carried carried' : ι → Option (Block α)} {announced : ℕ → ℕ} {b : Block α} {i : ι} {k : ℕ}

theorem Apart.symm {b c : Block α} (h : Apart b c) : Apart c b := Or.symm h

/-- No slots, and nothing on its way. -/
theorem Ok.empty (hno : ∀ b, ¬ Pending posted carried b) (hannounced : ∀ i, announced i = 0) :
    Ok ([] : List α) arrived posted carried announced := by
  refine ⟨fun b h => absurd h (hno b), fun b h => absurd h (hno b), fun b h => absurd h (hno b),
    fun j x h => by simp at h, ?_, fun i b h => absurd (.inr ⟨i, h⟩) (hno b),
    fun i j b c _ h => absurd (.inr ⟨i, h⟩) (hno b), fun i h => absurd (hannounced i) h,
    fun i h => absurd (hannounced i) h, fun i j _ h => absurd (hannounced i) h⟩
  cases posted with
  | nil => exact .nil
  | cons b l => exact absurd (.inl (List.mem_cons_self ..)) (hno b)

/-- The pending blocks may lose writes that have arrived, or change hands. -/
theorem Ok.shrink (h : Ok slots arrived posted carried announced)
    (hpending : ∀ c, Pending posted' carried' c → ∃ b, Pending posted carried b ∧
      c.first = b.first ∧ c.length = b.length ∧ c.writes ⊆ b.writes)
    (hfilled : ∀ (j : ℕ) (x : α), slots[j]? = some x →
      arrived' x ∨ ∃ b, Pending posted' carried' b ∧ b.Covers j ∧ x ∈ b.writes)
    (hposted : posted'.Pairwise Apart)
    (hcarried : ∀ i b, carried' i = some b → ∀ c ∈ posted', Apart b c)
    (hcarried' : ∀ i j b c, i ≠ j → carried' i = some b → carried' j = some c → Apart b c) :
    Ok slots arrived' posted' carried' announced := by
  refine ⟨fun c hc => ?_, fun c hc => ?_, fun c hc x hx => ?_, hfilled, hposted, hcarried,
    hcarried', h.announced_inside, fun j hj c hc => ?_, h.announced_announced⟩
  · obtain ⟨b, hb, -, hlen, -⟩ := hpending c hc
    exact hlen ▸ h.length_pos b hb
  · obtain ⟨b, hb, hfirst, hlen, -⟩ := hpending c hc
    rw [hfirst, hlen]
    exact h.inside b hb
  · obtain ⟨b, hb, hfirst, hlen, hsub⟩ := hpending c hc
    obtain ⟨j, hj, hs⟩ := h.writes b hb x (hsub hx)
    refine ⟨j, ?_, hs⟩
    unfold Block.Covers at hj ⊢
    rwa [hfirst, hlen]
  · obtain ⟨b, hb, hfirst, hlen, -⟩ := hpending c hc
    rw [hfirst, hlen]
    exact h.announced_pending j hj b hb

theorem Passed.shrink (h : Passed posted carried announced k)
    (hpending : ∀ c, Pending posted' carried' c → ∃ b, Pending posted carried b ∧
      c.first = b.first ∧ c.length = b.length ∧ c.writes ⊆ b.writes) :
    Passed posted' carried' announced k := by
  refine ⟨fun c hc => ?_, h.announced⟩
  obtain ⟨b, hb, hfirst, -, -⟩ := hpending c hc
  rw [hfirst]
  exact h.pending b hb

/-! ### Writers -/

section Writer

variable [DecidableEq ι]

theorem pending_reserve {new : Block α} (hi : carried i = none) (c : Block α) :
    Pending posted (Function.update carried i (some new)) c ↔
      c = new ∨ Pending posted carried c := by
  constructor
  · rintro (hc | ⟨j, hj⟩)
    · exact .inr (.inl hc)
    · by_cases hji : j = i
      · subst hji
        rw [Function.update_self] at hj
        exact .inl (Option.some.inj hj).symm
      · rw [Function.update_of_ne hji] at hj
        exact .inr (.inr ⟨j, hj⟩)
  · rintro (rfl | hc | ⟨j, hj⟩)
    · exact .inr ⟨i, Function.update_self ..⟩
    · exact .inl hc
    · refine .inr ⟨j, ?_⟩
      rwa [Function.update_of_ne]
      rintro rfl
      rw [hi] at hj
      cases hj

/-- A writer reserves new slots. -/
theorem Ok.reserve (h : Ok slots arrived posted carried announced) {new : List α} (hnew : new ≠ [])
    (hi : carried i = none) :
    Ok (slots ++ new) arrived posted
      (Function.update carried i (some ⟨slots.length, new.length, new⟩)) announced := by
  have hlen : (slots ++ new).length = slots.length + new.length := List.length_append
  have hold : ∀ {j : ℕ} {x : α}, slots[j]? = some x → (slots ++ new)[j]? = some x := by
    intro j x hj
    rw [List.getElem?_append_left]
    · exact hj
    · exact (List.getElem?_eq_some_iff.mp hj).1
  have hpos : 1 ≤ new.length := List.length_pos_iff.mpr hnew
  have hafter : ∀ c, Pending posted carried c → Apart ⟨slots.length, new.length, new⟩ c :=
    fun c hc => .inr (h.inside c hc)
  refine ⟨fun c hc => ?_, fun c hc => ?_, fun c hc x hx => ?_, fun j x hj => ?_, h.posted_apart,
    fun j b hj c hc => ?_, fun j j' b c hne hj hj' => ?_, fun j hj => ?_, fun j hj c hc => ?_,
    h.announced_announced⟩
  · rcases (pending_reserve hi c).mp hc with rfl | hc
    · exact hpos
    · exact h.length_pos c hc
  · rw [hlen]
    rcases (pending_reserve hi c).mp hc with rfl | hc
    · exact le_rfl
    · exact (h.inside c hc).trans (Nat.le_add_right _ _)
  · rcases (pending_reserve hi c).mp hc with rfl | hc
    · obtain ⟨j, hj, rfl⟩ := List.getElem_of_mem hx
      refine ⟨slots.length + j, ⟨Nat.le_add_right _ _, Nat.add_lt_add_left hj _⟩, ?_⟩
      rw [List.getElem?_append_right (Nat.le_add_right _ _), Nat.add_sub_cancel_left]
      exact List.getElem?_eq_getElem hj
    · obtain ⟨j, hj, hs⟩ := h.writes c hc x hx
      exact ⟨j, hj, hold hs⟩
  · rcases Nat.lt_or_ge j slots.length with hlt | hge
    · rw [List.getElem?_append_left hlt] at hj
      rcases h.filled j x hj with harr | ⟨b, hb, hcov, hx⟩
      · exact .inl harr
      · exact .inr ⟨b, (pending_reserve hi b).mpr (.inr hb), hcov, hx⟩
    · have hlast := (List.getElem?_eq_some_iff.mp hj).1
      rw [List.getElem?_append_right hge] at hj
      refine .inr ⟨_, (pending_reserve hi _).mpr (.inl rfl), ⟨hge, ?_⟩,
        List.mem_of_getElem? hj⟩
      rwa [hlen] at hlast
  · by_cases hji : j = i
    · subst hji
      rw [Function.update_self] at hj
      cases hj
      exact hafter c (.inl hc)
    · rw [Function.update_of_ne hji] at hj
      exact h.carried_posted j b hj c hc
  · by_cases hji : j = i
    · subst hji
      rw [Function.update_self] at hj
      rw [Function.update_of_ne hne.symm] at hj'
      cases hj
      exact hafter c (.inr ⟨j', hj'⟩)
    · rw [Function.update_of_ne hji] at hj
      by_cases hji' : j' = i
      · subst hji'
        rw [Function.update_self] at hj'
        cases hj'
        exact (hafter b (.inr ⟨j, hj⟩)).symm
      · rw [Function.update_of_ne hji'] at hj'
        exact h.carried_carried j j' b c hne hj hj'
  · rw [hlen]
    exact (h.announced_inside j hj).trans (Nat.le_add_right _ _)
  · rcases (pending_reserve hi c).mp hc with rfl | hc
    · exact .inr (h.announced_inside j hj)
    · exact h.announced_pending j hj c hc

/-- What a writer posts: its block, of which some writes may have arrived already. -/
theorem pending_post {ws : List α} (hi : carried i = some b) (hws : ws ⊆ b.writes) (c : Block α)
    (hc : Pending (posted ++ [{ b with writes := ws }]) (Function.update carried i none) c) :
    ∃ b, Pending posted carried b ∧ c.first = b.first ∧ c.length = b.length ∧
      c.writes ⊆ b.writes := by
  rcases hc with hc | ⟨j, hj⟩
  · rcases List.mem_append.mp hc with hc | hc
    · exact ⟨c, .inl hc, rfl, rfl, List.Subset.refl _⟩
    · rw [List.mem_singleton.mp hc]
      exact ⟨b, .inr ⟨i, hi⟩, rfl, rfl, hws⟩
  · by_cases hji : j = i
    · subst hji
      rw [Function.update_self] at hj
      cases hj
    · rw [Function.update_of_ne hji] at hj
      exact ⟨c, .inr ⟨j, hj⟩, rfl, rfl, List.Subset.refl _⟩

/-- A writer posts its block. -/
theorem Ok.post (h : Ok slots arrived posted carried announced) (hi : carried i = some b)
    {ws : List α} (hws : ws ⊆ b.writes)
    (harrived : ∀ x, x ∈ slots → arrived x → arrived' x)
    (hrest : ∀ x ∈ b.writes, arrived' x ∨ x ∈ ws) :
    Ok slots arrived' (posted ++ [{ b with writes := ws }]) (Function.update carried i none)
      announced := by
  refine h.shrink (pending_post hi hws) (fun j x hj => ?_) ?_ (fun j c hj d hd => ?_)
    fun j j' c d hne hj hj' => ?_
  · rcases h.filled j x hj with harr | ⟨c, hc, hcov, hx⟩
    · exact .inl (harrived x (List.mem_of_getElem? hj) harr)
    · rcases hc with hc | ⟨j', hj'⟩
      · exact .inr ⟨c, .inl (List.mem_append_left _ hc), hcov, hx⟩
      · by_cases hji : j' = i
        · subst hji
          rw [hi] at hj'
          cases hj'
          rcases hrest x hx with harr | hx
          · exact .inl harr
          · exact .inr ⟨_, .inl (List.mem_append_right _ (List.mem_singleton.mpr rfl)), hcov, hx⟩
        · exact .inr ⟨c, .inr ⟨j', by rwa [Function.update_of_ne hji]⟩, hcov, hx⟩
  · refine List.pairwise_append.mpr ⟨h.posted_apart, List.pairwise_singleton _ _, ?_⟩
    intro c hc d hd
    rw [List.mem_singleton.mp hd]
    exact (show Apart b c from h.carried_posted i b hi c hc).symm
  · by_cases hji : j = i
    · subst hji
      rw [Function.update_self] at hj
      cases hj
    · rw [Function.update_of_ne hji] at hj
      rcases List.mem_append.mp hd with hd | hd
      · exact h.carried_posted j c hj d hd
      · rw [List.mem_singleton.mp hd]
        exact h.carried_carried j i c b hji hj hi
  · by_cases hji : j = i
    · subst hji
      rw [Function.update_self] at hj
      cases hj
    · by_cases hji' : j' = i
      · subst hji'
        rw [Function.update_self] at hj'
        cases hj'
      · rw [Function.update_of_ne hji] at hj
        rw [Function.update_of_ne hji'] at hj'
        exact h.carried_carried j j' c d hne hj hj'

end Writer

/-! ### Arrivals -/

theorem pending_arrive {m w : ℕ} (hm : posted[m]? = some b) (c : Block α)
    (hc : Pending (posted.set m { b with writes := b.writes.eraseIdx w }) carried c) :
    ∃ b, Pending posted carried b ∧ c.first = b.first ∧ c.length = b.length ∧
      c.writes ⊆ b.writes := by
  rcases hc with hc | hc
  · rcases List.mem_or_eq_of_mem_set hc with hc | rfl
    · exact ⟨c, .inl hc, rfl, rfl, List.Subset.refl _⟩
    · exact ⟨b, .inl (List.mem_of_getElem? hm), rfl, rfl, List.eraseIdx_subset⟩
  · exact ⟨c, .inr hc, rfl, rfl, List.Subset.refl _⟩

/-- A write arrives. -/
theorem Ok.arrive (h : Ok slots arrived posted carried announced) {m w : ℕ} {x : α}
    (hm : posted[m]? = some b) (hw : b.writes[w]? = some x)
    (harrived : ∀ y, y ∈ slots → arrived y → arrived' y) (hx : arrived' x) :
    Ok slots arrived' (posted.set m { b with writes := b.writes.eraseIdx w }) carried
      announced := by
  obtain ⟨hmlt, hmeq⟩ := List.getElem?_eq_some_iff.mp hm
  refine h.shrink (pending_arrive hm) (fun j y hj => ?_) ?_ (fun j c hj d hd => ?_)
    h.carried_carried
  · rcases h.filled j y hj with harr | ⟨c, hc, hcov, hy⟩
    · exact .inl (harrived y (List.mem_of_getElem? hj) harr)
    · by_cases hyx : y = x
      · exact .inl (hyx ▸ hx)
      · have hkeep : y ∈ b.writes → y ∈ b.writes.eraseIdx w := by
          intro hy
          obtain ⟨j', hj', rfl⟩ := List.getElem_of_mem hy
          refine List.mem_eraseIdx_iff_getElem?.mpr ⟨j', ?_, List.getElem?_eq_getElem hj'⟩
          rintro rfl
          rw [List.getElem?_eq_getElem hj'] at hw
          exact hyx (Option.some.inj hw)
        rcases hc with hc | hc
        · obtain ⟨m', hm', rfl⟩ := List.getElem_of_mem hc
          by_cases hmm : m' = m
          · subst hmm
            rw [hmeq] at hy hcov
            exact .inr ⟨_, .inl (List.mem_set hmlt _), hcov, hkeep hy⟩
          · refine .inr ⟨posted[m'], .inl ?_, hcov, hy⟩
            refine List.mem_iff_getElem?.mpr ⟨m', ?_⟩
            rw [List.getElem?_set_ne (Ne.symm hmm), List.getElem?_eq_getElem hm']
        · exact .inr ⟨c, .inr hc, hcov, hy⟩
  · refine List.pairwise_iff_getElem.mpr fun j j' hj hj' hlt => ?_
    rw [List.length_set] at hj hj'
    have := List.pairwise_iff_getElem.mp h.posted_apart j j' hj hj' hlt
    rw [List.getElem_set, List.getElem_set]
    split
    · rename_i hmj
      subst hmj
      rw [if_neg (by omega)]
      rwa [hmeq] at this
    · split
      · rename_i hmj
        subst hmj
        rwa [hmeq] at this
      · exact this
  · rcases List.mem_or_eq_of_mem_set hd with hd | rfl
    · exact h.carried_posted j c hj d hd
    · exact h.carried_posted j c hj b (List.mem_of_getElem? hm)

theorem pending_announce {m : ℕ} (c : Block α) (hc : Pending (posted.eraseIdx m) carried c) :
    Pending posted carried c :=
  hc.imp_left fun hc => List.mem_of_mem_eraseIdx hc

/-- A block is announced when all its writes have arrived. -/
theorem Ok.announce (h : Ok slots arrived posted carried announced) {m : ℕ}
    (hm : posted[m]? = some b) (hw : b.writes = []) :
    Ok slots arrived (posted.eraseIdx m) carried
      (Function.update announced b.first b.length) := by
  have hb : Pending posted carried b := .inl (List.mem_of_getElem? hm)
  obtain ⟨hmlt, hmeq⟩ := List.getElem?_eq_some_iff.mp hm
  -- the block is apart from every other pending one
  have hapart : ∀ c, Pending (posted.eraseIdx m) carried c → Apart c b := by
    rintro c (hc | ⟨j, hj⟩)
    · obtain ⟨m', hne, hm'⟩ := List.mem_eraseIdx_iff_getElem?.mp hc
      obtain ⟨hm'lt, rfl⟩ := List.getElem?_eq_some_iff.mp hm'
      rcases Nat.lt_or_gt_of_ne hne with hlt | hlt
      · have := List.pairwise_iff_getElem.mp h.posted_apart m' m hm'lt hmlt hlt
        rwa [hmeq] at this
      · have := List.pairwise_iff_getElem.mp h.posted_apart m m' hmlt hm'lt hlt
        rw [hmeq] at this
        exact this.symm
    · exact h.carried_posted j c hj b (List.mem_of_getElem? hm)
  refine ⟨fun c hc => h.length_pos c (pending_announce c hc),
    fun c hc => h.inside c (pending_announce c hc),
    fun c hc => h.writes c (pending_announce c hc), fun j x hj => ?_,
    h.posted_apart.sublist (List.eraseIdx_sublist ..),
    fun i c hc d hd => h.carried_posted i c hc d (List.mem_of_mem_eraseIdx hd),
    h.carried_carried, fun i hi => ?_, fun i hi c hc => ?_, fun i j hne hi hj => ?_⟩
  · rcases h.filled j x hj with harr | ⟨c, hc, hcov, hx⟩
    · exact .inl harr
    · refine .inr ⟨c, ?_, hcov, hx⟩
      rcases hc with hc | hc
      · obtain ⟨m', hm', rfl⟩ := List.getElem_of_mem hc
        refine .inl (List.mem_eraseIdx_iff_getElem?.mpr ⟨m', ?_, List.getElem?_eq_getElem hm'⟩)
        rintro rfl
        rw [hmeq, hw] at hx
        cases hx
      · exact .inr hc
  · by_cases hib : i = b.first
    · subst hib
      rw [Function.update_self]
      exact h.inside b hb
    · rw [Function.update_of_ne hib] at hi ⊢
      exact h.announced_inside i hi
  · by_cases hib : i = b.first
    · subst hib
      rw [Function.update_self]
      exact hapart c hc
    · rw [Function.update_of_ne hib] at hi ⊢
      exact h.announced_pending i hi c (pending_announce c hc)
  · by_cases hib : i = b.first
    · subst hib
      rw [Function.update_self]
      rw [Function.update_of_ne hne.symm] at hj ⊢
      exact (h.announced_pending j hj b hb)
    · rw [Function.update_of_ne hib] at hi ⊢
      by_cases hjb : j = b.first
      · subst hjb
        rw [Function.update_self]
        exact (h.announced_pending i hi b hb).symm
      · rw [Function.update_of_ne hjb] at hj ⊢
        exact h.announced_announced i j hne hi hj

theorem Passed.announce (h : Passed posted carried announced k) {m : ℕ}
    (hm : posted[m]? = some b) :
    Passed (posted.eraseIdx m) carried (Function.update announced b.first b.length) k := by
  refine ⟨fun c hc => h.pending c (pending_announce c hc), fun j hj => ?_⟩
  by_cases hjb : j = b.first
  · rw [hjb]
    exact h.pending b (.inl (List.mem_of_getElem? hm))
  · rw [Function.update_of_ne hjb] at hj
    exact h.announced j hj

/-! ### The reader -/

/-- The reader consumes the announcement at its index. -/
theorem Ok.consume (h : Ok slots arrived posted carried announced) (k : ℕ) :
    Ok slots arrived posted carried (Function.update announced k 0) := by
  have hne : ∀ {j}, Function.update announced k 0 j ≠ 0 →
      announced j ≠ 0 ∧ Function.update announced k 0 j = announced j := by
    intro j hj
    by_cases hjk : j = k
    · subst hjk
      rw [Function.update_self] at hj
      exact absurd rfl hj
    · rw [Function.update_of_ne hjk] at hj ⊢
      exact ⟨hj, rfl⟩
  refine ⟨h.length_pos, h.inside, h.writes, h.filled, h.posted_apart, h.carried_posted,
    h.carried_carried, fun j hj => ?_, fun j hj b hb => ?_, fun i j hij hi hj => ?_⟩
  · rw [(hne hj).2]
    exact h.announced_inside j (hne hj).1
  · rw [(hne hj).2]
    exact h.announced_pending j (hne hj).1 b hb
  · rw [(hne hi).2, (hne hj).2]
    exact h.announced_announced i j hij (hne hi).1 (hne hj).1

theorem Passed.consume (hp : Passed posted carried announced k)
    (h : Ok slots arrived posted carried announced) (hk : announced k ≠ 0) :
    Passed posted carried (Function.update announced k 0) (k + announced k) := by
  refine ⟨fun b hb => ?_, fun j hj => ?_⟩
  · have h1 := h.announced_pending k hk b hb
    have h2 := hp.pending b hb
    have h3 := h.length_pos b hb
    omega
  · have hjk : j ≠ k := by
      rintro rfl
      rw [Function.update_self] at hj
      exact hj rfl
    rw [Function.update_of_ne hjk] at hj
    have h1 := h.announced_announced k j hjk.symm hk hj
    have h2 := hp.announced j hj
    omega

/-- At the start the reader has passed nothing. -/
theorem Passed.zero : Passed posted carried announced 0 :=
  ⟨fun _ _ => Nat.zero_le _, fun _ _ => Nat.zero_le _⟩

/-- Past the last slot nothing is pending. -/
theorem Passed.not_pending (hp : Passed posted carried announced k)
    (h : Ok slots arrived posted carried announced) (hk : slots.length ≤ k) (b : Block α) :
    ¬ Pending posted carried b := by
  intro hb
  have h1 := hp.pending b hb
  have h2 := h.inside b hb
  have h3 := h.length_pos b hb
  omega

/-- Past the last slot nothing is announced. -/
theorem Passed.announced_eq_zero (hp : Passed posted carried announced k)
    (h : Ok slots arrived posted carried announced) (hk : slots.length ≤ k) (j : ℕ) :
    announced j = 0 := by
  by_contra hj
  have h1 := hp.announced j hj
  have h2 := h.announced_inside j hj
  omega

/-- When nothing is pending, every slot is filled. -/
theorem Ok.arrived_of_not_pending (h : Ok slots arrived posted carried announced)
    (hno : ∀ b, ¬ Pending posted carried b) : ∀ x ∈ slots, arrived x := by
  intro x hx
  obtain ⟨j, hj, rfl⟩ := List.getElem_of_mem hx
  rcases h.filled j _ (List.getElem?_eq_getElem hj) with harr | ⟨b, hb, -⟩
  · exact harr
  · exact absurd hb (hno b)

end Announcement

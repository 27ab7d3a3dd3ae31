import Titus.VictimSelector.Kleinberg

/-! Which long-range links have the ring distance that was drawn.  A negative sign becomes the
factor `2^64 - 1`, so the difference `a - distance` is formed modulo `2^64`, and the reduction
modulo `nb_rank` that follows agrees with the ring only when that difference did not wrap or when
the wrap happens to be harmless for this number of ranks. -/

namespace Titus.VictimSelector

open RingMetric

/-- The rank computed from the draw `d` is at the drawn distance from `a`, on one side or the
other, and is another rank than `a`. -/
structure LinkHasDrawnDistance (nbRank a : ℕ) (d : Draw) : Prop where
  onRing : randomNeighbor nbRank a d = forward nbRank a d.distance ∨
    randomNeighbor nbRank a d = backward nbRank a d.distance
  distance : getDistance nbRank a (randomNeighbor nbRank a d) =
    min d.distance (nbRank - d.distance)
  ne : randomNeighbor nbRank a d ≠ a

/-- The 64-bit wrap does no harm: there is none, or `2^64` is a multiple of `nbRank`, or it moves
the link from `a - d` exactly to `a + d`. -/
def WrapHarmless (nbRank a : ℕ) (d : Draw) : Prop :=
  d.positive = true ∨ d.distance ≤ a ∨ 2 ^ 64 % nbRank = 0 ∨
    2 ^ 64 % nbRank = 2 * d.distance % nbRank

instance (nbRank a : ℕ) (d : Draw) : Decidable (WrapHarmless nbRank a d) :=
  inferInstanceAs (Decidable (_ ∨ _ ∨ _ ∨ _))

section

variable {n a d w : ℕ}

/-- A link on either side is at the drawn distance. -/
theorem linkHasDrawnDistance_of_onRing {draw : Draw} (hn : n < 2 ^ 16) (ha : a < n)
    (hd : 0 < draw.distance) (hdn : draw.distance < n)
    (h : randomNeighbor n a draw = forward n a draw.distance ∨
      randomNeighbor n a draw = backward n a draw.distance) :
    LinkHasDrawnDistance n a draw := by
  have hlt : randomNeighbor n a draw < n := randomNeighbor_lt (by omega) a draw
  have hdist : dist n a (randomNeighbor n a draw) = min draw.distance (n - draw.distance) := by
    rcases h with h | h
    · rw [h, dist_forward ha hdn]
    · rw [h, dist_backward ha hd hdn]
  refine ⟨h, by rw [getDistance_eq hn ha hlt, hdist], fun heq => ?_⟩
  rw [heq, dist_self] at hdist
  omega

theorem wrapped_eq_backward_iff (hw : w < n) (ha : a < n) (had : a < d) (hdn : d < n) :
    (w + (a + n - d)) % n = backward n a d ↔ w = 0 := by
  have hb : backward n a d = a + n - d := by
    rcases backward_cases ha (by omega) hdn with ⟨h, _⟩ | ⟨_, h⟩
    · omega
    · exact h
  rw [hb]
  rcases Nat.lt_or_ge (w + (a + n - d)) n with h | h
  · rw [Nat.mod_eq_of_lt h]
    omega
  · rw [Nat.mod_eq_sub_mod h, Nat.mod_eq_of_lt (by omega)]
    omega

theorem wrapped_eq_forward_iff (hw : w < n) (ha : a < n) (had : a < d) (hdn : d < n) :
    (w + (a + n - d)) % n = forward n a d ↔ w = 2 * d % n := by
  have hsum : (w + (a + n - d)) % n = w + (a + n - d) ∧ w + (a + n - d) < n ∨
      (w + (a + n - d)) % n = w + a - d ∧ n ≤ w + (a + n - d) := by
    rcases Nat.lt_or_ge (w + (a + n - d)) n with h | h
    · exact .inl ⟨Nat.mod_eq_of_lt h, h⟩
    · exact .inr ⟨by rw [Nat.mod_eq_sub_mod h, Nat.mod_eq_of_lt (by omega)]; omega, h⟩
  have hdbl : 2 * d % n = 2 * d ∧ 2 * d < n ∨ 2 * d % n = 2 * d - n ∧ n ≤ 2 * d := by
    rcases Nat.lt_or_ge (2 * d) n with h | h
    · exact .inl ⟨Nat.mod_eq_of_lt h, h⟩
    · exact .inr ⟨by rw [Nat.mod_eq_sub_mod h, Nat.mod_eq_of_lt (by omega)], h⟩
  have hf := forward_cases ha hdn
  omega

end

/-- The computed rank is at the drawn distance exactly when the wrap is harmless. -/
theorem linkHasDrawnDistance_iff_wrapHarmless {nbRank a : ℕ} {d : Draw} (hn : nbRank < 2 ^ 16)
    (ha : a < nbRank) (hd : 1 ≤ d.distance)
    (hdn : d.distance < nbRank) : LinkHasDrawnDistance nbRank a d ↔ WrapHarmless nbRank a d := by
  obtain ⟨distance, positive⟩ := d
  simp only at hd hdn
  cases positive with
  | true =>
    have hb := randomNeighbor_of_positive hn ha hdn
    exact ⟨fun _ => .inl rfl, fun _ => linkHasDrawnDistance_of_onRing hn ha hd hdn (.inl hb)⟩
  | false =>
    have hb := randomNeighbor_of_negative hn ha hd hdn
    rcases Nat.lt_or_ge a distance with had | had
    · rw [if_neg (by omega)] at hb
      have hw : 2 ^ 64 % nbRank < nbRank := Nat.mod_lt _ (by omega)
      have hback := wrapped_eq_backward_iff hw ha had hdn
      have hforw := wrapped_eq_forward_iff hw ha had hdn
      rw [← hb] at hback hforw
      constructor
      · intro h
        rcases h.onRing with h | h
        · exact .inr (.inr (.inr (hforw.mp h)))
        · exact .inr (.inr (.inl (hback.mp h)))
      · rintro (h | h | h | h)
        · cases h
        · exact absurd h (by simpa using had)
        · exact linkHasDrawnDistance_of_onRing hn ha hd hdn (.inr (hback.mpr h))
        · exact linkHasDrawnDistance_of_onRing hn ha hd hdn (.inl (hforw.mpr h))
    · rw [if_pos had] at hb
      have hback : backward nbRank a distance = a - distance := by
        rcases backward_cases ha hd hdn with ⟨_, h⟩ | ⟨h, _⟩
        · exact h
        · exact absurd h (by simpa using had)
      exact ⟨fun _ => .inr (.inl had),
        fun _ => linkHasDrawnDistance_of_onRing hn ha hd hdn (.inr (hb.trans hback.symm))⟩

theorem linkHasDrawnDistance_iff_wrapHarmless_eleven :
    LinkHasDrawnDistance 11 5 ⟨3, false⟩ ↔ WrapHarmless 11 5 ⟨3, false⟩ :=
  linkHasDrawnDistance_iff_wrapHarmless (by decide) (by decide) (by decide) (by decide)

/-- With nine ranks, rank 0 and the distance 7 drawn with a negative sign, rank 0 links to
itself. -/
theorem randomNeighbor_self_link :
    ¬ ∀ (nbRank a : ℕ) (d : Draw), 8 ≤ nbRank → nbRank < 2 ^ 16 → a < nbRank → 1 ≤ d.distance →
      d.distance < nbRank → LinkHasDrawnDistance nbRank a d := by
  intro h
  refine (h 9 0 ⟨7, false⟩ (by decide) (by decide) (by decide) (by decide) (by decide)).ne ?_
  decide

end Titus.VictimSelector

import Mathlib.Data.Finset.Max
import Mathlib.Order.Interval.Finset.Nat

/-! The ring on `0, …, n - 1`: the distance of two positions, the two unit steps, and which members
of a finite set of positions can be closest to a given one. -/

namespace RingMetric

/-- The distance of `a` and `b` on the line. -/
def gap (a b : ℕ) : ℕ := max a b - min a b

/-- The distance of `a` and `b` along the shorter arc of the ring of `n` positions. -/
def dist (n a b : ℕ) : ℕ := min (gap a b) (n - gap a b)

/-- `a + d` on the ring. -/
def forward (n a d : ℕ) : ℕ := (a + d) % n

/-- `a - d` on the ring, for `d ≤ n`. -/
def backward (n a d : ℕ) : ℕ := (a + (n - d)) % n

@[simp] theorem gap_self (a : ℕ) : gap a a = 0 := by simp [gap]

theorem gap_comm (a b : ℕ) : gap a b = gap b a := by simp [gap, max_comm, min_comm]

@[simp] theorem dist_self (n a : ℕ) : dist n a a = 0 := by simp [dist]

theorem dist_comm (n a b : ℕ) : dist n a b = dist n b a := by simp [dist, gap_comm]

theorem dist_of_le {n a b : ℕ} (h : a ≤ b) : dist n a b = min (b - a) (n - (b - a)) := by
  rw [dist, gap, max_eq_right h, min_eq_left h]

theorem dist_of_ge {n a b : ℕ} (h : b ≤ a) : dist n a b = min (a - b) (n - (a - b)) := by
  rw [dist_comm, dist_of_le h]

theorem dist_le_half (n a b : ℕ) : dist n a b ≤ n / 2 := by
  unfold dist
  omega

theorem dist_eq_zero {n a b : ℕ} (ha : a < n) (hb : b < n) : dist n a b = 0 ↔ a = b := by
  rcases Nat.le_total a b with h | h
  · rw [dist_of_le h]
    omega
  · rw [dist_of_ge h]
    omega

theorem backward_lt {n : ℕ} (hn : 0 < n) (a d : ℕ) : backward n a d < n := Nat.mod_lt _ hn

theorem forward_cases {n a d : ℕ} (ha : a < n) (hd : d < n) :
    (a + d < n ∧ forward n a d = a + d) ∨ (n ≤ a + d ∧ forward n a d = a + d - n) := by
  unfold forward
  rcases Nat.lt_or_ge (a + d) n with h | h
  · exact .inl ⟨h, Nat.mod_eq_of_lt h⟩
  · exact .inr ⟨h, by rw [Nat.mod_eq_sub_mod h, Nat.mod_eq_of_lt (by omega)]⟩

theorem backward_cases {n a d : ℕ} (ha : a < n) (hd : 0 < d) (hdn : d < n) :
    (d ≤ a ∧ backward n a d = a - d) ∨ (a < d ∧ backward n a d = a + n - d) := by
  rcases forward_cases ha (show n - d < n by omega) with ⟨h, hf⟩ | ⟨h, hf⟩
  · exact .inr ⟨by omega, by unfold backward; unfold forward at hf; omega⟩
  · exact .inl ⟨by omega, by unfold backward; unfold forward at hf; omega⟩

theorem dist_forward {n a d : ℕ} (ha : a < n) (hd : d < n) :
    dist n a (forward n a d) = min d (n - d) := by
  rcases forward_cases ha hd with ⟨h, hf⟩ | ⟨h, hf⟩
  · rw [hf, dist_of_le (by omega), Nat.add_sub_cancel_left]
  · rw [hf, dist_of_ge (by omega), show a - (a + d - n) = n - d by omega,
      show n - (n - d) = d by omega, min_comm]

theorem dist_backward {n a d : ℕ} (ha : a < n) (hd : 0 < d) (hdn : d < n) :
    dist n a (backward n a d) = min d (n - d) := by
  rw [show backward n a d = forward n a (n - d) from rfl, dist_forward ha (by omega),
    show n - (n - d) = d by omega, min_comm]

/-- From a position other than `b`, one of the two unit steps comes closer to `b`. -/
theorem exists_closer_step {n a b : ℕ} (hn : 2 ≤ n) (ha : a < n) (hb : b < n) (hne : a ≠ b) :
    dist n (forward n a 1) b < dist n a b ∨ dist n (backward n a 1) b < dist n a b := by
  rcases Nat.lt_or_gt_of_ne hne with h | h
  · -- `b` is above `a`: forward is a plain step, backward may wrap to `n - 1`
    have hf : forward n a 1 = a + 1 := Nat.mod_eq_of_lt (by omega)
    rw [hf, dist_of_le h.le, dist_of_le (show a + 1 ≤ b by omega)]
    rcases backward_cases ha Nat.one_pos (by omega) with ⟨h1, hg⟩ | ⟨h1, hg⟩
    · rw [hg, dist_of_le (show a - 1 ≤ b by omega)]
      omega
    · rw [hg, dist_of_ge (show b ≤ a + n - 1 by omega)]
      omega
  · have hg : backward n a 1 = a - 1 := by
      rcases backward_cases ha Nat.one_pos (by omega) with ⟨_, hg⟩ | ⟨h1, _⟩
      · exact hg
      · omega
    rw [hg, dist_of_ge h.le, dist_of_ge (show b ≤ a - 1 by omega)]
    rcases forward_cases ha (show 1 < n by omega) with ⟨h1, hf⟩ | ⟨h1, hf⟩
    · rw [hf, dist_of_ge (show b ≤ a + 1 by omega)]
      omega
    · rw [hf, dist_of_le (show a + 1 - n ≤ b by omega)]
      omega

/-- Between two positions on one side of `b`, the distance to `b` is least at an end. -/
theorem min_dist_le_above {n b lo x hi : ℕ} (hb : b ≤ lo) (h1 : lo ≤ x) (h2 : x ≤ hi)
    (hhi : hi < n) : min (dist n b lo) (dist n b hi) ≤ dist n b x := by
  rw [dist_of_le hb, dist_of_le (hb.trans h1), dist_of_le (hb.trans (h1.trans h2))]
  omega

theorem min_dist_le_below {n b lo x hi : ℕ} (hb : hi ≤ b) (hbn : b < n) (h1 : lo ≤ x)
    (h2 : x ≤ hi) : min (dist n b lo) (dist n b hi) ≤ dist n b x := by
  rw [dist_of_ge hb, dist_of_ge (h2.trans hb), dist_of_ge (h1.trans (h2.trans hb))]
  omega

end RingMetric

import Titus.Logger.Entry
import Mathlib.Data.List.Pairwise

/-! What a timer counts under any calls of `start`, `stop` and `finalize`, with a clock that may show
one time more than once. -/

namespace Titus.Logger

/-! ### Calls -/

/-- A call on a `TITUS_Logger_Entry_Timer_ns` that reads the clock. -/
inductive TimerCall
  | start (now : BitVec 64)
  | stop (now : BitVec 64)
  | finalize (now : BitVec 64)
deriving DecidableEq

namespace TimerCall

/-- What the clock shows. -/
def now : TimerCall → BitVec 64
  | .start now | .stop now | .finalize now => now

def isStart : TimerCall → Bool
  | .start _ => true
  | .stop _ | .finalize _ => false

def apply (t : TimerNs) : TimerCall → TimerNs
  | .start now => t.start now
  | .stop now => t.stop now
  | .finalize now => Logger.finalize now t

end TimerCall

/-- The constructor. -/
def newTimer : TimerNs := ⟨⟨0, 0⟩, 0, 0⟩

def timerAfter (calls : List TimerCall) : TimerNs := calls.foldl TimerCall.apply newTimer

/-- The time in which the latest call was a start, up to the last call. -/
def runningTime : List TimerCall → ℕ
  | a :: b :: calls =>
    (if a.isStart then b.now.toNat - a.now.toNat else 0) + runningTime (b :: calls)
  | _ => 0

/-- What the clock showed at the latest stop, or `stopped` if there was none. -/
def latestStop (stopped : BitVec 64) (calls : List TimerCall) : BitVec 64 :=
  calls.foldl (fun w a => if a.isStart then w else a.now) stopped

/-- After a start at the time of the latest stop, the clock shows a later time at the next call. -/
def MissedStart (stopped : BitVec 64) (calls : List TimerCall) : Prop :=
  ∃ before a b after, calls = before ++ a :: b :: after ∧ a.isStart ∧
    a.now = latestStop stopped before ∧ a.now ≠ b.now

/-- The clock never goes back. -/
def NeverDecreasing (calls : List TimerCall) : Prop :=
  calls.Pairwise fun a b => a.now ≤ b.now

/-! ### What one call adds -/

/-- The time in which the latest call was a start that is not seen as one. -/
def missedTime : BitVec 64 → List TimerCall → ℕ
  | stopped, a :: b :: calls =>
    (if a.isStart ∧ a.now = stopped then b.now.toNat - a.now.toNat else 0) +
      missedTime (latestStop stopped [a]) (b :: calls)
  | _, _ => 0

/-- The timer after call `a`, where `stopped` was the latest stop before it. -/
structure JustCalled (t : TimerNs) (stopped : BitVec 64) (a : TimerCall) : Prop where
  stopped_le : stopped ≤ a.now
  lastStop : t.lastStop = latestStop stopped [a]
  lastStart : if a.isStart then t.lastStart = a.now else t.lastStart ≤ a.now
  count_le : t.count ≤ a.now

variable {t : TimerNs} {stopped : BitVec 64} {a b : TimerCall} {calls : List TimerCall}

theorem latestStop_of_start (h : a.isStart) : latestStop stopped [a] = stopped := if_pos h

theorem latestStop_of_stop (h : a.isStart = false) : latestStop stopped [a] = a.now := by
  simp [latestStop, h]

/-- Each call adds the time since the latest start, if the timer is running. -/
theorem count_apply (t : TimerNs) (b : TimerCall) :
    (b.apply t).count = t.count + t.elapsed b.now := by
  cases b <;> rfl

theorem lastStop_apply (t : TimerNs) (b : TimerCall) :
    (b.apply t).lastStop = latestStop t.lastStop [b] := by
  cases b <;> rfl

theorem lastStart_apply (t : TimerNs) (b : TimerCall) :
    (b.apply t).lastStart = if b.isStart then b.now else t.lastStart := by
  cases b <;> rfl

/-- The timer is running after a start, unless the clock showed the time of the latest stop. -/
theorem JustCalled.elapsed (h : JustCalled t stopped a) (now : BitVec 64) :
    t.elapsed now = if a.isStart ∧ a.now ≠ stopped then now - a.now else 0 := by
  have hstart := h.lastStart
  have hstop := h.lastStop
  have hle := h.stopped_le
  unfold TimerNs.elapsed
  cases hkind : a.isStart with
  | true =>
    rw [if_pos hkind] at hstart
    rw [latestStop_of_start hkind] at hstop
    rw [hstart, hstop]
    by_cases heq : a.now = stopped
    · rw [if_neg (by rw [heq]; exact BitVec.lt_irrefl _), if_neg (by simp [heq])]
    · rw [if_pos (by bv_omega), if_pos ⟨rfl, heq⟩]
  | false =>
    simp only [hkind, Bool.false_eq_true, if_false] at hstart
    rw [latestStop_of_stop hkind] at hstop
    rw [hstop, if_neg (BitVec.not_lt.mpr hstart), if_neg (by simp)]

theorem JustCalled.apply (h : JustCalled t stopped a) (hle : a.now ≤ b.now) :
    JustCalled (b.apply t) (latestStop stopped [a]) b ∧
      (b.apply t).count.toNat = t.count.toNat +
        if a.isStart ∧ a.now ≠ stopped then b.now.toNat - a.now.toNat else 0 := by
  have hcount := h.count_le
  have hadded : (b.apply t).count.toNat = t.count.toNat +
      if a.isStart ∧ a.now ≠ stopped then b.now.toNat - a.now.toNat else 0 := by
    rw [count_apply, h.elapsed]
    split
    · bv_omega
    · rw [add_zero]
      rfl
  refine ⟨?_, hadded⟩
  constructor
  · cases hkind : a.isStart with
    | true =>
      rw [latestStop_of_start hkind]
      exact BitVec.le_trans h.stopped_le hle
    | false => rwa [latestStop_of_stop hkind]
  · rw [lastStop_apply, h.lastStop]
  · rw [lastStart_apply]
    have hstart := h.lastStart
    cases hkind : b.isStart with
    | true => rfl
    | false =>
      simp only [Bool.false_eq_true, if_false]
      split at hstart
      · rwa [hstart]
      · exact BitVec.le_trans hstart hle
  · rw [BitVec.le_def] at hcount hle ⊢
    rw [hadded]
    split <;> omega

theorem justCalled_first (a : TimerCall) : JustCalled (a.apply newTimer) 0 a := by
  have hzero : ∀ x : BitVec 64, 0 ≤ x := fun x => BitVec.le_def.mpr (Nat.zero_le _)
  constructor
  · exact hzero _
  · exact lastStop_apply newTimer a
  · rw [lastStart_apply]
    cases a.isStart with
    | true => rfl
    | false => exact hzero _
  · rw [count_apply]
    exact hzero _

/-! ### What all calls add -/

/-- The timer counts the running time, except what it misses. -/
theorem JustCalled.count_foldl (h : JustCalled t stopped a) (hclock : NeverDecreasing (a :: calls)) :
    (calls.foldl TimerCall.apply t).count.toNat + missedTime stopped (a :: calls) =
      t.count.toNat + runningTime (a :: calls) := by
  induction calls generalizing t stopped a with
  | nil => rfl
  | cons b calls ih =>
    obtain ⟨hfirst, hrest⟩ := List.pairwise_cons.mp hclock
    obtain ⟨hnext, hadded⟩ := h.apply (hfirst b List.mem_cons_self)
    have hlater := ih hnext hrest
    rw [List.foldl_cons, missedTime, runningTime]
    rw [hadded] at hlater
    by_cases hkind : a.isStart
    · by_cases heq : a.now = stopped
      · simp only [hkind, heq, ne_eq, not_true, and_false, and_true, if_true, if_false] at hlater ⊢
        omega
      · simp only [hkind, heq, ne_eq, not_false_eq_true, and_true, and_false, if_true,
          if_false] at hlater ⊢
        omega
    · simp only [hkind, false_and, if_false, Bool.false_eq_true] at hlater ⊢
      omega

theorem missedStart_cons : MissedStart stopped (a :: b :: calls) ↔
    (a.isStart ∧ a.now = stopped ∧ a.now ≠ b.now) ∨
      MissedStart (latestStop stopped [a]) (b :: calls) := by
  constructor
  · rintro ⟨before, a', b', after, hcalls, hstart, heq, hne⟩
    cases before with
    | nil =>
      cases hcalls
      exact .inl ⟨hstart, heq, hne⟩
    | cons x before =>
      obtain ⟨rfl, htail⟩ := List.cons.inj hcalls
      exact .inr ⟨before, a', b', after, htail, hstart, heq, hne⟩
  · rintro (⟨hstart, heq, hne⟩ | ⟨before, a', b', after, hcalls, hstart, heq, hne⟩)
    · exact ⟨[], a, b, calls, rfl, hstart, heq, hne⟩
    · exact ⟨a :: before, a', b', after, congrArg (a :: ·) hcalls, hstart, heq, hne⟩

/-- Time is missed after a start that is not seen. -/
theorem missedTime_eq_zero_iff (hclock : NeverDecreasing (a :: calls)) :
    missedTime stopped (a :: calls) = 0 ↔ ¬ MissedStart stopped (a :: calls) := by
  induction calls generalizing stopped a with
  | nil =>
    refine iff_of_true rfl ?_
    rintro ⟨before, a', b', after, hcalls, -⟩
    have hlen := congrArg List.length hcalls
    simp only [List.length_append, List.length_cons, List.length_nil] at hlen
    omega
  | cons b calls ih =>
    obtain ⟨hfirst, hrest⟩ := List.pairwise_cons.mp hclock
    have hle := hfirst b List.mem_cons_self
    have hgap : b.now.toNat - a.now.toNat = 0 ↔ a.now = b.now := by
      rw [BitVec.toNat_eq]
      rw [BitVec.le_def] at hle
      omega
    rw [missedTime, Nat.add_eq_zero_iff, ih hrest, missedStart_cons, not_or]
    apply and_congr_left
    intro _
    split
    · rename_i hmissed
      rw [hgap]
      constructor
      · exact fun heq h => h.2.2 heq
      · exact fun h => by_contra fun hne => h ⟨hmissed.1, hmissed.2, hne⟩
    · rename_i hmissed
      exact iff_of_true rfl fun h => hmissed ⟨h.1, h.2.1⟩

theorem timer_counts_running_time_iff (hclock : NeverDecreasing calls) :
    (timerAfter calls).count.toNat = runningTime calls ↔ ¬ MissedStart 0 calls := by
  cases calls with
  | nil =>
    refine iff_of_true rfl ?_
    rintro ⟨before, a, b, after, hcalls, -⟩
    cases before <;> cases hcalls
  | cons a calls =>
    rw [← missedTime_eq_zero_iff hclock]
    have h := (justCalled_first a).count_foldl hclock
    have hzero : (a.apply newTimer).count.toNat = 0 := by
      rw [count_apply]
      rfl
    rw [timerAfter, List.foldl_cons]
    omega

/-- A stop and a start in the same tick of the clock. -/
def restarted : List TimerCall := [.start 3, .stop 5, .start 5, .stop 9]

theorem restart_not_counted : NeverDecreasing restarted ∧
    (timerAfter restarted).count.toNat ≠ runningTime restarted := by
  constructor
  · unfold NeverDecreasing
    decide
  · decide

theorem timer_counts_running_time_iff_restarted_later :
    (timerAfter [.start 3, .stop 5, .start 6, .start 6, .finalize 9]).count.toNat =
        runningTime [.start 3, .stop 5, .start 6, .start 6, .finalize 9] ↔
      ¬ MissedStart 0 [.start 3, .stop 5, .start 6, .start 6, .finalize 9] :=
  timer_counts_running_time_iff (by unfold NeverDecreasing; decide)

end Titus.Logger

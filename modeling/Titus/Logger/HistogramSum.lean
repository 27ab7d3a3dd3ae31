import Titus.Logger.Increments
import Titus.Logger.TimerIntervals
import Mathlib.Algebra.BigOperators.Fin
import Mathlib.Algebra.Order.BigOperators.Group.Finset

/-! The histogram of a timer, in the entry itself, in the snapshots of the sessions and in their
aggregate, and the intervals that the timer adds to its count. -/

namespace Titus.Logger

open SortedMap

/-! ### One name of a logger -/

/-- What a logger has of one name: the entry, its copies in the snapshots, and the entry that they
are aggregated in. -/
structure EntryRecord (E : Type*) where
  entry : E
  snapshots : List E
  aggregated : Option E

/-- What `end_session` does with one entry, which reads the time `now`. -/
def EntryRecord.endSession {E V : Type*} [AddMonoid V] [EntryClass E V] (now : BitVec 64)
    (r : EntryRecord E) : EntryRecord E :=
  let entry := finalize now r.entry
  { entry
    snapshots := r.snapshots ++ [entry]
    aggregated := some (r.aggregated.elim entry fun old => aggregate old entry) }

section Logger

variable {K : Type*} [LinearOrder K] {E V : K → Type*} [∀ k, AddMonoid (V k)]
  [∀ k, EntryClass (E k) (V k)]

/-- The record of a name that is registered. -/
def recordOf (name : K) (l : TitusLogger E) : Option (EntryRecord (E name)) :=
  (l.currentSession.lookup name).map fun entry =>
    ⟨entry, entriesOf name l.previousSessions, l.aggregatedSessions.lookup name⟩

/-- What a call on the logger does to the record of a name. -/
inductive RecordStep (name : K) : Action E → EntryRecord (E name) → EntryRecord (E name) → Prop
  | update (f : E name → E name) (r : EntryRecord (E name)) :
      RecordStep name (.update name f) r { r with entry := f r.entry }
  | resetAllEntries (r : EntryRecord (E name)) :
      RecordStep name .resetAllEntries r { r with entry := reset r.entry }
  | endSession (stopped : BitVec 64) (now : K → BitVec 64) (r : EntryRecord (E name)) :
      RecordStep name (.endSession stopped now) r (r.endSession (now name))
  | elsewhere {a : Action E} (h : ¬ a.concerns name) (r : EntryRecord (E name)) :
      RecordStep name a r r

variable {l l' : TitusLogger E} {sessionTime name : K} {r : EntryRecord (E name)}

/-- A logger keeps a record for each name, other than that of the session's own timer. -/
theorem recordStep_next (hname : name ≠ sessionTime) (hr : recordOf name l = some r) {a : Action E}
    (hs : l.next sessionTime a = some l') :
    ∃ r', recordOf name l' = some r' ∧ RecordStep name a r r' := by
  obtain ⟨e, he, rfl⟩ := Option.map_eq_some_iff.mp hr
  cases a with
  | addEntry x =>
    simp only [TitusLogger.next, TitusLogger.addEntry] at hs
    split at hs
    · cases hs
    · rename_i hnone
      cases hs
      have hne : name ≠ x.1 := by
        rintro rfl
        cases he.symm.trans hnone
      refine ⟨_, ?_, .elsewhere (a := .addEntry x) (Ne.symm hne) _⟩
      rw [recordOf, lookup_insert_ne hne, he]
      rfl
  | update name' f =>
    cases hs
    by_cases hsame : name' = name
    · subst hsame
      refine ⟨_, ?_, .update f _⟩
      rw [recordOf, lookup_modify_self, he]
      rfl
    · refine ⟨_, ?_, .elsewhere (a := .update name' f) hsame _⟩
      rw [recordOf, lookup_modify_ne (Ne.symm hsame), he]
      rfl
  | resetAllEntries =>
    cases hs
    refine ⟨_, ?_, .resetAllEntries _⟩
    rw [recordOf, lookup_map, he]
    rfl
  | endSession stopped now =>
    cases hs
    refine ⟨_, ?_, .endSession stopped now _⟩
    have hentry : (l.finalized sessionTime stopped now).lookup name =
        some (finalize (now name) e) := by
      rw [TitusLogger.finalized, lookup_map, lookup_modify_ne hname, he]
      rfl
    simp only [recordOf, TitusLogger.endSession, hentry, entriesOf_append, lookup_ofEntries,
      lookup_merge, Option.map_some, EntryRecord.endSession, Option.toList_some]
    cases l.aggregatedSessions.lookup name with
    | none => rfl
    | some old => rfl

end Logger

/-! ### Calls on a timer with a histogram -/

/-- A call on a `TITUS_Logger_Entry_Timer_ns_pow_histogram`, or on its logger, with what the clock
shows when the timer reads it. -/
inductive HistogramCall
  | start (now : BitVec 64)
  | stop (now : BitVec 64)
  | finalize (now : BitVec 64)
  | reset
  | endSession (now : BitVec 64)
deriving DecidableEq

/-- What the clock shows. -/
def HistogramCall.reading : HistogramCall → Option (BitVec 64)
  | .start now | .stop now | .finalize now | .endSession now => some now
  | .reset => none

/-- The call goes through the `finalize` of the base class. -/
def HistogramCall.finalizes : HistogramCall → Bool
  | .finalize _ | .endSession _ => true
  | .start _ | .stop _ | .reset => false

/-- An interval is added to the count at the next call that reads the clock. -/
def TimerNs.running (t : TimerNs) : Bool := t.lastStop < t.lastStart

variable {size : ℕ}

/-- The record of the timer, and what is not in memory: the intervals that have been added to the
count since the latest reset, their number at each end of a session, and the first time that the
clock can still show. -/
structure HistogramState (size : ℕ) where
  record : EntryRecord (TimerNsPowHistogram size)
  intervals : ℕ
  counted : List ℕ
  clock : ℕ

namespace HistogramState

/-- The number of intervals after a call that reads the clock. -/
def added (s : HistogramState size) : ℕ :=
  if s.record.entry.running then s.intervals + 1 else s.intervals

def apply (s : HistogramState size) : HistogramCall → HistogramState size
  | .start now =>
    { s with
      record := { s.record with entry := s.record.entry.start now }
      intervals := s.added
      clock := now.toNat + 1 }
  | .stop now =>
    { s with
      record := { s.record with entry := s.record.entry.stop now }
      intervals := s.added
      clock := now.toNat + 1 }
  | .finalize now =>
    { s with
      record := { s.record with entry := finalize now s.record.entry }
      intervals := s.added
      clock := now.toNat + 1 }
  | .reset => { s with record := { s.record with entry := reset s.record.entry }, intervals := 0 }
  | .endSession now =>
    { record := s.record.endSession now
      intervals := s.added
      counted := s.counted ++ [s.added]
      clock := now.toNat + 1 }

end HistogramState

/-- The constructor, for a histogram with these buckets. -/
def newHistogram (bucket : BitVec 64 → Fin size) : HistogramState size :=
  ⟨⟨⟨newTimer, bucket, 0⟩, [], none⟩, 0, [], 0⟩

/-- A timer with a histogram under any calls. -/
def histogramTimer (bucket : BitVec 64 → Fin size) :
    Transition.System (HistogramState size) HistogramCall where
  init s := s = newHistogram bucket
  next s call := some (s.apply call)

/-! ### The sums -/

/-- The sum of all buckets. -/
def bucketSum (e : TimerNsPowHistogram size) : ℕ := ∑ i, (e.histogram i).toNat

/-- The sums of the buckets are the numbers of intervals. -/
structure SumsAgree (s : HistogramState size) : Prop where
  live : bucketSum s.record.entry = s.intervals
  snapshots : s.record.snapshots.map bucketSum = s.counted
  aggregate : ∀ e, s.record.aggregated = some e → s.counted.sum < 2 ^ 64 →
    bucketSum e = s.counted.sum
  /-- The buckets of the aggregate are words, and more intervals wrap around. -/
  aggregate_mod : ∀ e, s.record.aggregated = some e →
    bucketSum e % 2 ^ 64 = s.counted.sum % 2 ^ 64

variable {s : HistogramState size} {call : HistogramCall} {e old : TimerNsPowHistogram size}

theorem bucketSum_insert {h : Fin size → BitVec 64} (b : Fin size)
    (hroom : (h b).toNat + 1 < 2 ^ 64) :
    ∑ i, (Function.update h b (h b + 1) i).toNat = ∑ i, (h i).toNat + 1 := by
  have hothers : ∑ i ∈ Finset.univ.erase b, (Function.update h b (h b + 1) i).toNat =
      ∑ i ∈ Finset.univ.erase b, (h i).toNat := by
    apply Finset.sum_congr rfl
    intro i hi
    rw [Function.update_of_ne (Finset.ne_of_mem_erase hi)]
  rw [← Finset.add_sum_erase _ _ (Finset.mem_univ b), hothers, Function.update_self,
    ← Finset.add_sum_erase Finset.univ (fun i => (h i).toNat) (Finset.mem_univ b)]
  bv_omega

theorem toNat_le_bucketSum (e : TimerNsPowHistogram size) (b : Fin size) :
    (e.histogram b).toNat ≤ bucketSum e :=
  Finset.single_le_sum (f := fun i => (e.histogram i).toNat) (fun _ _ => Nat.zero_le _)
    (Finset.mem_univ b)

/-- `start` and `stop` insert the interval that they add. -/
theorem sum_insert (hroom : e.running → bucketSum e + 1 < 2 ^ 64) (now : BitVec 64) :
    ∑ i, (e.insert now i).toNat = if e.running then bucketSum e + 1 else bucketSum e := by
  unfold TimerNsPowHistogram.insert TimerNs.running at *
  by_cases hrunning : e.lastStop < e.lastStart
  · have hle := toNat_le_bucketSum e (e.bucket (now - e.lastStart))
    have hlt := hroom (decide_eq_true hrunning)
    rw [if_pos hrunning, if_pos (decide_eq_true hrunning), bucketSum_insert _ (by omega)]
    rfl
  · rw [if_neg hrunning, if_neg (by simpa using hrunning)]
    rfl

theorem bucketSum_aggregate_mod (old e : TimerNsPowHistogram size) :
    bucketSum (aggregate old e) % 2 ^ 64 = (bucketSum old + bucketSum e) % 2 ^ 64 := by
  have heach : ∀ i, ((aggregate old e).histogram i).toNat =
      ((old.histogram i).toNat + (e.histogram i).toNat) % 2 ^ 64 := fun i => BitVec.toNat_add ..
  simp only [bucketSum, heach]
  rw [← Finset.sum_nat_mod, Finset.sum_add_distrib]

theorem bucketSum_aggregate (h : bucketSum old + bucketSum e < 2 ^ 64) :
    bucketSum (aggregate old e) = bucketSum old + bucketSum e := by
  have heach : ∀ i, ((aggregate old e).histogram i).toNat =
      (old.histogram i).toNat + (e.histogram i).toNat := by
    intro i
    have hold := toNat_le_bucketSum old i
    have hnew := toNat_le_bucketSum e i
    exact BitVec.toNat_add_of_lt (by omega)
  simp only [bucketSum, heach]
  exact Finset.sum_add_distrib

/-! ### What one call does to the sums -/

/-- What holds as long as the sums agree. -/
structure HistogramOk (s : HistogramState size) : Prop extends SumsAgree s where
  fresh : s.record.aggregated = none → s.counted = []
  intervals_le : s.intervals ≤ s.clock - 1
  started : s.record.entry.running → 0 < s.clock

/-- The clock goes forward. -/
def Ticks (s : HistogramState size) (call : HistogramCall) : Prop :=
  ∀ now, call.reading = some now → s.clock ≤ now.toNat

/-- An interval that is open when the base class stops the timer is not in the histogram. -/
def Closed (s : HistogramState size) (call : HistogramCall) : Prop :=
  call.finalizes → ¬ s.record.entry.running

theorem HistogramOk.added_le (h : HistogramOk s) {now : BitVec 64} (hclock : s.clock ≤ now.toNat) :
    s.added ≤ now.toNat := by
  have hle := h.intervals_le
  unfold HistogramState.added
  split
  · rename_i hrunning
    have := h.started hrunning
    omega
  · omega

theorem HistogramOk.sum_insert (h : HistogramOk s) {now : BitVec 64}
    (hclock : s.clock ≤ now.toNat) : ∑ i, (s.record.entry.insert now i).toNat = s.added := by
  have hroom : s.record.entry.running → bucketSum s.record.entry + 1 < 2 ^ 64 := by
    intro hrunning
    have hle := h.added_le hclock
    rw [HistogramState.added, if_pos hrunning] at hle
    rw [h.live]
    exact hle.trans_lt now.isLt
  rw [Logger.sum_insert hroom, HistogramState.added, h.live]

/-- The histogram does not see the end of an interval that `finalize` adds. -/
theorem added_eq_iff (s : HistogramState size) :
    s.intervals = s.added ↔ ¬ s.record.entry.running := by
  unfold HistogramState.added
  split
  · rename_i hrunning
    exact iff_of_false (by omega) (not_not.mpr hrunning)
  · rename_i hrunning
    exact iff_of_true rfl hrunning

/-- The first snapshot is the aggregate, and each later one is added to it. -/
theorem aggregated_endSession {r : EntryRecord (TimerNsPowHistogram size)} {now : BitVec 64}
    (he : (r.endSession now).aggregated = some e) :
    (r.aggregated = none ∧ e = finalize now r.entry) ∨
      ∃ old, r.aggregated = some old ∧ e = aggregate old (finalize now r.entry) := by
  simp only [EntryRecord.endSession, Option.some.injEq] at he
  cases hold : r.aggregated with
  | none =>
    rw [hold] at he
    exact .inl ⟨rfl, he.symm⟩
  | some old =>
    rw [hold] at he
    exact .inr ⟨old, rfl, he.symm⟩

theorem HistogramOk.endSession (h : HistogramOk s) (now : BitVec 64)
    (hstopped : ¬ s.record.entry.running) : SumsAgree (s.apply (.endSession now)) := by
  have hadded := (added_eq_iff s).mpr hstopped
  have hlive : bucketSum (finalize now s.record.entry) = s.added := h.live.trans hadded
  have hsum : (s.counted ++ [s.added]).sum = s.counted.sum + s.added := by simp
  constructor
  · exact hlive
  · simp only [HistogramState.apply, EntryRecord.endSession, List.map_append, h.snapshots,
      List.map_cons, List.map_nil, hlive]
  · intro e he hlt
    simp only [HistogramState.apply, hsum] at he hlt ⊢
    rcases aggregated_endSession he with ⟨hold, rfl⟩ | ⟨old, hold, rfl⟩
    · rw [h.fresh hold]
      exact hlive.trans (Nat.zero_add _).symm
    · have hsame := h.aggregate old hold (by omega)
      rw [bucketSum_aggregate (by omega), hsame, hlive]
  · intro e he
    simp only [HistogramState.apply, hsum] at he ⊢
    rcases aggregated_endSession he with ⟨hold, rfl⟩ | ⟨old, hold, rfl⟩
    · rw [h.fresh hold]
      exact congrArg (· % 2 ^ 64) (hlive.trans (Nat.zero_add _).symm)
    · rw [bucketSum_aggregate_mod, Nat.add_mod, h.aggregate_mod old hold, hlive, ← Nat.add_mod]

/-- The sums agree after a call if and only if it does not close an interval behind the histogram's
back. -/
theorem HistogramOk.sumsAgree_iff (h : HistogramOk s) (hticks : Ticks s call) :
    SumsAgree (s.apply call) ↔ Closed s call := by
  cases call with
  | start now | stop now =>
    refine iff_of_true ?_ (fun hno => absurd hno Bool.false_ne_true)
    exact ⟨h.sum_insert (hticks now rfl), h.snapshots, h.aggregate, h.aggregate_mod⟩
  | reset =>
    refine iff_of_true ?_ (fun hno => absurd hno Bool.false_ne_true)
    refine ⟨?_, h.snapshots, h.aggregate, h.aggregate_mod⟩
    exact Finset.sum_eq_zero fun i _ => rfl
  | finalize now =>
    constructor
    · intro hsums _
      exact (added_eq_iff s).mp (h.live.symm.trans hsums.live)
    · intro hclosed
      have hadded := (added_eq_iff s).mpr (hclosed rfl)
      exact ⟨h.live.trans hadded, h.snapshots, h.aggregate, h.aggregate_mod⟩
  | endSession now =>
    constructor
    · intro hsums _
      exact (added_eq_iff s).mp (h.live.symm.trans hsums.live)
    · intro hclosed
      exact h.endSession now (hclosed rfl)

theorem HistogramOk.apply (h : HistogramOk s) (hticks : Ticks s call)
    (hsums : SumsAgree (s.apply call)) : HistogramOk (s.apply call) := by
  refine ⟨hsums, ?_, ?_, ?_⟩
  · intro hnone
    cases call with
    | endSession now => cases hnone
    | start | stop | finalize | reset => exact h.fresh hnone
  · cases call with
    | reset => exact Nat.zero_le _
    | start now | stop now | finalize now | endSession now => exact h.added_le (hticks now rfl)
  · intro hrunning
    cases call with
    | reset => exact h.started hrunning
    | start | stop | finalize | endSession => exact Nat.succ_pos _

theorem histogramOk_new (bucket : BitVec 64 → Fin size) : HistogramOk (newHistogram bucket) := by
  refine ⟨⟨?_, rfl, ?_, ?_⟩, fun _ => rfl, le_rfl, ?_⟩
  · exact Finset.sum_eq_zero fun i _ => rfl
  · rintro e ⟨⟩
  · rintro e ⟨⟩
  · rintro ⟨⟩

/-- Readings that increase make the clock go forward. -/
theorem along_ticks {bucket : BitVec 64 → Fin size} {calls : List HistogramCall}
    (hincreasing : (calls.filterMap HistogramCall.reading).Pairwise (· < ·))
    (hclock : ∀ now ∈ calls.filterMap HistogramCall.reading, s.clock ≤ now.toNat) :
    (histogramTimer bucket).Along Ticks s calls := by
  induction calls generalizing s with
  | nil => trivial
  | cons call calls ih =>
    constructor
    · intro now hnow
      exact hclock now (List.mem_filterMap.mpr ⟨call, List.mem_cons_self, hnow⟩)
    · rintro s' ⟨⟩
      cases hread : call.reading with
      | none =>
        rw [List.filterMap_cons_none hread] at hincreasing hclock
        apply ih hincreasing
        cases call with
        | reset => exact hclock
        | start | stop | finalize | endSession => cases hread
      | some now =>
        rw [List.filterMap_cons_some hread] at hincreasing
        obtain ⟨hfirst, hrest⟩ := List.pairwise_cons.mp hincreasing
        apply ih hrest
        intro later hlater
        have hlt := hfirst later hlater
        cases call with
        | reset => cases hread
        | start | stop | finalize | endSession =>
          cases hread
          exact hlt

theorem histogram_sums_intervals_iff {bucket : BitVec 64 → Fin size} {calls : List HistogramCall}
    (hincreasing : (calls.filterMap HistogramCall.reading).Pairwise (· < ·)) :
    SumsAgree (newHistogram bucket) ∧ (histogramTimer bucket).Along
        (fun s call => SumsAgree (s.apply call)) (newHistogram bucket) calls ↔
      (histogramTimer bucket).Along Closed (newHistogram bucket) calls := by
  have hnew := histogramOk_new bucket
  rw [and_iff_right hnew.toSumsAgree]
  apply Transition.System.along_iff (fun s call h hticks => h.sumsAgree_iff hticks) _ hnew
  · exact along_ticks hincreasing fun now _ => Nat.zero_le _
  · rintro s call s' h hticks hsums ⟨⟩
    exact h.apply hticks hsums

/-- The buckets of a histogram with the power 2 and the start 1.  `to_ns`, which converts an interval
first, is left out, as for a clock of 1 GHz. -/
def octaves (x : BitVec 64) : Fin 10 := Fin.ofNat 10 (min 9 (Nat.log2 (x.toNat - 1)))

theorem open_interval_not_inserted :
    (([.start 1, .endSession 101] : List HistogramCall).filterMap
        HistogramCall.reading).Pairwise (· < ·) ∧
      ¬ (SumsAgree (newHistogram octaves) ∧ (histogramTimer octaves).Along
        (fun s call => SumsAgree (s.apply call)) (newHistogram octaves)
        [.start 1, .endSession 101]) := by
  constructor
  · decide
  · rintro ⟨-, -, hlater⟩
    have hlive := (hlater _ rfl).1.live
    revert hlive
    decide

theorem histogram_sums_intervals_iff_sessions :
    SumsAgree (newHistogram octaves) ∧ (histogramTimer octaves).Along
        (fun s call => SumsAgree (s.apply call)) (newHistogram octaves)
        [.start 1, .stop 101, .endSession 150, .reset, .start 200, .start 300, .stop 350] ↔
      (histogramTimer octaves).Along Closed (newHistogram octaves)
        [.start 1, .stop 101, .endSession 150, .reset, .start 200, .start 300, .stop 350] :=
  histogram_sums_intervals_iff (by decide)

end Titus.Logger

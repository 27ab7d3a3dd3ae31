import Titus.Lib.SortedMap
import Titus.Lib.Transition
import Titus.Logger.Entry
import Mathlib.Data.String.Basic
import Mathlib.Algebra.BigOperators.Group.List.Basic

/-! The sessions of a logger.  `end_session` copies the entries to a snapshot, and aggregates them by
name with those of the sessions before. -/

namespace Titus.Logger

open SortedMap

variable {K : Type*} [LinearOrder K] {E V : K → Type*} [∀ k, AddMonoid (V k)]
  [∀ k, EntryClass (E k) (V k)]

/-- `TITUS_Logger`.  A name is registered with an entry of one class, so that the class is a matter
of the name. -/
structure TitusLogger (E : K → Type*) where
  currentSession : SortedMap E
  aggregatedSessions : SortedMap E
  previousSessions : List (SortedMap E)

/-- What is called, on the logger or on an entry. -/
inductive Action (E : K → Type*)
  | addEntry (e : Sigma E)
  /-- The owner of the entry `name` changes it: an increment of a counter, a start or a stop of a
  timer.  `start_session` starts the timer of the session. -/
  | update (name : K) (f : E name → E name)
  | resetAllEntries
  /-- The clock shows `stopped` when `session_time` stops, and `now name` when the entry `name` is
  finalized. -/
  | endSession (stopped : BitVec 64) (now : K → BitVec 64)

namespace TitusLogger

/-- The constructor, which registers `session_time`. -/
def create (sessionTime : Sigma E) : TitusLogger E := ⟨empty.insert sessionTime, empty, []⟩

/-- `add_entry`, which fails if the name is taken. -/
def addEntry (l : TitusLogger E) (e : Sigma E) : Option (TitusLogger E) :=
  match l.currentSession.lookup e.1 with
  | some _ => none
  | none => some { l with currentSession := l.currentSession.insert e }

/-- The entries as the loop of `end_session` finalizes them.  `session_time` has been stopped before,
which is what `finalize` does for a timer. -/
def finalized (sessionTime : K) (l : TitusLogger E) (stopped : BitVec 64) (now : K → BitVec 64) :
    SortedMap E :=
  (l.currentSession.modify sessionTime (finalize stopped)).map fun name => finalize (now name)

/-- `end_session`.  The loop visits the entries by name.  Each one is finalized, copied to the new
snapshot, and merged into `aggregated_sessions` from the place of the last one on. -/
def endSession (sessionTime : K) (l : TitusLogger E) (stopped : BitVec 64)
    (now : K → BitVec 64) : TitusLogger E :=
  let entries := l.finalized sessionTime stopped now
  { currentSession := entries
    previousSessions := l.previousSessions ++ [ofEntries entries.entries]
    aggregatedSessions := l.aggregatedSessions.merge (fun _ => aggregate) entries }

/-- One call. -/
def next (sessionTime : K) (l : TitusLogger E) : Action E → Option (TitusLogger E)
  | .addEntry e => l.addEntry e
  | .update name f => some { l with currentSession := l.currentSession.modify name f }
  | .resetAllEntries => some { l with currentSession := l.currentSession.map fun _ => reset }
  | .endSession stopped now => some (l.endSession sessionTime stopped now)

end TitusLogger

/-- A logger from its creation on. -/
def system (V : K → Type*) [∀ k, AddMonoid (V k)] [∀ k, EntryClass (E k) (V k)] (sessionTime : K) :
    Transition.System (TitusLogger E) (Action E) where
  init l := ∃ e : E sessionTime, l = .create ⟨sessionTime, e⟩
  next := TitusLogger.next sessionTime

/-! ### The aggregate -/

/-- The entries of a name in the snapshots that contain it. -/
def entriesOf (name : K) (snapshots : List (SortedMap E)) : List (E name) :=
  snapshots.filterMap (lookup name)

/-- The sum of a name's values over the snapshots that contain it. -/
def total (name : K) (snapshots : List (SortedMap E)) : V name :=
  ((entriesOf name snapshots).map value).sum

/-- `aggregated_sessions` holds, for the names of the snapshots, the sums of their values. -/
structure Aggregated (l : TitusLogger E) : Prop where
  names : ∀ name, (l.aggregatedSessions.lookup name).isSome ↔
    ∃ m ∈ l.previousSessions, (m.lookup name).isSome
  sum : ∀ name e, l.aggregatedSessions.lookup name = some e →
    value e = total name l.previousSessions

variable {l l' : TitusLogger E} {sessionTime : K}

theorem entriesOf_append (name : K) (snapshots : List (SortedMap E)) (m : SortedMap E) :
    entriesOf name (snapshots ++ [m]) = entriesOf name snapshots ++ (m.lookup name).toList := by
  cases h : m.lookup name with
  | none => simp [entriesOf, h]
  | some e => simp [entriesOf, h]

theorem total_append (name : K) (snapshots : List (SortedMap E)) (m : SortedMap E) :
    total name (snapshots ++ [m]) =
      total name snapshots + ((m.lookup name).map value).getD 0 := by
  unfold total
  rw [entriesOf_append, List.map_append, List.sum_append]
  cases m.lookup name with
  | none => simp
  | some e => simp

theorem Aggregated.total_eq_zero (h : Aggregated l) {name : K}
    (hnone : l.aggregatedSessions.lookup name = none) : total name l.previousSessions = 0 := by
  have hentries : entriesOf name l.previousSessions = [] := by
    refine List.filterMap_eq_nil_iff.mpr fun m hm => ?_
    by_contra hne
    have := (h.names name).mpr ⟨m, hm, Option.isSome_iff_ne_none.mpr hne⟩
    rw [hnone] at this
    cases this
  rw [total, hentries]
  rfl

/-- One end of a session adds the values of its entries to the aggregate. -/
theorem Aggregated.endSession (h : Aggregated l) (stopped : BitVec 64) (now : K → BitVec 64) :
    Aggregated (l.endSession sessionTime stopped now) := by
  constructor
  · intro name
    simp only [TitusLogger.endSession, lookup_merge, List.mem_append, List.mem_singleton,
      or_and_right, exists_or, exists_eq_left, lookup_ofEntries, ← h.names, Option.isSome_merge,
      Bool.or_eq_true]
  · intro name e he
    simp only [TitusLogger.endSession, lookup_merge] at he
    simp only [TitusLogger.endSession, total_append, lookup_ofEntries]
    cases hold : l.aggregatedSessions.lookup name with
    | none =>
      rw [hold, Option.merge_none_left] at he
      rw [he, h.total_eq_zero hold, zero_add]
      rfl
    | some old =>
      rw [hold] at he
      cases hnew : (l.finalized sessionTime stopped now).lookup name with
      | none =>
        rw [hnew] at he
        cases he
        rw [h.sum name _ hold]
        exact (add_zero _).symm
      | some new =>
        rw [hnew] at he
        cases he
        rw [value_aggregate, h.sum name _ hold]
        rfl

theorem Aggregated.next (h : Aggregated l) {a : Action E}
    (hs : l.next sessionTime a = some l') : Aggregated l' := by
  cases a with
  | addEntry e =>
    simp only [TitusLogger.next, TitusLogger.addEntry] at hs
    split at hs <;> cases hs
    exact ⟨h.names, h.sum⟩
  | update name f =>
    cases hs
    exact ⟨h.names, h.sum⟩
  | resetAllEntries =>
    cases hs
    exact ⟨h.names, h.sum⟩
  | endSession stopped now =>
    cases hs
    exact h.endSession stopped now

theorem aggregated_invariant (sessionTime : K) :
    (system V sessionTime).Invariant (Aggregated (E := E)) := by
  constructor
  · rintro l ⟨e, rfl⟩
    constructor
    · intro name
      exact ⟨nofun, nofun⟩
    · exact nofun
  · intro l a l' _ h hs
    exact h.next hs

/-! ### The snapshots -/

/-- A call appends at most one snapshot. -/
theorem prefix_next {a : Action E} (hs : l.next sessionTime a = some l') :
    l.previousSessions <+: l'.previousSessions := by
  cases a with
  | addEntry e =>
    simp only [TitusLogger.next, TitusLogger.addEntry] at hs
    split at hs <;> cases hs
    exact List.prefix_rfl
  | update name f =>
    cases hs
    exact List.prefix_rfl
  | resetAllEntries =>
    cases hs
    exact List.prefix_rfl
  | endSession stopped now =>
    cases hs
    exact List.prefix_append _ _

theorem prefix_run {as : List (Action E)} (hs : (system V sessionTime).run l as = some l') :
    l.previousSessions <+: l'.previousSessions := by
  induction as generalizing l with
  | nil =>
    cases hs
    exact List.prefix_rfl
  | cons a as ih =>
    obtain ⟨m, hm, hrest⟩ := Option.bind_eq_some_iff.mp hs
    exact (prefix_next hm).trans (ih hrest)

/-- The end of a session copies the entries registered. -/
structure SnapshotTaken (l l' : TitusLogger E) : Prop where
  taken : ∃ m, l'.previousSessions = l.previousSessions ++ [m] ∧
    ∀ name, m.lookup name = l'.currentSession.lookup name
  registered : ∀ name, (l'.currentSession.lookup name).isSome ↔
    (l.currentSession.lookup name).isSome

theorem isSome_finalized (sessionTime : K) (l : TitusLogger E) (stopped : BitVec 64)
    (now : K → BitVec 64) (name : K) :
    ((l.finalized sessionTime stopped now).lookup name).isSome =
      (l.currentSession.lookup name).isSome := by
  rw [TitusLogger.finalized, lookup_map, Option.isSome_map, isSome_lookup_modify]

theorem snapshotTaken (sessionTime : K) (l : TitusLogger E) (stopped : BitVec 64)
    (now : K → BitVec 64) : SnapshotTaken l (l.endSession sessionTime stopped now) := by
  constructor
  · exact ⟨_, rfl, fun name => lookup_ofEntries⟩
  · intro name
    simp only [TitusLogger.endSession, isSome_finalized]

/-- What the logger promises about its sessions. -/
structure SessionsAggregated (V : K → Type*) [∀ k, AddMonoid (V k)] [∀ k, EntryClass (E k) (V k)]
    (sessionTime : K) (l : TitusLogger E) : Prop extends Aggregated l where
  snapshot : ∀ stopped now, SnapshotTaken l (l.endSession sessionTime stopped now)
  /-- Snapshots taken earlier do not change. -/
  kept : ∀ as l', (system V sessionTime).run l as = some l' →
    l.previousSessions <+: l'.previousSessions

theorem sessions_aggregated (hr : (system V sessionTime).Reachable l) :
    SessionsAggregated V sessionTime l := by
  constructor
  · exact (aggregated_invariant sessionTime).holds hr
  · intro stopped now
    exact snapshotTaken sessionTime l stopped now
  · intro as l' hs
    exact prefix_run hs

/-! ### A logger with a counter -/

/-- Timers, and counters of type `uint`. -/
def TestEntry : Bool → Type
  | true => TimerNs
  | false => Counter (BitVec 32)

def TestValue : Bool → Type
  | true => BitVec 64
  | false => BitVec 32

instance : ∀ b, AddCommGroup (TestValue b)
  | true => inferInstanceAs (AddCommGroup (BitVec 64))
  | false => inferInstanceAs (AddCommGroup (BitVec 32))

instance : ∀ b, EntryClass (TestEntry b) (TestValue b)
  | true => inferInstanceAs (EntryClass TimerNs (BitVec 64))
  | false => inferInstanceAs (EntryClass (Counter (BitVec 32)) (BitVec 32))

/-- Only the session is timed. -/
def isTimer (name : String) : Bool := name == "session_time"

def sessionTimer : TestEntry (isTimer "session_time") := (⟨⟨0, 0⟩, 0, 0⟩ : TimerNs)

def testCounter : TestEntry (isTimer "test1") := (⟨0, 0⟩ : Counter (BitVec 32))

/-- The count of the counter `test1`. -/
def testCount (m : SortedMap fun name => TestEntry (isTimer name)) : Option (BitVec 32) :=
  (m.lookup "test1").map fun e : Counter (BitVec 32) => e.count

def increment (x : BitVec 32) : Action fun name => TestEntry (isTimer name) :=
  .update "test1" (Counter.add x : Counter (BitVec 32) → Counter (BitVec 32))

/-- Two sessions, with a reset between them and a name before the others in the second. -/
def twoSessions : List (Action fun name => TestEntry (isTimer name)) :=
  [.addEntry ⟨"test1", testCounter⟩, increment 5, .endSession 1 fun _ => 2, .resetAllEntries,
    .addEntry ⟨"a", (⟨0, 3⟩ : Counter (BitVec 32))⟩, increment 2, .endSession 3 fun _ => 4]

theorem sessions_aggregated_two :
    ∃ l, (system (fun name => TestValue (isTimer name)) "session_time").Reachable l ∧
      testCount l.aggregatedSessions = some 7 ∧ l.previousSessions.length = 2 ∧
      SessionsAggregated (fun name => TestValue (isTimer name)) "session_time" l := by
  obtain ⟨l, hr, hcount, hlen⟩ := Transition.System.exists_reachable
    (S := system (fun name => TestValue (isTimer name)) "session_time") ⟨sessionTimer, rfl⟩
    twoSessions (fun l => testCount l.aggregatedSessions = some 7 ∧ l.previousSessions.length = 2)
    (by decide +kernel)
  exact ⟨l, hr, hcount, hlen, sessions_aggregated hr⟩

end Titus.Logger

import Titus.Logger.Session

/-! What the sessions record of a counter that is incremented and never reset. -/

namespace Titus.Logger

open SortedMap

/-- The counter starts at zero, and the amounts added before all ends of sessions but the last are
zero. -/
def OnlyLast {A : Type*} [AddCommGroup A] (x : A) (as : List A) : Prop :=
  as = [] ∨ x = 0 ∧ ∀ y ∈ as.dropLast, y = 0

theorem onlyLast_cons {A : Type*} [AddCommGroup A] (x y : A) (as : List A) :
    OnlyLast x (y :: as) ↔ x = 0 ∧ OnlyLast y as := by
  cases as with
  | nil => simp [OnlyLast]
  | cons z as => simp [OnlyLast, List.dropLast_cons_of_ne_nil]

variable {K : Type*} [LinearOrder K] {E V : K → Type*} [∀ k, AddCommGroup (V k)]
  [∀ k, EntryClass (E k) (V k)] {name : K}

/-- The call may change or copy the entry of this name. -/
def Action.concerns (name : K) : Action E → Prop
  | .addEntry e => e.1 = name
  | .update name' _ => name' = name
  | .resetAllEntries | .endSession _ _ => True

/-- What happens to a counter, or beside it. -/
inductive Event (E V : K → Type*) (name : K)
  | add (x : V name)
  | endSession (stopped : BitVec 64) (now : K → BitVec 64)
  | elsewhere (a : Action E) (h : ¬ a.concerns name)

def Event.toAction [CounterClass (E name) (V name)] : Event E V name → Action E
  | .add x => .update name (CounterClass.add x)
  | .endSession stopped now => .endSession stopped now
  | .elsewhere a _ => a

/-- The amounts added since the previous `end_session`, for each `end_session`.  `x` has been added
before. -/
def amounts : V name → List (Event E V name) → List (V name)
  | _, [] => []
  | x, .add y :: h => amounts (x + y) h
  | x, .endSession _ _ :: h => x :: amounts 0 h
  | x, .elsewhere _ _ :: h => amounts x h

/-- The values of a counter at each `end_session`, if it is `x` now and is never reset. -/
def counts : V name → List (Event E V name) → List (V name)
  | _, [] => []
  | x, .add y :: h => counts (x + y) h
  | x, .endSession _ _ :: h => x :: counts x h
  | x, .elsewhere _ _ :: h => counts x h

/-- The snapshots of the counter hold the amounts added since the previous ones, and the aggregate
holds their sum. -/
structure CountedOnce (name : K) (l : TitusLogger E) (h : List (Event E V name)) : Prop where
  snapshots : (entriesOf name l.previousSessions).map value = amounts 0 h
  sum : ∀ e, l.aggregatedSessions.lookup name = some e → value e = (amounts 0 h).sum

omit [LinearOrder K] [∀ k, EntryClass (E k) (V k)] in
theorem counts_eq_amounts_iff (x y : V name) (h : List (Event E V name)) :
    counts (x + y) h = amounts y h ↔ OnlyLast x (amounts y h) := by
  induction h generalizing x y with
  | nil => exact ⟨fun _ => .inl rfl, fun _ => rfl⟩
  | cons a h ih =>
    cases a with
    | add z =>
      simp only [counts, amounts, add_assoc]
      exact ih x (y + z)
    | elsewhere a ha => exact ih x y
    | endSession stopped now =>
      have hstep := ih (x + y) 0
      rw [add_zero] at hstep
      simp only [counts, amounts, List.cons.injEq, add_eq_right, hstep, onlyLast_cons]
      apply and_congr_right
      rintro rfl
      rw [zero_add]

section Run

variable {l l' : TitusLogger E} {sessionTime : K}

/-- A call that does not concern a name leaves its entry and its snapshots as they are. -/
theorem next_elsewhere {a : Action E} (ha : ¬ a.concerns name)
    (hs : l.next sessionTime a = some l') :
    l'.currentSession.lookup name = l.currentSession.lookup name ∧
      l'.previousSessions = l.previousSessions := by
  cases a with
  | addEntry e =>
    simp only [TitusLogger.next, TitusLogger.addEntry] at hs
    split at hs <;> cases hs
    exact ⟨lookup_insert_ne (Ne.symm ha), rfl⟩
  | update name' f =>
    cases hs
    exact ⟨lookup_modify_ne (Ne.symm ha) f, rfl⟩
  | resetAllEntries | endSession => exact absurd trivial ha

variable [CounterClass (E name) (V name)]

theorem finalized_counter {e : E name} (he : l.currentSession.lookup name = some e)
    (stopped : BitVec 64) (now : K → BitVec 64) :
    ∃ e', (l.finalized sessionTime stopped now).lookup name = some e' ∧ value e' = value e := by
  unfold TitusLogger.finalized
  by_cases h : name = sessionTime
  · subst h
    rw [lookup_map, lookup_modify_self, he]
    exact ⟨_, rfl, by rw [CounterClass.value_finalize, CounterClass.value_finalize]⟩
  · rw [lookup_map, lookup_modify_ne h, he]
    exact ⟨_, rfl, CounterClass.value_finalize _ _⟩

/-- A run appends the values of a registered counter to its snapshots. -/
theorem entriesOf_run {h : List (Event E V name)} {e : E name}
    (he : l.currentSession.lookup name = some e)
    (hrun : (system V sessionTime).run l (h.map Event.toAction) = some l') :
    (entriesOf name l'.previousSessions).map value =
      (entriesOf name l.previousSessions).map value ++ counts (value e) h := by
  induction h generalizing l e with
  | nil =>
    cases hrun
    exact (List.append_nil _).symm
  | cons a h ih =>
    obtain ⟨m, hm, hrest⟩ := Option.bind_eq_some_iff.mp hrun
    cases a with
    | add x =>
      cases hm
      have he' : (l.currentSession.modify name (CounterClass.add x)).lookup name =
          some (CounterClass.add x e) := by rw [lookup_modify_self, he, Option.map_some]
      rw [ih he' hrest, CounterClass.value_add]
      rfl
    | elsewhere a ha =>
      obtain ⟨hcurrent, hprevious⟩ := next_elsewhere ha hm
      rw [ih (hcurrent.trans he) hrest, hprevious]
      rfl
    | endSession stopped now =>
      cases hm
      obtain ⟨e', he', hvalue⟩ := finalized_counter he stopped now
      have htaken : (ofEntries (l.finalized sessionTime stopped now).entries).lookup name =
          some e' := lookup_ofEntries.trans he'
      rw [ih he' hrest, hvalue]
      simp only [TitusLogger.endSession, entriesOf_append, htaken, Option.toList_some,
        List.map_append, List.map_cons, List.map_nil, hvalue, counts, List.append_assoc,
        List.cons_append, List.nil_append]

/-- A snapshot holds names that are registered only. -/
theorem registered_invariant (V : K → Type*) [∀ k, AddMonoid (V k)] [∀ k, EntryClass (E k) (V k)]
    (sessionTime : K) :
    (system V sessionTime).Invariant fun l : TitusLogger E => ∀ name,
      l.currentSession.lookup name = none → entriesOf name l.previousSessions = [] := by
  constructor
  · rintro l ⟨e, rfl⟩ name -
    rfl
  · intro l a l' _ h hs name hnone
    cases a with
    | addEntry e =>
      simp only [system, TitusLogger.next, TitusLogger.addEntry] at hs
      split at hs <;> cases hs
      rw [lookup_insert, Option.or_eq_none_iff] at hnone
      exact h name hnone.1
    | update name' f =>
      cases hs
      rw [← Option.not_isSome_iff_eq_none, isSome_lookup_modify,
        Option.not_isSome_iff_eq_none] at hnone
      exact h name hnone
    | resetAllEntries =>
      cases hs
      rw [lookup_map, Option.map_eq_none_iff] at hnone
      exact h name hnone
    | endSession stopped now =>
      cases hs
      simp only [TitusLogger.endSession] at hnone ⊢
      have hcurrent : l.currentSession.lookup name = none := by
        rw [← Option.not_isSome_iff_eq_none, ← isSome_finalized sessionTime l stopped now, hnone]
        rintro ⟨⟩
      rw [entriesOf_append, h name hcurrent, lookup_ofEntries, hnone]
      rfl

/-- A counter that is registered and then incremented, but never reset, is counted once if and only
if it starts at zero and nothing is added to it, in total, before each end of a session but the
last. -/
theorem sessions_counted_once_iff {h : List (Event E V name)} {e : E name}
    (hr : (system V sessionTime).Reachable l)
    (hrun : (system V sessionTime).run l (.addEntry ⟨name, e⟩ :: h.map Event.toAction) = some l') :
    CountedOnce name l' h ↔ OnlyLast (value e) (amounts 0 h) := by
  obtain ⟨m, hm, hrest⟩ := Option.bind_eq_some_iff.mp hrun
  have hagg := (aggregated_invariant sessionTime).holds (hr.run hrun)
  simp only [system, TitusLogger.next, TitusLogger.addEntry] at hm
  split at hm <;> cases hm
  rename_i hnew
  have hempty := (registered_invariant V sessionTime).holds hr name hnew
  have hvalues := entriesOf_run (lookup_insert_self hnew) hrest
  rw [hempty, List.map_nil, List.nil_append] at hvalues
  have hiff := counts_eq_amounts_iff (value e) 0 h
  rw [add_zero] at hiff
  constructor
  · intro honce
    exact hiff.mp (hvalues.symm.trans honce.snapshots)
  · intro honly
    have heq := hvalues.trans (hiff.mpr honly)
    refine ⟨heq, fun e' he' => ?_⟩
    rw [hagg.sum name e' he', total, heq]

end Run

/-! ### Two sessions -/

instance : CounterClass (TestEntry (isTimer "test1")) (TestValue (isTimer "test1")) :=
  inferInstanceAs (CounterClass (Counter (BitVec 32)) (BitVec 32))

/-- The history of `test1`. -/
abbrev TestHistory : Type :=
  List (Event (fun name => TestEntry (isTimer name)) (fun name => TestValue (isTimer name)) "test1")

def newLogger : TitusLogger fun name => TestEntry (isTimer name) :=
  .create ⟨"session_time", sessionTimer⟩

/-- A new logger on which `test1` is registered and then has the history `h`. -/
def runTest (h : TestHistory) : Option (TitusLogger fun name => TestEntry (isTimer name)) :=
  (system (fun name => TestValue (isTimer name)) "session_time").run newLogger
    (.addEntry ⟨"test1", testCounter⟩ :: h.map Event.toAction)

/-- An increment in the second of two sessions only. -/
def incrementLast : TestHistory :=
  [.endSession 1 fun _ => 2, .add (1 : BitVec 32), .endSession 3 fun _ => 4]

theorem sessions_counted_once_last :
    ∃ l, runTest incrementLast = some l ∧ CountedOnce "test1" l incrementLast := by
  obtain ⟨l, hl⟩ := Option.isSome_iff_exists.mp
    (show (runTest incrementLast).isSome = true by decide +kernel)
  have hr : (system (fun name => TestValue (isTimer name)) "session_time").Reachable newLogger :=
    .init ⟨sessionTimer, rfl⟩
  refine ⟨l, hl, (sessions_counted_once_iff hr hl).mpr (.inr ⟨rfl, ?_⟩)⟩
  intro y hy
  exact List.mem_singleton.mp hy

/-- An increment in the first of two sessions. -/
def incrementFirst : TestHistory :=
  [.add (1 : BitVec 32), .endSession 1 fun _ => 2, .endSession 3 fun _ => 4]

/-- The one increment is in both snapshots, and the aggregate is 2. -/
theorem increment_counted_twice :
    ∃ l, runTest incrementFirst = some l ∧ l.previousSessions.map testCount = [some 1, some 1] ∧
      testCount l.aggregatedSessions = some 2 ∧ ¬ CountedOnce "test1" l incrementFirst := by
  obtain ⟨l, hl, hp⟩ := (Option.any_eq_true _ _).mp
    (show (runTest incrementFirst).any (fun l => decide
      (l.previousSessions.map testCount = [some 1, some 1] ∧
        testCount l.aggregatedSessions = some 2)) = true by decide +kernel)
  obtain ⟨hsnapshots, hsum⟩ := of_decide_eq_true hp
  refine ⟨l, hl, hsnapshots, hsum, fun h => ?_⟩
  obtain ⟨e, he, hvalue⟩ := Option.map_eq_some_iff.mp hsum
  have hone : (2 : BitVec 32) = 1 := hvalue.symm.trans (h.sum e he)
  cases hone

end Titus.Logger

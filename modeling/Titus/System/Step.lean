import Titus.Lib.HeapTree
import Titus.Results.Conservation
import Titus.Tasks.Conservation

/-! `set_problem` and `parallel_work` as a whole: the tasks and the results of all ranks, and the
detection of the end of a session along the tree of the ranks. -/

namespace Titus.System

open Memory

variable {n : ℕ}

/-! ### State -/

/-- `TerminationDetectionData`. -/
structure TerminationStatus where
  leftChildSubtreeTermination : ℕ
  rightChildSubtreeTermination : ℕ
  globalTerminationDetected : ℕ
deriving DecidableEq

/-- The assertions of `load_balancing`, `termination_detection`, `parallel_work` and
`push_tmp_results`. -/
inductive Assertion
  /-- `nb_result <= nb_usr_results`. -/
  | nbResult
  /-- `subtree_termintion_reached == false` on the root. -/
  | rootReached
  /-- `value_old == 0` of the flag of a child. -/
  | valueOld
  /-- Everything is empty at the end of `parallel_work`. -/
  | notEmpty
  /-- `owner_result_rank` is a rank. -/
  | ownerResultRank
deriving DecidableEq

/-- The point that a rank has reached in the functions that `parallel_work` calls between the steps
on its tasks. -/
inductive Point
  /-- In none of them, or at the start of `return_result`, `push_results_buffer` or
  `load_balancing`. -/
  | entry
  /-- In the first flush of `return_result`. -/
  | firstFlush
  /-- Before the test of `nb_result` of the tmp segment. -/
  | testingTmp
  | pushing
  /-- Before the second test of `is_empty`. -/
  | testingEmpty
  | secondFlush
  /-- At the end of `return_result`. -/
  | returned
  /-- In the flush of `push_results_buffer`. -/
  | bufferFlush
  /-- In `termination_detection`, before the flags are read. -/
  | readingLeft
  | readingRight
  | readingGlobal
  /-- Before the flag of the parent is incremented. -/
  | reporting
  /-- Before the flags of the children are incremented. -/
  | forwardingLeft
  | forwardingRight
  /-- Before `select_target_rank`. -/
  | selecting
  /-- `load_balancing` has returned `FINISHED`. -/
  | finishing
  /-- After `reset`, before the assertions at the end of `parallel_work`. -/
  | leaving
  /-- The process has stopped at an assertion. -/
  | aborted (a : Assertion)
deriving DecidableEq

/-- What a rank keeps to detect the end of a session. -/
structure Control where
  terminationStatus : TerminationStatus
  subtreeTermintionReached : Bool
  point : Point
deriving DecidableEq

structure State (n : ℕ) where
  tasks : Tasks.State n
  results : Results.State n
  control : Fin n → Control

/-! ### The functions -/

def leftChild (r : Fin n) : Option (Fin n) := HeapTree.left r

def rightChild (r : Fin n) : Option (Fin n) := HeapTree.right r

/-- The flags that `MetadataResult::reset` sets. -/
def resetFlags (r : Fin n) : TerminationStatus where
  leftChildSubtreeTermination := if (leftChild r).isSome then 0 else 1
  rightChildSubtreeTermination := if (rightChild r).isSome then 0 else 1
  globalTerminationDetected := 0

/-- What `MetadataResult::reset` does to the segment. -/
def resetSegment (m : Results.BufferedSegment n) : Results.BufferedSegment n :=
  { m with state := .segmentAvailable }

/-- The segment after the constructor of `MetadataResult`. -/
def constructSegment (cfg : Config n) (m : Results.BufferedSegment n) :
    Results.BufferedSegment n :=
  resetSegment { m with
    segmentSize := cfg.sharedResultSegmentSize
    bufferTail := sizeofMetadataResult
    bufferHead := sizeofMetadataResult
    bufferEltCount := 0
    reserved := [] }

/-- The results of rank `r` after the constructor of `MetadataResult` in session `k`. -/
def constructResults (cfg : Config n) (k : ℕ) (r : Fin n) (t : Results.RankResults n) :
    Results.RankResults n :=
  { t with
    nbResult := 0
    nbUsrResults := cfg.nbTask k r
    resultSize := cfg.resultSize k
    usrResults := cfg.result k r
    localTransitingResults := [] }

/-- The results of the tmp segment, from the first task on. -/
def tmpData (t : Tasks.MetadataTmp n) : List UInt8 :=
  (List.range (t.resultSize * t.nbResult)).map fun i : ℕ =>
    t.bytes (t.ptrNextResultToStore + t.resultSize + i)

def State.setControl (s : State n) (r : Fin n) (c : Control) : State n :=
  { s with control := Function.update s.control r c }

/-- The state with rank `r` at point `p`. -/
def State.setPoint (s : State n) (r : Fin n) (p : Point) : State n :=
  s.setControl r { s.control r with point := p }

/-- `gaspi_atomic_fetch_add` of 1 on a flag of rank `c`. -/
def State.addFlag (s : State n) (c : Fin n) (add : TerminationStatus → TerminationStatus) :
    State n :=
  s.setControl c { s.control c with terminationStatus := add (s.control c).terminationStatus }

def addLeft (f : TerminationStatus) : TerminationStatus :=
  { f with leftChildSubtreeTermination := f.leftChildSubtreeTermination + 1 }

def addRight (f : TerminationStatus) : TerminationStatus :=
  { f with rightChildSubtreeTermination := f.rightChildSubtreeTermination + 1 }

def addGlobal (f : TerminationStatus) : TerminationStatus :=
  { f with globalTerminationDetected := f.globalTerminationDetected + 1 }

@[simp] theorem State.tasks_setControl (s : State n) (r : Fin n) (c : Control) :
    (s.setControl r c).tasks = s.tasks := rfl

@[simp] theorem State.results_setControl (s : State n) (r : Fin n) (c : Control) :
    (s.setControl r c).results = s.results := rfl

@[simp] theorem State.control_setControl (s : State n) (r : Fin n) (c : Control) :
    (s.setControl r c).control = Function.update s.control r c := rfl

/-- Rank `r` tells its parent that its subtree is done: a rank with an odd number is the left
child. -/
def report (s : State n) (r : Fin n) : State n :=
  s.addFlag (HeapTree.parent r) (if r.val % 2 = 1 then addLeft else addRight)

/-- Rank `r` passes the end of the session on to `child`, and goes on to point `p`. -/
def forward (s : State n) (r : Fin n) (child : Option (Fin n)) (p : Point) : State n :=
  match child with
  | none => s.setPoint r p
  | some c =>
    (s.addFlag c addGlobal).setPoint r
      (if (s.control c).terminationStatus.globalTerminationDetected = 0 then p
        else .aborted .valueOld)

/-! ### The steps -/

/-- A step on the tasks of rank `r`, which is at point `p` after it. -/
def stepTasks (cfg : Config n) (s : State n) (r : Fin n) (a : Tasks.Action n) (p : Point) :
    Option (State n) :=
  (Tasks.next cfg s.tasks (r, a)).map fun tasks => { s with tasks }.setPoint r p

/-- A step on the results of rank `r`, which is at point `p` after it. -/
def stepResults (net : Results.Network n) (s : State n) (r : Fin n) (a : Results.Action n)
    (p : Point) : Option (State n) :=
  (Results.next net s.results (r, a)).map fun results => { s with results }.setPoint r p

/-- `try_flush_buffer_elts_packed` goes on, up to point `p`. -/
def stepFlush (net : Results.Network n) (s : State n) (r : Fin n) (p : Point) :
    Option (State n) :=
  if (s.results.rank r).pc = .idle then some (s.setPoint r p)
  else stepResults net s r .advance (s.control r).point

/-- `try_flush_buffer_elts_packed` is called unless the buffer is empty. -/
def flushUnlessEmpty (net : Results.Network n) (s : State n) (r : Fin n) (flush after : Point) :
    Option (State n) :=
  if Results.isEmpty (s.results.segment r) (s.results.rank r) then some (s.setPoint r after)
  else stepResults net s r .flush flush

/-- The call of `push_tmp_results`. -/
def stepPush (cfg : Config n) (net : Results.Network n) (s : State n) (r : Fin n) :
    Option (State n) :=
  let t := (s.tasks r).tmp
  match t.ownerResultRank with
  | none => some (s.setPoint r (.aborted .ownerResultRank))
  | some owner =>
    match Results.next net s.results (r, .push (s.tasks r).current (t.lastResultId - t.nbResult)
        t.nbResult t.resultSize owner (tmpData t)), Tasks.next cfg s.tasks (r, .pushed) with
    | some results, some tasks => some ({ s with tasks, results }.setPoint r .pushing)
    | _, _ => none

/-- The next step of `load_balancing`. -/
def stepBalancing (s : State n) (r : Fin n) : State n :=
  let t := s.results.rank r
  if ¬ t.nbResult ≤ t.nbUsrResults then s.setPoint r (.aborted .nbResult)
  else s.setPoint r (if t.nbResult = t.nbUsrResults then .readingLeft else .selecting)

/-- The next step of `termination_detection`. -/
def stepDetection (s : State n) (r : Fin n) : Option (State n) :=
  let c := s.control r
  match c.point with
  | .readingLeft =>
    some (s.setPoint r (if c.terminationStatus.leftChildSubtreeTermination = 1 then .readingRight
      else if r.val = 0 then .selecting else .readingGlobal))
  | .readingRight =>
    if c.terminationStatus.rightChildSubtreeTermination = 1 then
      if r.val = 0 then
        some (s.setPoint r (if c.subtreeTermintionReached then .aborted .rootReached
          else .forwardingLeft))
      else if c.subtreeTermintionReached then some (s.setPoint r .readingGlobal)
      else some (s.setControl r { c with subtreeTermintionReached := true, point := .reporting })
    else some (s.setPoint r (if r.val = 0 then .selecting else .readingGlobal))
  | .reporting => some ((report s r).setPoint r .selecting)
  | .readingGlobal =>
    if c.subtreeTermintionReached ∧ c.terminationStatus.globalTerminationDetected = 1 then
      some (s.setControl r { c with subtreeTermintionReached := false, point := .forwardingLeft })
    else some (s.setPoint r .selecting)
  | .forwardingLeft => some (forward s r (leftChild r) .forwardingRight)
  | .forwardingRight => some (forward s r (rightChild r) .finishing)
  | _ => none

/-- `parallel_work` resets the context: `MetadataTask` in the step on the tasks, and
`MetadataResult` here. -/
def stepFinish (cfg : Config n) (s : State n) (r : Fin n) : Option (State n) :=
  (Tasks.next cfg s.tasks (r, .finish)).map fun tasks =>
    State.setControl
      ⟨tasks, (s.results.setSegment r (resetSegment (s.results.segment r))).setRank r
        { s.results.rank r with nbResult := 0 }, s.control⟩
      r { s.control r with terminationStatus := resetFlags r, point := .leaving }

/-- The assertions at the end of `parallel_work`. -/
def stepLeave (s : State n) (r : Fin n) : State n :=
  if (s.results.rank r).localTransitingResults = [] ∧ (s.tasks r).seg.nbTask = 0 ∧
      (s.tasks r).tmp.nbResult = 0 ∧
      Results.isEmpty (s.results.segment r) (s.results.rank r) then s.setPoint r .entry
  else s.setPoint r (.aborted .notEmpty)

/-- What a rank does next, or what becomes visible on its result segment. -/
inductive Action (n : ℕ)
  /-- Call `set_problem`, up to its barrier. -/
  | setProblem
  /-- Go on from the point reached.  `occupied` is the outcome of the test of the occupancy of the
  result segment, where this is next. -/
  | advance (occupied : Bool)
  /-- `select_target_rank` returns `victim`. -/
  | select (victim : Fin n)
  | land (m w : ℕ)
  | deliver (m : ℕ)
deriving DecidableEq

/-- The next step of rank `r`. -/
def advance (cfg : Config n) (net : Results.Network n) (s : State n) (r : Fin n) (b : Bool) :
    Option (State n) :=
  match (s.control r).point with
  | .entry =>
    match (s.tasks r).pc with
    | .idle => none
    | .barrier => stepTasks cfg s r .leaveBarrier .entry
    | .returning _ => flushUnlessEmpty net s r .firstFlush .testingTmp
    | .flushing => stepResults net s r .flush .bufferFlush
    | .balancing => some (stepBalancing s r)
    | _ => stepTasks cfg s r (.advance b) .entry
  | .firstFlush => stepFlush net s r .testingTmp
  | .testingTmp =>
    if (s.tasks r).tmp.nbResult = 0 then some (s.setPoint r .returned)
    else stepPush cfg net s r
  | .pushing =>
    if (s.results.rank r).pc = .idle ∧ (s.results.rank r).tmp = none then
      some (s.setPoint r .testingEmpty)
    else stepResults net s r .advance .pushing
  | .testingEmpty => flushUnlessEmpty net s r .secondFlush .returned
  | .secondFlush => stepFlush net s r .returned
  | .returned => stepTasks cfg s r (.advance b) .entry
  | .bufferFlush =>
    if (s.results.rank r).pc = .idle then stepTasks cfg s r (.advance b) .entry
    else stepResults net s r .advance .bufferFlush
  | .selecting | .aborted _ => none
  | .finishing => stepFinish cfg s r
  | .leaving => some (stepLeave s r)
  | _ => stepDetection s r

/-- One step of rank `r`. -/
def next (cfg : Config n) (net : Results.Network n) (s : State n) :
    Fin n × Action n → Option (State n)
  | (r, .setProblem) =>
    if (s.control r).point = .entry then
      (Tasks.next cfg s.tasks (r, .setProblem)).map fun tasks =>
        State.setControl
          ⟨tasks, (s.results.setSegment r (constructSegment cfg (s.results.segment r))).setRank r
            (constructResults cfg (s.tasks r).session r (s.results.rank r)), s.control⟩
          r { s.control r with terminationStatus := resetFlags r }
    else none
  | (r, .advance b) => advance cfg net s r b
  | (r, .select victim) =>
    if (s.control r).point = .selecting then
      if victim = r then some (s.setPoint r .entry)
      else stepTasks cfg s r (.steal victim) .entry
    else none
  | (r, .land m w) => stepResults net s r (.land m w) (s.control r).point
  | (r, .deliver m) => stepResults net s r (.deliver m) (s.control r).point

/-- A rank whose static variable and flags are as they are before its first session. -/
structure ControlInit (r : Fin n) (c : Control) : Prop where
  terminationStatus : c.terminationStatus = resetFlags r
  subtreeTermintionReached : c.subtreeTermintionReached = false
  point : c.point = .entry

/-- The library on `n` ranks, where results are sent along `net`. -/
def system (cfg : Config n) (net : Results.Network n) :
    Transition.System (State n) (Fin n × Action n) where
  init s := (Tasks.system cfg).init s.tasks ∧ (Results.system net).init s.results ∧
    ∀ r, ControlInit r (s.control r)
  next := next cfg net

/-! ### What a step does -/

/-- The steps of rank `r` that change its point only, and what made them possible. -/
inductive Moved (s : State n) (r : Fin n) : Point → Point → Prop
  | empty (site : Tasks.ReturnSite) (hpc : (s.tasks r).pc = .returning site) :
    Moved s r .entry .testingTmp
  | firstFlushed (h : (s.results.rank r).pc = .idle) : Moved s r .firstFlush .testingTmp
  | tmpEmpty (h : (s.tasks r).tmp.nbResult = 0) : Moved s r .testingTmp .returned
  | noOwner (h : (s.tasks r).tmp.nbResult ≠ 0) (ho : (s.tasks r).tmp.ownerResultRank = none) :
    Moved s r .testingTmp (.aborted .ownerResultRank)
  | pushed (h : (s.results.rank r).pc = .idle) (ht : (s.results.rank r).tmp = none) :
    Moved s r .pushing .testingEmpty
  | stillEmpty : Moved s r .testingEmpty .returned
  | secondFlushed (h : (s.results.rank r).pc = .idle) : Moved s r .secondFlush .returned
  | tooMany (hpc : (s.tasks r).pc = .balancing)
    (h : ¬ (s.results.rank r).nbResult ≤ (s.results.rank r).nbUsrResults) :
    Moved s r .entry (.aborted .nbResult)
  | complete (hpc : (s.tasks r).pc = .balancing)
    (h : (s.results.rank r).nbResult = (s.results.rank r).nbUsrResults) :
    Moved s r .entry .readingLeft
  | incomplete (hpc : (s.tasks r).pc = .balancing) : Moved s r .entry .selecting
  | leftDone (h : (s.control r).terminationStatus.leftChildSubtreeTermination = 1) :
    Moved s r .readingLeft .readingRight
  | notDone (p : Point) (hp : p = .readingLeft ∨ p = .readingRight ∨ p = .readingGlobal) :
    Moved s r p .selecting
  | askGlobal (p : Point) (hp : p = .readingLeft ∨ p = .readingRight) : Moved s r p .readingGlobal
  | rootReached (hr : r.val = 0) (h : (s.control r).subtreeTermintionReached = true) :
    Moved s r .readingRight (.aborted .rootReached)
  | rootDone (hr : r.val = 0)
    (h : (s.control r).terminationStatus.rightChildSubtreeTermination = 1)
    (hreached : (s.control r).subtreeTermintionReached = false) :
    Moved s r .readingRight .forwardingLeft
  | noLeft (h : leftChild r = none) : Moved s r .forwardingLeft .forwardingRight
  | noRight (h : rightChild r = none) : Moved s r .forwardingRight .finishing
  | self : Moved s r .selecting .entry
  | left (h : (s.results.rank r).localTransitingResults = [] ∧ (s.tasks r).seg.nbTask = 0 ∧
      (s.tasks r).tmp.nbResult = 0 ∧
      Results.isEmpty (s.results.segment r) (s.results.rank r)) : Moved s r .leaving .entry
  | notEmpty (h : ¬ ((s.results.rank r).localTransitingResults = [] ∧
      (s.tasks r).seg.nbTask = 0 ∧ (s.tasks r).tmp.nbResult = 0 ∧
      Results.isEmpty (s.results.segment r) (s.results.rank r))) :
    Moved s r .leaving (.aborted .notEmpty)

/-- The steps on the tasks of rank `r` alone, by the point where they are made. -/
inductive TasksCall (s : State n) (r : Fin n) : Point → Tasks.Action n → Prop
  | leaveBarrier : TasksCall s r .entry .leaveBarrier
  | work (b : Bool) : TasksCall s r .entry (.advance b)
  | returned (b : Bool) : TasksCall s r .returned (.advance b)
  | flushed (b : Bool) (h : (s.results.rank r).pc = .idle) : TasksCall s r .bufferFlush (.advance b)
  | steal (v : Fin n) (h : v ≠ r) : TasksCall s r .selecting (.steal v)

/-- The steps on results alone, by the points before and after them. -/
inductive ResultsCall (s : State n) (r : Fin n) : Point → Results.Action n → Point → Prop
  | firstFlush (site : Tasks.ReturnSite) (hpc : (s.tasks r).pc = .returning site) :
    ResultsCall s r .entry .flush .firstFlush
  | bufferFlush (hpc : (s.tasks r).pc = .flushing) : ResultsCall s r .entry .flush .bufferFlush
  | secondFlush : ResultsCall s r .testingEmpty .flush .secondFlush
  | inFlush (p : Point) (hp : p = .firstFlush ∨ p = .secondFlush ∨ p = .bufferFlush)
    (h : (s.results.rank r).pc ≠ .idle) : ResultsCall s r p .advance p
  | inPush : ResultsCall s r .pushing .advance .pushing
  | land (p : Point) (m w : ℕ) : ResultsCall s r p (.land m w) p
  | deliver (p : Point) (m : ℕ) : ResultsCall s r p (.deliver m) p

/-- The steps of rank `r` from `s`, each with what made it possible and the state after it. -/
inductive Stepped (cfg : Config n) (net : Results.Network n) (s : State n) (r : Fin n) :
    State n → Prop
  | move (p : Point) (h : Moved s r (s.control r).point p) : Stepped cfg net s r (s.setPoint r p)
  | tasks (a : Tasks.Action n) (tasks : Tasks.State n) (h : TasksCall s r (s.control r).point a)
    (ht : Tasks.next cfg s.tasks (r, a) = some tasks) :
    Stepped cfg net s r (State.setPoint ⟨tasks, s.results, s.control⟩ r .entry)
  | results (a : Results.Action n) (p : Point) (results : Results.State n)
    (h : ResultsCall s r (s.control r).point a p)
    (hs : Results.next net s.results (r, a) = some results) :
    Stepped cfg net s r (State.setPoint ⟨s.tasks, results, s.control⟩ r p)
  | push (owner : Fin n) (tasks : Tasks.State n) (results : Results.State n)
    (hpoint : (s.control r).point = .testingTmp) (hnb : (s.tasks r).tmp.nbResult ≠ 0)
    (howner : (s.tasks r).tmp.ownerResultRank = some owner)
    (hs : Results.next net s.results (r, .push (s.tasks r).current
      ((s.tasks r).tmp.lastResultId - (s.tasks r).tmp.nbResult) (s.tasks r).tmp.nbResult
      (s.tasks r).tmp.resultSize owner (tmpData (s.tasks r).tmp)) = some results)
    (ht : Tasks.next cfg s.tasks (r, .pushed) = some tasks) :
    Stepped cfg net s r (State.setPoint ⟨tasks, results, s.control⟩ r .pushing)
  | reach (hpoint : (s.control r).point = .readingRight) (hr : r.val ≠ 0)
    (h : (s.control r).terminationStatus.rightChildSubtreeTermination = 1)
    (hreached : (s.control r).subtreeTermintionReached = false) :
    Stepped cfg net s r (s.setControl r
      { s.control r with subtreeTermintionReached := true, point := .reporting })
  | report (hpoint : (s.control r).point = .reporting) :
    Stepped cfg net s r ((report s r).setPoint r .selecting)
  | pass (hpoint : (s.control r).point = .readingGlobal)
    (hreached : (s.control r).subtreeTermintionReached = true)
    (h : (s.control r).terminationStatus.globalTerminationDetected = 1) :
    Stepped cfg net s r (s.setControl r
      { s.control r with subtreeTermintionReached := false, point := .forwardingLeft })
  | forward (c : Fin n) (p : Point)
    (h : (s.control r).point = .forwardingLeft ∧ leftChild r = some c ∧ p = .forwardingRight ∨
      (s.control r).point = .forwardingRight ∧ rightChild r = some c ∧ p = .finishing) :
    Stepped cfg net s r (forward s r (some c) p)
  | finish (tasks : Tasks.State n) (hpoint : (s.control r).point = .finishing)
    (ht : Tasks.next cfg s.tasks (r, .finish) = some tasks) :
    Stepped cfg net s r (State.setControl
      ⟨tasks, (s.results.setSegment r (resetSegment (s.results.segment r))).setRank r
        { s.results.rank r with nbResult := 0 }, s.control⟩
      r { s.control r with terminationStatus := resetFlags r, point := .leaving })
  | setProblem (tasks : Tasks.State n) (hpoint : (s.control r).point = .entry)
    (ht : Tasks.next cfg s.tasks (r, .setProblem) = some tasks) :
    Stepped cfg net s r (State.setControl
      ⟨tasks, (s.results.setSegment r (constructSegment cfg (s.results.segment r))).setRank r
        (constructResults cfg (s.tasks r).session r (s.results.rank r)), s.control⟩
      r { s.control r with terminationStatus := resetFlags r })

section Inversion

variable {cfg : Config n} {net : Results.Network n} {s s' : State n} {r : Fin n}

theorem Stepped.of_tasks {a : Tasks.Action n} (h : TasksCall s r (s.control r).point a)
    (hs : stepTasks cfg s r a .entry = some s') : Stepped cfg net s r s' := by
  obtain ⟨tasks, ht, rfl⟩ := Option.map_eq_some_iff.mp hs
  exact .tasks a tasks h ht

theorem Stepped.of_results {a : Results.Action n} {p : Point}
    (h : ResultsCall s r (s.control r).point a p) (hs : stepResults net s r a p = some s') :
    Stepped cfg net s r s' := by
  obtain ⟨results, hr, rfl⟩ := Option.map_eq_some_iff.mp hs
  exact .results a p results h hr

theorem Stepped.of_detection (hs : stepDetection s r = some s') : Stepped cfg net s r s' := by
  unfold stepDetection at hs
  simp only at hs
  split at hs <;> rename_i hpoint
  · cases hs
    apply Stepped.move
    rw [hpoint]
    split
    · exact .leftDone ‹_›
    · split
      · exact .notDone _ (.inl rfl)
      · exact .askGlobal _ (.inl rfl)
  · split at hs
    · rename_i hright
      split at hs
      · rename_i hroot
        cases hs
        apply Stepped.move
        rw [hpoint]
        split
        · exact .rootReached hroot ‹_›
        · rename_i hreached
          exact .rootDone hroot hright (Bool.eq_false_of_not_eq_true hreached)
      · rename_i hroot
        split at hs <;> cases hs
        · apply Stepped.move
          rw [hpoint]
          exact .askGlobal _ (.inr rfl)
        · rename_i hreached
          exact .reach hpoint hroot hright (Bool.eq_false_of_not_eq_true hreached)
    · cases hs
      apply Stepped.move
      rw [hpoint]
      split
      · exact .notDone _ (.inr (.inl rfl))
      · exact .askGlobal _ (.inr rfl)
  · cases hs
    exact .report hpoint
  · split at hs <;> cases hs
    · rename_i hc
      exact .pass hpoint hc.1 hc.2
    · apply Stepped.move
      rw [hpoint]
      exact .notDone _ (.inr (.inr rfl))
  · cases hs
    cases hchild : leftChild r with
    | none =>
      apply Stepped.move
      rw [hpoint]
      exact .noLeft hchild
    | some c => exact .forward c _ (.inl ⟨hpoint, hchild, rfl⟩)
  · cases hs
    cases hchild : rightChild r with
    | none =>
      apply Stepped.move
      rw [hpoint]
      exact .noRight hchild
    | some c => exact .forward c _ (.inr ⟨hpoint, hchild, rfl⟩)
  · cases hs

theorem Stepped.of_flush {p : Point}
    (hp : (s.control r).point = .firstFlush ∨ (s.control r).point = .secondFlush)
    (hmoved : (s.results.rank r).pc = .idle → Moved s r (s.control r).point p)
    (hs : stepFlush net s r p = some s') : Stepped cfg net s r s' := by
  unfold stepFlush at hs
  split at hs
  · cases hs
    apply Stepped.move
    apply hmoved
    assumption
  · apply Stepped.of_results
    · apply ResultsCall.inFlush
      · exact hp.imp_right .inl
      · assumption
    · exact hs

theorem Stepped.of_flushUnlessEmpty {flush after : Point}
    (hcall : ResultsCall s r (s.control r).point .flush flush)
    (hmoved : Moved s r (s.control r).point after)
    (hs : flushUnlessEmpty net s r flush after = some s') : Stepped cfg net s r s' := by
  unfold flushUnlessEmpty at hs
  split at hs
  · cases hs
    exact .move _ hmoved
  · exact .of_results hcall hs

theorem Stepped.of_push (hpoint : (s.control r).point = .testingTmp)
    (hnb : (s.tasks r).tmp.nbResult ≠ 0) (hs : stepPush cfg net s r = some s') :
    Stepped cfg net s r s' := by
  simp only [stepPush] at hs
  split at hs
  · cases hs
    apply Stepped.move
    rw [hpoint]
    exact .noOwner hnb ‹_›
  · split at hs
    · cases hs
      exact .push _ _ _ hpoint hnb ‹_› ‹_› ‹_›
    · cases hs

theorem Stepped.of_balancing (hpoint : (s.control r).point = .entry)
    (hpc : (s.tasks r).pc = .balancing) : Stepped cfg net s r (stepBalancing s r) := by
  simp only [stepBalancing]
  split
  · apply Stepped.move
    rw [hpoint]
    exact .tooMany hpc ‹_›
  · apply Stepped.move
    rw [hpoint]
    split
    · exact .complete hpc ‹_›
    · exact .incomplete hpc

theorem Stepped.of_leave (hpoint : (s.control r).point = .leaving) :
    Stepped cfg net s r (stepLeave s r) := by
  unfold stepLeave
  split
  · apply Stepped.move
    rw [hpoint]
    exact .left ‹_›
  · apply Stepped.move
    rw [hpoint]
    exact .notEmpty ‹_›

theorem Stepped.of_entry {b : Bool} (hpoint : (s.control r).point = .entry)
    (hs : advance cfg net s r b = some s') : Stepped cfg net s r s' := by
  simp only [advance, hpoint] at hs
  have hcall : ∀ {a}, TasksCall s r .entry a → stepTasks cfg s r a .entry = some s' →
      Stepped cfg net s r s' := by
    intro a ha
    rw [← hpoint] at ha
    exact .of_tasks ha
  split at hs
  · cases hs
  · exact hcall .leaveBarrier hs
  · rename_i site hpc
    apply Stepped.of_flushUnlessEmpty _ _ hs
    · rw [hpoint]
      exact .firstFlush site hpc
    · rw [hpoint]
      exact .empty site hpc
  · apply Stepped.of_results _ hs
    rw [hpoint]
    exact .bufferFlush ‹_›
  · cases hs
    exact .of_balancing hpoint ‹_›
  · exact hcall (.work b) hs

theorem Stepped.of_advance {b : Bool} (hs : advance cfg net s r b = some s') :
    Stepped cfg net s r s' := by
  cases hpoint : (s.control r).point with
  | entry => exact .of_entry hpoint hs
  | firstFlush =>
    simp only [advance, hpoint] at hs
    apply Stepped.of_flush (.inl hpoint) _ hs
    rw [hpoint]
    exact .firstFlushed
  | testingTmp =>
    simp only [advance, hpoint] at hs
    split at hs
    · cases hs
      apply Stepped.move
      rw [hpoint]
      exact .tmpEmpty ‹_›
    · exact .of_push hpoint ‹_› hs
  | pushing =>
    simp only [advance, hpoint] at hs
    split at hs
    · rename_i h
      cases hs
      apply Stepped.move
      rw [hpoint]
      exact .pushed h.1 h.2
    · apply Stepped.of_results _ hs
      rw [hpoint]
      exact .inPush
  | testingEmpty =>
    simp only [advance, hpoint] at hs
    apply Stepped.of_flushUnlessEmpty _ _ hs
    · rw [hpoint]
      exact .secondFlush
    · rw [hpoint]
      exact .stillEmpty
  | secondFlush =>
    simp only [advance, hpoint] at hs
    apply Stepped.of_flush (.inr hpoint) _ hs
    rw [hpoint]
    exact .secondFlushed
  | returned =>
    simp only [advance, hpoint] at hs
    apply Stepped.of_tasks _ hs
    rw [hpoint]
    exact .returned b
  | bufferFlush =>
    simp only [advance, hpoint] at hs
    split at hs
    · apply Stepped.of_tasks _ hs
      rw [hpoint]
      exact .flushed b ‹_›
    · apply Stepped.of_results _ hs
      rw [hpoint]
      exact .inFlush _ (.inr (.inr rfl)) ‹_›
  | finishing =>
    simp only [advance, hpoint, stepFinish] at hs
    obtain ⟨tasks, ht, rfl⟩ := Option.map_eq_some_iff.mp hs
    exact .finish tasks hpoint ht
  | leaving =>
    simp only [advance, hpoint] at hs
    cases hs
    exact .of_leave hpoint
  | selecting | aborted =>
    simp only [advance, hpoint] at hs
    cases hs
  | readingLeft | readingRight | readingGlobal | reporting | forwardingLeft | forwardingRight =>
    simp only [advance, hpoint] at hs
    exact .of_detection hs

theorem stepped_of_next {a : Action n} (hs : next cfg net s (r, a) = some s') :
    Stepped cfg net s r s' := by
  cases a with
  | setProblem =>
    simp only [next] at hs
    split at hs
    · rename_i hpoint
      obtain ⟨tasks, ht, rfl⟩ := Option.map_eq_some_iff.mp hs
      exact .setProblem tasks hpoint ht
    · cases hs
  | advance b => exact .of_advance hs
  | select v =>
    simp only [next] at hs
    split at hs
    · rename_i hpoint
      split at hs
      · cases hs
        apply Stepped.move
        rw [hpoint]
        exact .self
      · apply Stepped.of_tasks (a := .steal v)
        · rw [hpoint]
          exact .steal v ‹_›
        · exact hs
    · cases hs
  | land m w => exact .of_results (.land _ m w) hs
  | deliver m => exact .of_results (.deliver _ m) hs

end Inversion

end Titus.System

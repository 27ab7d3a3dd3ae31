import Titus.Lib.Transition
import Titus.Results.PackedPush

/-! The writes of a packed push and its notification are posted to the result queue, in lists of at
most 254 writes, with a call of `wait_if_queue_full` before each list. -/

namespace Titus.Results

/-! ### State -/

/-- What GASPI gives: the bits of a `gaspi_number_t`, and `gaspi_queue_size_max`. -/
structure QueueLimits where
  numberBits : ℕ
  queueSizeMax : ℕ

/-- What is posted to the queue. -/
inductive Request
  | writeList (l : List WriteArg)
  | notify (id value : ℕ)

/-- What `gaspi_wait` returns: success when the queue is empty, or a timeout after `completed` of the
requests have left it. -/
inductive WaitResult
  | success
  | timeout (completed : ℕ)
deriving DecidableEq

/-- The point that `try_push_vector_elt_to` has reached. -/
inductive PostPc
  /-- At the head of the loop over the list, at index `i`. -/
  | head (i : ℕ)
  /-- At the head of the loop of `wait_if_queue_full`, which has read `queueSize`. -/
  | waiting (i queueSize : ℕ)
  /-- Before `gaspi_write_list`. -/
  | writing (i : ℕ)
  | notifying
  | posted
deriving DecidableEq

/-- `occupancy` is the number of requests in the queue.  `requests` is not in memory: it has all
that has been posted. -/
structure Posting where
  pc : PostPc
  occupancy : ℕ
  requests : List Request

inductive PostAction
  | go
  /-- `gaspi_wait` returns. -/
  | wait (result : WaitResult)

/-! ### Functions -/

section Functions

variable (q : QueueLimits) (args : List WriteArg) (notifyId : ℕ)

/-- A conversion to `gaspi_number_t`. -/
def QueueLimits.toNumber (x : ℕ) : ℕ := x % 2 ^ q.numberBits

/-- The `request_size` of `wait_if_queue_full`, when it is called with `args.elt_count + 1`. -/
def requestSize : ℕ :=
  let size := q.toNumber (args.length + 1)
  if size = 0 then q.queueSizeMax - q.queueSizeMax / 2 else size

/-- The condition of the loop of `wait_if_queue_full`. -/
def queueFull (queueSize : ℕ) : Bool :=
  q.toNumber (queueSize + requestSize q args) ≥ q.queueSizeMax

/-- The list that is posted at index `i`. -/
def chunk (i : ℕ) : List WriteArg := (args.drop i).take 254

def nextPost (s : Posting) : PostAction → Option Posting
  | .go =>
    match s.pc with
    | .head i =>
      if i < args.length then some { s with pc := .waiting i s.occupancy }
      else some { s with pc := .notifying }
    | .waiting i queueSize =>
      if queueFull q args queueSize then none else some { s with pc := .writing i }
    | .writing i =>
      some { s with
        pc := .head (i + 254)
        occupancy := s.occupancy + (chunk args i).length
        requests := s.requests ++ [.writeList (chunk args i)] }
    | .notifying =>
      some { s with
        pc := .posted
        occupancy := s.occupancy + 1
        requests := s.requests ++ [.notify notifyId args.length] }
    | .posted => none
  | .wait result =>
    match s.pc with
    | .waiting i queueSize =>
      if queueFull q args queueSize then
        match result with
        | .success => some { s with pc := .writing i, occupancy := 0 }
        -- The sizes that are read again shadow those that the loop tests.
        | .timeout completed => some { s with occupancy := s.occupancy - completed }
      else none
    | _ => none

/-- The posting of a write list to a queue that has `occupancy` requests. -/
def startPost (occupancy : ℕ) : Posting := ⟨.head 0, occupancy, []⟩

/-- The posting of a write list, for all results of `gaspi_wait`. -/
def posting (occupancy : ℕ) : Transition.System Posting PostAction where
  init s := s = startPost occupancy
  next := nextPost q args notifyId

/-- The next step calls `gaspi_wait`. -/
def needsWait (s : Posting) : Bool :=
  match s.pc with
  | .waiting _ queueSize => queueFull q args queueSize
  | _ => false

/-- `fuel` steps, where the calls of `gaspi_wait` return `results` from index `k` on. -/
def follow (results : ℕ → WaitResult) : ℕ → ℕ → Posting → Posting
  | 0, _, s => s
  | fuel + 1, k, s =>
    if needsWait q args s then
      (nextPost q args notifyId s (.wait (results k))).elim s (follow results fuel (k + 1))
    else (nextPost q args notifyId s .go).elim s (follow results fuel k)

end Functions

variable {q : QueueLimits} {args : List WriteArg} {notifyId occupancy i queueSize : ℕ}
  {s s' : Posting}

/-! ### What holds of each state -/

/-- The first `k` lists. -/
def postedLists (args : List WriteArg) (k : ℕ) : List Request :=
  (List.range k).map fun j => .writeList (chunk args (254 * j))

/-- All that is to be posted. -/
def allRequests (args : List WriteArg) (notifyId : ℕ) : List Request :=
  (writeLists args).map .writeList ++ [.notify notifyId args.length]

/-- What is posted, and the room in the queue, at each point. -/
def PostOk (q : QueueLimits) (args : List WriteArg) (notifyId : ℕ) (s : Posting) : Prop :=
  match s.pc with
  | .head i => ∃ k, i = 254 * k ∧ i < args.length + 254 ∧ s.requests = postedLists args k ∧
      s.occupancy ≤ q.queueSizeMax ∧ (0 < k → s.occupancy + 1 ≤ q.queueSizeMax)
  | .waiting i queueSize => ∃ k, i = 254 * k ∧ i < args.length ∧ s.requests = postedLists args k ∧
      s.occupancy ≤ queueSize ∧ queueSize ≤ q.queueSizeMax
  | .writing i => ∃ k, i = 254 * k ∧ i < args.length ∧ s.requests = postedLists args k ∧
      s.occupancy + (chunk args i).length + 1 ≤ q.queueSizeMax
  | .notifying => s.requests = (writeLists args).map .writeList ∧
      s.occupancy + 1 ≤ q.queueSizeMax
  | .posted => s.requests = allRequests args notifyId ∧ s.occupancy ≤ q.queueSizeMax

/-- What is assumed of GASPI: the queue has room for a list and a notification, and a
`gaspi_number_t` holds the numbers that are added up. -/
structure RoomFor (q : QueueLimits) (args : List WriteArg) : Prop where
  le_max : 256 ≤ q.queueSizeMax
  fits : q.queueSizeMax + (args.length + 1) < 2 ^ q.numberBits

theorem RoomFor.queueFull_iff (h : RoomFor q args) (hsize : queueSize ≤ q.queueSizeMax) :
    queueFull q args queueSize = true ↔ q.queueSizeMax ≤ queueSize + (args.length + 1) := by
  have hfits := h.fits
  have hrequest : requestSize q args = args.length + 1 := by
    have hword : q.toNumber (args.length + 1) = args.length + 1 := Nat.mod_eq_of_lt (by omega)
    rw [requestSize, hword]
    exact if_neg (Nat.succ_ne_zero _)
  have hsum : q.toNumber (queueSize + (args.length + 1)) = queueSize + (args.length + 1) :=
    Nat.mod_eq_of_lt (by omega)
  rw [queueFull, hrequest, hsum, decide_eq_true_eq]

theorem length_chunk (args : List WriteArg) (i : ℕ) :
    (chunk args i).length = min 254 (args.length - i) := by
  rw [chunk, List.length_take, List.length_drop]

theorem postedLists_succ (args : List WriteArg) (k : ℕ) :
    postedLists args (k + 1) = postedLists args k ++ [.writeList (chunk args (254 * k))] := by
  rw [postedLists, List.range_succ, List.map_append]
  rfl

theorem postedLists_mono (args : List WriteArg) {k k' : ℕ} (h : k ≤ k') :
    postedLists args k <+: postedLists args k' := by
  obtain ⟨d, rfl⟩ := Nat.exists_eq_add_of_le h
  rw [postedLists, postedLists, List.range_add, List.map_append]
  exact List.prefix_append _ _

theorem postedLists_eq (args : List WriteArg) :
    postedLists args ((args.length + 253) / 254) = (writeLists args).map .writeList := by
  rw [writeLists, List.map_map]
  rfl

theorem postOk_start (args : List WriteArg) (notifyId : ℕ) (hocc : occupancy ≤ q.queueSizeMax) :
    PostOk q args notifyId (startPost occupancy) :=
  ⟨0, rfl, by omega, rfl, hocc, fun h => absurd h (lt_irrefl 0)⟩

/-- One step keeps the order of what is posted and the room in the queue. -/
theorem PostOk.next (hq : RoomFor q args) (hargs : args ≠ []) (h : PostOk q args notifyId s)
    {a : PostAction} (hs : nextPost q args notifyId s a = some s') : PostOk q args notifyId s' := by
  have hmax := hq.le_max
  have hpos : 0 < args.length := List.length_pos_of_ne_nil hargs
  obtain ⟨pc, occupancy, requests⟩ := s
  cases a with
  | go =>
    cases pc with
    | head i =>
      obtain ⟨k, rfl, hi, hrequests, hocc, hroom⟩ := h
      simp only [nextPost] at hs
      split at hs
      · rename_i hlt
        cases hs
        exact ⟨k, rfl, hlt, hrequests, le_rfl, hocc⟩
      · rename_i hge
        cases hs
        have hk : k = (args.length + 253) / 254 := by omega
        refine ⟨?_, hroom (by omega)⟩
        rw [← postedLists_eq, ← hk]
        exact hrequests
    | waiting i queueSize =>
      obtain ⟨k, rfl, hi, hrequests, hocc, hsize⟩ := h
      simp only [nextPost] at hs
      split at hs
      · cases hs
      · rename_i hfull
        cases hs
        rw [hq.queueFull_iff hsize] at hfull
        refine ⟨k, rfl, hi, hrequests, ?_⟩
        simp only [length_chunk] at hocc ⊢
        omega
    | writing i =>
      obtain ⟨k, rfl, hi, hrequests, hroom⟩ := h
      cases hs
      refine ⟨k + 1, by omega, by omega, ?_, Nat.le_of_succ_le hroom, fun _ => hroom⟩
      rw [postedLists_succ, ← hrequests]
    | notifying =>
      obtain ⟨hrequests, hroom⟩ := h
      cases hs
      refine ⟨?_, hroom⟩
      rw [allRequests, ← hrequests]
    | posted => cases hs
  | wait result =>
    cases pc with
    | waiting i queueSize =>
      obtain ⟨k, rfl, hi, hrequests, hocc, hsize⟩ := h
      simp only [nextPost] at hs
      split at hs
      · cases result with
        | success =>
          cases hs
          refine ⟨k, rfl, hi, hrequests, ?_⟩
          simp only [length_chunk]
          omega
        | timeout completed =>
          cases hs
          exact ⟨k, rfl, hi, hrequests, (Nat.sub_le _ _).trans hocc, hsize⟩
      · cases hs
    | head | writing | notifying | posted => cases hs

theorem posting_invariant (hq : RoomFor q args) (hargs : args ≠ [])
    (hocc : occupancy ≤ q.queueSizeMax) :
    (posting q args notifyId occupancy).Invariant (PostOk q args notifyId) := by
  constructor
  · rintro s rfl
    exact postOk_start args notifyId hocc
  · intro s a s' _ h hs
    exact h.next hq hargs hs

/-- What is posted is the beginning of all that is to be posted, and the queue is not overfilled. -/
theorem PostOk.bounded (h : PostOk q args notifyId s) :
    s.occupancy ≤ q.queueSizeMax ∧ s.requests <+: allRequests args notifyId := by
  have hlists : ∀ {k}, 254 * k < args.length + 254 →
      postedLists args k <+: allRequests args notifyId := by
    intro k hk
    rw [allRequests, ← postedLists_eq]
    exact (postedLists_mono args (by omega)).trans (List.prefix_append _ _)
  obtain ⟨pc, occupancy, requests⟩ := s
  cases pc with
  | head i =>
    obtain ⟨k, rfl, hi, hrequests, hocc, -⟩ := h
    exact ⟨hocc, hrequests ▸ hlists hi⟩
  | waiting i queueSize =>
    obtain ⟨k, rfl, hi, hrequests, hocc, hsize⟩ := h
    exact ⟨hocc.trans hsize, hrequests ▸ hlists (by omega)⟩
  | writing i =>
    obtain ⟨k, rfl, hi, hrequests, hroom⟩ := h
    refine ⟨?_, hrequests ▸ hlists (by omega)⟩
    simp only at hroom ⊢
    omega
  | notifying =>
    obtain ⟨hrequests, hroom⟩ := h
    exact ⟨Nat.le_of_succ_le hroom, hrequests ▸ List.prefix_append _ _⟩
  | posted =>
    obtain ⟨hrequests, hocc⟩ := h
    exact ⟨hocc, hrequests ▸ List.prefix_rfl⟩

/-! ### The loop comes to its end -/

/-- The steps that are left, if no call of `gaspi_wait` times out. -/
def stepsLeft (args : List WriteArg) (s : Posting) : ℕ :=
  match s.pc with
  | .head i => 3 * (args.length + 254 - i) + 2
  | .waiting i _ => 3 * (args.length + 254 - i) + 1
  | .writing i => 3 * (args.length + 254 - i)
  | .notifying => 1
  | .posted => 0

/-- A step that does not wait brings the end nearer. -/
theorem PostOk.go (h : PostOk q args notifyId s) (hpc : s.pc ≠ .posted)
    (hwait : needsWait q args s = false) :
    ∃ s', nextPost q args notifyId s .go = some s' ∧ stepsLeft args s' < stepsLeft args s := by
  obtain ⟨pc, occupancy, requests⟩ := s
  cases pc with
  | head i =>
    simp only [nextPost]
    split
    · exact ⟨_, rfl, Nat.lt_succ_self _⟩
    · exact ⟨_, rfl, Nat.succ_lt_succ (Nat.succ_pos _)⟩
  | waiting i queueSize =>
    have hfull : queueFull q args queueSize = false := hwait
    simp only [nextPost, hfull]
    exact ⟨_, rfl, Nat.lt_succ_self _⟩
  | writing i =>
    obtain ⟨k, rfl, hi, -, -⟩ := h
    refine ⟨_, rfl, ?_⟩
    simp only [stepsLeft]
    omega
  | notifying => exact ⟨_, rfl, Nat.zero_lt_one⟩
  | posted => exact absurd rfl hpc

/-- So does a successful wait, while a timeout leaves the loop where it is. -/
theorem wait_next (notifyId : ℕ) (hwait : needsWait q args s = true) :
    (∃ s', nextPost q args notifyId s (.wait .success) = some s' ∧
      stepsLeft args s' < stepsLeft args s) ∧
    ∀ completed, ∃ s', nextPost q args notifyId s (.wait (.timeout completed)) = some s' ∧
      s'.pc = s.pc := by
  obtain ⟨pc, occupancy, requests⟩ := s
  cases pc with
  | waiting i queueSize =>
    have hfull : queueFull q args queueSize = true := hwait
    simp only [nextPost, hfull, if_true]
    exact ⟨⟨_, rfl, Nat.lt_succ_self _⟩, fun completed => ⟨_, rfl, rfl⟩⟩
  | head | writing | notifying | posted => cases hwait

theorem stepsLeft_congr (h : s'.pc = s.pc) : stepsLeft args s' = stepsLeft args s := by
  simp only [stepsLeft, h]

theorem needsWait_congr (h : s'.pc = s.pc) : needsWait q args s' = needsWait q args s := by
  simp only [needsWait, h]

/-- A wait ends with the first success. -/
theorem exists_follow_wait (hq : RoomFor q args) (hargs : args ≠ []) {results : ℕ → WaitResult}
    {steps d : ℕ} (hlater : ∀ {s k}, PostOk q args notifyId s → stepsLeft args s < steps →
      ∃ fuel, (follow q args notifyId results fuel k s).pc = .posted) :
    ∀ {s k}, PostOk q args notifyId s → stepsLeft args s ≤ steps → needsWait q args s = true →
      results (k + d) = .success →
      ∃ fuel, (follow q args notifyId results fuel k s).pc = .posted := by
  have hnow : ∀ {s k}, PostOk q args notifyId s → stepsLeft args s ≤ steps →
      needsWait q args s = true → results k = .success →
      ∃ fuel, (follow q args notifyId results fuel k s).pc = .posted := by
    intro s k h hsteps hwait hsuccess
    obtain ⟨⟨s', hs, hless⟩, -⟩ := wait_next notifyId hwait
    obtain ⟨fuel, hfuel⟩ := hlater (k := k + 1) (h.next hq hargs hs) (hless.trans_le hsteps)
    refine ⟨fuel + 1, ?_⟩
    rw [follow, hwait, if_pos rfl, hsuccess, hs]
    exact hfuel
  induction d with
  | zero => exact hnow
  | succ d ih =>
    intro s k h hsteps hwait hsuccess
    cases hk : results k with
    | success => exact hnow h hsteps hwait hk
    | timeout completed =>
      obtain ⟨s', hs, hpc⟩ := (wait_next notifyId hwait).2 completed
      have hsuccess' : results (k + 1 + d) = .success := by
        rw [Nat.add_assoc, Nat.add_comm 1 d]
        exact hsuccess
      obtain ⟨fuel, hfuel⟩ := ih (h.next hq hargs hs) ((stepsLeft_congr hpc).trans_le hsteps)
        ((needsWait_congr hpc).trans hwait) hsuccess'
      refine ⟨fuel + 1, ?_⟩
      rw [follow, hwait, if_pos rfl, hk, hs]
      exact hfuel

/-- The loop ends, if no call of `gaspi_wait` is repeated without end. -/
theorem exists_follow (hq : RoomFor q args) (hargs : args ≠ []) {results : ℕ → WaitResult}
    (hresults : ∀ k, ∃ j, k ≤ j ∧ results j = .success) {steps : ℕ} :
    ∀ {s k}, PostOk q args notifyId s → stepsLeft args s < steps →
      ∃ fuel, (follow q args notifyId results fuel k s).pc = .posted := by
  induction steps with
  | zero =>
    intro s k _ hsteps
    exact absurd hsteps (Nat.not_lt_zero _)
  | succ steps ih =>
    intro s k h hsteps
    by_cases hpc : s.pc = .posted
    · exact ⟨0, hpc⟩
    cases hwait : needsWait q args s with
    | false =>
      obtain ⟨s', hs, hless⟩ := h.go hpc hwait
      obtain ⟨fuel, hfuel⟩ := ih (k := k) (h.next hq hargs hs)
        (hless.trans_le (Nat.lt_succ_iff.mp hsteps))
      refine ⟨fuel + 1, ?_⟩
      rw [follow, hwait, hs]
      exact hfuel
    | true =>
      obtain ⟨j, hkj, hj⟩ := hresults k
      obtain ⟨d, rfl⟩ := Nat.exists_eq_add_of_le hkj
      exact exists_follow_wait hq hargs ih h (Nat.lt_succ_iff.mp hsteps) hwait hj

theorem reachable_follow (results : ℕ → WaitResult) (fuel : ℕ) : ∀ {s k},
    (posting q args notifyId occupancy).Reachable s →
    (posting q args notifyId occupancy).Reachable
      (follow q args notifyId results fuel k s) := by
  induction fuel with
  | zero =>
    intro s k hr
    exact hr
  | succ fuel ih =>
    intro s k hr
    rw [follow]
    split
    · cases hs : nextPost q args notifyId s (.wait (results k)) with
      | none => exact hr
      | some s' =>
        exact ih (hr.step (show (posting q args notifyId occupancy).next s (.wait (results k)) =
          some s' from hs))
    · cases hs : nextPost q args notifyId s .go with
      | none => exact hr
      | some s' =>
        exact ih (hr.step (show (posting q args notifyId occupancy).next s .go = some s' from hs))

/-- What is promised of the loop, when the calls of `gaspi_wait` return `results`. -/
structure CoversList (q : QueueLimits) (args : List WriteArg) (notifyId occupancy : ℕ)
    (results : ℕ → WaitResult) : Prop where
  /-- At no point is the queue overfilled, -/
  bounded : ∀ fuel, (follow q args notifyId results fuel 0 (startPost occupancy)).occupancy ≤
    q.queueSizeMax
  /-- and what is posted is in order. -/
  inOrder : ∀ fuel, (follow q args notifyId results fuel 0 (startPost occupancy)).requests <+:
    allRequests args notifyId
  /-- In the end all is posted: the lists, and then the notification.  The end is reached unless
  `gaspi_wait` times out for ever. -/
  complete : (∀ k, ∃ j, k ≤ j ∧ results j = .success) →
    ∃ fuel, (follow q args notifyId results fuel 0 (startPost occupancy)).pc = .posted ∧
      (follow q args notifyId results fuel 0 (startPost occupancy)).requests =
        allRequests args notifyId
  /-- The lists have every write once, in order. -/
  lists : (writeLists args).flatten = args ∧ ∀ l ∈ writeLists args, l.length ≤ 254

theorem length_le_of_mem_writeLists {l : List WriteArg} (h : l ∈ writeLists args) :
    l.length ≤ 254 := by
  obtain ⟨k, -, rfl⟩ := List.mem_map.mp h
  exact List.length_take_le _ _

theorem posting_covers_list (hq : RoomFor q args) (hargs : args ≠ [])
    (hocc : occupancy ≤ q.queueSizeMax) (results : ℕ → WaitResult) :
    CoversList q args notifyId occupancy results := by
  have hok : ∀ fuel, PostOk q args notifyId
      (follow q args notifyId results fuel 0 (startPost occupancy)) := by
    intro fuel
    exact (posting_invariant hq hargs hocc).holds (reachable_follow results fuel (.init rfl))
  constructor
  · exact fun fuel => (hok fuel).bounded.1
  · exact fun fuel => (hok fuel).bounded.2
  · intro hresults
    obtain ⟨fuel, hpc⟩ := exists_follow hq hargs hresults (k := 0)
      (postOk_start args notifyId hocc) (Nat.lt_succ_self _)
    refine ⟨fuel, hpc, ?_⟩
    have h := hok fuel
    rw [PostOk, hpc] at h
    exact h.1
  · exact ⟨flatten_writeLists args, fun l hl => length_le_of_mem_writeLists hl⟩

/-- A queue of the least size that is full, and a wait that times out every other time. -/
theorem posting_covers_list_full :
    CoversList ⟨32, 256⟩ (List.replicate 300 ⟨.result, 0, 0, 48⟩) 0 256
      fun k => if k % 2 = 0 then .timeout 3 else .success := by
  apply posting_covers_list
  · constructor
    · decide
    · rw [List.length_replicate]
      decide
  · exact List.cons_ne_nil _ _
  · exact le_rfl

end Titus.Results

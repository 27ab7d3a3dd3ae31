import Titus.Lib.Transition
import Mathlib.Algebra.Order.BigOperators.Group.Finset
import Mathlib.Data.Fintype.Basic
import Mathlib.Data.List.Count
import Mathlib.Logic.Function.Basic
import Mathlib.Tactic.Cases

/-! The handshakes of the first `set_problem`: `open_segment_to_thieves` for each of the three
segments.  Every rank notifies the ranks it has registered, under its own number, and then waits for
a notification from each of them. -/

namespace Titus.Startup

variable {n : ℕ}

/-! ### State -/

/-- The segments, in the order in which `set_problem` opens them. -/
inductive SegmentId
  | segmentResult
  | segmentTmp
  | segmentTask
deriving DecidableEq

namespace SegmentId

def index : SegmentId → ℕ
  | segmentResult => 0
  | segmentTmp => 1
  | segmentTask => 2

/-- The segment that is opened next. -/
def next : SegmentId → Option SegmentId
  | segmentResult => some segmentTmp
  | segmentTmp => some segmentTask
  | segmentTask => none

end SegmentId

/-- The point that a rank has reached in `set_problem`, after its barrier. -/
inductive Phase
  /-- In `open_segment_to_thieves`, before rank `i` is notified. -/
  | sending (k : SegmentId) (i : ℕ)
  /-- Before the notification of rank `i` is waited for. -/
  | waiting (k : SegmentId) (i : ℕ)
  /-- `set_problem` has returned. -/
  | opened
  /-- The process has stopped at `dummy == i` or `val == 1`. -/
  | aborted
deriving DecidableEq

/-- A notification that has been posted and has not arrived. -/
structure Note (n : ℕ) where
  target : Fin n
  segment : SegmentId
  sender : Fin n
deriving DecidableEq

/-- `slots r k` are the notifications of segment `k` of rank `r`. -/
structure State (n : ℕ) where
  phase : Fin n → Phase
  slots : Fin n → SegmentId → ℕ → ℕ
  posted : List (Note n)

/-! ### Steps -/

/-- `gaspi_notify_waitsome`: the first of the `num` notifications from `start` on that is not
zero. -/
def notifyWaitsome (slots : ℕ → ℕ) (start num : ℕ) : Option ℕ :=
  (List.range' start num).find? fun i => slots i ≠ 0

/-- The phase after segment `k` has been opened. -/
def openNext (k : SegmentId) : Phase :=
  match k.next with
  | some k => .sending k 0
  | none => .opened

def State.setPhase (s : State n) (r : Fin n) (p : Phase) : State n :=
  { s with phase := Function.update s.phase r p }

def State.setSlot (s : State n) (r : Fin n) (k : SegmentId) (i val : ℕ) : State n :=
  { s with
    slots := Function.update s.slots r
      (Function.update (s.slots r) k (Function.update (s.slots r k) i val)) }

@[simp] theorem State.phase_setPhase (s : State n) (r : Fin n) (p : Phase) :
    (s.setPhase r p).phase = Function.update s.phase r p := rfl

@[simp] theorem State.slots_setPhase (s : State n) (r : Fin n) (p : Phase) :
    (s.setPhase r p).slots = s.slots := rfl

@[simp] theorem State.posted_setPhase (s : State n) (r : Fin n) (p : Phase) :
    (s.setPhase r p).posted = s.posted := rfl

@[simp] theorem State.phase_setSlot (s : State n) (r : Fin n) (k : SegmentId) (i val : ℕ) :
    (s.setSlot r k i val).phase = s.phase := rfl

@[simp] theorem State.posted_setSlot (s : State n) (r : Fin n) (k : SegmentId) (i val : ℕ) :
    (s.setSlot r k i val).posted = s.posted := rfl

theorem State.slots_setSlot (s : State n) (r : Fin n) (k : SegmentId) (i val : ℕ) (j : Fin n)
    (k' : SegmentId) (i' : ℕ) :
    (s.setSlot r k i val).slots j k' i' =
      if j = r ∧ k' = k ∧ i' = i then val else s.slots j k' i' := by
  unfold State.setSlot
  by_cases hj : j = r
  · subst hj
    by_cases hk : k' = k
    · subst hk
      by_cases hi : i' = i
      · subst hi
        simp
      · simp [hi]
    · simp [hk]
  · simp [hj]

/-- Rank `r` goes on in `open_segment_to_thieves`.  `reg` has the registrations of all ranks. -/
def advance (reg : Fin n → Fin n → Bool) (s : State n) (r : Fin n) : Option (State n) :=
  match s.phase r with
  | .sending k i =>
    if h : i < n then
      let posted := if reg r ⟨i, h⟩ then s.posted ++ [⟨⟨i, h⟩, k, r⟩] else s.posted
      some ({ s with posted }.setPhase r (.sending k (i + 1)))
    else some (s.setPhase r (.waiting k 0))
  | .waiting k i =>
    if h : i < n then
      if reg r ⟨i, h⟩ then
        match notifyWaitsome (s.slots r k) i 1 with
        | none => none
        | some dummy =>
          if dummy = i then
            some ((s.setSlot r k i 0).setPhase r
              (if s.slots r k i = 1 then .waiting k (i + 1) else .aborted))
          else some (s.setPhase r .aborted)
      else some (s.setPhase r (.waiting k (i + 1)))
    else some (s.setPhase r (openNext k))
  | .opened | .aborted => none

/-- A notification arrives. -/
def arrive (s : State n) (m : Note n) : State n :=
  { s.setSlot m.target m.segment m.sender 1 with posted := s.posted.erase m }

inductive Action (n : ℕ)
  | advance (r : Fin n)
  | arrive (m : Note n)
deriving DecidableEq

def next (reg : Fin n → Fin n → Bool) (s : State n) : Action n → Option (State n)
  | .advance r => advance reg s r
  | .arrive m => if m ∈ s.posted then some (arrive s m) else none

/-- All ranks have left the barrier of the first `set_problem`. -/
structure Starting (s : State n) : Prop where
  phase : ∀ r, s.phase r = .sending .segmentResult 0
  slots : ∀ r k i, s.slots r k i = 0
  posted : s.posted = []

/-- The handshakes of `n` ranks with the registrations `reg`. -/
def handshake (reg : Fin n → Fin n → Bool) : Transition.System (State n) (Action n) where
  init := Starting
  next := next reg

/-! ### What a step does -/

variable {reg : Fin n → Fin n → Bool} {s s' : State n} {r : Fin n}

theorem notifyWaitsome_one (slots : ℕ → ℕ) (i : ℕ) :
    notifyWaitsome slots i 1 = if slots i ≠ 0 then some i else none := by
  simp only [notifyWaitsome, List.range'_one, List.find?_cons, List.find?_nil]
  split <;> simp_all

/-- The steps of rank `r` from `s`, each with what made it possible and the state after it. -/
inductive Advanced (reg : Fin n → Fin n → Bool) (s : State n) (r : Fin n) : State n → Prop
  | notified (k : SegmentId) (i : Fin n) (hp : s.phase r = .sending k i) (hreg : reg r i = true) :
    Advanced reg s r (State.setPhase { s with posted := s.posted ++ [⟨i, k, r⟩] } r
      (.sending k (i + 1)))
  | notNotified (k : SegmentId) (i : Fin n) (hp : s.phase r = .sending k i)
    (hreg : reg r i = false) : Advanced reg s r (s.setPhase r (.sending k (i + 1)))
  | sentAll (k : SegmentId) (i : ℕ) (hp : s.phase r = .sending k i) (hi : n ≤ i) :
    Advanced reg s r (s.setPhase r (.waiting k 0))
  | received (k : SegmentId) (i : Fin n) (hp : s.phase r = .waiting k i)
    (hslot : s.slots r k i ≠ 0) (p : Phase)
    (hphase : p = if s.slots r k i = 1 then .waiting k (i + 1) else .aborted) :
    Advanced reg s r ((s.setSlot r k i 0).setPhase r p)
  | notAwaited (k : SegmentId) (i : Fin n) (hp : s.phase r = .waiting k i)
    (hreg : reg r i = false) : Advanced reg s r (s.setPhase r (.waiting k (i + 1)))
  | waitedAll (k : SegmentId) (i : ℕ) (hp : s.phase r = .waiting k i) (hi : n ≤ i) :
    Advanced reg s r (s.setPhase r (openNext k))

theorem advanced_of_advance (hs : advance reg s r = some s') : Advanced reg s r s' := by
  unfold advance at hs
  split at hs
  · rename_i k i hp
    split at hs
    · rename_i hi
      cases hs
      cases hreg : reg r ⟨i, hi⟩ with
      | true => exact .notified k ⟨i, hi⟩ hp hreg
      | false => exact .notNotified k ⟨i, hi⟩ hp hreg
    · cases hs
      exact .sentAll k i hp (Nat.le_of_not_lt ‹_›)
  · rename_i k i hp
    split at hs
    · rename_i hi
      split at hs
      · rw [notifyWaitsome_one] at hs
        by_cases hslot : s.slots r k i ≠ 0
        · simp only [if_pos hslot] at hs
          cases hs
          exact .received k ⟨i, hi⟩ hp hslot _ rfl
        · simp only [if_neg hslot] at hs
          cases hs
      · rename_i hreg
        cases hs
        exact .notAwaited k ⟨i, hi⟩ hp (Bool.eq_false_of_not_eq_true hreg)
    · cases hs
      exact .waitedAll k i hp (Nat.le_of_not_lt ‹_›)
  · cases hs
  · cases hs

/-! ### The invariant -/

/-- A rank in this phase has passed the point where rank `i` is notified of segment `k`. -/
def Phase.sent (p : Phase) (k : SegmentId) (i : ℕ) : Bool :=
  match p with
  | .sending k' j => k.index < k'.index ∨ k = k' ∧ i < j
  | .waiting k' _ => k.index ≤ k'.index
  | .opened => true
  | .aborted => false

/-- A rank in this phase has waited for the notification of rank `i` on segment `k`. -/
def Phase.waited (p : Phase) (k : SegmentId) (i : ℕ) : Bool :=
  match p with
  | .sending k' _ => k.index < k'.index
  | .waiting k' j => k.index < k'.index ∨ k = k' ∧ i < j
  | .opened => true
  | .aborted => false

/-- Each registered pair has one notification for each segment: not yet posted, or on its way, or in
its slot, or read. -/
structure Ok (reg : Fin n → Fin n → Bool) (s : State n) : Prop where
  count : ∀ (q r : Fin n) k, s.posted.count ⟨r, k, q⟩ + s.slots r k q +
    (reg q r && (s.phase r).waited k q).toNat = (reg q r && (s.phase q).sent k r).toNat
  ids : ∀ r k i, n ≤ i → s.slots r k i = 0
  running : ∀ r, s.phase r ≠ .aborted

theorem Starting.ok (h : Starting s) : Ok reg s := by
  constructor
  · intro q r k
    simp [h.posted, h.slots, h.phase, Phase.sent, Phase.waited, SegmentId.index]
  · intro r k i _
    exact h.slots r k i
  · intro r
    rw [h.phase]
    nofun

/-! ### The steps keep the invariant -/

theorem sent_send (k k' : SegmentId) (i j : ℕ) :
    (Phase.sending k (i + 1)).sent k' j =
      ((Phase.sending k i).sent k' j || decide (k' = k ∧ j = i)) := by
  rw [Bool.eq_iff_iff]
  cases k <;> cases k' <;> simp [Phase.sent, SegmentId.index] <;> omega

theorem not_sent_self (k : SegmentId) (i : ℕ) : (Phase.sending k i).sent k i = false := by
  simp [Phase.sent]

theorem waited_wait (k k' : SegmentId) (i j : ℕ) :
    (Phase.waiting k (i + 1)).waited k' j =
      ((Phase.waiting k i).waited k' j || decide (k' = k ∧ j = i)) := by
  rw [Bool.eq_iff_iff]
  cases k <;> cases k' <;> simp [Phase.waited, SegmentId.index] <;> omega

theorem not_waited_self (k : SegmentId) (i : ℕ) : (Phase.waiting k i).waited k i = false := by
  simp [Phase.waited]

theorem sent_all {k : SegmentId} {i j : ℕ} (k' : SegmentId) (hi : n ≤ i) (hj : j < n) :
    (Phase.waiting k 0).sent k' j = (Phase.sending k i).sent k' j := by
  rw [Bool.eq_iff_iff]
  cases k <;> cases k' <;> simp [Phase.sent, SegmentId.index] <;> omega

theorem sent_openNext (k k' : SegmentId) (i j : ℕ) :
    (openNext k).sent k' j = (Phase.waiting k i).sent k' j := by
  cases k <;> cases k' <;> simp [openNext, SegmentId.next, Phase.sent, SegmentId.index]

theorem waited_openNext {k : SegmentId} {i j : ℕ} (k' : SegmentId) (hi : n ≤ i) (hj : j < n) :
    (openNext k).waited k' j = (Phase.waiting k i).waited k' j := by
  rw [Bool.eq_iff_iff]
  cases k <;> cases k' <;>
    simp [openNext, SegmentId.next, Phase.waited, SegmentId.index] <;> omega

theorem openNext_ne (k : SegmentId) : openNext k ≠ .aborted := by
  cases k <;> nofun

variable (hsymm : ∀ a b, reg a b = reg b a)

include hsymm in
/-- A rank goes on without a notification. -/
theorem Ok.setPhase (h : Ok reg s) {p : Phase} (hp : p ≠ .aborted)
    (hsent : ∀ (j : Fin n) k, reg r j = true → p.sent k j = (s.phase r).sent k j)
    (hwaited : ∀ (j : Fin n) k, reg r j = true → p.waited k j = (s.phase r).waited k j) :
    Ok reg (s.setPhase r p) := by
  have hs : ∀ (q j : Fin n) k, (reg q j && (Function.update s.phase r p q).sent k j) =
      (reg q j && (s.phase q).sent k j) := by
    intro q j k
    by_cases hq : q = r
    · subst hq
      rw [Function.update_self]
      cases hreg : reg q j
      · rfl
      · rw [hsent j k hreg]
    · rw [Function.update_of_ne hq]
  have hw : ∀ (q j : Fin n) k, (reg q j && (Function.update s.phase r p j).waited k q) =
      (reg q j && (s.phase j).waited k q) := by
    intro q j k
    by_cases hj : j = r
    · subst hj
      rw [Function.update_self]
      cases hreg : reg q j
      · rfl
      · rw [hwaited q k (by rw [hsymm, hreg])]
    · rw [Function.update_of_ne hj]
  constructor
  · intro q j k
    simp only [State.phase_setPhase, State.slots_setPhase, State.posted_setPhase, hs, hw]
    exact h.count q j k
  · exact h.ids
  · intro q
    rw [State.phase_setPhase]
    by_cases hq : q = r
    · subst hq
      rwa [Function.update_self]
    · rw [Function.update_of_ne hq]
      exact h.running q

/-- A rank notifies another. -/
theorem Ok.send (h : Ok reg s) {k : SegmentId} {i : Fin n} (hp : s.phase r = .sending k i)
    (hreg : reg r i = true) :
    Ok reg (State.setPhase { s with posted := s.posted ++ [⟨i, k, r⟩] } r
      (.sending k (i + 1))) := by
  constructor
  · intro q j k'
    have hold := h.count q j k'
    have hw : (Function.update s.phase r (.sending k (i + 1)) j).waited k' q =
        (s.phase j).waited k' q := by
      by_cases hj : j = r
      · subst hj
        rw [Function.update_self, hp]
        rfl
      · rw [Function.update_of_ne hj]
    simp only [State.phase_setPhase, State.slots_setPhase, State.posted_setPhase,
      List.count_append, hw]
    by_cases hnote : q = r ∧ j = i ∧ k' = k
    · obtain ⟨rfl, rfl, rfl⟩ := hnote
      have hsent : (reg q j && (Function.update s.phase q (.sending k' (j + 1)) q).sent k' j) =
          true := by
        rw [Function.update_self, sent_send, decide_eq_true ⟨rfl, rfl⟩, Bool.or_true, hreg]
        rfl
      rw [hp, not_sent_self, Bool.and_false, Bool.toNat_false] at hold
      rw [List.count_singleton_self, hsent, Bool.toNat_true]
      omega
    · have hcount : ([⟨i, k, r⟩] : List (Note n)).count ⟨j, k', q⟩ = 0 := by
        rw [List.count_eq_zero, List.mem_singleton, Note.mk.injEq]
        rintro ⟨rfl, rfl, rfl⟩
        exact hnote ⟨rfl, rfl, rfl⟩
      have hs : (Function.update s.phase r (.sending k (i + 1)) q).sent k' j =
          (s.phase q).sent k' j := by
        by_cases hq : q = r
        · subst hq
          rw [Function.update_self, hp, sent_send, decide_eq_false, Bool.or_false]
          rintro ⟨rfl, hj⟩
          exact hnote ⟨rfl, Fin.ext hj, rfl⟩
        · rw [Function.update_of_ne hq]
      rw [hcount, hs]
      omega
  · exact h.ids
  · intro q
    rw [State.phase_setPhase]
    by_cases hq : q = r
    · subst hq
      rw [Function.update_self]
      nofun
    · rw [Function.update_of_ne hq]
      exact h.running q

/-- What a notification in its slot says. -/
structure Arrived (reg : Fin n → Fin n → Bool) (s : State n) (j : Fin n) (k : SegmentId)
    (q : Fin n) : Prop where
  one : s.slots j k q = 1
  notPosted : ⟨j, k, q⟩ ∉ s.posted
  registered : reg q j = true
  notWaited : (s.phase j).waited k q = false

theorem Ok.arrived (h : Ok reg s) {q j : Fin n} {k : SegmentId} (hslot : s.slots j k q ≠ 0) :
    Arrived reg s j k q := by
  have hcount := h.count q j k
  have hle : (reg q j && (s.phase q).sent k j).toNat ≤ 1 := Bool.toNat_le _
  have hsent : (reg q j && (s.phase q).sent k j).toNat = 1 := by omega
  have hwaited : (reg q j && (s.phase j).waited k q).toNat = 0 := by omega
  rw [Bool.toNat_eq_one, Bool.and_eq_true] at hsent
  rw [Bool.toNat_eq_zero, hsent.1, Bool.true_and] at hwaited
  refine ⟨by omega, ?_, hsent.1, hwaited⟩
  rw [← List.count_eq_zero]
  omega

/-- A notification on its way finds its slot empty. -/
structure Underway (reg : Fin n → Fin n → Bool) (s : State n) (m : Note n) : Prop where
  once : s.posted.count m = 1
  free : s.slots m.target m.segment m.sender = 0
  registered : reg m.sender m.target = true
  sent : (s.phase m.sender).sent m.segment m.target = true
  notWaited : (s.phase m.target).waited m.segment m.sender = false

theorem Ok.underway (h : Ok reg s) {m : Note n} (hm : m ∈ s.posted) : Underway reg s m := by
  obtain ⟨j, k, q⟩ := m
  have hcount := h.count q j k
  have hpos : 0 < s.posted.count ⟨j, k, q⟩ := List.count_pos_iff.mpr hm
  have hle : (reg q j && (s.phase q).sent k j).toNat ≤ 1 := Bool.toNat_le _
  have hsent : (reg q j && (s.phase q).sent k j).toNat = 1 := by omega
  have hwaited : (reg q j && (s.phase j).waited k q).toNat = 0 := by omega
  have honce : s.posted.count ⟨j, k, q⟩ = 1 := by omega
  have hfree : s.slots j k q = 0 := by omega
  rw [Bool.toNat_eq_one, Bool.and_eq_true] at hsent
  rw [Bool.toNat_eq_zero, hsent.1, Bool.true_and] at hwaited
  exact ⟨honce, hfree, hsent.1, hsent.2, hwaited⟩

theorem Ok.arrive (h : Ok reg s) {m : Note n} (hm : m ∈ s.posted) : Ok reg (arrive s m) := by
  have hu := h.underway hm
  constructor
  · intro q j k
    have hold := h.count q j k
    simp only [Startup.arrive, State.slots_setSlot]
    by_cases hnote : m = ⟨j, k, q⟩
    · subst hnote
      have hfree := hu.free
      have honce := hu.once
      simp only at hfree
      rw [List.count_erase_self, if_pos ⟨rfl, rfl, rfl⟩]
      simp only [State.setSlot]
      omega
    · have hne : ¬ (j = m.target ∧ k = m.segment ∧ q.val = m.sender.val) := by
        rintro ⟨rfl, rfl, hq⟩
        exact hnote (by rw [Fin.ext hq])
      rw [List.count_erase_of_ne (Ne.symm hnote), if_neg hne]
      exact hold
  · intro j k i hi
    have := m.sender.isLt
    simp only [Startup.arrive, State.slots_setSlot]
    rw [if_neg (by omega)]
    exact h.ids j k i hi
  · exact h.running

/-- A rank reads a notification that it has waited for. -/
theorem Ok.receive (h : Ok reg s) {k : SegmentId} {i : Fin n} (hp : s.phase r = .waiting k i)
    (hslot : s.slots r k i ≠ 0) :
    Ok reg ((s.setSlot r k i 0).setPhase r (.waiting k (i + 1))) := by
  have ha := h.arrived hslot
  constructor
  · intro q j k'
    have hold := h.count q j k'
    have hs : (Function.update s.phase r (.waiting k (i + 1)) q).sent k' j =
        (s.phase q).sent k' j := by
      by_cases hq : q = r
      · subst hq
        rw [Function.update_self, hp]
        rfl
      · rw [Function.update_of_ne hq]
    simp only [State.phase_setPhase, State.slots_setPhase, State.posted_setPhase,
      State.phase_setSlot, State.posted_setSlot, State.slots_setSlot, hs]
    by_cases hnote : j = r ∧ k' = k ∧ q = i
    · obtain ⟨rfl, rfl, rfl⟩ := hnote
      have hw : (reg q j && (Function.update s.phase j (.waiting k' (q + 1)) j).waited k' q) =
          true := by
        rw [Function.update_self, waited_wait, decide_eq_true ⟨rfl, rfl⟩, Bool.or_true,
          ha.registered]
        rfl
      have hone := ha.one
      rw [ha.notWaited, Bool.and_false, Bool.toNat_false] at hold
      rw [if_pos ⟨rfl, rfl, rfl⟩, hw, Bool.toNat_true]
      omega
    · have hne : ¬ (j = r ∧ k' = k ∧ q.val = i.val) := by
        rintro ⟨rfl, rfl, hq⟩
        exact hnote ⟨rfl, rfl, Fin.ext hq⟩
      have hw : (Function.update s.phase r (.waiting k (i + 1)) j).waited k' q =
          (s.phase j).waited k' q := by
        by_cases hj : j = r
        · subst hj
          rw [Function.update_self, hp, waited_wait, decide_eq_false, Bool.or_false]
          rintro ⟨rfl, hq⟩
          exact hne ⟨rfl, rfl, hq⟩
        · rw [Function.update_of_ne hj]
      rw [if_neg hne, hw]
      exact hold
  · intro j k' i' hi
    have := i.isLt
    simp only [State.slots_setPhase, State.slots_setSlot]
    rw [if_neg (by omega)]
    exact h.ids j k' i' hi
  · intro q
    rw [State.phase_setPhase]
    by_cases hq : q = r
    · subst hq
      rw [Function.update_self]
      nofun
    · rw [Function.update_of_ne hq]
      exact h.running q

include hsymm in
theorem Ok.advance (h : Ok reg s) (hs : Advanced reg s r s') : Ok reg s' := by
  cases hs with
  | notified k i hp hreg => exact h.send hp hreg
  | notNotified k i hp hreg =>
    apply h.setPhase hsymm (by nofun)
    · intro j k' hj
      rw [hp, sent_send, decide_eq_false, Bool.or_false]
      rintro ⟨-, hval⟩
      rw [Fin.ext hval, hreg] at hj
      cases hj
    · intro j k' _
      rw [hp]
      rfl
  | sentAll k i hp hi =>
    apply h.setPhase hsymm (by nofun)
    · intro j k' _
      rw [hp]
      exact sent_all k' hi j.isLt
    · intro j k' _
      rw [hp]
      cases k <;> cases k' <;> simp [Phase.waited, SegmentId.index]
  | received k i hp hslot p hphase =>
    rw [if_pos (h.arrived hslot).one] at hphase
    rw [hphase]
    exact h.receive hp hslot
  | notAwaited k i hp hreg =>
    apply h.setPhase hsymm (by nofun)
    · intro j k' _
      rw [hp]
      rfl
    · intro j k' hj
      rw [hp, waited_wait, decide_eq_false, Bool.or_false]
      rintro ⟨-, hval⟩
      rw [Fin.ext hval, hreg] at hj
      cases hj
  | waitedAll k i hp hi =>
    apply h.setPhase hsymm (openNext_ne k)
    · intro j k' _
      rw [hp]
      exact sent_openNext k k' i j
    · intro j k' _
      rw [hp]
      exact waited_openNext k' hi j.isLt

include hsymm in
theorem Ok.next (h : Ok reg s) {a : Action n} (hs : next reg s a = some s') : Ok reg s' := by
  cases a with
  | advance r => exact h.advance hsymm (advanced_of_advance hs)
  | arrive m =>
    simp only [Startup.next] at hs
    split at hs <;> cases hs
    exact h.arrive ‹_›

include hsymm in
theorem ok_invariant : (handshake reg).Invariant (Ok reg) :=
  ⟨fun _ hs => hs.ok, fun _ _ _ _ h hs => h.next hsymm hs⟩

/-! ### Ranks that have opened a segment -/

/-- A rank in this phase has opened segment `k`. -/
def Phase.hasOpened (p : Phase) (k : SegmentId) : Bool :=
  match p with
  | .sending k' _ | .waiting k' _ => k.index < k'.index
  | .opened => true
  | .aborted => false

theorem waited_of_hasOpened {p : Phase} {k : SegmentId} (h : p.hasOpened k = true) (i : ℕ) :
    p.waited k i = true := by
  cases p with
  | sending => exact h
  | waiting =>
    simp only [Phase.hasOpened, decide_eq_true_eq] at h
    simp [Phase.waited, h]
  | opened => rfl
  | aborted => cases h

/-- Nothing is left of the handshake of a segment that a rank has opened. -/
theorem Ok.clean (h : Ok reg s) {k : SegmentId} (hopen : (s.phase r).hasOpened k = true) :
    (∀ q, ⟨r, k, q⟩ ∉ s.posted) ∧ ∀ i, s.slots r k i = 0 := by
  constructor
  · intro q hm
    have := (h.underway hm).notWaited
    rw [waited_of_hasOpened hopen] at this
    cases this
  · intro i
    rcases Nat.lt_or_ge i n with hi | hi
    · by_contra hslot
      have := (h.arrived (q := ⟨i, hi⟩) hslot).notWaited
      rw [waited_of_hasOpened hopen] at this
      cases this
    · exact h.ids r k i hi

include hsymm in
/-- A rank that has opened the task segment has heard from each registered rank that it has opened
the segments before that one. -/
theorem Ok.hasOpened_of_opened (h : Ok reg s) (hr : s.phase r = .opened) {q : Fin n}
    (hreg : reg r q = true) : (s.phase q).hasOpened .segmentResult = true := by
  have hcount := h.count q r .segmentTask
  have hwaited : (reg q r && (s.phase r).waited .segmentTask q) = true := by
    rw [hr, hsymm, hreg]
    rfl
  rw [hwaited, Bool.toNat_true] at hcount
  have hle : (reg q r && (s.phase q).sent .segmentTask r).toNat ≤ 1 := Bool.toNat_le _
  have hsent : (reg q r && (s.phase q).sent .segmentTask r).toNat = 1 := by omega
  rw [Bool.toNat_eq_one, Bool.and_eq_true] at hsent
  cases hq : s.phase q with
  | sending k i =>
    have := hsent.2
    rw [hq] at this
    cases k <;> simp [Phase.sent, SegmentId.index] at this
    rfl
  | waiting k i =>
    have := hsent.2
    rw [hq] at this
    cases k <;> simp [Phase.sent, SegmentId.index] at this
    rfl
  | opened => rfl
  | aborted => exact absurd hq (h.running q)

/-! ### No rank waits in vain -/

theorem exists_advance_sending {k : SegmentId} {i : ℕ} (hp : s.phase r = .sending k i) :
    ∃ s', next reg s (.advance r) = some s' := by
  by_cases hi : i < n
  · exact ⟨_, by simp only [next, advance, hp, dif_pos hi]; rfl⟩
  · exact ⟨_, by simp only [next, advance, hp, dif_neg hi]; rfl⟩

include hsymm in
/-- If the notification that a rank waits for is not there, then it is on its way, or the rank that
sends it can go on, or that one waits for a notification on an earlier segment. -/
theorem Ok.exists_next_of_waiting (h : Ok reg s) {k : SegmentId} {i : ℕ}
    (hp : s.phase r = .waiting k i) : ∃ a s', Startup.next reg s a = some s' := by
  induction hk : k.index using Nat.strong_induction_on generalizing r k i with
  | h m ih =>
    by_cases hposted : ∃ note, note ∈ s.posted
    · obtain ⟨note, hm⟩ := hposted
      exact ⟨.arrive note, _, if_pos hm⟩
    by_cases hi : i < n
    · cases hreg : reg r ⟨i, hi⟩ with
      | false =>
        exact ⟨.advance r, _, by simp only [Startup.next, Startup.advance, hp, dif_pos hi, hreg]; rfl⟩
      | true =>
        by_cases hslot : s.slots r k i = 0
        · have hcount := h.count ⟨i, hi⟩ r k
          have hnone : s.posted.count ⟨r, k, ⟨i, hi⟩⟩ = 0 :=
            List.count_eq_zero.mpr fun hm => hposted ⟨_, hm⟩
          rw [hnone, hslot, hp, not_waited_self, hsymm, hreg] at hcount
          have hsent : (s.phase ⟨i, hi⟩).sent k r = false := by
            cases hsent : (s.phase ⟨i, hi⟩).sent k r
            · rfl
            · rw [hsent] at hcount
              cases hcount
          cases hq : s.phase ⟨i, hi⟩ with
          | sending k' j => exact ⟨_, exists_advance_sending hq⟩
          | waiting k' j =>
            rw [hq] at hsent
            simp only [Phase.sent, decide_eq_false_iff_not, not_le] at hsent
            exact ih k'.index (by omega) hq rfl
          | opened =>
            rw [hq] at hsent
            cases hsent
          | aborted => exact absurd hq (h.running _)
        · have hslot' : s.slots r k i ≠ 0 := hslot
          exact ⟨.advance r, _, by
            simp only [Startup.next, Startup.advance, hp, dif_pos hi, hreg, if_true,
              notifyWaitsome_one, if_pos hslot']
            rfl⟩
    · exact ⟨.advance r, _, by simp only [Startup.next, Startup.advance, hp, dif_neg hi]; rfl⟩

include hsymm in
theorem Ok.exists_next (h : Ok reg s) (hr : s.phase r ≠ .opened) :
    ∃ a s', Startup.next reg s a = some s' := by
  cases hp : s.phase r with
  | sending k i => exact ⟨_, exists_advance_sending hp⟩
  | waiting k i => exact h.exists_next_of_waiting hsymm hp
  | opened => exact absurd hp hr
  | aborted => exact absurd hp (h.running r)

/-- The steps that a rank of `n` ranks has left in this phase. -/
def Phase.left (n : ℕ) : Phase → ℕ
  | .sending k i => (2 - k.index) * (2 * n + 2) + (n + 1) + (n - i) + 1
  | .waiting k i => (2 - k.index) * (2 * n + 2) + (n - i) + 1
  | .opened | .aborted => 0

/-- The steps left in the handshakes. -/
def remaining (s : State n) : ℕ := 2 * ∑ r, (s.phase r).left n + s.posted.length

theorem remaining_setPhase {p : Phase} (hp : p.left n < (s.phase r).left n) :
    2 * ∑ q, ((s.setPhase r p).phase q).left n + 2 ≤ 2 * ∑ q, (s.phase q).left n := by
  have hlt : ∑ q, ((s.setPhase r p).phase q).left n < ∑ q, (s.phase q).left n := by
    apply Finset.sum_lt_sum
    · intro q _
      by_cases hq : q = r
      · subst hq
        simpa using hp.le
      · simp [hq]
    · exact ⟨r, Finset.mem_univ r, by simpa using hp⟩
  omega

theorem left_openNext (k : SegmentId) (i : ℕ) :
    (openNext k).left n < (Phase.waiting k i).left n := by
  cases k <;> simp [openNext, SegmentId.next, Phase.left, SegmentId.index] <;> omega

/-- Every step of the handshakes lowers the number of steps left. -/
theorem remaining_lt {a : Action n} (hs : next reg s a = some s') : remaining s' < remaining s := by
  unfold remaining
  cases a with
  | arrive m =>
    simp only [next] at hs
    split at hs <;> cases hs
    rename_i hm
    have hpos := List.length_pos_of_mem hm
    simp only [arrive, State.phase_setSlot, List.length_erase_of_mem hm]
    omega
  | advance r =>
    have hstep : ∀ {p : Phase} {l : ℕ}, p.left n < (s.phase r).left n → l ≤ s.posted.length + 1 →
        2 * ∑ q, ((s.setPhase r p).phase q).left n + l <
          2 * ∑ q, (s.phase q).left n + s.posted.length := by
      intro p l hp hl
      have := remaining_setPhase hp
      omega
    cases advanced_of_advance hs with
    | notified k i hp hreg =>
      apply hstep
      · rw [hp, Phase.left, Phase.left]
        omega
      · simp
    | notNotified k i hp hreg =>
      apply hstep
      · rw [hp, Phase.left, Phase.left]
        omega
      · exact Nat.le_succ _
    | sentAll k i hp hi =>
      apply hstep
      · rw [hp, Phase.left, Phase.left]
        omega
      · exact Nat.le_succ _
    | received k i hp hslot p hphase =>
      apply hstep
      · rw [hp, hphase]
        split <;> simp only [Phase.left] <;> omega
      · exact Nat.le_succ _
    | notAwaited k i hp hreg =>
      apply hstep
      · rw [hp, Phase.left, Phase.left]
        omega
      · exact Nat.le_succ _
    | waitedAll k i hp hi =>
      apply hstep
      · rw [hp]
        exact left_openNext k i
      · exact Nat.le_succ _

end Titus.Startup

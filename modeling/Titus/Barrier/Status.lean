import Titus.Lib.Transition
import Titus.VictimSelector.InfixedTree

/-! `barrier_status::barrier`: a barrier of all ranks by notifications up and down a tree, whose
calls may time out and are then made again. -/

namespace Titus.Barrier

open VictimSelector

variable {n : ℕ}

/-! ### The tree -/

/-- A neighbor of a rank in the tree, and the notification that comes from it. -/
inductive Side
  | parent
  | leftChild
  | rightChild
deriving DecidableEq

/-- On which side of rank `q` rank `r` is, if `q` is on side `σ` of `r`: `is_left_child` tells for the
parent. -/
def facing (r q : Fin n) : Side → Side
  | .parent => if r < q then .leftChild else .rightChild
  | _ => .parent

/-- The neighbors of all ranks. -/
structure Tree (n : ℕ) where
  neighbor : Fin n → Side → Option (Fin n)
  root : Fin n
  neighbor_facing : ∀ r q σ, neighbor r σ = some q → neighbor q (facing r q σ) = some r
  facing_facing : ∀ r q σ, neighbor r σ = some q → facing q r (facing r q σ) = σ
  right_eq_none : ∀ r, neighbor r .leftChild = none → neighbor r .rightChild = none
  induct : ∀ P : Fin n → Prop, P root → (∀ r p, neighbor r .parent = some p → P p → P r) →
    ∀ r, P r

def toRank (n c : ℕ) : Option (Fin n) :=
  if h : c < n then some ⟨c, h⟩ else none

/-- The neighbor of rank `r` on side `σ`, as `get_tree_neighbors` finds it. -/
def infixedNeighbor (r : Fin n) (σ : Side) : Option (Fin n) :=
  (getTreeNeighbors r n).bind fun nb =>
    (match σ with
      | .parent => nb.parent
      | .leftChild => nb.leftChild
      | .rightChild => nb.rightChild).bind (toRank n)

theorem toRank_eq_some {c : ℕ} {q : Fin n} : toRank n c = some q ↔ c = q := by
  unfold toRank
  split
  · rw [Option.some.injEq, Fin.ext_iff]
  · rename_i h
    refine iff_of_false nofun ?_
    rintro rfl
    exact h q.isLt

theorem treeOk_getTreeNeighbors (h : n ≠ 0) :
    TreeOk (fun rank => getTreeNeighbors rank n) 0 n (getRankOfRoot n 0) := by
  have := treeOk_treeNeighbors h n 0 le_rfl
  rwa [Nat.zero_add] at this

section Infixed

variable {r q : Fin n}

theorem infixedNeighbor_eq_some {nb : InfixedBTreeNeighbors}
    (hnb : getTreeNeighbors r n = some nb) {σ : Side} :
    infixedNeighbor r σ = some q ↔ (match σ with
      | .parent => nb.parent
      | .leftChild => nb.leftChild
      | .rightChild => nb.rightChild) = some q.val := by
  simp only [infixedNeighbor, hnb, Option.bind_some, Option.bind_eq_some_iff, toRank_eq_some]
  constructor
  · rintro ⟨c, hc, rfl⟩
    exact hc
  · intro hc
    exact ⟨_, hc, rfl⟩

theorem infixedNeighbor_facing (h : n ≠ 0) {σ : Side} (hq : infixedNeighbor r σ = some q) :
    infixedNeighbor q (facing r q σ) = some r ∧ facing q r (facing r q σ) = σ := by
  have htree := treeOk_getTreeNeighbors h
  obtain ⟨nb, hnb, hok⟩ := htree.node r (Nat.zero_le _) r.isLt
  have hq := (infixedNeighbor_eq_some hnb).mp hq
  cases σ with
  | parent =>
    obtain ⟨-, -, np, hnp, hedge⟩ := hok.parent q hq
    rcases hedge with ⟨hlt, hedge⟩ | ⟨hlt, hedge⟩
    · rw [facing, if_pos (by exact hlt)]
      exact ⟨(infixedNeighbor_eq_some hnp).mpr hedge, rfl⟩
    · rw [facing, if_neg (by exact hlt.le.not_gt)]
      exact ⟨(infixedNeighbor_eq_some hnp).mpr hedge, rfl⟩
  | leftChild =>
    obtain ⟨-, hlt, nc, hnc, hedge⟩ := hok.left q hq
    exact ⟨(infixedNeighbor_eq_some hnc).mpr hedge, if_pos (by exact hlt)⟩
  | rightChild =>
    obtain ⟨hlt, -, nc, hnc, hedge⟩ := hok.right q hq
    exact ⟨(infixedNeighbor_eq_some hnc).mpr hedge, if_neg (by exact hlt.le.not_gt)⟩

theorem infixedNeighbor_right_eq_none (h : n ≠ 0)
    (hleft : infixedNeighbor r .leftChild = none) : infixedNeighbor r .rightChild = none := by
  obtain ⟨nb, hnb, hok⟩ := (treeOk_getTreeNeighbors h).node r (Nat.zero_le _) r.isLt
  have hnone : nb.leftChild = none := by
    cases hc : nb.leftChild with
    | none => rfl
    | some c =>
      have hlt := (hok.left c hc).2.1.trans r.isLt
      rw [(infixedNeighbor_eq_some (q := ⟨c, hlt⟩) (σ := .leftChild) hnb).mpr hc] at hleft
      cases hleft
  simp only [infixedNeighbor, hnb, Option.bind_some, hok.left_of_right hnone, Option.bind_none]

theorem infixedNeighbor_induct (h : n ≠ 0) {P : Fin n → Prop}
    (hroot : P ⟨getRankOfRoot n 0, (getRankOfRoot_mem h 0).2.trans_eq (Nat.zero_add n)⟩)
    (hstep : ∀ r p, infixedNeighbor r .parent = some p → P p → P r) (r : Fin n) : P r := by
  have htree := treeOk_getTreeNeighbors h
  refine htree.induct (fun k => ∀ hk : k < n, P ⟨k, hk⟩) ?_ ?_ r (Nat.zero_le _) r.isLt r.isLt
  · intro hk
    exact hroot
  · intro k nb p _ _ hnb hp ih hk
    obtain ⟨nb', hnb', hok⟩ := htree.node k (Nat.zero_le _) hk
    obtain rfl : nb' = nb := Option.some.inj (hnb'.symm.trans hnb)
    have hpn := (hok.parent p hp).2.1
    exact hstep ⟨k, hk⟩ ⟨p, hpn⟩ ((infixedNeighbor_eq_some hnb).mpr hp) (ih hpn)

end Infixed

/-- The tree of `get_tree_neighbors` for two ranks or more: a single rank returns from `barrier` at
once. -/
def infixedTree (h : 2 ≤ n) : Tree n where
  neighbor := infixedNeighbor
  root := ⟨getRankOfRoot n 0, by simpa using (getRankOfRoot_mem (Nat.ne_of_gt (by omega)) 0).2⟩
  neighbor_facing _ _ _ hq := (infixedNeighbor_facing (by omega) hq).1
  facing_facing _ _ _ hq := (infixedNeighbor_facing (by omega) hq).2
  right_eq_none _ := infixedNeighbor_right_eq_none (by omega)
  induct _ := infixedNeighbor_induct (by omega)

/-! ### State -/

/-- The point that a rank has reached in `barrier`. -/
inductive Point
  /-- Not in `barrier`. -/
  | idle
  /-- Before the notification from this neighbor is waited for. -/
  | waiting (σ : Side)
  /-- Before this neighbor is notified. -/
  | notifying (σ : Side)
deriving DecidableEq

/-- `barrier_status`.  The fields from `failed` on are not in memory: whether an assertion has
stopped the rank, how many barriers it has started and how many have returned `GASPI_SUCCESS`, how
many notifications it has consumed from each neighbor and sent to each, how many of these are still
on its queue 0, and whether `SUCCESS_OR_DIE` has ended its process. -/
structure BarrierStatus where
  barrierIsInProgress : Bool
  leftChildOk : Bool
  rightChildOk : Bool
  pc : Point
  failed : Bool
  started : ℕ
  returned : ℕ
  consumed : Side → ℕ
  sent : Side → ℕ
  queued : ℕ
  died : Bool

/-- A notification that has been posted and has not arrived. -/
structure Note (n : ℕ) where
  target : Fin n
  side : Side
  sender : Fin n
deriving DecidableEq

/-- `slots r σ` is the notification of rank `r` that its neighbor on side `σ` posts. -/
structure State (n : ℕ) where
  status : Fin n → BarrierStatus
  slots : Fin n → Side → ℕ
  posted : List (Note n)

/-! ### Steps -/

section Steps

variable (T : Tree n) (r : Fin n)

/-- From root to leafs. -/
def enterDown (t : BarrierStatus) : BarrierStatus :=
  if (T.neighbor r .parent).isSome then { t with pc := .waiting .parent }
  else { t with pc := .notifying .leftChild }

/-- After the right child. -/
def enterUp (t : BarrierStatus) : BarrierStatus :=
  if (T.neighbor r .parent).isSome then { t with rightChildOk := true, pc := .notifying .parent }
  else enterDown T r { t with rightChildOk := true }

/-- After the left child. -/
def enterRight (t : BarrierStatus) : BarrierStatus :=
  if (T.neighbor r .rightChild).isSome ∨ t.rightChildOk then
    { t with leftChildOk := true, pc := .waiting .rightChild }
  else enterUp T r { t with leftChildOk := true }

/-- From leafs to root. -/
def enterLeft (t : BarrierStatus) : BarrierStatus :=
  if (T.neighbor r .leftChild).isSome ∨ t.leftChildOk then { t with pc := .waiting .leftChild }
  else enterRight T r t

/-- `init_barrier`. -/
def initBarrier (t : BarrierStatus) : BarrierStatus :=
  if t.barrierIsInProgress then t
  else { t with
    barrierIsInProgress := true
    leftChildOk := false
    rightChildOk := false
    started := t.started + 1 }

/-- The start of `barrier`, up to its first wait or notification. -/
def enter (t : BarrierStatus) : BarrierStatus :=
  let t := initBarrier t
  if t.leftChildOk = false ∨ t.rightChildOk = false then enterLeft T r t else enterDown T r t

/-- What follows the notification from the neighbor on side `σ`. -/
def afterWait (σ : Side) (t : BarrierStatus) : BarrierStatus :=
  match σ with
  | .parent => { t with pc := .notifying .leftChild }
  | .leftChild => enterRight T r t
  | .rightChild => enterUp T r t

/-- The notification from the neighbor on side `σ` has been reset, and `val` was its value.  The
assertion reads `ranks_in_group` at that neighbor. -/
def receive (σ : Side) (val : ℕ) (t : BarrierStatus) : BarrierStatus :=
  let t := { t with consumed := Function.update t.consumed σ (t.consumed σ + 1) }
  match T.neighbor r σ with
  | none => { t with failed := true }
  | some q => if val = q + 1 then afterWait T r σ t else { t with failed := true }

/-- What follows the notification of the neighbor on side `σ`. -/
def afterNotify (σ : Side) (t : BarrierStatus) : BarrierStatus :=
  match σ with
  | .parent => enterDown T r t
  | .leftChild => { t with pc := .notifying .rightChild }
  | .rightChild =>
    { t with barrierIsInProgress := false, returned := t.returned + 1, pc := .idle }

end Steps

def State.setStatus (s : State n) (r : Fin n) (t : BarrierStatus) : State n :=
  { s with status := Function.update s.status r t }

def State.setSlot (s : State n) (r : Fin n) (σ : Side) (val : ℕ) : State n :=
  { s with slots := Function.update s.slots r (Function.update (s.slots r) σ val) }

/-- Rank `r` goes on in `barrier`.  Queue 0 of a rank, to which it posts its notifications, has room
for `queueSizeMax` requests: `gaspi_notify` does not succeed when it is full. -/
def advance (T : Tree n) (queueSizeMax : ℕ) (s : State n) (r : Fin n) : Option (State n) :=
  let t := s.status r
  if t.failed ∨ t.died then none
  else
    match t.pc with
    | .idle => none
    | .waiting σ =>
      if s.slots r σ = 0 then none
      else some ((s.setSlot r σ 0).setStatus r (receive T r σ (s.slots r σ) t))
    | .notifying σ =>
      match T.neighbor r σ with
      | none => some (s.setStatus r (afterNotify T r σ t))
      | some q =>
        if queueSizeMax ≤ t.queued then some (s.setStatus r { t with died := true })
        else
          some (State.setStatus { s with posted := s.posted ++ [⟨q, facing r q σ, r⟩] } r
            (afterNotify T r σ { t with
              sent := Function.update t.sent σ (t.sent σ + 1)
              queued := t.queued + 1 }))

inductive Action (n : ℕ)
  /-- Call `barrier`, for a new barrier or after a timeout. -/
  | call (r : Fin n)
  | advance (r : Fin n)
  /-- The wait of rank `r` times out. -/
  | timeout (r : Fin n)
  | arrive (m : Note n)
  /-- Rank `r`, not in `barrier`, waits for its queue 0, as in `work_stealing`. -/
  | gaspiWait (r : Fin n)
deriving DecidableEq

def next (T : Tree n) (queueSizeMax : ℕ) (s : State n) : Action n → Option (State n)
  | .call r =>
    if (s.status r).failed = false ∧ (s.status r).pc = .idle then
      some (s.setStatus r (enter T r (s.status r)))
    else none
  | .advance r => advance T queueSizeMax s r
  | .timeout r =>
    match (s.status r).pc with
    | .waiting _ =>
      if (s.status r).failed then none else some (s.setStatus r { s.status r with pc := .idle })
    | _ => none
  | .arrive m =>
    if m ∈ s.posted then
      some { s.setSlot m.target m.side (m.sender + 1) with posted := s.posted.erase m }
    else none
  | .gaspiWait r =>
    if (s.status r).failed = false ∧ (s.status r).pc = .idle then
      some (s.setStatus r { s.status r with queued := 0 })
    else none

/-- No rank has called `barrier` yet. -/
def initial (n : ℕ) : State n where
  status _ := ⟨false, false, false, .idle, false, 0, 0, fun _ => 0, fun _ => 0, 0, false⟩
  slots _ _ := 0
  posted := []

/-- The barriers of `n` ranks over the tree `T`. -/
def barriers (T : Tree n) (queueSizeMax : ℕ) : Transition.System (State n) (Action n) where
  init s := s = initial n
  next := next T queueSizeMax

end Titus.Barrier

import Titus.Tasks.SegmentLock

/-! `work_requesting` beside `work_stealing`, between a thief and a victim that no third rank
disturbs.  The two address the state word of the victim's segment in different ways: one by its
offset in `SegmentMetadata`, the other by the offset 0, where the pointer to the virtual table is. -/

namespace Titus.Tasks

open StructLayout

variable {n : ℕ} {cfg : Config n} {thief : Fin n}

/-! ### The words of a segment -/

/-- A task segment with the word before `state`, which points to the virtual table: a multiple of
8 until it is swapped. -/
structure Image (n : ℕ) where
  vptr : ℕ
  seg : MetadataTask n

/-- The words at the head of `SegmentMetadata`. -/
inductive HeadWord
  | vptr
  | state
deriving DecidableEq

/-- The offset of a word in `MetadataTask`. -/
def HeadWord.offset : HeadWord → ℕ
  | .vptr => offsetOf metadataTaskFields 0
  | .state => offsetOf metadataTaskFields 1

/-- The word at an offset, if it is one of these. -/
def wordAt (off : ℕ) : Option HeadWord :=
  [HeadWord.vptr, HeadWord.state].find? fun w => w.offset = off

/-- `gaspi_atomic_compare_swap` on the word at offset `off`: the old value, and the segment after
it. -/
def gaspiAtomicCompareSwap (m : Image n) (off : ℕ) (comp newVal : TaskLock n) :
    Option (ℕ × Image n) :=
  match wordAt off with
  | some .vptr =>
    some (m.vptr, if m.vptr = comp.toWord then { m with vptr := newVal.toWord } else m)
  | some .state =>
    some (m.seg.state.toWord,
      if m.seg.state.toWord = comp.toWord then { m with seg := { m.seg with state := newVal } }
      else m)
  | none => none

/-! ### The two transfers -/

/-- How an attempt ends: with the segments of the thief and of the victim, with a failed assertion,
or never. -/
inductive Attempt (n : ℕ)
  | success (own target : Image n)
  | failed (own target : Image n)
  | assertion
  | blocked

def Attempt.succeeded : Attempt n → Bool
  | .success _ _ => true
  | _ => false

/-- The reads of `work_stealing`. -/
def readBatch (cfg : Config n) (own target : MetadataTask n) : MetadataTask n :=
  if cfg.sharedTaskSegmentSize < sizeFirstRead then
    readFirst own target cfg.sharedTaskSegmentSize
  else
    let seg := readFirst own target sizeFirstRead
    if sizeFirstRead < seg.segmentSize then readRest seg target else seg

/-- `work_stealing` on rank `thief`. -/
def workStealing (cfg : Config n) (thief : Fin n) (own target : Image n) : Attempt n :=
  let (old, locked) := compareAndSwapStatus target.seg .taskAvailable (.rank thief)
  if old = .taskAvailable then
    let read := readBatch cfg own.seg locked
    let (distantOld, unlocked) := compareAndSwapStatus locked (.rank thief) .freeForCopy
    let (localOld, seg) := compareAndSwapStatus read read.state .noTask
    if distantOld ≠ .rank thief ∨ localOld ≠ .rank thief then .assertion
    else .success ⟨target.vptr, seg⟩ ⟨target.vptr, unlocked⟩
  else .failed own ⟨target.vptr, locked⟩

/-- What the victim does in `detection_request` for the rank in its state word: it writes its
segment to that rank, here `thief`, with `write_task_to_remote_segment`. -/
def writeTaskToRemoteSegment (cfg : Config n) (thief : Fin n) (own target : Image n) :
    Option (Image n × Image n) :=
  if target.seg.state = .rank thief ∧ target.seg.segmentSize ≤ cfg.sharedTaskSegmentSize then
    let seg := (compareAndSwapStatus target.seg (.rank thief) .copyInProgress).2
    some (⟨target.vptr, readFirst own.seg seg seg.segmentSize⟩, ⟨target.vptr, seg⟩)
  else none

/-- `work_requesting` on rank `thief` if it swapped the word at offset `off`. -/
def workRequestingAt (off : ℕ) (cfg : Config n) (thief : Fin n) (own target : Image n) :
    Attempt n :=
  match gaspiAtomicCompareSwap target off .taskAvailable (.rank thief) with
  | none => .blocked
  | some (victimState, target) =>
    if victimState = (TaskLock.taskAvailable : TaskLock n).toWord then
      -- `gaspi_notify_waitsome` returns when the victim has written
      match writeTaskToRemoteSegment cfg thief own target with
      | none => .blocked
      | some (own, target) =>
        match gaspiAtomicCompareSwap target off .copyInProgress .freeForCopy,
          gaspiAtomicCompareSwap own off .copyInProgress .noTask with
        | some (old, target), some (old', own) =>
          if old ≠ (TaskLock.copyInProgress : TaskLock n).toWord ∨
            old' ≠ (TaskLock.copyInProgress : TaskLock n).toWord then .assertion
          else .success own target
        | _, _ => .blocked
    else .failed own target

/-- The offset that `work_requesting` passes to `gaspi_atomic_compare_swap`. -/
def requestOffset : ℕ := 0

/-- `work_requesting`. -/
def workRequesting (cfg : Config n) (thief : Fin n) (own target : Image n) : Attempt n :=
  workRequestingAt requestOffset cfg thief own target

/-- The attempts succeed together, and then with the same batch on the thief's segment and the same
states. -/
structure SameTheft (requesting stealing : Attempt n) : Prop where
  success : requesting.succeeded ↔ stealing.succeeded
  segments : ∀ own target, requesting = .success own target → ∃ own' target',
    stealing = .success own' target' ∧ own.seg.state = .noTask ∧ own'.seg.state = .noTask ∧
      SameBatch own'.seg own.seg (own'.seg.nbTask * own'.seg.taskSize) ∧
      target.seg.state = .freeForCopy ∧ target'.seg.state = .freeForCopy

variable {own target : Image n}

/-! ### The theft by stealing -/

theorem state_readBatch (own target : MetadataTask n) :
    (readBatch cfg own target).state = target.state := by
  unfold readBatch
  split
  · rfl
  · simp only
    split <;> rfl

/-- The reads bring a batch that fills the segment to its size. -/
theorem sameBatch_readBatch (cfg : Config n) (own target : MetadataTask n)
    (hsize : target.nbTask * target.taskSize + sizeofMetadataTask = target.segmentSize)
    (hle : target.segmentSize ≤ cfg.sharedTaskSegmentSize) :
    SameBatch target (readBatch cfg own target) (target.nbTask * target.taskSize) := by
  unfold readBatch
  split
  · exact sameBatch_readFirst own target (by omega)
  · simp only
    split
    · exact sameBatch_readRest (sameBatch_readFirst own target le_rfl) (by omega)
    · rename_i hfirst
      have : target.segmentSize ≤ sizeFirstRead := Nat.le_of_not_lt hfirst
      exact sameBatch_readFirst own target (by omega)

/-- A theft succeeds when there are tasks to steal, and no assertion fails. -/
theorem workStealing_of_available (h : target.seg.state = .taskAvailable) :
    workStealing cfg thief own target = .success
      ⟨target.vptr, { readBatch cfg own.seg { target.seg with state := .rank thief } with
        state := .noTask }⟩
      ⟨target.vptr, { target.seg with state := .freeForCopy }⟩ := by
  simp only [workStealing, compareAndSwapStatus, h, if_true, state_readBatch, ne_eq, not_true,
    or_self, if_false]

theorem workStealing_of_not_available (h : target.seg.state ≠ .taskAvailable) :
    workStealing cfg thief own target = .failed own target := by
  simp only [workStealing, compareAndSwapStatus, h, if_false]

/-! ### The theft by request -/

theorem wordAt_requestOffset : wordAt requestOffset = some .vptr := by decide

theorem wordAt_state : wordAt HeadWord.state.offset = some .state := by decide

/-- A pointer to a virtual table is no state word. -/
theorem workRequesting_failed (h : 8 ∣ target.vptr) :
    workRequesting cfg thief own target = .failed own target := by
  have hne : target.vptr ≠ (TaskLock.taskAvailable : TaskLock n).toWord := by
    simp only [TaskLock.toWord]
    omega
  simp only [workRequesting, workRequestingAt, gaspiAtomicCompareSwap, wordAt_requestOffset, hne,
    if_false]

/-- A request swaps another word than a theft, and ends as a theft would exactly when there is
nothing to steal. -/
theorem work_requesting_same_theft_iff (cfg : Config n) (thief : Fin n) (own target : Image n)
    (h : 8 ∣ target.vptr) :
    requestOffset ≠ HeadWord.state.offset ∧
      (SameTheft (workRequesting cfg thief own target) (workStealing cfg thief own target) ↔
        target.seg.state ≠ .taskAvailable) := by
  refine ⟨by decide, fun hsame hst => ?_, fun hst => ?_⟩
  · have hsuccess := hsame.success
    rw [workRequesting_failed h, workStealing_of_available hst] at hsuccess
    exact absurd (hsuccess.mpr rfl) nofun
  · rw [workRequesting_failed h, workStealing_of_not_available hst]
    exact ⟨Iff.rfl, nofun⟩

/-- A segment with one task of the first session of `twoRanks` to steal. -/
def stealable : Image 2 :=
  ⟨4096, .taskAvailable, 100, 0, 1, 1, 4, 1, 3, 7, fun _ => 0⟩

/-- A segment with nothing to steal. -/
def robbed : Image 2 := ⟨4096, { stealable.seg with state := .freeForCopy }⟩

theorem work_requesting_same_theft_iff_robbed :
    SameTheft (workRequesting twoRanks 1 robbed robbed) (workStealing twoRanks 1 robbed robbed) :=
  (work_requesting_same_theft_iff twoRanks 1 robbed robbed (by decide)).2.mpr nofun

/-- The request for that task fails, where a theft succeeds. -/
theorem work_requesting_misses_theft :
    ¬ SameTheft (workRequesting twoRanks 1 robbed stealable)
      (workStealing twoRanks 1 robbed stealable) := by
  intro h
  have hsuccess := h.success
  rw [workRequesting_failed (by decide), workStealing_of_available rfl] at hsuccess
  exact absurd (hsuccess.mpr rfl) nofun

/-! ### The address of the state word -/

theorem TaskLock.toWord_inj (hn : n ≤ 2 ^ 64 - 4) {a b : TaskLock n} (h : a.toWord = b.toWord) :
    a = b := by
  cases a <;> cases b <;> simp only [TaskLock.toWord] at h <;> first | rfl | omega | skip
  exact congrArg _ (Fin.ext h)

/-- At the offset of `state` the swap is `compare_and_swap_status`. -/
theorem gaspiAtomicCompareSwap_state (hn : n ≤ 2 ^ 64 - 4) (m : Image n)
    (comp newVal : TaskLock n) :
    gaspiAtomicCompareSwap m HeadWord.state.offset comp newVal =
      some (m.seg.state.toWord, ⟨m.vptr, (compareAndSwapStatus m.seg comp newVal).2⟩) := by
  have hiff : m.seg.state.toWord = comp.toWord ↔ m.seg.state = comp :=
    ⟨TaskLock.toWord_inj hn, fun h => by rw [h]⟩
  simp only [gaspiAtomicCompareSwap, wordAt_state, compareAndSwapStatus, hiff]
  split <;> rfl

/-- A request that swaps the word at the offset of `state` ends as a theft would, when the victim's
batch fills its segment. -/
theorem requesting_at_state_offset (hn : n ≤ 2 ^ 64 - 4)
    (hsize : target.seg.nbTask * target.seg.taskSize + sizeofMetadataTask = target.seg.segmentSize)
    (hle : target.seg.segmentSize ≤ cfg.sharedTaskSegmentSize) :
    SameTheft (workRequestingAt HeadWord.state.offset cfg thief own target)
      (workStealing cfg thief own target) := by
  by_cases hst : target.seg.state = .taskAvailable
  · rw [workStealing_of_available hst]
    have hrequest : workRequestingAt HeadWord.state.offset cfg thief own target = .success
        ⟨target.vptr, { readFirst own.seg { target.seg with state := .copyInProgress }
          target.seg.segmentSize with state := .noTask }⟩
        ⟨target.vptr, { target.seg with state := .freeForCopy }⟩ := by
      simp only [workRequestingAt, gaspiAtomicCompareSwap_state hn, compareAndSwapStatus, hst,
        if_true, writeTaskToRemoteSegment, hle, and_self, readFirst, ne_eq, not_true, or_self,
        if_false]
    rw [hrequest]
    refine ⟨Iff.rfl, fun own₁ target₁ heq => ?_⟩
    cases heq
    refine ⟨_, _, rfl, rfl, rfl, ?_, rfl, rfl⟩
    have hsteal := sameBatch_readBatch cfg own.seg
      { target.seg with state := .rank thief } hsize hle
    have hread := sameBatch_readFirst own.seg { target.seg with state := .copyInProgress }
      (show target.seg.nbTask * target.seg.taskSize ≤
        target.seg.segmentSize - sizeofMetadataTask by omega)
    have hlen : (readBatch cfg own.seg { target.seg with state := .rank thief }).nbTask *
        (readBatch cfg own.seg { target.seg with state := .rank thief }).taskSize =
        target.seg.nbTask * target.seg.taskSize := by
      rw [hsteal.nbTask, hsteal.taskSize]
    exact hlen ▸ ⟨hsteal.segmentSize.symm, hsteal.ownerTaskRank.symm, hsteal.nbTask.symm,
      hsteal.endTaskId.symm,
      hsteal.taskSize.symm, hsteal.resultSize.symm, hsteal.ptrTaskFunction.symm,
      hread.tasks.trans hsteal.tasks.symm⟩
  · rw [workStealing_of_not_available hst]
    have hrequest : workRequestingAt HeadWord.state.offset cfg thief own target =
        .failed own target := by
      have hne : target.seg.state.toWord ≠ (TaskLock.taskAvailable : TaskLock n).toWord :=
        fun h => hst (TaskLock.toWord_inj hn h)
      simp only [workRequestingAt, gaspiAtomicCompareSwap_state hn, compareAndSwapStatus, hst, hne,
        if_false]
    rw [hrequest]
    exact ⟨Iff.rfl, by rintro _ _ ⟨⟩⟩

/-! ### The theft in a run -/

section Run

variable {s : State n} {r v : Fin n}

theorem run_read (cfg : Config n) (hpc : (s r).pc = .reading v) (hv : v ≠ r) :
    ∃ as s', (system cfg).run s as = some s' ∧ (s' r).pc = .unlockingVictim v ∧
      (s' r).seg = readBatch cfg (s r).seg (s v).seg ∧ (s' v).seg = (s v).seg := by
  by_cases hsmall : cfg.sharedTaskSegmentSize < sizeFirstRead
  · refine ⟨[(r, .advance false)], Function.update s r { s r with
      seg := readFirst (s r).seg (s v).seg cfg.sharedTaskSegmentSize
      pc := .unlockingVictim v }, ?_, ?_, ?_, ?_⟩
    · simp only [Transition.System.run, system, next, hpc, stealNext, hsmall, if_true,
        Option.bind_some]
    · rw [Function.update_self]
    · rw [Function.update_self, readBatch, if_pos hsmall]
    · rw [Function.update_of_ne hv]
  · by_cases hrest : sizeFirstRead < (readFirst (s r).seg (s v).seg sizeFirstRead).segmentSize
    · refine ⟨[(r, .advance false), (r, .advance false)], Function.update s r { s r with
        seg := readRest (readFirst (s r).seg (s v).seg sizeFirstRead) (s v).seg
        pc := .unlockingVictim v }, ?_, ?_, ?_, ?_⟩
      · simp only [Transition.System.run, system, next, hpc, stealNext, hsmall, hrest, if_true,
          if_false, Option.bind_some, Function.update_self, Function.update_of_ne hv,
          Function.update_idem]
      · rw [Function.update_self]
      · rw [Function.update_self, readBatch, if_neg hsmall]
        simp only [hrest, if_true]
      · rw [Function.update_of_ne hv]
    · refine ⟨[(r, .advance false)], Function.update s r { s r with
        seg := readFirst (s r).seg (s v).seg sizeFirstRead
        pc := .unlockingVictim v }, ?_, ?_, ?_, ?_⟩
      · simp only [Transition.System.run, system, next, hpc, stealNext, hsmall, hrest, if_false,
          Option.bind_some]
      · rw [Function.update_self]
      · rw [Function.update_self, readBatch, if_neg hsmall]
        simp only [hrest, if_false]
      · rw [Function.update_of_ne hv]

theorem run_unlock (cfg : Config n) (hpc : (s r).pc = .unlockingVictim v) (hv : v ≠ r)
    (hvictim : (s v).seg.state = .rank r) (hown : (s r).seg.state = .rank r) :
    ∃ as s', (system cfg).run s as = some s' ∧ (s' r).pc = .working ∧
      (s' r).seg = { (s r).seg with state := .noTask } ∧
      (s' v).seg = { (s v).seg with state := .freeForCopy } := by
  refine ⟨[(r, .advance false), (r, .advance false)], Function.update (Function.update s v
    { s v with seg := { (s v).seg with state := .freeForCopy } }) r { s r with
      seg := { (s r).seg with state := .noTask }
      log := countTheft (s r).log (.taskAvailable : TaskLock n) (s r).seg.nbTask
      pc := .working }, ?_, ?_, ?_, ?_⟩
  · simp only [Transition.System.run, system, next, hpc, stealNext, compareAndSwapStatus, hvictim,
      if_true, Option.bind_some, Function.update_self, Function.update_of_ne hv.symm, localNext,
      hown, ne_eq, not_true, if_false, Option.map_some, Function.update_idem]
  · rw [Function.update_self]
  · rw [Function.update_self]
  · rw [Function.update_of_ne hv, Function.update_self]

/-- `workStealing` is what the steps of rank `r` do when no other rank makes a step between
them. -/
theorem workStealing_run (hpc : (s r).pc = .balancing) (hv : v ≠ r)
    (hst : (s v).seg.state = .taskAvailable) (vptr vptr' : ℕ) :
    ∃ own target, workStealing cfg r ⟨vptr, (s r).seg⟩ ⟨vptr', (s v).seg⟩ = .success own target ∧
      ∃ as s', (system cfg).run s as = some s' ∧ (s' r).pc = .working ∧
        (s' r).seg = own.seg ∧ (s' v).seg = target.seg := by
  refine ⟨_, _, workStealing_of_available hst, ?_⟩
  have hlock : (system cfg).run s [(r, .steal v)] = some (Function.update
      (Function.update s v (withState (s v) (.rank r))) r { s r with pc := .reading v }) := by
    simp only [Transition.System.run, system, next, hpc, hv, lockVictim, compareAndSwapStatus, hst,
      ne_eq, not_false_eq_true, and_self, if_true, Option.bind_some, withState,
      Function.update_of_ne hv.symm]
  obtain ⟨as, s₁, hread, hpc₁, hown₁, hvictim₁⟩ := run_read cfg (r := r) (v := v)
    (s := Function.update (Function.update s v (withState (s v) (.rank r))) r
      { s r with pc := .reading v }) (by rw [Function.update_self]) hv
  rw [Function.update_self, Function.update_of_ne hv, Function.update_self] at hown₁
  rw [Function.update_of_ne hv, Function.update_self] at hvictim₁
  obtain ⟨bs, s₂, hunlock, hpc₂, hown₂, hvictim₂⟩ := run_unlock cfg hpc₁ hv
    (by rw [hvictim₁]; rfl) (by rw [hown₁, state_readBatch]; rfl)
  refine ⟨[(r, .steal v)] ++ as ++ bs, s₂, ?_, hpc₂, ?_, ?_⟩
  · rw [Transition.System.run_append (Transition.System.run_append hlock ▸ hread), hunlock]
  · rw [hown₂, hown₁]
    rfl
  · rw [hvictim₂, hvictim₁]
    rfl

end Run

end Titus.Tasks

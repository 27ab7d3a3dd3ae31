import Titus.Lib.Memory
import Titus.Lib.StructLayout
import Mathlib.Algebra.Group.Nat.Defs

/-! What the ranks of a run are given: the size of the task segment, and for every session the
problem that each rank passes to `set_problem`.  The sizes of the metadata at the head of the
segments follow from the layout of the structures. -/

namespace Titus

open Memory StructLayout

/-! ### Layout of the structures -/

/-- `SegmentMetadata`: the pointer to the virtual table, `state`, `segment_size`, `segment_id` and
`connected_pairs`. -/
def segmentMetadataFields : List Field := [scalar 8, scalar 8, scalar 8, scalar 1, scalar 8]

/-- `MetadataTask`: `SegmentMetadata`, then `owner_task_rank`, `nb_task`, `end_task_id`,
`task_size`, `result_size`, `private_tasks_count` and `ptr_task_function`. -/
def metadataTaskFields : List Field :=
  segmentMetadataFields ++
    [scalar 8, scalar 8, scalar 8, scalar 8, scalar 8, scalar 8, scalar 8]

/-- `BufferElt`: `first_task_id`, `nb_result`, `data_size`, `owner` and
`remote_buffer_alloc_attemps`. -/
def bufferEltFields : List Field := [scalar 8, scalar 8, scalar 8, scalar 2, scalar 8]

/-- `MetadataTmp`: `SegmentMetadata`, then `owner_result_rank`, `last_result_id`, `nb_result`,
`nb_result_max`, `result_size`, `ptr_next_result_to_store` and the placeholder `dummy`. -/
def metadataTmpFields : List Field :=
  segmentMetadataFields ++
    [scalar 8, scalar 8, scalar 8, scalar 8, scalar 8, scalar 8] ++ bufferEltFields

/-- `BufferedSegmentMetadata`: `SegmentMetadata`, then `buffer_tail`, `buffer_head`,
`segment_wipe_id`, `buffer_elt_count`, `pending_write_lists` and the multimap
`local_transiting_results` (48 bytes). -/
def bufferedSegmentMetadataFields : List Field :=
  segmentMetadataFields ++ [scalar 8, scalar 8, scalar 4, scalar 8, scalar 8, ⟨48, 8⟩]

/-- `MetadataResult`: `SegmentMetadata`, then `buffer_tail`, `buffer_head`, `segment_wipe_id`,
`buffer_elt_count`, `pending_write_lists` and the multimap `local_transiting_results` (48 bytes);
then `nb_result`, `termination_status` with its virtual table, `nb_usr_results`, `result_size` and
`usr_results`. -/
def metadataResultFields : List Field :=
  segmentMetadataFields ++ [scalar 8, scalar 8, scalar 4, scalar 8, scalar 8, ⟨48, 8⟩] ++
    [scalar 8, scalar 8, scalar 8, scalar 8, scalar 8, scalar 8, scalar 8, scalar 8]

def sizeofMetadataTask : ℕ := StructLayout.sizeOf metadataTaskFields
def sizeofBufferElt : ℕ := StructLayout.sizeOf bufferEltFields
def sizeofBufferedSegmentMetadata : ℕ := StructLayout.sizeOf bufferedSegmentMetadataFields
def sizeofMetadataTmp : ℕ := StructLayout.sizeOf metadataTmpFields
def sizeofMetadataResult : ℕ := StructLayout.sizeOf metadataResultFields

theorem sizeofMetadataTask_eq : sizeofMetadataTask = 96 := by decide
theorem sizeofBufferElt_eq : sizeofBufferElt = 40 := by decide
theorem sizeofBufferedSegmentMetadata_eq : sizeofBufferedSegmentMetadata = 128 := by decide
theorem sizeofMetadataResult_eq : sizeofMetadataResult = 192 := by decide

/-- `NB_TASK_MIN`: the local tasks required for sharing work. -/
def nbTaskMin : ℕ := 2

/-- `SIZE_FIRST_READ`: the bytes of the first read of a theft. -/
def sizeFirstRead : ℕ := 32768

/-- `MAX_BUFFER_ELTS`: the limit of the number of elements in a buffered segment. -/
def maxBufferElts : ℕ := 60000

/-! ### The problems of a run -/

/-- The arguments of the run: `sharedTaskSegmentSize` of the context, and the arguments of
`set_problem` on every rank in session `k`.  A task function is known by its address, and `call`
says what it computes: byte `b` of the result of a task, from the bytes of the task. -/
structure Config (n : ℕ) where
  sharedTaskSegmentSize : ℕ
  taskSize : ℕ → ℕ
  resultSize : ℕ → ℕ
  nbTask : ℕ → Fin n → ℕ
  problem : ℕ → Fin n → Mem
  result : ℕ → Fin n → Mem
  ptrTaskFunction : ℕ → Fin n → ℕ
  call : ℕ → List UInt8 → ℕ → UInt8
  /-- With a larger product, which it computes as an `int`, `set_problem` stops or copies beyond the
  end of the block. -/
  size_lt : ∀ k r, taskSize k * nbTask k r < 2 ^ 31

namespace Config

variable {n : ℕ} (cfg : Config n)

/-- `shared_tmp_result_segment_size`, computed by the first `set_problem`. -/
def sharedTmpResultSegmentSize : ℕ :=
  cfg.sharedTaskSegmentSize / cfg.taskSize 0 * cfg.resultSize 0 + sizeofMetadataTmp

/-- `shared_result_segment_size`, computed by the first `set_problem`. -/
def sharedResultSegmentSize : ℕ :=
  (cfg.sharedTaskSegmentSize / cfg.taskSize 0 * cfg.resultSize 0 + sizeofMetadataResult) * 2

/-- `shared_scratch_segment_size`, computed by the first `set_problem`. -/
def sharedScratchSegmentSize : ℕ :=
  max cfg.sharedResultSegmentSize cfg.sharedTmpResultSegmentSize

/-- The assertions of `set_problem` in session `k`. -/
structure Accepts (k : ℕ) : Prop where
  taskSize_pos : 0 < cfg.taskSize k
  resultSize_pos : 0 < cfg.resultSize k
  taskSegment : cfg.taskSize k + sizeofMetadataTask ≤ cfg.sharedTaskSegmentSize
  tmpSegment : cfg.resultSize k + sizeofMetadataTmp ≤ cfg.sharedTmpResultSegmentSize
  later : k ≠ 0 →
    (cfg.sharedTaskSegmentSize - sizeofMetadataTask) / cfg.taskSize k ≤
      (cfg.sharedTmpResultSegmentSize - sizeofMetadataTmp) / cfg.resultSize k

instance (k : ℕ) : Decidable (cfg.Accepts k) :=
  decidable_of_iff
    (0 < cfg.taskSize k ∧ 0 < cfg.resultSize k ∧
      cfg.taskSize k + sizeofMetadataTask ≤ cfg.sharedTaskSegmentSize ∧
      cfg.resultSize k + sizeofMetadataTmp ≤ cfg.sharedTmpResultSegmentSize ∧
      (k ≠ 0 → (cfg.sharedTaskSegmentSize - sizeofMetadataTask) / cfg.taskSize k ≤
        (cfg.sharedTmpResultSegmentSize - sizeofMetadataTmp) / cfg.resultSize k))
    ⟨fun ⟨h1, h2, h3, h4, h5⟩ => ⟨h1, h2, h3, h4, h5⟩,
      fun h => ⟨h.taskSize_pos, h.resultSize_pos, h.taskSegment, h.tmpSegment, h.later⟩⟩

/-- The bytes of task `i` of rank `owner` in session `k`. -/
def taskBytes (k : ℕ) (owner : Fin n) (i : ℕ) : List UInt8 :=
  read (cfg.problem k owner) (i * cfg.taskSize k) (cfg.taskSize k)

/-- Byte `b` of the result of task `i` of rank `owner` in session `k`. -/
def resultByte (k : ℕ) (owner : Fin n) (i b : ℕ) : UInt8 :=
  cfg.call (cfg.ptrTaskFunction k owner) (cfg.taskBytes k owner i) b

end Config

/-- A task: the session and the rank of its problem, and its position there. -/
@[ext] structure TaskId (n : ℕ) where
  session : ℕ
  owner : Fin n
  id : ℕ
deriving DecidableEq

end Titus

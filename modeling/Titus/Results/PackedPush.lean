import Titus.Lib.Gather
import Titus.Results.Step

/-! `select_elts_to_push` and `try_push_vector_elt_to` on bytes: the list of writes that a packed
push builds, with the copies in the scratch segment that some of them read. -/

namespace Titus.Results

open Memory Gather StructLayout

/-! ### Elements in memory -/

/-- The number that the `len` bytes from `off` on are, the lowest byte first. -/
def natAt (m : Mem) (off : ℕ) : ℕ → ℕ
  | 0 => 0
  | len + 1 => (m off).toNat + 256 * natAt m (off + 1) len

/-- A `BufferElt *`: the memory that it points into, and the address there. -/
structure EltPtr where
  mem : Mem
  off : ℕ

namespace EltPtr

/-- Field `i` of the element, of `size` bytes. -/
def field (e : EltPtr) (i size : ℕ) : ℕ := natAt e.mem (e.off + offsetOf bufferEltFields i) size

def nbResult (e : EltPtr) : ℕ := e.field 1 8
def dataSize (e : EltPtr) : ℕ := e.field 2 8
def owner (e : EltPtr) : ℕ := e.field 3 2

/-- `buffer_entry_size`. -/
def bufferEntrySize (e : EltPtr) : ℕ := e.dataSize + sizeofBufferElt

/-- `is_valid`, on one of `nbRanks` ranks with a result segment of `segmentSize` bytes. -/
def isValid (e : EltPtr) (nbRanks segmentSize : ℕ) : Bool :=
  e.nbResult ≠ 0 ∧ e.bufferEntrySize ≤ segmentSize ∧ e.dataSize ≤ segmentSize ∧
    e.owner ≤ nbRanks ∧ e.dataSize ≠ 0

/-- The bytes of the entry. -/
def bytes (e : EltPtr) : List UInt8 := read e.mem e.off e.bufferEntrySize

end EltPtr

/-- What the multimap `local_transiting_results` has of an element: on the result segment, or in a
block of memory of its own. -/
inductive EltLoc
  | onSegment (off : ℕ)
  | inMemory (block : Mem)

/-- The element, on a rank with the result segment `own`. -/
def EltLoc.ptr (own : Mem) : EltLoc → EltPtr
  | .onSegment off => ⟨own, off⟩
  | .inMemory block => ⟨block, 0⟩

/-! ### `select_elts_to_push` -/

/-- `selected_elts_to_push`. -/
structure SelectedElts where
  eltCount : ℕ
  toReserve : ℕ
  selected : List Bool
deriving DecidableEq

/-- The loop of `select_elts_to_push`. -/
def selectElts (own : Mem) (availableSize maxEltsCount : ℕ) :
    SelectedElts → List EltLoc → SelectedElts
  | r, [] => r
  | r, x :: l =>
    if availableSize - r.toReserve > (x.ptr own).bufferEntrySize ∧ r.eltCount < maxEltsCount then
      selectElts own availableSize maxEltsCount
        ⟨r.eltCount + 1, r.toReserve + (x.ptr own).bufferEntrySize, r.selected ++ [true]⟩ l
    else
      selectElts own availableSize maxEltsCount { r with selected := r.selected ++ [false] } l

/-! ### `try_push_vector_elt_to` -/

/-- The local segments that a write can read. -/
inductive LocalSegment
  | scratch
  | result
deriving DecidableEq

/-- One index of `write_list_args_t`.  The writes of a list have one target. -/
abbrev WriteArg := Piece LocalSegment

/-- The local segments of a rank. -/
def localMem (own scratch : Mem) : LocalSegment → Mem
  | .scratch => scratch
  | .result => own

/-- The fields of `remote_bsm` that a push reads. -/
structure RemoteBsm where
  segmentSize : ℕ
  bufferHead : ℕ
  bufferEltCount : ℕ
deriving DecidableEq

/-- `available`. -/
def RemoteBsm.available (b : RemoteBsm) : ℕ :=
  if b.segmentSize > b.bufferHead then b.segmentSize - b.bufferHead else 0

/-- `MAX_BUFFER_ELTS - remote_bsm->buffer_elt_count`, with unsigned arithmetic. -/
def RemoteBsm.maxEltsCount (b : RemoteBsm) : ℕ :=
  (2 ^ 64 + maxBufferElts - b.bufferEltCount) % 2 ^ 64

/-- What the loop over the range keeps: the scratch segment and `scratch_segment_head`,
`offset_remote_i`, the write list, and `results_pushed_count`. -/
structure WriteList where
  scratch : Mem
  scratchSegmentHead : ℕ
  offsetRemote : ℕ
  args : List WriteArg
  resultsPushedCount : ℕ

/-- The loop body for an element that is selected. -/
def addElt (own : Mem) (b : WriteList) (x : EltLoc) : WriteList :=
  let size := (x.ptr own).bufferEntrySize
  let b' : WriteList :=
    match x with
    | .inMemory block =>
      { b with
        scratch := copy b.scratch b.scratchSegmentHead block 0 size
        scratchSegmentHead := b.scratchSegmentHead + size
        args := b.args ++ [⟨.scratch, b.scratchSegmentHead, b.offsetRemote, size⟩] }
    | .onSegment off => { b with args := b.args ++ [⟨.result, off, b.offsetRemote, size⟩] }
  { b' with
    offsetRemote := b.offsetRemote + size
    resultsPushedCount := b.resultsPushedCount + (x.ptr own).nbResult }

/-- The loop over the range. -/
def buildArgs (own : Mem) : WriteList → List Bool → List EltLoc → WriteList
  | b, true :: selected, x :: l => buildArgs own (addElt own b x) selected l
  | b, false :: selected, _ :: l => buildArgs own b selected l
  | b, _, _ => b

/-- `try_push_vector_elt_to` once it has the copy `remote` of the target's metadata, on one of
`nbRanks` ranks with a result segment of `segmentSize` bytes: what it selects, and the writes that
it enqueues.  `none` if an assertion fails. -/
def tryPushVectorEltTo (nbRanks segmentSize : ℕ) (own scratch : Mem) (remote : RemoteBsm)
    (range : List EltLoc) : Option (SelectedElts × WriteList) :=
  if range.all fun x => (x.ptr own).isValid nbRanks segmentSize then
    let r := selectElts own remote.available remote.maxEltsCount ⟨0, 0, []⟩ range
    let b : WriteList := ⟨scratch, sizeofBufferedSegmentMetadata, remote.bufferHead, [], 0⟩
    if r.toReserve < remote.available then
      if r.eltCount = 0 then some (r, b)
      else
        let b := buildArgs own b r.selected range
        if r.eltCount = b.args.length ∧ remote.bufferHead + r.toReserve = b.offsetRemote then
          some (r, b)
        else none
    else none
  else none

/-- The lists given to `gaspi_write_list`, of at most 254 writes each. -/
def writeLists (args : List WriteArg) : List (List WriteArg) :=
  (List.range ((args.length + 253) / 254)).map fun k => (args.drop (254 * k)).take 254

/-- The iterator over the elements that lie between two addresses: the address of each.  `none` if
it is not at `last` after `fuel` elements. -/
def iterate (m : Mem) (last : ℕ) : ℕ → ℕ → Option (List ℕ)
  | 0, off => if off = last then some [] else none
  | fuel + 1, off =>
    if off = last then some []
    else (iterate m last fuel (off + (⟨m, off⟩ : EltPtr).bufferEntrySize)).map (off :: ·)

variable {own scratch m m' : Mem} {range l done : List EltLoc} {x : EltLoc} {b : WriteList}
  {r : SelectedElts} {remote : RemoteBsm} {off off' len head availableSize maxEltsCount : ℕ}

/-! ### Copies of elements -/

theorem natAt_congr (h : Agrees m off m' off' len) : natAt m off len = natAt m' off' len := by
  induction len generalizing off off' with
  | zero => rfl
  | succ len ih =>
    have hfirst : m off = m' off' := h 0 (Nat.succ_pos len)
    have hrest : Agrees m (off + 1) m' (off' + 1) len := h.sub (k := 1) (by omega)
    simp only [natAt, hfirst, ih hrest]

theorem sizeofBufferElt_le (e : EltPtr) : sizeofBufferElt ≤ e.bufferEntrySize :=
  Nat.le_add_left _ _

/-- A copy of an element has its size, and its bytes. -/
theorem EltPtr.copied {e e' : EltPtr} (h : Agrees e'.mem e'.off e.mem e.off e.bufferEntrySize) :
    e'.bufferEntrySize = e.bufferEntrySize ∧ e'.bytes = e.bytes := by
  have hhead : offsetOf bufferEltFields 2 + 8 ≤ e.bufferEntrySize :=
    (show offsetOf bufferEltFields 2 + 8 ≤ sizeofBufferElt by decide).trans (sizeofBufferElt_le e)
  have hdata : e'.dataSize = e.dataSize := natAt_congr (h.sub hhead)
  have hsize : e'.bufferEntrySize = e.bufferEntrySize := by
    simp only [bufferEntrySize, hdata]
  refine ⟨hsize, ?_⟩
  simp only [bytes, hsize]
  exact read_congr h

/-! ### The selection -/

/-- The size of an element, on a rank with the result segment `own`. -/
def sizeOn (own : Mem) (x : EltLoc) : ℕ := (x.ptr own).bufferEntrySize

/-- What `select_elts_to_push` has selected of `done`. -/
structure SelectedOk (own : Mem) (done : List EltLoc) (r : SelectedElts) : Prop where
  length : r.selected.length = done.length
  eltCount : r.eltCount = (Selection.pick r.selected done).length
  toReserve : r.toReserve = ((Selection.pick r.selected done).map (sizeOn own)).sum

theorem pick_append_singleton {α : Type*} {selected : List Bool} {l : List α} (c : Bool) (x : α)
    (h : selected.length = l.length) :
    Selection.pick (selected ++ [c]) (l ++ [x]) =
      Selection.pick selected l ++ if c then [x] else [] := by
  induction l generalizing selected with
  | nil =>
    rw [List.length_eq_zero_iff.mp h]
    cases c <;> rfl
  | cons y l ih =>
    cases selected with
    | nil => cases h
    | cons d selected =>
      have hlen : selected.length = l.length := Nat.succ.inj h
      cases d with
      | true => simp only [List.cons_append, Selection.pick, ih hlen]
      | false => simp only [List.cons_append, Selection.pick, ih hlen]

theorem SelectedOk.elts (h : SelectedOk own done r) :
    SelectedOk own (done ++ l) (selectElts own availableSize maxEltsCount r l) := by
  induction l generalizing r done with
  | nil => simpa [selectElts] using h
  | cons x l ih =>
    have hassoc : done ++ x :: l = (done ++ [x]) ++ l := by simp
    unfold selectElts
    split
    · rw [hassoc]
      apply ih
      constructor
      · simp [h.length]
      · simp [pick_append_singleton true x h.length, h.eltCount]
      · simp [pick_append_singleton true x h.length, h.toReserve, sizeOn]
    · rw [hassoc]
      apply ih
      constructor
      · simp [h.length]
      · simpa [pick_append_singleton false x h.length] using h.eltCount
      · simpa [pick_append_singleton false x h.length] using h.toReserve

/-- The elements selected leave some of the free space. -/
theorem toReserve_selectElts_lt (h : r.toReserve < availableSize) :
    (selectElts own availableSize maxEltsCount r l).toReserve < availableSize := by
  induction l generalizing r with
  | nil => exact h
  | cons x l ih =>
    unfold selectElts
    split
    · rename_i hroom
      apply ih
      show r.toReserve + (x.ptr own).bufferEntrySize < availableSize
      omega
    · exact ih h

/-! ### The write list -/

/-- A write reads a copy of the element `x`. -/
def Carries (own scratch : Mem) (x : EltLoc) (w : WriteArg) : Prop :=
  w.len = sizeOn own x ∧
    Agrees (localMem own scratch w.src) w.srcOff (x.ptr own).mem (x.ptr own).off (sizeOn own x)

/-- Where the copy that a write reads lies in the scratch segment, and its length. -/
def copyRange (w : WriteArg) : ℕ × ℕ := (w.srcOff, w.len)

/-- The writes that read the scratch segment. -/
def scratchWrites (args : List WriteArg) : List WriteArg := args.filter fun w => w.src = .scratch

/-- The loop has added the elements `done` to an empty list, with the head of the target at `head`
and the scratch segment as `scratch`. -/
structure WriteListOk (own scratch : Mem) (head : ℕ) (done : List EltLoc) (b : WriteList) :
    Prop where
  writes : List.Forall₂ (Carries own b.scratch) done b.args
  remote : Tiling.Tiles id head b.offsetRemote (b.args.map Piece.range)
  copies : Tiling.Tiles id sizeofBufferedSegmentMetadata b.scratchSegmentHead
    ((scratchWrites b.args).map copyRange)
  offsetRemote : b.offsetRemote = head + (done.map (sizeOn own)).sum
  scratchHead : b.scratchSegmentHead ≤
    sizeofBufferedSegmentMetadata + (done.map (sizeOn own)).sum
  kept : ∀ i, i < sizeofBufferedSegmentMetadata ∨ b.scratchSegmentHead ≤ i →
    b.scratch i = scratch i

theorem WriteListOk.empty (own scratch : Mem) (head count : ℕ) :
    WriteListOk own scratch head []
      ⟨scratch, sizeofBufferedSegmentMetadata, head, [], count⟩ := by
  constructor
  · exact .nil
  · exact rfl
  · exact rfl
  · exact rfl
  · exact le_rfl
  · exact fun i _ => rfl

theorem forall₂_imp_of_mem {α β : Type*} {R S : α → β → Prop} {l : List α} {l' : List β}
    (h : List.Forall₂ R l l') (himp : ∀ x, ∀ y ∈ l', R x y → S x y) : List.Forall₂ S l l' := by
  induction h with
  | nil => exact .nil
  | cons hxy _ ih =>
    apply List.Forall₂.cons
    · exact himp _ _ (List.mem_cons_self ..) hxy
    · exact ih fun x y hy => himp x y (List.mem_cons_of_mem _ hy)

/-- A write reads the same after a copy past those that the list has. -/
theorem WriteListOk.carries (h : WriteListOk own scratch head done b) {w : WriteArg}
    (hw : w ∈ b.args) (hx : Carries own b.scratch x w) (src : Mem) (len : ℕ) :
    Carries own (copy b.scratch b.scratchSegmentHead src 0 len) x w := by
  refine ⟨hx.1, ?_⟩
  have hagrees := hx.2
  cases hsrc : w.src with
  | result =>
    rw [hsrc] at hagrees
    exact hagrees
  | scratch =>
    rw [hsrc] at hagrees
    have hmem : w ∈ scratchWrites b.args := by
      simp [scratchWrites, hw, hsrc]
    have hrange := (h.copies.mem_range (List.mem_map_of_mem hmem)).2
    simp only [copyRange, id_eq, hx.1] at hrange
    exact (agrees_copy_of_disjoint (.inl hrange)).trans hagrees

/-- The loop adds an element. -/
theorem WriteListOk.addElt (h : WriteListOk own scratch head done b) (x : EltLoc) :
    WriteListOk own scratch head (done ++ [x]) (addElt own b x) := by
  have hsum : ((done ++ [x]).map (sizeOn own)).sum =
      (done.map (sizeOn own)).sum + sizeOn own x := by simp
  have hoffset := h.offsetRemote
  have hhead := h.scratchHead
  cases x with
  | onSegment off =>
    constructor
    · exact List.rel_append h.writes (.cons ⟨rfl, Agrees.refl _ _ _⟩ .nil)
    · simp only [Results.addElt, List.map_append]
      exact h.remote.append ⟨rfl, rfl⟩
    · simpa [Results.addElt, scratchWrites] using h.copies
    · rw [hsum]
      simp only [Results.addElt, sizeOn] at hoffset ⊢
      omega
    · rw [hsum]
      simp only [Results.addElt, sizeOn] at hhead ⊢
      omega
    · exact h.kept
  | inMemory block =>
    constructor
    · apply List.rel_append
      · exact forall₂_imp_of_mem h.writes fun x w hw hx => h.carries hw hx _ _
      · exact .cons ⟨rfl, agrees_copy _ _ _ _ _⟩ .nil
    · simp only [Results.addElt, List.map_append]
      exact h.remote.append ⟨rfl, rfl⟩
    · simp only [Results.addElt, scratchWrites, List.filter_append, List.map_append]
      exact h.copies.append ⟨rfl, rfl⟩
    · rw [hsum]
      simp only [Results.addElt, sizeOn] at hoffset ⊢
      omega
    · rw [hsum]
      simp only [Results.addElt, sizeOn] at hhead ⊢
      omega
    · intro i hi
      have hle := h.copies.le
      simp only [Results.addElt] at hi ⊢
      rw [copy_of_not_mem (by omega)]
      exact h.kept i (by omega)

/-- The loop adds the elements that are selected. -/
theorem WriteListOk.buildArgs (h : WriteListOk own scratch head done b) (selected : List Bool)
    (l : List EltLoc) :
    WriteListOk own scratch head (done ++ Selection.pick selected l)
      (buildArgs own b selected l) := by
  induction l generalizing b done selected with
  | nil =>
    cases selected with
    | nil => simpa [Results.buildArgs, Selection.pick] using h
    | cons c selected => cases c <;> simpa [Results.buildArgs, Selection.pick] using h
  | cons x l ih =>
    cases selected with
    | nil => simpa [Results.buildArgs, Selection.pick] using h
    | cons c selected =>
      cases c with
      | false => exact ih h selected
      | true =>
        have hstep := ih (h.addElt x) selected
        rw [List.append_assoc] at hstep
        exact hstep

/-! ### The lists of at most 254 writes -/

theorem flatten_slices {α : Type*} (l : List α) (c k : ℕ) :
    ((List.range k).map fun j => (l.drop (c * j)).take c).flatten = l.take (c * k) := by
  induction k with
  | zero => simp
  | succ k ih =>
    rw [List.range_succ, List.map_append, List.flatten_append, ih]
    simp only [List.map_cons, List.map_nil, List.flatten_cons, List.flatten_nil, List.append_nil]
    rw [← List.take_add, Nat.mul_succ]

theorem flatten_writeLists (args : List WriteArg) : (writeLists args).flatten = args := by
  unfold writeLists
  rw [flatten_slices]
  exact List.take_of_length_le (by omega)

/-! ### What arrives -/

/-- A memory that holds copies of elements end to end is iterated over from one to the next. -/
theorem iterate_of_copies {first last fuel : ℕ} {args : List WriteArg} {elts : List EltPtr}
    (htiles : Tiling.Tiles id first last (args.map Piece.range))
    (hcopies : List.Forall₂ (fun e w => w.len = e.bufferEntrySize ∧
      Agrees m w.dstOff e.mem e.off e.bufferEntrySize) elts args)
    (hfuel : last - first ≤ fuel) :
    iterate m last fuel first = some (args.map Piece.dstOff) ∧
      (args.map fun w => (⟨m, w.dstOff⟩ : EltPtr).bytes) = elts.map EltPtr.bytes := by
  induction hcopies generalizing first fuel with
  | nil =>
    have heq : first = last := htiles
    cases fuel <;> simp [iterate, heq]
  | @cons e w elts args hw _ ih =>
    obtain ⟨hfirst, hrest⟩ := htiles
    have hdst : w.dstOff = first := hfirst
    obtain ⟨hlen, hagrees⟩ := hw
    obtain ⟨hsize, hbytes⟩ : (⟨m, w.dstOff⟩ : EltPtr).bufferEntrySize = e.bufferEntrySize ∧
        (⟨m, w.dstOff⟩ : EltPtr).bytes = e.bytes := EltPtr.copied hagrees
    have hpos : 0 < w.len := by
      have := sizeofBufferElt_le e
      rw [sizeofBufferElt_eq] at this
      omega
    have hle : first + w.len ≤ last := hrest.le
    cases fuel with
    | zero => omega
    | succ fuel =>
      have hne : first ≠ last := by omega
      have hnext : first + w.len = first + (⟨m, first⟩ : EltPtr).bufferEntrySize := by
        rw [← hdst, hsize, hlen]
      have hrest' : Tiling.Tiles id (first + w.len) last (args.map Piece.range) := hrest
      obtain ⟨hiter, hall⟩ := ih hrest' (show last - (first + w.len) ≤ fuel by omega)
      constructor
      · simp only [iterate, if_neg hne, ← hnext, hiter, Option.map_some, List.map_cons, hdst]
      · simp only [List.map_cons, hall, hbytes]

/-! ### The layout of a packed push -/

/-- What holds of a push that selects `r` of the range and builds the write list `b`, with the
scratch segment of `scratchSize` bytes as `scratch` before. -/
structure PackedLayout (own scratch : Mem) (scratchSize : ℕ) (remote : RemoteBsm)
    (range : List EltLoc) (r : SelectedElts) (b : WriteList) : Prop where
  selected : r.selected.length = range.length
  count : b.args.length = r.eltCount
  /-- The list has a write for each element selected, in order, and it reads the element's bytes. -/
  entries : List.Forall₂ (fun x w => w.len = sizeOn own x ∧
      w.bytes (localMem own b.scratch) = (x.ptr own).bytes)
    (Selection.pick r.selected range) b.args
  /-- The writes go end to end to the space reserved. -/
  reserved : Tiling.Tiles id remote.bufferHead (remote.bufferHead + r.toReserve)
    (b.args.map Piece.range)
  inside : remote.bufferHead + r.toReserve < remote.segmentSize
  /-- The copies in the scratch segment lie end to end behind the metadata, -/
  copies : Tiling.Tiles id sizeofBufferedSegmentMetadata b.scratchSegmentHead
    ((scratchWrites b.args).map copyRange)
  /-- inside the segment, -/
  scratch_le : b.scratchSegmentHead ≤ scratchSize
  /-- and the rest of it stays. -/
  kept : ∀ i, i < sizeofBufferedSegmentMetadata ∨ b.scratchSegmentHead ≤ i →
    b.scratch i = scratch i
  /-- `gaspi_write_list` gets all writes. -/
  lists : (writeLists b.args).flatten = b.args
  /-- When the writes have arrived, in any order, the space reads as the elements selected, -/
  readBack : ∀ m l, l.Perm b.args →
    read (arriveAll (localMem own b.scratch) m l) remote.bufferHead r.toReserve =
      ((Selection.pick r.selected range).map fun x => (x.ptr own).bytes).flatten
  /-- and the iterator meets these in order. -/
  iterated : ∀ m l, l.Perm b.args → ∃ offs,
    iterate (arriveAll (localMem own b.scratch) m l) (remote.bufferHead + r.toReserve) r.toReserve
      remote.bufferHead = some offs ∧
    (offs.map fun off => (⟨arriveAll (localMem own b.scratch) m l, off⟩ : EltPtr).bytes) =
      (Selection.pick r.selected range).map fun x => (x.ptr own).bytes

theorem Carries.bytes {w : WriteArg} (h : Carries own scratch x w) :
    w.bytes (localMem own scratch) = (x.ptr own).bytes := by
  simp only [Piece.bytes, h.1]
  exact read_congr h.2

theorem map_bytes_of_carries {elts : List EltLoc} {args : List WriteArg}
    (h : List.Forall₂ (Carries own scratch) elts args) :
    args.map (Piece.bytes (localMem own scratch)) = elts.map fun x => (x.ptr own).bytes := by
  induction h with
  | nil => rfl
  | cons hw _ ih => simp only [List.map_cons, hw.bytes, ih]

/-- A write list whose elements are those selected, and which ends where the reservation does. -/
theorem WriteListOk.packedLayout {scratchSize : ℕ} (hsel : SelectedOk own range r)
    (h : WriteListOk own scratch remote.bufferHead (Selection.pick r.selected range) b)
    (hroom : r.toReserve < remote.available) (hhead : sizeofMetadataResult ≤ remote.bufferHead)
    (hsize : remote.segmentSize ≤ scratchSize) :
    PackedLayout own scratch scratchSize remote range r b := by
  have hinside : remote.bufferHead + r.toReserve < remote.segmentSize := by
    unfold RemoteBsm.available at hroom
    split at hroom <;> omega
  have hend : b.offsetRemote = remote.bufferHead + r.toReserve := by
    rw [h.offsetRemote, hsel.toReserve]
  have hreserved := h.remote
  rw [hend] at hreserved
  have hlength : remote.bufferHead + r.toReserve - remote.bufferHead = r.toReserve := by omega
  constructor
  · exact hsel.length
  · rw [hsel.eltCount]
    exact h.writes.length_eq.symm
  · exact h.writes.imp fun x w hw => ⟨hw.1, hw.bytes⟩
  · exact hreserved
  · exact hinside
  · exact h.copies
  · have hle := h.scratchHead
    rw [← hsel.toReserve] at hle
    rw [sizeofMetadataResult_eq] at hhead
    rw [sizeofBufferedSegmentMetadata_eq] at hle
    omega
  · exact h.kept
  · exact flatten_writeLists b.args
  · intro m l hperm
    have hread := @read_arriveAll _ (localMem own b.scratch) m _ _ _ _ hreserved hperm
    rw [hlength, map_bytes_of_carries h.writes] at hread
    exact hread
  · intro m l hperm
    have hcopies : List.Forall₂ (fun (e : EltPtr) (w : WriteArg) => w.len = e.bufferEntrySize ∧
        Agrees (arriveAll (localMem own b.scratch) m l) w.dstOff e.mem e.off e.bufferEntrySize)
        ((Selection.pick r.selected range).map (EltLoc.ptr own)) b.args := by
      rw [List.forall₂_map_left_iff]
      apply forall₂_imp_of_mem h.writes
      intro x w hw hx
      refine ⟨hx.1, ?_⟩
      have harrived := @agrees_arriveAll _ (localMem own b.scratch) m _ _
        (pairwise_of_perm (pairwise_of_tiles hreserved) hperm) (hperm.mem_iff.mpr hw)
      rw [hx.1] at harrived
      exact harrived.trans hx.2
    have hfuel : remote.bufferHead + r.toReserve - remote.bufferHead ≤ r.toReserve := by omega
    obtain ⟨hiter, hbytes⟩ := iterate_of_copies hreserved hcopies hfuel
    refine ⟨_, hiter, ?_⟩
    simp only [List.map_map, Function.comp_def] at hbytes ⊢
    exact hbytes

theorem selected_of_range (own : Mem) (range : List EltLoc) (availableSize maxEltsCount : ℕ) :
    SelectedOk own range (selectElts own availableSize maxEltsCount ⟨0, 0, []⟩ range) := by
  have hempty : SelectedOk own [] ⟨0, 0, []⟩ := ⟨rfl, rfl, rfl⟩
  have h : SelectedOk own ([] ++ range)
      (selectElts own availableSize maxEltsCount ⟨0, 0, []⟩ range) := hempty.elts
  rwa [List.nil_append] at h

/-- A push of valid elements to a segment with room passes its assertions. -/
theorem isSome_tryPushVectorEltTo {nbRanks segmentSize : ℕ}
    (hvalid : ∀ x ∈ range, (x.ptr own).isValid nbRanks segmentSize)
    (hroom : remote.bufferHead < remote.segmentSize) :
    (tryPushVectorEltTo nbRanks segmentSize own scratch remote range).isSome := by
  have havailable : 0 < remote.available := by
    unfold RemoteBsm.available
    rw [if_pos hroom]
    omega
  have hall : (range.all fun x => (x.ptr own).isValid nbRanks segmentSize) = true :=
    List.all_eq_true.mpr hvalid
  have hlt : (selectElts own remote.available remote.maxEltsCount ⟨0, 0, []⟩ range).toReserve <
      remote.available := toReserve_selectElts_lt havailable
  have hsel := selected_of_range own range remote.available remote.maxEltsCount
  have hlist := (WriteListOk.empty own scratch remote.bufferHead 0).buildArgs
    (selectElts own remote.available remote.maxEltsCount ⟨0, 0, []⟩ range).selected range
  rw [List.nil_append] at hlist
  unfold tryPushVectorEltTo
  simp only [hall, if_true, hlt]
  split
  · rfl
  · have hcount := hsel.eltCount.trans hlist.writes.length_eq
    have hend := hlist.offsetRemote
    rw [← hsel.toReserve] at hend
    rw [if_pos ⟨hcount, hend.symm⟩]
    rfl

/-- What a push that passes its assertions does. -/
theorem layout_of_tryPushVectorEltTo {nbRanks segmentSize scratchSize : ℕ}
    (hpush : tryPushVectorEltTo nbRanks segmentSize own scratch remote range = some (r, b))
    (hhead : sizeofMetadataResult ≤ remote.bufferHead)
    (hsize : remote.segmentSize ≤ scratchSize) :
    PackedLayout own scratch scratchSize remote range r b := by
  have hsel := selected_of_range own range remote.available remote.maxEltsCount
  unfold tryPushVectorEltTo at hpush
  split at hpush
  · simp only at hpush
    split at hpush
    · rename_i hroom
      split at hpush
      · rename_i hzero
        cases hpush
        have hnil : Selection.pick (selectElts own remote.available remote.maxEltsCount
            ⟨0, 0, []⟩ range).selected range = [] := by
          rw [hsel.eltCount] at hzero
          exact List.length_eq_zero_iff.mp hzero
        have hlist := WriteListOk.empty own scratch remote.bufferHead 0
        rw [← hnil] at hlist
        exact hlist.packedLayout hsel hroom hhead hsize
      · split at hpush
        · cases hpush
          have hlist := (WriteListOk.empty own scratch remote.bufferHead 0).buildArgs
            (selectElts own remote.available remote.maxEltsCount ⟨0, 0, []⟩ range).selected range
          rw [List.nil_append] at hlist
          exact hlist.packedLayout hsel hroom hhead hsize
        · cases hpush
    · cases hpush
  · cases hpush

/-! ### The same push on elements -/

section Refinement

variable {n : ℕ}

/-- An element of the range has the size of the element that it stands for. -/
def SizeOf (own : Mem) (x : EltLoc) (e : BufferElt n) : Prop := sizeOn own x = e.bufferEntrySize

theorem selected_selectElts {elts : List (BufferElt n)}
    (h : List.Forall₂ (SizeOf own) range elts) (r : SelectedElts) :
    (selectElts own availableSize maxEltsCount r range).selected =
      r.selected ++ selectEltsToPush availableSize maxEltsCount r.toReserve r.eltCount elts := by
  induction h generalizing r with
  | nil => simp [selectElts, selectEltsToPush]
  | cons hx _ ih =>
    simp only [SizeOf, sizeOn] at hx
    simp only [selectElts, selectEltsToPush, hx, gt_iff_lt]
    split
    · rw [ih]
      simp
    · rw [ih]
      simp

/-- The flags are those of the selection among elements. -/
theorem selectElts_eq_selectEltsToPush {elts : List (BufferElt n)}
    (h : List.Forall₂ (SizeOf own) range elts) :
    (selectElts own availableSize maxEltsCount ⟨0, 0, []⟩ range).selected =
      selectEltsToPush availableSize maxEltsCount 0 0 elts := by
  rw [selected_selectElts h, List.nil_append]

/-- The writes go where the message of a push has them. -/
theorem range_args_eq_layOut {elts : List (BufferElt n)} {args : List WriteArg} {last : ℕ}
    (h : List.Forall₂ (SizeOf own) done elts)
    (hargs : List.Forall₂ (fun x (w : WriteArg) => w.len = sizeOn own x) done args)
    (htiles : Tiling.Tiles id head last (args.map Piece.range)) :
    args.map Piece.range = (Tiling.layOut BufferElt.bufferEntrySize head elts).map
      fun w => (w.1, w.2.bufferEntrySize) := by
  induction h generalizing head args with
  | nil =>
    cases hargs
    rfl
  | cons hx _ ih =>
    cases hargs with
    | cons hw hargs =>
      obtain ⟨hfirst, hrest⟩ := htiles
      have hlen := hw.trans hx
      simp only [List.map_cons, Tiling.layOut]
      have hrest' := hrest
      simp only [id_eq, hlen] at hrest'
      rw [ih hargs hrest']
      have hdst : Piece.range _ = (head, BufferElt.bufferEntrySize _) := Prod.ext hfirst hlen
      rw [hdst]

theorem forall₂_pick {α β : Type*} {R : α → β → Prop} {l : List α} {l' : List β}
    (h : List.Forall₂ R l l') (selected : List Bool) :
    List.Forall₂ R (Selection.pick selected l) (Selection.pick selected l') := by
  induction h generalizing selected with
  | nil =>
    cases selected with
    | nil => exact .nil
    | cons c selected => cases c <;> exact .nil
  | cons hx _ ih =>
    cases selected with
    | nil => exact .nil
    | cons c selected =>
      cases c with
      | true => exact .cons hx (ih selected)
      | false => exact ih selected

/-- A packed push selects and writes what the push of a flush does. -/
theorem tryPushVectorEltTo_refines {nbRanks segmentSize : ℕ} {elts : List (BufferElt n)}
    (hpush : tryPushVectorEltTo nbRanks segmentSize own scratch remote range = some (r, b))
    (hhead : sizeofMetadataResult ≤ remote.bufferHead)
    (hcount : remote.bufferEltCount ≤ maxBufferElts)
    (h : List.Forall₂ (SizeOf own) range elts) :
    r.selected = selectEltsToPush remote.available (maxBufferElts - remote.bufferEltCount) 0 0
        elts ∧
      b.args.map Piece.range = (Tiling.layOut BufferElt.bufferEntrySize remote.bufferHead
        (Selection.pick r.selected elts)).map fun w => (w.1, w.2.bufferEntrySize) := by
  have hlayout := layout_of_tryPushVectorEltTo hpush hhead le_rfl
  have hmax : remote.maxEltsCount = maxBufferElts - remote.bufferEltCount := by
    unfold RemoteBsm.maxEltsCount
    simp only [maxBufferElts] at hcount ⊢
    omega
  have hselected : r = selectElts own remote.available remote.maxEltsCount ⟨0, 0, []⟩ range := by
    unfold tryPushVectorEltTo at hpush
    simp only at hpush
    repeat' split at hpush
    all_goals cases hpush
    · rfl
    · rfl
  constructor
  · rw [hselected, selectElts_eq_selectEltsToPush h, hmax]
  · exact range_args_eq_layOut (forall₂_pick h _)
      (hlayout.entries.imp fun x w hw => hw.1) hlayout.reserved

end Refinement

end Titus.Results

import Mathlib.Data.List.OfFn

/-! Byte memories as functions from addresses: copies of a range, equality on a range, and the
records of one size that a range is cut into. -/

namespace Memory

/-- The byte at every address. -/
abbrev Mem := ℕ → UInt8

/-- `dst` after a copy of the `len` bytes of `src` from `srcOff` to `dstOff`. -/
def copy (dst : Mem) (dstOff : ℕ) (src : Mem) (srcOff len : ℕ) : Mem :=
  fun i => if dstOff ≤ i ∧ i < dstOff + len then src (srcOff + (i - dstOff)) else dst i

/-- The `len` bytes from `off` on. -/
def read (m : Mem) (off len : ℕ) : List UInt8 := List.ofFn fun i : Fin len => m (off + i)

/-- `dst` with the bytes `bytes` from `off` on. -/
def write (dst : Mem) (off : ℕ) (bytes : List UInt8) : Mem :=
  fun i => if off ≤ i ∧ i < off + bytes.length then bytes.getD (i - off) 0 else dst i

/-- The `len` bytes of `m` from `off` on are those of `m'` from `off'` on. -/
def Agrees (m : Mem) (off : ℕ) (m' : Mem) (off' len : ℕ) : Prop :=
  ∀ i < len, m (off + i) = m' (off' + i)

variable {m m' m'' dst src : Mem} {off off' off'' len len' dstOff srcOff : ℕ}

@[simp] theorem length_read : (read m off len).length = len := by simp [read]

theorem copy_of_mem {i : ℕ} (h : i < len) :
    copy dst dstOff src srcOff len (dstOff + i) = src (srcOff + i) := by
  simp [copy, h]

theorem copy_of_not_mem {i : ℕ} (h : i < dstOff ∨ dstOff + len ≤ i) :
    copy dst dstOff src srcOff len i = dst i := by
  have : ¬ (dstOff ≤ i ∧ i < dstOff + len) := by omega
  simp [copy, this]

theorem Agrees.refl (m : Mem) (off len : ℕ) : Agrees m off m off len := fun _ _ => rfl

theorem Agrees.trans (h : Agrees m off m' off' len) (h' : Agrees m' off' m'' off'' len) :
    Agrees m off m'' off'' len := fun i hi => (h i hi).trans (h' i hi)

theorem Agrees.symm (h : Agrees m off m' off' len) : Agrees m' off' m off len :=
  fun i hi => (h i hi).symm

/-- Two ranges that agree agree on every part. -/
theorem Agrees.sub (h : Agrees m off m' off' len) {k : ℕ} (hk : k + len' ≤ len) :
    Agrees m (off + k) m' (off' + k) len' := fun i hi => by
  have := h (k + i) (by omega)
  rwa [← Nat.add_assoc, ← Nat.add_assoc] at this

theorem Agrees.mono (h : Agrees m off m' off' len) (hk : len' ≤ len) :
    Agrees m off m' off' len' := fun i hi => h i (by omega)

/-- Ranges that agree one after the other agree as one. -/
theorem Agrees.append {k : ℕ} (h : Agrees m off m' off' k)
    (h' : Agrees m (off + k) m' (off' + k) len) : Agrees m off m' off' (k + len) := fun i hi => by
  rcases Nat.lt_or_ge i k with hk | hk
  · exact h i hk
  · have := h' (i - k) (by omega)
    rwa [Nat.add_assoc, Nat.add_assoc, Nat.add_sub_cancel' hk] at this

theorem agrees_copy (dst : Mem) (dstOff : ℕ) (src : Mem) (srcOff len : ℕ) :
    Agrees (copy dst dstOff src srcOff len) dstOff src srcOff len :=
  fun _ hi => copy_of_mem hi

/-- A copy leaves a range that lies below it or above it as it was. -/
theorem agrees_copy_of_disjoint (h : off + len' ≤ dstOff ∨ dstOff + len ≤ off) :
    Agrees (copy dst dstOff src srcOff len) off dst off len' :=
  fun _ hi => copy_of_not_mem (by omega)

theorem read_congr (h : Agrees m off m' off' len) : read m off len = read m' off' len := by
  unfold read
  congr 1
  funext i
  exact h i i.isLt

theorem read_add (m : Mem) (off k len : ℕ) :
    read m off (k + len) = read m off k ++ read m (off + k) len := by
  apply List.ext_getElem
  · simp
  · intro i h1 h2
    rw [List.getElem_append]
    split
    · simp [read]
    · rename_i hi
      have hk : off + i = off + k + (i - k) := by
        rw [length_read] at hi
        omega
      simp [read, hk]

end Memory

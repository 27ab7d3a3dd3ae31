import Titus.Lib.Memory
import Titus.Lib.Tiling

/-! Writes that gather pieces of several memories into a range of another.  The pieces lie end to
end in the range, and arrive in any order. -/

namespace Gather

open Memory

/-- A write of `len` bytes of the memory `src`, from `srcOff` on, to `dstOff`. -/
structure Piece (σ : Type*) where
  src : σ
  srcOff : ℕ
  dstOff : ℕ
  len : ℕ
deriving DecidableEq

variable {σ : Type*} {mem : σ → Mem} {dst : Mem} {p q : Piece σ} {ps l : List (Piece σ)} {a b : ℕ}

/-- The bytes that a piece consists of. -/
def Piece.bytes (mem : σ → Mem) (p : Piece σ) : List UInt8 := read (mem p.src) p.srcOff p.len

/-- Where a piece goes, and its length. -/
def Piece.range (p : Piece σ) : ℕ × ℕ := (p.dstOff, p.len)

/-- The destination after a piece has arrived. -/
def arrive (mem : σ → Mem) (dst : Mem) (p : Piece σ) : Mem :=
  copy dst p.dstOff (mem p.src) p.srcOff p.len

/-- The destination after pieces have arrived in the order of the list. -/
def arriveAll (mem : σ → Mem) (dst : Mem) (l : List (Piece σ)) : Mem := l.foldl (arrive mem) dst

/-- The pieces go to ranges that do not overlap. -/
def Apart (p q : Piece σ) : Prop := p.dstOff + p.len ≤ q.dstOff ∨ q.dstOff + q.len ≤ p.dstOff

theorem Apart.symm (h : Apart p q) : Apart q p := Or.symm h

/-- What no piece goes to stays. -/
theorem arriveAll_of_not_mem {i : ℕ} (h : ∀ p ∈ l, i < p.dstOff ∨ p.dstOff + p.len ≤ i) :
    arriveAll mem dst l i = dst i := by
  induction l generalizing dst with
  | nil => rfl
  | cons p l ih =>
    obtain ⟨hp, hl⟩ := List.forall_mem_cons.mp h
    have hrest : arriveAll mem (arrive mem dst p) l i = arrive mem dst p i := ih hl
    exact hrest.trans (copy_of_not_mem hp)

/-- Every piece is where it goes, whatever the order of the arrivals. -/
theorem agrees_arriveAll (hapart : l.Pairwise Apart) (hp : p ∈ l) :
    Agrees (arriveAll mem dst l) p.dstOff (mem p.src) p.srcOff p.len := by
  induction l generalizing dst with
  | nil => cases hp
  | cons q l ih =>
    obtain ⟨hq, hl⟩ := List.pairwise_cons.mp hapart
    rcases List.mem_cons.mp hp with rfl | hp
    · intro i hi
      have hkept : arriveAll mem (arrive mem dst p) l (p.dstOff + i) =
          arrive mem dst p (p.dstOff + i) := by
        apply arriveAll_of_not_mem
        intro q hq'
        rcases hq q hq' with hle | hle
        · exact .inl (by omega)
        · exact .inr (by omega)
      exact hkept.trans (copy_of_mem hi)
    · exact ih hl hp

theorem pairwise_of_perm (h : ps.Pairwise Apart) (hperm : l.Perm ps) : l.Pairwise Apart :=
  (hperm.pairwise_iff Apart.symm).mpr h

/-- Pieces that go end to end do not overlap. -/
theorem pairwise_of_tiles (h : Tiling.Tiles id a b (ps.map Piece.range)) : ps.Pairwise Apart :=
  (List.pairwise_map.mp h.pairwise).imp fun hle => .inl hle

/-- A range that is filled piece by piece reads as the pieces in order. -/
theorem read_of_tiles (h : Tiling.Tiles id a b (ps.map Piece.range))
    (hagrees : ∀ p ∈ ps, Agrees dst p.dstOff (mem p.src) p.srcOff p.len) :
    read dst a (b - a) = (ps.map (Piece.bytes mem)).flatten := by
  induction ps generalizing a with
  | nil =>
    have hab : a = b := h
    simp [hab, Memory.read]
  | cons p ps ih =>
    obtain ⟨hp, hps⟩ := h
    have hfirst : p.dstOff = a := hp
    have hrest := ih hps fun q hq => hagrees q (List.mem_cons_of_mem _ hq)
    have hle : a + p.len ≤ b := hps.le
    have hlen : b - a = p.len + (b - (a + p.len)) := by omega
    have hbytes : read dst a p.len = p.bytes mem := by
      have hagree := hagrees p (List.mem_cons_self ..)
      rw [hfirst] at hagree
      exact read_congr hagree
    simp only [List.map_cons, List.flatten_cons]
    rw [hlen, read_add, hbytes]
    exact congrArg _ hrest

/-- The range reads as the pieces in order, whatever the order of their arrivals. -/
theorem read_arriveAll (h : Tiling.Tiles id a b (ps.map Piece.range)) (hperm : l.Perm ps) :
    read (arriveAll mem dst l) a (b - a) = (ps.map (Piece.bytes mem)).flatten := by
  apply read_of_tiles h
  intro p hp
  exact agrees_arriveAll (pairwise_of_perm (pairwise_of_tiles h) hperm) (hperm.mem_iff.mpr hp)

end Gather

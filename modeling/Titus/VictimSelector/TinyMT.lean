import Mathlib.Data.BitVec
import Mathlib.Data.Finite.Prod
import Mathlib.Dynamics.PeriodicPts.Lemmas
import Titus.Lib.XorShift

/-! TinyMT64, the generator that `add_random_neighbors` draws from.  Its state is 127 bits of two
words: the highest bit of the first word is masked at each draw. -/

namespace Titus.VictimSelector

open Function

/-- `tinymt64_t`. -/
structure TinyMT64 where
  status : BitVec 64 × BitVec 64
  mat1 : BitVec 32
  mat2 : BitVec 32
  tmat : BitVec 64
deriving DecidableEq

namespace TinyMT64

/-- `TINYMT64_MASK`. -/
def mask : BitVec 64 := 0x7fffffffffffffff

/-- The words of the state that the next draw uses. -/
def masked (t : TinyMT64) : BitVec 64 × BitVec 64 := (t.status.1 &&& mask, t.status.2)

/-! ### Initialization -/

/-- The loop of `tinymt64_init`, from `i` on for `steps` iterations: the words exchange their places
when `i` goes up. -/
def mixStatus : ℕ → ℕ → BitVec 64 × BitVec 64 → BitVec 64 × BitVec 64
  | 0, _, status => status
  | steps + 1, i, status =>
    let previous := if i % 2 = 1 then status.1 else status.2
    let added := BitVec.ofNat 64 i + 6364136223846793005#64 * (previous ^^^ previous >>> 62)
    mixStatus steps (i + 1)
      (if i % 2 = 1 then (status.1, status.2 ^^^ added) else (status.1 ^^^ added, status.2))

def periodCertification (t : TinyMT64) : TinyMT64 :=
  if t.status.1 &&& mask = 0 ∧ t.status.2 = 0 then { t with status := (0x54, 0x4d) } else t

/-- `tinymt64_init`, where `MIN_LOOP` is 8. -/
def init (t : TinyMT64) (seed : BitVec 64) : TinyMT64 :=
  periodCertification { t with
    status := mixStatus 7 1
      (seed ^^^ t.mat1.setWidth 64 <<< 32, t.mat2.setWidth 64 ^^^ t.tmat) }

/-! ### Draws -/

/-- The word that `tinymt64_next_state` computes. -/
def nextWord (x : BitVec 64) : BitVec 64 :=
  let x := x ^^^ x <<< 12
  let x := x ^^^ x >>> 32
  let x := x ^^^ x <<< 32
  x ^^^ x <<< 11

def nextState (t : TinyMT64) : TinyMT64 :=
  let x := nextWord ((t.status.1 &&& mask) ^^^ t.status.2)
  { t with
    status := (t.status.2 ^^^ (-(x &&& 1#64) &&& t.mat1.setWidth 64),
      x ^^^ (-(x &&& 1#64) &&& t.mat2.setWidth 64 <<< 32)) }

def temper (t : TinyMT64) : BitVec 64 :=
  let x := (t.status.1 + t.status.2) ^^^ t.status.1 >>> 8
  x ^^^ (-(x &&& 1#64) &&& t.tmat)

/-- `tinymt64_generate_uint64`. -/
def generateUint64 (t : TinyMT64) : BitVec 64 × TinyMT64 :=
  let t := nextState t
  (temper t, t)

/-- The generator after `k` draws. -/
def after (t : TinyMT64) (k : ℕ) : TinyMT64 := (fun t => (generateUint64 t).2)^[k] t

/-- Draw `k`, counted from 0. -/
def draw (t : TinyMT64) (k : ℕ) : BitVec 64 := (generateUint64 (t.after k)).1

variable {t : TinyMT64} {x y : BitVec 64}

/-! ### The state of 127 bits -/

/-- The words that a draw can start from. -/
abbrev Words := {p : BitVec 64 × BitVec 64 // p.1 &&& mask = p.1}

theorem getLsbD_mask {i : ℕ} (hi : i < 64) : mask.getLsbD i = decide (i < 63) := by
  revert i
  decide

theorem masked_masked (t : TinyMT64) : t.masked.1 &&& mask = t.masked.1 := by
  simp only [masked, BitVec.and_assoc, BitVec.and_self]

def words (t : TinyMT64) : Words := ⟨t.masked, t.masked_masked⟩

/-- The words after a draw, with the parameters of `t`. -/
def nextWords (t : TinyMT64) (p : Words) : Words := (nextState { t with status := p }).words

theorem nextWord_injective : Injective nextWord := by
  have h12 : Injective fun x : BitVec 64 => x ^^^ x <<< 12 := XorShift.injective_left (by decide)
  have h32 : Injective fun x : BitVec 64 => x ^^^ x >>> 32 := XorShift.injective_right (by decide)
  have h32' : Injective fun x : BitVec 64 => x ^^^ x <<< 32 := XorShift.injective_left (by decide)
  have h11 : Injective fun x : BitVec 64 => x ^^^ x <<< 11 := XorShift.injective_left (by decide)
  exact h11.comp (h32'.comp (h32.comp h12))

/-- The second word tells the lowest bit of the word it is computed from, and so the word. -/
theorem eq_of_second_word {m : BitVec 64}
    (h : x ^^^ (-(x &&& 1#64) &&& m <<< 32) = y ^^^ (-(y &&& 1#64) &&& m <<< 32)) : x = y := by
  have hlow := congrArg (BitVec.getLsbD · 0) h
  simp only [BitVec.getLsbD_xor, BitVec.getLsbD_and, BitVec.getLsbD_shiftLeft] at hlow
  have hone : x &&& 1#64 = y &&& 1#64 := by
    rw [BitVec.and_one_eq_setWidth_ofBool_getLsbD, BitVec.and_one_eq_setWidth_ofBool_getLsbD]
    congr 2
    simpa using hlow
  rw [hone] at h
  exact (BitVec.xor_left_inj _).mp h

/-- A draw loses nothing of the state. -/
theorem nextWords_injective (t : TinyMT64) : Injective t.nextWords := by
  rintro ⟨⟨a, b⟩, ha⟩ ⟨⟨a', b'⟩, ha'⟩ h
  simp only at ha ha'
  simp only [nextWords, words, masked, nextState, Subtype.mk.injEq, Prod.mk.injEq, ha, ha'] at h
  obtain ⟨hfirst, hsecond⟩ := h
  have hword := eq_of_second_word hsecond
  rw [hword] at hfirst
  have hxor : a ^^^ b = a' ^^^ b' := nextWord_injective hword
  have hb : b = b' := by
    apply BitVec.eq_of_getLsbD_eq
    intro i hi
    by_cases hlow : i < 63
    · have hbit := congrArg (BitVec.getLsbD · i) hfirst
      simp only [BitVec.getLsbD_and, BitVec.getLsbD_xor, getLsbD_mask hi, hlow, decide_true,
        Bool.and_true] at hbit
      exact Bool.xor_left_inj.mp hbit
    · have hbit := congrArg (BitVec.getLsbD · i) hxor
      rw [← ha, ← ha'] at hbit
      simp only [BitVec.getLsbD_and, BitVec.getLsbD_xor, getLsbD_mask hi, hlow, decide_false,
        Bool.and_false, Bool.false_xor] at hbit
      exact hbit
  subst hb
  have ha := (BitVec.xor_left_inj _).mp hxor
  subst ha
  rfl

/-! ### Draws and words -/

theorem nextState_masked (t : TinyMT64) : nextState { t with status := t.masked } = nextState t := by
  simp only [nextState, t.masked_masked]
  rfl

theorem after_succ (t : TinyMT64) (k : ℕ) : t.after (k + 1) = nextState (t.after k) :=
  iterate_succ_apply' ..

/-- Only the state changes. -/
theorem exists_after (t : TinyMT64) (k : ℕ) : ∃ status, t.after k = { t with status } := by
  induction k with
  | zero => exact ⟨t.status, rfl⟩
  | succ k ih =>
    obtain ⟨status, h⟩ := ih
    rw [after_succ, h]
    exact ⟨_, rfl⟩

theorem nextState_after (t : TinyMT64) (k : ℕ) :
    nextState { t with status := (t.after k).words } = nextState (t.after k) := by
  obtain ⟨status, h⟩ := t.exists_after k
  rw [← nextState_masked (t.after k), h]
  rfl

theorem words_after (t : TinyMT64) (k : ℕ) : (t.after k).words = t.nextWords^[k] t.words := by
  induction k with
  | zero => rfl
  | succ k ih => rw [iterate_succ_apply', ← ih, after_succ, nextWords, nextState_after]

theorem draw_eq (t : TinyMT64) (k : ℕ) :
    t.draw k = temper (nextState { t with status := t.nextWords^[k] t.words }) := by
  rw [← words_after, nextState_after]
  rfl

/-! ### The zero state -/

def zeroWords : Words := ⟨(0, 0), by decide⟩

theorem nextWords_zeroWords (t : TinyMT64) : t.nextWords zeroWords = zeroWords := by
  simp [nextWords, words, masked, nextState, nextWord, zeroWords]

/-- A generator with the zero state would draw zero for ever. -/
theorem draw_of_zeroWords (h : t.words = zeroWords) (k : ℕ) : t.draw k = 0 := by
  rw [draw_eq, h, iterate_fixed t.nextWords_zeroWords]
  simp [nextState, nextWord, zeroWords, temper]

theorem words_init (t : TinyMT64) (seed : BitVec 64) : (init t seed).words ≠ zeroWords := by
  intro h
  have hmasked : (init t seed).masked = (0, 0) := congrArg Subtype.val h
  unfold init periodCertification at hmasked
  split at hmasked
  · exact absurd hmasked (by simp [masked, mask])
  · rename_i hzero
    exact hzero (Prod.mk.injEq .. ▸ hmasked)

/-- With any parameters and any seed, the generator never comes to the zero state, and its draws are
periodic from the first one on. -/
theorem tinymt_never_stuck (t : TinyMT64) (seed : BitVec 64) :
    (∀ k, ((init t seed).after k).words ≠ zeroWords) ∧
      ∃ p > 0, ∀ k, (init t seed).draw (k + p) = (init t seed).draw k := by
  constructor
  · intro k h
    apply words_init t seed
    apply (nextWords_injective (init t seed)).iterate k
    rw [← words_after, h, iterate_fixed (nextWords_zeroWords _)]
  · have : Finite (BitVec 64) := .of_equiv _ BitVec.equivFin.symm.toEquiv
    obtain ⟨p, hp, hperiod⟩ :=
      mem_periodicPts.mp ((nextWords_injective (init t seed)).mem_periodicPts (init t seed).words)
    refine ⟨p, hp, fun k => ?_⟩
    rw [draw_eq, draw_eq, iterate_add_apply, hperiod.eq]

end TinyMT64

end Titus.VictimSelector

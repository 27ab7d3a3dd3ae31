import Mathlib.Algebra.Group.Pi.Basic
import Mathlib.Algebra.Group.Prod
import Mathlib.Data.BitVec

/-! The classes of the entries of a logger: counters, timers, and timers with a histogram of the
intervals that they measure. -/

namespace Titus.Logger

/-- The virtual functions of an entry, and the value that `aggregate` adds up.  `finalize` is given
the time that it reads. -/
class EntryClass (E : Type*) (V : outParam (Type*)) [AddMonoid V] where
  reset : E → E
  finalize : BitVec 64 → E → E
  aggregate : E → E → E
  value : E → V
  value_aggregate : ∀ e arg, value (aggregate e arg) = value e + value arg

export EntryClass (reset finalize aggregate value value_aggregate)

/-- An entry that is incremented, and that `finalize` leaves as it is. -/
class CounterClass (E : Type*) (V : outParam (Type*)) [AddMonoid V] [EntryClass E V] where
  /-- `count += x`, through the conversion to `counter_t &`. -/
  add : V → E → E
  value_add : ∀ x (e : E), value (add x e) = value e + x
  value_finalize : ∀ now (e : E), value (finalize now e) = value e

/-- `TITUS_Logger_Entry_counter`. -/
structure Counter (V : Type*) where
  initVal : V
  count : V
deriving DecidableEq

namespace Counter

variable {V : Type*} [AddMonoid V]

def add (x : V) (c : Counter V) : Counter V := { c with count := c.count + x }

instance : EntryClass (Counter V) V where
  reset c := { c with count := c.initVal }
  finalize _ c := c
  aggregate c arg := c.add arg.count
  value := count
  value_aggregate _ _ := rfl

instance : CounterClass (Counter V) V where
  add := add
  value_add _ _ := rfl
  value_finalize _ _ := rfl

end Counter

/-- `TITUS_Logger_Entry_Timer_ns`. -/
structure TimerNs extends Counter (BitVec 64) where
  lastStart : BitVec 64
  lastStop : BitVec 64
deriving DecidableEq

namespace TimerNs

/-- The time to add at `now`, if the timer is running. -/
def elapsed (now : BitVec 64) (t : TimerNs) : BitVec 64 :=
  if t.lastStop < t.lastStart then now - t.lastStart else 0

def start (now : BitVec 64) (t : TimerNs) : TimerNs :=
  { t with count := t.count + t.elapsed now, lastStart := now }

def stop (now : BitVec 64) (t : TimerNs) : TimerNs :=
  { t with count := t.count + t.elapsed now, lastStop := now }

instance : EntryClass TimerNs (BitVec 64) where
  reset t := { t with count := t.initVal }
  finalize := stop
  aggregate t arg := { t with count := t.count + arg.count }
  value t := t.count
  value_aggregate _ _ := rfl

end TimerNs

/-- `TITUS_Logger_Entry_Timer_ns_pow_histogram`.  `bucket` is the place of an interval in the
histogram, as its `power` and its `start` give it. -/
structure TimerNsPowHistogram (size : ℕ) extends TimerNs where
  bucket : BitVec 64 → Fin size
  histogram : Fin size → BitVec 64

namespace TimerNsPowHistogram

variable {size : ℕ}

/-- `histogram.insert`, if the timer is running. -/
def insert (now : BitVec 64) (t : TimerNsPowHistogram size) : Fin size → BitVec 64 :=
  if t.lastStop < t.lastStart then
    Function.update t.histogram (t.bucket (now - t.lastStart))
      (t.histogram (t.bucket (now - t.lastStart)) + 1)
  else t.histogram

def start (now : BitVec 64) (t : TimerNsPowHistogram size) : TimerNsPowHistogram size :=
  { t with toTimerNs := t.toTimerNs.start now, histogram := t.insert now }

def stop (now : BitVec 64) (t : TimerNsPowHistogram size) : TimerNsPowHistogram size :=
  { t with toTimerNs := t.toTimerNs.stop now, histogram := t.insert now }

/-- `finalize` stops the timer without an insertion in the histogram. -/
instance : EntryClass (TimerNsPowHistogram size) (BitVec 64 × (Fin size → BitVec 64)) where
  reset t := { t with count := t.initVal, histogram := 0 }
  finalize now t := { t with toTimerNs := t.toTimerNs.stop now }
  aggregate t arg := { t with
    count := t.count + arg.count, histogram := t.histogram + arg.histogram }
  value t := (t.count, t.histogram)
  value_aggregate _ _ := rfl

end TimerNsPowHistogram

end Titus.Logger

import Mathlib.Data.Nat.Basic

/-! Field offsets of a C++ object: every field at the next multiple of its alignment, and the size
rounded up to the alignment of the whole. -/

namespace StructLayout

/-- The size and the alignment of a field, in bytes. -/
structure Field where
  size : Nat
  align : Nat
deriving DecidableEq

/-- An integer, enumeration or pointer of `size` bytes. -/
def scalar (size : Nat) : Field := ⟨size, size⟩

def alignUp (x align : Nat) : Nat := (x + align - 1) / align * align

/-- The offset just past fields laid out one after the other from `start` on. -/
def layoutEnd (start : Nat) : List Field → Nat
  | [] => start
  | f :: fs => layoutEnd (alignUp start f.align + f.size) fs

/-- The offset of field `i`. -/
def offsetOf (fields : List Field) (i : Nat) : Nat :=
  match fields[i]? with
  | some f => alignUp (layoutEnd 0 (fields.take i)) f.align
  | none => layoutEnd 0 fields

def alignOf (fields : List Field) : Nat := fields.foldl (fun a f => max a f.align) 1

def sizeOf (fields : List Field) : Nat := alignUp (layoutEnd 0 fields) (alignOf fields)

end StructLayout

import Mathlib.Data.List.GetD

/-!
# Files as byte arrays

What a file is for: a size and a byte at every position.
-/

namespace CosmoRT.Fs

/-- A file: its size and its bytes. -/
structure ByteFile where
  size : ℕ
  byte : ℕ → UInt8

namespace ByteFile

def empty : ByteFile := ⟨0, fun _ => 0⟩

/-- The bytes `src` from `offset` on. -/
def write (f : ByteFile) (offset : ℕ) (src : List UInt8) : ByteFile where
  size := max f.size (offset + src.length)
  byte p := if offset ≤ p ∧ p < offset + src.length then src.getD (p - offset) 0 else f.byte p

/-- Up to `len` bytes from `offset` on, none past the end. -/
def read (f : ByteFile) (offset len : ℕ) : List UInt8 :=
  (List.range (min len (f.size - offset))).map fun k => f.byte (offset + k)

/-- The first `size` bytes; what the file is longer now is zero. -/
def resize (f : ByteFile) (size : ℕ) : ByteFile where
  size := size
  byte p := if p < size then f.byte p else 0

end ByteFile

end CosmoRT.Fs

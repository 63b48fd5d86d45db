import NvmeVirt.Lib.Interleaving

/-!
# Write buffers

A write reserves space in a write buffer when it is accepted, and an internal
operation of the I/O workers gives space back when the flash operation it stands
for completes.
-/

namespace NvmeVirt.Ftl

structure Buffer where
  size : ℕ
  remaining : ℕ
  deriving DecidableEq

def bufferInit (size : ℕ) : Buffer := ⟨size, size⟩

/-- Reserves all of the bytes or none; the kernel stops on a request larger than
the buffer. -/
def bufferAllocate (buf : Buffer) (size : ℕ) : Option (ℕ × Buffer) :=
  if buf.size < size then none
  else
    let size := if buf.remaining < size then 0 else size
    some (size, { buf with remaining := buf.remaining - size })

def bufferRelease (buf : Buffer) (size : ℕ) : Buffer :=
  { buf with remaining := buf.remaining + size }

def bufferRefill (buf : Buffer) : Buffer := { buf with remaining := buf.size }

theorem bufferAllocate_cases {buf buf' : Buffer} {size allocated : ℕ}
    (hallocate : bufferAllocate buf size = some (allocated, buf')) :
    size ≤ buf.size ∧
      ((buf.remaining < size ∧ allocated = 0 ∧ buf' = buf) ∨
        (size ≤ buf.remaining ∧ allocated = size ∧
          buf' = { buf with remaining := buf.remaining - size })) := by
  unfold bufferAllocate at hallocate
  split at hallocate
  · cases hallocate
  rename_i hsize
  refine ⟨not_lt.mp hsize, ?_⟩
  by_cases hremaining : buf.remaining < size
  · simp only [if_pos hremaining, Nat.sub_zero] at hallocate
    cases hallocate
    exact .inl ⟨hremaining, rfl, rfl⟩
  · simp only [if_neg hremaining] at hallocate
    cases hallocate
    exact .inr ⟨not_lt.mp hremaining, rfl, rfl⟩

theorem bufferAllocate_of_le {buf : Buffer} {size : ℕ}
    (hsize : size ≤ buf.size) (hremaining : size ≤ buf.remaining) :
    bufferAllocate buf size =
      some (size, { buf with remaining := buf.remaining - size }) := by
  simp only [bufferAllocate, if_neg (not_lt.mpr hsize),
    if_neg (not_lt.mpr hremaining)]

end NvmeVirt.Ftl

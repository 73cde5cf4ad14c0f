import NexusLOB.Codec.LittleEndian

/-!
# Buffers filled in place

A buffer is allocated with some size and filled at an offset that moves on with every field. A field
that does not fit makes the buffer grow. A buffer that was allocated with the size of its fields
holds them one after the other, and nothing else.
-/

namespace NexusLOB.Codec

/-- Bytes written one by one, from an offset on. -/
def setBytes : List UInt8 → Nat → List UInt8 → List UInt8
  | buf, _, [] => buf
  | buf, off, b :: bs => setBytes (buf.set off b) (off + 1) bs

theorem setBytes_append (done : List UInt8) {old bs : List UInt8} (h : bs.length ≤ old.length) :
    setBytes (done ++ old) done.length bs = done ++ bs ++ old.drop bs.length := by
  induction bs generalizing done old with
  | nil =>
    rw [setBytes, List.append_nil]
    rfl
  | cons b bs ih =>
    cases old with
    | nil => exact absurd h (Nat.not_succ_le_zero _)
    | cons x old =>
      have hnext := ih (done ++ [b]) (Nat.le_of_succ_le_succ h)
      rw [List.length_append, List.length_singleton, List.append_assoc, List.singleton_append]
        at hnext
      rw [setBytes, List.set_append_right _ _ (Nat.le_refl _), Nat.sub_self, List.set_cons_zero,
        hnext]
      simp only [List.append_assoc, List.cons_append, List.nil_append, List.length_cons,
        List.drop_succ_cons]

structure Buffer where
  buf : List UInt8
  off : Nat
  deriving DecidableEq, Repr

namespace Buffer

def alloc (size : Nat) : Buffer := { buf := List.replicate size 0, off := 0 }

/-- Make room for a field at the offset and write it there. -/
def put (b : Buffer) (field : List UInt8) : Buffer :=
  let buf := b.buf ++ List.replicate (b.off + field.length - b.buf.length) 0
  { buf := setBytes buf b.off field, off := b.off + field.length }

def putU8 (b : Buffer) (v : UInt8) : Buffer := b.put [v]

def putU32 (b : Buffer) (v : UInt32) : Buffer := b.put (Codec.putU32 v)

def putU64 (b : Buffer) (v : UInt64) : Buffer := b.put (Codec.putU64 v)

def putI64 (b : Buffer) (v : Int64) : Buffer := b.putU64 v.toUInt64

/-- The length and then the bytes, each with its own check for room. -/
def putStr (b : Buffer) (s : List UInt8) : Buffer := (b.putU32 (UInt32.ofNat s.length)).put s

/-- The bytes before the offset, and how many there are in all. -/
structure Holds (b : Buffer) (done : List UInt8) (size : Nat) : Prop where
  off : b.off = done.length
  front : done <+: b.buf
  size : b.buf.length = size

theorem holds_alloc (size : Nat) : (alloc size).Holds [] size :=
  ⟨rfl, List.nil_prefix, List.length_replicate⟩

theorem Holds.put {b : Buffer} {done : List UInt8} {size : Nat} (h : b.Holds done size)
    (field : List UInt8) :
    (b.put field).Holds (done ++ field) (max size (done.length + field.length)) := by
  obtain ⟨old, hold⟩ := h.front
  have hsize : done.length + old.length = size := by
    rw [← h.size, ← hold, List.length_append]
  have hput : (b.put field).buf =
      done ++ field ++ (old ++ List.replicate (b.off + field.length - b.buf.length) 0).drop
        field.length := by
    rw [Buffer.put, ← hold, h.off, List.append_assoc]
    dsimp only
    apply setBytes_append
    rw [List.length_append, List.length_replicate, List.length_append]
    omega
  refine ⟨?_, ?_, ?_⟩
  · rw [Buffer.put, h.off, List.length_append]
  · rw [hput]
    exact List.prefix_append _ _
  · rw [hput, List.length_append, List.length_append, List.length_drop, List.length_append,
      List.length_replicate, h.size, h.off]
    omega

theorem Holds.eq {b : Buffer} {done : List UInt8} (h : b.Holds done done.length) : b.buf = done :=
  (h.front.eq_of_length h.size.symm).symm

theorem Holds.foldl_put {b : Buffer} {done : List UInt8} {size : Nat} (h : b.Holds done size)
    (fields : List (List UInt8)) :
    (fields.foldl Buffer.put b).Holds (done ++ fields.flatten)
      (max size (done.length + fields.flatten.length)) := by
  induction fields generalizing b done size with
  | nil =>
    have hle : done.length ≤ size := h.size ▸ h.front.length_le
    rw [List.flatten_nil, List.append_nil, List.length_nil, Nat.add_zero, Nat.max_eq_left hle]
    exact h
  | cons field fields ih =>
    have hnext := ih (h.put field)
    have hsize : max (max size (done.length + field.length))
        ((done ++ field).length + fields.flatten.length) =
        max size (done.length + (field ++ fields.flatten).length) := by
      rw [List.length_append, List.length_append]
      omega
    rw [hsize, List.append_assoc] at hnext
    exact hnext

/-- A buffer that was allocated with the room its fields take holds exactly them. -/
theorem buf_foldl_put (fields : List (List UInt8)) {size : Nat}
    (hsize : fields.flatten.length = size) :
    (fields.foldl put (alloc size)).buf = fields.flatten := by
  have hall := (holds_alloc size).foldl_put fields
  rw [List.nil_append, List.length_nil, Nat.zero_add, hsize, Nat.max_self, ← hsize] at hall
  rw [← hsize]
  exact hall.eq

end Buffer

end NexusLOB.Codec

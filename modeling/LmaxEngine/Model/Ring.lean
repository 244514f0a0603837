import LmaxEngine.Lib.Sequencing
import LmaxEngine.Model.Order

/-!
# Rings and their slots

`ring_buffer/ringBuffer.rs`, `buffer_slot` and `sequence`.  A sequence number is
an `i64`; here it is an `Int`, and what is proved of it holds as long as fewer
than `2 ^ 63` messages are published.  The buffer has one cell for each index; a
cell that was never written is `none`.
-/

namespace LmaxEngine

/-- `i64::MAX` -/
def i64Max : Int := 2 ^ 63 - 1

/-- `[u8; 256]` -/
abbrev RawBytes := Vector UInt8 256

structure InputSlot where
  rawBytes : RawBytes
  len : Nat
  command : Option Command
  timestampNs : UInt64
deriving DecidableEq, Repr

/-- `&slot.raw_bytes[..slot.len]` -/
def InputSlot.bytes (slot : InputSlot) : List UInt8 :=
  slot.rawBytes.toList.take slot.len

/-- The slot that `SingleProducer::publish` writes: at most 256 bytes of the
message, and no command. -/
def InputSlot.ofRaw (raw : List UInt8) (timestampNs : UInt64) : InputSlot where
  rawBytes := Vector.ofFn fun i => raw.getD i 0
  len := min raw.length 256
  command := none
  timestampNs := timestampNs

@[simp] theorem InputSlot.bytes_ofRaw
    (raw : List UInt8) (timestampNs : UInt64) :
    (InputSlot.ofRaw raw timestampNs).bytes = raw.take 256 := by
  refine List.ext_getElem ?_ fun i h1 h2 => ?_
  · simp only [bytes, ofRaw, List.length_take, Vector.length_toList]
    omega
  · have hlt : i < raw.length := by
      rw [List.length_take] at h2
      omega
    simp [bytes, ofRaw, List.getElem?_eq_getElem hlt]

structure OutputSlot where
  event : Option OutputEvent
  timestampNs : UInt64
deriving DecidableEq, Repr

structure RingBuffer (α : Type) where
  buffer : Nat → Option α
  mask : Nat
  cursor : Int

/-- `RingBuffer::new`; it aborts unless the capacity is a power of two. -/
def RingBuffer.new {α : Type} (capacity : Nat) : RingBuffer α where
  buffer := fun _ => none
  mask := capacity - 1
  cursor := -1

namespace RingBuffer

variable {α : Type} (r : RingBuffer α)

def capacity : Nat :=
  r.mask + 1

/-- `(seq as usize) & self.mask` -/
def index (seq : Int) : Nat :=
  (seq % 2 ^ 64).toNat &&& r.mask

/-- What the slot of a sequence number holds. -/
def slotRef (seq : Int) : Option α :=
  r.buffer (r.index seq)

/-- Write the slot of a sequence number. -/
def write (seq : Int) (slot : α) : RingBuffer α :=
  { r with buffer := Function.update r.buffer (r.index seq) (some slot) }

/-- The indices whose slots `drop` drops, one after the other. -/
def dropped : List Nat :=
  if r.cursor < 0 then
    []
  else
    List.range (min ((r.cursor % 2 ^ 64).toNat + 1) r.capacity)

variable {r} {k : Nat}

theorem capacity_eq
    (hmask : r.mask = 2 ^ k - 1) :
    (r.capacity : Int) = 2 ^ k := by
  rw [capacity, hmask, Nat.sub_add_cancel (Nat.two_pow_pos k)]
  push_cast
  rfl

theorem index_eq
    (hmask : r.mask = 2 ^ k - 1) :
    r.index = fun n => (n % 2 ^ 64).toNat &&& (2 ^ k - 1) := by
  funext n
  rw [index, hmask]

/-- The indices of a ring spread over its cells. -/
theorem spread_index
    (hmask : r.mask = 2 ^ k - 1) :
    Sequencing.Spread r.index (2 ^ k) (2 ^ 63) := by
  rw [index_eq hmask]
  exact Sequencing.spread_mask k

/-- The same without a limit, for a capacity that fits into a `usize`. -/
theorem spread_index_of_lt
    (hmask : r.mask = 2 ^ k - 1) (hk : k < 64) (limit : Int) :
    Sequencing.Spread r.index (2 ^ k) limit := by
  rw [index_eq hmask]
  exact Sequencing.spread_mask_of_le hk.le limit

end RingBuffer

end LmaxEngine

/-!
# Capture slots

Where a match and its groups begin and end is kept in slots, two for each group; a slot that
nothing was written to is unset. Threads hold their slots in buffers, which a pool hands out and
takes back, so that a search that runs for long does not make new buffers all the time.

- `Slots`: a row of slots.
- `Slots.paired`: how many slots there are if there have to be at least so many.
- `Buffer`: slots with the serial number of the buffer that holds them.
- `Pool`: the buffers that are not in use.
- `Pool.take`, `Pool.release`, `Pool.resize`: what can be done with a pool.
-/

namespace Lockstep

/-- A row of capture slots; an unset slot is `none`. -/
abbrev Slots := Array (Option Nat)

namespace Slots

/-- The least even number that is not less than `count`, since slots come in pairs. It has 64 bits,
and where these are too few it is zero. -/
def paired (count : Nat) : Nat := 2 * ((count + 1) % UInt64.size / 2)

theorem paired_of_lt {count : Nat} (h : count + 1 < UInt64.size) :
    paired count = 2 * ((count + 1) / 2) := by
  rw [paired, Nat.mod_eq_of_lt h]

theorem paired_lt (count : Nat) : paired count + 1 < UInt64.size := by
  unfold paired UInt64.size
  omega

/-- Behind the greatest number of 64 bits comes zero. -/
example : paired (UInt64.size - 1) = 0 := rfl

theorem lt_paired {slot : Nat} (h : slot + 2 < UInt64.size) : slot < paired (slot + 1) := by
  rw [paired_of_lt h]
  omega

/-- A number that has been rounded up stays as it is. -/
@[simp] theorem paired_paired (count : Nat) : paired (paired count) = paired count := by
  rw [paired_of_lt (paired_lt count)]
  unfold paired
  omega

/-- A row of unset slots. -/
def unset (width : Nat) : Slots := Array.replicate width none

/-- A row of `width` slots: slots are dropped from the end, or unset ones are added there. -/
def resize (slots : Slots) (width : Nat) : Slots :=
  slots.extract 0 width ++ unset (width - slots.size)

/-- Where the whole match starts. -/
def start? (slots : Slots) : Option Nat := slots[0]?.join

/-- Where the whole match ends. -/
def stop? (slots : Slots) : Option Nat := slots[1]?.join

@[simp] theorem size_unset (width : Nat) : (unset width).size = width := by
  simp [unset]

@[simp] theorem size_resize (slots : Slots) (width : Nat) : (slots.resize width).size = width := by
  simp only [resize, Array.size_append, Array.size_extract, size_unset]
  omega

/-- A slot that is there has what was written to it. -/
theorem getElem?_setIfInBounds (slots : Slots) (slot : Nat) (value : Option Nat) :
    (slots.setIfInBounds slot value)[slot]? = slots[slot]?.map fun _ => value := by
  rw [Array.getElem?_setIfInBounds_self]
  split
  · next h => rw [Array.getElem?_eq_getElem h, Option.map_some]
  · next h => rw [Array.getElem?_eq_none (Nat.le_of_not_lt h), Option.map_none]

end Slots

/-- A buffer of capture slots. -/
structure Buffer where
  /-- The number under which the pool made the buffer. -/
  serial : Nat
  /-- What is in the buffer. -/
  slots : Slots
  deriving DecidableEq, Repr

namespace Buffer

/-- Writes one slot; a slot that the buffer does not have is not written. -/
def set (b : Buffer) (slot : Nat) (value : Option Nat) : Buffer :=
  { b with slots := b.slots.setIfInBounds slot value }

/-- Puts other slots into the buffer. -/
def fill (b : Buffer) (slots : Slots) : Buffer := { b with slots }

/-- Makes the buffer that of a match that starts at `pos` and has no groups yet. -/
def startAt (b : Buffer) (pos : Nat) : Buffer :=
  (b.fill (Slots.unset b.slots.size)).set 0 (some pos)

@[simp] theorem serial_set (b : Buffer) (slot : Nat) (value : Option Nat) :
    (b.set slot value).serial = b.serial := rfl

@[simp] theorem size_set (b : Buffer) (slot : Nat) (value : Option Nat) :
    (b.set slot value).slots.size = b.slots.size := by
  simp [set]

@[simp] theorem serial_fill (b : Buffer) (slots : Slots) : (b.fill slots).serial = b.serial := rfl

@[simp] theorem slots_fill (b : Buffer) (slots : Slots) : (b.fill slots).slots = slots := rfl

@[simp] theorem serial_startAt (b : Buffer) (pos : Nat) : (b.startAt pos).serial = b.serial := rfl

@[simp] theorem size_startAt (b : Buffer) (pos : Nat) :
    (b.startAt pos).slots.size = b.slots.size := by
  simp [startAt]

end Buffer

/-- The buffers that are not in use. -/
structure Pool where
  /-- The buffers, the one to be handed out next first. -/
  free : List Buffer
  /-- How many slots a new buffer has. -/
  width : Nat
  /-- How many buffers have ever been made. -/
  created : Nat
  deriving DecidableEq, Repr

namespace Pool

/-- A pool that has made no buffers yet. -/
def empty (width : Nat) : Pool := { free := [], width, created := 0 }

/-- How many buffers are not in use. -/
def available (pool : Pool) : Nat := pool.free.length

/-- Hands out a buffer: the one that came back last, or else a new one. What is in it is of no
use. -/
def take (pool : Pool) : Buffer × Pool :=
  match pool.free with
  | b :: free => (b, { pool with free })
  | [] => (⟨pool.created, Slots.unset pool.width⟩, { pool with created := pool.created + 1 })

/-- Takes a buffer back. -/
def release (pool : Pool) (b : Buffer) : Pool := { pool with free := b :: pool.free }

/-- Changes how many slots the buffers have, those in the pool included. -/
def resize (pool : Pool) (width : Nat) : Pool :=
  if width = pool.width then pool
  else { pool with width, free := pool.free.map fun b => b.fill (b.slots.resize width) }

@[simp] theorem width_take (pool : Pool) : pool.take.2.width = pool.width := by
  unfold take
  split <;> rfl

@[simp] theorem width_release (pool : Pool) (b : Buffer) :
    (pool.release b).width = pool.width := rfl

@[simp] theorem width_resize (pool : Pool) (width : Nat) : (pool.resize width).width = width := by
  unfold resize
  split <;> simp_all

end Pool

end Lockstep

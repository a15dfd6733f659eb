import PegMachine.CharSet
import PegMachine.Error
import PegMachine.Text.Utf8
/-!
  Reading bytecode from the front.

  A reader knows how many bytes it has read and what is left. Every read names the field that it is for.
  A read that needs more bytes than are left fails with `truncated` at the end of the bytes and leaves the
  reader where it was. A string is a 32-bit length and that many bytes, and its two reads come one after
  the other: if the second fails the reader stands behind the length.

  Correspondence (program ↔ here):
    `ByteReader`, `new`, `remaining`    ↔ `Reader`, `ofBytes`, `remaining`
    `read_bytes`, `read_array`          ↔ `bytes`, `number`
    `read_u8` to `read_u64`             ↔ `u8`, `u16`, `u32`, `u64`
    `read_set`, `read_str`, `read_utf8` ↔ `set`, `str`, `utf8`
-/
namespace PegMachine

structure Reader where
  /-- How many bytes have been read. -/
  pos : Nat
  rest : Bytes
  deriving DecidableEq, Repr

/-- A read: it gives a value or an error and says where the reader stands in either case. -/
abbrev Read := EStateM LoadError Reader

namespace Reader

def ofBytes (bytes : Bytes) : Reader := ⟨0, bytes⟩

def remaining (r : Reader) : Nat := r.rest.length

/-- Where the bytes end. -/
def stop (r : Reader) : Nat := r.pos + r.remaining

/-- Reads `count` bytes. -/
def bytes (count : Nat) (wanted : String) : Read Bytes := fun r =>
  let front := r.rest.take count
  if front.length = count then .ok front ⟨r.pos + count, r.rest.drop count⟩
  else .error (.truncated r.stop wanted) r

/-- Reads a number of `width` bytes. -/
def number (width : Nat) (wanted : String) : Read Nat := ofBigEndian <$> bytes width wanted

def u8 (wanted : String) : Read UInt8 := UInt8.ofNat <$> number 1 wanted

def u16 (wanted : String) : Read UInt16 := UInt16.ofNat <$> number 2 wanted

def u32 (wanted : String) : Read UInt32 := UInt32.ofNat <$> number 4 wanted

def u64 (wanted : String) : Read UInt64 := UInt64.ofNat <$> number 8 wanted

/-- Reads the wire form of a set. -/
def set (wanted : String) : Read Bytes := bytes CharSet.encodedLength wanted

/-- Reads a string. -/
def str (wanted : String) : Read Bytes := do
  let length ← u32 wanted
  bytes length.toNat wanted

/-- Reads a string that has to be UTF-8. -/
def utf8 (wanted : String) : Read String := do
  let offset := (← get).pos
  match Text.decode? (← str wanted) with
  | some text => pure text
  | none => throw (.invalidUtf8 wanted offset)

/-- Adds `count` items to those read so far. -/
def timesFrom {α : Type} (item : Read α) : (count : Nat) → Array α → Read (Array α)
  | 0, items => pure items
  | count + 1, items => do
    let next ← item
    timesFrom item count (items.push next)

/-- Reads `count` items one after the other. -/
def times {α : Type} (count : Nat) (item : Read α) : Read (Array α) := timesFrom item count #[]

end Reader

end PegMachine

/-! Hash mixing on 32-bit words. A hash is a seedless stirring of four-byte
blocks, closed by a finish that depends on how much was stirred in. Sequences
fold the hashes of their elements so that position matters; maps and sets add
them up, so that it does not. -/

namespace LispRuntime.Hash

def rotateLeft (word amount : UInt32) : UInt32 :=
  (word <<< amount) ||| (word >>> (32 - amount))

def spreadBlock (block : UInt32) : UInt32 :=
  rotateLeft (block * 0xcc9e2d51) 15 * 0x1b873593

def absorb (state block : UInt32) : UInt32 :=
  rotateLeft (state ^^^ spreadBlock block) 13 * 5 + 0xe6546b64

def finish (state length : UInt32) : UInt32 :=
  let mixed := state ^^^ length
  let mixed := (mixed ^^^ (mixed >>> 16)) * 0x85ebca6b
  let mixed := (mixed ^^^ (mixed >>> 13)) * 0xc2b2ae35
  mixed ^^^ (mixed >>> 16)

/-! Zero is its own hash, for words and for integers alike. -/

def ofWord (word : UInt32) : UInt32 :=
  if word == 0 then 0 else finish (absorb 0 word) 4

def ofBits (bits : UInt64) : UInt32 :=
  if bits == 0 then 0
  else finish (absorb (absorb 0 bits.toUInt32) (bits >>> 32).toUInt32) 8

def ofInteger (value : Int64) : UInt32 :=
  ofBits value.toUInt64

/-- Reads up to four bytes as one block, least significant first. -/
def littleEndian : List UInt8 → UInt32
  | [] => 0
  | byte :: rest => byte.toUInt32 ||| (littleEndian rest <<< 8)

/-- Absorbs whole blocks of four bytes. What is left over at the end only
joins the state, without the rotation that a whole block gets. -/
def absorbBytes (state : UInt32) : List UInt8 → UInt32
  | first :: second :: third :: fourth :: rest =>
      absorbBytes (absorb state (littleEndian [first, second, third, fourth])) rest
  | [] => state
  | tail => state ^^^ spreadBlock (littleEndian tail)

def ofBytes (bytes : List UInt8) : UInt32 :=
  finish (absorbBytes 0 bytes) (UInt32.ofNat bytes.length)

def ofString (text : String) : UInt32 :=
  ofBytes text.toUTF8.data.toList

def combine (seed hash : UInt32) : UInt32 :=
  let shifted : UInt32 := (seed <<< 6) + (seed >>> 2)
  seed ^^^ (hash + 0x9e3779b9 + shifted)

def ofCount (hash count : UInt32) : UInt32 :=
  finish (absorb 0 hash) count

/-! A running fold over element hashes, together with how many there were. -/

structure Tally where
  hash : UInt32
  count : UInt32
deriving DecidableEq, Repr

namespace Tally

def close (tally : Tally) : UInt32 :=
  ofCount tally.hash tally.count

def startOrdered : Tally := ⟨1, 0⟩

def pushOrdered (tally : Tally) (element : UInt32) : Tally :=
  ⟨tally.hash * 31 + element, tally.count + 1⟩

def startUnordered : Tally := ⟨0, 0⟩

def pushUnordered (tally : Tally) (element : UInt32) : Tally :=
  ⟨tally.hash + element, tally.count + 1⟩

end Tally

def ordered (elements : List UInt32) : UInt32 :=
  (elements.foldl Tally.pushOrdered Tally.startOrdered).close

def unordered (elements : List UInt32) : UInt32 :=
  (elements.foldl Tally.pushUnordered Tally.startUnordered).close

def entry (key value : UInt32) : UInt32 :=
  ordered [key, value]

end LispRuntime.Hash

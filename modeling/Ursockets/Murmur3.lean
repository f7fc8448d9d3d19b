/-
# MurmurHash3, 32 bits

The vendored hash (`ext/murmur3`): the blocks of four bytes, the tail of up
to three, the finalization. The snapshot's checksums and the mugs of nouns
are made with it.

Key definition: `murmurHash3`.
-/
import Mathlib.Data.UInt

namespace Ursockets
namespace Murmur3

def rotl32 (x r : UInt32) : UInt32 := (x <<< r) ||| (x >>> (32 - r))

def fmix32 (h : UInt32) : UInt32 :=
  let h := h ^^^ (h >>> 16)
  let h := h * 0x85ebca6b
  let h := h ^^^ (h >>> 13)
  let h := h * 0xc2b2ae35
  h ^^^ (h >>> 16)

/-- Four bytes, least significant first. -/
def getblock (a b c d : UInt8) : UInt32 :=
  a.toUInt32 ^^^ (b.toUInt32 <<< 8) ^^^ (c.toUInt32 <<< 16) ^^^ (d.toUInt32 <<< 24)

/-- What a block or the tail adds to the hash. -/
def scramble (k1 : UInt32) : UInt32 := rotl32 (k1 * 0xcc9e2d51) 15 * 0x1b873593

/-- The body and the tail. -/
def body : UInt32 → List UInt8 → UInt32
  | h1, a :: b :: c :: d :: rest =>
    body (rotl32 (h1 ^^^ scramble (getblock a b c d)) 13 * 5 + 0xe6546b64) rest
  | h1, [] => h1
  | h1, [a] => h1 ^^^ scramble (getblock a 0 0 0)
  | h1, [a, b] => h1 ^^^ scramble (getblock a b 0 0)
  | h1, [a, b, c] => h1 ^^^ scramble (getblock a b c 0)

/-- `MurmurHash3_x86_32`. -/
def murmurHash3 (key : List UInt8) (seed : UInt32) : UInt32 :=
  fmix32 (body seed key ^^^ UInt32.ofNat key.length)

end Murmur3
end Ursockets

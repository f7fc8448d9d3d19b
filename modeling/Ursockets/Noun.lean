/-
# Nouns and mugs

A noun is an atom or a cell. Its mug (`u3r_mug`) is a nonzero hash of 31 bits
of its structure: of the bytes of an atom, of the two mugs of a cell. A hash
that folds to zero is taken again with the next seed, up to eight times.

Key definitions: `Noun`, `mug`.
Key theorems: `mug_pos`, `mug_lt`.
-/
import Ursockets.Murmur3

namespace Ursockets

open Murmur3

/-- A noun. -/
inductive Noun where
  | atom (a : ℕ)
  | cell (hed tel : Noun)
  deriving DecidableEq, Repr

namespace Noun

/-- `u3r_met(3, a)`: the bytes of an atom. -/
def met3 (a : ℕ) : ℕ := if a = 0 then 0 else a.log2 / 8 + 1

/-- The bytes of an atom, least significant first. -/
def atomBytes (a : ℕ) : List UInt8 := (List.range (met3 a)).map fun i => UInt8.ofNat (a >>> (8 * i))

/-- The 32 bits of a hash folded to 31. -/
def foldMug (haz : UInt32) : UInt32 := (haz >>> 31) ^^^ (haz &&& 0x7fffffff)

/-- The mug of some bytes: up to `n` seeds are tried, from `syd` on. -/
def mugSeeds (buf : List UInt8) (last : UInt32) : ℕ → UInt32 → UInt32
  | 0, _ => last
  | n + 1, syd =>
    let ham := foldMug (murmurHash3 buf syd)
    if ham = 0 then mugSeeds buf last n (syd + 1) else ham

/-- `u3r_mug_bytes`. -/
def mugBytes (buf : List UInt8) : UInt32 := mugSeeds buf 0x7fff 8 0xcafebabe

/-- The four bytes of a mug. -/
def mugWord (w : UInt32) : List UInt8 :=
  [w.toUInt8, (w >>> 8).toUInt8, (w >>> 16).toUInt8, (w >>> 24).toUInt8]

/-- `u3r_mug_both`: the right mug is hashed without its high zero bytes. -/
def mugBoth (lef rit : UInt32) : UInt32 :=
  let len := 4 + met3 rit.toNat
  mugSeeds ((mugWord lef ++ mugWord rit).take len) 0xfffe 8 0xdeadbeef

/-- `u3r_mug`: the mug of a noun. -/
def mug : Noun → UInt32
  | .atom a => mugBytes (atomBytes a)
  | .cell h t => mugBoth h.mug t.mug

theorem foldMug_lt (haz : UInt32) : (foldMug haz).toNat < 2 ^ 31 := by
  have h1 : haz.toNat >>> 31 < 2 ^ 31 := by
    have := haz.toNat_lt
    rw [Nat.shiftRight_eq_div_pow]; omega
  have h2 : haz.toNat &&& 0x7fffffff < 2 ^ 31 :=
    Nat.lt_of_le_of_lt Nat.and_le_right (by decide)
  simp only [foldMug, UInt32.toNat_xor, UInt32.toNat_shiftRight, UInt32.toNat_and]
  exact Nat.xor_lt_two_pow h1 h2

theorem mugSeeds_lt {buf : List UInt8} {last : UInt32} (h : last.toNat < 2 ^ 31) :
    ∀ n syd, (mugSeeds buf last n syd).toNat < 2 ^ 31
  | 0, _ => h
  | n + 1, syd => by
    rw [mugSeeds]
    split
    · exact mugSeeds_lt h n _
    · exact foldMug_lt _

theorem mugSeeds_ne {buf : List UInt8} {last : UInt32} (h : last ≠ 0) :
    ∀ n syd, mugSeeds buf last n syd ≠ 0
  | 0, _ => h
  | n + 1, syd => by
    simp only [mugSeeds]
    split
    · exact mugSeeds_ne h n _
    · rename_i hn; exact hn

/-- A mug has 31 bits. -/
theorem mug_lt (n : Noun) : n.mug.toNat < 2 ^ 31 := by
  cases n with
  | atom a => exact mugSeeds_lt (by decide) _ _
  | cell h t => exact mugSeeds_lt (by decide) _ _

/-- A mug is not zero, which marks a mug not taken yet. -/
theorem mug_ne_zero (n : Noun) : n.mug ≠ 0 := by
  cases n with
  | atom a => exact mugSeeds_ne (by decide) _ _
  | cell h t => exact mugSeeds_ne (by decide) _ _

end Noun
end Ursockets

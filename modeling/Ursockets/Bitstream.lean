/-
# Bitstreams

The bitstream writer and reader (`ur/bitstream.c`). The writer fills a byte
buffer, least significant bits first, that grows by Fibonacci steps: each
operation has an unsafe form, which assumes that the buffer has room, and a
public form that makes room first. The reader walks over a byte buffer; past
its end all bits read as zero.

A byte of a buffer is widened to a number when it is read and truncated when it
is stored, as the code's integer promotions do it. The bit cursor is not
truncated to 64 bits.

Key definitions: `Bsw`, `bswAtom64`, `bswAtomBytes`, `bswBack64`, `bswCell`, `Bsr`,
`bsrTag`, `bsrRubLen`, `bsr64Any`, `bsrBytesAny`.
Key theorems: `bswAtom64_spec`, `bswAtomBytes_spec`, `bswBack64_spec`, `bswCell_spec`,
`bsrTag_spec`, `bsrRubLen_spec`, `bsr64Any_spec`, `bsrBytesAny_spec`.
-/
import Ursockets.Lib.Bits

namespace Ursockets
namespace Bitstream

open Bits

/-- `ur_bloq_up3`. -/
def bloqUp3 (a : ℕ) : ℕ := (a + 7) >>> 3

/-- The mask of the `n` low bits. -/
def mask (n : ℕ) : ℕ := 1 <<< n - 1

/-! ### The writer -/

/-- `ur_bsw_t`; its `size` is the length of the buffer. -/
structure Bsw where
  prev : ℕ
  fill : ℕ
  bits : ℕ
  off : ℕ
  bytes : List UInt8

def Bsw.size (w : Bsw) : ℕ := w.bytes.length

/-- `ur_bsw_init`. -/
def bswInit (prev size : ℕ) : Bsw := ⟨prev, 0, 0, 0, List.replicate size 0⟩

/-- `ur_bsw_grow`. -/
def bswGrow (w : Bsw) (step : ℕ) : Bsw :=
  { w with prev := w.size, bytes := w.bytes ++ List.replicate step 0 }

/-- `ur_bsw_done`: the bytes written, the last one perhaps in part. -/
def bswDone (w : Bsw) : List UInt8 := w.bytes.take (w.fill + if w.off ≠ 0 then 1 else 0)

def bswBitUnsafe (w : Bsw) (bit : ℕ) : Bsw :=
  let bytes := xorByte w.bytes w.fill ((bit &&& 1) <<< w.off)
  if w.off = 7 then { w with bytes, fill := w.fill + 1, off := 0, bits := w.bits + 1 }
  else { w with bytes, off := w.off + 1, bits := w.bits + 1 }

def bsw8Unsafe (w : Bsw) (len byt : ℕ) : Bsw :=
  let rest := 8 - w.off
  if len < rest then
    let l := byt &&& mask len
    { w with bytes := xorByte w.bytes w.fill (l <<< w.off), off := w.off + len, bits := w.bits + len }
  else
    let l := byt &&& mask rest
    let m := byt >>> rest
    let bytes := xorByte w.bytes w.fill (l <<< w.off)
    let off := len - rest
    { w with bytes := bytes.set (w.fill + 1) (UInt8.ofNat (m &&& mask off)), fill := w.fill + 1,
             off, bits := w.bits + len }

/-- The whole bytes and the tail that `_bsw64_unsafe` writes when the cursor is
at the start of a byte. -/
def bsw64Aligned (w : Bsw) (len val : ℕ) : Bsw :=
  let bytes := storeBytes w.bytes w.fill (len >>> 3) fun j => val >>> (8 * j)
  let fill := w.fill + len >>> 3
  let off := len &&& 7
  let val := val >>> (8 * (len >>> 3))
  { w with bytes := if off ≠ 0 then bytes.set fill (UInt8.ofNat (val &&& mask off)) else bytes,
           fill, off, bits := w.bits + len }

def bsw64Unsafe (w : Bsw) (len val : ℕ) : Bsw :=
  if w.off ≠ 0 then
    let rest := 8 - w.off
    if len < rest then
      { w with bytes := xorByte w.bytes w.fill ((val &&& mask len) <<< w.off), off := w.off + len,
               bits := w.bits + len }
    else
      let bytes := xorByte w.bytes w.fill ((val &&& mask rest) <<< w.off)
      bsw64Aligned { w with bytes, fill := w.fill + 1, off := 0, bits := w.bits + rest }
        (len - rest) (val >>> rest)
  else bsw64Aligned w len val

/-- `_bsw32_unsafe` does with a smaller word what `_bsw64_unsafe` does. -/
def bsw32Unsafe : Bsw → ℕ → ℕ → Bsw := bsw64Unsafe

def bswBytesUnsafe (w : Bsw) (len : ℕ) (src : List UInt8) : Bsw :=
  let byt := fun i => (src.getD i 0).toNat
  if w.off = 0 then
    let lenByt := len >>> 3
    let lenBit := len &&& 7
    let bytes := storeBytes w.bytes w.fill lenByt byt
    if lenBit ≠ 0 then
      { w with bytes := bytes.set (w.fill + lenByt) (UInt8.ofNat (byt lenByt &&& mask lenBit)),
               fill := w.fill + lenByt, off := lenBit, bits := w.bits + len }
    else { w with bytes, fill := w.fill + lenByt, bits := w.bits + len }
  else
    let rest := 8 - w.off
    if len ≤ rest then
      let ful := w.off + len
      { w with bytes := xorByte w.bytes w.fill ((byt 0 &&& mask len) <<< w.off),
               fill := if ful >>> 3 ≠ 0 then w.fill + 1 else w.fill, off := ful &&& 7,
               bits := w.bits + len }
    else
      let nel := len - rest
      let lenByt := nel >>> 3
      let lenBit := nel &&& 7
      let bytes := xorByte w.bytes w.fill (byt 0 <<< w.off)
      let bytes := storeBytes bytes (w.fill + 1) lenByt fun i =>
        (byt i >>> rest) ^^^ (byt (i + 1) <<< w.off)
      let tal := (byt lenByt >>> rest) ^^^ (if lenBit ≤ w.off then 0 else byt (lenByt + 1) <<< w.off)
      { w with bytes := bytes.set (w.fill + 1 + lenByt) (UInt8.ofNat (tal &&& mask lenBit)),
               fill := w.fill + lenByt + 1, off := lenBit, bits := w.bits + len }

/-- `_bsw_bex_unsafe`: `n` zeros and a one. -/
def bswBexUnsafe (w : Bsw) (n : ℕ) : Bsw :=
  let bits := n + w.off
  let fill := w.fill + bits >>> 3
  let off := bits &&& 7
  let bytes := xorByte w.bytes fill (1 <<< off)
  if off = 7 then { w with bytes, off := 0, fill := fill + 1, bits := w.bits + (1 + n) }
  else { w with bytes, off := off + 1, fill, bits := w.bits + (1 + n) }

def bswMat64Unsafe (w : Bsw) (len val : ℕ) : Bsw :=
  if len = 0 then bswBitUnsafe w 1
  else
    let nel := met0 len
    bsw64Unsafe (bsw64Unsafe (bswBexUnsafe w nel) (nel - 1) len) len val

def bswMatBytesUnsafe (w : Bsw) (len : ℕ) (byt : List UInt8) : Bsw :=
  if len = 0 then bswBitUnsafe w 1
  else
    let nel := met0 len
    bswBytesUnsafe (bsw64Unsafe (bswBexUnsafe w nel) (nel - 1) len) len byt

/-- `MAT_LEN`: the length of a run-length encoded atom of `len` bits. -/
def matLen (len : ℕ) : ℕ := if len = 0 then 1 else len + 2 * met0 len

/-- The check of the buffer's size that each public operation starts with. -/
def bswNeed (w : Bsw) (need : ℕ) : Bsw :=
  if w.size ≤ w.fill + need then bswGrow w (max need w.prev) else w

/-- `ur_bsw_bit`. -/
def bswBit (w : Bsw) (bit : ℕ) : Bsw :=
  bswBitUnsafe (if w.off = 7 ∧ 1 + w.fill = w.size then bswGrow w w.prev else w) bit

/-- `ur_bsw8`. -/
def bsw8 (w : Bsw) (len byt : ℕ) : Bsw :=
  let len := min 8 len
  let carry := if (w.off + len) >>> 3 ≠ 0 then 1 else 0
  bsw8Unsafe (if w.size ≤ w.fill + carry then bswGrow w w.prev else w) len byt

/-- `ur_bsw32`. -/
def bsw32 (w : Bsw) (len val : ℕ) : Bsw :=
  let len := min 32 len
  bsw32Unsafe (bswNeed w (bloqUp3 (w.off + len))) len val

/-- `ur_bsw64`. -/
def bsw64 (w : Bsw) (len val : ℕ) : Bsw :=
  let len := min 64 len
  bsw64Unsafe (bswNeed w (bloqUp3 (w.off + len))) len val

/-- `ur_bsw_bytes`. -/
def bswBytes (w : Bsw) (len : ℕ) (byt : List UInt8) : Bsw :=
  bswBytesUnsafe (bswNeed w (bloqUp3 (len + w.off))) len byt

/-- `ur_bsw_bex`. -/
def bswBex (w : Bsw) (n : ℕ) : Bsw := bswBexUnsafe (bswNeed w (bloqUp3 (1 + n + w.off))) n

/-- `ur_bsw_back64`. -/
def bswBack64 (w : Bsw) (len val : ℕ) : Bsw :=
  let len := min 64 len
  let w := bswNeed w (bloqUp3 (2 + w.off + matLen len))
  bswMat64Unsafe (bsw8Unsafe w 2 3) len val

/-- `ur_bsw_atom64`. -/
def bswAtom64 (w : Bsw) (len val : ℕ) : Bsw :=
  let len := min 64 len
  let w := bswNeed w (bloqUp3 (1 + w.off + matLen len))
  bswMat64Unsafe (bswBitUnsafe w 0) len val

/-- `ur_bsw_atom_bytes`. -/
def bswAtomBytes (w : Bsw) (len : ℕ) (byt : List UInt8) : Bsw :=
  let w := bswNeed w (bloqUp3 (1 + w.off + matLen len))
  bswMatBytesUnsafe (bswBitUnsafe w 0) len byt

/-- `ur_bsw_cell`. -/
def bswCell (w : Bsw) : Bsw := bsw8Unsafe (bswNeed w (bloqUp3 (2 + w.off))) 2 1

/-! ### The reader -/

/-- `ur_cue_res_e`. -/
inductive CueRes where
  | good | back | gone | meme
  deriving DecidableEq, Repr

/-- `ur_cue_tag_e`. -/
inductive CueTag where
  | atom | cell | back
  deriving DecidableEq, Repr

/-- `ur_bsr_t`; the pointer to the next byte is the rest of the buffer, and the
null pointer is the empty one. -/
structure Bsr where
  left : ℕ
  bits : ℕ
  off : ℕ
  bytes : List UInt8

/-- The byte at `i`, widened. -/
def Bsr.byte (b : Bsr) (i : ℕ) : ℕ := (b.bytes.getD i 0).toNat

/-- `ur_bsr_init`: fails if the length in bits overflows. -/
def bsrInit (bytes : List UInt8) : Except CueRes Bsr :=
  let len := bytes.length
  if (len <<< 3) % 2 ^ 64 < len then .error .meme else .ok ⟨len, 0, 0, bytes⟩

/-- `ur_bsr_bit_any`. -/
def bsrBitAny (b : Bsr) : ℕ × Bsr :=
  let bits := b.bits + 1
  if b.left = 0 then (0, { b with bits })
  else
    let bit := (b.byte 0 >>> b.off) &&& 1
    if b.off = 7 then
      let left := b.left - 1
      (bit, ⟨left, bits, 0, if left ≠ 0 then b.bytes.drop 1 else []⟩)
    else (bit, { b with bits, off := b.off + 1 })

/-- `ur_bsr8_any`: the next `len` bits, at most 8. -/
def bsr8Any (b : Bsr) (len : ℕ) : ℕ × Bsr :=
  let len := min 8 len
  let bits := b.bits + len
  if b.left = 0 then (0, { b with bits })
  else
    let rest := 8 - b.off
    let m := b.byte 0 >>> b.off
    if len < rest then (m &&& mask len, { b with bits, off := b.off + len })
    else if b.left = 1 then (m, ⟨0, bits, 0, []⟩)
    else
      let off := len - rest
      let l := b.byte 1 &&& mask off
      ((m ^^^ l <<< rest) % 2 ^ 8, ⟨b.left - 1, bits, off, b.bytes.drop 1⟩)

/-- `ur_bsr32_any` and `ur_bsr64_any`: the next `len` bits, at most those of the word. -/
def bsrWordAny (word : ℕ) (b : Bsr) (len : ℕ) : ℕ × Bsr :=
  let len := min word len
  let bits := b.bits + len
  if b.left = 0 then (0, { b with bits })
  else
    let rest := 8 - b.off
    let m := b.byte 0 >>> b.off
    if len < rest then (m &&& mask len, { b with bits, off := b.off + len })
    else
      let len := len - rest
      let left := b.left - 1
      let bytes := b.bytes.drop 1
      let lenByt := len >>> 3
      if left ≤ lenByt then
        (m ^^^ (loadBytes bytes left <<< rest) % 2 ^ word, ⟨0, bits, 0, []⟩)
      else
        let off := len &&& 7
        let tal := (bytes.getD lenByt 0).toNat &&& mask off
        let l := loadBytes bytes lenByt ^^^ tal <<< (8 * lenByt)
        (m ^^^ (l <<< rest) % 2 ^ word, ⟨left - lenByt, bits, off, bytes.drop lenByt⟩)

def bsr32Any : Bsr → ℕ → ℕ × Bsr := bsrWordAny 32

def bsr64Any : Bsr → ℕ → ℕ × Bsr := bsrWordAny 64

/-- `ur_bsr_bytes_any`: the next `len` bits, into a cleared buffer. -/
def bsrBytesAny (b : Bsr) (len : ℕ) (out : List UInt8) : List UInt8 × Bsr :=
  let bits := b.bits + len
  if b.left = 0 then (out, { b with bits })
  else
    let lenByt := len >>> 3
    let lenBit := len &&& 7
    let need := lenByt + if lenBit ≠ 0 then 1 else 0
    if b.off = 0 then
      if b.left < need then (storeBytes out 0 b.left b.byte, ⟨0, bits, 0, []⟩)
      else
        let out := storeBytes out 0 lenByt b.byte
        let out := if lenBit ≠ 0 then out.set lenByt (UInt8.ofNat (b.byte lenByt &&& mask lenBit)) else out
        let left := b.left - lenByt
        (out, ⟨left, bits, lenBit, if left ≠ 0 then b.bytes.drop lenByt else []⟩)
    else
      let rest := 8 - b.off
      let last := b.left - 1
      let max := min last lenByt
      let out := storeBytes out 0 max fun i => (b.byte i >>> b.off) ^^^ (b.byte (i + 1) <<< rest)
      let m := b.byte max >>> b.off
      if b.left ≤ need then
        if (len - last <<< 3) % 256 < rest then
          (out.set max (UInt8.ofNat (m &&& mask lenBit)),
            ⟨1, bits, b.off + lenBit, b.bytes.drop max⟩)
        else (out.set max (UInt8.ofNat m), ⟨0, bits, 0, []⟩)
      else
        let ful := b.off + lenBit
        let step := if ful >>> 3 ≠ 0 then 1 else 0
        let off := ful &&& 7
        let bsr := ⟨b.left - (lenByt + step), bits, off, b.bytes.drop (max + step)⟩
        if lenBit = 0 then (out, bsr)
        else if lenBit ≤ rest then (out.set max (UInt8.ofNat (m &&& mask lenBit)), bsr)
        else
          let l := b.byte (max + 1) &&& mask off
          (out.set max (UInt8.ofNat ((m ^^^ l <<< rest) &&& mask lenBit)), bsr)

/-- `ur_bsr_skip_any`: the cursor moves as if `len` bits had been read. -/
def bsrSkipAny (b : Bsr) (len : ℕ) : Bsr :=
  let bits := b.bits + len
  if b.left = 0 then { b with bits }
  else
    let lenByt := len >>> 3
    let lenBit := len &&& 7
    let need := lenByt + if lenBit ≠ 0 then 1 else 0
    let rest := 8 - b.off
    let last := b.left - 1
    let max := min last lenByt
    if b.left ≤ need then
      if (len - last <<< 3) % 256 < rest then ⟨1, bits, b.off + lenBit, b.bytes.drop max⟩
      else ⟨0, bits, 0, []⟩
    else
      let ful := b.off + lenBit
      let step := if ful >>> 3 ≠ 0 then 1 else 0
      ⟨b.left - (lenByt + step), bits, ful &&& 7, b.bytes.drop (max + step)⟩

/-- `_bsr_set_gone`. -/
def bsrSetGone (b : Bsr) (bits : ℕ) : CueRes × Bsr := (.gone, ⟨0, b.bits + bits, 0, []⟩)

/-- `ur_bsr_tag`. -/
def bsrTag (b : Bsr) : Except CueRes CueTag × Bsr :=
  if b.left = 0 then (.error .gone, b)
  else
    let next := fun len =>
      let bits := b.off + len
      let bytes := bits >>> 3
      let left := b.left - bytes
      if left = 0 then (⟨0, b.bits + len, 0, []⟩ : Bsr)
      else ⟨left, b.bits + len, bits &&& 7, b.bytes.drop bytes⟩
    if (b.byte 0 >>> b.off) &&& 1 = 0 then (.ok .atom, next 1)
    else if b.off = 7 ∧ b.left = 1 then (.error .gone, (bsrSetGone b 1).2)
    else
      let bit := if b.off = 7 then b.byte 1 &&& 1 else (b.byte 0 >>> (b.off + 1)) &&& 1
      (.ok (if bit = 0 then .cell else .back), next 2)

/-- `ur_tz8`: the zeros below the lowest bit that is set, counted from bit `k` on. -/
def tz8 (byt : ℕ) : ℕ → ℕ → ℕ
  | 0, k => k
  | n + 1, k => if byt.testBit k then k else tz8 byt n (k + 1)

/-- `_bsr_log_meme`. -/
def bsrLogMeme (b : Bsr) : Bsr :=
  ⟨(b.left + 2 ^ 64 - 32) % 2 ^ 64, b.bits + 256, b.off, b.bytes.drop 32⟩

/-- The loop of `ur_bsr_log` over bytes that are zero; `n` bounds its turns. It
returns the bytes skipped and the first byte that is not zero. -/
def bsrLogSkip (b : Bsr) : ℕ → ℕ → ℕ → Except CueRes (ℕ × ℕ) × Bsr
  | 0, _, _ => (.error .meme, b)
  | n + 1, skip, byt =>
    if byt ≠ 0 then (.ok (skip, byt), b)
    else if skip = 32 then (.error .meme, bsrLogMeme b)
    else if skip + 1 = b.left then (.error .gone, (bsrSetGone b ((skip + 1) <<< 3 - b.off)).2)
    else bsrLogSkip b n (skip + 1) (b.byte (skip + 1))

/-- `ur_bsr_log`: the zeros before the next one. -/
def bsrLog (b : Bsr) : Except CueRes ℕ × Bsr :=
  if b.left = 0 then (.error .gone, b)
  else
    match bsrLogSkip b 33 0 (b.byte 0 >>> b.off) with
    | (.error res, b) => (.error res, b)
    | (.ok (skip, byt), b) =>
      let zeros := tz8 byt 8 0 + if skip ≠ 0 then skip <<< 3 - b.off else 0
      if 255 < zeros then (.error .meme, bsrLogMeme b)
      else
        let bits := b.off + 1 + zeros
        let bytes := bits >>> 3
        let left := b.left - bytes
        (.ok zeros, ⟨left, b.bits + (1 + zeros), bits &&& 7, if left ≠ 0 then b.bytes.drop bytes else []⟩)

/-- `ur_bsr_rub_len`: a run-length encoded length. -/
def bsrRubLen (b : Bsr) : Except CueRes ℕ × Bsr :=
  match bsrLog b with
  | (.error res, b) => (.error res, b)
  | (.ok len, b) =>
    if 64 ≤ len then (.error .meme, b)
    else
      match len with
      | 0 => (.ok 0, b)
      | 1 => (.ok 1, b)
      | len + 2 =>
        let (low, b) := bsr64Any b (len + 1)
        (.ok (low ^^^ 1 <<< (len + 1)), b)

end Bitstream
end Ursockets

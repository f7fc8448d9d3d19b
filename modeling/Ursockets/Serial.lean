/-
# Jam and cue

The serialization of `ur/serial.c`. The jammer walks over a noun and keeps for
each reference the bit cursor at which it was written first. The cue keeps for
each bit cursor the reference that was read there, and builds the cells with a
stack of frames: a head frame waits for the head of a cell, a tail frame for
its tail.

Key definitions: `jamAtom`, `jamCell`, `urJam`, `cueNextTurn`, `cueTurn`, `urCue`.
-/
import Ursockets.Bitstream
import Ursockets.Hashcons
import Ursockets.Lib.Loop
import Mathlib.Data.List.DropRight

namespace Ursockets
namespace Serial

open Bits Bitstream UrDict Hashcons

/-! ### Jam -/

/-- `_bsw_atom`. -/
def bswAtom (r : Root) (ref : Nref) (bsw : Bsw) (len : ℕ) : Bsw :=
  match ref with
  | .direct n => bswAtom64 bsw len n
  | _ => bswAtomBytes bsw len (bytes r ref)

/-- What the callbacks of `ur_jam_t` change. -/
structure Jammer where
  dict : Dict Nref ℕ
  bsw : Bsw

/-- `_jam_atom`. -/
def jamAtom (room : ℕ) (r : Root) (ref : Nref) (j : Jammer) : Option Jammer :=
  let len := met r ref
  match dictGet (keyMug r) j.dict ref with
  | none =>
    (dictPut (keyMug r) room ref j.bsw.bits room j.dict).map fun dict =>
      ⟨dict, bswAtom r ref j.bsw len⟩
  | some bak =>
    let lenBak := met0 bak
    if len ≤ lenBak then some { j with bsw := bswAtom r ref j.bsw len }
    else some { j with bsw := bswBack64 j.bsw lenBak bak }

/-- `_jam_cell`: whether to go on into the cell. -/
def jamCell (room : ℕ) (r : Root) (ref : Nref) (j : Jammer) : Option (Bool × Jammer) :=
  match dictGet (keyMug r) j.dict ref with
  | none =>
    (dictPut (keyMug r) room ref j.bsw.bits room j.dict).map fun dict => (true, ⟨dict, bswCell j.bsw⟩)
  | some bak => some (false, { j with bsw := bswBack64 j.bsw (met0 bak) bak })

/-- One turn of the jammer's walk. -/
def jamTurn (room : ℕ) (r : Root) : Walk Jammer → Option (Walk Jammer) :=
  walkTurn r (jamAtom room r) (jamCell room r)

/-- `ur_jam_init` and the start of `_jam`. -/
def jamInit (room : ℕ) (r : Root) (ref : Nref) : Option (Walk Jammer) :=
  (dictGrow (keyMug r) (Dict.nil : Dict Nref ℕ) room fib11 fib12).map fun dict =>
    ⟨fib10, fib11, [ref], ⟨dict, bswInit fib11 fib12⟩⟩

/-- `ur_jam`: the bits and the bytes written. -/
def urJam (room fuel : ℕ) (r : Root) (ref : Nref) : Option (ℕ × List UInt8) :=
  (jamInit room r ref).bind fun w =>
    (Loop.run (jamTurn room r) Walk.done fuel w).map fun w => (w.v.bsw.bits, bswDone w.v.bsw)

/-! ### Cue -/

/-- `_cue_frame_t`; a head frame has no reference yet. -/
structure Frame where
  ref : Option Nref
  bits : ℕ

/-- `ur_cue_t` and the bitstream: the stack has its top first. The keys of the
dictionary are bit cursors, which are direct atoms. -/
structure Cue where
  r : Root
  prev : ℕ
  size : ℕ
  f : List Frame
  dict : Dict ℕ Nref
  bsr : Bsr

/-- The mug of a bit cursor. -/
def cursorMug (bits : ℕ) : ℕ := (mug64 bits).toNat

/-- Where the two loops of the cue stand: `_cue_next` goes on reading, it has
returned a reference, or the cue fails. -/
inductive Mode where
  | next
  | good (ref : Nref)
  | fail (res : CueRes)

/-- `ur_dict64_put` at a bit cursor. -/
def cuePut (room bits : ℕ) (ref : Nref) (c : Cue) : Option (Mode × Cue) :=
  (dictPut cursorMug room bits ref room c.dict).map fun dict => (.good ref, { c with dict })

/-- The frame pushed, on a stack that may have to grow. -/
def cuePush (fr : Frame) (c : Cue) : Option Cue :=
  if c.f.length = c.size then
    (stackGrow c.prev c.size).map fun (prev, size) => { c with prev, size, f := fr :: c.f }
  else some { c with f := fr :: c.f }

/-- The bytes of an atom without the zeros at its end. -/
def stripZeros (byt : List UInt8) : List UInt8 := byt.rdropWhile (· = 0)

/-- One turn of the loop of `_cue_next`. -/
def cueNextTurn (room : ℕ) (c : Cue) : Option (Mode × Cue) :=
  let bits := c.bsr.bits
  match bsrTag c.bsr with
  | (.error res, bsr) => some (.fail res, { c with bsr })
  | (.ok .cell, bsr) => (cuePush ⟨none, bits⟩ { c with bsr }).map fun c => (.next, c)
  | (.ok .back, bsr) =>
    match bsrRubLen bsr with
    | (.error res, bsr) => some (.fail res, { c with bsr })
    | (.ok len, bsr) =>
      if 62 < len then some (.fail .meme, { c with bsr })
      else
        let (bak, bsr) := bsr64Any bsr len
        match dictGet cursorMug c.dict bak with
        | none => some (.fail .back, { c with bsr })
        | some val => some (.good val, { c with bsr })
  | (.ok .atom, bsr) =>
    match bsrRubLen bsr with
    | (.error res, bsr) => some (.fail res, { c with bsr })
    | (.ok len, bsr) =>
      if len ≤ 62 then
        let (n, bsr) := bsr64Any bsr len
        cuePut room bits (.direct n) { c with bsr }
      else
        let lenByt := len >>> 3 + if len &&& 7 ≠ 0 then 1 else 0
        let (byt, bsr) := bsrBytesAny bsr len (List.replicate lenByt 0)
        (coinBytesUnsafe room c.r (stripZeros byt)).bind fun (ref, r) =>
          cuePut room bits ref { c with r, bsr }

/-- One turn of the loop of `_cue`, with what `_cue_next` returned. -/
def cueGoodTurn (room : ℕ) (ref : Nref) (c : Cue) : Option (Mode × Cue) :=
  match c.f with
  | [] => some (.good ref, c)
  | fr :: f =>
    match fr.ref with
    | none => some (.next, { c with f := { fr with ref := some ref } :: f })
    | some hed =>
      (cons room c.r hed ref).bind fun (ref, r) => cuePut room fr.bits ref { c with r, f }

/-- One turn of either loop. -/
def cueTurn (room : ℕ) : Mode × Cue → Option (Mode × Cue)
  | (.next, c) => cueNextTurn room c
  | (.good ref, c) => cueGoodTurn room ref c
  | (.fail res, c) => some (.fail res, c)

/-- Both loops have ended. -/
def cueDone : Mode × Cue → Bool
  | (.next, _) => false
  | (.good _, c) => c.f.isEmpty
  | (.fail _, _) => true

/-- `ur_cue_init`, with a reader. -/
def cueInit (room : ℕ) (r : Root) (bsr : Bsr) : Option Cue :=
  (dictGrow cursorMug (Dict.nil : Dict ℕ Nref) room fib11 fib12).map fun dict =>
    ⟨r, fib10, fib11, [], dict, bsr⟩

/-- `ur_cue`: what it returns, the reference or a failure, and its state then. -/
def urCue (room fuel : ℕ) (r : Root) (byt : List UInt8) : Option (Mode × Cue) :=
  match bsrInit byt with
  | .error res => (cueInit room r ⟨0, 0, 0, []⟩).map fun c => (.fail res, c)
  | .ok bsr =>
    (cueInit room r bsr).bind fun c =>
      -- bit cursors must fit in 62-bit direct atoms
      if 0x7ffffffffffffff < byt.length then some (.fail .meme, c)
      else Loop.run (cueTurn room) cueDone fuel (.next, c)

end Serial
end Ursockets

/-
# Octs of the bytestream jets

Octs are a length in bytes and an atom, which may have fewer bytes or more: they stand for the bytes of
the atom padded with zeros, or cut, to the length. The jets of `bytestream.c` copy bytes from
atoms into slabs, with lengths and cursors that are words; sums of them wrap. A slab of
more than a word made an atom without trimming has as many words as the slab, and if the last one is zero
it is not the atom that its number has elsewhere.

The copies fault where they read past an atom's words; a slab that the copies do not fill to its end is an assertion
that fails. `u3_none` leaves a call to the Hoon. An atom is one that is made or one that was given.

Key definitions: `Octs.bytes`, `catOcts`, `canOcts`, `readOcts`, `chunk`, `extract`, `Op.Agrees`, `Op.Meets`.
-/
import Ursockets.Lib.Octets

namespace Ursockets
namespace Bytestream

open Octets

/-! ### Octs and atoms -/

/-- Octs: `p` and `q`. -/
structure Octs where
  p : ℕ
  q : ℕ

/-- The bytes that octs stand for. -/
def Octs.bytes (o : Octs) : List UInt8 := ofNum o.p o.q

/-- An atom as it is kept: a number, and how many words it takes. -/
structure Made where
  len : ℕ
  val : ℕ
  deriving DecidableEq

/-- An atom as every other of its number is kept. -/
def Made.Canonical (m : Made) : Prop := m.len = words m.val

instance (m : Made) : Decidable m.Canonical := inferInstanceAs (Decidable (m.len = words m.val))

/-- An atom that was given, or made by `u3i_word` or `u3i_chub`. -/
def Made.of (n : ℕ) : Made := ⟨words n, n⟩

/-- `u3i_slab_moot`, of a slab with these bytes: a word is as it should be, and more are as many as they are. -/
def u3iSlabMoot (buf : List UInt8) : Made :=
  if (buf.length + 3) / 4 ≤ 1 then .of (num buf) else ⟨(buf.length + 3) / 4, num buf⟩

/-- `u3i_slab_mint`: zero words are trimmed. -/
def u3iSlabMint (buf : List UInt8) : Made := .of (num buf)

/-- Octs that are made. -/
abbrev Piece := ℕ × Made

/-- What a jet comes to: `u3_none`, a crash of the call, a crash for want of room, a fault, or a result. -/
inductive Ret (α : Type) where
  | none
  | exit
  | fail
  | fault
  | gives (x : α)
  deriving DecidableEq

variable {α β : Type}

def Ret.bind : Ret α → (α → Ret β) → Ret β
  | .none, _ => .none
  | .exit, _ => .exit
  | .fail, _ => .fail
  | .fault, _ => .fault
  | .gives x, f => f x

/-- `u3r_met(3, a)`; it cannot count the bits of 2^30 words, nor quite so many. -/
def u3rMet3 (a : ℕ) : Option ℕ := if 1073741814 < words a - 1 then none else some (size a)

/-- `_x_octs_buffer`: the bytes of the atom that count, and the zeros after them. -/
def xOctsBuffer (o : Octs) : Ret (ℕ × ℕ) :=
  if 4294967296 ≤ o.p then .none
  else match u3rMet3 o.q with
    | none => .fail
    | some len => .gives (if len < o.p then (len, o.p - len) else (o.p, 0))

/-- `n` bytes copied from an atom's words. -/
def copy (q pos n : ℕ) : Ret (List UInt8) :=
  if 4 * max 1 (words q) < pos + n then .fault else .gives (ofNum n (q / 256 ^ pos))

/-- `_ci_slab_size`, of bytes. -/
def ciSlabSize (len : ℕ) : Option ℕ :=
  let bit := len * 8 % 18446744073709551616
  let wor := (bit + 31) % 18446744073709551616 / 32
  if wor % 4294967296 ≠ wor ∨ len ≠ bit / 8 then none else some wor

/-! ### The jets -/

/-- `_qe_bytestream_cat_octs` -/
def catOcts (a b : Octs) : Ret Piece :=
  (xOctsBuffer a).bind fun (len, lead) => (xOctsBuffer b).bind fun (lem, _) =>
    if a.p = 0 then .gives (b.p, .of b.q)
    else if b.p = 0 then .gives (a.p, .of a.q)
    else
      let p := (a.p + b.p) % 4294967296
      if len = 0 ∧ lem = 0 then .gives (p, .of 0)
      else match ciSlabSize (a.p + lem) with
        | none => .fail
        | some _ => (copy a.q 0 len).bind fun sea => (copy b.q 0 lem).bind fun seb =>
          .gives (p, u3iSlabMoot (sea ++ List.replicate lead 0 ++ seb))

/-- The second loop of `_qe_bytestream_can_octs`, into a slab of `buf` bytes of which `wit` are written. -/
def canCopy (buf : ℕ) : ℕ → List Octs → Ret (List UInt8)
  | _, [] => .gives []
  | wit, o :: os => (xOctsBuffer o).bind fun (len, lead) =>
    if o.p = 0 then canCopy buf wit os
    else (copy o.q 0 len).bind fun sea =>
      -- more bytes to follow
      if wit + len < buf then
        (canCopy buf (wit + len + lead) os).bind fun rest => .gives (sea ++ List.replicate lead 0 ++ rest)
      else (canCopy buf (wit + len) os).bind fun rest => .gives (sea ++ rest)

/-- The two steps of `_qe_bytestream_can_octs`: the size of the slab is that of all octs but the zeros of the last. -/
def canSlab (os : List Octs) : Ret Piece :=
  if os.any fun o => 4294967296 ≤ o.p then .none
  else
    let tot := (os.map Octs.p).sum
    if 18446744073709551616 ≤ tot then .none
    else
      let last := os.getLastD ⟨0, 0⟩
      match u3rMet3 last.q with
      | none => .fail
      | some met =>
        let lastLead := (last.p + 4294967296 - met) % 4294967296
        let buf := (tot + 18446744073709551616 - lastLead) % 18446744073709551616
        if buf = 0 then .gives (tot % 4294967296, .of 0)
        else match ciSlabSize buf with
          | none => .fail
          | some _ => (canCopy buf 0 os).bind fun sab =>
            if sab.length = buf then .gives (tot, u3iSlabMint sab) else .fault

/-- `_qe_bytestream_can_octs` -/
def canOcts : List Octs → Ret Piece
  | [] => .gives (0, .of 0)
  | [o] => .gives (o.p, .of o.q)
  | os => canSlab os

/-- `_qe_bytestream_read_octs`: the octs read, and the cursor after them. -/
def readOcts (n pos : ℕ) (o : Octs) : Ret (Piece × ℕ) :=
  if 4294967296 ≤ n ∨ 4294967296 ≤ pos then .none
  else if n = 0 then .gives ((0, .of 0), pos)
  else (xOctsBuffer o).bind fun (len, _) =>
    let till := (pos + n) % 4294967296
    if o.p < till then .exit
    else
      let red := if len < till then if pos < len then len - pos else 0 else n
      if red = 0 then .gives ((n, .of 0), till)
      else (copy o.q pos red).bind fun sea => .gives ((n, u3iSlabMoot (sea ++ List.replicate (n - red) 0)), till)

/-- `_qe_peek_octs` -/
def peekOcts (n pos : ℕ) (o : Octs) (len : ℕ) : Ret Piece :=
  if n = 0 then .gives (0, .of 0)
  else if o.p < (pos + n) % 4294967296 then .exit
  else if len ≤ pos then .gives (n, .of 0)
  else (copy o.q pos (min n (len - pos))).bind fun sea => .gives (n, u3iSlabMoot sea)

/-- The loop of `_qe_bytestream_chunk`, of no more than so many turns. It compares with the nouns
of the length and of the size, which for an atom of 2^31 on are not its number. -/
def chunkLoop (size p : ℕ) (o : Octs) (len : ℕ) : ℕ → ℕ → Ret (List Piece)
  | 0, _ => .gives []
  | turns + 1, pos =>
    if pos < p then
      let n := min (p - pos) size
      (peekOcts n pos o len).bind fun x =>
        (chunkLoop size p o len turns ((pos + n) % 4294967296)).bind fun xs => .gives (x :: xs)
    else .gives []

/-- `_qe_bytestream_chunk`, with the nouns of the size and of the length. A turn goes at least a byte on. -/
def chunk (size sizeRef pos : ℕ) (o : Octs) (pRef : ℕ) : Ret (List Piece) :=
  if 4294967296 ≤ size then .none
  else if size = 0 then .gives []
  else if 4294967296 ≤ pos then .none
  else (xOctsBuffer o).bind fun (len, _) => chunkLoop sizeRef pRef o len pRef pos

/-- A turn of the loop of `_qe_bytestream_extract`: it is the last one, or the cursor goes on,
past octs that are kept. -/
abbrev Turn (α : Type) := Option (ℕ × Option α)

/-- The turn at a cursor; `rac` is what the gate gives for it, a skip and a length. -/
def extractTurn (rac : ℕ → Option (ℕ × ℕ)) (o : Octs) (len pos : ℕ) : Ret (Turn Piece) :=
  match rac pos with
  | none => .exit
  | some (sip, ken) =>
    if 4294967296 ≤ sip ∨ 4294967296 ≤ ken then .none
    else if sip = 0 ∧ ken = 0 then .gives none
    else
      let past := (pos + sip) % 4294967296
      if o.p < past then .none
      else if ken = 0 then .gives (some (past, none))
      else (peekOcts ken past o len).bind fun x => .gives (some ((past + ken) % 4294967296, some x))

/-- A loop of turns while the cursor is before the end, of no more than so many. -/
def turns (turn : ℕ → Ret (Turn α)) (p : ℕ) : ℕ → ℕ → List α → Option (Ret (List α × ℕ))
  | 0, _, _ => none
  | n + 1, pos, dal =>
    if pos < p then
      match turn pos with
      | .gives (some (pos, x)) => turns turn p n pos (dal ++ x.toList)
      | .gives none => some (.gives (dal, pos))
      | .none => some .none
      | .exit => some .exit
      | .fail => some .fail
      | .fault => some .fault
    else some (.gives (dal, pos))

/-- `_qe_bytestream_extract`: the octs kept, and the cursor. -/
def extract (rac : ℕ → Option (ℕ × ℕ)) (pos : ℕ) (o : Octs) (n : ℕ) : Option (Ret (List Piece × ℕ)) :=
  if 4294967296 ≤ pos then some .none
  else match xOctsBuffer o with
    | .gives (len, _) => turns (extractTurn rac o len) o.p n pos []
    | .none => some .none
    | .exit => some .exit
    | .fail => some .fail
    | .fault => some .fault

/-! ### The same on byte lists -/

/-- Octs that are made stand for bytes, and the atom is as it should be. -/
def Stands (x : Piece) (bs : List UInt8) : Prop := ofNum x.1 x.2.val = bs ∧ x.2.Canonical

/-- A jet crashes where a list has not the bytes, and elsewhere gives what stands for the result. -/
def Ret.Agrees (R : α → β → Prop) : Ret α → Ret β → Prop
  | .gives x, .gives y => R x y
  | .exit, .exit => True
  | _, _ => False

/-- Bytes read at a place, which must be there, and the place after them. -/
def readBytes (n pos : ℕ) (bs : List UInt8) : Ret (List UInt8 × ℕ) :=
  if n = 0 then .gives ([], pos)
  else if bs.length < pos + n then .exit
  else .gives ((bs.drop pos).take n, pos + n)

/-- A list in slices of a size, with what is left over last. -/
def slices (n : ℕ) (l : List α) : List (List α) :=
  if l = [] ∨ n = 0 then [] else l.take n :: slices n (l.drop n)
termination_by l.length
decreasing_by
  rename_i h
  rw [not_or] at h
  have hpos := List.length_pos_of_ne_nil h.1
  rw [List.length_drop]
  omega

/-- A turn on a byte list. -/
def turnBytes (rac : ℕ → Option (ℕ × ℕ)) (bs : List UInt8) (pos : ℕ) : Ret (Turn (List UInt8)) :=
  match rac pos with
  | none => .exit
  | some (sip, ken) =>
    if sip = 0 ∧ ken = 0 then .gives none
    else if bs.length < pos + sip + ken then .exit
    else .gives (some (pos + sip + ken, if ken = 0 then none else some ((bs.drop (pos + sip)).take ken)))

/-- A turn agrees with the turn on a byte list, or leaves the call to the Hoon. -/
def TurnAgrees (rac : ℕ → Option (ℕ × ℕ)) (o : Octs) (len pos : ℕ) : Prop :=
  extractTurn rac o len pos = .none ∨ (extractTurn rac o len pos).Agrees
    (Option.Rel fun x y => x.1 = y.1 ∧ Option.Rel Stands x.2 y.2) (turnBytes rac o.bytes pos)

/-- The places that a loop of turns comes to before an end. -/
inductive Comes (turn : ℕ → Ret (Turn α)) (p pos : ℕ) : ℕ → Prop where
  | start : Comes turn p pos pos
  | turn {at0 at1 : ℕ} {x : Option α} : Comes turn p pos at0 → at0 < p → turn at0 = .gives (some (at1, x)) →
      Comes turn p pos at1

/-! ### The condition -/

/-- The bytes of the atom that count. -/
def Octs.held (o : Octs) : List UInt8 := ofNum (min (size o.q) o.p) o.q

/-- The atom has more bytes than the length. -/
def Octs.Wide (o : Octs) : Prop := o.p < size o.q

/-- The length is a word, and the atom's bytes can be counted. -/
def Octs.Accepted (o : Octs) : Prop := o.p < 4294967296 ∧ words o.q ≤ 1073741815

/-- Of bytes in words, one word at most, or a last one that is not zero. -/
def Full (bs : List UInt8) : Prop := bs.length ≤ 4 ∨ ∃ b ∈ bs.drop (4 * ((bs.length + 3) / 4 - 1)), b ≠ 0

/-- So many bytes are filled by octs: each takes its length, the one that comes to the end only
the bytes of its atom, and those after it nothing. -/
def Fills : ℕ → List Octs → Prop
  | n, [] => n = 0
  | n, o :: os =>
    if o.held.length < n then o.p ≤ n ∧ Fills (n - o.p) os else o.held.length = n ∧ ∀ o ∈ os, o.held = []

/-- The noun of an atom: a direct one is its number, and of another the two highest bits are `10`. -/
def IsRef (a w : ℕ) : Prop := if a < 2147483648 then w = a else w / 1073741824 = 2

/-- An operation. -/
inductive Op where
  | cat (a b : Octs)
  | can (os : List Octs)
  | read (n pos : ℕ) (o : Octs)
  | chunk (size sizeRef pos : ℕ) (o : Octs) (pRef : ℕ)
  | extract (rac : ℕ → Option (ℕ × ℕ)) (pos : ℕ) (o : Octs)

/-- What the jets take: the lengths, sizes and cursors are words, and there is a slab for all the bytes. -/
def Op.Accepted : Op → Prop
  | .cat a b => a.Accepted ∧ b.Accepted
  | .can os => os.length ≤ 1 ∨ (∀ o ∈ os, o.Accepted) ∧
      (os.map Octs.p).sum ≤ 17179869180 + ((os.getLastD ⟨0, 0⟩).p - size (os.getLastD ⟨0, 0⟩).q)
  | .read n pos o => n < 4294967296 ∧ pos < 4294967296 ∧ o.Accepted
  | .chunk size sizeRef pos o pRef =>
    size < 4294967296 ∧ pos < 4294967296 ∧ o.Accepted ∧ IsRef size sizeRef ∧ IsRef o.p pRef
  | .extract _ pos o => pos < 4294967296 ∧ o.Accepted

/-- An operation agrees with the same one on byte lists, and the atoms it makes are canonical. -/
def Op.Agrees : Op → Prop
  | .cat a b => (catOcts a b).Agrees Stands (.gives (a.bytes ++ b.bytes))
  | .can os => (canOcts os).Agrees Stands (.gives (os.flatMap Octs.bytes))
  | .read n pos o => (readOcts n pos o).Agrees (fun x y => Stands x.1 y.1 ∧ x.2 = y.2) (readBytes n pos o.bytes)
  | .chunk size sizeRef pos o pRef => (Bytestream.chunk size sizeRef pos o pRef).Agrees (List.Forall₂ Stands)
      (.gives (slices size (o.bytes.drop pos)))
  | .extract rac pos o =>
    (∀ at0, Comes (extractTurn rac o o.held.length) o.p pos at0 → at0 < o.p → TurnAgrees rac o o.held.length at0) ∧
    ∀ n r, Bytestream.extract rac pos o n = some r → r = .none ∨ ∃ r',
      turns (turnBytes rac o.bytes) o.bytes.length n pos [] =
      some r' ∧ r.Agrees (fun x y => List.Forall₂ Stands x.1 y.1 ∧ x.2 = y.2) r'

/-- The turn at a place does not go on past a sum that has wrapped, and the bytes it keeps do not
end in a word of zeros. -/
def TurnMeets (rac : ℕ → Option (ℕ × ℕ)) (o : Octs) (pos : ℕ) : Prop :=
  ∀ sip ken, rac pos = some (sip, ken) → sip < 4294967296 → ken < 4294967296 → (sip ≠ 0 ∨ ken ≠ 0) →
    (pos + sip) % 4294967296 ≤ o.p → (ken = 0 ∨ ((pos + sip) % 4294967296 + ken) % 4294967296 ≤ o.p) →
    pos + sip + ken < 4294967296 ∧ Full ((o.held.drop (pos + sip)).take ken)

/-- The condition under which an operation agrees. -/
def Op.Meets : Op → Prop
  | .cat a b => a.p = 0 ∨ b.p = 0 ∨ a.p + b.p < 4294967296 ∧ ((a.q = 0 ∧ b.q = 0) ∨ Full (a.bytes ++ b.held))
  | .can os =>
    let last := os.getLastD ⟨0, 0⟩
    let past := (os.map Octs.p).sum + (size last.q - last.p)
    os.length ≤ 1 ∨ ¬ last.Wide ∨ (past = 4294967296 ∧ ∀ b ∈ os.flatMap Octs.bytes, b = 0) ∨
      (4294967296 < past ∧ Fills (past - 4294967296) os)
  | .read n pos o => n = 0 ∨ o.p < (pos + n) % 4294967296 ∨
      pos + n ≤ o.p ∧ (o.held.length ≤ pos ∨ Full ((o.bytes.drop pos).take n))
  | .chunk size sizeRef pos o pRef => size = 0 ∨ (pRef ≤ pos ∧ o.p ≤ pos) ∨
      (pRef = o.p ∧ (sizeRef = size ∨ (o.p - pos ≤ sizeRef ∧ o.p - pos ≤ size)) ∧ ∀ bs ∈ slices size
        (o.held.drop pos), Full bs)
  | .extract rac pos o =>
    ∀ at0, Comes (extractTurn rac o o.held.length) o.p pos at0 → at0 < o.p → TurnMeets rac o at0

end Bytestream
end Ursockets

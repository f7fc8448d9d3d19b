/-
# Mesa packets

The wire format of the mesa protocol (`vere/io/mesa/pact.c`): a head with a checksum and a cookie,
names, data, and the hops of a page. The etcher writes a packet to a buffer that has room for it.
The sifter reads one from bytes of the network: it counts the bytes that remain, keeps the first
error it meets, and goes on after it.

A pointer into the buffer is a place in it, so that a place past the end can be told from one
inside. A step fails where a byte outside the buffer is read and where an assertion does.

Key definitions: `Pact`, `Etcher`, `mesaEtchPactToBuf`, `Sifter`, `mesaSiftPactFromBuf`.
-/
import Ursockets.Lib.Fields
import Ursockets.Noun

namespace Ursockets
namespace Mesa

open Bits

/-! ### Packets -/

/-- `u3_ship`: two chubs, the low one first. -/
structure Ship where
  lo : UInt64
  hi : UInt64
  deriving DecidableEq

inductive Rank where
  | czar | king | duke | earl | pawn
  deriving DecidableEq

/-- `u3_ship_rank`. -/
def shipRank (who : Ship) : Rank :=
  if who.hi ≠ 0 then .pawn
  else if who.lo >>> 32 ≠ 0 then .earl
  else if who.lo >>> 16 ≠ 0 then .duke
  else if who.lo >>> 8 ≠ 0 then .king
  else .czar

/-- `u3_ship_to_bytes`. -/
def shipToBytes (who : Ship) (len : ℕ) : List UInt8 :=
  (numBytes 8 who.lo.toNat ++ numBytes 8 who.hi.toNat).take (min 16 len)

/-- `u3_ship_of_bytes`, of bytes that zeros follow. -/
def shipOfBytes (l : List UInt8) : Ship :=
  ⟨UInt64.ofNat (loadBytes l 8), UInt64.ofNat (loadBytes (l.drop 8) 8)⟩

/-- `u3_mesa_hop_type`. -/
inductive HopType where
  | none | short | long | many
  deriving DecidableEq

def HopType.code : HopType → ℕ
  | none => 0
  | short => 1
  | long => 2
  | many => 3

def HopType.ofCode (n : ℕ) : HopType :=
  if n = 0 then .none else if n = 1 then .short else if n = 2 then .long else .many

/-- `u3_mesa_ptag`. -/
inductive Ptag where
  | resv | page | peek | poke
  deriving DecidableEq

def Ptag.code : Ptag → ℕ
  | resv => 0
  | page => 1
  | peek => 2
  | poke => 3

def Ptag.ofCode (n : ℕ) : Ptag :=
  if n = 0 then .resv else if n = 1 then .page else if n = 2 then .peek else .poke

/-- `u3_mesa_head`; the type of the packet is with its body. -/
structure Head where
  nex : HopType
  pro : UInt8
  hop : UInt8
  mug : UInt32
  deriving DecidableEq

/-- `u3_mesa_name`: its path, and the bytes that it was sifted from. -/
structure Name (α : Type) where
  her : Ship
  rif : UInt32
  boq : UInt8
  nit : Bool
  aut : Bool
  fra : UInt64
  pat : α
  str : α
  deriving DecidableEq

abbrev Bytes (n : ℕ) : Type := { l : List UInt8 // l.length = n }

/-- `u3_auth_data`. -/
inductive Auth where
  | sign (sig : Bytes 64)
  | none
  | hmac (mac : Bytes 16)
  | pair (has0 has1 : Bytes 32)
  deriving DecidableEq

/-- `u3_mesa_data`: the bytes of the message in all, its authentication and the fragment. -/
structure Data (α : Type) where
  tob : UInt64
  aut : Auth
  fra : α
  deriving DecidableEq

/-- The hops of a page: the member of the union that the head's `nex` selects. -/
inductive Hops where
  | none
  | short (sot : Bytes 6)
  | long (one : List UInt8)
  | many (man : List (List UInt8))
  deriving DecidableEq

def Hops.typ : Hops → HopType
  | none => .none
  | short _ => .short
  | long _ => .long
  | many _ => .many

/-- The union of `u3_mesa_pact`: what there is of each type of packet. -/
inductive Body (α : Type) where
  | resv
  | page (nam : Name α) (dat : Data α) (hop : Hops)
  | peek (nam : Name α)
  | poke (nam pay : Name α) (dat : Data α)
  deriving DecidableEq

def Body.typ {α : Type} : Body α → Ptag
  | resv => .resv
  | page _ _ _ => .page
  | peek _ => .peek
  | poke _ _ _ => .poke

/-- `u3_mesa_pact`: `α` is what a path and a fragment are. -/
structure Pact (α : Type) where
  hed : Head
  body : Body α
  deriving DecidableEq

def Pact.typ {α : Type} (p : Pact α) : Ptag := p.body.typ

/-! ### Helpers -/

/-- What the program must not do: read a byte outside the buffer, or come to an assertion that fails. -/
inductive Fault where
  | read
  | assertion
  deriving DecidableEq

/-- `assert`. -/
def check {σ : Type} (p : Prop) [Decidable p] : StateT σ (Except Fault) Unit := fun s =>
  if p then .ok ((), s) else .error .assertion

def mesaCookie : UInt32 := 0x67e00200

def safeDec (n : ℕ) : ℕ := if n = 0 then n else n - 1

/-- `_mesa_met3_w`: the bytes of a word. -/
def mesaMet3 (a : UInt32) : ℕ := (met0 a.toNat + 0x7) >>> 3

/-- `_mesa_rank`. -/
def mesaRank (who : Ship) : ℕ :=
  match shipRank who with
  | .pawn => 3
  | .earl => 2
  | .duke => 1
  | .king => 0
  | .czar => 0

/-- `_mesa_make_chub_tag`: two bits for the length of a chub. -/
def mesaMakeChubTag (tot : UInt64) : ℕ :=
  if tot.toNat ≤ 0xff then 0 else if tot.toNat ≤ 0xffff then 1 else if tot.toNat ≤ 0xffffffff then 2 else 3

/-- `_mesa_bytes_of_chub_tag`. -/
def mesaBytesOfChubTag (tag : ℕ) : ℕ := 1 <<< tag

/-! ### The etcher -/

/-- `u3_etcher`: the bytes written so far, the room there is, and the bits that do not fill a byte yet. -/
structure Etcher where
  out : List UInt8
  cap : UInt32
  bit : ℕ
  off : ℕ
  deriving DecidableEq

abbrev Etch := StateT Etcher (Except Fault)

/-- `etcher_init`. -/
def etcherInit (cap : UInt32) : Etcher := ⟨[], cap, 0, 0⟩

/-- `_etch_next`, and the bytes that its caller puts there. -/
def etchNext (bs : List UInt8) : Etch Unit := fun e =>
  if e.off ≠ 0 then .error .assertion
  else if e.cap.toNat < (e.out.length + bs.length) % 2 ^ 32 then .error .assertion
  else .ok ((), { e with out := e.out ++ bs })

/-- `_etch_bytes`. -/
def etchBytes (buf : List UInt8) : Etch Unit := etchNext buf

/-- `_etch_byte`. -/
def etchByte (val : UInt8) : Etch Unit := etchNext [val]

/-- `_etch_short`. -/
def etchShort (val : UInt16) : Etch Unit := etchNext (numBytes 2 val.toNat)

/-- `_etch_word`. -/
def etchWord (val : UInt32) : Etch Unit := etchNext (numBytes 4 val.toNat)

/-- `_etch_var_word`. -/
def etchVarWord (val : UInt32) (len : ℕ) : Etch Unit := do
  check (len ≤ 4)
  etchNext (numBytes len val.toNat)

/-- `_etch_var_chub`. -/
def etchVarChub (val : UInt64) (len : ℕ) : Etch Unit := do
  check (len ≤ 8)
  etchNext (numBytes len val.toNat)

/-- The loop of `_etch_bits`: a turn writes eight bits. -/
def etchFlush : ℕ → Etcher → Etcher
  | 0, e => e
  | n + 1, e =>
    if 8 ≤ e.off then
      etchFlush n { e with out := e.out ++ [UInt8.ofNat (e.bit &&& 0xff)], bit := e.bit >>> 8, off := e.off - 8 }
    else e

/-- `_etch_bits`. -/
def etchBits (wid val : ℕ) : Etch Unit := fun e =>
  if e.off + wid ≤ 64 then
    let e := { e with bit := e.bit ||| (val &&& (1 <<< wid - 1)) <<< e.off, off := e.off + wid }
    .ok ((), etchFlush e.off e)
  else .error .assertion

/-- `_etch_ship`. -/
def etchShip (who : Ship) (len : ℕ) : Etch Unit := do
  check (len ≤ 16)
  etchNext (shipToBytes who len)

/-- `_mesa_etch_head`. -/
def mesaEtchHead (hed : Head) (typ : Ptag) : Etch Unit := do
  etchBits 2 0
  etchBits 2 hed.nex.code
  etchBits 3 hed.pro.toNat
  etchBits 2 typ.code
  etchBits 3 hed.hop.toNat
  etchBits 20 hed.mug.toNat
  etchWord mesaCookie

/-- The number of the fragment, which an init name does not have. -/
def etchFra (nit : ℕ) (fra : UInt64) (gaf : ℕ) : Etch Unit :=
  if nit ≠ 0 then pure () else etchVarChub fra (1 <<< gaf)

/-- `_mesa_etch_name`. -/
def mesaEtchName (nam : Name (List UInt8)) : Etch Unit := do
  let ran := mesaRank nam.her
  let rif := safeDec (mesaMet3 nam.rif)
  let nit := if nam.nit then 1 else 0
  let tau := if nam.nit then 0 else if nam.aut then 1 else 0
  let gaf := if nam.nit then 0 else mesaMakeChubTag nam.fra
  etchBits 2 ran
  etchBits 2 rif
  etchBits 1 nit
  etchBits 1 tau
  etchBits 2 gaf
  etchShip nam.her (2 <<< ran)
  etchVarWord nam.rif (rif + 1)
  etchByte nam.boq
  etchFra nit nam.fra gaf
  etchShort (UInt16.ofNat nam.pat.length)
  etchBytes nam.pat

/-- The loobean of a comparison, as a bit. -/
def loob (p : Prop) [Decidable p] : ℕ := if p then 0 else 1

def Auth.isSign : Auth → Bool
  | sign _ => true
  | _ => false

def Auth.isNone : Auth → Bool
  | none => true
  | _ => false

def Auth.isHmac : Auth → Bool
  | hmac _ => true
  | _ => false

/-- The authentication. -/
def etchAuth : Auth → Etch Unit
  | .sign sig => etchBytes sig.val
  | .hmac mac => etchBytes mac.val
  | .none => pure ()
  | .pair has0 has1 => do
    etchBytes has0.val
    etchBytes has1.val

/-- The length of the fragment's length, when it is not below three. -/
def etchNel (men nel : ℕ) : Etch Unit := if men = 3 then etchByte (UInt8.ofNat nel) else pure ()

/-- `_mesa_etch_data`. -/
def mesaEtchData (dat : Data (List UInt8)) : Etch Unit := do
  let bot := mesaMakeChubTag dat.tob
  let len := UInt32.ofNat dat.fra.length
  let nel := mesaMet3 len
  let men := min nel 3
  etchBits 2 bot
  etchBits 1 (loob (dat.aut.isSign ∨ dat.aut.isHmac))
  etchBits 1 (loob (dat.aut.isSign ∨ dat.aut.isNone))
  etchBits 2 0
  etchBits 2 men
  etchVarChub dat.tob (1 <<< bot)
  etchAuth dat.aut
  etchNel men nel
  etchVarWord len nel
  etchBytes dat.fra

/-- `_mesa_etch_hop_long`. -/
def mesaEtchHopLong (one : List UInt8) : Etch Unit := do
  etchByte (UInt8.ofNat one.length)
  etchBytes one

/-- The hops of a page. -/
def etchHops : Hops → Etch Unit
  | .none => pure ()
  | .short sot => etchBytes sot.val
  | .long one => mesaEtchHopLong one
  | .many man => do
    etchByte (UInt8.ofNat man.length)
    man.forM mesaEtchHopLong

/-- `_mesa_etch_page_pact`. -/
def mesaEtchPagePact (nam : Name (List UInt8)) (dat : Data (List UInt8)) (hop : Hops) : Etch Unit := do
  mesaEtchName nam
  mesaEtchData dat
  etchHops hop

/-- `_mesa_etch_peek_pact`. -/
def mesaEtchPeekPact (nam : Name (List UInt8)) : Etch Unit := mesaEtchName nam

/-- `_mesa_etch_poke_pact`. -/
def mesaEtchPokePact (nam pay : Name (List UInt8)) (dat : Data (List UInt8)) : Etch Unit := do
  mesaEtchName nam
  mesaEtchName pay
  mesaEtchData dat

def mesaEtchBody : Body (List UInt8) → Etch Unit
  | .poke nam pay dat => mesaEtchPokePact nam pay dat
  | .page nam dat hop => mesaEtchPagePact nam dat hop
  | .peek nam => mesaEtchPeekPact nam
  | .resv => pure ()

/-- `_mesa_etch_pact`: the payload is etched apart, eight bytes on, and its checksum goes into the head. -/
def mesaEtchPact (p : Pact (List UInt8)) : Etch (Pact (List UInt8)) := fun e => do
  let (_, pec) ← mesaEtchBody p.body (etcherInit (e.cap - UInt32.ofNat e.out.length - 8))
  let p := { p with hed := { p.hed with mug := Noun.mugBytes pec.out &&& 0xfffff } }
  let (_, e) ← mesaEtchHead p.hed p.typ e
  .ok (p, { e with out := e.out ++ pec.out })

/-- `mesa_etch_pact_to_buf`: the bytes written, and the packet with its checksum. -/
def mesaEtchPactToBuf (cap : UInt32) (p : Pact (List UInt8)) :
    Except Fault (List UInt8 × Pact (List UInt8)) := do
  let (p, e) ← mesaEtchPact p (etcherInit cap)
  .ok (e.out, p)

/-! ### The sifter -/

/-- `u3_sifter`: the place in the buffer, the bytes that are counted to remain, the bits of a byte begun,
and the first error. -/
structure Sifter where
  pos : ℕ
  rem : UInt32
  bit : ℕ
  off : ℕ
  err : Option String
  deriving DecidableEq

abbrev Sift := StateT Sifter (Except Fault)

/-- `sifter_init`. -/
def sifterInit (len : ℕ) : Sifter := ⟨0, UInt32.ofNat len, 0, 0, none⟩

/-- `_sift_fail`. -/
def Sifter.fail (s : Sifter) (msg : String) : Sifter :=
  if s.err = none then { s with err := some msg } else s

def siftFail (msg : String) : Sift Unit := fun s => .ok ((), s.fail msg)

/-- An error where something does not hold. -/
def siftExpect (p : Prop) [Decidable p] (msg : String) : Sift Unit := if p then pure () else siftFail msg

/-- `_sift_next`: a place in the buffer, or none after an error. -/
def siftNext (len : ℕ) : Sift (Option ℕ) := fun s =>
  if s.off ≠ 0 then .error .assertion
  else if s.err ≠ none then .ok (none, s)
  else
    let s := if s.rem.toNat < len then s.fail "unexpected eof" else s
    .ok (some s.pos, { s with pos := s.pos + len, rem := s.rem - UInt32.ofNat len })

/-- Some bytes of the buffer are read. -/
def fetch (buf : List UInt8) (pos len : ℕ) : Sift (Bytes len) := fun s =>
  if h : pos + len ≤ buf.length then
    .ok (⟨(buf.drop pos).take len, by rw [List.length_take, List.length_drop]; omega⟩, s)
  else if h : len = 0 then .ok (⟨[], h.symm⟩, s)
  else .error .read

variable (buf : List UInt8)

/-- What the next bytes make, or `z` after an error. -/
def siftWith {γ : Type} (len : ℕ) (z : γ) (g : Bytes len → γ) : Sift γ := do
  let res ← siftNext len
  match res with
  | none => pure z
  | some res => do
    let l ← fetch buf res len
    return g l

/-- `_sift_bytes`. -/
def siftBytes (len : ℕ) : Sift (Bytes len) := siftWith buf len ⟨List.replicate len 0, List.length_replicate⟩ id

/-- `_sift_byte`. -/
def siftByte : Sift UInt8 := siftWith buf 1 0 fun l => UInt8.ofNat (loadBytes l.val 1)

/-- `_sift_short`. -/
def siftShort : Sift UInt16 := siftWith buf 2 0 fun l => UInt16.ofNat (loadBytes l.val 2)

/-- `_sift_word`. -/
def siftWord : Sift UInt32 := siftWith buf 4 0 fun l => UInt32.ofNat (loadBytes l.val 4)

/-- `_sift_var_word`. -/
def siftVarWord (len : ℕ) : Sift UInt32 := do
  check (len ≤ 4)
  siftWith buf len 0 fun l => UInt32.ofNat (loadBytes l.val len)

/-- `_sift_var_chub`. -/
def siftVarChub (len : ℕ) : Sift UInt64 := do
  check (len ≤ 8)
  siftWith buf len 0 fun l => UInt64.ofNat (loadBytes l.val len)

/-- `_sift_ship`. -/
def siftShip (len : ℕ) : Sift Ship := do
  check (len ≤ 16)
  siftWith buf len ⟨0, 0⟩ fun l => shipOfBytes l.val

/-- The byte that the loop of `_sift_bits` takes, which is zero when none remains. -/
def siftTaken (s : Sifter) : Sift ℕ :=
  if 0 < s.rem then do
    let l ← fetch buf s.pos 1
    return loadBytes l.val 1
  else return 0

/-- A turn of the loop. -/
def siftTurn : Sift Unit := do
  let s ← get
  let byt ← siftTaken buf s
  set { s with pos := s.pos + 1, rem := s.rem - 1, bit := (s.bit ||| byt <<< s.off) % 2 ^ 64, off := s.off + 8 }

/-- The loop of `_sift_bits`. -/
def siftFill (wid : ℕ) : ℕ → Sift Unit
  | 0 => pure ()
  | n + 1 => fun s => if s.off < wid then (siftTurn buf >>= fun _ => siftFill wid n) s else .ok ((), s)

/-- `_sift_bits`. A turn takes more than a bit, so that there are no more turns than bits. -/
def siftBits (wid : ℕ) : Sift ℕ := do
  check (wid ≤ 64)
  siftFill buf wid wid
  let s ← get
  set { s with bit := s.bit >>> wid, off := s.off - wid }
  return s.bit &&& (1 <<< wid - 1)

/-- `mesa_sift_head`. -/
def mesaSiftHead : Sift (Head × Ptag) := do
  let _ ← siftBits buf 2
  let nex ← siftBits buf 2
  let pro ← siftBits buf 3
  let typ ← siftBits buf 2
  let hop ← siftBits buf 3
  let mug ← siftBits buf 20
  siftExpect (pro = 1) "bad protocol"
  let cookie ← siftWord buf
  siftExpect (cookie = mesaCookie) "bad cookie"
  return (⟨HopType.ofCode nex, UInt8.ofNat pro, UInt8.ofNat hop, UInt32.ofNat mug⟩, Ptag.ofCode typ)

/-- A part of the buffer, or a null pointer. -/
structure Slice where
  start : Option ℕ
  len : ℕ
  deriving DecidableEq

/-- The path is passed over, however many bytes remain. -/
def siftPath (len : UInt16) : Sift Slice := fun s =>
  .ok (⟨some s.pos, len.toNat⟩, { s with pos := s.pos + len.toNat, rem := s.rem - UInt32.ofNat len.toNat })

/-- The number of the fragment, which an init name does not have. -/
def siftFra (nit tau gaf : ℕ) : Sift UInt64 :=
  if nit ≠ 0 then do
    check (tau = 0)
    check (gaf = 0)
    return 0
  else siftVarChub buf (1 <<< gaf)

/-- `_mesa_sift_name`. -/
def mesaSiftName : Sift (Name Slice) := do
  let begun ← get
  let ran ← siftBits buf 2
  let rif ← siftBits buf 2
  let nit ← siftBits buf 1
  let tau ← siftBits buf 1
  let gaf ← siftBits buf 2
  let her ← siftShip buf (2 <<< ran)
  let rift ← siftVarWord buf (rif + 1)
  let boq ← siftByte buf
  let fra ← siftFra buf nit tau gaf
  let len ← siftShort buf
  let pat ← siftPath len
  let ended ← get
  return ⟨her, rift, boq, nit = 1, tau = 1, fra, pat, ⟨some begun.pos, (begun.rem - ended.rem).toNat⟩⟩

/-- The authentication, by the two flags of the data's head. -/
def siftAuth (aut auv : ℕ) : Sift Auth := do
  if aut = 0 then
    if auv = 0 then return .sign (← siftBytes buf 64)
    else return .hmac (← siftBytes buf 16)
  else
    if auv = 0 then return .none
    else return .pair (← siftBytes buf 32) (← siftBytes buf 32)

/-- The length of the fragment's length, in a byte of its own when it is not below three. -/
def siftNel (men : ℕ) : Sift ℕ := if men = 3 then do return (← siftByte buf).toNat else pure men

/-- `_mesa_sift_data`. -/
def mesaSiftData : Sift (Data Slice) := do
  let bot ← siftBits buf 2
  let aut ← siftBits buf 1
  let auv ← siftBits buf 1
  let _ ← siftBits buf 2
  let men ← siftBits buf 2
  let tob ← siftVarChub buf (1 <<< bot)
  let auth ← siftAuth buf aut auv
  let nel ← siftNel buf men
  let len ← siftVarWord buf nel
  let fra ← siftNext len.toNat
  return ⟨tob, auth, ⟨fra, len.toNat⟩⟩

/-- The hops of a page, which are not set after an error. -/
def siftHops : HopType → Sift Hops
  | .none => pure .none
  | .short => do return .short (← siftBytes buf 6)
  | .long => do
    siftFail "mesa: sift invalid hop long"
    return .none
  | .many => do
    siftFail "mesa: sift invalid hop many"
    return .none

/-- `_mesa_sift_page_pact`. -/
def mesaSiftPagePact (nex : HopType) : Sift (Body Slice) := do
  let nam ← mesaSiftName buf
  let dat ← mesaSiftData buf
  let hop ← siftHops buf nex
  return .page nam dat hop

/-- `_mesa_sift_peek_pact`. -/
def mesaSiftPeekPact : Sift (Body Slice) := do return .peek (← mesaSiftName buf)

/-- `_mesa_sift_poke_pact`. -/
def mesaSiftPokePact : Sift (Body Slice) := do
  let nam ← mesaSiftName buf
  let pay ← mesaSiftName buf
  let dat ← mesaSiftData buf
  return .poke nam pay dat

def mesaSiftBody (nex : HopType) : Ptag → Sift (Body Slice)
  | .peek => mesaSiftPeekPact buf
  | .page => mesaSiftPagePact buf nex
  | .poke => mesaSiftPokePact buf
  | .resv => pure .resv

/-- `_mesa_sift_pact`: the checksum is of the bytes that were passed over since the head. -/
def mesaSiftPact : Sift (Pact Slice) := do
  let (hed, typ) ← mesaSiftHead buf
  let headed ← get
  let body ← mesaSiftBody buf hed.nex typ
  let s ← get
  let l ← fetch buf headed.pos (headed.rem - s.rem).toNat
  siftExpect (Noun.mugBytes l.val &&& 0xfffff = hed.mug) "bad mug"
  return ⟨hed, body⟩

/-- `mesa_sift_pact_from_buf`: the packet and the error. -/
def mesaSiftPactFromBuf : Except Fault (Pact Slice × Option String) := do
  let (p, s) ← mesaSiftPact buf (sifterInit buf.length)
  let s := if s.rem ≠ 0 ∧ s.err = none then s.fail "trailing bytes" else s
  .ok (p, s.err)

/-! ### Sizes -/

/-- `_mesa_size_name`. -/
def mesaSizeName (nam : Name (List UInt8)) : ℕ :=
  1 + 2 <<< mesaRank nam.her + (safeDec (mesaMet3 nam.rif) + 1) + 1 +
    (if nam.nit then 0 else mesaBytesOfChubTag (mesaMakeChubTag nam.fra)) + 2 + nam.pat.length

/-- `_mesa_size_data`. -/
def mesaSizeData (dat : Data (List UInt8)) : ℕ :=
  let aut := match dat.aut with
    | .sign _ => 64
    | .hmac _ => 16
    | .none => 0
    | .pair _ _ => 64
  let nel := mesaMet3 (UInt32.ofNat dat.fra.length)
  let men := if nel ≤ 3 then nel else 3
  1 + mesaBytesOfChubTag (mesaMakeChubTag dat.tob) + aut + (if men = 3 then 1 else 0) + nel + dat.fra.length

/-- `_mesa_size_hops`. -/
def mesaSizeHops : Hops → ℕ
  | .none => 0
  | .short _ => 6
  | .long one => 1 + one.length
  | .many man => (man.map fun one => 1 + one.length).sum

/-- `mesa_size_pact`, of a packet whose size fits a word. -/
def mesaSizePact (p : Pact (List UInt8)) : ℕ :=
  match p.body with
  | .peek nam => 8 + mesaSizeName nam
  | .page nam dat hop => 8 + mesaSizeName nam + mesaSizeData dat + mesaSizeHops hop
  | .poke nam pay dat => 8 + mesaSizeName nam + mesaSizeName pay + mesaSizeData dat
  | .resv => 0

end Mesa
end Ursockets

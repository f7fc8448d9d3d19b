/-
# A pending request of mesa

A ship that asks another for a message of many fragments keeps a `u3_pend_req`: which
fragments it has asked for (`nex`), which have come (`was`), how many are in flight (`out`), when
each was last asked for (`wat`), and the tables the pages are put in, all allocated when the first
page comes. Here is the code that sends the peeks, sends them again and takes the pages in.

What a call does to a table it does to a list of the table's length, and an access that is not
inside is a `Trap`. Left out are the lanes of the peer, the timer and the log.

Key definitions: `PendReq`, `mesaReqPactInit`, `mesaReqPactSent`, `mesaReqPactResent`, `tryResend`,
`mesaRequestNextFragments`, `mesaReqPactDone`, `mesaHearPage`.
-/
import Ursockets.Lss
import Ursockets.PeekBuf

namespace Ursockets
namespace Mesa

open Bits

/-! ### Tables -/

/-- What the code does not come back from: an access outside a table, a shift that C has no meaning for,
an assertion that fails, or what the Lockstep verifier does not come back from. -/
inductive Trap where
  | outside
  | shift
  | assertion
  | lockstep
  deriving DecidableEq

section Tables

variable {α : Type}

def entry (t : List α) (i : ℕ) : Except Trap α :=
  match t[i]? with
  | some a => .ok a
  | none => .error .outside

def store (t : List α) (i : ℕ) (a : α) : Except Trap (List α) :=
  if i < t.length then .ok (t.set i a) else .error .outside

/-- `memcpy` into a table. -/
def copyIn (t : List α) (off : ℕ) (l : List α) : Except Trap (List α) :=
  if l.length = 0 then .ok t
  else if off + l.length ≤ t.length then .ok (t.take off ++ l ++ t.drop (off + l.length))
  else .error .outside

/-- What stands in a table. -/
def copyOut (t : List α) (off len : ℕ) : Except Trap (List α) :=
  if len = 0 then .ok []
  else if off + len ≤ t.length then .ok ((t.drop off).take len)
  else .error .outside

theorem bind_eq_ok {β : Type} {x : Except Trap α} {f : α → Except Trap β} {b : β} :
    (x >>= f) = .ok b ↔ ∃ a, x = .ok a ∧ f a = .ok b := by
  cases x with
  | error e => exact ⟨fun h => (nomatch h), fun ⟨_, h, _⟩ => (nomatch h)⟩
  | ok a => exact ⟨fun h => ⟨a, rfl, h⟩, fun ⟨_, ha, h⟩ => Except.ok.inj ha ▸ h⟩

theorem entry_eq_ok {t : List α} {i : ℕ} {a : α} : entry t i = .ok a ↔ t[i]? = some a := by
  unfold entry
  cases t[i]? with
  | none => exact ⟨fun h => (nomatch h), fun h => (nomatch h)⟩
  | some b => exact ⟨fun h => congrArg some (Except.ok.inj h), fun h => congrArg Except.ok (Option.some.inj h)⟩

theorem store_eq_ok {t t' : List α} {i : ℕ} {a : α} : store t i a = .ok t' ↔ i < t.length ∧ t' = t.set i a := by
  unfold store
  split
  · next h => exact ⟨fun h' => ⟨h, (Except.ok.inj h').symm⟩, fun h' => congrArg Except.ok h'.2.symm⟩
  · next h => exact ⟨fun h' => (nomatch h'), fun h' => absurd h'.1 h⟩

end Tables

/-! ### The bitset -/

/-- `u3_bitset`. -/
structure Bitset where
  len : UInt32
  buf : List UInt8

/-- `bitset_init`. -/
def bitsetInit (len : UInt32) : Bitset := ⟨len, List.replicate ((len >>> 3).toNat + 1) 0⟩

/-- `bitset_put`. -/
def bitsetPut (b : Bitset) (mem : UInt32) : Except Trap Bitset :=
  if b.len < mem then .ok b
  else do
    let byt ← entry b.buf (mem >>> 3).toNat
    let buf ← store b.buf (mem >>> 3).toNat (UInt8.ofNat (byt.toNat ||| 1 <<< (mem &&& 7).toNat))
    .ok { b with buf }

/-- `bitset_has`. -/
def bitsetHas (b : Bitset) (mem : UInt32) : Except Trap Bool :=
  if b.len < mem then .ok false
  else if ¬ mem < b.len then .error .assertion
  else do
    let byt ← entry b.buf (mem >>> 3).toNat
    .ok (byt.toNat.testBit (mem &&& 7).toNat)

/-! ### Congestion control -/

/-- `u3_pact_stat`. -/
structure PactStat where
  tie : UInt8
  sen : UInt64
  sip : UInt8
  deriving DecidableEq

/-- `u3_gage`. -/
structure Gage where
  rtt : UInt32
  rto : UInt32
  rtv : UInt32
  wnd : UInt32
  wnf : UInt32
  sst : UInt32
  con : UInt32
  deriving DecidableEq

/-- `_abs_dif`. -/
def absDif (ayy bee : UInt64) : UInt64 := if bee < ayy then ayy - bee else bee - ayy

/-- `_clamp_rto`. -/
def clampRto (rto : UInt64) : UInt64 :=
  let least := if 200 * 1000 < rto then rto else 200 * 1000
  if least < 25000 * 1000 then least else 25000 * 1000

/-- `_mesa_handle_ack`. -/
def mesaHandleAck (gag : Gage) (pat : PactStat) (now : UInt64) : Gage :=
  let rttD := if now < pat.sen then 0 else now - pat.sen
  let err := absDif rttD gag.rtt.toUInt64
  let rtt := ((rttD + (gag.rtt * 7).toUInt64) >>> 3).toUInt32
  let rtv := ((err + (gag.rtv * 7).toUInt64) >>> 3).toUInt32
  let gag := { gag with con := gag.con + 1, rtt, rtv, rto := (clampRto (rtt + 4 * rtv).toUInt64).toUInt32 }
  if gag.wnd < gag.sst then { gag with wnd := gag.wnd + 1 }
  else if gag.wnd ≤ gag.wnf + 1 then { gag with wnd := gag.wnd + 1, wnf := 0 }
  else { gag with wnf := gag.wnf + 1 }

/-- `_safe_sub`. -/
def safeSub (a b : UInt64) : UInt64 := if a < b then 0 else a - b

/-! ### The request -/

/-- `lss_hash`. -/
abbrev Hash : Type := Bytes 32

def zeroHash : Hash := ⟨List.replicate 32 0, List.length_replicate⟩

/-- `u3_pend_req`. The template of its peeks has the head `hed` and the name `nam`, with the
fragment that was last filled in. -/
structure PendReq where
  hed : Head
  nam : Name (List UInt8)
  nex : UInt64
  tof : UInt64
  tob : UInt64
  dat : List UInt8
  hav : UInt64
  lef : UInt64
  out : UInt64
  ack : UInt64
  gag : Gage
  mis : List (Hash × Hash)
  los : Lss.Verifier Hash
  wat : List PactStat
  was : Bitset
  pekC : List UInt8
  pek : UInt32

/-- A packet that leaves: the fragment whose slot it is sent from, and its bytes. -/
structure Datagram where
  fra : UInt64
  bytes : List UInt8

/-- `_mesa_req_get_remaining`. -/
def mesaReqGetRemaining (r : PendReq) : UInt64 := r.tof - r.hav

/-- `_mesa_req_get_cwnd`: how many packets to send. -/
def mesaReqGetCwnd (r : PendReq) : UInt32 :=
  let rem := (mesaReqGetRemaining r).toUInt32.toUInt64
  let ava := safeSub r.gag.wnd.toUInt64 r.out
  (if rem < ava then rem else ava).toUInt32

/-- `_mesa_req_pact_resent`. -/
def mesaReqPactResent (r : PendReq) (nam : Name (List UInt8)) (now : UInt64) : Except Trap PendReq := do
  let stat ← entry r.wat nam.fra.toNat
  let wat ← store r.wat nam.fra.toNat { stat with sen := now, tie := stat.tie + 1 }
  .ok { r with wat }

/-- `_mesa_req_pact_sent`. -/
def mesaReqPactSent (r : PendReq) (fra now : UInt64) : Except Trap PendReq := do
  let r := if r.nex = fra then { r with nex := r.nex + 1, out := r.out + 1 } else r
  let stat ← entry r.wat fra.toNat
  let wat ← store r.wat fra.toNat { stat with sen := now, sip := 0, tie := stat.tie + 1 }
  .ok { r with wat }

/-! ### Sending again -/

/-- The loop of `_try_resend`, with `n` more fragments from `i` on; it keeps what it sent. -/
def resendLoop (now : UInt64) : ℕ → UInt64 → PendReq → List Datagram → Except Trap (PendReq × List Datagram)
  | 0, _, r, sent => .ok (r, sent)
  | n + 1, i, r, sent => do
    if ← bitsetHas r.was i.toUInt32 then resendLoop now n (i + 1) r sent
    else
      let stat ← entry r.wat i.toNat
      if r.gag.rto.toUInt64 < now - stat.sen then
        let buf := mesaPeekBuf i r.pek
        let bytes ← copyOut r.pekC buf.base.toNat buf.len.toNat
        -- the name is the template's, whatever `i` is
        let r ← mesaReqPactResent r r.nam now
        resendLoop now n (i + 1) r (sent ++ [⟨i, bytes⟩])
      else resendLoop now n (i + 1) r sent

/-- `_try_resend`: what it sends comes with it. -/
def tryResend (r : PendReq) (nex now : UInt64) : Except Trap (PendReq × List Datagram) := do
  let (r, sent) ← resendLoop now (nex.toNat - r.lef.toNat) r.lef r []
  if sent ≠ [] then
    let sst := if 1 < r.gag.wnd / 2 then r.gag.wnd / 2 else 1
    let rto := (clampRto (r.gag.rto * 2).toUInt64).toUInt32
    .ok ({ r with gag := { r.gag with sst, wnd := sst, rto } }, sent)
  else .ok (r, sent)

/-! ### Sending -/

/-- `mesa_etch_pact_to_buf` into a slot of the peek buffer. -/
def etchPeek (r : PendReq) (buf : Slot) : Except Trap PendReq :=
  match mesaEtchPactToBuf buf.len (peekOf r.hed r.nam r.nam.fra) with
  | .error _ => .error .assertion
  | .ok (bytes, _) => do
    let pekC ← copyIn r.pekC buf.base.toNat bytes
    .ok { r with pekC }

/-- The loop of `_mesa_request_next_fragments`, with `n` more to go. -/
def requestLoop (now : UInt64) (nex : UInt32) : ℕ → UInt32 → PendReq → List Datagram →
    Except Trap (PendReq × List Datagram)
  | 0, _, r, sent => .ok (r, sent)
  | n + 1, i, r, sent =>
    let fra := (nex + i).toUInt64
    if r.tof ≤ fra then .ok (r, sent)
    else do
      let buf := mesaPeekBuf fra r.pek
      let r ← etchPeek { r with nam := { r.nam with fra } } buf
      let r ← mesaReqPactSent r fra now
      let bytes ← copyOut r.pekC buf.base.toNat buf.len.toNat
      requestLoop now nex n (i + 1) r (sent ++ [⟨fra, bytes⟩])

/-- `_mesa_request_next_fragments`. -/
def mesaRequestNextFragments (r : PendReq) (now : UInt64) : Except Trap (PendReq × List Datagram) :=
  requestLoop now r.nex.toUInt32 (mesaReqGetCwnd r).toNat 0 r []

/-! ### Pages -/

/-- The bytes of a block. -/
def blockBytes (boq : UInt8) : UInt32 := UInt32.ofNat (1 <<< (boq.toNat - 3))

/-- `1 << (boq - 3)`. -/
def blockSize (boq : UInt8) : Except Trap UInt32 :=
  if 3 ≤ boq.toNat ∧ boq.toNat < 35 then .ok (blockBytes boq) else .error .shift

/-- How long the block of a fragment is, as `_mesa_burn_misorder_queue` has it. -/
def blockLen (r : PendReq) (fra : UInt64) : ℕ := if fra = r.tof - 1 then (r.tob % 1024).toNat else 1024

/-- A turn of the loop of `_mesa_burn_misorder_queue`: if the fragment is there, it is given to the verifier. -/
def burnOne (X : Lss.Hasher Hash) (r : PendReq) (siz : UInt32) (fra : UInt64) (los : Lss.Verifier Hash) :
    Except Trap (Option (Bool × Lss.Verifier Hash)) := do
  let pur ← entry r.mis fra.toNat
  let par := if pur = (zeroHash, zeroHash) then none else some pur
  if ¬ (← bitsetHas r.was fra.toUInt32) then .ok none
  else
    let leaf ← copyOut r.dat (siz.toUInt64 * fra).toNat (blockLen r fra)
    match Lss.verifierIngest X los leaf par with
    | none => .error .lockstep
    | some p => .ok (some p)

/-- The loop of `_mesa_burn_misorder_queue`: the fragments from `num + ack` on that are there are
given to the verifier. It stops with whether none was refused, and how many were taken. -/
def burnLoop (X : Lss.Hasher Hash) (r : PendReq) (siz : UInt32) (ack : UInt32) :
    ℕ → UInt64 → Lss.Verifier Hash → Except Trap (Bool × UInt64 × Lss.Verifier Hash)
  | 0, num, los => .ok (true, num, los)
  | n + 1, num, los =>
    if ¬ num + ack.toUInt64 < r.tof then .ok (true, num, los)
    else do
      match ← burnOne X r siz (num + ack.toUInt64) los with
      | none => .ok (true, num, los)
      | some (false, los) => .ok (false, num, los)
      | some (true, los) => burnLoop X r siz ack n (num + 1) los

/-- `_mesa_burn_misorder_queue`. -/
def mesaBurnMisorderQueue (X : Lss.Hasher Hash) (r : PendReq) (boq : UInt8) (ack : UInt32) :
    Except Trap (Bool × PendReq) := do
  let siz ← blockSize boq
  let (ok, num, los) ← burnLoop X r siz ack (r.tof.toNat - ack.toNat) 0 r.los
  -- the fragment that came in order is counted with them
  .ok (ok, { r with los, lef := r.lef + (num + 1), hav := r.hav + (num + 1) })

/-- The first part of `_mesa_req_pact_done`: the fragment and its pair are put in their places. -/
def putPage (r : PendReq) (nam : Name (List UInt8)) (dat : Data (List UInt8)) :
    Except Trap (PendReq × Option (Hash × Hash)) := do
  let siz ← blockSize nam.boq
  let buf ← copyIn r.dat (siz.toUInt64 * nam.fra).toNat dat.fra
  match dat.aut with
  | .pair has0 has1 =>
    let mis ← store r.mis nam.fra.toNat (has0, has1)
    .ok ({ r with dat := buf, mis }, some (has0, has1))
  | _ => .ok ({ r with dat := buf }, none)

/-- The last part of `_mesa_req_pact_done`: the fragment is no longer in flight. -/
def ackPage (r : PendReq) (fra now : UInt64) : Except Trap PendReq := do
  let was ← bitsetPut r.was fra.toUInt32
  let stat ← entry r.wat fra.toNat
  .ok { r with out := r.out - 1, was, gag := mesaHandleAck r.gag stat now }

/-- `_mesa_req_pact_done`: `none` where the request is deleted. -/
def mesaReqPactDone (X : Lss.Hasher Hash) (r : PendReq) (nam : Name (List UInt8)) (dat : Data (List UInt8))
    (now : UInt64) : Except Trap (Option PendReq) :=
  -- received past the end of the message
  if mesaNumLeaves dat.tob ≤ nam.fra then .ok (some r)
  else do
    -- received duplicate
    if ← bitsetHas r.was nam.fra.toUInt32 then .ok (some r)
    else
      let (r, par) ← putPage r nam dat
      if r.los.counter ≠ nam.fra.toNat then
        let r ← ackPage r nam.fra now
        .ok (some r)
      else
        match Lss.verifierIngest X r.los dat.fra par with
        | none => .error .lockstep
        | some (false, _) => .ok none
        | some (true, los) =>
          let (ok, r) ← mesaBurnMisorderQueue X { r with los } nam.boq (UInt32.ofNat los.counter)
          if ¬ ok then .ok none
          else
            let r ← ackPage { r with ack := if r.ack < nam.fra then nam.fra else r.ack } nam.fra now
            .ok (some r)

/-- `_mesa_hear_page`, for a request that is pending: a first page that comes again is ignored, and a
message that is there in full ends the request. What it asks for next is an event of its own. -/
def mesaHearPage (X : Lss.Hasher Hash) (r : PendReq) (nam : Name (List UInt8)) (dat : Data (List UInt8))
    (now : UInt64) : Except Trap (Option PendReq) :=
  if nam.nit then .ok (some r)
  else do
    match ← mesaReqPactDone X r nam dat now with
    | none => .ok none
    | some r => .ok (if r.hav = r.tof then none else some r)

/-! ### The first page -/

/-- What is in the memory that the request is allocated in. -/
structure Memory where
  hed : Head
  dat : ℕ → UInt8
  wat : ℕ → PactStat
  pairs : ℕ → Hash × Hash
  pekC : ℕ → UInt8

/-- The hashes of a proof that stands in the bytes of a fragment. -/
def proofOf (fra : List UInt8) (len : ℕ) : List Hash :=
  (List.range len).map fun i =>
    if h : ((fra.drop (32 * i)).take 32).length = 32 then ⟨(fra.drop (32 * i)).take 32, h⟩ else zeroHash

/-- `_mesa_req_pact_init`: `none` where there is no request after all. -/
def mesaReqPactInit (mem : Memory) (gag : Gage) (nam : Name (List UInt8)) (dat : Data (List UInt8)) :
    Except Trap (Option PendReq) := do
  if nam.boq ≠ 13 then .error .assertion
  else
    let tof := mesaNumLeaves dat.tob
    if tof = 1 then .error .assertion
    else
      let pof := Lss.proofSize tof.toUInt32.toNat
      if dat.fra.length ≠ pof * 32 then .ok none
      else
        match Lss.verifierInit mem.pairs 0 tof.toUInt32.toNat (proofOf dat.fra pof) with
        | none => .error .lockstep
        | some los =>
          .ok (some {
            hed := mem.hed
            nam := { nam with nit := false, aut := false }
            nex := 0
            tof
            tob := dat.tob
            dat := (List.range dat.tob.toNat).map mem.dat
            hav := 0
            lef := 0
            out := 0
            ack := 0
            gag
            mis := List.replicate tof.toNat (zeroHash, zeroHash)
            los
            wat := (List.range (tof.toNat + 2)).map mem.wat
            was := bitsetInit tof.toUInt32
            pekC := (List.range dat.tob.toNat).map mem.pekC
            pek := peekWidth mem.hed nam })

end Mesa
end Ursockets

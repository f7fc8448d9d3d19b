/-
# What the reception of a datagram reads

A datagram is a buffer in memory and its length. It is tried for STUN first; then a header of four bytes
is parsed, the mug of the rest is checked, and the prelude and what comes after it are parsed (`vere/io/ames.c`).
Each function is given with the spans of the buffer that it reads.

The header, the prelude and the path are tested for before they are read. Not so the origin that the mug leaves out,
when the datagram is shorter; the last byte of a wail's numbers, as its tag is not counted; the check sum
of a fingerprint; and the address in an answer to us.

Key definitions: `stunHasFingerprint`, `amesCheckMug`, `amesSiftPrel`, `fineSiftWail`, `fineSiftMeow`,
`amesHear`, `Meets`.
Key theorems: `inside_wail`, `hear_iff`, `val_meow`, `receive_inside_iff`.
-/
import Ursockets.Fine
import Ursockets.Lib.Octets
import Ursockets.Lib.Reads

namespace Ursockets
namespace Ames

open Octets Reads

/-! ### STUN -/

/-- The cookie 0x2112A442, as it is sent. -/
def cookie : List UInt8 := [0x21, 0x12, 0xa4, 0x42]

/-- The type and the length of a fingerprint. -/
def fingerprint : List UInt8 := [0x80, 0x28, 0x00, 0x04]

/-- The type and the length of a mapped address. -/
def xorMapped : List UInt8 := [0x00, 0x20, 0x00, 0x08]

def htonl (n : ℕ) : ℕ := num (ofNum 4 n).reverse

/-- `u3_lane` -/
structure Lane where
  por : ℕ
  pip : ℕ

section Stun

variable (crc32 : List UInt8 → ℕ) (hun : ℕ → UInt8) (len : ℕ)

/-- `_stun_has_fingerprint` -/
def stunHasFingerprint : Reads Bool :=
  if len < 28 then pure false
  else do
    let hay ← span hun 20 (len - 20)
    match memmem fingerprint hay with
    | none => pure false
    | some k => do
      let lin := 20 + k
      let fin ← span hun (lin + 4) 4
      let bod ← span hun 0 lin
      pure (num fin = htonl (crc32 bod ^^^ 0x5354554e) ∧ lin + 8 = len)

/-- The type and the cookie of a message, with what is tested after them. -/
def stunTyped (hi lo : UInt8) (next : Reads Bool) : Reads Bool := do
  let b0 ← byte hun 0
  if b0 ≠ hi then pure false else do
    let b1 ← byte hun 1
    if b1 ≠ lo then pure false else do
      let cok ← span hun 4 4
      if cok ≠ cookie then pure false else next

/-- `u3_stun_is_request` -/
def stunIsRequest : Reads Bool :=
  if 28 ≤ len then stunTyped hun 0 1 (stunHasFingerprint crc32 hun len) else pure false

/-- `u3_stun_is_our_response` -/
def stunIsOurResponse (tid : List UInt8) : Reads Bool :=
  if len = 40 then stunTyped hun 1 1 do
    let tad ← span hun 8 12
    if tad ≠ tid then pure false else stunHasFingerprint crc32 hun len
  else pure false

/-- `u3_stun_find_xor_mapped_address` -/
def stunFindXorMappedAddress : Reads (Option Lane) :=
  if len < 40 then pure none
  else do
    let hay ← span hun 20 (len - 20)
    match memmem xorMapped hay with
    | none => pure none
    | some k => do
      let cur := 20 + k + 4
      let b0 ← byte hun cur
      -- the second byte is read only if the first is not zero
      let b1 ← (if b0 ≠ 0 then byte hun (cur + 1) else pure 1)
      if b0 ≠ 0 ∧ b1 ≠ 1 then pure none else do
        let por ← span hun (cur + 2) 2
        let pip ← span hun (cur + 4) 4
        pure (some ⟨num por.reverse ^^^ 0x2112, num pip.reverse ^^^ 0x2112a442⟩)

end Stun

/-! ### Packets -/

/-- `u3_head` -/
structure Head where
  req : Bool
  sim : Bool
  ver : ℕ
  sac : ℕ
  rac : ℕ
  mug : ℕ
  rel : Bool

/-- `u3_prel` -/
structure Prel where
  sic : ℕ
  ric : ℕ
  senD : ℕ × ℕ
  recD : ℕ × ℕ
  rogD : ℕ

/-- `u3_wail`, with its `u3_peep`. -/
structure Wail where
  tag : UInt8
  fra : ℕ
  len : ℕ
  pat : List UInt8

/-- `u3_ptag` -/
inductive Ptag where
  | ames
  | wail
  | purr
  deriving DecidableEq

/-- `_ames_pact_typ` -/
def amesPactTyp (hed : Head) : Ptag := if hed.sim then .ames else if hed.req then .wail else .purr

/-- `_ames_origin_size` -/
def amesOriginSize (hed : Head) : ℕ := if hed.rel then 6 else 0

/-- `_ames_prel_size` -/
def amesPrelSize (hed : Head) : ℕ := 1 + (2 <<< hed.sac) + (2 <<< hed.rac) + amesOriginSize hed

/-- What reception asks of the driver: if it filters versions, can scry for lanes and forwards; its version, the
ship, and its last STUN transaction. -/
structure Sam where
  fit : Bool
  see : Bool
  forO : Bool
  ver : ℕ
  who : ℕ × ℕ
  tid : List UInt8

section Packet

variable (hun : ℕ → UInt8) (len : ℕ)

/-- `_ames_sift_head`; yes is 0. -/
def amesSiftHead : Reads Head := do
  let buf ← span hun 0 4
  let hed := num buf
  pure {
    req := hed / 2 ^ 2 % 2 = 0
    sim := hed / 2 ^ 3 % 2 = 0
    ver := hed / 2 ^ 4 % 2 ^ 3
    sac := hed / 2 ^ 7 % 2 ^ 2
    rac := hed / 2 ^ 9 % 2 ^ 2
    mug := hed / 2 ^ 11 % 2 ^ 20
    rel := hed / 2 ^ 31 % 2 = 0 }

/-- `_ames_check_mug`: what comes after the header and the origin, with a length that is a word. -/
def amesCheckMug (hed : Head) : Reads Bool := do
  let rog := 4 + amesOriginSize hed
  let buf ← span hun rog ((len + 4294967296 - rog) % 4294967296)
  pure ((Noun.mugBytes buf).toNat % 2 ^ 20 = hed.mug % 2 ^ 20)

/-- `_ames_ship_to_chubs` -/
def amesShipToChubs (siz off : ℕ) : Reads (ℕ × ℕ) := do
  let sip ← span hun off (min 16 siz)
  pure (num sip % 2 ^ 64, num sip / 2 ^ 64)

/-- `_ames_sift_prel` -/
def amesSiftPrel (hed : Head) (cur : ℕ) : Reads Prel := do
  let rag ← (if hed.rel then span hun cur 6 else pure [])
  let cur := cur + amesOriginSize hed
  let lif ← byte hun cur
  let sen ← amesShipToChubs hun (2 <<< hed.sac) (cur + 1)
  let rcv ← amesShipToChubs hun (2 <<< hed.rac) (cur + 1 + (2 <<< hed.sac))
  pure ⟨lif.toNat % 16, lif.toNat / 16, sen, rcv, num rag⟩

/-- `_fine_sift_wail`; the length that is tested for leaves out the tag. -/
def fineSiftWail (cur : ℕ) : Reads (Option Wail) :=
  if len < cur + (4 + 2) then pure none
  else do
    let tag ← byte hun cur
    if tag ≠ 0 then pure none else do
      let fra ← span hun (cur + 1) 4
      let siz ← span hun (cur + 1 + 4) 2
      if 384 < num siz then pure none
      else if cur + 1 + 4 + 2 + num siz ≠ len then pure none else do
        let pat ← span hun (cur + 1 + 4 + 2) (num siz)
        pure (some ⟨tag, num fra, num siz, pat⟩)

/-- What comes of a datagram: a STUN message, a drop (with its counter), a packet for another ship, a
request of fine, or a packet for Arvo. -/
inductive Heard where
  | stunRequest (req : List UInt8)
  | stunResponse (lan : Option Lane)
  | hed
  | vet
  | mut
  | pre
  | wal
  | kept
  | forward (pre : Prel) (bod : List UInt8)
  | request (pre : Prel) (wal : Wail)
  | response (msg : ℕ)
  | ames (msg : ℕ)

/-- `_ames_try_forward`: a packet without an origin, from no galaxy, is copied after its header; another is
sent as it is. -/
def amesTryForward (hed : Head) (pre : Prel) : Reads Heard :=
  if ¬ hed.rel ∧ ¬ (pre.senD.1 < 256 ∧ pre.senD.2 = 0) then do
    let bod ← span hun 4 (len - 4)
    pure (.forward pre bod)
  else do
    let bod ← span hun 0 len
    pure (.forward pre bod)

/-- `_fine_hear_request`, `_fine_hear_response` and `_ames_hear_ames`, as far as they read the datagram. -/
def amesHearTyp (hed : Head) (pre : Prel) (cur : ℕ) : Reads Heard :=
  match amesPactTyp hed with
  | .wail => do
    let wal ← fineSiftWail hun len cur
    match wal with
    | none => pure .wal
    | some wal => pure (.request pre wal)
  | .purr => do
    let msg ← span hun 0 len
    pure (.response (num msg))
  | .ames => do
    let msg ← span hun 0 len
    pure (.ames (num msg))

/-- `_ames_hear`, of what is no STUN message. -/
def amesHearPact (sam : Sam) : Reads Heard :=
  if len < 4 then pure .hed
  else do
    let hed ← amesSiftHead hun
    if sam.fit ∧ sam.ver ≠ hed.ver then pure .vet else do
      let mug ← amesCheckMug hun len hed
      if ¬ mug then pure .mut
      else if len < 4 + amesPrelSize hed then pure .pre
      else do
        let pre ← amesSiftPrel hun hed 4
        if sam.see ∧ pre.recD ≠ sam.who then
          if sam.forO then amesTryForward hun len hed pre else pure .kept
        else amesHearTyp hun len hed pre (4 + amesPrelSize hed)

/-- `_ames_hear` -/
def amesHear (crc32 : List UInt8 → ℕ) (sam : Sam) : Reads Heard := do
  let req ← stunIsRequest crc32 hun len
  if req then do
    let req ← span hun 0 20
    pure (.stunRequest req)
  else do
    let rep ← stunIsOurResponse crc32 hun len sam.tid
    if rep then do
      let lan ← stunFindXorMappedAddress hun len
      pure (.stunResponse lan)
    else amesHearPact hun len sam

end Packet

/-! ### Fragments -/

/-- `u3r_bytes`, of an atom that is no direct one. -/
def u3rBytes (a b d : ℕ) : Reads (List UInt8) :=
  let n := 4 * words d
  if n ≤ a then pure (List.replicate b 0)
  else do
    let z := min b (n - a)
    let buf ← span (fun i => UInt8.ofNat (d / 256 ^ i)) a z
    pure (buf ++ List.replicate (b - z) 0)

/-- `_fine_sift_meow`, of a fragment from the cache. -/
def fineSiftMeow (mew : ℕ) : Reads (Option Fine.Meow) :=
  let len := Noun.met3 mew
  if len < 64 + 1 ∨ 64 + 4 + 1024 < len then pure none
  else do
    let sig ← u3rBytes 0 64 mew
    let nam ← u3rBytes 64 4 mew
    let cur := 64 + min 4 (len - 64)
    let dat ← (if len - cur = 0 then pure [] else u3rBytes cur (len - cur) mew)
    pure (some ⟨num sig, num nam, len - cur, num dat⟩)

/-! ### The condition -/

section Condition

variable (crc32 : List UInt8 → ℕ) (sam : Sam) (hun : ℕ → UInt8) (len : ℕ)

/-- The four bytes from 4 on are the cookie. -/
def Cookie : Prop := (span hun 4 4).val = cookie

/-- A datagram is looked through for a fingerprint. -/
def Probed : Prop :=
  (28 ≤ len ∧ hun 0 = 0 ∧ hun 1 = 1 ∧ Cookie hun) ∨
    (len = 40 ∧ hun 0 = 1 ∧ hun 1 = 1 ∧ Cookie hun ∧ (span hun 8 12).val = sam.tid)

/-- Where a mark stands first after a STUN header. -/
def Marked (mark : List UInt8) (lin : ℕ) : Prop :=
  ∃ k, memmem mark (span hun 20 (len - 20)).val = some k ∧ lin = 20 + k

/-- The header of a datagram. -/
def header : Head := (amesSiftHead hun).val

/-- A datagram is no STUN message, and its header is taken. -/
def Taken : Prop :=
  (stunIsRequest crc32 hun len).val = false ∧ (stunIsOurResponse crc32 hun len sam.tid).val = false ∧ 4 ≤ len ∧
    ¬ (sam.fit ∧ sam.ver ≠ (header hun).ver)

/-- A datagram is a wail for this ship, and so far in order. -/
def Wailed : Prop :=
  Taken crc32 sam hun len ∧ (amesCheckMug hun len (header hun)).val = true ∧ 4 + amesPrelSize (header hun) ≤ len ∧
    ¬ (sam.see ∧ (amesSiftPrel hun (header hun) 4).val.recD ≠ sam.who) ∧ amesPactTyp (header hun) = .wail

/-- The condition: a fingerprint that is looked at, and the address in an answer to us, are there to their
ends, a datagram that is relayed has its origin, and a wail with a tag of zero is not
one byte short of its numbers. -/
structure Meets : Prop where
  sum : Probed sam hun len → ∀ lin, Marked hun len fingerprint lin → lin + 8 ≤ len
  address : (stunIsOurResponse crc32 hun len sam.tid).val = true → ∀ fin, Marked hun len xorMapped fin → fin + 12 ≤ len
  origin : Taken crc32 sam hun len → (header hun).rel = true → 10 ≤ len
  numbers : Wailed crc32 sam hun len → hun (4 + amesPrelSize (header hun)) = 0 →
    len ≠ 4 + amesPrelSize (header hun) + 6

end Condition

/-! ### What each function reads -/

variable {crc32 : List UInt8 → ℕ} {sam : Sam} {hun : ℕ → UInt8} {len : ℕ}

theorem inside_fingerprint (h : 28 ≤ len) : Inside len (stunHasFingerprint crc32 hun len) ↔
    ∀ lin, Marked hun len fingerprint lin → lin + 8 ≤ len := by
  rw [stunHasFingerprint, if_neg (Nat.not_lt.mpr h), inside_bind, inside_span, and_iff_right (by omega)]
  cases hk : memmem fingerprint (span hun 20 (len - 20)).val with
  | none =>
    refine iff_of_true (inside_pure _) fun lin hm => ?_
    obtain ⟨k, hk', -⟩ := hm
    exact absurd (hk.symm.trans hk') (fun h => nomatch h)
  | some k =>
    simp only [inside_bind, inside_span, inside_pure, and_true]
    have hin := (memmem_span hk (by decide)).1
    have hlen : fingerprint.length = 4 := rfl
    constructor
    · rintro ⟨hread, -⟩ lin ⟨k', hk', rfl⟩
      obtain rfl := Option.some.inj (hk.symm.trans hk')
      exact hread
    · intro hall
      exact ⟨hall _ ⟨k, hk, rfl⟩, by omega⟩

theorem inside_typed (h : 8 ≤ len) (hi lo : UInt8) (next : Reads Bool) : Inside len (stunTyped hun hi lo next) ↔
    (hun 0 = hi → hun 1 = lo → Cookie hun → Inside len next) := by
  simp only [stunTyped, inside_bind, inside_guard, inside_byte, inside_span, not_not]
  constructor
  · intro hr h0 h1 hc
    exact ((hr.2 h0).2 h1).2 hc
  · intro hr
    exact ⟨by omega, fun h0 => ⟨by omega, fun h1 => ⟨by omega, hr h0 h1⟩⟩⟩

/-- What passes the type and the cookie. -/
theorem typed_val {hi lo : UInt8} {next : Reads Bool} (h : (stunTyped hun hi lo next).val = true) :
    hun 0 = hi ∧ next.val = true := by
  rw [stunTyped, val_bind] at h
  split at h
  · cases h
  rename_i h0
  rw [val_bind] at h
  split at h
  · cases h
  rw [val_bind] at h
  split at h
  · cases h
  · exact ⟨not_not.mp h0, h⟩

theorem inside_isRequest : Inside len (stunIsRequest crc32 hun len) ↔
    (28 ≤ len → hun 0 = 0 → hun 1 = 1 → Cookie hun → ∀ lin, Marked hun len fingerprint lin → lin + 8 ≤ len) := by
  rw [stunIsRequest]
  by_cases h : 28 ≤ len
  · rw [if_pos h, inside_typed (by omega), inside_fingerprint h, forall_prop_of_true h]
  · rw [if_neg h]
    exact iff_of_true (inside_pure _) fun h28 => absurd h28 h

theorem inside_isOurResponse (tid : List UInt8) : Inside len (stunIsOurResponse crc32 hun len tid) ↔
    (len = 40 → hun 0 = 1 → hun 1 = 1 → Cookie hun → (span hun 8 12).val = tid →
      ∀ lin, Marked hun len fingerprint lin → lin + 8 ≤ len) := by
  rw [stunIsOurResponse]
  by_cases h : len = 40
  · rw [if_pos h, inside_typed (by omega), forall_prop_of_true h, inside_bind, inside_span, inside_guard, not_not,
      inside_fingerprint (by omega), and_iff_right (by omega)]
  · rw [if_neg h]
    exact iff_of_true (inside_pure _) fun h40 => absurd h40 h

/-- An answer to us is 40 bytes long, with its fingerprint at the end. -/
theorem response_val {tid : List UInt8} (h : (stunIsOurResponse crc32 hun len tid).val = true) :
    len = 40 ∧ Marked hun len fingerprint 32 := by
  rw [stunIsOurResponse] at h
  split_ifs at h with hlen
  · refine ⟨hlen, ?_⟩
    have hnext := (typed_val h).2
    rw [val_bind] at hnext
    split at hnext
    · cases hnext
    · rw [stunHasFingerprint, if_neg (by omega), val_bind] at hnext
      split at hnext
      · cases hnext
      · rename_i k hk
        have hend := (of_decide_eq_true hnext).2
        exact ⟨k, hk, by omega⟩

/-- A mapped address beside the fingerprint at the end is before it, or the sum looks like one. -/
theorem mapped_place (h : Marked hun 40 fingerprint 32) {fin : ℕ} (hm : Marked hun 40 xorMapped fin) :
    fin ≤ 28 ∨ fin = 36 := by
  obtain ⟨k, hk, hlin⟩ := h
  obtain ⟨j, hj, rfl⟩ := hm
  obtain ⟨-, hfp⟩ := memmem_span hk (by decide)
  obtain ⟨hjn, hxor⟩ := memmem_span hj (by decide)
  have hjle : j ≤ 16 := by
    have hlen : xorMapped.length = 4 := rfl
    omega
  obtain rfl : k = 12 := by omega
  have f0 : hun 32 = 0x80 := hfp 0 (by decide)
  have f1 : hun 33 = 0x28 := hfp 1 (by decide)
  have f2 : hun 34 = 0x00 := hfp 2 (by decide)
  have f3 : hun 35 = 0x04 := hfp 3 (by decide)
  have x0 : hun (20 + j + 0) = 0x00 := hxor 0 (by decide)
  have x1 : hun (20 + j + 1) = 0x20 := hxor 1 (by decide)
  have x2 : hun (20 + j + 2) = 0x00 := hxor 2 (by decide)
  have x3 : hun (20 + j + 3) = 0x08 := hxor 3 (by decide)
  by_contra hnot
  -- at each place between, the two marks have a byte in common that they differ in
  obtain rfl | rfl | rfl | rfl | rfl | rfl | rfl : j = 9 ∨ j = 10 ∨ j = 11 ∨ j = 12 ∨ j = 13 ∨ j = 14 ∨ j = 15 := by
    omega
  · exact absurd (f0.symm.trans x3) (by decide)
  · exact absurd (f0.symm.trans x2) (by decide)
  · exact absurd (f0.symm.trans x1) (by decide)
  · exact absurd (f0.symm.trans x0) (by decide)
  · exact absurd (f1.symm.trans x0) (by decide)
  · exact absurd (f3.symm.trans x1) (by decide)
  · exact absurd (f3.symm.trans x0) (by decide)

theorem inside_address (hlen : len = 40) (hfp : Marked hun len fingerprint 32) :
    Inside len (stunFindXorMappedAddress hun len) ↔ ∀ fin, Marked hun len xorMapped fin → fin + 12 ≤ len := by
  subst hlen
  rw [stunFindXorMappedAddress, if_neg (by decide), inside_bind, inside_span, and_iff_right (by decide)]
  cases hk : memmem xorMapped (span hun 20 (40 - 20)).val with
  | none =>
    refine iff_of_true (inside_pure _) fun lin hm => ?_
    obtain ⟨k, hk', -⟩ := hm
    exact absurd (hk.symm.trans hk') (fun h => nomatch h)
  | some k =>
    simp only [inside_bind, inside_ite, inside_byte, inside_span, inside_pure]
    constructor
    · rintro ⟨hread, -⟩ lin ⟨k', hk', rfl⟩
      obtain rfl := Option.some.inj (hk.symm.trans hk')
      obtain hle | heq := mapped_place hfp ⟨k, hk, rfl⟩
      · omega
      · omega
    · intro hall
      have hle := hall _ ⟨k, hk, rfl⟩
      have hends : 20 + k + 4 + 2 + 2 ≤ 40 ∧ 20 + k + 4 + 4 + 4 ≤ 40 := by omega
      exact ⟨by omega, ⟨fun _ => by omega, fun _ => trivial⟩, fun _ => trivial, fun _ => ⟨hends.1, hends.2, trivial⟩⟩

theorem inside_head (h : 4 ≤ len) : Inside len (amesSiftHead hun) := by
  rw [amesSiftHead, inside_bind, inside_span]
  exact ⟨h, inside_pure _⟩

/-- The mug is of what comes after an origin, which must be there. -/
theorem inside_mug (h : 4 ≤ len) (hw : len < 4294967296) (hed : Head) :
    Inside len (amesCheckMug hun len hed) ↔ (hed.rel = true → 10 ≤ len) := by
  rw [amesCheckMug, inside_bind, inside_span, and_iff_left (inside_pure _), amesOriginSize]
  cases hed.rel with
  | false =>
    rw [if_neg Bool.false_ne_true]
    exact iff_of_true (by omega) fun h => absurd h Bool.false_ne_true
  | true =>
    rw [if_pos rfl, forall_prop_of_true rfl]
    omega

theorem inside_chubs {siz off : ℕ} (h : off + siz ≤ len) : Inside len (amesShipToChubs hun siz off) := by
  rw [amesShipToChubs, inside_bind, inside_span]
  exact ⟨by omega, inside_pure _⟩

/-- The prelude is as long as its size says. -/
theorem inside_prel {hed : Head} {cur : ℕ} (h : cur + amesPrelSize hed ≤ len) :
    Inside len (amesSiftPrel hun hed cur) := by
  rw [amesPrelSize] at h
  simp only [amesSiftPrel, inside_bind, inside_byte, inside_pure, and_true]
  generalize 2 <<< hed.sac = sen at h ⊢
  generalize 2 <<< hed.rac = rcv at h ⊢
  refine ⟨?_, by omega, inside_chubs (by omega), inside_chubs (by omega)⟩
  rw [amesOriginSize] at h
  cases hrel : hed.rel with
  | false => exact inside_pure _
  | true =>
    rw [hrel, if_pos rfl] at h
    rw [if_pos rfl, inside_span]
    omega

/-- **A wail is parsed inside the datagram** just when it is not one byte short of its numbers. -/
theorem inside_wail (cur : ℕ) : Inside len (fineSiftWail hun len cur) ↔ (hun cur = 0 → len ≠ cur + 6) := by
  simp only [fineSiftWail, inside_bind, inside_guard, inside_byte, inside_span, inside_pure, and_true, not_lt, not_not]
  rw [val_byte]
  constructor
  · intro h h0 hlen
    have := (h (by omega)).2 h0
    omega
  · intro h hlen
    refine ⟨by omega, fun h0 => ?_⟩
    have hne := h h0
    exact ⟨by omega, by omega, fun _ hend => by omega⟩

theorem inside_forward (h : 4 ≤ len) (hed : Head) (pre : Prel) : Inside len (amesTryForward hun len hed pre) := by
  simp only [amesTryForward, inside_ite, inside_bind, inside_span, inside_pure, and_true]
  exact ⟨fun _ => by omega, fun _ => by omega⟩

theorem inside_typ (hed : Head) (pre : Prel) (cur : ℕ) : Inside len (amesHearTyp hun len hed pre cur) ↔
    (amesPactTyp hed = .wail → hun cur = 0 → len ≠ cur + 6) := by
  rw [amesHearTyp]
  cases amesPactTyp hed with
  | wail =>
    rw [forall_prop_of_true rfl, ← inside_wail]
    refine (inside_bind _ _).trans (and_iff_left ?_)
    cases (fineSiftWail hun len cur).val with
    | none => exact inside_pure _
    | some wal => exact inside_pure _
  | purr =>
    refine iff_of_true ?_ (by intro h; cases h)
    simp only [inside_bind, inside_span, inside_pure, Nat.zero_add, le_refl, and_true]
  | ames =>
    refine iff_of_true ?_ (by intro h; cases h)
    simp only [inside_bind, inside_span, inside_pure, Nat.zero_add, le_refl, and_true]

/-- A packet that is no STUN message. -/
theorem inside_pact (hw : len < 4294967296) : Inside len (amesHearPact hun len sam) ↔
    (4 ≤ len → ¬ (sam.fit ∧ sam.ver ≠ (header hun).ver) → ((header hun).rel = true → 10 ≤ len) ∧
      ((amesCheckMug hun len (header hun)).val = true → 4 + amesPrelSize (header hun) ≤ len →
        ¬ (sam.see ∧ (amesSiftPrel hun (header hun) 4).val.recD ≠ sam.who) → amesPactTyp (header hun) = .wail →
        hun (4 + amesPrelSize (header hun)) = 0 → len ≠ 4 + amesPrelSize (header hun) + 6)) := by
  rw [amesHearPact, inside_guard, not_lt]
  refine imp_congr_right fun h4 => ?_
  rw [inside_bind, and_iff_right (inside_head h4), inside_guard]
  refine imp_congr_right fun _ => ?_
  rw [inside_bind, inside_mug h4 hw, inside_guard, inside_guard, not_not, not_lt]
  refine and_congr_right fun _ => imp_congr_right fun _ => imp_congr_right fun hpre => ?_
  rw [inside_bind, and_iff_right (inside_prel hpre), inside_ite, inside_typ]
  refine and_iff_right fun _ => ?_
  rw [inside_ite]
  exact ⟨fun _ => inside_forward h4 _ _, fun _ => inside_pure _⟩

/-- A datagram is looked through when it is tried for a request, or for an answer to us. -/
theorem forall_probed {p : Prop} : (Probed sam hun len → p) ↔
    (28 ≤ len → hun 0 = 0 → hun 1 = 1 → Cookie hun → p) ∧
      (len = 40 → hun 0 = 1 → hun 1 = 1 → Cookie hun → (span hun 8 12).val = sam.tid → p) := by
  rw [Probed, or_imp]
  simp only [and_imp]

theorem request_first (h : (stunIsRequest crc32 hun len).val = true) : 28 ≤ len ∧ hun 0 = 0 := by
  rw [stunIsRequest] at h
  split_ifs at h with h28
  exact ⟨h28, (typed_val h).1⟩

theorem response_first {tid : List UInt8} (h : (stunIsOurResponse crc32 hun len tid).val = true) : hun 0 = 1 := by
  rw [stunIsOurResponse] at h
  split_ifs at h
  exact (typed_val h).1

/-- A request is read inside when its fingerprint is. -/
theorem hear_request (h : (stunIsRequest crc32 hun len).val = true) :
    Inside len (amesHear hun len crc32 sam) ↔ Meets crc32 sam hun len := by
  obtain ⟨h28, h0⟩ := request_first h
  have hne : ¬ hun 0 = 1 := fun h1 => absurd (h0.symm.trans h1) (by decide)
  have hcopy : Inside len (span hun 0 20 >>= fun req => pure (Heard.stunRequest req)) := by
    rw [inside_bind, inside_span]
    exact ⟨by omega, inside_pure _⟩
  rw [amesHear, inside_bind, inside_isRequest, if_pos h, and_iff_left hcopy]
  constructor
  · intro hr
    exact
      { sum := forall_probed.mpr ⟨hr, fun _ h1 => absurd h1 hne⟩
        address := fun hrep => absurd (response_first hrep) hne
        origin := fun ht => absurd (ht.1.symm.trans h) Bool.false_ne_true
        numbers := fun hw => absurd (hw.1.1.symm.trans h) Bool.false_ne_true }
  · intro hm
    exact (forall_probed.mp hm.sum).1

/-- An answer to us is read inside when its fingerprint and its address are. -/
theorem hear_response (hreq : (stunIsRequest crc32 hun len).val = false)
    (h : (stunIsOurResponse crc32 hun len sam.tid).val = true) :
    Inside len (amesHear hun len crc32 sam) ↔ Meets crc32 sam hun len := by
  obtain ⟨h40, hmark⟩ := response_val h
  have hneg : ¬ (stunIsRequest crc32 hun len).val = true := fun ht => absurd (hreq.symm.trans ht) Bool.false_ne_true
  rw [amesHear, inside_bind, inside_isRequest, if_neg hneg, inside_bind, inside_isOurResponse, if_pos h, inside_bind,
    inside_address h40 hmark, and_iff_left (inside_pure _)]
  constructor
  · rintro ⟨hr, ho, haddr⟩
    exact
      { sum := forall_probed.mpr ⟨hr, ho⟩
        address := fun _ => haddr
        origin := fun ht => absurd (ht.2.1.symm.trans h) Bool.false_ne_true
        numbers := fun hw => absurd (hw.1.2.1.symm.trans h) Bool.false_ne_true }
  · intro hm
    obtain ⟨hr, ho⟩ := forall_probed.mp hm.sum
    exact ⟨hr, ho, hm.address h⟩

/-- **Reception reads inside the datagram just when the condition holds.** -/
theorem hear_iff (hw : len < 4294967296) : Inside len (amesHear hun len crc32 sam) ↔ Meets crc32 sam hun len := by
  cases hreq : (stunIsRequest crc32 hun len).val with
  | true => exact hear_request hreq
  | false =>
  cases hrep : (stunIsOurResponse crc32 hun len sam.tid).val with
  | true => exact hear_response hreq hrep
  | false =>
    rw [amesHear, inside_bind, inside_isRequest, hreq, if_neg Bool.false_ne_true, inside_bind, inside_isOurResponse,
      hrep, if_neg Bool.false_ne_true, inside_pact hw]
    constructor
    · rintro ⟨hr, ho, hp⟩
      exact
        { sum := forall_probed.mpr ⟨hr, ho⟩
          address := fun h => absurd (hrep.symm.trans h) Bool.false_ne_true
          origin := fun ⟨_, _, h4, hv⟩ => (hp h4 hv).1
          numbers := fun ⟨⟨_, _, h4, hv⟩, hmug, hpre, hwho, htyp⟩ => (hp h4 hv).2 hmug hpre hwho htyp }
    · intro hm
      obtain ⟨hr, ho⟩ := forall_probed.mp hm.sum
      refine ⟨hr, ho, fun h4 hv => ?_⟩
      have ht : Taken crc32 sam hun len := ⟨hreq, hrep, h4, hv⟩
      exact ⟨hm.origin ht, fun hmug hpre hwho htyp => hm.numbers ⟨ht, hmug, hpre, hwho, htyp⟩⟩

/-! ### Fragments stay inside -/

theorem inside_u3rBytes (a b d : ℕ) : Inside (4 * words d) (u3rBytes a b d) := by
  rw [u3rBytes, inside_guard]
  intro h
  rw [inside_bind, inside_span]
  exact ⟨by omega, inside_pure _⟩

/-- **A fragment is parsed inside its atom's words.** -/
theorem inside_meow (mew : ℕ) : Inside (4 * words mew) (fineSiftMeow mew) := by
  rw [fineSiftMeow, inside_guard]
  intro _
  simp only [inside_bind, inside_pure, and_true]
  refine ⟨inside_u3rBytes _ _ _, inside_u3rBytes _ _ _, ?_⟩
  rw [inside_guard]
  exact fun _ => inside_u3rBytes _ _ _

/-- `u3r_bytes` gives the number's bytes, and zeros past its words. -/
theorem num_u3rBytes (a b d : ℕ) : num (u3rBytes a b d).val = d / 256 ^ a % 256 ^ b := by
  have hd : d < 256 ^ (4 * words d) := words_le_iff.mp (Nat.le_refl _)
  have hzero (n : ℕ) : num (List.replicate n 0) = 0 := num_eq_zero_iff.mpr fun _ hb => List.eq_of_mem_replicate hb
  rw [u3rBytes]
  by_cases h : 4 * words d ≤ a
  · have hlt : d < 256 ^ a := lt_of_lt_of_le hd (Nat.pow_le_pow_right (by decide) h)
    rw [if_pos h, val_pure, hzero, Nat.div_eq_of_lt hlt, Nat.zero_mod]
  · have hbytes (z : ℕ) : (span (fun i => UInt8.ofNat (d / 256 ^ i)) a z).val = ofNum z (d / 256 ^ a) := by
      rw [ofNum_eq_map, val_span]
      refine List.map_congr_left fun i _ => ?_
      rw [Nat.pow_add, Nat.div_div_eq_div_mul]
    have hrest : d / 256 ^ a < 256 ^ (4 * words d - a) := by
      refine Nat.div_lt_of_lt_mul ?_
      rwa [← Nat.pow_add, Nat.add_sub_cancel' (by omega)]
    rw [if_neg h, val_bind, val_pure, hbytes, num_append, hzero, Nat.mul_zero, Nat.add_zero, num_ofNum_mod]
    rcases Nat.le_total b (4 * words d - a) with hle | hle
    · rw [Nat.min_eq_left hle]
    · have hwide := lt_of_lt_of_le hrest (Nat.pow_le_pow_right (by decide : 0 < 256) hle)
      rw [Nat.min_eq_right hle, Nat.mod_eq_of_lt hrest, Nat.mod_eq_of_lt hwide]

/-- The fragment that is parsed is the one that the cache's requests are answered with. -/
theorem val_meow (mew : ℕ) : (fineSiftMeow mew).val = Fine.fineSiftMeow mew := by
  have hpow (n : ℕ) : 2 ^ (8 * n) = 256 ^ n := by rw [Nat.pow_mul]
  rw [fineSiftMeow, Fine.fineSiftMeow]
  split_ifs with h
  · rfl
  · have hdat (cur n : ℕ) :
        num (if n = 0 then pure [] else u3rBytes cur n mew : Reads _).val = mew / 256 ^ cur % 256 ^ n := by
      split_ifs with hn
      · rw [hn, Nat.pow_zero, Nat.mod_one, val_pure, num]
      · exact num_u3rBytes cur n mew
    simp only [val_bind, val_pure, num_u3rBytes, hdat, hpow, Nat.pow_zero, Nat.div_one]

/-- **The reception path reads inside what it is given**, a datagram or a fragment, just when the datagram meets the
condition. -/
theorem receive_inside_iff (crc32 : List UInt8 → ℕ) (sam : Sam) (hun : ℕ → UInt8) (len : UInt32) :
    (Inside len.toNat (amesHear hun len.toNat crc32 sam) ∧ ∀ mew, Inside (4 * words mew) (fineSiftMeow mew)) ↔
      Meets crc32 sam hun len.toNat := by
  rw [hear_iff len.toNat_lt]
  exact and_iff_left inside_meow

/-- Four zero bytes are the header of a packet that is relayed, and has no origin. -/
theorem short_relayed_read : ¬ ∀ (crc32 : List UInt8 → ℕ) (sam : Sam) (hun : ℕ → UInt8) (len : UInt32),
    Inside len.toNat (amesHear hun len.toNat crc32 sam) := by
  intro h
  have hread := (hear_iff (by decide)).mp (h (fun _ => 0) ⟨false, false, false, 0, (0, 0), []⟩ (fun _ => 0) 4)
  exact absurd (hread.origin ⟨rfl, rfl, by decide, by decide⟩ rfl) (by decide)

end Ames
end Ursockets

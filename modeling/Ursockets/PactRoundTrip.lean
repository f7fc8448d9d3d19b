/-
# What is etched is sifted again

The sifter finds in the bytes of a packet what the etcher put there: each field of bits in its
byte, each number and each run of bytes behind the part before it. A sifted packet has slices of
the buffer for its paths and its fragment; reading them gives the packet back, with its checksum,
and with each name's own bytes.

Key definitions: `Slice.read`, `Pact.read`, `Pact.strung`.
Key theorems: `nameOf_bytes`, `dataOf_bytes`, `sift_etch`.
-/
import Ursockets.PactEtch

namespace Ursockets
namespace Mesa

open Bits

variable {buf : List UInt8} {o : ℕ}

/-! ### Reading slices -/

/-- The bytes of a slice. -/
def Slice.read (buf : List UInt8) (s : Slice) : List UInt8 :=
  match s.start with
  | some p => (buf.drop p).take s.len
  | none => []

def Name.read (buf : List UInt8) (nam : Name Slice) : Name (List UInt8) :=
  ⟨nam.her, nam.rif, nam.boq, nam.nit, nam.aut, nam.fra, nam.pat.read buf, nam.str.read buf⟩

def Data.read (buf : List UInt8) (dat : Data Slice) : Data (List UInt8) := ⟨dat.tob, dat.aut, dat.fra.read buf⟩

def Body.read (buf : List UInt8) : Body Slice → Body (List UInt8)
  | resv => .resv
  | page nam dat hop => .page (nam.read buf) (dat.read buf) hop
  | peek nam => .peek (nam.read buf)
  | poke nam pay dat => .poke (nam.read buf) (pay.read buf) (dat.read buf)

/-- The packet with the bytes of its slices. -/
def Pact.read (buf : List UInt8) (p : Pact Slice) : Pact (List UInt8) := ⟨p.hed, p.body.read buf⟩

/-- The name with its own bytes for what it was sifted from. -/
def Name.strung (nam : Name (List UInt8)) : Name (List UInt8) := { nam with str := nameBytes nam }

def Body.strung : Body (List UInt8) → Body (List UInt8)
  | resv => .resv
  | page nam dat hop => .page nam.strung dat hop
  | peek nam => .peek nam.strung
  | poke nam pay dat => .poke nam.strung pay.strung dat

def Pact.strung (p : Pact (List UInt8)) : Pact (List UInt8) := { p with body := p.body.strung }

/-! ### Ships -/

/-- The rank of a ship tells how many bytes it needs. -/
theorem ship_fits (who : Ship) : who.lo.toNat < 2 ^ (8 * 2 <<< mesaRank who) ∧
    (who.hi = 0 ∨ 2 <<< mesaRank who = 16) := by
  have hlo := who.lo.toNat_lt
  have hshift (j : UInt64) (hj : j.toNat < 64) (h : ¬ who.lo >>> j ≠ 0) : who.lo.toNat < 2 ^ j.toNat := by
    have h0 := congrArg UInt64.toNat (not_not.mp h)
    rw [UInt64.toNat_shiftRight, Nat.mod_eq_of_lt hj, UInt64.toNat_zero, Nat.shiftRight_eq_div_pow] at h0
    exact (Nat.div_eq_zero_iff.mp h0).resolve_left (Nat.two_pow_pos _).ne'
  unfold mesaRank shipRank
  by_cases h1 : who.hi ≠ 0
  · rw [if_pos h1]
    exact ⟨Nat.lt_of_lt_of_le hlo (Nat.pow_le_pow_right (by decide) (by decide)), .inr rfl⟩
  rw [if_neg h1]
  have hhi : who.hi = 0 := not_not.mp h1
  by_cases h2 : who.lo >>> 32 ≠ 0
  · rw [if_pos h2]
    exact ⟨hlo, .inl hhi⟩
  rw [if_neg h2]
  by_cases h3 : who.lo >>> 16 ≠ 0
  · rw [if_pos h3]
    exact ⟨hshift 32 (by decide) h2, .inl hhi⟩
  rw [if_neg h3]
  have h16 := hshift 16 (by decide) h3
  by_cases h4 : who.lo >>> 8 ≠ 0
  · rw [if_pos h4]
    exact ⟨h16, .inl hhi⟩
  · rw [if_neg h4]
    exact ⟨h16, .inl hhi⟩

theorem bitAt_shipToBytes (who : Ship) {len i : ℕ} (hl : len ≤ 16) :
    bitAt (shipToBytes who len) i = (decide (i < 8 * len) &&
      if i < 64 then who.lo.toNat.testBit i else who.hi.toNat.testBit (i - 64)) := by
  rcases Nat.lt_or_ge i (8 * len) with h | h
  · rw [shipToBytes, Nat.min_eq_right hl, bitAt_take h, decide_eq_true h, Bool.true_and]
    by_cases h64 : i < 64
    · rw [if_pos h64, bitAt_append_left (by rw [length_numBytes]; omega), bitAt_numBytes, decide_eq_true (by omega),
        Bool.true_and]
    · obtain ⟨j, rfl⟩ := Nat.exists_eq_add_of_le (Nat.not_lt.mp h64)
      have hj := bitAt_append_right (numBytes 8 who.lo.toNat) (numBytes 8 who.hi.toNat) j
      rw [length_numBytes] at hj
      rw [if_neg h64, Nat.add_sub_cancel_left]
      refine hj.trans ?_
      rw [bitAt_numBytes, decide_eq_true (by omega), Bool.true_and]
  · rw [bitAt_of_le (by rw [length_shipToBytes who hl]; exact h), decide_eq_false (Nat.not_lt.mpr h), Bool.false_and]

/-- **A ship comes back from the bytes of its rank.** -/
theorem shipOfBytes_toBytes (who : Ship) : shipOfBytes (shipToBytes who (2 <<< mesaRank who)) = who := by
  have hl := two_shiftLeft_rank who
  obtain ⟨hlo, hhi⟩ := ship_fits who
  have h1 : loadBytes (shipToBytes who (2 <<< mesaRank who)) 8 = who.lo.toNat := by
    refine Nat.eq_of_testBit_eq fun i => ?_
    rw [testBit_loadBytes, bitAt_shipToBytes who hl]
    rcases Nat.lt_or_ge i 64 with h | h
    · rw [if_pos h, decide_eq_true h, Bool.true_and]
      rcases Nat.lt_or_ge i (8 * 2 <<< mesaRank who) with hi | hi
      · rw [decide_eq_true hi, Bool.true_and]
      · rw [decide_eq_false (Nat.not_lt.mpr hi), Bool.false_and,
          Nat.testBit_lt_two_pow (Nat.lt_of_lt_of_le hlo (Nat.pow_le_pow_right (by decide) hi))]
    · rw [decide_eq_false (Nat.not_lt.mpr h), Bool.false_and,
        Nat.testBit_lt_two_pow (Nat.lt_of_lt_of_le who.lo.toNat_lt (Nat.pow_le_pow_right (by decide) h))]
  have h2 : loadBytes ((shipToBytes who (2 <<< mesaRank who)).drop 8) 8 = who.hi.toNat := by
    refine Nat.eq_of_testBit_eq fun i => ?_
    rw [testBit_loadBytes, bitAt_drop, bitAt_shipToBytes who hl, if_neg (by omega)]
    have hi : 8 * 8 + i - 64 = i := by omega
    rw [hi]
    rcases hhi with h0 | h16
    · rw [h0, UInt64.toNat_zero, Nat.zero_testBit, Bool.and_false, Bool.and_false]
    · rcases Nat.lt_or_ge i 64 with h | h
      · rw [h16, decide_eq_true (by omega), decide_eq_true (by omega), Bool.true_and, Bool.true_and]
      · rw [decide_eq_false (by omega), Bool.false_and,
          Nat.testBit_lt_two_pow (Nat.lt_of_lt_of_le who.hi.toNat_lt (Nat.pow_le_pow_right (by decide) h))]
  rw [shipOfBytes, h1, h2, UInt64.ofNat_toNat, UInt64.ofNat_toNat]

/-! ### Names -/

section Name

variable {nam : Name (List UInt8)}

/-- The fields of a name's head. -/
theorem nameTag_fields (h : HasAt buf o (nameBytes nam)) :
    field buf (8 * o) 2 = mesaRank nam.her ∧ field buf (8 * o + 2) 2 = safeDec (mesaMet3 nam.rif) ∧
      field buf (8 * o + 4) 1 = (if nam.nit then 1 else 0) ∧
      field buf (8 * o + 5) 1 = (if nam.nit then 0 else if nam.aut then 1 else 0) ∧
      field buf (8 * o + 6) 2 = (if nam.nit then 0 else mesaMakeChubTag nam.fra) := by
  have h1 := mesaRank_lt nam.her
  have h2 := safeDec_lt nam.rif
  have hnit : (if nam.nit then 1 else 0) < 2 := by split <;> decide
  have htau : (if nam.nit then 0 else if nam.aut then 1 else 0) < 2 := by
    split
    · decide
    · split <;> decide
  have hgaf : (if nam.nit then 0 else mesaMakeChubTag nam.fra) < 4 := by
    split
    · decide
    · exact mesaMakeChubTag_lt _
  have hbyte (k w : ℕ) (hk : k + w ≤ 8) : field buf (8 * o + k) w = nameTag nam / 2 ^ k % 2 ^ w := by
    rw [h.left.field (by rwa [length_numBytes]), field_numBytes _ hk]
  refine ⟨(hbyte 0 2 (by decide)).trans ?_, (hbyte 2 2 (by decide)).trans ?_, (hbyte 4 1 (by decide)).trans ?_,
    (hbyte 5 1 (by decide)).trans ?_, (hbyte 6 2 (by decide)).trans ?_⟩
  all_goals
    unfold nameTag
    omega

/-- **The name that stands in the buffer is the one that was etched.** -/
theorem nameOf_bytes (hw : nam.Wf) (h : HasAt buf o (nameBytes nam)) :
    NameFits buf o ∧ nameEnd buf o = o + (nameBytes nam).length ∧ (nameOf buf o).read buf = nam.strung := by
  obtain ⟨hran, hrif, hnit, htau, hgaf⟩ := nameTag_fields h
  have hship := length_shipToBytes nam.her (two_shiftLeft_rank nam.her)
  have hriftAt : riftAt buf o = o + 1 + 2 <<< mesaRank nam.her := by rw [riftAt, hran]
  have hboqAt : boqAt buf o = riftAt buf o + (safeDec (mesaMet3 nam.rif) + 1) := by rw [boqAt, hrif]
  have hpathAt : pathAt buf o = boqAt buf o + 1 + (fraBytes nam).length := by
    rw [pathAt, hnit, hgaf, length_fraBytes]
    cases nam.nit <;> rfl
  -- where each part stands
  have pShip := h.right.left
  have pRift := h.right.right.left
  have pBoq := h.right.right.right.left
  have pFra := h.right.right.right.right.left
  have pLen := h.right.right.right.right.right.left
  have pPat := h.right.right.right.right.right.right
  simp only [length_numBytes, hship, List.length_singleton, ← hriftAt, ← hboqAt, ← hpathAt]
    at pShip pRift pBoq pFra pLen pPat
  have hlen : field buf (8 * pathAt buf o) 16 = nam.pat.length := pLen.num hw.pat
  have hend : nameEnd buf o = o + (nameBytes nam).length := by
    rw [nameEnd, hlen, hpathAt, hboqAt, hriftAt, length_nameBytes, mesaSizeName, length_fraBytes]
    omega
  have hplain : Plain buf o := by
    intro h1
    rw [hnit] at h1
    rw [htau, hgaf]
    by_cases hi : nam.nit
    · rw [if_pos hi, if_pos hi]
      exact ⟨rfl, rfl⟩
    · rw [if_neg hi] at h1
      exact absurd rfl h1
  have hstr : (Slice.mk (some o) (nameEnd buf o - o)).read buf = nameBytes nam := by
    rw [hend, Nat.add_sub_cancel_left]
    exact h.slice rfl
  have hpat : (Slice.mk (some (pathAt buf o + 2)) (field buf (8 * pathAt buf o) 16)).read buf = nam.pat := by
    rw [hlen]
    exact pPat.slice rfl
  have hher : (nameOf buf o).her = nam.her := by
    show shipOfBytes ((buf.drop (o + 1)).take (2 <<< field buf (8 * o) 2)) = _
    rw [hran, pShip.slice hship, shipOfBytes_toBytes]
  have hrif' : (nameOf buf o).rif = nam.rif := by
    show UInt32.ofNat (field buf (8 * riftAt buf o) (8 * (field buf (8 * o + 2) 2 + 1))) = _
    rw [hrif, pRift.num (lt_safeDec _), UInt32.ofNat_toNat]
  have hboq : (nameOf buf o).boq = nam.boq := by
    have hf := pBoq.field (k := 0) (w := 8) (by rw [List.length_singleton])
    show UInt8.ofNat (field buf (8 * boqAt buf o) 8) = _
    rw [Nat.add_zero] at hf
    rw [hf, field_eight [nam.boq] 0]
    exact UInt8.ofNat_toNat
  have hinit : (nameOf buf o).nit = nam.nit := by
    show decide (field buf (8 * o + 4) 1 = 1) = _
    rw [hnit]
    cases nam.nit <;> rfl
  have hauth : (nameOf buf o).aut = nam.aut := by
    show decide (field buf (8 * o + 5) 1 = 1) = _
    rw [htau]
    by_cases hi : nam.nit
    · rw [if_pos hi, (hw.init hi).1]
      rfl
    · rw [if_neg hi]
      cases nam.aut <;> rfl
  have hfra : (nameOf buf o).fra = nam.fra := by
    show fraOf buf o = _
    unfold fraOf
    unfold fraBytes at pFra
    rw [hnit]
    by_cases hi : nam.nit
    · rw [if_pos hi, if_pos (by decide), (hw.init hi).2]
    · rw [if_neg hi] at pFra hgaf
      rw [if_neg hi, if_neg (by decide), hgaf, pFra.num (lt_mesaMakeChubTag _), UInt64.ofNat_toNat]
  refine ⟨⟨hplain, hend.trans_le h.le⟩, hend, ?_⟩
  unfold Name.read
  rw [hher, hrif', hboq, hinit, hauth, hfra]
  exact congrArg₂ (fun pat str => (⟨nam.her, nam.rif, nam.boq, nam.nit, nam.aut, nam.fra, pat, str⟩ :
    Name (List UInt8))) hpat hstr

end Name

/-! ### Data -/

section Data

variable {dat : Data (List UInt8)}

theorem loob_lt (q : Prop) [Decidable q] : loob q < 2 := by
  unfold loob
  split <;> decide

/-- The fields of the data's head. -/
theorem dataTag_fields (h : HasAt buf o (dataBytes dat)) :
    field buf (8 * o) 2 = mesaMakeChubTag dat.tob ∧
      field buf (8 * o + 2) 1 = loob (dat.aut.isSign ∨ dat.aut.isHmac) ∧
      field buf (8 * o + 3) 1 = loob (dat.aut.isSign ∨ dat.aut.isNone) ∧
      field buf (8 * o + 6) 2 = min (mesaMet3 (UInt32.ofNat dat.fra.length)) 3 := by
  have h1 := mesaMakeChubTag_lt dat.tob
  have h2 := loob_lt (dat.aut.isSign ∨ dat.aut.isHmac)
  have h3 := loob_lt (dat.aut.isSign ∨ dat.aut.isNone)
  have hbyte (k w : ℕ) (hk : k + w ≤ 8) :
      field buf (8 * o + k) w = dataTag dat dat.fra.length / 2 ^ k % 2 ^ w := by
    rw [h.left.field (by rwa [length_numBytes]), field_numBytes _ hk]
  refine ⟨(hbyte 0 2 (by decide)).trans ?_, (hbyte 2 1 (by decide)).trans ?_, (hbyte 3 1 (by decide)).trans ?_,
    (hbyte 6 2 (by decide)).trans ?_⟩
  all_goals
    unfold dataTag
    omega

/-- An authentication takes as many bytes as its flags say. -/
theorem authLen_loob (aut : Auth) :
    authLen (loob (aut.isSign ∨ aut.isHmac)) (loob (aut.isSign ∨ aut.isNone)) = (authBytes aut).length := by
  cases aut with
  | sign sig => exact sig.property.symm
  | none => rfl
  | hmac mac => exact mac.property.symm
  | pair has0 has1 => exact (List.length_append.trans (by rw [has0.property, has1.property]; rfl)).symm

theorem bytesAt_eq {len : ℕ} {b : Bytes len} (h : HasAt buf o b.val) : bytesAt buf o len = b := by
  have hle := h.le
  rw [b.property] at hle
  apply Subtype.ext
  rw [bytesAt, dif_pos hle]
  exact h.slice b.property

/-- It is read where it stands. -/
theorem authOf_bytes {aut : Auth} (h : HasAt buf o (authBytes aut)) :
    authOf buf o (loob (aut.isSign ∨ aut.isHmac)) (loob (aut.isSign ∨ aut.isNone)) = aut := by
  cases aut with
  | sign sig => exact congrArg Auth.sign (bytesAt_eq h)
  | none => rfl
  | hmac mac => exact congrArg Auth.hmac (bytesAt_eq h)
  | pair has0 has1 =>
    have h1 := h.right
    rw [has0.property] at h1
    exact congrArg₂ Auth.pair (bytesAt_eq h.left) (bytesAt_eq h1)

/-- **The data that stands in the buffer is what was etched.** -/
theorem dataOf_bytes (hw : dat.Wf) (h : HasAt buf o (dataBytes dat)) :
    DataFits buf o ∧ fragAt buf o + fragLen buf o = o + (dataBytes dat).length ∧
      (dataOf buf o).read buf = dat := by
  obtain ⟨hbot, haut, hauv, hmen⟩ := dataTag_fields h
  have hnel4 := mesaMet3_le (UInt32.ofNat dat.fra.length)
  have hlt := lt_mesaMet3 (UInt32.ofNat dat.fra.length)
  rw [UInt32.toNat_ofNat_of_lt' hw] at hlt
  have hauthAt : authAt buf o = o + 1 + 1 <<< mesaMakeChubTag dat.tob := by rw [authAt, hbot]
  have hauthEnd : authEnd buf o = authAt buf o + (authBytes dat.aut).length := by
    rw [authEnd, haut, hauv, authLen_loob]
  have hlenAt : lenAt buf o = authEnd buf o + (nelBytes (mesaMet3 (UInt32.ofNat dat.fra.length))).length := by
    unfold lenAt nelBytes
    rw [hmen]
    split <;> rfl
  -- where each part stands
  have pTob := h.right.left
  have pAuth := h.right.right.left
  have pNel := h.right.right.right.left
  have pLen := h.right.right.right.right.left
  have pFrag := h.right.right.right.right.right
  simp only [length_numBytes, ← hauthAt, ← hauthEnd, ← hlenAt] at pTob pAuth pNel pLen pFrag
  have hnel : nelOf buf o = mesaMet3 (UInt32.ofNat dat.fra.length) := by
    unfold nelOf
    unfold nelBytes at pNel
    rw [hmen]
    by_cases h3 : min (mesaMet3 (UInt32.ofNat dat.fra.length)) 3 = 3
    · rw [if_pos h3] at pNel
      have hf := pNel.field (k := 0) (w := 8) (by rw [List.length_singleton])
      rw [Nat.add_zero] at hf
      rw [if_pos h3, hf, field_eight [UInt8.ofNat (mesaMet3 (UInt32.ofNat dat.fra.length))] 0]
      exact UInt8.toNat_ofNat_of_lt' (show _ < 2 ^ 8 by omega)
    · rw [if_neg h3]
      omega
  have hfragAt : fragAt buf o = lenAt buf o + mesaMet3 (UInt32.ofNat dat.fra.length) := by rw [fragAt, hnel]
  have hfragLen : fragLen buf o = dat.fra.length := by
    rw [fragLen, hnel]
    exact pLen.num hlt
  rw [← hfragAt] at pFrag
  have hend : fragAt buf o + fragLen buf o = o + (dataBytes dat).length := by
    simp only [hfragAt, hlenAt, hauthEnd, hauthAt, hfragLen, dataBytes, List.length_append, length_numBytes]
    omega
  have hle := h.le
  refine ⟨⟨hnel.trans_le hnel4, by omega⟩, hend, ?_⟩
  have htob : (dataOf buf o).tob = dat.tob := by
    show UInt64.ofNat (field buf (8 * (o + 1)) (8 * 1 <<< field buf (8 * o) 2)) = _
    rw [hbot, pTob.num (lt_mesaMakeChubTag _), UInt64.ofNat_toNat]
  have hauth : (dataOf buf o).aut = dat.aut := by
    show authOf buf (authAt buf o) (field buf (8 * o + 2) 1) (field buf (8 * o + 3) 1) = _
    rw [haut, hauv, authOf_bytes pAuth]
  have hfra : (dataOf buf o).fra.read buf = dat.fra := by
    show (buf.drop (fragAt buf o)).take (fragLen buf o) = _
    exact pFrag.slice hfragLen.symm
  unfold Data.read
  rw [htob, hauth, hfra]

end Data

/-! ### Packets -/

section Packet

variable {p : Pact (List UInt8)} {n : ℕ}

theorem HopType.ofCode_code (nex : HopType) : HopType.ofCode nex.code = nex := by cases nex <;> rfl

theorem Ptag.ofCode_code (typ : Ptag) : Ptag.ofCode typ.code = typ := by cases typ <;> rfl

/-- **The head that stands in the buffer is the one that was etched**, with its cookie. -/
theorem headOf_bytes {hed : Head} {typ : Ptag} (hpro : hed.pro.toNat < 8) (hhop : hed.hop.toNat < 8)
    (hmug : hed.mug.toNat < 2 ^ 20) (h : HasAt buf 0 (headBytes hed typ)) :
    headOf buf = (hed, typ) ∧ field buf 4 3 = hed.pro.toNat ∧ UInt32.ofNat (field buf 32 32) = mesaCookie := by
  have hnex : hed.nex.code < 4 := by cases hed.nex <;> decide
  have htyp : typ.code < 4 := by cases typ <;> decide
  have hword (k w : ℕ) (hk : k + w ≤ 32) : field buf k w = (hed.nex.code * 4 + hed.pro.toNat * 16 + typ.code * 128 +
      hed.hop.toNat * 512 + hed.mug.toNat * 4096) / 2 ^ k % 2 ^ w := by
    have hf := h.left.field (k := k) (w := w) (by rw [length_numBytes]; exact hk)
    rw [Nat.mul_zero, Nat.zero_add] at hf
    rw [hf, field_numBytes _ hk]
  have h2 : field buf 2 2 = hed.nex.code := (hword 2 2 (by decide)).trans (by omega)
  have h4 : field buf 4 3 = hed.pro.toNat := (hword 4 3 (by decide)).trans (by omega)
  have h7 : field buf 7 2 = typ.code := (hword 7 2 (by decide)).trans (by omega)
  have h9 : field buf 9 3 = hed.hop.toNat := (hword 9 3 (by decide)).trans (by omega)
  have h12 : field buf 12 20 = hed.mug.toNat := (hword 12 20 (by decide)).trans (by omega)
  have hc : field buf 32 32 = mesaCookie.toNat := by
    have hcookie := h.right
    rw [length_numBytes] at hcookie
    exact hcookie.num mesaCookie.toNat_lt
  refine ⟨?_, h4, by rw [hc, UInt32.ofNat_toNat]⟩
  rw [headOf, h2, h4, h7, h9, h12, HopType.ofCode_code, Ptag.ofCode_code, UInt8.ofNat_toNat, UInt8.ofNat_toNat,
    UInt32.ofNat_toNat]

theorem mesaSiftName_bytes (hn : buf.length < 2 ^ 32) {nam : Name (List UInt8)} (hw : nam.Wf)
    (h : HasAt buf o (nameBytes nam)) :
    ∃ q, mesaSiftName buf (.at buf (8 * o) none) = .ok (q, .at buf (8 * (o + (nameBytes nam).length)) none) ∧
      q.read buf = nam.strung := by
  obtain ⟨hfits, hend, hread⟩ := nameOf_bytes hw h
  exact ⟨_, hend ▸ name_lands hn hfits, hread⟩

theorem mesaSiftData_bytes (hn : buf.length < 2 ^ 32) {dat : Data (List UInt8)} (hw : dat.Wf)
    (h : HasAt buf o (dataBytes dat)) :
    ∃ q, mesaSiftData buf (.at buf (8 * o) none) = .ok (q, .at buf (8 * (o + (dataBytes dat).length)) none) ∧
      q.read buf = dat := by
  obtain ⟨hfits, hend, hread⟩ := dataOf_bytes hw h
  obtain ⟨e, hr, he⟩ := mesaSiftData_inside hn hfits
  rw [hend] at hr he
  rw [he.mpr h.le] at hr
  exact ⟨_, hr, hread⟩

theorem siftHops_bytes (hn : buf.length < 2 ^ 32) {hop : Hops} {nex : HopType} (htyp : hop.typ = nex)
    (hnex : nex = .none ∨ nex = .short) (h : HasAt buf o (hopBytes hop)) :
    siftHops buf nex (.at buf (8 * o) none) = .ok (hop, .at buf (8 * (o + (hopBytes hop).length)) none) := by
  subst htyp
  cases hop with
  | none => rfl
  | short sot =>
    have hsot := h.le
    have hlen : (hopBytes (.short sot)).length = 6 := sot.property
    rw [hlen] at hsot
    show (siftBytes buf 6 >>= fun l => pure (Hops.short l)) _ = _
    rw [run_bind (siftBytes_inside hn hsot), bytesAt_eq (b := sot) h, hlen]
    rfl
  | long one => rcases hnex with hnex | hnex <;> cases hnex
  | many man => rcases hnex with hnex | hnex <;> cases hnex

/-- **The parts that stand in the buffer are those that were etched**, and end where they do. -/
theorem mesaSiftBody_bytes (hn : buf.length < 2 ^ 32) {body : Body (List UInt8)} {nex : HopType} (hw : body.Wf nex)
    (h : HasAt buf o (bodyBytes body)) :
    ∃ q, mesaSiftBody buf nex body.typ (.at buf (8 * o) none) =
        .ok (q, .at buf (8 * (o + (bodyBytes body).length)) none) ∧ q.read buf = body.strung := by
  cases body with
  | resv => exact hw.elim
  | peek nam =>
    obtain ⟨q, hq, hread⟩ := mesaSiftName_bytes hn hw h
    exact ⟨.peek q, run_bind hq, congrArg Body.peek hread⟩
  | page nam dat hop =>
    obtain ⟨hnam, hdat, htyp, hnex⟩ := hw
    obtain ⟨q, hq, hread⟩ := mesaSiftName_bytes hn hnam h.left
    obtain ⟨d, hd, hread'⟩ := mesaSiftData_bytes hn hdat h.right.left
    have hhop := siftHops_bytes hn htyp hnex h.right.right
    refine ⟨.page q d hop, ?_, congrArg₂ (fun nam dat => Body.page nam dat hop) hread hread'⟩
    show mesaSiftPagePact buf nex _ = _
    unfold mesaSiftPagePact
    rw [run_bind hq, run_bind hd, run_bind hhop, bodyBytes, List.length_append, List.length_append, ← Nat.add_assoc,
      ← Nat.add_assoc]
    rfl
  | poke nam pay dat =>
    obtain ⟨hnam, hpay, hdat⟩ := hw
    obtain ⟨q, hq, hread⟩ := mesaSiftName_bytes hn hnam h.left
    obtain ⟨q', hq', hread'⟩ := mesaSiftName_bytes hn hpay h.right.left
    obtain ⟨d, hd, hread''⟩ := mesaSiftData_bytes hn hdat h.right.right
    refine ⟨.poke q q' d, ?_, ?_⟩
    · show mesaSiftPokePact buf _ = _
      unfold mesaSiftPokePact
      rw [run_bind hq, run_bind hq', run_bind hd, bodyBytes, List.length_append, List.length_append, ← Nat.add_assoc,
        ← Nat.add_assoc]
      rfl
    · show Body.poke (q.read buf) (q'.read buf) (d.read buf) = _
      rw [hread, hread', hread'']
      rfl

/-- The head and the parts of a packet's bytes. -/
theorem pactBytes_parts (p : Pact (List UInt8)) :
    HasAt (pactBytes p) 0 (headBytes p.summed.hed p.typ) ∧ HasAt (pactBytes p) 8 (bodyBytes p.body) := by
  have h : HasAt (pactBytes p) 0 (headBytes p.summed.hed p.typ ++ bodyBytes p.body) :=
    ⟨[], [], by rw [List.append_nil, List.nil_append, pactBytes], rfl⟩
  have hlen : 0 + (headBytes p.summed.hed p.typ).length = 8 := by
    rw [headBytes, List.length_append, length_numBytes, length_numBytes]
  exact ⟨h.left, hlen ▸ h.right⟩

theorem length_pactBytes (p : Pact (List UInt8)) : (pactBytes p).length = 8 + (bodyBytes p.body).length := by
  rw [pactBytes, List.length_append, headBytes, List.length_append, length_numBytes, length_numBytes]

theorem Pact.strung_withMug (p : Pact (List UInt8)) (mug : UInt32) :
    (p.withMug mug).strung = ⟨(p.withMug mug).hed, p.body.strung⟩ := rfl

/-- **A packet of the bytes that were etched is sifted whole**, without an error and to the last byte. -/
theorem mesaSiftPact_bytes (h : p.Wf) (hn : (pactBytes p).length < 2 ^ 32) :
    ∃ q, mesaSiftPact (pactBytes p) (.at (pactBytes p) 0 none) =
        .ok (q, .at (pactBytes p) (8 * (pactBytes p).length) none) ∧
      q.read (pactBytes p) = p.summed.strung := by
  have hlen := length_pactBytes p
  obtain ⟨phead, pbody⟩ := pactBytes_parts p
  have hpro : p.summed.hed.pro = 1 := by rw [Pact.summed, Pact.withMug_pro, h.pro]
  have hhop : p.summed.hed.hop.toNat < 8 := by
    rw [Pact.summed, Pact.withMug_hop]
    exact UInt8.lt_iff_toNat_lt.mp h.hop
  have hmug : p.summed.hed.mug = Noun.mugBytes (bodyBytes p.body) &&& 0xfffff := by
    rw [Pact.summed, Pact.withMug_mug]
  have hnex : p.summed.hed.nex = p.hed.nex := by rw [Pact.summed, Pact.withMug_nex]
  obtain ⟨hhed, hfield, hcookie⟩ := headOf_bytes (by rw [hpro]; decide) hhop (by rw [hmug]; exact mug_lt _) phead
  have hpro' : field (pactBytes p) 4 3 = 1 := by
    rw [hfield, hpro]
    rfl
  have hhead := mesaSiftHead_inside hn (by omega) hpro'
  rw [if_pos hcookie] at hhead
  obtain ⟨body, hbody, hread⟩ := mesaSiftBody_bytes (o := 8) hn h.body pbody
  rw [← hlen] at hbody
  -- the checksum is of the bytes behind the head
  have hpos : (Sifter.at (pactBytes p) (8 * 8) none).pos = 8 := by rw [Sifter.at_byte]
  have hfetch : ∃ l, fetch (pactBytes p) (Sifter.at (pactBytes p) (8 * 8) none).pos
      ((Sifter.at (pactBytes p) (8 * 8) none).rem -
        (Sifter.at (pactBytes p) (8 * (pactBytes p).length) none).rem).toNat
          (.at (pactBytes p) (8 * (pactBytes p).length) none) =
        .ok (l, .at (pactBytes p) (8 * (pactBytes p).length) none) ∧ l.val = bodyBytes p.body := by
    rw [passed _ (show 8 ≤ (pactBytes p).length by omega), hpos]
    exact ⟨_, fetch_inside (by omega), pbody.slice (by omega)⟩
  obtain ⟨l, hl, hval⟩ := hfetch
  have hsum : Noun.mugBytes l.val &&& 0xfffff = p.summed.hed.mug := by rw [hval, hmug]
  refine ⟨⟨p.summed.hed, body⟩, ?_, ?_⟩
  · rw [mesaSiftPact_head hhead, hhed]
    show (mesaSiftBody (pactBytes p) p.summed.hed.nex p.body.typ _ >>= _) = _
    rw [hnex, except_bind hbody]
    show summed _ _ _ _ _ = _
    unfold summed
    rw [run_bind (a := .at (pactBytes p) (8 * (pactBytes p).length) none)
      (t := .at (pactBytes p) (8 * (pactBytes p).length) none) rfl, run_bind hl, run_bind (siftExpect_true hsum _ _)]
    rfl
  · rw [Pact.read, hread]
    exact (Pact.strung_withMug p _).symm

/-- **A packet that is etched is sifted again**: the sifter takes every byte without an error, and what
it gives is the packet, with the checksum that was etched. -/
theorem sift_etch {cap : UInt32} {p : Pact (List UInt8)} (h : p.Wf) (hs : mesaSizePact p ≤ cap.toNat) :
    ∃ bytes q, mesaEtchPactToBuf cap p = .ok (bytes, p.summed) ∧ bytes.length = mesaSizePact p ∧
      mesaSiftPactFromBuf bytes = .ok (q, none) ∧ q.read bytes = p.summed.strung := by
  have hlen := length_pactBytes p
  have hcap := cap.toNat_lt
  rw [← mesaSizePact_eq h] at hlen
  obtain ⟨q, hq, hread⟩ := mesaSiftPact_bytes h (by omega)
  refine ⟨pactBytes p, q, mesaEtchPactToBuf_eq h hs, hlen, ?_, hread⟩
  have hrem : (Sifter.at (pactBytes p) (8 * (pactBytes p).length) none).rem = 0 := by
    rw [Sifter.at_byte]
    exact sub_self _
  unfold mesaSiftPactFromBuf
  rw [sifterInit_eq, except_bind hq]
  have hdone : ¬ ((Sifter.at (pactBytes p) (8 * (pactBytes p).length) none).rem ≠ 0 ∧
      (Sifter.at (pactBytes p) (8 * (pactBytes p).length) none).err = none) := fun h => h.1 hrem
  dsimp only
  rw [if_neg hdone]
  rfl

/-- A page of a moon, with a pair of hashes and a short hop. -/
def pagePact : Pact (List UInt8) where
  hed := ⟨.short, 1, 3, 0⟩
  body := .page ⟨⟨0x123456789, 0⟩, 300, 13, false, true, 70000, [0x2f, 0x61], []⟩
    ⟨100000, .pair ⟨List.replicate 32 7, rfl⟩ ⟨List.replicate 32 9, rfl⟩, [1, 2, 3]⟩ (.short ⟨[1, 2, 3, 4, 5, 6], rfl⟩)

theorem sift_etch_page : ∃ bytes q, mesaEtchPactToBuf 1472 pagePact = .ok (bytes, pagePact.summed) ∧
    bytes.length = mesaSizePact pagePact ∧ mesaSiftPactFromBuf bytes = .ok (q, none) ∧
      q.read bytes = pagePact.summed.strung :=
  sift_etch ⟨rfl, by decide, ⟨(fun h => nomatch h), by decide⟩, (by decide : (3 : ℕ) < 2 ^ 32), rfl, .inr rfl⟩
    (by decide)

end Packet

end Mesa
end Ursockets

/-
# The bytes of a packet

What the etcher writes, as plain bytes: its bits are gathered into whole bytes, and every part is
put behind the one before. A packet takes as many bytes as `mesa_size_pact` says, and a buffer
with room for them is enough.

Key definitions: `Etcher.bits`, `Writes`, `nameBytes`, `dataBytes`, `pactBytes`, `Pact.Wf`.
Key theorems: `etchBits_bits`, `Writes.seq`, `mesaEtchName_writes`, `mesaSizePact_eq`, `mesaEtchPactToBuf_eq`.
-/
import Ursockets.PactSift

namespace Ursockets
namespace Mesa

open Bits

variable {cap : UInt32} {out : List UInt8} {v w x wid : ℕ}

/-! ### Bits -/

/-- The etcher after some bytes and `w` bits of `v`. -/
def Etcher.bits (cap : UInt32) (out : List UInt8) (w v : ℕ) : Etcher :=
  ⟨out ++ numBytes (w / 8) v, cap, v >>> (8 * (w / 8)), w % 8⟩

/-- The etcher after whole bytes. -/
def Etcher.clean (cap : UInt32) (out : List UInt8) : Etcher := ⟨out, cap, 0, 0⟩

theorem Etcher.bits_zero (cap : UInt32) (out : List UInt8) : Etcher.bits cap out 0 0 = .clean cap out := by
  rw [Etcher.bits, Nat.zero_div, numBytes_zero, List.append_nil]
  rfl

/-- Whole bytes of bits are bytes. -/
theorem Etcher.bits_bytes {n : ℕ} (h : v < 2 ^ (8 * n)) :
    Etcher.bits cap out (8 * n) v = .clean cap (out ++ numBytes n v) := by
  rw [Etcher.bits, Nat.mul_div_cancel_left n (by decide), Nat.mul_mod_right, Nat.shiftRight_eq_div_pow,
    Nat.div_eq_of_lt h]
  rfl

theorem ofNat_and (x : ℕ) : UInt8.ofNat (x &&& 0xff) = UInt8.ofNat x := by
  apply UInt8.toNat_inj.mp
  rw [UInt8.toNat_ofNat', UInt8.toNat_ofNat', show (0xff : ℕ) = 2 ^ 8 - 1 from rfl,
    Nat.and_two_pow_sub_one_eq_mod, Nat.mod_mod]

/-- The turns write all whole bytes. -/
theorem etchFlush_bits : ∀ m j, 8 * j ≤ w → w ≤ 8 * j + m →
    etchFlush m ⟨out ++ numBytes j v, cap, v >>> (8 * j), w - 8 * j⟩ = .bits cap out w v
  | 0, j, h1, h2 => by
    have hw : w = 8 * j := by omega
    rw [hw, Nat.sub_self, Etcher.bits, Nat.mul_div_cancel_left j (by decide), Nat.mul_mod_right]
    rfl
  | m + 1, j, h1, h2 => by
    rw [etchFlush]
    by_cases h8 : 8 ≤ w - 8 * j
    · have hshift : v >>> (8 * j) >>> 8 = v >>> (8 * (j + 1)) := by rw [← Nat.shiftRight_add]; rfl
      have hoff : w - 8 * j - 8 = w - 8 * (j + 1) := by omega
      rw [if_pos h8]
      dsimp only
      rw [ofNat_and, List.append_assoc, ← numBytes_succ, hshift, hoff]
      exact etchFlush_bits m (j + 1) (by omega) (by omega)
    · have hdiv : w / 8 = j := by omega
      have hmod : w % 8 = w - 8 * j := by omega
      rw [if_neg h8, Etcher.bits, hdiv, hmod]

/-- **`_etch_bits` puts bits behind those there are.** -/
theorem etchBits_bits (hv : v < 2 ^ w) (hx : x < 2 ^ wid) (hw : wid ≤ 56) :
    etchBits wid x (.bits cap out w v) = .ok ((), .bits cap out (w + wid) (v + x * 2 ^ w)) := by
  have hmask : x &&& (1 <<< wid - 1) = x := by
    rw [Nat.one_shiftLeft, Nat.and_two_pow_sub_one_eq_mod, Nat.mod_eq_of_lt hx]
  have hor : v + x * 2 ^ w = v ||| x <<< w := by
    rw [← Nat.shiftLeft_eq, Nat.add_comm, Nat.shiftLeft_add_eq_or_of_lt hv, Nat.or_comm]
  have hbit : v >>> (8 * (w / 8)) ||| x <<< (w % 8) = (v + x * 2 ^ w) >>> (8 * (w / 8)) := by
    rw [hor]
    refine Nat.eq_of_testBit_eq fun i => ?_
    rw [Nat.testBit_or, Nat.testBit_shiftRight, Nat.testBit_shiftLeft, Nat.testBit_shiftRight, Nat.testBit_or,
      Nat.testBit_shiftLeft]
    have h1 : (decide (w % 8 ≤ i)) = decide (w ≤ 8 * (w / 8) + i) :=
      decide_eq_decide.mpr ⟨fun h => by omega, fun h => by omega⟩
    have h2 : i - w % 8 = 8 * (w / 8) + i - w := by omega
    rw [h1, h2]
  have hbytes : numBytes (w / 8) v = numBytes (w / 8) (v + x * 2 ^ w) := by
    refine ext_bitAt (by simp) fun i _ => ?_
    rw [bitAt_numBytes, bitAt_numBytes, hor, Nat.testBit_or, Nat.testBit_shiftLeft]
    rcases Nat.lt_or_ge i (8 * (w / 8)) with h | h
    · have hw' : ¬ w ≤ i := by omega
      simp [hw']
    · simp [Nat.not_lt.mpr h]
  have hoff : w % 8 + wid = w + wid - 8 * (w / 8) := by omega
  have hroom : (Etcher.bits cap out w v).off + wid ≤ 64 := by
    show w % 8 + wid ≤ 64
    omega
  unfold etchBits
  rw [if_pos hroom]
  show Except.ok ((), etchFlush (w % 8 + wid) ⟨out ++ numBytes (w / 8) v, cap,
    v >>> (8 * (w / 8)) ||| (x &&& (1 <<< wid - 1)) <<< (w % 8), w % 8 + wid⟩) = _
  rw [hmask, hbit, hbytes, hoff, etchFlush_bits _ _ (by omega) (by omega)]

/-! ### Whole bytes -/

/-- The action puts some bytes behind those there are, when there is room for them. -/
def Writes (m : Etch Unit) (bs : List UInt8) : Prop :=
  ∀ cap out, out.length + bs.length ≤ cap.toNat → m (.clean cap out) = .ok ((), .clean cap (out ++ bs))

theorem Writes.next (bs : List UInt8) : Writes (etchNext bs) bs := by
  intro cap out h
  have hcap := cap.toNat_lt
  have hroom : ¬ cap.toNat < (out.length + bs.length) % 2 ^ 32 := by omega
  exact (if_neg (not_not.mpr rfl)).trans (if_neg hroom)

theorem Writes.nil : Writes (pure ()) [] := fun cap out _ => by
  rw [List.append_nil]
  rfl

/-- **One part behind the other.** -/
theorem Writes.seq {m m' : Etch Unit} {bs bs' : List UInt8} (h : Writes m bs) (h' : Writes m' bs') :
    Writes (m >>= fun _ => m') (bs ++ bs') := by
  intro cap out hl
  rw [List.length_append] at hl
  rw [run_bind (h cap out (by omega)), h' cap (out ++ bs) (by rw [List.length_append]; omega), List.append_assoc]

theorem Writes.check {m : Etch Unit} {bs : List UInt8} {q : Prop} [Decidable q] (hq : q) (h : Writes m bs) :
    Writes (check q >>= fun _ => m) bs := fun cap out hl => (run_bind (check_true hq)).trans (h cap out hl)

/-- Five fields of a byte, with the widths of a name's head. -/
theorem Writes.nameHead {m : Etch Unit} {bs : List UInt8} {a b c d e : ℕ} (ha : a < 4) (hb : b < 4) (hc : c < 2)
    (hd : d < 2) (he : e < 4) (h : Writes m bs) :
    Writes (do etchBits 2 a; etchBits 2 b; etchBits 1 c; etchBits 1 d; etchBits 2 e; m)
      (numBytes 1 (a + b * 4 + c * 16 + d * 32 + e * 64) ++ bs) := by
  intro cap out hl
  rw [List.length_append, length_numBytes] at hl
  have h1 : etchBits 2 a (.clean cap out) = .ok ((), .bits cap out 2 a) := by
    have h : etchBits 2 a (.bits cap out 0 0) = .ok ((), .bits cap out (0 + 2) (0 + a * 2 ^ 0)) :=
      etchBits_bits (by decide) ha (by decide)
    rwa [Etcher.bits_zero, Nat.zero_add, Nat.zero_add, pow_zero, Nat.mul_one] at h
  have h2 : etchBits 2 b (.bits cap out 2 a) = .ok ((), .bits cap out 4 (a + b * 4)) :=
    etchBits_bits (w := 2) ha hb (by decide)
  have h3 : etchBits 1 c (.bits cap out 4 (a + b * 4)) = .ok ((), .bits cap out 5 (a + b * 4 + c * 16)) :=
    etchBits_bits (w := 4) (show a + b * 4 < 16 by omega) hc (by decide)
  have h4 : etchBits 1 d (.bits cap out 5 (a + b * 4 + c * 16)) =
      .ok ((), .bits cap out 6 (a + b * 4 + c * 16 + d * 32)) :=
    etchBits_bits (w := 5) (show a + b * 4 + c * 16 < 32 by omega) hd (by decide)
  have h5 : etchBits 2 e (.bits cap out 6 (a + b * 4 + c * 16 + d * 32)) =
      .ok ((), .bits cap out 8 (a + b * 4 + c * 16 + d * 32 + e * 64)) :=
    etchBits_bits (w := 6) (show a + b * 4 + c * 16 + d * 32 < 64 by omega) he (by decide)
  rw [run_bind h1, run_bind h2, run_bind h3, run_bind h4, run_bind h5,
    show (8 : ℕ) = 8 * 1 from rfl, Etcher.bits_bytes (show _ < 256 by omega),
    h cap _ (by rw [List.length_append, length_numBytes]; omega), List.append_assoc]

/-- Five fields of a byte, with the widths of the data's head. -/
theorem Writes.dataHead {m : Etch Unit} {bs : List UInt8} {a b c e : ℕ} (ha : a < 4) (hb : b < 2) (hc : c < 2)
    (he : e < 4) (h : Writes m bs) :
    Writes (do etchBits 2 a; etchBits 1 b; etchBits 1 c; etchBits 2 0; etchBits 2 e; m)
      (numBytes 1 (a + b * 4 + c * 8 + e * 64) ++ bs) := by
  intro cap out hl
  rw [List.length_append, length_numBytes] at hl
  have h1 : etchBits 2 a (.clean cap out) = .ok ((), .bits cap out 2 a) := by
    have h : etchBits 2 a (.bits cap out 0 0) = .ok ((), .bits cap out (0 + 2) (0 + a * 2 ^ 0)) :=
      etchBits_bits (by decide) ha (by decide)
    rwa [Etcher.bits_zero, Nat.zero_add, Nat.zero_add, pow_zero, Nat.mul_one] at h
  have h2 : etchBits 1 b (.bits cap out 2 a) = .ok ((), .bits cap out 3 (a + b * 4)) :=
    etchBits_bits (w := 2) ha hb (by decide)
  have h3 : etchBits 1 c (.bits cap out 3 (a + b * 4)) = .ok ((), .bits cap out 4 (a + b * 4 + c * 8)) :=
    etchBits_bits (w := 3) (show a + b * 4 < 8 by omega) hc (by decide)
  have h4 : etchBits 2 0 (.bits cap out 4 (a + b * 4 + c * 8)) = .ok ((), .bits cap out 6 (a + b * 4 + c * 8)) := by
    have h : etchBits 2 0 (.bits cap out 4 (a + b * 4 + c * 8)) =
        .ok ((), .bits cap out (4 + 2) (a + b * 4 + c * 8 + 0 * 2 ^ 4)) :=
      etchBits_bits (show a + b * 4 + c * 8 < 16 by omega) (by decide) (by decide)
    rwa [Nat.zero_mul, Nat.add_zero] at h
  have h5 : etchBits 2 e (.bits cap out 6 (a + b * 4 + c * 8)) =
      .ok ((), .bits cap out 8 (a + b * 4 + c * 8 + e * 64)) :=
    etchBits_bits (w := 6) (show a + b * 4 + c * 8 < 64 by omega) he (by decide)
  rw [run_bind h1, run_bind h2, run_bind h3, run_bind h4, run_bind h5,
    show (8 : ℕ) = 8 * 1 from rfl, Etcher.bits_bytes (show _ < 256 by omega),
    h cap _ (by rw [List.length_append, length_numBytes]; omega), List.append_assoc]

/-! ### Names -/

theorem mesaMet3_le (a : UInt32) : mesaMet3 a ≤ 4 := by
  have h : met0 a.toNat ≤ 32 := met0_le_iff.mpr a.toNat_lt
  rw [mesaMet3, Nat.shiftRight_eq_div_pow]
  omega

theorem lt_mesaMet3 (a : UInt32) : a.toNat < 2 ^ (8 * mesaMet3 a) := by
  refine Nat.lt_of_lt_of_le (lt_two_pow_met0 a.toNat) (Nat.pow_le_pow_right (by decide) ?_)
  rw [mesaMet3, Nat.shiftRight_eq_div_pow]
  omega

theorem safeDec_lt (a : UInt32) : safeDec (mesaMet3 a) < 4 := by
  have h := mesaMet3_le a
  unfold safeDec
  split <;> omega

theorem lt_safeDec (a : UInt32) : a.toNat < 2 ^ (8 * (safeDec (mesaMet3 a) + 1)) := by
  refine Nat.lt_of_lt_of_le (lt_mesaMet3 a) (Nat.pow_le_pow_right (by decide) ?_)
  unfold safeDec
  split <;> omega

theorem mesaRank_lt (who : Ship) : mesaRank who < 4 := by
  unfold mesaRank
  split <;> decide

theorem mesaMakeChubTag_lt (a : UInt64) : mesaMakeChubTag a < 4 := by
  unfold mesaMakeChubTag
  repeat' split
  all_goals decide

theorem lt_mesaMakeChubTag (a : UInt64) : a.toNat < 2 ^ (8 * 1 <<< mesaMakeChubTag a) := by
  have h := a.toNat_lt
  unfold mesaMakeChubTag
  split
  · show a.toNat < 2 ^ 8
    omega
  · split
    · show a.toNat < 2 ^ 16
      omega
    · split
      · show a.toNat < 2 ^ 32
        omega
      · exact h

/-- The byte of a name's head. -/
def nameTag {α : Type} (nam : Name α) : ℕ :=
  mesaRank nam.her + safeDec (mesaMet3 nam.rif) * 4 + (if nam.nit then 1 else 0) * 16 +
    (if nam.nit then 0 else if nam.aut then 1 else 0) * 32 +
    (if nam.nit then 0 else mesaMakeChubTag nam.fra) * 64

def fraBytes {α : Type} (nam : Name α) : List UInt8 :=
  if nam.nit then [] else numBytes (1 <<< mesaMakeChubTag nam.fra) nam.fra.toNat

/-- The bytes of a name. -/
def nameBytes (nam : Name (List UInt8)) : List UInt8 :=
  numBytes 1 (nameTag nam) ++ (shipToBytes nam.her (2 <<< mesaRank nam.her) ++
    (numBytes (safeDec (mesaMet3 nam.rif) + 1) nam.rif.toNat ++ ([nam.boq] ++ (fraBytes nam ++
      (numBytes 2 nam.pat.length ++ nam.pat)))))

theorem two_shiftLeft_rank (who : Ship) : 2 <<< mesaRank who ≤ 16 :=
  (by decide : ∀ r < 4, 2 <<< r ≤ 16) _ (mesaRank_lt who)

theorem one_shiftLeft_tag (a : UInt64) : 1 <<< mesaMakeChubTag a ≤ 8 :=
  (by decide : ∀ r < 4, 1 <<< r ≤ 8) _ (mesaMakeChubTag_lt a)

theorem length_shipToBytes (who : Ship) {len : ℕ} (h : len ≤ 16) : (shipToBytes who len).length = len := by
  simp [shipToBytes]
  omega

theorem length_fraBytes {α : Type} (nam : Name α) :
    (fraBytes nam).length = if nam.nit then 0 else mesaBytesOfChubTag (mesaMakeChubTag nam.fra) := by
  unfold fraBytes
  split
  · rfl
  · exact length_numBytes _ _

/-- **A name has the size that `_mesa_size_name` gives.** -/
theorem length_nameBytes (nam : Name (List UInt8)) : (nameBytes nam).length = mesaSizeName nam := by
  simp only [nameBytes, List.length_append, length_numBytes, length_shipToBytes _ (two_shiftLeft_rank _),
    length_fraBytes, List.length_singleton, mesaSizeName]
  omega

theorem Writes.fra (nam : Name (List UInt8)) :
    Writes (etchFra (if nam.nit then 1 else 0) nam.fra (if nam.nit then 0 else mesaMakeChubTag nam.fra))
      (fraBytes nam) := by
  unfold etchFra fraBytes
  by_cases hnit : nam.nit
  · rw [if_pos hnit, if_pos hnit, if_pos hnit, if_pos (by decide)]
    exact .nil
  · rw [if_neg hnit, if_neg hnit, if_neg hnit, if_neg (by decide)]
    exact .check (one_shiftLeft_tag _) (.next _)

/-- **`_mesa_etch_name` writes the bytes of the name.** -/
theorem mesaEtchName_writes {nam : Name (List UInt8)} (hpat : nam.pat.length < 2 ^ 16) :
    Writes (mesaEtchName nam) (nameBytes nam) := by
  have hlen : (UInt16.ofNat nam.pat.length).toNat = nam.pat.length := UInt16.toNat_ofNat_of_lt' hpat
  have hnit : (if nam.nit then 1 else 0) < 2 := by split <;> decide
  have htau : (if nam.nit then 0 else if nam.aut then 1 else 0) < 2 := by
    split
    · decide
    · split <;> decide
  have hgaf : (if nam.nit then 0 else mesaMakeChubTag nam.fra) < 4 := by
    split
    · decide
    · exact mesaMakeChubTag_lt _
  have hpath : Writes (etchShort (UInt16.ofNat nam.pat.length)) (numBytes 2 nam.pat.length) := by
    unfold etchShort
    rw [hlen]
    exact .next _
  exact .nameHead (mesaRank_lt _) (safeDec_lt _) hnit htau hgaf
    (.seq (.check (two_shiftLeft_rank _) (.next _)) (.seq (.check (safeDec_lt _) (.next _)) (.seq (.next _)
      (.seq (.fra nam) (.seq hpath (.next _))))))

/-! ### Data -/

/-- The byte of the data's head. -/
def dataTag {α : Type} (dat : Data α) (len : ℕ) : ℕ :=
  mesaMakeChubTag dat.tob + loob (dat.aut.isSign ∨ dat.aut.isHmac) * 4 + loob (dat.aut.isSign ∨ dat.aut.isNone) * 8 +
    min (mesaMet3 (UInt32.ofNat len)) 3 * 64

def authBytes : Auth → List UInt8
  | .sign sig => sig.val
  | .hmac mac => mac.val
  | .none => []
  | .pair has0 has1 => has0.val ++ has1.val

def nelBytes (nel : ℕ) : List UInt8 := if min nel 3 = 3 then [UInt8.ofNat nel] else []

/-- The bytes of the data. -/
def dataBytes (dat : Data (List UInt8)) : List UInt8 :=
  numBytes 1 (dataTag dat dat.fra.length) ++ (numBytes (1 <<< mesaMakeChubTag dat.tob) dat.tob.toNat ++
    (authBytes dat.aut ++ (nelBytes (mesaMet3 (UInt32.ofNat dat.fra.length)) ++
      (numBytes (mesaMet3 (UInt32.ofNat dat.fra.length)) dat.fra.length ++ dat.fra))))

/-- **Data has the size that `_mesa_size_data` gives.** -/
theorem length_dataBytes (dat : Data (List UInt8)) : (dataBytes dat).length = mesaSizeData dat := by
  have hbytes {n : ℕ} (b : Bytes n) : b.val.length = n := b.property
  have hnel (nel : ℕ) : (nelBytes nel).length = if (if nel ≤ 3 then nel else 3) = 3 then 1 else 0 := by
    unfold nelBytes
    by_cases h : nel ≤ 3
    · rw [if_pos h, Nat.min_eq_left h]
      split <;> rfl
    · rw [if_neg h, Nat.min_eq_right (by omega)]
      rfl
  obtain ⟨tob, aut, fra⟩ := dat
  cases aut with
  | sign | hmac | none | pair =>
    simp only [dataBytes, authBytes, List.length_append, List.length_nil, length_numBytes, hbytes, hnel, mesaSizeData,
      mesaBytesOfChubTag]
    omega

theorem Writes.auth (aut : Auth) : Writes (etchAuth aut) (authBytes aut) := by
  cases aut with
  | sign sig => exact .next _
  | hmac mac => exact .next _
  | none => exact .nil
  | pair has0 has1 => exact .seq (.next _) (.next _)

theorem Writes.nel (nel : ℕ) : Writes (etchNel (min nel 3) nel) (nelBytes nel) := by
  unfold etchNel nelBytes
  split
  · exact .next _
  · exact .nil

/-- **`_mesa_etch_data` writes the bytes of the data.** -/
theorem mesaEtchData_writes {dat : Data (List UInt8)} (hfra : dat.fra.length < 2 ^ 32) :
    Writes (mesaEtchData dat) (dataBytes dat) := by
  have hlen : (UInt32.ofNat dat.fra.length).toNat = dat.fra.length := UInt32.toNat_ofNat_of_lt' hfra
  have hloob (q : Prop) [Decidable q] : loob q < 2 := by
    unfold loob
    split <;> decide
  have hmen : min (mesaMet3 (UInt32.ofNat dat.fra.length)) 3 < 4 := by omega
  have hword : Writes (etchVarWord (UInt32.ofNat dat.fra.length) (mesaMet3 (UInt32.ofNat dat.fra.length)))
      (numBytes (mesaMet3 (UInt32.ofNat dat.fra.length)) dat.fra.length) := by
    have h := Writes.next (numBytes (mesaMet3 (UInt32.ofNat dat.fra.length)) (UInt32.ofNat dat.fra.length).toNat)
    rw [hlen] at h
    unfold etchVarWord
    rw [hlen]
    exact .check (mesaMet3_le _) h
  exact .dataHead (mesaMakeChubTag_lt _) (hloob _) (hloob _) hmen
    (.seq (.check (one_shiftLeft_tag _) (.next _)) (.seq (.auth _) (.seq (.nel _) (.seq hword (.next _)))))

/-! ### Packets -/

def hopLongBytes (one : List UInt8) : List UInt8 := UInt8.ofNat one.length :: one

def hopBytes : Hops → List UInt8
  | .none => []
  | .short sot => sot.val
  | .long one => hopLongBytes one
  | .many man => UInt8.ofNat man.length :: man.flatMap hopLongBytes

theorem Writes.hops (hop : Hops) : Writes (etchHops hop) (hopBytes hop) := by
  have hone (one : List UInt8) : Writes (mesaEtchHopLong one) (hopLongBytes one) :=
    .seq (.next [UInt8.ofNat one.length]) (.next one)
  have hall (man : List (List UInt8)) : Writes (man.forM mesaEtchHopLong) (man.flatMap hopLongBytes) := by
    induction man with
    | nil => exact .nil
    | cons one man ih => exact .seq (hone one) ih
  cases hop with
  | none => exact .nil
  | short sot => exact .next _
  | long one => exact hone one
  | many man => exact .seq (.next [UInt8.ofNat man.length]) (hall man)

/-- The bytes of a packet behind its head. -/
def bodyBytes : Body (List UInt8) → List UInt8
  | .resv => []
  | .page nam dat hop => nameBytes nam ++ (dataBytes dat ++ hopBytes hop)
  | .peek nam => nameBytes nam
  | .poke nam pay dat => nameBytes nam ++ (nameBytes pay ++ dataBytes dat)

/-- The bytes of the head. -/
def headBytes (hed : Head) (typ : Ptag) : List UInt8 :=
  numBytes 4 (hed.nex.code * 4 + hed.pro.toNat * 16 + typ.code * 128 + hed.hop.toNat * 512 + hed.mug.toNat * 4096) ++
    numBytes 4 mesaCookie.toNat

/-- An init name has no other flag and no fragment, and the length of a path is a short. -/
structure Name.Wf (nam : Name (List UInt8)) : Prop where
  init : nam.nit = true → nam.aut = false ∧ nam.fra = 0
  pat : nam.pat.length < 2 ^ 16

/-- The length of a fragment is a word. -/
def Data.Wf (dat : Data (List UInt8)) : Prop := dat.fra.length < 2 ^ 32

/-- A body of one of the three types, with the hops that the head tells, if any. -/
def Body.Wf (nex : HopType) : Body (List UInt8) → Prop
  | resv => False
  | page nam dat hop => nam.Wf ∧ dat.Wf ∧ hop.typ = nex ∧ (nex = .none ∨ nex = .short)
  | peek nam => nam.Wf
  | poke nam pay dat => nam.Wf ∧ pay.Wf ∧ dat.Wf

/-- **A packet that is well formed**, of this version of the protocol. -/
structure Pact.Wf (p : Pact (List UInt8)) : Prop where
  pro : p.hed.pro = 1
  hop : p.hed.hop < 8
  body : p.body.Wf p.hed.nex

theorem mesaEtchBody_writes {body : Body (List UInt8)} {nex : HopType} (h : body.Wf nex) :
    Writes (mesaEtchBody body) (bodyBytes body) := by
  cases body with
  | resv => exact .nil
  | page nam dat hop =>
    exact .seq (mesaEtchName_writes h.1.pat) (.seq (mesaEtchData_writes h.2.1) (.hops hop))
  | peek nam => exact mesaEtchName_writes h.pat
  | poke nam pay dat =>
    exact .seq (mesaEtchName_writes h.1.pat) (.seq (mesaEtchName_writes h.2.1.pat) (mesaEtchData_writes h.2.2))

/-- `mesa_size_pact` gives the size of a body whose hops have the size of `_mesa_size_hops`. -/
theorem mesaSizePact_of_hops {p : Pact (List UInt8)} (hresv : p.body ≠ .resv)
    (hhop : ∀ nam dat hop, p.body = .page nam dat hop → mesaSizeHops hop = (hopBytes hop).length) :
    mesaSizePact p = 8 + (bodyBytes p.body).length := by
  unfold mesaSizePact
  cases hbody : p.body with
  | resv => exact absurd hbody hresv
  | page nam dat hop =>
    simp only [bodyBytes, List.length_append, length_nameBytes, length_dataBytes, hhop nam dat hop hbody, Nat.add_assoc]
  | peek nam => simp only [bodyBytes, length_nameBytes]
  | poke nam pay dat =>
    simp only [bodyBytes, List.length_append, length_nameBytes, length_dataBytes, Nat.add_assoc]

/-- **A packet has the size that `mesa_size_pact` gives.** -/
theorem mesaSizePact_eq {p : Pact (List UInt8)} (h : p.Wf) : mesaSizePact p = 8 + (bodyBytes p.body).length := by
  have hb := h.body
  refine mesaSizePact_of_hops (fun hbody => ?_) fun nam dat hop hbody => ?_
  · rw [hbody] at hb
    exact hb.elim
  · rw [hbody] at hb
    obtain ⟨-, -, htyp, hnex⟩ := hb
    cases hop with
    | none => rfl
    | short sot => exact sot.property.symm
    | long one => rcases hnex with hnex | hnex <;> cases htyp.trans hnex
    | many man => rcases hnex with hnex | hnex <;> cases htyp.trans hnex

theorem mesaEtchHead_writes {hed : Head} {typ : Ptag} (hpro : hed.pro.toNat < 8) (hhop : hed.hop.toNat < 8)
    (hmug : hed.mug.toNat < 2 ^ 20) : Writes (mesaEtchHead hed typ) (headBytes hed typ) := by
  have hnex : hed.nex.code < 4 := by cases hed.nex <;> decide
  have htyp : typ.code < 4 := by cases typ <;> decide
  intro cap out hl
  have h1 : etchBits 2 0 (.clean cap out) = .ok ((), .bits cap out 2 0) := by
    have h : etchBits 2 0 (.bits cap out 0 0) = .ok ((), .bits cap out (0 + 2) (0 + 0 * 2 ^ 0)) :=
      etchBits_bits (by decide) (by decide) (by decide)
    rwa [Etcher.bits_zero] at h
  have h2 : etchBits 2 hed.nex.code (.bits cap out 2 0) = .ok ((), .bits cap out 4 (hed.nex.code * 4)) := by
    have h : etchBits 2 hed.nex.code (.bits cap out 2 0) =
        .ok ((), .bits cap out (2 + 2) (0 + hed.nex.code * 2 ^ 2)) :=
      etchBits_bits (by decide) (show _ < 2 ^ 2 from hnex) (by decide)
    rwa [Nat.zero_add] at h
  have h3 : etchBits 3 hed.pro.toNat (.bits cap out 4 (hed.nex.code * 4)) =
      .ok ((), .bits cap out 7 (hed.nex.code * 4 + hed.pro.toNat * 16)) :=
    etchBits_bits (w := 4) (show _ < 16 by omega) hpro (by decide)
  have h4 : etchBits 2 typ.code (.bits cap out 7 (hed.nex.code * 4 + hed.pro.toNat * 16)) =
      .ok ((), .bits cap out 9 (hed.nex.code * 4 + hed.pro.toNat * 16 + typ.code * 128)) :=
    etchBits_bits (w := 7) (show _ < 128 by omega) htyp (by decide)
  have h5 : etchBits 3 hed.hop.toNat (.bits cap out 9 (hed.nex.code * 4 + hed.pro.toNat * 16 + typ.code * 128)) =
      .ok ((), .bits cap out 12 (hed.nex.code * 4 + hed.pro.toNat * 16 + typ.code * 128 + hed.hop.toNat * 512)) :=
    etchBits_bits (w := 9) (show _ < 512 by omega) hhop (by decide)
  have h6 : etchBits 20 hed.mug.toNat
      (.bits cap out 12 (hed.nex.code * 4 + hed.pro.toNat * 16 + typ.code * 128 + hed.hop.toNat * 512)) =
      .ok ((), .bits cap out 32 (hed.nex.code * 4 + hed.pro.toNat * 16 + typ.code * 128 + hed.hop.toNat * 512 +
        hed.mug.toNat * 4096)) :=
    etchBits_bits (w := 12) (show _ < 4096 by omega) hmug (by decide)
  rw [headBytes, List.length_append, length_numBytes, length_numBytes] at hl
  have hlt : hed.nex.code * 4 + hed.pro.toNat * 16 + typ.code * 128 + hed.hop.toNat * 512 + hed.mug.toNat * 4096 <
      2 ^ (8 * 4) := by omega
  have hword := Writes.next (numBytes 4 mesaCookie.toNat) cap (out ++ numBytes 4 (hed.nex.code * 4 +
    hed.pro.toNat * 16 + typ.code * 128 + hed.hop.toNat * 512 + hed.mug.toNat * 4096))
      (by rw [List.length_append, length_numBytes, length_numBytes]; omega)
  unfold mesaEtchHead
  rw [run_bind h1, run_bind h2, run_bind h3, run_bind h4, run_bind h5, run_bind h6, Etcher.bits_bytes (n := 4) hlt,
    headBytes, ← List.append_assoc]
  exact hword

/-- The packet with another checksum. -/
def Pact.withMug (p : Pact (List UInt8)) (mug : UInt32) : Pact (List UInt8) :=
  { p with hed := { p.hed with mug := mug } }

@[simp] theorem Pact.withMug_nex (p : Pact (List UInt8)) (mug : UInt32) : (p.withMug mug).hed.nex = p.hed.nex := rfl

@[simp] theorem Pact.withMug_pro (p : Pact (List UInt8)) (mug : UInt32) : (p.withMug mug).hed.pro = p.hed.pro := rfl

@[simp] theorem Pact.withMug_hop (p : Pact (List UInt8)) (mug : UInt32) : (p.withMug mug).hed.hop = p.hed.hop := rfl

@[simp] theorem Pact.withMug_mug (p : Pact (List UInt8)) (mug : UInt32) : (p.withMug mug).hed.mug = mug := rfl

/-- The packet with its own checksum. -/
def Pact.summed (p : Pact (List UInt8)) : Pact (List UInt8) := p.withMug (Noun.mugBytes (bodyBytes p.body) &&& 0xfffff)

theorem mug_lt (l : List UInt8) : (Noun.mugBytes l &&& 0xfffff).toNat < 2 ^ 20 := by
  have hmask : (0xfffff : UInt32).toNat = 2 ^ 20 - 1 := rfl
  rw [UInt32.toNat_and, hmask, Nat.and_two_pow_sub_one_eq_mod]
  exact Nat.mod_lt _ (Nat.two_pow_pos 20)

/-- The bytes of a packet. -/
def pactBytes (p : Pact (List UInt8)) : List UInt8 := headBytes p.summed.hed p.typ ++ bodyBytes p.body

theorem except_bind {α β : Type} {m : Except Fault α} {a : α} {f : α → Except Fault β} (h : m = .ok a) :
    (m >>= f) = f a := by
  rw [h]
  rfl

/-- The head is etched before the payload that was etched apart. -/
theorem mesaEtchPact_eq {cap : UInt32} {p : Pact (List UInt8)}
    (hbody : mesaEtchBody p.body (etcherInit ((etcherInit cap).cap - UInt32.ofNat (etcherInit cap).out.length - 8)) =
      .ok ((), .clean (cap - UInt32.ofNat 0 - 8) (bodyBytes p.body)))
    (hhead : mesaEtchHead p.summed.hed p.typ (etcherInit cap) =
      .ok ((), .clean cap (headBytes p.summed.hed p.typ))) :
    mesaEtchPact p (etcherInit cap) = .ok (p.summed, .clean cap (pactBytes p)) := by
  unfold mesaEtchPact
  refine (except_bind hbody).trans ?_
  -- what the checksum is does not matter here
  unfold pactBytes
  unfold Pact.summed Pact.withMug at hhead ⊢
  dsimp only [Etcher.clean] at hhead ⊢
  generalize Noun.mugBytes (bodyBytes p.body) &&& 0xfffff = sum at hhead ⊢
  have htyp (hed : Head) : (⟨hed, p.body⟩ : Pact (List UInt8)).typ = p.typ := by
    unfold Pact.typ
    with_reducible rfl
  rw [htyp, hhead]
  rfl

/-- **A packet whose body is written is etched** where there is room for it. -/
theorem mesaEtchPactToBuf_written {cap : UInt32} {p : Pact (List UInt8)}
    (hw : Writes (mesaEtchBody p.body) (bodyBytes p.body)) (hpro : p.hed.pro.toNat < 8) (hhop : p.hed.hop.toNat < 8)
    (hs : 8 + (bodyBytes p.body).length ≤ cap.toNat) : mesaEtchPactToBuf cap p = .ok (pactBytes p, p.summed) := by
  have hcap : (cap - UInt32.ofNat 0 - 8).toNat = cap.toNat - 8 := by
    have hlt := cap.toNat_lt
    have h8 : (8 : UInt32) ≤ cap := UInt32.le_iff_toNat_le.mpr (show 8 ≤ cap.toNat by omega)
    rw [show UInt32.ofNat 0 = 0 from rfl, sub_zero, UInt32.toNat_sub_of_le _ _ h8]
    rfl
  have hbody := hw (cap - UInt32.ofNat 0 - 8) [] (by rw [hcap, List.length_nil]; omega)
  have hmug : p.summed.hed.mug.toNat < 2 ^ 20 := by
    rw [Pact.summed, Pact.withMug_mug]
    exact mug_lt _
  rw [← Pact.withMug_pro p (Noun.mugBytes (bodyBytes p.body) &&& 0xfffff)] at hpro
  rw [← Pact.withMug_hop p (Noun.mugBytes (bodyBytes p.body) &&& 0xfffff)] at hhop
  have hhead : mesaEtchHead p.summed.hed p.typ (.clean cap []) =
      .ok ((), .clean cap ([] ++ headBytes p.summed.hed p.typ)) := mesaEtchHead_writes hpro hhop hmug cap []
    (by rw [headBytes, List.length_append, length_numBytes, length_numBytes, List.length_nil]; omega)
  rw [List.nil_append] at hbody hhead
  unfold mesaEtchPactToBuf
  exact except_bind (mesaEtchPact_eq hbody hhead)

/-- **A packet that the buffer has room for is etched.** -/
theorem mesaEtchPactToBuf_eq {cap : UInt32} {p : Pact (List UInt8)} (h : p.Wf) (hs : mesaSizePact p ≤ cap.toNat) :
    mesaEtchPactToBuf cap p = .ok (pactBytes p, p.summed) := by
  rw [mesaSizePact_eq h] at hs
  have hpro : p.hed.pro.toNat < 8 := by
    rw [h.pro]
    decide
  exact mesaEtchPactToBuf_written (mesaEtchBody_writes h.body) hpro (UInt8.lt_iff_toNat_lt.mp h.hop) hs

end Mesa
end Ursockets

/-
# The bit reader of the bytestream jets

Bits are read from octs through a register: `need-bits` shifts bytes in, the others take bits out or
look at them. What they stand for is a stream of bits, the least significant of a byte first, and two
places in it: up to where it is read, and up to where it is fetched. The register holds the bits in between.

The byte that `need-bits` shifts in is an `int` there: C leaves the shift undefined where the result is no `int`,
or the count is 32 or more. A register of 64 bits cannot be shifted by 64, and bytes that do not fit in it
are an assertion that fails. These are all `Ret.fault`.

Key definitions: `needBits`, `readBits`, `Op.run`, `Op.over`, `Holds`, `Right`, `Op.Meets`.
Key theorems: `testBit_window`, `fetch_spec`, `right_iff`, `reader_right_iff`.
-/
import Ursockets.BytestreamAgree
import Ursockets.Lib.Replay

namespace Ursockets
namespace BytestreamBits

open Octets Replay
open Bytestream (Octs Ret xOctsBuffer xOctsBuffer_accepted length_bytes length_held bind_gives)

/-! ### The jets -/

/-- Octs, and a cursor into them. -/
structure Bays where
  pos : ℕ
  octs : Octs

/-- The register: how many bits it has, the bits, and where more are. -/
structure Bits where
  num : ℕ
  bit : ℕ
  bays : Bays

/-- A count or a register that is no word and no chub. -/
def Bits.Big (b : Bits) : Prop := 4294967296 ≤ b.num ∨ 18446744073709551616 ≤ b.bit

instance (b : Bits) : Decidable b.Big := inferInstanceAs (Decidable (_ ∨ _))

/-- C defines the shift of a byte to the left, which is of an `int`. -/
def Shifts (byt num : ℕ) : Prop := num < 32 ∧ byt * 2 ^ num < 2147483648

instance (byt num : ℕ) : Decidable (Shifts byt num) := inferInstanceAs (Decidable (_ ∧ _))

/-- `*(sea_y + pos_w) << num_w` -/
def shl (byt num : ℕ) : Ret ℕ := if Shifts byt num then .gives (byt * 2 ^ num) else .fault

/-- `bit_d >>= n_w` -/
def shr (bit n : ℕ) : Ret ℕ := if n < 64 then .gives (bit >>> n) else .fault

/-- `need_bytes_w` -/
def needBytes (n num : ℕ) : ℕ := (n - num) / 8 + if (n - num) % 8 = 0 then 0 else 1

/-- The loop of `_qe_bytestream_need_bits`; past the `len` bytes of the atom there are zeros. -/
def fetch (len : ℕ) : ℕ → Bits → Ret Bits
  | 0, b => .gives b
  | k + 1, b =>
    (if b.bays.pos < len then shl (b.bays.octs.q / 256 ^ b.bays.pos % 256) b.num else .gives 0).bind fun byt =>
      if 64 < b.num + 8 then .fault
      else fetch len k ⟨b.num + 8, (b.bit + byt) % 18446744073709551616,
        (b.bays.pos + 1) % 4294967296, b.bays.octs⟩

/-- `_qe_bytestream_need_bits` -/
def needBits (n : ℕ) (b : Bits) : Ret Bits :=
  if 4294967296 ≤ n ∨ b.Big then .none
  else if n ≤ b.num then .gives b
  else if 64 < n - b.num then .none
  else if 4294967296 ≤ b.bays.pos then .none
  else (xOctsBuffer b.bays.octs).bind fun (len, _) =>
    if b.bays.octs.p < (b.bays.pos + needBytes n b.num) % 4294967296 then .exit
    else fetch len (needBytes n b.num) b

/-- `_qe_bytestream_drop_bits` -/
def dropBits (n : ℕ) (b : Bits) : Ret Bits :=
  if 4294967296 ≤ n ∨ b.Big then .none
  else if n = 0 then .gives b
  else (shr b.bit (min n b.num)).bind fun bit => .gives ⟨b.num - min n b.num, bit, b.bays⟩

/-- `_qe_bytestream_peek_bits` -/
def peekBits (n : ℕ) (b : Bits) : Ret ℕ :=
  if 4294967296 ≤ n ∨ b.Big then .none
  else if n = 0 then .gives 0
  else if b.num < n then .exit
  else if 64 < n then .none
  else if n = 64 then .gives b.bit
  else .gives (b.bit &&& (2 ^ n - 1))

/-- `_qe_bytestream_read_bits` -/
def readBits (n : ℕ) (b : Bits) : Ret (ℕ × Bits) :=
  if 4294967296 ≤ n ∨ b.Big then .none
  else if b.num < n then .exit
  else if 64 < n then .none
  else
    let bet := if n = 64 then b.bit else b.bit &&& (2 ^ n - 1)
    (shr b.bit n).bind fun bit => .gives (bet, ⟨b.num - n, bit, b.bays⟩)

/-- `_qe_bytestream_byte_bits`: the bits up to the end of a byte are dropped. -/
def byteBits (b : Bits) : Ret Bits :=
  if b.Big then .none
  else if b.num % 8 = 0 then .gives b
  else .gives ⟨b.num - b.num % 8, b.bit >>> (b.num % 8), b.bays⟩

/-- A call of the reader. -/
inductive Op where
  | need (n : ℕ)
  | peek (n : ℕ)
  | read (n : ℕ)
  | drop (n : ℕ)
  | byte

/-- The bits that a call gives, if it gives any, and the register after it. -/
def Op.run : Op → Bits → Ret (Option ℕ × Bits)
  | .need n, b => (needBits n b).bind fun b' => .gives (none, b')
  | .peek n, b => (peekBits n b).bind fun bet => .gives (some bet, b)
  | .read n, b => (readBits n b).bind fun (bet, b') => .gives (some bet, b')
  | .drop n, b => (dropBits n b).bind fun b' => .gives (none, b')
  | .byte, b => (byteBits b).bind fun b' => .gives (none, b')

/-! ### The stream of bits -/

/-- The number that `n` bits of the stream make, from bit `c` on, the first the least significant. -/
def window (o : Octs) (c n : ℕ) : ℕ := num o.bytes / 2 ^ c % 2 ^ n

/-- Two places in the stream: bits are read up to the first, and bytes are fetched up to the second. -/
structure Place where
  bit : ℕ
  byte : ℕ

/-- How many bits are fetched and not read. -/
def Place.num (s : Place) : ℕ := 8 * s.byte - s.bit

/-- A call on the stream: a byte that the octs do not have, and a bit that is not fetched, are a crash. -/
def Op.over (o : Octs) : Op → Place → Ret (Option ℕ × Place)
  | .need n, s =>
    if n ≤ s.num then .gives (none, s)
    else if o.p < s.byte + needBytes n s.num then .exit
    else .gives (none, ⟨s.bit, s.byte + needBytes n s.num⟩)
  | .peek n, s => if s.num < n then .exit else .gives (some (window o s.bit n), s)
  | .read n, s => if s.num < n then .exit else .gives (some (window o s.bit n), ⟨s.bit + n, s.byte⟩)
  | .drop n, s => .gives (none, ⟨s.bit + min n s.num, s.byte⟩)
  | .byte, s => .gives (none, ⟨s.bit + s.num % 8, s.byte⟩)

/-- The register has just the bits that are fetched and not read. -/
structure Holds (o : Octs) (s : Place) (b : Bits) : Prop where
  octs : b.bays.octs = o
  pos : b.bays.pos = s.byte
  num : s.bit + b.num = 8 * s.byte
  bit : b.bit = window o s.bit b.num

/-- A call gives what the same on the stream does, or crashes with it, or a jet leaves it to the Hoon. -/
def Right (o : Octs) (x : Bits × Place) (op : Op) : Prop :=
  op.run x.1 = .none ∨ (op.run x.1).Agrees (fun y z => y.1 = z.1 ∧ Holds o z.2 y.2) (op.over o x.2)

/-- The register at a place. -/
def made (o : Octs) (s : Place) : Bits := ⟨s.num, window o s.bit s.num, s.byte, o⟩

/-- After a call: what the jet gives, and where it leaves the call to the Hoon the register at the
place. Nothing comes after a crash. -/
def turn (o : Octs) (x : Bits × Place) (op : Op) : Option (Bits × Place) :=
  match op.over o x.2 with
  | .gives (_, s) => some (match op.run x.1 with | .gives (_, b) => b | _ => made o s, s)
  | _ => none

/-- An empty register, at a byte of the octs. -/
def start (o : Octs) (pos : ℕ) : Bits × Place := (⟨0, 0, pos, o⟩, ⟨8 * pos, pos⟩)

/-! ### The condition -/

/-- The `i`th byte that is fetched, if the atom has it, is shifted in as C defines, and the
register has room for it. -/
def FitsAt (b : Bits) (i : ℕ) : Prop :=
  (b.bays.pos + i < size b.bays.octs.q → Shifts (b.bays.octs.q / 256 ^ (b.bays.pos + i) % 256) (b.num + 8 * i)) ∧
    b.num + 8 * (i + 1) ≤ 64

instance (b : Bits) (i : ℕ) : Decidable (FitsAt b i) := inferInstanceAs (Decidable ((_ → _) ∧ _))

/-- A jet leaves a fetch to the Hoon. -/
def Left (n : ℕ) (b : Bits) : Prop :=
  4294967296 ≤ n ∨ b.Big ∨ 64 < n - b.num ∨ 4294967296 ≤ b.bays.pos ∨ 4294967296 ≤ b.bays.octs.p

/-- The condition: bytes are fetched only where they fit, with a cursor that does not wrap, and the register
is not shifted by 64 bits. -/
def Op.Meets : Op → Bits → Prop
  | .need n, b => n ≤ b.num ∨ Left n b ∨ words b.bays.octs.q ≤ 1073741815 ∧
      if b.bays.octs.p < b.bays.pos + needBytes n b.num then
        b.bays.octs.p < (b.bays.pos + needBytes n b.num) % 4294967296
      else ∀ i < needBytes n b.num, FitsAt b i
  | .peek _, _ => True
  | .read n, b => n = 64 → b.num < 64 ∨ b.Big
  | .drop n, b => 64 ≤ n → b.num < 64 ∨ 4294967296 ≤ n ∨ b.Big
  | .byte, _ => True

/-! ### Windows -/

variable {o : Octs}

theorem window_zero (o : Octs) (c : ℕ) : window o c 0 = 0 := Nat.mod_one _

theorem window_lt (o : Octs) (c n : ℕ) : window o c n < 2 ^ n := Nat.mod_lt _ (Nat.two_pow_pos n)

/-- A window with another after it. -/
theorem window_add (o : Octs) (c n m : ℕ) : window o c (n + m) = window o c n + 2 ^ n * window o (c + n) m := by
  rw [window, Nat.pow_add, Nat.mod_mul, Nat.div_div_eq_div_mul, ← Nat.pow_add]
  rfl

/-- The first bits of a window. -/
theorem window_mod {c n m : ℕ} (h : n ≤ m) : window o c m % 2 ^ n = window o c n :=
  Nat.mod_mod_of_dvd _ (Nat.pow_dvd_pow 2 h)

/-- What is left of a window. -/
theorem window_shift {c n m : ℕ} (h : n ≤ m) : window o c m >>> n = window o (c + n) (m - n) := by
  rw [Nat.shiftRight_eq_div_pow]
  conv_lhs => rw [← Nat.add_sub_cancel' h, window_add]
  rw [Nat.add_mul_div_left _ _ (Nat.two_pow_pos n), Nat.div_eq_of_lt (window_lt o c n), Nat.zero_add]

/-- A byte of the stream is one of the atom, or zero past its last. -/
theorem window_byte {pos : ℕ} (h : pos < o.p) :
    window o (8 * pos) 8 = if pos < min (size o.q) o.p then o.q / 256 ^ pos % 256 else 0 := by
  have hpow : 2 ^ (8 * pos) = 256 ^ pos := by rw [Nat.pow_mul]
  have hsplit : 256 ^ o.p = 256 ^ pos * 256 ^ (o.p - pos) := by rw [← Nat.pow_add, Nat.add_sub_cancel' h.le]
  have hdvd : 256 ∣ 256 ^ (o.p - pos) := dvd_pow_self 256 (Nat.sub_ne_zero_of_lt h)
  have hbyte : window o (8 * pos) 8 = o.q / 256 ^ pos % 256 := by
    rw [window, Octs.bytes, num_ofNum_mod, hpow, hsplit, Nat.mod_mul_right_div_self]
    exact Nat.mod_mod_of_dvd _ hdvd
  rw [hbyte]
  split_ifs with hlt
  · rfl
  · have hsize : size o.q ≤ pos := by omega
    rw [Nat.div_eq_of_lt (size_le_iff.mp hsize)]

/-! ### The fetch -/

variable {s : Place} {b : Bits}

/-- The register with one more byte. -/
def Bits.next (b : Bits) : Bits :=
  ⟨b.num + 8, b.bit + 2 ^ b.num * window b.bays.octs (8 * b.bays.pos) 8, b.bays.pos + 1, b.bays.octs⟩

theorem Holds.next (h : Holds o s b) : Holds o ⟨s.bit, s.byte + 1⟩ b.next where
  octs := h.octs
  pos := congrArg (· + 1) h.pos
  num := by
    show s.bit + (b.num + 8) = 8 * (s.byte + 1)
    rw [← Nat.add_assoc, h.num, Nat.mul_add]
  bit := by
    show b.bit + 2 ^ b.num * window b.bays.octs (8 * b.bays.pos) 8 = window o s.bit (b.num + 8)
    rw [window_add, h.num, ← h.bit, h.octs, h.pos]

theorem fitsAt_next (b : Bits) (i : ℕ) : FitsAt b.next i ↔ FitsAt b (i + 1) := by
  have hpos : b.bays.pos + 1 + i = b.bays.pos + (i + 1) := Nat.add_right_comm _ _ _
  have hnum : b.num + 8 + 8 * i = b.num + 8 * (i + 1) := by omega
  have hend : b.num + 8 + 8 * (i + 1) = b.num + 8 * (i + 1 + 1) := by omega
  show (b.bays.pos + 1 + i < _ → Shifts (b.bays.octs.q / 256 ^ (b.bays.pos + 1 + i) % 256) (b.num + 8 + 8 * i)) ∧
    b.num + 8 + 8 * (i + 1) ≤ 64 ↔ _
  rw [hpos, hnum, hend]
  rfl

/-- One turn of the loop: a byte that fits is the next of the register, and one that does not is a fault. -/
theorem fetch_turn (h : Holds o s b) (hp : s.byte < o.p) (hw : o.p < 4294967296) (k : ℕ) :
    fetch (min (size o.q) o.p) (k + 1) b = if FitsAt b 0 then fetch (min (size o.q) o.p) k b.next else .fault := by
  have hbyte := window_byte hp
  have hpos : b.bays.pos < o.p := h.pos ▸ hp
  have hcur : (b.bays.pos + 1) % 4294967296 = b.bays.pos + 1 := Nat.mod_eq_of_lt (by omega)
  have hbit : b.bit < 2 ^ b.num := h.bit ▸ window_lt o s.bit b.num
  -- what is added stays in the register
  have hroom (hfit : b.num + 8 ≤ 64) : b.bit + 2 ^ b.num * window o (8 * b.bays.pos) 8 < 18446744073709551616 := by
    have hnext := h.next.bit ▸ window_lt o s.bit (b.num + 8)
    have hpow : (2 : ℕ) ^ (b.num + 8) ≤ 2 ^ 64 := Nat.pow_le_pow_right (by decide) hfit
    rw [Bits.next, h.octs] at hnext
    exact lt_of_lt_of_le hnext hpow
  have hnext : b.next = ⟨b.num + 8, b.bit + 2 ^ b.num * window o (8 * b.bays.pos) 8, b.bays.pos + 1, o⟩ := by
    rw [Bits.next, h.octs]
  have hfits : FitsAt b 0 ↔
      (s.byte < size o.q → Shifts (o.q / 256 ^ s.byte % 256) b.num) ∧ b.num + 8 ≤ 64 := by
    rw [← h.octs, ← h.pos]
    rfl
  rw [h.pos] at hpos hcur hroom hnext
  rw [fetch, h.octs, h.pos, hcur]
  by_cases hin : s.byte < min (size o.q) o.p
  · rw [if_pos hin] at hbyte
    rw [if_pos hin, shl]
    have hsize : s.byte < size o.q := lt_of_lt_of_le hin (Nat.min_le_left _ _)
    by_cases hs : Shifts (o.q / 256 ^ s.byte % 256) b.num
    · rw [if_pos hs, bind_gives]
      by_cases hfit : b.num + 8 ≤ 64
      · rw [if_neg (Nat.not_lt.mpr hfit), if_pos (hfits.mpr ⟨fun _ => hs, hfit⟩), hnext, ← hbyte,
          Nat.mul_comm (window _ _ _), Nat.mod_eq_of_lt (hroom hfit)]
      · rw [if_pos (Nat.lt_of_not_le hfit), if_neg fun hf => hfit (hfits.mp hf).2]
    · rw [if_neg hs, if_neg fun hf => hs ((hfits.mp hf).1 hsize)]
      rfl
  · rw [if_neg hin] at hbyte
    have hsize : ¬ s.byte < size o.q := by omega
    rw [if_neg hin, bind_gives]
    by_cases hfit : b.num + 8 ≤ 64
    · have hsame := hroom hfit
      rw [hbyte, Nat.mul_zero] at hsame
      rw [if_neg (Nat.not_lt.mpr hfit), if_pos (hfits.mpr ⟨fun hlt => absurd hlt hsize, hfit⟩), hnext, hbyte,
        Nat.mul_zero, Nat.mod_eq_of_lt hsame]
    · rw [if_pos (Nat.lt_of_not_le hfit), if_neg fun hf => hfit (hfits.mp hf).2]

/-- The loop ends with a register or a fault. -/
theorem fetch_ends (len : ℕ) : ∀ (k : ℕ) (b : Bits), (∃ b', fetch len k b = .gives b') ∨ fetch len k b = .fault
  | 0, b => .inl ⟨b, rfl⟩
  | k + 1, b => by
    rw [fetch]
    have hrest (byt : ℕ) := fetch_ends len k ⟨b.num + 8, (b.bit + byt) % 18446744073709551616,
      (b.bays.pos + 1) % 4294967296, b.bays.octs⟩
    split_ifs with hin hs
    · rw [shl]
      split_ifs
      · exact .inr rfl
      · exact .inr rfl
    · rw [shl]
      split_ifs
      · exact hrest _
      · exact .inr rfl
    · exact .inr rfl
    · exact hrest _

/-- **The loop puts the bytes into the register** that are there, where each of them fits, and faults where one
does not. -/
theorem fetch_spec (hw : o.p < 4294967296) : ∀ (k : ℕ) {s : Place} {b : Bits}, Holds o s b → s.byte + k ≤ o.p →
    ((∀ i < k, FitsAt b i) → ∃ b', fetch (min (size o.q) o.p) k b = .gives b' ∧ Holds o ⟨s.bit, s.byte + k⟩ b') ∧
      ((¬ ∀ i < k, FitsAt b i) → fetch (min (size o.q) o.p) k b = .fault)
  | 0, s, b, h, _ => ⟨fun _ => ⟨b, rfl, h⟩, fun hn => absurd (fun i hi => absurd hi (Nat.not_lt_zero i)) hn⟩
  | k + 1, s, b, h, hp => by
    have hk : s.byte + 1 + k = s.byte + (k + 1) := Nat.add_right_comm _ _ _
    have hturn := fetch_turn h (by omega) hw k
    have hrest : (∀ i < k, FitsAt b.next i) ↔ ∀ i < k, FitsAt b (i + 1) :=
      forall_congr' fun i => imp_congr_right fun _ => fitsAt_next b i
    obtain ⟨hgives, hfault⟩ := fetch_spec hw k h.next (by rw [hk]; exact hp)
    rw [hrest, hk] at hgives
    rw [hrest] at hfault
    rw [Nat.forall_lt_succ_left]
    constructor
    · rintro ⟨h0, hr⟩
      rw [hturn, if_pos h0]
      exact hgives hr
    · intro hn
      by_cases h0 : FitsAt b 0
      · rw [hturn, if_pos h0]
        exact hfault fun hr => hn ⟨h0, hr⟩
      · rw [hturn, if_neg h0]

/-! ### The calls -/

theorem Holds.num_eq (h : Holds o s b) : s.num = b.num := Nat.sub_eq_of_eq_add' h.num.symm

theorem needBits_left {n : ℕ} (hlt : ¬ n ≤ b.num) (h : Left n b) : needBits n b = .none := by
  rw [needBits]
  by_cases h1 : 4294967296 ≤ n ∨ b.Big
  · rw [if_pos h1]
  rw [if_neg h1, if_neg hlt]
  by_cases h2 : 64 < n - b.num
  · rw [if_pos h2]
  rw [if_neg h2]
  by_cases h3 : 4294967296 ≤ b.bays.pos
  · rw [if_pos h3]
  have hp : 4294967296 ≤ b.bays.octs.p := by
    obtain hn | hb | hd | hpos | hp := h
    · exact absurd (.inl hn) h1
    · exact absurd (.inr hb) h1
    · exact absurd hd h2
    · exact absurd hpos h3
    · exact hp
  rw [if_neg h3, xOctsBuffer, if_pos hp]
  rfl

/-- What `need-bits` comes to where the jet takes it. -/
theorem needBits_taken {n : ℕ} (hlt : ¬ n ≤ b.num) (h : ¬ Left n b) :
    needBits n b = if words b.bays.octs.q ≤ 1073741815 then
      if b.bays.octs.p < (b.bays.pos + needBytes n b.num) % 4294967296 then .exit
      else fetch (min (size b.bays.octs.q) b.bays.octs.p) (needBytes n b.num) b
    else .fail := by
  simp only [Left, not_or] at h
  obtain ⟨hn, hb, hd, hpos, hp⟩ := h
  rw [needBits, if_neg (not_or.mpr ⟨hn, hb⟩), if_neg hlt, if_neg hd, if_neg hpos]
  by_cases hw : words b.bays.octs.q ≤ 1073741815
  · rw [if_pos hw, xOctsBuffer_accepted ⟨Nat.lt_of_not_le hp, hw⟩, bind_gives, length_held]
  · rw [if_neg hw, xOctsBuffer, if_neg hp, Bytestream.u3rMet3, if_pos (by omega)]
    rfl

theorem need_iff (h : Holds o s b) (n : ℕ) : Right o (b, s) (.need n) ↔ (Op.need n).Meets b := by
  rw [Right, Op.run, Op.over, Op.Meets, h.num_eq]
  by_cases hle : n ≤ b.num
  · refine iff_of_true ?_ (.inl hle)
    rw [needBits, if_pos hle, if_pos hle]
    split_ifs with h1
    · exact .inl rfl
    · exact .inr ⟨rfl, h⟩
  rw [if_neg hle, or_iff_right hle]
  by_cases hleft : Left n b
  · rw [needBits_left hle hleft]
    exact iff_of_true (.inl rfl) (.inl hleft)
  rw [needBits_taken hle hleft, or_iff_right hleft, h.octs, h.pos]
  by_cases hw : words o.q ≤ 1073741815
  swap
  · rw [if_neg hw]
    refine iff_of_false (not_or.mpr ⟨(fun h => nomatch h), ?_⟩) fun hm => hw hm.1
    split_ifs <;> exact id
  rw [if_pos hw, and_iff_right hw]
  have hp : o.p < 4294967296 := by
    rw [← h.octs]
    exact Nat.lt_of_not_le fun hp => hleft (.inr (.inr (.inr (.inr hp))))
  by_cases hpast : o.p < s.byte + needBytes n b.num
  · rw [if_pos hpast, if_pos hpast]
    split_ifs with hwrap
    · exact iff_of_true (.inr trivial) hwrap
    · refine iff_of_false ?_ hwrap
      obtain ⟨b', hb'⟩ | hf := fetch_ends (min (size o.q) o.p) (needBytes n b.num) b
      · rw [hb']
        exact not_or.mpr ⟨(fun h => nomatch h), id⟩
      · rw [hf]
        exact not_or.mpr ⟨(fun h => nomatch h), id⟩
  · have hmod : (s.byte + needBytes n b.num) % 4294967296 = s.byte + needBytes n b.num := Nat.mod_eq_of_lt (by omega)
    obtain ⟨hgives, hfault⟩ := fetch_spec hp (needBytes n b.num) h (by omega)
    rw [if_neg hpast, if_neg hpast, hmod, if_neg hpast]
    by_cases hfits : ∀ i < needBytes n b.num, FitsAt b i
    · obtain ⟨b', hb', hholds⟩ := hgives hfits
      rw [hb']
      exact iff_of_true (.inr ⟨rfl, hholds⟩) hfits
    · rw [hfault hfits]
      exact iff_of_false (not_or.mpr ⟨(fun h => nomatch h), id⟩) hfits

/-- The first bits of a register. -/
theorem Holds.low (h : Holds o s b) {n : ℕ} (hn : n ≤ b.num) : b.bit % 2 ^ n = window o s.bit n := by
  rw [h.bit, window_mod hn]

/-- The bits that a mask leaves, or the whole register, are the first. -/
theorem Holds.bet (h : Holds o s b) {n : ℕ} (hn : n ≤ b.num) (hb : ¬ b.Big) :
    (if n = 64 then b.bit else b.bit &&& (2 ^ n - 1)) = window o s.bit n := by
  rw [← h.low hn]
  split_ifs with h64
  · subst h64
    exact (Nat.mod_eq_of_lt (Nat.lt_of_not_le fun hbit => hb (.inr hbit))).symm
  · exact Nat.and_two_pow_sub_one_eq_mod _ _

/-- A register without its first bits. -/
theorem Holds.drop (h : Holds o s b) {n : ℕ} (hn : n ≤ b.num) :
    Holds o ⟨s.bit + n, s.byte⟩ ⟨b.num - n, b.bit >>> n, b.bays⟩ where
  octs := h.octs
  pos := h.pos
  num := by
    show s.bit + n + (b.num - n) = 8 * s.byte
    rw [Nat.add_assoc, Nat.add_sub_cancel' hn, h.num]
  bit := by
    show b.bit >>> n = window o (s.bit + n) (b.num - n)
    rw [h.bit, window_shift hn]

theorem peek_right (h : Holds o s b) (n : ℕ) : Right o (b, s) (.peek n) := by
  rw [Right, Op.run, Op.over, peekBits, h.num_eq]
  by_cases hbig : 4294967296 ≤ n ∨ b.Big
  · rw [if_pos hbig]
    exact .inl rfl
  rw [if_neg hbig]
  by_cases h0 : n = 0
  · rw [if_pos h0, if_neg (h0 ▸ Nat.not_lt_zero _), h0, window_zero]
    exact .inr ⟨rfl, h⟩
  rw [if_neg h0]
  by_cases hlt : b.num < n
  · rw [if_pos hlt, if_pos hlt]
    exact .inr trivial
  rw [if_neg hlt, if_neg hlt]
  by_cases h64 : 64 < n
  · rw [if_pos h64]
    exact .inl rfl
  have hbet := h.bet (Nat.le_of_not_lt hlt) fun hb => hbig (.inr hb)
  rw [if_neg h64, ← apply_ite Ret.gives, hbet]
  exact .inr ⟨rfl, h⟩

theorem read_iff (h : Holds o s b) (n : ℕ) : Right o (b, s) (.read n) ↔ (Op.read n).Meets b := by
  rw [Right, Op.run, Op.over, Op.Meets, readBits, h.num_eq]
  by_cases hbig : 4294967296 ≤ n ∨ b.Big
  · rw [if_pos hbig]
    refine iff_of_true (.inl rfl) fun h64 => .inr ?_
    obtain hn | hb := hbig
    · exact absurd hn (by omega)
    · exact hb
  rw [if_neg hbig]
  by_cases hlt : b.num < n
  · rw [if_pos hlt, if_pos hlt]
    exact iff_of_true (.inr trivial) fun h64 => .inl (h64 ▸ hlt)
  rw [if_neg hlt, if_neg hlt]
  by_cases h64 : 64 < n
  · rw [if_pos h64]
    exact iff_of_true (.inl rfl) fun he => absurd h64 (by omega)
  have hle := Nat.le_of_not_lt hlt
  have hbet := h.bet hle fun hb => hbig (.inr hb)
  rw [if_neg h64, hbet, shr]
  by_cases hn : n < 64
  · rw [if_pos hn]
    exact iff_of_true (.inr ⟨rfl, h.drop hle⟩) fun he => absurd hn (by omega)
  · rw [if_neg hn]
    refine iff_of_false (not_or.mpr ⟨(fun h => nomatch h), id⟩) fun hm => ?_
    obtain hlow | hb := hm (by omega)
    · omega
    · exact hbig (.inr hb)

theorem drop_iff (h : Holds o s b) (n : ℕ) : Right o (b, s) (.drop n) ↔ (Op.drop n).Meets b := by
  rw [Right, Op.run, Op.over, Op.Meets, dropBits, h.num_eq]
  by_cases hbig : 4294967296 ≤ n ∨ b.Big
  · rw [if_pos hbig]
    exact iff_of_true (.inl rfl) fun _ => .inr hbig
  rw [if_neg hbig]
  by_cases h0 : n = 0
  · rw [if_pos h0, h0, Nat.zero_min, Nat.add_zero]
    exact iff_of_true (.inr ⟨rfl, h⟩) fun h64 => absurd h64 (by decide)
  rw [if_neg h0, shr]
  by_cases hn : min n b.num < 64
  · rw [if_pos hn]
    refine iff_of_true (.inr ⟨rfl, h.drop (Nat.min_le_right _ _)⟩) fun h64 => .inl ?_
    exact (min_lt_iff.mp hn).resolve_left (Nat.not_lt.mpr h64)
  · rw [if_neg hn]
    refine iff_of_false (not_or.mpr ⟨(fun h => nomatch h), id⟩) fun hm => ?_
    obtain ⟨h64, hnum⟩ := le_min_iff.mp (Nat.le_of_not_lt hn)
    obtain hlow | hb := hm h64
    · omega
    · exact hbig hb

theorem byte_right (h : Holds o s b) : Right o (b, s) .byte := by
  rw [Right, Op.run, Op.over, byteBits, h.num_eq]
  by_cases hbig : b.Big
  · rw [if_pos hbig]
    exact .inl rfl
  rw [if_neg hbig]
  by_cases h0 : b.num % 8 = 0
  · rw [if_pos h0, h0, Nat.add_zero]
    exact .inr ⟨rfl, h⟩
  · rw [if_neg h0]
    exact .inr ⟨rfl, h.drop (Nat.mod_le _ _)⟩

/-- **A call is right just when the condition holds**, of a register that has the bits that it should. -/
theorem right_iff (h : Holds o s b) (op : Op) : Right o (b, s) op ↔ op.Meets b := by
  cases op with
  | need n => exact need_iff h n
  | peek n => exact iff_of_true (peek_right h n) trivial
  | read n => exact read_iff h n
  | drop n => exact drop_iff h n
  | byte => exact iff_of_true (byte_right h) trivial

/-! ### Runs -/

theorem holds_made (h : s.bit ≤ 8 * s.byte) : Holds o s (made o s) where
  octs := rfl
  pos := rfl
  num := Nat.add_sub_cancel' h
  bit := rfl

/-- A call on the stream does not read on past what is fetched. -/
theorem over_le {op : Op} {s' : Place} {v : Option ℕ} (hs : s.bit ≤ 8 * s.byte) (h : op.over o s = .gives (v, s')) :
    s'.bit ≤ 8 * s'.byte := by
  have hnum : s.bit + s.num = 8 * s.byte := Nat.add_sub_cancel' hs
  cases op with
  | need n =>
    rw [Op.over] at h
    split_ifs at h
    · cases h; exact hs
    · cases h
      show s.bit ≤ 8 * (s.byte + _)
      omega
  | peek n =>
    rw [Op.over] at h
    split_ifs at h
    cases h
    exact hs
  | read n =>
    rw [Op.over] at h
    split_ifs at h
    cases h
    show s.bit + n ≤ 8 * s.byte
    omega
  | drop n =>
    cases h
    show s.bit + min n s.num ≤ 8 * s.byte
    omega
  | byte =>
    cases h
    show s.bit + s.num % 8 ≤ 8 * s.byte
    omega

/-- A call that is right leaves the register with the bits that it should have. -/
theorem holds_turn {x y : Bits × Place} {op : Op} (h : Holds o x.2 x.1) (hr : Right o x op)
    (ht : turn o x op = some y) : Holds o y.2 y.1 := by
  rw [turn] at ht
  split at ht
  · rename_i v s' hover
    obtain rfl := Option.some.inj ht
    obtain hnone | hagrees := hr
    · rw [hnone]
      exact holds_made (over_le (h.num ▸ Nat.le_add_right _ _) hover)
    · obtain ⟨-, hexit⟩ | ⟨r, z, hrun, hz, -, hholds⟩ := hagrees.cases
      · exact absurd (hexit.symm.trans hover) (fun h => nomatch h)
      · obtain rfl : z = (v, s') := Ret.gives.inj (hz.symm.trans hover)
        rw [hrun]
        exact hholds
  · cases ht

theorem holds_start (o : Octs) (pos : ℕ) : Holds o (start o pos).2 (start o pos).1 where
  octs := rfl
  pos := rfl
  num := rfl
  bit := (window_zero o _).symm

/-- **The reader follows the stream of bits**, in every run from every place, just when each call
meets the condition. -/
theorem reader_right_iff (o : Octs) (pos : ℕ) (ops : List Op) :
    Along (turn o) (Right o) (start o pos) ops ↔ Along (turn o) (fun x op => op.Meets x.1) (start o pos) ops :=
  Along.congr_all (fun x => Holds o x.2 x.1) (fun _ _ _ h hr ht => holds_turn h hr ht)
    (fun _ op h => right_iff h op) (holds_start o pos)

/-- Four bytes of which the last is `0x80`: it is shifted by 24, and is no `int` then. -/
theorem need_byte_lost : ¬ Along (turn ⟨4, 2147483648⟩) (Right ⟨4, 2147483648⟩) (start ⟨4, 2147483648⟩ 0)
    [.need 32, .read 32] := by
  intro h
  have hfault : (Op.need 32).run (start ⟨4, 2147483648⟩ 0).1 = .fault := rfl
  obtain hnone | hagrees := h.1
  · rw [hfault] at hnone
    cases hnone
  · rw [hfault] at hagrees
    exact hagrees

end BytestreamBits
end Ursockets

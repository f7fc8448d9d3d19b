/-
# Atoms as dotted decimals

The `@ud` codec of `serial.c`: `u3s_etch_ud` and `u3s_etch_ud_c` write an atom in decimal with a
dot between groups of three digits, `u3s_sift_ud_bytes` and `u3s_sift_ud` read it back. Each
has a path with a word of 64 bits, for short numbers, and one with numbers of the bignum library.
Words wrap in the first; the second is not bounded.

The library is no part of the repository. What the code has from it beside exact arithmetic is how
many digits `mpz_sizeinbase` counts, which may be one too many: `Gmp`. A function that bails is `none`.

Key definitions: `Gmp`, `u3sEtchUdSmol`, `csEtchUdBytes`, `u3sEtchUd`, `u3sEtchUdC`, `u3sSiftUdBytes`, `u3sSiftUd`.
Key theorems: `putBlocks_spell`, `siftMp_iff`, `siftSmol_eq`, `siftUdBytes_iff`, `decimal_right`.
-/
import Ursockets.BytestreamAgree
import Ursockets.Etch

namespace Ursockets
namespace Decimal

open Dotted Octets Etch

/-- What `mpz_sizeinbase(a, 10)` counts: the digits of `a`, of which zero has one, or one more. -/
structure Gmp where
  sizeinbase10 : ℕ → ℕ
  sizes : ∀ a, sizeinbase10 a = max 1 (Nat.digits 10 a).length ∨
    sizeinbase10 a = max 1 (Nat.digits 10 a).length + 1

/-- The count without the digit too many. -/
def Gmp.exact : Gmp := ⟨fun a => max 1 (Nat.digits 10 a).length, fun _ => Or.inl rfl⟩

/-! ### Writing -/

/-- The loop over the digits of the last group. -/
def putLast (b : ℕ) (out : List UInt8) : List UInt8 :=
  if b = 0 then out else putLast (b / 10) (UInt8.ofNat (48 + b % 10) :: out)
termination_by b

/-- The loop over the groups, of `u3s_etch_ud_smol` and of `_cs_etch_ud_bytes`; `out` is what is
written from the pointer on. -/
def putBlocks (a : ℕ) (out : List UInt8) : List UInt8 :=
  let b := a % 1000
  if a / 1000 = 0 then putLast b out
  else
    putBlocks (a / 1000)
      (46 :: UInt8.ofNat (48 + b / 10 / 10 % 10) :: UInt8.ofNat (48 + b / 10 % 10) :: UInt8.ofNat (48 + b % 10) :: out)
termination_by a

/-- What `u3s_etch_ud_smol` leaves at the end of its buffer. -/
def u3sEtchUdSmol (a : UInt64) : List UInt8 := if a = 0 then [48] else putBlocks a.toNat []

/-- `_cs_etch_ud_size` -/
def csEtchUdSize (g : Gmp) (a : ℕ) : ℕ :=
  let len := g.sizeinbase10 a
  len + len / 3

/-- `_cs_etch_ud_bytes`: the length and the buffer, moved to the front with zeros after it. -/
def csEtchUdBytes (a len : ℕ) : Option (ℕ × List UInt8) :=
  let buf := if a = 0 then [48] else putBlocks a []
  -- u3_assert( buf_y >= hun_y )
  if len < buf.length then none
  else
    let dif := len - buf.length
    some (len - dif, buf ++ List.replicate dif 0)

/-- `u3r_safe_chub` -/
def u3rSafeChub (a : ℕ) : Option UInt64 := do
  let met ← u3rMetAt 6 a
  if 1 < met then none else some (UInt64.ofNat a)

/-- `u3s_etch_ud` -/
def u3sEtchUd (g : Gmp) (a : ℕ) : Option ℕ :=
  match u3rSafeChub a with
  | some chub => some (num (u3sEtchUdSmol chub))
  | none => do
    let len := csEtchUdSize g a
    let _ ← Bytestream.ciSlabSize len
    let (_, buf) ← csEtchUdBytes a len
    some (num buf)

/-- `u3s_etch_ud_c`: the string. -/
def u3sEtchUdC (g : Gmp) (a : ℕ) : Option (List UInt8) :=
  match u3rSafeChub a with
  | some chub => some (u3sEtchUdSmol chub)
  | none => do
    let (len, buf) ← csEtchUdBytes a (csEtchUdSize g a)
    some (buf.take len)

/-! ### Reading -/

/-- `DIGIT` -/
def isDigit (b : UInt8) : Bool := 48 ≤ b && b ≤ 57

/-- `BLOCK` -/
def isBlock (a b c d : UInt8) : Bool := a == 46 && isDigit b && isDigit c && isDigit d

/-- The leading digits: `NEXT` so many times. -/
def siftLead : ℕ → UInt16 → List UInt8 → Option (UInt16 × List UInt8)
  | 0, val, byt => some (val, byt)
  | n + 1, val, b :: byt => if isDigit b then siftLead n (val * 10 + (b.toUInt16 - 48)) byt else none
  | _ + 1, _, [] => none

/-- The loop over the blocks in a word of 64 bits. -/
def siftSmol : UInt64 → List UInt8 → Option UInt64
  | val, [] => some val
  | val, a :: b :: c :: d :: byt =>
    if isBlock a b c d then
      siftSmol (((val * 10 + (b.toUInt64 - 48)) * 10 + (c.toUInt64 - 48)) * 10 + (d.toUInt64 - 48)) byt
    else none
  | _, _ => none

/-- The loop over the blocks with the bignum library. -/
def siftMp : ℕ → List UInt8 → Option ℕ
  | acc, [] => some acc
  | acc, a :: b :: c :: d :: byt =>
    if isBlock a b c d then
      let val : UInt16 := ((b.toUInt16 - 48) * 10 + (c.toUInt16 - 48)) * 10 + (d.toUInt16 - 48)
      siftMp (acc * 1000 + val.toNat) byt
    else none
  | _, _ => none

/-- The blocks that go through the word. -/
def Short (num len : ℕ) : Prop := (num = 1 ∧ len ≤ 24) ∨ len ≤ 20

instance (num len : ℕ) : Decidable (Short num len) := inferInstanceAs (Decidable (_ ∨ _))

/-- `u3s_sift_ud_bytes`; a text that is refused is `none`. -/
def u3sSiftUdBytes : List UInt8 → Option ℕ
  | [] => none
  | b :: byt =>
    let len := byt.length + 1
    let num := len % 4
    if b = 48 then if len = 1 then some 0 else none
    else if num = 0 then none
    else do
      let (val, rest) ← siftLead num 0 (b :: byt)
      if Short num (len - num) then (siftSmol val.toUInt64 rest).map UInt64.toNat
      else siftMp val.toNat rest

/-- `u3s_sift_ud` -/
def u3sSiftUd (a : ℕ) : Option (Option ℕ) := do
  let len ← Bytestream.u3rMet3 a
  some (u3sSiftUdBytes (ofNum len a))

/-- The character of a symbol. -/
def sym : Option ℕ → UInt8
  | none => 46
  | some d => UInt8.ofNat (48 + d)

/-- The bytes are the canonical text of a number. -/
def Spelled (byt : List UInt8) (v : ℕ) : Prop :=
  ∃ t, Canonical 10 3 t ∧ byt = t.map sym ∧ value 10 t = v

/-! ### What is written -/

/-- The last group's digits. -/
theorem putLast_eq (b : ℕ) (out : List UInt8) :
    putLast b out = ((Nat.digits 10 b).map some).reverse.map sym ++ out := by
  induction b using Nat.strong_induction_on generalizing out with
  | _ b ih =>
    rw [putLast]
    split
    · rename_i hb
      rw [hb, Nat.digits_zero]
      rfl
    · rename_i hb
      rw [ih (b / 10) (Nat.div_lt_self (Nat.pos_of_ne_zero hb) (by decide)),
        Nat.digits_def' (by decide) (Nat.pos_of_ne_zero hb)]
      simp [sym]

/-- **The loop writes the text of the number.** -/
theorem putBlocks_spell {a : ℕ} (ha : a ≠ 0) (out : List UInt8) :
    putBlocks a out = (spell 10 3 a).map sym ++ out := by
  induction a using Nat.strong_induction_on generalizing out with
  | _ a ih =>
    rw [putBlocks]
    by_cases hlast : a / 1000 = 0
    · have hlt : a < 10 ^ 3 := by omega
      have hall : a % 1000 = a := by omega
      rw [if_pos hlast, putLast_eq, spell_short (by decide) ha hlt, hall]
    · have hmore : 10 ^ 3 ≤ a := by omega
      have hlow : a % 1000 % 10 = a % 10 := by omega
      have hmid : a % 1000 / 10 % 10 = a / 10 % 10 := by omega
      have htop : a % 1000 / 10 / 10 % 10 = a / 10 / 10 % 10 := by omega
      rw [if_neg hlast, ih (a / 1000) (Nat.div_lt_self (by omega) (by decide)) hlast,
        spell_block (b := 10) (g := 3) (by decide) (by decide) hmore, hlow, hmid, htop]
      simp [places, sym]

theorem text_zero : (spell 10 3 0).map sym = [48] := rfl

/-- What both paths write is the text. -/
theorem buf_eq (a : ℕ) : (if a = 0 then [48] else putBlocks a []) = (spell 10 3 a).map sym := by
  split
  · rename_i ha
    rw [ha, text_zero]
  · rename_i ha
    rw [putBlocks_spell ha, List.append_nil]

theorem etchUdSmol_eq (a : UInt64) : u3sEtchUdSmol a = (spell 10 3 a.toNat).map sym := by
  rw [← buf_eq, u3sEtchUdSmol]
  congr 1
  rw [← UInt64.toNat_inj]
  rfl

/-- The size computed from the library's count is enough, and at most two too large. -/
theorem csEtchUdSize_bounds (g : Gmp) (a : ℕ) :
    (spell 10 3 a).length ≤ csEtchUdSize g a ∧ csEtchUdSize g a ≤ (spell 10 3 a).length + 2 := by
  have hsize := g.sizes a
  rw [csEtchUdSize]
  by_cases ha : a = 0
  · rw [ha] at hsize ⊢
    rw [Nat.digits_zero, List.length_nil] at hsize
    rw [spell, if_pos rfl, List.length_singleton]
    omega
  · have hpos : 0 < (Nat.digits 10 a).length :=
      List.length_pos_of_ne_nil (Nat.digits_ne_nil_iff_ne_zero.mpr ha)
    rw [length_spell (by decide) ha]
    omega

/-- The bignum path leaves the text at the front of its buffer. -/
theorem csEtchUdBytes_eq (g : Gmp) (a : ℕ) :
    csEtchUdBytes a (csEtchUdSize g a) = some ((spell 10 3 a).length,
      (spell 10 3 a).map sym ++ List.replicate (csEtchUdSize g a - (spell 10 3 a).length) 0) := by
  have hle := (csEtchUdSize_bounds g a).1
  rw [csEtchUdBytes, buf_eq]
  dsimp only
  rw [List.length_map, if_neg (by omega), Nat.sub_sub_self hle]

/-- A word of 64 bits is an atom below `2 ^ 64`. -/
theorem u3rSafeChub_eq (a : ℕ) : u3rSafeChub a = if a < 2 ^ 64 then some (UInt64.ofNat a) else none := by
  have hmet : a < 2 ^ 64 ↔ Bits.met0 a ≤ 64 := Bits.met0_le_iff.symm
  rw [u3rSafeChub, u3rMetAt]
  by_cases ha : a = 0
  · subst ha
    rfl
  rw [if_neg ha]
  by_cases hc : Chop.isCat a = true
  · have hlt := Chop.isCat_iff.mp hc
    simp only [hc, if_true]
    rw [if_pos (show a < 2 ^ 64 by omega)]
    rfl
  · have hshift : ∀ n : ℕ, n >>> 1 = n / 2 := fun n => Nat.shiftRight_eq_div_pow n 1
    simp only [hc, Bool.false_eq_true, if_false, Words.length_wordsOf, hmet, Option.bind_eq_bind, Option.bind_some,
      show ¬ 6 < 5 by decide, Nat.reduceSub, Nat.one_shiftLeft, Nat.pow_one, hshift]
    have hpos := Bits.met0_pos ha
    split
    · rw [if_neg (by omega)]
    · rw [if_pos (by omega)]

/-- **The string is the text of the atom.** -/
theorem etchUdC_eq (g : Gmp) (a : ℕ) : u3sEtchUdC g a = some ((spell 10 3 a).map sym) := by
  rw [u3sEtchUdC, u3rSafeChub_eq]
  by_cases ha : a < 2 ^ 64
  · rw [if_pos ha]
    dsimp only
    rw [etchUdSmol_eq, UInt64.toNat_ofNat_of_lt' ha]
  · rw [if_neg ha]
    simp only [csEtchUdBytes_eq, Option.bind_eq_bind, Option.bind_some]
    rw [List.take_left' (List.length_map _)]

/-! ### Digits -/

/-- The number of a digit. -/
def dig (b : UInt8) : ℕ := b.toNat - 48

theorem isDigit_iff {b : UInt8} : isDigit b = true ↔ 48 ≤ b.toNat ∧ b.toNat ≤ 57 := by
  rw [isDigit, Bool.and_eq_true, decide_eq_true_eq, decide_eq_true_eq, UInt8.le_iff_toNat_le, UInt8.le_iff_toNat_le]
  rfl

theorem dig_lt {b : UInt8} (h : isDigit b = true) : dig b < 10 := by
  have := isDigit_iff.mp h
  rw [dig]
  omega

theorem sym_dig {b : UInt8} (h : isDigit b = true) : sym (some (dig b)) = b := by
  have hb := isDigit_iff.mp h
  refine UInt8.toNat_inj.mp ?_
  rw [sym, dig, UInt8.toNat_ofNat']
  omega

theorem toNat_sym {d : ℕ} (h : d < 10) : (sym (some d)).toNat = 48 + d := by
  rw [sym, UInt8.toNat_ofNat']
  omega

theorem isDigit_sym {d : ℕ} (h : d < 10) : isDigit (sym (some d)) = true := by
  rw [isDigit_iff, toNat_sym h]
  omega

theorem dig_sym {d : ℕ} (h : d < 10) : dig (sym (some d)) = d := by
  rw [dig, toNat_sym h, Nat.add_sub_cancel_left]

theorem toNat_digit16 {b : UInt8} (h : isDigit b = true) : (b.toUInt16 - 48).toNat = dig b := by
  have hb := isDigit_iff.mp h
  have h48 : (48 : UInt16).toNat = 48 := rfl
  rw [UInt16.toNat_sub, UInt8.toNat_toUInt16, h48, dig]
  omega

theorem toNat_digit64 {b : UInt8} (h : isDigit b = true) : (b.toUInt64 - 48).toNat = dig b := by
  have hb := isDigit_iff.mp h
  have h48 : (48 : UInt64).toNat = 48 := rfl
  rw [UInt64.toNat_sub, UInt8.toNat_toUInt64, h48, dig]
  omega

/-- A digit more, in a short. -/
theorem toNat_more16 {v : UInt16} {b : UInt8} (h : isDigit b = true) (hv : v.toNat * 10 + 9 < 65536) :
    (v * 10 + (b.toUInt16 - 48)).toNat = v.toNat * 10 + dig b := by
  have hb := dig_lt h
  have h10 : (10 : UInt16).toNat = 10 := rfl
  rw [UInt16.toNat_add, UInt16.toNat_mul, toNat_digit16 h, h10]
  omega

/-- A digit more, in a word of 64 bits. -/
theorem toNat_more64 {v : UInt64} {b : UInt8} (h : isDigit b = true)
    (hv : v.toNat * 10 + 9 < 18446744073709551616) :
    (v * 10 + (b.toUInt64 - 48)).toNat = v.toNat * 10 + dig b := by
  have hb := dig_lt h
  have h10 : (10 : UInt64).toNat = 10 := rfl
  rw [UInt64.toNat_add, UInt64.toNat_mul, toNat_digit64 h, h10]
  omega

/-- The three digits of a block, in a short. -/
theorem toNat_block {b c d : UInt8} (hb : isDigit b = true) (hc : isDigit c = true) (hd : isDigit d = true) :
    (((b.toUInt16 - 48) * 10 + (c.toUInt16 - 48)) * 10 + (d.toUInt16 - 48)).toNat =
      (dig b * 10 + dig c) * 10 + dig d := by
  have hb' := dig_lt hb
  have hc' := dig_lt hc
  have hb16 := toNat_digit16 hb
  have hc16 := toNat_more16 (v := b.toUInt16 - 48) hc (by omega)
  have hd16 := toNat_more16 (v := (b.toUInt16 - 48) * 10 + (c.toUInt16 - 48)) hd (by omega)
  rw [hd16, hc16, hb16]

theorem isBlock_iff {a b c d : UInt8} :
    isBlock a b c d = true ↔ a = 46 ∧ isDigit b = true ∧ isDigit c = true ∧ isDigit d = true := by
  rw [isBlock, Bool.and_eq_true, Bool.and_eq_true, Bool.and_eq_true, beq_iff_eq, and_assoc, and_assoc]

/-! ### What is read -/

/-- **The leading digits**, with no overflow. -/
theorem siftLead_iff {n : ℕ} {v v' : UInt16} {byt rest : List UInt8} (hv : (v.toNat + 1) * 10 ^ n ≤ 65536) :
    siftLead n v byt = some (v', rest) ↔
      ∃ l : List ℕ, l.length = n ∧ (∀ d ∈ l, d < 10) ∧ byt = (l.map some).map sym ++ rest ∧
        v'.toNat = v.toNat * 10 ^ n + Nat.ofDigits 10 l.reverse := by
  induction n generalizing v byt with
  | zero =>
    rw [siftLead, Option.some.injEq, Prod.mk.injEq]
    constructor
    · rintro ⟨rfl, rfl⟩
      exact ⟨[], rfl, fun d hd => absurd hd List.not_mem_nil, rfl, by simp⟩
    · rintro ⟨l, hl, _, rfl, hval⟩
      rw [List.length_eq_zero_iff] at hl
      subst hl
      exact ⟨UInt16.toNat_inj.mp (by simpa using hval.symm), rfl⟩
  | succ n ih =>
    cases byt with
    | nil =>
      constructor
      · intro h
        exact nomatch h
      · rintro ⟨l, hl, _, hbyt, _⟩
        obtain ⟨d, l, rfl⟩ := List.exists_cons_of_length_eq_add_one hl
        exact nomatch hbyt
    | cons b byt =>
      have hpow : 0 < 10 ^ n := Nat.pow_pos (by decide)
      have hroom : (v.toNat + 1) * 10 ≤ 65536 := by
        rw [Nat.pow_succ', ← Nat.mul_assoc] at hv
        exact (Nat.le_mul_of_pos_right _ hpow).trans hv
      rw [siftLead]
      by_cases hb : isDigit b = true
      · have hmore := toNat_more16 (v := v) hb (by omega)
        have hnext : ((v * 10 + (b.toUInt16 - 48)).toNat + 1) * 10 ^ n ≤ 65536 := by
          have hstep : v.toNat * 10 + dig b + 1 ≤ (v.toNat + 1) * 10 := by
            have := dig_lt hb
            omega
          rw [Nat.pow_succ', ← Nat.mul_assoc] at hv
          rw [hmore]
          exact (Nat.mul_le_mul_right (10 ^ n) hstep).trans hv
        have hvalue : ∀ l : List ℕ, l.length = n → (v.toNat * 10 + dig b) * 10 ^ n + Nat.ofDigits 10 l.reverse =
            v.toNat * 10 ^ (n + 1) + Nat.ofDigits 10 (dig b :: l).reverse := by
          intro l hl
          rw [List.reverse_cons, Nat.ofDigits_append, Nat.ofDigits_singleton, List.length_reverse, hl]
          ring
        rw [if_pos hb, ih hnext, hmore]
        constructor
        · rintro ⟨l, hl, hlt, hbyt, hval⟩
          refine ⟨dig b :: l, by rw [List.length_cons, hl], ?_, ?_, hval.trans (hvalue l hl)⟩
          · exact List.forall_mem_cons.mpr ⟨dig_lt hb, hlt⟩
          · rw [List.map_cons, List.map_cons, sym_dig hb, List.cons_append, hbyt]
        · rintro ⟨l, hl, hlt, hbyt, hval⟩
          obtain ⟨d, l, rfl⟩ := List.exists_cons_of_length_eq_add_one hl
          obtain ⟨hd, hlt⟩ := List.forall_mem_cons.mp hlt
          rw [List.map_cons, List.map_cons, List.cons_append, List.cons_eq_cons] at hbyt
          have hdig : dig b = d := by rw [hbyt.1, dig_sym hd]
          rw [← hdig] at hval
          have hlen : l.length = n := Nat.succ.inj hl
          exact ⟨l, hlen, hlt, hbyt.2, hval.trans (hvalue l hlen).symm⟩
      · rw [if_neg hb]
        constructor
        · intro h
          exact nomatch h
        · rintro ⟨l, hl, hlt, hbyt, _⟩
          obtain ⟨d, l, rfl⟩ := List.exists_cons_of_length_eq_add_one hl
          rw [List.map_cons, List.map_cons, List.cons_append, List.cons_eq_cons] at hbyt
          exact absurd (hbyt.1 ▸ isDigit_sym (hlt d List.mem_cons_self)) hb

/-- The two loops over the blocks agree where the word does not overflow. -/
theorem siftSmol_eq : ∀ (v : UInt64) (byt : List UInt8),
    (v.toNat + 1) * 1000 ^ (byt.length / 4) ≤ 18446744073709551616 →
      (siftSmol v byt).map UInt64.toNat = siftMp v.toNat byt
  | v, [], _ => by rw [siftSmol, siftMp, Option.map_some]
  | v, [_], _ => by rw [siftSmol, siftMp, Option.map_none] <;> simp
  | v, [_, _], _ => by rw [siftSmol, siftMp, Option.map_none] <;> simp
  | v, [_, _, _], _ => by rw [siftSmol, siftMp, Option.map_none] <;> simp
  | v, a :: b :: c :: d :: byt, hv => by
    rw [siftSmol, siftMp]
    by_cases hblock : isBlock a b c d = true
    · obtain ⟨-, hb, hc, hd⟩ := isBlock_iff.mp hblock
      have hb' := dig_lt hb
      have hc' := dig_lt hc
      have hd' := dig_lt hd
      have hlen : (a :: b :: c :: d :: byt).length / 4 = byt.length / 4 + 1 := by
        simp only [List.length_cons]
        omega
      have hpow : 0 < 1000 ^ (byt.length / 4) := Nat.pow_pos (by decide)
      rw [hlen, Nat.pow_succ', ← Nat.mul_assoc] at hv
      have hroom : (v.toNat + 1) * 1000 ≤ 18446744073709551616 := (Nat.le_mul_of_pos_right _ hpow).trans hv
      have h1 := toNat_more64 (v := v) hb (by omega)
      have h2 := toNat_more64 (v := v * 10 + (b.toUInt64 - 48)) hc (by omega)
      have h3 := toNat_more64 (v := (v * 10 + (b.toUInt64 - 48)) * 10 + (c.toUInt64 - 48)) hd (by omega)
      have hsame : (((v * 10 + (b.toUInt64 - 48)) * 10 + (c.toUInt64 - 48)) * 10 + (d.toUInt64 - 48)).toNat =
          v.toNat * 1000 + (((b.toUInt16 - 48) * 10 + (c.toUInt16 - 48)) * 10 + (d.toUInt16 - 48)).toNat := by
        rw [h3, h2, h1, toNat_block hb hc hd]
        ring
      rw [if_pos hblock, if_pos hblock, siftSmol_eq _ byt, hsame]
      refine (Nat.mul_le_mul_right _ ?_).trans hv
      omega
    · rw [if_neg hblock, if_neg hblock, Option.map_none]

/-- Where a canonical text goes on with whole groups, the next symbols are a dot and three digits. -/
theorem block_of_canonical {p s : List (Option ℕ)} {w x y z : Option ℕ}
    (h : Canonical 10 3 (p ++ w :: x :: y :: z :: s)) (hs : s.length % 4 = 0) :
    w = none ∧ ∃ b c d, b < 10 ∧ c < 10 ∧ d < 10 ∧ x = some b ∧ y = some c ∧ z = some d := by
  have hw : w = none := h.symbol.mpr (by simp only [List.length_cons]; omega)
  have hdigit : ∀ {q r : List (Option ℕ)} {e : Option ℕ}, p ++ w :: x :: y :: z :: s = q ++ e :: r →
      r.length % 4 ≠ 3 → ∃ d < 10, e = some d := by
    intro q r e heq hr
    rw [heq] at h
    have hne : e ≠ none := fun he => hr (h.symbol.mp he)
    obtain ⟨d, rfl⟩ := Option.ne_none_iff_exists'.mp hne
    exact ⟨d, h.digit d (by simp), rfl⟩
  obtain ⟨b, hb, rfl⟩ := hdigit (q := p ++ [w]) (r := y :: z :: s) (e := x) (by simp) (by
    simp only [List.length_cons]
    omega)
  obtain ⟨c, hc, rfl⟩ := hdigit (q := p ++ [w, some b]) (r := z :: s) (e := y) (by simp) (by
    simp only [List.length_cons]
    omega)
  obtain ⟨d, hd, rfl⟩ := hdigit (q := p ++ [w, some b, some c]) (r := s) (e := z) (by simp) (by omega)
  exact ⟨hw, b, c, d, hb, hc, hd, rfl, rfl, rfl⟩

/-- The value of a block. -/
theorem value_more {p : List (Option ℕ)} (b c d : ℕ) :
    value 10 (p ++ none :: [b, c, d].map some) = value 10 p * 1000 + ((b * 10 + c) * 10 + d) := by
  rw [value_block]
  simp only [List.length_cons, List.length_nil, List.reverse_cons, List.reverse_nil, List.nil_append,
    List.cons_append, Nat.ofDigits_cons, Nat.ofDigits_nil]
  ring

theorem siftMp_block {acc : ℕ} {a b c d : UInt8} (byt : List UInt8) (h : isBlock a b c d = true) :
    siftMp acc (a :: b :: c :: d :: byt) = siftMp (acc * 1000 + ((dig b * 10 + dig c) * 10 + dig d)) byt := by
  obtain ⟨-, hb, hc, hd⟩ := isBlock_iff.mp h
  rw [siftMp, if_pos h, ← toNat_block hb hc hd]

/-- Bytes that are no whole blocks. -/
theorem ragged_iff {p : List (Option ℕ)} {byt : List UInt8} {v : ℕ} (hlen : byt.length % 4 ≠ 0)
    (hnone : siftMp (value 10 p) byt = none) :
    siftMp (value 10 p) byt = some v ↔
      ∃ s, byt = s.map sym ∧ s.length % 4 = 0 ∧ Canonical 10 3 (p ++ s) ∧ value 10 (p ++ s) = v := by
  rw [hnone]
  constructor
  · intro h
    exact nomatch h
  · rintro ⟨s, rfl, hs, -, -⟩
    rw [List.length_map] at hlen
    exact absurd hs hlen

/-- **The blocks behind a canonical text** are read just when they make it a longer one. -/
theorem siftMp_iff : ∀ {p : List (Option ℕ)} (byt : List UInt8) {v : ℕ}, Canonical 10 3 p → p ≠ [some 0] →
    (siftMp (value 10 p) byt = some v ↔
      ∃ s, byt = s.map sym ∧ s.length % 4 = 0 ∧ Canonical 10 3 (p ++ s) ∧ value 10 (p ++ s) = v)
  | p, [], v, hp, _ => by
    rw [siftMp, Option.some.injEq]
    constructor
    · rintro rfl
      exact ⟨[], rfl, rfl, by rwa [List.append_nil], by rw [List.append_nil]⟩
    · rintro ⟨s, hs, -, -, hv⟩
      rw [List.map_eq_nil_iff.mp hs.symm, List.append_nil] at hv
      exact hv
  | p, a :: b :: c :: d :: byt, v, hp, hne => by
    constructor
    · intro h
      by_cases hblock : isBlock a b c d = true
      · obtain ⟨ha, hb, hc, hd⟩ := isBlock_iff.mp hblock
        have hlt : ∀ e ∈ [dig b, dig c, dig d], e < 10 := by
          simp [dig_lt hb, dig_lt hc, dig_lt hd]
        have hlong : p ++ none :: [dig b, dig c, dig d].map some ≠ [some 0] := by
          intro heq
          have := congrArg List.length heq
          simp at this
        rw [siftMp_block byt hblock, ← value_more] at h
        obtain ⟨s, hbyt, hs, hcan, hv⟩ := (siftMp_iff byt (hp.block hne rfl hlt) hlong).mp h
        refine ⟨none :: some (dig b) :: some (dig c) :: some (dig d) :: s, ?_, ?_, ?_, ?_⟩
        · simp only [List.map_cons, sym_dig hb, sym_dig hc, sym_dig hd, ← hbyt, ha]
          rfl
        · simp only [List.length_cons]
          omega
        · simpa using hcan
        · simpa using hv
      · rw [siftMp, if_neg hblock] at h
        exact nomatch h
    · rintro ⟨s, hbyt, hs, hcan, hv⟩
      match s, hbyt with
      | w :: x :: y :: z :: s, heq =>
        simp only [List.map_cons, List.cons.injEq] at heq
        obtain ⟨rfl, rfl, rfl, rfl, hrest⟩ := heq
        have hs' : s.length % 4 = 0 := by
          simp only [List.length_cons] at hs
          omega
        obtain ⟨rfl, b, c, d, hb, hc, hd, rfl, rfl, rfl⟩ := block_of_canonical hcan hs'
        have hblock : isBlock (sym none) (sym (some b)) (sym (some c)) (sym (some d)) = true :=
          isBlock_iff.mpr ⟨rfl, isDigit_sym hb, isDigit_sym hc, isDigit_sym hd⟩
        have hlt : ∀ e ∈ [b, c, d], e < 10 := by
          simp [hb, hc, hd]
        have hlong : p ++ none :: [b, c, d].map some ≠ [some 0] := by
          intro heq
          have := congrArg List.length heq
          simp at this
        rw [siftMp_block byt hblock, dig_sym hb, dig_sym hc, dig_sym hd, ← value_more]
        refine (siftMp_iff byt (hp.block hne rfl hlt) hlong).mpr ⟨s, hrest, hs', ?_, ?_⟩
        · simpa using hcan
        · simpa using hv
  | p, [_], v, _, _ => ragged_iff (by simp) (by simp [siftMp])
  | p, [_, _], v, _, _ => ragged_iff (by simp) (by simp [siftMp])
  | p, [_, _, _], v, _, _ => ragged_iff (by simp) (by simp [siftMp])

/-- The leading digits of a text that starts with no zero, with what follows. -/
theorem lead_canonical {l : List ℕ} {b : UInt8} {byt rest : List UInt8} (hl : l.length = (byt.length + 1) % 4)
    (hne : (byt.length + 1) % 4 ≠ 0) (hlt : ∀ d ∈ l, d < 10) (hbyt : b :: byt = (l.map some).map sym ++ rest)
    (hb : b ≠ 48) : Canonical 10 3 (l.map some) ∧ l.map some ≠ [some 0] := by
  have hpos : 0 < l.length := by omega
  obtain ⟨d, l, rfl⟩ := List.exists_cons_of_ne_nil (List.ne_nil_of_length_pos hpos)
  have hd : d ≠ 0 := by
    rintro rfl
    rw [List.map_cons, List.map_cons, List.cons_append, List.cons_eq_cons] at hbyt
    exact hb hbyt.1
  refine ⟨canonical_group hd ?_ hlt, ?_⟩
  · rw [List.length_cons] at hl
    omega
  · intro heq
    exact hd (Option.some.inj (List.cons_eq_cons.mp heq).1)

/-- Both paths of the sift. -/
theorem paths_agree {num : ℕ} {val : UInt16} {rest : List UInt8} (hval : val.toNat < 10 ^ num) (hnum : num ≤ 3)
    (hshort : Short num rest.length) :
    (siftSmol val.toUInt64 rest).map UInt64.toNat = siftMp val.toNat rest := by
  have hnat : val.toUInt64.toNat = val.toNat := UInt16.toNat_toUInt64 val
  rw [siftSmol_eq, hnat]
  rw [hnat]
  rcases hshort with ⟨rfl, hlen⟩ | hlen
  · have hblocks : 1000 ^ (rest.length / 4) ≤ 1000 ^ 6 := Nat.pow_le_pow_right (by decide) (by omega)
    calc (val.toNat + 1) * 1000 ^ (rest.length / 4) ≤ 10 ^ 1 * 1000 ^ 6 := Nat.mul_le_mul hval hblocks
      _ ≤ 18446744073709551616 := by norm_num
  · have hblocks : 1000 ^ (rest.length / 4) ≤ 1000 ^ 5 := Nat.pow_le_pow_right (by decide) (by omega)
    have hlead : 10 ^ num ≤ 10 ^ 3 := Nat.pow_le_pow_right (by decide) hnum
    calc (val.toNat + 1) * 1000 ^ (rest.length / 4) ≤ 10 ^ 3 * 1000 ^ 5 := Nat.mul_le_mul (hval.trans_le hlead) hblocks
      _ ≤ 18446744073709551616 := by norm_num

/-- The first byte of a canonical text. -/
theorem Spelled.head {b : UInt8} {byt : List UInt8} {v : ℕ} (h : Spelled (b :: byt) v) :
    (b = 48 ∧ byt = [] ∧ v = 0) ∨ b ≠ 48 ∧ (byt.length + 1) % 4 ≠ 0 := by
  obtain ⟨t, ht, hbyt, hv⟩ := h
  rcases ht.lead with rfl | ⟨d, l, rfl, hd⟩
  · obtain ⟨hb, hnil⟩ := List.cons_eq_cons.mp hbyt
    exact Or.inl ⟨hb, hnil, hv.symm⟩
  · obtain ⟨rfl, rfl⟩ := List.cons_eq_cons.mp hbyt
    have hlt : d < 10 := ht.digit d List.mem_cons_self
    refine Or.inr ⟨?_, ?_⟩
    · intro heq
      have hnat := toNat_sym hlt
      rw [heq] at hnat
      exact hd (Nat.add_left_cancel (hnat.symm.trans rfl))
    · have hdot := (Canonical.symbol (t := []) (s := some d) (r := l) ht).not.mp (Option.some_ne_none d)
      rw [List.length_map]
      omega

theorem spelled_zero : Spelled [48] 0 :=
  ⟨[some 0], canonical_spell (by decide) (by decide) 0, rfl, rfl⟩

/-- After the leading digits either path goes on from their number. -/
theorem after_lead {l : List ℕ} {val : UInt16} {rest : List UInt8} {num : ℕ} (hnum : num ≤ 3) (hl : l.length = num)
    (hlt : ∀ d ∈ l, d < 10) (hval : val.toNat = Nat.ofDigits 10 l.reverse) :
    (if Short num rest.length then (siftSmol val.toUInt64 rest).map UInt64.toNat else siftMp val.toNat rest) =
      siftMp (value 10 (l.map some)) rest := by
  have hbound : val.toNat < 10 ^ num := by
    rw [hval, ← hl, ← List.length_reverse]
    exact Nat.ofDigits_lt_base_pow_length (by decide) fun d hd => hlt d (List.mem_reverse.mp hd)
  rw [value_map_some, ← hval]
  split
  · rename_i hshort
    exact paths_agree hbound hnum hshort
  · rfl

/-- **What is accepted** are the canonical texts, and what is returned is the number spelled. -/
theorem siftUdBytes_iff (byt : List UInt8) (v : ℕ) : u3sSiftUdBytes byt = some v ↔ Spelled byt v := by
  cases byt with
  | nil =>
    constructor
    · intro h
      exact nomatch h
    · rintro ⟨t, ht, hbyt, -⟩
      obtain rfl := List.map_eq_nil_iff.mp hbyt.symm
      rcases ht.lead with h | ⟨_, _, h, _⟩ <;> exact nomatch h
  | cons b byt =>
    rw [u3sSiftUdBytes]
    by_cases hb : b = 48
    · subst hb
      rw [if_pos rfl]
      constructor
      · intro h
        split at h
        · rename_i hlen
          obtain rfl := List.length_eq_zero_iff.mp (Nat.succ.inj hlen)
          obtain rfl := Option.some.inj h
          exact spelled_zero
        · exact nomatch h
      · intro h
        obtain ⟨-, rfl, rfl⟩ | ⟨hne, -⟩ := h.head
        · rfl
        · exact absurd rfl hne
    rw [if_neg hb]
    by_cases hnum : (byt.length + 1) % 4 = 0
    · rw [if_pos hnum]
      constructor
      · intro h
        exact nomatch h
      · intro h
        obtain ⟨h48, -, -⟩ | ⟨-, hne⟩ := h.head
        · exact absurd h48 hb
        · exact absurd hnum hne
    rw [if_neg hnum]
    have hle : (byt.length + 1) % 4 ≤ 3 := by omega
    have hroom : ((0 : UInt16).toNat + 1) * 10 ^ ((byt.length + 1) % 4) ≤ 65536 := by
      have hpow : 10 ^ ((byt.length + 1) % 4) ≤ 10 ^ 3 := Nat.pow_le_pow_right (by decide) hle
      rw [show (0 : UInt16).toNat + 1 = 1 from rfl, Nat.one_mul]
      exact hpow.trans (by norm_num)
    simp only [Option.bind_eq_bind, Option.bind_eq_some_iff, Prod.exists, siftLead_iff hroom]
    rw [show (0 : UInt16).toNat = 0 from rfl]
    simp only [Nat.zero_mul, Nat.zero_add]
    constructor
    · rintro ⟨val, rest, ⟨l, hl, hlt, hbyt, hval⟩, h⟩
      have hlen : byt.length + 1 - (byt.length + 1) % 4 = rest.length := by
        have := congrArg List.length hbyt
        rw [List.length_append, List.length_map, List.length_map, List.length_cons, hl] at this
        omega
      rw [hlen, after_lead hle hl hlt hval] at h
      obtain ⟨hcan, hne⟩ := lead_canonical hl hnum hlt hbyt hb
      obtain ⟨s, rfl, -, hall, hv⟩ := (siftMp_iff rest hcan hne).mp h
      exact ⟨_, hall, by rw [hbyt, List.map_append], hv⟩
    · rintro ⟨t, ht, hbyt, hv⟩
      obtain ⟨l, r, rfl, hl, hr⟩ := ht.head
      have htlen : (l.map some ++ r).length = byt.length + 1 := by
        rw [← List.length_map (f := sym), ← hbyt, List.length_cons]
      rw [htlen] at hl
      have hlt : ∀ d ∈ l, d < 10 := fun d hd => ht.digit d (List.mem_append_left r (List.mem_map_of_mem hd))
      rw [List.map_append] at hbyt
      have hsmall : Nat.ofDigits 10 l.reverse < 65536 := by
        have hpow : Nat.ofDigits 10 l.reverse < 10 ^ l.reverse.length :=
          Nat.ofDigits_lt_base_pow_length (by decide) fun d hd => hlt d (List.mem_reverse.mp hd)
        have hthree : 10 ^ l.reverse.length ≤ 10 ^ 3 := by
          rw [List.length_reverse, hl]
          exact Nat.pow_le_pow_right (by decide) hle
        omega
      have hval : (UInt16.ofNat (Nat.ofDigits 10 l.reverse)).toNat = Nat.ofDigits 10 l.reverse :=
        UInt16.toNat_ofNat_of_lt' hsmall
      refine ⟨UInt16.ofNat (Nat.ofDigits 10 l.reverse), r.map sym, ⟨l, hl, hlt, hbyt, hval⟩, ?_⟩
      have hlen : byt.length + 1 - (byt.length + 1) % 4 = (r.map sym).length := by
        rw [List.length_map, ← htlen, List.length_append, List.length_map]
        rw [List.length_append, List.length_map] at htlen
        omega
      obtain ⟨hcan, hne⟩ := lead_canonical hl hnum hlt hbyt hb
      rw [hlen, after_lead hle hl hlt hval]
      exact (siftMp_iff _ hcan hne).mpr ⟨r, rfl, hr, ht, hv⟩

/-! ### Round trips -/

/-- The text of an atom. -/
def text (a : ℕ) : List UInt8 := (spell 10 3 a).map sym

theorem spelled_text (a : ℕ) : Spelled (text a) a :=
  ⟨spell 10 3 a, canonical_spell (by decide) (by decide) a, rfl, value_spell 10 3 a⟩

theorem Spelled.eq_text {byt : List UInt8} {v : ℕ} (h : Spelled byt v) : byt = text v := by
  obtain ⟨t, ht, rfl, rfl⟩ := h
  rw [text, spell_value (by decide) (by decide) ht]

theorem sym_ne_zero {t : List (Option ℕ)} (h : Canonical 10 3 t) {s : Option ℕ} (hs : s ∈ t) : sym s ≠ 0 := by
  cases s with
  | none => decide
  | some d =>
    intro h0
    have := toNat_sym (h.digit d hs)
    rw [h0] at this
    have hzero : (0 : UInt8).toNat = 0 := rfl
    omega

/-- A text has no zero at its end, so that the atom of it has all its bytes. -/
theorem size_text (a : ℕ) : size (num (text a)) = (text a).length := by
  have hcan := canonical_spell (b := 10) (g := 3) (by decide) (by decide) a
  refine Nat.le_antisymm (size_le_iff.mpr (num_lt _)) ?_
  by_contra hlt
  have hshort : size (num (text a)) ≤ (text a).length - 1 := by omega
  rw [size_le_iff] at hshort
  have hpos : 0 < (text a).length := by omega
  have hne : ∃ b ∈ (text a).drop ((text a).length - 1), b ≠ 0 := by
    have hdrop : (text a).drop ((text a).length - 1) ≠ [] := by
      rw [Ne, List.drop_eq_nil_iff]
      omega
    obtain ⟨b, r, hbr⟩ := List.exists_cons_of_ne_nil hdrop
    have hmem : b ∈ text a := List.mem_of_mem_drop (hbr ▸ List.mem_cons_self)
    obtain ⟨s, hs, rfl⟩ := List.mem_map.mp hmem
    exact ⟨sym s, hbr ▸ List.mem_cons_self, sym_ne_zero hcan hs⟩
  exact absurd hshort (Nat.not_lt.mpr ((pow_le_num_iff (by omega)).mpr hne))

theorem ofNum_text (a : ℕ) : ofNum (size (num (text a))) (num (text a)) = text a := by
  rw [size_text, ofNum_num]

/-- **An atom's text is read back**, if `u3r_met` counts its bytes. -/
theorem siftUd_text (a : ℕ) :
    u3sSiftUd (num (text a)) = if (text a).length ≤ 4294967260 then some (some a) else none := by
  have hwords : words (num (text a)) = ((text a).length + 3) / 4 := by
    have hsize := size_text a
    rw [size] at hsize
    rw [words]
    omega
  rw [u3sSiftUd, Bytestream.u3rMet3, hwords]
  by_cases hlen : (text a).length ≤ 4294967260
  · rw [if_neg (by omega), if_pos hlen, Option.bind_eq_bind, Option.bind_some, ofNum_text,
      (siftUdBytes_iff _ _).mpr (spelled_text a)]
  · rw [if_pos (by omega), if_neg hlen]
    rfl

/-- The bignum path's buffer, of which the zeros at the end count for nothing. -/
theorem num_buf (a n : ℕ) : num (text a ++ List.replicate n 0) = num (text a) := by
  have hzero : num (List.replicate n 0) = 0 := num_eq_zero_iff.mpr fun b hb => List.eq_of_mem_replicate hb
  rw [num_append, hzero, Nat.mul_zero, Nat.add_zero]

/-- **The atom is the text of the number**, if the bignum path can make its buffer. -/
theorem etchUd_eq (g : Gmp) (a : ℕ) :
    u3sEtchUd g a =
      if a < 2 ^ 64 then some (num (text a))
      else (Bytestream.ciSlabSize (csEtchUdSize g a)).map fun _ => num (text a) := by
  rw [u3sEtchUd, u3rSafeChub_eq]
  by_cases ha : a < 2 ^ 64
  · rw [if_pos ha, if_pos ha]
    dsimp only
    rw [etchUdSmol_eq, UInt64.toNat_ofNat_of_lt' ha]
    rfl
  · rw [if_neg ha, if_neg ha]
    simp only [csEtchUdBytes_eq, Option.bind_eq_bind, Option.bind_some]
    rw [← text, num_buf]
    cases Bytestream.ciSlabSize (csEtchUdSize g a) <;> rfl

theorem etchUd_some {g : Gmp} {a t : ℕ} (h : u3sEtchUd g a = some t) : t = num (text a) := by
  rw [etchUd_eq] at h
  split at h
  · exact (Option.some.inj h).symm
  · obtain ⟨_, _, h⟩ := Option.map_eq_some_iff.mp h
    exact h.symm

theorem etchUd_short (g : Gmp) {a : ℕ} (h : (text a).length ≤ 4294967260) : u3sEtchUd g a = some (num (text a)) := by
  have hsize := (csEtchUdSize_bounds g a).2
  have hlen : (text a).length = (spell 10 3 a).length := List.length_map _
  rw [etchUd_eq]
  split
  · rfl
  · rw [Bytestream.ciSlabSize_fits (by omega), Option.map_some]

/-- **When an atom is got back.** -/
theorem etchUd_sift_iff (g : Gmp) (a : ℕ) :
    (∃ t, u3sEtchUd g a = some t ∧ u3sSiftUd t = some (some a)) ↔ (spell 10 3 a).length ≤ 4294967260 := by
  have hlen : (text a).length = (spell 10 3 a).length := List.length_map _
  rw [← hlen]
  constructor
  · rintro ⟨t, ht, h⟩
    rw [etchUd_some ht, siftUd_text] at h
    by_contra hlong
    rw [if_neg hlong] at h
    exact nomatch h
  · intro h
    exact ⟨_, etchUd_short g h, by rw [siftUd_text, if_pos h]⟩

/-- An accepted atom is that of the number's text. -/
theorem sift_etchUd (g : Gmp) {t v : ℕ} (h : u3sSiftUd t = some (some v)) : u3sEtchUd g v = some t := by
  obtain ⟨len, hlen, h⟩ := Option.bind_eq_some_iff.mp h
  have htext := ((siftUdBytes_iff _ _).mp (Option.some.inj h)).eq_text
  rw [Bytestream.u3rMet3] at hlen
  split at hlen
  · cases hlen
  · rename_i hwords
    obtain rfl := Option.some.inj hlen
    have hnum : num (text v) = t := by
      rw [← htext]
      exact num_ofNum (size_le_iff.mp (Nat.le_refl _))
    have hshort : (text v).length ≤ 4294967260 := by
      rw [← htext, length_ofNum]
      rw [words] at hwords
      rw [size]
      omega
    rw [etchUd_short g hshort, hnum]

/-- **The codec.** The sift accepts the canonical texts and returns the number spelled. Etch and sift
are inverse where the text is short enough for `u3r_met`, and the word paths are the bignum ones. -/
theorem decimal_right (g : Gmp) :
    (∀ byt v, u3sSiftUdBytes byt = some v ↔ Spelled byt v) ∧
      (∀ a, (∃ t, u3sEtchUd g a = some t ∧ u3sSiftUd t = some (some a)) ↔ (spell 10 3 a).length ≤ 4294967260) ∧
      (∀ t v, u3sSiftUd t = some (some v) → u3sEtchUd g v = some t) ∧
      (∀ byt v, u3sSiftUdBytes byt = some v → u3sEtchUdC g v = some byt) ∧
      (∀ a : UInt64, (csEtchUdBytes a.toNat (csEtchUdSize g a.toNat)).map (fun (len, buf) => buf.take len) =
        some (u3sEtchUdSmol a)) ∧
      ∀ num (val : UInt16) rest, num ≤ 3 → val.toNat < 10 ^ num → Short num rest.length →
        (siftSmol val.toUInt64 rest).map UInt64.toNat = siftMp val.toNat rest := by
  refine ⟨siftUdBytes_iff, etchUd_sift_iff g, fun t v => sift_etchUd g, fun byt v h => ?_, fun a => ?_,
    fun num val rest hnum hval => paths_agree hval hnum⟩
  · rw [((siftUdBytes_iff byt v).mp h).eq_text, etchUdC_eq, text]
  · rw [csEtchUdBytes_eq, Option.map_some]
    dsimp only
    rw [List.take_left' (List.length_map _), etchUdSmol_eq]

theorem length_ten_pow (k : ℕ) : (spell 10 3 (10 ^ k)).length = k + 1 + k / 3 := by
  have hdigits : (Nat.digits 10 (10 ^ k)).length = k + 1 := by
    have hlt : 10 ^ k < 10 ^ (k + 1) := Nat.pow_lt_pow_right (by decide) (Nat.lt_succ_self k)
    refine Nat.le_antisymm ((Nat.digits_length_le_iff (by decide) _).mpr hlt) ?_
    exact (Nat.lt_digits_length_iff (by decide) _).mpr (Nat.le_refl _)
  rw [length_spell (by decide) (Nat.pow_pos (by decide)).ne', hdigits, Nat.add_sub_cancel]

/-- A number of 3221225446 digits has a text of 4294967261 bytes, which `u3r_met` does not count. -/
theorem longText_not_back :
    ¬ ∃ t, u3sEtchUd Gmp.exact (10 ^ 3221225445) = some t ∧ u3sSiftUd t = some (some (10 ^ 3221225445)) := by
  intro h
  have hlen := (etchUd_sift_iff _ _).mp h
  rw [length_ten_pow] at hlen
  omega

end Decimal
end Ursockets

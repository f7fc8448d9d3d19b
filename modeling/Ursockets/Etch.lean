/-
# Atoms as text in base 16, 32 and 64

`u3s_etch_ux`, `u3s_etch_uv` and `u3s_etch_uw` of `serial.c`. Each computes how long the text
is, takes a buffer of that length and writes it from the end backwards: groups of digits with
a dot before each, the digits of what is left, and the two characters in front.

A buffer is here the bytes written from where the pointer is on, so that its length is what was
written whatever was computed before. The lengths are 32-bit words in the source; `len_w` of
`u3s_etch_ux` is the one that can wrap.

Key definitions: `u3rShort`, `putGroups`, `putRest`, `u3sEtchUx`, `u3sEtchUv`, `u3sEtchUw`, `EtchRight`.
Key theorems: `putGroups_spell`, `etched_right`, `etch_right`.
-/
import Ursockets.Chop
import Ursockets.Lib.Dotted

namespace Ursockets
namespace Etch

open Bits Words Chop Dotted

/-- `u3s_dit_y`. -/
def u3sDitY : List UInt8 :=
  "0123456789abcdefghijklmnopqrstuvwxyzABCDEFGHIJKLMNOPQRSTUVWXYZ-~".toList.map fun c => UInt8.ofNat c.toNat

/-- `u3r_met(y, b)`. -/
def u3rMetAt (y b : ℕ) : Option ℕ :=
  if b = 0 then some 0
  else
    let (gal, daz) :=
      if isCat b then (0, b)
      else ((wordsOf b).length - 1, ((wordsOf b).getD ((wordsOf b).length - 1) 0).toNat)
    if y < 5 then
      let max := 1 <<< y - 1
      let gow := 5 - y
      if (2 ^ 32 - 1 - (32 + max)) >>> gow < gal then none else some (gal <<< gow + (met0 daz + max) >>> y)
    else
      let gow := y - 5
      some ((gal + 1 + (1 <<< gow - 1)) >>> gow)

/-- `u3r_short`. -/
def u3rShort (i b : ℕ) : ℕ :=
  if isCat b then if i = 0 then b &&& 0xffff else if i = 1 then b >>> 16 else 0
  else
    let nix := i >>> 1
    if (wordsOf b).length ≤ nix then 0
    else
      let wor := ((wordsOf b).getD nix 0).toNat
      if i &&& 1 = 1 then wor >>> 16 else wor &&& 0xffff

/-- `u3r_chop(0, fum, wid, 0, &w, a)` into a word that is zero. -/
def chopWord (fum wid a : ℕ) : ℕ := ((u3rChop fum wid 0 [0] a).getD 0 0).toNat

/-- One turn of the loops: `g` digits of `k` bits each and a dot, before what is written. -/
def putGroup (k g inp : ℕ) (out : List UInt8) : List UInt8 :=
  46 :: (((List.range g).map fun j => u3sDitY.getD (inp >>> (k * j) &&& (1 <<< k - 1)) 0).reverse ++ out)

/-- The loops: `n` turns. -/
def putGroups (k g : ℕ) (inp : ℕ → ℕ) : ℕ → List UInt8
  | 0 => []
  | n + 1 => putGroup k g (inp n) (putGroups k g inp n)

/-- The loops `while ( inp )`; a word has 32 bits, so they make no more turns. -/
def putRest (k : ℕ) : ℕ → ℕ → List UInt8 → List UInt8
  | 0, _, out => out
  | n + 1, inp, out =>
    if inp = 0 then out else putRest k n (inp >>> k) (u3sDitY.getD (inp &&& (1 <<< k - 1)) 0 :: out)

/-- The length computed in advance and the bytes written. -/
structure Etched where
  len : ℕ
  bytes : List UInt8

/-- `_cs_etch_ux_bytes`. -/
def csEtchUxBytes (a len : ℕ) : List UInt8 :=
  48 :: 120 :: putRest 4 32 (u3rShort len a) (putGroups 4 4 (fun i => u3rShort i a) len)

/-- `u3s_etch_ux` and `u3s_etch_ux_c`. -/
def u3sEtchUx (a : ℕ) : Option Etched :=
  if a = 0 then some ⟨3, [48, 120, 48]⟩
  else do
    let met ← u3rMetAt 4 a
    let sep := met - 1
    let las ← u3rMetAt 2 (u3rShort sep a)
    let len := (2 + las + sep * 5) % 2 ^ 32
    some ⟨len, csEtchUxBytes a sep⟩

/-- `_divc_nz`. -/
def divcNz (x y : ℕ) : ℕ := (x + (y - 1)) / y

/-- `_cs_etch_uv_size` and `_cs_etch_uw_size`: the length and the bits before the last group. -/
def csEtchSize (wid k a : ℕ) : Option (ℕ × ℕ) := do
  let met ← u3rMet a
  let sep := divcNz met wid - 1
  let max := sep * wid
  let last := chopWord max wid a
  let bit := met0 last
  let las := divcNz bit k
  some (2 + las + sep * 6, max)

/-- `_cs_etch_uv_bytes` and `_cs_etch_uw_bytes`; the loop goes from 0 to `max` by `wid`. -/
def csEtchBytes (wid k : ℕ) (tag : UInt8) (a max : ℕ) : List UInt8 :=
  48 :: tag :: putRest k 32 (chopWord max wid a)
    (putGroups k 5 (fun i => chopWord (wid * i) wid a) (divcNz max wid))

/-- `u3s_etch_uv` and `u3s_etch_uw`, with the widths of each. -/
def etchChopped (wid k : ℕ) (tag : UInt8) (a : ℕ) : Option Etched :=
  if a = 0 then some ⟨3, [48, tag, 48]⟩
  else do
    let (len, max) ← csEtchSize wid k a
    some ⟨len, csEtchBytes wid k tag a max⟩

/-- `u3s_etch_uv` and `u3s_etch_uv_c`. -/
def u3sEtchUv (a : ℕ) : Option Etched := etchChopped 25 5 118 a

/-- `u3s_etch_uw` and `u3s_etch_uw_c`. -/
def u3sEtchUw (a : ℕ) : Option Etched := etchChopped 30 6 119 a

/-- The three functions. -/
inductive Form
  | ux
  | uv
  | uw
deriving DecidableEq

namespace Form

/-- The bits of a digit. -/
def bits : Form → ℕ
  | ux => 4
  | uv => 5
  | uw => 6

/-- The digits between two dots. -/
def group : Form → ℕ
  | ux => 4
  | uv => 5
  | uw => 5

/-- The second character of the text. -/
def tag : Form → UInt8
  | ux => 120
  | uv => 118
  | uw => 119

end Form

/-- The function. -/
def etch : Form → ℕ → Option Etched
  | .ux => u3sEtchUx
  | .uv => u3sEtchUv
  | .uw => u3sEtchUw

/-- The character of a symbol. -/
def sym : Option ℕ → UInt8
  | none => 46
  | some d => u3sDitY.getD d 0

/-- What is written is as long as computed in advance, and is the canonical text of the number in
the function's base, behind the two characters. -/
structure EtchRight (f : Form) (a : ℕ) (e : Etched) : Prop where
  length : e.bytes.length = e.len
  text : ∃ t, Canonical (2 ^ f.bits) f.group t ∧ value (2 ^ f.bits) t = a ∧ e.bytes = 48 :: f.tag :: t.map sym

/-- The atoms that are short enough: the text of `u3s_etch_ux` is shorter than `2 ^ 32`, and
`u3r_met` counts the bits for the other two. -/
def Fits : Form → ℕ → Prop
  | .ux, a => 2 + (met0 a + 3) / 4 + ((met0 a + 3) / 4 - 1) / 4 < 2 ^ 32
  | .uv, a => met0 a ≤ 2 ^ 32 - 32
  | .uw, a => met0 a ≤ 2 ^ 32 - 32

instance : ∀ f a, Decidable (Fits f a)
  | .ux, _ => Nat.decLt _ _
  | .uv, _ => Nat.decLe _ _
  | .uw, _ => Nat.decLe _ _

/-! ### What is measured and read -/

/-- The words of an atom besides the last one, and the bits of the last one. -/
theorem u3rMetAt_eq {y : ℕ} (hy : y < 5) (b : ℕ) :
    u3rMetAt y b =
      if (2 ^ 32 - 1 - (32 + (2 ^ y - 1))) / 2 ^ (5 - y) < (met0 b + 31) / 32 - 1 then none
      else some ((met0 b + (2 ^ y - 1)) / 2 ^ y) := by
  have hword : 2 ^ (5 - y) * 2 ^ y = 32 := by
    rw [← Nat.pow_add, Nat.sub_add_cancel hy.le]
  rw [u3rMetAt]
  by_cases hb : b = 0
  · subst hb
    have hlt : (0 + (2 ^ y - 1)) / 2 ^ y = 0 := Nat.div_eq_of_lt (by have := Nat.two_pow_pos y; omega)
    rw [if_pos rfl, show met0 0 = 0 from rfl, hlt, if_neg (Nat.not_lt_zero _)]
  rw [if_neg hb]
  have hpos := met0_pos hb
  by_cases hc : isCat b = true
  · have hle : met0 b ≤ 31 := met0_le_iff.mpr (isCat_iff.mp hc)
    have hone : (met0 b + 31) / 32 - 1 = 0 := by omega
    simp only [hc, if_true, hy]
    rw [hone, if_neg (Nat.not_lt_zero _), if_neg (Nat.not_lt_zero _), Nat.zero_shiftLeft, Nat.zero_add,
      Nat.one_shiftLeft, Nat.shiftRight_eq_div_pow]
  · have hlast := last_wordsOf hb
    simp only [hc, Bool.false_eq_true, if_false, hy, if_true]
    rw [hlast, met0_shiftRight, length_wordsOf, Nat.one_shiftLeft, Nat.shiftRight_eq_div_pow,
      Nat.shiftRight_eq_div_pow, Nat.shiftLeft_eq]
    congr 2
    have hsplit : met0 b + (2 ^ y - 1) =
        (met0 b - 32 * ((met0 b + 31) / 32 - 1) + (2 ^ y - 1)) + ((met0 b + 31) / 32 - 1) * 2 ^ (5 - y) * 2 ^ y := by
      rw [Nat.mul_assoc, hword]
      omega
    rw [hsplit, Nat.add_mul_div_right _ _ (Nat.two_pow_pos y), Nat.add_comm]

/-- A short of an atom is 16 of its bits. -/
theorem u3rShort_eq (i b : ℕ) : u3rShort i b = b / 2 ^ (16 * i) % 2 ^ 16 := by
  have hmask : ∀ n, n &&& 0xffff = n % 2 ^ 16 := fun n => Nat.and_two_pow_sub_one_eq_mod n 16
  rw [u3rShort]
  by_cases hc : isCat b = true
  · have hlt : b < 2 ^ 31 := isCat_iff.mp hc
    rw [if_pos hc]
    match i with
    | 0 => rw [if_pos rfl, hmask, Nat.mul_zero, Nat.pow_zero, Nat.div_one]
    | 1 =>
      rw [if_neg (by decide), if_pos rfl, Nat.mul_one, Nat.shiftRight_eq_div_pow]
      exact (Nat.mod_eq_of_lt (by omega)).symm
    | i + 2 =>
      have hbig : 2 ^ 31 ≤ 2 ^ (16 * (i + 2)) := Nat.pow_le_pow_right (by decide) (by omega)
      rw [if_neg (by omega), if_neg (by omega), Nat.div_eq_of_lt (by omega), Nat.zero_mod]
  · rw [if_neg hc]
    refine Nat.eq_of_testBit_eq fun j => ?_
    rw [Nat.testBit_mod_two_pow, Nat.testBit_div_two_pow]
    dsimp only
    have hhalf : i >>> 1 = i / 2 := Nat.shiftRight_eq_div_pow i 1
    have hodd : i &&& 1 = i % 2 := Nat.and_two_pow_sub_one_eq_mod i 1
    rw [hhalf, hodd]
    by_cases hlen : (wordsOf b).length ≤ i / 2
    · rw [length_wordsOf] at hlen
      rw [if_pos (by rwa [length_wordsOf]), Nat.zero_testBit, testBit_of_met0_le (by omega), Bool.and_false]
    rw [if_neg hlen]
    by_cases hj : j < 16
    · rw [decide_eq_true hj, Bool.true_and]
      by_cases hi : i % 2 = 1
      · rw [if_pos hi, Nat.testBit_shiftRight, testBit_getD32 _ (by omega), wordBit_wordsOf]
        congr 1
        omega
      · rw [if_neg hi, hmask, Nat.testBit_mod_two_pow, decide_eq_true hj, Bool.true_and,
          testBit_getD32 _ (by omega), wordBit_wordsOf]
        congr 1
        omega
    · rw [decide_eq_false hj, Bool.false_and]
      by_cases hi : i % 2 = 1
      · rw [if_pos hi, Nat.testBit_shiftRight, testBit_word (by omega)]
      · rw [if_neg hi, hmask, Nat.testBit_mod_two_pow, decide_eq_false hj, Bool.false_and]

/-- Bits chopped into a zero word are a number. -/
theorem chopWord_eq {fum wid : ℕ} (h : wid ≤ 32) (a : ℕ) : chopWord fum wid a = a / 2 ^ fum % 2 ^ wid := by
  have hchop : Xored [0] (u3rChop fum wid 0 [0] a) 0 wid fun i => a.testBit (fum + i) :=
    u3rChop_spec (by rw [List.length_singleton]; omega)
  refine Nat.eq_of_testBit_eq fun j => ?_
  rw [chopWord, Nat.testBit_mod_two_pow, Nat.testBit_div_two_pow]
  by_cases hj : j < 32
  · have hzero : wordBit [0] j = false := wordBit_replicate 1 j
    have hword := testBit_getD32 (u3rChop fum wid 0 [0] a) (j := 0) hj
    rw [Nat.mul_zero, Nat.zero_add] at hword
    rw [hword, hchop.bit, hzero, Bool.false_xor, Nat.sub_zero, Nat.add_comm j fum]
    simp
  · rw [testBit_word (by omega), decide_eq_false (by omega), Bool.false_and]

/-! ### What is written -/

theorem mask_eq (k n : ℕ) : n &&& (1 <<< k - 1) = n % 2 ^ k := by
  rw [Nat.one_shiftLeft, Nat.and_two_pow_sub_one_eq_mod]

/-- A turn writes the low digits and a dot. -/
theorem putGroup_eq (k g inp : ℕ) (out : List UInt8) :
    putGroup k g inp out = (none :: ((places (2 ^ k) g inp).map some).reverse).map sym ++ out := by
  have hdigit : ∀ j, inp >>> (k * j) &&& (1 <<< k - 1) = inp / (2 ^ k) ^ j % 2 ^ k := fun j => by
    rw [mask_eq, Nat.shiftRight_eq_div_pow, Nat.pow_mul]
  rw [putGroup, places_eq_map]
  simp only [hdigit, List.map_cons, List.map_reverse, List.map_map, List.cons_append]
  rfl

theorem length_putGroup (k g inp : ℕ) (out : List UInt8) :
    (putGroup k g inp out).length = g + 1 + out.length := by
  rw [putGroup, List.length_cons, List.length_append, List.length_reverse, List.length_map, List.length_range]
  omega

theorem length_putGroups (k g : ℕ) (inp : ℕ → ℕ) (n : ℕ) : (putGroups k g inp n).length = n * (g + 1) := by
  induction n with
  | zero => rw [putGroups, List.length_nil, Nat.zero_mul]
  | succ n ih => rw [putGroups, length_putGroup, ih, Nat.succ_mul, Nat.add_comm]

/-- The last loop writes all digits of what is left. -/
theorem putRest_eq {k : ℕ} (hk : 0 < k) {n inp : ℕ} (h : inp < (2 ^ k) ^ n) (out : List UInt8) :
    putRest k n inp out = ((Nat.digits (2 ^ k) inp).map some).reverse.map sym ++ out := by
  have hbase : 1 < 2 ^ k := Nat.one_lt_two_pow hk.ne'
  induction n generalizing inp out with
  | zero =>
    obtain rfl : inp = 0 := by simpa using h
    rw [putRest, Nat.digits_zero]
    rfl
  | succ n ih =>
    rw [putRest]
    split
    · rename_i h0
      rw [h0, Nat.digits_zero]
      rfl
    · rename_i h0
      have hrest : inp >>> k < (2 ^ k) ^ n := by
        rw [Nat.shiftRight_eq_div_pow]
        exact Nat.div_lt_of_lt_mul (by rwa [← Nat.pow_succ'])
      rw [ih hrest, Nat.digits_def' hbase (Nat.pos_of_ne_zero h0), mask_eq, Nat.shiftRight_eq_div_pow]
      simp [sym]

/-- **The groups are the end of the text**, whose start is that of the number above them. -/
theorem putGroups_spell {k g a : ℕ} (hk : 0 < k) (hg : 0 < g) {inp : ℕ → ℕ} :
    ∀ {n : ℕ}, (∀ i < n, inp i = a / ((2 ^ k) ^ g) ^ i % (2 ^ k) ^ g) → a / ((2 ^ k) ^ g) ^ n ≠ 0 →
      (spell (2 ^ k) g a).map sym =
        (spell (2 ^ k) g (a / ((2 ^ k) ^ g) ^ n)).map sym ++ putGroups k g inp n
  | 0, _, _ => by rw [Nat.pow_zero, Nat.div_one, putGroups, List.append_nil]
  | n + 1, hinp, hn => by
    have hbase : 1 < 2 ^ k := Nat.one_lt_two_pow hk.ne'
    have hnext : a / ((2 ^ k) ^ g) ^ n / (2 ^ k) ^ g = a / ((2 ^ k) ^ g) ^ (n + 1) := by
      rw [Nat.div_div_eq_div_mul, ← Nat.pow_succ]
    have hmore : (2 ^ k) ^ g ≤ a / ((2 ^ k) ^ g) ^ n := by
      by_contra hlt
      rw [← hnext] at hn
      exact hn (Nat.div_eq_of_lt (by omega))
    have hbefore : a / ((2 ^ k) ^ g) ^ n ≠ 0 := by
      have := Nat.pow_pos (n := g) (Nat.two_pow_pos k)
      omega
    rw [putGroups_spell hk hg (fun i hi => hinp i (by omega)) hbefore, spell_block hbase hg hmore, hnext,
      putGroups, putGroup_eq, hinp n (by omega), places_mod, List.map_append, List.append_assoc]

/-! ### The length -/

/-- A number has a digit for each `k` bits of it. -/
theorem length_digits_bits {k : ℕ} (hk : 0 < k) (a : ℕ) :
    (Nat.digits (2 ^ k) a).length = (met0 a + (k - 1)) / k := by
  have h : ∀ m, (Nat.digits (2 ^ k) a).length ≤ m ↔ (met0 a + (k - 1)) / k ≤ m := fun m => by
    have hdiv : (met0 a + (k - 1)) / k ≤ m ↔ met0 a ≤ k * m := by
      rw [← Nat.lt_succ_iff, Nat.div_lt_iff_lt_mul hk, Nat.succ_mul, Nat.mul_comm]
      omega
    rw [hdiv, met0_le_iff, Nat.pow_mul]
    exact Nat.digits_length_le_iff (Nat.one_lt_two_pow hk.ne') a
  exact Nat.le_antisymm ((h _).mpr (Nat.le_refl _)) ((h _).mp (Nat.le_refl _))

theorem Form.bits_pos (f : Form) : 0 < f.bits := by
  cases f <;> decide

theorem Form.group_pos (f : Form) : 0 < f.group := by
  cases f <;> decide

theorem Form.group_le (f : Form) : f.group ≤ 32 := by
  cases f <;> decide

theorem canonical_text (f : Form) (a : ℕ) :
    Canonical (2 ^ f.bits) f.group (spell (2 ^ f.bits) f.group a) ∧
      value (2 ^ f.bits) (spell (2 ^ f.bits) f.group a) = a :=
  ⟨canonical_spell (Nat.one_lt_two_pow f.bits_pos.ne') f.group_pos a, value_spell _ _ _⟩

/-- What is written for zero. -/
theorem right_zero (f : Form) : EtchRight f 0 ⟨3, [48, f.tag, 48]⟩ :=
  ⟨rfl, _, (canonical_text f 0).1, (canonical_text f 0).2, by rw [spell, if_pos rfl]; rfl⟩

/-- **The loops write the text of the number**, if they go over all whole groups but the last;
they write as much as the length is from the digits of the last group. -/
theorem etched_right {f : Form} {a sep len : ℕ} (ha : a ≠ 0)
    (hsep : (met0 a - 1) / (f.bits * f.group) = sep) {inp : ℕ → ℕ}
    (hinp : ∀ i ≤ sep, inp i = a / 2 ^ (f.bits * f.group * i) % 2 ^ (f.bits * f.group)) :
    EtchRight f a ⟨len, 48 :: f.tag :: putRest f.bits 32 (inp sep) (putGroups f.bits f.group inp sep)⟩ ↔
      2 + (met0 (inp sep) + (f.bits - 1)) / f.bits + sep * (f.group + 1) = len := by
  have hk := f.bits_pos
  have hg := f.group_pos
  have hpow : ∀ i, 2 ^ (f.bits * f.group * i) = ((2 ^ f.bits) ^ f.group) ^ i := fun i => by
    rw [Nat.pow_mul, Nat.pow_mul]
  have hgroup : 2 ^ (f.bits * f.group) = (2 ^ f.bits) ^ f.group := Nat.pow_mul 2 f.bits f.group
  have hwide : 0 < f.bits * f.group := Nat.mul_pos hk hg
  have hpos := met0_pos ha
  have hbelow : a < 2 ^ (f.bits * f.group * sep) * 2 ^ (f.bits * f.group) := by
    rw [← Nat.pow_add, ← met0_le_iff, ← Nat.mul_add_one, ← hsep]
    have := Nat.lt_mul_div_succ (met0 a - 1) hwide
    omega
  have habove : 2 ^ (f.bits * f.group * sep) ≤ a := by
    refine (Nat.pow_le_pow_right (by decide) ?_).trans (two_pow_le ha)
    rw [← hsep]
    exact Nat.mul_div_le _ _
  have hlast : inp sep = a / ((2 ^ f.bits) ^ f.group) ^ sep := by
    rw [hinp sep (Nat.le_refl sep), ← hpow, Nat.mod_eq_of_lt (Nat.div_lt_of_lt_mul hbelow)]
  have hne : inp sep ≠ 0 := by
    rw [hlast, ← hpow]
    exact (Nat.div_pos habove (Nat.two_pow_pos _)).ne'
  have hlt : inp sep < (2 ^ f.bits) ^ f.group := by
    rw [hinp sep (Nat.le_refl sep), ← hgroup]
    exact Nat.mod_lt _ (Nat.two_pow_pos _)
  have hword : inp sep < (2 ^ f.bits) ^ 32 :=
    hlt.trans_le (Nat.pow_le_pow_right (Nat.two_pow_pos _) f.group_le)
  have hturns : ∀ i < sep, inp i = a / ((2 ^ f.bits) ^ f.group) ^ i % (2 ^ f.bits) ^ f.group := by
    intro i hi
    rw [hinp i hi.le, hpow, hgroup]
  have htext : (spell (2 ^ f.bits) f.group a).map sym =
      putRest f.bits 32 (inp sep) (putGroups f.bits f.group inp sep) := by
    rw [putGroups_spell hk hg hturns (by rwa [← hlast]), ← hlast,
      spell_short (Nat.one_lt_two_pow hk.ne') hne hlt, putRest_eq hk hword]
  have hlength : (48 :: f.tag :: putRest f.bits 32 (inp sep) (putGroups f.bits f.group inp sep)).length =
      2 + (met0 (inp sep) + (f.bits - 1)) / f.bits + sep * (f.group + 1) := by
    rw [List.length_cons, List.length_cons, putRest_eq hk hword, List.length_append, List.length_map,
      List.length_reverse, List.length_map, length_digits_bits hk, length_putGroups]
    omega
  constructor
  · intro h
    rw [← hlength]
    exact h.length
  · intro h
    exact ⟨hlength.trans h, _, (canonical_text f a).1, (canonical_text f a).2, by rw [htext]⟩

/-- `u3s_etch_ux` of an atom that is not zero. -/
theorem ux_right_iff {a : ℕ} (ha : a ≠ 0) :
    (∃ e, u3sEtchUx a = some e ∧ EtchRight .ux a e) ↔ Fits .ux a := by
  have hpos := met0_pos ha
  have hinp : ∀ i ≤ (met0 a - 1) / 16, u3rShort i a = a / 2 ^ (16 * i) % 2 ^ 16 := fun i _ => u3rShort_eq i a
  have hsep : (met0 a + (2 ^ 4 - 1)) / 2 ^ 4 - 1 = (met0 a - 1) / 16 := by omega
  have hshort : u3rShort ((met0 a - 1) / 16) a = a >>> (16 * ((met0 a - 1) / 16)) := by
    have hlt : a < 2 ^ (16 * ((met0 a - 1) / 16)) * 2 ^ 16 := by
      rw [← Nat.pow_add, ← met0_le_iff]
      omega
    rw [u3rShort_eq, Nat.mod_eq_of_lt (Nat.div_lt_of_lt_mul hlt), Nat.shiftRight_eq_div_pow]
  have hlas : met0 (u3rShort ((met0 a - 1) / 16) a) = met0 a - 16 * ((met0 a - 1) / 16) := by
    rw [hshort, met0_shiftRight]
  have hwords : ¬ (2 ^ 32 - 1 - (32 + (2 ^ 2 - 1))) / 2 ^ (5 - 2) <
      (met0 (u3rShort ((met0 a - 1) / 16) a) + 31) / 32 - 1 := by
    rw [hlas]
    omega
  rw [u3sEtchUx, if_neg ha, u3rMetAt_eq (by decide)]
  by_cases hlong : (2 ^ 32 - 1 - (32 + (2 ^ 4 - 1))) / 2 ^ (5 - 4) < (met0 a + 31) / 32 - 1
  · rw [if_pos hlong]
    constructor
    · rintro ⟨e, he, _⟩
      exact nomatch he
    · intro h
      rw [Fits] at h
      omega
  · rw [if_neg hlong]
    simp only [Option.bind_eq_bind, Option.bind_some, hsep]
    rw [u3rMetAt_eq (by decide), if_neg hwords]
    simp only [Option.bind_some, Option.some.injEq, exists_eq_left', csEtchUxBytes]
    have hright := @etched_right .ux a ((met0 a - 1) / 16)
      ((2 + (met0 (u3rShort ((met0 a - 1) / 16) a) + (2 ^ 2 - 1)) / 2 ^ 2 + (met0 a - 1) / 16 * 5) % 2 ^ 32)
      ha rfl _ hinp
    refine hright.trans ?_
    rw [Fits, hlas, Form.bits, Form.group]
    omega

/-- `u3s_etch_uv` and `u3s_etch_uw` of an atom that is not zero. -/
theorem chopped_right {f : Form} {a : ℕ} (hg : f.group = 5) (hwid : f.bits * f.group ≤ 32) (ha : a ≠ 0) :
    if met0 a ≤ 2 ^ 32 - 32 then ∃ e, etchChopped (f.bits * f.group) f.bits f.tag a = some e ∧ EtchRight f a e
    else etchChopped (f.bits * f.group) f.bits f.tag a = none := by
  have hpos := met0_pos ha
  have hwide : 0 < f.bits * f.group := Nat.mul_pos f.bits_pos f.group_pos
  rw [etchChopped, if_neg ha, csEtchSize, u3rMet_eq]
  split
  · rename_i hshort
    have hsep : divcNz (met0 a) (f.bits * f.group) - 1 = (met0 a - 1) / (f.bits * f.group) := by
      have hup : met0 a + (f.bits * f.group - 1) = met0 a - 1 + f.bits * f.group := by omega
      rw [divcNz, hup, Nat.add_div_right _ hwide, Nat.add_sub_cancel]
    have hturns : divcNz ((met0 a - 1) / (f.bits * f.group) * (f.bits * f.group)) (f.bits * f.group) =
        (met0 a - 1) / (f.bits * f.group) := by
      rw [divcNz, Nat.add_comm, Nat.add_mul_div_right _ _ hwide, Nat.div_eq_of_lt (by omega), Nat.zero_add]
    have hinp : ∀ i ≤ (met0 a - 1) / (f.bits * f.group), chopWord (f.bits * f.group * i) (f.bits * f.group) a =
        a / 2 ^ (f.bits * f.group * i) % 2 ^ (f.bits * f.group) := fun i _ => chopWord_eq hwid a
    have hright := @etched_right f a _ (2 + (met0 (chopWord (f.bits * f.group * ((met0 a - 1) / (f.bits * f.group)))
      (f.bits * f.group) a) + (f.bits - 1)) / f.bits + (met0 a - 1) / (f.bits * f.group) * (f.group + 1))
      ha rfl _ hinp
    rw [if_pos (by omega)]
    simp only [Option.bind_eq_bind, Option.bind_some, hsep]
    refine ⟨_, rfl, ?_⟩
    have h := hright.mpr rfl
    rw [hg] at h hturns ⊢
    rw [csEtchBytes, hturns, Nat.mul_comm _ (f.bits * 5)]
    exact h
  · rw [if_neg (by omega)]
    rfl

theorem etch_zero (f : Form) : etch f 0 = some ⟨3, [48, f.tag, 48]⟩ := by
  cases f <;> rfl

theorem fits_zero (f : Form) : Fits f 0 := by
  cases f <;> decide

/-- **When an etch is right.** -/
theorem etch_right_iff (f : Form) (a : ℕ) : (∃ e, etch f a = some e ∧ EtchRight f a e) ↔ Fits f a := by
  by_cases ha : a = 0
  · subst ha
    exact ⟨fun _ => fits_zero f, fun _ => ⟨_, etch_zero f, right_zero f⟩⟩
  have hchopped : ∀ {o : Option Etched},
      (if met0 a ≤ 2 ^ 32 - 32 then ∃ e, o = some e ∧ EtchRight f a e else o = none) →
        ((∃ e, o = some e ∧ EtchRight f a e) ↔ met0 a ≤ 2 ^ 32 - 32) := by
    intro o h
    split at h
    · rename_i hle
      exact ⟨fun _ => hle, fun _ => h⟩
    · rename_i hle
      rw [h]
      exact ⟨fun ⟨e, he, _⟩ => (nomatch he), fun hle' => absurd hle' hle⟩
  cases f with
  | ux => exact ux_right_iff ha
  | uv => exact hchopped (@chopped_right .uv a rfl (by decide) ha)
  | uw => exact hchopped (@chopped_right .uw a rfl (by decide) ha)

/-- **The three texts.** An atom that is short enough has its text written, as long as computed in
advance; for a longer one `u3s_etch_uv` and `u3s_etch_uw` bail before they write. -/
theorem etch_right (f : Form) (a : ℕ) :
    if Fits f a then ∃ e, etch f a = some e ∧ EtchRight f a e else f = .ux ∨ etch f a = none := by
  split
  · rename_i h
    exact (etch_right_iff f a).mpr h
  · rename_i h
    by_cases ha : a = 0
    · subst ha
      exact absurd (fits_zero f) h
    cases f with
    | ux => exact Or.inl rfl
    | uv =>
      have hnone := @chopped_right .uv a rfl (by decide) ha
      rw [if_neg (show ¬ met0 a ≤ 2 ^ 32 - 32 from h)] at hnone
      exact Or.inr hnone
    | uw =>
      have hnone := @chopped_right .uw a rfl (by decide) ha
      rw [if_neg (show ¬ met0 a ≤ 2 ^ 32 - 32 from h)] at hnone
      exact Or.inr hnone

theorem met0_two_pow (k : ℕ) : met0 (2 ^ k) = k + 1 := by
  rw [met0, if_neg (Nat.two_pow_pos k).ne', Nat.log2_two_pow]

/-- An atom of more than `2 ^ 32 - 32` bits has no text in base 32, and one of more than 858993459
shorts no text in base 16 of the length computed. -/
theorem long_not_right :
    (¬ ∃ e, etch .uv (2 ^ 2 ^ 32) = some e ∧ EtchRight .uv (2 ^ 2 ^ 32) e) ∧
      ¬ ∃ e, etch .ux (2 ^ (16 * 858993460)) = some e ∧ EtchRight .ux (2 ^ (16 * 858993460)) e := by
  constructor
  · intro h
    have hfits := (etch_right_iff _ _).mp h
    rw [Fits, met0_two_pow] at hfits
    omega
  · intro h
    have hfits := (etch_right_iff _ _).mp h
    rw [Fits, met0_two_pow] at hfits
    omega

end Etch
end Ursockets

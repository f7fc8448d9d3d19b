/-
# Parts of a resource

The scry of `arvo/eyre.hoon` for a range of a resource: `+get-range` clips the first and the last
byte asked for, or so many bytes from the end, to the length of the resource, and the cut is
sent with its own length and with its place in the resource.

The whole of a resource, asked for as a range, is sent with status 200. `dec` of zero
crashes, and the length of a cut is taken from its number, which has no zeros at its end.

Key definitions: `getRange`, `rangeEntry`, `Satisfies`, `Partial`.
Key theorems: `getRange_some`, `getRange_none`, `size_cut`, `rangeEntry_right`.
-/
import Ursockets.Lib.Octets

namespace Ursockets
namespace EyreRange

open Octets

/-! ### The scry -/

/-- `octs`: a length and a number. -/
structure Octs where
  p : ℕ
  q : ℕ
  deriving DecidableEq

/-- What is in them. -/
def Octs.bytes (o : Octs) : List UInt8 := ofNum o.p o.q

/-- The atom of a text, in ASCII. -/
def cord (t : String) : ℕ := num (t.toList.map fun c => UInt8.ofNat c.toNat)

/-- `as-octs:mimes:html`. -/
def asOcts (tex : ℕ) : Octs := ⟨size tex, tex⟩

/-- `(cut 3 [b c] d)`. -/
def cut (b c d : ℕ) : ℕ := d / 256 ^ b % 256 ^ c

/-- `dec`, which crashes on zero. -/
def dec (a : ℕ) : Option ℕ := if a = 0 then none else some (a - 1)

/-- `sub`, which crashes below zero. -/
def sub (a b : ℕ) : Option ℕ := if a < b then none else some (a - b)

/-- `+get-range`: a crash, nothing, or the first and the last byte. -/
def getRange (req : Option ℕ × Option ℕ) (len : ℕ) : Option (Option (ℕ × ℕ)) :=
  match req with
  | (some p, none) => do
    let last ← dec len
    if p > last then some none else some (some (p, last))
  | (none, some q) =>
    if ¬ q > 0 then some none
    else do
      let first ← sub len (min len q)
      let last ← dec len
      some (some (first, last))
  | (some p, some q) => do
    let last ← dec len
    if p > last ∨ p > q then some none else some (some (p, min last q))
  | (none, none) => some none

/-- `simple-payload:http`. -/
structure Payload where
  statusCode : ℕ
  headers : List (String × String)
  data : Option Octs
  deriving DecidableEq

/-- `content-range`. -/
def contentRange (p q len : ℕ) : String := "bytes " ++ toString p ++ "-" ++ toString q ++ "/" ++ toString len

/-- The scry of a range of a resource, whose type is `mite`. -/
def rangeEntry (mite : String) (mime : Octs) (req : Option ℕ × Option ℕ) : Option Payload := do
  match ← getRange req mime.p with
  | none =>
    some ⟨416, [("content-range", "bytes */" ++ toString mime.p)],
      some (asOcts (cord "requested range not satisfiable"))⟩
  | some (p, q) => do
    let width ← sub q p
    let octs := asOcts (cut p (width + 1) mime.q)
    some ⟨if mime.p = octs.p then 200 else 206,
      [("accept-ranges", "bytes"), ("content-type", mite), ("content-length", toString octs.p),
        ("content-range", contentRange p q mime.p)], some octs⟩

/-! ### Ranges -/

/-- The bytes that a range asks for, clipped to the length. -/
def Satisfies (req : Option ℕ × Option ℕ) (len p q : ℕ) : Prop :=
  match req with
  | (some b, none) => b < len ∧ p = b ∧ q = len - 1
  | (none, some n) => 0 < n ∧ 0 < len ∧ p = len - min len n ∧ q = len - 1
  | (some b, some e) => b < len ∧ b ≤ e ∧ p = b ∧ q = min (len - 1) e
  | (none, none) => False

theorem Satisfies.bounds {req : Option ℕ × Option ℕ} {len p q : ℕ} (h : Satisfies req len p q) : p ≤ q ∧ q < len := by
  obtain ⟨b, e⟩ := req
  cases b <;> cases e <;> simp only [Satisfies] at h <;> omega

/-- A range that can be satisfied is clipped to what it asks for. -/
theorem getRange_some {req : Option ℕ × Option ℕ} {len p q : ℕ} (h : Satisfies req len p q) :
    getRange req len = some (some (p, q)) := by
  have hlen : len ≠ 0 := by
    have h1 := h.bounds
    omega
  have hdec : dec len = some (len - 1) := if_neg hlen
  obtain ⟨b, e⟩ := req
  cases b with
  | none =>
    cases e with
    | none => exact h.elim
    | some n =>
      obtain ⟨hn, -, rfl, rfl⟩ := h
      have hsub : sub len (min len n) = some (len - min len n) := if_neg (by omega)
      simp only [getRange, hdec, hsub, Option.bind_eq_bind, Option.bind_some]
      exact if_neg (not_not.mpr hn)
  | some b =>
    cases e with
    | none =>
      obtain ⟨hb, rfl, rfl⟩ := h
      simp only [getRange, hdec, Option.bind_eq_bind, Option.bind_some]
      exact if_neg (by omega)
    | some e =>
      obtain ⟨hb, he, rfl, rfl⟩ := h
      simp only [getRange, hdec, Option.bind_eq_bind, Option.bind_some]
      exact if_neg (by omega)

/-- A range of some resource that cannot be satisfied, or one that asks for nothing. -/
theorem getRange_none {req : Option ℕ × Option ℕ} {len : ℕ} (h : ∀ p q, ¬ Satisfies req len p q)
    (hlen : len ≠ 0 ∨ req = (none, none) ∨ req = (none, some 0)) : getRange req len = some none := by
  obtain ⟨b, e⟩ := req
  cases b with
  | none =>
    cases e with
    | none => rfl
    | some n =>
      have hn : ¬ n > 0 := by
        intro hn
        have hpos : 0 < len := by
          rcases hlen with h1 | h1 | h1
          · omega
          · exact absurd h1 (by simp)
          · obtain rfl : n = 0 := by simpa using h1
            omega
        exact h _ _ ⟨hn, hpos, rfl, rfl⟩
      exact if_pos hn
  | some b =>
    have hne : len ≠ 0 := by
      rcases hlen with h1 | h1 | h1
      · exact h1
      · exact absurd h1 (by simp)
      · exact absurd h1 (by simp)
    have hdec : dec len = some (len - 1) := if_neg hne
    cases e with
    | none =>
      have hb : ¬ b < len := fun hb => h _ _ ⟨hb, rfl, rfl⟩
      simp only [getRange, hdec, Option.bind_eq_bind, Option.bind_some]
      exact if_pos (by omega)
    | some e =>
      have hb : ¬ (b < len ∧ b ≤ e) := fun hb => h _ _ ⟨hb.1, hb.2, rfl, rfl⟩
      simp only [getRange, hdec, Option.bind_eq_bind, Option.bind_some]
      exact if_pos (by omega)

/-! ### What is sent -/

/-- A cut has its length, where its last byte is not zero. -/
theorem size_cut {b c d : ℕ} (h : d / 256 ^ (b + c) % 256 ≠ 0) : size (cut b (c + 1) d) = c + 1 := by
  have hle : size (cut b (c + 1) d) ≤ c + 1 := size_le_iff.mpr (Nat.mod_lt _ (Nat.pow_pos (by decide)))
  have hlt : ¬ size (cut b (c + 1) d) ≤ c := by
    rw [size_le_iff, cut, Nat.not_lt]
    have htop : d / 256 ^ b % 256 ^ (c + 1) / 256 ^ c = d / 256 ^ (b + c) % 256 := by
      rw [Nat.pow_succ, Nat.mod_mul_right_div_self, Nat.div_div_eq_div_mul, ← Nat.pow_add]
    by_contra hsmall
    rw [Nat.div_eq_of_lt (by omega)] at htop
    exact h htop.symm
  omega

theorem ofNum_mod : ∀ (n v : ℕ), ofNum n (v % 256 ^ n) = ofNum n v
  | 0, v => rfl
  | n + 1, v => by
    have h1 : v % 256 ^ (n + 1) / 256 = v / 256 % 256 ^ n := by
      rw [Nat.pow_succ', Nat.mod_mul_right_div_self]
    have h2 : UInt8.ofNat (v % 256 ^ (n + 1)) = UInt8.ofNat v := by
      apply UInt8.toNat_inj.mp
      rw [UInt8.toNat_ofNat', UInt8.toNat_ofNat']
      exact Nat.mod_mod_of_dvd v ⟨256 ^ n, Nat.pow_succ'⟩
    rw [ofNum, ofNum, h1, h2, ofNum_mod n]

/-- A cut is a slice. -/
theorem ofNum_cut {b c len d : ℕ} (h : b + c ≤ len) : ofNum c (cut b c d) = ((ofNum len d).drop b).take c := by
  obtain ⟨m, rfl⟩ := Nat.exists_eq_add_of_le h
  rw [cut, ofNum_mod, Nat.add_assoc, ofNum_add b, List.drop_left' (length_ofNum b d), take_ofNum (Nat.le_add_right c m)]

/-- The response to a range that is satisfied by the bytes from `p` to `q`. -/
structure Partial (mime : Octs) (p q : ℕ) (r : Payload) : Prop where
  status : r.statusCode = if p = 0 ∧ q + 1 = mime.p then 200 else 206
  data : ∃ octs, r.data = some octs ∧ octs.p = q - p + 1 ∧ octs.bytes = (mime.bytes.drop p).take (q - p + 1)
  length : ("content-length", toString (q - p + 1)) ∈ r.headers
  range : ("content-range", contentRange p q mime.p) ∈ r.headers

/-- **Ranges**: one that can be satisfied is answered with its bytes, unless the last of them is zero. One that cannot
be is refused with the length, unless that is zero. -/
theorem rangeEntry_right (mite : String) (mime : Octs) (req : Option ℕ × Option ℕ) :
    (∀ p q, Satisfies req mime.p p q → mime.q / 256 ^ q % 256 ≠ 0 →
      ∃ r, rangeEntry mite mime req = some r ∧ Partial mime p q r) ∧
    ((∀ p q, ¬ Satisfies req mime.p p q) → (mime.p ≠ 0 ∨ req = (none, none) ∨ req = (none, some 0)) →
      ∃ r, rangeEntry mite mime req = some r ∧ r.statusCode = 416 ∧
        ("content-range", "bytes */" ++ toString mime.p) ∈ r.headers) := by
  constructor
  · intro p q h hlast
    obtain ⟨hpq, hq⟩ := h.bounds
    have hsub : sub q p = some (q - p) := if_neg (by omega)
    have hsize : size (cut p (q - p + 1) mime.q) = q - p + 1 := by
      apply size_cut
      rwa [Nat.add_sub_cancel' hpq]
    have hrun : rangeEntry mite mime req = some ⟨if mime.p = q - p + 1 then 200 else 206,
        [("accept-ranges", "bytes"), ("content-type", mite), ("content-length", toString (q - p + 1)),
          ("content-range", contentRange p q mime.p)], some (asOcts (cut p (q - p + 1) mime.q))⟩ := by
      simp only [rangeEntry, getRange_some h, hsub, Option.bind_eq_bind, Option.bind_some, asOcts, hsize]
    refine ⟨_, hrun, ?_, ⟨_, rfl, hsize, ?_⟩, ?_, ?_⟩
    · by_cases hall : p = 0 ∧ q + 1 = mime.p
      · rw [if_pos hall]
        exact if_pos (by omega)
      · rw [if_neg hall]
        exact if_neg (by omega)
    · show ofNum (size (cut p (q - p + 1) mime.q)) (cut p (q - p + 1) mime.q) = _
      rw [hsize]
      exact ofNum_cut (by omega)
    · simp only [List.mem_cons, true_or, or_true]
    · simp only [List.mem_cons, true_or, or_true]
  · intro h hlen
    refine ⟨⟨416, [("content-range", "bytes */" ++ toString mime.p)],
      some (asOcts (cord "requested range not satisfiable"))⟩, ?_, rfl, List.mem_singleton.mpr rfl⟩
    simp only [rangeEntry, getRange_none h hlen, Option.bind_eq_bind, Option.bind_some]

/-- The whole of a resource has status 200, an empty one makes a range crash, and a zero at the end of a slice is
lost. -/
theorem range_amiss : (rangeEntry "text/plain" ⟨2, 0x6261⟩ (some 0, some 1)).map (·.statusCode) = some 200 ∧
    rangeEntry "text/plain" ⟨0, 0⟩ (some 0, none) = none ∧
      ((rangeEntry "text/plain" ⟨3, 0x610061⟩ (some 0, some 1)).bind (·.data)).map (·.bytes) = some [0x61] := by
  refine ⟨?_, rfl, ?_⟩
  · decide +kernel
  · decide +kernel

end EyreRange
end Ursockets

/-
# Mnemonic names

`gwid/mnemonyms.hoon` spells a number of some width with words of a list of 2048: the number, with some bits of its
hash behind it, is cut into groups of 11 bits, each of them a word; the groups of zeros at the front are left out,
and put back when a name is read. Where there is nothing but zeros no word is left, and the name cannot be read.

Key definitions: `trip`, `crip`, `splitByDots`, `Me`, `decode`, `encode`, `validate`, `Listed`, `RoundTrips`, `Spells`,
`shown`, `Fits`.
Key theorems: `splitByDots_eq`, `trip_crip`, `indices_eq`, `encode_eq_some_iff`, `decode_eq`, `combine_parts`,
`names_right_iff`.
-/
import Mathlib.Tactic.Common
import Mathlib.Tactic.NormNum
import Ursockets.Lib.Dotted

namespace Ursockets
namespace Mnemonyms

/-! ### Cords and tapes -/

/-- The tape of a cord: its bytes. -/
def trip (a : ℕ) : List ℕ := Nat.digits 256 a

/-- How many bytes. -/
def met (a : ℕ) : ℕ := (Nat.digits 256 a).length

/-- The cord of a tape, which is `rap 3`: a character takes as many bytes as it has, and so a zero none. -/
def crip : List ℕ → ℕ
  | [] => 0
  | i :: t => crip t * 256 ^ met i + i

/-- `rev 3`: so many bytes, the other way round. -/
def rev (len dat : ℕ) : ℕ :=
  let dat := dat % 256 ^ len
  Nat.ofDigits 256 (Nat.digits 256 dat).reverse * 256 ^ (len - met dat)

def dot : ℕ := 0x2e

/-- `split-by-dots`: the rest of the tape, the part read so far and the parts before, these backwards. -/
def splitFrom : List ℕ → List ℕ → List (List ℕ) → List (List ℕ)
  | [], cur, acc => (cur.reverse :: acc).reverse
  | i :: t, cur, acc => if dot = i then splitFrom t [] (cur.reverse :: acc) else splitFrom t (i :: cur) acc

def splitByDots (t : List ℕ) : List (List ℕ) := splitFrom t [] []

/-- The words with dots between them. -/
def joinDots : List (List ℕ) → List ℕ
  | [] => []
  | w :: ws => w ++ (ws.map (dot :: ·)).flatten

/-! ### Bits -/

def countBytes (width : ℕ) : ℕ := width / 8

def countCsLent (width : ℕ) : ℕ := width / 32

def countTotalBits (width : ℕ) : ℕ := width + countCsLent width

def countTotalWords (bits : ℕ) : ℕ := bits / 11

/-- `get-idx`, where `k` is below `tot`. -/
def getIdx (tot com k : ℕ) : ℕ := com >>> (11 * (tot - 1 - k)) &&& 0x7ff

/-- `dec`, which crashes on 0. -/
def dec : ℕ → Option ℕ
  | 0 => none
  | n + 1 => some n

section

-- SHA-256 of so many bytes, least first
variable (shay : ℕ → ℕ → ℕ)

/-- sha256 of big-endian entropy bytes. -/
def sha256Hash (hex width : ℕ) : ℕ := shay (countBytes width) (rev (countBytes width) hex)

/-- The top bits of the first byte of the hash. -/
def checksum (hex width : ℕ) : ℕ := (sha256Hash shay hex width % 256) >>> (8 - countCsLent width)

/-- `derive-checksum`: it crashes where more bits are asked for than a byte has. -/
def deriveChecksum (hex width : ℕ) : Option ℕ := if countCsLent width ≤ 8 then some (checksum shay hex width) else none

/-- entropy bits followed by checksum bits -/
def concatEnyCs (hex width : ℕ) : Option ℕ :=
  (deriveChecksum shay hex width).map fun cs => (hex <<< countCsLent width) + cs

end

/-! ### The core -/

/-- The sample of `me`. -/
structure Me where
  tweaked : Bool
  width : ℕ
  wordlist : List ℕ

namespace Me

/-- How many words there are. -/
def total (me : Me) : ℕ := countTotalWords (countTotalBits me.width)

/-- What a name begins with. -/
def front (me : Me) : List ℕ := if me.tweaked then [dot] else [dot, dot]

end Me

/-- The 11-bit indices, the first on top; `hi` is the last place. -/
def indices (total hi combined : ℕ) : List ℕ :=
  ((List.range (hi + 1)).foldl (fun acc k => getIdx total combined k :: acc) []).reverse

/-- drop leading zero indices -/
def dropZeros : List ℕ → List ℕ
  | [] => []
  | i :: t => if i = 0 then dropZeros t else i :: t

section

variable (shay : ℕ → ℕ → ℕ) (me : Me)

def decode (hex : ℕ) : Option ℕ := do
  let combined ← concatEnyCs shay hex me.width
  let hi ← dec me.total
  let words ← (dropZeros (indices me.total hi combined)).mapM fun idx => me.wordlist[idx]?
  some (crip (me.front ++ joinDots (words.map trip)))

/-- The parts of a name, behind the one dot or the two that it begins with. -/
def wordTapes (nym : ℕ) : Option (List (List ℕ)) :=
  match trip nym with
  | i :: j :: t =>
    if i = dot ∧ j = dot then some (splitByDots t) else if i = dot then some (splitByDots (j :: t)) else none
  | _ => none

/-- rebuild combined atom from indices, MSB first -/
def combine (tapes : List (List ℕ)) : Option ℕ :=
  if me.total < tapes.length then none
  else
    (tapes.mapM fun wt => me.wordlist.findIdx? (· = crip wt)).map fun idxs =>
      (List.replicate (me.total - tapes.length) 0 ++ idxs).foldl (fun acc idx => (acc <<< 11) + idx) 0

/-- The entropy, if the checksum is right. -/
def checked (combined : ℕ) : Option ℕ := do
  let cs ← deriveChecksum shay (combined >>> countCsLent me.width) me.width
  if combined &&& (1 <<< countCsLent me.width - 1) = cs then some (combined >>> countCsLent me.width) else none

def encode (nym : ℕ) : Option ℕ := do
  let tapes ← wordTapes nym
  let combined ← combine me tapes
  checked shay me combined

/-- Whether a name begins with one dot. -/
def oneDot (nym : ℕ) : Option Bool :=
  match trip nym with
  | i :: j :: _ => some (!(i = dot && j = dot) && i = dot)
  | _ => none

def validate (nym : ℕ) : Option Bool := do
  let one ← oneDot nym
  if me.tweaked ≠ one then none
  else
    let tapes ← wordTapes nym
    if me.total < tapes.length then none
    else
      let combined ← combine me tapes
      let _ ← checked shay me combined
      some true

end

/-! ### Cords and tapes, again -/

/-- The characters that leave a trace in a cord. -/
def chars (t : List ℕ) : List ℕ := t.filter (· ≠ 0)

theorem trip_lt {a i : ℕ} (h : i ∈ trip a) : i < 256 := Nat.digits_lt_base (by decide) h

theorem crip_eq {t : List ℕ} (h : ∀ i ∈ t, i < 256) : crip t = Nat.ofDigits 256 (chars t) := by
  induction t with
  | nil => rfl
  | cons i t ih =>
    have hi := h i List.mem_cons_self
    rw [crip, ih fun j hj => h j (List.mem_cons_of_mem i hj)]
    by_cases h0 : i = 0
    · subst h0
      simp [met, chars]
    · have hmet : met i = 1 := by rw [met, Nat.digits_of_lt 256 i h0 hi, List.length_singleton]
      rw [hmet, chars, chars, List.filter_cons_of_pos (by simpa using h0), Nat.ofDigits_cons, pow_one]
      omega

/-- **A cord keeps of a tape all characters but the zeros.** -/
theorem trip_crip {t : List ℕ} (h : ∀ i ∈ t, i < 256) : trip (crip t) = chars t := by
  rw [crip_eq h, trip]
  refine Nat.digits_ofDigits 256 (by decide) _ (fun i hi => h i (List.mem_of_mem_filter hi)) fun hne => ?_
  simpa using List.of_mem_filter (List.getLast_mem hne)

theorem chars_eq_self {t : List ℕ} : chars t = t ↔ 0 ∉ t := by
  rw [chars, List.filter_eq_self]
  constructor
  · exact fun h h0 => by simpa using h 0 h0
  · exact fun h i hi => by simpa using fun h0 : i = 0 => h (h0 ▸ hi)

theorem crip_trip (w : ℕ) (h : 0 ∉ trip w) : crip (trip w) = w := by
  rw [crip_eq fun i hi => trip_lt hi, chars_eq_self.mpr h]
  exact Nat.ofDigits_digits 256 w

theorem trip_inj {a b : ℕ} : trip a = trip b ↔ a = b := Nat.digits_inj_iff

theorem trip_eq_nil {a : ℕ} : trip a = [] ↔ a = 0 := Nat.digits_eq_nil_iff_eq_zero

theorem splitFrom_eq (t cur : List ℕ) (acc : List (List ℕ)) :
    splitFrom t cur acc = acc.reverse ++ List.splitOnPPrepend (· == dot) t cur := by
  induction t generalizing cur acc with
  | nil => rw [splitFrom, List.reverse_cons, List.splitOnPPrepend_nil]
  | cons i t ih =>
    rw [splitFrom, List.splitOnPPrepend_cons_eq_if]
    by_cases hi : dot = i
    · rw [if_pos hi, if_pos (beq_iff_eq.mpr hi.symm), ih, List.reverse_cons, List.append_assoc]
      rfl
    · rw [if_neg hi, if_neg fun hb => hi (beq_iff_eq.mp hb).symm, ih]

/-- **The parts between the dots.** -/
theorem splitByDots_eq (t : List ℕ) : splitByDots t = t.splitOn dot := splitFrom_eq t [] []

theorem joinDots_eq (ws : List (List ℕ)) : joinDots ws = [dot].intercalate ws := by
  induction ws with
  | nil => rfl
  | cons w ws ih =>
    cases ws with
    | nil => simp [joinDots]
    | cons x ws =>
      rw [List.intercalate_cons_cons, ← ih, joinDots, joinDots, List.map_cons, List.flatten_cons]
      simp

theorem chars_append (s t : List ℕ) : chars (s ++ t) = chars s ++ chars t := List.filter_append s t

theorem chars_joinDots (ws : List (List ℕ)) : chars (joinDots ws) = joinDots (ws.map chars) := by
  have hflat (ws : List (List ℕ)) : chars (ws.map (dot :: ·)).flatten = ((ws.map chars).map (dot :: ·)).flatten := by
    induction ws with
    | nil => rfl
    | cons w ws ih =>
      rw [List.map_cons, List.flatten_cons, chars_append, ih]
      rfl
  cases ws with
  | nil => rfl
  | cons w ws => rw [joinDots, chars_append, hflat, List.map_cons, joinDots]

theorem dot_notMem_chars {t : List ℕ} (h : dot ∉ t) : dot ∉ chars t := fun hd => h (List.mem_of_mem_filter hd)

/-! ### Groups of eleven bits -/

variable {shay : ℕ → ℕ → ℕ} {me : Me} {c v n : ℕ}

theorem foldl_cons_eq (f : ℕ → ℕ) (l acc : List ℕ) :
    l.foldl (fun acc k => f k :: acc) acc = (l.map f).reverse ++ acc := by
  induction l generalizing acc with
  | nil => rfl
  | cons k l ih => simp [ih]

theorem getIdx_eq (tot com k : ℕ) : getIdx tot com k = com / 2048 ^ (tot - 1 - k) % 2048 := by
  rw [getIdx, Nat.shiftRight_eq_div_pow, Nat.pow_mul]
  exact Nat.and_two_pow_sub_one_eq_mod _ 11

/-- **The indices are the digits in base 2048**, the first on top. -/
theorem indices_eq (hi com : ℕ) : indices (hi + 1) hi com = (Dotted.places 2048 (hi + 1) com).reverse := by
  rw [indices, foldl_cons_eq, List.append_nil, List.reverse_reverse, Dotted.places_eq_map]
  refine List.ext_getElem (by simp) fun k h1 h2 => ?_
  simp [getIdx_eq]

theorem dropZeros_replicate (k : ℕ) (l : List ℕ) : dropZeros (List.replicate k 0 ++ l) = dropZeros l := by
  induction k with
  | zero => rfl
  | succ k ih =>
    rw [List.replicate_succ, List.cons_append, dropZeros, if_pos rfl]
    exact ih

theorem dropZeros_digits (a : ℕ) : dropZeros (Nat.digits 2048 a).reverse = (Nat.digits 2048 a).reverse := by
  cases hd : (Nat.digits 2048 a).reverse with
  | nil => rfl
  | cons i t =>
    have hne : Nat.digits 2048 a ≠ [] := fun h => by simp [h] at hd
    have ha : a ≠ 0 := Nat.digits_ne_nil_iff_ne_zero.mp hne
    have hlast := Nat.getLast_digit_ne_zero 2048 ha
    rw [List.getLast_eq_head_reverse] at hlast
    simp only [hd, List.head_cons] at hlast
    rw [dropZeros, if_neg hlast]

/-- **Without the zeros at the front**, the digits of the number. -/
theorem dropZeros_indices {hi com : ℕ} (h : com < 2048 ^ (hi + 1)) :
    dropZeros (indices (hi + 1) hi com) = (Nat.digits 2048 com).reverse := by
  rw [indices_eq, Dotted.places_pad (by decide) h, List.reverse_append, List.reverse_replicate, dropZeros_replicate,
    dropZeros_digits]

/-- The indices put together again, with the zeros put back. -/
theorem foldl_eq (k : ℕ) (idxs : List ℕ) :
    (List.replicate k 0 ++ idxs).foldl (fun acc idx => (acc <<< 11) + idx) 0 = Nat.ofDigits 2048 idxs.reverse := by
  have hstep : (fun x y => (y <<< 11) + x : ℕ → ℕ → ℕ) = fun x y => x + 2048 * y := by
    funext x y
    rw [Nat.shiftLeft_eq]
    omega
  rw [← List.foldr_reverse, hstep, List.reverse_append, List.reverse_replicate]
  exact (Nat.ofDigits_eq_foldr 2048 _).symm.trans (Nat.ofDigits_append_replicate_zero _)

theorem countCsLent_mul (c : ℕ) : countCsLent (32 * c) = c := Nat.mul_div_cancel_left c (by decide)

theorem total_eq (h : me.width = 32 * c) : me.total = 3 * c := by
  rw [Me.total, countTotalWords, countTotalBits, h, countCsLent_mul]
  omega

theorem checksum_lt (shay : ℕ → ℕ → ℕ) (h : me.width = 32 * c) (hc : c ≤ 8) (v : ℕ) :
    checksum shay v me.width < 2 ^ c := by
  rw [checksum, h, countCsLent_mul, Nat.shiftRight_eq_div_pow]
  apply (Nat.div_lt_iff_lt_mul (by positivity)).mpr
  rw [← Nat.pow_add, Nat.add_sub_cancel' hc]
  exact Nat.mod_lt _ (by decide)

/-- The entropy and the checksum behind it. -/
def code (shay : ℕ → ℕ → ℕ) (me : Me) (v : ℕ) : ℕ := v * 2 ^ countCsLent me.width + checksum shay v me.width

theorem pow_total (c : ℕ) : (2048 : ℕ) ^ (3 * c) = 2 ^ (32 * c) * 2 ^ c := by
  rw [← Nat.pow_add, show 32 * c + c = 11 * (3 * c) by omega, Nat.pow_mul 2 11]

theorem code_lt (h : me.width = 32 * c) (hc : c ≤ 8) (hv : v < 2 ^ me.width) : code shay me v < 2048 ^ (3 * c) := by
  have hcs := checksum_lt shay h hc v
  rw [h] at hv
  rw [code, h, countCsLent_mul, pow_total]
  calc v * 2 ^ c + checksum shay v (32 * c) < v * 2 ^ c + 2 ^ c := by rw [h] at hcs; omega
    _ = (v + 1) * 2 ^ c := (Nat.succ_mul v _).symm
    _ ≤ 2 ^ (32 * c) * 2 ^ c := Nat.mul_le_mul_right _ hv

theorem concatEnyCs_eq (h : me.width = 32 * c) (hc : c ≤ 8) (v : ℕ) :
    concatEnyCs shay v me.width = some (code shay me v) := by
  have hle : countCsLent me.width ≤ 8 := by rwa [h, countCsLent_mul]
  rw [concatEnyCs, deriveChecksum, if_pos hle, Option.map_some, Nat.shiftLeft_eq]
  rfl

/-- **The checksum is right** just when the value is spelled with its own. -/
theorem checked_eq_some_iff (h : me.width = 32 * c) (hc : c ≤ 8) : checked shay me n = some v ↔ n = code shay me v := by
  have hle : countCsLent me.width ≤ 8 := by rwa [h, countCsLent_mul]
  have hcs := checksum_lt shay h hc
  have hmask : n &&& (1 <<< countCsLent me.width - 1) = n % 2 ^ c := by
    rw [Nat.one_shiftLeft, h, countCsLent_mul, Nat.and_two_pow_sub_one_eq_mod]
  have hshift : n >>> countCsLent me.width = n / 2 ^ c := by rw [h, countCsLent_mul, Nat.shiftRight_eq_div_pow]
  have hcode : code shay me v = v * 2 ^ c + checksum shay v me.width := by rw [code, h, countCsLent_mul]
  rw [checked, deriveChecksum, if_pos hle, Option.bind_eq_bind, Option.bind_some, hmask, hshift,
    Option.ite_none_right_eq_some, hcode]
  constructor
  · rintro ⟨hm, hv⟩
    obtain rfl := Option.some.inj hv
    rw [← hm]
    exact (Nat.div_add_mod' n (2 ^ c)).symm
  · intro hn
    have hdiv : n / 2 ^ c = v := by
      rw [hn, Nat.mul_comm, Nat.mul_add_div (by positivity), Nat.div_eq_of_lt (hcs v), Nat.add_zero]
    rw [hdiv]
    refine ⟨?_, rfl⟩
    rw [hn, Nat.mul_comm, Nat.mul_add_mod, Nat.mod_eq_of_lt (hcs v)]

/-! ### Words -/

/-- A list of 2048 distinct words without dots. -/
structure Listed (l : List ℕ) : Prop where
  length : l.length = 2048
  nodup : l.Nodup
  dotFree : ∀ w ∈ l, dot ∉ trip w

theorem mapM_eq_some_iff {α β : Type} {f : α → Option β} {l : List α} {r : List β} :
    l.mapM f = some r ↔ l.map f = r.map some := by
  induction l generalizing r with
  | nil => cases r <;> simp
  | cons a l ih =>
    rw [List.mapM_cons, List.map_cons]
    simp only [Option.bind_eq_bind, Option.bind_eq_some_iff, ih]
    cases r with
    | nil => simp
    | cons b r => simp

/-- **A word is found** where it stands. -/
theorem findIdx?_eq_some_iff {l : List ℕ} (h : l.Nodup) {w i : ℕ} : l.findIdx? (· = w) = some i ↔ l[i]? = some w := by
  rw [List.findIdx?_eq_some_iff_getElem, List.getElem?_eq_some_iff]
  constructor
  · exact fun ⟨hi, hw, _⟩ => ⟨hi, of_decide_eq_true hw⟩
  · rintro ⟨hi, hw⟩
    refine ⟨hi, decide_eq_true hw, fun j hji hj => ?_⟩
    have hij := (h.getElem_inj_iff).mp ((of_decide_eq_true hj).trans hw.symm)
    omega

/-- Words are found one by one. -/
theorem found_iff {l : List ℕ} (h : l.Nodup) {tapes : List (List ℕ)} {idxs : List ℕ} :
    tapes.map (fun wt => l.findIdx? (· = crip wt)) = idxs.map some ↔
      idxs.map (l[·]?) = tapes.map (some ∘ crip) := by
  induction tapes generalizing idxs with
  | nil => cases idxs <;> simp
  | cons wt tapes ih =>
    cases idxs with
    | nil => simp
    | cons i idxs =>
      simp only [List.map_cons, List.cons.injEq]
      exact and_congr (findIdx?_eq_some_iff h) ih

/-- What the words of a name spell. -/
theorem combine_eq_some_iff (hl : Listed me.wordlist) {tapes : List (List ℕ)} :
    combine me tapes = some n ↔ tapes.length ≤ me.total ∧
      ∃ idxs : List ℕ, idxs.map (me.wordlist[·]?) = tapes.map (some ∘ crip) ∧ n = Nat.ofDigits 2048 idxs.reverse := by
  rw [combine, Option.ite_none_left_eq_some, Nat.not_lt, Option.map_eq_some_iff]
  refine and_congr_right fun _ => exists_congr fun idxs => and_congr ?_ ?_
  · exact mapM_eq_some_iff.trans (found_iff hl.nodup)
  · rw [foldl_eq, eq_comm]

/-- **Encode succeeds** on a name just when its words spell the value and its checksum. -/
theorem encode_eq_some_iff (h : me.width = 32 * c) (hc : c ≤ 8) {nym : ℕ} :
    encode shay me nym = some v ↔ ∃ tapes, wordTapes nym = some tapes ∧ combine me tapes = some (code shay me v) := by
  unfold encode
  simp only [Option.bind_eq_bind, Option.bind_eq_some_iff, checked_eq_some_iff h hc]
  exact exists_congr fun tapes => and_congr_right fun _ => exists_eq_right

/-- **Validate** is encode, of a name with as many dots as it should have. -/
theorem validate_eq_some_iff {nym : ℕ} {b : Bool} :
    validate shay me nym = some b ↔ b = true ∧ oneDot nym = some me.tweaked ∧ ∃ v, encode shay me nym = some v := by
  have hlen {tapes : List (List ℕ)} {m : ℕ} (hm : combine me tapes = some m) : ¬ me.total < tapes.length :=
    fun hlt => by rw [combine, if_pos hlt] at hm; cases hm
  unfold validate encode
  simp only [Option.bind_eq_bind, Option.bind_eq_some_iff, Option.ite_none_left_eq_some, Option.some.injEq,
    ne_eq, not_not]
  constructor
  · rintro ⟨one, hone, rfl, tapes, ht, _, m, hm, x, hx, rfl⟩
    exact ⟨rfl, hone, x, tapes, ht, m, hm, hx⟩
  · rintro ⟨rfl, hone, x, tapes, ht, m, hm, hx⟩
    exact ⟨_, hone, rfl, tapes, ht, hlen hm, m, hm, x, hx, rfl⟩

/-! ### The name of a value -/

/-- The words that spell a value, without the zeros at the front. -/
def shown (shay : ℕ → ℕ → ℕ) (me : Me) (v : ℕ) : List ℕ :=
  (Nat.digits 2048 (code shay me v)).reverse.map fun i => me.wordlist.getD i 0

/-- What is left of the words in the name. -/
def parts (shay : ℕ → ℕ → ℕ) (me : Me) (v : ℕ) : List (List ℕ) := (shown shay me v).map (chars ∘ trip)

theorem getD_word (hl : Listed me.wordlist) {i : ℕ} (hi : i < 2048) :
    me.wordlist[i]? = some (me.wordlist.getD i 0) := by
  rw [← hl.length] at hi
  rw [List.getD_eq_getElem?_getD, List.getElem?_eq_getElem hi, Option.getD_some]

theorem shown_words (hl : Listed me.wordlist) (v : ℕ) :
    (Nat.digits 2048 (code shay me v)).reverse.map (me.wordlist[·]?) = (shown shay me v).map some := by
  rw [shown, List.map_map]
  refine List.map_congr_left fun i hi => getD_word hl ?_
  exact Nat.digits_lt_base (by decide) (List.mem_reverse.mp hi)

theorem mem_wordlist (hl : Listed me.wordlist) {w : ℕ} (hw : w ∈ shown shay me v) : w ∈ me.wordlist := by
  have hsome : some w ∈ (shown shay me v).map some := List.mem_map_of_mem hw
  rw [← shown_words hl, List.mem_map] at hsome
  obtain ⟨i, _, hi⟩ := hsome
  exact List.mem_of_getElem? hi

theorem dot_notMem_parts (hl : Listed me.wordlist) {l : List ℕ} (h : l ∈ parts shay me v) : dot ∉ l := by
  obtain ⟨w, hw, rfl⟩ := List.mem_map.mp h
  exact dot_notMem_chars (hl.dotFree w (mem_wordlist hl hw))

theorem mem_joinDots {ws : List (List ℕ)} {i : ℕ} (h : i ∈ joinDots ws) : i = dot ∨ ∃ w ∈ ws, i ∈ w := by
  cases ws with
  | nil => cases h
  | cons w ws =>
    rw [joinDots, List.mem_append, List.mem_flatten] at h
    obtain h | ⟨l, hl, hi⟩ := h
    · exact .inr ⟨w, List.mem_cons_self, h⟩
    · obtain ⟨x, hx, rfl⟩ := List.mem_map.mp hl
      exact (List.mem_cons.mp hi).imp_right fun hi => ⟨x, List.mem_cons_of_mem w hx, hi⟩

/-- The tape of a name. -/
theorem trip_name (shay : ℕ → ℕ → ℕ) (me : Me) (v : ℕ) :
    trip (crip (me.front ++ joinDots ((shown shay me v).map trip))) = me.front ++ joinDots (parts shay me v) := by
  have hfront (i : ℕ) (hi : i ∈ me.front) : i = dot := by
    unfold Me.front at hi
    split at hi <;> simpa using hi
  rw [trip_crip, chars_append, chars_joinDots, List.map_map]
  · congr 1
    exact chars_eq_self.mpr fun h0 => absurd (hfront 0 h0) (by decide)
  · intro i hi
    obtain hi | hi := List.mem_append.mp hi
    · rw [hfront i hi]
      decide
    · obtain rfl | ⟨l, hl, hi⟩ := mem_joinDots hi
      · decide
      · obtain ⟨w, _, rfl⟩ := List.mem_map.mp hl
        exact trip_lt hi

/-- **Decode** joins the words behind the dots. -/
theorem decode_eq (shay : ℕ → ℕ → ℕ) (hl : Listed me.wordlist) (h : me.width = 32 * c) (hc : c ≤ 8) (h0 : 0 < c)
    (hv : v < 2 ^ me.width) :
    decode shay me v = some (crip (me.front ++ joinDots ((shown shay me v).map trip))) := by
  have htotal : me.total = 3 * c - 1 + 1 := by rw [total_eq h]; omega
  have hcode : code shay me v < 2048 ^ (3 * c - 1 + 1) := by
    rw [← htotal, total_eq h]
    exact code_lt h hc hv
  rw [decode, concatEnyCs_eq h hc, htotal]
  refine Option.bind_eq_some_iff.mpr ⟨_, rfl, Option.bind_eq_some_iff.mpr ⟨_, rfl, ?_⟩⟩
  rw [dropZeros_indices hcode]
  exact Option.bind_eq_some_iff.mpr ⟨_, mapM_eq_some_iff.mpr (shown_words hl v), rfl⟩

/-- With no bits at all there is no last place. -/
theorem decode_zero (h : me.width = 32 * 0) : decode shay me v = none := by
  rw [decode, concatEnyCs_eq h (Nat.zero_le 8), total_eq h]
  rfl

/-- Where words stand. -/
theorem idxs_lt (hl : Listed me.wordlist) {tapes : List (List ℕ)} {idxs : List ℕ}
    (h : idxs.map (me.wordlist[·]?) = tapes.map (some ∘ crip)) {i : ℕ} (hi : i ∈ idxs) : i < 2048 := by
  have hmem : me.wordlist[i]? ∈ idxs.map (me.wordlist[·]?) := List.mem_map_of_mem (f := (me.wordlist[·]?)) hi
  rw [h, List.mem_map] at hmem
  obtain ⟨x, _, hx⟩ := hmem
  rw [← hl.length]
  exact (List.getElem?_eq_some_iff.mp hx.symm).1

/-- **The words are found again** just when nothing of them was lost. -/
theorem combine_parts (hl : Listed me.wordlist) (h : me.width = 32 * c) (hc : c ≤ 8) (hv : v < 2 ^ me.width) :
    combine me (parts shay me v) = some (code shay me v) ↔ ∀ w ∈ shown shay me v, 0 ∉ trip w := by
  have hparts : (parts shay me v).map (some ∘ crip) = (shown shay me v).map fun w => some (crip (chars (trip w))) :=
    List.map_map
  have hlen : (parts shay me v).length = (Nat.digits 2048 (code shay me v)).length := by simp [parts, shown]
  rw [combine_eq_some_iff hl]
  constructor
  · rintro ⟨_, idxs, hidxs, hval⟩ w hw
    have hdig : idxs.reverse = Nat.digits 2048 (code shay me v) := by
      refine Nat.ofDigits_inj_of_len_eq (b := 2048) (by decide) ?_ (fun i hi => ?_)
        (fun i hi => Nat.digits_lt_base (by decide) hi) (hval.symm.trans (Nat.ofDigits_digits 2048 _).symm)
      · rw [← hlen, List.length_reverse]
        simpa [parts] using congrArg List.length hidxs
      · exact idxs_lt hl hidxs (List.mem_reverse.mp hi)
    rw [List.reverse_eq_iff.mp hdig, shown_words hl, hparts] at hidxs
    have hword := Option.some.inj (List.map_inj_left.mp hidxs w hw)
    have htrip : trip w = chars (chars (trip w)) := by
      conv_lhs => rw [hword]
      exact trip_crip fun i hi => trip_lt (List.mem_of_mem_filter hi)
    rw [htrip]
    exact fun h0 => by simpa using List.of_mem_filter h0
  · intro hno
    refine ⟨?_, (Nat.digits 2048 (code shay me v)).reverse, ?_, ?_⟩
    · rw [hlen, Nat.digits_length_le_iff (by decide), total_eq h]
      exact code_lt h hc hv
    · rw [shown_words hl, hparts]
      refine List.map_congr_left fun w hw => congrArg some ?_
      rw [chars_eq_self.mpr (hno w hw), crip_trip w (hno w hw)]
    · rw [List.reverse_reverse, Nat.ofDigits_digits]

/-- **Where no word is left**, an empty one is looked for. -/
theorem combine_empty (hl : Listed me.wordlist) (h0 : 0 < me.total) :
    combine me [[]] = some 0 ↔ me.wordlist[0]? = some 0 := by
  rw [combine_eq_some_iff hl]
  constructor
  · rintro ⟨_, idxs, hidxs, hval⟩
    obtain ⟨i, rfl⟩ : ∃ i, idxs = [i] := List.length_eq_one_iff.mp (by simpa using congrArg List.length hidxs)
    obtain rfl : i = 0 := by simpa using hval.symm
    simpa [crip] using hidxs
  · exact fun hz => ⟨h0, [0], by simp [hz, crip], by simp⟩

/-! ### There and back -/

/-- **A value comes back**: it has a name, which is valid, and of which it is the value. -/
def RoundTrips (shay : ℕ → ℕ → ℕ) (me : Me) (v : ℕ) : Prop :=
  ∃ nym, decode shay me v = some nym ∧ validate shay me nym = some true ∧ encode shay me nym = some v

/-- **The words of a name spell a value** of the width and its checksum: behind two dots, or behind one, they are
words of the list, and no more than there should be. -/
def Spells (shay : ℕ → ℕ → ℕ) (me : Me) (nym v : ℕ) : Prop :=
  v < 2 ^ me.width ∧ ∃ front body, trip nym = front ++ body ∧
    (front = [dot, dot] ∨ front = [dot] ∧ body.head? ≠ some dot) ∧
    ∃ idxs : List ℕ, idxs.length ≤ me.total ∧ idxs.map (me.wordlist[·]?) = (body.splitOn dot).map (some ∘ crip) ∧
      Nat.ofDigits 2048 idxs.reverse = code shay me v

/-- The values that come back: there are bits at all, the words shown have no zero bytes, and the first of them is not
empty where there is one dot before it; where none is shown, there are two dots, and the list begins with an empty
word. -/
def Fits (shay : ℕ → ℕ → ℕ) (me : Me) (v : ℕ) : Prop :=
  0 < me.width ∧ (∀ w ∈ shown shay me v, 0 ∉ trip w) ∧
    match shown shay me v with
    | [] => me.tweaked = false ∧ me.wordlist[0]? = some 0
    | w :: _ => me.tweaked = true → w ≠ 0

variable {nym : ℕ} {t body : List ℕ}

theorem wordTapes_two (h : trip nym = dot :: dot :: t) : wordTapes nym = some (t.splitOn dot) := by
  rw [wordTapes, h, ← splitByDots_eq]
  rfl

theorem wordTapes_one {j : ℕ} (h : trip nym = dot :: j :: t) (hj : j ≠ dot) :
    wordTapes nym = some ((j :: t).splitOn dot) := by
  rw [wordTapes, h, ← splitByDots_eq]
  exact (if_neg fun hd => hj hd.2).trans (if_pos rfl)

theorem oneDot_eq {j : ℕ} (h : trip nym = dot :: j :: t) : oneDot nym = some (!decide (j = dot)) := by
  rw [oneDot, h]
  simp

/-- A name that is read begins with two dots, or with one. -/
theorem wordTapes_eq_some {tapes : List (List ℕ)} (h : wordTapes nym = some tapes) :
    ∃ front body, trip nym = front ++ body ∧ (front = [dot, dot] ∨ front = [dot] ∧ body.head? ≠ some dot) ∧
      tapes = body.splitOn dot := by
  unfold wordTapes at h
  split at h
  · next i j t ht =>
    split_ifs at h with h2 h1
    · obtain ⟨rfl, rfl⟩ := h2
      exact ⟨[dot, dot], t, ht, .inl rfl, (Option.some.inj h).symm.trans (splitByDots_eq t)⟩
    · subst h1
      refine ⟨[dot], j :: t, ht, .inr ⟨rfl, ?_⟩, (Option.some.inj h).symm.trans (splitByDots_eq _)⟩
      exact fun hj => h2 ⟨rfl, Option.some.inj hj⟩
  · cases h

/-- **Only names that spell a value are read.** -/
theorem encode_spells (hl : Listed me.wordlist) (h : me.width = 32 * c) (hc : c ≤ 8)
    (he : encode shay me nym = some v) : Spells shay me nym v := by
  obtain ⟨tapes, ht, hcomb⟩ := (encode_eq_some_iff h hc).mp he
  obtain ⟨hlen, idxs, hidxs, hval⟩ := (combine_eq_some_iff hl).mp hcomb
  obtain ⟨front, body, htrip, hfront, rfl⟩ := wordTapes_eq_some ht
  have hilen : idxs.length = (body.splitOn dot).length := by simpa using congrArg List.length hidxs
  refine ⟨?_, front, body, htrip, hfront, idxs, hilen ▸ hlen, hidxs, hval.symm⟩
  have hlt : code shay me v < 2048 ^ (3 * c) := by
    calc code shay me v = Nat.ofDigits 2048 idxs.reverse := hval
      _ < 2048 ^ idxs.reverse.length :=
        Nat.ofDigits_lt_base_pow_length (by decide) fun i hi => idxs_lt hl hidxs (List.mem_reverse.mp hi)
      _ ≤ 2048 ^ (3 * c) := by
        rw [List.length_reverse, hilen, ← total_eq h]
        exact Nat.pow_le_pow_right (by decide) hlen
  rw [pow_total, code, h, countCsLent_mul] at hlt
  rw [h]
  exact Nat.lt_of_mul_lt_mul_right ((Nat.le_add_right _ _).trans_lt hlt)

/-- A value comes back where its name has the right dots, and is read. -/
theorem roundTrips_iff (hl : Listed me.wordlist) (h : me.width = 32 * c) (hc : c ≤ 8) (h0 : 0 < c)
    (hv : v < 2 ^ me.width) :
    RoundTrips shay me v ↔ ∃ nym, trip nym = me.front ++ joinDots (parts shay me v) ∧ oneDot nym = some me.tweaked ∧
      ∃ tapes, wordTapes nym = some tapes ∧ combine me tapes = some (code shay me v) := by
  have hdec := decode_eq shay hl h hc h0 hv
  unfold RoundTrips
  simp only [hdec, validate_eq_some_iff, encode_eq_some_iff h hc]
  constructor
  · rintro ⟨nym, hn, ⟨_, hone, _⟩, hread⟩
    obtain rfl := Option.some.inj hn
    exact ⟨_, trip_name shay me v, hone, hread⟩
  · rintro ⟨nym, hn, hone, hread⟩
    obtain rfl := trip_inj.mp (hn.trans (trip_name shay me v).symm)
    exact ⟨_, rfl, ⟨trivial, hone, v, hread⟩, hread⟩

/-- What is read where the name has words. -/
theorem splitOn_parts (hl : Listed me.wordlist) (hne : parts shay me v ≠ []) :
    (joinDots (parts shay me v)).splitOn dot = parts shay me v := by
  rw [joinDots_eq]
  exact List.splitOn_intercalate dot (fun l hm => dot_notMem_parts hl hm) hne

/-- Behind two dots. -/
theorem roundTrips_two (hl : Listed me.wordlist) (h : me.width = 32 * c) (hc : c ≤ 8) (h0 : 0 < c)
    (hv : v < 2 ^ me.width) (ht : me.tweaked = false) :
    RoundTrips shay me v ↔ combine me ((joinDots (parts shay me v)).splitOn dot) = some (code shay me v) := by
  have hfront : me.front = [dot, dot] := by rw [Me.front, ht]; rfl
  rw [roundTrips_iff hl h hc h0 hv, ht, hfront]
  constructor
  · rintro ⟨nym, hn, _, tapes, htapes, hcomb⟩
    obtain rfl := Option.some.inj (htapes.symm.trans (wordTapes_two hn))
    exact hcomb
  · intro hcomb
    have hn := trip_name shay me v
    rw [hfront] at hn
    exact ⟨_, hn, oneDot_eq hn, _, wordTapes_two hn, hcomb⟩

/-- Behind one dot, there has to be a word which is not empty. -/
theorem roundTrips_one (hl : Listed me.wordlist) (h : me.width = 32 * c) (hc : c ≤ 8) (h0 : 0 < c)
    (hv : v < 2 ^ me.width) (ht : me.tweaked = true) :
    RoundTrips shay me v ↔ (∃ j t, joinDots (parts shay me v) = j :: t ∧ j ≠ dot) ∧
      combine me ((joinDots (parts shay me v)).splitOn dot) = some (code shay me v) := by
  have hfront : me.front = [dot] := by rw [Me.front, ht]; rfl
  rw [roundTrips_iff hl h hc h0 hv, ht, hfront]
  constructor
  · rintro ⟨nym, hn, hone, tapes, htapes, hcomb⟩
    cases hjoin : joinDots (parts shay me v) with
    | nil =>
      rw [hjoin] at hn
      rw [oneDot, hn] at hone
      cases hone
    | cons j t =>
      rw [hjoin] at hn
      have hj : j ≠ dot := by simpa using (oneDot_eq hn).symm.trans hone
      obtain rfl := Option.some.inj (htapes.symm.trans (wordTapes_one hn hj))
      exact ⟨⟨j, t, rfl, hj⟩, hcomb⟩
  · rintro ⟨⟨j, t, hjoin, hj⟩, hcomb⟩
    have hn := trip_name shay me v
    rw [hfront, hjoin] at hn
    refine ⟨_, by rw [hn, hjoin], ?_, _, wordTapes_one hn hj, hjoin ▸ hcomb⟩
    rw [oneDot_eq hn, decide_eq_false hj]
    rfl

/-- What is read behind the dots. -/
theorem combine_read (shay : ℕ → ℕ → ℕ) (hl : Listed me.wordlist) (h : me.width = 32 * c) (hc : c ≤ 8) (h0 : 0 < c)
    (hv : v < 2 ^ me.width) :
    combine me ((joinDots (parts shay me v)).splitOn dot) = some (code shay me v) ↔
      (∀ w ∈ shown shay me v, 0 ∉ trip w) ∧ (shown shay me v = [] → me.wordlist[0]? = some 0) := by
  cases hs : shown shay me v with
  | nil =>
    have hparts : parts shay me v = [] := by rw [parts, hs]; rfl
    have hcode : code shay me v = 0 := by simpa [shown, Nat.digits_eq_nil_iff_eq_zero] using hs
    have htotal : 0 < me.total := by rw [total_eq h]; omega
    rw [hparts, hcode]
    refine (combine_empty hl htotal).trans ?_
    simp
  | cons w ws =>
    have hparts : parts shay me v ≠ [] := by simp [parts, hs]
    rw [splitOn_parts hl hparts, combine_parts hl h hc hv, hs]
    simp

/-- **A value comes back just when it fits.** -/
theorem roundTrips_fits (hl : Listed me.wordlist) (h : me.width = 32 * c) (hc : c ≤ 8) (hv : v < 2 ^ me.width) :
    RoundTrips shay me v ↔ Fits shay me v := by
  obtain rfl | h0 := Nat.eq_zero_or_pos c
  · refine iff_of_false ?_ fun hf => ?_
    · rintro ⟨nym, hn, _⟩
      rw [decode_zero h] at hn
      cases hn
    · exact absurd h (Nat.ne_of_gt hf.1)
  have hwidth : 0 < me.width := by omega
  have hread := combine_read shay hl h hc h0 hv
  rw [Fits, and_iff_right hwidth]
  cases ht : me.tweaked with
  | false =>
    rw [roundTrips_two hl h hc h0 hv ht, hread]
    refine and_congr_right fun _ => ?_
    cases shown shay me v <;> simp
  | true =>
    rw [roundTrips_one hl h hc h0 hv ht, hread, and_left_comm]
    refine and_congr_right fun hno => ?_
    cases hs : shown shay me v with
    | nil =>
      have hparts : parts shay me v = [] := by rw [parts, hs]; rfl
      rw [hparts]
      exact iff_of_false (fun hj => by simp [joinDots] at hj) fun hf => Bool.noConfusion hf.1
    | cons w ws =>
      have hjoin : joinDots (parts shay me v) = trip w ++ ((ws.map (chars ∘ trip)).map (dot :: ·)).flatten := by
        rw [parts, hs, List.map_cons, joinDots, Function.comp_apply,
          chars_eq_self.mpr (hno w (hs ▸ List.mem_cons_self))]
      rw [hjoin]
      constructor
      · rintro ⟨⟨j, t, hj, hjd⟩, _⟩ _ rfl
        rw [trip_eq_nil.mpr rfl, List.nil_append] at hj
        cases ws with
        | nil => cases hj
        | cons x ws => exact hjd (List.cons.inj hj).1.symm
      · intro hw
        cases htrip : trip w with
        | nil => exact absurd (trip_eq_nil.mp htrip) (hw rfl)
        | cons j t =>
          refine ⟨⟨j, _, rfl, ?_⟩, fun hn => nomatch hn⟩
          rintro rfl
          refine hl.dotFree w (mem_wordlist hl (hs ▸ List.mem_cons_self)) ?_
          exact htrip ▸ List.mem_cons_self

/-- **There and back**, of every value of a width, and what is read at all. -/
theorem names_right_iff (shay : ℕ → ℕ → ℕ) (me : Me) (hl : Listed me.wordlist) (h : me.width = 32 * c) (hc : c ≤ 8) :
    (∀ v < 2 ^ me.width, RoundTrips shay me v ↔ Fits shay me v) ∧
      (∀ nym v, encode shay me nym = some v → Spells shay me nym v) ∧
      ∀ nym b, validate shay me nym = some b → ∃ v, Spells shay me nym v := by
  refine ⟨fun v hv => roundTrips_fits hl h hc hv, fun nym v he => encode_spells hl h hc he, fun nym b hb => ?_⟩
  obtain ⟨_, _, v, he⟩ := validate_eq_some_iff.mp hb
  exact ⟨v, encode_spells hl h hc he⟩

/-! ### A list of words -/

/-- Three letters. -/
def letters (i : ℕ) : ℕ := (97 + i % 16) + 256 * ((97 + i / 16 % 16) + 256 * (97 + i / 256))

def someWords : List ℕ := (List.range 2048).map letters

theorem trip_letters {i : ℕ} (h : i < 2048) : trip (letters i) = [97 + i % 16, 97 + i / 16 % 16, 97 + i / 256] := by
  rw [trip, letters, Nat.digits_add 256 (by decide) _ _ (by omega) (by omega),
    Nat.digits_add 256 (by decide) _ _ (by omega) (by omega), Nat.digits_of_lt 256 _ (by omega) (by omega)]

theorem someWords_listed : Listed someWords := by
  refine ⟨by rw [someWords, List.length_map, List.length_range], ?_, ?_⟩
  · refine List.Nodup.map_on (fun i hi j hj hij => ?_) List.nodup_range
    have htrip := congrArg trip hij
    rw [trip_letters (List.mem_range.mp hi), trip_letters (List.mem_range.mp hj)] at htrip
    simp only [List.cons.injEq] at htrip
    omega
  · intro w hw
    obtain ⟨i, hi, rfl⟩ := List.mem_map.mp hw
    rw [trip_letters (List.mem_range.mp hi)]
    simp only [List.mem_cons, List.not_mem_nil, or_false, not_or, dot]
    refine ⟨?_, ?_, ?_⟩ <;> omega

/-- The hash of the four bytes of 1. -/
def hashOne : ℕ := 0x8d524f76fcc0ad04a1e0a76c34a0e50f2cbeea2738a7b86f7539708ca81107b4

/-- The hash of twelve bytes of 0. -/
def hashNone : ℕ := 0x8bfd55febfa3e508af004b99abe3f9385336247de028829fb43207b5f07bec15

/-- 1, in 32 bits: its name has one word. -/
theorem names_right_one :
    Listed someWords ∧ decode (fun _ _ => hashOne) ⟨false, 32, someWords⟩ 1 = some (crip [dot, dot, 100, 97, 97]) ∧
      RoundTrips (fun _ _ => hashOne) ⟨false, 32, someWords⟩ 1 := by
  refine ⟨someWords_listed, by decide +kernel, ?_⟩
  have hshown : shown (fun _ _ => hashOne) ⟨false, 32, someWords⟩ 1 = [letters 3] := by decide +kernel
  have hone : 1 < 2 ^ 32 := Nat.one_lt_two_pow (by decide)
  have hl : Listed (Me.mk false 32 someWords).wordlist := by
    dsimp only
    exact someWords_listed
  have hright := names_right_iff (c := 1) (fun _ _ => hashOne) ⟨false, 32, someWords⟩ hl rfl (by decide)
  refine (hright.1 1 hone).mpr ⟨by decide, ?_, ?_⟩
  · rw [hshown]
    decide +kernel
  · rw [hshown]
    exact fun h => Bool.noConfusion h

/-- 0, in 96 bits: no bit of the checksum is set either, no word is shown, and the name is not read. -/
theorem nothing_shown :
    Listed someWords ∧ decode (fun _ _ => hashNone) ⟨false, 96, someWords⟩ 0 = some (crip [dot, dot]) ∧
      validate (fun _ _ => hashNone) ⟨false, 96, someWords⟩ (crip [dot, dot]) = none ∧
      encode (fun _ _ => hashNone) ⟨false, 96, someWords⟩ (crip [dot, dot]) = none ∧
      ¬ RoundTrips (fun _ _ => hashNone) ⟨false, 96, someWords⟩ 0 := by
  have hdec : decode (fun _ _ => hashNone) ⟨false, 96, someWords⟩ 0 = some (crip [dot, dot]) := by decide +kernel
  have henc : encode (fun _ _ => hashNone) ⟨false, 96, someWords⟩ (crip [dot, dot]) = none := by decide +kernel
  refine ⟨someWords_listed, hdec, by decide +kernel, henc, ?_⟩
  rintro ⟨nym, hn, _, he⟩
  obtain rfl := Option.some.inj (hn.symm.trans hdec)
  exact Option.some_ne_none _ (he.symm.trans henc)

end Mnemonyms
end Ursockets

/-
# The hash-consed noun store

The arena of `ur/hashcons.c`: cells and the atoms of more than 62 bits are kept
once each, found by their mug through a dictionary, and a noun is denoted by a
reference. References denote the same noun only if they are equal.

Key definitions: `Nref`, `Root`, `coinBytesUnsafe`, `cons`, `walkTurn`, `Den`, `Root.Ok`.
Key theorems: `Den.inj`, `Den.mug`, `coinBytesUnsafe_spec`, `cons_spec`.
-/
import Ursockets.Noun
import Ursockets.UrDict
import Ursockets.Lib.Bits

namespace Ursockets
namespace Hashcons

open Bits UrDict Noun

/-- `ur_nref`: the tag in the two high bits, and the direct atom or the index. -/
inductive Nref where
  | direct (n : ℕ)
  | iatom (i : ℕ)
  | icell (i : ℕ)
  deriving DecidableEq, Repr

/-- What `ur_atoms_t` keeps of an atom. -/
structure Tom where
  mug : UInt32
  len : ℕ
  bytes : List UInt8

/-- What `ur_cells_t` keeps of a cell. -/
structure Cel where
  mug : UInt32
  head : Nref
  tail : Nref

/-- `ur_root_t`. -/
structure Root where
  atoms : List Tom
  atomsDict : Dict Nref Unit
  cells : List Cel
  cellsDict : Dict Nref Unit

/-- `ur_mug64`. -/
def mug64 (x : ℕ) : UInt32 := mugBytes (atomBytes x)

/-- `ur_nref_mug`. -/
def nrefMug (r : Root) : Nref → UInt32
  | .direct n => mug64 n
  | .iatom i => (r.atoms[i]?.map Tom.mug).getD 0
  | .icell i => (r.cells[i]?.map Cel.mug).getD 0

/-- The mug by which the dictionaries spread references. -/
def keyMug (r : Root) (ref : Nref) : ℕ := (nrefMug r ref).toNat

/-- `ur_deep`. -/
def deep : Nref → Bool
  | .icell _ => true
  | _ => false

/-- `ur_head`. -/
def head (r : Root) : Nref → Nref
  | .icell i => (r.cells[i]?.map Cel.head).getD (.direct 0)
  | _ => .direct 0

/-- `ur_tail`. -/
def tail (r : Root) : Nref → Nref
  | .icell i => (r.cells[i]?.map Cel.tail).getD (.direct 0)
  | _ => .direct 0

/-- `ur_bytes`: the bytes of an atom. -/
def bytes (r : Root) : Nref → List UInt8
  | .direct n => atomBytes n
  | .iatom i => (r.atoms[i]?.map Tom.bytes).getD []
  | .icell _ => []

/-- `ur_met0_bytes_unsafe`: the length in bits of bytes that do not end in a zero. -/
def met0Bytes (len : ℕ) (byt : List UInt8) : ℕ :=
  let last := len - 1
  last <<< 3 + met0 (byt.getD last 0).toNat

/-- `ur_met`, in bits. -/
def met (r : Root) : Nref → ℕ
  | .direct n => met0 n
  | .iatom i => (r.atoms[i]?.map fun t => met0Bytes t.len t.bytes).getD 0
  | .icell _ => 0

/-- `_coin_unsafe`. -/
def coinUnsafe (r : Root) (mug : UInt32) (len : ℕ) (byt : List UInt8) : Nref × Root :=
  (.iatom r.atoms.length, { r with atoms := r.atoms ++ [⟨mug, len, byt⟩] })

/-- `_cons_unsafe`. -/
def consUnsafe (r : Root) (mug : UInt32) (hed tal : Nref) : Nref × Root :=
  (.icell r.cells.length, { r with cells := r.cells ++ [⟨mug, hed, tal⟩] })

/-- `ur_coin_bytes_unsafe`: finds or adds an atom. -/
def coinBytesUnsafe (room : ℕ) (r : Root) (byt : List UInt8) : Option (Nref × Root) :=
  let mug := mugBytes byt
  let (tom, r') := coinUnsafe r mug byt.length byt
  (dictIntern (keyMug r) room mug.toNat (fun tom => bytes r tom = byt) tom () room r.atomsDict).map
    fun
    | (atomsDict, some tom) => (tom, { r with atomsDict })
    | (atomsDict, none) => (tom, { r' with atomsDict })

/-- `ur_cons`: finds or adds a cell. -/
def cons (room : ℕ) (r : Root) (hed tal : Nref) : Option (Nref × Root) :=
  let mug := mugBoth (nrefMug r hed) (nrefMug r tal)
  let (cel, r') := consUnsafe r mug hed tal
  (dictIntern (keyMug r) room mug.toNat (fun cel => hed = head r cel ∧ tal = tail r cel) cel () room
    r.cellsDict).map
    fun
    | (cellsDict, some cel) => (cel, { r with cellsDict })
    | (cellsDict, none) => (cel, { r' with cellsDict })

/-- The size of a dictionary, or of a stack, when it is made. -/
def fib10 : ℕ := 55

def fib11 : ℕ := 89

def fib12 : ℕ := 144

/-- `ur_root_init`. -/
def rootInit (room : ℕ) : Option Root :=
  (dictGrow (fun _ => 0) (Dict.nil : Dict Nref Unit) room fib11 fib12).map fun dict => ⟨[], dict, [], dict⟩

/-- The sizes of a stack that has grown. The size has 32 bits: when it wraps
around, the stack shrinks, and what is pushed is written past its end. -/
def stackGrow (prev size : ℕ) : Option (ℕ × ℕ) :=
  if prev + size < 2 ^ 32 then some (size, prev + size) else none

/-- The state of `ur_walk_fore_with`: the nouns to visit, the current one first,
and the state of its callbacks. -/
structure Walk (σ : Type) where
  prev : ℕ
  size : ℕ
  top : List Nref
  v : σ

/-- One turn of the loop of `ur_walk_fore_with`. -/
def walkTurn {σ : Type} (r : Root) (atom : Nref → σ → Option σ) (cell : Nref → σ → Option (Bool × σ))
    (w : Walk σ) : Option (Walk σ) :=
  match w.top with
  | [] => some w
  | ref :: rest =>
    if !deep ref then (atom ref w.v).map fun v => { w with top := rest, v }
    else
      (cell ref w.v).bind fun
      | (false, v) => some { w with top := rest, v }
      | (true, v) =>
        -- the tail takes the place of the cell, and the head comes on top
        let top := head r ref :: tail r ref :: rest
        if w.size = top.length then
          (stackGrow w.prev w.size).map fun (prev, size) => ⟨prev, size, top, v⟩
        else some { w with top, v }

def Walk.done {σ : Type} (w : Walk σ) : Bool := w.top.isEmpty

/-! ### The noun of a reference -/

variable {r r' : Root}

/-- The reference denotes the noun. -/
inductive Den (r : Root) : Nref → Noun → Prop where
  | direct {n : ℕ} : met0 n ≤ 62 → Den r (.direct n) (.atom n)
  | iatom {i a : ℕ} {t : Tom} : r.atoms[i]? = some t → t.bytes = atomBytes a → 62 < met0 a →
      Den r (.iatom i) (.atom a)
  | icell {i : ℕ} {c : Cel} {x y : Noun} : r.cells[i]? = some c → Den r c.head x → Den r c.tail y →
      Den r (.icell i) (.cell x y)

/-- The atoms that the arena keeps. -/
def Root.Atom (r : Root) (x : Noun) : Prop := ∃ i, Den r (.iatom i) x

/-- The cells that the arena keeps. -/
def Root.Cell (r : Root) (x : Noun) : Prop := ∃ i, Den r (.icell i) x

/-- The arena's invariant: what it keeps has its mug, is kept once, and is in
the dictionary. -/
structure Root.Ok (r : Root) : Prop where
  tom : ∀ (i : ℕ) (t : Tom), r.atoms[i]? = some t →
    ∃ a, 62 < met0 a ∧ t = ⟨mugBytes (atomBytes a), (atomBytes a).length, atomBytes a⟩
  tom_inj : ∀ (i j : ℕ) (t : Tom), r.atoms[i]? = some t → r.atoms[j]? = some t → i = j
  toms : r.atomsDict.Ok (keyMug r)
  has_tom : ∀ k, r.atomsDict.Has k ↔ ∃ i, i < r.atoms.length ∧ k = .iatom i
  cel : ∀ (i : ℕ) (c : Cel), r.cells[i]? = some c →
    ∃ x y, Den r c.head x ∧ Den r c.tail y ∧ c.mug = (Noun.cell x y).mug
  cel_inj : ∀ (i j : ℕ) (c c' : Cel), r.cells[i]? = some c → r.cells[j]? = some c' → c.head = c'.head →
    c.tail = c'.tail → i = j
  cels : r.cellsDict.Ok (keyMug r)
  has_cel : ∀ k, r.cellsDict.Has k ↔ ∃ i, i < r.cells.length ∧ k = .icell i

theorem bitAt_atomBytes (a i : ℕ) : bitAt (atomBytes a) i = a.testBit i := by
  have hlen : (atomBytes a).length = met3 a := by simp [atomBytes]
  rcases Nat.lt_or_ge (i / 8) (met3 a) with h | h
  · rw [bitAt, List.getD_eq_getElem _ _ (by rwa [hlen])]
    simp only [atomBytes, List.getElem_map, List.getElem_range]
    rw [testBit_ofNat, Nat.testBit_shiftRight, decide_eq_true (by omega), Bool.true_and]
    congr 1; omega
  · rw [bitAt_of_le (by rw [hlen]; omega)]
    symm
    refine testBit_of_met0_le ?_
    rw [met0]
    rw [met3] at h
    split
    · omega
    · rename_i h0
      rw [if_neg h0] at h
      omega

theorem atomBytes_inj {a b : ℕ} (h : atomBytes a = atomBytes b) : a = b :=
  Nat.eq_of_testBit_eq fun i => by rw [← bitAt_atomBytes, h, bitAt_atomBytes]

theorem length_atomBytes (a : ℕ) : (atomBytes a).length = (met0 a + 7) / 8 := by
  rw [atomBytes, List.length_map, List.length_range, met3, met0]
  split <;> omega

/-- A reference denotes one noun. -/
theorem Den.func {k : Nref} {x : Noun} (h : Den r k x) : ∀ {y}, Den r k y → x = y := by
  induction h with
  | direct => rintro _ ⟨⟩; rfl
  | iatom h1 h2 _ =>
    intro y hy
    cases hy with
    | iatom h3 h4 _ =>
      rw [h1] at h3
      cases h3
      rw [h2] at h4
      rw [atomBytes_inj h4]
  | icell h1 _ _ ih1 ih2 =>
    intro y hy
    cases hy with
    | icell h3 h4 h5 =>
      rw [h1] at h3
      cases h3
      rw [ih1 h4, ih2 h5]

/-- What is kept of an atom is told by the atom. -/
theorem Root.Ok.tom_eq (hr : r.Ok) {i a : ℕ} {t : Tom} (h : r.atoms[i]? = some t)
    (ht : t.bytes = atomBytes a) : t = ⟨mugBytes (atomBytes a), (atomBytes a).length, atomBytes a⟩ := by
  obtain ⟨b, -, hb⟩ := hr.tom i t h
  have hab : atomBytes b = atomBytes a := by rw [← ht, hb]
  rw [hb, hab]

/-- **A noun has one reference.** -/
theorem Den.inj (hr : r.Ok) {k : Nref} {x : Noun} (h : Den r k x) : ∀ {k'}, Den r k' x → k = k' := by
  induction h with
  | direct hn =>
    intro k' hk'
    cases hk' with
    | direct => rfl
    | iatom _ _ h => omega
  | iatom h1 h2 h3 =>
    intro k' hk'
    cases hk' with
    | direct h => omega
    | iatom h4 h5 _ =>
      rw [hr.tom_eq h1 h2] at h1
      rw [hr.tom_eq h4 h5] at h4
      exact congrArg Nref.iatom (hr.tom_inj _ _ _ h1 h4)
  | icell h1 _ _ ih1 ih2 =>
    intro k' hk'
    cases hk' with
    | icell h3 h4 h5 => rw [hr.cel_inj _ _ _ _ h1 h3 (ih1 h4) (ih2 h5)]

/-- The mug that is kept is that of the noun. -/
theorem Den.mug (hr : r.Ok) {k : Nref} {x : Noun} (h : Den r k x) : nrefMug r k = x.mug := by
  cases h with
  | direct => rw [nrefMug, mug64, Noun.mug]
  | iatom h1 h2 _ =>
    rw [nrefMug, h1, hr.tom_eq h1 h2, Option.map_some, Option.getD_some, Noun.mug]
  | icell h1 h2 h3 =>
    obtain ⟨x', y', h4, h5, h6⟩ := hr.cel _ _ h1
    rw [nrefMug, h1, Option.map_some, Option.getD_some, h6, h2.func h4, h3.func h5]

theorem keyMug_lt (hr : r.Ok) (k : Nref) : keyMug r k < 2 ^ 31 := by
  cases k with
  | direct n => rw [keyMug, nrefMug, mug64, ← Noun.mug]; exact mug_lt _
  | iatom i =>
    rw [keyMug, nrefMug]
    cases h : r.atoms[i]? with
    | none => decide
    | some t =>
      obtain ⟨a, -, rfl⟩ := hr.tom _ _ h
      rw [Option.map_some, Option.getD_some, ← Noun.mug]
      exact mug_lt _
  | icell i =>
    rw [keyMug, nrefMug]
    cases h : r.cells[i]? with
    | none => decide
    | some c =>
      obtain ⟨x, y, -, -, hm⟩ := hr.cel _ _ h
      rw [Option.map_some, Option.getD_some, hm]
      exact mug_lt _

/-- Every kept atom is denoted. -/
theorem Root.Ok.den_iatom (hr : r.Ok) {i : ℕ} (h : i < r.atoms.length) :
    ∃ x, Den r (.iatom i) x := by
  obtain ⟨a, ha, ht⟩ := hr.tom i _ (List.getElem?_eq_getElem h)
  exact ⟨.atom a, .iatom (List.getElem?_eq_getElem h) (by rw [ht]) ha⟩

theorem Root.Ok.den_icell (hr : r.Ok) {i : ℕ} (h : i < r.cells.length) :
    ∃ x, Den r (.icell i) x := by
  obtain ⟨x, y, hx, hy, -⟩ := hr.cel i _ (List.getElem?_eq_getElem h)
  exact ⟨.cell x y, .icell (List.getElem?_eq_getElem h) hx hy⟩

theorem deep_cell {x y : Noun} {k : Nref} (h : Den r k (.cell x y)) :
    deep k = true ∧ Den r (head r k) x ∧ Den r (tail r k) y := by
  cases h with
  | icell h1 h2 h3 =>
    refine ⟨rfl, ?_, ?_⟩
    · rwa [head, h1]
    · rwa [tail, h1]

theorem deep_atom {a : ℕ} {k : Nref} (h : Den r k (.atom a)) : deep k = false := by
  cases h <;> rfl

theorem met0Bytes_atomBytes {a : ℕ} (ha : a ≠ 0) :
    met0Bytes (atomBytes a).length (atomBytes a) = met0 a := by
  have hlen := length_atomBytes a
  have hpos := met0_pos ha
  have h8 : (atomBytes a).length ≠ 0 := by rw [hlen]; omega
  set last := (atomBytes a).length - 1 with hlast
  have hbyte : ((atomBytes a).getD last 0).toNat = a >>> (8 * last) := by
    refine Nat.eq_of_testBit_eq fun k => ?_
    rw [Nat.testBit_shiftRight]
    by_cases hk : k < 8
    · rw [testBit_getD _ hk, bitAt_atomBytes]
    · rw [testBit_byte (by omega), testBit_of_met0_le (by omega)]
  have hle : ∀ n, met0 (a >>> (8 * last)) ≤ n ↔ met0 a ≤ 8 * last + n := by
    intro n
    rw [met0_le_iff, met0_le_iff, Nat.shiftRight_eq_div_pow, Nat.div_lt_iff_lt_mul (Nat.two_pow_pos _),
      ← Nat.pow_add, Nat.add_comm n]
  have h1 := (hle (met0 (a >>> (8 * last)))).mp (Nat.le_refl _)
  have h2 := (hle (met0 a - 8 * last)).mpr (by omega)
  rw [met0Bytes, ← hlast, hbyte, Nat.shiftLeft_eq]
  omega

/-- `ur_met` measures the atom. -/
theorem met_atom (hr : r.Ok) {a : ℕ} {k : Nref} (h : Den r k (.atom a)) : met r k = met0 a := by
  cases h with
  | direct => rfl
  | iatom h1 h2 h3 =>
    have ha : a ≠ 0 := by
      rintro rfl
      exact absurd h3 (by decide)
    rw [met, h1, hr.tom_eq h1 h2, Option.map_some, Option.getD_some, met0Bytes_atomBytes ha]

/-! ### Adding to the arena -/

/-- What one arena keeps another keeps too, at the same place. -/
structure Root.Le (r r' : Root) : Prop where
  atoms : ∀ (i : ℕ) (t : Tom), r.atoms[i]? = some t → r'.atoms[i]? = some t
  cells : ∀ (i : ℕ) (c : Cel), r.cells[i]? = some c → r'.cells[i]? = some c

theorem Root.Le.refl (r : Root) : Root.Le r r := ⟨fun _ _ => id, fun _ _ => id⟩

theorem Root.Le.trans {r'' : Root} (h : Root.Le r r') (h' : Root.Le r' r'') : Root.Le r r'' :=
  ⟨fun i t ht => h'.atoms i t (h.atoms i t ht), fun i c hc => h'.cells i c (h.cells i c hc)⟩

theorem Den.mono (h : Root.Le r r') {k : Nref} {x : Noun} (hd : Den r k x) : Den r' k x := by
  induction hd with
  | direct hn => exact .direct hn
  | iatom h1 h2 h3 => exact .iatom (h.atoms _ _ h1) h2 h3
  | icell h1 _ _ ih1 ih2 => exact .icell (h.cells _ _ h1) ih1 ih2

theorem keyMug_mono (h : Root.Le r r') {k : Nref} {x : Noun} (hd : Den r k x) :
    keyMug r' k = keyMug r k := by
  cases hd with
  | direct => rfl
  | iatom h1 => rw [keyMug, keyMug, nrefMug, nrefMug, h1, h.atoms _ _ h1]
  | icell h1 => rw [keyMug, keyMug, nrefMug, nrefMug, h1, h.cells _ _ h1]

/-- The keys of the dictionaries are denoted. -/
theorem Root.Ok.den_tom (hr : r.Ok) {k : Nref} (h : r.atomsDict.Has k) : ∃ x, Den r k x := by
  obtain ⟨i, hi, rfl⟩ := (hr.has_tom k).mp h
  exact hr.den_iatom hi

theorem Root.Ok.den_cel (hr : r.Ok) {k : Nref} (h : r.cellsDict.Has k) : ∃ x, Den r k x := by
  obtain ⟨i, hi, rfl⟩ := (hr.has_cel k).mp h
  exact hr.den_icell hi

theorem bytes_iatom (hr : r.Ok) {i a : ℕ} (h : i < r.atoms.length)
    (hb : bytes r (.iatom i) = atomBytes a) : Den r (.iatom i) (.atom a) := by
  obtain ⟨b, hlt, ht⟩ := hr.tom i _ (List.getElem?_eq_getElem h)
  rw [bytes, List.getElem?_eq_getElem h, Option.map_some, Option.getD_some, ht] at hb
  rw [← atomBytes_inj hb]
  exact .iatom (List.getElem?_eq_getElem h) (by rw [ht]) hlt

theorem getElem?_push {α : Type} {l : List α} {a b : α} {i : ℕ} :
    (l ++ [a])[i]? = some b ↔ l[i]? = some b ∨ i = l.length ∧ b = a := by
  rcases Nat.lt_trichotomy i l.length with h | h | h
  · rw [List.getElem?_append_left h]
    exact ⟨.inl, fun h' => h'.resolve_right fun hn => by omega⟩
  · rw [h, List.getElem?_concat_length, List.getElem?_eq_none (Nat.le_refl _)]
    constructor
    · rintro ⟨⟩; exact .inr ⟨rfl, rfl⟩
    · rintro (h' | ⟨-, rfl⟩)
      · cases h'
      · rfl
  · rw [List.getElem?_eq_none (by rw [List.length_append, List.length_singleton]; omega),
      List.getElem?_eq_none (by omega)]
    constructor
    · rintro ⟨⟩
    · rintro (h' | ⟨hn, -⟩)
      · cases h'
      · omega

theorem le_coinUnsafe (r : Root) (mug : UInt32) (len : ℕ) (byt : List UInt8) (dict : Dict Nref Unit) :
    Root.Le r { (coinUnsafe r mug len byt).2 with atomsDict := dict } :=
  ⟨fun _ _ h => getElem?_push.mpr (.inl h), fun _ _ => id⟩

theorem le_consUnsafe (r : Root) (mug : UInt32) (hed tal : Nref) (dict : Dict Nref Unit) :
    Root.Le r { (consUnsafe r mug hed tal).2 with cellsDict := dict } :=
  ⟨fun _ _ => id, fun _ _ h => getElem?_push.mpr (.inl h)⟩

/-- The arena with one more atom. -/
theorem Root.Ok.add_atom (hr : r.Ok) {a : ℕ} (ha : 62 < met0 a) (hnew : ¬ r.Atom (.atom a))
    {dict : Dict Nref Unit}
    (hd : dict.Ok (keyMug { (coinUnsafe r (mugBytes (atomBytes a)) (atomBytes a).length
      (atomBytes a)).2 with atomsDict := dict }))
    (hh : ∀ k, dict.Has k ↔ r.atomsDict.Has k ∨ k = .iatom r.atoms.length) :
    Root.Ok { (coinUnsafe r (mugBytes (atomBytes a)) (atomBytes a).length
      (atomBytes a)).2 with atomsDict := dict } := by
  have hle := le_coinUnsafe r (mugBytes (atomBytes a)) (atomBytes a).length (atomBytes a) dict
  have hold : ∀ (i : ℕ) (t : Tom), r.atoms[i]? = some t → t.bytes ≠ atomBytes a :=
    fun i t hi hb => hnew ⟨i, .iatom hi hb ha⟩
  refine ⟨fun i t ht => ?_, fun i j t hi hj => ?_, hd, fun k => ?_, fun i c hc => ?_, hr.cel_inj, ?_,
    hr.has_cel⟩
  · rcases getElem?_push.mp ht with h | ⟨-, rfl⟩
    · exact hr.tom i t h
    · exact ⟨a, ha, rfl⟩
  · rcases getElem?_push.mp hi with h | ⟨h, ht⟩ <;> rcases getElem?_push.mp hj with h' | ⟨h', ht'⟩
    · exact hr.tom_inj i j t h h'
    · exact absurd (congrArg Tom.bytes ht') (hold i t h)
    · exact absurd (congrArg Tom.bytes ht) (hold j t h')
    · exact h.trans h'.symm
  · rw [hh, hr.has_tom, coinUnsafe, List.length_append, List.length_singleton]
    constructor
    · rintro (⟨i, hi, rfl⟩ | rfl)
      · exact ⟨i, by omega, rfl⟩
      · exact ⟨_, Nat.lt_succ_self _, rfl⟩
    · rintro ⟨i, hi, rfl⟩
      rcases Nat.lt_or_eq_of_le (Nat.le_of_lt_succ hi) with h | rfl
      · exact .inl ⟨i, h, rfl⟩
      · exact .inr rfl
  · obtain ⟨x, y, hx, hy, hm⟩ := hr.cel i c hc
    exact ⟨x, y, hx.mono hle, hy.mono hle, hm⟩
  · exact hr.cels.congr fun k hk => keyMug_mono hle (hr.den_cel hk).choose_spec

/-- The arena with one more cell. -/
theorem Root.Ok.add_cell (hr : r.Ok) {hed tal : Nref} {x y : Noun} (hx : Den r hed x)
    (hy : Den r tal y) (hnew : ¬ r.Cell (.cell x y)) {dict : Dict Nref Unit}
    (hd : dict.Ok (keyMug { (consUnsafe r (Noun.cell x y).mug hed tal).2 with cellsDict := dict }))
    (hh : ∀ k, dict.Has k ↔ r.cellsDict.Has k ∨ k = .icell r.cells.length) :
    Root.Ok { (consUnsafe r (Noun.cell x y).mug hed tal).2 with cellsDict := dict } := by
  have hle := le_consUnsafe r (Noun.cell x y).mug hed tal dict
  have hold : ∀ (i : ℕ) (c : Cel), r.cells[i]? = some c → c.head = hed → c.tail ≠ tal :=
    fun i c hc h1 h2 => hnew ⟨i, .icell hc (h1 ▸ hx) (h2 ▸ hy)⟩
  refine ⟨hr.tom, hr.tom_inj, ?_, hr.has_tom, fun i c hc => ?_,
    fun i j c c' hi hj h1 h2 => ?_, hd, fun k => ?_⟩
  · exact hr.toms.congr fun k hk => keyMug_mono hle (hr.den_tom hk).choose_spec
  · rcases getElem?_push.mp hc with h | ⟨-, rfl⟩
    · obtain ⟨x', y', hx', hy', hm⟩ := hr.cel i c h
      exact ⟨x', y', hx'.mono hle, hy'.mono hle, hm⟩
    · exact ⟨x, y, hx.mono hle, hy.mono hle, rfl⟩
  · rcases getElem?_push.mp hi with h | ⟨h, rfl⟩ <;> rcases getElem?_push.mp hj with h' | ⟨h', rfl⟩
    · exact hr.cel_inj i j c c' h h' h1 h2
    · exact absurd h2 (hold i c h h1)
    · exact absurd h2.symm (hold j c' h' h1.symm)
    · exact h.trans h'.symm
  · rw [hh, hr.has_cel, consUnsafe, List.length_append, List.length_singleton]
    constructor
    · rintro (⟨i, hi, rfl⟩ | rfl)
      · exact ⟨i, by omega, rfl⟩
      · exact ⟨_, Nat.lt_succ_self _, rfl⟩
    · rintro ⟨i, hi, rfl⟩
      rcases Nat.lt_or_eq_of_le (Nat.le_of_lt_succ hi) with h | rfl
      · exact .inl ⟨i, h, rfl⟩
      · exact .inr rfl

/-- The arena depends on its dictionaries only for their entries. -/
theorem Root.Ok.dicts (hr : r.Ok) {d d' : Dict Nref Unit} (h : d.Ok (keyMug r))
    (hh : ∀ k, d.Has k ↔ r.atomsDict.Has k) (h' : d'.Ok (keyMug r))
    (hh' : ∀ k, d'.Has k ↔ r.cellsDict.Has k) : Root.Ok ⟨r.atoms, d, r.cells, d'⟩ := by
  have hle : Root.Le r ⟨r.atoms, d, r.cells, d'⟩ := ⟨fun _ _ => id, fun _ _ => id⟩
  refine ⟨hr.tom, hr.tom_inj, h, fun k => (hh k).trans (hr.has_tom k), fun i c hc => ?_, hr.cel_inj, h',
    fun k => (hh' k).trans (hr.has_cel k)⟩
  obtain ⟨x, y, hx, hy, hm⟩ := hr.cel i c hc
  exact ⟨x, y, hx.mono hle, hy.mono hle, hm⟩

/-- What the arena keeps after a coin or a cons. -/
structure Adds (r r' : Root) (k : Nref) (x : Noun) : Prop where
  ok : r'.Ok
  den : Den r' k x
  le : Root.Le r r'

/-- Kept atoms of a larger arena that are not new are kept in the smaller one. -/
theorem atom_iff (h : Root.Le r r') {a : ℕ} (hl : Den r' (.iatom r.atoms.length) (.atom a) ∨ r.Atom (.atom a))
    (hn : ∀ i t, r'.atoms[i]? = some t → r.atoms[i]? = some t ∨ i = r.atoms.length ∧ t.bytes = atomBytes a)
    (x : Noun) : r'.Atom x ↔ r.Atom x ∨ x = .atom a := by
  constructor
  · rintro ⟨i, hi⟩
    cases hi with
    | iatom h1 h2 h3 =>
      rcases hn _ _ h1 with h4 | ⟨-, h4⟩
      · exact .inl ⟨i, .iatom h4 h2 h3⟩
      · exact .inr (by rw [atomBytes_inj (h2.symm.trans h4)])
  · rintro (⟨i, hi⟩ | rfl)
    · exact ⟨i, hi.mono h⟩
    · rcases hl with hl | ⟨i, hi⟩
      · exact ⟨_, hl⟩
      · exact ⟨i, hi.mono h⟩

/-- **A coin denotes the atom**, and adds nothing else to the arena. -/
theorem coinBytesUnsafe_spec (hr : r.Ok) {room a : ℕ} (ha : 62 < met0 a) {k : Nref}
    (hs : coinBytesUnsafe room r (atomBytes a) = some (k, r')) :
    Adds r r' k (.atom a) ∧ (∀ x, r'.Atom x ↔ r.Atom x ∨ x = .atom a) ∧ r'.cells = r.cells := by
  simp only [coinBytesUnsafe, Option.map_eq_some_iff] at hs
  obtain ⟨⟨dict, res⟩, hi, hs⟩ := hs
  obtain ⟨d1, h1, h2, h3⟩ := dictIntern_spec hr.toms hi
  have hhas := has_of_mem h2
  rcases h3 with ⟨e, he, hsame, rfl, rfl⟩ | ⟨hno, rfl, hfull, rfl⟩
  · cases hs
    obtain ⟨i, hlt, hei⟩ := (hr.has_tom e.1).mp ((hhas e.1).mp ⟨_, e, he, rfl⟩)
    have hden : Den r (.iatom i) (.atom a) := bytes_iatom hr hlt (by rw [← hei]; simpa using hsame)
    have hle : Root.Le r ⟨r.atoms, dict, r.cells, r.cellsDict⟩ := ⟨fun _ _ => id, fun _ _ => id⟩
    exact ⟨⟨hr.dicts h1 hhas hr.cels fun _ => .rfl, hei ▸ hden.mono hle, hle⟩,
      atom_iff hle (.inr ⟨i, hden⟩) fun _ _ => .inl, rfl⟩
  · cases hs
    have hmug : ∀ i, Den r (.iatom i) (.atom a) → keyMug r (.iatom i) = (mugBytes (atomBytes a)).toNat :=
      fun i hi => by rw [keyMug, hi.mug hr, Noun.mug]
    have hnew : ¬ r.Atom (.atom a) := by
      rintro ⟨i, hi⟩
      have hroute := hmug i hi
      cases hi with
      | iatom h hb _ =>
        obtain ⟨j, e, he, hei⟩ := (hhas (.iatom i)).mpr
          ((hr.has_tom _).mpr ⟨i, (List.getElem?_eq_some_iff.mp h).1, rfl⟩)
        have hj := h1.pails.routed j e he
        rw [hei, hroute] at hj
        rw [← hj] at he
        refine hno e he ?_
        simp [hei, bytes, h, hb]
    have hfresh : ¬ d1.Has (.iatom r.atoms.length) := by
      intro hk
      obtain ⟨i, hlt, hk⟩ := (hr.has_tom _).mp ((hhas _).mp hk)
      cases hk
      exact Nat.lt_irrefl _ hlt
    set dict : Dict Nref Unit := ⟨d1.prev, d1.size, Function.update d1.pails
      ((mugBytes (atomBytes a)).toNat % d1.size) (d1.pails ((mugBytes (atomBytes a)).toNat % d1.size) ++
        [(.iatom r.atoms.length, ())])⟩ with hdict
    have hle := le_coinUnsafe r (mugBytes (atomBytes a)) (atomBytes a).length (atomBytes a) dict
    set r1 : Root := { (coinUnsafe r (mugBytes (atomBytes a)) (atomBytes a).length
      (atomBytes a)).2 with atomsDict := dict } with hr1
    have hat : r1.atoms[r.atoms.length]? =
        some ⟨mugBytes (atomBytes a), (atomBytes a).length, atomBytes a⟩ :=
      getElem?_push.mpr (.inr ⟨rfl, rfl⟩)
    obtain ⟨h4, h5⟩ := intern_fresh h1 (keyMug r1) ()
      (fun k hk => keyMug_mono hle (hr.den_tom ((hhas k).mp hk)).choose_spec)
      (by rw [keyMug, nrefMug, hat, Option.map_some, Option.getD_some]) hfresh hfull
    have hok : r1.Ok := hr.add_atom ha hnew h4 fun k => (h5 k).trans (or_congr (hhas k) .rfl)
    have hden : Den r1 (.iatom r.atoms.length) (.atom a) := .iatom hat rfl ha
    refine ⟨⟨hok, hden, hle⟩, atom_iff hle (.inl hden) fun i t ht => ?_, rfl⟩
    exact (getElem?_push.mp ht).imp id fun h => ⟨h.1, congrArg Tom.bytes h.2⟩

/-- Kept cells of a larger arena that are not new are kept in the smaller one. -/
theorem cell_iff (hr : r.Ok) (h : Root.Le r r') {hed tal : Nref} {x y : Noun} (hx : Den r hed x)
    (hy : Den r tal y)
    (hl : Den r' (.icell r.cells.length) (.cell x y) ∨ r.Cell (.cell x y))
    (hn : ∀ i c, r'.cells[i]? = some c →
      r.cells[i]? = some c ∨ i = r.cells.length ∧ c.head = hed ∧ c.tail = tal)
    (z : Noun) : r'.Cell z ↔ r.Cell z ∨ z = .cell x y := by
  constructor
  · rintro ⟨i, hi⟩
    cases hi with
    | icell h1 h2 h3 =>
      rcases hn _ _ h1 with h4 | ⟨-, rfl, rfl⟩
      · obtain ⟨x', y', h5, h6, -⟩ := hr.cel _ _ h4
        rw [h2.func (h5.mono h), h3.func (h6.mono h)]
        exact .inl ⟨i, .icell h4 h5 h6⟩
      · exact .inr (by rw [h2.func (hx.mono h), h3.func (hy.mono h)])
  · rintro (⟨i, hi⟩ | rfl)
    · exact ⟨i, hi.mono h⟩
    · rcases hl with hl | ⟨i, hi⟩
      · exact ⟨_, hl⟩
      · exact ⟨i, hi.mono h⟩

theorem cell_of_cells (hr : r.Ok) (h : Root.Le r r') (hc : r'.cells = r.cells) (z : Noun) :
    r'.Cell z ↔ r.Cell z := by
  constructor
  · rintro ⟨i, hi⟩
    cases hi with
    | icell h1 h2 h3 =>
      rw [hc] at h1
      obtain ⟨x', y', h5, h6, -⟩ := hr.cel _ _ h1
      rw [h2.func (h5.mono h), h3.func (h6.mono h)]
      exact ⟨i, .icell h1 h5 h6⟩
  · rintro ⟨i, hi⟩
    exact ⟨i, hi.mono h⟩

theorem atom_of_atoms (h : Root.Le r r') (hc : r'.atoms = r.atoms) (z : Noun) :
    r'.Atom z ↔ r.Atom z := by
  constructor
  · rintro ⟨i, hi⟩
    cases hi with
    | iatom h1 h2 h3 => exact ⟨i, .iatom (hc ▸ h1) h2 h3⟩
  · rintro ⟨i, hi⟩
    exact ⟨i, hi.mono h⟩

/-- **A cons denotes the cell**, and adds nothing else to the arena. -/
theorem cons_spec (hr : r.Ok) {room : ℕ} {hed tal k : Nref} {x y : Noun} (hx : Den r hed x)
    (hy : Den r tal y) (hs : cons room r hed tal = some (k, r')) :
    Adds r r' k (.cell x y) ∧ (∀ z, r'.Cell z ↔ r.Cell z ∨ z = .cell x y) ∧ r'.atoms = r.atoms := by
  have hm : mugBoth (nrefMug r hed) (nrefMug r tal) = (Noun.cell x y).mug := by
    rw [hx.mug hr, hy.mug hr, Noun.mug]
  simp only [cons, Option.map_eq_some_iff, hm] at hs
  obtain ⟨⟨dict, res⟩, hi, hs⟩ := hs
  obtain ⟨d1, h1, h2, h3⟩ := dictIntern_spec hr.cels hi
  have hhas := has_of_mem h2
  rcases h3 with ⟨e, he, hsame, rfl, rfl⟩ | ⟨hno, rfl, hfull, rfl⟩
  · cases hs
    obtain ⟨i, hlt, hei⟩ := (hr.has_cel e.1).mp ((hhas e.1).mp ⟨_, e, he, rfl⟩)
    have hat := List.getElem?_eq_getElem hlt
    have hden : Den r (.icell i) (.cell x y) := by
      simp only [hei, head, tail, hat, Option.map_some, Option.getD_some, decide_eq_true_eq] at hsame
      exact .icell hat (hsame.1 ▸ hx) (hsame.2 ▸ hy)
    have hle : Root.Le r ⟨r.atoms, r.atomsDict, r.cells, dict⟩ := ⟨fun _ _ => id, fun _ _ => id⟩
    exact ⟨⟨hr.dicts hr.toms (fun _ => .rfl) h1 hhas, hei ▸ hden.mono hle, hle⟩,
      cell_iff hr hle hx hy (.inr ⟨i, hden⟩) fun _ _ => .inl, rfl⟩
  · cases hs
    have hnew : ¬ r.Cell (.cell x y) := by
      rintro ⟨i, hi⟩
      have hroute : keyMug r (.icell i) = (Noun.cell x y).mug.toNat := by rw [keyMug, hi.mug hr]
      cases hi with
      | icell h hx' hy' =>
        obtain ⟨j, e, he, hei⟩ := (hhas (.icell i)).mpr
          ((hr.has_cel _).mpr ⟨i, (List.getElem?_eq_some_iff.mp h).1, rfl⟩)
        have hj := h1.pails.routed j e he
        rw [hei, hroute] at hj
        rw [← hj] at he
        refine hno e he ?_
        simp [hei, head, tail, h, hx.inj hr hx', hy.inj hr hy']
    have hfresh : ¬ d1.Has (.icell r.cells.length) := by
      intro hk
      obtain ⟨i, hlt, hk⟩ := (hr.has_cel _).mp ((hhas _).mp hk)
      cases hk
      exact Nat.lt_irrefl _ hlt
    set dict : Dict Nref Unit := ⟨d1.prev, d1.size, Function.update d1.pails
      ((Noun.cell x y).mug.toNat % d1.size) (d1.pails ((Noun.cell x y).mug.toNat % d1.size) ++
        [(.icell r.cells.length, ())])⟩ with hdict
    have hle := le_consUnsafe r (Noun.cell x y).mug hed tal dict
    set r1 : Root := { (consUnsafe r (Noun.cell x y).mug hed tal).2 with cellsDict := dict } with hr1
    have hat : r1.cells[r.cells.length]? = some ⟨(Noun.cell x y).mug, hed, tal⟩ :=
      getElem?_push.mpr (.inr ⟨rfl, rfl⟩)
    obtain ⟨h4, h5⟩ := intern_fresh h1 (keyMug r1) ()
      (fun k hk => keyMug_mono hle (hr.den_cel ((hhas k).mp hk)).choose_spec)
      (by rw [keyMug, nrefMug, hat, Option.map_some, Option.getD_some]) hfresh hfull
    have hok : r1.Ok := hr.add_cell hx hy hnew h4 fun k => (h5 k).trans (or_congr (hhas k) .rfl)
    have hden : Den r1 (.icell r.cells.length) (.cell x y) := .icell hat (hx.mono hle) (hy.mono hle)
    refine ⟨⟨hok, hden, hle⟩, cell_iff hr hle hx hy (.inl hden) fun i c hc => ?_, rfl⟩
    exact (getElem?_push.mp hc).imp id fun h => ⟨h.1, congrArg Cel.head h.2, congrArg Cel.tail h.2⟩

/-! ### When an arena takes a noun -/

/-- The mug of a noun as a number. -/
def nounMug (x : Noun) : ℕ := x.mug.toNat

theorem Den.nounMug (hr : r.Ok) {k : Nref} {x : Noun} (h : Den r k x) : nounMug x = keyMug r k := by
  rw [keyMug, h.mug hr, Hashcons.nounMug]

/-- An arena whose dictionary takes a fresh key for a noun, if the mugs of its
nouns and this one are not crowded. -/
theorem uncrowded_fresh (hr : r.Ok) {mug' : Nref → ℕ} {P : Nref → Prop} {Q : Noun → Prop} {fresh : Nref}
    {x : Noun} (hold : ∀ k, P k → mug' k = keyMug r k ∧ ∃ y, Den r k y ∧ Q y) (hm : mug' fresh = nounMug x)
    {R : Nref → Prop} (hR : ∀ k, R k → ∀ k', P k' → ¬ Den r k' x)
    (hu : Uncrowded nounMug fun y => Q y ∨ y = x) :
    Uncrowded mug' fun k => P k ∨ k = fresh ∧ R k := by
  refine hu.of_rel (fun k y => P k ∧ Den r k y ∨ k = fresh ∧ R k ∧ y = x) (fun k hk => ?_)
    fun k k' y hk hk' => ?_
  · rcases hk with hk | ⟨rfl, hk⟩
    · obtain ⟨h1, y, h2, h3⟩ := hold k hk
      exact ⟨y, .inl ⟨hk, h2⟩, .inl h3, by rw [h1, h2.nounMug hr]⟩
    · exact ⟨x, .inr ⟨rfl, hk, rfl⟩, .inr rfl, hm.symm⟩
  · rcases hk with ⟨h1, h2⟩ | ⟨rfl, h1, rfl⟩ <;> rcases hk' with ⟨h3, h4⟩ | ⟨rfl, h3, h4⟩
    · exact h2.inj hr h4
    · exact absurd (h4 ▸ h2) (hR _ h3 _ h1)
    · exact absurd h4 (hR _ h1 _ h3)
    · rfl

/-- **A coin returns if no more than ten atoms share a mug.** -/
theorem coinBytesUnsafe_isSome (hr : r.Ok) {room a : ℕ} (hroom : 63 ≤ room)
    (hu : Uncrowded nounMug fun x => r.Atom x ∨ x = .atom a) :
    (coinBytesUnsafe room r (atomBytes a)).isSome := by
  obtain ⟨n, rfl⟩ : ∃ n, room = n + 1 := ⟨room - 1, by omega⟩
  have hle := le_coinUnsafe r (mugBytes (atomBytes a)) (atomBytes a).length (atomBytes a) r.atomsDict
  set r1 : Root := { (coinUnsafe r (mugBytes (atomBytes a)) (atomBytes a).length
    (atomBytes a)).2 with atomsDict := r.atomsDict } with hr1
  have hat : r1.atoms[r.atoms.length]? =
      some ⟨mugBytes (atomBytes a), (atomBytes a).length, atomBytes a⟩ :=
    getElem?_push.mpr (.inr ⟨rfl, rfl⟩)
  have hm : keyMug r1 (.iatom r.atoms.length) = (mugBytes (atomBytes a)).toNat := by
    rw [keyMug, nrefMug, hat, Option.map_some, Option.getD_some]
  have hag : ∀ k, r.atomsDict.Has k → keyMug r1 k = keyMug r k :=
    fun k hk => keyMug_mono hle (hr.den_tom hk).choose_spec
  have hlt : ∀ k, keyMug r1 k < 2 ^ 31 := by
    intro k
    cases k with
    | direct n => exact keyMug_lt hr (.direct n)
    | icell i => exact keyMug_lt hr (.icell i)
    | iatom i =>
      cases h : r1.atoms[i]? with
      | none => rw [keyMug, nrefMug, h]; decide
      | some t =>
        rcases getElem?_push.mp h with h' | ⟨rfl, rfl⟩
        · have h3 := keyMug_lt hr (.iatom i)
          rw [keyMug, nrefMug, h'] at h3
          rw [keyMug, nrefMug, h]
          exact h3
        · rw [hm, ← Noun.mug]
          exact mug_lt _
  have hcrowd := uncrowded_fresh hr (P := r.atomsDict.Has) (Q := r.Atom) (x := .atom a)
    (R := fun _ => ∀ k', r.atomsDict.Has k' → keyMug r k' = (mugBytes (atomBytes a)).toNat →
      ¬ bytes r k' = atomBytes a)
    (fun k hk => by
      obtain ⟨i, hi, rfl⟩ := (hr.has_tom k).mp hk
      obtain ⟨y, hy⟩ := hr.den_iatom hi
      exact ⟨hag _ hk, y, hy, i, hy⟩)
    (hm.trans (by rw [nounMug, Noun.mug]))
    (fun k hno k' hk' hd => by
      refine hno k' hk' ?_ ?_
      · rw [← hd.nounMug hr, nounMug, Noun.mug]
      · obtain ⟨i, hi, rfl⟩ := (hr.has_tom k').mp hk'
        cases hd with
        | iatom h hb _ => rw [bytes, h, Option.map_some, Option.getD_some, hb]) hu
  have hfresh : ¬ r.atomsDict.Has (.iatom r.atoms.length) := by
    intro hk
    obtain ⟨i, hlt, hk⟩ := (hr.has_tom _).mp hk
    cases hk
    exact Nat.lt_irrefl _ hlt
  have hsome := dictIntern_isSome (fun tom => bytes r tom = atomBytes a) ()
    (keyMug_lt hr) hlt hm hr.toms hag hfresh (by simpa using hcrowd)
    (hr.toms.enough (n := n + 1) (by omega)) (hr.toms.enough (n := n) (by omega))
  simp only [coinBytesUnsafe, Option.isSome_map]
  exact hsome

/-- **A cons returns if no more than ten cells share a mug.** -/
theorem cons_isSome (hr : r.Ok) {room : ℕ} {hed tal : Nref} {x y : Noun} (hroom : 63 ≤ room)
    (hx : Den r hed x) (hy : Den r tal y)
    (hu : Uncrowded nounMug fun z => r.Cell z ∨ z = .cell x y) : (cons room r hed tal).isSome := by
  obtain ⟨n, rfl⟩ : ∃ n, room = n + 1 := ⟨room - 1, by omega⟩
  have hmug : mugBoth (nrefMug r hed) (nrefMug r tal) = (Noun.cell x y).mug := by
    rw [hx.mug hr, hy.mug hr, Noun.mug]
  have hle := le_consUnsafe r (Noun.cell x y).mug hed tal r.cellsDict
  set r1 : Root := { (consUnsafe r (Noun.cell x y).mug hed tal).2 with cellsDict := r.cellsDict } with hr1
  have hat : r1.cells[r.cells.length]? = some ⟨(Noun.cell x y).mug, hed, tal⟩ :=
    getElem?_push.mpr (.inr ⟨rfl, rfl⟩)
  have hm : keyMug r1 (.icell r.cells.length) = (Noun.cell x y).mug.toNat := by
    rw [keyMug, nrefMug, hat, Option.map_some, Option.getD_some]
  have hag : ∀ k, r.cellsDict.Has k → keyMug r1 k = keyMug r k :=
    fun k hk => keyMug_mono hle (hr.den_cel hk).choose_spec
  have hlt : ∀ k, keyMug r1 k < 2 ^ 31 := by
    intro k
    cases k with
    | direct n => exact keyMug_lt hr (.direct n)
    | iatom i => exact keyMug_lt hr (.iatom i)
    | icell i =>
      cases h : r1.cells[i]? with
      | none => rw [keyMug, nrefMug, h]; decide
      | some c =>
        rcases getElem?_push.mp h with h' | ⟨rfl, rfl⟩
        · have h3 := keyMug_lt hr (.icell i)
          rw [keyMug, nrefMug, h'] at h3
          rw [keyMug, nrefMug, h]
          exact h3
        · rw [hm]
          exact mug_lt _
  have hcrowd := uncrowded_fresh hr (P := r.cellsDict.Has) (Q := r.Cell) (x := .cell x y)
    (R := fun _ => ∀ k', r.cellsDict.Has k' → keyMug r k' = (Noun.cell x y).mug.toNat →
      ¬ (hed = head r k' ∧ tal = tail r k'))
    (fun k hk => by
      obtain ⟨i, hi, rfl⟩ := (hr.has_cel k).mp hk
      obtain ⟨z, hz⟩ := hr.den_icell hi
      exact ⟨hag _ hk, z, hz, i, hz⟩)
    hm
    (fun k hno k' hk' hd => by
      refine hno k' hk' ?_ ?_
      · rw [← hd.nounMug hr, nounMug]
      · obtain ⟨-, h1, h2⟩ := deep_cell hd
        exact ⟨hx.inj hr h1, hy.inj hr h2⟩) hu
  have hfresh : ¬ r.cellsDict.Has (.icell r.cells.length) := by
    intro hk
    obtain ⟨i, hlt, hk⟩ := (hr.has_cel _).mp hk
    cases hk
    exact Nat.lt_irrefl _ hlt
  have hsome := dictIntern_isSome (fun cel => hed = head r cel ∧ tal = tail r cel) ()
    (keyMug_lt hr) hlt hm hr.cels hag hfresh (by simpa using hcrowd)
    (hr.cels.enough (n := n + 1) (by omega)) (hr.cels.enough (n := n) (by omega))
  simp only [cons, Option.isSome_map, hmug]
  exact hsome

/-- No more than ten atoms of an arena share a mug. -/
theorem uncrowded_atoms (hr : r.Ok) : Uncrowded nounMug r.Atom := by
  refine (uncrowded_has hr.toms).of_rel (fun x k => Den r k x) (fun x ⟨i, hi⟩ => ?_) fun x y k h h' => h.func h'
  refine ⟨.iatom i, hi, (hr.has_tom _).mpr ⟨i, ?_, rfl⟩, (hi.nounMug hr).symm⟩
  cases hi with
  | iatom h _ _ => exact (List.getElem?_eq_some_iff.mp h).1

/-- No more than ten cells of an arena share a mug. -/
theorem uncrowded_cells (hr : r.Ok) : Uncrowded nounMug r.Cell := by
  refine (uncrowded_has hr.cels).of_rel (fun x k => Den r k x) (fun x ⟨i, hi⟩ => ?_) fun x y k h h' => h.func h'
  refine ⟨.icell i, hi, (hr.has_cel _).mpr ⟨i, ?_, rfl⟩, (hi.nounMug hr).symm⟩
  cases hi with
  | icell h _ _ => exact (List.getElem?_eq_some_iff.mp h).1

/-- A new arena is empty. -/
theorem rootInit_ok {room : ℕ} (h : rootInit room = some r) :
    r.Ok ∧ r.atoms = [] ∧ r.cells = [] := by
  cases room with
  | zero => cases h
  | succ room =>
    cases h
    have hdict : ∀ mug : Nref → ℕ, Dict.Ok mug (⟨fib12, fib11 + fib12, fun _ => []⟩ : Dict Nref Unit) :=
      fun _ => ⟨by decide, by decide, pailsOk_nil _⟩
    have hhas : ∀ k, ¬ (⟨fib12, fib11 + fib12, fun _ => []⟩ : Dict Nref Unit).Has k := by
      rintro k ⟨_, _, he, -⟩
      cases he
    refine ⟨⟨fun _ _ h => ?_, fun _ _ _ h => ?_, hdict _, fun k => ?_, fun _ _ h => ?_,
      fun _ _ _ _ h => ?_, hdict _, fun k => ?_⟩, rfl, rfl⟩
    · cases h
    · cases h
    · exact ⟨fun hk => absurd hk (hhas k), fun ⟨_, hi, _⟩ => absurd hi (Nat.not_lt_zero _)⟩
    · cases h
    · cases h
    · exact ⟨fun hk => absurd hk (hhas k), fun ⟨_, hi, _⟩ => absurd hi (Nat.not_lt_zero _)⟩

end Hashcons
end Ursockets

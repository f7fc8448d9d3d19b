/-
# The cue reads the jam format

Where the bits planned for a noun stand in the buffer, the two loops of
`ur_cue` read them and build the noun, and know from then on which noun each
place in them has. They abort if and only if a dictionary or the stack cannot
hold what the noun needs.

Key definitions: `CueAt`, `CueFits`, `Cued`.
Key theorems: `cue_runs`, `urCue_runs`.
-/
import Ursockets.BitstreamRead
import Ursockets.SerialJam

namespace Ursockets
namespace Serial

open Bits Bitstream UrDict Hashcons Ursockets.Jam Loop Noun

variable {room : ℕ} {l : List UInt8}

/-! ### Bytes without zeros at the end -/

/-- The bytes of an atom do not end in a zero. -/
theorem stripZeros_atomBytes (a : ℕ) : stripZeros (atomBytes a) = atomBytes a := by
  rw [stripZeros, List.rdropWhile_eq_self_iff]
  intro hne hlast
  have hlen := length_atomBytes a
  have hpos := List.length_pos_iff.mpr hne
  have ha : a ≠ 0 := by
    rintro rfl
    exact absurd hpos (by rw [hlen]; decide)
  have hmet := met0_pos ha
  -- the highest bit of the atom is in its last byte
  have htop : a.testBit (met0 a - 1) = true := by
    have h1 := two_pow_le ha
    have h2 := lt_two_pow_met0 a
    exact Nat.testBit_of_two_pow_le_and_two_pow_add_one_gt h1 (by rwa [Nat.sub_add_cancel hmet])
  rw [← bitAt_atomBytes, bitAt, List.getD_eq_getElem _ _ (by omega)] at htop
  have hindex : (met0 a - 1) / 8 < (atomBytes a).length := by omega
  have hidx : (atomBytes a)[(met0 a - 1) / 8] = (atomBytes a).getLast hne := by
    rw [List.getLast_eq_getElem]
    congr 1
    omega
  rw [hidx, decide_eq_true_eq.mp hlast] at htop
  rw [show (0 : UInt8).toNat = 0 from rfl, Nat.zero_testBit] at htop
  cases htop

/-! ### What the cue keeps -/

/-- An atom that the arena keeps. -/
def Big (x : Noun) : Prop := ∃ a, x = .atom a ∧ 62 < met0 a

/-- A cell. -/
def IsCell (x : Noun) : Prop := ∃ h t, x = .cell h t

/-- The cue stands at place `p` of the stream: its dictionary has the places of
marks before that, and knows the nouns that are not larger than `n`. -/
structure CueAt (l : List UInt8) (c : Cue) (m : Marks) (p n : ℕ) : Prop where
  root : c.r.Ok
  bsr : c.bsr.At l p
  dict : c.dict.Ok cursorMug
  below : ∀ q, c.dict.Has q → q < p
  marks : ∀ q y, (q, y) ∈ m → q < p
  known : ∀ q y, (q, y) ∈ m → size y ≤ n → ∃ k, dictGet cursorMug c.dict q = some k ∧ Den c.r k y
  cap : Cap c.prev c.size
  fill : c.f.length ≤ c.size

/-- The cue has read a noun. -/
structure Cued (l : List UInt8) (c c' : Cue) (m : Marks) (p : ℕ) (i : Item) (x : Noun) (k : Nref) : Prop where
  root : c'.r.Ok
  bsr : c'.bsr.At l (p + i.bits.length)
  dict : c'.dict.Ok cursorMug
  old : ∀ q < p, dictGet cursorMug c'.dict q = dictGet cursorMug c.dict q
  new : ∀ q y, (q, y) ∈ m → p ≤ q → ∃ k, dictGet cursorMug c'.dict q = some k ∧ Den c'.r k y
  keys : ∀ q, c'.dict.Has q → c.dict.Has q ∨ p ≤ q ∧ ∃ y, (q, y) ∈ m
  le : Root.Le c.r c'.r
  den : Den c'.r k x
  atoms : ∀ y, c'.r.Atom y → c.r.Atom y ∨ y ∈ subs x ∧ Big y
  cells : ∀ y, c'.r.Cell y → c.r.Cell y ∨ y ∈ subs x ∧ IsCell y
  f : c'.f = c.f
  cap : Cap c'.prev c'.size
  fill : c'.f.length ≤ c'.size
  stack : c.f.length + i.depth ≤ stackMax

/-- What is needed to read a noun besides what there is: few places, atoms and
cells with one mug, and a stack that can hold its cells. -/
structure CueFits (c : Cue) (m : Marks) (p : ℕ) (x : Noun) (depth : ℕ) : Prop where
  cursors : Uncrowded cursorMug fun q => c.dict.Has q ∨ p ≤ q ∧ ∃ y, (q, y) ∈ m
  atoms : Uncrowded nounMug fun y => c.r.Atom y ∨ y ∈ subs x ∧ Big y
  cells : Uncrowded nounMug fun y => c.r.Cell y ∨ y ∈ subs x ∧ IsCell y
  stack : c.f.length + depth ≤ stackMax

/-- The cue reads a noun, of which `im` is written, or it aborts. -/
def CueRuns (room : ℕ) (l : List UInt8) (c : Cue) (p : ℕ) (x : Noun) (im : Item × Marks) : Prop :=
  (∃ k c', Reaches (cueTurn room) cueDone (.next, c) (.good k, c') ∧ Cued l c c' im.2 p im.1 x k) ∨
  (Aborts (cueTurn room) cueDone (.next, c) ∧ ¬ (63 ≤ room ∧ CueFits c im.2 p x im.1.depth))

theorem cursorMug_lt (q : ℕ) : cursorMug q < 2 ^ 31 := by
  rw [cursorMug, mug64, ← Noun.mug]
  exact mug_lt _

/-- A place is put into the dictionary if the mugs of the places are not crowded. -/
theorem cuePut_isSome {c : Cue} (h : c.dict.Ok cursorMug) (hroom : 63 ≤ room) {p : ℕ}
    (hu : Uncrowded cursorMug fun q => q = p ∨ c.dict.Has q) (k : Nref) : (cuePut room p k c).isSome := by
  obtain ⟨n, rfl⟩ : ∃ n, room = n + 1 := ⟨room - 1, by omega⟩
  rw [cuePut, Option.isSome_map]
  exact dictPut_isSome cursorMug_lt h hu (h.enough (by omega)) (h.enough (by omega))

theorem cuePut_spec {c : Cue} (h : c.dict.Ok cursorMug) {p : ℕ} {k : Nref} {s : Mode × Cue}
    (hs : cuePut room p k c = some s) : ∃ d : Dict ℕ Nref, s = (.good k, { c with dict := d }) ∧
      d.Ok cursorMug ∧ ∀ q, dictGet cursorMug d q = if q = p then some k else dictGet cursorMug c.dict q := by
  obtain ⟨d, hd, rfl⟩ := Option.map_eq_some_iff.mp hs
  obtain ⟨h1, h2⟩ := dictPut_spec h hd
  exact ⟨d, rfl, h1, h2⟩

/-! ### Turns -/

section Turns

variable {c : Cue} {len : ℕ}

/-- The next turn of `_cue_next` on an atom. -/
theorem nextTurn_atom (h1 : (bsrTag c.bsr).1 = .ok .atom) (h2 : (bsrRubLen (bsrTag c.bsr).2).1 = .ok len) :
    cueNextTurn room c =
      let bsr := (bsrRubLen (bsrTag c.bsr).2).2
      if len ≤ 62 then
        cuePut room c.bsr.bits (.direct (bsr64Any bsr len).1) { c with bsr := (bsr64Any bsr len).2 }
      else
        let out := bsrBytesAny bsr len (List.replicate (len >>> 3 + if len &&& 7 ≠ 0 then 1 else 0) 0)
        (coinBytesUnsafe room c.r (stripZeros out.1)).bind fun (ref, r) =>
          cuePut room c.bsr.bits ref { c with r, bsr := out.2 } := by
  have h3 : bsrTag c.bsr = (.ok .atom, (bsrTag c.bsr).2) := Prod.ext h1 rfl
  have h4 : bsrRubLen (bsrTag c.bsr).2 = (.ok len, (bsrRubLen (bsrTag c.bsr).2).2) := Prod.ext h2 rfl
  rw [cueNextTurn, h3]
  simp only []
  rw [h4]

/-- The next turn of `_cue_next` on a back-reference. -/
theorem nextTurn_back (h1 : (bsrTag c.bsr).1 = .ok .back) (h2 : (bsrRubLen (bsrTag c.bsr).2).1 = .ok len) :
    cueNextTurn room c =
      let bsr := (bsrRubLen (bsrTag c.bsr).2).2
      if 62 < len then some (.fail .meme, { c with bsr })
      else
        match dictGet cursorMug c.dict (bsr64Any bsr len).1 with
        | none => some (.fail .back, { c with bsr := (bsr64Any bsr len).2 })
        | some val => some (.good val, { c with bsr := (bsr64Any bsr len).2 }) := by
  have h3 : bsrTag c.bsr = (.ok .back, (bsrTag c.bsr).2) := Prod.ext h1 rfl
  have h4 : bsrRubLen (bsrTag c.bsr).2 = (.ok len, (bsrRubLen (bsrTag c.bsr).2).2) := Prod.ext h2 rfl
  rw [cueNextTurn, h3]
  simp only []
  rewrite [h4]
  rfl

/-- The next turn of `_cue_next` on a cell. -/
theorem nextTurn_cell (h1 : (bsrTag c.bsr).1 = .ok .cell) :
    cueNextTurn room c =
      (cuePush ⟨none, c.bsr.bits⟩ { c with bsr := (bsrTag c.bsr).2 }).map fun c => (.next, c) := by
  have h3 : bsrTag c.bsr = (.ok .cell, (bsrTag c.bsr).2) := Prod.ext h1 rfl
  rw [cueNextTurn, h3]

end Turns

/-! ### Atoms and back-references -/

/-- An atom has been read and put at its place. -/
theorem cued_atom {c : Cue} {m : Marks} {p n a : ℕ} (h : CueAt l c m p n) (c1 : Cue) {k : Nref}
    (hr : c1.r.Ok) (hb : c1.bsr.At l (p + (Item.atom a).bits.length)) (hd : c1.dict = c.dict)
    (hle : Root.Le c.r c1.r) (hden : Den c1.r k (.atom a))
    (hatoms : ∀ y, c1.r.Atom y → c.r.Atom y ∨ y ∈ subs (.atom a) ∧ Big y)
    (hcells : ∀ y, c1.r.Cell y → c.r.Cell y ∨ y ∈ subs (.atom a) ∧ IsCell y)
    (hf : c1.f = c.f) (hp : c1.prev = c.prev) (hs : c1.size = c.size)
    {d : Dict ℕ Nref} (hok : d.Ok cursorMug)
    (hget : ∀ q, dictGet cursorMug d q = if q = p then some k else dictGet cursorMug c1.dict q) :
    Cued l c { c1 with dict := d } (m ++ [(p, .atom a)]) p (.atom a) (.atom a) k := by
  refine ⟨hr, hb, hok, fun q hq => ?_, fun q y hqy hle' => ?_, fun q hq => ?_, hle, hden, hatoms, hcells, hf,
    ?_, ?_, ?_⟩
  · show dictGet cursorMug d q = _
    rw [hget, if_neg (Nat.ne_of_lt hq), hd]
  · rcases List.mem_append.mp hqy with hqy | hqy
    · exact absurd (h.marks q y hqy) (Nat.not_lt.mpr hle')
    · rw [List.mem_singleton] at hqy
      cases hqy
      exact ⟨k, by rw [hget, if_pos rfl], hden⟩
  · obtain ⟨v, hv⟩ := (has_iff hok).mp hq
    rw [hget] at hv
    split at hv
    · rename_i hqp
      exact .inr ⟨Nat.le_of_eq hqp.symm, .atom a, by
        rw [hqp]; exact List.mem_append_right _ (List.mem_singleton.mpr rfl)⟩
    · rw [hd] at hv
      exact .inl ((has_iff h.dict).mpr ⟨v, hv⟩)
  · show Cap c1.prev c1.size
    rw [hp, hs]; exact h.cap
  · show c1.f.length ≤ c1.size
    rw [hf, hs]; exact h.fill
  · have h1 := h.fill
    have h2 := h.cap.le
    show _ + 0 ≤ _
    omega

/-- The length of a string of bits that stands in a buffer the cue takes. -/
theorem length_lt {p : ℕ} {bs : List Bool} (hl : l.length < 2 ^ 59) (h : StandsAt l p bs) :
    p + bs.length < 2 ^ 62 := by
  have := h.1
  omega

theorem nat_of_bits {a v len : ℕ} (hlen : len = met0 a)
    (h : ∀ i, v.testBit i = (decide (i < len) && a.testBit i)) : v = a := by
  refine Nat.eq_of_testBit_eq fun i => ?_
  rw [h]
  by_cases hi : i < len
  · rw [decide_eq_true hi, Bool.true_and]
  · rw [decide_eq_false hi, Bool.false_and, testBit_of_met0_le (by omega)]

theorem not_done_next (c : Cue) : cueDone (.next, c) = false := rfl

/-- The tag and the length of an atom that stands at the cursor. -/
theorem tag_atom {c : Cue} {p a : ℕ} (hl : l.length < 2 ^ 59) (hb : c.bsr.At l p)
    (hs : StandsAt l p (Item.atom a).bits) :
    (bsrTag c.bsr).1 = .ok .atom ∧ (bsrRubLen (bsrTag c.bsr).2).1 = .ok (met0 a) ∧
      ∃ q, (bsrRubLen (bsrTag c.bsr).2).2.At l q ∧ StandsAt l q (ofNat (met0 a) a) ∧
        q + met0 a = p + (Item.atom a).bits.length := by
  have hbits : (Item.atom a).bits = [false] ++ mat (ofNat (met0 a) a) := rfl
  have hlen := length_lt hl hs
  rw [hbits] at hs hlen ⊢
  rw [List.length_append, length_mat, matLen, length_ofNat] at hlen
  rw [standsAt_append] at hs
  obtain ⟨h1, h2⟩ := bsrTag_atom hb hs.1
  obtain ⟨k, h3, h4, h5, h6⟩ := bsrRubLen_spec h2 hs.2 (by rw [length_ofNat]; split at hlen <;> omega)
  rw [length_ofNat] at h3 h6
  refine ⟨h1, h3, _, h4, h5, ?_⟩
  rw [List.length_append, ← h6, List.length_singleton]
  omega

/-- The cue reads an atom. -/
theorem cue_atom {c : Cue} {m : Marks} {p n a : ℕ} (hl : l.length < 2 ^ 59) (h : CueAt l c m p n)
    (hs : StandsAt l p (Item.atom a).bits) :
    CueRuns room l c p (.atom a) (.atom a, m ++ [(p, .atom a)]) := by
  obtain ⟨htag, hlen, q, hat, hst, hq⟩ := tag_atom hl h.bsr hs
  have hturn : cueNextTurn room c = _ := nextTurn_atom htag hlen
  rw [ofNat, standsAt_bitsOf] at hst
  have hcur : c.bsr.bits = p := h.bsr.bits
  have hplace : 63 ≤ room → ∀ (c1 : Cue) (k : Nref), c1.dict = c.dict →
      CueFits c (m ++ [(p, .atom a)]) p (.atom a) (Item.atom a).depth → (cuePut room p k c1).isSome := by
    intro hroom c1 k hd hfits
    refine cuePut_isSome (by rw [hd]; exact h.dict) hroom (hfits.cursors.mono fun q hq => ?_) k
    rcases hq with rfl | hq
    · exact .inr ⟨Nat.le_refl _, .atom a, List.mem_append_right _ (List.mem_singleton.mpr rfl)⟩
    · rw [hd] at hq; exact .inl hq
  by_cases h62 : met0 a ≤ 62
  · obtain ⟨hval, hat'⟩ := bsr64Any_spec hat (show met0 a ≤ 64 by omega)
    have hnum : (bsr64Any (bsrRubLen (bsrTag c.bsr).2).2 (met0 a)).1 = a :=
      nat_of_bits rfl fun i => by
        rw [hval]
        by_cases hi : i < met0 a
        · rw [hst.2 i hi]
        · rw [decide_eq_false hi, Bool.false_and, Bool.false_and]
    rw [if_pos h62, hnum, hcur] at hturn
    cases hput : cuePut room p (.direct a)
        { c with bsr := (bsr64Any (bsrRubLen (bsrTag c.bsr).2).2 (met0 a)).2 } with
    | none =>
      rw [hput] at hturn
      refine .inr ⟨aborts_of_none (not_done_next c) hturn, ?_⟩
      rintro ⟨hroom, hfits⟩
      have := hplace hroom { c with bsr := (bsr64Any (bsrRubLen (bsrTag c.bsr).2).2 (met0 a)).2 }
        (.direct a) rfl hfits
      rw [hput] at this
      cases this
    | some s =>
      obtain ⟨d, rfl, hok, hget⟩ := cuePut_spec
        (c := { c with bsr := (bsr64Any (bsrRubLen (bsrTag c.bsr).2).2 (met0 a)).2 }) h.dict hput
      rw [hput] at hturn
      refine .inl ⟨_, _, Reaches.one (not_done_next c) hturn, ?_⟩
      exact cued_atom h { c with bsr := (bsr64Any (bsrRubLen (bsrTag c.bsr).2).2 (met0 a)).2 } h.root
        (by rw [← hq]; exact hat') rfl (Root.Le.refl _) (.direct h62) (fun _ => .inl) (fun _ => .inl)
        rfl rfl rfl hok hget
  · have hneed : met0 a >>> 3 + (if met0 a &&& 7 ≠ 0 then 1 else 0) = (met0 a + 7) / 8 := by
      rw [shiftRight_three, and_seven, need_eq]
    have hin : q + met0 a ≤ 8 * l.length := hst.1
    obtain ⟨hlen', hval, hat'⟩ := bsrBytesAny_spec hat hin
      (List.length_replicate (n := (met0 a + 7) / 8) (a := (0 : UInt8))) (bitAt_replicate _)
    have hout : (bsrBytesAny (bsrRubLen (bsrTag c.bsr).2).2 (met0 a)
        (List.replicate ((met0 a + 7) / 8) 0)).1 = atomBytes a := by
      rw [List.length_replicate] at hlen'
      refine ext_bitAt (by rw [hlen', length_atomBytes]) fun i _ => ?_
      rw [hval, bitAt_atomBytes]
      by_cases hi : i < met0 a
      · rw [hst.2 i hi, decide_eq_true hi, Bool.true_and]
      · rw [decide_eq_false hi, Bool.false_and, testBit_of_met0_le (by omega)]
    rw [if_neg h62, hneed] at hturn
    simp only [hout, stripZeros_atomBytes] at hturn
    rw [hcur] at hturn
    cases hcoin : coinBytesUnsafe room c.r (atomBytes a) with
    | none =>
      rw [hcoin] at hturn
      refine .inr ⟨aborts_of_none (not_done_next c) hturn, ?_⟩
      rintro ⟨hroom, hfits⟩
      have := coinBytesUnsafe_isSome h.root hroom (hfits.atoms.mono fun y hy => by
        rcases hy with hy | rfl
        · exact .inl hy
        · exact .inr ⟨self_mem_subs _, a, rfl, by omega⟩)
      rw [hcoin] at this
      cases this
    | some kr =>
      obtain ⟨k, r'⟩ := kr
      obtain ⟨hadds, hatoms, hcells⟩ := coinBytesUnsafe_spec h.root (by omega) hcoin
      rw [hcoin, Option.bind_some] at hturn
      simp only [] at hturn
      set b2 := (bsrBytesAny (bsrRubLen (bsrTag c.bsr).2).2 (met0 a)
        (List.replicate ((met0 a + 7) / 8) 0)).2 with hb2
      cases hput : cuePut room p k { c with r := r', bsr := b2 } with
      | none =>
        rw [hput] at hturn
        refine .inr ⟨aborts_of_none (not_done_next c) hturn, ?_⟩
        rintro ⟨hroom, hfits⟩
        have := hplace hroom { c with r := r', bsr := b2 } k rfl hfits
        rw [hput] at this
        cases this
      | some s =>
        obtain ⟨d, rfl, hok, hget⟩ := cuePut_spec (c := { c with r := r', bsr := b2 }) h.dict hput
        rw [hput] at hturn
        refine .inl ⟨_, _, Reaches.one (not_done_next c) hturn, ?_⟩
        refine cued_atom h { c with r := r', bsr := b2 } hadds.ok (by rw [← hq]; exact hat') rfl
          hadds.le hadds.den (fun y hy => ?_) (fun y hy => ?_) rfl rfl rfl hok hget
        · rcases (hatoms y).mp hy with hy | rfl
          · exact .inl hy
          · exact .inr ⟨self_mem_subs _, a, rfl, by omega⟩
        · exact .inl ((cell_of_cells h.root hadds.le hcells y).mp hy)

/-- The cue reads a back-reference. -/
theorem cue_back {c : Cue} {m : Marks} {p n q : ℕ} {x : Noun} (hl : l.length < 2 ^ 59) (h : CueAt l c m p n)
    (hx : size x ≤ n) (hq : (q, x) ∈ m) (hs : StandsAt l p (Item.back q).bits) :
    CueRuns room l c p x (.back q, m) := by
  have hbits : (Item.back q).bits = [true, true] ++ mat (ofNat (met0 q) q) := rfl
  have hlt := length_lt hl hs
  have hqp := h.marks q x hq
  rw [hbits] at hs
  rw [standsAt_append] at hs
  have h62 : met0 q ≤ 62 := met0_le_iff.mpr (by omega)
  obtain ⟨h1, h2⟩ := bsrTag_pair h.bsr hs.1
  obtain ⟨j, h3, h4, h5, h6⟩ := bsrRubLen_spec h2 hs.2 (by rw [length_ofNat]; omega)
  rw [length_ofNat] at h3 h6
  obtain ⟨hval, hat'⟩ := bsr64Any_spec h4 (show met0 q ≤ 64 by omega)
  rw [ofNat, standsAt_bitsOf] at h5
  have hnum : (bsr64Any (bsrRubLen (bsrTag c.bsr).2).2 (met0 q)).1 = q :=
    nat_of_bits rfl fun i => by
      rw [hval]
      by_cases hi : i < met0 q
      · rw [h5.2 i hi]
      · rw [decide_eq_false hi, Bool.false_and, Bool.false_and]
  obtain ⟨k, hk, hden⟩ := h.known q x hq hx
  have hturn : cueNextTurn room c = _ := nextTurn_back h1 h3
  simp only [if_neg (Nat.not_lt.mpr h62), hnum, hk] at hturn
  refine .inl ⟨k, _, Reaches.one (not_done_next c) hturn, h.root, ?_, h.dict, fun _ _ => rfl,
    fun q y hqy hle => ?_, fun _ => .inl, Root.Le.refl _, hden, fun _ => .inl, fun _ => .inl, rfl, h.cap,
    h.fill, ?_⟩
  · have hlen : (Item.back q).bits.length = 2 + (mat (ofNat (met0 q) q)).length := by
      rw [hbits, List.length_append]; rfl
    have hend : p + 2 + j + met0 q = p + (Item.back q).bits.length := by rw [hlen]; omega
    rw [← hend]
    exact hat'
  · exact absurd (h.marks q y hqy) (Nat.not_lt.mpr hle)
  · have h7 := h.fill
    have h8 := h.cap.le
    show _ + 0 ≤ _
    omega

/-- A frame is pushed unless the stack has its last size. -/
theorem cuePush_spec {c : Cue} (hcap : Cap c.prev c.size) (hfill : c.f.length ≤ c.size) (fr : Frame) :
    (∃ prev size, cuePush fr c = some { c with prev, size, f := fr :: c.f } ∧ Cap prev size ∧
      c.f.length + 1 ≤ size) ∨ cuePush fr c = none ∧ stackMax ≤ c.f.length := by
  rw [cuePush]
  split
  · rename_i hfull
    rcases hcap.grow with ⟨h1, h2⟩ | ⟨-, next, h1, h2, h3⟩
    · exact .inr ⟨by rw [h2]; rfl, by omega⟩
    · exact .inl ⟨c.size, next, by rw [h1]; rfl, h2, by omega⟩
  · exact .inl ⟨c.prev, c.size, rfl, hcap, by omega⟩

theorem good_of_frames (c : Cue) (k : Nref) {fr : Frame} {f : List Frame} (h : c.f = fr :: f) :
    cueDone (.good k, c) = false := by rw [cueDone, h]; rfl

/-- **The cue reads the bits planned for a noun.** -/
theorem cue_runs (hl : l.length < 2 ^ 59) : ∀ (x : Noun) {c : Cue} {m : Marks} {p n : ℕ},
    CueAt l c m p n → size x ≤ n → StandsAt l p (plan m p x).1.bits → CueRuns room l c p x (plan m p x)
  | .atom a, c, m, p, n, h, hn, hs => by
    rw [plan] at hs ⊢
    split
    · rename_i q hq
      rw [hq] at hs
      simp only [] at hs
      split
      · rename_i hle
        rw [if_pos hle] at hs
        exact cue_atom hl h hs
      · rename_i hle
        rw [if_neg hle] at hs
        exact cue_back hl h hn (mem_of_find hq) hs
    · rename_i hq
      rw [hq] at hs
      exact cue_atom hl h hs
  | .cell x y, c, m, p, n, h, hn, hs => by
    rw [plan] at hs ⊢
    split
    · rename_i q hq
      rw [hq] at hs
      exact cue_back hl h hn (mem_of_find hq) hs
    rename_i hnone
    rw [hnone] at hs
    simp only [] at hs
    obtain ⟨nh, hnh, hmarks⟩ := plan_marks x (m ++ [(p, .cell x y)]) (p + 2)
    set hed := plan (m ++ [(p, .cell x y)]) (p + 2) x with hhed
    obtain ⟨nt, hnt, hmarkt⟩ := plan_marks y hed.2 (p + 2 + hed.1.bits.length)
    set tel := plan hed.2 (p + 2 + hed.1.bits.length) y with htel
    have hlen : (Item.cell hed.1 tel.1).bits.length = 2 + hed.1.bits.length + tel.1.bits.length := by
      simp only [Item.bits, List.length_cons, List.length_append]
      omega
    have hdepth : (Item.cell hed.1 tel.1).depth = max hed.1.depth tel.1.depth + 1 := rfl
    have hsize : size (.cell x y) = size x + size y + 1 := rfl
    have hposh := bits_pos hed.1
    have hpost := bits_pos tel.1
    -- the tag, the head and the tail stand one after the other
    have hs' : StandsAt l p ([true, false] ++ (hed.1.bits ++ tel.1.bits)) := hs
    rw [standsAt_append, standsAt_append] at hs'
    obtain ⟨hs0, hs1, hs2⟩ := hs'
    obtain ⟨htag, hat1⟩ := bsrTag_pair h.bsr hs0
    have hturn : cueNextTurn room c = _ := nextTurn_cell htag
    rw [h.bsr.bits] at hturn
    rcases cuePush_spec (c := { c with bsr := (bsrTag c.bsr).2 }) h.cap h.fill ⟨none, p⟩ with
      ⟨prev, sz, hpush, hcap1, hfill1⟩ | ⟨hpush, hmax⟩
    swap
    · rw [hpush] at hturn
      refine .inr ⟨aborts_of_none (not_done_next c) hturn, ?_⟩
      rintro ⟨_, hfits⟩
      have h1 := hfits.stack
      have h2 : stackMax ≤ c.f.length := hmax
      rw [hdepth] at h1
      omega
    rw [hpush, Option.map_some] at hturn
    set c1 : Cue := { c with bsr := (bsrTag c.bsr).2, prev, size := sz, f := ⟨none, p⟩ :: c.f } with hc1
    have hreach1 : Reaches (cueTurn room) cueDone (.next, c) (.next, c1) := Reaches.one (not_done_next c) hturn
    -- the head
    have hat : CueAt l c1 (m ++ [(p, .cell x y)]) (p + 2) (size x) := by
      refine ⟨h.root, hat1, h.dict, fun q hq => ?_, fun q z hz => ?_, fun q z hz hle => ?_, hcap1, hfill1⟩
      · have := h.below q hq; omega
      · rcases List.mem_append.mp hz with hz | hz
        · have := h.marks q z hz; omega
        · rw [List.mem_singleton] at hz
          cases hz
          omega
      · rcases List.mem_append.mp hz with hz | hz
        · exact h.known q z hz (by omega)
        · rw [List.mem_singleton] at hz
          cases hz
          omega
    have hsubx : ∀ z ∈ subs x, z ∈ subs (.cell x y) := fun z hz =>
      List.mem_cons_of_mem _ (List.mem_append_left _ hz)
    have hsuby : ∀ z ∈ subs y, z ∈ subs (.cell x y) := fun z hz =>
      List.mem_cons_of_mem _ (List.mem_append_right _ hz)
    have hself : (p, Noun.cell x y) ∈ tel.2 := by
      rw [hnt, hnh]
      exact List.mem_append_left _ (List.mem_append_left _ (List.mem_append_right _
        (List.mem_singleton.mpr rfl)))
    have hheads : ∀ e ∈ hed.2, e ∈ tel.2 := fun e he => by rw [hnt]; exact List.mem_append_left _ he
    rcases cue_runs hl x hat (Nat.le_refl _) hs1 with ⟨kx, c2, hreach2, hc2⟩ | ⟨hab, hno⟩
    swap
    · refine .inr ⟨.of_reaches hreach1 hab, ?_⟩
      rintro ⟨hroom, hfits⟩
      refine hno ⟨hroom, ?_, ?_, ?_, ?_⟩
      · refine hfits.cursors.mono fun q hq => ?_
        rcases hq with hq | ⟨hq, z, hz⟩
        · exact .inl hq
        · exact .inr ⟨by omega, z, hheads _ hz⟩
      · exact hfits.atoms.mono fun z hz => hz.imp id fun hz => ⟨hsubx z hz.1, hz.2⟩
      · exact hfits.cells.mono fun z hz => hz.imp id fun hz => ⟨hsubx z hz.1, hz.2⟩
      · have h1 := hfits.stack
        rw [hdepth] at h1
        show c.f.length + 1 + hed.1.depth ≤ _
        omega
    have hreach12 := hreach1.trans hreach2
    have hf2 : c2.f = ⟨none, p⟩ :: c.f := hc2.f
    set c3 : Cue := { c2 with f := ⟨some kx, p⟩ :: c.f } with hc3
    have hturn2 : cueTurn room (.good kx, c2) = some (.next, c3) := by
      simp only [cueTurn, cueGoodTurn, hf2]
      rfl
    have hreach13 := hreach12.trans (Reaches.one (good_of_frames c2 kx hf2) hturn2)
    have hstack2 : c.f.length + 1 + hed.1.depth ≤ stackMax := hc2.stack
    -- the tail
    have hat3 : CueAt l c3 hed.2 (p + 2 + hed.1.bits.length) (size y) := by
      refine ⟨hc2.root, hc2.bsr, hc2.dict, fun q hq => ?_, fun q z hz => ?_, fun q z hz hle => ?_, hc2.cap, ?_⟩
      · rcases hc2.keys q hq with hq | ⟨hq, z, hz⟩
        · have := h.below q hq; omega
        · rw [hnh] at hz
          rcases List.mem_append.mp hz with hz | hz
          · have := hat.marks q z hz; omega
          · exact (hmarks _ hz).2.1
      · rw [hnh] at hz
        rcases List.mem_append.mp hz with hz | hz
        · have := hat.marks q z hz; omega
        · exact (hmarks _ hz).2.1
      · by_cases hq : p + 2 ≤ q
        · exact hc2.new q z hz hq
        · rw [hnh] at hz
          rcases List.mem_append.mp hz with hz | hz
          · rcases List.mem_append.mp hz with hz | hz
            · obtain ⟨k, hk, hd⟩ := h.known q z hz (by omega)
              exact ⟨k, (hc2.old q (by omega)).trans hk, hd.mono hc2.le⟩
            · rw [List.mem_singleton] at hz
              cases hz
              omega
          · exact absurd (hmarks _ hz).1 hq
      · have h1 := hc2.fill
        rw [hf2] at h1
        exact h1
    rcases cue_runs hl y hat3 (Nat.le_refl _) hs2 with ⟨ky, c4, hreach4, hc4⟩ | ⟨hab, hno⟩
    swap
    · refine .inr ⟨.of_reaches hreach13 hab, ?_⟩
      rintro ⟨hroom, hfits⟩
      refine hno ⟨hroom, ?_, ?_, ?_, ?_⟩
      · refine hfits.cursors.mono fun q hq => ?_
        rcases hq with hq | ⟨hq, z, hz⟩
        · rcases hc2.keys q hq with hq | ⟨hq, z, hz⟩
          · exact .inl hq
          · exact .inr ⟨by omega, z, hheads _ hz⟩
        · exact .inr ⟨by omega, z, hz⟩
      · refine hfits.atoms.mono fun z hz => ?_
        rcases hz with hz | hz
        · exact (hc2.atoms z hz).imp id fun hz => ⟨hsubx z hz.1, hz.2⟩
        · exact .inr ⟨hsuby z hz.1, hz.2⟩
      · refine hfits.cells.mono fun z hz => ?_
        rcases hz with hz | hz
        · exact (hc2.cells z hz).imp id fun hz => ⟨hsubx z hz.1, hz.2⟩
        · exact .inr ⟨hsuby z hz.1, hz.2⟩
      · have h1 := hfits.stack
        rw [hdepth] at h1
        show c.f.length + 1 + tel.1.depth ≤ _
        omega
    have hreach14 := hreach13.trans hreach4
    have hf4 : c4.f = ⟨some kx, p⟩ :: c.f := hc4.f
    have hstack4 : c.f.length + 1 + tel.1.depth ≤ stackMax := hc4.stack
    have hdenx : Den c4.r kx x := hc2.den.mono hc4.le
    have hcells4 : ∀ z, c4.r.Cell z → c.r.Cell z ∨ z ∈ subs (.cell x y) ∧ IsCell z := by
      intro z hz
      rcases hc4.cells z hz with hz | hz
      · exact (hc2.cells z hz).imp id fun hz => ⟨hsubx z hz.1, hz.2⟩
      · exact .inr ⟨hsuby z hz.1, hz.2⟩
    have hatoms4 : ∀ z, c4.r.Atom z → c.r.Atom z ∨ z ∈ subs (.cell x y) ∧ Big z := by
      intro z hz
      rcases hc4.atoms z hz with hz | hz
      · exact (hc2.atoms z hz).imp id fun hz => ⟨hsubx z hz.1, hz.2⟩
      · exact .inr ⟨hsuby z hz.1, hz.2⟩
    have hkeys4 : ∀ q, c4.dict.Has q → c.dict.Has q ∨ p ≤ q ∧ ∃ z, (q, z) ∈ tel.2 := by
      intro q hq
      rcases hc4.keys q hq with hq | ⟨hq, z, hz⟩
      · rcases hc2.keys q hq with hq | ⟨hq, z, hz⟩
        · exact .inl hq
        · exact .inr ⟨by omega, z, hheads _ hz⟩
      · exact .inr ⟨by omega, z, hz⟩
    -- the cell
    have hturn4 : cueTurn room (.good ky, c4) = (cons room c4.r kx ky).bind fun (ref, r) =>
        cuePut room p ref { c4 with r, f := c.f } := by
      simp only [cueTurn, cueGoodTurn, hf4]
    have hgo := good_of_frames c4 ky hf4
    cases hcons : cons room c4.r kx ky with
    | none =>
      rw [hcons] at hturn4
      refine .inr ⟨.of_reaches hreach14 (aborts_of_none hgo hturn4), ?_⟩
      rintro ⟨hroom, hfits⟩
      have := cons_isSome hc4.root hroom hdenx hc4.den (hfits.cells.mono fun z hz => by
        rcases hz with hz | rfl
        · exact hcells4 z hz
        · exact .inr ⟨self_mem_subs _, x, y, rfl⟩)
      rw [hcons] at this
      cases this
    | some kr =>
      obtain ⟨k, r'⟩ := kr
      obtain ⟨hadds, hcells, hatoms⟩ := cons_spec hc4.root hdenx hc4.den hcons
      rw [hcons, Option.bind_some] at hturn4
      simp only [] at hturn4
      cases hput : cuePut room p k { c4 with r := r', f := c.f } with
      | none =>
        rw [hput] at hturn4
        refine .inr ⟨.of_reaches hreach14 (aborts_of_none hgo hturn4), ?_⟩
        rintro ⟨hroom, hfits⟩
        have := cuePut_isSome (c := { c4 with r := r', f := c.f }) hc4.dict hroom (p := p)
          (hfits.cursors.mono fun q hq => by
            rcases hq with rfl | hq
            · exact .inr ⟨Nat.le_refl _, _, hself⟩
            · exact hkeys4 q hq) k
        rw [hput] at this
        cases this
      | some s =>
        obtain ⟨d, rfl, hok, hget⟩ := cuePut_spec (c := { c4 with r := r', f := c.f }) hc4.dict hput
        rw [hput] at hturn4
        have hfill4 := hc4.fill
        rw [hf4, List.length_cons] at hfill4
        refine .inl ⟨k, _, hreach14.trans (Reaches.one hgo hturn4), hadds.ok, ?_, hok, fun q hq => ?_,
          fun q z hz hq => ?_, fun q hq => ?_, (hc2.le.trans hc4.le).trans hadds.le, hadds.den,
          fun z hz => hatoms4 z ((atom_of_atoms hadds.le hatoms z).mp hz), fun z hz => ?_, rfl, hc4.cap,
          Nat.le_of_succ_le hfill4, ?_⟩
        · have hend : p + (Item.cell hed.1 tel.1).bits.length =
              p + 2 + hed.1.bits.length + tel.1.bits.length := by rw [hlen]; omega
          show Bsr.At l (p + (Item.cell hed.1 tel.1).bits.length) c4.bsr
          rw [hend]
          exact hc4.bsr
        · refine (hget q).trans ?_
          rw [if_neg (Nat.ne_of_lt hq)]
          exact (hc4.old q (by omega)).trans (hc2.old q (by omega))
        · by_cases hqp : q = p
          · refine ⟨k, (hget q).trans (if_pos hqp), ?_⟩
            subst hqp
            have hz' : z = .cell x y := by
              have hz' : (q, z) ∈ tel.2 := hz
              rw [hnt, hnh] at hz'
              rcases List.mem_append.mp hz' with hz' | hz'
              · rcases List.mem_append.mp hz' with hz' | hz'
                · rcases List.mem_append.mp hz' with hz' | hz'
                  · exact absurd (h.marks q z hz') (Nat.lt_irrefl _)
                  · rw [List.mem_singleton] at hz'
                    cases hz'
                    rfl
                · have := (hmarks _ hz').1; omega
              · have := (hmarkt _ hz').1; omega
            rw [hz']
            exact hadds.den
          · by_cases hq' : p + 2 + hed.1.bits.length ≤ q
            · obtain ⟨k', hk', hd'⟩ := hc4.new q z hz hq'
              exact ⟨k', ((hget q).trans (if_neg hqp)).trans hk', hd'.mono hadds.le⟩
            · have hz' : (q, z) ∈ tel.2 := hz
              rw [hnt] at hz'
              rcases List.mem_append.mp hz' with hz' | hz'
              swap
              · exact absurd (hmarkt _ hz').1 hq'
              have hq2 : p + 2 ≤ q := by
                rw [hnh] at hz'
                rcases List.mem_append.mp hz' with hz' | hz'
                · rcases List.mem_append.mp hz' with hz' | hz'
                  · have := h.marks q z hz'; omega
                  · rw [List.mem_singleton] at hz'
                    cases hz'
                    exact absurd rfl hqp
                · exact (hmarks _ hz').1
              obtain ⟨k', hk', hd'⟩ := hc2.new q z hz' hq2
              exact ⟨k', ((hget q).trans (if_neg hqp)).trans ((hc4.old q (by omega)).trans hk'),
                (hd'.mono hc4.le).mono hadds.le⟩
        · obtain ⟨v, hv⟩ := (has_iff hok).mp hq
          rw [hget] at hv
          split at hv
          · rename_i hqp
            exact .inr ⟨Nat.le_of_eq hqp.symm, _, by rw [hqp]; exact hself⟩
          · exact hkeys4 q ((has_iff hc4.dict).mpr ⟨v, hv⟩)
        · rcases (hcells z).mp hz with hz | rfl
          · exact hcells4 z hz
          · exact .inr ⟨self_mem_subs _, x, y, rfl⟩
        · rw [hdepth]
          omega

end Serial
end Ursockets

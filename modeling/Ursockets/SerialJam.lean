/-
# The jammer writes the jam format

The bytes that `ur_jam` writes are the bits planned for the noun, and it
returns if and only if its dictionary and its stack hold what the noun needs:
no more than ten nouns in it share a mug, and its heads are not nested deeper
than the size of a stack can count. (A stream of more than `2 ^ 62` bits is
only told to be that long.)

Key definitions: `Cap`, `JamAt`, `JamFits`.
Key theorems: `jam_runs`, `urJam_runs`, `jam_places`.
-/
import Ursockets.BitstreamWrite
import Ursockets.Serial

namespace Ursockets
namespace Serial

open Bits Bitstream UrDict Hashcons Ursockets.Jam Loop

/-! ### The sizes of a stack -/

/-- The sizes of a stack as it grows. -/
def fibs : ℕ → ℕ × ℕ
  | 0 => (fib10, fib11)
  | k + 1 =>
    match fibs k with
    | (prev, size) => (size, prev + size)

/-- The last size before the 32 bits wrap around. -/
def stackMax : ℕ := 2971215073

/-- A stack's sizes, which have not wrapped around. -/
def Cap (prev size : ℕ) : Prop := ∃ k < 37, fibs k = (prev, size)

theorem fibs_spec : ∀ k < 37, (fibs k).2 ≤ stackMax ∧ 0 < (fibs k).1 ∧
    ((fibs k).1 + (fibs k).2 < 2 ^ 32 ↔ k ≠ 36) ∧ (k = 36 ↔ (fibs k).2 = stackMax) := by
  decide

theorem cap_init : Cap fib10 fib11 := ⟨0, by decide, rfl⟩

theorem Cap.le {prev size : ℕ} (h : Cap prev size) : size ≤ stackMax := by
  obtain ⟨k, hk, he⟩ := h
  have := (fibs_spec k hk).1
  rwa [he] at this

/-- A stack grows unless it has its last size. -/
theorem Cap.grow {prev size : ℕ} (h : Cap prev size) :
    (size = stackMax ∧ stackGrow prev size = none) ∨
      (size < stackMax ∧ ∃ next, stackGrow prev size = some (size, next) ∧ Cap size next ∧ size < next) := by
  obtain ⟨k, hk, he⟩ := h
  obtain ⟨h1, h2, h3, h4⟩ := fibs_spec k hk
  rw [he] at h1 h2 h3 h4
  by_cases hk36 : k = 36
  · exact .inl ⟨h4.mp hk36, if_neg fun h => h3.mp h hk36⟩
  · refine .inr ⟨by have := h4.not.mp hk36; omega, prev + size, if_pos (h3.mpr hk36),
      ⟨k + 1, by omega, by rw [fibs, he]⟩, by omega⟩

/-! ### The cursor only moves on -/

theorem bits_bswNeed (w : Bsw) (need : ℕ) : (bswNeed w need).bits = w.bits := by
  rw [bswNeed]; split <;> rfl

theorem bits_bswBit (w : Bsw) (bit : ℕ) : (bswBitUnsafe w bit).bits = w.bits + 1 := by
  simp only [bswBitUnsafe]; split <;> rfl

theorem bits_bsw8 (w : Bsw) (len byt : ℕ) : (bsw8Unsafe w len byt).bits = w.bits + len := by
  simp only [bsw8Unsafe]; split <;> rfl

theorem bits_bsw64 (w : Bsw) (len val : ℕ) : w.bits ≤ (bsw64Unsafe w len val).bits := by
  simp only [bsw64Unsafe, bsw64Aligned]
  split
  · split
    · exact Nat.le_add_right _ _
    · show _ ≤ w.bits + _ + _; omega
  · exact Nat.le_add_right _ _

theorem bits_bswBytes (w : Bsw) (len : ℕ) (src : List UInt8) :
    (bswBytesUnsafe w len src).bits = w.bits + len := by
  simp only [bswBytesUnsafe]
  split
  · split <;> rfl
  · split <;> rfl

theorem bits_bswBex (w : Bsw) (n : ℕ) : w.bits ≤ (bswBexUnsafe w n).bits := by
  simp only [bswBexUnsafe]
  split <;> exact Nat.le_add_right _ _

theorem bits_bswMat64 (w : Bsw) (len val : ℕ) : w.bits ≤ (bswMat64Unsafe w len val).bits := by
  rw [bswMat64Unsafe]
  split
  · rw [bits_bswBit]; exact Nat.le_succ _
  · exact Nat.le_trans (bits_bswBex w _) (Nat.le_trans (bits_bsw64 _ _ _) (bits_bsw64 _ _ _))

theorem bits_bswMatBytes (w : Bsw) (len : ℕ) (byt : List UInt8) :
    w.bits ≤ (bswMatBytesUnsafe w len byt).bits := by
  rw [bswMatBytesUnsafe]
  split
  · rw [bits_bswBit]; exact Nat.le_succ _
  · simp only []
    rw [bits_bswBytes]
    exact Nat.le_trans (bits_bswBex w _) (Nat.le_trans (bits_bsw64 _ _ _) (Nat.le_add_right _ _))

theorem bits_bswAtom (r : Root) (ref : Nref) (w : Bsw) (len : ℕ) : w.bits ≤ (bswAtom r ref w len).bits := by
  have h64 : ∀ n, w.bits ≤ (bswAtom64 w len n).bits := by
    intro n
    rw [bswAtom64]
    refine Nat.le_trans ?_ (bits_bswMat64 _ _ _)
    rw [bits_bswBit, bits_bswNeed]
    exact Nat.le_succ _
  have hbytes : ∀ byt, w.bits ≤ (bswAtomBytes w len byt).bits := by
    intro byt
    rw [bswAtomBytes]
    refine Nat.le_trans ?_ (bits_bswMatBytes _ _ _)
    rw [bits_bswBit, bits_bswNeed]
    exact Nat.le_succ _
  cases ref with
  | direct n => exact h64 n
  | iatom i => exact hbytes _
  | icell i => exact hbytes _

theorem bits_bswBack (w : Bsw) (len val : ℕ) : w.bits ≤ (bswBack64 w len val).bits := by
  rw [bswBack64]
  refine Nat.le_trans ?_ (bits_bswMat64 _ _ _)
  rw [bits_bsw8, bits_bswNeed]
  exact Nat.le_add_right _ _

theorem bits_bswCell (w : Bsw) : w.bits ≤ (bswCell w).bits := by
  rw [bswCell, bits_bsw8, bits_bswNeed]
  exact Nat.le_add_right _ _

variable {room : ℕ} {r : Root}

theorem bits_jamAtom {ref : Nref} {j j' : Jammer} (h : jamAtom room r ref j = some j') :
    j.bsw.bits ≤ j'.bsw.bits := by
  simp only [jamAtom] at h
  split at h
  · obtain ⟨d, -, rfl⟩ := Option.map_eq_some_iff.mp h
    exact bits_bswAtom _ _ _ _
  · split at h
    · cases h; exact bits_bswAtom _ _ _ _
    · cases h; exact bits_bswBack _ _ _

theorem bits_jamCell {ref : Nref} {j j' : Jammer} {b : Bool} (h : jamCell room r ref j = some (b, j')) :
    j.bsw.bits ≤ j'.bsw.bits := by
  simp only [jamCell] at h
  split at h
  · obtain ⟨d, -, hd⟩ := Option.map_eq_some_iff.mp h
    cases hd
    exact bits_bswCell _
  · cases h; exact bits_bswBack _ _ _

/-- A turn of the jammer's walk, in its cases. -/
theorem jamTurn_cases {w w' : Walk Jammer} (h : jamTurn room r w = some w') :
    w' = w ∨ ∃ ref rest, w.top = ref :: rest ∧
      ((deep ref = false ∧ ∃ v, jamAtom room r ref w.v = some v ∧ w' = { w with top := rest, v }) ∨
        deep ref = true ∧ ∃ b v, jamCell room r ref w.v = some (b, v) ∧ w'.v = v ∧
          (b = false ∧ w'.top = rest ∨ b = true ∧ w'.top = head r ref :: tail r ref :: rest)) := by
  rw [jamTurn, walkTurn] at h
  cases htop : w.top with
  | nil =>
    rw [htop] at h
    cases h
    exact .inl rfl
  | cons ref rest =>
    refine .inr ⟨ref, rest, rfl, ?_⟩
    cases hdeep : deep ref with
    | false =>
      simp only [htop, hdeep] at h
      obtain ⟨v, hv, rfl⟩ := Option.map_eq_some_iff.mp h
      exact .inl ⟨rfl, v, hv, rfl⟩
    | true =>
      simp only [htop, hdeep] at h
      obtain ⟨⟨b, v⟩, hv, h⟩ := Option.bind_eq_some_iff.mp h
      refine .inr ⟨rfl, b, v, hv, ?_⟩
      cases b with
      | false =>
        cases h
        exact ⟨rfl, .inl ⟨rfl, rfl⟩⟩
      | true =>
        simp only [] at h
        split at h
        · obtain ⟨_, -, rfl⟩ := Option.map_eq_some_iff.mp h
          exact ⟨rfl, .inr ⟨rfl, rfl⟩⟩
        · cases h
          exact ⟨rfl, .inr ⟨rfl, rfl⟩⟩

/-! ### The bitstream stays well formed -/

theorem ok_bswAtom64 {w : Bsw} (h : w.Ok) (len val : ℕ) : (bswAtom64 w len val).Ok := by
  have hmin : min 64 len ≤ 64 := Nat.min_le_left _ _
  have := (bswAtom64_spec h val hmin).ok
  rwa [bswAtom64, ← Nat.min_assoc, Nat.min_self, ← bswAtom64] at this

theorem ok_bswBack64 {w : Bsw} (h : w.Ok) (len val : ℕ) : (bswBack64 w len val).Ok := by
  have hmin : min 64 len ≤ 64 := Nat.min_le_left _ _
  have := (bswBack64_spec h val hmin).ok
  rwa [bswBack64, ← Nat.min_assoc, Nat.min_self, ← bswBack64] at this

theorem ok_bswAtom {w : Bsw} (h : w.Ok) (r : Root) (ref : Nref) (len : ℕ) : (bswAtom r ref w len).Ok := by
  cases ref with
  | direct n => exact ok_bswAtom64 h _ _
  | iatom i => exact (bswAtomBytes_spec h _ _).ok
  | icell i => exact (bswAtomBytes_spec h _ _).ok

theorem ok_jamAtom {ref : Nref} {j j' : Jammer} (hj : j.bsw.Ok) (h : jamAtom room r ref j = some j') :
    j'.bsw.Ok := by
  simp only [jamAtom] at h
  split at h
  · obtain ⟨d, -, rfl⟩ := Option.map_eq_some_iff.mp h
    exact ok_bswAtom hj _ _ _
  · split at h
    · cases h; exact ok_bswAtom hj _ _ _
    · cases h; exact ok_bswBack64 hj _ _

theorem ok_jamCell {ref : Nref} {j j' : Jammer} {b : Bool} (hj : j.bsw.Ok)
    (h : jamCell room r ref j = some (b, j')) : j'.bsw.Ok := by
  simp only [jamCell] at h
  split at h
  · obtain ⟨d, -, hd⟩ := Option.map_eq_some_iff.mp h
    cases hd
    exact (bswCell_spec hj).ok
  · cases h; exact ok_bswBack64 hj _ _

theorem ok_jamTurn {w w' : Walk Jammer} (hw : w.v.bsw.Ok) (h : jamTurn room r w = some w') : w'.v.bsw.Ok := by
  rcases jamTurn_cases h with rfl | ⟨ref, rest, -, ⟨-, v, hv, rfl⟩ | ⟨-, b, v, hv, h1, -⟩⟩
  · exact hw
  · exact ok_jamAtom hw hv
  · rw [h1]; exact ok_jamCell hw hv

theorem bits_jamTurn {w w' : Walk Jammer} (h : jamTurn room r w = some w') :
    w.v.bsw.bits ≤ w'.v.bsw.bits := by
  rcases jamTurn_cases h with rfl | ⟨ref, rest, -, ⟨-, v, hv, rfl⟩ | ⟨-, b, v, hv, h1, -⟩⟩
  · exact Nat.le_refl _
  · exact bits_jamAtom hv
  · rw [h1]; exact bits_jamCell hv

/-! ### The walk over a noun -/

/-- The jammer's state: its dictionary holds the places of the nouns written,
and its cursor is at place `c`. -/
structure JamAt (r : Root) (w : Walk Jammer) (m : Marks) (c : ℕ) : Prop where
  dict : w.v.dict.Ok (keyMug r)
  get : ∀ k y, Den r k y → dictGet (keyMug r) w.v.dict k = find m y
  den : ∀ k, w.v.dict.Has k → ∃ y, Den r k y
  marks : ∀ p y, (p, y) ∈ m → p ≤ c
  cap : Cap w.prev w.size
  fill : w.top.length < w.size
  bsw : w.v.bsw.Ok
  bits : w.v.bsw.bits = c

/-- What is needed to jam a noun besides those written: few nouns with one mug,
and a stack that can hold its heads. -/
structure JamFits (m : Marks) (x : Noun) (fill heads : ℕ) : Prop where
  nouns : Uncrowded nounMug fun y => (find m y).isSome ∨ y ∈ subs x
  stack : fill + heads < stackMax

/-- The longest stream of bits whose places are 62-bit atoms. -/
def jamMax : ℕ := 2 ^ 62

theorem bswAtom_spec (hr : r.Ok) {ref : Nref} {a : ℕ} (hd : Den r ref (.atom a)) {w : Bsw} (h : w.Ok) :
    Appends w (bswAtom r ref w (met r ref)) (Item.atom a).bits := by
  rw [met_atom hr hd]
  cases hd with
  | direct hn => exact bswAtom64_spec h a (by omega)
  | @iatom i _ _ h1 h2 h3 =>
    have hbits : bitsOf (met0 a) (bitAt (bytes r (.iatom i))) = ofNat (met0 a) a :=
      bitsOf_congr fun i _ => by
        rw [bytes, h1, Option.map_some, Option.getD_some, h2, bitAt_atomBytes]
    have happ := bswAtomBytes_spec h (met0 a) (bytes r (.iatom i))
    rw [hbits] at happ
    exact happ

theorem bswBack_spec {w : Bsw} (h : w.Ok) {p : ℕ} (hp : p ≤ jamMax) :
    Appends w (bswBack64 w (met0 p) p) (Item.back p).bits := by
  refine bswBack64_spec h p ?_
  rw [met0_le_iff]
  rw [jamMax] at hp
  omega

/-- The dictionary with one more noun written. -/
theorem JamAt.put (hr : r.Ok) {w : Walk Jammer} {m : Marks} {c : ℕ} (h : JamAt r w m c) {k : Nref}
    {x : Noun} (hx : Den r k x) (hm : find m x = none) {d : Dict Nref ℕ}
    (hd : dictPut (keyMug r) room k w.v.bsw.bits room w.v.dict = some d) :
    d.Ok (keyMug r) ∧ (∀ k y, Den r k y → dictGet (keyMug r) d k = find (m ++ [(c, x)]) y) ∧
      ∀ k, d.Has k → ∃ y, Den r k y := by
  obtain ⟨h1, h2⟩ := dictPut_spec h.dict hd
  refine ⟨h1, fun k' y hy => ?_, fun k' hk' => ?_⟩
  · rw [h2, find_push, h.bits]
    by_cases hk : k' = k
    · subst hk
      rw [if_pos rfl, ← hx.func hy, hm, if_pos rfl]
      rfl
    · rw [if_neg hk, if_neg fun hxy : x = y => hk (hy.inj hr (hxy ▸ hx)), h.get _ _ hy]
      cases find m y <;> rfl
  · obtain ⟨v, hv⟩ := (has_iff h1).mp hk'
    rw [h2] at hv
    split at hv
    · rename_i hk; exact ⟨x, hk ▸ hx⟩
    · exact h.den k' ((has_iff h.dict).mpr ⟨v, hv⟩)

/-- The dictionary takes one more noun if the mugs are not crowded. -/
theorem JamAt.put_isSome (hr : r.Ok) {w : Walk Jammer} {m : Marks} {c : ℕ} (h : JamAt r w m c) {k : Nref}
    {x : Noun} (hx : Den r k x) (hroom : 63 ≤ room)
    (hu : Uncrowded nounMug fun y => (find m y).isSome ∨ y ∈ subs x) (val : ℕ) :
    (dictPut (keyMug r) room k val room w.v.dict).isSome := by
  obtain ⟨n, rfl⟩ : ∃ n, room = n + 1 := ⟨room - 1, by omega⟩
  refine dictPut_isSome (keyMug_lt hr) h.dict ?_ (h.dict.enough (by omega)) (h.dict.enough (by omega))
  refine hu.of_rel (fun k y => Den r k y) (fun k' hk' => ?_) fun k k' y h h' => h.inj hr h'
  rcases hk' with rfl | hk'
  · exact ⟨x, hx, .inr (self_mem_subs x), hx.nounMug hr⟩
  · obtain ⟨y, hy⟩ := h.den k' hk'
    obtain ⟨v, hv⟩ := (has_iff h.dict).mp hk'
    rw [h.get _ _ hy] at hv
    exact ⟨y, hy, .inl (by rw [hv]; rfl), hy.nounMug hr⟩

/-- What has become of the jammer when it has visited a noun. -/
structure Jammed (r : Root) (w w' : Walk Jammer) (m m' : Marks) (c : ℕ) (i : Item) (rest : List Nref) :
    Prop where
  at' : JamAt r w' m' (c + i.bits.length)
  top : w'.top = rest
  out : Appends w.v.bsw w'.v.bsw i.bits
  le : c + i.bits.length ≤ jamMax
  stack : w.top.length + i.heads < stackMax

/-- The jammer visits a noun, or its stream gets too long, or it aborts. -/
def JamRuns (room : ℕ) (r : Root) (w : Walk Jammer) (m : Marks) (c : ℕ) (x : Noun) (rest : List Nref) :
    Prop :=
  (∃ w', Reaches (jamTurn room r) Walk.done w w' ∧ Jammed r w w' m (plan m c x).2 c (plan m c x).1 rest) ∨
  (jamMax < c + (plan m c x).1.bits.length ∧
    ∀ n t, run (jamTurn room r) Walk.done n w = some t → jamMax < t.v.bsw.bits) ∨
  (Aborts (jamTurn room r) Walk.done w ∧
    ¬ (63 ≤ room ∧ JamFits m x w.top.length (plan m c x).1.heads))

/-- A run from a state whose cursor is far ends there too. -/
theorem jam_far {w : Walk Jammer} (h : jamMax < w.v.bsw.bits) (n : ℕ) (t : Walk Jammer)
    (hr : run (jamTurn room r) Walk.done n w = some t) : jamMax < t.v.bsw.bits :=
  run_inv (P := fun w => jamMax < w.v.bsw.bits) (fun _ _ h ht => Nat.lt_of_lt_of_le h (bits_jamTurn ht)) h hr

theorem far_of_reaches {w w' : Walk Jammer} (h : Reaches (jamTurn room r) Walk.done w w')
    (hf : ∀ n t, run (jamTurn room r) Walk.done n w' = some t → jamMax < t.v.bsw.bits) (n : ℕ)
    (t : Walk Jammer) (ht : run (jamTurn room r) Walk.done n w = some t) : jamMax < t.v.bsw.bits := by
  obtain ⟨m, hm⟩ := run_reaches h ht
  exact hf m t hm

theorem not_done {w : Walk Jammer} {k : Nref} {rest : List Nref} (h : w.top = k :: rest) :
    w.done = false := by rw [Walk.done, h]; rfl

/-- The jammer writes an item in one turn. -/
theorem jam_one {w w' : Walk Jammer} {m m' : Marks} {c : ℕ} {x : Noun} {k : Nref} {rest : List Nref}
    {i : Item} (h : JamAt r w m c) (hp : plan m c x = (i, m')) (htop : w.top = k :: rest)
    (ht : jamTurn room r w = some w') (hw : w' = { w with top := rest, v := w'.v })
    (hheads : i.heads = 0) (happ : Appends w.v.bsw w'.v.bsw i.bits)
    (hd : w'.v.dict.Ok (keyMug r)) (hget : ∀ k y, Den r k y → dictGet (keyMug r) w'.v.dict k = find m' y)
    (hden : ∀ k, w'.v.dict.Has k → ∃ y, Den r k y) (hm : ∀ p y, (p, y) ∈ m' → p ≤ c + i.bits.length) :
    JamRuns room r w m c x rest := by
  have hbits : w'.v.bsw.bits = c + i.bits.length := by rw [happ.bits, h.bits]
  have hreach := Reaches.one (not_done htop) ht
  have hfill := h.fill
  rw [htop, List.length_cons] at hfill
  rcases Nat.lt_or_ge jamMax (c + i.bits.length) with hlt | hge
  · refine .inr (.inl ⟨by rw [hp]; exact hlt, far_of_reaches hreach fun n t hr => jam_far ?_ n t hr⟩)
    rwa [hbits]
  · refine .inl ⟨w', hreach, ?_⟩
    rw [hp]
    have htop' : w'.top = rest := by rw [hw]
    refine ⟨⟨hd, hget, hden, hm, ?_, ?_, happ.ok, hbits⟩, htop', happ, hge, ?_⟩
    · rw [hw]; exact h.cap
    · rw [htop', hw]; show _ < w.size; omega
    · have := h.cap.le
      rw [hheads, htop, List.length_cons]; omega

theorem jamTurn_atom {w : Walk Jammer} {k : Nref} {rest : List Nref} (htop : w.top = k :: rest)
    (hk : deep k = false) :
    jamTurn room r w = (jamAtom room r k w.v).map fun v => { w with top := rest, v } := by
  simp only [jamTurn, walkTurn, htop, hk]
  rfl

theorem jamTurn_back {w : Walk Jammer} {k : Nref} {rest : List Nref} (htop : w.top = k :: rest)
    (hk : deep k = true) {v : Jammer} (hv : jamCell room r k w.v = some (false, v)) :
    jamTurn room r w = some { w with top := rest, v } := by
  simp only [jamTurn, walkTurn, htop, hk, hv]
  rfl

theorem jamTurn_cell {w : Walk Jammer} {k : Nref} {rest : List Nref} (htop : w.top = k :: rest)
    (hk : deep k = true) {v : Jammer} (hv : jamCell room r k w.v = some (true, v)) :
    jamTurn room r w =
      if w.size = rest.length + 2 then
        (stackGrow w.prev w.size).map fun s => ⟨s.1, s.2, head r k :: tail r k :: rest, v⟩
      else some { w with top := head r k :: tail r k :: rest, v } := by
  simp only [jamTurn, walkTurn, htop, hk, hv]
  rfl

theorem jamTurn_none {w : Walk Jammer} {k : Nref} {rest : List Nref} (htop : w.top = k :: rest)
    (hk : deep k = true) (hv : jamCell room r k w.v = none) : jamTurn room r w = none := by
  simp only [jamTurn, walkTurn, htop, hk, hv]
  rfl

theorem find_again {m : Marks} {x : Noun} {p : ℕ} (h : find m x = some p) (c : ℕ) (y : Noun) :
    find (m ++ [(c, x)]) y = find m y := by
  rw [find_push]
  by_cases hxy : x = y
  · rw [← hxy, h]; rfl
  · rw [if_neg hxy]; cases find m y <;> rfl

theorem marks_push {m : Marks} {x : Noun} {c n : ℕ} (h : ∀ p y, (p, y) ∈ m → p ≤ c) (p : ℕ) (y : Noun)
    (hp : (p, y) ∈ m ++ [(c, x)]) : p ≤ c + n := by
  rcases List.mem_append.mp hp with hp | hp
  · exact Nat.le_trans (h p y hp) (Nat.le_add_right _ _)
  · rw [List.mem_singleton] at hp
    cases hp
    exact Nat.le_add_right _ _

theorem jam_atom (hr : r.Ok) {a : ℕ} {w : Walk Jammer} {m : Marks} {c : ℕ} {k : Nref} {rest : List Nref}
    (hx : Den r k (.atom a)) (h : JamAt r w m c) (hc : c ≤ jamMax) (htop : w.top = k :: rest) :
    JamRuns room r w m c (.atom a) rest := by
  have hdeep := deep_atom hx
  have hturn : jamTurn room r w = _ := jamTurn_atom htop hdeep
  have hatom := bswAtom_spec hr hx h.bsw
  have hget := h.get k _ hx
  have hmet := met_atom hr hx
  simp only [jamAtom, hget, hmet] at hturn
  rw [hmet] at hatom
  cases hf : find m (.atom a) with
  | none =>
    have hplan : plan m c (.atom a) = (.atom a, m ++ [(c, .atom a)]) := by rw [plan, hf]
    simp only [hf] at hturn
    cases hd : dictPut (keyMug r) room k w.v.bsw.bits room w.v.dict with
    | none =>
      refine .inr (.inr ⟨aborts_of_none (not_done htop) (by rw [hturn, hd]; rfl), ?_⟩)
      rintro ⟨hroom, hfits⟩
      have hs := h.put_isSome hr hx hroom hfits.nouns w.v.bsw.bits
      rw [hd] at hs
      cases hs
    | some d =>
      rw [hd] at hturn
      obtain ⟨h1, h2, h3⟩ := h.put hr hx hf hd
      exact jam_one h hplan htop hturn rfl rfl hatom h1 h2 h3 (marks_push h.marks)
  | some p =>
    simp only [hf] at hturn
    have hp := h.marks p _ (mem_of_find hf)
    by_cases hle : met0 a ≤ met0 p
    · have hplan : plan m c (.atom a) = (.atom a, m ++ [(c, .atom a)]) := by
        simp only [plan, hf, if_pos hle]
      rw [if_pos hle] at hturn
      exact jam_one h hplan htop hturn rfl rfl hatom h.dict
        (fun k y hy => (h.get k y hy).trans (find_again hf c y).symm) h.den (marks_push h.marks)
    · have hplan : plan m c (.atom a) = (.back p, m) := by
        simp only [plan, hf, if_neg hle]
      rw [if_neg hle] at hturn
      exact jam_one h hplan htop hturn rfl rfl (bswBack_spec h.bsw (by omega)) h.dict h.get h.den
        fun p y hy => Nat.le_trans (h.marks p y hy) (Nat.le_add_right _ _)

/-- **The jammer writes what is planned for a noun.** -/
theorem jam_runs (hr : r.Ok) : ∀ (x : Noun) {w : Walk Jammer} {m : Marks} {c : ℕ} {k : Nref}
    {rest : List Nref}, Den r k x → JamAt r w m c → c ≤ jamMax → w.top = k :: rest →
      JamRuns room r w m c x rest
  | .atom a, w, m, c, k, rest, hx, h, hc, htop => jam_atom hr hx h hc htop
  | .cell x y, w, m, c, k, rest, hxy, h, hc, htop => by
    obtain ⟨hdeep, hx, hy⟩ := deep_cell hxy
    have hget := h.get k _ hxy
    cases hf : find m (.cell x y) with
    | some p =>
      have hplan : plan m c (.cell x y) = (.back p, m) := by rw [plan, hf]
      have hturn : jamTurn room r w = _ := jamTurn_back htop hdeep
        (v := { w.v with bsw := bswBack64 w.v.bsw (met0 p) p }) (by simp only [jamCell, hget, hf])
      have hp := h.marks p _ (mem_of_find hf)
      exact jam_one h hplan htop hturn rfl rfl (bswBack_spec h.bsw (by omega)) h.dict h.get h.den
        fun p y hy => Nat.le_trans (h.marks p y hy) (Nat.le_add_right _ _)
    | none =>
      have hplan : plan m c (.cell x y) =
          (.cell (plan (m ++ [(c, .cell x y)]) (c + 2) x).1
            (plan (plan (m ++ [(c, .cell x y)]) (c + 2) x).2
              (c + 2 + (plan (m ++ [(c, .cell x y)]) (c + 2) x).1.bits.length) y).1,
            (plan (plan (m ++ [(c, .cell x y)]) (c + 2) x).2
              (c + 2 + (plan (m ++ [(c, .cell x y)]) (c + 2) x).1.bits.length) y).2) := by rw [plan, hf]
      rw [JamRuns, hplan]
      obtain ⟨nh, hnh, hmarks⟩ := plan_marks x (m ++ [(c, .cell x y)]) (c + 2)
      set hed := plan (m ++ [(c, .cell x y)]) (c + 2) x with hhed
      set tel := plan hed.2 (c + 2 + hed.1.bits.length) y with htel
      have hlen : c + (Item.cell hed.1 tel.1).bits.length =
          c + 2 + hed.1.bits.length + tel.1.bits.length := by
        simp only [Item.bits, List.length_cons, List.length_append]
        omega
      have hheads : (Item.cell hed.1 tel.1).heads = max (hed.1.heads + 1) tel.1.heads := rfl
      simp only [hlen, hheads]
      have hpos := bits_pos hed.1
      have hpos' := bits_pos tel.1
      cases hd : dictPut (keyMug r) room k w.v.bsw.bits room w.v.dict with
      | none =>
        have hturn : jamTurn room r w = none :=
          jamTurn_none htop hdeep (by simp only [jamCell, hget, hf, hd]; rfl)
        refine .inr (.inr ⟨aborts_of_none (not_done htop) hturn, ?_⟩)
        rintro ⟨hroom, hfits⟩
        have hs := h.put_isSome hr hxy hroom hfits.nouns w.v.bsw.bits
        rw [hd] at hs
        cases hs
      | some d =>
        have hturn : jamTurn room r w = _ := jamTurn_cell htop hdeep (v := ⟨d, bswCell w.v.bsw⟩)
          (by simp only [jamCell, hget, hf, hd]; rfl)
        obtain ⟨h1, h2, h3⟩ := h.put hr hxy hf hd
        have hcell := bswCell_spec h.bsw
        have hbits : (bswCell w.v.bsw).bits = c + 2 := by rw [hcell.bits, h.bits]; rfl
        have hfill := h.fill
        rw [htop, List.length_cons] at hfill
        rw [htop, List.length_cons]
        -- the cell's tag is written and its parts are on the stack, if it can hold them
        have hpush : (∃ w1, jamTurn room r w = some w1 ∧ w1.top = head r k :: tail r k :: rest ∧
            w1.v = ⟨d, bswCell w.v.bsw⟩ ∧ Cap w1.prev w1.size ∧ rest.length + 2 < w1.size) ∨
            jamTurn room r w = none ∧ stackMax ≤ rest.length + 2 := by
          rw [hturn]
          split
          · rename_i hsize
            rcases h.cap.grow with ⟨h4, h5⟩ | ⟨-, next, h5, h6, h7⟩
            · exact .inr ⟨by rw [h5]; rfl, by omega⟩
            · rw [h5]
              exact .inl ⟨_, rfl, rfl, rfl, h6, by show _ < next; omega⟩
          · exact .inl ⟨_, rfl, rfl, rfl, h.cap, by show _ < w.size; omega⟩
        rcases hpush with ⟨w1, ht, htop1, hv1, hcap1, hsize1⟩ | ⟨ht, hmax⟩
        · have hreach1 := Reaches.one (not_done htop) ht
          rcases Nat.lt_or_ge jamMax (c + 2) with hfar | hnear
          · refine .inr (.inl ⟨by omega, far_of_reaches hreach1 fun n t hr => jam_far ?_ n t hr⟩)
            rw [hv1, hbits]
            exact hfar
          have hat1 : JamAt r w1 (m ++ [(c, .cell x y)]) (c + 2) := by
            refine ⟨by rw [hv1]; exact h1, by rw [hv1]; exact h2, by rw [hv1]; exact h3,
              marks_push h.marks, hcap1, by rw [htop1]; exact hsize1, by rw [hv1]; exact hcell.ok,
              by rw [hv1]; exact hbits⟩
          have hfound : ∀ z, (find (m ++ [(c, .cell x y)]) z).isSome →
              (find m z).isSome ∨ z ∈ subs (.cell x y) := by
            intro z hz
            rw [find_push] at hz
            cases hfz : find m z with
            | some p => exact .inl rfl
            | none =>
              rw [hfz] at hz
              by_cases hxz : Noun.cell x y = z
              · rw [← hxz]; exact .inr (self_mem_subs _)
              · rw [if_neg hxz] at hz; cases hz
          rcases jam_runs hr x hx hat1 hnear htop1 with ⟨w2, hreach2, hj2⟩ | ⟨hlong, hfar⟩ | ⟨hab, hno⟩
          · have hreach12 := hreach1.trans hreach2
            rw [← hhed] at hj2
            have hstack2 := hj2.stack
            rw [htop1, List.length_cons, List.length_cons] at hstack2
            rcases jam_runs hr y hy hj2.at' hj2.le hj2.top with ⟨w3, hreach3, hj3⟩ | ⟨hlong, hfar⟩ | ⟨hab, hno⟩
            · refine .inl ⟨w3, hreach12.trans hreach3, by rw [hlen]; exact hj3.at', hj3.top, ?_,
                by rw [hlen]; exact hj3.le, ?_⟩
              · have hout := hj2.out
                rw [hv1] at hout
                exact (hcell.trans hout).trans hj3.out
              · have hstack3 := hj3.stack
                rw [hj2.top, List.length_cons, ← htel] at hstack3
                rw [hheads, htop, List.length_cons]
                omega
            · exact .inr (.inl ⟨hlong, far_of_reaches hreach12 hfar⟩)
            · refine .inr (.inr ⟨.of_reaches hreach12 hab, ?_⟩)
              rintro ⟨hroom, hfits⟩
              refine hno ⟨hroom, ?_, ?_⟩
              · refine hfits.nouns.mono fun z hz => ?_
                rcases hz with hz | hz
                · obtain ⟨p, hp⟩ := Option.isSome_iff_exists.mp hz
                  have hmem := mem_of_find hp
                  rw [hnh] at hmem
                  rcases List.mem_append.mp hmem with hmem | hmem
                  · exact hfound z (find_of_mem hmem)
                  · exact .inr (List.mem_cons_of_mem _ (List.mem_append_left _ (hmarks _ hmem).2.2))
                · exact .inr (List.mem_cons_of_mem _ (List.mem_append_right _ hz))
              · have := hfits.stack
                rw [hj2.top, List.length_cons]
                show _ + tel.1.heads < _
                omega
          · exact .inr (.inl ⟨by rw [← hhed] at hlong; omega, far_of_reaches hreach1 hfar⟩)
          · refine .inr (.inr ⟨.of_reaches hreach1 hab, ?_⟩)
            rintro ⟨hroom, hfits⟩
            refine hno ⟨hroom, ?_, ?_⟩
            · refine hfits.nouns.mono fun z hz => ?_
              rcases hz with hz | hz
              · exact hfound z hz
              · exact .inr (List.mem_cons_of_mem _ (List.mem_append_left _ hz))
            · have := hfits.stack
              rw [htop1, List.length_cons, List.length_cons, ← hhed]
              omega
        · refine .inr (.inr ⟨aborts_of_none (not_done htop) ht, ?_⟩)
          rintro ⟨_, hfits⟩
          have := hfits.stack
          omega

/-! ### Jamming a noun -/

theorem jamInit_eq (room : ℕ) (r : Root) (ref : Nref) :
    jamInit (room + 1) r ref =
      some ⟨fib10, fib11, [ref], ⟨⟨fib12, fib11 + fib12, fun _ => []⟩, bswInit fib11 fib12⟩⟩ := rfl

theorem dictGet_nil {K V : Type} [DecidableEq K] (mug : K → ℕ) (prev size : ℕ) (k : K) :
    dictGet mug (⟨prev, size, fun _ => []⟩ : Dict K V) k = none := rfl

theorem dictOk_nil {K V : Type} (mug : K → ℕ) :
    Dict.Ok mug (⟨fib12, fib11 + fib12, fun _ => []⟩ : Dict K V) :=
  ⟨show 0 < fib11 + fib12 by decide, show fib12 ≤ fib11 + fib12 by decide, pailsOk_nil _⟩

theorem not_has_nil {K V : Type} (prev size : ℕ) (k : K) :
    ¬ (⟨prev, size, fun _ => []⟩ : Dict K V).Has k := by
  rintro ⟨_, _, he, -⟩
  exact absurd he List.not_mem_nil

theorem jamInit_at {room : ℕ} {ref : Nref} {w : Walk Jammer} (h : jamInit room r ref = some w) :
    JamAt r w [] 0 ∧ w.top = [ref] ∧ w.v.bsw = bswInit fib11 fib12 := by
  cases room with
  | zero => cases h
  | succ room =>
    rw [jamInit_eq] at h
    cases h
    refine ⟨⟨dictOk_nil _, fun k y _ => dictGet_nil _ _ _ _, fun k hk => absurd hk (not_has_nil _ _ _),
      fun _ _ hp => absurd hp List.not_mem_nil, cap_init, show 1 < fib11 by decide, bswInit_ok _ (by decide), rfl⟩,
        rfl, rfl⟩

/-- The jammer has written a noun from its start. -/
def JamRun (room : ℕ) (r : Root) (ref : Nref) (x : Noun) (w : Walk Jammer) : Prop :=
  ∃ w0, jamInit room r ref = some w0 ∧ Reaches (jamTurn room r) Walk.done w0 w ∧
    Jammed r w0 w [] (marks x) 0 (jam x) []

/-- What `ur_jam` returns when it has written the noun. -/
theorem JamRun.result {ref : Nref} {x : Noun} {w : Walk Jammer} (h : JamRun room r ref x w) :
    (∃ fuel, urJam room fuel r ref = some ((jam x).bits.length, bswDone w.v.bsw)) ∧
      (∀ fuel res, urJam room fuel r ref = some res → res = ((jam x).bits.length, bswDone w.v.bsw)) ∧
        StandsAt (bswDone w.v.bsw) 0 (jam x).bits ∧
          (bswDone w.v.bsw).length = ((jam x).bits.length + 7) / 8 := by
  obtain ⟨w0, h0, hreach, hj⟩ := h
  have hdone : w.done = true := by rw [Walk.done, hj.top]; rfl
  have hbits : w.v.bsw.bits = (jam x).bits.length := by rw [hj.at'.bits, Nat.zero_add]
  obtain ⟨n, hn⟩ := run_of_reaches hreach (run_done hdone 0)
  refine ⟨⟨n, by rw [urJam, h0, Option.bind_some, hn, Option.map_some, hbits]⟩, fun fuel res hres => ?_, ?_⟩
  · rw [urJam, h0, Option.bind_some] at hres
    obtain ⟨t, ht, rfl⟩ := Option.map_eq_some_iff.mp hres
    rw [run_det ht hn, hbits]
  · obtain ⟨-, -, hbsw⟩ := jamInit_at h0
    have hout := hj.out
    rw [hbsw] at hout
    exact standsAt_bswDone hout

/-- **`ur_jam` writes the noun**, or a stream that is too long, or aborts. -/
theorem urJam_runs (hr : r.Ok) {ref : Nref} {x : Noun} (hx : Den r ref x) (room : ℕ) :
    (∃ w, JamRun room r ref x w) ∨
    (jamMax < (jam x).bits.length ∧ ∀ fuel bits byt, urJam room fuel r ref = some (bits, byt) →
      jamMax < bits ∧ byt.length = (bits + 7) / 8) ∨
    ((∀ fuel, urJam room fuel r ref = none) ∧ ¬ (63 ≤ room ∧ JamFits [] x 1 (jam x).heads)) := by
  cases h0 : jamInit room r ref with
  | none =>
    refine .inr (.inr ⟨fun fuel => by rw [urJam, h0]; rfl, fun ⟨hroom, _⟩ => ?_⟩)
    obtain ⟨n, rfl⟩ : ∃ n, room = n + 1 := ⟨room - 1, by omega⟩
    rw [jamInit_eq] at h0
    cases h0
  | some w0 =>
    obtain ⟨hat, htop, -⟩ := jamInit_at h0
    have hlen : w0.top.length = 1 := by rw [htop]; rfl
    rcases (jam_runs hr x hx hat (Nat.zero_le _) htop : JamRuns room r w0 [] 0 x []) with ⟨w, h1, h2⟩ | ⟨h1, h2⟩ |
      ⟨h1, h2⟩
    · exact .inl ⟨w, w0, h0, h1, h2⟩
    · refine .inr (.inl ⟨by rw [← Nat.zero_add (jam x).bits.length]; exact h1, fun fuel bits byt hjam => ?_⟩)
      rw [urJam, h0, Option.bind_some] at hjam
      obtain ⟨t, ht, he⟩ := Option.map_eq_some_iff.mp hjam
      cases he
      have hok : t.v.bsw.Ok := run_inv (P := fun w => w.v.bsw.Ok) (fun _ _ => ok_jamTurn) hat.bsw ht
      exact ⟨h2 fuel t ht, (bswDone_spec hok).1⟩
    · refine .inr (.inr ⟨fun fuel => ?_, by rw [← hlen]; exact h2⟩)
      rw [urJam, h0, Option.bind_some, h1 fuel]
      rfl

/-! ### The places of back-references -/

/-- The next turn of the jammer writes a back-reference to place `p` for `ref`. -/
def Emits (r : Root) (w : Walk Jammer) (ref : Nref) (p : ℕ) : Prop :=
  w.top.head? = some ref ∧ dictGet (keyMug r) w.v.dict ref = some p ∧
    (deep ref = false → met0 p < met r ref)

/-- A turn leaves the dictionary alone, or puts the cursor there for the noun on top. -/
theorem jamTurn_dict {w w' : Walk Jammer} (hw : w.v.dict.Ok (keyMug r)) (h : jamTurn room r w = some w') :
    w'.v.dict = w.v.dict ∨ w'.v.dict.Ok (keyMug r) ∧ ∃ ref, w.top.head? = some ref ∧
      dictGet (keyMug r) w.v.dict ref = none ∧ ∀ k, dictGet (keyMug r) w'.v.dict k =
        if k = ref then some w.v.bsw.bits else dictGet (keyMug r) w.v.dict k := by
  rcases jamTurn_cases h with rfl | ⟨ref, rest, htop, ⟨-, v, hv, rfl⟩ | ⟨-, b, v, hv, h1, -⟩⟩
  · exact .inl rfl
  · simp only [jamAtom] at hv
    split at hv
    · rename_i hget
      obtain ⟨d, hd, rfl⟩ := Option.map_eq_some_iff.mp hv
      obtain ⟨h2, h3⟩ := dictPut_spec hw hd
      exact .inr ⟨h2, ref, by rw [htop]; rfl, hget, h3⟩
    · split at hv <;> (cases hv; exact .inl rfl)
  · simp only [jamCell] at hv
    split at hv
    · rename_i hget
      obtain ⟨d, hd, he⟩ := Option.map_eq_some_iff.mp hv
      cases he
      obtain ⟨h2, h3⟩ := dictPut_spec hw hd
      rw [h1]
      exact .inr ⟨h2, ref, by rw [htop]; rfl, hget, h3⟩
    · cases hv
      exact .inl (by rw [h1])

/-- The jammer from `w0` has come to `w`: what its dictionary says, it wrote. -/
structure Written (room : ℕ) (r : Root) (w0 w : Walk Jammer) : Prop where
  reach : Reaches (jamTurn room r) Walk.done w0 w
  dict : w.v.dict.Ok (keyMug r)
  place : ∀ k p, dictGet (keyMug r) w.v.dict k = some p →
    ∃ w1, Reaches (jamTurn room r) Walk.done w0 w1 ∧ Reaches (jamTurn room r) Walk.done w1 w ∧
      w1.top.head? = some k ∧ w1.v.bsw.bits = p

theorem Written.turn {w0 w w' : Walk Jammer} (h : Written room r w0 w) (hd : w.done = false)
    (ht : jamTurn room r w = some w') : Written room r w0 w' := by
  have hone := Reaches.one hd ht
  rcases jamTurn_dict h.dict ht with he | ⟨h1, ref, h2, h3, h4⟩
  · refine ⟨h.reach.trans hone, by rw [he]; exact h.dict, fun k p hp => ?_⟩
    rw [he] at hp
    obtain ⟨w1, h1, h2, h3⟩ := h.place k p hp
    exact ⟨w1, h1, h2.trans hone, h3⟩
  · refine ⟨h.reach.trans hone, h1, fun k p hp => ?_⟩
    rw [h4] at hp
    split at hp
    · rename_i hk
      cases hp
      exact ⟨w, h.reach, hone, by rw [hk, h2], rfl⟩
    · obtain ⟨w1, h1, h2, h3⟩ := h.place k p hp
      exact ⟨w1, h1, h2.trans hone, h3⟩

/-- What the dictionary says, it says from then on. -/
theorem jamTurn_keeps {w w' : Walk Jammer} {k : Nref} {p : ℕ}
    (h : w.v.dict.Ok (keyMug r) ∧ dictGet (keyMug r) w.v.dict k = some p) (ht : jamTurn room r w = some w') :
    w'.v.dict.Ok (keyMug r) ∧ dictGet (keyMug r) w'.v.dict k = some p := by
  rcases jamTurn_dict h.1 ht with he | ⟨h1, ref, -, h3, h4⟩
  · rw [he]; exact h
  · refine ⟨h1, ?_⟩
    rw [h4, if_neg fun hk => ?_]
    · exact h.2
    · rw [← hk, h.2] at h3
      cases h3

/-- **A back-reference's place is where its noun was written**: in every state
the jammer comes to, a place in its dictionary is where the cursor was when it
visited that reference first, and one of the places planned for the noun. -/
theorem jam_places {ref : Nref} {x : Noun} {w0 w w' : Walk Jammer} (h0 : jamInit room r ref = some w0)
    (hend : Reaches (jamTurn room r) Walk.done w0 w') (hj : Jammed r w0 w' [] (marks x) 0 (jam x) [])
    (hreach : Reaches (jamTurn room r) Walk.done w0 w) {k : Nref} {p : ℕ}
    (hk : dictGet (keyMug r) w.v.dict k = some p) :
    (∃ w1, Reaches (jamTurn room r) Walk.done w0 w1 ∧ Reaches (jamTurn room r) Walk.done w1 w ∧
      w1.top.head? = some k ∧ w1.v.bsw.bits = p) ∧ ∃ y, Den r k y ∧ (p, y) ∈ marks x := by
  obtain ⟨hat, -, -⟩ := jamInit_at h0
  have hw : Written room r w0 w := hreach.inv (fun _ _ => Written.turn)
    ⟨.refl _, hat.dict, fun k p hp => by
      obtain ⟨y, hy⟩ := hat.den k ((has_iff hat.dict).mpr ⟨p, hp⟩)
      rw [hat.get k y hy] at hp
      cases hp⟩
  refine ⟨hw.place k p hk, ?_⟩
  have hdone : w'.done = true := by rw [Walk.done, hj.top]; rfl
  -- the loop passes through `w` on its way to `w'`
  obtain ⟨n, hn⟩ := run_of_reaches hend (run_done hdone 0)
  obtain ⟨m, hm⟩ := run_reaches hreach hn
  have hfin := run_inv (P := fun w => w.v.dict.Ok (keyMug r) ∧ dictGet (keyMug r) w.v.dict k = some p)
    (fun _ _ => jamTurn_keeps) ⟨hw.dict, hk⟩ hm
  obtain ⟨y, hy⟩ := hj.at'.den k ((has_iff hfin.1).mpr ⟨p, hfin.2⟩)
  refine ⟨y, hy, mem_of_find ?_⟩
  rw [← hj.at'.get k y hy, hfin.2]

end Serial
end Ursockets

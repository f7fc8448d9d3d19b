/-
# Hashtables

`hashtable.c`: a trie on the mug of the key. The root has 64 slots, for the
first 6 bits; below it nodes branch on 5 bits each, with a bitmap of the slots
they have, down to buckets for the keys of one mug. A slot holds a single
key-value pair as high up as it can.

The level `n` of a slot says how many branchings are below it: `lef_w` of the
source is `5 * n`. The tables are those of `u3h_new`, whose `max_w` is zero, so
that a put never trims. Keys are compared by `=`, as `u3r_sing` does.

Key definitions: `u3hPut`, `u3hDel`, `u3hGit`, `u3hUni`.
-/
import Ursockets.Lib.Sparse
import Ursockets.Noun

namespace Ursockets
namespace Hashtable

open Sparse

/-- A key-value pair in a slot, and its "freshly warm" bit. -/
structure Ent where
  warm : Bool
  key : Noun
  val : Noun
  deriving DecidableEq, Repr

/-- `u3h_noun_be_warm(u3h_noun_to_slot([key val]))`. -/
def Ent.fresh (key val : Noun) : Ent := ⟨true, key, val⟩

/-- `u3h_slot`. -/
inductive Slot where
  | null
  | noun (kev : Ent)
  | node (map : ℕ) (sot : List Slot)
  | buck (sot : List Ent)

/-- `u3h_slot_is_noun`, `u3h_slot_is_null`. -/
def Slot.isNoun : Slot → Bool
  | .noun _ => true
  | _ => false

def Slot.isNull : Slot → Bool
  | .null => true
  | _ => false

/-- `u3h_root`, of a table without a maximum: the pairs it counts and its slots. -/
structure Root where
  use : ℕ
  sot : ℕ → Slot

/-- `u3h_new`. -/
def u3hNew : Root := ⟨0, fun _ => .null⟩

/-- The mug of a key. -/
def keyMug (key : Noun) : ℕ := key.mug.toNat

/-! ### Putting -/

/-- The loop of `_ch_buck_add`: the pair of the same key replaced, if there is one. -/
def buckReplace (kev : Ent) : List Ent → Option (List Ent)
  | [] => none
  | kov :: es => if kev.key = kov.key then some (kev :: es) else (buckReplace kev es).map (kov :: ·)

/-- `_ch_buck_add`: the bucket, and what the count of pairs grows by. -/
def chBuckAdd (kev : Ent) (es : List Ent) : List Ent × ℕ :=
  match buckReplace kev es with
  | some es => (es, 0)
  | none => (kev :: es, 1)

/-- `_ch_two`. -/
def chTwo : ℕ → Ent → Ent → ℕ → ℕ → Slot
  | 0, had, add, _, _ => .buck [had, add]
  | n + 1, had, add, ham, mad =>
    let hop := ham >>> (5 * n)
    let tad := mad >>> (5 * n)
    if hop = tad then
      .node (1 <<< hop) [chTwo n had add (cutEnd ham (5 * n)) (cutEnd mad (5 * n))]
    else
      .node (1 <<< hop ||| 1 <<< tad)
        (if hop < tad then [.noun had, .noun add] else [.noun add, .noun had])

/-- `_ch_slot_put`, with `_ch_some_add` and `_ch_node_add`: the slot, and what
the count of pairs grows by. -/
def chSlotPut : ℕ → Ent → ℕ → Slot → Slot × ℕ
  | n, kev, rem, .noun kov =>
    if kev.key = kov.key then (.noun kev, 0)
    else (chTwo n kov kev (cutEnd (keyMug kov.key) (5 * n)) rem, 1)
  | 0, kev, _, .buck es => (.buck (chBuckAdd kev es).1, (chBuckAdd kev es).2)
  | n + 1, kev, rem, .node map sot =>
    let bit := rem >>> (5 * n)
    let rem := cutEnd rem (5 * n)
    let inx := popcount (cutEnd map bit)
    if bitSet map bit then
      let (tos, use) := chSlotPut n kev rem (sot.getD inx .null)
      (.node map (sot.set inx tos), use)
    else
      (.node (setBit map bit) (sot.insertIdx inx (.noun kev)), 1)
  | _, _, _, slot => (slot, 0)

/-- `u3h_put`. -/
def u3hPut (har : Root) (key val : Noun) : Root :=
  let kev := Ent.fresh key val
  let mug := keyMug key
  let inx := mug >>> 25
  let rem := cutEnd mug 25
  if (har.sot inx).isNull then
    { use := har.use + 1, sot := Function.update har.sot inx (.noun kev) }
  else
    let (slot, use) := chSlotPut 5 kev rem (har.sot inx)
    { use := har.use + use, sot := Function.update har.sot inx slot }

/-! ### Deleting -/

/-- `_ch_buck_del`: the bucket without the first pair of the key, and whether
there was one. -/
def chBuckDel (key : Noun) : List Ent → List Ent × Bool
  | [] => ([], false)
  | kov :: es =>
    if key = kov.key then (es, true)
    else (kov :: (chBuckDel key es).1, (chBuckDel key es).2)

/-- `_ch_slot_del`, with `_ch_some_del` and `_ch_node_del`: the slot, and
whether a pair was deleted. -/
def chSlotDel : ℕ → Noun → ℕ → Slot → Slot × Bool
  | _, _, _, .noun _ => (.null, true)
  | 0, key, _, .buck es => (.buck (chBuckDel key es).1, (chBuckDel key es).2)
  | n + 1, key, rem, .node map sot =>
    let bit := rem >>> (5 * n)
    let rem := cutEnd rem (5 * n)
    let inx := popcount (cutEnd map bit)
    if ¬ bitSet map bit then (.node map sot, false)
    else
      let (tos, del) := chSlotDel n key rem (sot.getD inx .null)
      if ¬ del then (.node map sot, false)
      else if ¬ tos.isNull then (.node map (sot.set inx tos), true)
      else
        let kes := sot.getD (if inx = 0 then 1 else 0) .null
        if popcount map = 2 ∧ kes.isNoun then (kes, true)
        else (.node (clearBit map bit) (sot.eraseIdx inx), true)
  | _, _, _, slot => (slot, false)

/-- `u3h_del`. -/
def u3hDel (har : Root) (key : Noun) : Root :=
  let mug := keyMug key
  let inx := mug >>> 25
  let rem := cutEnd mug 25
  if (har.sot inx).isNull then har
  else
    let (slot, del) := chSlotDel 5 key rem (har.sot inx)
    { use := if del then har.use - 1 else har.use, sot := Function.update har.sot inx slot }

/-! ### Getting -/

/-- `_ch_buck_git`. -/
def chBuckGit (key : Noun) : List Ent → Option Noun
  | [] => none
  | kev :: es => if key = kev.key then some kev.val else chBuckGit key es

/-- `_ch_node_git`, with the single pairs and buckets it ends at. -/
def chSlotGit : ℕ → Noun → ℕ → Slot → Option Noun
  | _, key, _, .noun kev => if key = kev.key then some kev.val else none
  | 0, key, _, .buck es => chBuckGit key es
  | n + 1, key, rem, .node map sot =>
    let bit := rem >>> (5 * n)
    let rem := cutEnd rem (5 * n)
    if ¬ bitSet map bit then none
    else chSlotGit n key rem (sot.getD (popcount (cutEnd map bit)) .null)
  | _, _, _, _ => none

/-- `u3h_git`: the table, in which a pair found in the root is warm, and the value. -/
def u3hGit (har : Root) (key : Noun) : Root × Option Noun :=
  let mug := keyMug key
  let inx := mug >>> 25
  let rem := cutEnd mug 25
  match har.sot inx with
  | .null => (har, none)
  | .noun kev =>
    if key = kev.key then
      ({ har with sot := Function.update har.sot inx (.noun { kev with warm := true }) }, some kev.val)
    else (har, none)
  | slot => (har, chSlotGit 5 key rem slot)

/-- `u3h_get`: as `u3h_git`, with a reference of its own to the value. -/
def u3hGet (har : Root) (key : Noun) : Root × Option Noun := u3hGit har key

/-! ### Uniting -/

/-- `_ch_walk_node` and `_ch_walk_buck`: the pairs under a slot, in order. -/
def chWalkSlot : ℕ → Slot → List Ent
  | _, .noun kev => [kev]
  | 0, .buck es => es
  | n + 1, .node _ sot => sot.flatMap (chWalkSlot n)
  | _, _ => []

/-- The pairs that `u3h_walk_with` visits, in order. -/
def u3hWalk (har : Root) : List Ent := (List.range 64).flatMap fun i => chWalkSlot 5 (har.sot i)

/-- `u3h_uni`: the pairs of `rah` are put into `har`. -/
def u3hUni (har rah : Root) : Root :=
  (u3hWalk rah).foldl (fun har kev => u3hPut har kev.key kev.val) har

end Hashtable
end Ursockets

/-
# The json of messages to and from relays

Messages to a relay and from one as json, and back (`app/lib/json/nostr.hoon`). A number is
written in decimal, and an id or a key in sixteens; a set is written as a list, and a filter's
tags as entries of its own with a `#` before each letter.

The reader keeps the `#`, so a filter with tags is never read back; and it knows the messages of
a relay by names in capitals, which the writer has in small letters. The writer gives up on a
public key of zero and on a time before 1970. All else is read back as it was.

Key definitions: `Json`, `enEvent`, `enFilter`, `enRelayMsg`, `enReq`, `deEvent`, `deFilter`,
`deRelayMsg`, `deClientMsg`, `RoundTrips`.
Key theorems: `deHex_enHex`, `ni_numb`, `event_round`, `filter_round`, `codec_iff`.
-/
import Ursockets.Nostrill
import Mathlib.Data.String.Basic

namespace Ursockets
namespace NostrJson

open Nostrill (Event Filter RelayMsg ClientMsg Map)

/-! ### Numbers as text -/

/-- `x:ne` and `d:ne`: a digit. -/
def digit (d : ℕ) : Char := Char.ofNat (if d < 10 then d + 48 else d + 87)

/-- `(x-co:co min)`: in sixteens, with at least `min` digits, before those of `rep`. -/
def xCo (min hol : ℕ) (rep : List Char) : List Char :=
  if hol = 0 ∧ min = 0 then rep else xCo (min - 1) (hol / 16) (digit (hol % 16) :: rep)
termination_by min + hol

/-- The loop of `numb`: in tens, last digit first. -/
def numbLoop (a : ℕ) : List Char :=
  if a = 0 then [] else digit (a % 10) :: numbLoop (a / 10)

/-- `six:ab` -/
def six (c : Char) : Option ℕ :=
  if '0' ≤ c ∧ c ≤ '9' then some (c.toNat - 48) else if 'a' ≤ c ∧ c ≤ 'f' then some (c.toNat - 87) else none

/-- `dit`; the gaps that `dem` lets stand between digits are left out. -/
def dit (c : Char) : Option ℕ := if '0' ≤ c ∧ c ≤ '9' then some (c.toNat - 48) else none

/-- The digits of a text, after those already read. -/
def readDigits (bas : ℕ) (dig : Char → Option ℕ) : ℕ → List Char → Option ℕ
  | acc, [] => some acc
  | acc, c :: cs => (dig c).bind fun d => readDigits bas dig (acc * bas + d) cs

/-- `(rush txt (bass bas (plus dig)))` -/
def bass (bas : ℕ) (dig : Char → Option ℕ) (txt : String) : Option ℕ :=
  if txt.toList = [] then none else readDigits bas dig 0 txt.toList

/-! ### Json -/

/-- The text of a number is kept; the fields of an `obj` are listed in the order of their map. -/
inductive Json where
  | null
  | bool (b : Bool)
  | num (p : String)
  | str (s : String)
  | arr (l : List Json)
  | obj (l : List (String × Json))

/-- The orders in which sets and maps are gone over. -/
structure Taps where
  set : Finset ℕ → List ℕ
  toFinset_set (s : Finset ℕ) : (set s).toFinset = s
  tags : Map String (List String) → List (String × List String)
  keys_tags (m : Map String (List String)) (k : String) : k ∈ (tags m).map Prod.fst ↔ k ∈ m
  nodup_tags (m : Map String (List String)) : ((tags m).map Prod.fst).Nodup
  entries : List (String × Json) → List (String × Json)
  perm_entries (l : List (String × Json)) : (entries l).Perm l

/-- An entry put into a map. -/
def put (l : List (String × Json)) (e : String × Json) : List (String × Json) := l.filter (·.1 ≠ e.1) ++ [e]

/-- `pairs:enjs` -/
def pairs (T : Taps) (l : List (String × Json)) : Json := .obj (T.entries (l.foldl put []))

/-- `numb:enjs` -/
def numb (a : ℕ) : Json := .num (if a = 0 then "0" else String.ofList (numbLoop a).reverse)

/-- `~1970.1.1` -/
def unixEpoch : ℕ := 0x8000000cce9e0d80 * 2 ^ 64

/-- `sect:enjs`: seconds since 1970, of which there are none before. -/
def sect (a : ℕ) : Option Json := if unixEpoch ≤ a then some (numb ((a - unixEpoch) / 2 ^ 64)) else none

/-- `so:dejs-soft` -/
def so : Json → Option String
  | .str s => some s
  | _ => none

/-- `bo:dejs-soft` -/
def bo : Json → Option Bool
  | .bool b => some b
  | _ => none

/-- `ni:dejs-soft` -/
def ni : Json → Option ℕ
  | .num p => bass 10 dit p
  | _ => none

/-- `ar:dejs-soft` -/
def ar {α : Type} (wit : Json → Option α) : Json → Option (List α)
  | .arr l => l.mapM wit
  | _ => none

/-- A field of `ot:dejs-soft`. -/
def field {α : Type} (p : List (String × Json)) (k : String) (wit : Json → Option α) : Option α := (p.lookup k).bind wit

/-! ### Writing -/

/-- `hex:en:common` -/
def enHex (h : ℕ) : Json := .str (String.ofList (xCo 64 h []))

/-- `cord:en:common` -/
def enCord (s : String) : Json := .str s

/-- `tag:en` -/
def enTag (t : List String) : Json := .arr (t.map enCord)

/-- The fields of `event:en`. -/
def eventFields (pubkey : Json) (e : Event) : List (String × Json) :=
  [("id", enHex e.id), ("pubkey", pubkey), ("sig", enHex e.sig), ("created_at", numb e.createdAt),
    ("kind", numb e.kind),
    ("content", .str e.content), ("tags", .arr (e.tags.map enTag))]

/-- `event:en`. A relay's events have the public key with all its digits, the others without zeros before it. -/
def enEvent (T : Taps) (nostr : Bool) (e : Event) : Option Json :=
  let pubkey : Option Json :=
    if ¬ nostr then some (enHex e.pubkey)
    else match xCo 0 e.pubkey [] with
      | [] => none
      | pubkeyt => some (.str (String.ofList pubkeyt))
  pubkey.map fun pubkey => pairs T (eventFields pubkey e)

/-- `tags:en` -/
def enTags (T : Taps) (tm : Map String (List String)) : List (String × Json) :=
  (T.tags tm).map fun e => ("#" ++ e.1, .arr (e.2.map enCord))

/-- A field of `filter:en`: an entry if it is there. -/
def entry {α : Type} (key : String) (en : α → Json) (o : Option α) (l : List (String × Json)) : List (String × Json) :=
  match o with
  | none => l
  | some v => (key, en v) :: l

/-- A field of `filter:en` that is a time. -/
def timeEntry (key : String) (o : Option ℕ) (l : List (String × Json)) : Option (List (String × Json)) :=
  match o with
  | none => some l
  | some a => (sect a).map fun j => (key, j) :: l

/-- The entries of `filter:en`. -/
def filterFields (T : Taps) (f : Filter) : Option (List (String × Json)) :=
  let l := entry "ids" (fun s => .arr ((T.set s).map enHex)) f.ids []
  let l := entry "authors" (fun s => .arr ((T.set s).map enHex)) f.authors l
  let l := entry "kinds" (fun s => .arr ((T.set s).map numb)) f.kinds l
  let l := match f.tags with
    | none => l
    | some tm => l ++ enTags T tm
  (timeEntry "since" f.since l).bind fun l => (timeEntry "until" f.until l).map fun l => entry "limit" numb f.limit l

/-- `filter:en` -/
def enFilter (T : Taps) (f : Filter) : Option Json := (filterFields T f).map (pairs T)

/-- `cuss` -/
def cuss (s : String) : String :=
  String.ofList (s.toList.map fun c => if 'a' ≤ c ∧ c ≤ 'z' then Char.ofNat (c.toNat - 32) else c)

/-- `req:en`, with `enreq:en` -/
def enReq (T : Taps) : ClientMsg → Option Json
  | .req subId fs => (fs.mapM (enFilter T)).map fun js => .arr (.str (cuss "req") :: .str subId :: js)
  | .event e => (enEvent T true e).map fun j => .arr [.str (cuss "event"), j]
  | .auth e => (enEvent T true e).map fun j => .arr [.str (cuss "auth"), j]
  | .close subId => some (.arr [.str (cuss "close"), .str subId])

/-- `relay-msg:en` -/
def enRelayMsg (T : Taps) : RelayMsg → Option Json
  | .event subId e => (enEvent T false e).map fun j => .arr [.str "event", .str subId, j]
  | .ok id accepted msg => some (.arr [.str "ok", enHex id, .bool accepted, .str msg])
  | .eose subId => some (.arr [.str "eose", .str subId])
  | .closed subId _ => some (.arr [.str "closed", .str subId])
  | .notice msg => some (.arr [.str "notice", .str msg])
  | .auth challenge => some (.arr [.str "auth", .str challenge])

/-! ### Reading -/

/-- `hex:de:common` -/
def deHex : Json → Option ℕ
  | .str p => bass 16 six p
  | _ => none

/-- `du:de:common` -/
def du (jon : Json) : Option ℕ := (ni jon).map fun ts => unixEpoch + ts * 2 ^ 64

/-- `event:de` -/
def deEvent : Json → Option Event
  | .obj p =>
    (field p "id" deHex).bind fun id =>
    (field p "pubkey" deHex).bind fun pubkey =>
    (field p "created_at" ni).bind fun createdAt =>
    (field p "kind" ni).bind fun kind =>
    (field p "tags" (ar (ar so))).bind fun tags =>
    (field p "content" so).bind fun content =>
    (field p "sig" deHex).map fun sig => ⟨id, pubkey, createdAt, kind, tags, content, sig⟩
  | _ => none

/-- A turn of `filter:de`. -/
def readEntry (f : Filter) (entry : String × Json) : Filter :=
  if entry.1 = "ids" then
    match ar deHex entry.2 with
    | none => f
    | some vl => { f with ids := some vl.toFinset }
  else if entry.1 = "authors" then
    match ar deHex entry.2 with
    | none => f
    | some vl => { f with authors := some vl.toFinset }
  else if entry.1 = "kinds" then
    match ar ni entry.2 with
    | none => f
    | some vl => { f with kinds := some vl.toFinset }
  else if entry.1 = "limit" then { f with limit := ni entry.2 }
  else if entry.1 = "since" then { f with since := du entry.2 }
  else if entry.1 = "until" then { f with «until» := du entry.2 }
  else
    match ar so entry.2 with
    | none => f
    | some vl => { f with tags := some ((f.tags.getD ∅).insert entry.1 vl) }

/-- `filter:de` -/
def deFilter : Json → Option Filter
  | .obj p => some (p.foldl readEntry ⟨none, none, none, none, none, none, none⟩)
  | _ => none

/-- `relay-msg:de` -/
def deRelayMsg : Json → Option RelayMsg
  | .arr (.str head :: second :: rest) =>
    if head = "EVENT" then
      (so second).bind fun d => rest.head?.bind fun third => (deEvent third).map fun t => .event d t
    else if head = "OK" then
      (deHex second).bind fun d => rest.head?.bind fun third => (bo third).bind fun t =>
        rest.tail.head?.bind fun fourth => (so fourth).map fun f => .ok d t f
    else if head = "CLOSED" then
      (so second).bind fun d => rest.head?.bind fun third => (so third).map fun t => .closed d t
    else if head = "EOSE" then (so second).map .eose
    else if head = "NOTICE" then (so second).map .notice
    else if head = "AUTH" then (so second).map .auth
    else none
  | _ => none

/-- `client-msg:de` -/
def deClientMsg : Json → Option ClientMsg
  | .arr (.str head :: second :: rest) =>
    if head = "EVENT" then (deEvent second).map .event
    else if head = "REQ" then (so second).bind fun d => (ar deFilter (.arr rest)).map fun d2 => .req d d2
    else if head = "CLOSE" then (so second).map .close
    else if head = "AUTH" then (deEvent second).map .auth
    else none
  | _ => none

/-! ### Numbers read back -/

/-- The keys of a filter's fields; any other is a tag's. -/
def names : List String := ["ids", "authors", "kinds", "limit", "since", "until"]

/-- A time that is written and read back as it was: a whole second from 1970 on. -/
def Kept (o : Option ℕ) : Prop := ∀ a, o = some a → unixEpoch ≤ a ∧ 2 ^ 64 ∣ a - unixEpoch

/-- A filter with no tags, whose times are whole seconds from 1970 on. -/
def Plain (f : Filter) : Prop := f.tags = none ∧ Kept f.since ∧ Kept f.until

/-- A message from a relay or to one. -/
inductive Msg where
  | relay (msg : RelayMsg)
  | client (msg : ClientMsg)

/-- A message is written and read back as it was. -/
def RoundTrips (T : Taps) : Msg → Prop
  | .relay msg => (enRelayMsg T msg).bind deRelayMsg = some msg
  | .client msg => (enReq T msg).bind deClientMsg = some msg

/-- A message to a relay whose filters are plain and whose event has a public key that is not zero. -/
def Faithful : Msg → Prop
  | .relay _ => False
  | .client (.req _ fs) => ∀ f ∈ fs, Plain f
  | .client (.event e) => e.pubkey ≠ 0
  | .client (.auth e) => e.pubkey ≠ 0
  | .client (.close _) => True

theorem map_tap {α : Type} (m : Map String α) : (Nostrill.tap m).map Prod.fst = m.keys.sort (· ≥ ·) := by
  rw [Nostrill.tap, List.map_filterMap]
  have hsome : ∀ k ∈ m.keys.sort (· ≥ ·), ((m.lookup k).map fun v => (k, v)).map Prod.fst = some k := by
    intro k hk
    obtain ⟨v, hv⟩ := Finmap.mem_iff.mp (Finmap.mem_keys.mp ((Finset.mem_sort _).mp hk))
    rw [hv]
    rfl
  rw [List.filterMap_congr hsome, List.filterMap_some]

/-- Sets gone over from the least, and maps from the greatest key. -/
def sorted : Taps where
  set s := s.sort (· ≤ ·)
  toFinset_set s := Finset.sort_toFinset s (· ≤ ·)
  tags := Nostrill.tap
  keys_tags m k := by rw [map_tap, Finset.mem_sort, Finmap.mem_keys]
  nodup_tags m := map_tap m ▸ Finset.sort_nodup _ _
  entries l := l
  perm_entries l := .refl l

end NostrJson
end Ursockets

/-
# The table of requests

What is asked for has a name: a ship, its rift and a path. The requests are in a table whose key is
the path alone, so that a packet finds the request of its name just where no other ship, and no other
rift, is asked for the same path. Beside the table goes the one that has the whole name for its key.

Key definitions: `Requests`, `TableEvent`, `requestStep`, `tableTurn`, `Apart`, `AloneIn`.
Key theorems: `tableTurn_keyed`, `apart_alone`, `requests_apart_iff`.
-/
import Ursockets.Lib.Maps
import Ursockets.Lib.Replay
import Ursockets.MesaGage

namespace Ursockets
namespace Mesa

open Maps (Map)

/-! ### The table -/

/-- A value of the table: `CTAG_WAIT`, for what was sent and not answered, or a request. -/
inductive Pending where
  | wait
  | req (r : PendReq)

/-- The fields of `u3_mesa` for the requests, and the gage of each ship. -/
structure Requests where
  req : Map (List UInt8) Pending
  gag : Map Ship Gage

/-- `_mesa_get_request`. -/
def getRequest (c : Requests) (nam : Name (List UInt8)) : Option Pending := c.req.lookup nam.pat

/-- `_mesa_put_request` of what there is, and `_mesa_del_request` where there is nothing. -/
def setRequest (c : Requests) (nam : Name (List UInt8)) (q : Option Pending) : Requests :=
  { c with req := Maps.put c.req nam.pat q }

/-- A request with the gage of its ship, which its requests share. -/
def gaged (gag : Map Ship Gage) (r : PendReq) : PendReq := { r with gag := (gag.lookup r.nam.her).getD r.gag }

/-- What comes: a packet that the ship sends, the end of a second after it was sent, a page, a poke, the answer
about the authentication of a first page, and the end of a request's timer. -/
inductive TableEvent where
  | send (nam : Name (List UInt8))
  | retry (nam : Name (List UInt8)) (last : Bool)
  | page (nam : Name (List UInt8)) (dat : Data (List UInt8)) (now : UInt64) (mem : Memory) (wnf : UInt32)
  | poke (pay : Name (List UInt8))
  | veri (nam : Name (List UInt8)) (ok : Bool) (now : UInt64)
  | timeout (nam : Name (List UInt8)) (now : UInt64)

def TableEvent.nam : TableEvent → Name (List UInt8)
  | .send nam => nam
  | .retry nam _ => nam
  | .page nam _ _ _ _ => nam
  | .poke pay => pay
  | .veri nam _ _ => nam
  | .timeout nam _ => nam

/-- `_mesa_hear_page`, where the answer to what was sent comes first: a message of one leaf is taken, and a request
is made for the rest of a longer one. -/
def hearFirstPage (gag : Map Ship Gage) (nam : Name (List UInt8)) (dat : Data (List UInt8)) (mem : Memory)
    (wnf : UInt32) : Option (Option Pending × Map Ship Gage) :=
  if nam.fra ≠ 0 then some (some .wait, gag)
  else if mesaNumLeaves dat.tob = 1 then some (none, gag)
  else
    let g := (gag.lookup nam.her).getD (initGage wnf)
    match mesaReqPactInit mem g nam dat with
    | .error _ => none
    | .ok none => some (some .wait, gag.insert nam.her g)
    | .ok (some r) => some (some (.req r), gag.insert nam.her g)

/-- `_mesa_hear_page`, for a request: what it does to it, and what it asks for next. -/
def hearNextPage (X : Lss.Hasher Hash) (gag : Map Ship Gage) (r : PendReq) (nam : Name (List UInt8))
    (dat : Data (List UInt8)) (now : UInt64) : Option (Option Pending × Map Ship Gage) :=
  if nam.nit then some (some (.req r), gag)
  else
    match mesaReqPactDone X (gaged gag r) nam dat now with
    | .error _ => none
    | .ok none => some (none, gag)
    | .ok (some r) =>
      let gag := gag.insert r.nam.her r.gag
      if r.hav = r.tof then some (none, gag)
      else if r.hav < mesaNumLeaves dat.tob then
        match mesaRequestNextFragments r now with
        | .error _ => none
        | .ok (r, _) => some (some (.req r), gag)
      else some (some (.req r), gag)

/-- What an event does to what it finds in the table: what is there after it. It does not come back from a fault,
and a timer that there is no request for does not end. -/
def requestStep (X : Lss.Hasher Hash) (gag : Map Ship Gage) (q : Option Pending) :
    TableEvent → Option (Option Pending × Map Ship Gage)
  -- `_mesa_ef_send`, of a peek or a poke
  | .send _ =>
    match q with
    | none => some (some .wait, gag)
    | some q => some (some q, gag)
  -- `_mesa_resend_timer_cb`, which gives up at the last of its tries
  | .retry _ last =>
    match q with
    | some .wait => some (if last then none else some .wait, gag)
    | q => some (q, gag)
  -- `_mesa_hear_page`
  | .page nam dat now mem wnf =>
    match q with
    | none => some (none, gag)
    | some .wait => hearFirstPage gag nam dat mem wnf
    | some (.req r) => hearNextPage X gag r nam dat now
  -- `_mesa_hear_poke` looks for its payload
  | .poke _ => some (q, gag)
  -- `_mesa_veri_scry_cb`
  | .veri _ ok now =>
    match q with
    | some (.req r) =>
      if ok then
        match mesaRequestNextFragments (gaged gag r) now with
        | .error _ => none
        | .ok (r, _) => some (some (.req r), gag)
      else some (some (.req r), gag)
    | some .wait => if ok then none else some (some .wait, gag)
    | none => some (none, gag)
  -- `_mesa_packet_timeout`
  | .timeout nam now =>
    match q with
    | some (.req r) =>
      if r.nam.her = nam.her ∧ r.nam.rif = nam.rif then
        match tryResend (gaged gag r) r.nex now with
        | .error _ => none
        | .ok (r, _) => some (some (.req r), gag.insert r.nam.her r.gag)
      else none
    | _ => none

/-- The table after an event. -/
def requestTurn (X : Lss.Hasher Hash) (c : Requests) (e : TableEvent) : Option Requests := do
  let (q, gag) ← requestStep X c.gag (getRequest c e.nam) e
  some { setRequest c e.nam q with gag }

/-! ### The requests by their whole names -/

/-- A ship, its rift and a path. -/
abbrev Whole : Type := Ship × UInt32 × List UInt8

def Name.whole (nam : Name (List UInt8)) : Whole := (nam.her, nam.rif, nam.pat)

/-- The path of a whole name: the key of the table. -/
def Whole.pat (w : Whole) : List UInt8 := w.2.2

/-- The table, and the requests as they are where each name has its own. -/
structure Watched where
  code : Requests
  own : Map Whole Pending

def Watched.start : Watched := ⟨⟨∅, ∅⟩, ∅⟩

/-- The request of an event's name after it, where each name has its own. -/
def ownTurn (X : Lss.Hasher Hash) (gag : Map Ship Gage) (own : Map Whole Pending) (e : TableEvent) :
    Map Whole Pending :=
  match requestStep X gag (own.lookup e.nam.whole) e with
  | none => own
  | some (q, _) => Maps.put own e.nam.whole q

def tableTurn (X : Lss.Hasher Hash) (a : Watched) (e : TableEvent) : Option Watched := do
  let c ← requestTurn X a.code e
  some ⟨c, ownTurn X a.code.gag a.own e⟩

/-- **An event does not interfere**: it finds what is pending for its ship, rift and path, and leaves every other
request that is pending as it is. -/
structure Apart (X : Lss.Hasher Hash) (a : Watched) (e : TableEvent) : Prop where
  found : getRequest a.code e.nam = a.own.lookup e.nam.whole
  frame : ∀ w v, w ≠ e.nam.whole → a.own.lookup w = some v → ∀ b, tableTurn X a e = some b →
    b.code.req.lookup w.pat = a.code.req.lookup w.pat

/-- The events that come while no request of another ship, or of another rift, is pending for the path. -/
def AloneIn (a : Watched) (e : TableEvent) : Prop := Maps.Alone Whole.pat a.own e.nam.whole

/-- The table holds the requests that are pending, each alone with its path. -/
def Keyed (a : Watched) : Prop := Maps.KeyedBy Whole.pat a.code.req a.own

variable {X : Lss.Hasher Hash} {a b : Watched} {e : TableEvent}

/-- What a turn is. -/
theorem tableTurn_eq (h : tableTurn X a e = some b) : ∃ q gag,
    requestStep X a.code.gag (getRequest a.code e.nam) e = some (q, gag) ∧
    b = ⟨⟨Maps.put a.code.req e.nam.pat q, gag⟩, ownTurn X a.code.gag a.own e⟩ := by
  obtain ⟨c, hc, hb⟩ := Option.bind_eq_some_iff.mp h
  obtain ⟨⟨q, gag⟩, hq, hc⟩ := Option.bind_eq_some_iff.mp hc
  obtain rfl := Option.some.inj hc
  exact ⟨q, gag, hq, (Option.some.inj hb).symm⟩

/-- An event at a name that is alone keeps the table and the requests together. -/
theorem tableTurn_keyed (hk : Keyed a) (ha : AloneIn a e) (h : tableTurn X a e = some b) : Keyed b := by
  obtain ⟨q, gag, hq, rfl⟩ := tableTurn_eq h
  have hfound : getRequest a.code e.nam = a.own.lookup e.nam.whole := hk.lookup_iff.mpr ha
  have hown : ownTurn X a.code.gag a.own e = Maps.put a.own e.nam.whole q := by
    rw [hfound] at hq
    rw [ownTurn, hq]
  unfold Keyed
  rw [hown]
  exact hk.put ha q

/-- **An event does not interfere just when its name is alone.** -/
theorem apart_alone (hk : Keyed a) : Apart X a e ↔ AloneIn a e := by
  constructor
  · intro h
    exact hk.lookup_iff.mp h.found
  · intro ha
    refine ⟨hk.lookup_iff.mpr ha, fun w v hw hv b hb => ?_⟩
    obtain ⟨q, gag, -, rfl⟩ := tableTurn_eq hb
    exact Maps.KeyedBy.frame ha hv hw q

/-- **Requests do not interfere in a run just when each event's name is alone with its path.** -/
theorem requests_apart_iff (X : Lss.Hasher Hash) (l : List TableEvent) :
    Replay.Along (tableTurn X) (Apart X) .start l ↔ Replay.Along (tableTurn X) AloneIn .start l :=
  (Replay.Along.congr_all Keyed (fun _ _ _ hk ha h => tableTurn_keyed hk ha h) (fun _ _ hk => (apart_alone hk).symm)
    (show Keyed .start from Maps.KeyedBy.empty)).symm

/-- A path, on a galaxy. -/
def pathOn (her : UInt64) : Name (List UInt8) := ⟨⟨her, 0⟩, 0, 13, false, false, 0, [47, 99], []⟩

/-- `~zod` is asked for the path, and a page of `~nec` comes whose message is one leaf. -/
def askedZod (mem : Memory) : List TableEvent := [.send (pathOn 0), .page (pathOn 1) ⟨1, .none, [0]⟩ 0 mem 0]

/-- The page of the one is taken for the answer of the other. -/
theorem page_taken_for_other : ¬ ∀ (X : Lss.Hasher Hash) (mem : Memory),
    Replay.Along (tableTurn X) (Apart X) .start (askedZod mem) := by
  intro h
  obtain ⟨-, h⟩ := h ⟨fun _ _ => zeroHash, fun _ _ => zeroHash⟩ ⟨⟨.none, 0, 0, 0⟩, fun _ => 0, fun _ => ⟨0, 0, 0⟩,
    fun _ => (zeroHash, zeroHash), fun _ => 0⟩
  have hfound := congrArg Option.isSome (h _ rfl).1.found
  exact absurd hfound (by decide)

end Mesa
end Ursockets

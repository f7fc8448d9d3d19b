/-
# Talking to relays

Events are hashed, signed and sent; what a relay sends on a subscription is filed
in the nostr feed, the profiles and the feeds of the users the agent follows. A
request gets an id made of the entropy of the event in which it is sent, and is
recorded in a copy of the relay that the caller writes back.

Key definitions: `hashEvent`, `buildEvent`, `profileToEvent`, `postToEvent`,
`eventToPost`, `setReq`, `closeSubReq`, `getProfiles`, `unfollowUser`, `setRelay`,
`unsetRelay`, `handleWs`, `relayGet`, `handleRela`.
-/
import Ursockets.NostrillFeed
import Mathlib.Data.Nat.Digits.Defs
import Mathlib.Data.String.Basic

namespace Ursockets
namespace Nostrill

/-! ### Time -/

/-- `~1970.1.1` -/
def epoch : ℕ := 170141184475152167957503069145530368000

/-- `to-unix-secs`; a time before 1970 crashes. -/
def toUnixSecs (da : ℕ) : Option ℕ := if da < epoch then none else some ((da - epoch) / 2 ^ 64)

/-- `from-unix` -/
def fromUnix (ts : ℕ) : ℕ := epoch + ts * 2 ^ 64

/-- `~m10` -/
def m10 : ℕ := 600 * 2 ^ 64

/-- `~d1` -/
def d1 : ℕ := 86400 * 2 ^ 64

/-! ### Numerals -/

def hexChar (d : ℕ) : Char := if d < 10 then Char.ofNat (d + 48) else Char.ofNat (d + 87)

/-- A digit of `@uw`. -/
def uwChar (d : ℕ) : Char :=
  if d = 63 then '~'
  else if d = 62 then '-'
  else if d < 10 then Char.ofNat (d + 48)
  else if d < 36 then Char.ofNat (d + 87)
  else Char.ofNat (d + 29)

def hexText (l : List ℕ) : String := String.ofList (l.map hexChar)

/-- `gen-sub-id` -/
def genSubId (eny : ℕ) : String := String.ofList (((digits 64 0 eny eny).take 60).map uwChar)

/-! ### Markdown -/

/-- `inline-to-tape` -/
def inlineToTape (S : Sys) : Inline → String
  | .text p => p
  | .italic p => "_" ++ p ++ "_"
  | .bold p => "*" ++ p ++ "*"
  | .strike p => "~~" ++ p ++ "~~"
  | .ship p => S.scowP p
  | .codespan p => "`" ++ p ++ "`"
  | .link href show' => "[" ++ show' ++ "](" ++ href ++ ")"
  | .«break» => "\n"
  | _ => ""

def Heading.dashes : Heading → String
  | .h1 => "# "
  | .h2 => "## "
  | .h3 => "### "
  | .h4 => "#### "
  | .h5 => "##### "
  | .h6 => "###### "

/-- `block-to-md` -/
def blockToMd (S : Sys) : Block → String
  | .paragraph p => " ".intercalate (p.map (inlineToTape S))
  | .blockquote p => "> " ++ " ".intercalate (p.map (inlineToTape S))
  | .list p ordered =>
    "\n".intercalate (p.mapIdx fun i l =>
      (if ordered then S.sell (i + 1) ++ ". " else "- ") ++ inlineToTape S l)
  | .media (.images _) => ""
  | .media (.video p) => "![" ++ p ++ "](" ++ p ++ ")"
  | .media (.audio p) => "![" ++ p ++ "](" ++ p ++ ")"
  | .codeblock code _ => "```\n" ++ code ++ "\n```"
  | .heading p q => q.dashes ++ p
  | _ => ""

/-- `content-list-to-md` -/
def contentListToMd (S : Sys) (cl : List Block) : String := "\n\n".intercalate (cl.map (blockToMd S))

/-- `latest-post-content` -/
def latestPostContent (cm : ContentMap) : List Block := ((tap cm).head?.map Prod.snd).getD []

/-- `init-content-map` -/
def initContentMap (cl : List Block) (date : ℕ) : ContentMap := (∅ : ContentMap).insert date cl

/-! ### Json -/

/-- `pairs` -/
def pairs (S : Sys) (l : List (String × Json)) : Json :=
  .obj ((S.tapText (gas l).keys).filterMap fun k => ((gas l).lookup k).map fun v => (k, v))

def tagJson (t : List String) : Json := .arr (t.map .str)

/-- The public key's text: its digits but the first, which is the sign of the point. -/
def pubkeyText (pubkey : ℕ) : Option String :=
  match hexDigits 0 pubkey with
  | [] => none
  | _ :: t => some (hexText t)

/-- `raw-event:en` -/
def rawEventJson (e : RawEvent) : Option Json :=
  (pubkeyText e.pubkey).map fun p =>
    .arr [.num 0, .str p, .num e.createdAt, .num e.kind, .arr (e.tags.map tagJson), .str e.content]

/-- `hex:en` -/
def hexJson (h : ℕ) : Json := .str (hexText (hexDigits 64 h))

/-- `event:en`, as sent to a relay. -/
def eventJson (S : Sys) (e : Event) : Option Json :=
  (pubkeyText e.pubkey).map fun p =>
    pairs S [("id", hexJson e.id), ("pubkey", .str p), ("sig", hexJson e.sig), ("created_at", .num e.createdAt),
      ("kind", .num e.kind), ("content", .str e.content), ("tags", .arr (e.tags.map tagJson))]

/-- `user-meta:en` -/
def userMetaJson (S : Sys) (m : UserMeta) : Json :=
  pairs S ([("name", .str m.name), ("about", .str m.about), ("picture", .str m.picture)] ++
    (S.tapText m.other.keys).filterMap fun k => (m.other.lookup k).map fun v => (k, v))

def so : Json → Option String
  | .str s => some s
  | _ => none

/-- One field of `user-meta:de`. -/
def userMetaField (um : UserMeta) (k : String) (jn : Json) : UserMeta :=
  if k = "name" ∨ k = "display_name" ∨ k = "displayName" then { um with name := (so jn).getD um.name }
  else if k = "about" then { um with about := (so jn).getD um.about }
  else if k = "picture" ∨ k = "image" then { um with picture := (so jn).getD um.picture }
  else { um with other := um.other.insert k jn }

/-- `user-meta:de` -/
def userMetaDe : Json → Option UserMeta
  | .obj fields => some (fields.foldl (fun um e => userMetaField um e.1 e.2) ⟨"", "", "", ∅⟩)
  | _ => none

/-! ### Keys and events -/

/-- `compress-point` -/
def compressPoint (pt : ℕ × ℕ) : ℕ := (2 + pt.2 % 2) * 2 ^ 256 + pt.1 % 2 ^ 256

/-- `gen-keys` -/
def genKeys (S : Sys) (eny : ℕ) : Keys := ⟨compressPoint (S.privToPub (S.privkey eny)), S.privkey eny⟩

/-- `default-state` -/
def defaultState (S : Sys) (eny : ℕ) : State where
  relays := ∅
  globalRelayConn := none
  keys := genKeys S eny
  oldKeys := []
  feed := .empty
  feedPerms := .bunt
  nostrFeed := ∅
  profiles := ∅
  following := ∅
  following2 := ∅
  followGraph := ∅
  requests := ∅
  responses := ∅

/-- `(swp 3 a)`: the bytes of an atom, which end at its last nonzero one, the other way round. -/
def swp (a : ℕ) : ℕ := Nat.ofDigits 256 (Nat.digits 256 a).reverse

/-- `hash-event` -/
def hashEvent (S : Sys) (raw : RawEvent) : Option ℕ := (rawEventJson raw).map fun j => swp (S.shax (S.enJson j))

/-- `sign-event` -/
def signEvent (S : Sys) (priv hash eny : ℕ) : ℕ := S.sign priv hash (S.raws eny)

/-- How the builders of events end: the raw event hashed and signed. -/
def hashAndSign (S : Sys) (keys : Keys) (eny : ℕ) (raw : RawEvent) : Option Event :=
  (hashEvent S raw).map fun id =>
    ⟨id, keys.pub, raw.createdAt, raw.kind, raw.tags, raw.content, signEvent S keys.priv id eny⟩

/-- `build-event` -/
def buildEvent (S : Sys) (keys : Keys) (eny time : ℕ) (content : String) (kind : ℕ) : Option Event :=
  (toUnixSecs time).bind fun ts => hashAndSign S keys eny ⟨keys.pub, ts, kind, [], content⟩

/-- `profile-to-event` -/
def profileToEvent (S : Sys) (keys : Keys) (prof : UserProfile) (eny now : ℕ) : Option Event :=
  (toUnixSecs now).bind fun ts =>
    hashAndSign S keys eny ⟨keys.pub, ts, 0, [], S.enJson (userMetaJson S prof.userMeta)⟩

/-- `post-to-event` -/
def postToEvent (S : Sys) (keys : Keys) (eny : ℕ) (p : Post) (kind : ℕ) (tags : List (List String)) : Option Event :=
  (toUnixSecs p.id).bind fun ts =>
    hashAndSign S keys eny ⟨keys.pub, ts, kind, tags, contentListToMd S (latestPostContent p.contents)⟩

/-- `*perms:post` -/
def Perms.bunt : Perms := ⟨.bunt, .bunt⟩

/-- `*engagement:post` -/
def Engagement.bunt : Engagement := ⟨∅, ∅, ∅⟩

/-- The post of `event-to-post`. -/
def eventToPost (S : Sys) (ev : Event) : Post where
  id := fromUnix ev.createdAt
  host := ev.pubkey
  author := ev.pubkey
  thread := fromUnix ev.createdAt
  parent := none
  children := ∅
  contents := initContentMap (S.tokenize ev.content) (fromUnix ev.createdAt)
  perms := .bunt
  engagement := .bunt
  hash := ev.id
  signature := .bunt
  tags := ∅

/-! ### A plain system

What is outside the desk, made of plain functions, and an event at which nothing is subscribed: what runs on
fixed inputs are run with. -/

mutual

/-- Json printed, of texts in which nothing is escaped. -/
def Json.print : Json → String
  | .null => "null"
  | .bool b => if b then "true" else "false"
  | .num n => toString n
  | .str s => "\"" ++ s ++ "\""
  | .arr l => "[" ++ Json.printAll l ++ "]"
  | .obj l => "\x7b" ++ Json.printFields l ++ "\x7d"

def Json.printAll : List Json → String
  | [] => ""
  | [j] => j.print
  | j :: l => j.print ++ "," ++ Json.printAll l

def Json.printFields : List (String × Json) → String
  | [] => ""
  | [(k, j)] => "\"" ++ k ++ "\":" ++ j.print
  | (k, j) :: l => "\"" ++ k ++ "\":" ++ j.print ++ "," ++ Json.printFields l

end

def Sys.plain : Sys where
  tokenise s := some [.paragraph [.text s]]
  tokenize s := [.paragraph [.text s]]
  nyms _ := []
  deJson _ := none
  enJson := Json.print
  sell := toString
  slawUd := String.toNat?
  scowUd := toString
  slawUx _ := none
  slawUw := String.toNat?
  scowP := toString
  sein ship _ := ship
  clan _ := .czar
  shas := String.length
  shax s := 2 ^ 255 + s.length % 2 ^ 255
  shax_lt s := by
    have := Nat.mod_lt s.length (show 0 < 2 ^ 255 by decide)
    omega
  privkey := id
  raws := id
  privToPub k := (k, k)
  sign priv hash sed := priv + hash + sed
  tapNat s := s.sort (· ≤ ·)
  mem_tapNat := Finset.mem_sort _
  tapText s := s.sort (· ≤ ·)
  mem_tapText := Finset.mem_sort _

/-- An event at ship 0, from a ship. -/
def Bowl.plain (src : Ship) : Bowl := ⟨0, src, epoch, 1, [], [], []⟩

/-! ### Filters -/

/-- `is-feed` -/
def isFeed : List Filter → Bool
  | [] => false
  | f :: fs =>
    match f.kinds with
    | none => false
    | some kinds =>
      if 0 ∈ kinds then false
      else if 1 ∈ kinds ∧ f.ids.isNone ∧ f.authors.isNone ∧ f.tags.isNone then true
      else isFeed fs

/-- `is-specific-user-sub` -/
def isSpecificUserSub (pubkey : ℕ) (fs : List Filter) : Bool :=
  fs.any fun f => f.kinds = some {1} ∧ f.authors = some {pubkey} ∧ f.ids.isNone

/-- `profs-req` -/
def profsReq : List Filter → Bool
  | [] => false
  | f :: fs =>
    match f.kinds with
    | none => false
    | some kinds => if 0 ∈ kinds then true else profsReq fs

/-- `user-req`, from the public keys found so far. -/
def userReq (pubkeys : Finset ℕ) : List Filter → Finset ℕ
  | [] => pubkeys
  | f :: fs =>
    match f.kinds, f.authors with
    | some kinds, some authors => userReq (if 1 ∈ kinds ∧ f.ids.isNone then pubkeys ∪ authors else pubkeys) fs
    | _, _ => ∅

/-- `post-filter` -/
def postFilter (S : Sys) (f : Filter) : Option ℕ :=
  match f.kinds, f.ids with
  | some kinds, some ids =>
    if kinds = {1} then
      match S.tapNat ids with
      | [i] => some i
      | _ => none
    else none
  | _, _ => none

/-- `replies-filter` -/
def repliesFilter (S : Sys) (f : Filter) : Option ℕ :=
  match f.kinds, f.tags with
  | some kinds, some tags =>
    if kinds = {1} then
      match tags.lookup "e" with
      | some (i :: _) => S.slawUx i
      | _ => none
    else none
  | _, _ => none

/-- `thread-req`, from the parent found so far. -/
def threadReq (S : Sys) : Option ℕ → List Filter → Option ℕ
  | _, [] => none
  | none, f :: fs => threadReq S (postFilter S f) fs
  | some parent, f :: fs => if repliesFilter S f = some parent then some parent else threadReq S (some parent) fs

/-- `get-references` -/
def getReferences (S : Sys) (ev : Event) : List ℕ :=
  ev.tags.filterMap fun
    | "e" :: t :: _ => S.slawUx t
    | _ => none

/-! ### Requests -/

/-- `close-sub-req` -/
def closeSubReq (subId : String) (relay : RelayStats) : ClientMsg × RelayStats :=
  (.close subId, { relay with reqs := relay.reqs.erase subId })

/-- `set-req` -/
def setReq (B : Bowl) (relay : RelayStats) (name : String) (fs : List Filter) (ongoing : Option Bool)
    (chunked : List Filter) : ClientMsg × RelayStats :=
  (.req (genSubId B.eny) fs,
    { relay with reqs := relay.reqs.insert (genSubId B.eny) ⟨name, fs, 0, ongoing, chunked⟩ })

/-- `send-card` of a relay. -/
def sendCard (wid : ℕ) (msg : ClientMsg) : Card := .wsClient wid (.message (.client msg))

/-- `check-connected` -/
def checkConnected (B : Bowl) (url : String) : Option Socket := B.sockets.find? fun s => s.url = url

/-- `send-card` of the global relay. -/
def sendGlobal (B : Bowl) (msg : ClientMsg) : Card :=
  match checkConnected B globalRelay with
  | none => .oneOff globalRelay (.client msg)
  | some s => sendCard s.wid msg

/-- A request made, recorded and sent. -/
def request (B : Bowl) (wid : ℕ) (relay : RelayStats) (name : String) (fs : List Filter) (ongoing : Option Bool)
    (chunked : List Filter) : List Card × RelayStats :=
  let d := setReq B relay name fs ongoing chunked
  ([sendCard wid d.1], d.2)

/-- The filter of `get-posts`. -/
def postsFilter (B : Bowl) : Filter := ⟨none, none, some {1}, none, some (B.now - m10), none, none⟩

/-- `sub:get-posts` -/
def getPosts (B : Bowl) (wid : ℕ) (relay : RelayStats) : List Card × RelayStats :=
  request B wid relay "timeline" [postsFilter B] none []

/-- `get-user-feed` -/
def getUserFeed (B : Bowl) (wid : ℕ) (relay : RelayStats) (pubkey : ℕ) : List Card × RelayStats :=
  request B wid relay "user sub" [⟨none, some {pubkey}, some {1}, none, some (B.now - d1), none, none⟩] (some false) []

/-- `get-thread` -/
def getThread (B : Bowl) (wid : ℕ) (relay : RelayStats) (id : ℕ) : List Card × RelayStats :=
  request B wid relay "thread sub"
    [⟨some {id}, none, some {1}, none, none, none, none⟩,
      ⟨none, none, some {1}, some ((∅ : Map String (List String)).insert "e" [hexText (hexDigits 0 id)]),
        none, none, none⟩] (some false) []

/-- The filter of `get-profiles` for some public keys. -/
def profilesFilter (pubkeys : Finset ℕ) : Filter := ⟨none, some pubkeys, some {0}, none, none, none, none⟩

/-- The public keys in the nostr feed that have no profile. -/
def missingProfs (st : State) : Finset ℕ :=
  (((tap st.nostrFeed).map fun e => e.2.event.pubkey).filter fun p => (st.profiles.lookup (.nostr p)).isNone).toFinset

/-- The public keys of `get-profiles` in chunks of 300, or all together. -/
def profileChunks (S : Sys) (pubkeys : Finset ℕ) : List (Finset ℕ) :=
  if 300 < pubkeys.card then ((S.tapNat pubkeys).toChunks 300).map List.toFinset else [pubkeys]

/-- `get-profiles` -/
def getProfiles (S : Sys) (B : Bowl) (st : State) (wid : ℕ) (relay : RelayStats) : Option (List Card × RelayStats) :=
  match profileChunks S (missingProfs st) with
  | [] => none
  | first :: queue =>
    some (request B wid relay "user profiles fetch" [profilesFilter first] none (queue.map profilesFilter))

/-- `unfollow-user`: the first subscription to the user is closed. -/
def unfollowUser (S : Sys) (wid : ℕ) (relay : RelayStats) (pubkey : ℕ) : List Card × RelayStats :=
  match (S.tapText relay.reqs.keys).find? fun id =>
    (relay.reqs.lookup id).any fun rs => isSpecificUserSub pubkey rs.filters with
  | none => ([], relay)
  | some subId =>
    let d := closeSubReq subId relay
    ([sendCard wid d.1], d.2)

/-! ### Relays -/

/-- `get-relay`: the first relay. -/
def getRelay (S : Sys) (st : State) : Option (ℕ × RelayStats) :=
  (S.tapNat st.relays.keys).head?.bind fun wid => (st.relays.lookup wid).map fun relay => (wid, relay)

/-- `set-relay` -/
def setRelay (B : Bowl) (st : State) (wid : ℕ) : Outcome :=
  match B.sockets.find? fun s => s.wid = wid with
  | none => none
  | some socket =>
    if socket.accepted = false then none
    else if socket.url = globalRelay then some ([], { st with globalRelayConn := some wid })
    else
      let relays := st.relays.insert wid ⟨B.now, socket.url, ∅⟩
      some ([.ui (.nostrRelays relays)], { st with relays := relays })

/-- `unset-relay` -/
def unsetRelay (st : State) (wid : ℕ) : Outcome :=
  let relays := st.relays.erase wid
  some ([.wsClient wid .disconnect, .ui (.nostrRelays relays)], { st with relays := relays })

/-- `put`: a relay written back. -/
def State.putRelay (st : State) (wid : ℕ) (relay : RelayStats) : State :=
  { st with relays := st.relays.insert wid relay }

/-! ### Messages from relays -/

/-- `empty-nostr-profile` -/
def emptyNostrProfile (S : Sys) (pubkey : ℕ) (um : UserMeta) : UserProfile :=
  ⟨pubkey, ∅, 0, ∅, 0, um, none, S.nyms (.nostr pubkey)⟩

/-- `parse-metadata` -/
def parseMetadata (S : Sys) (st : State) (ev : Event) : State :=
  match (S.deJson ev.content).bind userMetaDe with
  | none => st
  | some um => { st with profiles := st.profiles.insert (.nostr ev.pubkey) (emptyNostrProfile S ev.pubkey um) }

/-- `parse-poast` -/
def parsePoast (S : Sys) (st : State) (url : String) (ev : Event) : State :=
  let st := { st with nostrFeed := st.nostrFeed.insert ev.createdAt ⟨[url], ev⟩ }
  match st.following.lookup (.nostr ev.pubkey) with
  | none => st
  | some f => { st with following := st.following.insert (.nostr ev.pubkey) (put f (eventToPost S ev)) }

/-- What `handle-event` does with an event on a known subscription; the follow lists, reposts and
reactions are not read yet. -/
def fileEvent (S : Sys) (st : State) (url : String) (ev : Event) : State :=
  if ev.kind = 0 then parseMetadata S st ev
  else if ev.kind = 1 then parsePoast S st url ev
  else st

/-- An event is filed with the relays as they are. -/
theorem fileEvent_relays (S : Sys) (st : State) (url : String) (ev : Event) :
    (fileEvent S st url ev).relays = st.relays := by
  unfold fileEvent
  split
  · unfold parseMetadata
    split <;> rfl
  · split
    · unfold parsePoast
      dsimp only
      split <;> rfl
    · rfl

/-- `handle-event` -/
def handleEvent (S : Sys) (st : State) (wid : ℕ) (relay : RelayStats) (subId : String) (ev : Event) :
    List Card × State :=
  match relay.reqs.lookup subId with
  | none => ([], st)
  | some req =>
    let relay := { relay with reqs := relay.reqs.insert subId { req with received := req.received + 1 } }
    (if req.ongoing = some true then [.ui (.nostrEvent ev)] else [],
      fileEvent S (st.putRelay wid relay) relay.url ev)

/-- The events of the nostr feed that satisfy `p`: a `skim` of its `tap`. -/
def NostrFeed.skim (feed : NostrFeed) (p : Event → Bool) : NostrFeed := gas ((tap feed).filter fun e => p e.2.event)

/-- The facts of `handle-eose`, and the request for profiles after a feed. -/
def eoseFacts (S : Sys) (B : Bowl) (st : State) (wid : ℕ) (relay : RelayStats) (req : ReqState) :
    Option (List Card × RelayStats) :=
  if isFeed req.filters then
    (getProfiles S B st wid relay).map fun d => (.ui (.nostrFeed st.nostrFeed) :: d.1, d.2)
  else if 0 < (userReq ∅ req.filters).card then
    some ([.ui (.nostrUser (st.nostrFeed.skim fun ev => ev.pubkey ∈ userReq ∅ req.filters))], relay)
  else
    match threadReq S none req.filters with
    | some id => some ([.ui (.nostrThread (st.nostrFeed.skim fun ev => id = ev.id ∨ id ∈ getReferences S ev))], relay)
    | none => some (if profsReq req.filters then [.ui (.prof st.profiles)] else [], relay)

/-- The next request of a chunked one. -/
def eoseNext (B : Bowl) (wid : ℕ) (relay : RelayStats) (req : ReqState) : List Card × RelayStats :=
  match req.chunked with
  | [] => ([], relay)
  | head :: tail => request B wid relay req.name [head] req.ongoing tail

/-- The request is closed, or marked as having sent its backlog. -/
def eoseLast (wid : ℕ) (relay : RelayStats) (subId : String) (req : ReqState) : List Card × RelayStats :=
  match req.ongoing with
  | none =>
    let d := closeSubReq subId relay
    ([sendCard wid d.1], d.2)
  | some _ => ([], { relay with reqs := relay.reqs.insert subId { req with ongoing := some true } })

/-- `handle-eose` -/
def handleEose (S : Sys) (B : Bowl) (st : State) (wid : ℕ) (relay : RelayStats) (subId : String) : Outcome :=
  match relay.reqs.lookup subId with
  | none => some ([], st)
  | some req =>
    (eoseFacts S B st wid relay req).map fun d =>
      let d2 := eoseNext B wid d.2 req
      let d3 := eoseLast wid d2.2 subId req
      let st := st.putRelay wid d3.2
      ([.ui (.nostrEose subId), .ui (.nostrRelays st.relays)] ++ (d.1 ++ (d2.1 ++ d3.1)), st)

/-- `handle-ws` -/
def handleWs (S : Sys) (B : Bowl) (st : State) (wid : ℕ) (relay : RelayStats) : RelayMsg → Outcome
  | .ok _ _ _ => some ([], st)
  | .event subId ev => some (handleEvent S st wid relay subId ev)
  | .eose subId => handleEose S B st wid relay subId
  | .closed subId _ => some ([], st.putRelay wid { relay with reqs := relay.reqs.erase subId })
  | .auth _ => some ([], st)
  | .notice _ => some ([], st)

/-! ### Orders from the user -/

/-- `relay-get`, for a thread of ours: the cards so far are put after the new ones. -/
def relayGet (B : Bowl) (tid : String) (rg : RelayGet) : List ℕ → List Card × State → Outcome
  | [], r => some r
  | wid :: wids, (cs, st) =>
    match st.relays.lookup wid with
    | none => relayGet B tid rg wids (cs, st)
    | some relay =>
      match rg with
      | .sync =>
        let d := getPosts B wid relay
        relayGet B tid rg wids (.spider tid (genSubId B.eny) :: (d.1 ++ cs), st.putRelay wid d.2)
      | _ => none

/-- One relay of `handle-rela`. -/
def relaOne (S : Sys) (B : Bowl) (st : State) (wid : ℕ) (relay : RelayStats) :
    RelayGet → Option (List Card × RelayStats)
  | .user pubkey => some (getUserFeed B wid relay pubkey)
  | .thread id => some (getThread B wid relay id)
  | .sync => some (getPosts B wid relay)
  | .prof => getProfiles S B st wid relay

/-- The loop of `handle-rela`. -/
def relaAll (S : Sys) (B : Bowl) (rg : RelayGet) : List ℕ → List Card × State → Outcome
  | [], r => some r
  | wid :: wids, (cs, st) =>
    match st.relays.lookup wid with
    | none => relaAll S B rg wids (cs, st)
    | some relay =>
      (relaOne S B st wid relay rg).bind fun d => relaAll S B rg wids (cs ++ d.1, st.putRelay wid d.2)

/-- The relays of `wids` that are connected, last first. -/
def connected (st : State) (wids : List ℕ) : List (ℕ × RelayStats) :=
  (wids.filterMap fun wid => (st.relays.lookup wid).map fun relay => (wid, relay)).reverse

/-- `get-poast` -/
def getPoast (B : Bowl) (st : State) (host : Ship) (id : Id) : Option Post :=
  if host = B.our then st.feed.get id else none

/-- `send-post`. The urls given to the interface are those of before the loop: none. -/
def sendPost (S : Sys) (B : Bowl) (st : State) (wids : List ℕ) (host : Ship) (id : Id) : Option (List Card) :=
  match getPoast B st host id with
  | none => some []
  | some p =>
    (postToEvent S st.keys B.eny p 1 []).map fun ev =>
      .ui (.nostrSentPost host id [] ev) :: (connected st wids).map fun r => sendCard r.1 (.event ev)

/-- `send-prof` -/
def sendProf (S : Sys) (B : Bowl) (st : State) (wids : List ℕ) : Option (List Card) :=
  match st.profiles.lookup (.urbit B.src) with
  | none => some []
  | some prof =>
    (profileToEvent S st.keys prof B.eny B.now).map fun ev =>
      .ui (.nostrSentProf []) :: sendGlobal B (.event ev) ::
        (connected st wids).map fun r => sendCard r.1 (.event ev)

/-- `handle-rela` -/
def handleRela (S : Sys) (B : Bowl) (st : State) (wids : List ℕ) : RelayOrder → Outcome
  | .sendProf => (sendProf S B st wids).map fun cs => (cs, st)
  | .sendPost host id => (sendPost S B st wids host id).map fun cs => (cs, st)
  | .get rg => (relaAll S B rg wids ([], st)).map fun r => (.ui (.nostrRelays r.2.relays) :: r.1, r.2)

/-- `handle-client-event`, as a relay: the event is refused. -/
def handleClientEvent (st : State) (wid : ℕ) (ev : Event) : List Card × State :=
  ([.wsServer wid (.message (.relay (.ok ev.id false "we're full")))], st)

/-- `handle-prof-fact` -/
def handleProfFact (B : Bowl) (st : State) (prof : Option UserProfile) : State :=
  match prof with
  | none => { st with profiles := st.profiles.erase (.urbit B.src) }
  | some p => { st with profiles := st.profiles.insert (.urbit B.src) p }

end Nostrill
end Ursockets

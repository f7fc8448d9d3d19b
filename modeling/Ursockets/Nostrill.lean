/-
# Nostrill: posts, relays and the agent's state

The agent keeps a feed of its own, the feeds of the users it follows, and what
nostr relays send it. Feeds, profiles and requests are maps (`Map`). A feed is
ordered, newest post first (`tap`); a plain map or set is listed in the order of
its tree, which is `Sys.tapNat` and `Sys.tapText`.

The agent's own feed has every post under its own id (`OwnFeed`), which all that
writes it keeps; a feed that another ship sent may have posts under any key.

What the agent calls outside its own desk, and the markdown parsers and name
books in it, are the fields of `Sys`; what gall and iris tell it at an event are
those of `Bowl`.

Key definitions: `Post`, `Feed`, `OwnFeed`, `RelayStats`, `State`, `Card`, `Bowl`, `Sys`.
-/
import Mathlib.Data.Finmap
import Mathlib.Data.Finset.Sort

namespace Ursockets
namespace Nostrill

/-- A map: `(map k v)`, or `((mop k v) gth)`. -/
abbrev Map (κ α : Type) := Finmap fun _ : κ => α

/-- `tap`: the entries, greatest key first. -/
def tap {κ α : Type} [LinearOrder κ] (m : Map κ α) : List (κ × α) :=
  (m.keys.sort (· ≥ ·)).filterMap fun k => (m.lookup k).map fun v => (k, v)

/-- `@p` -/
abbrev Ship := ℕ

/-- `@da`: a post's id is the time it was made. -/
abbrev Id := ℕ

inductive User where
  | urbit (p : Ship)
  | nostr (p : ℕ)
  deriving DecidableEq

/-- `upid`: a post of a user's feed. The order of the merged feeds compares a user by its atom; their
keys are all made by `atomToUser`, for which the atom says which of the two it is. -/
structure Upid where
  user : User
  id : Id
  deriving DecidableEq

/-- `((x-co:co min) a)` and the like: the digits of a number, at least `min` of them. -/
def digits (base min : ℕ) : ℕ → ℕ → List ℕ
  | 0, _ => []
  | fuel + 1, a => if a = 0 ∧ min = 0 then [] else digits base (min - 1) fuel (a / base) ++ [a % base]

/-- `(scow:sr %ux a)` with `min-chars`. -/
def hexDigits (min a : ℕ) : List ℕ := digits 16 min (a + min) a

/-- `validate-pubkey` -/
def validatePubkey (pubkey : ℕ) : Bool := (hexDigits 0 pubkey).length = 64

/-- `atom-to-user` -/
def atomToUser (p : ℕ) : User := if validatePubkey p then .nostr p else .urbit p

/-- `user-to-atom` -/
def userToAtom : User → ℕ
  | .urbit p => p
  | .nostr p => p

theorem userToAtom_atomToUser (p : ℕ) : userToAtom (atomToUser p) = p := by
  unfold atomToUser
  split <;> rfl

theorem atomToUser_inj {p q : ℕ} : atomToUser p = atomToUser q ↔ p = q :=
  ⟨fun h => by rw [← userToAtom_atomToUser p, h, userToAtom_atomToUser], congrArg _⟩

/-- The fields of an `obj` are listed in the order of their map. -/
inductive Json where
  | null
  | bool (b : Bool)
  | num (n : ℕ)
  | str (s : String)
  | arr (l : List Json)
  | obj (l : List (String × Json))

/-- `user-meta` -/
structure UserMeta where
  name : String
  about : String
  picture : String
  other : Map String Json

structure UrbitId where
  p : Ship
  point : ℕ
  gwid : List String

structure UserProfile where
  pubkey : ℕ
  following : Finset User
  followingCount : ℕ
  followers : Finset User
  followerCount : ℕ
  userMeta : UserMeta
  urbitId : Option UrbitId
  gwid : List String

/-! ### Gates -/

/-- `rank:title` -/
inductive Rank where
  | czar
  | king
  | duke
  | earl
  | pawn
  deriving DecidableEq

/-- `sublock` -/
structure Sublock (α : Type) where
  caveats : Finset α
  locked : Bool
  isPublic : Bool

def Sublock.bunt {α : Type} : Sublock α := ⟨∅, false, true⟩

/-- `lock`; `custom` is the function of the field. -/
structure Lock where
  rank : Sublock Rank
  luk : Sublock Ship
  ship : Sublock Ship
  tags : Sublock String
  pass : Option ℕ
  custom : Option (Ship → Bool)

def Lock.bunt : Lock := ⟨.bunt, .bunt, .bunt, .bunt, none, none⟩

/-- `gate:gate` -/
structure Gate where
  lock : Lock
  manual : Bool
  backlog : ℕ

def Gate.bunt : Gate := ⟨.bunt, false, 50⟩

/-! ### Posts -/

inductive Inline where
  | text (p : String)
  | italic (p : String)
  | bold (p : String)
  | strike (p : String)
  | codespan (p : String)
  | link (href show' : String)
  | «break»
  | underline (p : String)
  | sup (p : String)
  | sub (p : String)
  | ruby (p q : String)
  | ship (p : Ship)

inductive Heading where
  | h1
  | h2
  | h3
  | h4
  | h5
  | h6

inductive Media where
  | images (p : List String)
  | video (p : String)
  | audio (p : String)

/-- `block`; what a table holds is never looked at. -/
inductive Block where
  | paragraph (p : List Inline)
  | blockquote (p : List Inline)
  | table
  | heading (p : String) (q : Heading)
  | list (p : List Inline) (ordered : Bool)
  | media (m : Media)
  | codeblock (code lang : String)
  | eval (hoon : String)
  | ref (typ : String) (ship : Ship) (path : List String)
  | json (origin content : String)
  | poll (id : Id)

/-- `signature:post` -/
structure Signature where
  p : ℕ
  q : Ship
  r : ℕ
  deriving DecidableEq

/-- `*signature:post` -/
def Signature.bunt : Signature := ⟨0, 0, 0⟩

/-- `signed-pid` -/
structure SignedPid where
  signature : Signature
  ship : Ship
  id : Id
  deriving DecidableEq

structure Engagement where
  reacts : Map Ship (String × Signature)
  quoted : Finset SignedPid
  shared : Finset SignedPid

structure Perms where
  read : Gate
  write : Gate

/-- `content-map`: the versions of a post's contents by time. -/
abbrev ContentMap := Map ℕ (List Block)

structure Post where
  id : Id
  host : Ship
  author : Ship
  thread : Id
  parent : Option Id
  children : Finset Id
  contents : ContentMap
  perms : Perms
  engagement : Engagement
  hash : ℕ
  signature : Signature
  tags : Finset String

/-- `sent-post` -/
structure SentPost where
  host : Ship
  author : Ship
  thread : Option Id
  parent : Option Id
  contents : List Block

abbrev Feed := Map Id Post

/-- `full-node`: a post with its children in place of their ids. The graph of the children is empty
(`%empty`) when the post has no children's ids. -/
inductive FullNode where
  | mk (post : Post) (children : List FullNode)

/-- `fc`: a page of a feed. -/
structure Fc where
  feed : Feed
  start : Option Id
  «end» : Option Id

/-! ### Nostr -/

/-- `keys:nostr` -/
structure Keys where
  pub : ℕ
  priv : ℕ
  deriving DecidableEq

structure Event where
  id : ℕ
  pubkey : ℕ
  createdAt : ℕ
  kind : ℕ
  tags : List (List String)
  content : String
  sig : ℕ
  deriving DecidableEq

/-- `raw-event` -/
structure RawEvent where
  pubkey : ℕ
  createdAt : ℕ
  kind : ℕ
  tags : List (List String)
  content : String

/-- `wevent` -/
structure Wevent where
  relays : List String
  event : Event

structure Filter where
  ids : Option (Finset ℕ)
  authors : Option (Finset ℕ)
  kinds : Option (Finset ℕ)
  tags : Option (Map String (List String))
  since : Option ℕ
  «until» : Option ℕ
  limit : Option ℕ

/-- `req-state` -/
structure ReqState where
  name : String
  filters : List Filter
  received : ℕ
  ongoing : Option Bool
  chunked : List Filter

/-- `relay-stats` -/
structure RelayStats where
  start : ℕ
  url : String
  reqs : Map String ReqState

/-- `relay-msg` -/
inductive RelayMsg where
  | event (subId : String) (event : Event)
  | ok (id : ℕ) (accepted : Bool) (msg : String)
  | eose (subId : String)
  | closed (subId msg : String)
  | notice (msg : String)
  | auth (challenge : String)

/-- `client-msg` -/
inductive ClientMsg where
  | req (subId : String) (filters : List Filter)
  | event (event : Event)
  | auth (event : Event)
  | close (subId : String)

/-- A websocket message: a message to a relay, which is sent as its json, one from a relay, or any other text. -/
inductive WsMsg where
  | client (msg : ClientMsg)
  | relay (msg : RelayMsg)
  | text (s : String)

abbrev NostrFeed := Map ℕ Wevent

/-! ### Between ships -/

/-- `engagement` -/
inductive Eng where
  | reply (parent : Id) (child : Post)
  | quote (src : Id) (post : Post)
  | delQuote (src : Upid) (quote : Id)
  | delReply (parent : Upid) (child : Id)
  | rp (src : Upid) (target : Id)
  | reaction (pid : Upid) (reaction : String)
  | mention (post : Post)

/-- `deferred`, with the approval in it: `none` is `%thinking`, `some none` is `%ng`. -/
structure Deferred (α : Type) where
  msg : String
  p : Option (Option α)

structure FeedData where
  fc : Fc
  profile : UserProfile

/-- `fols-res` -/
abbrev FolsRes := Deferred FeedData

structure ThreadData where
  node : FullNode
  thread : List FullNode

/-- `res` -/
inductive Res where
  | feed (res : FolsRes)
  | thread (id : Id) (res : Deferred ThreadData)

/-- `beg-type` -/
inductive BegType where
  | feed
  | thread (id : Id)

/-- What is asked for by a `req`: `none` is `%fols`. -/
structure Req where
  msg : String
  p : Option BegType

/-- `nostr-meta` and the post it is about: `post-wrapper`. -/
structure PostWrapper where
  post : Post
  pub : ℕ
  prof : Option UserProfile
  evId : Option ℕ
  relays : List String

/-- `post-fact` -/
inductive PostFact where
  | add (pw : PostWrapper)
  | upd (pw : PostWrapper)
  | del (pw : PostWrapper)

/-- `fact:comms` -/
inductive Fact where
  | feed (res : FolsRes)
  | post (pf : PostFact)
  | prof (prof : Option UserProfile)

/-- `ws-proxy` -/
inductive WsProxy where
  | msg (msg : String)
  | disconnect

structure Decision where
  time : ℕ
  approved : Bool
  manual : Bool
  msg : String

/-- A value with the user and the time it came from and at. -/
structure Enbowl (α : Type) where
  user : User
  ts : ℕ
  p : α

structure Ruling where
  req : Enbowl Req
  gate : Gate
  decision : Decision

/-! ### The user interface -/

/-- `post-poke` -/
inductive PostPoke where
  | add (content : String) (global anon : Bool)
  | reply (content : String) (host : User) (id thread : Id)
  | quote (content : String) (host : User) (id : Id)
  | rp (host : User) (id : Id)
  | reaction (host : User) (id : Id) (reaction : String)
  | del (host : User) (id : Id)

inductive FolsPoke where
  | add (user : User)
  | del (user : User)

inductive ProfPoke where
  | add (userMeta : UserMeta)
  | del
  | fetch

/-- `relay-get` -/
inductive RelayGet where
  | sync
  | prof
  | user (pubkey : ℕ)
  | thread (id : ℕ)

/-- `relay-order` -/
inductive RelayOrder where
  | get (g : RelayGet)
  | sendPost (host : Ship) (id : Id)
  | sendProf

/-- `relay-poke` -/
inductive RelayPoke where
  | add (p : String)
  | del (p : ℕ)
  | «do» (relays : List ℕ) (action : RelayOrder)

/-- `poke:ui` -/
inductive UiPoke where
  | fols (p : FolsPoke)
  | begs
  | post (p : PostPoke)
  | prof (p : ProfPoke)
  | keys
  | rela (p : RelayPoke)

/-- `ted:ui` -/
inductive Ted where
  | req (tid : String) (relays : List ℕ) (p : RelayGet)
  | res (subId : String)

/-- `fact:ui` -/
inductive UiFact where
  | nostrFeed (feed : NostrFeed)
  | nostrUser (feed : NostrFeed)
  | nostrThread (feed : NostrFeed)
  | nostrEvent (event : Event)
  | nostrEose (subId : String)
  | nostrRelays (relays : Map ℕ RelayStats)
  | nostrDrop (url : String)
  | nostrSentPost (host : Ship) (id : Id) (relays : List String) (event : Event)
  | nostrSentProf (relays : List String)
  | post (pf : PostFact)
  | newUrbit (res : Enbowl FolsRes)
  | newNostr (pubkey : ℕ) (profile : Option UserProfile) (relays : List String)
  | quit (user : User)
  | prof (profiles : Map User UserProfile)

/-- The notices given to the notification agent. -/
inductive Notif where
  | req (req : Enbowl Req) (solved : Option Decision)
  | folRes (res : Enbowl FolsRes)
  | post (eng : Enbowl Eng)

/-! ### Own feeds -/

/-- Every post is under its id. -/
def Keyed (f : Feed) : Prop := ∀ id p, f.lookup id = some p → p.id = id

/-- `(put:orm f id.p p)` -/
def put (f : Feed) (p : Post) : Feed := f.insert p.id p

theorem lookup_put (f : Feed) (p : Post) : (put f p).lookup p.id = some p := Finmap.lookup_insert f

theorem lookup_put_ne {f : Feed} {p : Post} {id : Id} (h : id ≠ p.id) : (put f p).lookup id = f.lookup id :=
  Finmap.lookup_insert_of_ne f h

theorem lookup_put_if (f : Feed) (p : Post) (id : Id) :
    (put f p).lookup id = if id = p.id then some p else f.lookup id := by
  by_cases h : id = p.id
  · rw [if_pos h, h]
    exact lookup_put f p
  · rw [if_neg h, lookup_put_ne h]

theorem keyed_empty : Keyed ∅ := by
  intro id p h
  rw [Finmap.lookup_empty] at h
  cases h

theorem Keyed.put {f : Feed} (h : Keyed f) (p : Post) : Keyed (put f p) := by
  intro id q hq
  rw [lookup_put_if] at hq
  split at hq
  · rename_i hid
    rw [← Option.some.inj hq, hid]
  · exact h id q hq

theorem Keyed.erase {f : Feed} (h : Keyed f) (id : Id) : Keyed (f.erase id) := by
  intro x p hx
  by_cases hxi : x = id
  · rw [hxi, Finmap.lookup_erase] at hx
    cases hx
  · rw [Finmap.lookup_erase_ne hxi] at hx
    exact h x p hx

/-- The agent's own feed. -/
structure OwnFeed where
  posts : Feed
  keyed : Keyed posts

@[ext]
theorem OwnFeed.ext {f g : OwnFeed} (h : f.posts = g.posts) : f = g := by
  cases f
  cases g
  congr

namespace OwnFeed

def empty : OwnFeed := ⟨∅, keyed_empty⟩

def get (f : OwnFeed) (id : Id) : Option Post := f.posts.lookup id

def put (f : OwnFeed) (p : Post) : OwnFeed := ⟨Nostrill.put f.posts p, f.keyed.put p⟩

def del (f : OwnFeed) (id : Id) : OwnFeed := ⟨f.posts.erase id, f.keyed.erase id⟩

variable {f : OwnFeed} {p q : Post} {id : Id}

theorem get_put (f : OwnFeed) (p : Post) (id : Id) : (f.put p).get id = if id = p.id then some p else f.get id :=
  lookup_put_if f.posts p id

@[simp]
theorem get_put_self (f : OwnFeed) (p : Post) : (f.put p).get p.id = some p := lookup_put f.posts p

theorem get_put_ne (h : id ≠ p.id) : (f.put p).get id = f.get id := lookup_put_ne h

@[simp]
theorem get_del_self (f : OwnFeed) (id : Id) : (f.del id).get id = none := Finmap.lookup_erase id f.posts

theorem get_del_ne {x : Id} (h : x ≠ id) : (f.del id).get x = f.get x := Finmap.lookup_erase_ne h

theorem id_of_get (h : f.get id = some p) : p.id = id := f.keyed id p h

@[ext]
theorem ext_get {g : OwnFeed} (h : ∀ id, f.get id = g.get id) : f = g := OwnFeed.ext (Finmap.ext_lookup h)

theorem card_del_lt {x : Id} (h : f.get x = some p) : (f.del x).posts.keys.card < f.posts.keys.card := by
  show (f.posts.erase x).keys.card < _
  rw [Finmap.keys_erase]
  exact Finset.card_erase_lt_of_mem (Finmap.mem_keys.mpr (Finmap.mem_of_lookup_eq_some h))

end OwnFeed

/-! ### The agent -/

/-- `state-0`. The newest keys are the first. -/
structure State where
  relays : Map ℕ RelayStats
  globalRelayConn : Option ℕ
  keys : Keys
  oldKeys : List Keys
  feed : OwnFeed
  feedPerms : Gate
  nostrFeed : NostrFeed
  profiles : Map User UserProfile
  following : Map User Feed
  following2 : Map Upid Post
  followGraph : Map User (Finset User)
  requests : Map ℕ Req
  responses : Map ℕ Ruling

/-- The commands of `debug`. Those that only print are one; a command that fills the feed is the
posts its loop puts there, in order, made of texts in the desk and the entropy. -/
inductive Debug where
  | harkC
  | print
  | permsManual
  | permsLock
  | seed (posts : List Post)
  | delTed (thread : Id)
  | crash
  | iris (endpoint : String)
  | wsms (t : String)
  | wsmc (wid : ℕ) (t : String)
  | wso (url : String)
  | wsg
  | wsgp (t : String)
  | wsc
  | wsUi (t : String)
  | wst
  | irisf
  | irisEvent (wid : ℕ)
  | kick
  | leave
  | comms
  | uinf
  | tedt (tid : Option String)

/-- `poke:comms` -/
inductive CommsPoke where
  | eng (e : Eng)
  | ted (wid : ℕ) (w : WsProxy)
  | dbug (d : Debug)

/-- An event of a websocket, as given to iris or eyre. -/
inductive WsEvent where
  | accept
  | reject
  | message (msg : WsMsg)
  | disconnect

/-- The effects of the agent. -/
inductive Card where
  /-- a fact on `/ui` -/
  | ui (fact : UiFact)
  /-- the whole state, on `/ui` -/
  | uiState
  /-- a fact on `/follow` -/
  | followers (fact : Fact)
  /-- an answer on a path -/
  | answer (path : List String) (res : Res)
  | kick (path : List String)
  /-- a poke of another ship's agent -/
  | pokeHost (ship : Ship) (poke : Eng)
  | pokeBitch (ship : Ship)
  | hark (n : Notif)
  | clearHark
  | watch (ship : Ship)
  | leave (ship : Ship)
  /-- a poke of our own thread runner -/
  | spider (tid subId : String)
  /-- a fact on `/websocket-client/[wid]` -/
  | wsClient (wid : ℕ) (ev : WsEvent)
  /-- a fact on many paths of websockets -/
  | wsClients (paths : List (List String)) (msg : WsMsg)
  /-- a fact on `/websocket-server/[wid]` -/
  | wsServer (wid : ℕ) (ev : WsEvent)
  | connect (url : String)
  | cancel (wid : ℕ)
  | irisEvent (wid : ℕ) (ev : WsEvent)
  | oneOff (url : String) (msg : WsMsg)

/-- A socket as iris knows it. -/
structure Socket where
  wid : ℕ
  url : String
  accepted : Bool

/-- A subscription to the agent. -/
structure Subscriber where
  ship : Ship
  path : List String
  deriving DecidableEq

/-- `bowl:gall`, and what the scries at the event say. -/
structure Bowl where
  our : Ship
  src : Ship
  now : ℕ
  eny : ℕ
  /-- subscriptions to the agent -/
  sup : List Subscriber
  /-- ships whose agent this one is subscribed to -/
  wex : List Ship
  /-- the agent's sockets in iris -/
  sockets : List Socket

/-- What the agent calls: the parsers of text, the name books, the numerals, hashing, signing and
keys, the encoder of json, the sponsors of ships, and the order of a set's tree. -/
structure Sys where
  tokenise : String → Option (List Block)
  tokenize : String → List Block
  nyms : User → List String
  deJson : String → Option Json
  enJson : Json → String
  /-- `<n>` -/
  sell : ℕ → String
  slawUd : String → Option ℕ
  scowUd : ℕ → String
  slawUx : String → Option ℕ
  slawUw : String → Option ℕ
  scowP : Ship → String
  sein : Ship → ℕ → Ship
  clan : Ship → Rank
  shas : String → ℕ
  /-- a sha-256 digest; its first byte is the lowest -/
  shax : String → ℕ
  shax_lt : ∀ s, shax s < 2 ^ 256
  /-- `(~(rad og eny) (bex 256))`, drawn until it is a private key -/
  privkey : ℕ → ℕ
  /-- `(raws eny 256)` -/
  raws : ℕ → ℕ
  /-- the coordinates of the point of a private key -/
  privToPub : ℕ → ℕ × ℕ
  /-- `(sign:schnorr priv hash sed)` -/
  sign : ℕ → ℕ → ℕ → ℕ
  /-- `~(tap in s)` of a set of atoms -/
  tapNat : Finset ℕ → List ℕ
  mem_tapNat : ∀ {s x}, x ∈ tapNat s ↔ x ∈ s
  /-- `~(tap in s)` of a set of texts -/
  tapText : Finset String → List String
  mem_tapText : ∀ {s x}, x ∈ tapText s ↔ x ∈ s

/-- `global-relay:constants` -/
def globalRelay : String := "wss://nostr.sortug.com"

/-- What a handler gives: the cards and the state. `none` is a crash, after which nothing changed. -/
abbrev Outcome := Option (List Card × State)

end Nostrill
end Ursockets

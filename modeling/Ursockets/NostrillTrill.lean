/-
# Posts: the user's, and what other ships tell

The user's commands write the agent's feed and tell its followers, its interface
and the host of a post; another ship's engagement writes the post it is about; the
facts of a host are filed in the feed of the host that the post names.

Key definitions: `addToFeed`, `addReply`, `delFromFeed`, `handlePost`, `handleEng`,
`handlePostFact`.
-/
import Ursockets.NostrillRelay

namespace Ursockets
namespace Nostrill

/-! ### Building posts -/

/-- `build-sp`; a text that does not parse crashes. -/
def buildSp (S : Sys) (host author : Ship) (input : String) (parent thread : Option Id) : Option SentPost :=
  (S.tokenise input).map fun cl => ⟨host, author, thread, parent, cl⟩

/-- `build-post` -/
def buildPost (now pubkey : ℕ) (sp : SentPost) : Post where
  id := now
  host := sp.host
  author := sp.author
  thread := sp.thread.getD now
  parent := sp.parent
  children := ∅
  contents := initContentMap sp.contents now
  perms := .bunt
  engagement := .bunt
  hash := pubkey
  signature := .bunt
  tags := ∅

def Block.isRef : Block → Bool
  | .ref _ _ _ => true
  | _ => false

/-- `get-ref`: the post that a post refers to first. A reference without a path crashes. -/
def getRef (S : Sys) (p : Post) : Option (Option (Ship × Id)) :=
  let refs : List Block := (tap p.contents).flatMap fun e => e.2.filter Block.isRef
  match refs.head? with
  | some (.ref _ ship (h :: _)) => some ((S.slawUd h).map fun id => (ship, id))
  | some (.ref _ _ []) => none
  | _ => some none

def Inline.ship? : Inline → Option Ship
  | .ship p => some p
  | _ => none

/-- The parts of a block in which mentions are looked for. -/
def Block.inlines : Block → List Inline
  | .paragraph p => p
  | .list p _ => p
  | _ => []

/-- `extract-mentions` -/
def extractMentions (S : Sys) (p : Post) : List Ship :=
  S.tapNat ((((latestPostContent p.contents).flatMap Block.inlines).filterMap Inline.ship?).filter
    fun s => s ≠ p.host ∧ s ≠ p.author).toFinset

/-- `wrap-post` -/
def wrapPost (B : Bowl) (st : State) (p : Post) : PostWrapper :=
  ⟨p, if p.author = B.our then st.keys.pub else 0, st.profiles.lookup (atomToUser p.author), none, []⟩

/-! ### Feeds -/

/-- `add-to-feed` -/
def addToFeed (B : Bowl) (st : State) (p : Post) : State :=
  if B.our = p.host then { st with feed := st.feed.put p }
  else
    match st.following.lookup (atomToUser p.host) with
    | none => st
    | some uf =>
      { st with
        following := st.following.insert (atomToUser p.host) (put uf p)
        following2 := st.following2.insert ⟨atomToUser p.host, p.id⟩ p }

theorem addToFeed_keys {B : Bowl} {st : State} (p : Post) : (addToFeed B st p).keys = st.keys := by
  unfold addToFeed
  split
  · rfl
  · split <;> rfl

/-- A post with one more child. -/
def Post.addChild (p : Post) (id : Id) : Post := { p with children := insert id p.children }

/-- `add-reply` -/
def addReply (B : Bowl) (st : State) (p : Post) : Option State :=
  match p.parent with
  | none => none
  | some pid =>
    if B.our = p.host then
      match st.feed.get pid with
      | none => none
      | some parent => some { st with feed := (st.feed.put (parent.addChild p.id)).put p }
    else
      match st.following.lookup (atomToUser p.host) with
      | none => some st
      | some uf =>
        match uf.lookup pid with
        | none => none
        | some parent =>
          some { st with
            following := st.following.insert (atomToUser p.host) (put (put uf (parent.addChild p.id)) p)
            following2 := (st.following2.insert ⟨atomToUser p.host, parent.id⟩ (parent.addChild p.id)).insert
              ⟨atomToUser p.host, p.id⟩ p }

/-- `del-from-feed` -/
def delFromFeed (B : Bowl) (st : State) (p : Post) : State :=
  if B.our = p.host then { st with feed := st.feed.deleteWithChildren p }
  else
    match st.following.lookup (atomToUser p.host) with
    | none => st
    | some uf =>
      { st with
        following := st.following.insert (atomToUser p.host) (deleteWithChildren uf p)
        following2 := deleteFromGlobal st.following2 p }

/-! ### The user's commands -/

/-- A fact about a post, to the followers and to the interface. -/
def tellAll (f : PostFact) : List Card := [.followers (.post f), .ui (.post f)]

/-- The same, the other way round. -/
def tellUi (f : PostFact) : List Card := [.ui (.post f), .followers (.post f)]

def mentionCards (S : Sys) (p : Post) : List Card := (extractMentions S p).map fun s => .pokeHost s (.mention p)

/-- A post with a reaction of a ship. -/
def Post.react (p : Post) (ship : Ship) (reaction : String) (sign : Signature) : Post :=
  { p with engagement := { p.engagement with reacts := p.engagement.reacts.insert ship (reaction, sign) } }

/-- `handle-post` of `%del`, our own post: everything below it goes too, and its parent's link. A quote's
host is told, and then the parent keeps its link. -/
def handleDelOurs (S : Sys) (B : Bowl) (st : State) (id : Id) : Outcome :=
  match st.feed.get id with
  | none => some ([], st)
  | some p =>
    let st := { st with feed := (st.feed.del id).deleteNested (kids p) }
    let cards := tellAll (.del (wrapPost B st p))
    (getRef S p).map fun isRef =>
      match isRef with
      | some ref => (cards ++ [.pokeHost ref.1 (.delQuote ⟨.urbit B.our, ref.2⟩ p.id)], st)
      | none =>
        match p.parent with
        | none => (cards, st)
        | some pid =>
          match st.feed.get pid with
          | none => (cards, st)
          | some poast =>
            let poast := { poast with children := poast.children.erase p.id }
            (cards ++ tellAll (.upd (wrapPost B st poast)), { st with feed := st.feed.put poast })

/-- `handle-post` of `%del`, with another ship as the host: our reply there, or a repost in our feed. -/
def handleDelTheirs (S : Sys) (B : Bowl) (st : State) (host : Ship) (id : Id) : Outcome :=
  match st.feed.get id with
  | none => some ([.pokeHost host (.delReply ⟨.urbit host, 0⟩ id)], st)
  | some p =>
    match p.parent with
    | some _ => some ([], st)
    | none =>
      (getRef S p).map fun isRef =>
        match isRef with
        | none => ([], st)
        | some ref =>
          (tellAll (.del (wrapPost B st p)) ++ [.pokeHost ref.1 (.rp ⟨.urbit host, ref.2⟩ p.id)],
            { st with feed := st.feed.del id })

/-- `handle-post` of `%add` -/
def handleAddPost (S : Sys) (B : Bowl) (st : State) (content : String) (global : Bool) : Outcome :=
  (buildSp S B.our B.our content none none).bind fun sp =>
    let p := buildPost B.now st.keys.pub sp
    let st := addToFeed B st p
    let cards := mentionCards S p ++ tellUi (.add (wrapPost B st p))
    if global then
      (postToEvent S st.keys B.eny p 667 [["patp", S.scowP B.our]]).map fun ev =>
        ([.ui (.nostrSentPost p.host p.id [globalRelay] ev), sendGlobal B (.event ev)] ++ cards, st)
    else some (cards, st)

/-- The block that refers to a post. -/
def refBlock (S : Sys) (typ : String) (host : ℕ) (id : Id) : Block := .ref typ host [S.scowUd id]

/-- `handle-post` of `%quote` -/
def handleQuote (S : Sys) (B : Bowl) (st : State) (content : String) (host : User) (id : Id) : Outcome :=
  (buildSp S B.our B.our content none none).map fun sp =>
    match host with
    | .nostr h =>
      let p := buildPost B.now st.keys.pub { sp with contents := sp.contents ++ [refBlock S "nostr" h id] }
      let st := addToFeed B st p
      (tellUi (.add (wrapPost B st p)), st)
    | .urbit h =>
      let p := buildPost B.now st.keys.pub { sp with contents := sp.contents ++ [refBlock S "trill" h id] }
      let st := addToFeed B st p
      (mentionCards S p ++ tellUi (.add (wrapPost B st p)) ++ [.pokeHost h (.quote id p)], st)

/-- `handle-post` of `%reply` to a user of nostr: the event is built, and then tagged. -/
def handleReplyNostr (S : Sys) (B : Bowl) (st : State) (content : String) (id : Id) : Outcome :=
  match getRelay S st with
  | none => some ([], st)
  | some (wid, relay) =>
    (buildEvent S st.keys B.eny B.now content 1).map fun ev =>
      ([sendCard wid (.event { ev with tags := [["e", hexText (hexDigits 0 id), relay.url, "reply"]] })], st)

/-- `handle-post` of `%reply` -/
def handleReply (S : Sys) (B : Bowl) (st : State) (content : String) (host : User) (id thread : Id) : Outcome :=
  match host with
  | .nostr _ => handleReplyNostr S B st content id
  | .urbit h =>
    (buildSp S h B.our content (some id) (some thread)).bind fun sp =>
      let p := buildPost B.now st.keys.pub sp
      (addReply B st p).map fun st =>
        (mentionCards S p ++ tellUi (.add (wrapPost B st p)) ++ [.pokeHost p.host (.reply id p)], st)

/-- `handle-post` of `%rp` -/
def handleRp (S : Sys) (B : Bowl) (st : State) (host : User) (id : Id) : Outcome :=
  (buildSp S (userToAtom host) B.our "" none none).map fun sp =>
    let p := buildPost B.now st.keys.pub { sp with contents := [refBlock S "trill" (userToAtom host) id] }
    let st := { st with feed := st.feed.put p }
    match host with
    | .nostr _ => (tellUi (.add (wrapPost B st p)), st)
    | .urbit h => (tellUi (.add (wrapPost B st p)) ++ [.pokeHost h (.rp ⟨host, id⟩ p.id)], st)

/-- `handle-post` of `%reaction` -/
def handleReaction (B : Bowl) (st : State) (host : User) (id : Id) (reaction : String) : Outcome :=
  let eng := Eng.reaction ⟨host, id⟩ reaction
  if userToAtom host = B.our then
    (st.feed.get id).map fun p =>
      let p := p.react B.our reaction .bunt
      let st := addToFeed B st p
      (tellUi (.add (wrapPost B st p)) ++ [.pokeHost (userToAtom host) eng], st)
  else
    match (st.following.lookup host).bind fun uf => uf.lookup id with
    | none => some ([.pokeHost (userToAtom host) eng], st)
    | some p =>
      let p := p.react B.our reaction .bunt
      let st := addToFeed B st p
      some ([.ui (.post (.add (wrapPost B st p))), .pokeHost p.host eng], st)

/-- `handle-post` -/
def handlePost (S : Sys) (B : Bowl) (st : State) : PostPoke → Outcome
  | .del (.nostr _) _ => some ([], st)
  | .del (.urbit host) id => if B.our = host then handleDelOurs S B st id else handleDelTheirs S B st host id
  | .add content global _ => handleAddPost S B st content global
  | .quote content host id => handleQuote S B st content host id
  | .reply content host id thread => handleReply S B st content host id thread
  | .rp host id => handleRp S B st host id
  | .reaction host id reaction => handleReaction B st host id reaction

/-! ### Engagement from other ships -/

/-- The notice of an engagement. -/
def engHark (B : Bowl) (e : Eng) : Card := .hark (.post ⟨.urbit B.src, B.now, e⟩)

/-- How an engagement with a post of ours ends: the post is filed and told. -/
def engDone (B : Bowl) (st : State) (e : Eng) (poast : Post) : List Card × State :=
  let st := addToFeed B st poast
  ([.followers (.post (.upd (wrapPost B st poast))), .ui (.post (.add (wrapPost B st poast))), engHark B e], st)

/-- What names the sender's post. -/
def signedPid (B : Bowl) (id : Id) : SignedPid := ⟨.bunt, B.src, id⟩

/-- A post with its engagement changed. -/
def Post.engage (p : Post) (g : Engagement → Engagement) : Post := { p with engagement := g p.engagement }

def Engagement.quote (g : Engagement) (spid : SignedPid) : Engagement := { g with quoted := insert spid g.quoted }

def Engagement.unquote (g : Engagement) (spid : SignedPid) : Engagement := { g with quoted := g.quoted.erase spid }

/-- A share is undone by another. -/
def Engagement.share (g : Engagement) (spid : SignedPid) : Engagement :=
  { g with shared := if spid ∈ g.shared then g.shared.erase spid else insert spid g.shared }

/-- `handle-eng` of `%reply` -/
def engReply (B : Bowl) (st : State) (parent : Id) (child : Post) : Outcome :=
  let e := Eng.reply parent child
  match st.feed.get parent with
  | none => some ([engHark B e], st)
  | some _ =>
    (addReply B st child).map fun st =>
      match st.feed.get parent with
      | none => ([engHark B e], st)
      | some poast =>
        (tellAll (.add (wrapPost B st child)) ++
          [.followers (.post (.upd (wrapPost B st poast))), .ui (.post (.add (wrapPost B st poast))), engHark B e], st)

/-- `handle-eng` of `%del-reply`: the author of a reply may have it deleted. -/
def engDelReply (S : Sys) (B : Bowl) (st : State) (child : Id) : Outcome :=
  match st.feed.get child with
  | none => some ([], st)
  | some p =>
    if B.src ≠ p.author then some ([], st)
    else
      match p.parent.bind st.feed.get with
      | none => some ([], st)
      | some _ => handlePost S B st (.del (.urbit B.our) child)

/-- `handle-eng` of an engagement with the post under `id`, whose engagement it changes by `g`. -/
def engPost (B : Bowl) (st : State) (e : Eng) (id : Id) (g : Engagement → Engagement) : List Card × State :=
  match st.feed.get id with
  | none => ([engHark B e], st)
  | some poast => engDone B st e (poast.engage g)

def Engagement.react (g : Engagement) (ship : Ship) (reaction : String) (sign : Signature) : Engagement :=
  { g with reacts := g.reacts.insert ship (reaction, sign) }

/-- `handle-eng` -/
def handleEng (S : Sys) (B : Bowl) (st : State) (e : Eng) : Outcome :=
  match e with
  | .mention _ => some ([engHark B e], st)
  | .reply parent child => engReply B st parent child
  | .quote src post => some (engPost B st e src fun g => g.quote (signedPid B post.id))
  | .rp src target => some (engPost B st e src.id fun g => g.share (signedPid B target))
  | .reaction pid reaction =>
    some (engPost B st e pid.id fun g => g.react B.src reaction { Signature.bunt with q := B.src })
  | .delReply _ child => engDelReply S B st child
  | .delQuote src quote => some (engPost B st e src.id fun g => g.unquote (signedPid B quote))

/-! ### Facts from hosts -/

def PostFact.post : PostFact → Post
  | .add pw => pw.post
  | .upd pw => pw.post
  | .del pw => pw.post

/-- `handle-post-fact` -/
def handlePostFact (B : Bowl) (st : State) (pf : PostFact) : List Card × State :=
  match pf with
  | .add pw => ([.ui (.post pf)], addToFeed B st pw.post)
  | .upd pw => ([.ui (.post pf)], addToFeed B st pw.post)
  | .del pw => ([.ui (.post pf)], delFromFeed B st pw.post)

end Nostrill
end Ursockets

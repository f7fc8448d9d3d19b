/-
# Authority

A poke from another ship should leave the agent's keys, relays, follows, profiles and
permissions as they are, and have nothing done in our name. No mark but the engagement
of peers looks at the sender: the commands of the interface, of the developers and of
the sockets are carried out for any ship. What a foreign poke must be to do no harm is
said here of each mark and tag, by the state and the payload alone.

Key definitions: `Card.InOurName`, `Untouched`, `Safe`, `PokeFits`.
Key theorems: `onPoke_safe_iff`.
-/
import Ursockets.NostrillAgent
import Ursockets.Lib.Maps

namespace Ursockets
namespace Nostrill

/-! ### What a foreign poke may not do -/

/-- The cards that publish, sign, delete, follow, connect or send in our name: a post of ours told to the followers, or
another's that they did not ask to have deleted; our profile or feed; a signed event; a poke of another ship's agent; a
subscription made or left; a socket opened, answered, written to or closed. -/
def Card.InOurName (B : Bowl) : Card → Prop
  | .followers (.post (.add pw)) => pw.post.author = B.our
  | .followers (.post (.upd _)) => False
  | .followers (.post (.del pw)) => pw.post.author ≠ B.src
  | .followers (.prof _) => True
  | .followers (.feed _) => True
  | .ui (.nostrSentPost _ _ _ _) => True
  | .ui (.nostrSentProf _) => True
  | .ui _ => False
  | .uiState => False
  | .answer _ _ => True
  | .kick _ => False
  | .pokeHost _ _ => True
  | .pokeBitch _ => True
  | .hark _ => False
  | .clearHark => False
  | .watch _ => True
  | .leave _ => True
  | .spider _ _ => False
  | .wsClient _ _ => True
  | .wsClients paths _ => paths ≠ []
  | .wsServer _ _ => True
  | .connect _ => True
  | .cancel _ => True
  | .irisEvent _ _ => True
  | .oneOff _ _ => True

/-- The keys, relays, follows, profiles and permissions are the same. -/
structure Untouched (st st' : State) : Prop where
  keys : st'.keys = st.keys
  oldKeys : st'.oldKeys = st.oldKeys
  relays : st'.relays = st.relays
  globalRelayConn : st'.globalRelayConn = st.globalRelayConn
  following : st'.following = st.following
  followGraph : st'.followGraph = st.followGraph
  profiles : st'.profiles = st.profiles
  feedPerms : st'.feedPerms = st.feedPerms

/-- What comes of a poke does no harm; a crash does none. -/
def Safe (B : Bowl) (st : State) (o : Outcome) : Prop :=
  ∀ cs st', o = some (cs, st') → Untouched st st' ∧ ∀ c ∈ cs, ¬ c.InOurName B

/-! ### When it does not -/

/-- An event of ours can be made: the clock is past 1970 and the public key has a text. -/
def CanSign (st : State) (time : ℕ) : Prop := epoch ≤ time ∧ (pubkeyText st.keys.pub).isSome

/-- None of the relays is connected. -/
def Unconnected (st : State) (wids : List ℕ) : Prop := ∀ wid ∈ wids, st.relays.lookup wid = none

/-- No subscription of a relay is one to the user. -/
def Unsubscribed (relay : RelayStats) (pubkey : ℕ) : Prop :=
  ∀ id rs, relay.reqs.lookup id = some rs → isSpecificUserSub pubkey rs.filters = false

/-- A reply to the post `pid` of a host has no place to go: the post is not in our feed, or not in the feed of the host
that we follow. -/
def NoPlace (B : Bowl) (st : State) (host : Ship) (pid : Id) : Prop :=
  if B.our = host then st.feed.get pid = none
  else ∃ uf, st.following.lookup (atomToUser host) = some uf ∧ uf.lookup pid = none

/-- A reply filed under its host leaves the feeds we follow as they are: it is to us, or to one we do not follow, or
the post and its parent's link are there already. -/
def ReplyKnown (B : Bowl) (st : State) (pid : Id) (child : Post) : Prop :=
  B.our = child.host ∨ ∀ uf, st.following.lookup (atomToUser child.host) = some uf →
    ∀ parent, uf.lookup pid = some parent → uf.lookup child.id = some child ∧
      (parent.id = child.id ∨ uf.lookup parent.id = some (parent.addChild child.id))

/-- An engagement with the post under `id` leaves the feeds we follow as they are. -/
def EngageKnown (B : Bowl) (st : State) (id : Id) (g : Engagement → Engagement) : Prop :=
  ∀ p, st.feed.get id = some p → B.our = p.host ∨
    ∀ uf, st.following.lookup (atomToUser p.host) = some uf → uf.lookup p.id = some (p.engage g)

/-- Engagement. The author that a reply names is the sender's to choose. -/
def EngHarmless (S : Sys) (B : Bowl) (st : State) : Eng → Prop
  | .mention _ => True
  | .reply parent child => (st.feed.get parent).isSome → ∀ pid, child.parent = some pid →
      ¬ NoPlace B st child.host pid → child.author ≠ B.our ∧ ReplyKnown B st pid child
  | .quote src post => EngageKnown B st src fun g => g.quote (signedPid B post.id)
  | .rp src target => EngageKnown B st src.id fun g => g.share (signedPid B target)
  | .reaction pid reaction => EngageKnown B st pid.id fun g => g.react B.src reaction { Signature.bunt with q := B.src }
  | .delReply _ child => ∀ p, st.feed.get child = some p → B.src = p.author → (p.parent.bind st.feed.get).isSome →
      ∀ ref, getRef S p ≠ some (some ref)
  | .delQuote src quote => EngageKnown B st src.id fun g => g.unquote (signedPid B quote)

/-- Debug commands. -/
def DebugFits (S : Sys) (B : Bowl) (st : State) : Debug → Prop
  | .harkC | .print | .seed _ | .delTed _ | .crash | .kick | .uinf | .tedt _ => True
  | .wsms _ => ∀ s ∈ B.sup, widOf S "websocket-server" s.path = none
  | .wsgp t => S.tokenise t = none ∨ ¬ CanSign st B.now
  | .wsc => B.sockets = [] ∧ st.relays = ∅ ∧ st.globalRelayConn = none
  | .wsUi _ => ∀ h w l, connPaths B "websocket-server" = [h, w] :: l → S.slawUd w = none
  | .irisf => connPaths B "websocket-client" = []
  | .leave => B.wex = []
  | .permsManual | .permsLock | .iris _ | .wsmc _ _ | .wso _ | .wsg | .wst | .irisEvent _ | .comms => False

/-- Commands about posts. -/
def PostFits (S : Sys) (B : Bowl) (st : State) : PostPoke → Prop
  | .add content global _ => S.tokenise content = none ∨ (global = true ∧ ¬ CanSign st B.now)
  | .reply _ (.nostr _) _ _ => getRelay S st = none ∨ ¬ CanSign st B.now
  | .reply content (.urbit h) id _ => S.tokenise content = none ∨ NoPlace B st h id
  | .quote content _ _ => S.tokenise content = none
  | .rp _ _ => S.tokenise "" = none
  | .reaction host id _ => userToAtom host = B.our ∧ st.feed.get id = none
  | .del (.nostr _) _ => True
  | .del (.urbit host) id =>
    if B.our = host then ∀ p, st.feed.get id = some p → getRef S p = none ∨ (getRef S p = some none ∧ p.author = B.src)
    else ∃ p, st.feed.get id = some p ∧ (p.parent.isSome ∨ ∀ ref, getRef S p ≠ some (some ref))

/-- Commands to relays. -/
def RelayFits (B : Bowl) (st : State) : RelayPoke → Prop
  | .add _ | .del _ => False
  | .do wids (.get _) => Unconnected st wids
  | .do _ (.sendPost host id) => host = B.our → ∀ p, st.feed.get id = some p → ¬ CanSign st p.id
  | .do _ .sendProf => (st.profiles.lookup (.urbit B.src)).isSome → ¬ CanSign st B.now

/-- Follows taken back. -/
def UnfollowFits (S : Sys) (B : Bowl) (st : State) (user : User) : Prop :=
  st.following.lookup user = none ∧ ∀ graph, st.followGraph.lookup (.urbit B.our) = some graph →
    match user with
    | .urbit _ => False
    | .nostr p => user ∉ graph ∧ ∀ wid relay, getRelay S st = some (wid, relay) → Unsubscribed relay p

/-- Commands of the interface. -/
def UiFits (S : Sys) (B : Bowl) (st : State) : UiPoke → Prop
  | .keys => False
  | .fols (.add (.urbit _)) => False
  | .fols (.add (.nostr _)) => getRelay S st = none
  | .fols (.del user) => UnfollowFits S B st user
  | .begs => True
  | .prof (.add _) => ¬ CanSign st B.now
  | .prof .del => False
  | .prof .fetch => True
  | .rela p => RelayFits B st p
  | .post p => PostFits S B st p

/-- Messages of a relay, on a subscription of the relay or on none. -/
def RelayMsgFits (relay : RelayStats) : RelayMsg → Prop
  | .ok _ _ _ | .auth _ | .notice _ => True
  | .event subId _ => relay.reqs.lookup subId = none
  | .eose subId => ∀ req, relay.reqs.lookup subId = some req →
      req.ongoing = some true ∧ isFeed req.filters = false ∧ req.chunked = []
  | .closed subId _ => relay.reqs.lookup subId = none

/-- A foreign poke that does no harm. -/
def PokeFits (S : Sys) (B : Bowl) (st : State) : Poke → Prop
  | .noun (some (.dbug d)) => DebugFits S B st d
  | .noun (some (.ted _ _)) => False
  | .noun (some (.eng e)) => EngHarmless S B st e
  | .noun none => True
  | .json (some p) => UiFits S B st p
  | .json none => True
  | .nostrillTed (.req _ wids rg) => Unconnected st wids ∨ match rg with | .sync => False | _ => True
  | .nostrillTed (.res _) => True
  | .clientMessage wid msg => ∀ relay m, st.relays.lookup wid = some relay → msg = some m → RelayMsgFits relay m
  | .handshake _ url _ => url = none
  | .serverMessage _ path msg parsed => msg = none ∨ (path ≠ ["nostrill-ui"] ∧
      (path = ["nostrill"] → ∀ ev, parsed ≠ some (.event ev)))
  | .other => True

/-! ### Outcomes -/

section

variable {S : Sys} {B : Bowl} {st st' : State} {cs : List Card}

@[simp]
theorem Untouched.refl (st : State) : Untouched st st := ⟨rfl, rfl, rfl, rfl, rfl, rfl, rfl, rfl⟩

@[simp]
theorem safe_none : Safe B st none := by
  intro cs st' h
  cases h

@[simp]
theorem safe_some : Safe B st (some (cs, st')) ↔ Untouched st st' ∧ ∀ c ∈ cs, ¬ c.InOurName B := by
  constructor
  · intro h
    exact h cs st' rfl
  · intro h cs' st'' he
    obtain ⟨rfl, rfl⟩ := Prod.mk.inj (Option.some.inj he)
    exact h

/-- The state is the same: the cards decide. -/
theorem safe_same : Safe B st (some (cs, st)) ↔ ∀ c ∈ cs, ¬ c.InOurName B := by
  rw [safe_some]
  exact and_iff_right (Untouched.refl st)

/-- A card in our name is one too many. -/
theorem not_safe_of_mem {c : Card} (hc : c ∈ cs) (hn : c.InOurName B) : ¬ Safe B st (some (cs, st')) := by
  rw [safe_some]
  intro h
  exact h.2 c hc hn

/-! ### Signing -/

theorem hashAndSign_isSome (S : Sys) (keys : Keys) (eny : ℕ) (raw : RawEvent) :
    (hashAndSign S keys eny raw).isSome ↔ (pubkeyText raw.pubkey).isSome := by
  simp [hashAndSign, hashEvent, rawEventJson]

theorem toUnixSecs_eq (time : ℕ) : (toUnixSecs time).isSome ↔ epoch ≤ time := by
  unfold toUnixSecs
  by_cases h : time < epoch
  · simp [h]
  · simp [h, not_lt.mp h]

/-- An event made at a time, with our key, is made exactly when we can sign. -/
theorem bind_hashAndSign {time eny : ℕ} {raw : ℕ → RawEvent} (hraw : ∀ ts, (raw ts).pubkey = st.keys.pub) :
    ((toUnixSecs time).bind fun ts => hashAndSign S st.keys eny (raw ts)).isSome ↔ CanSign st time := by
  rw [CanSign, ← toUnixSecs_eq]
  cases toUnixSecs time with
  | none => simp
  | some ts => simp [hashAndSign_isSome, hraw]

theorem postToEvent_isSome {eny : ℕ} {p : Post} {kind : ℕ} {tags : List (List String)} :
    (postToEvent S st.keys eny p kind tags).isSome ↔ CanSign st p.id :=
  bind_hashAndSign fun _ => rfl

theorem profileToEvent_isSome {eny : ℕ} {prof : UserProfile} {now : ℕ} :
    (profileToEvent S st.keys prof eny now).isSome ↔ CanSign st now :=
  bind_hashAndSign fun _ => rfl

theorem buildEvent_isSome {eny time kind : ℕ} {content : String} :
    (buildEvent S st.keys eny time content kind).isSome ↔ CanSign st time :=
  bind_hashAndSign fun _ => rfl

/-- What is built from an event and has a card in our name is safe exactly when there is no event. -/
theorem safe_map_iff {α : Type} {o : Option α} {f : α → List Card × State}
    (hf : ∀ a, ∃ c ∈ (f a).1, c.InOurName B) : Safe B st (o.map f) ↔ ¬ o.isSome := by
  cases o with
  | none => simp
  | some a =>
    obtain ⟨c, hc, hn⟩ := hf a
    simp only [Option.map_some, Option.isSome_some, not_true_eq_false, iff_false]
    exact not_safe_of_mem hc hn

/-! ### Debug commands -/

theorem debug_wsgp_safe_iff (t : String) :
    Safe B st (debug S B st (.wsgp t)) ↔ S.tokenise t = none ∨ ¬ CanSign st B.now := by
  rw [debug]
  cases hsp : S.tokenise t with
  | none => simp [buildSp, hsp]
  | some cl =>
    simp only [buildSp, hsp, Option.map_some, Option.bind_some, reduceCtorEq, false_or]
    rw [safe_map_iff, postToEvent_isSome]
    · rfl
    · intro ev
      refine ⟨_, List.mem_singleton_self _, ?_⟩
      unfold sendGlobal
      cases checkConnected B globalRelay <;> trivial

/-- Cards that are all in our name are safe when there are none. -/
theorem safe_all_iff {α : Type} {l : List α} {f : α → Card} (hf : ∀ a, (f a).InOurName B) :
    Safe B st (some (l.map f, st)) ↔ l = [] := by
  rw [safe_same]
  constructor
  · intro h
    refine List.eq_nil_iff_forall_not_mem.mpr fun a ha => ?_
    exact h (f a) (List.mem_map_of_mem ha) (hf a)
  · rintro rfl
    simp

theorem debug_wsms_safe_iff (t : String) :
    Safe B st (debug S B st (.wsms t)) ↔ ∀ s ∈ B.sup, widOf S "websocket-server" s.path = none := by
  rw [debug, ← List.map_reverse]
  refine (safe_all_iff ?_).trans (List.reverse_eq_nil_iff.trans List.filterMap_eq_nil_iff)
  exact fun _ => trivial

theorem debug_wsc_safe_iff :
    Safe B st (debug S B st .wsc) ↔ B.sockets = [] ∧ st.relays = ∅ ∧ st.globalRelayConn = none := by
  rw [debug, safe_some]
  constructor
  · intro h
    refine ⟨List.eq_nil_iff_forall_not_mem.mpr fun s hs => ?_, h.1.relays.symm, h.1.globalRelayConn.symm⟩
    exact h.2 (.cancel s.wid) (List.mem_map_of_mem hs) trivial
  · rintro ⟨hsock, hrel, hconn⟩
    refine ⟨⟨rfl, rfl, hrel.symm, hconn.symm, rfl, rfl, rfl, rfl⟩, ?_⟩
    simp [hsock]

theorem debug_wsUi_safe_iff (t : String) :
    Safe B st (debug S B st (.wsUi t)) ↔
      ∀ h w l, connPaths B "websocket-server" = [h, w] :: l → S.slawUd w = none := by
  rw [debug, wsUi]
  split
  · rename_i h w l hl
    rw [Option.map_map, safe_map_iff, Option.not_isSome_iff_eq_none]
    swap
    · exact fun wid => ⟨_, List.mem_singleton_self _, trivial⟩
    constructor
    · intro hw h' w' l' hl'
      obtain ⟨⟨rfl, rfl⟩, rfl⟩ : (h = h' ∧ w = w') ∧ l = l' := by simpa using hl.symm.trans hl'
      exact hw
    · intro hw
      exact hw h w l hl
  · rename_i hne
    simp only [Option.map_some, safe_same, List.not_mem_nil, false_imp_iff, implies_true, true_iff]
    intro h w l hl
    exact absurd hl (hne h w l)

theorem Lock.toggle_ne (l : Lock) : l.toggle ≠ l := by
  intro h
  have hrank := congrArg (fun l => l.rank.locked) h
  simp [Lock.toggle] at hrank

theorem debug_safe_iff (d : Debug) : Safe B st (debug S B st d) ↔ DebugFits S B st d := by
  cases d with
  | wsgp t => exact debug_wsgp_safe_iff t
  | wsms t => exact debug_wsms_safe_iff t
  | wsc => exact debug_wsc_safe_iff
  | wsUi t => exact debug_wsUi_safe_iff t
  | leave => exact safe_all_iff fun _ => trivial
  | permsManual =>
    refine iff_of_false (fun h => ?_) id
    have hman := congrArg Gate.manual (safe_some.mp h).1.feedPerms
    simp at hman
  | permsLock =>
    refine iff_of_false (fun h => ?_) id
    exact Lock.toggle_ne _ (congrArg Gate.lock (safe_some.mp h).1.feedPerms)
  | seed posts => exact iff_of_true (safe_some.mpr ⟨⟨rfl, rfl, rfl, rfl, rfl, rfl, rfl, rfl⟩, by simp⟩) trivial
  | delTed thread => exact iff_of_true (safe_some.mpr ⟨⟨rfl, rfl, rfl, rfl, rfl, rfl, rfl, rfl⟩, by simp⟩) trivial
  | tedt tid => cases tid <;> simp [debug, DebugFits, Card.InOurName]
  | _ => simp [debug, DebugFits, Card.InOurName]

/-! ### Commands about posts -/

theorem mem_tellUi (f : PostFact) : .followers (.post f) ∈ tellUi f :=
  List.mem_cons_of_mem _ (List.mem_singleton_self _)

/-- Only the feed is other. -/
theorem Untouched.feed (st : State) (f : OwnFeed) : Untouched st { st with feed := f } :=
  ⟨rfl, rfl, rfl, rfl, rfl, rfl, rfl, rfl⟩

/-- A deletion told is in our name when the sender is not the author. -/
theorem tellAll_del_iff {p : Post} : (∀ c ∈ tellAll (.del (wrapPost B st p)), ¬ c.InOurName B) ↔ p.author = B.src := by
  simp [tellAll, Card.InOurName, wrapPost]

theorem tellAll_upd {p : Post} : ∀ c ∈ tellAll (.upd (wrapPost B st p)), ¬ c.InOurName B := by
  simp [tellAll, Card.InOurName]

theorem handleDelOurs_safe_iff (id : Id) :
    Safe B st (handleDelOurs S B st id) ↔
      ∀ p, st.feed.get id = some p → getRef S p = none ∨ (getRef S p = some none ∧ p.author = B.src) := by
  unfold handleDelOurs
  cases hp : st.feed.get id with
  | none => simp
  | some p =>
    simp only [Option.some.injEq, forall_eq']
    cases href : getRef S p with
    | none => simp
    | some ref =>
      cases ref with
      | some ref =>
        refine iff_of_false (not_safe_of_mem (List.mem_append_right _ (List.mem_singleton_self _)) trivial) ?_
        simp
      | none =>
        simp only [Option.map_some, reduceCtorEq, true_and, false_or]
        split
        · rw [safe_some, tellAll_del_iff]
          exact and_iff_right (Untouched.feed st _)
        · split
          · rw [safe_some, tellAll_del_iff]
            exact and_iff_right (Untouched.feed st _)
          · rw [safe_some, List.forall_mem_append, tellAll_del_iff, and_iff_left tellAll_upd]
            exact and_iff_right (Untouched.feed st _)

theorem handleDelTheirs_safe_iff (host : Ship) (id : Id) :
    Safe B st (handleDelTheirs S B st host id) ↔
      ∃ p, st.feed.get id = some p ∧ (p.parent.isSome ∨ ∀ ref, getRef S p ≠ some (some ref)) := by
  unfold handleDelTheirs
  cases hp : st.feed.get id with
  | none => simp [Card.InOurName]
  | some p =>
    simp only [Option.some.injEq, exists_eq_left']
    cases hpar : p.parent with
    | some pid => simp
    | none =>
      cases href : getRef S p with
      | none => simp
      | some ref => cases ref <;> simp [Card.InOurName]

theorem handleAddPost_safe_iff (content : String) (global : Bool) :
    Safe B st (handleAddPost S B st content global) ↔
      S.tokenise content = none ∨ (global = true ∧ ¬ CanSign st B.now) := by
  unfold handleAddPost buildSp
  cases S.tokenise content with
  | none => simp
  | some cl =>
    simp only [Option.map_some, Option.bind_some, reduceCtorEq, false_or]
    cases global with
    | false =>
      refine iff_of_false (not_safe_of_mem (List.mem_append_right _ (mem_tellUi _)) rfl) ?_
      simp
    | true =>
      simp only [if_true, true_and]
      rw [safe_map_iff]
      · have hkeys : (addToFeed B st (buildPost B.now st.keys.pub ⟨B.our, B.our, none, none, cl⟩)).keys = st.keys := by
          rw [addToFeed_keys]
        rw [hkeys, postToEvent_isSome]
        rfl
      · exact fun ev => ⟨_, List.mem_cons_self, trivial⟩

theorem handleQuote_safe_iff (content : String) (host : User) (id : Id) :
    Safe B st (handleQuote S B st content host id) ↔ S.tokenise content = none := by
  unfold handleQuote buildSp
  cases S.tokenise content with
  | none => simp
  | some cl =>
    refine iff_of_false ?_ (by simp)
    cases host with
    | nostr h => exact not_safe_of_mem (mem_tellUi _) rfl
    | urbit h => exact not_safe_of_mem (List.mem_append_right _ (List.mem_singleton_self _)) trivial

theorem handleReplyNostr_safe_iff (content : String) (id : Id) :
    Safe B st (handleReplyNostr S B st content id) ↔ getRelay S st = none ∨ ¬ CanSign st B.now := by
  unfold handleReplyNostr
  cases hr : getRelay S st with
  | none => simp
  | some r =>
    simp only [reduceCtorEq, false_or]
    rw [safe_map_iff, buildEvent_isSome]
    exact fun ev => ⟨_, List.mem_singleton_self _, trivial⟩

theorem addReply_eq_none_iff {p : Post} {pid : Id} (hp : p.parent = some pid) :
    addReply B st p = none ↔ NoPlace B st p.host pid := by
  unfold addReply NoPlace
  simp only [hp]
  by_cases hh : B.our = p.host
  · simp only [if_pos hh]
    cases st.feed.get pid <;> simp
  · simp only [if_neg hh]
    cases hf : st.following.lookup (atomToUser p.host) with
    | none => simp
    | some uf => cases hu : uf.lookup pid <;> simp [hu]

theorem handleReply_safe_iff (content : String) (h : Ship) (id thread : Id) :
    Safe B st (handleReply S B st content (.urbit h) id thread) ↔ S.tokenise content = none ∨ NoPlace B st h id := by
  unfold handleReply buildSp
  cases S.tokenise content with
  | none => simp
  | some cl =>
    simp only [Option.map_some, Option.bind_some, reduceCtorEq, false_or]
    rw [safe_map_iff, Option.not_isSome_iff_eq_none]
    · exact addReply_eq_none_iff rfl
    · exact fun st' => ⟨_, List.mem_append_right _ (List.mem_singleton_self _), trivial⟩

theorem handleRp_safe_iff (host : User) (id : Id) :
    Safe B st (handleRp S B st host id) ↔ S.tokenise "" = none := by
  unfold handleRp buildSp
  cases S.tokenise "" with
  | none => simp
  | some cl =>
    refine iff_of_false ?_ (by simp)
    cases host with
    | nostr h => exact not_safe_of_mem (mem_tellUi _) rfl
    | urbit h => exact not_safe_of_mem (List.mem_append_right _ (List.mem_singleton_self _)) trivial

theorem handleReaction_safe_iff (host : User) (id : Id) (reaction : String) :
    Safe B st (handleReaction B st host id reaction) ↔ userToAtom host = B.our ∧ st.feed.get id = none := by
  unfold handleReaction
  by_cases hh : userToAtom host = B.our
  · rw [if_pos hh, safe_map_iff, Option.not_isSome_iff_eq_none]
    · exact (and_iff_right hh).symm
    · exact fun p => ⟨_, List.mem_append_right _ (List.mem_singleton_self _), trivial⟩
  · rw [if_neg hh]
    refine iff_of_false ?_ fun h => hh h.1
    split
    · exact not_safe_of_mem (List.mem_singleton_self _) trivial
    · exact not_safe_of_mem (List.mem_cons_of_mem _ (List.mem_singleton_self _)) trivial

theorem handlePost_safe_iff (p : PostPoke) : Safe B st (handlePost S B st p) ↔ PostFits S B st p := by
  cases p with
  | add content global anon => exact handleAddPost_safe_iff content global
  | reply content host id thread =>
    cases host with
    | urbit h => exact handleReply_safe_iff content h id thread
    | nostr h => exact handleReplyNostr_safe_iff content id
  | quote content host id => exact handleQuote_safe_iff content host id
  | rp host id => exact handleRp_safe_iff host id
  | reaction host id reaction => exact handleReaction_safe_iff host id reaction
  | del host id =>
    cases host with
    | nostr h => simp [handlePost, PostFits]
    | urbit h =>
      simp only [handlePost, PostFits]
      by_cases hh : B.our = h
      · rw [if_pos hh, if_pos hh]
        exact handleDelOurs_safe_iff id
      · rw [if_neg hh, if_neg hh]
        exact handleDelTheirs_safe_iff h id

/-! ### Commands to relays -/

theorem toChunks_go_ne_nil {α : Type} (n : ℕ) (xs : List α) : ∀ (acc : Array α) (out : Array (List α)),
    List.toChunks.go n xs acc out ≠ [] := by
  induction xs with
  | nil =>
    intro acc out
    simp [List.toChunks.go]
  | cons x xs ih =>
    intro acc out
    rw [List.toChunks.go]
    split
    · exact ih _ _
    · exact ih _ _

/-- There is a chunk to ask for first. -/
theorem profileChunks_ne_nil (S : Sys) (pubkeys : Finset ℕ) : profileChunks S pubkeys ≠ [] := by
  unfold profileChunks
  by_cases h : 300 < pubkeys.card
  · rw [if_pos h]
    obtain ⟨x, hx⟩ := Finset.card_pos.mp (Nat.zero_lt_of_lt h)
    have hx' := S.mem_tapNat.mpr hx
    intro hnil
    rw [List.map_eq_nil_iff] at hnil
    cases ht : S.tapNat pubkeys with
    | nil =>
      rw [ht] at hx'
      cases hx'
    | cons y ys =>
      rw [ht, List.toChunks] at hnil
      · exact toChunks_go_ne_nil _ _ _ _ hnil
      · simp
  · rw [if_neg h]
    exact List.cons_ne_nil _ _

theorem getProfiles_runs (S : Sys) (B : Bowl) (st : State) (wid : ℕ) (relay : RelayStats) :
    ∃ cs relay', getProfiles S B st wid relay = some (cs, relay') ∧ ∃ c ∈ cs, c.InOurName B := by
  unfold getProfiles
  split
  · rename_i hnil
    exact absurd hnil (profileChunks_ne_nil S _)
  · exact ⟨_, _, rfl, _, List.mem_singleton_self _, trivial⟩

/-- One order to a relay is carried out, with a message to it. -/
theorem relaOne_runs (S : Sys) (B : Bowl) (st : State) (wid : ℕ) (relay : RelayStats) (rg : RelayGet) :
    ∃ cs relay', relaOne S B st wid relay rg = some (cs, relay') ∧ ∃ c ∈ cs, c.InOurName B := by
  cases rg with
  | prof => exact getProfiles_runs S B st wid relay
  | _ => exact ⟨_, _, rfl, _, List.mem_singleton_self _, trivial⟩

/-- The loop ends, keeps the cards it has, and sends to a relay that is connected. -/
theorem relaAll_runs (rg : RelayGet) (wids : List ℕ) : ∀ (cs : List Card) (st : State),
    ∃ cs' st', relaAll S B rg wids (cs, st) = some (cs', st') ∧ (∀ c ∈ cs, c ∈ cs') ∧
      (¬ Unconnected st wids → ∃ c ∈ cs', c.InOurName B) := by
  induction wids with
  | nil => exact fun cs st => ⟨cs, st, rfl, fun c hc => hc, fun h => absurd (fun _ h => nomatch h) h⟩
  | cons wid wids ih =>
    intro cs st
    unfold relaAll
    cases hr : st.relays.lookup wid with
    | none =>
      obtain ⟨cs', st', hrun, hkeep, hsend⟩ := ih cs st
      refine ⟨cs', st', hrun, hkeep, fun h => hsend fun hall => h ?_⟩
      exact List.forall_mem_cons.mpr ⟨hr, hall⟩
    | some relay =>
      obtain ⟨new, relay', hone, c, hc, hn⟩ := relaOne_runs S B st wid relay rg
      obtain ⟨cs', st', hrun, hkeep, -⟩ := ih (cs ++ new) (st.putRelay wid relay')
      refine
        ⟨cs', st', by simp only [hone, Option.bind_some, hrun], fun c hc => hkeep c (List.mem_append_left _ hc), ?_⟩
      exact fun _ => ⟨c, hkeep c (List.mem_append_right _ hc), hn⟩

/-- With no relay connected the loop does nothing. -/
theorem relaAll_unconnected {rg : RelayGet} {wids : List ℕ} (h : Unconnected st wids) :
    relaAll S B rg wids (cs, st) = some (cs, st) := by
  induction wids with
  | nil => rfl
  | cons wid wids ih =>
    rw [relaAll, h wid List.mem_cons_self]
    exact ih fun w hw => h w (List.mem_cons_of_mem _ hw)

theorem handleRela_get_safe_iff (wids : List ℕ) (rg : RelayGet) :
    Safe B st (handleRela S B st wids (.get rg)) ↔ Unconnected st wids := by
  rw [handleRela]
  constructor
  · intro h
    by_contra hn
    obtain ⟨cs', st', hrun, -, hsend⟩ := @relaAll_runs S B rg wids [] st
    obtain ⟨c, hc, hname⟩ := hsend hn
    rw [hrun] at h
    exact not_safe_of_mem (List.mem_cons_of_mem _ hc) hname h
  · intro h
    rw [relaAll_unconnected h]
    simp [Card.InOurName]

theorem handleRela_sendPost_safe_iff (wids : List ℕ) (host : Ship) (id : Id) :
    Safe B st (handleRela S B st wids (.sendPost host id)) ↔
      (host = B.our → ∀ p, st.feed.get id = some p → ¬ CanSign st p.id) := by
  rw [handleRela, sendPost, getPoast]
  by_cases hh : host = B.our
  · rw [if_pos hh]
    cases hp : st.feed.get id with
    | none => simp
    | some p =>
      simp only [Option.map_map, hh, true_imp_iff, Option.some.injEq, forall_eq']
      rw [safe_map_iff, postToEvent_isSome]
      exact fun ev => ⟨_, List.mem_cons_self, trivial⟩
  · simp [hh]

theorem handleRela_sendProf_safe_iff (wids : List ℕ) :
    Safe B st (handleRela S B st wids .sendProf) ↔
      ((st.profiles.lookup (.urbit B.src)).isSome → ¬ CanSign st B.now) := by
  rw [handleRela, sendProf]
  cases hp : st.profiles.lookup (.urbit B.src) with
  | none => simp
  | some prof =>
    simp only [Option.map_map, Option.isSome_some, true_imp_iff]
    rw [safe_map_iff, profileToEvent_isSome]
    exact fun ev => ⟨_, List.mem_cons_self, trivial⟩

theorem handleRelaPoke_safe_iff (p : RelayPoke) : Safe B st (handleRelaPoke S B st p) ↔ RelayFits B st p := by
  cases p with
  | add url => exact iff_of_false (not_safe_of_mem (List.mem_singleton_self _) trivial) id
  | del wid => exact iff_of_false (not_safe_of_mem List.mem_cons_self trivial) id
  | «do» wids action =>
    cases action with
    | get rg => exact handleRela_get_safe_iff wids rg
    | sendPost host id => exact handleRela_sendPost_safe_iff wids host id
    | sendProf => exact handleRela_sendProf_safe_iff wids

/-! ### Commands of the interface -/

theorem unfollowUser_quiet_iff (wid : ℕ) (relay : RelayStats) (pubkey : ℕ) :
    (∀ c ∈ (unfollowUser S wid relay pubkey).1, ¬ c.InOurName B) ↔ Unsubscribed relay pubkey := by
  unfold unfollowUser Unsubscribed
  cases hf : (S.tapText relay.reqs.keys).find? fun id =>
      (relay.reqs.lookup id).any fun rs => isSpecificUserSub pubkey rs.filters with
  | none =>
    simp only [List.not_mem_nil, false_imp_iff, implies_true, true_iff]
    intro id rs hrs
    have hid : id ∈ S.tapText relay.reqs.keys :=
      S.mem_tapText.mpr (Finmap.mem_keys.mpr (Finmap.mem_of_lookup_eq_some hrs))
    simpa [hrs] using List.find?_eq_none.mp hf id hid
  | some subId =>
    refine iff_of_false (fun h => h _ (List.mem_singleton_self _) trivial) fun h => ?_
    have hsome := List.find?_some hf
    cases hrs : relay.reqs.lookup subId with
    | none => simp [hrs] at hsome
    | some rs => simp [hrs, h subId rs hrs] at hsome

theorem handleAdd_safe_iff (user : User) : Safe B st (handleAdd S B st user) ↔ UiFits S B st (.fols (.add user)) := by
  cases user with
  | urbit p => exact iff_of_false (not_safe_of_mem (List.mem_singleton_self _) trivial) id
  | nostr p =>
    simp only [handleAdd, UiFits]
    cases getRelay S st with
    | none => simp
    | some r =>
      refine iff_of_false ?_ (by simp)
      exact not_safe_of_mem (List.mem_cons_of_mem _ (List.mem_singleton_self _)) trivial

/-- A follow taken back changes nothing when it is not there. -/
theorem untouched_unfollow {user : User} {graph : Finset User}
    (hg : st.followGraph.lookup (.urbit B.our) = some graph) :
    Untouched st (st.unfollow B user graph) ↔ st.following.lookup user = none ∧ user ∉ graph := by
  constructor
  · intro h
    refine ⟨Maps.erase_eq_self.mp h.following, ?_⟩
    have hins := Maps.insert_eq_self.mp h.followGraph
    rw [hg, Option.some.injEq] at hins
    exact Finset.erase_eq_self.mp hins.symm
  · rintro ⟨hf, hu⟩
    refine ⟨rfl, rfl, rfl, rfl, Maps.erase_eq_self.mpr hf, Maps.insert_eq_self.mpr ?_, rfl, rfl⟩
    rw [hg, Finset.erase_eq_of_notMem hu]

theorem quitCards_quiet_iff (p : ℕ) :
    (∀ c ∈ quitCards S st (.nostr p), ¬ c.InOurName B) ↔
      ∀ wid relay, getRelay S st = some (wid, relay) → Unsubscribed relay p := by
  unfold quitCards
  cases getRelay S st with
  | none => simp
  | some r =>
    simp only [List.forall_mem_cons, unfollowUser_quiet_iff, Option.some.injEq]
    constructor
    · rintro ⟨-, h⟩ wid relay rfl
      exact h
    · exact fun h => ⟨id, h _ _ rfl⟩

theorem handleDel_safe_iff (user : User) : Safe B st (handleDel S B st user) ↔ UnfollowFits S B st user := by
  unfold UnfollowFits
  cases hg : st.followGraph.lookup (.urbit B.our) with
  | none =>
    rw [handleDel_none hg, safe_some]
    constructor
    · intro h
      exact ⟨Maps.erase_eq_self.mp h.1.following, fun _ hs => nomatch hs⟩
    · intro h
      exact ⟨⟨rfl, rfl, rfl, rfl, Maps.erase_eq_self.mpr h.1, rfl, rfl, rfl⟩, by simp⟩
  | some graph =>
    rw [handleDel_some hg]
    simp only [Option.some.injEq, forall_eq']
    cases user with
    | urbit p =>
      refine iff_of_false (fun h => ?_) fun h => h.2
      exact (safe_some.mp h).2 (.leave p) (List.mem_cons_of_mem _ (List.mem_singleton_self _)) trivial
    | nostr p => rw [safe_some, untouched_unfollow hg, quitCards_quiet_iff, and_assoc]

theorem handleCycleKeys_unsafe : ¬ Safe B st (some (handleCycleKeys S B st)) :=
  not_safe_of_mem (List.mem_singleton_self _) trivial

theorem handleProf_safe_iff (p : ProfPoke) : Safe B st (handleProf S B st p) ↔ UiFits S B st (.prof p) := by
  cases p with
  | add um =>
    rw [handleProf, safe_map_iff]
    · exact not_congr profileToEvent_isSome
    · exact fun ev => ⟨_, List.mem_cons_self, trivial⟩
  | del => exact iff_of_false (not_safe_of_mem (List.mem_singleton_self _) trivial) id
  | fetch => simp [handleProf, UiFits]

theorem onUi_safe_iff (p : UiPoke) : Safe B st (onUi S B st p) ↔ UiFits S B st p := by
  cases p with
  | fols f =>
    cases f with
    | add user => exact handleAdd_safe_iff user
    | del user => exact handleDel_safe_iff user
  | begs => simp [onUi, UiFits]
  | post p => exact handlePost_safe_iff p
  | prof p => exact handleProf_safe_iff p
  | keys => exact iff_of_false handleCycleKeys_unsafe id
  | rela p => exact handleRelaPoke_safe_iff p

/-! ### Engagement -/

theorem lookup_put_put {uf : Feed} {p q : Post} :
    put (put uf p) q = uf ↔ uf.lookup q.id = some q ∧ (p.id = q.id ∨ uf.lookup p.id = some p) := by
  constructor
  · intro h
    refine ⟨?_, or_iff_not_imp_left.mpr fun hne => ?_⟩
    · rw [← lookup_put (put uf p) q, h]
    · calc uf.lookup p.id = (put (put uf p) q).lookup p.id := by rw [h]
        _ = (put uf p).lookup p.id := lookup_put_ne hne
        _ = some p := lookup_put uf p
  · rintro ⟨hq, hp⟩
    refine Finmap.ext_lookup fun id => ?_
    rw [lookup_put_if, lookup_put_if]
    by_cases hid : id = q.id
    · rw [if_pos hid, hid, hq]
    · rw [if_neg hid]
      by_cases hip : id = p.id
      · rw [if_pos hip, hip]
        exact (hp.resolve_left fun h => hid (hip.trans h)).symm
      · rw [if_neg hip]

/-- A post filed under its host leaves the feeds we follow as they are. -/
theorem addToFeed_untouched_iff {p : Post} :
    Untouched st (addToFeed B st p) ↔ B.our = p.host ∨
      ∀ uf, st.following.lookup (atomToUser p.host) = some uf → uf.lookup p.id = some p := by
  unfold addToFeed
  by_cases hh : B.our = p.host
  · rw [if_pos hh]
    exact iff_of_true (Untouched.feed st _) (.inl hh)
  · rw [if_neg hh, or_iff_right hh]
    cases hf : st.following.lookup (atomToUser p.host) with
    | none => simp
    | some uf =>
      simp only [Option.some.injEq, forall_eq']
      constructor
      · intro h
        have hins := Maps.insert_eq_self.mp h.following
        rw [hf, Option.some.injEq] at hins
        exact Maps.insert_eq_self.mp hins.symm
      · intro h
        refine ⟨rfl, rfl, rfl, rfl, Maps.insert_eq_self.mpr ?_, rfl, rfl, rfl⟩
        rw [hf, put, Maps.insert_eq_self.mpr h]

/-- A reply that is filed leaves the feeds we follow as they are. -/
theorem addReply_untouched_iff {child : Post} {pid : Id} (hpar : child.parent = some pid)
    (h : addReply B st child = some st') : Untouched st st' ↔ ReplyKnown B st pid child := by
  unfold addReply at h
  unfold ReplyKnown
  simp only [hpar] at h
  by_cases hh : B.our = child.host
  · rw [if_pos hh] at h
    refine iff_of_true ?_ (.inl hh)
    cases hp : st.feed.get pid with
    | none => simp [hp] at h
    | some parent =>
      rw [hp] at h
      obtain rfl := Option.some.inj h
      exact Untouched.feed st _
  · rw [if_neg hh] at h
    rw [or_iff_right hh]
    cases hf : st.following.lookup (atomToUser child.host) with
    | none =>
      rw [hf] at h
      obtain rfl := Option.some.inj h
      simp
    | some uf =>
      rw [hf] at h
      simp only [Option.some.injEq, forall_eq']
      cases hp : uf.lookup pid with
      | none => simp [hp] at h
      | some parent =>
        simp only [hp, Option.some.injEq] at h
        subst h
        simp only [Option.some.injEq, forall_eq']
        refine Iff.trans ?_ (lookup_put_put (p := parent.addChild child.id))
        constructor
        · intro h
          have hins := Maps.insert_eq_self.mp h.following
          rw [hf, Option.some.injEq] at hins
          exact hins.symm
        · intro h
          refine ⟨rfl, rfl, rfl, rfl, Maps.insert_eq_self.mpr ?_, rfl, rfl, rfl⟩
          rw [hf, h]

theorem engPost_safe_iff (e : Eng) (id : Id) (g : Engagement → Engagement) :
    Safe B st (some (engPost B st e id g)) ↔ EngageKnown B st id g := by
  unfold engPost EngageKnown
  cases hp : st.feed.get id with
  | none => simp [engHark, Card.InOurName]
  | some p =>
    simp only [engDone, Option.some.injEq, forall_eq', safe_some]
    rw [addToFeed_untouched_iff]
    simp [engHark, Card.InOurName, Post.engage]

/-- Filing a reply takes no post from our feed. -/
theorem addReply_keeps {child : Post} {id : Id} (h : addReply B st child = some st') (hid : (st.feed.get id).isSome) :
    (st'.feed.get id).isSome := by
  unfold addReply at h
  split at h
  · cases h
  · split at h
    · split at h
      · cases h
      · obtain rfl := Option.some.inj h
        simp only [OwnFeed.get_put]
        split
        · rfl
        · split
          · rfl
          · exact hid
    · split at h
      · obtain rfl := Option.some.inj h
        exact hid
      · split at h
        · cases h
        · obtain rfl := Option.some.inj h
          exact hid

theorem engReply_safe_iff (parent : Id) (child : Post) :
    Safe B st (engReply B st parent child) ↔ EngHarmless S B st (.reply parent child) := by
  simp only [engReply, EngHarmless]
  cases hp : st.feed.get parent with
  | none => simp [engHark, Card.InOurName]
  | some p =>
    simp only [Option.isSome_some, true_imp_iff]
    cases hpar : child.parent with
    | none =>
      have hnone : addReply B st child = none := by
        unfold addReply
        rw [hpar]
      simp [hnone]
    | some pid =>
      simp only [Option.some.injEq, forall_eq']
      rw [← addReply_eq_none_iff hpar]
      cases hadd : addReply B st child with
      | none => simp
      | some st' =>
        obtain ⟨p', hp'⟩ := Option.isSome_iff_exists.mp (addReply_keeps hadd (hp ▸ rfl : (st.feed.get parent).isSome))
        simp only [Option.map_some, hp', safe_some, reduceCtorEq, not_false_eq_true, true_imp_iff]
        rw [addReply_untouched_iff hpar hadd]
        rw [and_comm, and_congr_left fun _ => ?_]
        simp [tellAll, wrapPost, engHark, Card.InOurName]

/-- A reply deleted by its author harms nobody, unless it quotes another post, whose host is then told in our name. -/
theorem engDelReply_safe_iff (child : Id) :
    Safe B st (engDelReply S B st child) ↔ ∀ p, st.feed.get child = some p → B.src = p.author →
      (p.parent.bind st.feed.get).isSome → ∀ ref, getRef S p ≠ some (some ref) := by
  unfold engDelReply
  cases hp : st.feed.get child with
  | none => simp
  | some p =>
    simp only [Option.some.injEq, forall_eq']
    by_cases ha : B.src = p.author
    · rw [if_neg (not_not.mpr ha)]
      simp only [ha, true_imp_iff]
      cases hpar : p.parent.bind st.feed.get with
      | none => simp
      | some parent =>
        simp only [Option.isSome_some, true_imp_iff]
        rw [handlePost, if_pos rfl, handleDelOurs_safe_iff]
        simp only [hp, Option.some.injEq, forall_eq']
        cases getRef S p with
        | none => simp
        | some ref => cases ref <;> simp [ha]
    · rw [if_pos ha]
      simp [ha]

theorem handleEng_fits_iff (e : Eng) : Safe B st (handleEng S B st e) ↔ EngHarmless S B st e := by
  cases e with
  | mention p => simp [handleEng, EngHarmless, engHark, Card.InOurName]
  | reply parent child => exact engReply_safe_iff parent child
  | quote src post => exact engPost_safe_iff _ _ _
  | rp src target => exact engPost_safe_iff _ _ _
  | reaction pid reaction => exact engPost_safe_iff _ _ _
  | delReply parent child => exact engDelReply_safe_iff child
  | delQuote src quote => exact engPost_safe_iff _ _ _

/-! ### Threads and relays -/

/-- The loop for a thread ends, keeps the cards it has, and sends to a relay that is connected. -/
theorem relayGet_runs (tid : String) (wids : List ℕ) : ∀ (cs : List Card) (st : State),
    ∃ cs' st', relayGet B tid .sync wids (cs, st) = some (cs', st') ∧ (∀ c ∈ cs, c ∈ cs') ∧
      (¬ Unconnected st wids → ∃ c ∈ cs', c.InOurName B) := by
  induction wids with
  | nil => exact fun cs st => ⟨cs, st, rfl, fun c hc => hc, fun h => absurd (fun _ h => nomatch h) h⟩
  | cons wid wids ih =>
    intro cs st
    unfold relayGet
    cases hr : st.relays.lookup wid with
    | none =>
      obtain ⟨cs', st', hrun, hkeep, hsend⟩ := ih cs st
      refine ⟨cs', st', hrun, hkeep, fun h => hsend fun hall => h ?_⟩
      exact List.forall_mem_cons.mpr ⟨hr, hall⟩
    | some relay =>
      obtain ⟨cs', st', hrun, hkeep, -⟩ := ih
        (.spider tid (genSubId B.eny) :: ((getPosts B wid relay).1 ++ cs)) (st.putRelay wid (getPosts B wid relay).2)
      obtain ⟨c, hc, hn⟩ : ∃ c ∈ (getPosts B wid relay).1, c.InOurName B := ⟨_, List.mem_singleton_self _, trivial⟩
      refine ⟨cs', st', hrun, fun c hc => hkeep c ?_, fun _ => ⟨c, hkeep c ?_, hn⟩⟩
      · exact List.mem_cons_of_mem _ (List.mem_append_right _ hc)
      · exact List.mem_cons_of_mem _ (List.mem_append_left _ hc)

theorem relayGet_unconnected {tid : String} {rg : RelayGet} {wids : List ℕ} (h : Unconnected st wids) :
    relayGet B tid rg wids (cs, st) = some (cs, st) := by
  induction wids with
  | nil => rfl
  | cons wid wids ih =>
    rw [relayGet, h wid List.mem_cons_self]
    exact ih fun w hw => h w (List.mem_cons_of_mem _ hw)

/-- What is not the timeline is not got for a thread: the loop crashes at a relay that is connected. -/
theorem relayGet_safe_of_ne {tid : String} {rg : RelayGet} (hrg : rg ≠ .sync) (wids : List ℕ) :
    Safe B st (relayGet B tid rg wids ([], st)) := by
  induction wids with
  | nil => exact safe_same.mpr fun _ hc => nomatch hc
  | cons wid wids ih =>
    unfold relayGet
    split
    · exact ih
    · cases rg with
      | sync => exact absurd rfl hrg
      | _ => exact safe_none

theorem relayGet_safe_iff (tid : String) (rg : RelayGet) (wids : List ℕ) :
    Safe B st (relayGet B tid rg wids ([], st)) ↔ Unconnected st wids ∨ match rg with | .sync => False | _ => True := by
  cases rg with
  | sync =>
    rw [or_false]
    constructor
    · intro h
      by_contra hn
      obtain ⟨cs', st', hrun, -, hsend⟩ := @relayGet_runs B tid wids [] st
      obtain ⟨c, hc, hname⟩ := hsend hn
      rw [hrun] at h
      exact not_safe_of_mem hc hname h
    · intro h
      rw [relayGet_unconnected h]
      exact safe_same.mpr fun _ hc => nomatch hc
  | _ => exact iff_of_true (relayGet_safe_of_ne (by simp) wids) (.inr trivial)

/-- A relay written back as it was. -/
theorem putRelay_untouched_iff {wid : ℕ} {relay : RelayStats} :
    Untouched st (st.putRelay wid relay) ↔ st.relays.lookup wid = some relay := by
  constructor
  · intro h
    exact Maps.insert_eq_self.mp h.relays
  · intro h
    exact ⟨rfl, rfl, Maps.insert_eq_self.mpr h, rfl, rfl, rfl, rfl, rfl⟩

/-- An event on a known subscription is counted, whatever it says. -/
theorem handleEvent_safe_iff {wid : ℕ} {relay : RelayStats} (hr : st.relays.lookup wid = some relay) (subId : String)
    (ev : Event) : Safe B st (some (handleEvent S st wid relay subId ev)) ↔ relay.reqs.lookup subId = none := by
  unfold handleEvent
  cases hreq : relay.reqs.lookup subId with
  | none => simp
  | some req =>
    refine iff_of_false (fun h => ?_) (by simp)
    have hrel := (safe_some.mp h).1.relays
    rw [fileEvent_relays] at hrel
    have hins := Maps.insert_eq_self.mp hrel
    rw [hr, Option.some.injEq] at hins
    have hreqs := Maps.insert_eq_self.mp (congrArg RelayStats.reqs hins).symm
    rw [hreq, Option.some.injEq] at hreqs
    have hrec := congrArg ReqState.received hreqs
    simp at hrec

/-- What is not a feed is told to the interface alone. -/
theorem eoseFacts_quiet (S : Sys) (B : Bowl) (st : State) (wid : ℕ) (relay : RelayStats) {req : ReqState}
    (h : isFeed req.filters = false) :
    ∃ cs, eoseFacts S B st wid relay req = some (cs, relay) ∧ ∀ c ∈ cs, ¬ c.InOurName B := by
  unfold eoseFacts
  rw [if_neg (by simp [h])]
  split
  · exact ⟨_, rfl, by simp [Card.InOurName]⟩
  · split
    · exact ⟨_, rfl, by simp [Card.InOurName]⟩
    · refine ⟨_, rfl, ?_⟩
      split <;> simp [Card.InOurName]

theorem eoseFacts_feed (S : Sys) (B : Bowl) (st : State) (wid : ℕ) (relay : RelayStats) {req : ReqState}
    (h : isFeed req.filters = true) :
    ∃ cs relay', eoseFacts S B st wid relay req = some (cs, relay') ∧ ∃ c ∈ cs, c.InOurName B := by
  obtain ⟨cs, relay', hrun, c, hc, hn⟩ := getProfiles_runs S B st wid relay
  refine ⟨.ui (.nostrFeed st.nostrFeed) :: cs, relay', ?_, c, List.mem_cons_of_mem _ hc, hn⟩
  rw [eoseFacts, if_pos h, hrun]
  rfl

theorem handleEose_safe_iff {wid : ℕ} {relay : RelayStats} (hr : st.relays.lookup wid = some relay) (subId : String) :
    Safe B st (handleEose S B st wid relay subId) ↔ RelayMsgFits relay (.eose subId) := by
  simp only [handleEose, RelayMsgFits]
  cases hreq : relay.reqs.lookup subId with
  | none => simp
  | some req =>
    simp only [Option.some.injEq, forall_eq']
    by_cases hf : isFeed req.filters = true
    · obtain ⟨cs, relay', hrun, c, hc, hn⟩ := eoseFacts_feed S B st wid relay hf
      rw [hrun, Option.map_some]
      refine iff_of_false (not_safe_of_mem (List.mem_append_right _ (List.mem_append_left _ hc)) hn) ?_
      simp [hf]
    obtain ⟨cs, hrun, hquiet⟩ := eoseFacts_quiet S B st wid relay (Bool.eq_false_iff.mpr hf)
    rw [hrun, Option.map_some]
    cases hch : req.chunked with
    | cons head tail =>
      obtain ⟨c, hc, hn⟩ : ∃ c ∈ (eoseNext B wid relay req).1, c.InOurName B := by
        rw [eoseNext, hch]
        exact ⟨_, List.mem_singleton_self _, trivial⟩
      refine iff_of_false ?_ (by simp)
      exact not_safe_of_mem (List.mem_append_right _ (List.mem_append_right _ (List.mem_append_left _ hc))) hn
    | nil =>
      have hnext : eoseNext B wid relay req = ([], relay) := by
        rw [eoseNext, hch]
      simp only [hnext, and_true]
      cases hon : req.ongoing with
      | none =>
        obtain ⟨c, hc, hn⟩ : ∃ c ∈ (eoseLast wid relay subId req).1, c.InOurName B := by
          rw [eoseLast, hon]
          exact ⟨_, List.mem_singleton_self _, trivial⟩
        refine iff_of_false ?_ (by simp)
        exact not_safe_of_mem (List.mem_append_right _ (List.mem_append_right _ (List.mem_append_right _ hc))) hn
      | some on =>
        have hlast : eoseLast wid relay subId req =
            ([], { relay with reqs := relay.reqs.insert subId { req with ongoing := some true } }) := by
          rw [eoseLast, hon]
        have hcards : ∀ c ∈ [.ui (.nostrEose subId), .ui (.nostrRelays (st.putRelay wid
            (eoseLast wid relay subId req).2).relays)] ++ (cs ++ ([] ++ (eoseLast wid relay subId req).1)),
            ¬ c.InOurName B := by
          simp only [hlast, List.append_nil, List.forall_mem_append]
          exact ⟨by simp [Card.InOurName], hquiet⟩
        rw [safe_some, and_iff_left hcards, hlast, putRelay_untouched_iff, hr, Option.some.injEq,
          and_iff_left (Bool.eq_false_iff.mpr hf)]
        constructor
        · intro h
          have hins := Maps.insert_eq_self.mp (congrArg RelayStats.reqs h).symm
          rw [hreq, Option.some.injEq] at hins
          rw [← hon, hins]
        · intro h
          have hsame : { req with ongoing := some true } = req := by rw [← h, ← hon]
          rw [hsame, Maps.insert_eq_self.mpr hreq]

theorem handleWs_safe_iff {wid : ℕ} {relay : RelayStats} (hr : st.relays.lookup wid = some relay) (m : RelayMsg) :
    Safe B st (handleWs S B st wid relay m) ↔ RelayMsgFits relay m := by
  cases m with
  | event subId ev => exact handleEvent_safe_iff hr subId ev
  | eose subId => exact handleEose_safe_iff hr subId
  | closed subId msg =>
    rw [handleWs, safe_some, putRelay_untouched_iff, hr, Option.some.injEq, RelayMsgFits, ← Maps.erase_eq_self]
    constructor
    · rintro ⟨h, -⟩
      exact (congrArg RelayStats.reqs h).symm
    · intro h
      rw [h]
      exact ⟨rfl, fun _ hc => nomatch hc⟩
  | _ => simp [handleWs, RelayMsgFits]

theorem handleRelayWs_safe_iff (wid : ℕ) (msg : Option RelayMsg) :
    Safe B st (handleRelayWs S B st wid msg) ↔ PokeFits S B st (.clientMessage wid msg) := by
  unfold handleRelayWs PokeFits
  cases hr : st.relays.lookup wid with
  | none => simp [hr]
  | some relay =>
    cases msg with
    | none => simp
    | some m =>
      simp only [hr, Option.some.injEq]
      rw [handleWs_safe_iff hr]
      constructor
      · rintro h _ _ rfl rfl
        exact h
      · exact fun h => h _ _ rfl rfl

theorem handleServerMsg_safe_iff (wid : ℕ) (path : List String) (msg : Option String) (parsed : Option ClientMsg) :
    Safe B st (some (handleServerMsg st wid path msg parsed)) ↔ PokeFits S B st
      (.serverMessage wid path msg parsed) := by
  unfold handleServerMsg PokeFits
  cases msg with
  | none => simp
  | some wsdata =>
    simp only [reduceCtorEq, false_or]
    by_cases hui : path = ["nostrill-ui"]
    · rw [if_pos hui]
      exact iff_of_false (not_safe_of_mem (List.mem_singleton_self _) trivial) fun h => h.1 hui
    · rw [if_neg hui]
      by_cases hn : path = ["nostrill"]
      · rw [if_pos hn]
        simp only [hn, true_imp_iff]
        split
        · exact iff_of_false (not_safe_of_mem (List.mem_singleton_self _) trivial) fun h => h.2 _ rfl
        · rename_i hne
          refine iff_of_true (safe_same.mpr fun _ hc => nomatch hc) ⟨by decide, ?_⟩
          rintro ev rfl
          exact hne ev rfl
      · rw [if_neg hn]
        exact iff_of_true (safe_same.mpr fun _ hc => nomatch hc) ⟨hui, fun h => absurd h hn⟩

/-- **A poke does no harm** exactly when it fits. -/
theorem onPoke_safe_iff (S : Sys) (B : Bowl) (st : State) (poke : Poke) :
    Safe B st (onPoke S B st poke) ↔ PokeFits S B st poke := by
  cases poke with
  | noun p =>
    cases p with
    | none => simp [onPoke, PokeFits]
    | some p =>
      cases p with
      | eng e => exact handleEng_fits_iff e
      | ted wid w => cases w <;> exact iff_of_false (not_safe_of_mem (List.mem_singleton_self _) trivial) id
      | dbug d => exact debug_safe_iff d
  | json p =>
    cases p with
    | none => simp [onPoke, PokeFits]
    | some p => exact onUi_safe_iff p
  | nostrillTed t =>
    cases t with
    | req tid wids rg => exact relayGet_safe_iff tid rg wids
    | res subId => simp [onPoke, handleTed, PokeFits]
  | clientMessage wid msg => exact handleRelayWs_safe_iff wid msg
  | handshake wid url authenticated =>
    cases url with
    | none => simp [onPoke, handleHandshake, PokeFits]
    | some pat => exact iff_of_false (not_safe_of_mem (List.mem_singleton_self _) trivial) (by simp [PokeFits])
  | serverMessage wid path msg parsed => exact handleServerMsg_safe_iff wid path msg parsed
  | other => simp [onPoke, PokeFits]

end

/-! ### On fixed inputs -/

/-- A ship that is not ours has our keys made anew. -/
theorem foreign_keys : (Bowl.plain 1).src ≠ (Bowl.plain 1).our ∧
    ¬ Safe (.plain 1) (defaultState .plain 1) (onPoke .plain (.plain 1) (defaultState .plain 1)
      (.json (some .keys))) := by
  refine ⟨by decide, fun h => ?_⟩
  have hold := (safe_some.mp h).1.oldKeys
  exact absurd (congrArg List.length hold) (by decide)

end Nostrill
end Ursockets

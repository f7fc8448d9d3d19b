/-
# Requests on the relays

A relay's table of requests should say which subscriptions are open on its socket, by the requests and
the ends of them that were sent, and the ends that were told. A request that is made is recorded with
the relay that it is sent to, under an id from the event's entropy; an unfollow sends the end of the
first subscription that it finds, and does not write the relay back. The wire is kept beside the state,
read off the cards of each event.

Key definitions: `Wire`, `WireEvent`, `wireTurn`, `Requested`, `Tabled`, `Careful`.
Key theorems: `relaAll_spec`, `relayGet_spec`, `handleEose_spec`, `handleDel_requested`, `requests_iff`.
-/
import Ursockets.Lib.Replay
import Ursockets.NostrillAgent

namespace Ursockets
namespace Nostrill

/-! ### The wire -/

/-- What went over the sockets of the relays: the subscriptions that are live on each, whether a request was ever
sent under an id that was live, and the user that was just unfollowed. -/
structure Wire where
  live : ℕ → Map String (List Filter)
  clash : Bool
  quit : Option User

def Wire.init : Wire := ⟨fun _ => ∅, false, none⟩

def Wire.req (w : Wire) (wid : ℕ) (id : String) (fs : List Filter) : Wire :=
  { w with
    live := Function.update w.live wid ((w.live wid).insert id fs)
    clash := w.clash || ((w.live wid).lookup id).isSome }

def Wire.close (w : Wire) (wid : ℕ) (id : String) : Wire :=
  { w with live := Function.update w.live wid ((w.live wid).erase id) }

/-- A card that is a request, or the end of one, goes over its socket. -/
def Wire.send (w : Wire) : Card → Wire
  | .wsClient wid (.message (.client (.req id fs))) => w.req wid id fs
  | .wsClient wid (.message (.client (.close id))) => w.close wid id
  | _ => w

def Wire.sendAll (w : Wire) (cs : List Card) : Wire := cs.foldl Wire.send w

inductive WireEvent where
  | add (user : User)
  | del (user : User)
  | rela (wids : List ℕ) (order : RelayOrder)
  | ted (t : Ted)
  | msg (wid : ℕ) (m : RelayMsg)
  | connect (wid : ℕ)
  | drop (wid : ℕ)

/-- The handler of an event. -/
def wireOutcome (S : Sys) (B : Bowl) (st : State) : WireEvent → Outcome
  | .add user => handleAdd S B st user
  | .del user => handleDel S B st user
  | .rela wids order => handleRela S B st wids order
  | .ted t => handleTed B st t
  | .msg wid m => handleRelayWs S B st wid (some m)
  | .connect wid => setRelay B st wid
  | .drop wid => unsetRelay st wid

/-- What an event is on the wire, before the cards of its handler: the relay may end a subscription, and nothing was
sent on a socket that opens. -/
def Wire.hear (w : Wire) : WireEvent → Wire
  | .del user => { w with quit := some user }
  | .msg wid (.closed id _) => { w.close wid id with quit := none }
  | .connect wid => { w with live := Function.update w.live wid ∅, quit := none }
  | _ => { w with quit := none }

/-- The state and the wire after an event; a handler may crash. -/
def wireTurn (S : Sys) (a : State × Wire) (e : Bowl × WireEvent) : Option (State × Wire) :=
  (wireOutcome S e.1 a.1 e.2).map fun r => (r.2, (a.2.hear e.2).sendAll r.1)

/-- **What is requested**: the table of each relay has the ids that are live on its socket, no request was sent under
an id that was live, and no subscription to a user that was just unfollowed is live. -/
structure Requested (a : State × Wire) : Prop where
  table : ∀ wid relay, a.1.relays.lookup wid = some relay → ∀ id, id ∈ relay.reqs ↔ id ∈ a.2.live wid
  apart : a.2.clash = false
  left : ∀ p, a.2.quit = some (.nostr p) → ∀ wid relay, a.1.relays.lookup wid = some relay →
    ∀ id fs, (a.2.live wid).lookup id = some fs → isSpecificUserSub p fs = false

/-! ### When an event keeps it -/

/-- No relay has a subscription to a user. -/
def NoSubs (st : State) (p : ℕ) : Prop :=
  ∀ wid relay, st.relays.lookup wid = some relay → ∀ id rs, relay.reqs.lookup id = some rs →
    isSpecificUserSub p rs.filters = false

/-- Those of some relays that are connected, one after the other. -/
def State.connectedWids (st : State) (wids : List ℕ) : List ℕ := wids.filter fun wid => (st.relays.lookup wid).isSome

/-- No relay is asked twice, and the event's id is new on each. -/
structure NewOn (B : Bowl) (st : State) (wids : List ℕ) : Prop where
  once : (st.connectedWids wids).Nodup
  fresh : ∀ wid ∈ wids, ∀ relay, st.relays.lookup wid = some relay → genSubId B.eny ∉ relay.reqs

/-- The end of a request's backlog opens one new request at most, and that under a new id. -/
def EoseFits (B : Bowl) (relay : RelayStats) (req : ReqState) : Prop :=
  match isFeed req.filters, req.chunked with
  | false, [] => True
  | true, _ :: _ => False
  | _, _ => genSubId B.eny ∉ relay.reqs

/-- **The events that keep what is requested**: ids are new where they are used, and once on each relay; a user that
is unfollowed has no subscription. -/
def Careful (S : Sys) (a : State × Wire) (e : Bowl × WireEvent) : Prop :=
  match e with
  | (B, .add (.nostr _)) => ∀ r, getRelay S a.1 = some r → genSubId B.eny ∉ r.2.reqs
  | (_, .del (.nostr p)) => NoSubs a.1 p
  | (B, .rela wids (.get _)) => NewOn B a.1 wids
  | (B, .ted (.req _ wids _)) => NewOn B a.1 wids
  | (B, .msg wid (.eose id)) =>
    ∀ relay req, a.1.relays.lookup wid = some relay → relay.reqs.lookup id = some req → EoseFits B relay req
  | (B, .connect wid) =>
    ∀ socket, B.sockets.find? (fun s => s.wid = wid) = some socket → socket.url = globalRelay →
      ∀ relay, a.1.relays.lookup wid = some relay → relay.reqs.keys = ∅
  | _ => True

/-! ### Cards on the wire -/

section

variable {w w' : Wire} {wid : ℕ} {id : String} {fs : List Filter}

theorem sendAll_append (w : Wire) (cs ds : List Card) : w.sendAll (cs ++ ds) = (w.sendAll cs).sendAll ds :=
  List.foldl_append

/-- Cards of which none is a request, or the end of one. -/
theorem sendAll_quiet {cs : List Card} (h : ∀ c ∈ cs, ∀ w : Wire, w.send c = w) (w : Wire) : w.sendAll cs = w := by
  induction cs generalizing w with
  | nil => rfl
  | cons c cs ih =>
    show (w.send c).sendAll cs = w
    rw [h c (List.mem_cons_self), ih fun d hd => h d (List.mem_cons_of_mem _ hd)]

theorem send_quit (w : Wire) (c : Card) : (w.send c).quit = w.quit := by
  unfold Wire.send
  split <;> rfl

theorem sendAll_quit (w : Wire) (cs : List Card) : (w.sendAll cs).quit = w.quit := by
  induction cs generalizing w with
  | nil => rfl
  | cons c cs ih => exact (ih (w.send c)).trans (send_quit w c)

theorem req_live (w : Wire) (wid : ℕ) (id : String) (fs : List Filter) :
    (w.req wid id fs).live wid = (w.live wid).insert id fs := Function.update_self ..

theorem req_live_ne {v : ℕ} (h : v ≠ wid) : (w.req wid id fs).live v = w.live v := Function.update_of_ne h ..

theorem close_live (w : Wire) (wid : ℕ) (id : String) : (w.close wid id).live wid = (w.live wid).erase id :=
  Function.update_self ..

theorem close_live_ne {v : ℕ} (h : v ≠ wid) : (w.close wid id).live v = w.live v := Function.update_of_ne h ..

/-- A request clashes just when its id is live. -/
theorem req_clash (w : Wire) (wid : ℕ) (id : String) (fs : List Filter) :
    (w.req wid id fs).clash = false ↔ w.clash = false ∧ id ∉ w.live wid := by
  show (w.clash || ((w.live wid).lookup id).isSome) = false ↔ _
  rw [Bool.or_eq_false_iff, Finmap.lookup_isSome.not.symm, Bool.not_eq_true]

/-- Two requests alike may be sent in either order. -/
theorem req_comm (w : Wire) (a b : ℕ) (id : String) (fs : List Filter) :
    (w.req a id fs).req b id fs = (w.req b id fs).req a id fs := by
  by_cases hab : a = b
  · rw [hab]
  · unfold Wire.req
    dsimp only
    rw [Function.update_of_ne (Ne.symm hab), Function.update_of_ne hab, Function.update_comm hab, Bool.or_assoc,
      Bool.or_assoc, Bool.or_comm (((w.live a).lookup id).isSome)]

end

/-! ### Tables -/

/-- A table has the subscriptions that are live, with their filters. -/
def Tabled (reqs : Map String ReqState) (m : Map String (List Filter)) : Prop :=
  ∀ id, m.lookup id = (reqs.lookup id).map ReqState.filters

theorem Tabled.mem {reqs : Map String ReqState} {m : Map String (List Filter)} (h : Tabled reqs m) (id : String) :
    id ∈ reqs ↔ id ∈ m := by
  rw [← Finmap.lookup_isSome, ← Finmap.lookup_isSome, h id, Option.isSome_map]

theorem Tabled.insert {reqs : Map String ReqState} {m : Map String (List Filter)} (h : Tabled reqs m) (id : String)
    (rs : ReqState) : Tabled (reqs.insert id rs) (m.insert id rs.filters) := by
  intro x
  by_cases hx : x = id
  · rw [hx, Finmap.lookup_insert, Finmap.lookup_insert, Option.map_some]
  · rw [Finmap.lookup_insert_of_ne _ hx, Finmap.lookup_insert_of_ne _ hx, h]

theorem Tabled.erase {reqs : Map String ReqState} {m : Map String (List Filter)} (h : Tabled reqs m) (id : String) :
    Tabled (reqs.erase id) (m.erase id) := by
  intro x
  by_cases hx : x = id
  · rw [hx, Finmap.lookup_erase, Finmap.lookup_erase, Option.map_none]
  · rw [Finmap.lookup_erase_ne hx, Finmap.lookup_erase_ne hx, h]

/-- A request that is there already, with the filters it has. -/
theorem Tabled.refile {reqs : Map String ReqState} {m : Map String (List Filter)} (h : Tabled reqs m) {id : String}
    {rs rs' : ReqState} (hrs : reqs.lookup id = some rs) (hfs : rs'.filters = rs.filters) :
    Tabled (reqs.insert id rs') m := by
  intro x
  by_cases hx : x = id
  · rw [hx, Finmap.lookup_insert, Option.map_some, h, hrs, Option.map_some, hfs]
  · rw [Finmap.lookup_insert_of_ne _ hx, h]

/-- The table of each relay has what is live on its socket. -/
def Recorded (a : State × Wire) : Prop :=
  ∀ wid relay, a.1.relays.lookup wid = some relay → Tabled relay.reqs (a.2.live wid)

/-- A relay written back. -/
theorem Recorded.put {st : State} {w w' : Wire} (h : Recorded (st, w)) {wid : ℕ} {relay : RelayStats}
    (hlive : ∀ v, v ≠ wid → w'.live v = w.live v) (ht : Tabled relay.reqs (w'.live wid)) :
    Recorded (st.putRelay wid relay, w') := by
  intro v r hr
  by_cases hv : v = wid
  · subst hv
    obtain rfl := Option.some.inj ((Finmap.lookup_insert st.relays).symm.trans hr)
    exact ht
  · have hr' : st.relays.lookup v = some r := (Finmap.lookup_insert_of_ne _ hv).symm.trans hr
    show Tabled r.reqs (w'.live v)
    rw [hlive v hv]
    exact h v r hr'

/-- A request that is recorded and sent. -/
theorem Recorded.request {st : State} {w : Wire} (h : Recorded (st, w)) {wid : ℕ} {relay : RelayStats}
    (hr : st.relays.lookup wid = some relay) (id : String) (rs : ReqState) :
    Recorded (st.putRelay wid { relay with reqs := relay.reqs.insert id rs }, w.req wid id rs.filters) :=
  h.put (fun _ hv => req_live_ne hv) (by rw [req_live]; exact (h wid relay hr).insert id rs)

/-! ### Requests on many relays -/

section

variable {S : Sys} {B : Bowl} {st st' : State} {wid : ℕ} {wids : List ℕ} {relay relay' : RelayStats}
  {cs cs' : List Card}

theorem newOn_nil (B : Bowl) (st : State) : NewOn B st [] := ⟨List.nodup_nil, fun _ h => nomatch h⟩

theorem connectedWids_putRelay (hr : (st.relays.lookup wid).isSome) (wids : List ℕ) :
    (st.putRelay wid relay').connectedWids wids = st.connectedWids wids := by
  refine List.filter_congr fun v _ => ?_
  by_cases hv : v = wid
  · rw [hv, hr, State.putRelay, Finmap.lookup_insert]
    rfl
  · rw [State.putRelay, Finmap.lookup_insert_of_ne _ hv]

/-- A relay that is not connected is passed over. -/
theorem newOn_cons_none (hr : st.relays.lookup wid = none) : NewOn B st (wid :: wids) ↔ NewOn B st wids := by
  have hconn : st.connectedWids (wid :: wids) = st.connectedWids wids :=
    List.filter_cons_of_neg (by rw [hr]; exact Bool.false_ne_true)
  constructor
  · rintro ⟨honce, hfresh⟩
    exact ⟨hconn ▸ honce, fun v hv => hfresh v (List.mem_cons_of_mem _ hv)⟩
  · rintro ⟨honce, hfresh⟩
    refine ⟨hconn.symm ▸ honce, fun v hv r hvr => ?_⟩
    rcases List.mem_cons.mp hv with rfl | hv
    · rw [hr] at hvr
      exact nomatch hvr
    · exact hfresh v hv r hvr

/-- The id is new on the first relay, and on the others after it is on the first. -/
theorem newOn_cons_some (hr : st.relays.lookup wid = some relay) (hid : genSubId B.eny ∈ relay'.reqs) :
    NewOn B st (wid :: wids) ↔ genSubId B.eny ∉ relay.reqs ∧ NewOn B (st.putRelay wid relay') wids := by
  have hsome : (st.relays.lookup wid).isSome := by rw [hr]; rfl
  have hconn : st.connectedWids (wid :: wids) = wid :: st.connectedWids wids := List.filter_cons_of_pos hsome
  have hmem : wid ∈ st.connectedWids wids ↔ wid ∈ wids := by
    rw [State.connectedWids, List.mem_filter, and_iff_left hsome]
  have hput : (st.putRelay wid relay').relays.lookup wid = some relay' := Finmap.lookup_insert _
  constructor
  · rintro ⟨honce, hfresh⟩
    rw [hconn, List.nodup_cons, hmem] at honce
    refine ⟨hfresh wid List.mem_cons_self relay hr, ?_, fun v hv r hvr => ?_⟩
    · rw [connectedWids_putRelay hsome]
      exact honce.2
    · have hne : v ≠ wid := fun h => honce.1 (h ▸ hv)
      exact hfresh v (List.mem_cons_of_mem _ hv) r ((Finmap.lookup_insert_of_ne _ hne).symm.trans hvr)
  · rintro ⟨hnew, honce, hfresh⟩
    rw [connectedWids_putRelay hsome] at honce
    have hnot : wid ∉ wids := fun h => hfresh wid h relay' hput hid
    refine ⟨?_, fun v hv r hvr => ?_⟩
    · rw [hconn, List.nodup_cons, hmem]
      exact ⟨hnot, honce⟩
    · rcases List.mem_cons.mp hv with rfl | hv
      · exact Option.some.inj (hr.symm.trans hvr) ▸ hnew
      · have hne : v ≠ wid := fun h => hnot (h ▸ hv)
        exact hfresh v hv r ((Finmap.lookup_insert_of_ne _ hne).trans hvr)

/-- An order to a relay makes one request. -/
theorem relaOne_request {rg : RelayGet} {d : List Card × RelayStats} (h : relaOne S B st wid relay rg = some d) :
    ∃ name fs ongoing chunked, d = request B wid relay name fs ongoing chunked := by
  cases rg with
  | sync => exact ⟨_, _, _, _, (Option.some.inj h).symm⟩
  | user pubkey => exact ⟨_, _, _, _, (Option.some.inj h).symm⟩
  | thread id => exact ⟨_, _, _, _, (Option.some.inj h).symm⟩
  | prof =>
    unfold relaOne getProfiles at h
    dsimp only at h
    split at h
    · exact nomatch h
    · exact ⟨_, _, _, _, (Option.some.inj h).symm⟩

theorem mem_recorded (B : Bowl) (relay : RelayStats) (name : String) (fs : List Filter) (ongoing : Option Bool)
    (chunked : List Filter) : genSubId B.eny ∈ (setReq B relay name fs ongoing chunked).2.reqs :=
  Finmap.mem_insert.mpr (.inl rfl)

/-- **What the loop of `handle-rela` requests is recorded**, and clashes with nothing just when the id is new. -/
theorem relaAll_spec {rg : RelayGet} (h : relaAll S B rg wids (cs, st) = some (cs', st')) :
    ∃ new, cs' = cs ++ new ∧ ∀ w, Recorded (st, w) → Recorded (st', w.sendAll new) ∧
      ((w.sendAll new).clash = false ↔ w.clash = false ∧ NewOn B st wids) := by
  induction wids generalizing cs st with
  | nil =>
    obtain ⟨rfl, rfl⟩ := Prod.mk.inj (Option.some.inj h)
    exact ⟨[], (List.append_nil _).symm, fun w hw => ⟨hw, (and_iff_left (newOn_nil B st)).symm⟩⟩
  | cons wid wids ih =>
    unfold relaAll at h
    cases hr : st.relays.lookup wid with
    | none =>
      rw [hr] at h
      obtain ⟨new, hnew, hspec⟩ := ih h
      refine ⟨new, hnew, fun w hw => ?_⟩
      rw [newOn_cons_none hr]
      exact hspec w hw
    | some relay =>
      rw [hr] at h
      obtain ⟨d, hd, hrest⟩ := Option.bind_eq_some_iff.mp h
      obtain ⟨name, fs, ongoing, chunked, rfl⟩ := relaOne_request hd
      obtain ⟨new, hnew, hspec⟩ := ih hrest
      refine ⟨[sendCard wid (.req (genSubId B.eny) fs)] ++ new, by rw [hnew, List.append_assoc]; rfl, fun w hw => ?_⟩
      obtain ⟨hfiled, hclash⟩ := hspec _ (hw.request hr (genSubId B.eny) ⟨name, fs, 0, ongoing, chunked⟩)
      refine ⟨hfiled, hclash.trans ?_⟩
      rw [req_clash, ← (hw wid relay hr).mem, and_assoc,
        newOn_cons_some hr (mem_recorded B relay name fs ongoing chunked)]
      rfl

/-- The requests of one event for the same, one on a relay each, may be sent in any order. -/
theorem sendAll_req {id : String} {fs : List Filter} {cs : List Card}
    (h : ∀ c ∈ cs, (∃ tid, c = .spider tid id) ∨ ∃ wid, c = sendCard wid (.req id fs)) (w : Wire) (wid : ℕ) :
    (w.req wid id fs).sendAll cs = (w.sendAll cs).req wid id fs := by
  induction cs generalizing w with
  | nil => rfl
  | cons c cs ih =>
    have hcs := ih fun d hd => h d (List.mem_cons_of_mem _ hd)
    rcases h c List.mem_cons_self with ⟨tid, rfl⟩ | ⟨v, rfl⟩
    · exact hcs w
    · show ((w.req wid id fs).req v id fs).sendAll cs = ((w.req v id fs).sendAll cs).req wid id fs
      rw [req_comm, hcs]

/-- **The same of `relay-get`**, which puts the cards of later relays first. -/
theorem relayGet_spec {tid : String} {rg : RelayGet} (h : relayGet B tid rg wids (cs, st) = some (cs', st')) :
    ∃ new, cs' = new ++ cs ∧
      (∀ c ∈ new, (∃ t, c = .spider t (genSubId B.eny)) ∨
        ∃ wid, c = sendCard wid (.req (genSubId B.eny) [postsFilter B])) ∧
      ∀ w, Recorded (st, w) → Recorded (st', w.sendAll new) ∧
        ((w.sendAll new).clash = false ↔ w.clash = false ∧ NewOn B st wids) := by
  induction wids generalizing cs st with
  | nil =>
    obtain ⟨rfl, rfl⟩ := Prod.mk.inj (Option.some.inj h)
    exact ⟨[], rfl, (fun _ hc => nomatch hc), fun w hw => ⟨hw, (and_iff_left (newOn_nil B st)).symm⟩⟩
  | cons wid wids ih =>
    unfold relayGet at h
    cases hr : st.relays.lookup wid with
    | none =>
      rw [hr] at h
      obtain ⟨new, hnew, hreq, hspec⟩ := ih h
      refine ⟨new, hnew, hreq, fun w hw => ?_⟩
      rw [newOn_cons_none hr]
      exact hspec w hw
    | some relay =>
      rw [hr] at h
      cases rg with
      | sync =>
        obtain ⟨new, hnew, hreq, hspec⟩ := ih h
        refine ⟨new ++ [.spider tid (genSubId B.eny), sendCard wid (.req (genSubId B.eny) [postsFilter B])], ?_, ?_,
          fun w hw => ?_⟩
        · rw [hnew, List.append_assoc]
          rfl
        · intro c hc
          rcases List.mem_append.mp hc with hc | hc
          · exact hreq c hc
          · rcases List.mem_cons.mp hc with rfl | hc
            · exact .inl ⟨tid, rfl⟩
            · exact .inr ⟨wid, List.mem_singleton.mp hc⟩
        · have hsend : w.sendAll (new ++ [.spider tid (genSubId B.eny),
              sendCard wid (.req (genSubId B.eny) [postsFilter B])]) =
              (w.req wid (genSubId B.eny) [postsFilter B]).sendAll new := by
            rw [sendAll_append, sendAll_req hreq]
            rfl
          rw [hsend]
          obtain ⟨hfiled, hclash⟩ := hspec _ (hw.request hr (genSubId B.eny) ⟨"timeline", [postsFilter B], 0, none, []⟩)
          refine ⟨hfiled, hclash.trans ?_⟩
          rw [req_clash, ← (hw wid relay hr).mem, and_assoc,
            newOn_cons_some hr (mem_recorded B relay "timeline" [postsFilter B] none [])]
          rfl
      | prof => exact nomatch h
      | user pubkey => exact nomatch h
      | thread id => exact nomatch h

end

/-! ### The end of a backlog -/

section

variable {S : Sys} {B : Bowl} {st st' : State} {wid : ℕ} {relay relay' : RelayStats} {subId : String}
  {req : ReqState} {w w' : Wire} {cs : List Card}

/-- What `handle-eose` tells the interface; after a feed it asks for profiles. -/
theorem eoseFacts_spec {d : List Card × RelayStats} (h : eoseFacts S B st wid relay req = some d) :
    (isFeed req.filters = true ∧ ∃ name fs ongoing chunked, d.2 = (request B wid relay name fs ongoing chunked).2 ∧
      ∀ w : Wire, w.sendAll d.1 = w.req wid (genSubId B.eny) fs) ∨
    (isFeed req.filters = false ∧ d.2 = relay ∧ ∀ w : Wire, w.sendAll d.1 = w) := by
  unfold eoseFacts at h
  by_cases hfeed : isFeed req.filters = true
  · rw [if_pos hfeed] at h
    obtain ⟨r, hr, rfl⟩ := Option.map_eq_some_iff.mp h
    obtain ⟨name, fs, ongoing, chunked, rfl⟩ := @relaOne_request S B st wid relay .prof r hr
    exact .inl ⟨hfeed, name, fs, ongoing, chunked, rfl, fun _ => rfl⟩
  · rw [if_neg hfeed] at h
    refine .inr ⟨Bool.not_eq_true _ ▸ hfeed, ?_⟩
    split at h
    · obtain rfl := Option.some.inj h
      exact ⟨rfl, fun _ => rfl⟩
    · split at h
      · obtain rfl := Option.some.inj h
        exact ⟨rfl, fun _ => rfl⟩
      · obtain rfl := Option.some.inj h
        refine ⟨rfl, fun w => ?_⟩
        dsimp only
        split <;> rfl

theorem eoseNext_nil (h : req.chunked = []) : eoseNext B wid relay req = ([], relay) := by
  unfold eoseNext
  rw [h]

theorem eoseNext_cons {head : Filter} {tail : List Filter} (h : req.chunked = head :: tail) :
    eoseNext B wid relay req = request B wid relay req.name [head] req.ongoing tail := by
  unfold eoseNext
  rw [h]

/-- The cards of `handle-eose`, one part after the other. -/
theorem sendAll_eose (w : Wire) (f g : UiFact) (xs ys zs : List Card) :
    w.sendAll ([.ui f, .ui g] ++ (xs ++ (ys ++ zs))) = ((w.sendAll xs).sendAll ys).sendAll zs := by
  rw [sendAll_append, sendAll_append, sendAll_append]
  rfl

theorem eoseLast_clash (w : Wire) (wid : ℕ) (relay : RelayStats) (subId : String) (req : ReqState) :
    (w.sendAll (eoseLast wid relay subId req).1).clash = w.clash := by
  unfold eoseLast
  cases req.ongoing <;> rfl

/-- The request whose backlog ends is closed on both sides, or marked on ours. -/
theorem eoseLast_recorded (hw : Recorded (st, w)) (hlive : ∀ v, v ≠ wid → w'.live v = w.live v)
    (ht : Tabled relay'.reqs (w'.live wid)) (hreq : relay'.reqs.lookup subId = some req) :
    Recorded (st.putRelay wid (eoseLast wid relay' subId req).2, w'.sendAll (eoseLast wid relay' subId req).1) := by
  unfold eoseLast
  cases req.ongoing with
  | none =>
    refine hw.put (fun v hv => (close_live_ne hv).trans (hlive v hv)) ?_
    show Tabled _ ((w'.close wid subId).live wid)
    rw [close_live]
    exact ht.erase subId
  | some b => exact hw.put hlive (ht.refile hreq rfl)

/-- The same after one new request. -/
theorem eoseLast_request (hw : Recorded (st, w)) (hr : st.relays.lookup wid = some relay)
    (hreq : relay.reqs.lookup subId = some req) (hnew : genSubId B.eny ∉ relay.reqs) (name : String) (fs : List Filter)
    (ongoing : Option Bool) (chunked : List Filter) :
    Recorded (st.putRelay wid (eoseLast wid (request B wid relay name fs ongoing chunked).2 subId req).2,
      (w.req wid (genSubId B.eny) fs).sendAll
        (eoseLast wid (request B wid relay name fs ongoing chunked).2 subId req).1) := by
  have hne : subId ≠ genSubId B.eny := fun h => hnew (h ▸ Finmap.mem_of_lookup_eq_some hreq)
  refine eoseLast_recorded hw (fun v hv => req_live_ne hv) ?_ ((Finmap.lookup_insert_of_ne _ hne).trans hreq)
  rw [req_live]
  exact (hw wid relay hr).insert (genSubId B.eny) ⟨name, fs, 0, ongoing, chunked⟩

/-- **The end of a backlog keeps the tables just when it opens one request at most, and that under a new id.** -/
theorem handleEose_spec (h : handleEose S B st wid relay subId = some (cs, st')) (hw : Recorded (st, w))
    (hr : st.relays.lookup wid = some relay) (hclash : w.clash = false) :
    ((∀ req, relay.reqs.lookup subId = some req → EoseFits B relay req) →
      Recorded (st', w.sendAll cs) ∧ (w.sendAll cs).clash = false) ∧
    ((w.sendAll cs).clash = false → ∀ req, relay.reqs.lookup subId = some req → EoseFits B relay req) := by
  unfold handleEose at h
  cases hreq : relay.reqs.lookup subId with
  | none =>
    rw [hreq] at h
    obtain ⟨rfl, rfl⟩ := Prod.mk.inj (Option.some.inj h)
    exact ⟨fun _ => ⟨hw, hclash⟩, fun _ _ hn => nomatch hn⟩
  | some req =>
    rw [hreq] at h
    obtain ⟨d, hd, heq⟩ := Option.map_eq_some_iff.mp h
    obtain ⟨rfl, rfl⟩ := Prod.mk.inj heq
    have hid : ∀ fs, (w.req wid (genSubId B.eny) fs).clash = false ↔ genSubId B.eny ∉ relay.reqs := fun fs => by
      rw [req_clash, and_iff_right hclash, (hw wid relay hr).mem]
    simp only [Option.some.injEq, forall_eq']
    unfold EoseFits
    obtain ⟨cards, relay1⟩ := d
    rw [sendAll_eose, eoseLast_clash]
    rcases eoseFacts_spec hd with ⟨hf, name, fs, ongoing, chunked, rfl, hcards⟩ | ⟨hf, rfl, hcards⟩
    · rw [hcards, hf]
      cases hch : req.chunked with
      | nil =>
        rw [eoseNext_nil hch]
        exact ⟨fun hnew => ⟨eoseLast_request hw hr hreq hnew name fs ongoing chunked, (hid fs).mpr hnew⟩, (hid fs).mp⟩
      | cons head tail =>
        -- both of the requests of this event are under its id
        rw [eoseNext_cons hch]
        refine ⟨False.elim, fun hc => ?_⟩
        have hlive := ((req_clash _ wid (genSubId B.eny) [head]).mp hc).2
        rw [req_live] at hlive
        exact hlive (Finmap.mem_insert.mpr (.inl rfl))
    · rw [hcards, hf]
      cases hch : req.chunked with
      | nil =>
        rw [eoseNext_nil hch]
        exact ⟨fun _ => ⟨eoseLast_recorded hw (fun _ _ => rfl) (hw wid relay1 hr) hreq, hclash⟩, fun _ => trivial⟩
      | cons head tail =>
        rw [eoseNext_cons hch]
        exact ⟨fun hnew => ⟨eoseLast_request hw hr hreq hnew req.name [head] req.ongoing tail, (hid [head]).mpr hnew⟩,
          (hid [head]).mp⟩

end

/-! ### Unfollowing -/

section

variable {S : Sys} {B : Bowl} {st st' : State} {w : Wire} {p : ℕ} {cs : List Card}

theorem lookup_of_getRelay {r : ℕ × RelayStats} (h : getRelay S st = some r) : st.relays.lookup r.1 = some r.2 := by
  obtain ⟨wid, -, hr⟩ := Option.bind_eq_some_iff.mp h
  obtain ⟨relay, hrelay, rfl⟩ := Option.map_eq_some_iff.mp hr
  exact hrelay

/-- What an unfollow sends to a relay: nothing, if it has no subscription to the user, and else the end of one. -/
theorem unfollowUser_spec (S : Sys) (wid : ℕ) (relay : RelayStats) (p : ℕ) :
    ((unfollowUser S wid relay p).1 = [] ∧
      ∀ id rs, relay.reqs.lookup id = some rs → isSpecificUserSub p rs.filters = false) ∨
    ∃ id rs, (unfollowUser S wid relay p).1 = [sendCard wid (.close id)] ∧ relay.reqs.lookup id = some rs ∧
      isSpecificUserSub p rs.filters = true := by
  unfold unfollowUser
  cases hf : (S.tapText relay.reqs.keys).find? fun id =>
      (relay.reqs.lookup id).any fun rs => isSpecificUserSub p rs.filters with
  | none =>
    refine .inl ⟨rfl, fun id rs hrs => ?_⟩
    have hmem : id ∈ S.tapText relay.reqs.keys :=
      S.mem_tapText.mpr (Finmap.mem_keys.mpr (Finmap.mem_of_lookup_eq_some hrs))
    have hno := List.find?_eq_none.mp hf id hmem
    rw [hrs, Option.any_some, Bool.not_eq_true] at hno
    exact hno
  | some id =>
    have hany := List.find?_some hf
    cases hrs : relay.reqs.lookup id with
    | none =>
      rw [hrs] at hany
      exact nomatch hany
    | some rs =>
      rw [hrs, Option.any_some] at hany
      exact .inr ⟨id, rs, rfl, hrs, hany⟩

/-- An unfollow ends at most one subscription to the user, and changes no table. -/
theorem handleDel_cards (h : handleDel S B st (.nostr p) = some (cs, st')) : st'.relays = st.relays ∧
    ((∀ v : Wire, v.sendAll cs = v) ∨
      ∃ r id rs, getRelay S st = some r ∧ r.2.reqs.lookup id = some rs ∧ isSpecificUserSub p rs.filters = true ∧
        ∀ v : Wire, v.sendAll cs = v.close r.1 id) := by
  cases hg : st.followGraph.lookup (.urbit B.our) with
  | none =>
    rw [handleDel_none hg] at h
    obtain ⟨rfl, rfl⟩ := Prod.mk.inj (Option.some.inj h)
    exact ⟨rfl, .inl fun _ => rfl⟩
  | some graph =>
    rw [handleDel_some hg] at h
    obtain ⟨rfl, rfl⟩ := Prod.mk.inj (Option.some.inj h)
    refine ⟨rfl, ?_⟩
    unfold quitCards
    dsimp only
    cases hrel : getRelay S st with
    | none => exact .inl fun _ => rfl
    | some r =>
      rcases unfollowUser_spec S r.1 r.2 p with ⟨hcards, -⟩ | ⟨id, rs, hcards, hrs, hspec⟩
      · refine .inl fun v => ?_
        dsimp only
        rw [hcards]
        rfl
      · refine .inr ⟨r, id, rs, rfl, hrs, hspec, fun v => ?_⟩
        dsimp only
        rw [hcards]
        rfl

/-- **Without a subscription to the user an unfollow keeps the tables.** -/
theorem handleDel_recorded (h : handleDel S B st (.nostr p) = some (cs, st')) (hw : Recorded (st, w))
    (hno : NoSubs st p) :
    Recorded (st', w.sendAll cs) ∧ (w.sendAll cs).clash = w.clash ∧
      ∀ wid relay, st'.relays.lookup wid = some relay → ∀ id fs, ((w.sendAll cs).live wid).lookup id = some fs →
        isSpecificUserSub p fs = false := by
  obtain ⟨hrelays, hquiet | ⟨r, id, rs, hrel, hrs, hspec, -⟩⟩ := handleDel_cards h
  · rw [hquiet]
    refine ⟨fun wid relay hr => hw wid relay (hrelays ▸ hr), rfl, fun wid relay hr id fs hfs => ?_⟩
    rw [hrelays] at hr
    rw [hw wid relay hr id] at hfs
    obtain ⟨rs, hrs, rfl⟩ := Option.map_eq_some_iff.mp hfs
    exact hno wid relay hr id rs hrs
  · rw [hno r.1 r.2 (lookup_of_getRelay hrel) id rs hrs] at hspec
    exact nomatch hspec

/-- **An unfollow leaves a subscription to the user, or its request where it ended one.** -/
theorem handleDel_requested (h : handleDel S B st (.nostr p) = some (cs, st')) (hw : Recorded (st, w))
    (htable : ∀ wid relay, st'.relays.lookup wid = some relay → ∀ id, id ∈ relay.reqs ↔ id ∈ (w.sendAll cs).live wid)
    (hleft : ∀ wid relay, st'.relays.lookup wid = some relay → ∀ id fs,
      ((w.sendAll cs).live wid).lookup id = some fs → isSpecificUserSub p fs = false) : NoSubs st p := by
  obtain ⟨hrelays, hquiet | ⟨r, id, rs, hrel, hrs, -, hclose⟩⟩ := handleDel_cards h
  · rw [hquiet, hrelays] at hleft
    intro wid relay hr id rs hrs
    refine hleft wid relay hr id rs.filters ?_
    rw [hw wid relay hr id, hrs, Option.map_some]
  · -- the end was sent, and the request is still in the table
    rw [hclose, hrelays] at htable
    have hlive := (htable r.1 r.2 (lookup_of_getRelay hrel) id).mp (Finmap.mem_of_lookup_eq_some hrs)
    rw [close_live] at hlive
    exact absurd rfl (Finmap.mem_erase.mp hlive).1

end

/-! ### One event -/

/-- What careful events keep: what is requested, with the filters. -/
structure Faithful (a : State × Wire) : Prop where
  recorded : Recorded a
  apart : a.2.clash = false
  left : ∀ p, a.2.quit = some (.nostr p) → ∀ wid relay, a.1.relays.lookup wid = some relay →
    ∀ id fs, (a.2.live wid).lookup id = some fs → isSpecificUserSub p fs = false

theorem Faithful.requested {a : State × Wire} (h : Faithful a) : Requested a :=
  ⟨fun wid relay hr id => (h.recorded wid relay hr).mem id, h.apart, h.left⟩

/-- After an event that unfollows nobody. -/
theorem faithful_quiet {st : State} {w : Wire} (hf : Recorded (st, w)) (hc : w.clash = false) (hq : w.quit = none) :
    Faithful (st, w) :=
  ⟨hf, hc, fun p hp => by rw [hq] at hp; exact nomatch hp⟩

section

variable {S : Sys} {B : Bowl} {st st' : State} {w : Wire} {cs : List Card}

/-- An event that makes requests, under a condition of its own, and keeps the tables in any case. -/
theorem step_requests {C : Prop} (hc : w.clash = false) (hq : w.quit = none)
    (h : Recorded (st', w.sendAll cs) ∧ ((w.sendAll cs).clash = false ↔ w.clash = false ∧ C)) :
    (C → Faithful (st', w.sendAll cs)) ∧ (Requested (st', w.sendAll cs) → C) :=
  ⟨fun hC => faithful_quiet h.1 (h.2.mpr ⟨hc, hC⟩) ((sendAll_quit w cs).trans hq), fun hr => (h.2.mp hr.apart).2⟩

/-- An event that makes none. -/
theorem step_none (hf : Recorded (st', w)) (hc : w.clash = false) (hq : w.quit = none) (hcs : w.sendAll cs = w) :
    (True → Faithful (st', w.sendAll cs)) ∧ (Requested (st', w.sendAll cs) → True) := by
  rw [hcs]
  exact ⟨fun _ => faithful_quiet hf hc hq, fun _ => trivial⟩

theorem step_add (hw : Recorded (st, w)) (hc : w.clash = false) (hq : w.quit = none) {user : User}
    (h : handleAdd S B st user = some (cs, st')) :
    (Careful S (st, w) (B, .add user) → Faithful (st', w.sendAll cs)) ∧
      (Requested (st', w.sendAll cs) → Careful S (st, w) (B, .add user)) := by
  cases user with
  | urbit p =>
    obtain ⟨rfl, rfl⟩ := Prod.mk.inj (Option.some.inj h)
    exact step_none hw hc hq rfl
  | nostr p =>
    unfold handleAdd at h
    show ((∀ r, getRelay S st = some r → genSubId B.eny ∉ r.2.reqs) → _) ∧ (_ → ∀ r, getRelay S st = some r → _)
    dsimp only at h
    cases hrel : getRelay S st with
    | none =>
      rw [hrel] at h
      obtain ⟨rfl, rfl⟩ := Prod.mk.inj (Option.some.inj h)
      exact ⟨fun _ => faithful_quiet hw hc hq, fun _ r hr => nomatch hr⟩
    | some r =>
      rw [hrel] at h
      obtain ⟨rfl, rfl⟩ := Prod.mk.inj (Option.some.inj h)
      simp only [Option.some.injEq, forall_eq']
      have hr := lookup_of_getRelay hrel
      refine step_requests hc hq ⟨hw.request hr _ ⟨_, _, _, _, _⟩, ?_⟩
      rw [(hw r.1 r.2 hr).mem]
      exact req_clash w r.1 _ _

/-- An event that is sent is no request. -/
theorem send_event (w : Wire) (wid : ℕ) (ev : Event) : w.send (sendCard wid (.event ev)) = w := rfl

theorem send_global (w : Wire) (B : Bowl) (ev : Event) : w.send (sendGlobal B (.event ev)) = w := by
  unfold sendGlobal
  split <;> rfl

theorem sendAll_events (w : Wire) (l : List (ℕ × RelayStats)) (ev : Event) :
    w.sendAll (l.map fun r => sendCard r.1 (.event ev)) = w := by
  refine sendAll_quiet (fun c hc v => ?_) w
  obtain ⟨r, -, rfl⟩ := List.mem_map.mp hc
  exact send_event v r.1 ev

theorem sendProf_quiet {wids : List ℕ} (h : sendProf S B st wids = some cs) (w : Wire) : w.sendAll cs = w := by
  unfold sendProf at h
  split at h
  · obtain rfl := Option.some.inj h
    rfl
  · obtain ⟨ev, -, rfl⟩ := Option.map_eq_some_iff.mp h
    show (w.send (sendGlobal B (.event ev))).sendAll _ = w
    rw [send_global, sendAll_events]

theorem sendPost_quiet {wids : List ℕ} {host : Ship} {id : Id} (h : sendPost S B st wids host id = some cs) (w : Wire) :
    w.sendAll cs = w := by
  unfold sendPost at h
  split at h
  · obtain rfl := Option.some.inj h
    rfl
  · obtain ⟨ev, -, rfl⟩ := Option.map_eq_some_iff.mp h
    exact sendAll_events w _ ev

theorem step_rela (hw : Recorded (st, w)) (hc : w.clash = false) (hq : w.quit = none) {wids : List ℕ}
    {order : RelayOrder} (h : handleRela S B st wids order = some (cs, st')) :
    (Careful S (st, w) (B, .rela wids order) → Faithful (st', w.sendAll cs)) ∧
      (Requested (st', w.sendAll cs) → Careful S (st, w) (B, .rela wids order)) := by
  cases order with
  | get rg =>
    obtain ⟨r, hr, heq⟩ := Option.map_eq_some_iff.mp h
    obtain ⟨rfl, rfl⟩ := Prod.mk.inj heq
    obtain ⟨new, hnew, hspec⟩ := relaAll_spec (show _ = some (r.1, r.2) from hr)
    rw [List.nil_append] at hnew
    rw [hnew]
    exact step_requests hc hq (hspec w hw)
  | sendPost host id =>
    obtain ⟨ds, hds, heq⟩ := Option.map_eq_some_iff.mp h
    obtain ⟨rfl, rfl⟩ := Prod.mk.inj heq
    exact step_none hw hc hq (sendPost_quiet hds w)
  | sendProf =>
    obtain ⟨ds, hds, heq⟩ := Option.map_eq_some_iff.mp h
    obtain ⟨rfl, rfl⟩ := Prod.mk.inj heq
    exact step_none hw hc hq (sendProf_quiet hds w)

theorem step_ted (hw : Recorded (st, w)) (hc : w.clash = false) (hq : w.quit = none) {t : Ted}
    (h : handleTed B st t = some (cs, st')) :
    (Careful S (st, w) (B, .ted t) → Faithful (st', w.sendAll cs)) ∧
      (Requested (st', w.sendAll cs) → Careful S (st, w) (B, .ted t)) := by
  cases t with
  | req tid wids rg =>
    obtain ⟨new, hnew, -, hspec⟩ := relayGet_spec h
    rw [List.append_nil] at hnew
    rw [hnew]
    exact step_requests hc hq (hspec w hw)
  | res subId =>
    obtain ⟨rfl, rfl⟩ := Prod.mk.inj (Option.some.inj h)
    exact step_none hw hc hq rfl

/-- A subscription that ends on a socket, with its request. -/
theorem Recorded.close {wid : ℕ} {relay : RelayStats} (hw : Recorded (st, w)) (hr : st.relays.lookup wid = some relay)
    (id : String) : Recorded (st.putRelay wid { relay with reqs := relay.reqs.erase id }, w.close wid id) :=
  hw.put (fun _ hv => close_live_ne hv) (by rw [close_live]; exact (hw wid relay hr).erase id)

/-- A socket of no relay does not matter. -/
theorem Recorded.congr {w' : Wire} {wid : ℕ} (hw : Recorded (st, w)) (hlive : ∀ v, v ≠ wid → w'.live v = w.live v)
    (hr : st.relays.lookup wid = none) : Recorded (st, w') := by
  intro v relay hv
  have hne : v ≠ wid := fun h => by
    rw [h] at hv
    exact nomatch hr.symm.trans hv
  show Tabled relay.reqs (w'.live v)
  rw [hlive v hne]
  exact hw v relay hv

theorem fileEvent_recorded (hw : Recorded (st, w)) (url : String) (ev : Event) :
    Recorded (fileEvent S st url ev, w) := by
  intro v r hv
  have hr := fileEvent_relays S st url ev
  rw [hr] at hv
  exact hw v r hv

theorem step_msg (hw : Recorded (st, w)) (hc : w.clash = false) {wid : ℕ} {m : RelayMsg}
    (h : handleRelayWs S B st wid (some m) = some (cs, st')) :
    (Careful S (st, w) (B, .msg wid m) → Faithful (st', (w.hear (.msg wid m)).sendAll cs)) ∧
      (Requested (st', (w.hear (.msg wid m)).sendAll cs) → Careful S (st, w) (B, .msg wid m)) := by
  have hw0 : Recorded (st, { w with quit := none }) := hw
  unfold handleRelayWs at h
  cases hr : st.relays.lookup wid with
  | none =>
    rw [hr] at h
    obtain ⟨rfl, rfl⟩ := Prod.mk.inj (Option.some.inj h)
    cases m with
    | closed id t => exact step_none (hw0.congr (fun _ hv => close_live_ne hv) hr) hc rfl rfl
    | eose id =>
      exact ⟨fun _ => faithful_quiet hw0 hc rfl, fun _ relay req hrelay => nomatch hr.symm.trans hrelay⟩
    | _ => exact step_none hw0 hc rfl rfl
  | some relay =>
    rw [hr] at h
    cases m with
    | event id ev =>
      obtain heq := Option.some.inj h
      unfold handleEvent at heq
      cases hreq : relay.reqs.lookup id with
      | none =>
        rw [hreq] at heq
        obtain ⟨rfl, rfl⟩ := Prod.mk.inj heq
        exact step_none hw0 hc rfl rfl
      | some req =>
        rw [hreq] at heq
        obtain ⟨rfl, rfl⟩ := Prod.mk.inj heq
        refine step_none (fileEvent_recorded (hw0.put (fun _ _ => rfl) ?_) _ _) hc rfl ?_
        · exact (hw wid relay hr).refile hreq rfl
        · split <;> rfl
    | eose id =>
      obtain ⟨hto, hfrom⟩ := handleEose_spec h hw0 hr hc
      have hiff : Careful S (st, w) (B, .msg wid (.eose id)) ↔
          ∀ req, relay.reqs.lookup id = some req → EoseFits B relay req :=
        ⟨fun hcare req => hcare relay req hr, fun hfit r req hr' => Option.some.inj (hr.symm.trans hr') ▸ hfit req⟩
      rw [hiff]
      refine ⟨fun hfit => ?_, fun hreq => hfrom hreq.apart⟩
      obtain ⟨hfiled, hclash⟩ := hto hfit
      exact faithful_quiet hfiled hclash (sendAll_quit _ cs)
    | closed id t =>
      obtain ⟨rfl, rfl⟩ := Prod.mk.inj (Option.some.inj h)
      exact step_none (hw0.close hr id) hc rfl rfl
    | _ =>
      obtain ⟨rfl, rfl⟩ := Prod.mk.inj (Option.some.inj h)
      exact step_none hw0 hc rfl rfl

theorem step_connect (hw : Recorded (st, w)) (hc : w.clash = false) {wid : ℕ} (h : setRelay B st wid = some (cs, st')) :
    (Careful S (st, w) (B, .connect wid) → Faithful (st', (w.hear (.connect wid)).sendAll cs)) ∧
      (Requested (st', (w.hear (.connect wid)).sendAll cs) → Careful S (st, w) (B, .connect wid)) := by
  have hother : ∀ v, v ≠ wid → (w.hear (.connect wid)).live v = w.live v := fun v hv => Function.update_of_ne hv ..
  have hself : (w.hear (.connect wid)).live wid = ∅ := Function.update_self ..
  unfold setRelay at h
  show ((∀ socket, B.sockets.find? (fun s => s.wid = wid) = some socket → _) → _) ∧
    (_ → ∀ socket, B.sockets.find? (fun s => s.wid = wid) = some socket → _)
  cases hs : B.sockets.find? fun s => s.wid = wid with
  | none =>
    rw [hs] at h
    exact nomatch h
  | some socket =>
    rw [hs] at h
    simp only [Option.some.injEq, forall_eq']
    dsimp only at h
    split at h
    · exact nomatch h
    · split at h
      · next hurl =>
        obtain ⟨rfl, rfl⟩ := Prod.mk.inj (Option.some.inj h)
        refine ⟨fun hempty => faithful_quiet (fun v r hr => ?_) hc rfl, fun hreq _ relay hr => ?_⟩
        · by_cases hv : v = wid
          · subst hv
            have hkeys := hempty hurl r hr
            intro id
            have hnone : r.reqs.lookup id = none := by
              rw [Finmap.lookup_eq_none, ← Finmap.mem_keys, hkeys]
              exact Finset.notMem_empty id
            show ((w.hear (.connect v)).live v).lookup id = _
            rw [hself, hnone]
            rfl
          · show Tabled r.reqs ((w.hear (.connect wid)).live v)
            rw [hother v hv]
            exact hw v r hr
        · refine Finset.eq_empty_of_forall_notMem fun id hid => ?_
          have hlive := (hreq.table wid relay hr id).mp (Finmap.mem_keys.mp hid)
          have hlive' : id ∈ (w.hear (.connect wid)).live wid := hlive
          rw [hself] at hlive'
          exact Finmap.notMem_empty hlive'
      · next hurl =>
        obtain ⟨rfl, rfl⟩ := Prod.mk.inj (Option.some.inj h)
        refine ⟨fun _ => faithful_quiet (fun v r hr => ?_) hc rfl, fun _ hglobal => absurd hglobal hurl⟩
        by_cases hv : v = wid
        · subst hv
          obtain rfl := Option.some.inj ((Finmap.lookup_insert st.relays).symm.trans hr)
          intro id
          show ((w.hear (.connect v)).live v).lookup id = _
          rw [hself]
          rfl
        · show Tabled r.reqs ((w.hear (.connect wid)).live v)
          rw [hother v hv]
          exact hw v r ((Finmap.lookup_insert_of_ne _ hv).symm.trans hr)

/-- A relay that is given up. -/
theorem step_drop (hw : Recorded (st, w)) (hc : w.clash = false) (hq : w.quit = none) {wid : ℕ}
    (h : unsetRelay st wid = some (cs, st')) : Faithful (st', w.sendAll cs) := by
  obtain ⟨rfl, rfl⟩ := Prod.mk.inj (Option.some.inj h)
  refine faithful_quiet (fun v r hr => ?_) hc hq
  have hne : v ≠ wid := fun hv => by
    subst hv
    exact nomatch (Finmap.lookup_erase v st.relays).symm.trans hr
  exact hw v r ((Finmap.lookup_erase_ne hne).symm.trans hr)

end

/-- **A careful event keeps what is requested, and no other does.** -/
theorem wireTurn_step {S : Sys} {a b : State × Wire} {e : Bowl × WireEvent} (ha : Faithful a)
    (h : wireTurn S a e = some b) : (Careful S a e → Faithful b) ∧ (Requested b → Careful S a e) := by
  obtain ⟨st, w⟩ := a
  obtain ⟨B, e⟩ := e
  obtain ⟨⟨cs, st'⟩, hout, rfl⟩ := Option.map_eq_some_iff.mp h
  have hw : Recorded (st, { w with quit := none }) := ha.recorded
  cases e with
  | add user => exact step_add hw ha.apart rfl hout
  | del user =>
    cases user with
    | urbit p =>
      -- a ship has no subscription on a relay
      have hcs : st'.relays = st.relays ∧ ∀ v : Wire, v.sendAll cs = v := by
        cases hg : st.followGraph.lookup (.urbit B.our) with
        | none =>
          obtain ⟨rfl, rfl⟩ := Prod.mk.inj (Option.some.inj ((@handleDel_none S B st (.urbit p) hg).symm.trans hout))
          exact ⟨rfl, fun _ => rfl⟩
        | some graph =>
          have hdel := (@handleDel_some S B st (.urbit p) graph hg).symm.trans hout
          obtain ⟨rfl, rfl⟩ := Prod.mk.inj (Option.some.inj hdel)
          exact ⟨rfl, fun _ => rfl⟩
      refine ⟨fun _ => ?_, fun _ => trivial⟩
      show Faithful (st', (w.hear (.del (.urbit p))).sendAll cs)
      rw [hcs.2]
      exact ⟨fun wid relay hr => ha.recorded wid relay (hcs.1 ▸ hr), ha.apart, fun q hq => nomatch hq⟩
    | nostr p =>
      have hw : Recorded (st, w.hear (.del (.nostr p))) := ha.recorded
      have hquit := sendAll_quit (w.hear (.del (.nostr p))) cs
      refine ⟨fun hno => ?_, fun hreq => handleDel_requested hout hw hreq.table (hreq.left p hquit)⟩
      obtain ⟨hfiled, hclash, hleft⟩ := handleDel_recorded hout hw hno
      refine ⟨hfiled, hclash.trans ha.apart, fun q hq => ?_⟩
      obtain rfl : p = q := User.nostr.inj (Option.some.inj (hquit.symm.trans hq))
      exact hleft
  | rela wids order => exact step_rela hw ha.apart rfl hout
  | ted t => exact step_ted hw ha.apart rfl hout
  | msg wid m => exact step_msg ha.recorded ha.apart hout
  | connect wid => exact step_connect ha.recorded ha.apart hout
  | drop wid => exact ⟨fun _ => step_drop hw ha.apart rfl hout, fun _ => trivial⟩

/-! ### Runs -/

/-- At first there is no relay. -/
theorem faithful_default (S : Sys) (eny : ℕ) : Faithful (defaultState S eny, .init) :=
  faithful_quiet (fun _ _ hr => nomatch (Finmap.lookup_empty _).symm.trans hr) rfl rfl

/-- **What is requested is what is live, all along, just when every event is careful.** -/
theorem requests_iff (S : Sys) (eny : ℕ) (l : List (Bowl × WireEvent)) {a : State × Wire}
    (h : Replay.follow (wireTurn S) (defaultState S eny, .init) l = some a) :
    (∀ n b, Replay.At (wireTurn S) (defaultState S eny, .init) l n b → Requested b) ↔
      Replay.Along (wireTurn S) (Careful S) (defaultState S eny, .init) l :=
  Replay.Along.iff_all_with (fun _ => True) Faithful Requested (fun _ _ _ _ _ => trivial)
    (fun _ _ _ _ ha hC ht => (wireTurn_step ha ht).1 hC)
    (fun _ _ _ _ ha _ ht => ⟨(wireTurn_step ha ht).2, fun hC => ((wireTurn_step ha ht).1 hC).requested⟩)
    trivial (faithful_default S eny) (faithful_default S eny).requested h

/-- A socket to a relay. -/
def relayBowl : Bowl := { Bowl.plain 0 with sockets := [⟨7, "wss://relay", true⟩] }

/-- The state when the relay is connected. -/
def relayState : State :=
  { defaultState .plain 1 with relays := (∅ : Map ℕ RelayStats).insert 7 ⟨epoch, "wss://relay", ∅⟩ }

theorem relayState_lookup {wid : ℕ} {relay : RelayStats} (h : relayState.relays.lookup wid = some relay) :
    wid = 7 ∧ relay = ⟨epoch, "wss://relay", ∅⟩ := by
  by_cases hw : wid = 7
  · subst hw
    exact ⟨rfl, (Option.some.inj ((Finmap.lookup_insert _).symm.trans h)).symm⟩
  · exact nomatch (Finmap.lookup_insert_of_ne _ hw).symm.trans h

theorem connect_relayState :
    ∃ w, wireTurn .plain (defaultState .plain 1, .init) (relayBowl, .connect 7) = some (relayState, w) := ⟨_, rfl⟩

/-- A user's feed is asked for on the relay. -/
theorem requests_asked : ∃ a, Replay.follow (wireTurn .plain) (defaultState .plain 1, .init)
      [(relayBowl, .connect 7), (relayBowl, .rela [7] (.get (.user 5)))] = some a ∧
    ∀ n b, Replay.At (wireTurn .plain) (defaultState .plain 1, .init)
      [(relayBowl, .connect 7), (relayBowl, .rela [7] (.get (.user 5)))] n b → Requested b := by
  refine ⟨_, rfl, (requests_iff .plain 1 _ rfl).mpr ⟨fun _ _ _ relay hr => ?_, fun b hb => ⟨?_, fun _ _ => trivial⟩⟩⟩
  · exact nomatch (Finmap.lookup_empty _).symm.trans hr
  · obtain ⟨w, hw⟩ := connect_relayState
    obtain rfl := Option.some.inj (hw.symm.trans hb)
    refine ⟨(List.nodup_singleton 7).filter _, fun wid _ relay hr => ?_⟩
    obtain ⟨-, rfl⟩ := relayState_lookup hr
    exact Finmap.notMem_empty

theorem getRelay_relayState : getRelay .plain relayState = some (7, ⟨epoch, "wss://relay", ∅⟩) := by
  have hmem : 7 ∈ Sys.plain.tapNat relayState.relays.keys :=
    Sys.plain.mem_tapNat.mpr (Finmap.mem_keys.mpr (Finmap.mem_insert.mpr (.inl rfl)))
  cases hrel : getRelay .plain relayState with
  | some r =>
    obtain ⟨wid, relay⟩ := r
    obtain ⟨rfl, rfl⟩ := relayState_lookup (lookup_of_getRelay hrel)
    rfl
  | none =>
    unfold getRelay at hrel
    cases htap : Sys.plain.tapNat relayState.relays.keys with
    | nil => exact absurd (htap ▸ hmem) List.not_mem_nil
    | cons v l =>
      have hv : v ∈ relayState.relays.keys := Sys.plain.mem_tapNat.mp (htap ▸ List.mem_cons_self)
      obtain ⟨relay, hvr⟩ := Finmap.mem_iff.mp (Finmap.mem_keys.mp hv)
      rw [htap, List.head?_cons, Option.bind_some, hvr] at hrel
      exact nomatch hrel

/-- **The subscription to a user that is unfollowed is closed, and its request stays in the table.** -/
theorem unfollow_leaves_request :
    ¬ ∀ (l : List (Bowl × WireEvent)) (a : State × Wire),
      Replay.follow (wireTurn .plain) (defaultState .plain 1, .init) l = some a → Requested a := by
  intro h
  obtain ⟨w, hconnect⟩ := connect_relayState
  have h1 : Faithful (relayState, w) :=
    (wireTurn_step (faithful_default .plain 1) hconnect).1 fun _ _ _ relay hr =>
      absurd (hr.symm.trans (Finmap.lookup_empty _)) (Option.some_ne_none _)
  have hout : ∃ r, handleAdd .plain relayBowl relayState (.nostr 5) = some r ∧
      r.2.relays.lookup 7 = some (getUserFeed relayBowl 7 ⟨epoch, "wss://relay", ∅⟩ 5).2 := by
    unfold handleAdd
    dsimp only
    rw [getRelay_relayState]
    exact ⟨_, rfl, Finmap.lookup_insert _⟩
  obtain ⟨⟨cs, st⟩, hadd, hrelay⟩ := hout
  have hturn : wireTurn .plain (relayState, w) (relayBowl, .add (.nostr 5)) =
      some (st, (w.hear (.add (.nostr 5))).sendAll cs) := by
    show (handleAdd .plain relayBowl relayState (.nostr 5)).map _ = _
    rw [hadd]
    rfl
  have h2 := (wireTurn_step h1 hturn).1 fun r hr => by
    obtain rfl := Option.some.inj (getRelay_relayState.symm.trans hr)
    exact Finmap.notMem_empty
  obtain ⟨b, hdel⟩ : ∃ b, wireTurn .plain (st, (w.hear (.add (.nostr 5))).sendAll cs)
      (relayBowl, .del (.nostr 5)) = some b := by
    show ∃ b, (handleDel .plain relayBowl st (.nostr 5)).map _ = some b
    cases hg : st.followGraph.lookup (.urbit relayBowl.our) with
    | none =>
      rw [handleDel_none hg]
      exact ⟨_, rfl⟩
    | some graph =>
      rw [handleDel_some hg]
      exact ⟨_, rfl⟩
  have hreq : Requested b := by
    refine h [(relayBowl, .connect 7), (relayBowl, .add (.nostr 5)), (relayBowl, .del (.nostr 5))] b ?_
    unfold Replay.follow Replay.follow Replay.follow
    rw [hconnect, Option.bind_some, hturn, Option.bind_some, hdel]
    rfl
  have hno : NoSubs st 5 := (wireTurn_step h2 hdel).2 hreq
  have hsub := hno 7 _ hrelay (genSubId relayBowl.eny) _ (Finmap.lookup_insert _)
  exact Bool.noConfusion ((show isSpecificUserSub 5
    [⟨none, some {5}, some {1}, none, some (relayBowl.now - d1), none, none⟩] = true by decide).symm.trans hsub)

end Nostrill
end Ursockets

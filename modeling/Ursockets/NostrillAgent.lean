/-
# The agent

What the agent does with a poke, by its mark and then by its tag, with a
subscription to it, and with the end of one. A payload is given as what its parser
or its mold makes of it: one that they refuse changes nothing. Nothing but the
subscription of the interface looks at who the poke or the subscription is from.

Key definitions: `Poke`, `debug`, `onUi`, `handleComms`, `onPoke`, `onWatch`,
`onLeave`.
-/
import Ursockets.NostrillFollow

namespace Ursockets
namespace Nostrill

/-! ### Debug commands -/

/-- The one segment that a path of websockets has after its head, as a number. -/
def widOf (S : Sys) (head : String) : List String → Option ℕ
  | [h, w] => if h = head then S.slawUd w else none
  | _ => none

/-- `list-server-conns` and the like: the paths of subscriptions whose first segment is `head`. -/
def connPaths (B : Bowl) (head : String) : List (List String) :=
  ((B.sup.map Subscriber.path).filter fun p => p.head? = some head).reverse

/-- `toggle` of the four lists of a lock. -/
def Lock.toggle (l : Lock) : Lock :=
  { l with
    rank := { l.rank with locked := !l.rank.locked }
    luk := { l.luk with locked := !l.luk.locked }
    ship := { l.ship with locked := !l.ship.locked }
    tags := { l.tags with locked := !l.tags.locked } }

/-- The posts of a thread deleted, as `%del-ted` does. -/
def delTed (f : OwnFeed) (thread : Id) : OwnFeed :=
  (tap f.posts).foldl (fun f e => if e.2.thread = thread then f.del e.2.id else f) f

/-- `%ws-ui`: to the last of the interface's sockets. A path of another length is weird, a segment that is no number
crashes. -/
def wsUi (S : Sys) (B : Bowl) (t : String) : Option (List Card) :=
  match connPaths B "websocket-server" with
  | [_, w] :: _ => (S.slawUd w).map fun wid => [.wsServer wid (.message (.text t))]
  | _ => some []

/-- `debug` -/
def debug (S : Sys) (B : Bowl) (st : State) : Debug → Outcome
  | .harkC => some ([.clearHark], st)
  | .print => some ([], st)
  | .permsManual => some ([], { st with feedPerms := { st.feedPerms with manual := !st.feedPerms.manual } })
  | .permsLock => some ([], { st with feedPerms := { st.feedPerms with lock := st.feedPerms.lock.toggle } })
  | .seed posts => some ([], { st with feed := posts.foldl OwnFeed.put st.feed })
  | .delTed thread => some ([], { st with feed := delTed st.feed thread })
  | .crash => none
  | .iris endpoint => some ([.connect endpoint], st)
  | .wsms t =>
    some (((B.sup.filterMap fun s => widOf S "websocket-server" s.path).map fun wid =>
      Card.wsServer wid (.message (.text t))).reverse, st)
  | .wsmc wid t => some ([.wsClient wid (.message (.text t))], st)
  | .wso url => some ([.connect url], st)
  | .wsg => some ([.connect globalRelay], st)
  | .wsgp t =>
    (buildSp S B.our B.our t none none).bind fun sp =>
      (postToEvent S st.keys B.eny (buildPost B.now st.keys.pub sp) 667 [["patp", S.scowP B.our]]).map fun ev =>
        ([sendGlobal B (.event ev)], st)
  | .wsc => some (B.sockets.map fun s => .cancel s.wid, { st with relays := ∅, globalRelayConn := none })
  | .wsUi t => (wsUi S B t).map fun cs => (cs, st)
  | .wst => some ([.oneOff "ws://localhost:9000" (.text "試行中")], st)
  | .irisf => some ([.wsClients (connPaths B "websocket-client") (.text "lolazo")], st)
  | .irisEvent wid => some ([.irisEvent wid (.message (.text "heyhey"))], st)
  | .kick => some (B.sup.map fun s => .kick s.path, st)
  | .leave => some (B.wex.map .leave, st)
  | .comms => some ([.watch 0, .pokeBitch 0], st)
  | .uinf => some ([.ui (.nostrFeed st.nostrFeed)], st)
  | .tedt tid => some ((tid.map fun t => Card.spider t "lmao").toList, st)

/-! ### Commands from the interface -/

/-- `handle-cycle-keys` -/
def handleCycleKeys (S : Sys) (B : Bowl) (st : State) : List Card × State :=
  let ks := genKeys S B.eny
  let st := { st with keys := ks, oldKeys := st.keys :: st.oldKeys }
  let np :=
    match st.profiles.lookup (.urbit B.src) with
    | none => defaultProfile S B st
    | some curr => { curr with pubkey := ks.pub }
  ([.followers (.prof (some np))], { st with profiles := st.profiles.insert (.urbit B.src) np })

/-- `handle-prof` -/
def handleProf (S : Sys) (B : Bowl) (st : State) : ProfPoke → Outcome
  | .add um =>
    let prof := { defaultProfile S B st with userMeta := um }
    let st := { st with profiles := st.profiles.insert (.urbit B.our) prof }
    (profileToEvent S st.keys prof B.eny B.now).map fun ev =>
      ([.followers (.prof (some prof)), sendGlobal B (.event ev)], st)
  | .del => some ([.followers (.prof none)], { st with profiles := st.profiles.erase (.urbit B.our) })
  | .fetch => some ([], st)

/-- `handle-rela`, of the interface. -/
def handleRelaPoke (S : Sys) (B : Bowl) (st : State) : RelayPoke → Outcome
  | .add url => some ([.connect url], st)
  | .del wid => unsetRelay st wid
  | .do wids action => handleRela S B st wids action

/-- `on-ui` -/
def onUi (S : Sys) (B : Bowl) (st : State) : UiPoke → Outcome
  | .keys => some (handleCycleKeys S B st)
  | .fols (.add user) => handleAdd S B st user
  | .fols (.del user) => handleDel S B st user
  | .begs => some ([], st)
  | .prof p => handleProf S B st p
  | .rela p => handleRelaPoke S B st p
  | .post p => handlePost S B st p

/-! ### Pokes -/

/-- A poke, by its mark, with what its payload is read as: `none` is one that is not read. -/
inductive Poke where
  | noun (p : Option CommsPoke)
  | json (p : Option UiPoke)
  | nostrillTed (t : Ted)
  | clientMessage (wid : ℕ) (msg : Option RelayMsg)
  | handshake (wid : ℕ) (url : Option (List String)) (authenticated : Bool)
  | serverMessage (wid : ℕ) (path : List String) (msg : Option String) (parsed : Option ClientMsg)
  | other

/-- `ws-proxy` -/
def wsProxy (st : State) (wid : ℕ) : WsProxy → List Card × State
  | .msg msg => ([.wsClient wid (.message (.text msg))], st)
  | .disconnect => ([.wsClient wid .disconnect], st)

/-- `handle-comms` -/
def handleComms (S : Sys) (B : Bowl) (st : State) : CommsPoke → Outcome
  | .dbug d => debug S B st d
  | .ted wid w => some (wsProxy st wid w)
  | .eng e => handleEng S B st e

/-- `handle-ted` -/
def handleTed (B : Bowl) (st : State) : Ted → Outcome
  | .req tid wids rg => relayGet B tid rg wids ([], st)
  | .res _ => some ([], st)

/-- `handle-relay-ws` -/
def handleRelayWs (S : Sys) (B : Bowl) (st : State) (wid : ℕ) (msg : Option RelayMsg) : Outcome :=
  match st.relays.lookup wid, msg with
  | some relay, some m => handleWs S B st wid relay m
  | _, _ => some ([], st)

/-- `handle-ws-handshake` -/
def handleHandshake (st : State) (wid : ℕ) (url : Option (List String)) (authenticated : Bool) : List Card × State :=
  match url with
  | none => ([], st)
  | some pat =>
    let ok := if pat = ["nostrill-ui"] then authenticated else pat = ["nostrill"]
    ([.wsServer wid (if ok then .accept else .reject)], st)

/-- `handle-ws-msg` -/
def handleServerMsg (st : State) (wid : ℕ) (path : List String) (msg : Option String) (parsed : Option ClientMsg) :
    List Card × State :=
  match msg with
  | none => ([], st)
  | some wsdata =>
    if path = ["nostrill-ui"] then ([.wsServer wid (.message (.text (wsdata ++ "---" ++ wsdata)))], st)
    else if path = ["nostrill"] then
      match parsed with
      | some (.event ev) => handleClientEvent st wid ev
      | _ => ([], st)
    else ([], st)

/-- `on-poke` -/
def onPoke (S : Sys) (B : Bowl) (st : State) : Poke → Outcome
  | .noun (some p) => handleComms S B st p
  | .noun none => some ([], st)
  | .json (some p) => onUi S B st p
  | .json none => some ([], st)
  | .nostrillTed t => handleTed B st t
  | .clientMessage wid msg => handleRelayWs S B st wid msg
  | .handshake wid url authenticated => some (handleHandshake st wid url authenticated)
  | .serverMessage wid path msg parsed => some (handleServerMsg st wid path msg parsed)
  | .other => some ([], st)

/-! ### Subscriptions -/

/-- The message of a request is the first segment after its path. -/
def reqMsg (rest : List String) : String := rest.head?.getD ""

/-- `on-watch` -/
def onWatch (S : Sys) (B : Bowl) (st : State) (pole : List String) : Outcome :=
  match pole with
  | "http-response" :: _ => some ([], st)
  | "websocket-server" :: _ => some ([], st)
  | ["websocket-client", wids] => (S.slawUd wids).bind fun wid => setRelay B st wid
  | ["ui"] =>
    if B.our ≠ B.src then none
    else
      let profiles := if (st.profiles.lookup (.urbit B.our)).isSome then st.profiles
        else st.profiles.insert (.urbit B.our) (defaultProfile S B st)
      some ([.uiState], { st with profiles := profiles })
  | "follow" :: rest => handleReq S B st ⟨reqMsg rest, none⟩ pole
  | "beg" :: "feed" :: rest => handleReq S B st ⟨reqMsg rest, some .feed⟩ pole
  | "beg" :: "thread" :: ids :: rest =>
    match S.slawUw ids with
    | none => some ([], st)
    | some id => handleReq S B st ⟨reqMsg rest, some (.thread id)⟩ pole
  | _ => none

/-- `on-leave` -/
def onLeave (S : Sys) (st : State) (pole : List String) : List Card × State :=
  match pole with
  | ["websocket-client", wids] =>
    match S.slawUd wids with
    | none => ([], st)
    | some wid =>
      if some wid = st.globalRelayConn then ([], { st with globalRelayConn := none })
      else
        match st.relays.lookup wid with
        | none => ([], st)
        | some relay =>
          let relays := st.relays.erase wid
          ([.ui (.nostrRelays relays), .ui (.nostrDrop relay.url)], { st with relays := relays })
  | _ => ([], st)

end Nostrill
end Ursockets

/-
# Eyre's logins

The arms of `arvo/eyre.hoon` by which a session is come by: the login page, the logout, and
eauth, by which a ship is logged in on another's server. Eauth has two halves. The server
keeps an attempt under a nonce, asks the visitor's ship for the url of its eauth page and sends
the visitor there; the client, which is the visitor's own ship, has the attempt confirmed and
sends the server a plea with a token; the visitor comes back with the token and is given a
session. Both halves are arms of the same vane, and a ship is either to others.

Key definitions: `AuthState`, `onPlea`, `finalize`, `eauthRequest`, `authRequest`.
-/
import Ursockets.EyreChannel

namespace Ursockets
namespace Eyre

/-! ### Data -/

/-- `portkey`: when an outgoing login was completed, or the one under way. -/
structure Portkey where
  pend : Option Duct
  toke : Option ℕ
  deriving DecidableEq

/-- `logbook`: the nonces of the pleas that are not acknowledged, and the outgoing logins. -/
structure Logbook where
  qeu : List ℕ
  map : Map ℕ (Da ⊕ Portkey)
  deriving DecidableEq

/-- The bunt of a `logbook`. -/
def emptyBook : Logbook := ⟨[], ∅⟩

/-- `eauth-plea`. -/
inductive EauthPlea where
  | open (nonce : ℕ) (token : Option ℕ)
  | shut (nonce : ℕ)
  deriving DecidableEq

/-- The local endpoint: what the user has set, and what was found, since when. -/
structure Endpoint where
  user : Option String
  auth : Option String
  time : Da
  deriving DecidableEq

/-- The state that logins work on: that of the server, the outgoing logins by host, and the endpoint. -/
structure AuthState where
  server : ServerState
  visiting : Map Ship Logbook
  endpoint : Endpoint

/-- The moves of logins: those of the other arms, the pleas of the client with the timers of its attempts,
and the gift of the session tokens. -/
inductive AuthMove where
  | move (move : Move)
  | plea (ship : Ship) (plea : EauthPlea)
  | expireVisiting (duct : Duct) (host : Ship) (nonce : ℕ) (date : Da)
  | sessions (tokens : List ℕ)
  deriving DecidableEq

/-- What the standard library does with the texts of logins, and the pages that are served. -/
structure AuthText extends Text where
  args : String → List (String × String)
  yquy : Octs → Option (List (String × String))
  slawP : String → Option Ship
  slawUv : String → Option ℕ
  enUrlt : String → String
  hostSansPort : String → Option String
  loginPage : Option String → Identity → Option Bool → Bool → Octs
  eauthErrorPage : Option String → Octs
  confirmationPage : Ship → ℕ → Octs

/-- What is drawn from the entropy of an event. -/
structure AuthEny extends Eny where
  nonces : List ℕ
  token : ℕ

/-- `eauth-timeout`. -/
def eauthTimeout : Da := 50 * 2 ^ 64

/-- `eauth-cache-rounding`. -/
def eauthCacheRounding : Da := 300 * 2 ^ 64

/-- `+eauth-url`. -/
def eauthUrl (endpoint : Endpoint) : Option String := (endpoint.user <|> endpoint.auth).map (· ++ "/~/eauth")

/-- The moves and the state of the server, among those of logins. -/
def AuthState.serve (a : AuthState) (r : List Move × ServerState) : List AuthMove × AuthState :=
  (r.1.map .move, { a with server := r.2 })

variable (text : AuthText) (our : Ship) (now : Da) (duct : Duct)

/-- A redirect. -/
def redirect (url : String) : HttpEvent := .start ⟨303, [("location", url)]⟩ none true

/-! ### The server -/

/-- `+send-keen`, of a `%keen`. The time is rounded down. -/
def sendKeen (ship : Ship) (nonce : ℕ) (time : Da) : Move :=
  ⟨duct, .keen (.eauthKeen ship nonce) ship (time - time % eauthCacheRounding)⟩

/-- `+send-keen`, of a `%yawn`. -/
def sendYawn (ship : Ship) (nonce : ℕ) (time : Da) : Move :=
  ⟨duct, .yawn (.eauthKeen ship nonce) ship (time - time % eauthCacheRounding)⟩

/-- The boon to a visitor's ship, if it has been heard of. -/
def shutBoon (d : Option Duct) (nonce : ℕ) : List Move := (d.map fun d => (⟨d, .boon (.shut nonce)⟩ : Move)).toList

/-- `+start:server`. -/
def serverStart (eny : AuthEny) (ship : Ship) (base : Option String) (last : String) (s : ServerState) :
    Option (List Move × ServerState) :=
  (eny.nonces.find? fun n => n ∉ s.visitors).map fun nonce =>
    ([sendKeen duct ship nonce now, ⟨duct, .wait (.eauthExpireVisitors nonce) (now + eauthTimeout)⟩],
      { s with visitors := s.visitors.insert nonce ⟨none, .inr ⟨some (duct, now), ship, base, last, none⟩⟩ })

/-- `+on-tune`. -/
def onTune (ship : Ship) (nonce : ℕ) (url : String) (s : ServerState) : Option (List Move × ServerState) :=
  match s.visitors.lookup nonce with
  | some ⟨d, .inr p⟩ =>
    if ship = p.ship then
      p.pend.map fun pend =>
        handleResponse text.toText our now pend.1
          (redirect (url ++ "?server=" ++ text.scowP our ++ "&nonce=" ++ text.scowUv nonce))
          { s with visitors := s.visitors.insert nonce ⟨d, .inr { p with pend := none }⟩ }
    else none
  | _ => none

/-- `+on-plea`. -/
def onPlea (endpoint : Endpoint) (ship : Ship) (plea : EauthPlea) (s : ServerState) :
    Option (List Move × ServerState) :=
  match plea with
  | .open nonce token =>
    match ((s.visitors.lookup nonce).getD ⟨none, .inr ⟨none, ship, none, "/", none⟩⟩).state with
    | .inl _ => none
    | .inr p =>
      if ship = p.ship then
        (eauthUrl (if p.base = none then endpoint else { endpoint with user := p.base })).map fun url =>
          ([⟨duct, .done⟩, ⟨duct, .boon (.okay nonce url)⟩],
            { s with visitors := s.visitors.insert nonce ⟨some duct, .inr { p with toke := token }⟩ })
      else none
  | .shut nonce =>
    match s.visitors.lookup nonce with
    | none => some ([⟨duct, .done⟩], s)
    | some visa =>
      some ([⟨duct, .done⟩, ⟨duct, .boon (.shut nonce)⟩],
        { s with
          visitors := s.visitors.erase nonce,
          sessions := match visa.state with
            | .inl sesh => s.sessions.erase sesh
            | .inr _ => s.sessions })

/-- `+cancel`. -/
def cancel (nonce : ℕ) (last : String) (s : ServerState) : List Move × ServerState :=
  match s.visitors.lookup nonce with
  | some ⟨d, .inr _⟩ =>
    let r := handleResponse text.toText our now duct (redirect ("/~/login?eauth&redirect=" ++ text.enUrlt last))
      { s with visitors := s.visitors.erase nonce }
    (r.1 ++ shutBoon d nonce, r.2)
  | _ => ([], s)

/-- The answer to the visitor who waits for the tune of an attempt that fails. -/
def failPend (p : Pending) (s : ServerState) : List Move × ServerState :=
  match p.pend with
  | none => ([], s)
  | some pend => returnStaticDataOnDuct text.toText our now pend.1 503 "text/html" (text.eauthErrorPage (some p.last)) s

/-- `+expire:server`. -/
def expireVisitors (nonce : ℕ) (s : ServerState) : List Move × ServerState :=
  match s.visitors.lookup nonce with
  | some ⟨d, .inr p⟩ =>
    let r := failPend text our now p s
    let moz := (p.pend.map fun pend => sendYawn duct p.ship nonce pend.2).toList ++ r.1
    (moz ++ shutBoon d nonce,
      { r.2 with visitors := r.2.visitors.erase nonce })
  | _ => ([], s)

/-- `+finalize`: the attempt's session. -/
def finalize (eny : AuthEny) (nonce : ℕ) (ship : Ship) (last : String) (s : ServerState) :
    Option (List Move × ServerState) := do
  let connection ← s.connections.lookup duct
  let r1 := closeSession our connection.sessionId false s
  let (r2, s) ← startSession our now duct eny.toEny (.eauth ship) r1.2
  let visitors ← jab s.visitors nonce fun v => { v with state := .inl r2.1 }
  let connections ← jab s.connections duct fun o => { o with sessionId := r2.1 }
  let r3 := handleResponse text.toText our now duct
    (.start
      ⟨303, [("location", last), ("set-cookie", sessionCookieString text.toText our r2.1 (some false))]⟩ none true)
    { s with visitors := visitors, connections := connections }
  some (r1.1 ++ (r2.2.2 ++ r3.1), r3.2)

/-- `+on-fail`. -/
def onFail (nonce : ℕ) (s : ServerState) : List Move × ServerState :=
  match s.visitors.lookup nonce with
  | some ⟨d, .inr p⟩ =>
    let r := failPend text our now p { s with visitors := s.visitors.erase nonce }
    (r.1 ++ shutBoon d nonce, r.2)
  | _ => ([], s)

/-! ### The client -/

/-- The logbook of a host. -/
def AuthState.book (a : AuthState) (host : Ship) : Logbook := (a.visiting.lookup host).getD emptyBook

/-- The logbook of a host is this one, unless it is empty. -/
def AuthState.putBook (a : AuthState) (host : Ship) (book : Logbook) : AuthState :=
  { a with visiting := if book = emptyBook then a.visiting.erase host else a.visiting.insert host book }

/-- The answer to the request that waits for an outgoing login that fails. -/
def failPort (port : Da ⊕ Portkey) (a : AuthState) : List AuthMove × AuthState :=
  match port with
  | .inl _ => ([], a)
  | .inr port =>
    match port.pend with
    | none => ([], a)
    | some d =>
      a.serve (returnStaticDataOnDuct text.toText our now d 503 "text/html" (text.eauthErrorPage none) a.server)

/-- `+start:client`. -/
def clientStart (eny : AuthEny) (host : Ship) (nonce : ℕ) (grant : Bool) (a : AuthState) :
    Option (List AuthMove × AuthState) :=
  let token := if grant then some eny.token else none
  let book := a.book host
  if nonce ∈ book.map then none
  else some ([.plea host (.open nonce token), .expireVisiting duct host nonce (now + eauthTimeout)],
    { a with
      visiting := a.visiting.insert host ⟨book.qeu ++ [nonce], book.map.insert nonce (.inr ⟨some duct, token⟩)⟩ })

/-- `+on-done`. -/
def onDone (host : Ship) (good : Bool) (a : AuthState) : List AuthMove × AuthState :=
  let book := a.book host
  match book.qeu with
  | [] => ([], a)
  | nonce :: qeu =>
    if good then ([], a.putBook host { book with qeu := qeu })
    else
      match book.map.lookup nonce with
      | none => ([], a)
      | some port => failPort text our now port (a.putBook host ⟨qeu, book.map.erase nonce⟩)

/-- `+on-boon`. -/
def onBoon (host : Ship) (boon : EauthBoon) (a : AuthState) : Option (List AuthMove × AuthState) :=
  match boon with
  | .okay nonce url => do
    let book ← a.visiting.lookup host
    match ← book.map.lookup nonce with
    | .inl _ => none
    | .inr port => do
      let d ← port.pend
      let a' := match port.toke with
        | some _ => { a with visiting := a.visiting.insert host { book with map := book.map.insert nonce (.inl now) } }
        | none => a.putBook host { book with map := book.map.erase nonce }
      some (a'.serve (handleResponse text.toText our now d
        (redirect (url ++ "?nonce=" ++ text.scowUv nonce ++ port.toke.elim "&abort" fun toke => "&token=" ++
          text.scowUv toke))
        a'.server))
  | .shut nonce =>
    let book := a.book host
    some ([], a.putBook host { book with map := book.map.erase nonce })

/-- `+expire:client`. -/
def expireVisiting (host : Ship) (nonce : ℕ) (a : AuthState) : List AuthMove × AuthState :=
  let book := a.book host
  match book.map.lookup nonce with
  | some (.inr port) => failPort text our now (.inr port) (a.putBook host { book with map := book.map.erase nonce })
  | _ => ([], a)

/-! ### Requests -/

/-- `(~(get by (malt l)) key)`: the last of the arguments of this name. -/
def maltGet (key : String) (l : List (String × String)) : Option String := getHeader key l.reverse

/-- `+return-static-data-on-duct`, for an arm of logins. -/
def page (code : ℕ) (data : Octs) (a : AuthState) : List AuthMove × AuthState :=
  a.serve (returnStaticDataOnDuct text.toText our now duct code "text/html" data a.server)

/-- A request of eauth is sent to the login page first. -/
def toLogin (url : String) (a : AuthState) : List AuthMove × AuthState :=
  a.serve (handleResponse text.toText our now duct (redirect ("/~/login?redirect=" ++ text.enUrlt url)) a.server)

/-- A GET of `/~/eauth` with a host: the confirmation page, or the redirect is awaited by this request. -/
def confirmRequest (host : Ship) (nonce : ℕ) (identity : Identity) (url : String) (a : AuthState) :
    List AuthMove × AuthState :=
  if identity ≠ .ours then toLogin text our now duct url a
  else
    let book := a.book host
    match book.map.lookup nonce with
    | none => page text our now duct 200 (text.confirmationPage host nonce) a
    | some (.inl _) => page text our now duct 400 (text.eauthErrorPage none) a
    | some (.inr port) =>
      match port.pend with
      | none => page text our now duct 400 (text.eauthErrorPage none) a
      | some d =>
        let book := { book with map := book.map.insert nonce (.inr { port with pend := some duct }) }
        let a := { a with visiting := a.visiting.insert host book }
        a.serve (returnStaticDataOnDuct text.toText our now d 202 "text/plain" "continued elsewhere..." a.server)

/-- A GET of `/~/eauth` without a host: a visitor who comes back. -/
def finalRequest (eny : AuthEny) (nonce : ℕ) (token : Option ℕ) (abort : Bool) (a : AuthState) :
    Option (List AuthMove × AuthState) :=
  match a.server.visitors.lookup nonce with
  | some ⟨d, .inr p⟩ =>
    let error := some (page text our now duct 400 (text.eauthErrorPage (some p.last)) a)
    if abort then some (a.serve (cancel text our now duct nonce p.last a.server))
    else
      match token, p.toke, d with
      | some t, some toke, some _ =>
        if t = toke then (finalize text our now duct eny nonce p.ship p.last a.server).map a.serve else error
      | _, _, _ => error
  | _ => some (page text our now duct 400 (text.eauthErrorPage none) a)

/-- `+on-request` of eauth. -/
def eauthRequest (eny : AuthEny) (identity : Identity) (request : Request) (a : AuthState) :
    Option (List AuthMove × AuthState) :=
  if request.method = "GET" then
    let args := text.args request.url
    let token := (maltGet "token" args).bind text.slawUv
    match (maltGet "nonce" args).bind text.slawUv, (maltGet "server" args).bind text.slawP with
    | none, _ => some (page text our now duct 400 (text.eauthErrorPage none) a)
    | some nonce, some host => some (confirmRequest text our now duct host nonce identity request.url a)
    | some nonce, none => finalRequest text our now duct eny nonce token (maltGet "abort" args).isSome a
  else if request.method ≠ "POST" then some (page text our now duct 405 (text.eauthErrorPage none) a)
  else if identity ≠ .ours then some (toLogin text our now duct request.url a)
  else
    let args := (text.yquy (request.body.getD "")).getD []
    match (maltGet "server" args).bind text.slawP, (maltGet "nonce" args).bind text.slawUv with
    | some host, some nonce =>
      if nonce ∈ (a.book host).map then some (page text our now duct 400 (text.eauthErrorPage none) a)
      else clientStart now duct eny host nonce (maltGet "grant" args = some "grant") a
    | _, _ => some (page text our now duct 400 (text.eauthErrorPage none) a)

/-- `+give-session-tokens`. -/
def giveSessionTokens (s : ServerState) : AuthMove :=
  .sessions ((s.sessions.entries.filter fun e => e.2.identity = .ours).map (·.1))

/-- The `prot://host` of a request. -/
def hostUrl (secure : Bool) (host : String) : String := (if secure then "https://" else "http://") ++ host

/-- A login with the right password. -/
def localLogin (eny : AuthEny) (secure : Bool) (host : Option String) (sessionId : ℕ) (redirect : Option String)
    (a : AuthState) :
    Option (List AuthMove × AuthState) := do
  let moz := closeSession our sessionId false a.server
  let (fex, s) ← startSession our now duct eny.toEny .local moz.2
  let connections ← jab s.connections duct fun o => { o with sessionId := fex.1 }
  let e := a.endpoint
  let endpoint := match host with
    | none => e
    | some h =>
      if e.auth = none ∨ (text.hostSansPort h).getD "" ≠ "localhost" then
        let new := some (hostUrl secure h)
        ⟨e.user, new, if e.user.isSome ∨ new = e.auth then e.time else now⟩
      else e
  let bod := text.scowUv fex.1
  let col := ("content-length", toString bod.length)
  let out := handleResponse text.toText our now duct
    (match redirect with
      | none => .start ⟨200, [col]⟩ (some bod) true
      | some r => .start ⟨303, [("location", if r = "" then "/" else r), col]⟩ (some bod) true)
    { s with connections := connections }
  some (giveSessionTokens s :: (moz.1 ++ (fex.2.2 ++ out.1)).map .move,
    { a with server := out.2, endpoint := endpoint })

/-- `+handle-request` of authentication: the login page. -/
def loginRequest (code : String) (eny : AuthEny) (secure : Bool) (host : Option String) (sessionId : ℕ)
    (identity : Identity)
    (request : Request) (a : AuthState) : Option (List AuthMove × AuthState) :=
  let args := text.args request.url
  let withEauth := if eauthUrl a.endpoint = none then none else some (getHeader "eauth" args).isSome
  let answer := fun (status : ℕ) (redirect : Option String) (eauth : Option Bool) (failed : Bool) =>
    some (page text our now duct status (text.loginPage redirect identity eauth failed) a)
  if request.method = "GET" then answer 200 (getHeader "redirect" args) withEauth false
  else if request.method ≠ "POST" then answer 405 none withEauth false
  else
    match request.body.bind text.yquy with
    | none => answer 400 none withEauth false
    | some parsed =>
      let redirect := getHeader "redirect" parsed
      if (getHeader "eauth" parsed).isSome then
        match (getHeader "name" parsed).bind text.slawP with
        | none => answer 400 redirect (some true) false
        | some ship =>
          let last := redirect.getD ""
          (serverStart now duct eny ship (host.map (hostUrl secure))
            (if last = "" then "/" else last) a.server).map a.serve
      else
        let withEauth := withEauth.map fun _ => false
        match getHeader "password" parsed with
        | none => answer 400 redirect withEauth false
        | some password =>
          if password ≠ code then answer 400 redirect withEauth true
          else localLogin text our now duct eny secure host sessionId redirect a

/-- `+handle-logout`. -/
def logoutRequest (sessionId : ℕ) (identity : Identity) (request : Request) (a : AuthState) :
    List AuthMove × AuthState :=
  let headers := [("location", (getHeader "redirect" (text.args request.url)).getD "/~/login")]
  let response := fun headers s => handleResponse text.toText our now duct (.start ⟨303, headers⟩ none true) s
  let arg := (request.body.bind text.yquy).getD []
  let sid := if identity ≠ .ours then some sessionId else
    match getHeader "sid" arg with
    | none => some sessionId
    | some sid => text.slawUv sid
  let hos := if identity ≠ .ours then none else (getHeader "host" arg).bind text.slawP
  match sid, hos with
  | none, _ => a.serve (response headers a.server)
  | some sid, some hos =>
    let r := a.serve (response headers a.server)
    let book := r.2.book hos
    (.plea hos (.shut sid) :: r.1,
      { r.2 with visiting := r.2.visiting.insert hos { book with qeu := book.qeu ++ [sid] } })
  | some sid, none =>
    let headers := if sid = sessionId then
      ("set-cookie", sessionCookieString text.toText our sessionId none) :: headers else headers
    let moz1 := closeSession our sid (getHeader "all" arg).isSome a.server
    let moz2 := response headers moz1.2
    (giveSessionTokens moz2.2 :: (moz1.1 ++ moz2.1).map .move, { a with server := moz2.2 })

/-- The pages of logins. -/
inductive AuthAction where
  | authentication
  | eauth
  | logout
  deriving DecidableEq

/-- The action of a page's binding. -/
def AuthAction.toAction : AuthAction → Action
  | .authentication => .authentication
  | .eauth => .eauth
  | .logout => .logout

/-- `+request`, for one that its bindings lead to the logins. -/
def authRequest (code : String) (eny : AuthEny) (action : AuthAction) (secure : Bool) (host : Option String)
    (address : ℕ)
    (request : Request) (a : AuthState) : Option (List AuthMove × AuthState) := do
  let (found, s) ← sessionForRequest text.toText our now duct eny.toEny request a.server
  match found with
  | .inl invalid =>
    let c : OutstandingConnection := ⟨action.toAction, ⟨false, secure, address, request⟩, invalid, .fake 0, none, 0⟩
    some (a.serve (handleResponse text.toText our now duct
      (.start ⟨401, [("set-cookie", sessionCookieString text.toText our invalid none), ("content-length", "16")]⟩
        (some "bad session auth") true) { s with connections := s.connections.insert duct c }))
  | .inr (sessionId, identity, som) => do
    let c : OutstandingConnection := ⟨action.toAction, ⟨identity = .ours, secure, address, request⟩, sessionId,
      identity, none, 0⟩
    let endpoint := match host with
      | some h =>
        if identity = .ours ∧ a.endpoint.auth = none then
          ⟨a.endpoint.user, some (hostUrl secure h), now⟩ else a.endpoint
      | none => a.endpoint
    let a :
      AuthState := { a with server := { s with connections := s.connections.insert duct c }, endpoint := endpoint }
    let (moz, a) ← match action with
      | .authentication => loginRequest text our now duct code eny secure host sessionId identity request a
      | .eauth => eauthRequest text our now duct eny identity request a
      | .logout => some (logoutRequest text our now duct sessionId identity request a)
    some (som.map .move ++ moz, a)

/-- The timer of the sessions: those that have expired go. -/
def expireSessions (error : Option String) (s : ServerState) : List AuthMove × ServerState :=
  match error with
  | some tang => ([.move ⟨duct, .flog .flog tang⟩, .move ⟨duct, .wait .sessionsExpire (now + 86400 * 2 ^ 64)⟩], s)
  | none =>
    let sessions := (s.sessions.entries.filter fun e => e.2.expiryTime < now).foldl (fun m e => m.erase e.1) s.sessions
    let s := { s with sessions := sessions }
    let next := sessions.entries.foldl (fun next e => if next = 0 then e.2.expiryTime else min next e.2.expiryTime) 0
    (giveSessionTokens s :: if sessions.entries = [] then [] else [.move ⟨duct, .wait .sessionsExpire next⟩], s)

end Eyre
end Ursockets

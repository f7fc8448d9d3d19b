/-
# Runs of eyre's logins

Logins, pleas of other ships, their answers to ours, timers and their retries, in any order. A
session of another ship is minted in one place, where a visitor comes back with the token of an
attempt. An attempt's token is that of the last plea for its nonce, which its ship sent, and an
attempt that has its session takes no token any more. So each such session stands for a plea of its
ship with the token that was presented, and no plea for two.

Key definitions: `AuthSys`, `AuthTask`, `authTurn`, `Calm`, `Minting`, `Honest`, `Held`.
Key theorems: `authRequest_spec`, `Held.turn`, `honest_of_run`.
-/
import Ursockets.Eauth
import Ursockets.EyreRun
import Ursockets.Lib.Replay
import Mathlib.Logic.Function.Basic

namespace Ursockets
namespace Eyre

/-! ### Arms that mint no session of another ship's -/

/-- The attempts that have a token had it before, of the same ship; those that have a session had it before; and
so had the sessions of other ships their identity. -/
structure Calm (s s' : ServerState) : Prop where
  pending : ∀ {nonce d p t}, s'.visitors.lookup nonce = some ⟨d, .inr p⟩ → p.toke = some t →
    ∃ d' p', s.visitors.lookup nonce = some ⟨d', .inr p'⟩ ∧ p'.ship = p.ship ∧ p'.toke = some t
  done : ∀ {nonce d sesh}, s'.visitors.lookup nonce = some ⟨d, .inl sesh⟩ →
    ∃ d', s.visitors.lookup nonce = some ⟨d', .inl sesh⟩
  real : ∀ {sid ses who}, s'.sessions.lookup sid = some ses → ses.identity = .real who →
    ∃ ses', s.sessions.lookup sid = some ses' ∧ ses'.identity = .real who

variable {text : AuthText} {our : Ship} {now : Da} {duct : Duct} {s s' s'' : ServerState} {moves : List Move}
  {eny : AuthEny}
  {nonce : ℕ} {ship : Ship}

theorem Calm.rfl' : Calm s s := ⟨fun hv ht => ⟨_, _, hv, rfl, ht⟩, fun hv => ⟨_, hv⟩, fun hs hi => ⟨_, hs, hi⟩⟩

theorem Calm.trans (h : Calm s s') (h' : Calm s' s'') : Calm s s'' where
  pending := fun hv ht => by
    obtain ⟨d, p, hv', hp, ht'⟩ := h'.pending hv ht
    obtain ⟨d', p', hv'', hp', ht''⟩ := h.pending hv' ht'
    exact ⟨d', p', hv'', hp'.trans hp, ht''⟩
  done := fun hv => by
    obtain ⟨d, hv'⟩ := h'.done hv
    exact h.done hv'
  real := fun hs hi => by
    obtain ⟨ses, hs', hi'⟩ := h'.real hs hi
    exact h.real hs' hi'

/-- A state with the visitors and the sessions that there were, or fewer. -/
theorem calm_fewer (hv : ∀ n v, s'.visitors.lookup n = some v → s.visitors.lookup n = some v)
    (hs : ∀ sid ses, s'.sessions.lookup sid = some ses → s.sessions.lookup sid = some ses) : Calm s s' :=
  ⟨fun h ht => ⟨_, _, hv _ _ h, rfl, ht⟩, fun h => ⟨_, hv _ _ h⟩, fun h hi => ⟨_, hs _ _ h, hi⟩⟩

theorem calm_same (hv : s'.visitors = s.visitors) (hs : s'.sessions = s.sessions) : Calm s s' :=
  calm_fewer (fun _ _ h => hv ▸ h) fun _ _ h => hs ▸ h

theorem lookup_of_erase {κ α : Type} [DecidableEq κ] {m : Map κ α} {k k' : κ} {x : α}
    (h : (m.erase k').lookup k = some x) :
    m.lookup k = some x := by
  by_cases hk : k = k'
  · rw [hk, AList.lookup_erase] at h
    exact absurd h.symm (Option.some_ne_none _)
  · rwa [AList.lookup_erase_ne hk] at h

theorem lookup_of_eraseAll {κ α : Type} [DecidableEq κ] {k : κ} {x : α} :
    ∀ {l : List (Sigma fun _ : κ => α)} {m : Map κ α},
    (l.foldl (fun m e => m.erase e.1) m).lookup k = some x → m.lookup k = some x
  | [], _, h => h
  | _ :: _, _, h => lookup_of_erase (lookup_of_eraseAll h)

theorem handleResponse_calm (text : Text) (our : Ship) (now : Da) (duct : Duct) (e : HttpEvent) (s : ServerState) :
    Calm s (handleResponse text our now duct e s).2 := by
  unfold handleResponse
  split
  · exact .rfl'
  · rename_i c _
    split
    · split
      · exact calm_same rfl rfl
      · refine ⟨fun hv ht => ⟨_, _, hv, rfl, ht⟩, fun hv => ⟨_, hv⟩, fun {sid ses who} hs hi => ?_⟩
        dsimp only at hs
        split at hs
        · exact ⟨ses, hs, hi⟩
        · rename_i ses0 hses0
          by_cases hsid : sid = c.sessionId
          · subst hsid
            rw [AList.lookup_insert] at hs
            obtain rfl := Option.some.inj hs
            exact ⟨ses0, hses0, hi⟩
          · rw [AList.lookup_insert_ne hsid] at hs
            exact ⟨ses, hs, hi⟩
    · split
      · exact calm_same rfl rfl
      · exact calm_same rfl rfl
    · exact calm_same rfl rfl

theorem discardAll_auth (our : Ship) : ∀ (cids : List String) (s : ServerState),
    (discardAll our cids s).2.visitors = s.visitors ∧ (discardAll our cids s).2.sessions = s.sessions
  | [], _ => ⟨rfl, rfl⟩
  | cid :: cids, s => by
    obtain ⟨h1, h2⟩ := discardAll_auth our cids (discardChannel our cid false s).2
    have hone : (discardChannel our cid false s).2.visitors = s.visitors ∧
        (discardChannel our cid false s).2.sessions = s.sessions := by
      unfold discardChannel
      split <;> exact ⟨rfl, rfl⟩
    exact ⟨h1.trans hone.1, h2.trans hone.2⟩

theorem closeSession_calm (our : Ship) (sid : ℕ) (all : Bool) (s : ServerState) :
    Calm s (closeSession our sid all s).2 := by
  unfold closeSession
  split
  · exact .rfl'
  · rename_i ses _
    have hclosed : Calm s { s with sessions := (endSessions sid all ses s).2 } := by
      refine calm_fewer (fun _ _ h => h) fun sid' ses' h => ?_
      unfold endSessions at h
      split at h
      · exact lookup_of_eraseAll h
      · exact lookup_of_erase h
    have hdiscard : Calm { s with sessions := (endSessions sid all ses s).2 }
        (discardAll our (endSessions sid all ses s).1 { s with sessions := (endSessions sid all ses s).2 }).2 :=
      calm_same (discardAll_auth our _ _).1 (discardAll_auth our _ _).2
    refine (hclosed.trans hdiscard).trans ?_
    unfold shutVisitors
    split
    · exact calm_fewer (fun _ _ h => lookup_of_eraseAll h) fun _ _ h => h
    · exact .rfl'

/-- A session that is started is new, and of the identity of its kind. -/
theorem startSession_spec {kind : SessionKind} {r : (ℕ × Identity × List Move) × ServerState}
    (h : startSession our now duct eny.toEny kind s = some r) :
    newIdentity our eny.toEny kind = some r.1.2.1 ∧
      ∃ expiry, r.2 = { s with sessions := s.sessions.insert r.1.1 ⟨r.1.2.1, expiry, []⟩ } := by
  unfold startSession at h
  simp only [Option.bind_eq_bind, Option.bind_eq_some_iff, Option.some.injEq] at h
  obtain ⟨key, -, sid, hsid, rfl⟩ := h
  exact ⟨hsid, _, rfl⟩

/-- What the sessions are with a new one. -/
theorem real_insert {ses0 : Session} {key : ℕ} {sid : ℕ} {ses : Session} {who : Ship}
    (h : (s.sessions.insert key ses0).lookup sid = some ses) (hi : ses.identity = .real who) :
    (∃ ses', s.sessions.lookup sid = some ses' ∧ ses'.identity = .real who) ∨ sid = key ∧
      ses0.identity = .real who := by
  by_cases hsid : sid = key
  · subst hsid
    rw [AList.lookup_insert] at h
    exact .inr ⟨rfl, Option.some.inj h ▸ hi⟩
  · rw [AList.lookup_insert_ne hsid] at h
    exact .inl ⟨ses, h, hi⟩

theorem startSession_calm {kind : SessionKind} {r : (ℕ × Identity × List Move) × ServerState}
    (h : startSession our now duct eny.toEny kind s = some r) (hk : ∀ who, kind ≠ .eauth who) : Calm s r.2 := by
  obtain ⟨hid, expiry, hr⟩ := startSession_spec h
  rw [hr]
  refine ⟨fun hv ht => ⟨_, _, hv, rfl, ht⟩, fun hv => ⟨_, hv⟩, fun hs hi => ?_⟩
  refine (real_insert hs hi).resolve_right fun ⟨_, hreal⟩ => ?_
  dsimp only at hreal
  rw [hreal] at hid
  cases kind with
  | «local» => exact nomatch Option.some.inj hid
  | guest =>
    obtain ⟨nom, -, hnom⟩ := Option.map_eq_some_iff.mp hid
    exact nomatch hnom
  | eauth who => exact hk who rfl

theorem sessionForRequest_calm {request : Request} {r : (ℕ ⊕ ℕ × Identity × List Move) × ServerState}
    (h : sessionForRequest text.toText our now duct eny.toEny request s = some r) :
    Calm s r.2 ∧ r.2.visitors = s.visitors := by
  unfold sessionForRequest at h
  split at h
  · obtain ⟨r1, hr1, rfl⟩ := Option.map_eq_some_iff.mp h
    obtain ⟨-, expiry, hr⟩ := startSession_spec hr1
    refine ⟨startSession_calm hr1 fun _ => nofun, ?_⟩
    rw [hr]
  · split at h
    · obtain rfl := Option.some.inj h
      exact ⟨.rfl', rfl⟩
    · split at h <;> obtain rfl := Option.some.inj h <;> exact ⟨.rfl', rfl⟩

variable {a : AuthState} {r : List AuthMove × AuthState} {q : List Move × ServerState} {host : Ship} {book : Logbook}

theorem returnStaticDataOnDuct_calm (text : Text) (our : Ship) (now : Da) (duct : Duct) (code : ℕ)
    (contentType data : String)
    (s : ServerState) : Calm s (returnStaticDataOnDuct text our now duct code contentType data s).2 :=
  handleResponse_calm _ _ _ _ _ _

/-- An attempt is forgotten. -/
theorem erase_calm (nonce : ℕ) (s : ServerState) : Calm s { s with visitors := s.visitors.erase nonce } :=
  calm_fewer (fun _ _ h => lookup_of_erase h) fun _ _ h => h

/-- An attempt that is new has no token, and one that stays has the ship and the token that it had. -/
theorem pending_calm {d : Option Duct} {p : Pending}
    (h : ∀ t, p.toke = some t → ∃ d' p', s.visitors.lookup nonce = some ⟨d', .inr p'⟩ ∧ p'.ship = p.ship ∧
      p'.toke = some t) :
    Calm s { s with visitors := s.visitors.insert nonce ⟨d, .inr p⟩ } where
  pending := fun {n d' p' t} hv ht => by
    by_cases hn : n = nonce
    · subst hn
      obtain ⟨-, hp⟩ := Visitor.mk.inj (Option.some.inj ((AList.lookup_insert _).symm.trans hv))
      obtain rfl := Sum.inr.inj hp
      exact h t ht
    · exact ⟨d', p', (AList.lookup_insert_ne hn).symm.trans hv, rfl, ht⟩
  done := fun {n d' sesh} hv => by
    by_cases hn : n = nonce
    · subst hn
      exact nomatch Option.some.inj ((AList.lookup_insert _).symm.trans hv)
    · exact ⟨d', (AList.lookup_insert_ne hn).symm.trans hv⟩
  real := fun hs hi => ⟨_, hs, hi⟩

theorem serverStart_calm {base : Option String} {last : String}
    (h : serverStart now duct eny ship base last s = some q) :
    Calm s q.2 := by
  obtain ⟨n, -, rfl⟩ := Option.map_eq_some_iff.mp h
  exact pending_calm fun t ht => nomatch ht

theorem onTune_calm {url : String} (h : onTune text our now ship nonce url s = some q) : Calm s q.2 := by
  unfold onTune at h
  split at h
  · rename_i d p hv
    split at h
    · obtain ⟨pend, -, rfl⟩ := Option.map_eq_some_iff.mp h
      have hkept : Calm s { s with visitors := s.visitors.insert nonce ⟨d, .inr { p with pend := none }⟩ } :=
        pending_calm fun t ht => ⟨d, p, hv, rfl, ht⟩
      exact hkept.trans (handleResponse_calm _ _ _ _ _ _)
    · exact absurd h.symm (Option.some_ne_none _)
  · exact absurd h.symm (Option.some_ne_none _)

theorem onPlea_shut_calm {endpoint : Endpoint} (h : onPlea duct endpoint ship (.shut nonce) s = some q) :
    Calm s q.2 := by
  unfold onPlea at h
  dsimp only at h
  split at h
  · obtain rfl := Option.some.inj h
    exact .rfl'
  · obtain rfl := Option.some.inj h
    refine calm_fewer (fun _ _ h => lookup_of_erase h) fun sid ses h => ?_
    dsimp only at h
    split at h
    · exact lookup_of_erase h
    · exact h

theorem cancel_calm (text : AuthText) (our : Ship) (now : Da) (duct : Duct) (nonce : ℕ) (last : String)
    (s : ServerState) :
    Calm s (cancel text our now duct nonce last s).2 := by
  unfold cancel
  split
  · exact (erase_calm nonce s).trans (handleResponse_calm _ _ _ _ _ _)
  · exact .rfl'

theorem failPend_calm (text : AuthText) (our : Ship) (now : Da) (p : Pending) (s : ServerState) :
    Calm s (failPend text our now p s).2 := by
  unfold failPend
  split
  · exact .rfl'
  · exact returnStaticDataOnDuct_calm _ _ _ _ _ _ _ _

theorem expireVisitors_calm (text : AuthText) (our : Ship) (now : Da) (duct : Duct) (nonce : ℕ) (s : ServerState) :
    Calm s (expireVisitors text our now duct nonce s).2 := by
  unfold expireVisitors
  split
  · exact (failPend_calm _ _ _ _ _).trans (erase_calm nonce _)
  · exact .rfl'

theorem onFail_calm (text : AuthText) (our : Ship) (now : Da) (nonce : ℕ) (s : ServerState) :
    Calm s (onFail text our now nonce s).2 := by
  unfold onFail
  split
  · exact (erase_calm nonce s).trans (failPend_calm _ _ _ _ _)
  · exact .rfl'

theorem failPort_calm (text : AuthText) (our : Ship) (now : Da) (port : Da ⊕ Portkey) (a : AuthState) :
    Calm a.server (failPort text our now port a).2.server := by
  unfold failPort
  split
  · exact .rfl'
  · split
    · exact .rfl'
    · exact returnStaticDataOnDuct_calm _ _ _ _ _ _ _ _

theorem clientStart_calm {grant : Bool} (h : clientStart now duct eny host nonce grant a = some r) :
    Calm a.server r.2.server := by
  unfold clientStart at h
  dsimp only at h
  split at h
  · exact absurd h.symm (Option.some_ne_none _)
  · exact Option.some.inj h ▸ .rfl'

theorem onDone_calm (text : AuthText) (our : Ship) (now : Da) (host : Ship) (good : Bool) (a : AuthState) :
    Calm a.server (onDone text our now host good a).2.server := by
  unfold onDone
  dsimp only
  split
  · exact .rfl'
  · split
    · exact .rfl'
    · split
      · exact .rfl'
      · exact failPort_calm _ _ _ _ (a.putBook host _)

theorem onBoon_calm {boon : EauthBoon} (h : onBoon text our now host boon a = some r) : Calm a.server r.2.server := by
  unfold onBoon at h
  split at h
  · simp only [Option.bind_eq_bind, Option.bind_eq_some_iff] at h
    obtain ⟨book, -, port, -, h⟩ := h
    cases port with
    | inl made => exact absurd h.symm (Option.some_ne_none _)
    | inr port =>
      obtain ⟨d, -, h⟩ := Option.bind_eq_some_iff.mp h
      obtain rfl := Option.some.inj h
      cases port.toke <;> exact handleResponse_calm _ _ _ _ _ _
  · exact Option.some.inj h ▸ .rfl'

theorem expireVisiting_calm (text : AuthText) (our : Ship) (now : Da) (host : Ship) (nonce : ℕ) (a : AuthState) :
    Calm a.server (expireVisiting text our now host nonce a).2.server := by
  unfold expireVisiting
  dsimp only
  split
  · exact failPort_calm _ _ _ _ (a.putBook host _)
  · exact .rfl'

theorem confirmRequest_calm (text : AuthText) (our : Ship) (now : Da) (duct : Duct) (host : Ship) (nonce : ℕ)
    (identity : Identity) (url : String) (a : AuthState) :
    Calm a.server (confirmRequest text our now duct host nonce identity url a).2.server := by
  unfold confirmRequest
  split
  · exact handleResponse_calm _ _ _ _ _ _
  · dsimp only
    split
    · exact handleResponse_calm _ _ _ _ _ _
    · exact handleResponse_calm _ _ _ _ _ _
    · split <;> exact handleResponse_calm _ _ _ _ _ _

theorem localLogin_calm {secure : Bool} {hostname : Option String} {sid : ℕ} {redirect : Option String}
    (h : localLogin text our now duct eny secure hostname sid redirect a = some r) : Calm a.server r.2.server := by
  unfold localLogin at h
  simp only [Option.bind_eq_bind, Option.bind_eq_some_iff, Option.some.injEq] at h
  obtain ⟨⟨fex, s1⟩, hstart, connections, -, rfl⟩ := h
  refine ((closeSession_calm our sid false a.server).trans (startSession_calm hstart fun _ => nofun)).trans ?_
  exact (calm_same rfl rfl : Calm s1 { s1 with connections := connections }).trans (handleResponse_calm _ _ _ _ _ _)

theorem loginRequest_calm {code : String} {secure : Bool} {hostname : Option String} {sid : ℕ} {identity : Identity}
    {request : Request} (h : loginRequest text our now duct code eny secure hostname sid identity request a = some r) :
    Calm a.server r.2.server := by
  have hpage : ∀ {code data}, some (page text our now duct code data a) = some r → Calm a.server r.2.server :=
    fun h => Option.some.inj h ▸ returnStaticDataOnDuct_calm _ _ _ _ _ _ _ _
  unfold loginRequest at h
  dsimp only at h
  split at h
  · exact hpage h
  · split at h
    · exact hpage h
    · split at h
      · exact hpage h
      · split at h
        · split at h
          · exact hpage h
          · obtain ⟨q, hq, rfl⟩ := Option.map_eq_some_iff.mp h
            exact serverStart_calm hq
        · split at h
          · exact hpage h
          · split at h
            · exact hpage h
            · exact localLogin_calm h

theorem logoutRequest_calm (text : AuthText) (our : Ship) (now : Da) (duct : Duct) (sid : ℕ) (identity : Identity)
    (request : Request)
    (a : AuthState) : Calm a.server (logoutRequest text our now duct sid identity request a).2.server := by
  unfold logoutRequest
  dsimp only
  split
  · exact handleResponse_calm _ _ _ _ _ _
  · exact handleResponse_calm _ _ _ _ _ _
  · exact (closeSession_calm _ _ _ _).trans (handleResponse_calm _ _ _ _ _ _)

theorem expireSessions_calm (now : Da) (duct : Duct) (error : Option String) (s : ServerState) :
    Calm s (expireSessions now duct error s).2 := by
  unfold expireSessions
  split
  · exact .rfl'
  · exact calm_fewer (fun _ _ h => h) fun _ _ h => lookup_of_eraseAll h

/-! ### The arms that do -/

/-- The attempt of a nonce is given a session of this ship. -/
structure Minting (nonce : ℕ) (ship : Ship) (s s' : ServerState) : Prop where
  closed : ∃ d sesh, s'.visitors.lookup nonce = some ⟨d, .inl sesh⟩
  pending : ∀ {n d p t}, s'.visitors.lookup n = some ⟨d, .inr p⟩ → p.toke = some t →
    ∃ d' p', s.visitors.lookup n = some ⟨d', .inr p'⟩ ∧ p'.ship = p.ship ∧ p'.toke = some t
  real : ∃ key, ∀ {sid ses who}, s'.sessions.lookup sid = some ses → ses.identity = .real who →
    (∃ ses', s.sessions.lookup sid = some ses' ∧ ses'.identity = .real who) ∨ sid = key ∧ who = ship

theorem Calm.minting (h : Calm s s') (h' : Minting nonce ship s' s'') : Minting nonce ship s s'' where
  closed := h'.closed
  pending := fun hv ht => by
    obtain ⟨d, p, hv', hp, ht'⟩ := h'.pending hv ht
    obtain ⟨d', p', hv'', hp', ht''⟩ := h.pending hv' ht'
    exact ⟨d', p', hv'', hp'.trans hp, ht''⟩
  real := by
    obtain ⟨key, hkey⟩ := h'.real
    refine ⟨key, fun hs hi => (hkey hs hi).imp_left ?_⟩
    rintro ⟨ses, hs', hi'⟩
    exact h.real hs' hi'

theorem handleResponse_visitors (text : Text) (our : Ship) (now : Da) (duct : Duct) (e : HttpEvent) (s : ServerState) :
    (handleResponse text our now duct e s).2.visitors = s.visitors := by
  unfold handleResponse
  split
  · rfl
  · split
    · split <;> rfl
    · split <;> rfl
    · rfl

/-- **A finished attempt mints one session**, of the attempt's ship. -/
theorem finalize_spec {last : String} (h : finalize text our now duct eny nonce ship last s = some q) :
    Minting nonce ship s q.2 := by
  unfold finalize at h
  simp only [Option.bind_eq_bind, Option.bind_eq_some_iff, Option.some.injEq] at h
  obtain ⟨connection, -, ⟨⟨key, identity, ms⟩, s1⟩, hstart, visitors, hvisitors, connections, -, rfl⟩ := h
  refine (closeSession_calm our connection.sessionId false s).minting ?_
  obtain ⟨hid, expiry, hs1⟩ := startSession_spec hstart
  dsimp only at hid hs1
  subst hs1
  obtain ⟨v, -, rfl⟩ := Option.map_eq_some_iff.mp hvisitors
  have hlast := handleResponse_calm text.toText our now duct
    (.start ⟨303, [("location", last), ("set-cookie", sessionCookieString text.toText our key (some false))]⟩ none true)
  refine ⟨⟨v.duct, key, ?_⟩, fun {n d p t} hv ht => ?_, key, fun {sid ses who} hs hi => ?_⟩
  · rw [handleResponse_visitors]
    exact AList.lookup_insert _
  · rw [handleResponse_visitors] at hv
    by_cases hn : n = nonce
    · subst hn
      obtain ⟨-, hp⟩ := Visitor.mk.inj (Option.some.inj ((AList.lookup_insert _).symm.trans hv))
      exact nomatch hp
    · exact ⟨d, p, (AList.lookup_insert_ne hn).symm.trans hv, rfl, ht⟩
  · obtain ⟨ses', hs', hi'⟩ := (hlast _).real hs hi
    refine (real_insert hs' hi').imp_right fun ⟨hkey, hreal⟩ => ⟨hkey, ?_⟩
    have hwho : Identity.real ship = .real who := (Option.some.inj hid).trans hreal
    exact (Identity.real.inj hwho).symm

theorem finalRequest_spec {token : Option ℕ} {abort : Bool}
    (h : finalRequest text our now duct eny nonce token abort a = some r) :
    Calm a.server r.2.server ∨ ∃ t d p, token = some t ∧ a.server.visitors.lookup nonce = some ⟨d, .inr p⟩ ∧
      p.toke = some t ∧
      Minting nonce p.ship a.server r.2.server := by
  have hpage : ∀ {code data}, some (page text our now duct code data a) = some r → Calm a.server r.2.server :=
    fun h => Option.some.inj h ▸ returnStaticDataOnDuct_calm _ _ _ _ _ _ _ _
  unfold finalRequest at h
  split at h
  · rename_i d p hv
    dsimp only at h
    split at h
    · exact .inl (Option.some.inj h ▸ cancel_calm _ _ _ _ _ _ _)
    · cases token with
      | none => exact .inl (hpage h)
      | some t =>
        cases htoke : p.toke with
        | none =>
          rw [htoke] at h
          exact .inl (hpage h)
        | some toke =>
          rw [htoke] at h
          cases d with
          | none => exact .inl (hpage h)
          | some d =>
            dsimp only at h
            split at h
            · rename_i heq
              obtain ⟨q, hq, rfl⟩ := Option.map_eq_some_iff.mp h
              exact .inr ⟨t, _, p, rfl, hv, heq ▸ htoke, finalize_spec hq⟩
            · exact .inl (hpage h)
  · exact .inl (hpage h)

/-- The nonce and the token that a request comes back with. -/
def presents (text : AuthText) (action : AuthAction) (request : Request) : Option (ℕ × ℕ) :=
  if action = .eauth ∧ request.method = "GET" then do
    let args := text.args request.url
    let nonce ← (maltGet "nonce" args).bind text.slawUv
    let token ← (maltGet "token" args).bind text.slawUv
    some (nonce, token)
  else none

theorem eauthRequest_spec {identity : Identity} {request : Request}
    (h : eauthRequest text our now duct eny identity request a = some r) :
    Calm a.server r.2.server ∨ ∃ n t d p, presents text .eauth request = some (n, t) ∧
      a.server.visitors.lookup n = some ⟨d, .inr p⟩ ∧ p.toke = some t ∧ Minting n p.ship a.server r.2.server := by
  have hpage : ∀ {code data}, some (page text our now duct code data a) = some r → Calm a.server r.2.server :=
    fun h => Option.some.inj h ▸ returnStaticDataOnDuct_calm _ _ _ _ _ _ _ _
  unfold eauthRequest at h
  split at h
  · rename_i hget
    dsimp only at h
    split at h
    · exact .inl (hpage h)
    · exact .inl (Option.some.inj h ▸ confirmRequest_calm _ _ _ _ _ _ _ _ _)
    · rename_i n hn _
      refine (finalRequest_spec h).imp_right ?_
      rintro ⟨t, d, p, ht, hv, htoke, hm⟩
      refine ⟨n, t, d, p, ?_, hv, htoke, hm⟩
      unfold presents
      rw [if_pos ⟨rfl, hget⟩]
      dsimp only
      rw [hn, ht]
      rfl
  · refine .inl ?_
    split at h
    · exact hpage h
    · split at h
      · exact Option.some.inj h ▸ handleResponse_calm _ _ _ _ _ _
      · dsimp only at h
        split at h
        · split at h
          · exact hpage h
          · exact clientStart_calm h
        · exact hpage h

/-- **A request mints a session of another ship's only where a visitor comes back with the token of an attempt.** -/
theorem authRequest_spec {code : String} {action : AuthAction} {secure : Bool} {hostname : Option String} {address : ℕ}
    {request : Request} (h : authRequest text our now duct code eny action secure hostname address request a = some r) :
    Calm a.server r.2.server ∨ ∃ n t d p, presents text action request = some (n, t) ∧
      a.server.visitors.lookup n = some ⟨d, .inr p⟩ ∧ p.toke = some t ∧ Minting n p.ship a.server r.2.server := by
  unfold authRequest at h
  simp only [Option.bind_eq_bind, Option.bind_eq_some_iff] at h
  obtain ⟨⟨found, s1⟩, hfound, h⟩ := h
  obtain ⟨hcalm, hvisitors⟩ := sessionForRequest_calm hfound
  have hconn : ∀ c, Calm a.server { s1 with connections := s1.connections.insert duct c } :=
    fun c => hcalm.trans (calm_same rfl rfl)
  cases found with
  | inl invalid =>
    obtain rfl := Option.some.inj h
    exact .inl ((hconn _).trans (handleResponse_calm _ _ _ _ _ _))
  | inr found =>
    obtain ⟨sessionId, identity, som⟩ := found
    cases action with
    | authentication =>
      obtain ⟨⟨moz, a1⟩, haction, h⟩ := Option.bind_eq_some_iff.mp h
      obtain rfl := Option.some.inj h
      exact .inl ((hconn _).trans (loginRequest_calm haction))
    | eauth =>
      obtain ⟨⟨moz, a1⟩, haction, h⟩ := Option.bind_eq_some_iff.mp h
      obtain rfl := Option.some.inj h
      rcases eauthRequest_spec haction with hc | ⟨n, t, d, p, hpres, hv, htoke, hm⟩
      · exact .inl ((hconn _).trans hc)
      · exact .inr ⟨n, t, d, p, hpres, hvisitors ▸ hv, htoke, (hconn _).minting hm⟩
    | logout =>
      obtain rfl := Option.some.inj h
      exact .inl ((hconn _).trans (logoutRequest_calm _ _ _ _ _ _ _ ⟨_, _, _⟩))

/-! ### The system -/

/-- An `%open` plea that a ship has sent. -/
structure OpenPlea where
  ship : Ship
  nonce : ℕ
  token : Option ℕ
  deriving DecidableEq

/-- The state, the `%open` pleas that were taken, for each nonce the last of them, and the pleas that sessions of
other ships' were minted on, the last first. -/
structure AuthSys where
  state : AuthState
  opens : List OpenPlea
  given : ℕ → Option ℕ
  honoured : List ℕ

def AuthSys.start : AuthSys := ⟨⟨emptyState, ∅, ⟨none, none, 0⟩⟩, [], fun _ => none, []⟩

/-- What happens: requests of logins, pleas and the answers to ours, which Ames may give late or more than once, timers,
and the end of sessions. Anything else leaves the attempts and mints no session of another ship's. -/
inductive AuthTask where
  | request (now : Da) (duct : Duct) (code : String) (eny : AuthEny) (action : AuthAction) (secure : Bool)
      (host : Option String) (address : ℕ) (request : Request)
  | plea (duct : Duct) (ship : Ship) (plea : EauthPlea)
  | done (now : Da) (host : Ship) (good : Bool)
  | boon (now : Da) (host : Ship) (boon : EauthBoon)
  | tune (now : Da) (ship : Ship) (nonce : ℕ) (url : Option String)
  | fail (now : Da) (nonce : ℕ)
  | expireVisitors (now : Da) (duct : Duct) (nonce : ℕ)
  | expireVisiting (now : Da) (host : Ship) (nonce : ℕ)
  | expireSessions (now : Da) (duct : Duct) (error : Option String)
  | closeSession (sid : ℕ) (all : Bool)
  | eauthHost (now : Da) (host : Option String)
  | other (state : AuthState)

/-- The state of the server is the new one. -/
def AuthSys.put (a : AuthSys) (s : ServerState) : AuthSys := { a with state := { a.state with server := s } }

/-- The attempt of a nonce is under way, in one state, and has its session in the other. -/
def Closes (s s' : ServerState) (nonce : ℕ) : Prop :=
  (∃ v ∈ s.visitors.lookup nonce, v.state.isRight = true) ∧ ∃ v ∈ s'.visitors.lookup nonce, v.state.isLeft = true

instance (s s' : ServerState) (nonce : ℕ) : Decidable (Closes s s' nonce) := inferInstanceAs (Decidable (_ ∧ _))

/-- An identity of another ship. -/
def Identity.isReal : Identity → Bool
  | .real _ => true
  | _ => false

variable (text our) in
/-- One event, which is undone if it crashes. -/
def authTurn (a : AuthSys) : AuthTask → Option AuthSys
  | .request now duct code eny action secure host address request =>
    (authRequest text our now duct code eny action secure host address request a.state).map fun r =>
      { a with
        state := r.2
        honoured := match presents text action request with
          | some (nonce, _) =>
            if Closes a.state.server r.2.server nonce then (a.given nonce).toList ++ a.honoured else a.honoured
          | none => a.honoured }
  | .plea duct ship plea =>
    (onPlea duct a.state.endpoint ship plea a.state.server).map fun q =>
      match plea with
      | .open nonce token =>
        { a.put q.2 with
          opens := a.opens ++ [⟨ship, nonce, token⟩], given := Function.update a.given nonce (some a.opens.length) }
      | .shut _ => a.put q.2
  | .done now host good => some { a with state := (onDone text our now host good a.state).2 }
  | .boon now host boon => (onBoon text our now host boon a.state).map fun r => { a with state := r.2 }
  | .tune now ship nonce url =>
    match url with
    | none => some (a.put (onFail text our now nonce a.state.server).2)
    | some url => (onTune text our now ship nonce url a.state.server).map fun q => a.put q.2
  | .fail now nonce => some (a.put (onFail text our now nonce a.state.server).2)
  | .expireVisitors now duct nonce => some (a.put (expireVisitors text our now duct nonce a.state.server).2)
  | .expireVisiting now host nonce => some { a with state := (expireVisiting text our now host nonce a.state).2 }
  | .expireSessions now duct error => some (a.put (expireSessions now duct error a.state.server).2)
  | .closeSession sid all => some (a.put (Eyre.closeSession our sid all a.state.server).2)
  | .eauthHost now host =>
    let e := a.state.endpoint
    some { a with state := { a.state with endpoint := if e.user = host then e else ⟨host, e.auth, now⟩ } }
  | .other s =>
    if s.server.visitors = a.state.server.visitors ∧ ∀ e ∈ s.server.sessions.entries, e.2.identity.isReal →
        (a.state.server.sessions.lookup e.1).map Session.identity = some e.2.identity then
      some { a with state := s }
    else none

/-! ### Tokens -/

/-- The nonce and the token that an event comes back with. -/
def AuthTask.presents (text : AuthText) : AuthTask → Option (ℕ × ℕ)
  | .request _ _ _ _ action _ _ _ req => Eyre.presents text action req
  | _ => none

/-- The token of an attempt is that of the last plea for its nonce, which its ship sent and which
has not been honoured. -/
structure Held (a : AuthSys) : Prop where
  given : ∀ {nonce i}, a.given nonce = some i → ∃ o, a.opens[i]? = some o ∧ o.nonce = nonce
  pending : ∀ {nonce d p t}, a.state.server.visitors.lookup nonce = some ⟨d, .inr p⟩ → p.toke = some t →
    ∃ i, a.given nonce = some i ∧ a.opens[i]? = some ⟨p.ship, nonce, some t⟩ ∧ i ∉ a.honoured
  honoured : ∀ {i}, i ∈ a.honoured → i < a.opens.length

variable {a b : AuthSys} {e : AuthTask}

/-- A calm step mints nothing, and keeps what is held. -/
theorem Held.calm (h : Held a) (hc : Calm a.state.server b.state.server) (ho : b.opens = a.opens)
    (hg : b.given = a.given)
    (hh : b.honoured = a.honoured) : Held b where
  given := fun hi => by
    rw [ho]
    exact h.given (hg ▸ hi)
  pending := fun hv ht => by
    obtain ⟨d, p, hv', hp, ht'⟩ := hc.pending hv ht
    rw [ho, hg, hh, ← hp]
    exact h.pending hv' ht'
  honoured := fun hi => by
    rw [ho]
    exact h.honoured (hh ▸ hi)

theorem Calm.not_closes (hc : Calm s s') : ¬ Closes s s' nonce := by
  rintro ⟨⟨v, hv, hr⟩, ⟨v', hv', hl⟩⟩
  obtain ⟨d', state'⟩ := v'
  obtain ⟨sesh, rfl⟩ := Sum.isLeft_iff.mp hl
  obtain ⟨d, hd⟩ := hc.done hv'
  obtain rfl := Option.some.inj (hv.symm.trans hd)
  exact Bool.false_ne_true hr

/-- A step that is calm. -/
structure CalmStep (a b : AuthSys) : Prop where
  calm : Calm a.state.server b.state.server
  opens : b.opens = a.opens
  given : b.given = a.given
  honoured : b.honoured = a.honoured

/-- A step where a visitor comes back with the token `t` of the attempt `n`. -/
structure MintStep (a b : AuthSys) (n t : ℕ) : Prop where
  mint : ∃ d p, a.state.server.visitors.lookup n = some ⟨d, .inr p⟩ ∧ p.toke = some t ∧
    Minting n p.ship a.state.server b.state.server
  opens : b.opens = a.opens
  given : b.given = a.given
  honoured : b.honoured = (a.given n).toList ++ a.honoured

/-- A step where a plea gives an attempt its token. -/
structure OpenStep (a b : AuthSys) (o : OpenPlea) : Prop where
  visitors : ∃ d p, b.state.server.visitors = a.state.server.visitors.insert o.nonce ⟨d, .inr p⟩ ∧ p.ship = o.ship ∧
    p.toke = o.token
  sessions : b.state.server.sessions = a.state.server.sessions
  opens : b.opens = a.opens ++ [o]
  given : b.given = Function.update a.given o.nonce (some a.opens.length)
  honoured : b.honoured = a.honoured

theorem onPlea_open_spec {endpoint : Endpoint} {token : Option ℕ}
    (h : onPlea duct endpoint ship (.open nonce token) s = some q) :
    (∃ d p, q.2.visitors = s.visitors.insert nonce ⟨d, .inr p⟩ ∧ p.ship = ship ∧ p.toke = token) ∧
      q.2.sessions = s.sessions := by
  unfold onPlea at h
  dsimp only at h
  split at h
  · exact absurd h.symm (Option.some_ne_none _)
  · rename_i p _
    split at h
    · rename_i hship
      obtain ⟨url, -, rfl⟩ := Option.map_eq_some_iff.mp h
      exact ⟨⟨_, _, rfl, hship.symm, rfl⟩, rfl⟩
    · exact absurd h.symm (Option.some_ne_none _)

/-- **What a step does to attempts, tokens and sessions.** -/
theorem turn_steps (ht : authTurn text our a e = some b) :
    CalmStep a b ∨ (∃ n t, e.presents text = some (n, t) ∧ MintStep a b n t) ∨ ∃ o, OpenStep a b o := by
  cases e with
  | request now duct code eny action secure hostname address req =>
    obtain ⟨r, hr, rfl⟩ := Option.map_eq_some_iff.mp ht
    rcases authRequest_spec hr with hc | ⟨n, t, d, p, hpres, hv, htoke, hm⟩
    · refine .inl ⟨hc, rfl, rfl, ?_⟩
      dsimp only
      split
      · rw [if_neg hc.not_closes]
      · rfl
    · refine .inr (.inl ⟨n, t, hpres, ⟨d, p, hv, htoke, hm⟩, rfl, rfl, ?_⟩)
      obtain ⟨d', sesh, hclosed⟩ := hm.closed
      dsimp only
      rw [hpres]
      exact if_pos ⟨⟨_, hv, rfl⟩, _, hclosed, rfl⟩
  | plea duct ship plea =>
    obtain ⟨q, hq, rfl⟩ := Option.map_eq_some_iff.mp ht
    cases plea with
    | «open» nonce token =>
      obtain ⟨hv, hs⟩ := onPlea_open_spec hq
      exact .inr (.inr ⟨⟨ship, nonce, token⟩, hv, hs, rfl, rfl, rfl⟩)
    | shut nonce => exact .inl ⟨onPlea_shut_calm hq, rfl, rfl, rfl⟩
  | done now host good => exact .inl (Option.some.inj ht ▸ ⟨onDone_calm _ _ _ _ _ _, rfl, rfl, rfl⟩)
  | boon now host boon =>
    obtain ⟨r, hr, rfl⟩ := Option.map_eq_some_iff.mp ht
    exact .inl ⟨onBoon_calm hr, rfl, rfl, rfl⟩
  | tune now ship nonce url =>
    cases url with
    | none => exact .inl (Option.some.inj ht ▸ ⟨onFail_calm _ _ _ _ _, rfl, rfl, rfl⟩)
    | some url =>
      obtain ⟨q, hq, rfl⟩ := Option.map_eq_some_iff.mp ht
      exact .inl ⟨onTune_calm hq, rfl, rfl, rfl⟩
  | fail now nonce => exact .inl (Option.some.inj ht ▸ ⟨onFail_calm _ _ _ _ _, rfl, rfl, rfl⟩)
  | expireVisitors now duct nonce => exact .inl (Option.some.inj ht ▸ ⟨expireVisitors_calm _ _ _ _ _ _, rfl, rfl, rfl⟩)
  | expireVisiting now host nonce => exact .inl (Option.some.inj ht ▸ ⟨expireVisiting_calm _ _ _ _ _ _, rfl, rfl, rfl⟩)
  | expireSessions now duct error => exact .inl (Option.some.inj ht ▸ ⟨expireSessions_calm _ _ _ _, rfl, rfl, rfl⟩)
  | closeSession sid all => exact .inl (Option.some.inj ht ▸ ⟨closeSession_calm _ _ _ _, rfl, rfl, rfl⟩)
  | eauthHost now hostname => exact .inl (Option.some.inj ht ▸ ⟨.rfl', rfl, rfl, rfl⟩)
  | other t =>
    unfold authTurn at ht
    dsimp only at ht
    split at ht
    · rename_i hsame
      obtain rfl := Option.some.inj ht
      refine .inl ⟨⟨fun hv ht => ⟨_, _, hsame.1 ▸ hv, rfl, ht⟩, fun hv => ⟨_, hsame.1 ▸ hv⟩,
        fun {sid ses who} hs hi => ?_⟩, rfl, rfl, rfl⟩
      have hmem := AList.mem_lookup_iff.mp hs
      obtain ⟨ses', hs', hi'⟩ := Option.map_eq_some_iff.mp (hsame.2 ⟨sid, ses⟩ hmem (by rw [hi]; rfl))
      exact ⟨ses', hs', hi'.trans hi⟩
    · exact absurd ht.symm (Option.some_ne_none _)

/-- **What is held stays so.** -/
theorem Held.turn (h : Held a) (ht : authTurn text our a e = some b) : Held b := by
  rcases turn_steps ht with hc | ⟨n, t, -, hm⟩ | ⟨o, ho⟩
  · exact h.calm hc.calm hc.opens hc.given hc.honoured
  · obtain ⟨d, p, hv, htoke, hmint⟩ := hm.mint
    obtain ⟨i, hgiven, hopen, hnew⟩ := h.pending hv htoke
    have hhon : b.honoured = i :: a.honoured := by
      rw [hm.honoured, hgiven]
      rfl
    refine ⟨fun hi => ?_, fun {nonce d' p' t'} hv' ht' => ?_, fun {j} hj => ?_⟩
    · rw [hm.opens]
      exact h.given (hm.given ▸ hi)
    · obtain ⟨d0, p0, hv0, hship, ht0⟩ := hmint.pending hv' ht'
      obtain ⟨j, hgj, hoj, hnj⟩ := h.pending hv0 ht0
      rw [hm.opens, hm.given, hhon, ← hship]
      refine ⟨j, hgj, hoj, fun hj => ?_⟩
      rcases List.mem_cons.mp hj with rfl | hj
      · -- a plea is for one nonce, and the attempt of this one is closed
        obtain rfl : nonce = n := congrArg OpenPlea.nonce (Option.some.inj (hoj.symm.trans hopen))
        obtain ⟨d1, sesh, hclosed⟩ := hmint.closed
        exact nomatch (Visitor.mk.inj (Option.some.inj (hv'.symm.trans hclosed))).2
      · exact hnj hj
    · rw [hm.opens]
      rw [hhon] at hj
      rcases List.mem_cons.mp hj with rfl | hj
      · exact (List.getElem?_eq_some_iff.mp hopen).1
      · exact h.honoured hj
  · have hold : ∀ {i : ℕ} {o'}, a.opens[i]? = some o' → b.opens[i]? = some o' := by
      intro i o' hi
      rw [ho.opens, List.getElem?_append_left (List.getElem?_eq_some_iff.mp hi).1]
      exact hi
    have hlast : b.opens[a.opens.length]? = some o := by
      rw [ho.opens, List.getElem?_append_right (le_refl _), Nat.sub_self]
      rfl
    refine ⟨fun {nonce i} hi => ?_, fun {nonce d p t} hv ht => ?_, fun {j} hj => ?_⟩
    · rw [ho.given, Function.update_apply] at hi
      split at hi
      · rename_i hn
        exact Option.some.inj hi ▸ ⟨o, hlast, hn.symm⟩
      · obtain ⟨o', ho', hn⟩ := h.given hi
        exact ⟨o', hold ho', hn⟩
    · obtain ⟨d0, p0, hvis, hship, htok⟩ := ho.visitors
      rw [hvis] at hv
      rw [ho.given, ho.honoured, Function.update_apply]
      by_cases hn : nonce = o.nonce
      · rw [if_pos hn]
        subst hn
        obtain ⟨-, hp⟩ := Visitor.mk.inj (Option.some.inj ((AList.lookup_insert _).symm.trans hv))
        obtain rfl := Sum.inr.inj hp
        refine ⟨_, rfl, ?_, fun hin => absurd (h.honoured hin) (lt_irrefl _)⟩
        rw [hlast, hship, ← ht, htok]
      · rw [if_neg hn]
        obtain ⟨i, hg, hopen, hnew⟩ := h.pending ((AList.lookup_insert_ne hn).symm.trans hv) ht
        exact ⟨i, hg, hold hopen, hnew⟩
    · rw [ho.opens, List.length_append]
      exact Nat.lt_add_right _ (h.honoured (ho.honoured ▸ hj))

/-- Texts where every url has the nonce 4 and the token 6 as its arguments. -/
def visitText : AuthText where
  toText := guestText
  args _ := [("nonce", "4"), ("token", "6")]
  yquy _ := none
  slawP _ := none
  slawUv t := if t = "4" then some 4 else some 6
  enUrlt t := t
  hostSansPort _ := none
  loginPage _ _ _ _ := ""
  eauthErrorPage _ := ""
  confirmationPage _ _ := ""

/-- Ship 2 sends a plea, and a visitor comes back with its token. -/
def visitRun : List AuthTask :=
  [.eauthHost 9 (some "https://a"), .plea 7 2 (.open 4 (some 6)),
    .request 10 3 "" ⟨⟨[5], 0, [9]⟩, [], 0⟩ .eauth false none 0 ⟨"GET", "/~/eauth", [], none⟩]

example : ((Replay.follow (authTurn visitText 1) .start visitRun).bind fun b =>
    (b.state.server.sessions.lookup 5).map Session.identity) = some (.real 2) := rfl

end Eyre
end Ursockets

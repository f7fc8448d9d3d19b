/-
# Closing sessions

What the end of sessions takes with it, for the three ways they end in `arvo/eyre.hoon`:
`+close-session` of one session or of all of its identity, and the timer of the sessions.

Closing discards exactly the channels recorded with the closed sessions. Requests that
are under way stay, for none is kept with its session. The timer takes nothing but
the sessions: their channels have timers of their own. A visitor whose verified session
is closed goes, and its ship is told; a visitor that has no session yet stays.

Key definitions: `Closing`, `Closing.Closes`, `Closing.Drops`, `Selective`.
Key theorems: `lookup_eraseAll`, `discardAll_spec`, `closing_selective`.
-/
import Ursockets.EauthRun
import Ursockets.EyreEdit

namespace Ursockets
namespace Eyre

/-! ### Erasing some keys -/

theorem lookup_eraseAll {κ α : Type} [DecidableEq κ] (k : κ) :
    ∀ (l : List (Sigma fun _ : κ => α)) (m : Map κ α),
    (l.foldl (fun m e => m.erase e.1) m).lookup k = if k ∈ l.map (·.1) then none else m.lookup k
  | [], m => rfl
  | e :: l, m => by
    rw [List.foldl_cons, lookup_eraseAll k l, List.map_cons]
    by_cases hk : k = e.1
    · rw [hk, AList.lookup_erase, ite_self, if_pos List.mem_cons_self]
    · rw [AList.lookup_erase_ne hk]
      simp only [List.mem_cons, hk, false_or]

/-- The keys of the entries that are filtered out of a map. -/
theorem mem_keys_filter {κ α : Type} [DecidableEq κ] {m : Map κ α} {p : (Sigma fun _ : κ => α) → Bool} {k : κ} :
    k ∈ (m.entries.filter p).map (·.1) ↔ ∃ x, m.lookup k = some x ∧ p ⟨k, x⟩ := by
  rw [List.mem_map]
  constructor
  · rintro ⟨⟨k', x⟩, he, rfl⟩
    obtain ⟨hm, hp⟩ := List.mem_filter.mp he
    exact ⟨x, AList.mem_lookup_iff.mpr hm, hp⟩
  · rintro ⟨x, hx, hp⟩
    exact ⟨⟨k, x⟩, List.mem_filter.mpr ⟨AList.mem_lookup_iff.mp hx, hp⟩, rfl⟩

theorem erase_absent {κ α : Type} [DecidableEq κ] {m : Map κ α} {k : κ} (h : m.lookup k = none) : m.erase k = m := by
  apply AList.ext
  exact List.kerase_of_notMem_keys (AList.lookup_eq_none.mp h)

/-! ### Discarding channels -/

section Discard

variable {our : Ship} {s s' : ServerState} {cid : String} {d : Duct}

/-- What is discarded with a channel depends on that channel only. -/
theorem discardChannel_congr (h : s'.session.lookup cid = s.session.lookup cid) :
    (discardChannel our cid false s').1 = (discardChannel our cid false s).1 := by
  unfold discardChannel
  rw [h]
  cases s.session.lookup cid <;> rfl

/-- The state without a channel. -/
theorem discardChannel_state (our : Ship) (cid : String) (s : ServerState) : ∃ ductToKey,
    (discardChannel our cid false s).2 = { s with session := s.session.erase cid, ductToKey } ∧
      ∀ d, ductToKey.lookup d = if (s.session.lookup cid).map (·.state) = some (.inr d) then none
        else s.ductToKey.lookup d := by
  unfold discardChannel
  cases hc : s.session.lookup cid with
  | none =>
    exact ⟨s.ductToKey, by rw [erase_absent hc], fun d => by simp⟩
  | some c =>
    cases hst : c.state with
    | inl t => exact ⟨s.ductToKey, by simp only [hst], fun d => by simp [hst]⟩
    | inr e =>
      refine ⟨s.ductToKey.erase e, by simp only [hst], fun d => ?_⟩
      rw [Option.map_some, hst]
      by_cases hd : d = e
      · rw [hd, AList.lookup_erase, if_pos rfl]
      · rw [AList.lookup_erase_ne hd, if_neg fun h => hd (Sum.inr.inj (Option.some.inj h)).symm]

/-- What discarding some channels leaves and what it sends. -/
structure Discards (our : Ship) (cids : List String) (s : ServerState) (r : List Move × ServerState) : Prop where
  session : ∀ cid, r.2.session.lookup cid = if cid ∈ cids then none else s.session.lookup cid
  unheard : ∀ d, (∃ cid ∈ cids, (s.session.lookup cid).map (·.state) = some (.inr d)) → r.2.ductToKey.lookup d = none
  heard : ∀ d, (∀ cid ∈ cids, (s.session.lookup cid).map (·.state) ≠ some (.inr d)) →
    r.2.ductToKey.lookup d = s.ductToKey.lookup d
  moves : ∀ m, m ∈ r.1 ↔ ∃ cid ∈ cids, m ∈ (discardChannel our cid false s).1
  rest : ∃ session ductToKey, r.2 = { s with session, ductToKey }

/-- **Discarding channels** one by one discards each of them as it was. -/
theorem discardAll_spec (our : Ship) : ∀ (cids : List String) (s : ServerState),
    Discards our cids s (discardAll our cids s)
  | [], s => by
    constructor
    · exact fun cid => rfl
    · rintro d ⟨cid, hcid, -⟩
      exact absurd hcid List.not_mem_nil
    · exact fun d _ => rfl
    · intro m
      constructor
      · exact fun hm => absurd hm List.not_mem_nil
      · rintro ⟨cid, hcid, -⟩
        exact absurd hcid List.not_mem_nil
    · exact ⟨_, _, rfl⟩
  | cid :: cids, s => by
    obtain ⟨ductToKey, hstate, hducts⟩ := discardChannel_state our cid s
    have ih := discardAll_spec our cids (discardChannel our cid false s).2
    have hrun : discardAll our (cid :: cids) s = ((discardChannel our cid false s).1 ++
        (discardAll our cids (discardChannel our cid false s).2).1,
        (discardAll our cids (discardChannel our cid false s).2).2) := rfl
    rw [hstate] at ih hrun
    rw [hrun]
    -- another channel is as it was
    have hother {c : String} (hc : c ≠ cid) : (s.session.erase cid).lookup c = s.session.lookup c :=
      AList.lookup_erase_ne hc
    have hmoves {c : String} (hc : c ≠ cid) :
        (discardChannel our c false { s with session := s.session.erase cid, ductToKey := ductToKey }).1 =
          (discardChannel our c false s).1 := discardChannel_congr (hother hc)
    constructor
    · intro c
      rw [ih.session c]
      by_cases hc : c = cid
      · subst hc
        simp only [AList.lookup_erase, ite_self, List.mem_cons, true_or, if_true]
      · simp only [hother hc, List.mem_cons, hc, false_or]
    · rintro d ⟨c, hc, hd⟩
      by_cases hone : ∃ c ∈ cids, ((s.session.erase cid).lookup c).map (·.state) = some (.inr d)
      · exact ih.unheard d hone
      · refine (ih.heard d fun c hc h => hone ⟨c, hc, h⟩).trans ?_
        have hcid : c = cid := by
          by_contra hne
          exact hone ⟨c, (List.mem_cons.mp hc).resolve_left hne, (hother hne).symm ▸ hd⟩
        exact (hducts d).trans (if_pos (hcid ▸ hd))
    · intro d hd
      refine (ih.heard d fun c hc => ?_).trans ((hducts d).trans (if_neg (hd cid List.mem_cons_self)))
      show ((s.session.erase cid).lookup c).map (·.state) ≠ _
      by_cases hcid : c = cid
      · rw [hcid, AList.lookup_erase]
        exact nofun
      · rw [hother hcid]
        exact hd c (List.mem_cons_of_mem _ hc)
    · intro m
      rw [List.mem_append, ih.moves m]
      constructor
      · rintro (hm | ⟨c, hc, hm⟩)
        · exact ⟨cid, List.mem_cons_self, hm⟩
        · by_cases hcid : c = cid
          · rw [hcid, discardChannel_none our false (AList.lookup_erase cid s.session)] at hm
            exact absurd hm List.not_mem_nil
          · exact ⟨c, List.mem_cons_of_mem _ hc, hmoves hcid ▸ hm⟩
      · rintro ⟨c, hc, hm⟩
        by_cases hcid : c = cid
        · exact Or.inl (hcid ▸ hm)
        · exact Or.inr ⟨c, (List.mem_cons.mp hc).resolve_left hcid, (hmoves hcid).symm ▸ hm⟩
    · obtain ⟨session, ducts, hrest⟩ := ih.rest
      exact ⟨session, ducts, hrest⟩

end Discard

/-! ### Closing -/

/-- The ways sessions end: one of them or all of its identity, and by their timer. -/
inductive Closing where
  | logout (sessionId : ℕ) (all : Bool)
  | expiry (now : Da)

/-- A session that is closed. -/
def Closing.Closes (c : Closing) (s : ServerState) (sid : ℕ) (ses : Session) : Prop :=
  s.sessions.lookup sid = some ses ∧
    match c with
    | .logout k false => sid = k
    | .logout k true => ∃ ses', s.sessions.lookup k = some ses' ∧ ses.identity = ses'.identity
    | .expiry now => ses.expiryTime < now

/-- A channel that is discarded: one recorded with a session that is closed, but not by the timer. -/
def Closing.Drops (c : Closing) (s : ServerState) (cid : String) : Prop :=
  match c with
  | .logout _ _ => ∃ sid ses, c.Closes s sid ses ∧ cid ∈ ses.channels
  | .expiry _ => False

/-- A session of another ship's that is closed, but not by the timer. -/
def Closing.ClosesReal (c : Closing) (s : ServerState) (sid : ℕ) : Prop :=
  match c with
  | .logout _ _ => ∃ ses who, c.Closes s sid ses ∧ ses.identity = .real who
  | .expiry _ => False

/-- Closing sessions. -/
def Closing.run (our : Ship) (duct : Duct) (c : Closing) (s : ServerState) : List AuthMove × ServerState :=
  match c with
  | .logout sid all => ((closeSession our sid all s).1.map .move, (closeSession our sid all s).2)
  | .expiry now => expireSessions now duct none s

/-- What closing sessions does. -/
structure Selective (our : Ship) (c : Closing) (s : ServerState) (r : List AuthMove × ServerState) : Prop where
  closed : ∀ sid ses, c.Closes s sid ses → r.2.sessions.lookup sid = none
  others : ∀ sid, (∀ ses, ¬ c.Closes s sid ses) → r.2.sessions.lookup sid = s.sessions.lookup sid
  dropped : ∀ cid, c.Drops s cid → r.2.session.lookup cid = none
  kept : ∀ cid, ¬ c.Drops s cid → r.2.session.lookup cid = s.session.lookup cid
  unheard : ∀ d cid ch, c.Drops s cid → s.session.lookup cid = some ch → ch.state = .inr d →
    r.2.ductToKey.lookup d = none
  heard : ∀ d, (∀ cid ch, c.Drops s cid → s.session.lookup cid = some ch → ch.state ≠ .inr d) →
    r.2.ductToKey.lookup d = s.ductToKey.lookup d
  cleaned : ∀ cid, c.Drops s cid → ∀ m ∈ (discardChannel our cid false s).1, .move m ∈ r.1
  moves : ∀ m ∈ r.1, (∃ cid, c.Drops s cid ∧ ∃ m' ∈ (discardChannel our cid false s).1, m = .move m') ∨
    (∃ d nonce, m = .move ⟨d, .boon (.shut nonce)⟩) ∨ (∃ tokens, m = .sessions tokens) ∨
    ∃ d date, m = .move ⟨d, .wait .sessionsExpire date⟩
  shut : ∀ nonce v sid, c.ClosesReal s sid → s.visitors.lookup nonce = some v → v.state = .inl sid →
    r.2.visitors.lookup nonce = none ∧ ∀ d, v.duct = some d → .move ⟨d, .boon (.shut nonce)⟩ ∈ r.1
  under_way : ∀ nonce d p, s.visitors.lookup nonce = some ⟨d, .inr p⟩ →
    r.2.visitors.lookup nonce = some ⟨d, .inr p⟩
  visitors : ∀ nonce v, r.2.visitors.lookup nonce = some v → s.visitors.lookup nonce = some v
  unshut : (∀ sid, ¬ c.ClosesReal s sid) → r.2.visitors = s.visitors
  rest : ∃ sessions visitors session ductToKey, r.2 = { s with sessions, visitors, session, ductToKey }

/-- The timer of the sessions takes the sessions that have expired and nothing else. -/
theorem expireSessions_selective (our : Ship) (now : Da) (duct : Duct) (s : ServerState) :
    Selective our (.expiry now) s (expireSessions now duct none s) := by
  have hlookup (sid : ℕ) : (expireSessions now duct none s).2.sessions.lookup sid =
      if sid ∈ (s.sessions.entries.filter fun e => e.2.expiryTime < now).map (·.1) then none
      else s.sessions.lookup sid := lookup_eraseAll _ _ _
  have hmem (sid : ℕ) : sid ∈ (s.sessions.entries.filter fun e => e.2.expiryTime < now).map (·.1) ↔
      ∃ ses, (Closing.expiry now).Closes s sid ses := by
    rw [mem_keys_filter]
    simp only [decide_eq_true_eq, Closing.Closes]
  constructor
  · intro sid ses h
    rw [hlookup, if_pos ((hmem sid).mpr ⟨ses, h⟩)]
  · intro sid h
    rw [hlookup, if_neg fun hm => ((hmem sid).mp hm).elim h]
  · exact fun _ h => h.elim
  · exact fun _ _ => rfl
  · exact fun _ _ _ h => h.elim
  · exact fun _ _ => rfl
  · exact fun _ h => h.elim
  · intro m hm
    refine Or.inr (Or.inr ?_)
    rcases List.mem_cons.mp hm with rfl | hm
    · exact Or.inl ⟨_, rfl⟩
    · split at hm
      · exact absurd hm List.not_mem_nil
      · exact Or.inr ⟨_, _, List.mem_singleton.mp hm⟩
  · exact fun _ _ _ h => h.elim
  · exact fun _ _ _ h => h
  · exact fun _ _ h => h
  · exact fun _ => rfl
  · exact ⟨_, _, _, _, rfl⟩

section Logout

variable {our : Ship} {s : ServerState} {k : ℕ} {all : Bool} {ses : Session}

/-- The sessions of an identity, among the entries. -/
theorem mem_closed (hk : s.sessions.lookup k = some ses) (sid : ℕ) (ses' : Session) :
    s.sessions.lookup sid = some ses' ∧ ses'.identity = ses.identity ↔ (Closing.logout k true).Closes s sid ses' := by
  constructor
  · rintro ⟨h1, h2⟩
    exact ⟨h1, ses, hk, h2⟩
  · rintro ⟨h1, ses'', h2, h3⟩
    obtain rfl := Option.some.inj (hk.symm.trans h2)
    exact ⟨h1, h3⟩

/-- The sessions that `endSessions` leaves. -/
theorem endSessions_lookup (hk : s.sessions.lookup k = some ses) (sid : ℕ) :
    (∀ ses', (Closing.logout k all).Closes s sid ses' → (endSessions k all ses s).2.lookup sid = none) ∧
      ((∀ ses', ¬ (Closing.logout k all).Closes s sid ses') →
        (endSessions k all ses s).2.lookup sid = s.sessions.lookup sid) := by
  cases all with
  | false =>
    constructor
    · rintro ses' ⟨-, rfl⟩
      exact AList.lookup_erase _ _
    · intro h
      by_cases hsid : sid = k
      · exact absurd ⟨hsid ▸ hk, hsid⟩ (h ses)
      · exact AList.lookup_erase_ne hsid
  | true =>
    have hlookup := lookup_eraseAll sid (s.sessions.entries.filter fun e => e.2.identity = ses.identity) s.sessions
    have hmem : sid ∈ (s.sessions.entries.filter fun e => e.2.identity = ses.identity).map (·.1) ↔
        ∃ ses', (Closing.logout k true).Closes s sid ses' := by
      rw [mem_keys_filter]
      simp only [decide_eq_true_eq, mem_closed hk]
    constructor
    · exact fun ses' h => hlookup.trans (if_pos (hmem.mpr ⟨ses', h⟩))
    · exact fun h => hlookup.trans (if_neg fun hm => (hmem.mp hm).elim h)

/-- The channels that `endSessions` closes. -/
theorem mem_endSessions (hk : s.sessions.lookup k = some ses) (all : Bool) (cid : String) :
    cid ∈ (endSessions k all ses s).1 ↔ (Closing.logout k all).Drops s cid := by
  cases all with
  | false =>
    constructor
    · exact fun h => ⟨k, ses, ⟨hk, rfl⟩, h⟩
    · rintro ⟨sid, ses', ⟨h1, rfl⟩, h2⟩
      obtain rfl := Option.some.inj (hk.symm.trans h1)
      exact h2
  | true =>
    have h1 : cid ∈ (endSessions k true ses s).1 ↔
        ∃ e ∈ s.sessions.entries, e.2.identity = ses.identity ∧ cid ∈ e.2.channels := by
      simp only [endSessions, if_true, List.mem_flatten, List.mem_map, List.mem_filter, decide_eq_true_eq]
      constructor
      · rintro ⟨_, ⟨e, ⟨he, hid⟩, rfl⟩, hc⟩
        exact ⟨e, he, hid, hc⟩
      · rintro ⟨e, he, hid, hc⟩
        exact ⟨_, ⟨e, ⟨he, hid⟩, rfl⟩, hc⟩
    rw [h1]
    constructor
    · rintro ⟨⟨sid, ses'⟩, he, hid, hc⟩
      exact ⟨sid, ses', (mem_closed hk sid ses').mp ⟨AList.mem_lookup_iff.mpr he, hid⟩, hc⟩
    · rintro ⟨sid, ses', hcl, hc⟩
      obtain ⟨h2, h3⟩ := (mem_closed hk sid ses').mpr hcl
      exact ⟨⟨sid, ses'⟩, AList.mem_lookup_iff.mp h2, h3, hc⟩

/-- The identity of the sessions that are closed. -/
theorem closes_identity (hk : s.sessions.lookup k = some ses) {sid : ℕ} {ses' : Session}
    (h : (Closing.logout k all).Closes s sid ses') : ses'.identity = ses.identity := by
  cases all with
  | false =>
    obtain ⟨h1, rfl⟩ := h
    rw [Option.some.inj (hk.symm.trans h1)]
  | true => exact ((mem_closed hk sid ses').mpr h).2

/-- The session that is named is closed. -/
theorem closes_named (hk : s.sessions.lookup k = some ses) : (Closing.logout k all).Closes s k ses := by
  cases all with
  | false => exact ⟨hk, rfl⟩
  | true => exact ⟨hk, ses, hk, rfl⟩

/-- The visitors that `shutVisitors` leaves, and the boons that it sends. -/
theorem shutVisitors_spec (identity : Identity) (s : ServerState) :
    ∃ visitors, (shutVisitors identity s).2 = { s with visitors } ∧
      (∀ m ∈ (shutVisitors identity s).1, ∃ d nonce, m = ⟨d, .boon (.shut nonce)⟩) ∧
      (∀ nonce d p, s.visitors.lookup nonce = some ⟨d, .inr p⟩ → visitors.lookup nonce = some ⟨d, .inr p⟩) ∧
      (∀ nonce v, visitors.lookup nonce = some v → s.visitors.lookup nonce = some v) ∧
      ((∀ who, identity ≠ .real who) → visitors = s.visitors) ∧
      ((∃ who, identity = .real who) → ∀ nonce v sid, s.visitors.lookup nonce = some v → v.state = .inl sid →
        visitors.lookup nonce = none ∧
          ∀ d, v.duct = some d → ⟨d, .boon (.shut nonce)⟩ ∈ (shutVisitors identity s).1) := by
  by_cases hid : ∃ who, identity = .real who
  · obtain ⟨who, rfl⟩ := hid
    let gone := s.visitors.entries.filter fun e => e.2.state.isLeft
    have hlookup (nonce : ℕ) := lookup_eraseAll nonce gone s.visitors
    have hmem (nonce : ℕ) : nonce ∈ gone.map (·.1) ↔ ∃ v, s.visitors.lookup nonce = some v ∧ v.state.isLeft :=
      mem_keys_filter
    refine ⟨_, rfl, ?_, ?_, ?_, ?_, ?_⟩
    · intro m hm
      obtain ⟨e, -, he⟩ := List.mem_flatMap.mp hm
      obtain ⟨d, -, rfl⟩ := Option.map_eq_some_iff.mp (Option.mem_toList.mp he)
      exact ⟨d, e.1, rfl⟩
    · intro nonce d p hp
      rw [hlookup, if_neg, hp]
      rw [hmem]
      rintro ⟨v, hv, hleft⟩
      obtain rfl := Option.some.inj (hp.symm.trans hv)
      exact absurd hleft (by simp)
    · intro nonce v hv
      rw [hlookup] at hv
      split at hv
      · exact absurd hv (by simp)
      · exact hv
    · exact fun h => absurd rfl (h who)
    · intro _ nonce v sid hv hstate
      have hleft : v.state.isLeft := by rw [hstate]; rfl
      refine ⟨(hlookup nonce).trans (if_pos ((hmem nonce).mpr ⟨v, hv, hleft⟩)), fun d hd => ?_⟩
      refine List.mem_flatMap.mpr ⟨⟨nonce, v⟩, List.mem_filter.mpr ⟨AList.mem_lookup_iff.mp hv, hleft⟩, ?_⟩
      rw [hd]
      exact List.mem_singleton.mpr rfl
  · have hsame : shutVisitors identity s = ([], s) := by
      cases identity with
      | ours => rfl
      | fake who => rfl
      | real who => exact absurd ⟨who, rfl⟩ hid
    rw [hsame]
    exact ⟨s.visitors, rfl, fun m hm => absurd hm List.not_mem_nil, fun _ _ _ h => h, fun _ _ h => h, fun _ => rfl,
      fun h => absurd h hid⟩

/-- A logout closes its sessions, discards their channels and shuts the visitors of other ships'. -/
theorem closeSession_selective (our : Ship) (k : ℕ) (all : Bool) (s : ServerState) : Selective our (.logout k all) s
    ((closeSession our k all s).1.map .move, (closeSession our k all s).2) := by
  cases hk : s.sessions.lookup k with
  | none =>
    have hsame : closeSession our k all s = ([], s) := by rw [closeSession, hk]
    have hno (sid : ℕ) (ses : Session) : ¬ (Closing.logout k all).Closes s sid ses := by
      cases all with
      | false =>
        rintro ⟨h, rfl⟩
        exact absurd (hk.symm.trans h) (by simp)
      | true =>
        rintro ⟨-, ses', h, -⟩
        exact absurd (hk.symm.trans h) (by simp)
    have hdrop (cid : String) : ¬ (Closing.logout k all).Drops s cid := fun ⟨_, _, h, _⟩ => hno _ _ h
    have hreal (sid : ℕ) : ¬ (Closing.logout k all).ClosesReal s sid := fun ⟨_, _, h, _⟩ => hno _ _ h
    rw [hsame]
    exact ⟨fun _ _ h => absurd h (hno _ _), fun _ _ => rfl, fun _ h => absurd h (hdrop _), fun _ _ => rfl,
      fun _ _ _ h => absurd h (hdrop _), fun _ _ => rfl, fun _ h => absurd h (hdrop _),
      fun _ hm => absurd hm List.not_mem_nil, fun _ _ _ h => absurd h (hreal _), fun _ _ _ h => h, fun _ _ h => h,
      fun _ => rfl, ⟨_, _, _, _, rfl⟩⟩
  | some ses =>
    let s1 : ServerState := { s with sessions := (endSessions k all ses s).2 }
    have hd := discardAll_spec our (endSessions k all ses s).1 s1
    obtain ⟨session, ducts, hrest⟩ := hd.rest
    obtain ⟨visitors, hv, hboons, hunder, hold, hsame, hshut⟩ :=
      shutVisitors_spec ses.identity (discardAll our (endSessions k all ses s).1 s1).2
    have hrun : closeSession our k all s = ((discardAll our (endSessions k all ses s).1 s1).1 ++
        (shutVisitors ses.identity (discardAll our (endSessions k all ses s).1 s1).2).1,
        { (discardAll our (endSessions k all ses s).1 s1).2 with visitors }) := by
      rw [closeSession, hk, ← hv]
    have hvisit : (discardAll our (endSessions k all ses s).1 s1).2.visitors = s.visitors := by rw [hrest]
    have hmoves (cid : String) : (discardChannel our cid false s1).1 = (discardChannel our cid false s).1 :=
      discardChannel_congr rfl
    have hdrop (cid : String) := mem_endSessions hk all cid
    rw [hvisit] at hunder hold hsame hshut
    rw [hrun]
    constructor
    · intro sid ses' h
      show (discardAll our (endSessions k all ses s).1 s1).2.sessions.lookup sid = none
      rw [hrest]
      exact (endSessions_lookup hk sid).1 ses' h
    · intro sid h
      show (discardAll our (endSessions k all ses s).1 s1).2.sessions.lookup sid = _
      rw [hrest]
      exact (endSessions_lookup hk sid).2 h
    · exact fun cid h => (hd.session cid).trans (if_pos ((hdrop cid).mpr h))
    · exact fun cid h => (hd.session cid).trans (if_neg fun hm => h ((hdrop cid).mp hm))
    · intro d cid ch h hch hst
      refine hd.unheard d ⟨cid, (hdrop cid).mpr h, ?_⟩
      show (s.session.lookup cid).map (·.state) = _
      rw [hch, Option.map_some, hst]
    · intro d h
      refine hd.heard d fun cid hcid he => ?_
      obtain ⟨ch, hch, hst⟩ := Option.map_eq_some_iff.mp he
      exact h cid ch ((hdrop cid).mp hcid) hch hst
    · intro cid h m hm
      refine List.mem_map_of_mem (List.mem_append_left _ ((hd.moves m).mpr ⟨cid, (hdrop cid).mpr h, ?_⟩))
      exact (hmoves cid).symm ▸ hm
    · intro m hm
      obtain ⟨m', hm', rfl⟩ := List.mem_map.mp hm
      rcases List.mem_append.mp hm' with hm' | hm'
      · obtain ⟨cid, hcid, h⟩ := (hd.moves m').mp hm'
        exact Or.inl ⟨cid, (hdrop cid).mp hcid, m', hmoves cid ▸ h, rfl⟩
      · obtain ⟨d, nonce, rfl⟩ := hboons m' hm'
        exact Or.inr (Or.inl ⟨d, nonce, rfl⟩)
    · rintro nonce v sid ⟨ses', who, hcl, hwho⟩ hvis hst
      obtain ⟨h1, h2⟩ := hshut ⟨who, (closes_identity hk hcl).symm.trans hwho⟩ nonce v sid hvis hst
      exact ⟨h1, fun d hdu => List.mem_map_of_mem (List.mem_append_right _ (h2 d hdu))⟩
    · exact hunder
    · exact hold
    · exact fun h => hsame fun who hwho => h k ⟨ses, who, closes_named hk, hwho⟩
    · exact ⟨_, _, _, _, by rw [hrest]⟩

end Logout

/-- **Closing sessions** takes the sessions that are closed, their channels and their visitors. -/
theorem closing_selective (our : Ship) (duct : Duct) (c : Closing) (s : ServerState) :
    Selective our c s (c.run our duct s) := by
  cases c with
  | logout k all => exact closeSession_selective our k all s
  | expiry now => exact expireSessions_selective our now duct s

/-- A server with a session that expires at 5, with its channel `c` and a request of it. -/
def oneSession : ServerState := { emptyState with
  connections := (∅ : Map Duct OutstandingConnection).insert 7
    ⟨.channel, ⟨true, true, 0, ⟨"GET", "/~/channel/c", [], none⟩⟩, 1, .ours, none, 0⟩
  sessions := (∅ : Map ℕ Session).insert 1 ⟨.ours, 5, ["c"]⟩
  session := (∅ : Map String Channel).insert "c" ⟨.json, .ours, .inl ⟨9, 7⟩, 0, 0, [], ∅, ∅, none⟩ }

/-- A session that is closed leaves its request, and one that expires also its channel. -/
theorem closed_session_leaves : (Closing.logout 1 false).Closes oneSession 1 ⟨.ours, 5, ["c"]⟩ ∧
    (((Closing.logout 1 false).run 0 3 oneSession).2.connections.lookup 7).map (·.sessionId) = some 1 ∧
      (Closing.expiry 10).Closes oneSession 1 ⟨.ours, 5, ["c"]⟩ ∧
        (((Closing.expiry 10).run 0 3 oneSession).2.session.lookup "c").isSome := by
  refine ⟨⟨rfl, rfl⟩, rfl, ⟨rfl, by decide⟩, rfl⟩

end Eyre
end Ursockets

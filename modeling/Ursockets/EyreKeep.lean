/-
# What every channel keeps

A property of channels that neither timers nor listeners matter to holds of every
channel in a run, if new channels have it and the changes that are made keep it. Only
requests and events of agents change more of a channel than its timer or its listener,
and each arm changes it by the changes that the requests and the events say, one after
the other.

Key definitions: `Channel.core`, `Upkeep`, `FairRequest`, `FairTask`.
Key theorems: `EditsTo.upkeep`, `onPutRequest_upkeep`, `onGetRequest_upkeep`, `upkeep_of_run`.
-/
import Ursockets.EyreRun

namespace Ursockets
namespace Eyre

/-! ### The core of a channel -/

/-- What of a channel its timers and its listener do not change. -/
def Channel.core (c : Channel) : Mode × ℕ × List QueuedEvent × Map ℕ ℕ × Map ℕ Subscription :=
  (c.mode, c.nextId, c.events, c.unacked, c.subscriptions)

/-- A channel on which nothing has happened. -/
def Channel.Fresh (c : Channel) : Prop := c.nextId = 0 ∧ c.events = [] ∧ c.unacked = ∅ ∧ c.subscriptions = ∅

/-- An edit that leaves the cores of the channels that stay. -/
def Edit.Calm : Edit → Prop
  | .change _ (.beat _) => True
  | .change _ _ => False
  | _ => True

theorem Edit.Quiet.calm {e : Edit} (h : e.Quiet) : e.Calm := by
  cases e with
  | change cid ch =>
    cases ch with
    | beat t => exact trivial
    | _ => exact h.elim
  | _ => exact trivial

theorem calm_turn {k k' : Channels} {e : Edit} {cid : String} {c' : Channel} (he : e.Calm) (h : e.turn k = some k')
    (hc : k'.session.lookup cid = some c') :
    c'.Fresh ∨ ∃ c, k.session.lookup cid = some c ∧ c'.core = c.core := by
  -- the channel that the edit is of, with what it is made, and the others
  have hins : ∀ {x : String} {c₀ c₁ : Channel}, k.session.lookup x = some c₀ →
      (k.session.insert x c₁).lookup cid = some c' → c₁.core = c₀.core → ∃ c, k.session.lookup cid = some c ∧
        c'.core = c.core := by
    intro x c₀ c₁ hx hl hcore
    by_cases hcid : cid = x
    · subst hcid
      rw [AList.lookup_insert] at hl
      exact ⟨c₀, hx, Option.some.inj hl ▸ hcore⟩
    · rw [AList.lookup_insert_ne hcid] at hl
      exact ⟨c', hl, rfl⟩
  unfold Edit.turn at h
  cases e with
  | create x mode identity t now =>
    dsimp only at h
    split at h
    · obtain rfl := Option.some.inj h
      by_cases hcid : cid = x
      · subst hcid
        rw [AList.lookup_insert] at hc
        obtain rfl := Option.some.inj hc
        exact .inl ⟨rfl, rfl, rfl, rfl⟩
      · rw [AList.lookup_insert_ne hcid] at hc
        exact .inr ⟨c', hc, rfl⟩
    · exact absurd h.symm (Option.some_ne_none _)
  | change x ch =>
    obtain ⟨c₀, hc₀, rfl⟩ := Option.map_eq_some_iff.mp h
    cases ch with
    | beat t => exact .inr (hins hc₀ hc rfl)
    | _ => exact he.elim
  | renew x t =>
    dsimp only at h
    split at h
    · rename_i c₀ hc₀
      split at h
      · obtain rfl := Option.some.inj h
        exact .inr (hins hc₀ hc rfl)
      · exact absurd h.symm (Option.some_ne_none _)
    · exact absurd h.symm (Option.some_ne_none _)
  | park x d t =>
    dsimp only at h
    split at h
    · rename_i c₀ hc₀
      split at h
      · obtain rfl := Option.some.inj h
        exact .inr (hins hc₀ hc rfl)
      · exact absurd h.symm (Option.some_ne_none _)
    · exact absurd h.symm (Option.some_ne_none _)
  | listen x d beat =>
    dsimp only at h
    split at h
    · exact absurd h.symm (Option.some_ne_none _)
    · obtain ⟨c₀, hc₀, rfl⟩ := Option.map_eq_some_iff.mp h
      exact .inr (hins hc₀ hc rfl)
  | discard x =>
    obtain ⟨c₀, hc₀, rfl⟩ := Option.map_eq_some_iff.mp h
    by_cases hcid : cid = x
    · subst hcid
      exact absurd ((AList.lookup_erase _ _).symm.trans hc) (Option.some_ne_none _).symm
    · exact .inr ⟨c', (AList.lookup_erase_ne hcid).symm.trans hc, rfl⟩

/-! ### Upkeep -/

/-- A property of channels that is kept: new channels have it, nothing but the core matters, and the
changes that `F` allows keep it, among them what agents cause. -/
structure Upkeep (P : Channel → Prop) (F : Channel → Change → Prop) : Prop where
  fresh : ∀ {c : Channel}, c.Fresh → P c
  same : ∀ {c c' : Channel}, c'.core = c.core → P c → P c'
  on : ∀ {c : Channel} {ch : Change}, P c → F c ch → P (ch.on c)
  record : ∀ {c : Channel} {rid : ℕ} {event : ChannelEvent}, (event.isFact → rid ∈ c.subscriptions) →
    F c (.record rid event)
  quit : ∀ {c : Channel} {rid : ℕ}, F c (.quit rid)
  unsubscribe : ∀ {c : Channel} {rid : ℕ}, F c (.unsubscribe rid)

/-- All channels have the property. -/
def AllChannels (P : Channel → Prop) (session : Map String Channel) : Prop := ∀ cid c, session.lookup cid = some c → P c

variable {text : Text} {roof : Roof} {our source : Ship} {now : Da} {duct : Duct} {s s' : ServerState}
  {moves : List Move} {cid : String} {identity : Identity} {request : Request} {site : ChannelUrl}
  {P : Channel → Prop} {F : Channel → Change → Prop}

theorem AllChannels.insert {session : Map String Channel} {c : Channel} (h : AllChannels P session) (hc : P c) :
    AllChannels P (session.insert cid c) := by
  intro x c' hx
  by_cases hcid : x = cid
  · subst hcid
    rw [AList.lookup_insert] at hx
    exact Option.some.inj hx ▸ hc
  · rw [AList.lookup_insert_ne hcid] at hx
    exact h x c' hx

theorem AllChannels.onlyAt {c : Channel} (h : AllChannels P s.session) (hat : OnlyAt cid c s s') (hc : P c) :
    AllChannels P s'.session := by
  obtain ⟨session, rfl, hl, hk⟩ := hat
  intro x c' hx
  by_cases hcid : x = cid
  · subst hcid
    exact Option.some.inj (hl.symm.trans hx) ▸ hc
  · exact h x c' ((hk x hcid).symm.trans hx)

theorem EditsTo.upkeep {A : Edit → Prop} (hP : Upkeep P F) (hA : ∀ {e}, A e → e.Calm) (h : EditsTo A s s')
    (hall : AllChannels P s.session) : AllChannels P s'.session := by
  obtain ⟨es, ha, hes⟩ := h
  have hrun : ∀ {es : List Edit} {k k' : Channels}, (∀ e ∈ es, A e) → Replay.follow Edit.turn k es = some k' →
      AllChannels P k.session → AllChannels P k'.session := by
    intro es
    induction es with
    | nil => exact fun _ h hk => Option.some.inj h ▸ hk
    | cons e es ih =>
      intro k k' ha h hk
      obtain ⟨b, hb, h⟩ := Option.bind_eq_some_iff.mp h
      refine ih (fun e he => ha e (List.mem_cons_of_mem _ he)) h fun x c' hc' => ?_
      rcases calm_turn (hA (ha e List.mem_cons_self)) hb hc' with hf | ⟨c, hc, hcore⟩
      · exact hP.fresh hf
      · exact hP.same hcore (hk x c hc)
  exact hrun ha hes hall

/-! ### Events of agents -/

theorem onGallResponse_upkeep {rid : ℕ} {extra : Option (Ship × String × Option Ship)} {sign : Sign} (hP : Upkeep P F)
    (hall : AllChannels P s.session)
    (h : onGallResponse roof our now duct cid rid extra sign s = some (moves, s')) : AllChannels P s'.session := by
  have hemit : emitEvent roof our now duct cid rid sign s = some (moves, s') → AllChannels P s'.session := fun h => by
    obtain ⟨-, rfl | ⟨c, event, chs, hc, hsub, hevent, hch, rfl⟩⟩ := emitEvent_cases h
    · exact hall
    · refine hall.insert ?_
      have hrec : F c (.record rid event) := hP.record fun hfact => hsub.resolve_left fun hpoke => by
        cases sign with
        | pokeAck tang =>
          obtain rfl := Option.some.inj hevent
          exact Bool.false_ne_true hfact
        | _ => exact Bool.false_ne_true hpoke
      have hPc := hall cid c hc
      cases hch with
      | recorded _ => exact hP.on hPc hrec
      | clogged _ => exact hP.on (hP.on hPc hrec) hP.quit
      | unsaid => exact hP.on hPc hP.quit
  unfold onGallResponse at h
  split at h
  · exact (congrArg ServerState.session (Prod.mk.inj (Option.some.inj h)).2) ▸ hall
  · exact (congrArg ServerState.session (Prod.mk.inj (Option.some.inj h)).2) ▸ hall
  · exact hemit h

/-! ### Commands -/

/-- A request of a PUT makes a change that is allowed. -/
def ChannelRequest.Fair (F : Channel → Change → Prop) (now : Da) (duct : Duct) (c : Channel) : ChannelRequest → Prop
  | .ack n => F c (.ack now n)
  | .subscribe rid ship app path => F c (.subscribe rid ⟨ship, app, path, duct⟩)
  | _ => True

/-- The requests of a PUT make changes that are allowed, up to a `%delete`. -/
def FairReqs (F : Channel → Change → Prop) (now : Da) (duct : Duct) : List ChannelRequest → Channel → Prop
  | [], _ => True
  | r :: rs, c => r = .delete ∨ r.Fair F now duct c ∧ FairReqs F now duct rs (r.effect now duct c)

variable {r : ChannelRequest} {rs : List ChannelRequest} {l l' : PutLoop} {c : Channel}

theorem Upkeep.effect (hP : Upkeep P F) (hc : P c) (hr : r.Fair F now duct c) : P (r.effect now duct c) := by
  cases r with
  | ack n => exact hP.on hc hr
  | subscribe rid ship app path => exact hP.on hc hr
  | unsubscribe rid sid =>
    unfold ChannelRequest.effect
    dsimp only
    split
    · exact hP.on hc hP.unsubscribe
    · exact hc
  | _ => exact hc

/-- The errors of a PUT stay, and a request that is not allowed is one. -/
theorem putStep_errors (h : putStep our now duct cid source r l = some l') :
    (l.errors.entries ≠ [] ∨ ¬ r.Allowed our source → l'.errors.entries ≠ []) ∧
      (l.errors.entries = [] → r.Allowed our source → l'.errors.entries = []) := by
  have herr : ∀ rid, (l.errors.insert rid nonLocal).entries ≠ [] := fun rid => by
    rw [AList.entries_insert]
    exact List.cons_ne_nil _ _
  have hsame : l'.errors = l.errors → r.Allowed our source →
      (l.errors.entries ≠ [] ∨ ¬ r.Allowed our source → l'.errors.entries ≠ []) ∧
        (l.errors.entries = [] → r.Allowed our source → l'.errors.entries = []) := fun he ha => by
    rw [he]
    exact ⟨fun h => h.resolve_right fun hn => hn ha, fun h _ => h⟩
  have hbad : ∀ rid, l'.errors = l.errors.insert rid nonLocal → ¬ r.Allowed our source →
      (l.errors.entries ≠ [] ∨ ¬ r.Allowed our source → l'.errors.entries ≠ []) ∧
        (l.errors.entries = [] → r.Allowed our source → l'.errors.entries = []) := fun rid he hn => by
    rw [he]
    exact ⟨fun _ => herr rid, fun _ ha => absurd ha hn⟩
  unfold putStep at h
  cases r with
  | ack n =>
    obtain ⟨s1, -, rfl⟩ := Option.map_eq_some_iff.mp h
    exact hsame rfl trivial
  | poke rid ship app mark noun =>
    dsimp only at h
    split at h <;> rename_i ha <;> obtain rfl := Option.some.inj h
    · exact hsame rfl ha
    · exact hbad rid rfl ha
  | pokeJson rid ship app mark json =>
    dsimp only at h
    split at h <;> rename_i ha <;> obtain rfl := Option.some.inj h
    · exact hsame rfl ha
    · exact hbad rid rfl ha
  | subscribe rid ship app path =>
    dsimp only at h
    split at h
    · rename_i ha
      obtain ⟨session, -, rfl⟩ := Option.map_eq_some_iff.mp h
      exact hsame rfl ha
    · rename_i ha
      obtain rfl := Option.some.inj h
      exact hbad rid rfl ha
  | unsubscribe rid sid =>
    dsimp only at h
    split at h
    · rename_i ha
      split at h
      · obtain rfl := Option.some.inj h
        exact hsame rfl ha
      · split at h <;> obtain rfl := Option.some.inj h <;> exact hsame rfl ha
    · rename_i ha
      obtain rfl := Option.some.inj h
      exact hbad rid rfl ha
  | delete =>
    obtain rfl := Option.some.inj h
    exact hsame rfl trivial

theorem putLoop_allowed : ∀ {rs : List ChannelRequest} {l l' : PutLoop},
    putLoop our now duct cid source rs l = some l' → l'.errors.entries = [] →
    l.errors.entries = [] ∧ ∀ r ∈ rs, r.Allowed our source
  | [], l, l', h, he => ⟨Option.some.inj h ▸ he, fun _ hr => absurd hr List.not_mem_nil⟩
  | r :: rs, l, l', h, he => by
    obtain ⟨l1, h1, h⟩ := Option.bind_eq_some_iff.mp h
    obtain ⟨he1, hall⟩ := putLoop_allowed h he
    have hno : ¬ (l.errors.entries ≠ [] ∨ ¬ r.Allowed our source) := fun hbad => (putStep_errors h1).1 hbad he1
    obtain ⟨hl, ha⟩ := not_or.mp hno
    exact ⟨not_not.mp hl, fun r' hr' => (List.mem_cons.mp hr').elim (fun e => e ▸ not_not.mp ha) (hall r')⟩

/-- The loop over requests that are all allowed keeps the property of all channels. -/
theorem putLoop_upkeep (hP : Upkeep P F) : ∀ {rs : List ChannelRequest} {l l' : PutLoop},
    putLoop our now duct cid source rs l = some l' → (∀ r ∈ rs, r.Allowed our source) →
    (∀ c, l.state.session.lookup cid = some c → FairReqs F now duct rs c) → AllChannels P l.state.session →
    AllChannels P l'.state.session
  | [], l, l', h, _, _, hall => Option.some.inj h ▸ hall
  | r :: rs, l, l', h, ha, hfair, hall => by
    obtain ⟨l1, h1, h⟩ := Option.bind_eq_some_iff.mp h
    have ha' : ∀ r' ∈ rs, r'.Allowed our source := fun r' hr' => ha r' (List.mem_cons_of_mem r hr')
    by_cases hr : r = .delete
    · subst hr
      obtain rfl := Option.some.inj h1
      refine putLoop_upkeep hP h ha' (fun c hc => ?_) ?_
      · exact absurd ((discardChannel_gone our cid false l.state).symm.trans hc) (Option.some_ne_none c).symm
      · exact (discardChannel_edits our cid false l.state).upkeep hP Edit.Quiet.calm hall
    · cases hc : l.state.session.lookup cid with
      | none =>
        have hs := putStep_absent hr hc h1
        refine putLoop_upkeep hP h ha' (fun c hc' => ?_) (by rw [hs]; exact hall)
        rw [hs, hc] at hc'
        exact absurd hc' (Option.some_ne_none c).symm
      | some c =>
        obtain ⟨hf, hfs⟩ := (hfair c hc).resolve_left hr
        obtain ⟨l2, h2, -, ⟨-, -, -, hat⟩ | ⟨hn, -⟩⟩ := putStep_spec our source now duct hr hc
        · obtain rfl := Option.some.inj (h1.symm.trans h2)
          refine putLoop_upkeep hP h ha' (fun c' hc' => ?_) ?_
          · exact Option.some.inj (hat.lookup.symm.trans hc') ▸ hfs
          · exact hall.onlyAt hat (hP.effect (hall cid c hc) hf)
        · exact absurd (ha r List.mem_cons_self) hn

/-- The changes of a PUT that is heard, and where all requests are allowed, are ones that `F` allows. -/
def FairPut (F : Channel → Change → Prop) (roof : Roof) (our : Ship) (now : Da) (duct : Duct) (cid : String)
    (identity : Identity) (request : Request) (s : ServerState) : Prop :=
  ∀ reqs c, Heard roof cid identity request s reqs → (∀ r ∈ reqs, r.Allowed our (identity.source our)) →
    (renewed now duct cid identity request s).2.session.lookup cid = some c → FairReqs F now duct reqs c

theorem handleResponse_session (text : Text) (our : Ship) (now : Da) (duct : Duct) (e : HttpEvent) (s : ServerState) :
    (handleResponse text our now duct e s).2.session = s.session :=
  congrArg Channels.session (handleResponse_timed text our now duct e s).1

theorem onPutRequest_upkeep (hP : Upkeep P F) (hfair : FairPut F roof our now duct cid identity request s)
    (hall : AllChannels P s.session)
    (h : onPutRequest text roof our now duct cid identity request s = some (moves, s')) : AllChannels P s'.session := by
  rcases onPutRequest_cases text roof our now duct cid identity request s with ⟨code, page, hr, -⟩ | ⟨reqs, hh, hr⟩
  · have hs : _ = s' := congrArg Prod.snd (Option.some.inj (hr.symm.trans h))
    rw [← hs]
    exact (handleResponse_session text our now duct _ s).symm ▸ hall
  · obtain ⟨l, hl, hdone⟩ := Option.map_eq_some_iff.mp (hr.symm.trans h)
    have hren : AllChannels P (renewed now duct cid identity request s).2.session :=
      (updateTimeout_timed _ _ _ _ _ _).edits.upkeep hP Edit.Quiet.calm hall
    have hs : _ = s' := congrArg Prod.snd hdone
    rw [← hs]
    unfold putDone
    by_cases he : l.errors.entries = []
    · rw [if_pos he]
      have hloop := putLoop_upkeep hP hl (putLoop_allowed hl he).2
        (fun c hc => hfair reqs c hh (putLoop_allowed hl he).2 hc) hren
      exact (handleResponse_session text our now duct _ l.state).symm ▸ hloop
    · rw [if_neg he]
      exact (handleResponse_session text our now duct _ _).symm ▸ hren

/-! ### Listening -/

/-- The acknowledgement of a GET that is served is one that `F` allows. -/
def FairGet (F : Channel → Change → Prop) (roof : Roof) (now : Da) (cid : String) (identity : Identity)
    (request : Request)
    (s : ServerState) : Prop :=
  ∀ c n, s.session.lookup cid = some c → identity = c.identity → findChannelMode "GET" request.headerList = c.mode →
    (getHeader "last-event-id" request.headerList).bind roof.dum = some n → F c (.ack now n)

/-- The acknowledgement of a GET changes its channel and nothing else. -/
theorem acknowledge_lookup {last : Option ℕ} {t : ServerState} {c : Channel} (hc : s.session.lookup cid = some c)
    (h : last.elim (some s) (fun n => acknowledgeEvents now cid n s) = some t) :
    t.session.lookup cid = some (last.elim c fun n => (Change.ack now n).on c) ∧
      (∀ k, k ≠ cid → t.session.lookup k = s.session.lookup k) ∧ t.connections = s.connections := by
  cases last with
  | none =>
    obtain rfl := Option.some.inj h
    exact ⟨hc, fun _ _ => rfl, rfl⟩
  | some n =>
    obtain ⟨session, hj, rfl⟩ := Option.map_eq_some_iff.mp h
    obtain ⟨c1, hc1, rfl⟩ := Option.map_eq_some_iff.mp hj
    obtain rfl := Option.some.inj (hc.symm.trans hc1)
    exact ⟨AList.lookup_insert _, fun k hk => AList.lookup_insert_ne hk, rfl⟩

/-- A GET: the channels are as they were, or it acknowledges and listens. -/
theorem onGetRequest_session {sid : ℕ} (h : onGetRequest text roof our now duct cid sid identity request s = some
    (moves, s')) :
    s'.session = s.session ∨ ∃ c c', s.session.lookup cid = some c ∧ identity = c.identity ∧
      findChannelMode "GET" request.headerList = c.mode ∧ c'.state = .inr duct ∧
      c'.core = (((getHeader "last-event-id" request.headerList).bind roof.dum).elim c
        fun n => (Change.ack now n).on c).core ∧
      OnlyAt cid c' { s' with session := s.session } s' := by
  have hstatic : ∀ {code page}, some (returnStaticDataOnDuct text our now duct code "text/html" page s) = some
    (moves, s') →
      s'.session = s.session := fun h => by
    have hs : _ = s' := congrArg Prod.snd (Option.some.inj h)
    rw [← hs]
    exact handleResponse_session text our now duct _ s
  unfold onGetRequest at h
  split at h
  · exact .inl (hstatic h)
  · rename_i c hc
    split at h
    · exact .inl (hstatic h)
    · rename_i hid
      split at h
      · exact .inl (hstatic h)
      · rename_i hmode
        simp only [Option.bind_eq_bind, Option.bind_eq_some_iff, Option.some.injEq, Prod.mk.injEq] at h
        obtain ⟨s1, hack, replay, -, sessions, -, session, hsession, -, rfl⟩ := h
        have hcancel : (cancelListener text our now cid c s).2.session = s.session :=
          congrArg Channels.session (cancelListener_spec text our now cid c s).1
        obtain ⟨hone, hothers, -⟩ := acknowledge_lookup (hcancel.symm ▸ hc) hack
        obtain ⟨c1, hc1, rfl⟩ := Option.map_eq_some_iff.mp hsession
        rw [handleResponse_session] at hc1
        obtain rfl := Option.some.inj (hone.symm.trans hc1)
        refine .inr ⟨c, _, hc, not_not.mp hid, not_not.mp hmode, rfl, ?_, _, rfl, AList.lookup_insert _, fun k hk => ?_⟩
        · cases (getHeader "last-event-id" request.headerList).bind roof.dum <;> rfl
        · rw [AList.lookup_insert_ne hk, handleResponse_session, hothers k hk, hcancel]

theorem onGetRequest_upkeep {sid : ℕ} (hP : Upkeep P F) (hfair : FairGet F roof now cid identity request s)
    (hall : AllChannels P s.session)
    (h : onGetRequest text roof our now duct cid sid identity request s = some (moves, s')) :
      AllChannels P s'.session := by
  rcases onGetRequest_session h with hs | ⟨c, c', hc, hid, hmode, -, hcore, hat⟩
  · rw [hs]
    exact hall
  · refine AllChannels.onlyAt (s := { s' with session := s.session }) hall hat (hP.same hcore ?_)
    cases hlast : (getHeader "last-event-id" request.headerList).bind roof.dum with
    | none => exact hall cid c hc
    | some n => exact hP.on (hall cid c hc) (hfair c n hc hid hmode hlast)

/-! ### Requests and runs -/

/-- The changes of a request that a session of `identity` makes are ones that `F` allows. -/
def FairRequest (F : Channel → Change → Prop) (roof : Roof) (our : Ship) (now : Da) (duct : Duct) (site : ChannelUrl)
    (identity : Identity) (request : Request) (s : ServerState) : Prop :=
  ∀ cid, site request.url = some cid →
    (request.method = "PUT" ∨ request.method = "POST" → FairPut F roof our now duct cid identity request s) ∧
      (request.method = "GET" → FairGet F roof now cid identity request s)

theorem renewed_congr {t : ServerState} (h : t.session = s.session) :
    (renewed now duct cid identity request t).2.session = (renewed now duct cid identity request s).2.session := by
  unfold renewed updateTimeoutTimerFor
  dsimp only
  rw [h]
  split
  · rfl
  · split
    · exact h
    · rfl

theorem FairRequest.congr {t : ServerState} (h : t.session = s.session)
    (hf : FairRequest F roof our now duct site identity request s) :
    FairRequest F roof our now duct site identity request t := by
  intro cid hsite
  obtain ⟨hput, hget⟩ := hf cid hsite
  refine ⟨fun hm reqs c hh ha hc => hput hm reqs c ⟨fun c' hc' => hh.owner c' (h ▸ hc'), hh.parsed⟩ ha ?_,
    fun hm c n hc => ?_⟩
  · rw [← renewed_congr h]
    exact hc
  · rw [h] at hc
    exact hget hm c n hc

theorem handleChannelRequest_upkeep {sid : ℕ} (hP : Upkeep P F)
    (hfair : FairRequest F roof our now duct site identity request s) (hall : AllChannels P s.session)
    (h : handleChannelRequest text roof our now duct site sid identity request s = some (moves, s')) :
    AllChannels P s'.session := by
  have hstatic : ∀ {code page}, some (returnStaticDataOnDuct text our now duct code "text/html" page s) = some
    (moves, s') →
      AllChannels P s'.session := fun h => by
    have hs : _ = s' := congrArg Prod.snd (Option.some.inj h)
    rw [← hs]
    exact (handleResponse_session text our now duct _ s).symm ▸ hall
  unfold handleChannelRequest at h
  split at h
  · exact hstatic h
  · rename_i cid hsite
    obtain ⟨hput, hget⟩ := hfair cid hsite
    split at h
    · rename_i hm
      exact onPutRequest_upkeep hP (hput (.inl hm)) hall h
    · split at h
      · rename_i hm
        exact onGetRequest_upkeep hP (hget hm) hall h
      · split at h
        · rename_i hm
          exact onPutRequest_upkeep hP (hput (.inr hm)) hall h
        · exact hstatic h

/-- The changes of an event are ones that `F` allows. Of a request, its session is the one that is found for it. -/
def FairTask (F : Channel → Change → Prop) (text : Text) (our : Ship) (site : ChannelUrl) (a : Sys) : Task → Prop
  | .request roof now duct eny _ _ request => ∀ sid identity som s,
      sessionForRequest text our now duct eny request a.state = some (.inr (sid, identity, som), s) →
      FairRequest F roof our now duct site identity request a.state
  | _ => True

theorem channelRequest_upkeep {eny : Eny} {secure : Bool} {address : ℕ} (hP : Upkeep P F)
    (hfair : ∀ sid identity som t, sessionForRequest text our now duct eny request s = some
      (.inr (sid, identity, som), t) →
      FairRequest F roof our now duct site identity request s) (hall : AllChannels P s.session)
    (h : channelRequest text roof our now duct site eny secure address request s = some (moves, s')) :
    AllChannels P s'.session := by
  unfold channelRequest at h
  simp only [Option.bind_eq_bind, Option.bind_eq_some_iff] at h
  obtain ⟨⟨found, s1⟩, hfound, h⟩ := h
  have hs1 : s1.session = s.session := congrArg Channels.session (sessionForRequest_channels hfound).1
  cases found with
  | inl invalid =>
    have hs : _ = s' := congrArg Prod.snd (Option.some.inj h)
    rw [← hs, handleResponse_session]
    exact hs1.symm ▸ hall
  | inr r =>
    obtain ⟨⟨ms, s2⟩, hreq, hr⟩ := Option.map_eq_some_iff.mp h
    obtain ⟨-, rfl⟩ := Prod.mk.inj hr
    refine handleChannelRequest_upkeep hP ?_ ?_ hreq
    · exact (hfair r.1 r.2.1 r.2.2 s1 hfound).congr hs1
    · exact (congrArg (AllChannels P) hs1).mpr hall

theorem turn_upkeep {a b : Sys} {e : Task} (hP : Upkeep P F) (hfair : FairTask F text our site a e)
    (hall : AllChannels P a.state.session) (h : turn text our site a e = some b) : AllChannels P b.state.session := by
  by_cases hq : e.Quiet
  · exact (turn_quiet text our site hq h).1.upkeep hP Edit.Quiet.calm hall
  · cases e with
    | request roof now duct eny secure address request =>
      obtain ⟨-, r, hr, rfl⟩ := turn_request text our site h
      exact channelRequest_upkeep hP hfair hall hr
    | unto roof now duct channelId requestId extra sign =>
      obtain ⟨r, hr, rfl⟩ := Option.map_eq_some_iff.mp h
      exact onGallResponse_upkeep hP hall hr
    | _ => exact absurd trivial hq

/-- **What is kept holds of every channel in a run** of events whose changes are allowed. -/
theorem upkeep_of_run {es : List Task} {a : Sys} (hP : Upkeep P F)
    (hfair : Replay.Along (turn text our site) (FairTask F text our site) .start es)
    (h : Replay.follow (turn text our site) .start es = some a) : AllChannels P a.state.session :=
  have h0 : AllChannels P Sys.start.state.session := fun _ _ hc => absurd hc (Option.some_ne_none _).symm
  hfair.follow_inv (fun b => AllChannels P b.state.session) (fun _ _ _ ha hf ht => turn_upkeep hP hf ha ht) h0 h

end Eyre
end Ursockets

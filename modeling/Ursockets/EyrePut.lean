/-
# A PUT is done as a whole

The requests of a PUT are worked through one by one, and each either changes the
channel and gives moves to gall, or is an error. What a request asks for is said
here of the channel alone (`Allowed`, `effect`, `deals`). A PUT without a `%delete`
does all that its requests ask for, or nothing but to create the channel or renew
its timer, and never crashes.

Key definitions: `ChannelRequest.Allowed`, `ChannelRequest.effect`, `ChannelRequest.deals`, `PutOutcome`.
Key theorems: `putStep_spec`, `putLoop_spec`, `onPutRequest_outcome`.
-/
import Ursockets.EyreEdit
import Ursockets.EyreSocket

namespace Ursockets
namespace Eyre

/-! ### What a request asks for -/

/-- Who may ask for a request: our own sessions, and others if it is of our ship. An
`%unsubscribe` is for our own sessions only. -/
def ChannelRequest.Allowed (our source : Ship) : ChannelRequest → Prop
  | .poke _ ship _ _ _ => source = our ∨ ship = our
  | .pokeJson _ ship _ _ _ => source = our ∨ ship = our
  | .subscribe _ ship _ _ => source = our ∨ ship = our
  | .unsubscribe _ _ => source = our
  | .ack _ => True
  | .delete => True

/-- What a request makes of the channel. -/
def ChannelRequest.effect (now : Da) (duct : Duct) (r : ChannelRequest) (c : Channel) : Channel :=
  match r with
  | .ack n => (Change.ack now n).on c
  | .subscribe rid ship app path => (Change.subscribe rid ⟨ship, app, path, duct⟩).on c
  | .unsubscribe _ sid => if sid ∈ c.subscriptions then (Change.unsubscribe sid).on c else c
  | _ => c

/-- The moves to gall of a request. -/
def ChannelRequest.deals (duct : Duct) (cid : String) (source : Ship) (r : ChannelRequest) (c : Channel) : List Move :=
  match r with
  | .poke rid ship app mark noun => [⟨duct, .deal (.channelPoke cid rid) source ship app (.pokeAs mark (.noun noun))⟩]
  | .pokeJson rid ship app mark json =>
    [⟨duct, .deal (.channelPoke cid rid) source ship app (.pokeAs mark (.json json))⟩]
  | .subscribe rid ship app path =>
    [⟨duct, .deal (.channelSubscription cid rid ship app (some source)) source ship app (.watch path)⟩]
  | .unsubscribe _ sid =>
    (c.subscriptions.lookup sid).toList.map fun sub =>
      ⟨sub.duc, .deal (.channelSubscription cid sid sub.ship sub.app (some source)) source sub.ship sub.app .leave⟩
  | _ => []

/-- What requests make of the channel, one after the other. -/
def effects (now : Da) (duct : Duct) (rs : List ChannelRequest) (c : Channel) : Channel :=
  rs.foldl (fun c r => r.effect now duct c) c

/-- The moves to gall of requests, in order. -/
def dealsOf (now : Da) (duct : Duct) (cid : String) (source : Ship) : List ChannelRequest → Channel → List Move
  | [], _ => []
  | r :: rs, c => r.deals duct cid source c ++ dealsOf now duct cid source rs (r.effect now duct c)

variable {text : Text} {roof : Roof} {our source : Ship} {now : Da} {duct : Duct} {s s' : ServerState}
  {moves : List Move} {cid : String} {identity : Identity} {request : Request} {r : ChannelRequest}
  {rs : List ChannelRequest} {c : Channel} {l l' : PutLoop}

theorem ChannelRequest.effect_state (r : ChannelRequest) (c : Channel) : (r.effect now duct c).state = c.state := by
  cases r with
  | unsubscribe rid sid =>
    unfold ChannelRequest.effect
    dsimp only
    split <;> rfl
  | _ => rfl

/-! ### The loop over the requests -/

/-- The states differ in one channel. -/
def OnlyAt (cid : String) (c : Channel) (s s' : ServerState) : Prop :=
  ∃ session, s' = { s with session := session } ∧ session.lookup cid = some c ∧
    ∀ k, k ≠ cid → session.lookup k = s.session.lookup k

theorem onlyAt_refl (hc : s.session.lookup cid = some c) : OnlyAt cid c s s := ⟨s.session, rfl, hc, fun _ _ => rfl⟩

theorem onlyAt_insert : OnlyAt cid c s { s with session := s.session.insert cid c } :=
  ⟨_, rfl, AList.lookup_insert _, fun _ hk => AList.lookup_insert_ne hk⟩

theorem OnlyAt.trans {c' : Channel} {s'' : ServerState} (h : OnlyAt cid c s s') (h' : OnlyAt cid c' s' s'') :
    OnlyAt cid c' s s'' := by
  obtain ⟨session, rfl, -, hk⟩ := h
  obtain ⟨session', rfl, hc', hk'⟩ := h'
  exact ⟨session', rfl, hc', fun k hne => (hk' k hne).trans (hk k hne)⟩

theorem OnlyAt.lookup (h : OnlyAt cid c s s') : s'.session.lookup cid = some c := by
  obtain ⟨session, rfl, hc, -⟩ := h
  exact hc

/-- **One request on a channel that is there**: it is done, or it is an error and nothing else. -/
theorem putStep_spec (our source : Ship) (now : Da) (duct : Duct) (hr : r ≠ .delete)
    (hc : l.state.session.lookup cid = some c) :
    ∃ l', putStep our now duct cid source r l = some l' ∧ l'.moves = l.moves ∧
      (r.Allowed our source ∧ l'.errors = l.errors ∧ l'.gallMoves = (r.deals duct cid source c).reverse ++ l.gallMoves ∧
          OnlyAt cid (r.effect now duct c) l.state l'.state ∨
        ¬ r.Allowed our source ∧ l'.errors.entries ≠ [] ∧ l'.gallMoves = l.gallMoves ∧ l'.state = l.state) := by
  have herr : ∀ rid, (l.errors.insert rid nonLocal).entries ≠ [] := fun rid => by
    rw [AList.entries_insert]
    exact List.cons_ne_nil _ _
  have hjab : ∀ f :
    Channel → Channel, jab l.state.session cid f = some (l.state.session.insert cid (f c)) := fun f => by
    rw [jab, hc, Option.map_some]
  unfold putStep
  cases r with
  | ack n =>
    exact ⟨_, congrArg (Option.map _) (congrArg (Option.map _) (hjab _)), rfl, .inl ⟨trivial, rfl, rfl, onlyAt_insert⟩⟩
  | poke rid ship app mark noun =>
    by_cases ha : source = our ∨ ship = our
    · exact ⟨_, if_pos ha, rfl, .inl ⟨ha, rfl, rfl, onlyAt_refl hc⟩⟩
    · exact ⟨_, if_neg ha, rfl, .inr ⟨ha, herr rid, rfl, rfl⟩⟩
  | pokeJson rid ship app mark json =>
    by_cases ha : source = our ∨ ship = our
    · exact ⟨_, if_pos ha, rfl, .inl ⟨ha, rfl, rfl, onlyAt_refl hc⟩⟩
    · exact ⟨_, if_neg ha, rfl, .inr ⟨ha, herr rid, rfl, rfl⟩⟩
  | subscribe rid ship app path =>
    by_cases ha : source = our ∨ ship = our
    · exact ⟨_, (if_pos ha).trans (congrArg (Option.map _) (hjab _)), rfl, .inl ⟨ha, rfl, rfl, onlyAt_insert⟩⟩
    · exact ⟨_, if_neg ha, rfl, .inr ⟨ha, herr rid, rfl, rfl⟩⟩
  | unsubscribe rid sid =>
    by_cases ha : source = our
    · dsimp only
      rw [if_pos ha, hc]
      dsimp only
      cases hsub : c.subscriptions.lookup sid with
      | none =>
        have hno : sid ∉ c.subscriptions := AList.lookup_eq_none.mp hsub
        refine ⟨l, rfl, rfl, .inl ⟨ha, rfl, ?_, ?_⟩⟩
        · simp only [ChannelRequest.deals, hsub, Option.toList_none, List.map_nil, List.reverse_nil, List.nil_append]
        · simp only [ChannelRequest.effect, hno, if_false]
          exact onlyAt_refl hc
      | some sub =>
        have hin : sid ∈ c.subscriptions := AList.lookup_isSome.mp (by rw [hsub]; rfl)
        refine ⟨_, rfl, rfl, .inl ⟨ha, rfl, ?_, ?_⟩⟩
        · simp only [ChannelRequest.deals, hsub, Option.toList_some, List.map_cons, List.map_nil,
            List.reverse_singleton,
            List.singleton_append]
        · simp only [ChannelRequest.effect, hin, if_true]
          exact onlyAt_insert
    · exact ⟨_, if_neg ha, rfl, .inr ⟨ha, herr rid, rfl, rfl⟩⟩
  | delete => exact absurd rfl hr

/-- The loop, where an error has been found: there will be errors. -/
theorem putLoop_errors (our source : Ship) (now : Da) (duct : Duct) : ∀ {rs : List ChannelRequest} {c : Channel}
    {l : PutLoop}, .delete ∉ rs →
    l.state.session.lookup cid = some c → l.errors.entries ≠ [] →
    ∃ l', putLoop our now duct cid source rs l = some l' ∧ l'.moves = l.moves ∧ l'.errors.entries ≠ []
  | [], c, l, _, _, he => ⟨l, rfl, rfl, he⟩
  | r :: rs, c, l, hrs, hc, he => by
    have hr : r ≠ .delete := fun hr => hrs (hr ▸ List.mem_cons_self)
    have hrs' : .delete ∉ rs := fun h => hrs (List.mem_cons_of_mem r h)
    obtain ⟨l1, h1, hm, h⟩ := putStep_spec our source now duct hr hc
    obtain ⟨c1, hc1, he1⟩ : ∃ c1, l1.state.session.lookup cid = some c1 ∧ l1.errors.entries ≠ [] := by
      rcases h with ⟨-, herr, -, hat⟩ | ⟨-, herr, -, hs⟩
      · exact ⟨_, hat.lookup, by rw [herr]; exact he⟩
      · exact ⟨c, by rw [hs]; exact hc, herr⟩
    obtain ⟨l2, h2, hm2, he2⟩ := putLoop_errors our source now duct hrs' hc1 he1
    exact ⟨l2, by rw [putLoop, h1]; exact h2, hm2.trans hm, he2⟩

/-- **The requests of a PUT on a channel that is there**: all are done, or there are errors. -/
theorem putLoop_spec (our source : Ship) (now : Da) (duct : Duct) : ∀ {rs : List ChannelRequest} {c : Channel}
    {l : PutLoop}, .delete ∉ rs →
    l.state.session.lookup cid = some c → l.errors.entries = [] →
    ∃ l', putLoop our now duct cid source rs l = some l' ∧ l'.moves = l.moves ∧
      ((∀ r ∈ rs, r.Allowed our source) ∧ l'.errors.entries = [] ∧
          l'.gallMoves = (dealsOf now duct cid source rs c).reverse ++ l.gallMoves ∧
          OnlyAt cid (effects now duct rs c) l.state l'.state ∨
        (∃ r ∈ rs, ¬ r.Allowed our source) ∧ l'.errors.entries ≠ [])
  | [], c, l, _, hc, he => ⟨l, rfl, rfl, .inl ⟨fun _ h => absurd h List.not_mem_nil, he, rfl, onlyAt_refl hc⟩⟩
  | r :: rs, c, l, hrs, hc, he => by
    have hr : r ≠ .delete := fun hr => hrs (hr ▸ List.mem_cons_self)
    have hrs' : .delete ∉ rs := fun h => hrs (List.mem_cons_of_mem r h)
    obtain ⟨l1, h1, hm, h⟩ := putStep_spec our source now duct hr hc
    have hloop : ∀ {l'}, putLoop our now duct cid source rs l1 = some l' →
        putLoop our now duct cid source (r :: rs) l = some l' := fun h2 => by
      rw [putLoop, h1]
      exact h2
    rcases h with ⟨ha, herr, hgall, hat⟩ | ⟨ha, herr, -, hs⟩
    · obtain ⟨l2, h2, hm2, h⟩ := putLoop_spec our source now duct hrs' hat.lookup (by rw [herr]; exact he)
      refine ⟨l2, hloop h2, hm2.trans hm, h.imp (fun ⟨hall, he2, hg2, hat2⟩ => ?_) fun ⟨⟨r', hr', hna⟩, he2⟩ => ?_⟩
      · refine ⟨fun r' hr' => (List.mem_cons.mp hr').elim (fun e => e ▸ ha) (hall r'), he2, ?_, hat.trans hat2⟩
        rw [hg2, hgall, dealsOf, List.reverse_append, List.append_assoc]
      · exact ⟨⟨r', List.mem_cons_of_mem r hr', hna⟩, he2⟩
    · obtain ⟨l2, h2, hm2, he2⟩ := putLoop_errors our source now duct hrs' (by rw [hs]; exact hc) herr
      exact ⟨l2, hloop h2, hm2.trans hm, .inr ⟨⟨r, List.mem_cons_self, ha⟩, he2⟩⟩

/-! ### A `%delete` of a channel that somebody listens to -/

/-- No timer is recorded for the channel. -/
def Unwaiting (s : ServerState) (cid : String) : Prop := ∀ c, s.session.lookup cid = some c → c.state.isRight

theorem putStep_absent (hr : r ≠ .delete) (hc : l.state.session.lookup cid = none)
    (h : putStep our now duct cid source r l = some l') : l'.state = l.state := by
  have hjab : ∀ f : Channel → Channel, jab l.state.session cid f = none := fun f => by
    rw [jab, hc, Option.map_none]
  unfold putStep at h
  cases r with
  | ack n =>
    exact absurd (h.symm.trans (congrArg (Option.map _) (congrArg (Option.map _) (hjab _)))) (Option.some_ne_none _)
  | poke rid ship app mark noun =>
    dsimp only at h
    split at h <;> exact Option.some.inj h ▸ rfl
  | pokeJson rid ship app mark json =>
    dsimp only at h
    split at h <;> exact Option.some.inj h ▸ rfl
  | subscribe rid ship app path =>
    dsimp only at h
    split at h
    · exact absurd (h.symm.trans (congrArg (Option.map _) (hjab _))) (Option.some_ne_none _)
    · exact Option.some.inj h ▸ rfl
  | unsubscribe rid sid =>
    dsimp only at h
    rw [hc] at h
    split at h <;> exact Option.some.inj h ▸ rfl
  | delete => exact absurd rfl hr

/-- One request on a channel that has no timer: there is none afterwards, and no move is of one. -/
theorem putStep_unwaiting (hw : Unwaiting l.state cid) (hm : ∀ m ∈ l.moves, Untimed m)
    (hg : ∀ m ∈ l.gallMoves, Untimed m)
    (h : putStep our now duct cid source r l = some l') :
    TimedTo Edit.Loud l.state [] l'.state ∧ Unwaiting l'.state cid ∧ (∀ m ∈ l'.moves, Untimed m) ∧
      ∀ m ∈ l'.gallMoves, Untimed m := by
  by_cases hr : r = .delete
  · subst hr
    obtain rfl := Option.some.inj h
    have hu := discardChannel_untimed our cid false hw
    have ht : TimedTo Edit.Loud l.state [] (discardChannel our cid false l.state).2 :=
      ((discardChannel_timed our cid l.state).mono Edit.Quiet.loud).congr fun ts => (behn_untimed hu ts).symm
    refine ⟨ht, fun c hc => ?_, hu, fun m hm => (List.mem_append.mp hm).elim (hg m) (hu m)⟩
    exact absurd ((discardChannel_gone our cid false l.state).symm.trans hc) (Option.some_ne_none c).symm
  · obtain ⟨ht, hmoves, hgall⟩ := putStep_timed hr h
    refine ⟨ht, fun c hc => ?_, by rw [hmoves]; exact hm, hgall hg⟩
    cases hc0 : l.state.session.lookup cid with
    | none =>
      rw [putStep_absent hr hc0 h, hc0] at hc
      exact absurd hc.symm (Option.some_ne_none _)
    | some c0 =>
      obtain ⟨l1, h1, -, ⟨-, -, -, hat⟩ | ⟨-, -, -, hs⟩⟩ := putStep_spec our source now duct hr hc0
      · obtain rfl := Option.some.inj (h.symm.trans h1)
        obtain rfl := Option.some.inj (hc.symm.trans hat.lookup)
        rw [r.effect_state]
        exact hw c0 hc0
      · obtain rfl := Option.some.inj (h.symm.trans h1)
        rw [hs] at hc
        exact hw c hc

theorem putLoop_unwaiting : ∀ {rs : List ChannelRequest} {l l' : PutLoop}, Unwaiting l.state cid →
    (∀ m ∈ l.moves, Untimed m) → (∀ m ∈ l.gallMoves, Untimed m) → putLoop our now duct cid source rs l = some l' →
    TimedTo Edit.Loud l.state [] l'.state ∧ (∀ m ∈ l'.moves, Untimed m) ∧ ∀ m ∈ l'.gallMoves, Untimed m
  | [], l, l', _, hm, hg, h => by
    obtain rfl := Option.some.inj h
    exact ⟨.refl rfl untimed_nil, hm, hg⟩
  | r :: rs, l, l', hw, hm, hg, h => by
    obtain ⟨l1, h1, h⟩ := Option.bind_eq_some_iff.mp h
    obtain ⟨ht, hw1, hm1, hg1⟩ := putStep_unwaiting hw hm hg h1
    obtain ⟨ht', hm', hg'⟩ := putLoop_unwaiting hw1 hm1 hg1 h
    exact ⟨ht.trans ht', hm', hg'⟩

/-- A PUT to a channel that somebody listens to, whatever its requests are. -/
theorem onPutRequest_listened {d : Duct} (hc : s.session.lookup cid = some c) (hd : c.state = .inr d)
    (h : onPutRequest text roof our now duct cid identity request s = some (moves, s')) :
      TimedTo Edit.Loud s moves s' := by
  have hsame : updateTimeoutTimerFor now duct (findChannelMode "PUT" request.headerList) identity cid [] s =
    ([], s) := by
    unfold updateTimeoutTimerFor
    rw [hc]
    dsimp only
    rw [hd]
  refine onPutRequest_timed_of (fun body reqs l _ _ hl => ?_) h
  rw [hsame] at hl
  rw [hsame]
  have hw : Unwaiting s cid := fun c' hc' => by
    rw [← Option.some.inj (hc.symm.trans hc'), hd]
    rfl
  obtain ⟨ht, hm, hg⟩ := putLoop_unwaiting hw untimed_nil untimed_nil hl
  exact ⟨ht, fun ts => behn_untimed hm ts, hg⟩

/-! ### The PUT -/

/-- The requests of a PUT that comes to be worked through: its channel is the session's own, if it
is there, and its body can be read. -/
structure Heard (roof : Roof) (cid : String) (identity : Identity) (request : Request) (s : ServerState)
    (reqs : List ChannelRequest) : Prop where
  owner : ∀ c, s.session.lookup cid = some c → c.identity = identity
  parsed : ∃ body, request.body = some body ∧
    roof.parseChannelRequest (findChannelMode "PUT" request.headerList) body = .ok reqs

/-- The timer of a PUT's channel is renewed, or the channel is created. -/
def renewed (now : Da) (duct : Duct) (cid : String) (identity : Identity) (request : Request) (s : ServerState) :
    List Move × ServerState :=
  updateTimeoutTimerFor now duct (findChannelMode "PUT" request.headerList) identity cid [] s

/-- How a PUT ends: it is turned away; or all its requests are done, the channel is as they
make it, and their moves go out in order; or one of them is an error, which is the answer,
and but for the timer everything is as before. -/
inductive PutOutcome (text : Text) (roof : Roof) (our : Ship) (now : Da) (duct : Duct) (cid : String)
    (identity : Identity) (request : Request) (s : ServerState) : List Move × ServerState → Prop where
  | refused (code : ℕ) (page : Octs) : (∀ reqs, ¬ Heard roof cid identity request s reqs) →
    PutOutcome text roof our now duct cid identity request s
      (returnStaticDataOnDuct text our now duct code "text/html" page s)
  | done (reqs : List ChannelRequest) (c : Channel) (t : ServerState) : Heard roof cid identity request s reqs →
    (∀ r ∈ reqs, r.Allowed our (identity.source our)) →
    (renewed now duct cid identity request s).2.session.lookup cid = some c →
    OnlyAt cid (effects now duct reqs c) (renewed now duct cid identity request s).2 t →
    PutOutcome text roof our now duct cid identity request s
      (dealsOf now duct cid (identity.source our) reqs c ++
          (handleResponse text our now duct (.start ⟨204, []⟩ none true) t).1 ++
            (renewed now duct cid identity request s).1,
        (handleResponse text our now duct (.start ⟨204, []⟩ none true) t).2)
  | reverted (reqs : List ChannelRequest) (page : Octs) : Heard roof cid identity request s reqs →
    (∃ r ∈ reqs, ¬ r.Allowed our (identity.source our)) →
    PutOutcome text roof our now duct cid identity request s
      ((returnStaticDataOnDuct text our now duct 400 "text/html" page (renewed now duct cid identity request s).2).1 ++
          (renewed now duct cid identity request s).1,
        (returnStaticDataOnDuct text our now duct 400 "text/html" page (renewed now duct cid identity request s).2).2)

/-- The channel of a PUT is there once its timer is renewed. -/
theorem renewed_lookup (now : Da) (duct : Duct) (cid : String) (identity : Identity) (request : Request)
    (s : ServerState) :
    ∃ c, (renewed now duct cid identity request s).2.session.lookup cid = some c := by
  unfold renewed updateTimeoutTimerFor
  dsimp only
  split
  · exact ⟨_, AList.lookup_insert _⟩
  · rename_i c hc
    split
    · exact ⟨c, hc⟩
    · exact ⟨_, AList.lookup_insert _⟩

/-- A PUT is turned away, or its requests are worked through once the timer is renewed. -/
theorem onPutRequest_cases (text : Text) (roof : Roof) (our : Ship) (now : Da) (duct : Duct) (cid : String)
    (identity : Identity) (request : Request) (s : ServerState) :
    (∃ code page, onPutRequest text roof our now duct cid identity request s =
        some (returnStaticDataOnDuct text our now duct code "text/html" page s) ∧
        ∀ reqs, ¬ Heard roof cid identity request s reqs) ∨
      ∃ reqs, Heard roof cid identity request s reqs ∧ onPutRequest text roof our now duct cid identity request s =
        (putLoop our now duct cid (identity.source our) reqs
          ⟨(renewed now duct cid identity request s).2, [], ∅, (renewed now duct cid identity request s).1⟩).map
          (putDone text our now duct (renewed now duct cid identity request s).2) := by
  unfold onPutRequest
  by_cases howner : ((s.session.lookup cid).any fun c => identity ≠ c.identity) = true
  · rw [if_pos howner]
    refine .inl ⟨_, _, rfl, fun reqs hh => ?_⟩
    cases hc : s.session.lookup cid with
    | none =>
      rw [hc] at howner
      exact absurd howner Bool.false_ne_true
    | some c =>
      rw [hc, Option.any_some, decide_eq_true_eq] at howner
      exact howner (hh.owner c hc).symm
  have hown : ∀ c, s.session.lookup cid = some c → c.identity = identity := fun c hc => by
    rw [hc, Option.any_some, decide_eq_true_eq, not_not] at howner
    exact howner.symm
  rw [if_neg howner]
  cases hbody : request.body with
  | none =>
    refine .inl ⟨_, _, rfl, fun reqs hh => ?_⟩
    obtain ⟨body, hb, -⟩ := hh.parsed
    exact absurd (hbody.symm.trans hb) (Option.some_ne_none _).symm
  | some body =>
    dsimp only
    cases hparse : roof.parseChannelRequest (findChannelMode "PUT" request.headerList) body with
    | error e =>
      refine .inl ⟨_, _, rfl, fun reqs hh => ?_⟩
      obtain ⟨body', hb, hp⟩ := hh.parsed
      obtain rfl := Option.some.inj (hbody.symm.trans hb)
      exact absurd (hparse.symm.trans hp) (by simp)
    | ok reqs => exact .inr ⟨reqs, ⟨hown, body, hbody, hparse⟩, rfl⟩

/-- **A PUT without a `%delete` does not crash, and is done as a whole or not at all.** -/
theorem onPutRequest_outcome (text : Text) (roof : Roof) (our : Ship) (now : Da) (duct : Duct) (cid : String)
    (identity : Identity) (request : Request) (s : ServerState) (hno : NoDelete roof request) :
    ∃ r, onPutRequest text roof our now duct cid identity request s = some r ∧
      PutOutcome text roof our now duct cid identity request s r := by
  rcases onPutRequest_cases text roof our now duct cid identity request s with ⟨code, page, h, hno⟩ | ⟨reqs, hh, h⟩
  · exact ⟨_, h, .refused code page hno⟩
  obtain ⟨body, hbody, hparse⟩ := hh.parsed
  obtain ⟨c, hc⟩ := renewed_lookup now duct cid identity request s
  obtain ⟨l, hl, hmoves, hl'⟩ := putLoop_spec our (identity.source our) now duct
    (l := ⟨_, [], ∅, (renewed now duct cid identity request s).1⟩) (hno body reqs hbody hparse) hc rfl
  refine ⟨_, h.trans (congrArg (Option.map _) hl), ?_⟩
  unfold putDone
  rcases hl' with ⟨hall, he, hgall, hat⟩ | ⟨herr, he⟩
  · rw [if_pos he, hgall, hmoves, List.append_nil, List.reverse_reverse]
    exact .done reqs c l.state hh hall hc hat
  · rw [if_neg he, hmoves]
    exact .reverted reqs _ hh herr

/-- What a channel takes from outside, where every body has the requests `reqs` and no fact can be converted. -/
def roofOf (reqs : List ChannelRequest) : Roof :=
  ⟨fun _ => none, fun _ _ => .ok reqs, fun _ _ _ _ => "", fun _ => none, fun _ => none, fun _ _ => none,
    fun _ _ _ => "", fun _ _ => ""⟩

/-- A PUT to a channel. -/
def putRequest : Request := ⟨"PUT", "/~/channel/c", [], some "[]"⟩

/-- The state as the PUT finds it, on the duct 3 of a session of `identity`. -/
def putState (identity : Identity) : ServerState :=
  { emptyState with
    connections := emptyState.connections.insert 3 ⟨.channel, ⟨false, true, 0, putRequest⟩, 5, identity, none, 0⟩ }

/-- An acknowledgement and a poke of our own, on a channel that is not there yet. -/
theorem own_put_outcome :
    ∃ r, onPutRequest fiveText (roofOf [.ack 0, .poke 1 7 "app" "noun" "0"]) 0 10 3 "c" .ours putRequest
      (putState .ours) = some r ∧
    PutOutcome fiveText (roofOf [.ack 0, .poke 1 7 "app" "noun" "0"]) 0 10 3 "c" .ours putRequest (putState .ours) r :=
  onPutRequest_outcome _ _ _ _ _ _ _ _ _ fun body reqs _ h => by
    obtain rfl := Except.ok.inj h
    decide

/-- A guest's poke of another ship is an error and does not go out, but its channel has been created. -/
theorem refused_put_creates : ∃ moves s', onPutRequest fiveText (roofOf [.poke 1 7 "app" "noun" "0"]) 0 10 3 "c"
    (.fake 5)
      putRequest (putState (.fake 5)) = some (moves, s') ∧
    (moves.any fun m => match m.card with
      | .response (.start header _ true) => header.statusCode = 400
      | _ => false) = true ∧
    (moves.all fun m => match m.card with
      | .deal _ _ _ _ _ => false
      | _ => true) = true ∧
    ((putState (.fake 5)).session.lookup "c").isSome = false ∧ (s'.session.lookup "c").isSome = true :=
  ⟨_, _, rfl, by decide, by decide, by decide, by decide⟩

end Eyre
end Ursockets

/-
# Events that verify

An event that the agent sends should have as its id the hash of the very fields it
is sent with, a signature of that id, and a public key of 32 bytes. A digest is
turned around as an atom, which drops the zero bytes at its end; and a reply to a
user of nostr is given its tag after it is hashed. All else agrees.

Key definitions: `digestNumber`, `Verifies`, `Draft`, `draft`, `DraftFits`.
Key theorems: `onPoke_verifies_iff`.
-/
import Ursockets.NostrillAgent
import Mathlib.Data.Nat.Digits.Lemmas

namespace Ursockets
namespace Nostrill

/-! ### What is sent -/

/-- The event that a card sends to a relay. -/
def Card.sent : Card → Option Event
  | .wsClient _ (.message (.client (.event ev))) => some ev
  | .oneOff _ (.client (.event ev)) => some ev
  | _ => none

def sentEvents (cs : List Card) : List Event := cs.filterMap Card.sent

/-- A digest as a number of 32 bytes, its first byte the highest. -/
def digestNumber (a : ℕ) : ℕ :=
  Nat.ofDigits 256 (Nat.digits 256 a ++ List.replicate (32 - (Nat.digits 256 a).length) 0).reverse

/-- The digest of the text of an event. -/
def digestOf (S : Sys) (raw : RawEvent) : Option ℕ := (rawEventJson raw).map fun j => S.shax (S.enJson j)

/-- The fields of an event that are hashed. -/
def Event.raw (ev : Event) : RawEvent := ⟨ev.pubkey, ev.createdAt, ev.kind, ev.tags, ev.content⟩

/-- What a relay checks: the id is the hash of the event's own fields, the signature one of the id under the key, and
the text of the key has the 64 digits of its coordinate. -/
structure Verifies (S : Sys) (ev : Event) : Prop where
  id : (digestOf S ev.raw).map digestNumber = some ev.id
  signed : ∃ priv sed, ev.pubkey = compressPoint (S.privToPub priv) ∧ ev.sig = S.sign priv ev.id sed
  pubkey : ∃ l, pubkeyText ev.pubkey = some (hexText l) ∧ l.length = 64 ∧
    Nat.ofDigits 16 l.reverse = ev.pubkey % 2 ^ 256

/-! ### What a poke has sent -/

/-- An event as it is hashed, and the tags it is sent with. -/
structure Draft where
  raw : RawEvent
  tags : List (List String)

/-- A draft sent with the tags it is hashed with. -/
def Draft.plain (raw : RawEvent) : Draft := ⟨raw, raw.tags⟩

def Draft.event (S : Sys) (keys : Keys) (eny : ℕ) (d : Draft) : Option Event :=
  (hashAndSign S keys eny d.raw).map fun ev => { ev with tags := d.tags }

/-- The fields of a post's event. -/
def postRaw (S : Sys) (keys : Keys) (p : Post) (kind : ℕ) (tags : List (List String)) : Option RawEvent :=
  (toUnixSecs p.id).map fun ts => ⟨keys.pub, ts, kind, tags, contentListToMd S (latestPostContent p.contents)⟩

/-- The fields of a profile's event. -/
def profileRaw (S : Sys) (keys : Keys) (prof : UserProfile) (now : ℕ) : Option RawEvent :=
  (toUnixSecs now).map fun ts => ⟨keys.pub, ts, 0, [], S.enJson (userMetaJson S prof.userMeta)⟩

/-- A post for the global relay. -/
def globalRaw (S : Sys) (B : Bowl) (st : State) (content : String) : Option RawEvent :=
  (buildSp S B.our B.our content none none).bind fun sp =>
    postRaw S st.keys (buildPost B.now st.keys.pub sp) 667 [["patp", S.scowP B.our]]

/-- What a poke has sent to relays, if anything. -/
def draft (S : Sys) (B : Bowl) (st : State) : Poke → Option Draft
  | .noun (some (.dbug (.wsgp t))) => (globalRaw S B st t).map .plain
  | .json (some (.post (.add content true _))) => (globalRaw S B st content).map .plain
  | .json (some (.post (.reply content (.nostr _) id _))) =>
    (getRelay S st).bind fun r =>
      (toUnixSecs B.now).map fun ts =>
        ⟨⟨st.keys.pub, ts, 1, [], content⟩, [["e", hexText (hexDigits 0 id), r.2.url, "reply"]]⟩
  | .json (some (.prof (.add um))) =>
    (profileRaw S st.keys { defaultProfile S B st with userMeta := um } B.now).map .plain
  | .json (some (.rela (.do _ .sendProf))) =>
    (st.profiles.lookup (.urbit B.src)).bind fun prof => (profileRaw S st.keys prof B.now).map .plain
  | .json (some (.rela (.do wids (.sendPost host id)))) =>
    if connected st wids = [] then none
    else (getPoast B st host id).bind fun p => (postRaw S st.keys p 1 []).map .plain
  | _ => none

/-- When a draft verifies: sent as it is hashed, its digest does not end in a zero byte (nor begins with 31 more of
them); sent with other tags, its digest turned around is that of the text with those tags. -/
def DraftFits (S : Sys) (d : Draft) : Prop :=
  if d.tags = d.raw.tags then ∀ a, digestOf S d.raw = some a → a = 0 ∨ 2 ^ 248 ≤ a
  else ∀ a, digestOf S d.raw = some a → (digestOf S { d.raw with tags := d.tags }).map digestNumber = some (swp a)

/-! ### Digests -/

theorem swp_eq_iff {a : ℕ} (h : a < 2 ^ 256) : digestNumber a = swp a ↔ a = 0 ∨ 2 ^ 248 ≤ a := by
  have hlen : (Nat.digits 256 a).length ≤ 32 := (Nat.digits_length_le_iff (by decide) a).mpr (by
    calc a < 2 ^ 256 := h
      _ = 256 ^ 32 := by norm_num)
  unfold digestNumber swp
  rw [List.reverse_append, List.reverse_replicate, Nat.ofDigits_append, Nat.ofDigits_replicate_zero, Nat.zero_add,
    List.length_replicate]
  by_cases h0 : a = 0
  · subst h0
    simp
  · have hpos : 0 < Nat.ofDigits 256 (Nat.digits 256 a).reverse := by
      rw [Nat.pos_iff_ne_zero]
      intro hz
      have hne : Nat.digits 256 a ≠ [] := Nat.digits_ne_nil_iff_ne_zero.mpr h0
      exact Nat.getLast_digit_ne_zero 256 h0
        (Nat.digits_zero_of_eq_zero (by decide) hz _ (List.mem_reverse.mpr (List.getLast_mem hne)))
    have h31 : 2 ^ 248 ≤ a ↔ 31 < (Nat.digits 256 a).length := by
      rw [Nat.lt_digits_length_iff (by decide)]
      norm_num
    simp only [h0, false_or, h31]
    constructor
    · intro he
      by_contra hlt
      have hk : 32 - (Nat.digits 256 a).length ≠ 0 := by omega
      have hpow : 256 ≤ 256 ^ (32 - (Nat.digits 256 a).length) := Nat.le_self_pow hk 256
      nlinarith
    · intro hlt
      rw [show 32 - (Nat.digits 256 a).length = 0 by omega, pow_zero, one_mul]

/-! ### The text of a public key -/

theorem digits_zero (base fuel : ℕ) : digits base 0 fuel 0 = [] := by
  cases fuel <;> rfl

theorem digits_length : ∀ (n : ℕ) {fuel r : ℕ}, r < 16 ^ n → n ≤ fuel → (digits 16 n fuel r).length = n
  | 0, fuel, r, hr, _ => by
    rw [pow_zero, Nat.lt_one_iff] at hr
    rw [hr, digits_zero]
    rfl
  | n + 1, fuel + 1, r, hr, hf => by
    rw [digits, if_neg (by omega)]
    have hdiv : r / 16 < 16 ^ n := Nat.div_lt_of_lt_mul (by rwa [Nat.mul_comm, ← pow_succ])
    rw [List.length_append, Nat.add_sub_cancel, digits_length n hdiv (by omega)]
    rfl

theorem ofDigits_digits_reverse : ∀ (n : ℕ) {fuel r : ℕ}, r < 16 ^ n → n ≤ fuel →
    Nat.ofDigits 16 (digits 16 n fuel r).reverse = r
  | 0, fuel, r, hr, _ => by
    rw [pow_zero, Nat.lt_one_iff] at hr
    rw [hr, digits_zero]
    rfl
  | n + 1, fuel + 1, r, hr, hf => by
    rw [digits, if_neg (by omega)]
    have hdiv : r / 16 < 16 ^ n := Nat.div_lt_of_lt_mul (by rwa [Nat.mul_comm, ← pow_succ])
    rw [List.reverse_append, List.reverse_singleton, List.singleton_append, Nat.ofDigits_cons, Nat.add_sub_cancel,
      ofDigits_digits_reverse n hdiv (by omega)]
    omega

/-- A digit before `n` others. -/
theorem digits_cons : ∀ (n : ℕ) {fuel fuel' c r : ℕ}, 0 < c → c < 16 → r < 16 ^ n → n + 1 ≤ fuel → n ≤ fuel' →
    digits 16 0 fuel (c * 16 ^ n + r) = c :: digits 16 n fuel' r
  | 0, fuel + 1, fuel', c, r, hc, hc', hr, _, _ => by
    rw [pow_zero, Nat.lt_one_iff] at hr
    subst hr
    rw [digits, if_neg (by omega), pow_zero, Nat.mul_one, Nat.add_zero, Nat.div_eq_of_lt hc', digits_zero,
      Nat.mod_eq_of_lt hc', digits_zero]
    rfl
  | n + 1, fuel + 1, fuel' + 1, c, r, hc, hc', hr, hf, hf' => by
    have hdiv : r / 16 < 16 ^ n := Nat.div_lt_of_lt_mul (by rwa [Nat.mul_comm, ← pow_succ])
    have hsplit : c * 16 ^ (n + 1) = 16 * (c * 16 ^ n) := by
      rw [pow_succ]
      ring
    have hA : (c * 16 ^ (n + 1) + r) / 16 = c * 16 ^ n + r / 16 := by omega
    have hm : (c * 16 ^ (n + 1) + r) % 16 = r % 16 := by omega
    have hpos : 0 < c * 16 ^ (n + 1) := Nat.mul_pos hc (pow_pos (by decide) _)
    rw [digits, if_neg (by omega), digits, if_neg (by omega), hA, hm, Nat.add_sub_cancel, Nat.zero_sub,
      digits_cons n hc hc' hdiv (by omega) (by omega : n ≤ fuel')]
    rfl

theorem pubkeyText_eq (n : ℕ) {c r : ℕ} (hc : 0 < c) (hc' : c < 16) (hr : r < 16 ^ n) :
    ∃ l, pubkeyText (c * 16 ^ n + r) = some (hexText l) ∧ l.length = n ∧ Nat.ofDigits 16 l.reverse = r := by
  have hn : n < 16 ^ n := Nat.lt_pow_self (by decide)
  have hle : 16 ^ n ≤ c * 16 ^ n := Nat.le_mul_of_pos_left _ hc
  refine ⟨digits 16 n n r, ?_, digits_length n hr le_rfl, ofDigits_digits_reverse n hr le_rfl⟩
  unfold pubkeyText hexDigits
  rw [digits_cons n hc hc' hr (by omega) (le_refl n)]

/-- The text of the public key of a pair that the agent made. -/
theorem pubkeyText_compressPoint (pt : ℕ × ℕ) :
    ∃ l, pubkeyText (compressPoint pt) = some (hexText l) ∧ l.length = 64 ∧
      Nat.ofDigits 16 l.reverse = compressPoint pt % 2 ^ 256 := by
  have hpow : 2 ^ 256 = 16 ^ 64 := by rw [show 16 = 2 ^ 4 from rfl, ← pow_mul]
  have hr : pt.1 % 2 ^ 256 < 2 ^ 256 := Nat.mod_lt _ (by positivity)
  have hmod : compressPoint pt % 2 ^ 256 = pt.1 % 2 ^ 256 := by
    unfold compressPoint
    rw [Nat.mul_add_mod_of_lt hr]
  rw [hmod]
  unfold compressPoint
  rw [hpow] at hr ⊢
  exact pubkeyText_eq 64 (by omega) (by omega) hr

/-! ### Cards without events -/

@[simp]
theorem sentEvents_nil : sentEvents [] = [] := rfl

@[simp]
theorem sentEvents_append (cs ds : List Card) : sentEvents (cs ++ ds) = sentEvents cs ++ sentEvents ds :=
  List.filterMap_append

theorem sentEvents_cons (c : Card) (cs : List Card) : sentEvents (c :: cs) = c.sent.toList ++ sentEvents cs := by
  unfold sentEvents
  rw [List.filterMap_cons]
  cases c.sent <;> rfl

theorem sentEvents_map_eq_nil {α : Type} {f : α → Card} (h : ∀ x, (f x).sent = none) (l : List α) :
    sentEvents (l.map f) = [] := by
  unfold sentEvents
  rw [List.filterMap_map]
  exact List.filterMap_eq_nil_iff.mpr fun x _ => h x

/-- Whatever comes of it, no event is sent. -/
def Quiet (o : Outcome) : Prop := ∀ cs st', o = some (cs, st') → sentEvents cs = []

theorem Quiet.none : Quiet Option.none := fun _ _ h => by cases h

theorem Quiet.some {r : List Card × State} (h : sentEvents r.1 = []) : Quiet (some r) := by
  intro cs st' he
  rw [Option.some.inj he] at h
  exact h

theorem Quiet.map {α : Type} {o : Option α} {f : α → List Card × State} (h : ∀ x, sentEvents (f x).1 = []) :
    Quiet (o.map f) := by
  cases o with
  | none => exact .none
  | some x => exact .some (h x)

section

variable {S : Sys} {B : Bowl} {st : State}

@[simp]
theorem sentEvents_tellAll (f : PostFact) : sentEvents (tellAll f) = [] := rfl

@[simp]
theorem sentEvents_tellUi (f : PostFact) : sentEvents (tellUi f) = [] := rfl

@[simp]
theorem sentEvents_mentionCards (p : Post) : sentEvents (mentionCards S p) = [] :=
  sentEvents_map_eq_nil (fun _ => rfl) _

@[simp]
theorem sentEvents_request (wid : ℕ) (relay : RelayStats) (name : String) (fs : List Filter) (ongoing : Option Bool)
    (chunked : List Filter) : sentEvents (request B wid relay name fs ongoing chunked).1 = [] := rfl

theorem sentEvents_unfollowUser (wid : ℕ) (relay : RelayStats) (pubkey : ℕ) :
    sentEvents (unfollowUser S wid relay pubkey).1 = [] := by
  unfold unfollowUser
  split <;> rfl

theorem sentEvents_getProfiles {wid : ℕ} {relay : RelayStats} {d : List Card × RelayStats}
    (h : getProfiles S B st wid relay = some d) : sentEvents d.1 = [] := by
  unfold getProfiles at h
  split at h
  · cases h
  · rw [← Option.some.inj h]
    rfl

theorem quiet_handleDelOurs (id : Id) : Quiet (handleDelOurs S B st id) := by
  unfold handleDelOurs
  split
  · exact .some rfl
  · refine .map fun isRef => ?_
    split
    · rfl
    · split
      · rfl
      · split <;> rfl

theorem quiet_handleEng (e : Eng) : Quiet (handleEng S B st e) := by
  have hpost : ∀ id g, Quiet (some (engPost B st e id g)) := by
    intro id g
    refine .some ?_
    unfold engPost
    split <;> rfl
  cases e with
  | mention => exact .some rfl
  | quote => exact hpost _ _
  | rp => exact hpost _ _
  | reaction => exact hpost _ _
  | delQuote => exact hpost _ _
  | reply parent child =>
    show Quiet (engReply B st parent child)
    unfold engReply
    split
    · exact .some rfl
    · refine .map fun st' => ?_
      split <;> rfl
  | delReply src child =>
    show Quiet (engDelReply S B st child)
    unfold engDelReply
    split
    · exact .some rfl
    · split
      · exact .some rfl
      · split
        · exact .some rfl
        · show Quiet (if B.our = B.our then handleDelOurs S B st child else _)
          rw [if_pos rfl]
          exact quiet_handleDelOurs child

theorem quiet_relayGet (tid : String) (rg : RelayGet) (wids : List ℕ) {r : List Card × State}
    (h : sentEvents r.1 = []) :
    Quiet (relayGet B tid rg wids r) := by
  induction wids generalizing r with
  | nil => exact .some h
  | cons wid wids ih =>
    unfold relayGet
    split
    · exact ih h
    · cases rg with
      | sync =>
        refine ih ?_
        show sentEvents (_ :: ((getPosts B wid _).1 ++ r.1)) = []
        rw [sentEvents_cons, sentEvents_append, h]
        rfl
      | prof => exact .none
      | user => exact .none
      | thread => exact .none

theorem quiet_relaAll (rg : RelayGet) (wids : List ℕ) {r : List Card × State} (h : sentEvents r.1 = []) :
    Quiet (relaAll S B rg wids r) := by
  induction wids generalizing r with
  | nil => exact .some h
  | cons wid wids ih =>
    unfold relaAll
    split
    · exact ih h
    · rename_i relay _
      cases hd : relaOne S B r.2 wid relay rg with
      | none => exact .none
      | some d =>
        refine ih ?_
        have hquiet : sentEvents d.1 = [] := by
          cases rg with
          | prof => exact sentEvents_getProfiles hd
          | user => rw [← Option.some.inj hd]; rfl
          | thread => rw [← Option.some.inj hd]; rfl
          | sync => rw [← Option.some.inj hd]; rfl
        show sentEvents (r.1 ++ d.1) = []
        rw [sentEvents_append, h, hquiet]
        rfl

theorem quiet_handleWs (wid : ℕ) (relay : RelayStats) (m : RelayMsg) : Quiet (handleWs S B st wid relay m) := by
  cases m with
  | ok => exact .some rfl
  | closed => exact .some rfl
  | auth => exact .some rfl
  | notice => exact .some rfl
  | event subId ev =>
    refine .some ?_
    unfold handleEvent
    split
    · rfl
    · dsimp only
      split <;> rfl
  | eose subId =>
    show Quiet (handleEose S B st wid relay subId)
    unfold handleEose
    split
    · exact .some rfl
    · rename_i req _
      cases hd : eoseFacts S B st wid relay req with
      | none => exact .none
      | some d =>
        refine .some ?_
        have h1 : sentEvents d.1 = [] := by
          unfold eoseFacts at hd
          split at hd
          · obtain ⟨d', hd', rfl⟩ := Option.map_eq_some_iff.mp hd
            rw [sentEvents_cons, sentEvents_getProfiles hd']
            rfl
          · split at hd
            · rw [← Option.some.inj hd]
              rfl
            · split at hd
              · rw [← Option.some.inj hd]
                rfl
              · rw [← Option.some.inj hd]
                dsimp only
                split <;> rfl
        have h2 : sentEvents (eoseNext B wid d.2 req).1 = [] := by
          unfold eoseNext
          split <;> rfl
        have h3 : ∀ relay', sentEvents (eoseLast wid relay' subId req).1 = [] := by
          intro relay'
          unfold eoseLast
          split <;> rfl
        show sentEvents (_ ++ (d.1 ++ (_ ++ _))) = []
        rw [sentEvents_append, sentEvents_append, sentEvents_append, h1, h2, h3]
        rfl

theorem quiet_debug {d : Debug} (h : ∀ t, d ≠ .wsgp t) : Quiet (debug S B st d) := by
  cases d with
  | wsgp t => exact absurd rfl (h t)
  | crash => exact .none
  | wsms t =>
    refine .some ?_
    dsimp only
    rw [← List.map_reverse]
    exact sentEvents_map_eq_nil (fun _ => rfl) _
  | wsc => exact .some (sentEvents_map_eq_nil (fun _ => rfl) _)
  | kick => exact .some (sentEvents_map_eq_nil (fun _ => rfl) _)
  | leave => exact .some (sentEvents_map_eq_nil (fun _ => rfl) _)
  | tedt tid =>
    cases tid <;> exact .some rfl
  | wsUi t =>
    show Quiet ((wsUi S B t).map fun cs => (cs, st))
    unfold wsUi
    split
    · rw [Option.map_map]
      exact .map fun _ => rfl
    · exact .some rfl
  | _ => exact .some rfl

theorem quiet_handlePost {p : PostPoke} (hadd : ∀ content anon, p ≠ .add content true anon)
    (hreply : ∀ content h id thread, p ≠ .reply content (.nostr h) id thread) : Quiet (handlePost S B st p) := by
  cases p with
  | add content global anon =>
    cases global with
    | true => exact absurd rfl (hadd content anon)
    | false =>
      show Quiet (handleAddPost S B st content false)
      unfold handleAddPost
      cases buildSp S B.our B.our content none none with
      | none => exact .none
      | some sp => exact .some (by simp)
  | reply content host id thread =>
    cases host with
    | nostr h => exact absurd rfl (hreply content h id thread)
    | urbit h =>
      show Quiet (handleReply S B st content (.urbit h) id thread)
      unfold handleReply
      dsimp only
      cases buildSp S h B.our content (some id) (some thread) with
      | none => exact .none
      | some sp =>
        refine .map fun st' => ?_
        simp [sentEvents_cons, Card.sent]
  | quote content host id =>
    refine .map fun sp => ?_
    cases host <;> simp [sentEvents_cons, Card.sent]
  | rp host id =>
    refine .map fun sp => ?_
    cases host <;> simp [sentEvents_cons, Card.sent]
  | reaction host id reaction =>
    show Quiet (handleReaction B st host id reaction)
    unfold handleReaction
    dsimp only
    split
    · exact .map fun p => by simp [sentEvents_cons, Card.sent]
    · split <;> exact .some rfl
  | del host id =>
    cases host with
    | nostr => exact .some rfl
    | urbit h =>
      show Quiet (if B.our = h then handleDelOurs S B st id else handleDelTheirs S B st h id)
      split
      · exact quiet_handleDelOurs id
      · unfold handleDelTheirs
        split
        · exact .some rfl
        · split
          · exact .some rfl
          · refine .map fun isRef => ?_
            split <;> rfl

theorem quiet_handleAdd (user : User) : Quiet (handleAdd S B st user) := by
  unfold handleAdd
  split
  · exact .some rfl
  · split
    · exact .some rfl
    · exact .some rfl

theorem quiet_handleDel (user : User) : Quiet (handleDel S B st user) := by
  unfold handleDel
  dsimp only
  split
  · exact .some rfl
  · split
    · exact .some rfl
    · split
      · exact .some rfl
      · refine .some ?_
        rw [sentEvents_cons, sentEvents_unfollowUser]
        rfl

/-! ### Cards with an event -/

/-- A draft is what is sent: nothing without one; and with one, its event and no other, or a crash if it has none. -/
structure Publishes (S : Sys) (B : Bowl) (st : State) (d : Option Draft) (o : Outcome) : Prop where
  quiet : d = none → Quiet o
  crash : ∀ x, d = some x → x.event S st.keys B.eny = none → o = none
  sends : ∀ x ev, d = some x → x.event S st.keys B.eny = some ev →
    ∃ cs st', o = some (cs, st') ∧ (∀ e ∈ sentEvents cs, e = ev) ∧ ev ∈ sentEvents cs

theorem Publishes.of_quiet {o : Outcome} (h : Quiet o) : Publishes S B st none o :=
  ⟨fun _ => h, fun _ he => (by cases he), fun _ _ he => (by cases he)⟩

/-- An outcome made from the event of a draft. -/
theorem Publishes.of_event {d : Draft} {f : Event → List Card × State}
    (h : ∀ ev, (∀ e ∈ sentEvents (f ev).1, e = ev) ∧ ev ∈ sentEvents (f ev).1) :
    Publishes S B st (some d) ((d.event S st.keys B.eny).map f) := by
  refine ⟨fun he => (by cases he), fun x hx hn => ?_, fun x ev hx hev => ?_⟩
  · obtain rfl := Option.some.inj hx
    rw [hn]
    rfl
  · obtain rfl := Option.some.inj hx
    rw [hev]
    exact ⟨(f ev).1, (f ev).2, rfl, h ev⟩

theorem Draft.event_plain (keys : Keys) (eny : ℕ) (raw : RawEvent) :
    (Draft.plain raw).event S keys eny = hashAndSign S keys eny raw := by
  unfold Draft.event Draft.plain hashAndSign
  rw [Option.map_map]
  rfl

theorem postToEvent_eq (keys : Keys) (eny : ℕ) (p : Post) (kind : ℕ) (tags : List (List String)) :
    postToEvent S keys eny p kind tags = (postRaw S keys p kind tags).bind (hashAndSign S keys eny) := by
  unfold postToEvent postRaw
  cases toUnixSecs p.id <;> rfl

theorem profileToEvent_eq (keys : Keys) (prof : UserProfile) (eny now : ℕ) :
    profileToEvent S keys prof eny now = (profileRaw S keys prof now).bind (hashAndSign S keys eny) := by
  unfold profileToEvent profileRaw
  cases toUnixSecs now <;> rfl

/-- An outcome made from the event of fields that are sent as they are hashed, if there are any. -/
theorem Publishes.of_raw {raw : Option RawEvent} {f : Event → List Card × State}
    (h : ∀ ev, (∀ e ∈ sentEvents (f ev).1, e = ev) ∧ ev ∈ sentEvents (f ev).1) :
    Publishes S B st (raw.map .plain) ((raw.bind (hashAndSign S st.keys B.eny)).map f) := by
  cases raw with
  | none => exact .of_quiet .none
  | some raw =>
    rw [Option.bind_some, ← Draft.event_plain]
    exact .of_event h

theorem sent_sendGlobal (ev : Event) : (sendGlobal B (.event ev)).sent = some ev := by
  unfold sendGlobal
  split <;> rfl

/-- The cards that send an event to relays. -/
theorem mem_sentEvents_relays {ev e : Event} {l : List (ℕ × RelayStats)}
    (h : e ∈ sentEvents (l.map fun r => sendCard r.1 (.event ev))) : e = ev := by
  unfold sentEvents at h
  rw [List.filterMap_map] at h
  obtain ⟨r, -, hr⟩ := List.mem_filterMap.mp h
  exact (Option.some.inj hr).symm

theorem publishes_global {content : String} {g : State → SentPost → Event → List Card × State} {o : Outcome}
    (ho : o = (buildSp S B.our B.our content none none).bind fun sp =>
      (postToEvent S st.keys B.eny (buildPost B.now st.keys.pub sp) 667 [["patp", S.scowP B.our]]).map (g st sp))
    (h : ∀ sp ev, (∀ e ∈ sentEvents (g st sp ev).1, e = ev) ∧ ev ∈ sentEvents (g st sp ev).1) :
    Publishes S B st ((globalRaw S B st content).map .plain) o := by
  rw [ho]
  unfold globalRaw
  cases buildSp S B.our B.our content none none with
  | none => exact .of_quiet .none
  | some sp =>
    rw [Option.bind_some, Option.bind_some, postToEvent_eq]
    exact .of_raw (h sp)

theorem publishes_handleRela (wids : List ℕ) (action : RelayOrder) :
    Publishes S B st (draft S B st (.json (some (.rela (.do wids action))))) (handleRela S B st wids action) := by
  cases action with
  | get rg =>
    refine .of_quiet ?_
    show Quiet ((relaAll S B rg wids ([], st)).map fun r => (.ui (.nostrRelays r.2.relays) :: r.1, r.2))
    cases hr : relaAll S B rg wids ([], st) with
    | none => exact .none
    | some r =>
      refine .some ?_
      rw [sentEvents_cons, quiet_relaAll rg wids rfl r.1 r.2 hr]
      rfl
  | sendProf =>
    show Publishes S B st
      ((st.profiles.lookup (.urbit B.src)).bind fun prof => (profileRaw S st.keys prof B.now).map Draft.plain)
      ((sendProf S B st wids).map fun cs => (cs, st))
    unfold sendProf
    cases st.profiles.lookup (.urbit B.src) with
    | none => exact .of_quiet (.some rfl)
    | some prof =>
      rw [Option.bind_some]
      dsimp only
      rw [profileToEvent_eq, Option.map_map]
      refine .of_raw fun ev => ⟨fun e he => ?_, ?_⟩
      · change e ∈ sentEvents (_ :: _ :: _) at he
        rw [sentEvents_cons, sentEvents_cons, sent_sendGlobal] at he
        rcases List.mem_cons.mp he with rfl | he
        · rfl
        · exact mem_sentEvents_relays he
      · change ev ∈ sentEvents (_ :: _ :: _)
        rw [sentEvents_cons, sentEvents_cons, sent_sendGlobal]
        exact List.mem_cons_self
  | sendPost host id =>
    show Publishes S B st
      (if connected st wids = [] then none
        else (getPoast B st host id).bind fun p => (postRaw S st.keys p 1 []).map Draft.plain)
      ((sendPost S B st wids host id).map fun cs => (cs, st))
    unfold sendPost
    cases getPoast B st host id with
    | none =>
      have hnone : (if connected st wids = [] then none
          else (none : Option Post).bind fun p => (postRaw S st.keys p 1 []).map Draft.plain) = none := by
        split <;> rfl
      rw [hnone]
      exact .of_quiet (.some rfl)
    | some p =>
      dsimp only
      rw [postToEvent_eq, Option.map_map]
      split
      · rename_i hc
        refine .of_quiet (.map fun ev => ?_)
        show sentEvents (_ :: (connected st wids).map _) = []
        rw [hc]
        rfl
      · rename_i hc
        obtain ⟨r, l, hl⟩ := List.exists_cons_of_ne_nil hc
        refine .of_raw fun ev => ⟨fun e he => ?_, ?_⟩
        · change e ∈ sentEvents (_ :: _) at he
          rw [sentEvents_cons] at he
          exact mem_sentEvents_relays he
        · change ev ∈ sentEvents (_ :: (connected st wids).map _)
          rw [hl, List.map_cons, sentEvents_cons, sentEvents_cons]
          exact List.mem_cons_self

theorem publishes_handleReplyNostr (content : String) (id : Id) :
    Publishes S B st
      ((getRelay S st).bind fun r =>
        (toUnixSecs B.now).map fun ts =>
          ⟨⟨st.keys.pub, ts, 1, [], content⟩, [["e", hexText (hexDigits 0 id), r.2.url, "reply"]]⟩)
      (handleReplyNostr S B st content id) := by
  unfold handleReplyNostr buildEvent
  cases getRelay S st with
  | none => exact .of_quiet (.some rfl)
  | some r =>
    cases toUnixSecs B.now with
    | none => exact .of_quiet .none
    | some ts =>
      have hmap : (hashAndSign S st.keys B.eny ⟨st.keys.pub, ts, 1, [], content⟩).map (fun ev =>
            ([sendCard r.1 (.event { ev with tags := [["e", hexText (hexDigits 0 id), r.2.url, "reply"]] })], st)) =
          (Draft.event S st.keys B.eny
            ⟨⟨st.keys.pub, ts, 1, [], content⟩, [["e", hexText (hexDigits 0 id), r.2.url, "reply"]]⟩).map
              fun ev => ([sendCard r.1 (.event ev)], st) := by
        unfold Draft.event
        rw [Option.map_map]
        rfl
      show Publishes S B st (some _) (Option.map _ _)
      rw [Option.bind_some, hmap]
      exact .of_event fun ev => ⟨fun e he => List.mem_singleton.mp he, List.mem_singleton_self ev⟩

/-- **What a poke sends** is its draft. -/
theorem onPoke_publishes (poke : Poke) : Publishes S B st (draft S B st poke) (onPoke S B st poke) := by
  cases poke with
  | noun p =>
    cases p with
    | none => exact .of_quiet (.some rfl)
    | some p =>
      cases p with
      | eng e => exact .of_quiet (quiet_handleEng e)
      | ted wid w => exact .of_quiet (.some (by cases w <;> rfl))
      | dbug d =>
        by_cases hd : ∃ t, d = .wsgp t
        · obtain ⟨t, rfl⟩ := hd
          refine publishes_global (g := fun st _ ev => ([sendGlobal B (.event ev)], st)) rfl fun sp ev => ?_
          rw [sentEvents_cons, sent_sendGlobal]
          exact ⟨fun e he => List.mem_singleton.mp he, List.mem_singleton_self ev⟩
        · have hnone : draft S B st (.noun (some (.dbug d))) = none := by
            cases d with
            | wsgp t => exact absurd ⟨t, rfl⟩ hd
            | _ => rfl
          rw [hnone]
          exact .of_quiet (quiet_debug fun t ht => hd ⟨t, ht⟩)
  | json p =>
    cases p with
    | none => exact .of_quiet (.some rfl)
    | some p =>
      cases p with
      | keys => exact .of_quiet (.some rfl)
      | begs => exact .of_quiet (.some rfl)
      | fols p =>
        cases p with
        | add user => exact .of_quiet (quiet_handleAdd user)
        | del user => exact .of_quiet (quiet_handleDel user)
      | prof p =>
        cases p with
        | del => exact .of_quiet (.some rfl)
        | fetch => exact .of_quiet (.some rfl)
        | add um =>
          show Publishes S B st ((profileRaw S st.keys { defaultProfile S B st with userMeta := um } B.now).map .plain)
            ((profileToEvent S st.keys { defaultProfile S B st with userMeta := um } B.eny B.now).map _)
          rw [profileToEvent_eq]
          refine .of_raw fun ev => ?_
          rw [sentEvents_cons, sentEvents_cons, sent_sendGlobal]
          exact ⟨fun e he => List.mem_singleton.mp he, List.mem_singleton_self ev⟩
      | rela p =>
        cases p with
        | add url => exact .of_quiet (.some rfl)
        | del wid => exact .of_quiet (.some rfl)
        | «do» wids action => exact publishes_handleRela wids action
      | post p =>
        cases p with
        | add content global anon =>
          cases global with
          | false =>
            exact .of_quiet (quiet_handlePost (p := .add content false anon) (fun _ _ h => by cases h)
              fun _ _ _ _ h => by cases h)
          | true =>
            refine publishes_global (g := fun st sp ev =>
              ([.ui (.nostrSentPost (buildPost B.now st.keys.pub sp).host (buildPost B.now st.keys.pub sp).id
                [globalRelay] ev), sendGlobal B (.event ev)] ++
                (mentionCards S (buildPost B.now st.keys.pub sp) ++
                  tellUi
                    (.add (wrapPost B (addToFeed B st (buildPost B.now st.keys.pub sp))
                      (buildPost B.now st.keys.pub sp)))),
                addToFeed B st (buildPost B.now st.keys.pub sp))) ?_ fun sp ev => ?_
            · show handleAddPost S B st content true = _
              unfold handleAddPost
              simp only [addToFeed_keys]
              rfl
            · rw [sentEvents_append, sentEvents_append, sentEvents_mentionCards, sentEvents_tellUi, sentEvents_cons,
                sentEvents_cons, sent_sendGlobal]
              exact ⟨fun e he => List.mem_singleton.mp he, List.mem_singleton_self ev⟩
        | reply content host id thread =>
          cases host with
          | urbit h =>
            exact .of_quiet (quiet_handlePost (p := .reply content (.urbit h) id thread) (fun _ _ h => by cases h)
              fun _ _ _ _ h => by cases h)
          | nostr h => exact publishes_handleReplyNostr content id
        | quote content host id =>
          exact .of_quiet (quiet_handlePost (p := .quote content host id) (fun _ _ h => by cases h)
            fun _ _ _ _ h => by cases h)
        | rp host id =>
          exact .of_quiet (quiet_handlePost (p := .rp host id) (fun _ _ h => by cases h) fun _ _ _ _ h => by cases h)
        | reaction host id reaction =>
          exact .of_quiet (show Quiet (handlePost S B st (.reaction host id reaction)) from
            quiet_handlePost (fun _ _ h => by cases h) fun _ _ _ _ h => by cases h)
        | del host id =>
          exact .of_quiet (quiet_handlePost (p := .del host id) (fun _ _ h => by cases h) fun _ _ _ _ h => by cases h)
  | nostrillTed t =>
    cases t with
    | req tid wids rg => exact .of_quiet (quiet_relayGet tid rg wids rfl)
    | res => exact .of_quiet (.some rfl)
  | clientMessage wid msg =>
    refine .of_quiet ?_
    show Quiet (handleRelayWs S B st wid msg)
    unfold handleRelayWs
    split
    · exact quiet_handleWs _ _ _
    · exact .some rfl
  | handshake wid url authenticated =>
    refine .of_quiet (.some ?_)
    unfold handleHandshake
    split <;> rfl
  | serverMessage wid path msg parsed =>
    refine .of_quiet (.some ?_)
    unfold handleServerMsg
    split
    · rfl
    · split
      · rfl
      · split
        · split <;> rfl
        · rfl
  | other => exact .of_quiet (.some rfl)

/-! ### Verification -/

/-- Every draft is in our name. -/
theorem draft_pubkey {poke : Poke} {d : Draft} (h : draft S B st poke = some d) : d.raw.pubkey = st.keys.pub := by
  have hpost : ∀ {p : Post} {kind : ℕ} {tags : List (List String)} {raw : RawEvent},
      postRaw S st.keys p kind tags = some raw → raw.pubkey = st.keys.pub := by
    intro p kind tags raw hr
    obtain ⟨ts, -, rfl⟩ := Option.map_eq_some_iff.mp hr
    rfl
  have hglobal : ∀ {content : String}, (globalRaw S B st content).map Draft.plain = some d →
      d.raw.pubkey = st.keys.pub := by
    intro content hd
    obtain ⟨raw, hraw, rfl⟩ := Option.map_eq_some_iff.mp hd
    obtain ⟨sp, -, hr⟩ := Option.bind_eq_some_iff.mp hraw
    exact hpost hr
  have hprof : ∀ {prof : UserProfile}, (profileRaw S st.keys prof B.now).map Draft.plain = some d →
      d.raw.pubkey = st.keys.pub := by
    intro prof hd
    obtain ⟨raw, hraw, rfl⟩ := Option.map_eq_some_iff.mp hd
    obtain ⟨ts, -, rfl⟩ := Option.map_eq_some_iff.mp hraw
    rfl
  unfold draft at h
  split at h
  · exact hglobal h
  · exact hglobal h
  · obtain ⟨r, -, hr⟩ := Option.bind_eq_some_iff.mp h
    obtain ⟨ts, -, rfl⟩ := Option.map_eq_some_iff.mp hr
    rfl
  · exact hprof h
  · obtain ⟨prof, -, hr⟩ := Option.bind_eq_some_iff.mp h
    exact hprof hr
  · split at h
    · cases h
    · obtain ⟨p, -, hr⟩ := Option.bind_eq_some_iff.mp h
      obtain ⟨raw, hraw, rfl⟩ := Option.map_eq_some_iff.mp hr
      exact hpost hraw
  · cases h

/-- The event of a draft under keys that the agent made. -/
theorem Draft.event_keys {d : Draft} {keys : Keys} {eny : ℕ} (hkeys : ∃ e, keys = genKeys S e)
    (hpub : d.raw.pubkey = keys.pub) :
    ∃ a, digestOf S d.raw = some a ∧ a < 2 ^ 256 ∧
      d.event S keys eny =
        some ⟨swp a, keys.pub, d.raw.createdAt, d.raw.kind, d.tags, d.raw.content, signEvent S keys.priv
          (swp a) eny⟩ := by
  obtain ⟨e, rfl⟩ := hkeys
  obtain ⟨l, hl, -, -⟩ := pubkeyText_compressPoint (S.privToPub (S.privkey e))
  have hjson : ∃ j, rawEventJson d.raw = some j := by
    unfold rawEventJson
    rw [hpub]
    exact ⟨_, by rw [show (genKeys S e).pub = compressPoint (S.privToPub (S.privkey e)) from rfl, hl]; rfl⟩
  obtain ⟨j, hj⟩ := hjson
  refine ⟨S.shax (S.enJson j), by unfold digestOf; rw [hj]; rfl, S.shax_lt _, ?_⟩
  unfold Draft.event hashAndSign hashEvent
  rw [hj]
  rfl

/-- A draft's event verifies exactly when the draft fits. -/
theorem Draft.verifies_iff {d : Draft} {keys : Keys} {eny : ℕ} {ev : Event} (hkeys : ∃ e, keys = genKeys S e)
    (hpub : d.raw.pubkey = keys.pub) (hev : d.event S keys eny = some ev) : Verifies S ev ↔ DraftFits S d := by
  obtain ⟨a, ha, hlt, hev'⟩ := d.event_keys hkeys hpub
  obtain rfl := Option.some.inj (hev'.symm.trans hev)
  obtain ⟨e, rfl⟩ := hkeys
  have hraw : Event.raw ⟨swp a, (genKeys S e).pub, d.raw.createdAt, d.raw.kind, d.tags, d.raw.content,
      signEvent S (genKeys S e).priv (swp a) eny⟩ = { d.raw with tags := d.tags } := by
    unfold Event.raw
    rw [← hpub]
  have hid : Verifies S ⟨swp a, (genKeys S e).pub, d.raw.createdAt, d.raw.kind, d.tags, d.raw.content,
      signEvent S (genKeys S e).priv (swp a) eny⟩ ↔
        (digestOf S { d.raw with tags := d.tags }).map digestNumber = some (swp a) := by
    constructor
    · intro h
      rw [← hraw]
      exact h.id
    · intro h
      refine ⟨by rw [hraw]; exact h, ⟨S.privkey e, S.raws eny, rfl, rfl⟩, ?_⟩
      exact pubkeyText_compressPoint (S.privToPub (S.privkey e))
  rw [hid]
  unfold DraftFits
  simp only [ha, Option.some.injEq, forall_eq']
  split
  · rename_i htags
    rw [htags]
    show (digestOf S d.raw).map digestNumber = some (swp a) ↔ _
    rw [ha, Option.map_some, Option.some.injEq, swp_eq_iff hlt]
  · exact Iff.rfl

/-- **Everything that a poke has sent verifies** exactly when its draft fits. -/
theorem onPoke_verifies_iff (S : Sys) (B : Bowl) (st : State) (poke : Poke) (hkeys : ∃ e, st.keys = genKeys S e) :
    (∀ cs st', onPoke S B st poke = some (cs, st') → ∀ ev ∈ sentEvents cs, Verifies S ev) ↔
      ∀ d, draft S B st poke = some d → DraftFits S d := by
  obtain ⟨hquiet, -, hsends⟩ := @onPoke_publishes S B st poke
  constructor
  · intro h d hd
    obtain ⟨a, -, -, hev⟩ := d.event_keys hkeys (draft_pubkey hd)
    obtain ⟨cs, st', hrun, -, hmem⟩ := hsends d _ hd hev
    exact (Draft.verifies_iff hkeys (draft_pubkey hd) hev).mp (h cs st' hrun _ hmem)
  · intro h cs st' hrun ev hmem
    cases hd : draft S B st poke with
    | none =>
      rw [hquiet hd cs st' hrun] at hmem
      cases hmem
    | some d =>
      obtain ⟨a, -, -, hev⟩ := d.event_keys hkeys (draft_pubkey hd)
      obtain ⟨cs', st'', hrun', hall, -⟩ := hsends d _ hd hev
      obtain ⟨rfl, -⟩ := Prod.mk.inj (Option.some.inj (hrun.symm.trans hrun'))
      rw [hall ev hmem]
      exact (Draft.verifies_iff hkeys (draft_pubkey hd) hev).mpr (h d hd)

end

/-! ### On fixed inputs -/

theorem digestOf_plain {raw : RawEvent} {a : ℕ} (h : digestOf .plain raw = some a) : 2 ^ 248 ≤ a := by
  obtain ⟨j, -, rfl⟩ := Option.map_eq_some_iff.mp h
  show 2 ^ 248 ≤ 2 ^ 255 + _
  omega

/-- A post sent to the global relay verifies. -/
theorem onPoke_verifies_post :
    ∃ r, onPoke .plain (.plain 0) (defaultState .plain 1) (.json (some (.post (.add "hi" true false)))) = some r ∧
      ∀ ev ∈ sentEvents r.1, Verifies .plain ev := by
  have hkeys : ∃ e, (defaultState .plain 1).keys = genKeys .plain e := ⟨1, rfl⟩
  have hraw : (globalRaw .plain (.plain 0) (defaultState .plain 1) "hi").isSome := by decide
  obtain ⟨raw, hraw⟩ := Option.isSome_iff_exists.mp hraw
  have hd : draft .plain (.plain 0) (defaultState .plain 1) (.json (some (.post (.add "hi" true false)))) =
      some (.plain raw) := congrArg (Option.map Draft.plain) hraw
  obtain ⟨a, -, -, hev⟩ := (Draft.plain raw).event_keys hkeys (draft_pubkey hd)
  obtain ⟨-, -, hsends⟩ := @onPoke_publishes .plain (.plain 0) (defaultState .plain 1)
    (.json (some (.post (.add "hi" true false))))
  obtain ⟨cs, st', hrun, -⟩ := hsends _ _ hd hev
  refine ⟨(cs, st'), hrun, (onPoke_verifies_iff .plain (.plain 0) (defaultState .plain 1) _ hkeys).mpr
    (fun d hd' => ?_) cs st' hrun⟩
  obtain rfl := Option.some.inj (hd.symm.trans hd')
  unfold DraftFits
  rw [if_pos (show (Draft.plain raw).tags = (Draft.plain raw).raw.tags from rfl)]
  exact fun a ha => .inr (digestOf_plain ha)

/-- Digests of 32 bytes turned around are different when they are. -/
theorem swp_inj {a b : ℕ} (ha : 2 ^ 248 ≤ a) (ha' : a < 2 ^ 256) (hb : 2 ^ 248 ≤ b) (hb' : b < 2 ^ 256)
    (h : swp a = swp b) : a = b := by
  have hlen : ∀ {x : ℕ}, 2 ^ 248 ≤ x → x < 2 ^ 256 → (Nat.digits 256 x).length = 32 := by
    intro x hx hx'
    have h31 : 31 < (Nat.digits 256 x).length := (Nat.lt_digits_length_iff (by decide) x).mpr (by
      calc 256 ^ 31 = 2 ^ 248 := by norm_num
        _ ≤ x := hx)
    have h32 : (Nat.digits 256 x).length ≤ 32 := (Nat.digits_length_le_iff (by decide) x).mpr (by
      calc x < 2 ^ 256 := hx'
        _ = 256 ^ 32 := by norm_num)
    omega
  have hdig : ∀ x, ∀ y ∈ (Nat.digits 256 x).reverse, y < 256 := fun x y hy =>
    Nat.digits_lt_base (by decide) (List.mem_reverse.mp hy)
  have hrev := Nat.ofDigits_inj_of_len_eq (by decide)
    (by rw [List.length_reverse, List.length_reverse, hlen ha ha', hlen hb hb'])
    (hdig a) (hdig b) h
  exact Nat.digits_inj_iff.mp (List.reverse_injective hrev)

/-- The tags lengthen the text of an event. -/
theorem print_tags_length (x0 x1 x2 x3 x5 : Json) (tags : List Json) :
    (Json.arr [x0, x1, x2, x3, .arr tags, x5]).print.length =
      (Json.arr [x0, x1, x2, x3, .arr [], x5]).print.length + (Json.printAll tags).length := by
  have h0 : "".length = 0 := rfl
  simp only [Json.print, Json.printAll, String.length_append]
  omega

/-- A state with a relay. -/
def nosRelay : State := { defaultState .plain 1 with relays := Finmap.singleton 3 ⟨0, "wss://nos.lol", ∅⟩ }

/-- A reply to a user of nostr is sent with a tag that was not hashed. -/
theorem reply_fails_check :
    ¬ ∀ cs st', onPoke .plain (.plain 0) nosRelay (.json (some (.post (.reply "hi" (.nostr 7) 0 0)))) = some (cs, st') →
      ∀ ev ∈ sentEvents cs, Verifies .plain ev := by
  intro h
  have hrelay : getRelay .plain nosRelay = some (3, ⟨0, "wss://nos.lol", ∅⟩) := by
    have hkeys : nosRelay.relays.keys = {3} := Finmap.keys_singleton 3 _
    unfold getRelay
    rw [hkeys, show Sys.plain.tapNat {3} = [3] from Finset.sort_singleton _ 3]
    show (nosRelay.relays.lookup 3).map _ = _
    rw [show nosRelay.relays.lookup 3 = some ⟨0, "wss://nos.lol", ∅⟩ from Finmap.lookup_singleton_eq]
    rfl
  have hsecs : toUnixSecs (Bowl.plain 0).now = some 0 := by
    show (if epoch < epoch then none else some ((epoch - epoch) / 2 ^ 64)) = some 0
    rw [if_neg (Nat.lt_irrefl _), Nat.sub_self, Nat.zero_div]
  have hd : draft .plain (.plain 0) nosRelay (.json (some (.post (.reply "hi" (.nostr 7) 0 0)))) =
      some ⟨⟨nosRelay.keys.pub, 0, 1, [], "hi"⟩, [["e", "", "wss://nos.lol", "reply"]]⟩ := by
    show ((getRelay .plain nosRelay).bind fun r => (toUnixSecs (Bowl.plain 0).now).map _) = _
    rw [hrelay, hsecs]
    rfl
  obtain ⟨-, -, hsends⟩ := @onPoke_publishes .plain (.plain 0) nosRelay
    (.json (some (.post (.reply "hi" (.nostr 7) 0 0))))
  have hkeys : ∃ e, nosRelay.keys = genKeys .plain e := ⟨1, rfl⟩
  obtain ⟨a, ha, hlt, hev⟩ := Draft.event_keys hkeys (draft_pubkey hd)
  obtain ⟨cs, st', hrun, -, hmem⟩ := hsends _ _ hd hev
  have hfit := (Draft.verifies_iff hkeys (draft_pubkey hd) hev).mp (h cs st' hrun _ hmem)
  unfold DraftFits at hfit
  rw [if_neg (by simp)] at hfit
  -- the digests with and without the tag would be the same
  obtain ⟨b, hb, hba⟩ := Option.map_eq_some_iff.mp (hfit a ha)
  have hbig := digestOf_plain hb
  obtain ⟨j, hj, hbj⟩ := Option.map_eq_some_iff.mp hb
  have hblt : b < 2 ^ 256 := hbj ▸ Sys.plain.shax_lt _
  rw [(swp_eq_iff hblt).mpr (.inr hbig)] at hba
  have hab := swp_inj hbig hblt (digestOf_plain ha) hlt hba
  obtain ⟨j', hj', haj⟩ := Option.map_eq_some_iff.mp ha
  obtain ⟨p, hpk, rfl⟩ := Option.map_eq_some_iff.mp hj
  obtain ⟨p', hpk', rfl⟩ := Option.map_eq_some_iff.mp hj'
  obtain rfl := Option.some.inj (hpk.symm.trans hpk')
  have hlen := print_tags_length (.num 0) (.str p) (.num 0) (.num 1) (.str "hi")
    [.arr [.str "e", .str "", .str "wss://nos.lol", .str "reply"]]
  have hn : (Json.printAll [.arr [.str "e", .str "", .str "wss://nos.lol", .str "reply"]]).length = 32 := by
    simp only [Json.print, Json.printAll, String.length_append]
    rfl
  have hb2 : 2 ^ 255 + (Json.print (.arr [.num 0, .str p, .num 0, .num 1,
      .arr [.arr [.str "e", .str "", .str "wss://nos.lol", .str "reply"]], .str "hi"])).length % 2 ^ 255 = b := hbj
  have ha2 : 2 ^ 255 + (Json.print (.arr [.num 0, .str p, .num 0, .num 1, .arr [], .str "hi"])).length % 2 ^ 255 =
    a := haj
  omega

end Nostrill
end Ursockets

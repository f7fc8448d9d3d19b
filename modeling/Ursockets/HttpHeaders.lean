/-
# Headers on their way through the http drivers

The kernel's list of headers becomes a list in C (`vere/io/http.c`, `vere/io/cttp.c`): each header is
put before those so far, so the list comes out backwards. The server then leaves out the headers that
it writes itself, which it knows by the beginning of their names. What is received goes the other way,
from its end, and keeps its order.

A request is authenticated by the first place in its cookie header where the key comes before an `=`,
whatever comes before the key, and by the first 128 bytes that follow.

Key definitions: `hedsFromNoun`, `startHeaders`, `fireHeds`, `hedsToNoun`, `InOrder`, `scanCookie`, `reqIsAuth`,
`cookies`, `HasSession`, `firstStop`, `CookieFits`.
Key theorems: `hedsFromNoun_eq`, `startHeaders_eq`, `inOrder_iff`, `scanCookie_eq`, `stop_of_cookie`, `reqIsAuth_iff`.
-/
import Mathlib.Algebra.Order.Ring.Nat
import Mathlib.Data.Finset.Insert
import Mathlib.Data.List.GetD
import Mathlib.Data.List.TakeWhile
import Mathlib.Data.Nat.Digits.Defs
import Mathlib.Tactic.Common

namespace Ursockets
namespace HttpHeaders

/-- Bytes. -/
abbrev Text := List ℕ

/-- `u3_hhed`: a name and a value. -/
structure Hhed where
  nam : Text
  val : Text
  deriving DecidableEq

/-! ### From the kernel -/

/-- `_http_hed_new`, `_cttp_hed_new`: the bytes of two cords. -/
def hedNew (nam val : ℕ) : Hhed := ⟨Nat.digits 256 nam, Nat.digits 256 val⟩

/-- `_http_heds_from_noun`, `_cttp_heds_from_noun`: the loop, from the list made so far. -/
def hedsFrom : List (ℕ × ℕ) → List Hhed → List Hhed
  | [], hedU => hedU
  | i :: hed, hedU => hedsFrom hed (hedNew i.1 i.2 :: hedU)

def hedsFromNoun (hed : List (ℕ × ℕ)) : List Hhed := hedsFrom hed []

/-- The headers as they were given. -/
def given (hed : List (ℕ × ℕ)) : List Hhed := hed.map fun i => hedNew i.1 i.2

theorem hedsFrom_eq (hed : List (ℕ × ℕ)) (hedU : List Hhed) : hedsFrom hed hedU = (given hed).reverse ++ hedU := by
  induction hed generalizing hedU with
  | nil => rfl
  | cons i hed ih =>
    rw [hedsFrom, ih]
    simp [given]

/-- **The list in C is the kernel's, backwards.** -/
theorem hedsFromNoun_eq (hed : List (ℕ × ℕ)) : hedsFromNoun hed = (given hed).reverse := by
  rw [hedsFromNoun, hedsFrom_eq, List.append_nil]

/-! ### The server's response -/

/-- `h2o_strtolower` -/
def lower (t : Text) : Text := t.map fun c => if 65 ≤ c ∧ c ≤ 90 then c + 32 else c

/-- `strncmp(nam_c, lit, strlen(lit)) == 0` -/
def begins (lit nam : Text) : Bool := nam.take lit.length = lit

/-- `"connection"` and `"content-length"` -/
def connectionName : Text := [99, 111, 110, 110, 101, 99, 116, 105, 111, 110]

def lengthName : Text := [99, 111, 110, 116, 101, 110, 116, 45, 108, 101, 110, 103, 116, 104]

/-- The loop of `_http_start_respond`: whether there was a length, and the headers given to h2o so far. -/
def addHeaders (version : ℕ) : List Hhed → Bool × List Hhed → Bool × List Hhed
  | [], r => r
  | hed :: rest, (hasLen, res) =>
    let hed := if 0x200 ≤ version then { hed with nam := lower hed.nam } else hed
    if 0x200 ≤ version ∧ begins connectionName hed.nam then addHeaders version rest (hasLen, res)
    else if begins lengthName hed.nam then addHeaders version rest (true, res)
    else addHeaders version rest (hasLen, res ++ [hed])

/-- The headers of a response, as h2o is given them. -/
def startHeaders (version : ℕ) (headers : List (ℕ × ℕ)) : List Hhed :=
  (addHeaders version (hedsFromNoun headers) (false, [])).2

/-- A header as the version has it. -/
def asSent (version : ℕ) (hed : Hhed) : Hhed :=
  if 0x200 ≤ version then { hed with nam := lower hed.nam } else hed

/-- What the loop leaves out. -/
def dropped (version : ℕ) (hed : Hhed) : Bool :=
  (0x200 ≤ version ∧ begins connectionName hed.nam) ∨ begins lengthName hed.nam

/-- What h2o writes itself. -/
def replaced (version : ℕ) (hed : Hhed) : Bool := (0x200 ≤ version ∧ hed.nam = connectionName) ∨ hed.nam = lengthName

theorem addHeaders_eq (version : ℕ) (l : List Hhed) (b : Bool) (res : List Hhed) :
    (addHeaders version l (b, res)).2 = res ++ (l.map (asSent version)).filter fun h => !dropped version h := by
  induction l generalizing b res with
  | nil => exact (List.append_nil res).symm
  | cons hed l ih =>
    unfold addHeaders
    dsimp only
    rw [show (if 0x200 ≤ version then { hed with nam := lower hed.nam } else hed) = asSent version hed from rfl,
      List.map_cons]
    by_cases hc : 0x200 ≤ version ∧ begins connectionName (asSent version hed).nam = true
    · have hd : dropped version (asSent version hed) = true := decide_eq_true (.inl hc)
      rw [if_pos hc, ih, List.filter_cons_of_neg (by rw [hd]; decide)]
    · rw [if_neg hc]
      by_cases hl : begins lengthName (asSent version hed).nam = true
      · have hd : dropped version (asSent version hed) = true := decide_eq_true (.inr hl)
        rw [if_pos hl, ih, List.filter_cons_of_neg (by rw [hd]; decide)]
      · have hd : dropped version (asSent version hed) = false := decide_eq_false fun h => h.elim hc hl
        rw [if_neg hl, ih, List.filter_cons_of_pos (by rw [hd]; rfl), List.append_assoc, List.singleton_append]

/-- **What h2o is given**: the headers backwards, without those that begin like the ones it writes. -/
theorem startHeaders_eq (version : ℕ) (headers : List (ℕ × ℕ)) :
    startHeaders version headers =
      (((given headers).map (asSent version)).filter fun h => !dropped version h).reverse := by
  rw [startHeaders, addHeaders_eq, hedsFromNoun_eq, List.nil_append, List.map_reverse, List.filter_reverse]

/-! ### The client's request, and what is received -/

/-- `_cttp_bod_from_hed`: a line. -/
def bodFromHed (hed : Hhed) : Text := hed.nam ++ [58, 32] ++ hed.val ++ [13, 10]

/-- `_cttp_creq_fire_heds`: each line is put behind what is to be sent. -/
def fireHeds : List Hhed → List Text → List Text
  | [], rub => rub
  | hed :: rest, rub => fireHeds rest (rub ++ [bodFromHed hed])

theorem fireHeds_eq (l : List Hhed) (rub : List Text) : fireHeds l rub = rub ++ l.map bodFromHed := by
  induction l generalizing rub with
  | nil => exact (List.append_nil rub).symm
  | cons hed l ih => rw [fireHeds, ih, List.append_assoc, List.map_cons, List.singleton_append]

/-- `_cttp_vec_to_atom` -/
def vecToAtom (t : Text) : ℕ := Nat.ofDigits 256 t

/-- `_cttp_heds_to_noun`: from the last of `n` headers. -/
def hedsTo (hedU : List Hhed) : ℕ → List (ℕ × ℕ) → List (ℕ × ℕ)
  | 0, hed => hed
  | n + 1, hed =>
    match hedU[n]? with
    | none => hed
    | some deh => hedsTo hedU n ((vecToAtom deh.nam, vecToAtom deh.val) :: hed)

def hedsToNoun (hedU : List Hhed) : List (ℕ × ℕ) := hedsTo hedU hedU.length []

theorem hedsTo_eq (hedU : List Hhed) {n : ℕ} (hn : n ≤ hedU.length) (hed : List (ℕ × ℕ)) :
    hedsTo hedU n hed = (hedU.take n).map (fun h => (vecToAtom h.nam, vecToAtom h.val)) ++ hed := by
  induction n generalizing hed with
  | zero => rfl
  | succ n ih =>
    have hlt : n < hedU.length := hn
    rw [hedsTo, List.getElem?_eq_getElem hlt, List.take_succ_eq_append_getElem hlt, List.map_append, List.append_assoc]
    exact ih (by omega) _

/-- **The kernel is given what is received, in its order.** -/
theorem hedsToNoun_eq (hedU : List Hhed) :
    hedsToNoun hedU = hedU.map fun h => (vecToAtom h.nam, vecToAtom h.val) := by
  rw [hedsToNoun, hedsTo_eq hedU le_rfl, List.take_length, List.append_nil]

/-! ### Order -/

/-- **Headers in order**: those of a response, but for the ones that h2o writes itself, those of a request, and those
that are received, each once and in the order given. -/
structure InOrder (version : ℕ) (response request : List (ℕ × ℕ)) (received : List Hhed) : Prop where
  response : startHeaders version response =
    ((given response).map (asSent version)).filter fun h => !replaced version h
  request : fireHeds (hedsFromNoun request) [] = (given request).map bodFromHed
  received : hedsToNoun received = received.map fun h => (vecToAtom h.nam, vecToAtom h.val)

theorem begins_self (lit : Text) : begins lit lit = true := decide_eq_true (List.take_length ..)

theorem dropped_of_replaced {version : ℕ} {h : Hhed} (hr : replaced version h = true) : dropped version h = true := by
  rcases of_decide_eq_true hr with ⟨hv, hn⟩ | hn
  · exact decide_eq_true (.inl ⟨hv, by rw [hn]; exact begins_self _⟩)
  · exact decide_eq_true (.inr (by rw [hn]; exact begins_self _))

/-- What is left of a list backwards is what is to be left of it just when no more is left out, and that is the same
backwards. -/
theorem filter_reverse_eq_iff {α : Type} {p q : α → Bool} (l : List α) (hpq : ∀ x ∈ l, p x = true → q x = true) :
    (l.filter p).reverse = l.filter q ↔ (∀ x ∈ l, q x = true → p x = true) ∧ (l.filter q).reverse = l.filter q := by
  constructor
  · intro h
    have hsub : (l.filter p).Sublist (l.filter q) := by
      have hf : l.filter p = (l.filter q).filter p := by
        rw [List.filter_filter]
        refine List.filter_congr fun x hx => ?_
        cases hp : p x with
        | false => rfl
        | true => rw [hpq x hx hp]; rfl
      rw [hf]
      exact List.filter_sublist
    have heq : l.filter p = l.filter q := hsub.eq_of_length (by rw [← h, List.length_reverse])
    refine ⟨fun x hx hq => ?_, heq ▸ h⟩
    have hmem : x ∈ l.filter p := heq ▸ List.mem_filter.mpr ⟨hx, hq⟩
    exact (List.mem_filter.mp hmem).2
  · rintro ⟨hqp, hrev⟩
    have heq : l.filter p = l.filter q := List.filter_congr fun x hx => by
      rw [Bool.eq_iff_iff]
      exact ⟨hpq x hx, hqp x hx⟩
    rw [heq, hrev]

/-- **Headers are in order just when their order does not matter**: those of a response are the same backwards, and no
other name begins like one that is replaced; and the lines of a request are the same backwards. -/
theorem inOrder_iff (version : ℕ) (response request : List (ℕ × ℕ)) (received : List Hhed) :
    InOrder version response request received ↔
      (∀ h ∈ (given response).map (asSent version), dropped version h = true → replaced version h = true) ∧
      (((given response).map (asSent version)).filter fun h => !replaced version h).reverse =
        ((given response).map (asSent version)).filter (fun h => !replaced version h) ∧
      ((given request).map bodFromHed).reverse = (given request).map bodFromHed := by
  have hresponse := @filter_reverse_eq_iff Hhed (fun h => !dropped version h) (fun h => !replaced version h)
    ((given response).map (asSent version)) fun h _ hd => by
      rw [Bool.not_eq_true', ← Bool.not_eq_true] at hd ⊢
      exact fun hr => hd (dropped_of_replaced hr)
  have hdrop : (∀ h ∈ (given response).map (asSent version),
      (!replaced version h) = true → (!dropped version h) = true) ↔
      ∀ h ∈ (given response).map (asSent version), dropped version h = true → replaced version h = true := by
    refine forall₂_congr fun h _ => ?_
    cases dropped version h <;> cases replaced version h <;> decide
  rw [hdrop, ← startHeaders_eq] at hresponse
  have hrequest : fireHeds (hedsFromNoun request) [] = ((given request).map bodFromHed).reverse := by
    rw [fireHeds_eq, hedsFromNoun_eq, List.nil_append, List.map_reverse]
  constructor
  · intro h
    obtain ⟨hd, hrev⟩ := hresponse.mp h.response
    exact ⟨hd, hrev, hrequest ▸ h.request⟩
  · rintro ⟨hd, hrev, hreq⟩
    exact ⟨hresponse.mpr ⟨hd, hrev⟩, hrequest.trans hreq, hedsToNoun_eq received⟩

/-- Two cookies set by a response are sent the other way round. -/
theorem headers_backwards : ¬ InOrder 0x101 [(1, 2), (1, 3)] [] [] := fun h =>
  absurd h.response (by decide)

/-! ### The cookie -/

/-- `key_c`: the name of the cookie of a session, which has no byte that ends a string, a name or a cookie, nor a
blank. -/
structure AuthKey where
  text : Text
  plain : ∀ c ∈ text, c ≠ 0 ∧ c ≠ 9 ∧ c ≠ 32 ∧ c ≠ 59 ∧ c ≠ 61

/-- The value of a cookie, into what is left of the buffer. -/
def readVal : ℕ → Text → Text
  | _, [] => []
  | 0, _ :: _ => []
  | left + 1, c :: cs => if c = 59 then [] else c :: readVal left cs

/-- The scan for the key, from the byte of it that is to come; its end is read as a zero, and no byte of a header is
one. -/
def scanCookie (key : Text) : Text → ℕ → Text
  | [], _ => []
  | c :: cs, j =>
    if key.getD j 0 = 0 ∧ c = 61 then readVal 128 cs
    else if c = key.getD j 0 then scanCookie key cs (j + 1)
    else scanCookie key cs 0

/-- `_http_req_is_auth`, of the first cookie header. -/
def reqIsAuth (key : AuthKey) (ses : Finset ℕ) (coo : Option Text) : Bool :=
  match coo with
  | none => false
  | some t => Nat.ofDigits 256 (scanCookie key.text t 0) ∈ ses

/-- The cookies of a header, as they are written: they end with a semicolon, and the blanks before a name are not of
it. -/
def cookies (t : Text) : List (Text × Text) :=
  (t.splitOn 59).filterMap fun piece =>
    match (piece.dropWhile fun c => c = 32 ∨ c = 9).splitOn 61 with
    | name :: v :: vs => some (name, [61].intercalate (v :: vs))
    | _ => none

/-! ### Where the scan stops -/

/-- How much of the key has just been read: a byte that is not the next one of the key breaks off, and is not tried as
the first. -/
def keyRead (key pre : Text) : ℕ := pre.foldl (fun j c => if c = key.getD j 0 then j + 1 else 0) 0

/-- The first `=` that the key comes before: what follows it. -/
def firstStop (key t : Text) : Option Text :=
  (List.range t.length).findSome? fun i =>
    if t[i]? = some 61 ∧ key.getD (keyRead key (t.take i)) 0 = 0 then some (t.drop (i + 1)) else none

theorem keyRead_append (key pre post : Text) :
    keyRead key (pre ++ post) = post.foldl (fun j c => if c = key.getD j 0 then j + 1 else 0) (keyRead key pre) :=
  List.foldl_append

theorem keyRead_snoc (key pre : Text) (c : ℕ) :
    keyRead key (pre ++ [c]) = if c = key.getD (keyRead key pre) 0 then keyRead key pre + 1 else 0 :=
  keyRead_append key pre [c]

/-- The first stop after what is read already. -/
theorem scanCookie_from (key : Text) : ∀ (t pre : Text), scanCookie key t (keyRead key pre) =
    match (List.range t.length).findSome? fun i =>
      if t[i]? = some 61 ∧ key.getD (keyRead key (pre ++ t.take i)) 0 = 0 then some (t.drop (i + 1)) else none with
    | none => []
    | some v => readVal 128 v
  | [], _ => rfl
  | c :: cs, pre => by
    have ih := scanCookie_from key cs (pre ++ [c])
    rw [keyRead_snoc] at ih
    rw [List.length_cons, List.range_succ_eq_map, List.findSome?_cons, List.findSome?_map]
    have hrest : ((fun i => if (c :: cs)[i]? = some 61 ∧ key.getD (keyRead key (pre ++ (c :: cs).take i)) 0 = 0 then
        some ((c :: cs).drop (i + 1)) else none) ∘ Nat.succ) =
        fun i => if cs[i]? = some 61 ∧ key.getD (keyRead key (pre ++ [c] ++ cs.take i)) 0 = 0 then
          some (cs.drop (i + 1)) else none := by
      funext i
      simp only [Function.comp_apply, List.append_assoc]
      rfl
    rw [hrest]
    have hhead : ((c :: cs)[0]? = some 61 ∧ key.getD (keyRead key (pre ++ (c :: cs).take 0)) 0 = 0) ↔
        (key.getD (keyRead key pre) 0 = 0 ∧ c = 61) := by
      rw [List.take_zero, List.append_nil, List.getElem?_cons_zero, Option.some.injEq, and_comm]
    unfold scanCookie
    by_cases hstop : key.getD (keyRead key pre) 0 = 0 ∧ c = 61
    · rw [if_pos hstop, if_pos (hhead.mpr hstop)]
      rfl
    · rw [if_neg hstop, if_neg (fun h => hstop (hhead.mp h)), ← ih]
      split <;> rfl

/-- **The scan reads the value after the first stop.** -/
theorem scanCookie_eq (key t : Text) :
    scanCookie key t 0 = match firstStop key t with
      | none => []
      | some v => readVal 128 v := scanCookie_from key t []

/-- The parts of a text between separators. -/
theorem part_of_intercalate (sep : ℕ) : ∀ {L : List Text} {x : Text}, x ∈ L →
    ∃ A B, [sep].intercalate L = A ++ x ++ B ∧ (A = [] ∨ ∃ A', A = A' ++ [sep])
  | [y], x, hx => by
    obtain rfl := List.mem_singleton.mp hx
    exact ⟨[], [], by simp, .inl rfl⟩
  | y :: z :: L, x, hx => by
    rcases List.mem_cons.mp hx with rfl | hx
    · exact ⟨[], [sep] ++ [sep].intercalate (z :: L), by simp [List.intercalate_cons_cons], .inl rfl⟩
    · obtain ⟨A, B, heq, hA⟩ := part_of_intercalate sep hx
      refine ⟨y ++ [sep] ++ A, B, by rw [List.intercalate_cons_cons, heq]; simp, .inr ?_⟩
      rcases hA with rfl | ⟨A', rfl⟩
      · exact ⟨y, List.append_nil _⟩
      · exact ⟨y ++ [sep] ++ A', (List.append_assoc ..).symm⟩

/-- A byte that no name of a cookie has breaks off. -/
theorem keyRead_break (key : AuthKey) (pre : Text) {c : ℕ} (hc : c = 9 ∨ c = 32 ∨ c = 59) :
    keyRead key.text (pre ++ [c]) = 0 := by
  rw [keyRead_snoc, if_neg]
  intro heq
  by_cases hj : keyRead key.text pre < key.text.length
  · rw [List.getD_eq_getElem _ _ hj] at heq
    have hplain := key.plain _ (List.getElem_mem hj)
    rw [← heq] at hplain
    omega
  · rw [List.getD_eq_default _ _ (not_lt.mp hj)] at heq
    omega

/-- The key is read to its end where it stands. -/
theorem foldl_key (key : Text) : ∀ (a b : Text), key = a ++ b →
    b.foldl (fun j c => if c = key.getD j 0 then j + 1 else 0) a.length = key.length
  | a, [], h => by rw [h, List.append_nil]; rfl
  | a, c :: b, h => by
    have hc : key.getD a.length 0 = c := by
      rw [h, List.getD_append_right _ _ _ _ le_rfl, Nat.sub_self]
      rfl
    rw [List.foldl_cons, hc, if_pos rfl]
    have ih := foldl_key key (a ++ [c]) b (by rw [h, List.append_assoc]; rfl)
    rwa [List.length_append] at ih

/-- Blanks, and what comes before them, leave nothing of the key read. -/
theorem keyRead_blank (key : AuthKey) {A blanks : Text} (hA : A = [] ∨ ∃ A', A = A' ++ [59])
    (hb : ∀ c ∈ blanks, c = 32 ∨ c = 9) : keyRead key.text (A ++ blanks) = 0 := by
  rcases List.eq_nil_or_concat blanks with rfl | ⟨init, c, rfl⟩
  · rcases hA with rfl | ⟨A', rfl⟩
    · rfl
    · rw [List.append_nil]
      exact keyRead_break key A' (.inr (.inr rfl))
  · rw [List.concat_eq_append, ← List.append_assoc]
    have hc := hb c (by simp)
    exact keyRead_break key _ (by omega)

/-- **The scan stops at a cookie of the key's name, or before.** -/
theorem stop_of_cookie (key : AuthKey) {t v : Text} (h : (key.text, v) ∈ cookies t) : firstStop key.text t ≠ none := by
  obtain ⟨piece, hpiece, hparse⟩ := List.mem_filterMap.mp h
  obtain ⟨A, B, ht, hA⟩ := part_of_intercalate 59 hpiece
  rw [List.intercalate_splitOn] at ht
  have hname : ∃ rest, (piece.dropWhile fun c => c = 32 ∨ c = 9) = key.text ++ 61 :: rest := by
    split at hparse
    · next name w ws hsplit =>
      obtain ⟨rfl, -⟩ := Prod.mk.inj (Option.some.inj hparse)
      have hjoin : [61].intercalate ((piece.dropWhile fun c => c = 32 ∨ c = 9).splitOn 61) = _ :=
        List.intercalate_splitOn 61
      rw [hsplit, List.intercalate_cons_cons] at hjoin
      exact ⟨[61].intercalate (w :: ws), by rw [← hjoin]; simp⟩
    · exact nomatch hparse
  obtain ⟨rest, hrest⟩ := hname
  obtain ⟨blanks, hpiece, hb⟩ :
      ∃ blanks, piece = blanks ++ (key.text ++ 61 :: rest) ∧ ∀ c ∈ blanks, c = 32 ∨ c = 9 := by
    refine ⟨piece.takeWhile fun c => c = 32 ∨ c = 9, ?_, fun c hc => ?_⟩
    · rw [← hrest, List.takeWhile_append_dropWhile]
    · have hblank := List.mem_takeWhile_imp hc
      exact of_decide_eq_true hblank
  have hread : keyRead key.text (A ++ blanks ++ key.text) = key.text.length := by
    rw [keyRead_append, keyRead_blank key hA hb]
    exact foldl_key key.text [] key.text rfl
  have hsplit : t = A ++ blanks ++ key.text ++ 61 :: (rest ++ B) := by
    rw [ht, hpiece]
    simp
  intro hnone
  have hlt : (A ++ blanks ++ key.text).length < t.length := by
    have hlen : t.length = (A ++ blanks ++ key.text).length + (61 :: (rest ++ B)).length := by
      rw [← List.length_append, hsplit]
    rw [List.length_cons] at hlen
    omega
  have hno := List.findSome?_eq_none_iff.mp hnone _ (List.mem_range.mpr hlt)
  rw [if_pos] at hno
  · exact nomatch hno
  · constructor
    · rw [hsplit, List.getElem?_append_right le_rfl, Nat.sub_self]
      rfl
    · rw [hsplit, List.take_left, hread, List.getD_eq_default _ _ le_rfl]

/-- Some cookie of the key's own name has the value of a session. -/
def HasSession (key : AuthKey) (ses : Finset ℕ) (t : Text) : Prop :=
  ∃ c ∈ cookies t, c.1 = key.text ∧ Nat.ofDigits 256 c.2 ∈ ses

/-- When the check may stop where it does. Without a stop, no session may be the empty text. Where it reads the value
of a cookie of the key's own name, that must be a session, or no such cookie have one; and where it reads anything else
(the value of a longer name that ends with the key, what follows the key in a value, the first 128 bytes of a longer
value), that is to be a session just when such a cookie has one. -/
def CookieFits (key : AuthKey) (ses : Finset ℕ) (t : Text) : Prop :=
  match firstStop key.text t with
  | none => 0 ∉ ses
  | some v =>
    if (key.text, readVal 128 v) ∈ cookies t then Nat.ofDigits 256 (readVal 128 v) ∈ ses ∨ ¬ HasSession key ses t
    else Nat.ofDigits 256 (readVal 128 v) ∈ ses ↔ HasSession key ses t

/-- **The check accepts a header that has a session, and no other, just when its first stop does for all.** -/
theorem reqIsAuth_iff (key : AuthKey) (ses : Finset ℕ) (t : Text) :
    (reqIsAuth key ses (some t) = true ↔ HasSession key ses t) ↔ CookieFits key ses t := by
  have hauth : reqIsAuth key ses (some t) = true ↔ Nat.ofDigits 256 (scanCookie key.text t 0) ∈ ses :=
    decide_eq_true_iff
  unfold CookieFits
  rw [hauth, scanCookie_eq]
  cases hstop : firstStop key.text t with
  | none =>
    have hno : ¬ HasSession key ses t := by
      rintro ⟨⟨name, v⟩, hc, rfl, -⟩
      exact stop_of_cookie key hc hstop
    exact ⟨fun h hz => hno (h.mp hz), fun hz => iff_of_false hz hno⟩
  | some v =>
    dsimp only
    split
    · next hown =>
      have hhas : Nat.ofDigits 256 (readVal 128 v) ∈ ses → HasSession key ses t := fun h => ⟨_, hown, rfl, h⟩
      constructor
      · exact fun h => Classical.or_iff_not_imp_left.mpr fun hn hs => hn (h.mpr hs)
      · rintro (h | h)
        · exact iff_of_true h (hhas h)
        · exact iff_of_false (fun hs => h (hhas hs)) h
    · exact Iff.rfl

/-- The key `k`. -/
def keyK : AuthKey := ⟨[107], by decide⟩

/-- A cookie whose name ends with the key is taken for it: `xk=1`. -/
theorem longer_name_accepted : ¬ (reqIsAuth keyK {49} (some [120, 107, 61, 49]) = true ↔
    HasSession keyK {49} [120, 107, 61, 49]) := by
  intro h
  obtain ⟨c, hc, hname, -⟩ := h.mp (by decide)
  have hcookies : cookies [120, 107, 61, 49] = [([120, 107], [49])] := by decide
  rw [hcookies, List.mem_singleton] at hc
  rw [hc] at hname
  exact nomatch hname

end HttpHeaders
end Ursockets

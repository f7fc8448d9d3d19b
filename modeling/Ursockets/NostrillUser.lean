/-
# Users as atoms

A post names its host and its author by atoms, and whether an atom is a ship or a public key is guessed
from its size: by its hexadecimal digits where posts are filed, and by its bytes where they are shown.
A ship is far too short to be taken for a key. A key of 64 digits is known again; one with a leading
zero is taken for a ship where posts are filed, and one with two is also shown as one.

Key definitions: `branchUser`, `Owned`.
Key theorems: `atomToUser_userToAtom`, `branchUser_userToAtom`, `owned_iff`.
-/
import Mathlib.Data.Nat.Digits.Lemmas
import Mathlib.Tactic.NormNum
import Ursockets.NostrillTrill

namespace Ursockets
namespace Nostrill

/-- `branch-user`: `(met 3 p)` is the bytes of the atom. -/
def branchUser (p : ℕ) : User := if (Nat.digits 256 p).length = 32 then .nostr p else .urbit p

/-! ### Sizes -/

theorem digits_eq_length : ∀ (fuel : ℕ) {a : ℕ}, a ≤ fuel → (digits 16 0 fuel a).length = (Nat.digits 16 a).length
  | 0, a, ha => by
    rw [Nat.le_zero.mp ha]
    rfl
  | fuel + 1, a, ha => by
    unfold digits
    by_cases h0 : a = 0
    · rw [h0]
      rfl
    · have hdiv : a / 16 ≤ fuel := by omega
      rw [if_neg (fun h => h0 h.1), List.length_append, List.length_singleton, digits_eq_length fuel hdiv,
        Nat.digits_def' (by decide) (Nat.pos_of_ne_zero h0), List.length_cons]

/-- A number has `n + 1` digits just when it is between two powers. -/
theorem length_digits_iff {b : ℕ} (hb : 1 < b) (n a : ℕ) :
    (Nat.digits b a).length = n + 1 ↔ b ^ n ≤ a ∧ a < b ^ (n + 1) := by
  rw [← Nat.digits_length_le_iff hb, ← not_lt, ← Nat.digits_length_le_iff hb]
  omega

theorem validatePubkey_iff (p : ℕ) : validatePubkey p = true ↔ 2 ^ 252 ≤ p ∧ p < 2 ^ 256 := by
  have h := length_digits_iff (show 1 < 16 by decide) 63 p
  rw [show (16 : ℕ) ^ 63 = 2 ^ 252 by norm_num, show (16 : ℕ) ^ (63 + 1) = 2 ^ 256 by norm_num] at h
  rw [← h, ← digits_eq_length p le_rfl]
  exact decide_eq_true_iff

/-- A user whose atom tells what it is, if those from `least` to 256 bits are the public keys. -/
def Told (least : ℕ) : User → Prop
  | .urbit p => ¬ (least ≤ p ∧ p < 2 ^ 256)
  | .nostr p => least ≤ p ∧ p < 2 ^ 256

theorem told_iff {least : ℕ} {isKey : Prop} [Decidable isKey] (u : User)
    (h : isKey ↔ least ≤ userToAtom u ∧ userToAtom u < 2 ^ 256) :
    (if isKey then User.nostr (userToAtom u) else .urbit (userToAtom u)) = u ↔ Told least u := by
  cases u with
  | urbit p =>
    show _ ↔ ¬ (least ≤ userToAtom (.urbit p) ∧ userToAtom (.urbit p) < 2 ^ 256)
    rw [← h]
    by_cases hk : isKey
    · rw [if_pos hk]
      exact iff_of_false (fun he => nomatch he) (not_not_intro hk)
    · rw [if_neg hk]
      exact iff_of_true rfl hk
  | nostr p =>
    show _ ↔ least ≤ userToAtom (.nostr p) ∧ userToAtom (.nostr p) < 2 ^ 256
    rw [← h]
    by_cases hk : isKey
    · rw [if_pos hk]
      exact iff_of_true rfl hk
    · rw [if_neg hk]
      exact iff_of_false (fun he => nomatch he) hk

/-- An atom of 64 hexadecimal digits is taken for a public key, and any other for a ship. -/
theorem atomToUser_userToAtom (u : User) : atomToUser (userToAtom u) = u ↔ Told (2 ^ 252) u :=
  told_iff u (validatePubkey_iff _)

/-- An atom of 32 bytes is shown as a public key, and any other as a ship. -/
theorem branchUser_userToAtom (u : User) : branchUser (userToAtom u) = u ↔ Told (2 ^ 248) u := by
  refine told_iff u ?_
  have h := length_digits_iff (show 1 < 256 by decide) 31 (userToAtom u)
  rw [show (256 : ℕ) ^ 31 = 2 ^ 248 by norm_num, show (256 : ℕ) ^ (31 + 1) = 2 ^ 256 by norm_num] at h
  exact h

/-! ### The owner of a post -/

/-- A post filed with a user. -/
def State.fileWith (u : User) (st : State) (p : Post) : State :=
  match st.following.lookup u with
  | none => st
  | some uf =>
    { st with
      following := st.following.insert u (put uf p)
      following2 := st.following2.insert ⟨u, p.id⟩ p }

/-- A reply filed with a user, under its parent in that user's feed. -/
def State.replyWith (u : User) (st : State) (p : Post) : Option State :=
  p.parent.bind fun pid =>
    match st.following.lookup u with
    | none => some st
    | some uf =>
      (uf.lookup pid).map fun parent =>
        { st with
          following := st.following.insert u (put (put uf (parent.addChild p.id)) p)
          following2 := (st.following2.insert ⟨u, parent.id⟩ (parent.addChild p.id)).insert ⟨u, p.id⟩ p }

/-- A post deleted from a user's feed. -/
def State.deleteWith (u : User) (st : State) (p : Post) : State :=
  match st.following.lookup u with
  | none => st
  | some uf =>
    { st with
      following := st.following.insert u (deleteWithChildren uf p)
      following2 := deleteFromGlobal st.following2 p }

/-- **A user that owns its posts**: it is known again from its atom, where posts are filed and where they are shown,
and the posts that name it, but our own, are filed and deleted in its feed, and looked up with its profile. -/
structure Owned (u : User) : Prop where
  known : atomToUser (userToAtom u) = u
  shown : branchUser (userToAtom u) = u
  filed : ∀ (B : Bowl) (st : State) (p : Post), p.host = userToAtom u → B.our ≠ p.host →
    addToFeed B st p = st.fileWith u p
  replied : ∀ (B : Bowl) (st : State) (p : Post), p.host = userToAtom u → B.our ≠ p.host →
    addReply B st p = st.replyWith u p
  deleted : ∀ (B : Bowl) (st : State) (p : Post), p.host = userToAtom u → B.our ≠ p.host →
    delFromFeed B st p = st.deleteWith u p
  wrapped : ∀ (B : Bowl) (st : State) (p : Post), p.author = userToAtom u →
    (wrapPost B st p).prof = st.profiles.lookup u

/-- **A user owns its posts just when its atom tells what it is**: a ship is none of the atoms of 249 to 256 bits, and
a public key has 253 bits at least. -/
theorem owned_iff (u : User) : Owned u ↔
    match u with
    | .urbit p => ¬ (2 ^ 248 ≤ p ∧ p < 2 ^ 256)
    | .nostr p => 2 ^ 252 ≤ p ∧ p < 2 ^ 256 := by
  have htold : Told (2 ^ 252) u ∧ Told (2 ^ 248) u ↔
      match u with
      | .urbit p => ¬ (2 ^ 248 ≤ p ∧ p < 2 ^ 256)
      | .nostr p => 2 ^ 252 ≤ p ∧ p < 2 ^ 256 := by
    have hle : (2 : ℕ) ^ 248 ≤ 2 ^ 252 := Nat.pow_le_pow_right (by decide) (by decide)
    cases u with
    | urbit p => exact ⟨fun h => h.2, fun h => ⟨fun hp => h ⟨hle.trans hp.1, hp.2⟩, h⟩⟩
    | nostr p => exact ⟨fun h => h.1, fun h => ⟨h, hle.trans h.1, h.2⟩⟩
  rw [← htold, ← atomToUser_userToAtom, ← branchUser_userToAtom]
  refine ⟨fun h => ⟨h.known, h.shown⟩, fun ⟨hknown, hshown⟩ => ⟨hknown, hshown, ?_, ?_, ?_, ?_⟩⟩
  · intro B st p hp hour
    unfold addToFeed State.fileWith
    rewrite [if_neg hour, hp, hknown]
    cases st.following.lookup u <;> rfl
  · intro B st p hp hour
    unfold addReply State.replyWith
    cases p.parent with
    | none => rfl
    | some pid =>
      dsimp only [Option.bind_some]
      rewrite [if_neg hour, hp, hknown]
      cases st.following.lookup u with
      | none => rfl
      | some uf =>
        dsimp only
        cases uf.lookup pid <;> rfl
  · intro B st p hp hour
    unfold delFromFeed State.deleteWith
    rewrite [if_neg hour, hp, hknown]
    cases st.following.lookup u <;> rfl
  · intro B st p hp
    show st.profiles.lookup (atomToUser p.author) = _
    rw [hp, hknown]

/-- A public key whose text begins with a zero is taken for a ship, and shown as a key. -/
theorem short_key_is_a_ship : ¬ Owned (.nostr (2 ^ 251)) := fun h => by
  have hkey : (2 : ℕ) ^ 252 ≤ 2 ^ 251 := ((atomToUser_userToAtom (.nostr (2 ^ 251))).mp h.known).1
  exact absurd hkey (by norm_num)

end Nostrill
end Ursockets

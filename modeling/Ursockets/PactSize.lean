/-
# The size of a packet

`mesa_size_pact` and the etcher go over a packet apart from each other. Here the bytes that each
part of the etcher takes are counted, for any packet, whatever its fields: a field of bits takes
no more than its width, and everything else the bytes it puts there. The two agree but for one
byte, the number of the hops in a list of them.

Key definitions: `Takes`, `SizedRight`, `Body.Counted`.
Key theorems: `Takes.bits`, `mesaEtchBody_takes`, `mesaEtchPactToBuf_takes`, `sizedRight_iff`.
-/
import Ursockets.PactEtch

namespace Ursockets
namespace Mesa

open Bits

/-! ### Counting -/

/-- From `w` bits that do not fill a byte yet, the action goes through where there is room for `n`
bytes, and it takes no other number of them. -/
def Takes (w : ℕ) (m : Etch Unit) (n : ℕ) : Prop :=
  ∀ cap out v, v < 2 ^ w →
    (out.length + n ≤ cap.toNat → ∃ r, m (.bits cap out w v) = .ok r) ∧
      ∀ r, m (.bits cap out w v) = .ok r → ∃ l, l.length = out.length + n ∧ r = ((), .clean cap l)

section Takes

variable {m m' : Etch Unit} {w n n' : ℕ}

/-- Between whole bytes. -/
theorem Takes.clean (h : Takes 0 m n) (cap : UInt32) (out : List UInt8) :
    (out.length + n ≤ cap.toNat → ∃ r, m (.clean cap out) = .ok r) ∧
      ∀ r, m (.clean cap out) = .ok r → ∃ l, l.length = out.length + n ∧ r = ((), .clean cap l) := by
  have hz := h cap out 0 Nat.zero_lt_one
  rwa [Etcher.bits_zero] at hz

theorem Takes.of_clean (h : ∀ cap out, (out.length + n ≤ cap.toNat → ∃ r, m (.clean cap out) = .ok r) ∧
    ∀ r, m (.clean cap out) = .ok r → ∃ l, l.length = out.length + n ∧ r = ((), .clean cap l)) : Takes 0 m n := by
  intro cap out v hv
  have hv0 : v = 0 := Nat.lt_one_iff.mp hv
  rw [hv0, Etcher.bits_zero]
  exact h cap out

theorem Takes.next (bs : List UInt8) : Takes 0 (etchNext bs) bs.length := by
  refine .of_clean fun cap out => ⟨fun hroom => ⟨_, Writes.next bs cap out hroom⟩, fun r hr => ?_⟩
  refine ⟨out ++ bs, List.length_append, ?_⟩
  have hoff : ¬ (Etcher.clean cap out).off ≠ 0 := not_not.mpr rfl
  unfold etchNext at hr
  rw [if_neg hoff] at hr
  split at hr
  · cases hr
  · exact (Except.ok.inj hr).symm

theorem Takes.nil : Takes 0 (pure ()) 0 :=
  .of_clean fun _ out => ⟨fun _ => ⟨_, rfl⟩, fun _ hr => ⟨out, rfl, (Except.ok.inj hr).symm⟩⟩

/-- **One part behind the other.** -/
theorem Takes.seq (h : Takes 0 m n) (h' : Takes 0 m' n') : Takes 0 (m >>= fun _ => m') (n + n') := by
  refine .of_clean fun cap out => ⟨fun hroom => ?_, fun r hr => ?_⟩
  · obtain ⟨r, hr⟩ := (h.clean cap out).1 (by omega)
    obtain ⟨l, hl, rfl⟩ := (h.clean cap out).2 r hr
    obtain ⟨r', hr'⟩ := (h'.clean cap l).1 (by omega)
    exact ⟨r', (run_bind hr).trans hr'⟩
  · cases hm : m (.clean cap out) with
    | error x =>
      rw [run_bind_error hm] at hr
      cases hr
    | ok r' =>
      obtain ⟨l, hl, rfl⟩ := (h.clean cap out).2 r' hm
      rw [run_bind hm] at hr
      obtain ⟨l', hl', rfl⟩ := (h'.clean cap l).2 r hr
      exact ⟨l', by omega, rfl⟩

theorem Takes.check {q : Prop} [Decidable q] (hq : q) (h : Takes 0 m n) : Takes 0 (check q >>= fun _ => m) n :=
  .of_clean fun cap out => by
    rw [run_bind (check_true hq)]
    exact h.clean cap out

theorem Takes.varWord (a : UInt32) {len : ℕ} (hl : len ≤ 4) : Takes 0 (etchVarWord a len) len := by
  have h := Takes.next (numBytes len a.toNat)
  rw [length_numBytes] at h
  exact .check hl h

theorem Takes.varChub (a : UInt64) {len : ℕ} (hl : len ≤ 8) : Takes 0 (etchVarChub a len) len := by
  have h := Takes.next (numBytes len a.toNat)
  rw [length_numBytes] at h
  exact .check hl h

/-- A field of bits takes its width, whatever is put there. -/
theorem etchBits_mod (wid x : ℕ) : etchBits wid x = etchBits wid (x % 2 ^ wid) := by
  unfold etchBits
  simp only [Nat.one_shiftLeft, Nat.and_two_pow_sub_one_eq_mod, Nat.mod_mod]

theorem Takes.bits {wid : ℕ} (x : ℕ) (hw : wid ≤ 56) (h : Takes (w + wid) m n) :
    Takes w (etchBits wid x >>= fun _ => m) n := by
  intro cap out v hv
  have hx : x % 2 ^ wid < 2 ^ wid := Nat.mod_lt _ (Nat.two_pow_pos _)
  have hlt : v + x % 2 ^ wid * 2 ^ w < 2 ^ (w + wid) := by
    calc v + x % 2 ^ wid * 2 ^ w < 2 ^ w + x % 2 ^ wid * 2 ^ w := Nat.add_lt_add_right hv _
      _ = (x % 2 ^ wid + 1) * 2 ^ w := by rw [Nat.add_mul, Nat.one_mul, Nat.add_comm]
      _ ≤ 2 ^ wid * 2 ^ w := Nat.mul_le_mul_right _ hx
      _ = 2 ^ (w + wid) := by rw [Nat.pow_add, Nat.mul_comm]
  rw [etchBits_mod, run_bind (etchBits_bits hv hx hw)]
  exact h cap out _ hlt

/-- Fields that fill bytes. -/
theorem Takes.whole (k : ℕ) (h : Takes 0 m n) : Takes (8 * k) m (k + n) := by
  intro cap out v hv
  have hlen : (out ++ numBytes k v).length = out.length + k := by rw [List.length_append, length_numBytes]
  obtain ⟨hfits, honly⟩ := h.clean cap (out ++ numBytes k v)
  rw [Etcher.bits_bytes hv]
  refine ⟨fun hroom => hfits (by omega), fun r hr => ?_⟩
  obtain ⟨l, hl, hr'⟩ := honly r hr
  exact ⟨l, by omega, hr'⟩

end Takes

/-! ### The parts of a packet -/

/-- **`_mesa_size_name` counts what `_mesa_etch_name` takes.** -/
theorem mesaEtchName_takes (nam : Name (List UInt8)) : Takes 0 (mesaEtchName nam) (mesaSizeName nam) := by
  have hship : Takes 0 (etchShip nam.her (2 <<< mesaRank nam.her)) (2 <<< mesaRank nam.her) := by
    have h := Takes.next (shipToBytes nam.her (2 <<< mesaRank nam.her))
    rw [length_shipToBytes _ (two_shiftLeft_rank _)] at h
    exact .check (two_shiftLeft_rank _) h
  have hrift : Takes 0 (etchVarWord nam.rif (safeDec (mesaMet3 nam.rif) + 1)) (safeDec (mesaMet3 nam.rif) + 1) :=
    .varWord _ (safeDec_lt _)
  have hfra : Takes 0 (etchFra (if nam.nit then 1 else 0) nam.fra (if nam.nit then 0 else mesaMakeChubTag nam.fra))
      (if nam.nit then 0 else mesaBytesOfChubTag (mesaMakeChubTag nam.fra)) := by
    unfold etchFra
    by_cases hnit : nam.nit
    · rw [if_pos hnit, if_pos hnit, if_pos hnit, if_pos (by decide)]
      exact .nil
    · rw [if_neg hnit, if_neg hnit, if_neg hnit, if_neg (by decide)]
      exact .varChub _ (one_shiftLeft_tag _)
  have hlen : Takes 0 (etchShort (UInt16.ofNat nam.pat.length)) 2 :=
    Takes.next (numBytes 2 (UInt16.ofNat nam.pat.length).toNat)
  have hrest := hship.seq (hrift.seq ((Takes.next [nam.boq]).seq (hfra.seq (hlen.seq (.next nam.pat)))))
  have hall : Takes 0 (mesaEtchName nam) _ := .bits _ (by decide) (.bits _ (by decide) (.bits _ (by decide)
    (.bits _ (by decide) (.bits _ (by decide) (.whole 1 hrest)))))
  convert hall using 1
  unfold mesaSizeName
  rw [List.length_singleton]
  omega

/-- **`_mesa_size_data` counts what `_mesa_etch_data` takes.** -/
theorem mesaEtchData_takes (dat : Data (List UInt8)) : Takes 0 (mesaEtchData dat) (mesaSizeData dat) := by
  have hauth : Takes 0 (etchAuth dat.aut) (authBytes dat.aut).length := by
    cases dat.aut with
    | sign sig => exact .next _
    | hmac mac => exact .next _
    | none => exact .nil
    | pair has0 has1 =>
      rw [authBytes, List.length_append]
      exact (Takes.next has0.val).seq (.next has1.val)
  have hnel (nel : ℕ) : Takes 0 (etchNel (min nel 3) nel) (nelBytes nel).length := by
    unfold etchNel nelBytes
    split
    · exact .next _
    · exact .nil
  have hword := Takes.varWord (UInt32.ofNat dat.fra.length) (mesaMet3_le (UInt32.ofNat dat.fra.length))
  have hrest := (Takes.varChub dat.tob (one_shiftLeft_tag dat.tob)).seq (hauth.seq
    ((hnel (mesaMet3 (UInt32.ofNat dat.fra.length))).seq (hword.seq (.next dat.fra))))
  have hall : Takes 0 (mesaEtchData dat) _ := .bits _ (by decide) (.bits _ (by decide) (.bits _ (by decide)
    (.bits _ (by decide) (.bits _ (by decide) (.whole 1 hrest)))))
  convert hall using 1
  rw [← length_dataBytes]
  simp only [dataBytes, List.length_append, length_numBytes]

theorem etchHops_takes (hop : Hops) : Takes 0 (etchHops hop) (hopBytes hop).length := by
  have hone (one : List UInt8) : Takes 0 (mesaEtchHopLong one) (hopLongBytes one).length := by
    rw [hopLongBytes, List.length_cons, Nat.add_comm]
    exact (Takes.next [UInt8.ofNat one.length]).seq (.next one)
  have hall (man : List (List UInt8)) : Takes 0 (man.forM mesaEtchHopLong) (man.flatMap hopLongBytes).length := by
    induction man with
    | nil => exact .nil
    | cons one man ih =>
      rw [List.flatMap_cons, List.length_append]
      exact (hone one).seq ih
  cases hop with
  | none => exact .nil
  | short sot => exact .next _
  | long one => exact hone one
  | many man =>
    rw [hopBytes, List.length_cons, Nat.add_comm]
    exact (Takes.next [UInt8.ofNat man.length]).seq (hall man)

theorem mesaEtchBody_takes (body : Body (List UInt8)) : Takes 0 (mesaEtchBody body) (bodyBytes body).length := by
  cases body with
  | resv => exact .nil
  | page nam dat hop =>
    simp only [bodyBytes, List.length_append, length_nameBytes, length_dataBytes]
    exact (mesaEtchName_takes nam).seq ((mesaEtchData_takes dat).seq (etchHops_takes hop))
  | peek nam =>
    rw [bodyBytes, length_nameBytes]
    exact mesaEtchName_takes nam
  | poke nam pay dat =>
    simp only [bodyBytes, List.length_append, length_nameBytes, length_dataBytes]
    exact (mesaEtchName_takes nam).seq ((mesaEtchName_takes pay).seq (mesaEtchData_takes dat))

theorem mesaEtchHead_takes (hed : Head) (typ : Ptag) : Takes 0 (mesaEtchHead hed typ) 8 := by
  have hword : Takes 0 (etchWord mesaCookie) 4 := Takes.next (numBytes 4 mesaCookie.toNat)
  exact .bits _ (by decide) (.bits _ (by decide) (.bits _ (by decide) (.bits _ (by decide) (.bits _ (by decide)
    (.bits _ (by decide) (.whole 4 hword))))))

/-! ### Whole packets -/

theorem except_bind_error {α β : Type} {m : Except Fault α} {x : Fault} {f : α → Except Fault β} (h : m = .error x) :
    (m >>= f) = .error x := by
  rw [h]
  rfl

/-- The payload is etched apart, and its checksum is put into the head. -/
theorem mesaEtchPact_body {cap : UInt32} {p : Pact (List UInt8)} {x : Unit × Etcher}
    (h : mesaEtchBody p.body (.clean (cap - UInt32.ofNat 0 - 8) []) = .ok x) :
    mesaEtchPact p (.clean cap []) =
      (mesaEtchHead (p.withMug (Noun.mugBytes x.2.out &&& 0xfffff)).hed p.typ (.clean cap []) >>= fun y =>
        .ok (p.withMug (Noun.mugBytes x.2.out &&& 0xfffff), { y.2 with out := y.2.out ++ x.2.out })) := by
  unfold mesaEtchPact
  refine (except_bind h).trans ?_
  unfold Pact.withMug
  dsimp only
  -- which checksum it is does not matter here
  generalize Noun.mugBytes x.2.out &&& 0xfffff = sum
  have htyp (hed : Head) : (⟨hed, p.body⟩ : Pact (List UInt8)).typ = p.typ := by
    unfold Pact.typ
    with_reducible rfl
  rw [htyp]

/-- **The bytes that `mesa_etch_pact_to_buf` writes**, into a buffer of any size. -/
theorem mesaEtchPactToBuf_takes (cap : UInt32) (p : Pact (List UInt8)) :
    (8 + (bodyBytes p.body).length ≤ cap.toNat → ∃ r, mesaEtchPactToBuf cap p = .ok r) ∧
      ∀ r, mesaEtchPactToBuf cap p = .ok r → r.1.length = 8 + (bodyBytes p.body).length := by
  obtain ⟨hfits, honly⟩ := (mesaEtchBody_takes p.body).clean (cap - UInt32.ofNat 0 - 8) []
  have hhead (hed : Head) := (mesaEtchHead_takes hed p.typ).clean cap []
  constructor
  · intro hroom
    have h8 : (8 : UInt32) ≤ cap := UInt32.le_iff_toNat_le.mpr (show 8 ≤ cap.toNat by omega)
    have hcap : (cap - UInt32.ofNat 0 - 8).toNat = cap.toNat - 8 := by
      rw [show UInt32.ofNat 0 = 0 from rfl, sub_zero, UInt32.toNat_sub_of_le _ _ h8]
      rfl
    obtain ⟨x, hx⟩ := hfits (by rw [hcap, List.length_nil]; omega)
    obtain ⟨y, hy⟩ := (hhead (p.withMug (Noun.mugBytes x.2.out &&& 0xfffff)).hed).1 (by rw [List.length_nil]; omega)
    exact ⟨_, except_bind ((mesaEtchPact_body hx).trans (except_bind hy))⟩
  · intro r hr
    cases hx : mesaEtchBody p.body (.clean (cap - UInt32.ofNat 0 - 8) []) with
    | error x => cases (except_bind_error (except_bind_error hx)).symm.trans hr
    | ok x =>
      cases hy : mesaEtchHead (p.withMug (Noun.mugBytes x.2.out &&& 0xfffff)).hed p.typ (.clean cap []) with
      | error y => cases (except_bind_error ((mesaEtchPact_body hx).trans (except_bind_error hy))).symm.trans hr
      | ok y =>
        have hr' := (except_bind ((mesaEtchPact_body hx).trans (except_bind hy))).symm.trans hr
        obtain ⟨l, hl, rfl⟩ := honly x hx
        obtain ⟨l', hl', rfl⟩ := (hhead _).2 y hy
        have hlen : r.1.length = l'.length + l.length := by
          rw [← Except.ok.inj hr']
          exact List.length_append
        rw [hlen, hl', hl, List.length_nil, Nat.zero_add, Nat.zero_add]

/-- **The size of the packet is what is etched**: a buffer of that size has room for the packet, and no
buffer gets another number of bytes. The size is a word. -/
structure SizedRight (p : Pact (List UInt8)) : Prop where
  fills : ∃ r, mesaEtchPactToBuf (UInt32.ofNat (mesaSizePact p)) p = .ok r
  only : ∀ cap r, mesaEtchPactToBuf cap p = .ok r → r.1.length = (UInt32.ofNat (mesaSizePact p)).toNat

/-- The packet is of one of the three types, and its hops are no list. -/
def Body.Counted {α : Type} : Body α → Prop
  | resv => False
  | page _ _ (.many _) => False
  | page _ _ _ => True
  | peek _ => True
  | poke _ _ _ => True

theorem mesaSizePact_counted {p : Pact (List UInt8)} (h : p.body.Counted) :
    mesaSizePact p = 8 + (bodyBytes p.body).length := by
  refine mesaSizePact_of_hops (fun hbody => ?_) fun nam dat hop hbody => ?_
  · rw [hbody] at h
    exact h.elim
  · rw [hbody] at h
    cases hop with
    | none => rfl
    | short sot => exact sot.property.symm
    | long one => exact Nat.add_comm _ _
    | many man => exact h.elim

theorem mesaSizeHops_many (man : List (List UInt8)) : mesaSizeHops (.many man) = (man.flatMap hopLongBytes).length := by
  induction man with
  | nil => rfl
  | cons one man ih =>
    simp only [mesaSizeHops] at ih ⊢
    rw [List.map_cons, List.sum_cons, ih, List.flatMap_cons, List.length_append, hopLongBytes, List.length_cons,
      Nat.add_comm 1]

/-- The number of the hops in a list of them is a byte that is not counted. -/
theorem mesaSizePact_uncounted {p : Pact (List UInt8)} (h : ¬ p.body.Counted) :
    mesaSizePact p < 8 + (bodyBytes p.body).length := by
  unfold mesaSizePact
  cases hbody : p.body with
  | resv => exact Nat.lt_add_right _ (by decide)
  | peek nam | poke nam pay dat =>
    rw [hbody] at h
    exact absurd trivial h
  | page nam dat hop =>
    rw [hbody] at h
    cases hop with
    | none | short sot | long one => exact absurd trivial h
    | many man =>
      simp only [bodyBytes, List.length_append, length_nameBytes, length_dataBytes, mesaSizeHops_many, hopBytes,
        List.length_cons]
      omega

/-- A packet whose size is what is etched is counted whole, in a word. -/
theorem SizedRight.counted {p : Pact (List UInt8)} (h : SizedRight p) : p.body.Counted ∧ mesaSizePact p < 2 ^ 32 := by
  obtain ⟨r, hr⟩ := h.fills
  have hlen := (mesaEtchPactToBuf_takes _ p).2 r hr
  have hsize := (h.only _ r hr).symm.trans hlen
  have hle : (UInt32.ofNat (mesaSizePact p)).toNat ≤ mesaSizePact p := by
    rw [UInt32.toNat_ofNat']
    exact Nat.mod_le _ _
  have hcounted : p.body.Counted := by
    by_contra hno
    have hlt := mesaSizePact_uncounted hno
    omega
  refine ⟨hcounted, ?_⟩
  rw [mesaSizePact_counted hcounted, ← hsize]
  exact UInt32.toNat_lt _

/-- **`mesa_size_pact` is right for just the packets of the three types that have no list of hops**, as
long as their size is a word. -/
theorem sizedRight_iff (p : Pact (List UInt8)) : SizedRight p ↔ p.body.Counted ∧ mesaSizePact p < 2 ^ 32 := by
  refine ⟨SizedRight.counted, fun ⟨hcounted, hlt⟩ => ?_⟩
  have hsize := mesaSizePact_counted hcounted
  have hword : (UInt32.ofNat (mesaSizePact p)).toNat = mesaSizePact p := UInt32.toNat_ofNat_of_lt' hlt
  constructor
  · exact (mesaEtchPactToBuf_takes _ p).1 (by rw [hword, hsize])
  · intro cap r hr
    rw [hword, hsize]
    exact (mesaEtchPactToBuf_takes cap p).2 r hr

/-- A page with a list of one hop. -/
def hopsPact : Pact (List UInt8) where
  hed := ⟨.many, 1, 0, 0⟩
  body := .page ⟨⟨0, 0⟩, 0, 13, false, false, 0, [], []⟩ ⟨3, .none, [1, 2, 3]⟩ (.many [[1, 2, 3, 4, 5, 6]])

/-- Its size leaves no room for the number of its hops. -/
theorem hopsPact_not_sized : ¬ SizedRight hopsPact := fun h => h.counted.1

end Mesa
end Ursockets

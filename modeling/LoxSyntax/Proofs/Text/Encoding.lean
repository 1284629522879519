import Mathlib.Data.List.Forall2
import LoxSyntax.Text.Utf8

/-! # Decoding what has been encoded

Characters come back from their octets (`Utf8.decode_encode`). The first octet of a character says
in which range each of the octets that follow has to be, and the octets written for the character
are in these ranges (`Utf8.announces_utf8EncodeChar`); octets in their ranges are read as one
character, whatever follows (`Utf8.decodeFrom_octets`). -/

namespace LoxSyntax.Utf8

variable {octet : UInt8} {octets : List UInt8} {value : Nat} {ranges : List Range}

def InRange (range : Range) (octet : UInt8) : Prop :=
  range.1 ≤ octet.toNat ∧ octet.toNat ≤ range.2

/-- The value of a character, from what its first octet contributes and the octets that follow. -/
def assemble (value : Nat) (octets : List UInt8) : Nat :=
  octets.foldl (fun value octet => value * 64 + (octet.toNat - 0x80)) value

theorem decodeFrom_partial (p : Partial) (h : List.Forall₂ InRange (p.next :: p.rest) octets)
    (position : Nat) (decoded : List Char) (rest : List UInt8) :
    decodeFrom position decoded (some p) (octets ++ rest) =
      decodeFrom (position + octets.length) (Char.ofNat (assemble p.value octets) :: decoded) none
        rest := by
  induction octets generalizing p position with
  | nil => cases h
  | cons octet octets ih =>
    obtain ⟨hfirst, hrest⟩ := List.forall₂_cons.1 h
    obtain ⟨first, length, value, next, ranges⟩ := p
    dsimp only at hfirst hrest ⊢
    rw [List.cons_append, decodeFrom.eq_4]
    simp only [if_pos (show next.1 ≤ octet.toNat ∧ octet.toNat ≤ next.2 from hfirst)]
    cases ranges with
    | nil =>
      cases hrest
      rfl
    | cons next' ranges =>
      have hmore := ih ⟨first, length + 1, value * 64 + (octet.toNat - 0x80), next', ranges⟩ hrest
        (position + 1)
      dsimp only at hmore ⊢
      rw [hmore, assemble, assemble, List.foldl_cons, List.length_cons, Nat.add_right_comm,
        Nat.add_assoc]

theorem decodeFrom_octets (hfirst : first? octet.toNat = some (value, ranges))
    (hrest : List.Forall₂ InRange ranges octets) (position : Nat) (decoded : List Char)
    (rest : List UInt8) :
    decodeFrom position decoded none (octet :: (octets ++ rest)) =
      decodeFrom (position + 1 + octets.length) (Char.ofNat (assemble value octets) :: decoded) none
        rest := by
  rw [decodeFrom, hfirst]
  cases ranges with
  | nil =>
    cases hrest
    rfl
  | cons next ranges => exact decodeFrom_partial ⟨octet, 1, value, next, ranges⟩ hrest _ _ _

/-! ## The octets of a character -/

theorem toNat_octet {n : Nat} (h : n < 256) : (UInt8.ofNat n).toNat = n :=
  UInt8.toNat_ofNat_of_lt' h

/-- An octet that continues a character carries six bits. -/
theorem toNat_continuation (v : Nat) : (UInt8.ofNat (v % 64 + 0x80)).toNat = v % 64 + 0x80 :=
  toNat_octet (by omega)

theorem inRange_iff {range : Range} (v : Nat) :
    InRange range (UInt8.ofNat (v % 64 + 0x80)) ↔
      range.1 ≤ v % 64 + 0x80 ∧ v % 64 + 0x80 ≤ range.2 := by
  rw [InRange, toNat_continuation]

theorem inRange_continuation (v : Nat) :
    InRange continuation (UInt8.ofNat (v % 64 + 0x80)) := by
  rw [inRange_iff, continuation]
  omega

theorem assemble_cons (value v : Nat) (octets : List UInt8) :
    assemble value (UInt8.ofNat (v % 64 + 0x80) :: octets) = assemble (value * 64 + v % 64) octets := by
  rw [assemble, List.foldl_cons, toNat_continuation, Nat.add_sub_cancel, ← assemble]

/-- The first octet of a character announces the others, which are in their ranges and make up the
value. -/
def Announces (v : Nat) : List UInt8 → Prop
  | [] => False
  | octet :: octets => ∃ value ranges, first? octet.toNat = some (value, ranges) ∧
      List.Forall₂ InRange ranges octets ∧ assemble value octets = v

theorem announces_one {v : Nat} (h : v < 0x80) : Announces v [UInt8.ofNat v] := by
  refine ⟨v, [], ?_, .nil, rfl⟩
  rw [toNat_octet (by omega), first?, if_pos h]

theorem announces_two {v : Nat} (hlow : 0x80 ≤ v) (hhigh : v < 0x800) :
    Announces v [UInt8.ofNat (v / 64 % 32 + 0xC0), UInt8.ofNat (v % 64 + 0x80)] := by
  refine ⟨v / 64, [continuation], ?_, ?_, ?_⟩
  · rw [toNat_octet (by omega), first?, if_neg (by omega), if_neg (by omega), if_pos (by omega),
      show v / 64 % 32 + 0xC0 - 0xC0 = v / 64 by omega]
  · exact .cons (inRange_continuation v) .nil
  · rw [assemble_cons, assemble, List.foldl_nil]
    omega

theorem announces_three {v : Nat} (hlow : 0x800 ≤ v) (hhigh : v < 0x10000)
    (hvalid : v < 0xD800 ∨ 0xDFFF < v) :
    Announces v [UInt8.ofNat (v / 4096 % 16 + 0xE0), UInt8.ofNat (v / 64 % 64 + 0x80),
      UInt8.ofNat (v % 64 + 0x80)] := by
  refine ⟨v / 4096,
    [(if v / 4096 % 16 + 0xE0 = 0xE0 then 0xA0 else 0x80,
      if v / 4096 % 16 + 0xE0 = 0xED then 0x9F else 0xBF), continuation],
    ?_, .cons ?_ (.cons (inRange_continuation v) .nil), ?_⟩
  · rw [toNat_octet (by omega), first?, if_neg (by omega), if_neg (by omega), if_neg (by omega),
      if_pos (by omega), show v / 4096 % 16 + 0xE0 - 0xE0 = v / 4096 by omega]
  · rw [inRange_iff]
    constructor
    · dsimp only
      split <;> omega
    · dsimp only
      split <;> omega
  · rw [assemble_cons, assemble_cons, assemble, List.foldl_nil]
    omega

theorem announces_four {v : Nat} (hlow : 0x10000 ≤ v) (hhigh : v < 0x110000) :
    Announces v [UInt8.ofNat (v / 262144 % 8 + 0xF0), UInt8.ofNat (v / 4096 % 64 + 0x80),
      UInt8.ofNat (v / 64 % 64 + 0x80), UInt8.ofNat (v % 64 + 0x80)] := by
  refine ⟨v / 262144,
    [(if v / 262144 % 8 + 0xF0 = 0xF0 then 0x90 else 0x80,
      if v / 262144 % 8 + 0xF0 = 0xF4 then 0x8F else 0xBF), continuation, continuation],
    ?_, .cons ?_ (.cons (inRange_continuation (v / 64)) (.cons (inRange_continuation v) .nil)), ?_⟩
  · rw [toNat_octet (by omega), first?, if_neg (by omega), if_neg (by omega), if_neg (by omega),
      if_neg (by omega), if_pos (by omega),
      show v / 262144 % 8 + 0xF0 - 0xF0 = v / 262144 by omega]
  · rw [inRange_iff]
    constructor
    · dsimp only
      split <;> omega
    · dsimp only
      split <;> omega
  · rw [assemble_cons, assemble_cons, assemble_cons, assemble, List.foldl_nil]
    omega

theorem announces_utf8EncodeChar (c : Char) : Announces c.toNat (String.utf8EncodeChar c) := by
  have hvalid : c.toNat < 0xD800 ∨ 0xDFFF < c.toNat ∧ c.toNat < 0x110000 := c.valid
  fun_cases String.utf8EncodeChar c with
  | case1 v h => exact announces_one (Nat.lt_succ_of_le h)
  | case2 v h h' => exact announces_two (Nat.lt_of_not_le h) (Nat.lt_succ_of_le h')
  | case3 v _ h h' =>
    exact announces_three (Nat.lt_of_not_le h) (Nat.lt_succ_of_le h') (hvalid.imp_right And.left)
  | case4 v _ _ h =>
    have hhigh : c.toNat < 0x110000 := by omega
    exact announces_four (Nat.lt_of_not_le h) hhigh

theorem decodeFrom_encode (cs : List Char) (position : Nat) (decoded : List Char) :
    decodeFrom position decoded none (encode cs) = .ok (decoded.reverse ++ cs) := by
  induction cs generalizing position decoded with
  | nil => simp [encode, decodeFrom]
  | cons c cs ih =>
    have h := announces_utf8EncodeChar c
    rw [encode, List.flatMap_cons, ← encode]
    generalize String.utf8EncodeChar c = octets at h
    cases octets with
    | nil => exact h.elim
    | cons octet octets =>
      obtain ⟨value, ranges, hfirst, hrest, hvalue⟩ := h
      rw [List.cons_append, decodeFrom_octets hfirst hrest, hvalue, Char.ofNat_toNat, ih,
        List.reverse_cons, List.append_assoc, List.singleton_append]

theorem decode_encode (cs : List Char) : decode (encode cs) = .ok cs :=
  decodeFrom_encode cs 0 []

end LoxSyntax.Utf8

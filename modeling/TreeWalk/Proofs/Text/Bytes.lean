/-!
# Strings in the order of their bytes

Strings are compared character by character.  **Comparing the bytes of their UTF-8 forms gives the
same order** (`bytes_lt_iff`): a smaller character has a smaller byte at the first place at which
the forms of two characters differ, whether or not these are of the same length.
-/

set_option autoImplicit false

namespace TreeWalk.Text

/-- The bytes of a string in UTF-8. -/
def bytes (s : String) : List UInt8 := s.toUTF8.data.toList

theorem bytes_eq_flatMap (s : String) : bytes s = s.toList.flatMap String.utf8EncodeChar := by
  show s.toByteArray.data.toList = _
  rw [← String.utf8Encode_toList, List.utf8Encode, List.toList_data_toByteArray]

/-- Bytes are compared as numbers, and only behind equal ones does the rest count. -/
theorem cons_lt_cons {a b : Nat} (ha : a < 256) (hb : b < 256) {l m : List UInt8} (hle : a ≤ b)
    (h : a = b → l < m) : UInt8.ofNat a :: l < UInt8.ofNat b :: m := by
  rw [List.cons_lt_cons_iff]
  rcases Nat.lt_or_eq_of_le hle with hlt | heq
  · refine .inl ?_
    rw [UInt8.lt_iff_toNat_lt, UInt8.toNat_ofNat_of_lt' ha, UInt8.toNat_ofNat_of_lt' hb]
    exact hlt
  · exact .inr ⟨congrArg UInt8.ofNat heq, h heq⟩

/-- **A smaller character comes first in bytes as well**, whatever follows.  Forms of different
lengths differ in the first byte; in forms of the same length the bytes hold the digits of the
characters. -/
theorem encode_lt {c d : Char} (h : c < d) (l m : List UInt8) :
    String.utf8EncodeChar c ++ l < String.utf8EncodeChar d ++ m := by
  have hlt : c.val.toNat < d.val.toNat := h
  have hmax : d.val.toNat < 0x110000 := by
    rcases d.valid with hd | hd <;> omega
  generalize hc : c.val.toNat = a at hlt
  generalize hd : d.val.toNat = b at hlt hmax
  simp only [String.utf8EncodeChar, hc, hd]
  split
  · split
    · exact cons_lt_cons (by omega) (by omega) (by omega) fun _ => by omega
    · split
      · exact cons_lt_cons (by omega) (by omega) (by omega) fun _ => by omega
      · split <;> exact cons_lt_cons (by omega) (by omega) (by omega) fun _ => by omega
  · rw [if_neg (by omega : ¬ b ≤ 127)]
    split
    · split
      · refine cons_lt_cons (by omega) (by omega) (by omega) fun _ => ?_
        exact cons_lt_cons (by omega) (by omega) (by omega) fun _ => by omega
      · split <;> exact cons_lt_cons (by omega) (by omega) (by omega) fun _ => by omega
    · rw [if_neg (by omega : ¬ b ≤ 2047)]
      split
      · split
        · refine cons_lt_cons (by omega) (by omega) (by omega) fun _ => ?_
          refine cons_lt_cons (by omega) (by omega) (by omega) fun _ => ?_
          exact cons_lt_cons (by omega) (by omega) (by omega) fun _ => by omega
        · exact cons_lt_cons (by omega) (by omega) (by omega) fun _ => by omega
      · rw [if_neg (by omega : ¬ b ≤ 65535)]
        refine cons_lt_cons (by omega) (by omega) (by omega) fun _ => ?_
        refine cons_lt_cons (by omega) (by omega) (by omega) fun _ => ?_
        refine cons_lt_cons (by omega) (by omega) (by omega) fun _ => ?_
        exact cons_lt_cons (by omega) (by omega) (by omega) fun _ => by omega

theorem flatMap_encode_lt {l m : List Char} (h : l < m) :
    l.flatMap String.utf8EncodeChar < m.flatMap String.utf8EncodeChar := by
  induction l generalizing m with
  | nil =>
    cases m with
    | nil => exact absurd h (List.lt_irrefl _)
    | cons d m =>
      rw [List.flatMap_nil, List.flatMap_cons]
      cases hd : String.utf8EncodeChar d with
      | nil => exact absurd hd String.utf8EncodeChar_ne_nil
      | cons b bs => exact List.nil_lt_cons _ _
  | cons c l ih =>
    cases m with
    | nil => exact absurd h (List.not_lt_nil _)
    | cons d m =>
      rw [List.flatMap_cons, List.flatMap_cons]
      rcases List.cons_lt_cons_iff.1 h with hlt | ⟨rfl, hlt⟩
      · exact encode_lt hlt _ _
      · exact List.append_left_lt (ih hlt)

/-- **The order of strings is the order of their bytes.** -/
theorem bytes_lt_iff {s t : String} : bytes s < bytes t ↔ s < t := by
  have hmono {s t : String} (h : s < t) : bytes s < bytes t := by
    rw [bytes_eq_flatMap, bytes_eq_flatMap]
    exact flatMap_encode_lt (String.lt_iff.1 h)
  refine ⟨fun h => ?_, hmono⟩
  cases hcmp : compare s t with
  | lt => exact compareOfLessAndEq_eq_lt.1 hcmp
  | eq =>
    rw [Std.LawfulEqOrd.eq_of_compare hcmp] at h
    exact absurd h (List.lt_irrefl _)
  | gt =>
    have hswap : compare t s = .lt := Std.OrientedCmp.lt_of_gt hcmp
    exact absurd (hmono (compareOfLessAndEq_eq_lt.1 hswap)) (List.lt_asymm h)

end TreeWalk.Text

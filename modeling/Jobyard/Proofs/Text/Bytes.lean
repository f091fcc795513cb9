import Mathlib.Data.List.Lex
import Mathlib.Data.String.Basic
import Mathlib.Tactic.SplitIfs

/-!
The order of texts. It is the order of their bytes in UTF-8: of two different characters the lesser
one has the lesser bytes, and these differ before either character ends.
-/

namespace Jobyard.Text

def bytes (s : String) : List Nat := s.toUTF8.data.toList.map UInt8.toNat

def charBytes (n : Nat) : List Nat :=
  if n ≤ 0x7f then [n]
  else if n ≤ 0x7ff then [n / 64 % 32 + 0xc0, n % 64 + 0x80]
  else if n ≤ 0xffff then [n / 4096 % 16 + 0xe0, n / 64 % 64 + 0x80, n % 64 + 0x80]
  else [n / 262144 % 8 + 0xf0, n / 4096 % 64 + 0x80, n / 64 % 64 + 0x80, n % 64 + 0x80]

theorem toNat_lt (c : Char) : c.toNat < 0x110000 := by
  have hvalid : Nat.isValidChar c.toNat := c.valid
  unfold Nat.isValidChar at hvalid
  omega

theorem map_utf8EncodeChar (c : Char) :
    (String.utf8EncodeChar c).map UInt8.toNat = charBytes c.toNat := by
  have hbound := toNat_lt c
  rw [String.utf8EncodeChar, charBytes, Char.toNat] at *
  generalize c.val.toNat = n at *
  split_ifs <;>
    simp only [List.map_cons, List.map_nil, List.cons.injEq, and_true, UInt8.toNat_ofNat'] <;> omega

theorem bytes_eq_flatMap (s : String) :
    bytes s = s.toList.flatMap fun c => charBytes c.toNat := by
  change s.toByteArray.data.toList.map UInt8.toNat = _
  rw [← String.utf8Encode_toList, List.utf8Encode, List.toList_data_toByteArray, List.map_flatMap]
  simp only [map_utf8EncodeChar]

theorem charBytes_ne_nil (n : Nat) : charBytes n ≠ [] := by
  unfold charBytes
  split_ifs <;> simp

/-- Of two numbers the lesser one has the lesser digit to the base 64 at the first place where they
differ. -/
theorem digits_of_lt {m n : Nat} (h : m < n) :
    m / 262144 < n / 262144 ∨ (m / 262144 = n / 262144 ∧
      (m / 4096 % 64 < n / 4096 % 64 ∨ (m / 4096 % 64 = n / 4096 % 64 ∧
        (m / 64 % 64 < n / 64 % 64 ∨ (m / 64 % 64 = n / 64 % 64 ∧ m % 64 < n % 64))))) := by
  have hlast : ∀ {m n : Nat}, m < n → m / 64 < n / 64 ∨ (m / 64 = n / 64 ∧ m % 64 < n % 64) := by
    omega
  have hsecond : m / 64 < n / 64 → _ := hlast
  have hthird : m / 64 / 64 < n / 64 / 64 → _ := hlast
  simp only [Nat.div_div_eq_div_mul] at hsecond hthird
  have hfirst := hlast h
  omega

theorem charBytes_append_lt {m n : Nat} (h : m < n) (hbound : n < 0x110000) (rest more : List Nat) :
    charBytes m ++ rest < charBytes n ++ more := by
  have hdigits := digits_of_lt h
  have hlead : ∀ k < 0x110000, k / 262144 % 8 = k / 262144 := fun k hk => by omega
  unfold charBytes
  rw [hlead m (Nat.lt_trans h hbound), hlead n hbound]
  split_ifs <;> simp only [List.cons_append, List.nil_append, List.cons_lt_cons_iff] <;> omega

theorem flatMap_charBytes_lt {cs ds : List Char} (h : cs < ds) :
    (cs.flatMap fun c => charBytes c.toNat) < ds.flatMap fun c => charBytes c.toNat := by
  induction h with
  | nil =>
      rw [List.flatMap_nil, List.flatMap_cons]
      obtain ⟨first, rest, hbytes⟩ := List.exists_cons_of_ne_nil (charBytes_ne_nil _)
      rw [hbytes]
      exact List.nil_lt_cons _ _
  | rel hlt =>
      rw [List.flatMap_cons, List.flatMap_cons]
      exact charBytes_append_lt hlt (toNat_lt _) _ _
  | cons _ ih =>
      rw [List.flatMap_cons, List.flatMap_cons]
      exact List.append_left_lt ih

theorem bytes_lt_iff {s t : String} : bytes s < bytes t ↔ s < t := by
  have hmono : ∀ {s t : String}, s < t → bytes s < bytes t := by
    intro s t h
    rw [bytes_eq_flatMap, bytes_eq_flatMap]
    exact flatMap_charBytes_lt (String.lt_iff_toList_lt.mp h)
  refine ⟨fun h => ?_, hmono⟩
  rcases lt_trichotomy s t with hlt | rfl | hgt
  · exact hlt
  · exact absurd h (lt_irrefl _)
  · exact absurd h (lt_asymm (hmono hgt))

end Jobyard.Text

import StyleBundle.Proofs.Text.Order

/-!
# The bytes of a text

Texts are ordered by code points, and their UTF-8 forms byte by byte.  The two orders are the same
(`Text.bytes_lt`), because of two characters the one with the smaller code point has the smaller
form, whatever follows it (`Text.utf8EncodeChar_append_lt`).
-/

namespace StyleBundle

namespace Text

/-- The UTF-8 form of a text. -/
def bytes (t : Text) : List UInt8 :=
  t.flatMap String.utf8EncodeChar

private theorem ofNat_lt_ofNat {m n : Nat} (hm : m < 256) (hn : n < 256) :
    UInt8.ofNat m < UInt8.ofNat n ↔ m < n := by
  rw [UInt8.lt_iff_toNat_lt, UInt8.toNat_ofNat_of_lt' hm, UInt8.toNat_ofNat_of_lt' hn]

private theorem ofNat_eq_ofNat {m n : Nat} (hm : m < 256) (hn : n < 256) :
    UInt8.ofNat m = UInt8.ofNat n ↔ m = n := by
  rw [← UInt8.toNat_inj, UInt8.toNat_ofNat_of_lt' hm, UInt8.toNat_ofNat_of_lt' hn]

/-- The last six bits decide if all others are alike. -/
private theorem div_lt_or_mod_lt {m n : Nat} (h : m < n) :
    m / 64 < n / 64 ∨ m / 64 = n / 64 ∧ m % 64 < n % 64 := by
  omega

private theorem four_bytes_lt {m n : Nat} (h : m < n) :
    m / 262144 < n / 262144 ∨ m / 262144 = n / 262144 ∧
      (m / 4096 % 64 < n / 4096 % 64 ∨ m / 4096 % 64 = n / 4096 % 64 ∧
        (m / 64 % 64 < n / 64 % 64 ∨ m / 64 % 64 = n / 64 % 64 ∧ m % 64 < n % 64)) := by
  rcases div_lt_or_mod_lt h with h | ⟨heq, h⟩
  · rcases div_lt_or_mod_lt h with h | ⟨heq, h⟩
    · rcases div_lt_or_mod_lt h with h | ⟨heq, h⟩
      · left
        omega
      · right
        omega
    · right
      omega
  · right
    omega

theorem utf8EncodeChar_append_lt {a b : Char} (h : a.val < b.val) (s t : List UInt8) :
    String.utf8EncodeChar a ++ s < String.utf8EncodeChar b ++ t := by
  have hlt : a.val.toNat < b.val.toNat := UInt32.lt_iff_toNat_lt.1 h
  have hmax : b.val.toNat < 0x110000 := by
    rcases b.valid with hlow | ⟨-, hhigh⟩
    · omega
    · exact hhigh
  simp only [String.utf8EncodeChar]
  generalize a.val.toNat = m at *
  generalize b.val.toNat = n at *
  have hm : m / 262144 % 8 = m / 262144 := Nat.mod_eq_of_lt (by omega)
  have hn : n / 262144 % 8 = n / 262144 := Nat.mod_eq_of_lt (by omega)
  have hfour := four_bytes_lt hlt
  -- If the forms have different lengths, their first bytes are in different ranges.
  split_ifs <;> simp (disch := omega) only [List.cons_append, List.nil_append,
    List.cons_lt_cons_iff,
    ofNat_lt_ofNat, ofNat_eq_ofNat, hm, hn, Nat.add_lt_add_iff_right, Nat.add_right_cancel_iff]
  all_goals omega

/-- What comes before in the order of code points comes before byte by byte. -/
theorem bytes_lt {s t : Text} (h : le s t = true) (hne : s ≠ t) : s.bytes < t.bytes := by
  induction s generalizing t with
  | nil =>
    cases t with
    | nil => exact absurd rfl hne
    | cons b t =>
      obtain ⟨first, rest, hbytes⟩ : ∃ first rest, bytes (b :: t) = first :: rest := by
        rw [← List.length_pos_iff_exists_cons, bytes, List.flatMap_cons, List.length_append,
          String.length_utf8EncodeChar]
        exact Nat.add_pos_left b.utf8Size_pos _
      rw [hbytes]
      exact List.nil_lt_cons first rest
  | cons a s ih =>
    cases t with
    | nil => cases h
    | cons b t =>
      rw [bytes, bytes, List.flatMap_cons, List.flatMap_cons]
      rw [le, Bool.or_eq_true, decide_eq_true_iff, Bool.and_eq_true, beq_iff_eq] at h
      rcases h with hlt | ⟨rfl, hle⟩
      · exact utf8EncodeChar_append_lt hlt _ _
      · exact List.append_left_lt (ih hle fun heq => hne (heq ▸ rfl))

end Text

end StyleBundle

import Pinfile.Proofs.Manifest.EntryText
import Pinfile.Proofs.Text.LetterCase

/-!
# Keys of valid names

A valid package name is an ASCII text, and so is its key (`toNat_key_of_isValid`). Texts are
compared character by character. Such texts are written in one byte for each character, so the order
of keys is the order of their bytes (`Text.bytes_lt_of_ascii`).
-/

namespace Pinfile

/-! ## The bytes of an ASCII text -/

namespace Text

/-- A character of ASCII is written in one byte. -/
theorem utf8Encode_ascii {cs : List Char} (h : ∀ c ∈ cs, c.toNat < 0x80) :
    cs.utf8Encode.data.toList = cs.map fun c => c.val.toUInt8 := by
  induction cs with
  | nil => rfl
  | cons c cs ih =>
    have hc : c.val ≤ 127 := by
      have hlt := h c (by simp)
      exact UInt32.le_iff_toNat_le.mpr (Nat.le_of_lt_succ hlt)
    have hbyte := String.utf8EncodeChar_eq_singleton (Char.utf8Size_eq_one_iff.mpr hc)
    rw [List.utf8Encode_cons, List.utf8Encode_singleton, ByteArray.toList_data_append,
      List.toList_data_toByteArray, hbyte, ih fun d hd => h d (by simp [hd])]
    rfl

theorem byte_lt_of_ascii {c d : Char} (hc : c.toNat < 0x80) (hd : d.toNat < 0x80) (h : c < d) :
    c.val.toUInt8 < d.val.toUInt8 := by
  have hlt : c.toNat < d.toNat := UInt32.lt_iff_toNat_lt.mp h
  rw [UInt8.lt_iff_toNat_lt, UInt32.toNat_toUInt8, UInt32.toNat_toUInt8]
  show c.toNat % 2 ^ 8 < d.toNat % 2 ^ 8
  omega

/-- ASCII texts stand in the order of their bytes. -/
theorem bytes_lt_of_ascii {a b : String} (ha : ∀ c ∈ a.toList, c.toNat < 0x80)
    (hb : ∀ c ∈ b.toList, c.toNat < 0x80) (h : a < b) :
    a.toUTF8.data.toList < b.toUTF8.data.toList := by
  rw [String.lt_iff] at h
  rw [String.toUTF8_eq_toByteArray, String.toUTF8_eq_toByteArray, ← String.utf8Encode_toList,
    ← String.utf8Encode_toList, utf8Encode_ascii ha, utf8Encode_ascii hb]
  generalize a.toList = as at ha h ⊢
  generalize b.toList = bs at hb h ⊢
  induction as generalizing bs with
  | nil =>
    cases bs with
    | nil => exact absurd h (List.lt_irrefl _)
    | cons d bs => exact List.nil_lt_cons _ _
  | cons c as ih =>
    cases bs with
    | nil => exact absurd h (List.not_lt_nil _)
    | cons d bs =>
      rw [List.map_cons, List.map_cons, List.cons_lt_cons_iff]
      rcases List.cons_lt_cons_iff.mp h with hlt | ⟨rfl, hlt⟩
      · exact Or.inl (byte_lt_of_ascii (ha c (by simp)) (hb d (by simp)) hlt)
      · have has : ∀ x ∈ as, x.toNat < 0x80 := fun x hx => ha x (List.mem_cons_of_mem c hx)
        have hbs : ∀ x ∈ bs, x.toNat < 0x80 := fun x hx => hb x (List.mem_cons_of_mem c hx)
        exact Or.inr ⟨rfl, ih has bs hbs hlt⟩

end Text

/-! ## Keys of valid names -/

namespace PackageName

/-- The characters of names are characters of ASCII. -/
theorem toNat_of_isNameChar {c : Char} (h : isNameChar c = true) : c.toNat < 0x80 := by
  rcases Bool.or_eq_true_iff.mp h with h | h
  · have hrange := range_of_isAlphanum h
    omega
  · simp only [isSeparator, Bool.or_eq_true, beq_iff_eq] at h
    rcases h with (rfl | rfl) | rfl <;> decide

theorem toNat_toLower_of_ascii {c : Char} (h : c.toNat < 0x80) : c.toLower.toNat < 0x80 := by
  by_cases hc : c ∈ Text.capitals
  · have hall : Text.capitals.all (fun c => c.toLower.toNat < 0x80) = true := by decide +kernel
    exact of_decide_eq_true (List.all_eq_true.mp hall c hc)
  · rwa [Text.toLower_eq_self hc]

/-- The key of a valid name is an ASCII text. -/
theorem toNat_key_of_isValid {s : String} (h : isValid s = true) :
    ∀ d ∈ (normalize s).toList, d.toNat < 0x80 := by
  obtain ⟨-, -, -, hchars⟩ := isValid_iff.mp h
  intro d hd
  rw [normalize, String.toList_ofList] at hd
  rcases mem_keyChars hd with rfl | ⟨c, hc, -, hd⟩
  · decide
  · have hascii := toNat_of_isNameChar (hchars c hc)
    rw [Text.lowerChar_ascii hascii, List.mem_singleton] at hd
    rw [hd]
    exact toNat_toLower_of_ascii hascii

end PackageName
end Pinfile

import Pinfile.Text.Lowercase

/-!
# Package names

A package name keeps the spelling it was given, but two names are the same package when their
*keys* agree. The key replaces every run of `-`, `_` and `.` by one `-` and every other character
by its lowercase form, so `typing_extensions` and `Typing-Extensions` are one package.

A key never holds `_` or `.` (`mem_keyChars`), whatever the spelling.
-/

namespace Pinfile

/-- A package name as it was spelled. -/
structure PackageName where
  text : String
deriving DecidableEq, Repr, Inhabited

namespace PackageName

/-- The characters a run of which separates the words of a package name. -/
def isSeparator (c : Char) : Bool := c == '-' || c == '_' || c == '.'

/-- The key of a spelling. `inRun` says that the text continues a run of separators whose `-` is
already written. -/
def keyChars (inRun : Bool) : List Char → List Char
  | [] => []
  | c :: cs =>
    if isSeparator c then
      if inRun then keyChars true cs else '-' :: keyChars true cs
    else Text.lowerChar c ++ keyChars false cs

/-- The key of a spelling. -/
def normalize (s : String) : String := String.ofList (keyChars false s.toList)

/-- What two spellings of one package have in common. -/
def key (name : PackageName) : String := normalize name.text

/-- Two names are the same package when their keys agree. -/
def same (a b : PackageName) : Bool := a.key == b.key

/-- The characters a valid package name is made of. -/
def isNameChar (c : Char) : Bool := c.isAlphanum || isSeparator c

/-- A valid package name is not empty, is made of ASCII letters, digits and separators, and has a
letter or digit at either end. -/
def isValid (s : String) : Bool :=
  match s.toList.head?, s.toList.getLast? with
  | some first, some last => first.isAlphanum && last.isAlphanum && s.toList.all isNameChar
  | _, _ => false

@[simp] theorem same_iff (a b : PackageName) : same a b = true ↔ a.key = b.key := by
  simp [same]

/-- A character of a key is a single `-` of a run, or comes from the lowercase form of a character
that is no separator. -/
theorem mem_keyChars {inRun : Bool} {cs : List Char} {d : Char} (h : d ∈ keyChars inRun cs) :
    d = '-' ∨ ∃ c ∈ cs, isSeparator c = false ∧ d ∈ Text.lowerChar c := by
  induction cs generalizing inRun with
  | nil => simp [keyChars] at h
  | cons c cs ih =>
    have more : (∃ c ∈ cs, isSeparator c = false ∧ d ∈ Text.lowerChar c) →
        ∃ x ∈ c :: cs, isSeparator x = false ∧ d ∈ Text.lowerChar x :=
      fun ⟨x, hx, hd⟩ => ⟨x, by simp [hx], hd⟩
    unfold keyChars at h
    split at h
    · split at h
      · exact (ih h).imp_right more
      · rcases List.mem_cons.mp h with rfl | h
        · exact Or.inl rfl
        · exact (ih h).imp_right more
    · next hc =>
      rcases List.mem_append.mp h with h | h
      · exact Or.inr ⟨c, by simp, by simpa using hc, h⟩
      · exact (ih h).imp_right more

example : normalize "a-_.B" = "a-b" := by decide
example : isValid "zope.interface" = true ∧ isValid "pytest_" = false := by decide

end PackageName
end Pinfile

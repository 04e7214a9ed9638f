import Pinfile.Text.Digits

/-!
# Exact versions

An exact version is a list of release numbers, optionally followed by a post-release number:
`8.3.4`, `2.4.7.3`, `1.2.2.post1`. Its text has at most four segments between its dots, the
numbers are decimal without leading zeros, and each is below `2 ^ 64`. A text that is no exact
version is refused for the first reason that applies, in the order of the checks in `parse`.

The main statement is that a text which `parse` accepts has at least as many release numbers as the
policy asks for (`length_release_of_parse`).
-/

namespace Pinfile

/-- How strict the reading of versions is. -/
structure VersionPolicy where
  /-- Whether two release numbers are enough. -/
  allowShort : Bool := false
deriving DecidableEq, Repr, Inhabited

/-- The least number of release numbers that the policy accepts. -/
def VersionPolicy.minSegments (policy : VersionPolicy) : Nat := if policy.allowShort then 2 else 3

/-- Why a text is not an exact version. -/
inductive VersionError where
  | empty
  | nonNumeric (segment : String)
  | leadingZero (segment : String)
  | tooFewSegments (found min : Nat)
  | tooManySegments (found : Nat)
  | badPostRelease (segment : String)
deriving DecidableEq, Repr

/-- The wording of a version error. -/
def VersionError.message : VersionError → String
  | .empty => "version is empty"
  | .nonNumeric segment => "segment '" ++ segment ++ "' is not a number"
  | .leadingZero segment => "segment '" ++ segment ++ "' has a leading zero"
  | .tooFewSegments found min =>
    "expected at least " ++ min.repr ++ " release segments, found " ++ found.repr
  | .tooManySegments found => "expected at most 4 segments, found " ++ found.repr
  | .badPostRelease segment => "'" ++ segment ++ "' is not a valid post-release tag"

/-- A version that names one release. -/
structure ExactVersion where
  release : List Nat
  post : Option Nat := none
deriving DecidableEq, Repr

namespace ExactVersion

/-- The least number that a segment cannot hold. -/
def segmentBound : Nat := UInt64.size

/-- Reads one numeric segment. -/
def parseNumber (segment : List Char) : Except VersionError Nat :=
  if segment.isEmpty || !segment.all Char.isDigit then
    .error (.nonNumeric (String.ofList segment))
  else if segment.length > 1 && segment.head? == some '0' then
    .error (.leadingZero (String.ofList segment))
  else if Text.ofDigits segment < segmentBound then .ok (Text.ofDigits segment)
  else .error (.nonNumeric (String.ofList segment))

/-- How the text of a post-release tag begins. -/
def postTag : List Char := ['p', 'o', 's', 't']

/-- Splits off the last segment when it is a post-release tag. -/
def splitPost (segments : List (List Char)) :
    Except VersionError (List (List Char) × Option Nat) :=
  match segments.getLast? with
  | none => .ok (segments, none)
  | some last =>
    match postTag.isPrefixOf? last with
    | none => .ok (segments, none)
    | some digits =>
      match parseNumber digits with
      | .ok post => .ok (segments.dropLast, some post)
      | .error _ => .error (.badPostRelease (String.ofList last))

/-- The most segments that a version can have, the post-release tag included. -/
def maxSegments : Nat := 4

/-- Reads an exact version. -/
def parse (policy : VersionPolicy) (text : String) : Except VersionError ExactVersion :=
  if text.toList.isEmpty then .error .empty
  else
    let segments := text.toList.splitOn '.'
    if segments.length > maxSegments then .error (.tooManySegments segments.length)
    else do
      let (numbers, post) ← splitPost segments
      if numbers.length < policy.minSegments then
        throw (.tooFewSegments numbers.length policy.minSegments)
      let release ← numbers.mapM parseNumber
      return ⟨release, post⟩

/-- The text of an exact version. -/
def render (version : ExactVersion) : String :=
  String.intercalate "." (version.release.map Nat.repr) ++
    (match version.post with
    | none => ""
    | some post => ".post" ++ post.repr)

theorem length_of_mapM_ok {α β ε : Type} {f : α → Except ε β} {as : List α} {bs : List β}
    (h : as.mapM f = .ok bs) : bs.length = as.length := by
  induction as generalizing bs with
  | nil =>
    simp [pure, Except.pure] at h
    simp [← h]
  | cons a as ih =>
    rw [List.mapM_cons] at h
    cases ha : f a with
    | error e => simp [ha, bind, Except.bind] at h
    | ok b =>
      cases has : as.mapM f with
      | error e => simp [ha, has, bind, Except.bind] at h
      | ok rest =>
        simp [ha, has, bind, Except.bind, pure, Except.pure] at h
        simp [← h, ih has]

/-- An accepted text has at least as many release numbers as the policy asks for. -/
theorem length_release_of_parse {policy : VersionPolicy} {text : String} {v : ExactVersion}
    (h : parse policy text = .ok v) : policy.minSegments ≤ v.release.length := by
  unfold parse at h
  split at h
  · cases h
  · dsimp only at h
    split at h
    · cases h
    · cases hs : splitPost (text.toList.splitOn '.') with
      | error e => simp [hs, bind, Except.bind] at h
      | ok pair =>
        obtain ⟨numbers, post⟩ := pair
        by_cases hn : numbers.length < policy.minSegments
        · simp [hs, hn, bind, Except.bind, throw, throwThe, MonadExceptOf.throw] at h
        · cases hm : numbers.mapM parseNumber with
          | error e => simp [hs, hn, hm, bind, Except.bind] at h
          | ok release =>
            simp [hs, hn, hm, bind, Except.bind, pure, Except.pure] at h
            have := length_of_mapM_ok hm
            simp only [← h]
            omega

example : (parse {} "1.2.2.post1").toOption.map render = some "1.2.2.post1" := by decide +kernel
example : (parse {} "1.13").toOption = none := by decide +kernel
example : (parse ⟨true⟩ "1.13").toOption = some ⟨[1, 13], none⟩ := by decide +kernel

end ExactVersion
end Pinfile

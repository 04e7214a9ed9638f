/-!
# Paths

A path is kept as it was written: a mark for the leading slash and the texts between the other
slashes, empty ones and dots included. So a path prints as the text it was read from
(`text_ofText`), and joining and cutting paths only ever add or remove texts at the end.

`parent?` is lexical: it drops the last part and does not look at what `..` leads to. It always
shortens the path (`length_segments_of_parent?`), so going up from parent to parent ends.
-/

namespace Pinfile

/-- A path: whether it begins at the root, and the texts between its slashes. The first text of a
path that does not begin at the root is not empty. -/
structure Path where
  absolute : Bool
  segments : List String
deriving DecidableEq, Repr, Inhabited

namespace Path

/-! ## Text -/

/-- The texts between the slashes of a text; no text at all for the empty text. -/
def cut (cs : List Char) : List String :=
  if cs.isEmpty then [] else (cs.splitOn '/').map String.ofList

/-- Reads a path. -/
def ofText (s : String) : Path :=
  match s.toList with
  | '/' :: rest => ⟨true, cut rest⟩
  | cs => ⟨false, cut cs⟩

/-- The text of a path. -/
def text (p : Path) : String :=
  (if p.absolute then "/" else "") ++ String.intercalate "/" p.segments

/-! ## Joining -/

/-- The texts without an empty one at the end, which a slash at the end leaves. -/
def withoutSlash (segments : List String) : List String :=
  if segments.getLast? = some "" then segments.dropLast else segments

/-- The second path taken from the first. A path that begins at the root stays as it is, and the
empty path leaves a slash at the end. -/
def join (base p : Path) : Path :=
  if p.absolute then p
  else if base.segments.isEmpty then { base with segments := p.segments }
  else
    { base with
      segments := withoutSlash base.segments ++ if p.segments.isEmpty then [""] else p.segments }

/-- The path of a file in a directory. -/
def child (base : Path) (name : String) : Path := base.join (ofText name)

/-! ## Parts -/

/-- A text that names no part of a path. A dot does at the beginning of a path that does not begin
at the root, where it is the only text left. -/
def isIdle (s : String) : Bool := s == "" || s == "."

/-- The texts, given backwards, without the idle ones they begin with. The dot of a path such as
`./a` stays. -/
def dropIdle (absolute : Bool) : List String → List String
  | [] => []
  | s :: rest =>
    if isIdle s && (absolute || !rest.isEmpty || s == "") then dropIdle absolute rest else s :: rest

/-- The texts, given backwards, from the last part on. -/
def partsBack (p : Path) : List String := dropIdle p.absolute p.segments.reverse

/-- The path without its last part; `none` when it has no part. -/
def parent? (p : Path) : Option Path :=
  match p.partsBack with
  | [] => none
  | _ :: rest => some { p with segments := (dropIdle p.absolute rest).reverse }

/-- The name that a path ends with; `none` when its last part is a dot or two. -/
def fileName? (p : Path) : Option String :=
  match p.partsBack with
  | [] => none
  | s :: _ => if s = ".." ∨ s = "." then none else some s

/-! ## Small laws -/

theorem length_dropIdle_le (absolute : Bool) (segments : List String) :
    (dropIdle absolute segments).length ≤ segments.length := by
  induction segments with
  | nil => simp [dropIdle]
  | cons s rest ih =>
    unfold dropIdle
    split
    · simp only [List.length_cons]
      omega
    · exact Nat.le_refl _

/-- The parent of a path has fewer texts. -/
theorem length_segments_of_parent? {p q : Path} (h : p.parent? = some q) :
    q.segments.length < p.segments.length := by
  unfold parent? at h
  have h1 := length_dropIdle_le p.absolute p.segments.reverse
  split at h
  · cases h
  · next rest heq =>
    cases h
    have h2 := length_dropIdle_le p.absolute rest
    rw [partsBack] at heq
    rw [heq] at h1
    simp only [List.length_reverse, List.length_cons] at h1 ⊢
    omega

/-- A path that begins at the root is not changed by what it is taken from. -/
theorem join_absolute (base p : Path) (h : p.absolute = true) : base.join p = p := by
  simp [join, h]

/-- Taking a path from another one keeps whether it begins at the root. -/
theorem absolute_join (base p : Path) : (base.join p).absolute = (p.absolute || base.absolute) := by
  unfold join
  split
  · next h => simp [h]
  · next h =>
    split <;> simp [h]

theorem intercalate_cut (cs : List Char) :
    ['/'].intercalate ((cut cs).map String.toList) = cs := by
  unfold cut
  split
  · next h => simp [List.isEmpty_iff.mp h]
  · rw [List.map_map]
    have h : (String.toList ∘ String.ofList) = (id : List Char → List Char) := by
      funext cs
      simp
    rw [h, List.map_id]
    exact List.intercalate_splitOn '/'

/-- A path prints as the text it was read from. -/
@[simp] theorem text_ofText (s : String) : (ofText s).text = s := by
  apply String.ext_iff.mpr
  unfold ofText text
  split
  · next rest h => simp [intercalate_cut, h]
  · simp [intercalate_cut]

example : ((ofText "/a/b/").child "../c").text = "/a/b/../c" := by decide +kernel
example : ((ofText "/a/b").child "").text = "/a/b/" ∧ ((ofText "/").child "").text = "/" := by
  decide +kernel
example : (ofText "/a/./b/.").parent?.map text = some "/a" := by decide +kernel
example : (ofText "a").parent?.map text = some "" ∧ (ofText "/").parent? = none := by decide +kernel
example : (ofText "a/..").fileName? = none ∧ (ofText "a/b/").fileName? = some "b" := by
  decide +kernel

end Path
end Pinfile

import Mathlib.Data.List.Infix
import Pinfile.Files.Path

/-!
# The way up from a path

From parent to parent a path loses its last part each time, until it has none (`parts_eq_nil_of_parent?`,
`parent?_spec`). A part is a text between two slashes that is neither empty nor a dot; `..` is a part like
any name, since the way up does not look at what it leads to. The dot that a path such as `./a` begins with
is a part as well.

`upward` lists a path and those above it. Their parts are the beginnings of the path's parts, from all of
them down to none (`map_parts_upward`), so there is one path more than there are parts (`length_upward`).
-/

namespace Pinfile.Path

variable {p q : Path}

/-! ## Parts -/

/-- The parts of a path: its texts without the idle ones, and the dot that a path which does not begin
at the root may begin with. -/
def parts (p : Path) : List String :=
  (if !p.absolute && p.segments.head? == some "." then ["."] else []) ++
    p.segments.filter fun s => !isIdle s

/-- A text at the end is a part, unless it is one that `dropIdle` passes over. -/
theorem parts_append_singleton (absolute : Bool) (segments : List String) (s : String) :
    parts ⟨absolute, segments ++ [s]⟩ =
      if isIdle s && (absolute || !segments.isEmpty || s == "") then parts ⟨absolute, segments⟩
      else parts ⟨absolute, segments⟩ ++ [s] := by
  cases segments with
  | cons first rest =>
    have hlater : (absolute || !(first :: rest).isEmpty || s == "") = true := by simp
    rw [hlater, Bool.and_true]
    unfold parts
    rw [List.filter_append]
    cases hs : isIdle s <;> simp [hs]
  | nil =>
    -- the only text: here a dot may be a part
    by_cases hempty : s = ""
    · subst hempty
      simp [parts, isIdle]
    · by_cases hdot : s = "."
      · subst hdot
        cases absolute <;> simp [parts, isIdle]
      · simp [parts, isIdle, hempty, hdot]

/-- What is dropped from the end has no parts. -/
theorem parts_reverse_dropIdle (absolute : Bool) (back : List String) :
    parts ⟨absolute, (dropIdle absolute back).reverse⟩ = parts ⟨absolute, back.reverse⟩ := by
  induction back with
  | nil => rfl
  | cons s rest ih =>
    unfold dropIdle
    split
    · next hidle =>
      rw [ih, List.reverse_cons, parts_append_singleton, List.isEmpty_reverse, if_pos hidle]
    · rfl

/-- What is left begins with a part, if there is anything. -/
theorem parts_of_dropIdle_eq_cons {absolute : Bool} {back rest : List String} {s : String}
    (h : dropIdle absolute back = s :: rest) :
    parts ⟨absolute, (s :: rest).reverse⟩ = parts ⟨absolute, rest.reverse⟩ ++ [s] := by
  induction back with
  | nil => cases h
  | cons first later ih =>
    unfold dropIdle at h
    split at h
    · exact ih h
    · next hpart =>
      cases h
      rw [List.reverse_cons, parts_append_singleton, List.isEmpty_reverse, if_neg hpart]

theorem dropIdle_suffix (absolute : Bool) (back : List String) :
    dropIdle absolute back <:+ back := by
  induction back with
  | nil => exact List.suffix_rfl
  | cons s rest ih =>
    unfold dropIdle
    split
    · exact ih.trans (List.suffix_cons s rest)
    · exact List.suffix_rfl

/-! ## Parents -/

/-- A path without parent has no parts. -/
theorem parts_eq_nil_of_parent? (h : p.parent? = none) : p.parts = [] := by
  unfold parent? at h
  split at h
  · next hback =>
    have hparts := parts_reverse_dropIdle p.absolute p.segments.reverse
    rw [← partsBack, hback, List.reverse_reverse] at hparts
    calc p.parts = parts ⟨p.absolute, []⟩ := hparts.symm
      _ = [] := by simp [parts]
  · cases h

/-- The parent is a beginning of the path, and has all of its parts but the last. -/
theorem parent?_spec (h : p.parent? = some q) :
    q.absolute = p.absolute ∧ q.segments <+: p.segments ∧ ∃ s, p.parts = q.parts ++ [s] := by
  unfold parent? at h
  split at h
  · cases h
  · next s rest hback =>
    obtain rfl := Option.some.inj h
    rw [partsBack] at hback
    refine ⟨rfl, ?_, s, ?_⟩
    · have hrest : rest <:+ p.segments.reverse := by
        have hsuffix := dropIdle_suffix p.absolute p.segments.reverse
        rw [hback] at hsuffix
        exact (List.suffix_cons s rest).trans hsuffix
      have hkept := (dropIdle_suffix p.absolute rest).trans hrest
      simpa using List.reverse_prefix.mpr hkept
    · have hparts := parts_reverse_dropIdle p.absolute p.segments.reverse
      rw [hback, parts_of_dropIdle_eq_cons hback, List.reverse_reverse] at hparts
      calc p.parts = parts ⟨p.absolute, rest.reverse⟩ ++ [s] := hparts.symm
        _ = parts ⟨p.absolute, (dropIdle p.absolute rest).reverse⟩ ++ [s] := by
          rw [parts_reverse_dropIdle]

/-! ## The paths upward -/

/-- The path with those above it, from parent to parent. -/
def upward (p : Path) : List Path :=
  p ::
    match h : p.parent? with
    | none => []
    | some parent =>
      have := Path.length_segments_of_parent? h
      parent.upward
termination_by p.segments.length

theorem upward_of_none (h : p.parent? = none) : p.upward = [p] := by
  rw [upward]
  split
  · rfl
  · next h' =>
    rw [h] at h'
    cases h'

theorem upward_of_some {parent : Path} (h : p.parent? = some parent) :
    p.upward = p :: parent.upward := by
  rw [upward]
  split
  · next h' =>
    rw [h] at h'
    cases h'
  · next q h' =>
    rw [h] at h'
    rw [Option.some.inj h']

theorem mem_upward_self (p : Path) : p ∈ p.upward := by
  rw [upward]
  exact List.mem_cons_self

theorem upward_subset {parent : Path} (h : p.parent? = some parent) :
    parent.upward ⊆ p.upward := by
  rw [upward_of_some h]
  exact List.subset_cons_self p parent.upward

/-- The first path upward is the path itself. -/
theorem getElem?_upward_zero (p : Path) : p.upward[0]? = some p := by
  rw [upward]
  rfl

/-- Each path upward is followed by its parent, and the last one has none. -/
theorem getElem?_upward_succ (p : Path) (n : Nat) :
    p.upward[n + 1]? = p.upward[n]?.bind parent? := by
  induction p using upward.induct generalizing n with
  | _ p ih =>
    cases h : p.parent? with
    | none =>
      rw [upward_of_none h]
      cases n with
      | zero => simp [h]
      | succ n => simp
    | some parent =>
      rw [upward_of_some h]
      cases n with
      | zero => simp [h, getElem?_upward_zero]
      | succ n => exact ih parent h n

/-- The paths upward are beginnings of the path. -/
theorem of_mem_upward (h : q ∈ p.upward) :
    q.absolute = p.absolute ∧ q.segments <+: p.segments := by
  induction p using upward.induct with
  | _ p ih =>
    cases hparent : p.parent? with
    | none =>
      rw [upward_of_none hparent, List.mem_singleton] at h
      subst h
      exact ⟨rfl, List.prefix_rfl⟩
    | some parent =>
      rw [upward_of_some hparent, List.mem_cons] at h
      rcases h with rfl | h
      · exact ⟨rfl, List.prefix_rfl⟩
      · obtain ⟨habsolute, hprefix, -⟩ := parent?_spec hparent
        obtain ⟨habove, hbeginning⟩ := ih parent hparent h
        exact ⟨habove.trans habsolute, hbeginning.trans hprefix⟩

/-- The paths upward have fewer and fewer of the parts, from all of them to none. -/
theorem map_parts_upward (p : Path) : p.upward.map parts = p.parts.inits.reverse := by
  induction p using upward.induct with
  | _ p ih =>
    cases h : p.parent? with
    | none =>
      rw [upward_of_none h, List.map_singleton, parts_eq_nil_of_parent? h]
      rfl
    | some parent =>
      obtain ⟨-, -, s, hs⟩ := parent?_spec h
      rw [upward_of_some h, List.map_cons, ih parent h, hs, List.inits_append]
      simp

/-- There is one path upward more than there are parts. -/
theorem length_upward (p : Path) : p.upward.length = p.parts.length + 1 := by
  simpa using congrArg List.length (map_parts_upward p)

example : (ofText "./a//./b/../").parts = [".", "a", "b", ".."] := by decide +kernel
example : (ofText "/a/.").upward.map parts = [["a"], []] := by
  rw [map_parts_upward]
  decide +kernel

end Pinfile.Path

import Mathlib.Data.List.Induction
import Pinfile.Files.Tree
import Pinfile.Proofs.Results

/-!
# What writing leaves of a tree

Writing to a file and making a directory put one thing in one place (`exists_of_write`,
`exists_of_makeDir`), and it is no place where a directory stands. So a tree only grows (`Grows`): a
directory stays a directory, a file stays a file, and where nothing was written the files have the
contents they had. A path that leads to something goes on leading to the same place (`Grows.find`),
and a text that was written is the text that is read (`read_of_write`). New directories besides are
made where paths that are given lead (`Changes`).

A path may come to lead to a file that nobody wrote: as soon as `new` is made, `new/../file` leads to
the file beside it. A path is safe from this when it leads up only within what is there
(`Anchored`), as every path without `..` does, and the path of every file that is there. In a tree
where everything stands in a directory (`Rooted`) it comes to lead to a file only where one is written
(`Grows.find_file_of_anchored`).
-/

namespace Pinfile.FileTree

variable {t t' t'' : FileTree} {p : Path} {s text : String} {ss : List String}
  {place q : List String} {n : Node} {c : ByteArray} {written written' : List (List String)}

/-! ## What stands at a path -/

theorem checkDirectory_eq_ok_iff {u : Unit} :
    t.checkDirectory q = .ok u ↔ t.node? q = some .directory := by
  unfold checkDirectory
  split <;> simp [*]

theorem enter_eq_ok_iff :
    t.enter place s = .ok q ↔ t.node? place = some .directory ∧ placeOf place s = .ok q := by
  simp [enter, bind_eq_ok_iff, checkDirectory_eq_ok_iff]

theorem follow_cons_eq_ok_iff :
    t.follow place (s :: ss) = .ok q ↔
      ∃ next, t.enter place s = .ok next ∧ t.follow next ss = .ok q := by
  rw [follow, List.foldlM_cons, bind_eq_ok_iff]
  rfl

theorem find_eq_ok_iff :
    t.find p = .ok (q, n) ↔
      p.fault? = none ∧ t.follow [] p.segments = .ok q ∧ t.node? q = some n := by
  unfold find
  cases p.fault? with
  | some e => simp
  | none =>
    simp only [bind_eq_ok_iff, true_and]
    constructor
    · rintro ⟨r, hfollow, hnode⟩
      split at hnode
      · next hn =>
        obtain ⟨rfl, rfl⟩ := Prod.mk.inj (Except.ok.inj hnode)
        exact ⟨hfollow, hn⟩
      · cases hnode
    · rintro ⟨hfollow, hn⟩
      refine ⟨q, hfollow, ?_⟩
      rw [hn]
      rfl

/-- What can be read at a path is a file with a text for its content. -/
theorem read_eq_ok_iff :
    t.read p = .ok text ↔ ∃ q c, t.find p = .ok (q, .file c) ∧ String.fromUTF8? c = some text := by
  unfold read
  rw [bind_eq_ok_iff]
  constructor
  · rintro ⟨⟨q, n⟩, hfind, hread⟩
    cases n with
    | directory => cases hread
    | file c =>
      dsimp only at hread
      split at hread
      · next s hs =>
        obtain rfl := Except.ok.inj hread
        exact ⟨q, c, hfind, hs⟩
      · cases hread
  · rintro ⟨q, c, hfind, htext⟩
    refine ⟨(q, .file c), hfind, ?_⟩
    simp only [htext]
    rfl

theorem isFile_iff : t.isFile p = true ↔ ∃ q c, t.find p = .ok (q, .file c) := by
  unfold isFile kind?
  split <;> simp [*]

/-! ## Growing -/

/-- The second tree is the first one after files at the given places were written and directories were
made. -/
structure Grows (written : List (List String)) (t t' : FileTree) : Prop where
  directory : ∀ q, t.node? q = some .directory → t'.node? q = some .directory
  stays : ∀ q c, t.node? q = some (.file c) → ∃ c', t'.node? q = some (.file c')
  kept : ∀ q c, q ∉ written → (t'.node? q = some (.file c) ↔ t.node? q = some (.file c))
  /-- What is new stands in a directory. -/
  parent : ∀ q, t.node? q = none → t'.node? q ≠ none → t'.node? q.dropLast = some .directory

namespace Grows

theorem refl (t : FileTree) : Grows [] t t :=
  ⟨fun _ h => h, fun _ c h => ⟨c, h⟩, fun _ _ _ => Iff.rfl, fun _ h h' => absurd h h'⟩

theorem trans (h : Grows written t t') (h' : Grows written' t' t'') :
    Grows (written ++ written') t t'' := by
  refine ⟨fun q hq => h'.directory q (h.directory q hq), fun q c hq => ?_, fun q c hq => ?_,
    fun q hq hq'' => ?_⟩
  · obtain ⟨c', hc'⟩ := h.stays q c hq
    exact h'.stays q c' hc'
  · rw [List.mem_append, not_or] at hq
    rw [h'.kept q c hq.2, h.kept q c hq.1]
  · by_cases hq' : t'.node? q = none
    · exact h'.parent q hq' hq''
    · exact h'.directory q.dropLast (h.parent q hq hq')

/-- What is put in a directory, where no directory is, leaves every directory as it is. -/
theorem node?_put_directory (hplace : place ≠ []) (h : t.node? place ≠ some .directory)
    (hq : t.node? q = some .directory) (n : Node) : (t.put place n).node? q = some .directory := by
  rw [node?_put t place q n hplace, if_neg, hq]
  rintro rfl
  exact h hq

/-- The only thing that is new is what was put. -/
theorem parent_put (hplace : place ≠ []) (h : t.node? place ≠ some .directory)
    (hparent : t.node? place.dropLast = some .directory) (hq : t.node? q = none)
    (hq' : (t.put place n).node? q ≠ none) :
    (t.put place n).node? q.dropLast = some .directory := by
  rw [node?_put t place q n hplace] at hq'
  split at hq'
  · next heq =>
    rw [heq]
    exact node?_put_directory hplace h hparent n
  · exact absurd hq hq'

theorem put_file (hplace : place ≠ []) (hparent : t.node? place.dropLast = some .directory)
    (h : t.node? place ≠ some .directory) (c : ByteArray) :
    Grows [place] t (t.put place (.file c)) := by
  refine ⟨fun q hq => node?_put_directory hplace h hq _, fun q c' hq => ?_, fun q c' hq => ?_,
    fun q => parent_put hplace h hparent⟩
  · rw [node?_put t place q _ hplace]
    split
    · exact ⟨c, rfl⟩
    · exact ⟨c', hq⟩
  · rw [node?_put t place q _ hplace, if_neg (by simpa using hq)]

theorem put_directory (hplace : place ≠ []) (hparent : t.node? place.dropLast = some .directory)
    (h : t.node? place = none) : Grows [] t (t.put place .directory) := by
  have hdirectory : t.node? place ≠ some .directory := by simp [h]
  refine ⟨fun q hq => node?_put_directory hplace hdirectory hq _, fun q c hq => ⟨c, ?_⟩,
    fun q c _ => ?_, fun q => parent_put hplace hdirectory hparent⟩
  · rw [node?_put t place q _ hplace, if_neg, hq]
    rintro rfl
    rw [h] at hq
    cases hq
  · rw [node?_put t place q _ hplace]
    split
    · next heq =>
      rw [heq, h]
      simp
    · rfl

/-! ### Paths in a grown tree -/

theorem follow (h : Grows written t t') (hfollow : t.follow place ss = .ok q) :
    t'.follow place ss = .ok q := by
  induction ss generalizing place with
  | nil => exact hfollow
  | cons s ss ih =>
    obtain ⟨next, henter, hrest⟩ := follow_cons_eq_ok_iff.mp hfollow
    obtain ⟨hdirectory, hplace⟩ := enter_eq_ok_iff.mp henter
    exact follow_cons_eq_ok_iff.mpr
      ⟨next, enter_eq_ok_iff.mpr ⟨h.directory place hdirectory, hplace⟩, ih hrest⟩

/-- A path that led to a place leads there still, to what stands there now. -/
theorem find {n' : Node} (h : Grows written t t') (hfind : t.find p = .ok (q, n))
    (hnode : t'.node? q = some n') : t'.find p = .ok (q, n') := by
  obtain ⟨hfault, hfollow, -⟩ := find_eq_ok_iff.mp hfind
  exact find_eq_ok_iff.mpr ⟨hfault, h.follow hfollow, hnode⟩

theorem find_file (h : Grows written t t') (hfind : t.find p = .ok (q, .file c)) :
    ∃ c', t'.find p = .ok (q, .file c') := by
  obtain ⟨c', hc'⟩ := h.stays q c (find_eq_ok_iff.mp hfind).2.2
  exact ⟨c', h.find hfind hc'⟩

theorem find_file_kept (h : Grows written t t') (hq : q ∉ written)
    (hfind : t.find p = .ok (q, .file c)) : t'.find p = .ok (q, .file c) :=
  h.find hfind ((h.kept q c hq).mpr (find_eq_ok_iff.mp hfind).2.2)

theorem isFile (h : Grows written t t') (hfile : t.isFile p = true) : t'.isFile p = true := by
  obtain ⟨q, c, hfind⟩ := isFile_iff.mp hfile
  obtain ⟨c', hfind'⟩ := h.find_file hfind
  exact isFile_iff.mpr ⟨q, c', hfind'⟩

/-- Where no file was written, every text is still read. -/
theorem read (h : Grows [] t t') (hread : t.read p = .ok text) : t'.read p = .ok text := by
  obtain ⟨place, c, hfind, htext⟩ := read_eq_ok_iff.mp hread
  exact read_eq_ok_iff.mpr ⟨place, c, h.find_file_kept List.not_mem_nil hfind, htext⟩

end Grows

/-! ## Writing a file -/

/-- The last text of a path is not empty. -/
theorem ne_of_splitLast {segments way : List String} {slash : Bool}
    (h : splitLast segments = some (way, s, slash)) : s ≠ "" := by
  unfold splitLast at h
  split at h
  · cases h
  · next name rest hdrop =>
    obtain ⟨-, hpair⟩ := Prod.mk.inj (Option.some.inj h)
    have hname := List.head?_dropWhile_not (fun s => s == "") segments.reverse
    rw [hdrop, List.head?_cons] at hname
    rw [← (Prod.mk.inj hpair).1]
    simpa using hname

/-- Behind the last text of a path there are no more than slashes. -/
theorem exists_append_of_splitLast {segments way : List String} {slash : Bool}
    (h : splitLast segments = some (way, s, slash)) :
    ∃ slashes, segments = way ++ s :: slashes ∧ (∀ r ∈ slashes, r = "") ∧
      slash = (segments.getLast? == some "") := by
  unfold splitLast at h
  split at h
  · cases h
  · next name rest hdrop =>
    obtain ⟨rfl, hpair⟩ := Prod.mk.inj (Option.some.inj h)
    obtain ⟨rfl, rfl⟩ := Prod.mk.inj hpair
    have hcut := List.takeWhile_append_dropWhile (p := fun s => s == "") (l := segments.reverse)
    rw [hdrop] at hcut
    refine ⟨(segments.reverse.takeWhile fun s => s == "").reverse, ?_, fun r hr => ?_, rfl⟩
    · have hback := congrArg List.reverse hcut
      rw [List.reverse_append, List.reverse_cons, List.append_assoc, List.reverse_reverse] at hback
      exact hback.symm
    · simpa using List.all_eq_true.mp List.all_takeWhile r (List.mem_reverse.mp hr)

/-- Where no slash follows, the last text ends the path. -/
theorem eq_append_of_splitLast {segments way : List String}
    (h : splitLast segments = some (way, s, false)) : segments = way ++ [s] := by
  obtain ⟨slashes, hsegments, hslashes, hlast⟩ := exists_append_of_splitLast h
  cases slashes using List.reverseRecOn with
  | nil => exact hsegments
  | append_singleton slashes r =>
    obtain rfl := hslashes r (by simp)
    rw [hsegments, ← List.cons_append, ← List.append_assoc, List.getLast?_concat] at hlast
    cases hlast

/-- A name that is no dots leads from a directory to what it names there. -/
theorem placeOf_of_name (hne : s ≠ "") (hdots : isDots s = false) (h : placeOf place s = .ok q) :
    q = place ++ [s] := by
  simp only [isDots, Bool.or_eq_false_iff, beq_eq_false_iff_ne] at hdots
  rw [placeOf, if_neg (by simp [hne, hdots.1]), if_neg hdots.2] at h
  split at h
  · cases h
  · exact (Except.ok.inj h).symm

/-- Writing a file puts its content where its path leads. -/
theorem exists_of_write (h : t.write p text = .ok t') :
    ∃ place, place ≠ [] ∧ t.node? place.dropLast = some .directory ∧
      t.node? place ≠ some .directory ∧ t' = t.put place (.file text.toUTF8) ∧
      t'.find p = .ok (place, .file text.toUTF8) := by
  unfold write at h
  split at h
  · cases h
  · cases h
  · next way name slash hfault hsplit =>
    obtain ⟨folder, hfollow, hrest⟩ := bind_eq_ok_iff.mp h
    obtain ⟨_, hfolder, hput⟩ := bind_eq_ok_iff.mp hrest
    rw [checkDirectory_eq_ok_iff] at hfolder
    split at hput
    · cases hput
    next hname =>
    obtain ⟨place, hplace, hlast⟩ := bind_eq_ok_iff.mp hput
    obtain ⟨rfl, hdots⟩ : slash = false ∧ isDots name = false := by simpa using hname
    have hne := ne_of_splitLast hsplit
    obtain rfl : place = folder ++ [name] := placeOf_of_name hne hdots hplace
    have hnil : folder ++ [name] ≠ [] := by simp
    have hparent : t.node? (folder ++ [name]).dropLast = some .directory := by
      rw [List.dropLast_concat, hfolder]
    have hnode : t.node? (folder ++ [name]) ≠ some .directory ∧
        t' = t.put (folder ++ [name]) (.file text.toUTF8) := by
      split at hlast
      · cases hlast
      · next hnode => exact ⟨hnode, (Except.ok.inj hlast).symm⟩
    obtain ⟨hnode, rfl⟩ := hnode
    have hgrows := Grows.put_file hnil hparent hnode text.toUTF8
    refine ⟨_, hnil, hparent, hnode, rfl, find_eq_ok_iff.mpr ⟨hfault, ?_, ?_⟩⟩
    · rw [eq_append_of_splitLast hsplit, follow_append, hgrows.follow hfollow]
      have henter := enter_eq_ok_iff.mpr ⟨hgrows.directory folder hfolder, hplace⟩
      exact follow_cons_eq_ok_iff.mpr ⟨_, henter, rfl⟩
    · rw [node?_put _ _ _ _ hnil, if_pos rfl]

/-- What was written is what is read. -/
theorem read_of_write (h : t.write p text = .ok t') : t'.read p = .ok text := by
  obtain ⟨place, -, -, -, -, hfind⟩ := exists_of_write h
  exact read_eq_ok_iff.mpr ⟨place, _, hfind, dif_pos text.isValidUTF8⟩

/-- Slashes at the end lead nowhere else. -/
theorem follow_of_slashes (hq : t.node? q = some .directory) (hss : ∀ s ∈ ss, s = "") :
    t.follow q ss = .ok q := by
  induction ss with
  | nil => rfl
  | cons s ss ih =>
    obtain rfl := hss s List.mem_cons_self
    refine follow_cons_eq_ok_iff.mpr ⟨q, enter_eq_ok_iff.mpr ⟨hq, if_pos (Or.inl rfl)⟩, ?_⟩
    exact ih fun r hr => hss r (List.mem_cons_of_mem _ hr)

/-- Making a directory puts it where its path leads, in a directory where nothing was. -/
theorem exists_of_makeDir (h : t.makeDir p = .ok t') :
    ∃ place, place ≠ [] ∧ t.node? place.dropLast = some .directory ∧ t.node? place = none ∧
      t' = t.put place .directory ∧ t'.find p = .ok (place, .directory) := by
  unfold makeDir at h
  split at h
  · cases h
  · cases h
  · next way name slash hfault hsplit =>
    obtain ⟨folder, hfollow, hrest⟩ := bind_eq_ok_iff.mp h
    obtain ⟨_, hfolder, hput⟩ := bind_eq_ok_iff.mp hrest
    rw [checkDirectory_eq_ok_iff] at hfolder
    split at hput
    · cases hput
    next hdots =>
    obtain ⟨place, hplace, hlast⟩ := bind_eq_ok_iff.mp hput
    obtain rfl : place = folder ++ [name] :=
      placeOf_of_name (ne_of_splitLast hsplit) (by simpa using hdots) hplace
    have hnil : folder ++ [name] ≠ [] := by simp
    have hparent : t.node? (folder ++ [name]).dropLast = some .directory := by
      rw [List.dropLast_concat, hfolder]
    split at hlast
    · cases hlast
    next hnode =>
    obtain rfl := Except.ok.inj hlast
    have hmade : (t.put (folder ++ [name]) .directory).node? (folder ++ [name]) =
        some .directory := by rw [node?_put _ _ _ _ hnil, if_pos rfl]
    refine ⟨_, hnil, hparent, hnode, rfl, find_eq_ok_iff.mpr ⟨hfault, ?_, hmade⟩⟩
    have hgrows := Grows.put_directory hnil hparent hnode
    have henter := enter_eq_ok_iff.mpr ⟨hgrows.directory folder hfolder, hplace⟩
    obtain ⟨slashes, hsegments, hslashes, -⟩ := exists_append_of_splitLast hsplit
    rw [hsegments, follow_append, hgrows.follow hfollow]
    exact follow_cons_eq_ok_iff.mpr ⟨_, henter, follow_of_slashes hmade hslashes⟩

/-! ## Where a tree changes -/

/-- The second tree is the first one after files at the given places were written and missing
directories were made, to which paths of the list lead. So it is said of every place whether anything
may have happened there. -/
structure Changes (written : List (List String)) (paths : List Path) (t t' : FileTree) : Prop where
  grows : Grows written t t'
  made : ∀ q, q ∉ written → t.node? q = none → t'.node? q ≠ none →
    ∃ p ∈ paths, t'.find p = .ok (q, .directory)

namespace Changes

variable {paths paths' : List Path}

theorem refl (t : FileTree) : Changes [] paths t t := ⟨.refl t, fun _ _ h h' => absurd h h'⟩

theorem mono (h : Changes written paths t t') (hpaths : paths ⊆ paths') :
    Changes written paths' t t' := by
  refine ⟨h.grows, fun q hq hnone hnew => ?_⟩
  obtain ⟨p, hp, hfind⟩ := h.made q hq hnone hnew
  exact ⟨p, hpaths hp, hfind⟩

theorem trans (h : Changes written paths t t') (h' : Changes written' paths t' t'') :
    Changes (written ++ written') paths t t'' := by
  refine ⟨h.grows.trans h'.grows, fun q hq hnone hnew => ?_⟩
  rw [List.mem_append, not_or] at hq
  by_cases hbefore : t'.node? q = none
  · exact h'.made q hq.2 hbefore hnew
  · -- what the first change has made is a directory still, and the path leads to it still
    obtain ⟨p, hp, hfind⟩ := h.made q hq.1 hnone hbefore
    obtain ⟨-, -, hdirectory⟩ := find_eq_ok_iff.mp hfind
    exact ⟨p, hp, h'.grows.find hfind (h'.grows.directory q hdirectory)⟩

theorem of_makeDir (h : t.makeDir p = .ok t') : Changes [] [p] t t' := by
  obtain ⟨place, hplace, hparent, hnone, rfl, hfind⟩ := exists_of_makeDir h
  refine ⟨Grows.put_directory hplace hparent hnone, fun q _ hq hnew => ?_⟩
  refine ⟨p, List.mem_singleton_self p, ?_⟩
  rw [node?_put t place q _ hplace] at hnew
  split at hnew
  · next heq =>
    rw [heq]
    exact hfind
  · exact absurd hq hnew

/-- A file is written at the place that its path leads to then. -/
theorem exists_of_write (paths : List Path) (h : t.write p text = .ok t') :
    ∃ place, t'.find p = .ok (place, .file text.toUTF8) ∧ Changes [place] paths t t' := by
  obtain ⟨place, hplace, hparent, hnode, rfl, hfind⟩ := FileTree.exists_of_write h
  refine ⟨place, hfind, Grows.put_file hplace hparent hnode _, fun q hq hnone hnew => ?_⟩
  rw [node?_put t place q _ hplace, if_neg (by simpa using hq)] at hnew
  exact absurd hnone hnew

end Changes

/-! ## Rooted trees -/

/-- Whatever stands in the tree stands in a directory. -/
def Rooted (t : FileTree) : Prop := ∀ q, t.node? q ≠ none → t.node? q.dropLast = some .directory

theorem rooted_empty : empty.Rooted := by
  intro q hq
  cases q with
  | nil => rfl
  | cons s q => exact absurd rfl hq

/-- A tree that grows stays rooted. -/
theorem Grows.rooted (h : Grows written t t') (hrooted : t.Rooted) : t'.Rooted := by
  intro q hq
  by_cases hnone : t.node? q = none
  · exact h.parent q hnone hq
  · exact h.directory _ (hrooted q hnone)

/-- So does a tree in which something is put in a directory where nothing is. -/
theorem Rooted.put (hrooted : t.Rooted) (hplace : place ≠ [])
    (hparent : t.node? place.dropLast = some .directory) (h : t.node? place = none) :
    (t.put place n).Rooted := by
  cases n with
  | file c => exact (Grows.put_file hplace hparent (by simp [h]) c).rooted hrooted
  | directory => exact (Grows.put_directory hplace hparent h).rooted hrooted

/-- In a rooted tree directories lead to everything. -/
theorem Rooted.node?_of_prefix (hrooted : t.Rooted) (hq : t.node? q ≠ none) (h : place <+: q)
    (hne : place ≠ q) : t.node? place = some .directory := by
  induction q using List.reverseRecOn with
  | nil => exact absurd (List.prefix_nil.mp h) hne
  | append_singleton q s ih =>
    have hparent : t.node? q = some .directory := by
      have hdirectory := hrooted _ hq
      rwa [List.dropLast_concat] at hdirectory
    rcases List.prefix_concat_iff.mp h with heq | hprefix
    · exact absurd heq hne
    · by_cases heq : place = q
      · rw [heq, hparent]
      · exact ih (by simp [hparent]) hprefix heq

theorem prefix_of_placeOf (hs : s ≠ "..") (h : placeOf place s = .ok q) : place <+: q := by
  rw [placeOf, if_neg hs] at h
  split at h
  · obtain rfl := Except.ok.inj h
    exact List.prefix_rfl
  · split at h
    · cases h
    · rw [← Except.ok.inj h]
      exact List.prefix_append place [s]

/-- A path that leads nowhere up leads below where it starts. -/
theorem prefix_of_follow (hss : ".." ∉ ss) (h : t.follow place ss = .ok q) : place <+: q := by
  induction ss generalizing place with
  | nil =>
    obtain rfl := Except.ok.inj h
    exact List.prefix_rfl
  | cons s ss ih =>
    rw [List.mem_cons, not_or] at hss
    obtain ⟨next, henter, hrest⟩ := follow_cons_eq_ok_iff.mp h
    exact (prefix_of_placeOf (Ne.symm hss.1) (enter_eq_ok_iff.mp henter).2).trans (ih hss.2 hrest)

/-- Where a rooted tree has a file, a path that leads nowhere up leads to it if it does in any other
tree. -/
theorem Rooted.follow_eq_ok (hrooted : t.Rooted) (hq : t.node? q = some (.file c)) (hss : ".." ∉ ss)
    (hfile : t'.node? q ≠ some .directory) (h : t'.follow place ss = .ok q) :
    t.follow place ss = .ok q := by
  induction ss generalizing place with
  | nil => exact h
  | cons s ss ih =>
    have hprefix := prefix_of_follow hss h
    obtain ⟨next, henter, hrest⟩ := follow_cons_eq_ok_iff.mp h
    obtain ⟨hdirectory, hplace⟩ := enter_eq_ok_iff.mp henter
    have hne : place ≠ q := by
      rintro rfl
      exact hfile hdirectory
    have hthere := hrooted.node?_of_prefix (by simp [hq]) hprefix hne
    exact follow_cons_eq_ok_iff.mpr ⟨next, enter_eq_ok_iff.mpr ⟨hthere, hplace⟩,
      ih (fun hmem => hss (List.mem_cons_of_mem s hmem)) hrest⟩

/-! ## Anchored paths -/

/-- A path leads up only within the tree: as far as its last `..` it leads somewhere already. -/
def Anchored (t : FileTree) (p : Path) : Prop :=
  ∃ way rest place, p.segments = way ++ rest ∧ ".." ∉ rest ∧ t.follow [] way = .ok place

/-- A path that leads nowhere up is anchored in every tree. -/
theorem anchored_of_plain (t : FileTree) (hplain : ".." ∉ p.segments) : t.Anchored p :=
  ⟨[], p.segments, [], rfl, hplain, rfl⟩

/-- So is the path of a file. -/
theorem anchored_of_isFile (h : t.isFile p = true) : t.Anchored p := by
  obtain ⟨q, c, hfind⟩ := isFile_iff.mp h
  obtain ⟨-, hfollow, -⟩ := find_eq_ok_iff.mp hfind
  exact ⟨p.segments, [], q, (List.append_nil _).symm, List.not_mem_nil, hfollow⟩

theorem Grows.anchored (h : Grows written t t') (hanchored : t.Anchored p) : t'.Anchored p := by
  obtain ⟨way, rest, folder, hsegments, hrest, hway⟩ := hanchored
  exact ⟨way, rest, folder, hsegments, hrest, h.follow hway⟩

/-- In a rooted tree that grows, an anchored path comes to lead to a file only where one is
written. -/
theorem Grows.find_file_of_anchored (h : Grows written t t') (hrooted : t.Rooted)
    (hanchored : t.Anchored p) (hq : q ∉ written) (hfind : t'.find p = .ok (q, .file c)) :
    t.find p = .ok (q, .file c) := by
  obtain ⟨way, rest, folder, hsegments, hrest, hway⟩ := hanchored
  obtain ⟨hfault, hfollow, hnode⟩ := find_eq_ok_iff.mp hfind
  have hthere := (h.kept q c hq).mp hnode
  -- both trees lead to the same place as far as the last `..`
  rw [hsegments, follow_append, h.follow hway] at hfollow
  have hbefore := hrooted.follow_eq_ok hthere hrest (by simp [hnode]) hfollow
  refine find_eq_ok_iff.mpr ⟨hfault, ?_, hthere⟩
  rw [hsegments, follow_append, hway]
  exact hbefore

end Pinfile.FileTree

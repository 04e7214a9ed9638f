import Pinfile.Proofs.Manifest.LineEnds
import Pinfile.Proofs.Operation.Recording
import Pinfile.Proofs.Toml.Refolding

/-!
# Checks do not depend on line ends

A file whose lines end in line feeds may be converted so that some of them end in carriage returns and
line feeds. In the tree after that the same paths lead to the same places (`FileTree.Refolded`), a
configuration or a lockfile that was converted says what it said, and a manifest has the same entries
on the same lines and the same checksum. So a check of the lockfile ends as it did
(`lockVerdict_of_refolded`), whichever files were converted.
-/

namespace Pinfile

open Text

/-- The failure, with nothing said about the place of a syntax error but the line and the length. -/
def Failure.unplaced : Failure → Failure
  | malformedManifest path e => malformedManifest path e.unplaced
  | f => f

/-- The checksum of a text is that of the widened text. -/
theorem Digest.checksum_widened (pick : Nat → Bool) (text : String) :
    checksum (widened pick text) = checksum text := by
  apply checksum_eq_of_joinLineEnds
  rw [toList_widened, joinLineEnds_widenLineEnds]

namespace FileTree

/-! ## Converted trees -/

/-- The same stands at a place of two trees, but a text of the second may have wider line ends. -/
inductive SameNode : Option Node → Option Node → Prop
  | same (n : Option Node) : SameNode n n
  | widened (pick : Nat → Bool) (text : String) :
    SameNode (some (.file text.toUTF8)) (some (.file (Text.widened pick text).toUTF8))

/-- The second tree comes from the first one by widening line ends in some of its files. -/
def Refolded (t t' : FileTree) : Prop := ∀ place, SameNode (t.node? place) (t'.node? place)

variable {t t' : FileTree} {p : Path} {place : List String}

/-- Converting one file is such a change. -/
theorem refolded_put {text : String} (h : t.find p = .ok (place, .file text.toUTF8))
    (pick : Nat → Bool) : Refolded t (t.put place (.file (Text.widened pick text).toUTF8)) := by
  obtain ⟨-, -, hnode⟩ := find_eq_ok_iff.mp h
  have hplace : place ≠ [] := by
    rintro rfl
    cases hnode
  intro q
  rw [node?_put _ _ _ _ hplace]
  split
  · next hq =>
    rw [hq, hnode]
    exact .widened pick text
  · exact .same _

/-- A text that is read at a path is what the file there holds. -/
theorem exists_find_of_read {text : String} (h : t.read p = .ok text) :
    ∃ place, t.find p = .ok (place, .file text.toUTF8) := by
  obtain ⟨place, c, hfind, htext⟩ := read_eq_ok_iff.mp h
  refine ⟨place, ?_⟩
  unfold String.fromUTF8? at htext
  split at htext
  · obtain rfl := Option.some.inj htext
    exact hfind
  · cases htext

namespace Refolded

variable (h : Refolded t t')
include h

theorem checkDirectory_eq (place : List String) :
    t'.checkDirectory place = t.checkDirectory place := by
  have hnode := h place
  unfold checkDirectory
  generalize t.node? place = n at hnode ⊢
  generalize t'.node? place = n' at hnode ⊢
  cases hnode <;> rfl

theorem follow_eq (place : List String) (ss : List String) : t'.follow place ss = t.follow place ss := by
  have henter : t'.enter = t.enter := by
    funext place s
    rw [enter, enter, h.checkDirectory_eq]
  rw [follow, follow, henter]

/-- A path leads to the same place, and there to the same but for line ends, or to nothing for the same
reason. -/
theorem find_cases (p : Path) :
    (∃ e, t.find p = .error e ∧ t'.find p = .error e) ∨
      ∃ place n n', t.find p = .ok (place, n) ∧ t'.find p = .ok (place, n') ∧
        SameNode (some n) (some n') := by
  unfold find
  cases p.fault? with
  | some e => exact Or.inl ⟨e, rfl, rfl⟩
  | none =>
    dsimp only
    rw [h.follow_eq]
    cases t.follow [] p.segments with
    | error e => exact Or.inl ⟨e, rfl, rfl⟩
    | ok place =>
      have hnode := h place
      dsimp only [bind, Except.bind]
      generalize t.node? place = n at hnode ⊢
      generalize t'.node? place = n' at hnode ⊢
      cases hnode with
      | same n =>
        cases n with
        | none => exact Or.inl ⟨_, rfl, rfl⟩
        | some n => exact Or.inr ⟨place, n, n, rfl, rfl, .same _⟩
      | widened pick text => exact Or.inr ⟨place, _, _, rfl, rfl, .widened pick text⟩

theorem isFile_eq (p : Path) : t'.isFile p = t.isFile p := by
  unfold isFile kind?
  rcases h.find_cases p with ⟨e, hfind, hfind'⟩ | ⟨place, n, n', hfind, hfind', hnode⟩
  · rw [hfind, hfind']
  · rw [hfind, hfind']
    cases hnode <;> rfl

/-- What is read is the same text, or a widened one. -/
theorem read_cases (p : Path) :
    t'.read p = t.read p ∨
      ∃ pick text, t.read p = .ok text ∧ t'.read p = .ok (Text.widened pick text) := by
  rcases h.find_cases p with ⟨e, hfind, hfind'⟩ | ⟨place, n, n', hfind, hfind', hnode⟩
  · exact Or.inl (by rw [read, read, hfind, hfind'])
  · cases hnode with
    | same => exact Or.inl (by rw [read, read, hfind, hfind'])
    | widened pick text =>
      refine Or.inr ⟨pick, text, ?_, ?_⟩
      · exact read_eq_ok_iff.mpr ⟨place, _, hfind, dif_pos text.isValidUTF8⟩
      · exact read_eq_ok_iff.mpr ⟨place, _, hfind', dif_pos (Text.widened pick text).isValidUTF8⟩

/-! ## What the files say -/

theorem configAt_eq (p : Path) : t'.configAt p = t.configAt p := by
  unfold configAt
  rw [h.isFile_eq]
  rcases h.read_cases p with hread | ⟨pick, text, hread, hread'⟩
  · rw [hread]
  · rw [hread, hread']
    dsimp only
    rw [Config.ofToml?, Toml.read?_widened, Config.ofToml?]

theorem lockfileAt_eq (p : Path) : t'.lockfileAt p = t.lockfileAt p := by
  unfold lockfileAt
  rcases h.read_cases p with hread | ⟨pick, text, hread, hread'⟩
  · rw [hread]
  · rw [hread, hread']
    dsimp only
    rw [Lockfile.ofToml?, Toml.read?_widened, Lockfile.ofToml?]

theorem manifestPath_eq (cwd : Path) (named : Option Path) (config : Config) :
    t'.manifestPath cwd named config = t.manifestPath cwd named config := by
  unfold manifestPath nearest?
  simp only [h.isFile_eq]

end Refolded
end FileTree

namespace Operation

variable {t t' : FileTree} {here : Setting} {named : Option Path}

/-! ## Manifests -/

/-- A text that differs in its line ends has the same manifest, or the same error up to its place. -/
theorem parseFile_widened (p : Path) (pick : Nat → Bool) (text : String) :
    (parseFile p (widened pick text)).mapError Failure.unplaced =
      (parseFile p text).mapError Failure.unplaced := by
  have hjoined : joined (String.ofList (dropMark (widened pick text).toList)) =
      joined (String.ofList (dropMark text.toList)) := by
    rw [joined, joined, String.toList_ofList, String.toList_ofList, ← dropMark_joinLineEnds,
      ← dropMark_joinLineEnds, toList_widened, joinLineEnds_widenLineEnds]
  have hfailure : ∀ text, (parseFile p text).mapError Failure.unplaced =
      ((Manifest.parse (String.ofList (dropMark text.toList))).mapError
        SyntaxError.unplaced).mapError (Failure.malformedManifest p) := by
    intro text
    rw [parseFile_eq]
    cases Manifest.parse (String.ofList (dropMark text.toList)) <;> rfl
  rw [hfailure, hfailure, Manifest.parse_eq_of_joined_eq hjoined]

/-- The same manifest was found, in a text with the same checksum. -/
structure SameSource (s s' : Source) : Prop where
  config : s'.config = s.config
  path : s'.path = s.path
  manifest : s'.manifest = s.manifest
  checksum : Digest.checksum s'.text = Digest.checksum s.text

/-- The same manifest is found, or none for the same reason. -/
theorem source_cases (h : FileTree.Refolded t t') (here : Setting) (named : Option Path) :
    (∃ e e', t.source here named = .error e ∧ t'.source here named = .error e' ∧
        e'.unplaced = e.unplaced) ∨
      ∃ s s', t.source here named = .ok s ∧ t'.source here named = .ok s' ∧ SameSource s s' := by
  unfold FileTree.source
  dsimp only
  rw [h.configAt_eq, h.manifestPath_eq]
  cases t.manifestPath here.cwd named (t.configAt here.configFile) with
  | error e => exact Or.inl ⟨e, e, rfl, rfl, rfl⟩
  | ok path =>
    dsimp only [bind, Except.bind]
    unfold FileTree.manifestAt
    rcases h.read_cases path with hread | ⟨pick, text, hread, hread'⟩
    · rw [hread]
      cases t.read path with
      | error e => exact Or.inl ⟨_, _, rfl, rfl, rfl⟩
      | ok text =>
        dsimp only
        cases parseFile path text with
        | error e => exact Or.inl ⟨e, e, rfl, rfl, rfl⟩
        | ok m => exact Or.inr ⟨_, _, rfl, rfl, rfl, rfl, rfl, rfl⟩
    · -- the file found was converted: equal up to places, so both are manifests or both are errors
      rw [hread, hread']
      dsimp only
      rcases mapError_eq_mapError_cases (parseFile_widened path pick text) with
        ⟨e, e', hm, hm', hsame⟩ | ⟨m, hm, hm'⟩
      · rw [hm, hm']
        exact Or.inl ⟨e, e', rfl, rfl, hsame⟩
      · rw [hm, hm']
        exact Or.inr ⟨_, _, rfl, rfl, rfl, rfl, rfl, Digest.checksum_widened pick text⟩

namespace SameSource

variable {s s' : Source} (hs : SameSource s s')
include hs

theorem lockPath_eq : s'.lockPath = s.lockPath := by
  rw [Source.lockPath, Source.lockPath, hs.path, hs.config]

theorem name_eq : s'.name = s.name := by
  rw [Source.name, Source.name, hs.path]

theorem isFresh_eq (lock : Lockfile) : lock.isFresh s'.text = lock.isFresh s.text := by
  rw [Lockfile.isFresh, Lockfile.isFresh, hs.checksum]

/-- The same is recorded. -/
theorem lockOf_eq (env : Environment) : lockOf s' env = lockOf s env := by
  simp only [lockOf, Environment.toLockfile, Lockfile.record, hs.name_eq, hs.checksum]

/-- Its lockfile compares in the same way. -/
theorem verdictAt_eq (h : FileTree.Refolded t t') (env : Environment) :
    t'.verdictAt s' (lockOf s' env) = t.verdictAt s (lockOf s env) := by
  simp only [FileTree.verdictAt, hs.lockPath_eq, hs.name_eq, hs.isFresh_eq, hs.lockOf_eq,
    h.isFile_eq, h.lockfileAt_eq]

end SameSource

/-- The verdict on a lockfile does not depend on how the lines of the files end. -/
theorem lockVerdict_of_refolded (h : FileTree.Refolded t t') (here : Setting) (named : Option Path) :
    (t'.lockVerdict here named).mapError Failure.unplaced =
      (t.lockVerdict here named).mapError Failure.unplaced := by
  unfold FileTree.lockVerdict
  rcases source_cases h here named with ⟨e, e', he, he', hsame⟩ | ⟨s, s', hs, hs', hsame⟩
  · rw [he, he']
    exact congrArg Except.error hsame
  · rw [hs, hs']
    dsimp only [bind, Except.bind]
    rw [hsame.config, hsame.manifest]
    cases Environment.resolve s.config.policy s.manifest with
    | error report => rfl
    | ok env => exact congrArg (Except.mapError _) (hsame.verdictAt_eq h env)

/-! ## Line ends -/

/-- How the lines of a text end makes no difference to what is read. A manifest is read as its text
with joined line ends is, which is the text that its checksum is taken of; only the place of an error is
further on by the carriage returns before its line. So texts with the same joined form have the same
manifest or the same error, and carriage returns put before any of the line feeds that have none change
neither the checksum nor the manifest, nor the verdict on the lockfile when a file is converted. -/
theorem lineEnds_agree :
    (∀ text, Digest.checksum text = Digest.sha256Hex (Digest.utf8 (joined text).toList) ∧
      Manifest.parse text = (Manifest.parse (joined text)).mapError fun e =>
        e.movedBy (returnsBefore e.line text.toList)) ∧
    (∀ a b, joined a = joined b →
      (Manifest.parse a).mapError SyntaxError.unplaced =
        (Manifest.parse b).mapError SyntaxError.unplaced) ∧
    (∀ pick text, Digest.checksum (widened pick text) = Digest.checksum text ∧
      (Manifest.parse (widened pick text)).mapError SyntaxError.unplaced =
        (Manifest.parse text).mapError SyntaxError.unplaced) ∧
    ∀ here named w p place pick text, w.tree.find p = .ok (place, .file text.toUTF8) →
      let converted : World :=
        { w with tree := w.tree.put place (.file (widened pick text).toUTF8) }
      ((checkLock here named).outcome converted).1.mapError Failure.unplaced =
        ((checkLock here named).outcome w).1.mapError Failure.unplaced := by
  refine ⟨fun text => ⟨?_, Manifest.parse_joined text⟩, fun a b => Manifest.parse_eq_of_joined_eq,
    fun pick text => ⟨Digest.checksum_widened pick text, ?_⟩, ?_⟩
  · rw [toList_joined, Digest.checksum]
  · exact Manifest.parse_eq_of_joined_eq (joined_widened pick text)
  · intro here named w p place pick text hfile converted
    rw [fst_outcome_checkLock, fst_outcome_checkLock]
    exact lockVerdict_of_refolded (FileTree.refolded_put hfile pick) here named

/-- The world after the manifest of `project` was locked. -/
def lockedProject : World :=
  ((lock ⟨.ofText "/work", .ofText "/home/config.toml"⟩ none).outcome project).2

theorem lineEnds_lockedProject :
    let here : Setting := ⟨.ofText "/work", .ofText "/home/config.toml"⟩
    (Manifest.parse "# A\r\nx>=1\r\r\n").mapError SyntaxError.unplaced =
        (Manifest.parse "# A\nx>=1\r\r\n").mapError SyntaxError.unplaced ∧
      ∃ place, lockedProject.tree.find (.ofText "/work/requirements.txt") =
          .ok (place, .file projectSource.text.toUTF8) ∧
        let converted : World := { lockedProject with
          tree := lockedProject.tree.put place
            (.file (widened (fun n => n != 5) projectSource.text).toUTF8) }
        ((checkLock here none).outcome converted).1 = .ok () := by
  intro here
  obtain ⟨-, hmeaning, -, hverdict⟩ := lineEnds_agree
  refine ⟨hmeaning _ _ (by decide), ?_⟩
  have hread : lockedProject.tree.read (.ofText "/work/requirements.txt") =
      .ok projectSource.text := by decide +kernel
  have hcheck : ((checkLock here none).outcome lockedProject).1 = .ok () := by decide +kernel
  obtain ⟨place, hfind⟩ := FileTree.exists_find_of_read hread
  refine ⟨place, hfind, ?_⟩
  intro converted
  have hsame := hverdict here none lockedProject _ place (fun n => n != 5) projectSource.text hfind
  exact mapError_eq_ok_iff.mp (hsame.trans (mapError_eq_ok_iff.mpr hcheck))

end Operation
end Pinfile

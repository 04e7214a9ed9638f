import Pinfile.Operation.Commands
import Pinfile.Proofs.Arrivals
import Pinfile.Proofs.Merge.WellFormed
import Pinfile.Proofs.Operation.Saving

/-!
# Merged files

A merge that is written to a file leaves a file that the other operations can go on with. What stands
in it is read back as what was merged, because merged manifests are well formed; it was valid when it
was written, and validity does not depend on the lines that entries stand on; and a single layer
merges into itself. So the file is accepted by a check under the same configuration, and merging it
alone prints the text that is in it (`mergeFiles_reads_back`).
-/

namespace Pinfile

namespace Operation

open Manifest

variable {here : Setting} {inputs : List Path} {output named : Option Path} {p : Path}
  {w w' : World} {m m' r : Manifest} {layers : List Manifest}

/-! ## The operations, step by step -/

/-- What each of the files holds. -/
def readings (t : FileTree) (paths : List Path) : List (Except Failure Manifest) :=
  paths.map fun p => (t.manifestAt p).map Prod.snd

theorem run_readEach (paths : List Path) (w : World) :
    (readEach paths).run w = (readings w.tree paths, w) := by
  induction paths with
  | nil => rfl
  | cons p paths ih =>
    have hread : Program.run (readManifest p).run w = (w.tree.manifestAt p, w) :=
      outcome_readManifest p w
    rw [readEach, Program.run_bind, hread, Program.run_bind, ih]
    rfl

/-- When merging files succeeds, and what is left to do then. -/
theorem outcome_mergeFiles_eq_ok_iff :
    (mergeFiles here inputs output).outcome w = (.ok (), w') ↔
      inputs ≠ [] ∧ ∃ layers r,
        readings w.tree (inputs.map here.cwd.join) = layers.map .ok ∧ merge layers = .ok r ∧
        r.validate (w.tree.configAt here.configFile).policy = .ok () ∧
        (deliver (output.map here.cwd.join) r.render fun p =>
          note "Merged" (mergedNote layers.length p)).outcome w = (.ok (), w') := by
  unfold mergeFiles mergeArrived validated
  by_cases hinputs : inputs = []
  · subst hinputs
    simp
  · rw [if_neg (by simpa using hinputs)]
    simp only [outcome_lift_bind, outcome_orFail_bind_eq_ok_iff, run_readEach,
      run_readConfigOrDefault, Arrival.gather_inOrder_eq_ok_iff]
    constructor
    · rintro ⟨layers, hlayers, r, hmerge, ⟨⟩, hvalid, hdeliver⟩
      exact ⟨hinputs, layers, r, hlayers, hmerge, hvalid, hdeliver⟩
    · rintro ⟨-, layers, r, hlayers, hmerge, hvalid, hdeliver⟩
      exact ⟨layers, hlayers, r, hmerge, (), hvalid, hdeliver⟩

/-- When a check succeeds. -/
theorem outcome_check_eq_ok_iff {verbose : Bool} :
    ((check here named verbose).outcome w).1 = .ok () ↔
      ∃ s, w.tree.source here named = .ok s ∧ s.manifest.validate s.config.policy = .ok () := by
  unfold check validated
  rw [outcome_bind, outcome_loadSource]
  cases w.tree.source here named with
  | error e => simp
  | ok s =>
    have hlast : ∀ w : World, (outcome (do
        orFail .problems (s.manifest.validate s.config.policy)
        note "Checked" (checkedNote s)) w).1 = .ok () ↔
          s.manifest.validate s.config.policy = .ok () := by
      intro w
      rw [outcome_bind, outcome_orFail]
      cases s.manifest.validate s.config.policy <;> simp [Except.mapError]
    -- the notes on groups change nothing in the files
    cases verbose <;> simp [outcome_lift_bind, hlast]

/-! ## The file of a merge -/

/-- No byte order mark stands before the text of a manifest. -/
theorem ofList_dropMark_render (m : Manifest) :
    String.ofList (Text.dropMark m.render.toList) = m.render := by
  by_cases hnil : m.groups = []
  · obtain ⟨groups⟩ := m
    obtain rfl : groups = [] := hnil
    rfl
  · rw [dropMark_render hnil, String.ofList_toList]

/-- What was merged is a single layer of its own again. -/
theorem merge_singleton_of_parse {text : String} (h : parse text = .ok m) : merge [m] = .ok m :=
  merge_singleton (wellFormed_of_parse h).ordinals

/-- Manifests in files were read from texts. -/
theorem exists_parse_of_readings {t : FileTree} {paths : List Path}
    (h : readings t paths = layers.map .ok) : ∀ m ∈ layers, ∃ text, parse text = .ok m := by
  intro m hm
  have hmem : .ok m ∈ readings t paths := by
    rw [h]
    exact List.mem_map_of_mem hm
  obtain ⟨p, -, hp⟩ := List.mem_map.mp hmem
  obtain ⟨⟨text, m'⟩, hmanifest, rfl⟩ := map_eq_ok_iff.mp hp
  exact ⟨_, (manifestAt_eq_ok_iff.mp hmanifest).2⟩

/-- What a merge gives is read back as it was merged. Where it was written to a file, the file holds
its text and is accepted by a check under the same configuration, and merging that file alone prints
the text that is in it. -/
theorem mergeFiles_reads_back :
    (∀ layers r, (∀ m ∈ layers, ∃ text, parse text = .ok m) → merge layers = .ok r →
      ∃ r', parse r.render = .ok r' ∧ r'.Same r) ∧
    ∀ here inputs out w w', (mergeFiles here inputs (some out)).outcome w = (.ok (), w') →
      ((readConfigOrDefault here.configFile).run w').1 =
        ((readConfigOrDefault here.configFile).run w).1 →
      ∃ layers r, readings w.tree (inputs.map here.cwd.join) = layers.map .ok ∧
        merge layers = .ok r ∧ w'.tree.read (here.cwd.join out) = .ok r.render ∧
        (∀ verbose, ((check here (some out) verbose).outcome w').1 = .ok ()) ∧
        (mergeFiles here [out] none).outcome w' =
          (.ok (), { w' with printed := w'.printed ++ r.render }) := by
  refine ⟨fun layers r => parse_render_of_merge, ?_⟩
  intro here inputs out w w' hmerged hconfig
  have hsettings : w'.tree.configAt here.configFile = w.tree.configAt here.configFile := by
    rwa [run_readConfigOrDefault, run_readConfigOrDefault] at hconfig
  obtain ⟨-, layers, r, hreadings, hmerge, hvalid, hdeliver⟩ := outcome_mergeFiles_eq_ok_iff.mp hmerged
  obtain ⟨r', hparse, hsame⟩ := parse_render_of_merge (exists_parse_of_readings hreadings) hmerge
  have hread : w'.tree.read (here.cwd.join out) = .ok r.render := by
    obtain ⟨⟨⟩, w₁, hsave, hnote⟩ := outcome_bind_eq_ok_iff.mp hdeliver
    rw [outcome_lift] at hnote
    have hsaved : w₁.tree.read (here.cwd.join out) = .ok r.render := read_of_saveText hsave
    rw [← (Prod.mk.inj hnote).2]
    exact hsaved
  have hmanifest : w'.tree.manifestAt (here.cwd.join out) = .ok (r.render, r') := by
    refine manifestAt_eq_ok_iff.mpr ⟨hread, ?_⟩
    rw [ofList_dropMark_render, hparse]
  have hvalid' : r'.validate (w'.tree.configAt here.configFile).policy = .ok () := by
    rw [hsettings]
    rw [validate_eq_ok_iff, problems_eq_nil_iff_valid] at hvalid ⊢
    exact (valid_iff_of_same hsame).mpr hvalid
  refine ⟨layers, r, hreadings, hmerge, hread, fun verbose => ?_, ?_⟩
  · refine outcome_check_eq_ok_iff.mpr
      ⟨⟨w'.tree.configAt here.configFile, here.cwd.join out, r.render, r'⟩, ?_, hvalid'⟩
    exact source_eq_ok_iff.mpr ⟨rfl, rfl, hmanifest⟩
  · refine outcome_mergeFiles_eq_ok_iff.mpr ⟨by simp, [r'], r', ?_, ?_, hvalid', ?_⟩
    · rw [readings, List.map_singleton, List.map_singleton, hmanifest]
      rfl
    · exact merge_singleton_of_parse hparse
    · rw [render_eq_of_same hsame]
      rfl

/-- A directory with two manifests. -/
def layered : World where
  tree := ((FileTree.empty.put ["work"] .directory).put ["work", "base.txt"]
    (.file "# Web\nflask==3.0.0\n-e .\n".toUTF8)).put ["work", "top.txt"]
      (.file "# WEB\nFlask==3.1.0  # override\n\n# Dev\nruff==0.8.0\n".toUTF8)

theorem mergeFiles_layered : let here : Setting := ⟨.ofText "/work", .ofText "/home/config.toml"⟩
    ∃ w', (mergeFiles here [.ofText "base.txt", .ofText "top.txt"]
        (some (.ofText "all.txt"))).outcome layered = (.ok (), w') ∧
      ∃ text, w'.tree.read (here.cwd.join (.ofText "all.txt")) = .ok text ∧
        ((check here (some (.ofText "all.txt")) true).outcome w').1 = .ok () ∧
        (mergeFiles here [.ofText "all.txt"] none).outcome w' =
          (.ok (), { w' with printed := w'.printed ++ text }) := by
  intro here
  have hend : ∀ {r : Except Failure Unit × World}, r.1.isOk = true → r = (.ok (), r.2) := by
    rintro ⟨_ | ⟨⟩, w⟩ h
    · cases h
    · rfl
  have hmerged := hend (r := (mergeFiles here [.ofText "base.txt", .ofText "top.txt"]
    (some (.ofText "all.txt"))).outcome layered) (by decide +kernel)
  obtain ⟨-, hback⟩ := mergeFiles_reads_back
  obtain ⟨layers, r, -, -, hread, hcheck, hprint⟩ :=
    hback here _ (.ofText "all.txt") layered _ hmerged (by decide +kernel)
  exact ⟨_, hmerged, r.render, hread, hcheck true, hprint⟩

/-! ## Files that are read in any order -/

/-- Reading manifests gathers what is in the files. -/
theorem outcome_readManifests (paths : List Path) (w : World) :
    (readManifests paths).outcome w =
      (Arrival.gather (readings w.tree paths).length (Arrival.inOrder (readings w.tree paths)), w) := by
  unfold readManifests
  rw [outcome_lift_bind, run_readEach, outcome_orFail]
  cases Arrival.gather _ (Arrival.inOrder (readings w.tree paths)) <;> rfl

/-- The manifests of files may arrive in any order. If all of them could be read, they are gathered in
the order of the files, and if one could not, its failure is the outcome. So the order does not decide
what is read, nor what merging the files does. -/
theorem mergeArrived_of_perm {results : List (Except Failure Manifest)}
    {arrivals : List (Arrival Failure Manifest)} (hperm : arrivals.Perm (Arrival.inOrder results)) :
    (∀ layers, results = layers.map .ok → Arrival.gather results.length arrivals = .ok layers) ∧
      (results.countP (!·.isOk) = 1 →
        ∀ e, .error e ∈ results → Arrival.gather results.length arrivals = .error e) ∧
      (results.countP (!·.isOk) ≤ 1 →
        (∀ here output, mergeArrived here output results.length arrivals =
          mergeArrived here output results.length (Arrival.inOrder results)) ∧
        (∀ paths w, readings w.tree paths = results →
          (readManifests paths).outcome w = (Arrival.gather paths.length arrivals, w)) ∧
        ∀ here inputs output w, readings w.tree (inputs.map here.cwd.join) = results →
          inputs ≠ [] → (mergeArrived here output inputs.length arrivals).outcome w =
            (mergeFiles here inputs output).outcome w) := by
  have hmem : ∀ a, a ∈ arrivals ↔ a ∈ Arrival.inOrder results := fun _ => hperm.mem_iff
  refine ⟨fun layers => (Arrival.gather_eq_ok_iff hmem).mpr,
    fun hone e => Arrival.gather_of_failure hmem hone.le, fun hone => ?_⟩
  have hgather := Arrival.gather_eq_gather_inOrder hmem hone
  have hsame : ∀ here output, mergeArrived here output results.length arrivals =
      mergeArrived here output results.length (Arrival.inOrder results) := by
    intro here output
    unfold mergeArrived
    rw [hgather]
  refine ⟨hsame, ?_, ?_⟩
  · rintro paths w rfl
    rw [outcome_readManifests, ← hgather, readings, List.length_map]
  · rintro here inputs output w rfl hinputs
    have hlength : (readings w.tree (inputs.map here.cwd.join)).length = inputs.length := by
      simp [readings]
    unfold mergeFiles
    rw [if_neg (by simpa using hinputs), outcome_lift_bind, run_readEach, ← hsame here output, hlength]

/-- The manifest in the lower file. -/
def layeredBase : Manifest :=
  .ofGroups [{ name := "Web", entries := [.pin ⟨⟨"flask"⟩, "3.0.0", false, 2⟩,
    .editable ⟨".", [], 3⟩] }]

/-- The manifest in the upper file. -/
def layeredTop : Manifest :=
  .ofGroups [{ name := "WEB", entries := [.pin ⟨⟨"Flask"⟩, "3.1.0", true, 2⟩] },
    { name := "Dev", entries := [.pin ⟨⟨"ruff"⟩, "0.8.0", false, 5⟩] }]

/-- The upper file twice, and a file that is not there, arriving in reverse order. -/
theorem mergeArrived_layered_reverse :
    let here : Setting := ⟨.ofText "/work", .ofText "/home/config.toml"⟩
    let base := Path.ofText "base.txt"
    let top := Path.ofText "top.txt"
    let missing := Path.ofText "none.txt"
    let twice := readings layered.tree ([top, base, top].map here.cwd.join)
    let lacking := readings layered.tree ([base, missing, top].map here.cwd.join)
    let failure : Failure := .unreadableManifest (here.cwd.join missing) .notFound
    twice = [layeredTop, layeredBase, layeredTop].map .ok ∧
      Arrival.gather 3 (Arrival.inOrder twice).reverse =
        .ok [layeredTop, layeredBase, layeredTop] ∧
      (mergeArrived here none 3 (Arrival.inOrder twice).reverse).outcome layered =
        (mergeFiles here [top, base, top] none).outcome layered ∧
      .error failure ∈ lacking ∧ lacking.countP (!·.isOk) = 1 ∧
      Arrival.gather 3 (Arrival.inOrder lacking).reverse = .error failure := by
  intro here base top missing twice lacking failure
  have htwice : twice = [layeredTop, layeredBase, layeredTop].map .ok := by decide +kernel
  have hnone : twice.countP (!·.isOk) ≤ 1 := by rw [htwice]; decide
  have hlone : lacking.countP (!·.isOk) = 1 := by decide +kernel
  have hmissing : .error failure ∈ lacking := by decide +kernel
  have hlength : twice.length = 3 := List.length_map _
  have hlength' : lacking.length = 3 := List.length_map _
  obtain ⟨hgather, -, hsame⟩ := mergeArrived_of_perm (List.reverse_perm (Arrival.inOrder twice))
  obtain ⟨-, hfailure, -⟩ := mergeArrived_of_perm (List.reverse_perm (Arrival.inOrder lacking))
  rw [hlength] at hgather
  rw [hlength'] at hfailure
  refine ⟨htwice, hgather _ htwice, ?_, hmissing, hlone, hfailure hlone failure hmissing⟩
  exact (hsame hnone).2.2 here [top, base, top] none layered rfl (List.cons_ne_nil _ _)

end Operation
end Pinfile

import Pinfile.Manifest.Basic
import Pinfile.Proofs.Repeats

/-!
# Gathering entries by the names they stand under

A text and a merge both come to their groups in the same way. Pieces come one after the other, each
a name with entries; a piece whose name is known up to letter case continues what stands under that
name, and any other begins something new (`gather`). The outcome can be said without the order of
these steps (`Gathered`): there is one group for every key, under the first of its names and in the
place of the first piece, and it holds the entries of all pieces of that key.

From this description it can be read off that gathering may be done in stages (`Gathered.stages`):
what was gathered from some pieces, and what was gathered from others, gives together what all of
the pieces give.
-/

namespace Pinfile

/-- Entries under a name. -/
structure Piece where
  name : String
  entries : List Entry := []
deriving DecidableEq, Repr

namespace Piece

/-- What two spellings of the name have in common. -/
def key (p : Piece) : String := Text.lowercase p.name

/-- The piece with more entries at its end. -/
def extend (p : Piece) (es : List Entry) : Piece := { p with entries := p.entries ++ es }

/-- The piece with the lines of its entries forgotten. -/
def withoutLines (p : Piece) : Piece := { p with entries := p.entries.map Entry.withoutLine }

@[simp] theorem key_extend (p : Piece) (es : List Entry) : (p.extend es).key = p.key := rfl

@[simp] theorem key_withoutLines (p : Piece) : p.withoutLines.key = p.key := rfl

end Piece

/-- What a group says, as a piece. -/
def Group.piece (g : Group) : Piece := ⟨g.name, g.entries⟩

@[simp] theorem Group.key_piece (g : Group) : g.piece.key = g.key := rfl

/-- The entries of all pieces of a key, one piece after the other. -/
def heldUnder (key : String) (pieces : List Piece) : List Entry :=
  (pieces.filter (·.key == key)).flatMap Piece.entries

/-- Puts a piece to those that were gathered. -/
def gather (groups : List Piece) (p : Piece) : List Piece :=
  match groups.findIdx? (·.key == p.key) with
  | some i => groups.modify i (·.extend p.entries)
  | none => groups ++ [p]

/-- The groups are what the pieces give: one group for every key, with the first of its names, and
with the entries of all of its pieces. -/
structure Gathered (pieces groups : List Piece) : Prop where
  names : groups.map Piece.name = firsts Text.lowercase (pieces.map Piece.name)
  entries : ∀ g ∈ groups, g.entries = heldUnder g.key pieces

variable {pieces more groups groups' : List Piece}

/-! ## The entries under a key -/

theorem heldUnder_append (key : String) (pieces more : List Piece) :
    heldUnder key (pieces ++ more) = heldUnder key pieces ++ heldUnder key more := by
  rw [heldUnder, List.filter_append, List.flatMap_append]
  rfl

theorem heldUnder_singleton (key : String) (p : Piece) :
    heldUnder key [p] = if p.key = key then p.entries else [] := by
  by_cases h : p.key = key <;> simp [heldUnder, h]

theorem heldUnder_eq_nil {key : String} (h : ∀ p ∈ pieces, p.key ≠ key) :
    heldUnder key pieces = [] := by
  have hnone : pieces.filter (·.key == key) = [] := by
    rw [List.filter_eq_nil_iff]
    exact fun p hp => by simpa using h p hp
  rw [heldUnder, hnone, List.flatMap_nil]

/-- Where the names are different, the piece of a key is the only one. -/
theorem heldUnder_key (hd : pieces.Pairwise fun p q => p.key ≠ q.key) {p : Piece}
    (hp : p ∈ pieces) : heldUnder p.key pieces = p.entries := by
  rw [heldUnder, filter_of_pairwise hd hp, List.flatMap_singleton]

theorem heldUnder_withoutLines (key : String) (pieces : List Piece) :
    heldUnder key (pieces.map Piece.withoutLines) =
      (heldUnder key pieces).map Entry.withoutLine := by
  rw [heldUnder, heldUnder, List.filter_map, List.flatMap_map, List.map_flatMap]
  rfl

/-- Whether names are different can be seen on the names. -/
theorem Piece.pairwise_key_iff :
    (pieces.Pairwise fun p q => p.key ≠ q.key) ↔
      (pieces.map Piece.name).Pairwise fun a b => Text.lowercase a ≠ Text.lowercase b := by
  rw [List.pairwise_map]
  rfl

theorem Piece.any_key (pieces : List Piece) (key : String) :
    pieces.any (·.key == key) = (pieces.map Piece.name).any (Text.lowercase · == key) := by
  rw [List.any_map]
  rfl

/-! ## One piece after the other -/

namespace Gathered

theorem distinct (h : Gathered pieces groups) : groups.Pairwise fun a b => a.key ≠ b.key := by
  rw [Piece.pairwise_key_iff, h.names]
  exact firsts_pairwise _

/-- The groups have the keys of the pieces. -/
theorem any_key (h : Gathered pieces groups) (key : String) :
    groups.any (·.key == key) = pieces.any (·.key == key) := by
  rw [Piece.any_key, Piece.any_key, h.names, any_firsts]

/-- The names of the groups once a piece is added: its name comes last, if its key is new. -/
theorem firsts_names (h : Gathered pieces groups) (p : Piece) :
    firsts Text.lowercase ((pieces ++ [p]).map Piece.name) =
      if groups.any (·.key == p.key) then groups.map Piece.name
      else groups.map Piece.name ++ [p.name] := by
  rw [List.map_append, List.map_singleton, firsts_append_singleton, h.any_key, Piece.any_key,
    h.names]
  rfl

/-- A piece of a known key continues the group of that key. -/
theorem extend (h : Gathered pieces groups) {p : Piece}
    (hknown : groups.any (·.key == p.key) = true) :
    Gathered (pieces ++ [p])
      (groups.map fun g => if g.key = p.key then g.extend p.entries else g) := by
  refine ⟨?_, ?_⟩
  · rw [h.firsts_names, if_pos hknown, List.map_map]
    refine List.map_congr_left fun g _ => ?_
    rw [Function.comp_apply]
    split <;> rfl
  · intro t ht
    obtain ⟨g, hg, rfl⟩ := List.mem_map.mp ht
    rw [heldUnder_append, heldUnder_singleton]
    split
    · next hkey =>
      rw [Piece.key_extend, if_pos hkey.symm, ← h.entries g hg]
      rfl
    · next hkey =>
      rw [if_neg (Ne.symm hkey), List.append_nil]
      exact h.entries g hg

/-- A piece of a new key begins a group, and no piece before it has entries for that group. -/
theorem begin (h : Gathered pieces groups) {p : Piece}
    (hnew : ¬ groups.any (·.key == p.key) = true) : Gathered (pieces ++ [p]) (groups ++ [p]) := by
  refine ⟨?_, ?_⟩
  · rw [h.firsts_names, if_neg hnew, List.map_append, List.map_singleton]
  · intro g hg
    rw [heldUnder_append, heldUnder_singleton]
    rcases List.mem_append.mp hg with hg | hg
    · have hne : p.key ≠ g.key := fun hkey =>
        hnew (List.any_eq_true.mpr ⟨g, hg, beq_iff_eq.mpr hkey.symm⟩)
      rw [if_neg hne, List.append_nil]
      exact h.entries g hg
    · obtain rfl := List.mem_singleton.mp hg
      have hother : ∀ q ∈ pieces, q.key ≠ g.key := by
        intro q hq hkey
        rw [h.any_key] at hnew
        exact hnew (List.any_eq_true.mpr ⟨q, hq, beq_iff_eq.mpr hkey⟩)
      rw [if_pos rfl, heldUnder_eq_nil hother, List.nil_append]

theorem nil : Gathered [] [] := ⟨rfl, by simp⟩

/-- One more piece. -/
theorem gather (h : Gathered pieces groups) (p : Piece) :
    Gathered (pieces ++ [p]) (Pinfile.gather groups p) := by
  unfold Pinfile.gather
  split
  · next i hi =>
    obtain ⟨hlt, hkey, -⟩ := List.findIdx?_eq_some_iff_getElem.mp hi
    -- the keys are different, so changing the group at the position changes no other one
    have hmap := modify_of_pairwise h.distinct (List.getElem?_eq_getElem hlt)
      fun g : Piece => g.extend p.entries
    rw [hmap, beq_iff_eq.mp hkey]
    exact h.extend (List.any_eq_true.mpr ⟨groups[i], List.getElem_mem hlt, hkey⟩)
  · next hnone =>
    refine h.begin ?_
    simpa using List.findIdx?_eq_none_iff.mp hnone

/-- Pieces that are put one after the other to what was gathered. -/
theorem foldl (h : Gathered pieces groups) (more : List Piece) :
    Gathered (pieces ++ more) (more.foldl Pinfile.gather groups) := by
  induction more generalizing pieces groups with
  | nil => simpa using h
  | cons p more ih =>
    have hrest := ih (h.gather p)
    rwa [List.append_assoc] at hrest

/-! ## What was gathered -/

/-- Pieces of different names are their own groups. -/
theorem self (hd : pieces.Pairwise fun p q => p.key ≠ q.key) : Gathered pieces pieces := by
  refine ⟨?_, fun p hp => (heldUnder_key hd hp).symm⟩
  rw [firsts_eq_self]
  exact Piece.pairwise_key_iff.mp hd

/-- The pieces say what the groups are. -/
theorem unique (h : Gathered pieces groups) (h' : Gathered pieces groups') : groups = groups' := by
  have hnames : groups.map Piece.name = groups'.map Piece.name := h.names.trans h'.names.symm
  have hlength : groups.length = groups'.length := by simpa using congrArg List.length hnames
  refine List.ext_getElem hlength fun i hi hi' => ?_
  have hname : groups[i].name = groups'[i].name := by
    have hat := List.getElem_of_eq hnames (by simpa using hi)
    rwa [List.getElem_map, List.getElem_map] at hat
  have hkey : groups[i].key = groups'[i].key := congrArg Text.lowercase hname
  have hentries : groups[i].entries = groups'[i].entries := by
    rw [h.entries _ (List.getElem_mem hi), h'.entries _ (List.getElem_mem hi'), hkey]
  calc groups[i] = ⟨groups[i].name, groups[i].entries⟩ := rfl
    _ = groups'[i] := by rw [hname, hentries]

/-- The groups hold, key by key, what the pieces hold. -/
theorem heldUnder_eq (h : Gathered pieces groups) (key : String) :
    heldUnder key groups = heldUnder key pieces := by
  by_cases hany : groups.any (·.key == key) = true
  · obtain ⟨g, hg, hkey⟩ := List.any_eq_true.mp hany
    rw [← beq_iff_eq.mp hkey, heldUnder_key h.distinct hg, h.entries g hg]
  · have hgroups : ∀ g ∈ groups, g.key ≠ key := fun g hg hkey =>
      hany (List.any_eq_true.mpr ⟨g, hg, beq_iff_eq.mpr hkey⟩)
    rw [h.any_key] at hany
    have hpieces : ∀ p ∈ pieces, p.key ≠ key := fun p hp hkey =>
      hany (List.any_eq_true.mpr ⟨p, hp, beq_iff_eq.mpr hkey⟩)
    rw [heldUnder_eq_nil hgroups, heldUnder_eq_nil hpieces]

/-- Gathering in stages: what two lots of pieces give gives together what all pieces give. -/
theorem stages {result : List Piece} (h : Gathered pieces groups) (h' : Gathered more groups')
    (hresult : Gathered (groups ++ groups') result) : Gathered (pieces ++ more) result := by
  refine ⟨?_, fun g hg => ?_⟩
  · rw [hresult.names, List.map_append, List.map_append, h.names, h'.names, firsts_firsts_append,
      firsts_append_firsts]
  · rw [hresult.entries g hg, heldUnder_append, heldUnder_append, h.heldUnder_eq, h'.heldUnder_eq]

/-- Forgetting lines first or last is the same. -/
theorem withoutLines (h : Gathered pieces groups) :
    Gathered (pieces.map Piece.withoutLines) (groups.map Piece.withoutLines) := by
  refine ⟨?_, fun t ht => ?_⟩
  · rw [List.map_map, List.map_map]
    exact h.names
  · obtain ⟨g, hg, rfl⟩ := List.mem_map.mp ht
    rw [heldUnder_withoutLines, Piece.key_withoutLines, ← h.entries g hg]
    rfl

end Gathered

/-! ## Manifests -/

/-- The manifest is what the pieces give, with its groups numbered by position. -/
structure Manifest.MadeOf (pieces : List Piece) (m : Manifest) : Prop where
  gathered : Gathered pieces (m.groups.map Group.piece)
  ordinals : m.groups.map Group.ordinal = List.range m.groups.length

namespace Manifest

variable {m m' : Manifest}

theorem map_piece_ofGroups (groups : List Group) :
    (ofGroups groups).groups.map Group.piece = groups.map Group.piece := by
  rw [groups_ofGroups]
  refine List.ext_getElem (by simp) fun i hi hi' => ?_
  simp [Group.piece]

/-- Numbering the groups that pieces give makes a manifest of them. -/
theorem madeOf_ofGroups {groups : List Group} (h : Gathered pieces (groups.map Group.piece)) :
    (ofGroups groups).MadeOf pieces :=
  ⟨by rwa [map_piece_ofGroups], map_ordinal_ofGroups groups⟩

/-- A manifest of different groups is made of its groups. -/
theorem madeOf_self (hd : m.groups.Pairwise fun g h => g.key ≠ h.key)
    (ho : m.groups.map Group.ordinal = List.range m.groups.length) :
    m.MadeOf (m.groups.map Group.piece) :=
  ⟨.self (List.pairwise_map.mpr hd), ho⟩

namespace MadeOf

/-- The pieces say what the manifest is. -/
theorem unique (h : m.MadeOf pieces) (h' : m'.MadeOf pieces) : m = m' := by
  have hpieces : m.groups.map Group.piece = m'.groups.map Group.piece :=
    h.gathered.unique h'.gathered
  have hlength : m.groups.length = m'.groups.length := by
    simpa using congrArg List.length hpieces
  have hordinals : m.groups.map Group.ordinal = m'.groups.map Group.ordinal := by
    rw [h.ordinals, h'.ordinals, hlength]
  refine congrArg Manifest.mk (List.ext_getElem hlength fun i hi hi' => ?_)
  have hpiece := List.getElem_of_eq hpieces (by simpa using hi)
  have hordinal := List.getElem_of_eq hordinals (by simpa using hi)
  rw [List.getElem_map, List.getElem_map] at hpiece hordinal
  obtain ⟨hname, hentries⟩ := Piece.mk.inj hpiece
  calc m.groups[i]
      = ⟨m.groups[i].name, m.groups[i].ordinal, m.groups[i].entries⟩ := rfl
    _ = m'.groups[i] := by rw [hname, hordinal, hentries]

theorem withoutLines (h : m.MadeOf pieces) :
    m.withoutLines.MadeOf (pieces.map Piece.withoutLines) := by
  refine ⟨?_, ?_⟩
  · have hgathered := h.gathered.withoutLines
    rw [List.map_map] at hgathered
    rw [Manifest.withoutLines, List.map_map]
    exact hgathered
  · rw [Manifest.withoutLines, List.map_map, List.length_map]
    exact h.ordinals

/-- Manifests that are made of the same up to lines say the same. -/
theorem same (h : m.MadeOf pieces) (h' : m'.MadeOf more)
    (hlines : pieces.map Piece.withoutLines = more.map Piece.withoutLines) : m.Same m' := by
  have hm' := h'.withoutLines
  rw [← hlines] at hm'
  exact h.withoutLines.unique hm'

end MadeOf
end Manifest
end Pinfile

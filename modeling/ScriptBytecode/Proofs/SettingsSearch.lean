import Mathlib.Data.List.Induction
import ScriptBytecode.Settings.Basic

/-!
# The nearest settings file

The search for a settings file looks at the working directory first and then at the directories around it up to the
root, in each of them at the usual names in their order. `Outwards` says which directories these are without saying how
they are searched. One step of the search looks at one directory and goes on in the directory around it
(`find_inside`), so a whole search takes the first file that is there among all candidates (`find_eq_find?_candidates`).
A file further in is taken before every file further out, whatever their names are (`find_first_outwards`).
-/

namespace ScriptBytecode
namespace Settings

/-- A directory and the directories around it: each of them is followed by the one around it, up to the root. -/
inductive Outwards : Names → List Names → Prop
  | root (root : String) : Outwards [root] [[root]]
  | inside {outer : Names} {chain : List Names} (name : String) (around : Outwards outer chain) :
      Outwards (outer ++ [name]) ((outer ++ [name]) :: chain)

/-- Every directory on the way outwards holds the one that the way starts from. -/
theorem Outwards.isPrefix {start directory : Names} {chain : List Names} (h : Outwards start chain)
    (hmem : directory ∈ chain) : directory <+: start := by
  induction h with
  | root root =>
      obtain rfl := List.mem_singleton.mp hmem
      exact List.prefix_rfl
  | inside name around ih =>
      rcases List.mem_cons.mp hmem with rfl | hmem
      · exact List.prefix_rfl
      · exact (ih hmem).trans (List.prefix_append _ _)

/-! ## The candidates -/

theorem directoriesOutwards_inside (outer : Names) (name : String) :
    directoriesOutwards (outer ++ [name]) = (outer ++ [name]) :: directoriesOutwards outer := by
  unfold directoriesOutwards
  rw [List.length_append, List.length_singleton, List.range_succ_eq_map, List.map_cons, List.map_map]
  congr 1
  · exact List.take_of_length_le (by simp)
  · apply List.map_congr_left
    intro dropped _
    show (outer ++ [name]).take (outer.length + 1 - (dropped + 1)) = outer.take (outer.length - dropped)
    rw [Nat.add_sub_add_right]
    exact List.take_append_of_le_length (Nat.sub_le _ _)

theorem outwards_directoriesOutwards (root : String) (names : List String) :
    Outwards (root :: names) (directoriesOutwards (root :: names)) := by
  induction names using List.reverseRecOn with
  | nil => exact .root root
  | append_singleton names name ih =>
      rw [← List.cons_append, directoriesOutwards_inside]
      exact .inside name ih

theorem candidates_inside (outer : Names) (name : String) :
    candidates (outer ++ [name]) = fileNames.map (FileName.found (outer ++ [name])) ++ candidates outer := by
  unfold candidates
  rw [directoriesOutwards_inside, List.flatMap_cons]

/-! ## The search -/

theorem findIn_eq_some {isPresent : FileName → Bool} {directory : Names} {file : FileName}
    (h : findIn isPresent directory = some file) : ∃ name, file = .found directory name := by
  obtain ⟨name, -, rfl⟩ := List.mem_map.mp (List.mem_of_find?_eq_some h)
  exact ⟨name, rfl⟩

theorem findIn_eq_none_iff {isPresent : FileName → Bool} {directory : Names} :
    findIn isPresent directory = none ↔ ∀ name ∈ fileNames, isPresent (.found directory name) = false := by
  simp [findIn]

/-- One step of the search: a directory is looked at, and then the search goes on in the directory around it. -/
theorem find_inside (isPresent : FileName → Bool) (outer : Names) (name : String) :
    find isPresent (outer ++ [name]) = (findIn isPresent (outer ++ [name])).or (find isPresent outer) := by
  unfold find
  rw [List.reverse_append, List.reverse_singleton, List.singleton_append, findFrom, List.reverse_cons,
    List.reverse_reverse]
  cases findIn isPresent (outer ++ [name]) <;> rfl

/-- A whole search takes the first candidate that is there. -/
theorem find_eq_find?_candidates (isPresent : FileName → Bool) (directory : Names) :
    find isPresent directory = (candidates directory).find? isPresent := by
  induction directory using List.reverseRecOn with
  | nil => rfl
  | append_singleton outer name ih =>
      rw [find_inside, candidates_inside, List.find?_append, ih]
      rfl

theorem find_eq_none_iff {isPresent : FileName → Bool} {directory : Names} :
    find isPresent directory = none ↔ ∀ outer ∈ directoriesOutwards directory, findIn isPresent outer = none := by
  rw [find_eq_find?_candidates, candidates, List.find?_flatMap, List.findSome?_eq_none_iff]
  rfl

/-- A settings file that is there is found, or one that is at least as far in. -/
theorem Outwards.find_within {isPresent : FileName → Bool} {start nearer : Names} {chain : List Names} {name : String}
    (h : Outwards start chain) (hmem : nearer ∈ chain) (hname : name ∈ fileNames)
    (hpresent : isPresent (.found nearer name) = true) :
    ∃ directory found, find isPresent start = some (.found directory found) ∧ nearer <+: directory := by
  -- The directory itself holds the file, so looking at it finds one of the names there.
  have hhere {directory : Names} (heq : nearer = directory) : findIn isPresent directory ≠ none := by
    intro hnone
    have habsent := findIn_eq_none_iff.mp hnone name hname
    rw [← heq, hpresent] at habsent
    cases habsent
  induction h with
  | root root =>
      have heq := List.mem_singleton.mp hmem
      obtain ⟨file, hfile⟩ := Option.ne_none_iff_exists'.mp (hhere heq)
      obtain ⟨found, rfl⟩ := findIn_eq_some hfile
      refine ⟨[root], found, ?_, heq ▸ List.prefix_rfl⟩
      rw [← List.nil_append [root], find_inside, List.nil_append, hfile]
      rfl
  | @inside outer chain inner around ih =>
      rw [find_inside]
      cases hfile : findIn isPresent (outer ++ [inner]) with
      | some file =>
          obtain ⟨found, rfl⟩ := findIn_eq_some hfile
          exact ⟨_, found, rfl, (Outwards.inside inner around).isPrefix hmem⟩
      | none =>
          rcases List.mem_cons.mp hmem with heq | hmem
          · exact absurd hfile (hhere heq)
          · exact ih hmem

/-- The search for a settings file, whatever files there are and however deep the directory is that it starts from. It
takes the first file that is there among `lumo.toml` and `.lumorc.toml` in this directory, then in the directory around
it, and so on up to the root. It finds nothing exactly if none of these directories holds either name. A `.lumorc.toml`
keeps every directory further out from being looked at, also if that one holds a `lumo.toml`. -/
theorem find_first_outwards (isPresent : FileName → Bool) (root : String) (names : List String) :
    Outwards (root :: names) (directoriesOutwards (root :: names)) ∧
      find isPresent (root :: names) =
        ((directoriesOutwards (root :: names)).flatMap fun directory =>
          [FileName.found directory "lumo.toml", .found directory ".lumorc.toml"]).find? isPresent ∧
      (find isPresent (root :: names) = none ↔
        ∀ directory ∈ directoriesOutwards (root :: names), isPresent (.found directory "lumo.toml") = false ∧
          isPresent (.found directory ".lumorc.toml") = false) ∧
      ∀ nearer ∈ directoriesOutwards (root :: names), ∀ farther, farther <+: nearer → farther ≠ nearer →
        isPresent (.found nearer ".lumorc.toml") = true →
          ∃ directory name, find isPresent (root :: names) = some (.found directory name) ∧
            nearer <+: directory ∧ directory ≠ farther := by
  have hchain := outwards_directoriesOutwards root names
  refine ⟨hchain, find_eq_find?_candidates isPresent _, ?_, ?_⟩
  · simp [find_eq_none_iff, findIn_eq_none_iff, fileNames]
  · intro nearer hmem farther houter hne hpresent
    obtain ⟨directory, name, hfind, hwithin⟩ := hchain.find_within hmem (by simp [fileNames]) hpresent
    refine ⟨directory, name, hfind, hwithin, ?_⟩
    rintro rfl
    exact hne (houter.eq_of_length_le hwithin.length_le)

/-- A settings file of the second name in a project, and one of the first name at the root. -/
def isPresentAroundSources (file : FileName) : Bool :=
  file = .found ["", "project"] ".lumorc.toml" || file = .found [""] "lumo.toml"

theorem find_first_outwards_aroundSources :
    isPresentAroundSources (.found [""] "lumo.toml") = true ∧
      ∃ directory name, find isPresentAroundSources ["", "project", "src"] = some (.found directory name) ∧
        ["", "project"] <+: directory ∧ directory ≠ [""] := by
  refine ⟨by decide, ?_⟩
  obtain ⟨-, -, -, hnearest⟩ := find_first_outwards isPresentAroundSources "" ["project", "src"]
  exact hnearest ["", "project"] (by decide) [""] (by decide) (by decide) (by decide)

end Settings
end ScriptBytecode

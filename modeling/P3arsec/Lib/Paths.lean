import Mathlib

/-!
# Paths in a file system

A file system is a finite tree. A file is at a location, which is the list of the names that lead to
it from the root, and a path says how to get to it from the root or from the working directory.
-/

namespace P3arsec.Lib

/-- What a file is. -/
inductive Kind where
  | regular
  | directory
  | other
deriving DecidableEq

/-- The entry of a directory for itself. -/
def dot : List Char := ['.']

/-- The entry of a directory for the one that it is in. -/
def dotdot : List Char := ['.', '.']

/-- What a file can be called. -/
structure FileName (name : List Char) : Prop where
  ne_nil : name ≠ []
  ne_dot : name ≠ dot
  ne_dotdot : name ≠ dotdot
  slash : '/' ∉ name
  nul : '\x00' ∉ name

/-- A finite tree of files. -/
structure FileSystem where
  /-- What is at a location. -/
  kind : List (List Char) → Option Kind
  /-- The names in a directory, in the order in which they are read. -/
  entries : List (List Char) → List (List Char)
  depth : Nat
  root : kind [] = some .directory
  parent : ∀ location name, kind (location ++ [name]) ≠ none → kind location = some .directory
  fileName : ∀ location name, kind (location ++ [name]) ≠ none → FileName name
  length_le : ∀ location, kind location ≠ none → location.length ≤ depth
  entries_nodup : ∀ location, kind location = some .directory → (entries location).Nodup
  mem_entries : ∀ location, kind location = some .directory → ∀ name,
    name ∈ entries location ↔ name = dot ∨ name = dotdot ∨ kind (location ++ [name]) ≠ none

namespace FileSystem

/-- A component of a path leads from a directory to one of its files. -/
def follow (fs : FileSystem) (location : List (List Char)) (name : List Char) :
    Option (List (List Char)) :=
  if fs.kind location = some .directory then
    if name = [] ∨ name = dot then some location
    else if name = dotdot then some location.dropLast
    else if fs.kind (location ++ [name]) = none then none
    else some (location ++ [name])
  else none

/-- The location that a path leads to. -/
def locate (fs : FileSystem) (cwd : List (List Char)) (path : List Char) :
    Option (List (List Char)) :=
  if path = [] then none
  else (path.splitOn '/').foldlM fs.follow (if path.head? = some '/' then [] else cwd)

variable {fs : FileSystem} {cwd location file : List (List Char)} {path name : List Char}

/-- A dot stays in the directory. -/
theorem follow_dot (directory : fs.kind location = some .directory) :
    fs.follow location dot = some location := by
  rw [follow, if_pos directory, if_pos (Or.inr rfl)]

/-- A name leads to the entry. -/
theorem follow_name (exists_ : fs.kind (location ++ [name]) ≠ none) :
    fs.follow location name = some (location ++ [name]) := by
  have valid := fs.fileName location name exists_
  rw [follow, if_pos (fs.parent location name exists_), if_neg, if_neg valid.ne_dotdot,
    if_neg exists_]
  rintro (empty | same)
  · exact valid.ne_nil empty
  · exact valid.ne_dot same

/-- A name leads to something that exists. -/
theorem kind_follow (leads : fs.follow location name = some file) : fs.kind file ≠ none := by
  unfold follow at leads
  split at leads
  case isFalse => cases leads
  case isTrue inside =>
  split at leads
  · obtain rfl := Option.some.inj leads
    rw [inside]
    exact Option.some_ne_none _
  split at leads
  · obtain rfl := Option.some.inj leads
    rcases List.eq_nil_or_concat location with rfl | ⟨parent, last, rfl⟩
    · rw [List.dropLast_nil, fs.root]
      exact Option.some_ne_none _
    · rw [List.concat_eq_append] at inside ⊢
      have above := fs.parent parent last (by rw [inside]; exact Option.some_ne_none _)
      rw [List.dropLast_concat, above]
      exact Option.some_ne_none _
  split at leads
  · cases leads
  · next some_ =>
    obtain rfl := Option.some.inj leads
    exact some_

/-- A component that can be followed has no character that ends a string. -/
theorem nul_follow (leads : fs.follow location name = some file) : '\x00' ∉ name := by
  unfold follow at leads
  split at leads
  case isFalse => cases leads
  split at leads
  · next self =>
    rcases self with rfl | rfl
    · exact List.not_mem_nil
    · decide
  split at leads
  · next up =>
    rw [up]
    decide
  split at leads
  · cases leads
  · next some_ => exact (fs.fileName location name some_).nul

/-- So do several names. -/
theorem kind_foldlM {names : List (List Char)} (here : fs.kind location ≠ none)
    (leads : names.foldlM fs.follow location = some file) : fs.kind file ≠ none := by
  induction names generalizing location with
  | nil =>
    obtain rfl := Option.some.inj leads
    exact here
  | cons name names ih =>
    rw [List.foldlM_cons] at leads
    obtain ⟨next, first, rest⟩ := Option.bind_eq_some_iff.mp leads
    exact ih (kind_follow first) rest

/-- A name that leads somewhere has no zero. -/
theorem nul_foldlM {names : List (List Char)}
    (leads : names.foldlM fs.follow location = some file) :
    ∀ name ∈ names, '\x00' ∉ name := by
  induction names generalizing location with
  | nil =>
    intro name member
    cases member
  | cons name names ih =>
    rw [List.foldlM_cons] at leads
    obtain ⟨next, first, rest⟩ := Option.bind_eq_some_iff.mp leads
    intro other member
    rcases List.mem_cons.mp member with rfl | member
    · exact nul_follow first
    · exact ih rest other member

/-- A path leads to a file. -/
theorem kind_locate (here : fs.kind cwd = some .directory)
    (located : fs.locate cwd path = some location) : fs.kind location ≠ none := by
  unfold locate at located
  split at located
  · cases located
  refine kind_foldlM ?_ located
  split
  · rw [fs.root]
    exact Option.some_ne_none _
  · rw [here]
    exact Option.some_ne_none _

/-- The empty path leads nowhere. -/
theorem ne_nil_of_locate (located : fs.locate cwd path = some location) : path ≠ [] := by
  rintro rfl
  cases located

/-- The characters of names with separators. -/
theorem mem_intercalate {c separator : Char} {names : List (List Char)}
    (member : c ∈ [separator].intercalate names) : c = separator ∨ ∃ name ∈ names, c ∈ name := by
  induction names with
  | nil => cases member
  | cons name names ih =>
    cases names with
    | nil => exact Or.inr ⟨name, List.mem_singleton_self name, by simpa using member⟩
    | cons second names =>
      rw [List.intercalate_cons_cons, List.mem_append, List.mem_append] at member
      rcases member with (first | between) | later
      · exact Or.inr ⟨name, List.mem_cons_self, first⟩
      · exact Or.inl (List.mem_singleton.mp between)
      · obtain same | ⟨other, known, inside⟩ := ih later
        · exact Or.inl same
        · exact Or.inr ⟨other, List.mem_cons_of_mem _ known, inside⟩

/-- A path is a string. -/
theorem nul_locate (located : fs.locate cwd path = some location) : '\x00' ∉ path := by
  unfold locate at located
  split at located
  · cases located
  have names := nul_foldlM located
  have parts : ['/'].intercalate (path.splitOn '/') = path := List.intercalate_splitOn '/'
  intro member
  rw [← parts] at member
  obtain same | ⟨name, known, inside⟩ := mem_intercalate member
  · exact absurd same (by decide)
  · exact names name known inside

/-- A path goes on by a component. -/
theorem locate_append (located : fs.locate cwd path = some location) (slash : '/' ∉ name) :
    fs.locate cwd (path ++ '/' :: name) = fs.follow location name := by
  have some_ := ne_nil_of_locate located
  rw [locate, if_neg some_] at located
  rw [locate, if_neg (by simp), List.splitOn_append_cons_self, List.foldlM_append,
    List.head?_append_of_ne_nil _ some_, located, Option.bind_eq_bind, Option.bind_some,
    List.splitOn_eq_singleton slash]
  simp

/-- A name is a path from the working directory. -/
theorem locate_name (some_ : name ≠ []) (slash : '/' ∉ name) :
    fs.locate cwd name = fs.follow cwd name := by
  have head : name.head? ≠ some '/' := fun first => slash (List.mem_of_mem_head? first)
  rw [locate, if_neg some_, if_neg head, List.splitOn_eq_singleton slash]
  simp

/-- What has something below it exists. -/
theorem kind_of_append {rest : List (List Char)} (exists_ : fs.kind (location ++ rest) ≠ none) :
    fs.kind location ≠ none := by
  induction rest using List.reverseRecOn with
  | nil => rwa [List.append_nil] at exists_
  | append_singleton rest last ih =>
    rw [← List.append_assoc] at exists_
    apply ih
    rw [fs.parent _ _ exists_]
    exact Option.some_ne_none _

/-- What is inside of a directory is in one of its files. -/
theorem exists_entry (exists_ : fs.kind file ≠ none) (inside : location <+: file)
    (apart : file ≠ location) :
    ∃ name, fs.kind (location ++ [name]) ≠ none ∧ location ++ [name] <+: file := by
  obtain ⟨rest, rfl⟩ := inside
  cases rest with
  | nil => exact absurd (List.append_nil location) apart
  | cons name rest =>
    rw [List.append_cons] at exists_
    exact ⟨name, kind_of_append exists_, rest, (List.append_cons location name rest).symm⟩

end FileSystem

end P3arsec.Lib

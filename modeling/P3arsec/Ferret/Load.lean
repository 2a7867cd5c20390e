import P3arsec.Lib.Paths

/-!
# The traversal of the query directory

`scan_dir` and `dir_helper` walk through a directory with one buffer for the path, which each of
them extends by a name and truncates behind it. Each regular file goes to the next stage under the
path that is in the buffer. The test that keeps the walk from the entries for the directory itself
and for the one above is applied to the start too: `svc` goes around it for the working directory,
but not for the one above.
-/

namespace P3arsec.Ferret

open P3arsec.Lib

/-- The end of a string. -/
def nul : Char := '\x00'

/-- The string at an offset of a buffer. -/
def string (buffer : List Char) (head : Nat) : List Char := (buffer.drop head).takeWhile (· ≠ nul)

/-- `strlen`. -/
def strlen (buffer : List Char) (head : Nat) : Nat := (string buffer head).length

/-- `strcat`, which has no result when the buffer is too short. -/
def strcat (head : Nat) (text buffer : List Char) : Option (List Char) :=
  let stop := head + strlen buffer head
  if stop + text.length < buffer.length then
    some (buffer.take stop ++ text ++ nul :: buffer.drop (stop + text.length + 1))
  else none

/-- What `Load` changes. The images themselves are left out. -/
structure Load where
  /-- The buffer. -/
  path : List Char
  cntEnqueue : Nat
  /-- The files that were sent, under their names. -/
  sent : List (List Char)
  /-- The paths in the buffer before and after the calls that have returned, which are not part of
  the program. -/
  calls : List (List Char × List Char)

namespace Load

/-- `file_helper`, where the image can be read. -/
def fileHelper (file : List Char) (load : Load) : Load :=
  { load with cntEnqueue := load.cntEnqueue + 1, sent := load.sent ++ [file] }

/-- A call that began with `before` returns. -/
def returns (before load : Load) : Load :=
  { load with calls := load.calls ++ [(string before.path 0, string load.path 0)] }

end Load

/-- The test for `.` and `..`. -/
def isDots (dir : List Char) : Bool :=
  match dir with
  | '.' :: [] => true
  | '.' :: '.' :: [] => true
  | _ => false

section Walk

variable (fs : FileSystem) (cwd : List (List Char))

/-- `stat`. -/
def stat (path : List Char) : Option Kind := (fs.locate cwd path).bind fs.kind

/-- `opendir`, with what `readdir` returns then. -/
def opendir (path : List Char) : Option (List (List Char)) :=
  (fs.locate cwd path).bind fun location =>
    if fs.kind location = some .directory then some (fs.entries location) else none

/-- The loop of `dir_helper`. -/
def readAll (scanDir : List Char → Nat → Load → Option (Int × Load)) (head : Nat) :
    List (List Char) → Load → Option (Int × Load)
  | [], load => some (0, load)
  | d_name :: rest, load => do
    let (result, load) ← scanDir d_name head load
    if result ≠ 0 then some (-1, load) else readAll scanDir head rest load

/-- `dir_helper`, with the function that scans an entry. -/
def dirHelper (scanDir : List Char → Nat → Load → Option (Int × Load)) (dir : List Char)
    (head : Nat) (load : Load) : Option (Int × Load) :=
  match opendir fs cwd dir with
  | none => some (-1, load.returns load)
  | some entries => do
    let (result, after) ← readAll scanDir head entries load
    some (result, load.returns after)

/-- What `scan_dir` does with the file under the path in the buffer. -/
def visit (scanDir : List Char → Nat → Load → Option (Int × Load)) (head : Nat) (load : Load) :
    Kind → Option Load
  | .regular => some (load.fileHelper (string load.path 0))
  | .directory => do
    let path ← strcat head ['/'] load.path
    let (_, after) ← dirHelper fs cwd scanDir (string path 0) (head + strlen path head)
      { load with path := path }
    some after
  | .other => some load

/-- `scan_dir`. -/
def scanDir : Nat → List Char → Nat → Load → Option (Int × Load)
  | 0, _, _, _ => none
  | fuel + 1, dir, head, load =>
    if isDots dir then some (0, load.returns load)
    else do
      let path ← strcat head dir load.path
      match stat fs cwd (string path 0) with
      | none => some (-1, load.returns { load with path := path })
      | some kind =>
        let after ← visit fs cwd (scanDir fuel) head { load with path := path } kind
        some (0, load.returns { after with path := after.path.set head nul })

/-- `svc`, behind the constructor. -/
def svc (fuel : Nat) (queryDir path : List Char) : Option Load := do
  let load : Load := { path := path.set 0 nul, cntEnqueue := 0, sent := [], calls := [] }
  let (_, load) ←
    if queryDir = dot then dirHelper fs cwd (scanDir fs cwd fuel) dot 0 load
    else scanDir fs cwd fuel queryDir 0 load
  some load

end Walk

/-- The path of a file that is reached from a path by some names. -/
def below (path : List Char) (names : List (List Char)) : List Char :=
  names.foldl (fun path name => path ++ '/' :: name) path

/-- The full path of a file inside of the query directory. -/
def fullPath (queryDir : List Char) (location file : List (List Char)) : List Char :=
  let names := file.drop location.length
  if queryDir = dot then (below [] names).tail else below queryDir names

/-- The traversal from `queryDir`, which leads to `location`, has done its work: each regular file
there was sent once, under a path that leads to it, and each call has left the path as it was. -/
structure Loaded (fs : FileSystem) (cwd location : List (List Char)) (queryDir : List Char)
    (load : Load) : Prop where
  sent : ∃ files : List (List (List Char)), files.Nodup ∧
    (∀ file, file ∈ files ↔ location <+: file ∧ fs.kind file = some .regular) ∧
    (∀ file ∈ files, fs.locate cwd (fullPath queryDir location file) = some file) ∧
    load.sent = files.map (fullPath queryDir location)
  cntEnqueue : load.cntEnqueue = load.sent.length
  path : string load.path 0 = []
  calls : ∀ call ∈ load.calls, call.2 = call.1

variable {fs : FileSystem} {cwd location : List (List Char)} {p q s path name dir : List Char}
variable {fuel size : Nat} {load load' : Load}

/-- The test finds the two names of the directory itself and the one above it. -/
theorem isDots_iff : isDots name = true ↔ name = dot ∨ name = dotdot := by
  unfold isDots
  split <;> simp_all [dot, dotdot]

/-- The buffer holds a string. -/
def Holds (p buffer : List Char) : Prop := nul ∉ p ∧ ∃ rest, buffer = p ++ nul :: rest

/-- A string ends at the first zero. -/
theorem takeWhile_nul (clean : nul ∉ p) (rest : List Char) :
    (p ++ nul :: rest).takeWhile (· ≠ nul) = p := by
  rw [List.takeWhile_append_of_pos, List.takeWhile_cons_of_neg (by simp), List.append_nil]
  intro c member
  exact decide_eq_true (ne_of_mem_of_not_mem member clean)

/-- The string from an offset on. -/
theorem Holds.string (holds : Holds (p ++ q) path) : string path p.length = q := by
  obtain ⟨clean, rest, rfl⟩ := holds
  rw [Ferret.string, List.append_assoc, List.drop_left]
  exact takeWhile_nul (fun member => clean (List.mem_append_right p member)) rest

/-- The whole string. -/
theorem Holds.string_zero (holds : Holds p path) : Ferret.string path 0 = p :=
  Holds.string (p := []) holds

/-- `strcat` appends where there is room. -/
theorem Holds.strcat (holds : Holds (p ++ q) path) (clean : nul ∉ s)
    (fits : (p ++ q ++ s).length < path.length) :
    ∃ path', Ferret.strcat p.length s path = some path' ∧ Holds (p ++ q ++ s) path' ∧
      path'.length = path.length := by
  have length : p.length + strlen path p.length = (p ++ q).length := by
    rw [strlen, holds.string, List.length_append]
  obtain ⟨clean', rest, rfl⟩ := holds
  rw [List.length_append] at fits
  refine ⟨p ++ q ++ s ++ nul :: rest.drop s.length, ?_, ⟨?_, _, rfl⟩, ?_⟩
  · rw [Ferret.strcat]
    simp only [length]
    rw [if_pos fits, List.take_left, Nat.add_assoc, List.drop_append]
    simp
  · rw [List.mem_append]
    exact not_or.mpr ⟨clean', clean⟩
  · simp only [List.length_append, List.length_cons, List.length_drop] at fits ⊢
    omega

/-- A zero cuts the string off. -/
theorem Holds.truncate (holds : Holds (p ++ q) path) : Holds p (path.set p.length nul) := by
  obtain ⟨clean, rest, rfl⟩ := holds
  refine ⟨fun member => clean (List.mem_append_left q member), ?_⟩
  rw [List.append_assoc, List.set_append_right _ _ le_rfl, Nat.sub_self]
  cases q with
  | nil => exact ⟨rest, rfl⟩
  | cons c q => exact ⟨q ++ nul :: rest, rfl⟩

/-- From `load` on some files were sent, spelled as `spell` says. The buffer holds `p` again. -/
structure Sends (fs : FileSystem) (cwd : List (List Char)) (spell : List (List Char) → List Char)
    (p : List Char) (files : List (List (List Char))) (load load' : Load) : Prop where
  holds : Holds p load'.path
  length : load'.path.length = load.path.length
  cntEnqueue : load'.cntEnqueue = load.cntEnqueue + files.length
  sent : load'.sent = load.sent ++ files.map spell
  located : ∀ file ∈ files, fs.locate cwd (spell file) = some file
  calls : ∀ call ∈ load'.calls, call ∈ load.calls ∨ call.2 = call.1

variable {spell spell' : List (List Char) → List Char} {files files' : List (List (List Char))}

/-- A load sends nothing to itself. -/
theorem Sends.refl (holds : Holds p load.path) : Sends fs cwd spell p [] load load :=
  ⟨holds, rfl, rfl, (List.append_nil _).symm, fun _ member => absurd member List.not_mem_nil,
    fun _ member => Or.inl member⟩

/-- What is sent in two parts. -/
theorem Sends.trans {load'' : Load} (first : Sends fs cwd spell p files load load')
    (second : Sends fs cwd spell p files' load' load'') :
    Sends fs cwd spell p (files ++ files') load load'' := by
  constructor
  · exact second.holds
  · rw [second.length, first.length]
  · rw [second.cntEnqueue, first.cntEnqueue, List.length_append, Nat.add_assoc]
  · rw [second.sent, first.sent, List.map_append, List.append_assoc]
  · intro file member
    rcases List.mem_append.mp member with before | after
    · exact first.located file before
    · exact second.located file after
  · intro call member
    rcases second.calls call member with before | same
    · exact first.calls call before
    · exact Or.inr same

/-- A call that began with the path `p` returns. -/
theorem Sends.returns (sends : Sends fs cwd spell p files load load') (holds : Holds p load.path) :
    Sends fs cwd spell p files load (load.returns load') := by
  refine ⟨sends.holds, sends.length, sends.cntEnqueue, sends.sent, sends.located, ?_⟩
  intro call member
  rcases List.mem_append.mp member with before | last
  · exact sends.calls call before
  · right
    obtain rfl := List.mem_singleton.mp last
    rw [holds.string_zero, sends.holds.string_zero]

/-- With the path `p` in the buffer a call sends the regular files of some part of the file system,
each of them once. -/
def Scans (fs : FileSystem) (cwd : List (List Char)) (size : Nat)
    (spell : List (List Char) → List Char) (p : List Char)
    (call : Load → Option (Int × Load)) (part : List (List Char) → Prop) : Prop :=
  ∀ load, load.path.length = size → Holds p load.path →
    ∃ files load', call load = some (0, load') ∧ Sends fs cwd spell p files load load' ∧
      files.Nodup ∧ ∀ file, file ∈ files ↔ part file ∧ fs.kind file = some .regular

variable {call : Load → Option (Int × Load)} {part part' : List (List Char) → Prop}

/-- The files that a scan is about may be described in another way. -/
theorem Scans.congr (scans : Scans fs cwd size spell p call part)
    (same : ∀ file, fs.kind file = some .regular → (part file ↔ part' file))
    (spelled : ∀ file, part file → spell file = spell' file) :
    Scans fs cwd size spell' p call part' := by
  intro load length holds
  obtain ⟨files, load', calls, sends, nodup, known⟩ := scans load length holds
  have renamed : ∀ file ∈ files, spell file = spell' file :=
    fun file member => spelled file ((known file).mp member).1
  refine ⟨files, load', calls, ⟨sends.holds, sends.length, sends.cntEnqueue, ?_, ?_, sends.calls⟩,
    nodup, ?_⟩
  · rw [sends.sent, List.map_congr_left renamed]
  · intro file member
    rw [← renamed file member]
    exact sends.located file member
  · intro file
    rw [known]
    exact and_congr_left (same file)

variable {scan : List Char → Nat → Load → Option (Int × Load)} {names : List (List Char)}

/-- The loop sends what its calls send, when these are for different files. -/
theorem readAll_scans {parts : List Char → List (List Char) → Prop}
    (scans : ∀ name ∈ names, Scans fs cwd size spell p (scan name p.length) (parts name))
    (apart : names.Pairwise fun a b => ∀ file, parts a file → ¬parts b file) :
    Scans fs cwd size spell p (readAll scan p.length names)
      fun file => ∃ name ∈ names, parts name file := by
  induction names with
  | nil =>
    intro load _ holds
    exact ⟨[], load, rfl, .refl holds, List.nodup_nil, by simp⟩
  | cons name names ih =>
    intro load length holds
    obtain ⟨different, apart⟩ := List.pairwise_cons.mp apart
    obtain ⟨files, middle, first, sends, nodup, known⟩ :=
      scans name List.mem_cons_self load length holds
    obtain ⟨files', load', rest, sends', nodup', known'⟩ :=
      ih (fun other member => scans other (List.mem_cons_of_mem _ member)) apart middle
        (sends.length.trans length) sends.holds
    refine ⟨files ++ files', load', ?_, sends.trans sends', ?_, ?_⟩
    · rw [readAll, first]
      simpa using rest
    · refine List.Nodup.append nodup nodup' ?_
      intro file member member'
      obtain ⟨⟨other, listed, inside⟩, -⟩ := (known' file).mp member'
      exact different other listed file ((known file).mp member).1 inside
    · intro file
      rw [List.mem_append, known, known']
      simp only [List.mem_cons, exists_eq_or_imp]
      tauto

/-- A directory that is located can be opened. -/
theorem opendir_of_locate (located : fs.locate cwd dir = some location)
    (directory : fs.kind location = some .directory) :
    opendir fs cwd dir = some (fs.entries location) := by
  rw [opendir, located, Option.bind_some, if_pos directory]

/-- Only one entry of a directory leads to a file. -/
theorem prefix_unique {a b : List Char} {file : List (List Char)} (first : location ++ [a] <+: file)
    (second : location ++ [b] <+: file) : a = b := by
  have same := List.prefix_of_prefix_length_le first second (by simp)
  have equal := same.eq_of_length (by simp)
  simpa using equal

/-- A directory is walked through when its files are. -/
theorem dirHelper_scans (located : fs.locate cwd dir = some location)
    (directory : fs.kind location = some .directory)
    (dots : ∀ name, isDots name = true → ∀ load, scan name p.length load =
      some (0, load.returns load))
    (children : ∀ name, fs.kind (location ++ [name]) ≠ none →
      Scans fs cwd size spell p (scan name p.length) (location ++ [name] <+: ·)) :
    Scans fs cwd size spell p (dirHelper fs cwd scan dir p.length) (location <+: ·) := by
  have entries : ∀ name ∈ fs.entries location, Scans fs cwd size spell p (scan name p.length)
      fun file => isDots name = false ∧ location ++ [name] <+: file := by
    intro name member
    by_cases self : isDots name = true
    · intro load _ holds
      refine ⟨[], _, dots name self load, (Sends.refl holds).returns holds, List.nodup_nil, ?_⟩
      simp [self]
    · have child := (((fs.mem_entries location directory name).mp member).resolve_left
        fun same => self (isDots_iff.mpr (Or.inl same))).resolve_left
        fun same => self (isDots_iff.mpr (Or.inr same))
      refine (children name child).congr (fun file _ => ?_) fun _ _ => rfl
      simp [self]
  have apart : (fs.entries location).Pairwise fun a b => ∀ file,
      isDots a = false ∧ location ++ [a] <+: file →
        ¬(isDots b = false ∧ location ++ [b] <+: file) :=
    (fs.entries_nodup location directory).imp fun different file first second =>
      different (prefix_unique first.2 second.2)
  intro load length holds
  obtain ⟨files, load', reads, sends, nodup, known⟩ := readAll_scans entries apart load length holds
  refine ⟨files, load.returns load', ?_, sends.returns holds, nodup, ?_⟩
  · rw [dirHelper, opendir_of_locate located directory]
    simp [reads]
  · intro file
    rw [known]
    refine and_congr_left fun regular => ?_
    constructor
    · rintro ⟨name, -, -, inside⟩
      exact (List.prefix_append location [name]).trans inside
    · intro inside
      have exists_ : fs.kind file ≠ none := by
        rw [regular]
        exact Option.some_ne_none _
      obtain ⟨name, child, inside'⟩ := FileSystem.exists_entry exists_ inside (by
        rintro rfl
        rw [directory] at regular
        cases regular)
      have valid := fs.fileName location name child
      refine ⟨name, (fs.mem_entries location directory name).mpr (Or.inr (Or.inr child)), ?_,
        inside'⟩
      rw [← Bool.not_eq_true, isDots_iff, not_or]
      exact ⟨valid.ne_dot, valid.ne_dotdot⟩

/-- What was appended to the path `p` is removed. -/
theorem Sends.truncate (sends : Sends fs cwd spell (p ++ q) files { load with path := path } load')
    (length : path.length = load.path.length) :
    Sends fs cwd spell p files load { load' with path := load'.path.set p.length nul } :=
  ⟨sends.holds.truncate, (List.length_set ..).trans (sends.length.trans length), sends.cntEnqueue,
    sends.sent, sends.located, sends.calls⟩

/-- There is nothing below a file that is no directory. -/
theorem eq_of_prefix {file : List (List Char)} (flat : fs.kind location ≠ some .directory)
    (exists_ : fs.kind file ≠ none) (inside : location <+: file) : file = location := by
  by_contra apart
  obtain ⟨name, child, -⟩ := FileSystem.exists_entry exists_ inside apart
  exact flat (fs.parent location name child)

/-- The spelling of a path below a directory. -/
theorem below_cons (path name : List Char) (names : List (List Char)) :
    below path (name :: names) = below (path ++ '/' :: name) names := rfl

/-- The path that a name is appended to. -/
theorem below_child {file : List (List Char)} (inside : location ++ [name] <+: file) :
    below path (file.drop location.length) =
      below (path ++ ['/'] ++ name) (file.drop (location ++ [name]).length) := by
  obtain ⟨rest, rfl⟩ := inside
  rw [List.drop_left, List.append_assoc, List.drop_left, List.singleton_append, below_cons,
    List.append_assoc, List.singleton_append]

/-- The spelling does not depend on what stands before it. -/
theorem below_append (path name : List Char) (names : List (List Char)) :
    below (path ++ name) names = path ++ below name names := by
  induction names generalizing name with
  | nil => rfl
  | cons first names ih => rw [below_cons, below_cons, List.append_assoc, ih]

/-- Every path that a walk from `location` makes is shorter than the buffer, also with the slash
behind a directory. -/
def Fits (fs : FileSystem) (size : Nat) (spell : List (List Char) → List Char)
    (location : List (List Char)) : Prop :=
  ∀ file kind, fs.kind file = some kind → location <+: file →
    (spell file).length + (if kind = .directory then 1 else 0) < size

/-- The directory itself and the one above it are skipped. -/
theorem scanDir_dots (dots : isDots name = true) (head : Nat) (load : Load) :
    scanDir fs cwd (fuel + 1) name head load = some (0, load.returns load) := by
  rw [scanDir, if_pos dots]

/-- `scan_dir` walks through what is at or below a location. -/
theorem scanDir_scans (deep : fs.depth + 1 < location.length + fuel)
    (exists_ : fs.kind location ≠ none) (located : fs.locate cwd (p ++ name) = some location)
    (plain : isDots name = false)
    (fits : Fits fs size (fun file => below (p ++ name) (file.drop location.length)) location) :
    Scans fs cwd size (fun file => below (p ++ name) (file.drop location.length)) p
      (scanDir fs cwd fuel name p.length) (location <+: ·) := by
  induction fuel generalizing location p name with
  | zero =>
    have flat := fs.length_le location exists_
    omega
  | succ fuel ih =>
    intro load length holds
    obtain ⟨kind, known⟩ := Option.ne_none_iff_exists'.mp exists_
    have clean : nul ∉ p ++ name := FileSystem.nul_locate located
    have self : below (p ++ name) (location.drop location.length) = p ++ name := by
      rw [List.drop_length]
      rfl
    have room := fits location kind known List.prefix_rfl
    simp only [self] at room
    have holds₀ : Holds (p ++ []) load.path := by rwa [List.append_nil]
    obtain ⟨path, appended, holds', length'⟩ := holds₀.strcat (s := name)
      (fun member => clean (List.mem_append_right p member))
      (by rw [List.append_nil, length]; omega)
    rw [List.append_nil] at holds'
    have found : stat fs cwd (string path 0) = some kind := by
      rw [holds'.string_zero, stat, located, Option.bind_some, known]
    obtain ⟨files, q, path', after, visited, length'', sends, nodup, member⟩ :
        ∃ files q path' after,
          visit fs cwd (scanDir fs cwd fuel) p.length { load with path := path } kind = some after ∧
          path'.length = load.path.length ∧
          Sends fs cwd (fun file => below (p ++ name) (file.drop location.length)) (p ++ q) files
            { load with path := path' } after ∧ files.Nodup ∧
          ∀ file, file ∈ files ↔ location <+: file ∧ fs.kind file = some .regular := by
      cases kind with
      | regular =>
        refine ⟨[location], name, path, _, rfl, length', ?_, List.nodup_singleton _, ?_⟩
        · refine ⟨holds', rfl, rfl, ?_, ?_, fun _ member => Or.inl member⟩
          · exact congrArg (load.sent ++ [·]) (holds'.string_zero.trans self.symm)
          · intro file member
            obtain rfl := List.mem_singleton.mp member
            rw [self]
            exact located
        · intro file
          rw [List.mem_singleton]
          constructor
          · rintro rfl
            exact ⟨List.prefix_rfl, known⟩
          · rintro ⟨inside, regular⟩
            have flat : fs.kind location ≠ some .directory := by simp [known]
            exact eq_of_prefix flat (by simp [regular]) inside
      | other =>
        refine ⟨[], name, path, _, rfl, length', .refl holds', List.nodup_nil, ?_⟩
        intro file
        refine iff_of_false List.not_mem_nil ?_
        rintro ⟨inside, regular⟩
        have flat : fs.kind location ≠ some .directory := by simp [known]
        obtain rfl := eq_of_prefix flat (by simp [regular]) inside
        rw [known] at regular
        cases regular
      | directory =>
        obtain ⟨path', slashed, holds'', length''⟩ := holds'.strcat (s := ['/']) (by decide) (by
          rw [length', length, List.length_append]
          simpa using room)
        have head : p.length + strlen path' p.length = (p ++ name ++ ['/']).length := by
          rw [strlen, Holds.string (q := name ++ ['/']) (by rwa [← List.append_assoc]),
            List.append_assoc]
          exact List.length_append.symm
        have slash : fs.locate cwd (p ++ name ++ ['/']) = some location := by
          rw [FileSystem.locate_append located List.not_mem_nil, FileSystem.follow, if_pos known,
            if_pos (Or.inl rfl)]
        obtain ⟨fuel, rfl⟩ : ∃ more, fuel = more + 1 := by
          have flat := fs.length_le location exists_
          exact Nat.exists_eq_add_one.mpr (by omega)
        have walks : Scans fs cwd size (fun file => below (p ++ name) (file.drop location.length))
            (p ++ name ++ ['/'])
            (dirHelper fs cwd (scanDir fs cwd (fuel + 1)) (p ++ name ++ ['/'])
              (p ++ name ++ ['/']).length) (location <+: ·) := by
          refine dirHelper_scans slash known (fun _ dots load => scanDir_dots dots _ load) ?_
          intro child exists'
          have valid := fs.fileName location child exists'
          have plain' : isDots child = false := by
            rw [← Bool.not_eq_true, isDots_iff, not_or]
            exact ⟨valid.ne_dot, valid.ne_dotdot⟩
          have located' : fs.locate cwd (p ++ name ++ ['/'] ++ child) =
              some (location ++ [child]) := by
            rw [List.append_assoc (p ++ name), List.singleton_append,
              FileSystem.locate_append located valid.slash, FileSystem.follow_name exists']
          have longer : (location ++ [child]).length = location.length + 1 := by simp
          refine (ih (by omega) exists' located' plain' ?_).congr (fun _ _ => Iff.rfl) ?_
          · intro file kind is inside
            have room : (below (p ++ name) (file.drop location.length)).length + _ < size :=
              fits file kind is ((List.prefix_append location [child]).trans inside)
            rwa [below_child inside] at room
          · intro file inside
            exact (below_child inside).symm
        obtain ⟨files, after, calls, sends, nodup, member⟩ :=
          walks { load with path := path' } (length''.trans (length'.trans length)) holds''
        refine ⟨files, name ++ ['/'], path', after, ?_, length''.trans length', ?_, nodup, member⟩
        · simp only [visit, slashed, holds''.string_zero, head, calls, Option.bind_eq_bind,
            Option.bind_some]
        · rwa [← List.append_assoc]
    refine ⟨files, load.returns { after with path := after.path.set p.length nul }, ?_,
      (sends.truncate length'').returns holds, nodup, member⟩
    rw [scanDir, if_neg (by simp [plain]), appended, Option.bind_eq_bind, Option.bind_some, found]
    simp [visited]

/-- The working directory is walked through without its path. -/
theorem dirHelper_dot_scans (here : fs.kind cwd = some .directory)
    (fits : Fits fs size (fullPath dot cwd) cwd) :
    Scans fs cwd size (fullPath dot cwd) []
      (dirHelper fs cwd (scanDir fs cwd (fs.depth + 2)) dot 0) (cwd <+: ·) := by
  have located : fs.locate cwd dot = some cwd := by
    rw [FileSystem.locate_name (by decide) (by decide), FileSystem.follow_dot here]
  have spelled : ∀ child file, cwd ++ [child] <+: file →
      below ([] ++ child) (file.drop (cwd ++ [child]).length) = fullPath dot cwd file := by
    intro child file inside
    rw [fullPath, if_pos rfl, below_child inside, List.nil_append, List.nil_append, below_append]
    rfl
  refine dirHelper_scans (p := []) located here (fun _ dots load => scanDir_dots dots _ load) ?_
  intro child exists_
  have valid := fs.fileName cwd child exists_
  have plain : isDots child = false := by
    rw [← Bool.not_eq_true, isDots_iff, not_or]
    exact ⟨valid.ne_dot, valid.ne_dotdot⟩
  have located' : fs.locate cwd ([] ++ child) = some (cwd ++ [child]) := by
    rw [List.nil_append, FileSystem.locate_name valid.ne_nil valid.slash,
      FileSystem.follow_name exists_]
  refine (scanDir_scans (by omega) exists_ located' plain ?_).congr (fun _ _ => Iff.rfl)
    (spelled child)
  intro file kind is inside
  have room : (fullPath dot cwd file).length + _ < size :=
    fits file kind is ((List.prefix_append cwd [child]).trans inside)
  rwa [← spelled child file inside] at room

/-- The start, with an empty path. -/
theorem holds_start (some_ : path ≠ []) : Holds [] (path.set 0 nul) := by
  cases path with
  | nil => exact absurd rfl some_
  | cons c rest => exact ⟨List.not_mem_nil, rest, rfl⟩

/-- A scan loads the files of its directory. -/
theorem Scans.loaded {queryDir : List Char} (some_ : path ≠ [])
    (scans : Scans fs cwd path.length (fullPath queryDir location) [] call (location <+: ·)) :
    ∃ load, call { path := path.set 0 nul, cntEnqueue := 0, sent := [], calls := [] } =
      some (0, load) ∧ Loaded fs cwd location queryDir load := by
  obtain ⟨files, load, calls, sends, nodup, known⟩ :=
    scans { path := path.set 0 nul, cntEnqueue := 0, sent := [], calls := [] }
      (List.length_set ..) (holds_start some_)
  refine ⟨load, calls, ⟨files, nodup, known, sends.located, sends.sent⟩, ?_,
    sends.holds.string_zero, ?_⟩
  · rw [sends.cntEnqueue, sends.sent]
    simp
  · intro call member
    exact (sends.calls call member).resolve_left List.not_mem_nil

/-- From the directory above nothing is sent. -/
theorem svc_dotdot (fs : FileSystem) (cwd : List (List Char)) (fuel : Nat)
    (some_ : path ≠ []) :
    ∃ load, svc fs cwd (fuel + 1) dotdot path = some load ∧ load.sent = [] ∧
      load.cntEnqueue = 0 ∧ string load.path 0 = [] ∧ ∀ call ∈ load.calls, call.2 = call.1 := by
  refine ⟨_, rfl, rfl, rfl, (holds_start some_).string_zero, ?_⟩
  intro call member
  obtain rfl := List.mem_singleton.mp member
  rfl

/-- No file is loaded where the directory is named by two dots. -/
theorem svc_dotdot_misses {file : List (List Char)} (some_ : path ≠ []) (inside : location <+: file)
    (regular : fs.kind file = some .regular) :
    ¬∃ fuel load, svc fs cwd fuel dotdot path = some load ∧ Loaded fs cwd location dotdot load := by
  rintro ⟨fuel, load, runs, loaded⟩
  obtain ⟨files, -, known, -, sent⟩ := loaded.sent
  cases fuel with
  | zero => cases runs
  | succ fuel =>
    obtain ⟨load', runs', none_, -⟩ := svc_dotdot fs cwd fuel some_
    obtain rfl := Option.some.inj (runs.symm.trans runs')
    rw [none_] at sent
    have empty := List.map_eq_nil_iff.mp sent.symm
    rw [empty] at known
    exact absurd ((known file).mpr ⟨inside, regular⟩) List.not_mem_nil

/-- The traversal does its work unless it starts at the directory above and a regular file is
there. -/
theorem svc_loads_iff (fs : FileSystem) (cwd location : List (List Char))
    (queryDir path : List Char) (here : fs.kind cwd = some .directory)
    (located : fs.locate cwd queryDir = some location)
    (fits : Fits fs path.length (fullPath queryDir location) location) :
    (∃ fuel load, svc fs cwd fuel queryDir path = some load ∧
      Loaded fs cwd location queryDir load) ↔
      queryDir ≠ dotdot ∨ ∀ file, location <+: file → fs.kind file ≠ some .regular := by
  have exists_ := FileSystem.kind_locate here located
  have some_ : path ≠ [] := by
    obtain ⟨kind, known⟩ := Option.ne_none_iff_exists'.mp exists_
    have room := fits location kind known List.prefix_rfl
    rintro rfl
    exact absurd room (Nat.not_lt_zero _)
  constructor
  · intro loads
    by_contra! fails
    obtain ⟨rfl, file, inside, regular⟩ := fails
    exact svc_dotdot_misses some_ inside regular loads
  · intro good
    by_cases working : queryDir = dot
    · subst working
      have same : some location = some cwd := by
        rw [← located, FileSystem.locate_name (by decide) (by decide), FileSystem.follow_dot here]
      obtain rfl := Option.some.inj same
      obtain ⟨load, runs, loaded⟩ := (dirHelper_dot_scans here fits).loaded some_
      refine ⟨fs.depth + 2, load, ?_, loaded⟩
      simp only [svc, if_pos, runs, Option.bind_eq_bind, Option.bind_some]
    by_cases above : queryDir = dotdot
    · subst above
      obtain ⟨load, runs, sent, count, path_eq, calls⟩ :=
        svc_dotdot fs cwd 0 some_
      have none_ := good.resolve_left (fun different => different rfl)
      refine ⟨1, load, runs, ⟨[], List.nodup_nil, ?_, ?_, sent⟩, ?_, path_eq, calls⟩
      · intro file
        exact iff_of_false List.not_mem_nil fun known => none_ file known.1 known.2
      · intro file member
        cases member
      · rw [count, sent]
        rfl
    · have plain : isDots queryDir = false := by
        rw [← Bool.not_eq_true, isDots_iff, not_or]
        exact ⟨working, above⟩
      have spelled : fullPath queryDir location =
          fun file => below ([] ++ queryDir) (file.drop location.length) :=
        funext fun file => if_neg working
      have deep : fs.depth + 1 < location.length + (fs.depth + 2) := by omega
      have scans := scanDir_scans (p := []) deep exists_ located plain (spelled ▸ fits)
      rw [← spelled] at scans
      obtain ⟨load, runs, loaded⟩ := scans.loaded some_
      refine ⟨fs.depth + 2, load, ?_, loaded⟩
      rw [svc]
      simp only [if_neg working]
      rw [List.length_nil] at runs
      rw [runs]
      rfl

/-- A file in a directory of the root. -/
def sampleKind (location : List (List Char)) : Option Kind :=
  if location = [] ∨ location = [['d']] then some .directory
  else if location = [['d'], ['f']] then some .regular
  else none

/-- The entries of the two directories. -/
def sampleEntries (location : List (List Char)) : List (List Char) :=
  if location = [] then [dot, dotdot, ['d']] else [dotdot, ['f'], dot]

/-- The entries of the directories of the sample. -/
theorem sampleKind_append {location : List (List Char)} {name : List Char} :
    sampleKind (location ++ [name]) ≠ none ↔
      location = [] ∧ name = ['d'] ∨ location = [['d']] ∧ name = ['f'] := by
  rcases location with _ | ⟨first, _ | ⟨second, rest⟩⟩ <;> simp [sampleKind]

/-- The places of the sample. -/
theorem sampleKind_eq {location : List (List Char)} {kind : Kind}
    (is : sampleKind location = some kind) :
    location = [] ∨ location = [['d']] ∨ location = [['d'], ['f']] := by
  unfold sampleKind at is
  split at is
  · next directory => tauto
  split at is
  · next regular => exact Or.inr (Or.inr regular)
  · cases is

/-- Every entry of the sample is in a directory. -/
theorem sample_parent (location : List (List Char)) (name : List Char)
    (exists_ : sampleKind (location ++ [name]) ≠ none) :
    sampleKind location = some .directory := by
  rcases sampleKind_append.mp exists_ with ⟨rfl, -⟩ | ⟨rfl, -⟩ <;> rfl

/-- Every entry of the sample has a file name. -/
theorem sample_fileName (location : List (List Char)) (name : List Char)
    (exists_ : sampleKind (location ++ [name]) ≠ none) : FileName name := by
  rcases sampleKind_append.mp exists_ with ⟨-, rfl⟩ | ⟨-, rfl⟩ <;> constructor <;> decide

/-- No path of the sample is longer than two names. -/
theorem sample_length_le (location : List (List Char)) (exists_ : sampleKind location ≠ none) :
    location.length ≤ 2 := by
  obtain ⟨kind, is⟩ := Option.ne_none_iff_exists'.mp exists_
  rcases sampleKind_eq is with rfl | rfl | rfl <;> decide

/-- A directory of the sample lists no name twice. -/
theorem sample_nodup (location : List (List Char))
    (_ : sampleKind location = some .directory) : (sampleEntries location).Nodup := by
  unfold sampleEntries
  split <;> decide

/-- A directory of the sample lists its entries and the two names with dots. -/
theorem sample_entries (location : List (List Char))
    (directory : sampleKind location = some .directory) (name : List Char) :
    name ∈ sampleEntries location ↔
      name = dot ∨ name = dotdot ∨ sampleKind (location ++ [name]) ≠ none := by
  rw [sampleKind_append]
  rcases sampleKind_eq directory with rfl | rfl | rfl
  · simp [sampleEntries]
  · simp [sampleEntries]
    tauto
  · cases directory

/-- The file system of these. -/
def sample : FileSystem where
  kind := sampleKind
  entries := sampleEntries
  depth := 2
  root := rfl
  parent := sample_parent
  fileName := sample_fileName
  length_le := sample_length_le
  entries_nodup := sample_nodup
  mem_entries := sample_entries

/-- The file of the sample is loaded. -/
theorem svc_loads_iff_sample :
    ∃ fuel load, svc sample [] fuel ['d'] (List.replicate 16 nul) = some load ∧
      Loaded sample [] [['d']] ['d'] load := by
  have fits : Fits sample 16 (fullPath ['d'] [['d']]) [['d']] := by
    intro file kind is _
    rcases sampleKind_eq is with rfl | rfl | rfl <;> split <;> decide
  exact (svc_loads_iff sample [] [['d']] ['d'] (List.replicate 16 nul) rfl (by decide) fits).mpr
    (Or.inl (by decide))

/-- From the directory the file is not found through the one above. -/
theorem svc_misses :
    sample.locate [['d']] dotdot = some [] ∧ Fits sample 16 (fullPath dotdot []) [] ∧
      ¬∃ fuel load, svc sample [['d']] fuel dotdot (List.replicate 16 nul) = some load ∧
        Loaded sample [['d']] [] dotdot load := by
  have regular : sample.kind [['d'], ['f']] = some .regular := rfl
  refine ⟨by decide, ?_, svc_dotdot_misses (by decide) List.nil_prefix regular⟩
  intro file kind is _
  rcases sampleKind_eq is with rfl | rfl | rfl <;> split <;> decide

end P3arsec.Ferret

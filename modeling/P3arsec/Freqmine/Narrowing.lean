import P3arsec.Lib.Words

/-!
# Narrowing an FP-array in place

An FP-array has the prefix paths of the nodes of each item, from the item below the node down to the
root, with an end mark behind each path. The items are numbers of as many bytes as the greatest of
them needs, and the mark has all bits set. `FP_growth_first` mines the items from the greatest on.
When no item is left that needs so many bytes, `transform_FPArray` rewrites the array in place with
fewer bytes. The items that have been mined are cut off then, but they are on no path that is still
needed: the items of a path are smaller than the item of its node.
-/

namespace P3arsec.Freqmine

open P3arsec.Lib

/-- The number of bytes of an item for `function_type`. -/
def typeWidth (functionType : Nat) : Nat :=
  if functionType = 0 then 1 else if functionType = 1 then 2 else 4

/-- `mark`: 0xff, 0xffff or 0xffffffff. -/
def endMark (width : Nat) : Nat := 256 ^ width - 1

/-- `transform_FPArray`. -/
def transformFPArray (wide width mark size : Nat) (itemArray : Bytes) : Bytes :=
  narrow (· &&& mark) wide width size itemArray

/-- The loop over `Trans` in `FPArray_conditional_pattern_base` and `FPArray_scan2_DB`: the items up
to the mark. There is no result where the loop leaves the array. -/
def prefixPath (width mark size : Nat) (itemArray : Bytes) (begin : Nat) : Option (List Nat) :=
  if begin < size then
    let item := load width itemArray (width * begin)
    if item ≠ mark then (item :: ·) <$> prefixPath width mark size itemArray (begin + 1)
    else some []
  else none
termination_by size - begin

/-- A node in `NodeArrayList`. -/
structure PathNode where
  /-- Where its prefix path begins. -/
  begin : Nat
  /-- The count of the node. -/
  count : Nat

/-- `function_type` at the begin of `FP_growth_first`. -/
def firstFunctionType (itemno : Nat) : Nat :=
  if itemno ≤ 0x100 then 0 else if itemno < 0x10000 then 1 else 2

/-- An FP-array. -/
structure FPArray where
  /-- The number of items. -/
  itemno : Nat
  /-- `new_data_num`, the number of entries. -/
  size : Nat
  /-- `ItemArray`. -/
  itemArray : Bytes
  /-- `NodeArrayList`: the nodes of each item. -/
  nodeArrayList : Nat → List PathNode
  /-- A node has a prefix path, with items smaller than its own. -/
  path_lt : ∀ item < itemno, ∀ node ∈ nodeArrayList item,
    ∃ path, prefixPath (typeWidth (firstFunctionType itemno))
      (endMark (typeWidth (firstFunctionType itemno))) size itemArray node.begin = some path ∧
      ∀ other ∈ path, other < item

/-- `lowerbound_array`. -/
def lowerboundArray (t : Nat) : Nat := if t = 0 then 0x10000 else if t = 1 then 0x100 else 0

/-- The variables of `FP_growth_first` between two width stages. -/
structure Growth where
  /-- `function_type`. -/
  functionType : Nat
  /-- `ItemArray`. -/
  itemArray : Bytes
  /-- `upperbound`. -/
  upperbound : Nat
  /-- `lowerbound`. -/
  lowerbound : Nat

namespace FPArray

variable (fp : FPArray)

/-- The begin of `FP_growth_first`. -/
def begin : Growth where
  functionType := firstFunctionType fp.itemno
  itemArray := fp.itemArray
  upperbound := 0
  lowerbound := if 0x7fffffff > fp.itemno then fp.itemno else 0x7fffffff

/-- The part of the loop over the width stages before the items from `upperbound - 1` down to
`lowerbound` are mined. -/
def stage (g : Growth) (t : Nat) : Growth :=
  let upperbound := if g.lowerbound > fp.itemno then fp.itemno else g.lowerbound
  let lowerbound := lowerboundArray t
  if upperbound > lowerbound then
    let newFunctionType :=
      if upperbound - 1 < 0x100 then 0 else if upperbound - 1 < 0x10000 then 1 else 2
    if newFunctionType ≠ g.functionType then
      { functionType := newFunctionType
        itemArray :=
          if t = 1 then transformFPArray 4 2 0xffff fp.size g.itemArray
          else if t = 2 then transformFPArray 2 1 0xff fp.size g.itemArray
          else g.itemArray
        upperbound
        lowerbound }
    else { g with upperbound, lowerbound }
  else { g with upperbound, lowerbound }

/-- After some stages. -/
def stages (t : Nat) : Growth := (List.range t).foldl fp.stage fp.begin

/-- The prefix path of a node as it is read in a stage. -/
def path (g : Growth) (node : PathNode) : Option (List Nat) :=
  prefixPath (typeWidth g.functionType) (endMark (typeWidth g.functionType)) fp.size g.itemArray
    node.begin

end FPArray

namespace FPArray

/-! ### One narrowing -/

/-- The mark of a width is the greatest number, and cutting it off gives the mark of fewer bytes. -/
theorem endMark_mod {wide width : Nat} (narrower : width ≤ wide) :
    endMark wide % 256 ^ width = endMark width := by
  obtain ⟨more, rfl⟩ := Nat.exists_eq_add_of_le narrower
  have positive : 0 < 256 ^ width := Nat.pow_pos (by decide)
  have factor : 0 < 256 ^ more := Nat.pow_pos (by decide)
  have split : endMark (width + more) = endMark width + 256 ^ width * endMark more := by
    unfold endMark
    rw [pow_add, Nat.mul_sub_one]
    have grows : 256 ^ width ≤ 256 ^ width * 256 ^ more := Nat.le_mul_of_pos_right _ factor
    omega
  rw [split, Nat.add_mul_mod_self_left]
  apply Nat.mod_eq_of_lt
  unfold endMark
  omega

/-- A number under the mark is cut off. -/
theorem land_endMark (width value : Nat) : value &&& endMark width = value % 256 ^ width := by
  have power : 256 ^ width = 2 ^ (8 * width) := by
    rw [pow_mul]
    rfl
  rw [endMark, power, Nat.and_two_pow_sub_one_eq_mod]

/-- The entries after the array has been narrowed. -/
theorem load_transform {wide width size i : Nat} (narrower : width ≤ wide) (itemArray : Bytes)
    (inside : i < size) :
    load width (transformFPArray wide width (endMark width) size itemArray) (width * i) =
      load wide itemArray (wide * i) % 256 ^ width := by
  unfold transformFPArray
  rw [(narrow_spec _ narrower size itemArray).1 i inside, land_endMark, Nat.mod_mod]

/-- A path of items that fit into fewer bytes is read in the narrower array. -/
theorem prefixPath_transform {wide width size limit : Nat} (narrower : width ≤ wide)
    (fits : limit < 256 ^ width) (itemArray : Bytes) {begin : Nat} {path : List Nat}
    (reads : prefixPath wide (endMark wide) size itemArray begin = some path)
    (small : ∀ item ∈ path, item < limit) :
    prefixPath width (endMark width) size
      (transformFPArray wide width (endMark width) size itemArray) begin = some path := by
  fun_induction prefixPath wide (endMark wide) size itemArray begin generalizing path with
  | case1 begin inside item other =>
    rename_i ih
    obtain ⟨rest, reads', rfl⟩ := Option.map_eq_some_iff.mp reads
    have here : item < limit := small item List.mem_cons_self
    have entry : load width (transformFPArray wide width (endMark width) size itemArray)
        (width * begin) = item := by
      rw [load_transform narrower itemArray inside]
      exact Nat.mod_eq_of_lt (here.trans fits)
    have unmarked : item ≠ endMark width := by
      unfold endMark
      omega
    rw [prefixPath, if_pos inside]
    dsimp only
    rw [entry, if_pos unmarked, ih reads' fun other member => small other (.tail item member)]
    rfl
  | case2 begin inside item =>
    rename_i mark
    obtain rfl := Option.some.inj reads
    have entry : load width (transformFPArray wide width (endMark width) size itemArray)
        (width * begin) = endMark width := by
      rw [load_transform narrower itemArray inside, ← endMark_mod narrower]
      exact congrArg (· % 256 ^ width) (not_not.mp mark)
    rw [prefixPath, if_pos inside]
    dsimp only
    rw [entry, if_neg (not_not.mpr rfl)]
  | case3 begin outside => exact nomatch reads

/-! ### The width stages -/

variable {fp : FPArray}

/-- The paths of the items below a limit are read as at the begin. -/
def Reads (fp : FPArray) (functionType : Nat) (itemArray : Bytes) (limit : Nat) : Prop :=
  ∀ item < limit, item < fp.itemno → ∀ node ∈ fp.nodeArrayList item, ∀ path,
    fp.path fp.begin node = some path →
    prefixPath (typeWidth functionType) (endMark (typeWidth functionType)) fp.size itemArray
      node.begin = some path

/-- Fewer items are read too. -/
theorem Reads.mono {functionType limit fewer : Nat} {itemArray : Bytes} (smaller : fewer ≤ limit)
    (reads : fp.Reads functionType itemArray limit) : fp.Reads functionType itemArray fewer :=
  fun item below => reads item (lt_of_lt_of_le below smaller)

/-- Where no item below a limit needs more bytes, its paths are read in the narrower array. -/
theorem Reads.transform {wide width limit : Nat} {itemArray : Bytes}
    (narrower : typeWidth width ≤ typeWidth wide) (fits : limit ≤ 256 ^ typeWidth width)
    (reads : fp.Reads wide itemArray limit) :
    fp.Reads width (transformFPArray (typeWidth wide) (typeWidth width) (endMark (typeWidth width))
      fp.size itemArray) limit := by
  intro item below known node member path begins
  obtain ⟨path', begins', small⟩ := fp.path_lt item known node member
  obtain rfl : path' = path := Option.some.inj (begins'.symm.trans begins)
  exact prefixPath_transform narrower (lt_of_lt_of_le below fits) itemArray
    (reads item below known node member path' begins) small

/-- From four bytes to two. -/
theorem Reads.toShort {limit : Nat} {itemArray : Bytes} (fits : limit ≤ 0x10000)
    (reads : fp.Reads 2 itemArray limit) :
    fp.Reads 1 (transformFPArray 4 2 0xffff fp.size itemArray) limit := by
  have narrower : typeWidth 1 ≤ typeWidth 2 := by decide
  have bytes : 256 ^ typeWidth 1 = 0x10000 := rfl
  have narrowed := @Reads.transform fp 2 1 limit itemArray narrower (by rwa [bytes]) reads
  have wide : typeWidth 2 = 4 := rfl
  have width : typeWidth 1 = 2 := rfl
  have mark : endMark 2 = 0xffff := rfl
  rwa [wide, width, mark] at narrowed

/-- From two bytes to one. -/
theorem Reads.toChar {limit : Nat} {itemArray : Bytes} (fits : limit ≤ 0x100)
    (reads : fp.Reads 1 itemArray limit) :
    fp.Reads 0 (transformFPArray 2 1 0xff fp.size itemArray) limit := by
  have narrower : typeWidth 0 ≤ typeWidth 1 := by decide
  have bytes : 256 ^ typeWidth 0 = 0x100 := rfl
  have narrowed := @Reads.transform fp 1 0 limit itemArray narrower (by rwa [bytes]) reads
  have wide : typeWidth 1 = 2 := rfl
  have width : typeWidth 0 = 1 := rfl
  have mark : endMark 1 = 0xff := rfl
  rwa [wide, width, mark] at narrowed

/-- The items that are left for a stage. -/
def left (fp : FPArray) (t : Nat) : Nat :=
  min fp.itemno (if t = 0 then 0x7fffffff else lowerboundArray (t - 1))

/-- The first stage: the items of `int`. -/
theorem left_zero : fp.left 0 = min fp.itemno 0x7fffffff := rfl

/-- The second stage: the items of two bytes. -/
theorem left_one : fp.left 1 = min fp.itemno 0x10000 := rfl

/-- The third stage: the items of one byte. -/
theorem left_two : fp.left 2 = min fp.itemno 0x100 := rfl

/-- Behind it no items are left. -/
theorem left_three : fp.left 3 = 0 := Nat.min_zero _

/-- The function type at the begin for each number of items. -/
theorem firstFunctionType_cases (itemno : Nat) :
    itemno ≤ 0x100 ∧ firstFunctionType itemno = 0 ∨
      (0x100 < itemno ∧ itemno < 0x10000) ∧ firstFunctionType itemno = 1 ∨
      0x10000 ≤ itemno ∧ firstFunctionType itemno = 2 := by
  unfold firstFunctionType
  split_ifs <;> omega

/-- What holds before a stage: the function type is the one at the begin or the greatest that is
still needed, and the paths of the items that are left are read. -/
structure Staged (fp : FPArray) (t : Nat) (g : Growth) : Prop where
  type : g.functionType = min (firstFunctionType fp.itemno) (3 - t)
  lower : (if g.lowerbound > fp.itemno then fp.itemno else g.lowerbound) = fp.left t
  reads : fp.Reads g.functionType g.itemArray (fp.left t)

/-- The begin of `FP_growth_first`. -/
theorem staged_begin : fp.Staged 0 fp.begin where
  type := by
    show firstFunctionType fp.itemno = _
    unfold firstFunctionType
    split_ifs <;> rfl
  lower := by
    simp only [begin, left]
    split_ifs <;> omega
  reads _ _ _ _ _ _ begins := begins

/-- What a stage leaves, apart from the bounds. -/
def Left (fp : FPArray) (t : Nat) (g : Growth) : Prop :=
  g.functionType = min (firstFunctionType fp.itemno) (3 - (t + 1)) ∧
    fp.Reads g.functionType g.itemArray (fp.left t)

/-- The items that need four bytes are mined as they are. -/
theorem left_stage_zero {g : Growth} (staged : fp.Staged 0 g) : fp.Left 0 (fp.stage g 0) := by
  have type := staged.type
  have first := firstFunctionType_cases fp.itemno
  have before := fp.left_zero
  unfold Left stage
  generalize firstFunctionType fp.itemno = begins at type first ⊢
  dsimp only
  rw [staged.lower, show lowerboundArray 0 = 0x10000 from rfl]
  by_cases some : fp.left 0 > 0x10000
  · rw [if_pos some, if_neg (by omega : ¬fp.left 0 - 1 < 0x100),
      if_neg (by omega : ¬fp.left 0 - 1 < 0x10000), if_neg (by omega)]
    exact ⟨type.trans (by omega), staged.reads⟩
  · rw [if_neg some]
    exact ⟨type.trans (by omega), staged.reads⟩

/-- The items that are left for two bytes. -/
theorem left_stage_one {g : Growth} (staged : fp.Staged 1 g) : fp.Left 1 (fp.stage g 1) := by
  have type := staged.type
  have reads := staged.reads
  have first := firstFunctionType_cases fp.itemno
  have before := fp.left_one
  unfold Left stage
  generalize firstFunctionType fp.itemno = begins at type first ⊢
  dsimp only
  rw [staged.lower, show lowerboundArray 1 = 0x100 from rfl]
  by_cases some : fp.left 1 > 0x100
  · rw [if_pos some, if_neg (by omega : ¬fp.left 1 - 1 < 0x100),
      if_pos (by omega : fp.left 1 - 1 < 0x10000)]
    by_cases wide : g.functionType = 2
    · rw [wide] at reads
      rw [if_pos (by omega), if_pos rfl]
      exact ⟨show 1 = _ by omega, reads.toShort (by omega)⟩
    · rw [if_neg (by omega)]
      exact ⟨type.trans (by omega), reads⟩
  · rw [if_neg some]
    exact ⟨type.trans (by omega), reads⟩

/-- The items that are left for one byte. -/
theorem left_stage_two {g : Growth} (staged : fp.Staged 2 g) : fp.Left 2 (fp.stage g 2) := by
  have type := staged.type
  have reads := staged.reads
  have first := firstFunctionType_cases fp.itemno
  have before := fp.left_two
  unfold Left stage
  generalize firstFunctionType fp.itemno = begins at type first ⊢
  dsimp only
  rw [staged.lower, show lowerboundArray 2 = 0 from rfl]
  by_cases some : fp.left 2 > 0
  · rw [if_pos some, if_pos (by omega : fp.left 2 - 1 < 0x100)]
    by_cases wide : g.functionType = 1
    · rw [wide] at reads
      rw [if_pos (by omega), if_neg (by decide), if_pos rfl]
      exact ⟨show 0 = _ by omega, reads.toChar (by omega)⟩
    · rw [if_neg (by omega)]
      exact ⟨type.trans (by omega), reads⟩
  · rw [if_neg some]
    exact ⟨type.trans (by omega), reads⟩

/-- A stage keeps the paths of the items that are left. -/
theorem staged_step {t : Nat} (bound : t < 3) {g : Growth} (staged : fp.Staged t g) :
    fp.Staged (t + 1) (fp.stage g t) ∧ (fp.stage g t).upperbound = fp.left t ∧
      fp.Reads (fp.stage g t).functionType (fp.stage g t).itemArray (fp.left t) := by
  have upper : (fp.stage g t).upperbound = fp.left t := by
    unfold stage
    dsimp only
    rw [staged.lower]
    split_ifs <;> rfl
  have lower : (fp.stage g t).lowerbound = lowerboundArray t := by
    unfold stage
    dsimp only
    split_ifs <;> rfl
  have held : fp.Left t (fp.stage g t) ∧ fp.left (t + 1) ≤ fp.left t := by
    obtain rfl | rfl | rfl : t = 0 ∨ t = 1 ∨ t = 2 := by omega
    · refine ⟨left_stage_zero staged, ?_⟩
      rw [left_one, left_zero]
      omega
    · refine ⟨left_stage_one staged, ?_⟩
      rw [left_two, left_one]
      omega
    · refine ⟨left_stage_two staged, ?_⟩
      rw [left_three]
      exact Nat.zero_le _
  obtain ⟨⟨type, reads⟩, fewer⟩ := held
  refine ⟨⟨type, ?_, reads.mono fewer⟩, upper, reads⟩
  rw [lower, left, if_neg (Nat.succ_ne_zero t), Nat.add_sub_cancel]
  split_ifs <;> omega

/-- What holds before each stage. -/
theorem staged_stages {t : Nat} (bound : t ≤ 3) : fp.Staged t (fp.stages t) := by
  induction t with
  | zero => exact staged_begin
  | succ t ih =>
    have step := (staged_step bound (ih (by omega))).1
    unfold stages at step ⊢
    rw [List.range_succ, List.foldl_append]
    exact step

/-- In each width stage the prefix path of every node of every item that is left to be mined is the
same as before the stage, and as at the begin. -/
theorem stages_path (fp : FPArray) {t : Nat} (bound : t < 3) :
    ∀ item < (fp.stages (t + 1)).upperbound, ∀ node ∈ fp.nodeArrayList item,
      ∃ path, fp.path fp.begin node = some path ∧ fp.path (fp.stages t) node = some path ∧
        fp.path (fp.stages (t + 1)) node = some path := by
  have before : fp.Staged t (fp.stages t) := staged_stages (by omega)
  have next : fp.stages (t + 1) = fp.stage (fp.stages t) t := by
    unfold stages
    rw [List.range_succ, List.foldl_append]
    rfl
  obtain ⟨-, upper, after⟩ := staged_step bound before
  rw [next]
  intro item below node member
  rw [upper] at below
  have known : item < fp.itemno := lt_of_lt_of_le below (min_le_left _ _)
  obtain ⟨path, begins, -⟩ := fp.path_lt item known node member
  exact ⟨path, begins, before.reads item below known node member path begins,
    after item below known node member path begins⟩

section Sample

/-- The words 0x101, 5, 3 and the mark. -/
def sampleBytes : Bytes := fun x => [1, 1, 5, 0, 3, 0, 0xff, 0xff].getD x 0

/-- A branch of the items 3, 5 and 0x101. -/
def sampleArray : FPArray where
  itemno := 0x102
  size := 4
  itemArray := sampleBytes
  nodeArrayList item :=
    if item = 0x101 then [⟨1, 1⟩] else if item = 5 then [⟨2, 1⟩] else if item = 3 then [⟨3, 1⟩]
    else []
  path_lt item _ node member := by
    have width : typeWidth (firstFunctionType 0x102) = 2 := rfl
    rw [width]
    split_ifs at member with last middle first
    · obtain rfl := List.mem_singleton.mp member
      refine ⟨[5, 3], by simp [prefixPath, load, sampleBytes, endMark], ?_⟩
      simp [last]
    · obtain rfl := List.mem_singleton.mp member
      refine ⟨[3], by simp [prefixPath, load, sampleBytes, endMark], ?_⟩
      simp [middle]
    · obtain rfl := List.mem_singleton.mp member
      exact ⟨[], by simp [prefixPath, load, sampleBytes, endMark], by simp⟩
    · exact absurd member List.not_mem_nil

/-- The path of item 5 is read from two bytes and from one. -/
theorem stages_path_sample : 5 < (sampleArray.stages 3).upperbound ∧
    (sampleArray.stages 2).functionType = 1 ∧ (sampleArray.stages 3).functionType = 0 ∧
    ∃ path, sampleArray.path sampleArray.begin ⟨2, 1⟩ = some path ∧
      sampleArray.path (sampleArray.stages 2) ⟨2, 1⟩ = some path ∧
      sampleArray.path (sampleArray.stages 3) ⟨2, 1⟩ = some path := by
  have left : 5 < (sampleArray.stages 3).upperbound := by decide
  refine ⟨left, by decide, by decide, ?_⟩
  exact stages_path sampleArray (by decide : 2 < 3) 5 left ⟨2, 1⟩ (List.mem_singleton.mpr rfl)

end Sample

end FPArray

end P3arsec.Freqmine

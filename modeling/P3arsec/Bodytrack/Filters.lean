import P3arsec.Lib.Writes

/-!
# The separable filter

The filters run one kernel along the rows and then along the columns of an image. Both leave the
places at which the kernel does not fit zero. The rows run in parallel, and each place is written by
one row from an image that none of them writes, so that their order does not matter
(`rowFiltered_of_run`, `columnFiltered_of_run`). The filter of the columns begins with the first row
and not with the first one at which the kernel fits: it reads `n` rows above the image and writes
the sums to the upper border. Only without such rows is it valid (`separable_valid_iff`).
-/

namespace P3arsec.Bodytrack

open P3arsec.Lib

variable {T T2 : Type}

/-- `FlexImage<T, 1>`. -/
structure FlexImage (T : Type) where
  /-- `Width`. -/
  width : Nat
  /-- `Height`. -/
  height : Nat
  /-- The elements by column and row; where there is no pixel, the memory around the image. -/
  pixel : Int × Int → T

/-- There is a pixel. -/
def FlexImage.Inside (image : FlexImage T) (place : Int × Int) : Prop :=
  (0 ≤ place.1 ∧ place.1 < image.width) ∧ 0 ≤ place.2 ∧ place.2 < image.height

instance (image : FlexImage T) (place : Int × Int) : Decidable (image.Inside place) :=
  inferInstanceAs (Decidable (_ ∧ _))

/-- The arithmetic of the filters on elements and entries of the kernel. -/
structure Arithmetic (T T2 : Type) where
  /-- The product of an element and an entry, converted to `T2`. -/
  product : T → T2 → T2
  /-- The conversion of a sum to `T`. -/
  toT : T2 → T

/-- What is done for one pixel: the places that are read, and the value that is written. -/
structure Step (T : Type) where
  reads : List (Int × Int)
  place : Int × Int
  value : T

section Programs

variable [AddCommMonoid T2] (arith : Arithmetic T T2) (src : FlexImage T) (kernel : Nat → T2)
  (n : Nat)

/-- The loop over the kernel, where `tap i` is read for `i` from `-n` to `n`. -/
def accumulate (tap : Int → Int × Int) : T2 :=
  (List.range (2 * n + 1)).foldl
    (fun acc (k : Nat) => acc + arith.product (src.pixel (tap (k - n))) (kernel k)) 0

/-- The step that writes the sum over the kernel. -/
def step (place : Int × Int) (tap : Int → Int × Int) : Step T where
  reads := (List.range (2 * n + 1)).map fun k : Nat => tap (k - n)
  place := place
  value := arith.toT (accumulate arith src kernel n tap)

/-- The body of the filter of the rows for row `y`. -/
def rowBody (y : Nat) : List (Step T) :=
  (List.range' n (src.width - n - n)).map fun x : Nat =>
    step arith src kernel n ((x : Int), (y : Int)) fun i => (x + i, (y : Int))

/-- The body of the filter of the columns for row `y`. -/
def columnBody (y : Nat) : List (Step T) :=
  (List.range src.width).map fun x : Nat =>
    step arith src kernel n ((x : Int), (y : Int)) fun i => ((x : Int), y + i)

/-- `dst.Reallocate` and `dst.Set`, in some memory. -/
def FlexImage.blank [Zero T] (memory : Int × Int → T) : FlexImage T :=
  { src with pixel := fun place => if src.Inside place then 0 else memory place }

/-- The image after some steps. -/
def FlexImage.after {ι : Type} (run : List (ι × Step T)) (image : FlexImage T) : FlexImage T :=
  { image with
    pixel := run.foldl (fun pixel step => Function.update pixel step.2.place step.2.value)
      image.pixel }

/-- The rows up to `h` run in parallel, from a blank image. -/
def Parallel [Zero T] (h : Nat) (body : Nat → List (Step T)) (memory : Int × Int → T)
    (dst : FlexImage T) (reads : List (Int × Int)) : Prop :=
  ∃ run : List (Fin h × Step T), Interleaves run (fun y => body y) ∧
    dst = (src.blank memory).after run ∧ reads = run.flatMap fun step => step.2.reads

variable [Zero T] (kernelSize : Nat) (memory : Int × Int → T) (dst : FlexImage T)
  (reads : List (Int × Int))

/-- A run of a filter of the rows that returns `true`. -/
def FilterRowV : Prop :=
  kernelSize % 2 = 1 ∧
    Parallel src src.height (rowBody arith src kernel (kernelSize / 2)) memory dst reads

/-- A run of a filter of the columns that returns `true`. -/
def FilterColumnV : Prop :=
  kernelSize % 2 = 1 ∧
    Parallel src (src.height - kernelSize / 2) (columnBody arith src kernel (kernelSize / 2)) memory
      dst reads

/-- `FlexFilterRowVFF`. -/
def FlexFilterRowVFF : Prop := FilterRowV arith src kernel kernelSize memory dst reads

/-- `FlexFilterColumnVFF`. -/
def FlexFilterColumnVFF : Prop := FilterColumnV arith src kernel kernelSize memory dst reads

/-- `FlexFilterRowVNornir`. -/
def FlexFilterRowVNornir : Prop := FilterRowV arith src kernel kernelSize memory dst reads

/-- `FlexFilterColumnVNornir`. -/
def FlexFilterColumnVNornir : Prop := FilterColumnV arith src kernel kernelSize memory dst reads

/-- The filter of the rows and then that of the columns, as `GaussianBlurFF` runs them, in two
memories for the images that they make. -/
def SeparableFF (memory' : Int × Int → T) : Prop :=
  ∃ tmp rows columns, FlexFilterRowVFF arith src kernel kernelSize memory tmp rows ∧
    FlexFilterColumnVFF arith tmp kernel kernelSize memory' dst columns ∧ reads = rows ++ columns

/-- The filters as `GaussianBlurNornir` runs them. -/
def SeparableNornir (memory' : Int × Int → T) : Prop :=
  ∃ tmp rows columns, FlexFilterRowVNornir arith src kernel kernelSize memory tmp rows ∧
    FlexFilterColumnVNornir arith tmp kernel kernelSize memory' dst columns ∧
      reads = rows ++ columns

/-- The valid-pixel convolution of the rows. -/
def rowFiltered (place : Int × Int) : T :=
  if n ≤ place.1 ∧ place.1 + n < src.width then
    arith.toT (∑ k ∈ Finset.range (2 * n + 1),
      arith.product (src.pixel (place.1 + (k - n), place.2)) (kernel k))
  else 0

/-- The result is the valid-pixel separable convolution, made from pixels of the images. -/
structure Valid : Prop where
  reads : ∀ place ∈ reads, src.Inside place
  border : ∀ place, src.Inside place → (place.2 < n ∨ src.height ≤ place.2 + n) →
    dst.pixel place = 0
  inner : ∀ place, src.Inside place → n ≤ place.2 → place.2 + n < src.height →
    dst.pixel place = arith.toT (∑ k ∈ Finset.range (2 * n + 1),
      arith.product (rowFiltered arith src kernel n (place.1, place.2 + (k - n))) (kernel k))

end Programs

section Runs

variable [AddCommMonoid T2] {arith : Arithmetic T T2} {src tmp dst : FlexImage T}
  {kernel : Nat → T2} {n h : Nat} {memory : Int × Int → T} {reads : List (Int × Int)}
  {body : Nat → List (Step T)}

/-- A filtered pixel is the sum of the products around it. -/
theorem accumulate_eq (tap : Int → Int × Int) :
    accumulate arith src kernel n tap = ∑ k ∈ Finset.range (2 * n + 1),
      arith.product (src.pixel (tap (k - n))) (kernel k) := by
  rw [accumulate, foldl_add_range, zero_add]

/-- A step of a run is a step of the body for a row. -/
theorem mem_run {run : List (Fin h × Step T)} (interleaves : Interleaves run fun y => body y)
    {step : Step T} : (∃ y, (y, step) ∈ run) ↔ ∃ y < h, step ∈ body y := by
  constructor
  · rintro ⟨y, member⟩
    exact ⟨y, y.isLt, interleaves.mem member⟩
  · rintro ⟨y, inside, member⟩
    have row : (run.filter fun step => step.1 = ⟨y, inside⟩).map Prod.snd = body y :=
      interleaves ⟨y, inside⟩
    rw [← row] at member
    obtain ⟨⟨row, found⟩, kept, rfl⟩ := List.mem_map.mp member
    exact ⟨row, (List.mem_filter.mp kept).1⟩

/-- A place in an image has the numbers of its column and its row. -/
theorem FlexImage.Inside.exists_eq {place : Int × Int} (inside : src.Inside place) :
    ∃ x y : Nat, place = ((x : Int), (y : Int)) ∧ x < src.width ∧ y < src.height := by
  obtain ⟨x, y⟩ := place
  obtain ⟨⟨left, right⟩, above, below⟩ := inside
  obtain ⟨x, rfl⟩ := Int.eq_ofNat_of_zero_le left
  obtain ⟨y, rfl⟩ := Int.eq_ofNat_of_zero_le above
  exact ⟨x, y, rfl, Int.ofNat_lt.mp right, Int.ofNat_lt.mp below⟩

variable [Zero T]

/-- The destination has the size of the source. -/
theorem Parallel.size (parallel : Parallel src h body memory dst reads) :
    dst.width = src.width ∧ dst.height = src.height := by
  obtain ⟨run, -, rfl, -⟩ := parallel
  exact ⟨rfl, rfl⟩

/-- The places that are read are those of the steps of the rows. -/
theorem Parallel.mem_reads (parallel : Parallel src h body memory dst reads) {place : Int × Int} :
    place ∈ reads ↔ ∃ y < h, ∃ step ∈ body y, place ∈ step.reads := by
  obtain ⟨run, interleaves, -, rfl⟩ := parallel
  rw [List.mem_flatMap]
  constructor
  · rintro ⟨⟨y, step⟩, member, read⟩
    obtain ⟨y, inside, member⟩ := (mem_run interleaves).mp ⟨y, member⟩
    exact ⟨y, inside, step, member, read⟩
  · rintro ⟨y, inside, step, member, read⟩
    obtain ⟨y, member⟩ := (mem_run interleaves).mpr ⟨y, inside, member⟩
    exact ⟨_, member, read⟩

/-- A place that gets one value only has it. -/
theorem Parallel.written (parallel : Parallel src h body memory dst reads) {place : Int × Int}
    {value : T} (same : ∀ y < h, ∀ step ∈ body y, step.place = place → step.value = value)
    (written : ∃ y < h, ∃ step ∈ body y, step.place = place) : dst.pixel place = value := by
  obtain ⟨run, interleaves, rfl, -⟩ := parallel
  apply foldl_update
  · rintro ⟨y, step⟩ member here
    exact same y y.isLt step (interleaves.mem member) here
  · obtain ⟨y, inside, step, member, here⟩ := written
    obtain ⟨y, member⟩ := (mem_run interleaves).mpr ⟨y, inside, member⟩
    exact ⟨_, member, here⟩

/-- A pixel that is not written stays zero. -/
theorem Parallel.unwritten (parallel : Parallel src h body memory dst reads) {place : Int × Int}
    (inside : src.Inside place) (others : ∀ y < h, ∀ step ∈ body y, step.place ≠ place) :
    dst.pixel place = 0 := by
  obtain ⟨run, interleaves, rfl, -⟩ := parallel
  have kept : ∀ steps : List (Fin h × Step T), (∀ step ∈ steps, step.2.place ≠ place) →
      ∀ pixel : Int × Int → T,
        steps.foldl (fun pixel step => Function.update pixel step.2.place step.2.value) pixel
          place = pixel place := by
    intro steps
    induction steps with
    | nil => exact fun _ _ => rfl
    | cons step steps ih =>
      intro apart pixel
      rw [List.foldl_cons, ih fun step member => apart step (List.mem_cons_of_mem _ member)]
      exact Function.update_of_ne (Ne.symm (apart step List.mem_cons_self)) _ _
  have steps := kept run (fun step member =>
    others step.1 step.1.isLt step.2 (interleaves.mem member)) (src.blank memory).pixel
  exact steps.trans (if_pos inside)

/-- The pixels of the columns and rows that are swept over get their sums, the others stay zero. -/
theorem Parallel.swept {columns : List Nat} {tap : Nat → Nat → Int → Int × Int}
    (parallel : Parallel src h (fun y => columns.map fun x : Nat =>
      step arith src kernel n ((x : Int), (y : Int)) (tap x y)) memory dst reads)
    {x y : Nat} (inside : src.Inside (x, y)) :
    dst.pixel (x, y) = if x ∈ columns ∧ y < h then
      arith.toT (∑ k ∈ Finset.range (2 * n + 1),
        arith.product (src.pixel (tap x y (k - n))) (kernel k))
      else 0 := by
  split
  · rename_i swept
    apply parallel.written
    · intro row _ step member here
      obtain ⟨column, -, rfl⟩ := List.mem_map.mp member
      obtain ⟨sameColumn, sameRow⟩ := Prod.mk.inj here
      cases Int.ofNat.inj sameColumn
      cases Int.ofNat.inj sameRow
      exact congrArg arith.toT (accumulate_eq _)
    · exact ⟨y, swept.2, _, List.mem_map.mpr ⟨x, swept.1, rfl⟩, rfl⟩
  · rename_i outside
    apply parallel.unwritten inside
    intro row below step member here
    obtain ⟨column, known, rfl⟩ := List.mem_map.mp member
    obtain ⟨sameColumn, sameRow⟩ := Prod.mk.inj here
    cases Int.ofNat.inj sameColumn
    cases Int.ofNat.inj sameRow
    exact outside ⟨known, below⟩

/-- The filter of the rows makes the valid-pixel convolution of the rows. -/
theorem rowFiltered_of_run {kernelSize : Nat}
    (filter : FilterRowV arith src kernel kernelSize memory dst reads) {place : Int × Int}
    (inside : src.Inside place) :
    dst.pixel place = rowFiltered arith src kernel (kernelSize / 2) place := by
  obtain ⟨-, parallel⟩ := filter
  obtain ⟨x, y, rfl, right, below⟩ := inside.exists_eq
  rw [Parallel.swept parallel inside, rowFiltered]
  refine if_congr ?_ rfl rfl
  rw [List.mem_range'_1]
  simp only
  omega

/-- The filter of the rows reads pixels of the image. -/
theorem rows_inside {kernelSize : Nat}
    (filter : FilterRowV arith src kernel kernelSize memory dst reads) :
    ∀ place ∈ reads, src.Inside place := by
  obtain ⟨-, parallel⟩ := filter
  intro place read
  obtain ⟨y, below, step, member, tap⟩ := parallel.mem_reads.mp read
  obtain ⟨x, known, rfl⟩ := List.mem_map.mp member
  obtain ⟨k, less, rfl⟩ := List.mem_map.mp tap
  rw [List.mem_range'_1] at known
  rw [List.mem_range] at less
  simp only [FlexImage.Inside]
  omega

/-- The filter of the columns writes the sums over the columns to the rows from the first one on, as
many as there are less the lower border. -/
theorem columnFiltered_of_run {kernelSize : Nat}
    (filter : FilterColumnV arith src kernel kernelSize memory dst reads) {place : Int × Int}
    (inside : src.Inside place) :
    dst.pixel place = if place.2 + (kernelSize / 2 : Nat) < src.height then
      arith.toT (∑ k ∈ Finset.range (2 * (kernelSize / 2) + 1),
        arith.product (src.pixel (place.1, place.2 + (k - (kernelSize / 2 : Nat)))) (kernel k))
      else 0 := by
  obtain ⟨-, parallel⟩ := filter
  obtain ⟨x, y, rfl, right, below⟩ := inside.exists_eq
  rw [Parallel.swept parallel inside]
  refine if_congr ?_ rfl rfl
  rw [List.mem_range]
  simp only
  omega

/-- The filter of the columns reads rows above the image when there are some in its kernel and there
is something to filter. -/
theorem columns_inside_iff {kernelSize : Nat}
    (filter : FilterColumnV arith src kernel kernelSize memory dst reads) :
    (∀ place ∈ reads, src.Inside place) ↔
      kernelSize / 2 = 0 ∨ src.height ≤ kernelSize / 2 ∨ src.width = 0 := by
  obtain ⟨-, parallel⟩ := filter
  constructor
  · intro inside
    by_contra outside
    have first : ((0 : Int), (0 : Int) + ((0 : Nat) - (kernelSize / 2 : Nat))) ∈ reads := by
      rw [parallel.mem_reads]
      refine ⟨0, by omega, _, List.mem_map.mpr ⟨0, by rw [List.mem_range]; omega, rfl⟩, ?_⟩
      exact List.mem_map.mpr ⟨0, by rw [List.mem_range]; omega, rfl⟩
    have row := (inside _ first).2.1
    simp only at row
    omega
  · intro fits place read
    obtain ⟨y, below, step, member, tap⟩ := parallel.mem_reads.mp read
    obtain ⟨x, known, rfl⟩ := List.mem_map.mp member
    obtain ⟨k, less, rfl⟩ := List.mem_map.mp tap
    rw [List.mem_range] at known less
    simp only [FlexImage.Inside]
    omega

/-- The result is valid when the filter of the columns stays in the image. -/
theorem filters_valid_iff {kernelSize : Nat} {memory' : Int × Int → T}
    {rows columns : List (Int × Int)}
    (row : FilterRowV arith src kernel kernelSize memory tmp rows)
    (column : FilterColumnV arith tmp kernel kernelSize memory' dst columns) :
    Valid arith src kernel (kernelSize / 2) dst (rows ++ columns) ↔
      kernelSize / 2 = 0 ∨ src.height ≤ kernelSize / 2 ∨ src.width = 0 := by
  obtain ⟨width, height⟩ := row.2.size
  have same : ∀ place, tmp.Inside place ↔ src.Inside place := by
    intro place
    simp only [FlexImage.Inside, width, height]
  have stays := columns_inside_iff column
  rw [width, height] at stays
  rw [← stays]
  constructor
  · intro valid place read
    exact (same place).mpr (valid.reads place (List.mem_append_right rows read))
  · intro inside
    have fits := stays.mp inside
    refine ⟨?_, ?_, ?_⟩
    · intro place read
      rcases List.mem_append.mp read with read | read
      · exact rows_inside row place read
      · exact (same place).mp (inside place read)
    · intro place known edge
      rw [columnFiltered_of_run column ((same place).mpr known), if_neg]
      obtain ⟨⟨left, right⟩, above, below⟩ := known
      rw [height]
      omega
    · intro place known above below
      rw [columnFiltered_of_run column ((same place).mpr known),
        if_pos (by rw [height]; exact below)]
      refine congrArg arith.toT (Finset.sum_congr rfl fun k member => ?_)
      rw [Finset.mem_range] at member
      rw [rowFiltered_of_run row]
      obtain ⟨⟨left, right⟩, -, -⟩ := known
      simp only [FlexImage.Inside]
      omega

/-- The filters make the valid-pixel separable convolution, in every order of the rows and in both
versions, only when the kernel has one entry, or no row of the image lies beyond its upper border,
or the image has no column. -/
theorem separable_valid_iff (arith : Arithmetic T T2) (src dst : FlexImage T) (kernel : Nat → T2)
    (n : Nat) (memory memory' : Int × Int → T) (reads : List (Int × Int))
    (runs : SeparableFF arith src kernel (2 * n + 1) memory dst reads memory' ∨
      SeparableNornir arith src kernel (2 * n + 1) memory dst reads memory') :
    Valid arith src kernel n dst reads ↔ n = 0 ∨ src.height ≤ n ∨ src.width = 0 := by
  have size : (2 * n + 1) / 2 = n := by omega
  rcases runs with ⟨tmp, rows, columns, row, column, rfl⟩ | ⟨tmp, rows, columns, row, column, rfl⟩
  · have valid := filters_valid_iff row column
    rwa [size] at valid
  · have valid := filters_valid_iff row column
    rwa [size] at valid

/-- The rows can run one after another. -/
theorem parallel_exists (src : FlexImage T) (h : Nat) (body : Nat → List (Step T))
    (memory : Int × Int → T) : ∃ dst reads, Parallel src h body memory dst reads :=
  ⟨_, _, _, interleaves_of_order _ (List.nodup_finRange h) List.mem_finRange, rfl, rfl⟩

/-- The parallel filters can be run. -/
theorem separable_exists (arith : Arithmetic T T2) (src : FlexImage T) (kernel : Nat → T2) (n : Nat)
    (memory memory' : Int × Int → T) :
    ∃ dst reads, SeparableFF arith src kernel (2 * n + 1) memory dst reads memory' := by
  have odd : (2 * n + 1) % 2 = 1 := by omega
  obtain ⟨tmp, rows, row⟩ := parallel_exists src src.height
    (rowBody arith src kernel ((2 * n + 1) / 2)) memory
  obtain ⟨dst, columns, column⟩ := parallel_exists tmp (tmp.height - (2 * n + 1) / 2)
    (columnBody arith tmp kernel ((2 * n + 1) / 2)) memory'
  exact ⟨dst, rows ++ columns, tmp, rows, columns, ⟨odd, row⟩, ⟨odd, column⟩, rfl⟩

end Runs

/-- The arithmetic of the integers. -/
def intArithmetic : Arithmetic Int Int where
  product element entry := element * entry
  toT sum := sum

/-- An image of ones with four columns and five rows. -/
def ones : FlexImage Int := ⟨4, 5, fun _ => 1⟩

/-- An image of ones with four columns and one row. -/
def line : FlexImage Int := ⟨4, 1, fun _ => 1⟩

/-- A kernel of three ones makes the convolution of the image with one row, and not of the image
with five rows. -/
theorem separable_valid_iff_ones :
    (∃ dst reads,
      SeparableFF intArithmetic line (fun _ => 1) (2 * 1 + 1) (fun _ => 0) dst reads (fun _ => 0) ∧
        Valid intArithmetic line (fun _ => 1) 1 dst reads) ∧
      ∃ dst reads,
        SeparableFF intArithmetic ones (fun _ => 1) (2 * 1 + 1) (fun _ => 0) dst reads
          (fun _ => 0) ∧ ¬Valid intArithmetic ones (fun _ => 1) 1 dst reads := by
  obtain ⟨dst, reads, runs⟩ :=
    separable_exists intArithmetic line (fun _ => 1) 1 (fun _ => 0) (fun _ => 0)
  obtain ⟨dst', reads', runs'⟩ :=
    separable_exists intArithmetic ones (fun _ => 1) 1 (fun _ => 0) (fun _ => 0)
  have valid := separable_valid_iff intArithmetic line dst (fun _ => 1) 1 (fun _ => 0)
    (fun _ => 0) reads (Or.inl runs)
  have invalid := separable_valid_iff intArithmetic ones dst' (fun _ => 1) 1 (fun _ => 0)
    (fun _ => 0) reads' (Or.inl runs')
  exact ⟨⟨dst, reads, runs, valid.mpr (by decide)⟩, dst', reads', runs',
    fun holds => absurd (invalid.mp holds) (by decide)⟩

/-- A kernel of three ones on the image of ones: the filter of the columns reads the row above the
image. -/
theorem separable_invalid :
    ∃ dst reads,
      SeparableFF intArithmetic ones (fun _ => 1) 3 (fun _ => 0) dst reads (fun _ => 0) ∧
        ¬ Valid intArithmetic ones (fun _ => 1) 1 dst reads := by
  obtain ⟨dst, reads, runs⟩ :=
    separable_exists intArithmetic ones (fun _ => 1) 1 (fun _ => 0) (fun _ => 0)
  refine ⟨dst, reads, runs, ?_⟩
  obtain ⟨tmp, rows, columns, row, column, rfl⟩ := runs
  intro valid
  have fits := (filters_valid_iff row column).mp valid
  revert fits
  decide

end P3arsec.Bodytrack

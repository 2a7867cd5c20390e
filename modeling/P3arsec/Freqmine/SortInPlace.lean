import P3arsec.Freqmine.Sort
import P3arsec.Freqmine.SinglePath

/-!
# The sort in the arrays of the program

`sort` works on two arrays of `n` entries each, with indices in `int`. Here every read and every
write is checked, so a result means that none was outside of the arrays. The sentinels keep the
scans inside, and each function does to the two arrays what its model does to the pairs.

The indices themselves are places of the arrays or next to one. Only the sum in `findpivot` can
leave the range of `int`: a range near the end of large arrays has a middle that is not found.
-/

namespace P3arsec.Freqmine.InPlace

variable {α κ ν : Type}

/-- The entry at an index, none outside of the `n` entries. -/
def load (n : Nat) (array : Nat → α) (x : Int) : Option α :=
  if 0 ≤ x ∧ x < n then some (array x.toNat) else none

/-- The array with an entry written, none outside of the `n` entries. -/
def store (n : Nat) (array : Nat → α) (x : Int) (value : α) : Option (Nat → α) :=
  if 0 ≤ x ∧ x < n then some (Function.update array x.toNat value) else none

/-- `swap` of two entries of an array. -/
def swap (n : Nat) (array : Nat → α) (k j : Int) : Option (Nat → α) := do
  let temp ← load n array j
  let other ← load n array k
  let array ← store n array j other
  store n array k temp

/-- `findpivot`. -/
def findpivot (i j : Int) : Option Int := (int32 (i + j)).map (·.tdiv 2)

/-- The parameters `array` and `temp`. -/
structure Arrays (κ ν : Type) where
  /-- `array`: the keys. -/
  array : Nat → κ
  /-- `temp`: the values. -/
  temp : Nat → ν

/-- The two calls of `swap`. -/
def Arrays.swap (n : Nat) (a : Arrays κ ν) (k j : Int) : Option (Arrays κ ν) := do
  let array ← InPlace.swap n a.array k j
  let temp ← InPlace.swap n a.temp k j
  some ⟨array, temp⟩

/-- An access inside the array. -/
theorem load_eq_some {n : Nat} {array : Nat → α} {x : Int} {value : α} :
    load n array x = some value ↔ (0 ≤ x ∧ x < n) ∧ array x.toNat = value := by
  unfold load
  split
  case isTrue inside => simp only [inside, Option.some.injEq, and_self, true_and]
  case isFalse out => simp only [out, reduceCtorEq, false_and]

section Definitions

variable [LinearOrder κ]

/-- `while (array[++l] > pivot);` -/
def scanUp (n : Nat) (array : Nat → κ) (pivot : κ) (l : Int) : Option Int :=
  match read : load n array (l + 1) with
  | none => none
  | some key => if pivot < key then scanUp n array pivot (l + 1) else some (l + 1)
termination_by (n - l).toNat
decreasing_by
  have inside := (load_eq_some.mp read).1
  omega

/-- `while (r && array[--r] < pivot);` -/
def scanDown (n : Nat) (array : Nat → κ) (pivot : κ) (r : Int) : Option Int :=
  if r = 0 then some r
  else
    match read : load n array (r - 1) with
    | none => none
    | some key => if key < pivot then scanDown n array pivot (r - 1) else some (r - 1)
termination_by r.toNat
decreasing_by
  have inside := (load_eq_some.mp read).1
  omega

/-- The scan from below goes on, and stays in the array. -/
theorem scanUp_lt {n : Nat} {array : Nat → κ} {pivot : κ} {l l' : Int}
    (stops : scanUp n array pivot l = some l') : l < l' ∧ l' < n := by
  fun_induction scanUp n array pivot l with
  | case1 => exact nomatch stops
  | case2 l key read above ih =>
    have later := ih stops
    omega
  | case3 l key read here =>
    obtain rfl := Option.some.inj stops
    have inside := (load_eq_some.mp read).1
    omega

/-- The body of the loop of `partition`: the arrays, `l` and `r`. -/
def exchange (n : Nat) (a : Arrays κ ν) (pivot : κ) (l r : Int) :
    Option (Arrays κ ν × Int × Int) := do
  let l ← scanUp n a.array pivot l
  let r ← scanDown n a.array pivot r
  let a ← a.swap n l r
  some (a, l, r)

/-- The left place goes up, and stays in the array. -/
theorem exchange_lt {n : Nat} {a a' : Arrays κ ν} {pivot : κ} {l r l' r' : Int}
    (exchanged : exchange n a pivot l r = some (a', l', r')) : l < l' ∧ l' < n := by
  unfold exchange at exchanged
  obtain ⟨l'', stops, exchanged⟩ := Option.bind_eq_some_iff.mp exchanged
  obtain ⟨r'', -, exchanged⟩ := Option.bind_eq_some_iff.mp exchanged
  obtain ⟨a'', -, exchanged⟩ := Option.bind_eq_some_iff.mp exchanged
  obtain ⟨-, rfl, -⟩ := exchanged
  exact scanUp_lt stops

/-- `partition`: the arrays and the place of the cut. -/
def partition (n : Nat) (a : Arrays κ ν) (pivot : κ) (l r : Int) : Option (Arrays κ ν × Int) :=
  match _ : exchange n a pivot l r with
  | none => none
  | some (a, l', r') =>
    if l' < r' then partition n a pivot l' r' else (a.swap n l' r').map (·, l')
termination_by (n - l).toNat
decreasing_by
  have later := exchange_lt ‹_›
  omega

/-- The inner loop of `inssort`. -/
def sink (n : Nat) (i : Int) (a : Arrays κ ν) (m : Int) : Option (Arrays κ ν) :=
  if i < m then do
    let key ← load n a.array m
    let before ← load n a.array (m - 1)
    if before < key then
      let a ← a.swap n m (m - 1)
      sink n i a (m - 1)
    else some a
  else some a
termination_by (m - i).toNat

/-- `inssort`. -/
def inssort (n : Nat) (a : Arrays κ ν) (i j : Int) : Option (Arrays κ ν) :=
  (List.range (j - i).toNat).foldlM (fun a (count : Nat) => sink n i a (i + 1 + count)) a

/-- `sort`, with the constant `SORTHRESH` and a bound on the depth of the calls. -/
def sort (sorthresh n : Nat) : Nat → Arrays κ ν → Int → Int → Option (Arrays κ ν)
  | 0, _, _, _ => none
  | fuel + 1, a, i, j =>
    if j - i < sorthresh then inssort n a i j
    else do
      let pivotindex ← findpivot i j
      let a ← a.swap n pivotindex j
      let pivot ← load n a.array j
      let (a, k) ← partition n a pivot (i - 1) j
      let a ← a.swap n k j
      let a ← (if 1 < k - i then sort sorthresh n fuel a i (k - 1) else some a)
      if 1 < j - k then sort sorthresh n fuel a (k + 1) j else some a

end Definitions

/-! ### The arrays as pairs -/

/-- The arrays of pairs. -/
def Arrays.of (p : Sorting.Pairs κ ν) : Arrays κ ν := ⟨fun x => (p x).1, fun x => (p x).2⟩

variable {n : Nat}

/-- A load inside the array. -/
@[simp] theorem load_natCast {array : Nat → α} {x : Nat} (inside : x < n) :
    load n array x = some (array x) := by
  rw [load_eq_some]
  exact ⟨by omega, rfl⟩

/-- A store inside the array. -/
@[simp] theorem store_natCast {array : Nat → α} {x : Nat} (inside : x < n) (value : α) :
    store n array x value = some (Function.update array x value) := by
  unfold store
  rw [if_pos (by omega), Int.toNat_natCast]

/-- An exchange inside the array. -/
@[simp] theorem swap_natCast {array : Nat → α} {k j : Nat} (first : k < n) (second : j < n) :
    swap n array k j =
      some (Function.update (Function.update array j (array k)) k (array j)) := by
  unfold swap
  simp only [first, second, load_natCast, store_natCast, Option.bind_eq_bind, Option.bind_some]

/-- Keys and values are exchanged together. -/
theorem swap_of {p : Sorting.Pairs κ ν} {k j : Nat} (first : k < n) (second : j < n) :
    (Arrays.of p).swap n k j = some (.of (Sorting.swap p k j)) := by
  unfold Arrays.swap
  rw [swap_natCast first second, swap_natCast first second]
  simp only [Option.bind_eq_bind, Option.bind_some, Option.some.injEq]
  unfold Arrays.of Sorting.swap
  congr 1 <;> funext x <;> simp only [Function.update_apply] <;> split_ifs <;> rfl

section Refinement

variable [LinearOrder κ] {p : Sorting.Pairs κ ν} {pivot : κ}

/-- The scan from below without the proof that it ends. -/
theorem scanUp_eq (n : Nat) (array : Nat → κ) (pivot : κ) (l : Int) :
    scanUp n array pivot l = (load n array (l + 1)).bind fun key =>
      if pivot < key then scanUp n array pivot (l + 1) else some (l + 1) := by
  rw [scanUp]
  split
  case h_1 read => rw [read, Option.bind_none]
  case h_2 key read => rw [read, Option.bind_some]

/-- The scan from above without the proof that it ends. -/
theorem scanDown_eq (n : Nat) (array : Nat → κ) (pivot : κ) (r : Int) :
    scanDown n array pivot r = if r = 0 then some r else (load n array (r - 1)).bind fun key =>
      if key < pivot then scanDown n array pivot (r - 1) else some (r - 1) := by
  rw [scanDown]
  refine if_congr Iff.rfl rfl ?_
  split
  case h_1 read => rw [read, Option.bind_none]
  case h_2 key read => rw [read, Option.bind_some]

/-- The partition without the proof that it ends. -/
theorem partition_eq (n : Nat) (a : Arrays κ ν) (pivot : κ) (l r : Int) :
    partition n a pivot l r = (exchange n a pivot l r).bind fun (a, l, r) =>
      if l < r then partition n a pivot l r else (a.swap n l r).map (·, l) := by
  rw [partition]
  split
  case h_1 exchanged => rw [exchanged, Option.bind_none]
  case h_2 a' l' r' exchanged => rw [exchanged, Option.bind_some]

/-- The scan upwards is that without bounds. -/
theorem scanUp_of (n : Nat) (p : Sorting.Pairs κ ν) (pivot : κ) (l : Nat) :
    scanUp n (Arrays.of p).array pivot ((l : Int) - 1) =
      (Sorting.scanUp n p pivot l).map Nat.cast := by
  fun_induction Sorting.scanUp n p pivot l with
  | case1 l inside above ih =>
    rw [scanUp_eq, sub_add_cancel, load_natCast inside, Option.bind_some, ← ih, Nat.cast_succ,
      add_sub_cancel_right]
    exact if_pos above
  | case2 l inside here =>
    rw [scanUp_eq, sub_add_cancel, load_natCast inside, Option.bind_some]
    exact if_neg here
  | case3 l out =>
    rw [scanUp_eq, sub_add_cancel, load, if_neg (by omega), Option.bind_none, Option.map_none]

/-- The scan downwards is that without bounds. -/
theorem scanDown_of (p : Sorting.Pairs κ ν) (pivot : κ) {r : Nat} (inside : r ≤ n) :
    scanDown n (Arrays.of p).array pivot r = some ((Sorting.scanDown p pivot r : Nat) : Int) := by
  induction r with
  | zero => rw [scanDown_eq]; rfl
  | succ r ih =>
    rw [scanDown_eq, if_neg (by omega), Nat.cast_succ, add_sub_cancel_right,
      load_natCast inside, Option.bind_some, ih (by omega), Sorting.scanDown]
    split_ifs with less less' less'
    · rfl
    · exact absurd less less'
    · exact absurd less' less
    · rfl

/-- One pass of the loop of `partition` stays in the arrays. -/
theorem exchange_of {l l' r : Nat} (inside : r ≤ n)
    (stops : Sorting.scanUp n p pivot l = some l') :
    exchange n (Arrays.of p) pivot ((l : Int) - 1) r =
        some (.of (Sorting.swap p l' (Sorting.scanDown p pivot r)), (l' : Int),
          ((Sorting.scanDown p pivot r : Nat) : Int)) ∧
      Sorting.scanDown p pivot r < n := by
  have bound := (Sorting.scanUp_le stops).2
  obtain ⟨falls, -⟩ := Sorting.scanDown_spec p pivot r
  have below : Sorting.scanDown p pivot r < n := by omega
  unfold exchange
  rw [scanUp_of, stops, scanDown_of p pivot inside]
  refine ⟨?_, below⟩
  simp only [Option.map_some, Option.bind_eq_bind, Option.bind_some, swap_of bound below]

/-- The partition is that without bounds. -/
theorem partition_of {l r : Nat} (inside : r ≤ n) :
    partition n (Arrays.of p) pivot ((l : Int) - 1) r =
      (Sorting.partition n p pivot l r).map fun (p, k) => (Arrays.of p, (k : Int)) := by
  fun_induction Sorting.partition n p pivot l r with
  | case1 p l r missing =>
    rw [partition_eq, exchange, scanUp_of, missing]
    rfl
  | case2 p l r l' stops r' apart ih =>
    obtain ⟨exchanged, below⟩ := exchange_of inside stops
    rw [partition_eq, exchanged, Option.bind_some, ← ih below.le, Nat.cast_succ,
      add_sub_cancel_right]
    exact if_pos (Int.ofNat_lt.mpr apart)
  | case3 p l r l' stops r' crossed =>
    obtain ⟨exchanged, below⟩ := exchange_of inside stops
    rw [partition_eq, exchanged, Option.bind_some]
    dsimp only
    rw [if_neg (by omega), swap_of (Sorting.scanUp_le stops).2 below]
    rfl

/-- The inner loop of `inssort` stays in the arrays. -/
theorem sink_of {i m : Nat} (inside : m < n) :
    sink n i (Arrays.of p) m = some (.of (Sorting.sink p i m)) := by
  induction m generalizing p with
  | zero =>
    rw [sink, if_neg (by omega)]
    rfl
  | succ m ih =>
    rw [sink, Sorting.sink]
    by_cases start : i < m + 1
    · rw [if_pos (by omega), Nat.cast_succ, add_sub_cancel_right, ← Nat.cast_succ,
        load_natCast inside, load_natCast (Nat.lt_of_succ_lt inside), swap_of inside
        (Nat.lt_of_succ_lt inside)]
      simp only [Option.bind_eq_bind, Option.bind_some, start, true_and,
        ih (Nat.lt_of_succ_lt inside)]
      split_ifs with greater greater' greater'
      · rfl
      · exact absurd greater greater'
      · exact absurd greater' greater
      · rfl
    · rw [if_neg (by omega), if_neg (fun sinks => start sinks.1)]

/-- `inssort` stays in the arrays. -/
theorem inssort_of {i stop : Nat} (inside : stop ≤ n) :
    inssort n (Arrays.of p) i ((stop : Int) - 1) = some (.of (Sorting.inssort p i stop)) := by
  have steps : ∀ count, i + 1 + count ≤ stop ∨ count = 0 →
      (List.range count).foldlM (fun a (count : Nat) => sink n i a ((i : Int) + 1 + count))
        (Arrays.of p) =
      some (.of ((List.range' (i + 1) count).foldl (fun p k => Sorting.sink p i k) p)) := by
    intro count
    induction count with
    | zero => exact fun _ => rfl
    | succ count ih =>
      intro bound
      have place : (i : Int) + 1 + count = ((i + 1 + count : Nat) : Int) := by push_cast; rfl
      rw [List.range_succ, List.foldlM_append, ih (by omega), List.range'_1_concat,
        List.foldl_append, Option.bind_eq_bind, Option.bind_some, List.foldlM_cons,
        place, sink_of (by omega)]
      rfl
  have count : ((stop : Int) - 1 - i).toNat = stop - (i + 1) := by omega
  unfold inssort Sorting.inssort
  rw [count]
  exact steps (stop - (i + 1)) (by omega)

/-- The middle of a range is found when the sum of its ends is an `int`. -/
theorem findpivot_of {i j : Nat} (fits : i + j < 2 ^ 31) :
    findpivot i j = some (((i + j) / 2 : Nat) : Int) := by
  have range : Int32 ((i : Int) + j) := ⟨by omega, by omega⟩
  unfold findpivot int32
  rw [if_pos range, Option.map_some, Option.some.injEq]
  norm_cast

/-- The sum of the ends can leave the range of `int`. -/
theorem findpivot_none {i j : Int} (out : 2 ^ 31 ≤ i + j) : findpivot i j = none := by
  unfold findpivot int32
  rw [if_neg (fun range => absurd range.2 (not_lt.mpr out)), Option.map_none]

/-- A long range is cut, and the parts are sorted on their own. -/
theorem sort_cut {sorthresh fuel i stop k : Nat} {p' : Sorting.Pairs κ ν} (inside : stop ≤ n)
    (some_ : i < stop) (long : i + sorthresh + 1 ≤ stop) (fits : i + (stop - 1) < 2 ^ 31)
    (cut : Sorting.partition n (Sorting.swap p ((i + (stop - 1)) / 2) (stop - 1))
      (Sorting.swap p ((i + (stop - 1)) / 2) (stop - 1) (stop - 1)).1 i (stop - 1) =
        some (p', k)) (high : k < stop) :
    sort sorthresh n (fuel + 1) (Arrays.of p) i ((stop : Int) - 1) =
      (if 1 < (k : Int) - i then
          sort sorthresh n fuel (.of (Sorting.swap p' k (stop - 1))) i ((k : Int) - 1)
        else some (.of (Sorting.swap p' k (stop - 1)))).bind fun a =>
          if 1 < (stop : Int) - 1 - k then sort sorthresh n fuel a (k + 1) ((stop : Int) - 1)
          else some a := by
  have last : (stop : Int) - 1 = ((stop - 1 : Nat) : Int) := by omega
  rw [sort, if_neg (by omega), last, findpivot_of fits]
  simp only [Option.bind_eq_bind, Option.bind_some]
  rw [swap_of (by omega) (by omega), Option.bind_some, load_natCast (by omega), Option.bind_some,
    partition_of (by omega)]
  generalize Sorting.swap p ((i + (stop - 1)) / 2) (stop - 1) = p₁ at cut ⊢
  have pivot : (Arrays.of p₁).array (stop - 1) = (p₁ (stop - 1)).1 := rfl
  rw [pivot, cut, Option.map_some, Option.bind_some]
  dsimp only
  rw [swap_of (by omega) (by omega), Option.bind_some]

/-- The middles of all ranges of `n` entries that `sort` cuts are found. -/
def Fits (sorthresh n : Nat) : Prop := 2 * n < 2 ^ 31 + max sorthresh 1 + 2

instance (sorthresh n : Nat) : Decidable (Fits sorthresh n) := inferInstanceAs (Decidable (_ < _))

/-- `sort` stays in the arrays. A range that does not begin at the first entry has two entries or
more. -/
theorem sort_of {sorthresh fuel i stop : Nat} (fits : Fits sorthresh n) (int : Int32 n)
    (inside : stop ≤ n) (part : i = 0 ∨ i + 1 < stop) :
    sort sorthresh n fuel (Arrays.of p) i ((stop : Int) - 1) =
      (Sorting.sort sorthresh n fuel p i stop).map .of := by
  unfold Fits at fits
  obtain ⟨-, int⟩ := int
  induction fuel generalizing p i stop with
  | zero => rfl
  | succ fuel ih =>
    by_cases short : stop < i + sorthresh + 1
    · rw [sort, Sorting.sort, if_pos (by omega), if_pos short, inssort_of inside, Option.map_some]
    obtain ⟨p', k, cut, ⟨-, low, high, -, -⟩⟩ := Sorting.partition_last (n := n)
      (Sorting.swap p ((i + (stop - 1)) / 2) (stop - 1)) (by omega : i < stop) inside
    rw [sort_cut inside (by omega) (by omega) (by omega) cut (by omega), Sorting.sort, if_neg short]
    dsimp only
    rw [cut, Option.bind_some]
    dsimp only
    generalize Sorting.swap p' k (stop - 1) = p₃
    have left : (if 1 < (k : Int) - i then sort sorthresh n fuel (.of p₃) i ((k : Int) - 1)
          else some (.of p₃)) =
        (if 1 < k - i then Sorting.sort sorthresh n fuel p₃ i k else some p₃).map .of := by
      by_cases more : 1 < k - i
      · rw [if_pos more, if_pos (by omega), ih (by omega) (by omega)]
      · rw [if_neg more, if_neg (by omega), Option.map_some]
    rw [left]
    cases (if 1 < k - i then Sorting.sort sorthresh n fuel p₃ i k else some p₃) with
    | none => rfl
    | some p₄ =>
      rw [Option.map_some, Option.bind_some, Option.bind_some, ← Nat.cast_succ]
      by_cases more : 1 < stop - 1 - k
      · rw [if_pos more, if_pos (by omega), ih inside (by omega)]
      · rw [if_neg more, if_neg (by omega), Option.map_some]

/-- The entries of both arrays have been exchanged together, and the keys do not rise. -/
structure Sorted (n : Nat) (a a' : Arrays κ ν) : Prop where
  /-- Each key has moved with its value. -/
  moved : ∃ σ : Equiv.Perm Nat, (∀ x, n ≤ x → σ x = x) ∧ a'.array = a.array ∘ σ ∧
    a'.temp = a.temp ∘ σ
  /-- The keys. -/
  falling : ∀ x y, x ≤ y → y < n → a'.array y ≤ a'.array x

/-- `sort` ends and sorts, and no read or write is outside of the arrays. -/
theorem sort_sorts {sorthresh : Nat} (fits : Fits sorthresh n) (int : Int32 n) (a : Arrays κ ν) :
    ∃ a', sort sorthresh n (n + 1) a 0 ((n : Int) - 1) = some a' ∧ Sorted n a a' := by
  obtain ⟨p', sorted, ⟨σ, outside, moved⟩, falling⟩ := Sorting.sort_spec (n := n) (i := 0)
    (p := fun x => (a.array x, a.temp x)) sorthresh (Nat.lt_succ_self n) (le_refl n)
  have result : sort sorthresh n (n + 1) a ((0 : Nat) : Int) ((n : Int) - 1) =
      (Sorting.sort sorthresh n (n + 1) (fun x => (a.array x, a.temp x)) 0 n).map .of :=
    sort_of (p := fun x => (a.array x, a.temp x)) fits int le_rfl (.inl rfl)
  rw [sorted, Option.map_some] at result
  refine ⟨.of p', result, ⟨σ, fun x out => outside x (.inr out), ?_, ?_⟩,
    fun x y ordered last => falling x y (Nat.zero_le x) ordered last⟩
  · rw [moved]
    rfl
  · rw [moved]
    rfl

end Refinement

/-! ### Large arrays -/

/-- Entries that `sort` cuts near their end: `last` great keys, the pivot at the end and small keys
between. -/
def cutAt (n last : Nat) : Sorting.Pairs Int Int := fun x =>
  (if x < last then 2 else if x = n - 1 then 1 else 0, x)

/-- The key of the pivot. -/
theorem cutAt_last {last : Nat} (high : last < n) : (cutAt n last (n - 1)).1 = 1 := by
  unfold cutAt
  dsimp only
  rw [if_neg (by omega), if_pos rfl]

/-- The partition of the sample ends at a given place. -/
theorem partition_cutAt {last : Nat} (some_ : 0 < last) (high : last + 1 < n) :
    Sorting.partition n (cutAt n last) 1 0 (n - 1) = some (cutAt n last, last) := by
  have great : ∀ x < last, (cutAt n last x).1 = 2 := fun x before => if_pos before
  have small : ∀ x, last ≤ x → x < n - 1 → (cutAt n last x).1 = 0 := by
    intro x after before
    unfold cutAt
    dsimp only
    rw [if_neg (by omega), if_neg (by omega)]
  have stop : (cutAt n last last).1 ≤ 1 := by
    rw [small last le_rfl (by omega)]
    decide
  obtain ⟨l', found, -, first, key, -⟩ :=
    Sorting.scanUp_spec (n := n) (Nat.zero_le last) (by omega) stop
  obtain ⟨falls, rest, stops⟩ := Sorting.scanDown_spec (cutAt n last) 1 (n - 1)
  obtain rfl : l' = last := by
    by_contra other
    rw [great l' (by omega)] at key
    exact absurd key (by decide)
  have crossed : Sorting.scanDown (cutAt n l') 1 (n - 1) < l' := by
    by_contra later
    rcases stops with start | key'
    · omega
    · rw [small _ (by omega) (by omega)] at key'
      exact absurd key' (by decide)
  rw [Sorting.partition_found found, if_neg (by omega)]

/-- The range behind the cut of these entries has no middle. -/
def late (sorthresh n : Nat) : Arrays Int Int :=
  .of (Sorting.swap (cutAt n (n - 2 - max sorthresh 1)) ((n - 1) / 2) (n - 1))

/-- The sum of the ends of that range is no `int`. -/
theorem sort_late {sorthresh : Nat} (int : Int32 n) (large : ¬ Fits sorthresh n) (fuel : Nat) :
    sort sorthresh n fuel (late sorthresh n) 0 ((n : Int) - 1) = none := by
  obtain ⟨-, int⟩ := int
  unfold Fits at large
  cases fuel with
  | zero => rfl
  | succ fuel =>
    generalize place : n - 2 - max sorthresh 1 = last
    have cut : Sorting.partition n (cutAt n last) (cutAt n last (n - 1)).1 0 (n - 1) =
        some (cutAt n last, last) := by
      rw [cutAt_last (by omega)]
      exact partition_cutAt (by omega) (by omega)
    unfold late
    rw [place]
    refine (sort_cut (i := 0) (k := last) (le_refl n) (by omega) (by omega) (by omega)
      (by rwa [Nat.zero_add, Sorting.swap_swap]) (by omega)).trans ?_
    refine Option.bind_eq_none_iff.mpr fun a _ => ?_
    rw [if_pos (by omega)]
    cases fuel with
    | zero => rfl
    | succ fuel =>
      rw [sort, if_neg (by omega), findpivot_none (by omega)]
      rfl

/-- `sort` sorts all arrays of `n` entries when the middles are found, and only then. -/
theorem sort_iff (sorthresh : Nat) {n : Nat} (int : Int32 n) :
    (∀ a : Arrays Int Int, ∃ fuel a', sort sorthresh n fuel a 0 ((n : Int) - 1) = some a' ∧
      Sorted n a a') ↔ Fits sorthresh n := by
  constructor
  · intro sorts
    by_contra large
    obtain ⟨fuel, a', sorted, -⟩ := sorts (late sorthresh n)
    rw [sort_late int large] at sorted
    exact nomatch sorted
  · intro fits a
    exact ⟨n + 1, sort_sorts fits int a⟩

/-- An array of a million entries is sorted. -/
theorem sort_million : ∃ fuel a',
    sort 16 1000000 fuel (⟨fun x => x % 7, fun x => x⟩ : Arrays Int Int) 0 ((1000000 : Nat) - 1) =
        some a' ∧
      Sorted 1000000 (⟨fun x => x % 7, fun x => x⟩ : Arrays Int Int) a' :=
  (sort_iff 16 (n := 1000000) ⟨by decide, by decide⟩).mpr (by decide) _

/-- Arrays of a few more than `2 ^ 30` entries can not all be sorted. -/
theorem sort_overflows : ¬ ∀ a : Arrays Int Int, ∃ fuel a',
    sort 16 (2 ^ 30 + 100) fuel a 0 ((2 ^ 30 + 100 : Nat) - 1) = some a' ∧
      Sorted (2 ^ 30 + 100) a a' := by
  intro sorts
  obtain ⟨fuel, a', sorted, -⟩ := sorts (late 16 (2 ^ 30 + 100))
  rw [sort_late ⟨by decide, by decide⟩ (by decide)] at sorted
  exact nomatch sorted

end P3arsec.Freqmine.InPlace

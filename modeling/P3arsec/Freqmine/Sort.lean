import Mathlib

/-!
# The sort of freqmine

`sort` orders keys from the greatest to the least and moves their values with them. It is a
quicksort that takes the middle entry as pivot and leaves short ranges to `inssort`. The scan of
`partition` from below stops at the pivot, which is the last entry of the range. The scan from above
stops at the first entry of the array at the latest; when it leaves the range, the exchange is taken
back.
-/

namespace P3arsec.Freqmine.Sorting

/-- The entries of `array` and `temp`, which are exchanged together. -/
abbrev Pairs (κ ν : Type) := Nat → κ × ν

variable {κ ν : Type}

/-- `swap` on both arrays. -/
def swap (p : Pairs κ ν) (k j : Nat) : Pairs κ ν :=
  let temp := p j
  Function.update (Function.update p j (p k)) k temp

variable [LinearOrder κ]

/-- `while (array[++l] > pivot);` where `l` is the entry that is read first. There is no result when
an entry behind the `n` entries is read. -/
def scanUp (n : Nat) (p : Pairs κ ν) (pivot : κ) (l : Nat) : Option Nat :=
  if l < n then
    if pivot < (p l).1 then scanUp n p pivot (l + 1) else some l
  else none
termination_by n - l

/-- `while (r && array[--r] < pivot);` -/
def scanDown (p : Pairs κ ν) (pivot : κ) : Nat → Nat
  | 0 => 0
  | r + 1 => if (p r).1 < pivot then scanDown p pivot r else r

/-- The scan from below does not go back. -/
theorem scanUp_le {n : Nat} {p : Pairs κ ν} {pivot : κ} {l l' : Nat}
    (stops : scanUp n p pivot l = some l') : l ≤ l' ∧ l' < n := by
  fun_induction scanUp n p pivot l with
  | case1 l inside above ih =>
    have later := ih stops
    omega
  | case2 l inside =>
    obtain rfl := Option.some.inj stops
    exact ⟨le_rfl, inside⟩
  | case3 => exact nomatch stops

/-- `partition`: the arrays and the place of the cut. -/
def partition (n : Nat) (p : Pairs κ ν) (pivot : κ) (l r : Nat) : Option (Pairs κ ν × Nat) :=
  match stops : scanUp n p pivot l with
  | none => none
  | some l' =>
    let r' := scanDown p pivot r
    if l' < r' then partition n (swap p l' r') pivot (l' + 1) r'
    else some (swap (swap p l' r') l' r', l')
termination_by n - l
decreasing_by
  have later := scanUp_le stops
  omega

/-- The inner loop of `inssort`. -/
def sink (p : Pairs κ ν) (i : Nat) : Nat → Pairs κ ν
  | 0 => p
  | m + 1 => if i < m + 1 ∧ (p m).1 < (p (m + 1)).1 then sink (swap p (m + 1) m) i m else p

/-- `inssort` of the entries from `i` up to `stop`, which is `j + 1`. -/
def inssort (p : Pairs κ ν) (i stop : Nat) : Pairs κ ν :=
  (List.range' (i + 1) (stop - (i + 1))).foldl (fun p k => sink p i k) p

/-- `sort` of the entries from `i` up to `stop`, which is `j + 1`, in arrays of `n` entries. -/
def sort (sorthresh n : Nat) : Nat → Pairs κ ν → Nat → Nat → Option (Pairs κ ν)
  | 0, _, _, _ => none
  | fuel + 1, p, i, stop =>
    if stop < i + sorthresh + 1 then some (inssort p i stop)
    else
      let j := stop - 1
      let pivotindex := (i + j) / 2
      let p := swap p pivotindex j
      (partition n p (p j).1 i j).bind fun (p, k) =>
        let p := swap p k j
        (if 1 < k - i then sort sorthresh n fuel p i k else some p).bind fun p =>
          if 1 < j - k then sort sorthresh n fuel p (k + 1) stop else some p

/-! ### Exchanges -/

/-- The entries of a range have been exchanged among themselves. -/
def Rearranged (i stop : Nat) (p p' : Pairs κ ν) : Prop :=
  ∃ σ : Equiv.Perm Nat, (∀ x, x < i ∨ stop ≤ x → σ x = x) ∧ p' = p ∘ σ

/-- The keys of a range do not rise. -/
def Falling (i stop : Nat) (p : Pairs κ ν) : Prop :=
  ∀ x y, i ≤ x → x ≤ y → y < stop → (p y).1 ≤ (p x).1

variable {p p' p'' : Pairs κ ν} {i stop : Nat}

omit [LinearOrder κ] in
/-- An exchange is a permutation of the places. -/
theorem swap_eq (p : Pairs κ ν) (k j : Nat) : swap p k j = p ∘ Equiv.swap k j := by
  funext x
  unfold swap
  dsimp only [Function.comp]
  by_cases first : x = k
  · rw [first, Function.update_self, Equiv.swap_apply_left]
  rw [Function.update_of_ne first]
  by_cases second : x = j
  · rw [second, Function.update_self, Equiv.swap_apply_right]
  · rw [Function.update_of_ne second, Equiv.swap_apply_of_ne_of_ne first second]

omit [LinearOrder κ] in
/-- The first place of an exchange. -/
theorem swap_left (p : Pairs κ ν) (k j : Nat) : swap p k j k = p j := by
  rw [swap_eq, Function.comp, Equiv.swap_apply_left]

omit [LinearOrder κ] in
/-- The second place of an exchange. -/
theorem swap_right (p : Pairs κ ν) (k j : Nat) : swap p k j j = p k := by
  rw [swap_eq, Function.comp, Equiv.swap_apply_right]

omit [LinearOrder κ] in
/-- The other places are kept. -/
theorem swap_of_ne (p : Pairs κ ν) {k j x : Nat} (other : x ≠ k) (other' : x ≠ j) :
    swap p k j x = p x := by
  rw [swap_eq, Function.comp, Equiv.swap_apply_of_ne_of_ne other other']

omit [LinearOrder κ] in
/-- A second exchange takes the first one back. -/
@[simp] theorem swap_swap (p : Pairs κ ν) (k j : Nat) : swap (swap p k j) k j = p := by
  rw [swap_eq, swap_eq, Function.comp_assoc]
  funext x
  rw [Function.comp, Function.comp, Equiv.swap_apply_self]

omit [LinearOrder κ] in
/-- An array is rearranged by the identity. -/
@[refl] theorem Rearranged.refl (p : Pairs κ ν) : Rearranged i stop p p :=
  ⟨1, fun _ _ => rfl, rfl⟩

omit [LinearOrder κ] in
/-- Two rearrangements are one. -/
theorem Rearranged.trans (first : Rearranged i stop p p') (second : Rearranged i stop p' p'') :
    Rearranged i stop p p'' := by
  obtain ⟨σ, outside, rfl⟩ := first
  obtain ⟨τ, outside', rfl⟩ := second
  refine ⟨σ * τ, fun x out => ?_, rfl⟩
  rw [Equiv.Perm.mul_apply, outside' x out, outside x out]

omit [LinearOrder κ] in
/-- A rearrangement of a part is one of a greater part. -/
theorem Rearranged.widen {i' stop' : Nat} (rearranged : Rearranged i stop p p') (low : i' ≤ i)
    (high : stop ≤ stop') : Rearranged i' stop' p p' := by
  obtain ⟨σ, outside, same⟩ := rearranged
  exact ⟨σ, fun x out => outside x (by omega), same⟩

omit [LinearOrder κ] in
/-- An exchange is a rearrangement. -/
theorem rearranged_swap {k j : Nat} (first : i ≤ k ∧ k < stop) (second : i ≤ j ∧ j < stop) :
    Rearranged i stop p (swap p k j) := by
  refine ⟨Equiv.swap k j, fun x out => ?_, swap_eq p k j⟩
  exact Equiv.swap_apply_of_ne_of_ne (by omega) (by omega)

omit [LinearOrder κ] in
/-- Outside of the range nothing has changed. -/
theorem Rearranged.outside (rearranged : Rearranged i stop p p') {x : Nat}
    (out : x < i ∨ stop ≤ x) :
    p' x = p x := by
  obtain ⟨σ, outside, rfl⟩ := rearranged
  exact congrArg p (outside x out)

omit [LinearOrder κ] in
/-- An entry of the range comes from the range. -/
theorem Rearranged.inside (rearranged : Rearranged i stop p p') {x : Nat} (low : i ≤ x)
    (high : x < stop) : ∃ y, i ≤ y ∧ y < stop ∧ p' x = p y := by
  obtain ⟨σ, outside, rfl⟩ := rearranged
  refine ⟨σ x, ?_, ?_, rfl⟩
  · by_contra out
    have fixed := σ.injective (outside (σ x) (.inl (Nat.lt_of_not_le out)))
    omega
  · by_contra out
    have fixed := σ.injective (outside (σ x) (.inr (Nat.le_of_not_lt out)))
    omega

/-! ### Short ranges -/

/-- An entry sinks to its place. -/
theorem sink_spec {m : Nat} (low : i ≤ m) (falling : Falling i m p) :
    Rearranged i (m + 1) p (sink p i m) ∧ Falling i (m + 1) (sink p i m) := by
  induction m generalizing p with
  | zero =>
    refine ⟨Rearranged.refl p, fun x y _ ordered below => ?_⟩
    obtain rfl : x = y := by omega
    exact le_rfl
  | succ m ih =>
    unfold sink
    split
    · rename_i sinks
      obtain ⟨inside, greater⟩ := sinks
      have before : ∀ x < m, swap p (m + 1) m x = p x :=
        fun x below => swap_of_ne p (by omega) (by omega)
      have here : swap p (m + 1) m m = p (m + 1) := swap_right p (m + 1) m
      have after : swap p (m + 1) m (m + 1) = p m := swap_left p (m + 1) m
      have falling' : Falling i m (swap p (m + 1) m) := by
        intro x y first ordered below
        rw [before x (by omega), before y (by omega)]
        exact falling x y first ordered (by omega)
      obtain ⟨moved, sunk⟩ := ih (by omega) falling'
      refine ⟨(rearranged_swap (by omega) (by omega)).trans (moved.widen le_rfl (by omega)), ?_⟩
      intro x y first ordered below
      rcases Nat.lt_succ_iff_lt_or_eq.mp below with earlier | rfl
      · exact sunk x y first ordered earlier
      · rcases Nat.lt_or_eq_of_le ordered with earlier | rfl
        · -- all entries before come from entries that are not less than the one at `m`
          rw [moved.outside (.inr le_rfl), after]
          obtain ⟨z, first', below', same⟩ := moved.inside first earlier
          rw [same]
          rcases Nat.lt_succ_iff_lt_or_eq.mp below' with prior | rfl
          · rw [before z prior]
            exact falling z m first' (by omega) (by omega)
          · rw [here]
            exact greater.le
        · exact le_rfl
    · rename_i stays
      refine ⟨Rearranged.refl p, fun x y first ordered below => ?_⟩
      rcases Nat.lt_succ_iff_lt_or_eq.mp below with earlier | rfl
      · exact falling x y first ordered earlier
      · rcases Nat.lt_or_eq_of_le ordered with earlier | rfl
        · have less : (p (m + 1)).1 ≤ (p m).1 :=
            not_lt.mp fun greater => stays ⟨by omega, greater⟩
          exact less.trans (falling x m first (by omega) (by omega))
        · exact le_rfl

/-- `inssort` sorts. -/
theorem inssort_spec (p : Pairs κ ν) (i stop : Nat) :
    Rearranged i stop p (inssort p i stop) ∧ Falling i stop (inssort p i stop) := by
  have steps : ∀ count, Rearranged i (i + 1 + count) p
        ((List.range' (i + 1) count).foldl (fun p k => sink p i k) p) ∧
      Falling i (i + 1 + count) ((List.range' (i + 1) count).foldl (fun p k => sink p i k) p) := by
    intro count
    induction count with
    | zero =>
      refine ⟨Rearranged.refl p, fun x y _ ordered below => ?_⟩
      obtain rfl : x = y := by omega
      exact le_rfl
    | succ count ih =>
      rw [List.range'_1_concat, List.foldl_append]
      obtain ⟨moved, falling⟩ := ih
      obtain ⟨moved', falling'⟩ := sink_spec (by omega) falling
      exact ⟨(moved.widen le_rfl (by omega)).trans moved', falling'⟩
  unfold inssort
  rcases Nat.lt_or_ge i stop with some | none
  · have result := steps (stop - (i + 1))
    rw [show i + 1 + (stop - (i + 1)) = stop by omega] at result
    exact result
  · rw [show stop - (i + 1) = 0 by omega]
    exact ⟨Rearranged.refl p, fun x y _ _ below => by omega⟩

/-! ### The partition -/

variable {n : Nat} {pivot : κ}

/-- The scan from below stops at the first key that is not greater than the pivot. -/
theorem scanUp_spec {l m : Nat} (low : l ≤ m) (inside : m < n) (stops : (p m).1 ≤ pivot) :
    ∃ l', scanUp n p pivot l = some l' ∧ l ≤ l' ∧ l' ≤ m ∧ (p l').1 ≤ pivot ∧
      ∀ x, l ≤ x → x < l' → pivot < (p x).1 := by
  fun_induction scanUp n p pivot l with
  | case1 l below above ih =>
    have other : l ≠ m := by
      rintro rfl
      exact absurd above (not_lt.mpr stops)
    obtain ⟨l', found, first, last, key, rest⟩ := ih (by omega)
    refine ⟨l', found, by omega, last, key, fun x after before => ?_⟩
    rcases Nat.eq_or_lt_of_le after with rfl | later
    · exact above
    · exact rest x later before
  | case2 l below here =>
    exact ⟨l, rfl, le_rfl, low, not_lt.mp here, fun x after before => by omega⟩
  | case3 l out => omega

/-- The scan from above stops at the last key that is not less than the pivot, or at the first
entry. -/
theorem scanDown_spec (p : Pairs κ ν) (pivot : κ) (r : Nat) :
    (scanDown p pivot r < r ∨ scanDown p pivot r = 0) ∧
    (∀ x, scanDown p pivot r < x → x < r → (p x).1 < pivot) ∧
    (scanDown p pivot r = 0 ∨ pivot ≤ (p (scanDown p pivot r)).1) := by
  induction r with
  | zero => exact ⟨.inr rfl, fun x _ before => by omega, .inl rfl⟩
  | succ r ih =>
    unfold scanDown
    split
    · rename_i less
      obtain ⟨falls, rest, stops⟩ := ih
      refine ⟨by omega, fun x after before => ?_, stops⟩
      rcases Nat.lt_succ_iff_lt_or_eq.mp before with earlier | rfl
      · exact rest x after earlier
      · exact less
    · rename_i stops
      exact ⟨.inl (Nat.lt_succ_self r), fun x after before => by omega, .inr (not_lt.mp stops)⟩

/-- `partition` when the scan from below ends. The last exchange is taken back. -/
theorem partition_found {l l' r : Nat} (found : scanUp n p pivot l = some l') :
    partition n p pivot l r = if l' < scanDown p pivot r then
        partition n (swap p l' (scanDown p pivot r)) pivot (l' + 1) (scanDown p pivot r)
      else some (p, l') := by
  rw [partition]
  split
  · rename_i missing
    exact absurd (found.symm.trans missing) (by simp)
  · rename_i l'' found'
    obtain rfl : l' = l'' := Option.some.inj (found.symm.trans found')
    dsimp only
    rw [swap_swap]

/-- What `partition` leaves: the keys before the cut are not less than the pivot, and the keys from
the cut on are not greater. -/
structure Cut (i j : Nat) (pivot : κ) (p p' : Pairs κ ν) (k : Nat) : Prop where
  /-- The entries before the last one have been exchanged. -/
  moved : Rearranged i j p p'
  /-- The cut is in the range. -/
  low : i ≤ k
  high : k ≤ j
  /-- The keys before the cut. -/
  before : ∀ x, i ≤ x → x < k → pivot ≤ (p' x).1
  /-- The other keys. -/
  after : ∀ x, k ≤ x → x ≤ j → (p' x).1 ≤ pivot

/-- `partition` cuts a range whose last key is the pivot, whatever is before the range. -/
theorem partition_spec {p : Pairs κ ν} {j l r : Nat} (inside : j < n) (low : i ≤ l)
    (ordered : l ≤ r) (high : r ≤ j) (last : (p j).1 = pivot)
    (left : ∀ x, i ≤ x → x < l → pivot ≤ (p x).1) (right : ∀ x, r ≤ x → x ≤ j → (p x).1 ≤ pivot) :
    ∃ p' k, partition n p pivot l r = some (p', k) ∧ Cut i j pivot p p' k := by
  induction left_ : n - l using Nat.strong_induction_on generalizing p l r with
  | _ measure ih =>
    obtain ⟨l', found, first, bound, key, rest⟩ :=
      scanUp_spec (n := n) ordered (by omega) (right r le_rfl high)
    obtain ⟨falls, rest', stops⟩ := scanDown_spec p pivot r
    have left' : ∀ x, i ≤ x → x < l' → pivot ≤ (p x).1 := by
      intro x after before
      rcases Nat.lt_or_ge x l with earlier | later
      · exact left x after earlier
      · exact (rest x later before).le
    rw [partition_found found]
    split
    · rename_i apart
      have dear : pivot ≤ (p (scanDown p pivot r)).1 := by
        refine stops.resolve_left ?_
        omega
      have moved : Rearranged i j p (swap p l' (scanDown p pivot r)) :=
        rearranged_swap (by omega) (by omega)
      have stays : ∀ x, x ≠ l' → x ≠ scanDown p pivot r →
          swap p l' (scanDown p pivot r) x = p x := fun x => swap_of_ne p
      have here : swap p l' (scanDown p pivot r) l' = p (scanDown p pivot r) := swap_left p _ _
      have there : swap p l' (scanDown p pivot r) (scanDown p pivot r) = p l' := swap_right p _ _
      obtain ⟨p', k, cut, moved', low', high', before', after'⟩ := ih (n - (l' + 1))
        (by omega) (p := swap p l' (scanDown p pivot r)) (l := l' + 1) (r := scanDown p pivot r)
        (by omega) (by omega) (by omega)
        ((congrArg Prod.fst (moved.outside (.inr le_rfl))).trans last)
        (fun x after before => by
          rcases Nat.lt_succ_iff_lt_or_eq.mp before with earlier | rfl
          · rw [stays x (by omega) (by omega)]
            exact left' x after earlier
          · rw [here]
            exact dear)
        (fun x after before => by
          rcases Nat.eq_or_lt_of_le after with rfl | later
          · rw [there]
            exact key
          · rw [stays x (by omega) (by omega)]
            rcases Nat.lt_or_ge x r with inner | outer
            · exact (rest' x later inner).le
            · exact right x outer before)
        rfl
      exact ⟨p', k, cut, moved.trans moved', low', high', before', after'⟩
    · rename_i crossed
      refine ⟨p, l', rfl, Rearranged.refl p, by omega, by omega, left', fun x after before => ?_⟩
      rcases Nat.eq_or_lt_of_le after with rfl | later
      · exact key
      · rcases Nat.lt_or_ge x r with inner | outer
        · exact (rest' x (by omega) inner).le
        · exact right x outer before

/-- `partition` of a range by the key of its last entry. -/
theorem partition_last (p : Pairs κ ν) {i stop : Nat} (some_ : i < stop) (inside : stop ≤ n) :
    ∃ p' k, partition n p (p (stop - 1)).1 i (stop - 1) = some (p', k) ∧
      Cut i (stop - 1) (p (stop - 1)).1 p p' k := by
  refine partition_spec (by omega) le_rfl (by omega) le_rfl rfl ?_ ?_
  · intro x first last
    omega
  · intro x first last
    obtain rfl : x = stop - 1 := by omega
    exact le_rfl

/-! ### The sort -/

omit [LinearOrder κ] in
/-- What holds of the keys of a range holds after they have been exchanged. -/
theorem Rearranged.keys {i' stop' : Nat} (moved : Rearranged i stop p p') (holds : κ → Prop)
    (low : i' ≤ i) (high : stop ≤ stop') (keys : ∀ x, i' ≤ x → x < stop' → holds (p x).1) :
    ∀ x, i' ≤ x → x < stop' → holds (p' x).1 := by
  intro x after before
  rcases Nat.lt_or_ge x i with out | after'
  · rw [moved.outside (.inl out)]
    exact keys x after before
  rcases Nat.lt_or_ge x stop with before' | out
  · obtain ⟨y, first, last, same⟩ := moved.inside after' before'
    rw [same]
    exact keys y (by omega) (by omega)
  · rw [moved.outside (.inr out)]
    exact keys x after before

/-- A range that is sorted before and behind a pivot is sorted. -/
theorem falling_of_cut {k : Nat} (low : i ≤ k) (left : Falling i k p)
    (right : Falling (k + 1) stop p)
    (before : ∀ x, i ≤ x → x < k → (p k).1 ≤ (p x).1)
    (after : ∀ x, k + 1 ≤ x → x < stop → (p x).1 ≤ (p k).1) : Falling i stop p := by
  intro x y first ordered last
  rcases Nat.lt_trichotomy x k with earlier | rfl | later
  · rcases Nat.lt_trichotomy y k with earlier' | rfl | later'
    · exact left x y first ordered earlier'
    · exact before x first earlier
    · exact (after y later' last).trans (before x first earlier)
  · rcases Nat.eq_or_lt_of_le ordered with rfl | later'
    · exact le_rfl
    · exact after y later' last
  · exact right x y later ordered last

/-- A range of one entry at most is sorted. -/
theorem falling_of_short (short : stop ≤ i + 1) : Falling i stop p := by
  intro x y first ordered last
  obtain rfl : x = y := by omega
  exact le_rfl

/-- `sort` ends and sorts. -/
theorem sort_spec (sorthresh : Nat) {fuel : Nat} (enough : stop - i < fuel) (inside : stop ≤ n) :
    ∃ p', sort sorthresh n fuel p i stop = some p' ∧ Rearranged i stop p p' ∧
      Falling i stop p' := by
  induction fuel generalizing p i stop with
  | zero => omega
  | succ fuel ih =>
    unfold sort
    split
    · obtain ⟨moved, falling⟩ := inssort_spec p i stop
      exact ⟨_, rfl, moved, falling⟩
    · rename_i long
      dsimp only
      have pivotInside : i ≤ (i + (stop - 1)) / 2 ∧ (i + (stop - 1)) / 2 < stop := by omega
      have chosen : Rearranged i stop p (swap p ((i + (stop - 1)) / 2) (stop - 1)) :=
        rearranged_swap pivotInside (by omega)
      generalize swap p ((i + (stop - 1)) / 2) (stop - 1) = p₁ at chosen ⊢
      obtain ⟨p₂, k, cut, ⟨moved, low, high, before, after⟩⟩ :=
        partition_last p₁ (by omega : i < stop) inside
      rw [cut]
      rw [Option.bind_some]
      dsimp only
      have placed : Rearranged i stop p₂ (swap p₂ k (stop - 1)) :=
        rearranged_swap (by omega) (by omega)
      have here : swap p₂ k (stop - 1) k = p₂ (stop - 1) := swap_left p₂ k (stop - 1)
      have there : swap p₂ k (stop - 1) (stop - 1) = p₂ k := swap_right p₂ k (stop - 1)
      have stays : ∀ x, x ≠ k → x ≠ stop - 1 → swap p₂ k (stop - 1) x = p₂ x :=
        fun x => swap_of_ne p₂
      have pivot : (p₂ (stop - 1)).1 = (p₁ (stop - 1)).1 :=
        congrArg Prod.fst (moved.outside (.inr le_rfl))
      have before₃ : ∀ x, i ≤ x → x < k → (p₁ (stop - 1)).1 ≤ (swap p₂ k (stop - 1) x).1 := by
        intro x first last
        rw [stays x (by omega) (by omega)]
        exact before x first last
      have after₃ : ∀ x, k + 1 ≤ x → x < stop →
          (swap p₂ k (stop - 1) x).1 ≤ (p₁ (stop - 1)).1 := by
        intro x first last
        by_cases end_ : x = stop - 1
        · rw [end_, there]
          exact after k le_rfl (by omega)
        · rw [stays x (by omega) end_]
          exact after x (by omega) (by omega)
      have pivot₃ : (swap p₂ k (stop - 1) k).1 = (p₁ (stop - 1)).1 := by
        rw [here, pivot]
      have moved₃ : Rearranged i stop p (swap p₂ k (stop - 1)) :=
        (chosen.trans (moved.widen le_rfl (by omega))).trans placed
      generalize swap p₂ k (stop - 1) = p₃ at before₃ after₃ pivot₃ moved₃ ⊢
      -- both parts are sorted on their own
      obtain ⟨p₄, left, moved₄, falling₄⟩ : ∃ p₄,
          (if 1 < k - i then sort sorthresh n fuel p₃ i k else some p₃) = some p₄ ∧
            Rearranged i k p₃ p₄ ∧ Falling i k p₄ := by
        split
        · exact ih (by omega) (by omega)
        · exact ⟨p₃, rfl, Rearranged.refl p₃, falling_of_short (by omega)⟩
      rw [left, Option.bind_some]
      obtain ⟨p₅, right, moved₅, falling₅⟩ : ∃ p₅,
          (if 1 < stop - 1 - k then sort sorthresh n fuel p₄ (k + 1) stop else some p₄) = some p₅ ∧
            Rearranged (k + 1) stop p₄ p₅ ∧ Falling (k + 1) stop p₅ := by
        split
        · exact ih (by omega) inside
        · exact ⟨p₄, rfl, Rearranged.refl p₄, falling_of_short (by omega)⟩
      refine ⟨p₅, right, ?_, ?_⟩
      · exact (moved₃.trans (moved₄.widen le_rfl (by omega))).trans
          (moved₅.widen (by omega) le_rfl)
      have pivot₅ : (p₅ k).1 = (p₁ (stop - 1)).1 := by
        rw [moved₅.outside (.inl (by omega)), moved₄.outside (.inr le_rfl), pivot₃]
      refine falling_of_cut low ?_ falling₅ ?_ ?_
      · intro x y first ordered last
        rw [moved₅.outside (.inl (by omega)), moved₅.outside (.inl (by omega))]
        exact falling₄ x y first ordered last
      · intro x first last
        rw [pivot₅, moved₅.outside (.inl (by omega))]
        exact moved₄.keys (fun key => (p₁ (stop - 1)).1 ≤ key) le_rfl le_rfl before₃ x first last
      · intro x first last
        rw [pivot₅]
        refine moved₅.keys (fun key => key ≤ (p₁ (stop - 1)).1) le_rfl le_rfl ?_ x first last
        intro x first last
        rw [moved₄.outside (.inr (by omega))]
        exact after₃ x first last

end P3arsec.Freqmine.Sorting

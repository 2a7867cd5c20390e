import P3arsec.Fastflow.ParallelForSteps

/-!
# The parts of a parallel loop are the loop

`init_data` and `init_data_static` lay out parts that follow one another and make up the loop, each
with enough tasks for its indices, and `sendTask` moves a first chunk of every part to the tasks. So
the workers run every index once, whatever their steps are, and a reduction over the loop gives what
the sequential loop gives.
-/

namespace P3arsec.Fastflow

open P3arsec.Lib.Concurrent

/-- The parts have the indices of the loop and enough tasks for them. -/
structure LaidOut (whole : Multiset Int) (s : ForallScheduler) : Prop where
  step_pos : 0 < s.step
  chunk_pos : 0 < s.chunk
  places : ∑ id ∈ Finset.range s.nw, ((s.data id).left s.step : Multiset Int) = whole
  enough : ∀ id < s.nw, (s.data id).left s.step ≠ [] →
    (((s.data id).left s.step).length : Int) ≤ s.chunk * (s.data id).ntask
  spare : ∀ id < s.nw, (s.data id).ntask ≤ 1 ∨
    s.chunk * ((s.data id).ntask - 1) < (((s.data id).left s.step).length : Int)
  beyond : ∀ id, s.nw ≤ id → (s.data id).ntask ≤ 0

namespace LaidOut

variable {whole : Multiset Int} {s : ForallScheduler}

/-- The workers start with all indices left. -/
theorem start (laid : LaidOut whole s) : Sound whole 0 (Forall.start s) := by
  have at_start : ∀ wid, (Forall.start s).worker wid = .testing wid ∨
      (Forall.start s).worker wid = .done := fun wid => by
    unfold Forall.start
    dsimp only
    split
    · exact .inl rfl
    · exact .inr rfl
  have held : ∀ wid, ((Forall.start s).worker wid).held s.step = 0 := fun wid => by
    rcases at_start wid with eq | eq <;> rw [eq] <;> rfl
  have lowers : ∀ wid id, ((Forall.start s).worker wid).lowers id = 0 := fun wid id => by
    rcases at_start wid with eq | eq <;> rw [eq] <;> rfl
  refine {
    step_pos := laid.step_pos
    chunk_pos := laid.chunk_pos
    places := ?_
    enough := fun id below some_left => ?_
    spare := fun id below => ?_
    beyond := laid.beyond
    knows := fun wid below => ?_
    others := fun wid above => if_neg (Nat.not_lt.mpr above) }
  · show 0 + ∑ wid ∈ Finset.range s.nw, ((Forall.start s).worker wid).held s.step + _ = whole
    rw [Finset.sum_eq_zero fun wid _ => held wid, zero_add, zero_add]
    exact laid.places
  · show _ ≤ s.chunk * ((s.data id).ntask -
      ∑ wid ∈ Finset.range s.nw, ((Forall.start s).worker wid).lowers id)
    rw [Finset.sum_eq_zero fun wid _ => lowers wid id, sub_zero]
    exact laid.enough id below some_left
  · have here : (Forall.start s).worker id = .testing id := if_pos below
    show (s.data id).ntask - ∑ wid ∈ Finset.range s.nw,
        ((Forall.start s).worker wid).lowers id ≤ 1 ∧
      ((Forall.start s).worker id).Nears id ∨ (s.data id).ntask -
        ∑ wid ∈ Finset.range s.nw, ((Forall.start s).worker wid).lowers id ≤ 0 ∨ s.chunk *
          ((s.data id).ntask - ∑ wid ∈ Finset.range s.nw,
            ((Forall.start s).worker wid).lowers id - 1) < (((s.data id).left s.step).length : Int)
    rw [Finset.sum_eq_zero fun wid _ => lowers wid id, sub_zero, here]
    rcases laid.spare id below with one | enough
    · exact .inl ⟨one, rfl⟩
    · exact .inr (.inr enough)
  · have here : (Forall.start s).worker wid = .testing wid := if_pos below
    rw [here]
    exact fun other => absurd rfl other

/-- One turn of `sendTask` moves a chunk to the tasks. -/
theorem sendOne (laid : LaidOut whole s) {wid : Nat} (inside : wid < s.nw) :
    ∃ rest, Task.run s.step (ForallScheduler.sendOne wid s).1 + rest = whole ∧
      LaidOut rest (ForallScheduler.sendOne wid s).2 ∧
      (ForallScheduler.sendOne wid s).2.step = s.step ∧
      (ForallScheduler.sendOne wid s).2.nw = s.nw := by
  unfold ForallScheduler.sendOne
  split_ifs with some_tasks
  · have step_pos := laid.step_pos
    have chunk_pos := laid.chunk_pos
    have split := indices_split (s.data wid).start (s.data wid).stop step_pos chunk_pos
    obtain ⟨rest, before, behind⟩ := exists_sum_update
      (fun d : Part => (d.left s.step : Multiset Int)) s.data inside
    refine ⟨_, ?_, {
      step_pos := step_pos
      chunk_pos := chunk_pos
      places := rfl
      enough := fun id below some_left => ?_
      spare := fun id below => ?_
      beyond := fun id above => ?_ }, rfl, rfl⟩
    · dsimp only
      rw [behind, ← laid.places, before]
      simp only [Task.run, ForallScheduler.next, Part.left, List.flatMap_cons, List.flatMap_nil,
        List.append_nil]
      conv_rhs => rw [split, ← Multiset.coe_add]
      rw [add_assoc]
    · dsimp only at some_left ⊢
      by_cases eq : id = wid
      · subst eq
        rw [Function.update_self] at some_left ⊢
        have some_before : (s.data id).left s.step ≠ [] := fun none => by
          rw [Part.left, split, List.append_eq_nil_iff] at none
          exact some_left none.2
        exact left_enough _ _ _ step_pos chunk_pos (laid.enough id below some_before) some_left
      · rw [Function.update_of_ne eq] at some_left ⊢
        exact laid.enough id below some_left
    · dsimp only
      by_cases eq : id = wid
      · subst eq
        rw [Function.update_self]
        rcases laid.spare id below with one | enough
        · exact .inl (by dsimp only; omega)
        · exact (left_spare _ _ _ step_pos chunk_pos enough).imp (fun none_left => by
            dsimp only
            omega) fun spare => spare
      · rw [Function.update_of_ne eq]
        exact laid.spare id below
    · dsimp only
      have apart : id ≠ wid := fun eq => absurd inside (by simpa [← eq] using above)
      rw [Function.update_of_ne apart]
      exact laid.beyond id above
  · exact ⟨whole, by simp [Task.run], laid, rfl, rfl⟩

/-- A sum over parts in a list. -/
theorem sum_parts {M : Type} [AddCommMonoid M] (f : Part → M) (parts : List Part)
    (old : Nat → Part) :
    ∑ id ∈ Finset.range parts.length, f (parts.getD id (old id)) = (parts.map f).sum := by
  induction parts generalizing old with
  | nil => rfl
  | cons d parts ih =>
    rw [List.length_cons, Finset.sum_range_succ', List.map_cons, List.sum_cons]
    simp only [List.getD_cons_succ, List.getD_cons_zero]
    rw [ih fun id => old (id + 1), add_comm]

/-- Parts in a list make up what they have together. -/
theorem sum_left (step : Int) (parts : List Part) (old : Nat → Part) :
    ∑ id ∈ Finset.range parts.length, ((parts.getD id (old id)).left step : Multiset Int) =
      (parts.flatMap (Part.left step) : List Int) := by
  rw [sum_parts fun d => (d.left step : Multiset Int)]
  induction parts with
  | nil => rfl
  | cons d parts ih =>
    rw [List.map_cons, List.sum_cons, List.flatMap_cons, ← Multiset.coe_add, ih]

/-- A list of parts is laid out where no part behind it has tasks. -/
theorem ofParts {parts : List Part} {old : Nat → Part} {step : Int} (step_pos : 0 < step)
    (chunk_pos : 0 < s.chunk) (step_eq : s.step = step) (size : s.nw = parts.length)
    (data : s.data = fun id => parts.getD id (old id))
    (enough : ∀ d ∈ parts, ((d.left step).length : Int) ≤ s.chunk * d.ntask)
    (spare : ∀ d ∈ parts, d.ntask ≤ 1 ∨ s.chunk * (d.ntask - 1) < ((d.left step).length : Int))
    (beyond : ∀ id, parts.length ≤ id → (old id).ntask ≤ 0) :
    LaidOut (parts.flatMap (Part.left step) : List Int) s := by
  subst step_eq
  have member : ∀ id < s.nw, s.data id ∈ parts := fun id inside => by
    rw [size] at inside
    rw [data]
    dsimp only
    rw [List.getD_eq_getElem _ _ inside]
    exact List.getElem_mem inside
  exact {
    step_pos, chunk_pos
    places := by rw [size, data]; exact sum_left s.step parts old
    enough := fun id inside _ => enough _ (member id inside)
    spare := fun id inside => spare _ (member id inside)
    beyond := fun id above => by
      rw [size] at above
      rw [data]
      dsimp only
      rw [List.getD_eq_default _ _ above]
      exact beyond id above }

end LaidOut

/-- Every worker that is started has a task, and `totaltasks` is the number of all. -/
structure Full (s : ForallScheduler) : Prop where
  some_workers : 0 < s.nw
  size : s.nw ≤ s.size
  each : ∀ id < s.nw, 1 ≤ (s.data id).ntask
  tasks : ∑ id ∈ Finset.range s.nw, (s.data id).ntask = s.totaltasks

namespace Full

variable {s : ForallScheduler} {parts : List Part} {old : Nat → Part}

/-- The tasks of parts in a list. -/
theorem ofParts (nw_eq : s.nw = parts.length) (some_parts : 0 < parts.length) (size : s.nw ≤ s.size)
    (data : s.data = fun id => parts.getD id (old id)) (each : ∀ d ∈ parts, 1 ≤ d.ntask)
    (tasks : (parts.map Part.ntask).sum = s.totaltasks) : Full s where
  some_workers := nw_eq ▸ some_parts
  size := size
  each id inside := by
    rw [nw_eq] at inside
    rw [data]
    dsimp only
    rw [List.getD_eq_getElem _ _ inside]
    exact each _ (List.getElem_mem inside)
  tasks := by
    rw [nw_eq, data]
    exact (LaidOut.sum_parts Part.ntask parts old).trans tasks

/-- The tasks of parts in a list of which one is changed. -/
theorem ofParts_update {last : Nat} {d : Part} (nw_eq : s.nw = parts.length)
    (inside : last < parts.length) (size : s.nw ≤ s.size)
    (data : s.data = Function.update (fun id => parts.getD id (old id)) last d)
    (each : ∀ d ∈ parts, 1 ≤ d.ntask) (some_tasks : 1 ≤ d.ntask)
    (tasks : (parts.map Part.ntask).sum - (parts.getD last (old last)).ntask + d.ntask =
      s.totaltasks) : Full s where
  some_workers := by omega
  size := size
  each id below := by
    rw [nw_eq] at below
    rw [data]
    by_cases eq : id = last
    · subst eq
      rw [Function.update_self]
      exact some_tasks
    · rw [Function.update_of_ne eq, List.getD_eq_getElem _ _ below]
      exact each _ (List.getElem_mem below)
  tasks := by
    obtain ⟨others, before, behind⟩ :=
      exists_sum_update Part.ntask (fun id => parts.getD id (old id)) inside
    rw [nw_eq, data, behind, ← tasks, ← LaidOut.sum_parts Part.ntask parts old, before]
    ring

end Full

/-! ## The parts -/

section Parts

variable {step chunk stop start total ntxw : Int} {r left i : Nat}

/-- The parts of a range, the begin behind them and the number of tasks for what is there. -/
structure Cut (step chunk stop start : Int) (parts : List Part) (start' rest : Int) : Prop where
  /-- The parts follow one another. -/
  whole : indices step start stop =
    parts.flatMap (Part.left step) ++ indices step start' stop
  /-- Each part has as many tasks as it needs. -/
  enough : ∀ d ∈ parts, ((d.left step).length : Int) ≤ chunk * d.ntask
  spare : ∀ d ∈ parts, chunk * (d.ntask - 1) < ((d.left step).length : Int)
  /-- So does what is behind them. -/
  rest_enough : ((indices step start' stop).length : Int) ≤ chunk * rest
  rest_spare : chunk * (rest - 1) < ((indices step start' stop).length : Int)
  /-- Where something is behind them the parts are full. -/
  full : indices step start' stop ≠ [] →
    ∀ d ∈ parts, ((d.left step).length : Int) = chunk * d.ntask
  /-- The range behind the last part follows it. -/
  last : ∀ d, parts.getLast? = some d →
    indices step d.start stop = d.left step ++ indices step start' stop

/-- The end of a part is the smaller of two. -/
theorem ite_lt_eq_min (a b : Int) : (if a < b then a else b) = min a b := by
  rcases lt_or_ge a b with below | above
  · rw [if_pos below, min_eq_left below.le]
  · rw [if_neg (by omega), min_eq_right above]

/-- No part takes tasks that there are not. -/
theorem fill_rest_le (some_tasks : 1 ≤ ntxw) :
    (ForallScheduler.fill ntxw r step chunk stop left i start total).2.2 ≤ total := by
  induction left generalizing i start total with
  | zero => exact le_rfl
  | succ left ih =>
    unfold ForallScheduler.fill
    split_ifs
    all_goals first
      | exact le_rfl
      | (refine le_trans ih ?_
         omega)

/-- The loop of `init_data` cuts a range into parts. -/
theorem fill_cut (r left i : Nat) (step_pos : 0 < step) (chunk_pos : 0 < chunk)
    (some_tasks : 1 ≤ ntxw)
    (enough : ((indices step start stop).length : Int) ≤ chunk * total)
    (spare : chunk * (total - 1) < ((indices step start stop).length : Int))
    (rest : 0 ≤ (ForallScheduler.fill ntxw r step chunk stop left i start total).2.2) :
    Cut step chunk stop start (ForallScheduler.fill ntxw r step chunk stop left i start total).1
      (ForallScheduler.fill ntxw r step chunk stop left i start total).2.1
      (ForallScheduler.fill ntxw r step chunk stop left i start total).2.2 := by
  have none : Cut step chunk stop start [] start total :=
    ⟨rfl, by simp, by simp, enough, spare, by simp, by simp⟩
  induction left generalizing i start total with
  | zero => exact none
  | succ left ih =>
    unfold ForallScheduler.fill at rest ⊢
    by_cases some_left : total > 0
    · rw [if_pos some_left] at rest ⊢
      dsimp only at rest ⊢
      set t := ntxw + if r > 1 ∧ i < r then 1 else 0 with t_eq
      have t_pos : 1 ≤ t := by
        rw [t_eq]
        split_ifs <;> omega
      have c_pos : 0 < t * chunk := mul_pos (by omega) chunk_pos
      rw [ite_lt_eq_min, add_assoc start] at rest ⊢
      set stop' := min (start + ((t * chunk - 1) * step + 1)) stop with stop_eq
      have split := indices_split start stop step_pos c_pos
      rw [← stop_eq] at split
      have few : t ≤ total := by
        have := rest.trans (fill_rest_le some_tasks)
        linarith
      have lengths := congrArg (fun l : List Int => (l.length : Int)) split
      simp only [List.length_append, Nat.cast_add] at lengths
      have most := length_chunk_le start stop (t * chunk) step_pos
      rw [← stop_eq, max_eq_left c_pos.le] at most
      -- the part is full, or nothing is behind it
      have full : ((indices step start stop').length : Int) = t * chunk ∨
          (indices step (stop' - 1 + step) stop).length = 0 := by
        by_cases none_left : indices step (stop' - 1 + step) stop = []
        · exact .inr (by rw [none_left]; rfl)
        · exact .inl (length_chunk _ _ step_pos c_pos none_left)
      have total_le : chunk * t ≤ chunk * total := mul_le_mul_of_nonneg_left few chunk_pos.le
      have behind_enough : ((indices step (stop' - 1 + step) stop).length : Int) ≤
          chunk * (total - t) := by
        rcases full with full | none_left
        · linarith
        · rw [none_left]
          push_cast
          linarith
      have behind_spare : chunk * (total - t - 1) <
          ((indices step (stop' - 1 + step) stop).length : Int) := by
        rcases full with full | none_left
        · linarith
        · rw [none_left] at lengths ⊢
          push_cast at lengths ⊢
          linarith
      have cut := ih (i + 1) behind_enough behind_spare rest
        ⟨rfl, by simp, by simp, behind_enough, behind_spare, by simp, by simp⟩
      refine {
        whole := ?_
        enough := fun d inside => ?_
        spare := fun d inside => ?_
        rest_enough := cut.rest_enough
        rest_spare := cut.rest_spare
        full := fun some_left d inside => ?_
        last := fun d last => ?_ }
      · rw [List.flatMap_cons, List.append_assoc, ← cut.whole]
        exact split
      · rcases List.mem_cons.mp inside with rfl | later
        · show ((indices step start stop').length : Int) ≤ chunk * t
          linarith
        · exact cut.enough d later
      · rcases List.mem_cons.mp inside with rfl | later
        · show chunk * (t - 1) < ((indices step start stop').length : Int)
          rcases full with full | none_left
          · linarith
          · rw [none_left] at lengths
            push_cast at lengths
            linarith
        · exact cut.spare d later
      · rcases List.mem_cons.mp inside with rfl | later
        · show ((indices step start stop').length : Int) = chunk * t
          rcases full with full | none_left
          · rw [full, mul_comm]
          · rw [List.length_eq_zero_iff, cut.whole, List.append_eq_nil_iff] at none_left
            exact absurd none_left.2 some_left
        · exact cut.full some_left d later
      · rw [List.getLast?_cons, Option.some.injEq] at last
        rcases behind : (ForallScheduler.fill ntxw r step chunk stop left (i + 1)
          (stop' - 1 + step) (total - t)).1.getLast? with _ | d'
        · rw [behind] at last
          rw [← show _ = d from last]
          have whole := cut.whole
          rw [List.getLast?_eq_none_iff.mp behind, List.flatMap_nil, List.nil_append] at whole
          rw [← whole]
          exact split
        · rw [behind] at last
          rw [← show _ = d from last]
          exact cut.last d' behind
    · rw [if_neg some_left] at rest ⊢
      exact none

/-- Where there are less tasks than workers every part has one task. -/
theorem fill_few (step chunk stop : Int) (left i : Nat) (start total : Int) (tasks : 0 ≤ total)
    (few : total ≤ left) :
    (ForallScheduler.fill 1 0 step chunk stop left i start total).1.length = total.toNat ∧
      (ForallScheduler.fill 1 0 step chunk stop left i start total).2.2 = 0 := by
  induction left generalizing i start total with
  | zero =>
    have zero : total = 0 := by omega
    subst zero
    exact ⟨rfl, rfl⟩
  | succ left ih =>
    unfold ForallScheduler.fill
    by_cases some_left : total > 0
    · rw [if_pos some_left]
      dsimp only
      simp only [Nat.not_lt_zero, gt_iff_lt, and_false, if_false, add_zero]
      obtain ⟨size, rest⟩ := ih (i + 1) _ (total - 1) (by omega) (by push_cast at few; omega)
      refine ⟨?_, rest⟩
      rw [List.length_cons, size]
      omega
    · rw [if_neg some_left]
      exact ⟨by simp; omega, by dsimp only; omega⟩

/-- Otherwise every worker has a part. -/
theorem fill_full (step chunk stop : Int) (left i : Nat) (start total more : Int)
    (some_tasks : 1 ≤ ntxw) (more_nonneg : 0 ≤ more) (tasks : total = ntxw * left +
      (if 1 < r then ((min r (i + left) - min r i : Nat) : Int) else 0) + more) :
    (ForallScheduler.fill ntxw r step chunk stop left i start total).1.length = left ∧
      (ForallScheduler.fill ntxw r step chunk stop left i start total).2.2 = more := by
  induction left generalizing i start total with
  | zero =>
    simp only [Nat.cast_zero, mul_zero, add_zero, Nat.sub_self, ite_self, zero_add] at tasks
    exact ⟨rfl, tasks⟩
  | succ left ih =>
    have parts : 0 ≤ ntxw * (left : Int) := by positivity
    have some_left : total > 0 := by
      rw [tasks]
      push_cast
      split_ifs <;> linarith [Int.natCast_nonneg (min r (i + (left + 1)) - min r i)]
    unfold ForallScheduler.fill
    rw [if_pos some_left]
    dsimp only
    obtain ⟨size, rest⟩ := ih (i + 1) _ (total - (ntxw + if r > 1 ∧ i < r then 1 else 0)) (by
        rw [tasks, Nat.cast_succ, mul_add, mul_one]
        split_ifs <;> omega)
    exact ⟨by rw [List.length_cons, size], rest⟩

/-- The tasks of a part where there is at most one task over. -/
theorem fill_ntask (ntxw : Int) (r : Nat) (step chunk stop : Int) (left i : Nat) (start total : Int)
    (one_over : r ≤ 1) :
    ∀ d ∈ (ForallScheduler.fill ntxw r step chunk stop left i start total).1, d.ntask = ntxw := by
  induction left generalizing i start total with
  | zero => simp [ForallScheduler.fill]
  | succ left ih =>
    unfold ForallScheduler.fill
    split_ifs with some_left extra
    · omega
    · intro d inside
      rcases List.mem_cons.mp inside with rfl | later
      · exact add_zero _
      · exact ih _ _ _ d later
    · simp

/-- Every task is in a part or left over. -/
theorem fill_tasks (ntxw : Int) (r : Nat) (step chunk stop : Int) (left i : Nat)
    (start total : Int) :
    ((ForallScheduler.fill ntxw r step chunk stop left i start total).1.map Part.ntask).sum +
      (ForallScheduler.fill ntxw r step chunk stop left i start total).2.2 = total := by
  induction left generalizing i start total with
  | zero => exact zero_add total
  | succ left ih =>
    unfold ForallScheduler.fill
    split_ifs with some_left extra
    · dsimp only
      rw [List.map_cons, List.sum_cons, add_assoc, ih]
      ring
    · dsimp only
      rw [List.map_cons, List.sum_cons, add_assoc, ih]
      ring
    · exact zero_add total

/-- Every part has a task. -/
theorem fill_each (r : Nat) (step chunk stop : Int) (left i : Nat) (start total : Int)
    (some_tasks : 1 ≤ ntxw) :
    ∀ d ∈ (ForallScheduler.fill ntxw r step chunk stop left i start total).1, 1 ≤ d.ntask := by
  induction left generalizing i start total with
  | zero => simp [ForallScheduler.fill]
  | succ left ih =>
    unfold ForallScheduler.fill
    by_cases some_left : total > 0
    · rw [if_pos some_left]
      intro d inside
      rcases List.mem_cons.mp inside with rfl | later
      · dsimp only
        split_ifs <;> omega
      · exact ih _ _ _ d later
    · rw [if_neg some_left]
      simp

variable {s : ForallScheduler} {parts : List Part} {old : Nat → Part} {start' rest : Int}

/-- Parts with nothing behind them are laid out. -/
theorem Cut.laidOut (cut : Cut step chunk stop start parts start' 0) (step_pos : 0 < step)
    (chunk_pos : 0 < chunk) (step_eq : s.step = step) (chunk_eq : s.chunk = chunk)
    (size : s.nw = parts.length)
    (data : s.data = fun id => parts.getD id (old id))
    (beyond : ∀ id, parts.length ≤ id → (old id).ntask ≤ 0) :
    LaidOut (indices step start stop : List Int) s := by
  subst step_eq chunk_eq
  have none_left : indices s.step start' stop = [] := by
    have := cut.rest_enough
    rw [mul_zero] at this
    exact List.length_eq_zero_iff.mp (by omega)
  rw [cut.whole, none_left, List.append_nil]
  exact .ofParts step_pos chunk_pos rfl size data cut.enough
    (fun d inside => .inr (cut.spare d inside)) beyond

/-- Parts are laid out where the last one gets what is behind them, and either tasks for it or
chunks of twice the size. -/
theorem Cut.laidOut_rest (cut : Cut step chunk stop start parts start' rest)
    (step_pos : 0 < step) (chunk_pos : 0 < chunk) (rest_pos : 0 < rest) (step_eq : s.step = step)
    (size : s.nw = parts.length) (some_parts : 0 < parts.length) {more : Int}
    (data : s.data = Function.update (fun id => parts.getD id (old id)) (parts.length - 1)
      ⟨more, (parts.getD (parts.length - 1) (old (parts.length - 1))).start, stop⟩)
    (either : s.chunk = chunk ∧
        more = (parts.getD (parts.length - 1) (old (parts.length - 1))).ntask + rest ∨
      s.chunk = chunk * 2 ∧ more = 1 ∧ rest = 1 ∧ ∀ d ∈ parts, d.ntask = 1)
    (beyond : ∀ id, parts.length ≤ id → (old id).ntask ≤ 0) :
    LaidOut (indices step start stop : List Int) s := by
  subst step_eq
  have inside : parts.length - 1 < parts.length := by omega
  set last := parts.getD (parts.length - 1) (old (parts.length - 1)) with last_eq
  have member : ∀ id < parts.length, parts.getD id (old id) ∈ parts := fun id inside => by
    rw [List.getD_eq_getElem _ _ inside]
    exact List.getElem_mem inside
  have last_mem : last ∈ parts := member _ inside
  have some_left : indices s.step start' stop ≠ [] := fun none => by
    have := cut.rest_spare
    rw [none] at this
    have := mul_nonneg chunk_pos.le (show 0 ≤ rest - 1 by omega)
    simp only [List.length_nil, Nat.cast_zero] at *
    omega
  have at_last : indices s.step last.start stop =
      last.left s.step ++ indices s.step start' stop := by
    refine cut.last last ?_
    rw [List.getLast?_eq_getElem?, last_eq, List.getD_eq_getElem _ _ inside,
      List.getElem?_eq_getElem inside]
  have at_last_length : ((indices s.step last.start stop).length : Int) =
      chunk * last.ntask + (indices s.step start' stop).length := by
    rw [at_last, List.length_append, Nat.cast_add, cut.full some_left last last_mem]
  obtain ⟨others, before, behind⟩ := exists_sum_update
    (fun d : Part => (d.left s.step : Multiset Int)) (fun id => parts.getD id (old id)) inside
  refine {
    step_pos := step_pos
    chunk_pos := by rcases either with ⟨eq, -⟩ | ⟨eq, -⟩ <;> omega
    places := ?_
    enough := fun id below _ => ?_
    spare := fun id below => ?_
    beyond := fun id above => ?_ }
  · rw [size, data, behind, cut.whole, ← Multiset.coe_add, ← LaidOut.sum_left s.step parts old,
      before]
    show (indices s.step last.start stop : Multiset Int) + others = _
    rw [at_last, ← Multiset.coe_add]
    abel
  · rw [size] at below
    rw [data]
    by_cases eq : id = parts.length - 1
    · subst eq
      rw [Function.update_self]
      show ((indices s.step last.start stop).length : Int) ≤ _
      rw [at_last_length]
      have := cut.rest_enough
      rcases either with ⟨chunk_eq, more_eq⟩ | ⟨chunk_eq, more_eq, rest_eq, ones⟩
      · rw [chunk_eq, more_eq]
        dsimp only
        linarith
      · rw [chunk_eq, more_eq, ones last last_mem]
        rw [rest_eq] at this
        linarith
    · rw [Function.update_of_ne eq]
      have enough := cut.enough _ (member id below)
      rcases either with ⟨chunk_eq, -⟩ | ⟨chunk_eq, -, -, ones⟩
      · rw [chunk_eq]
        exact enough
      · rw [ones _ (member id below)] at enough ⊢
        linarith
  · rw [size] at below
    rw [data]
    by_cases eq : id = parts.length - 1
    · subst eq
      rw [Function.update_self]
      show more ≤ 1 ∨ s.chunk * (more - 1) < ((indices s.step last.start stop).length : Int)
      rw [at_last_length]
      have := cut.rest_spare
      rcases either with ⟨chunk_eq, more_eq⟩ | ⟨-, more_eq, -, -⟩
      · rw [chunk_eq, more_eq]
        refine .inr ?_
        linarith
      · exact .inl more_eq.le
    · rw [Function.update_of_ne eq]
      rcases either with ⟨chunk_eq, -⟩ | ⟨-, -, -, ones⟩
      · rw [chunk_eq]
        exact .inr (cut.spare _ (member id below))
      · exact .inl (ones _ (member id below)).le
  · rw [size] at above
    rw [data, Function.update_of_ne (by omega), List.getD_eq_default _ _ above]
    exact beyond id above

/-- The parts of a loop, where every worker has one or there is one for each task. -/
theorem share_laidOut {nw : Nat} (step_pos : 0 < step) (chunk_pos : 0 < chunk)
    (some_workers : 0 < nw) (some_tasks : 1 ≤ ntxw) (total_pos : 0 < total)
    (idle : ∀ id, 0 < id → (old id).ntask ≤ 0)
    (enough : ((indices step start stop).length : Int) ≤ chunk * total)
    (spare : chunk * (total - 1) < ((indices step start stop).length : Int))
    (each : ((ForallScheduler.fill ntxw r step chunk stop nw 0 start total).1.length = total.toNat ∧
        total ≤ nw ∧ (ForallScheduler.fill ntxw r step chunk stop nw 0 start total).2.2 = 0) ∨
      (ForallScheduler.fill ntxw r step chunk stop nw 0 start total).1.length = nw ∧
        ntxw * nw + (ForallScheduler.fill ntxw r step chunk stop nw 0 start total).2.2 ≤ total ∧
        0 ≤ (ForallScheduler.fill ntxw r step chunk stop nw 0 start total).2.2 ∧
        (0 < (ForallScheduler.fill ntxw r step chunk stop nw 0 start total).2.2 → r = 1 ∧
          total = ntxw * nw + 1 ∧
          (ForallScheduler.fill ntxw r step chunk stop nw 0 start total).2.2 = 1))
    (s_eq : s = ForallScheduler.share old ntxw r total start stop step chunk nw) :
    LaidOut (indices step start stop : List Int)
        { s with nw := if s.totaltasks ≤ nw then s.totaltasks.toNat else nw } ∧
      Full { s with nw := if s.totaltasks ≤ nw then s.totaltasks.toNat else nw } ∧
      s.step = step := by
  have nw_le : (nw : Int) ≤ ntxw * nw := le_mul_of_one_le_left (by positivity) some_tasks
  have beyond : ∀ id, 1 ≤ id → (ForallScheduler.resize old nw id).ntask ≤ 0 := fun id above => by
    unfold ForallScheduler.resize
    split_ifs
    · exact idle id above
    · exact le_rfl
  have rest_nonneg : 0 ≤ (ForallScheduler.fill ntxw r step chunk stop nw 0 start total).2.2 := by
    rcases each with ⟨-, -, rest⟩ | ⟨-, -, rest, -⟩ <;> omega
  have cut := fill_cut r nw 0 step_pos chunk_pos some_tasks enough spare rest_nonneg
  have ntasks := fill_ntask ntxw r step chunk stop nw 0 start total
  have tasks := fill_tasks ntxw r step chunk stop nw 0 start total
  have each_part := fill_each r step chunk stop nw 0 start total some_tasks
  unfold ForallScheduler.share at s_eq
  dsimp only at s_eq
  generalize ForallScheduler.fill ntxw r step chunk stop nw 0 start total = filled at *
  obtain ⟨parts, start', rest⟩ := filled
  dsimp only at *
  by_cases none_over : rest = 0
  · rw [if_pos none_over] at s_eq
    subst none_over s_eq
    have nw_eq : (if total ≤ nw then total.toNat else nw) = parts.length := by
      split_ifs <;> omega
    refine ⟨cut.laidOut step_pos chunk_pos rfl rfl nw_eq rfl fun id above => beyond id (by omega),
      .ofParts nw_eq (by omega) ?_ rfl each_part ?_, rfl⟩
    · dsimp only
      split_ifs <;> omega
    · dsimp only
      omega
  · rcases each with ⟨-, -, none⟩ | ⟨size, -, -, one_over⟩
    · exact absurd none none_over
    obtain ⟨rfl, total_eq, rest_eq⟩ := one_over (by omega)
    have last_mem : parts.getD (nw - 1) (ForallScheduler.resize old nw (nw - 1)) ∈ parts := by
      rw [List.getD_eq_getElem _ _ (by omega)]
      exact List.getElem_mem _
    have ones := ntasks le_rfl
    rw [if_neg none_over] at s_eq
    split_ifs at s_eq with many
    · subst s_eq
      have nw_eq : (if total ≤ nw then total.toNat else nw) = parts.length := by
        split_ifs <;> omega
      refine ⟨cut.laidOut_rest step_pos chunk_pos (by omega) rfl nw_eq (by omega) ?_
        (.inl ⟨rfl, rfl⟩) fun id above => beyond id (by omega),
        .ofParts_update nw_eq (by omega : nw - 1 < parts.length) ?_ rfl each_part ?_ ?_, rfl⟩
      · rw [size]
      · dsimp only
        split_ifs <;> omega
      · have := ones _ last_mem
        dsimp only
        omega
      · dsimp only
        omega
    · have one : ntxw = 1 := by omega
      subst s_eq one
      have nw_eq : (if total - 1 ≤ nw then (total - 1).toNat else nw) = parts.length := by
        split_ifs <;> omega
      have last_one := ones _ last_mem
      have last_one' : (parts.getD (parts.length - 1)
          (ForallScheduler.resize old nw (parts.length - 1))).ntask = 1 := by
        rw [size]
        exact last_one
      refine ⟨cut.laidOut_rest step_pos chunk_pos (by omega) rfl nw_eq (by omega) ?_
        (.inr ⟨rfl, last_one', rest_eq, ones⟩) fun id above => beyond id (by omega),
        .ofParts_update nw_eq (by omega : nw - 1 < parts.length) ?_ rfl each_part last_one.ge ?_,
        rfl⟩
      · rw [size]
      · dsimp only
        split_ifs <;> omega
      · dsimp only
        omega

/-- The number of indices of a loop that has some. -/
theorem length_ceilDiv (some_left : start < stop) (step_pos : 0 < step) :
    ((indices step start stop).length : Int) = ceilDiv (stop - start) step := by
  rw [length_indices]
  refine Int.toNat_of_nonneg ?_
  by_contra below
  have := (ceilDiv_le_iff step_pos).mp (show ceilDiv (stop - start) step ≤ 0 by omega)
  omega

/-- `init_data` lays out the loop; `setloop` starts a worker for each part. -/
theorem initData_laidOut {nw : Nat} (some_left : start < stop)
    (step_pos : 0 < step) (chunk_pos : 0 < chunk) (some_workers : 0 < nw)
    (idle : ∀ id, 0 < id → (old id).ntask ≤ 0)
    (s_eq : s = ForallScheduler.initData old start stop step chunk nw) :
    LaidOut (indices step start stop : List Int)
        { s with nw := if s.totaltasks ≤ nw then s.totaltasks.toNat else nw } ∧
      Full { s with nw := if s.totaltasks ≤ nw then s.totaltasks.toNat else nw } ∧
      s.step = step := by
  have numtasks := length_ceilDiv some_left step_pos
  have some_indices : (0 : Int) < (indices step start stop).length := by
    exact_mod_cast List.length_pos_of_ne_nil (indices_ne_nil step_pos some_left)
  unfold ForallScheduler.initData at s_eq
  dsimp only at s_eq
  rw [← numtasks] at s_eq
  generalize total_eq : ceilDiv ((indices step start stop).length : Int) chunk = total at s_eq
  have enough : ((indices step start stop).length : Int) ≤ chunk * total := by
    rw [mul_comm]
    exact (ceilDiv_le_iff chunk_pos).mp total_eq.le
  have spare : chunk * (total - 1) < ((indices step start stop).length : Int) := by
    by_contra less
    have := (ceilDiv_le_iff (a := ((indices step start stop).length : Int)) chunk_pos).mpr
      (show _ ≤ (total - 1) * chunk by rw [mul_comm]; omega)
    omega
  have total_pos : 0 < total := by
    by_contra none
    have := mul_nonpos_of_nonneg_of_nonpos chunk_pos.le (show total ≤ 0 by omega)
    omega
  have nw_pos : (0 : Int) < nw := by exact_mod_cast some_workers
  have below := Int.emod_lt_of_pos total nw_pos
  have nonneg := Int.emod_nonneg total nw_pos.ne'
  have parts := Int.mul_ediv_add_emod total nw
  split_ifs at s_eq with few
  · have less : total ≤ nw := by
      rw [few.1, mul_zero, zero_add] at parts
      omega
    obtain ⟨size, rest⟩ := fill_few step chunk stop nw 0 start total total_pos.le less
    exact share_laidOut step_pos chunk_pos some_workers le_rfl total_pos idle enough spare
      (.inl ⟨size, less, rest⟩) s_eq
  · have some_tasks : 1 ≤ total / nw := by
      by_contra none
      have zero : total / nw = 0 :=
        le_antisymm (by omega) (Int.ediv_nonneg total_pos.le nw_pos.le)
      rw [zero, mul_zero, zero_add] at parts
      exact few ⟨zero, by omega⟩
    have tasks : total = total / nw * nw + total % nw := by
      rw [mul_comm]
      exact parts.symm
    obtain ⟨size, rest⟩ := fill_full (r := (total % nw).toNat) step chunk stop nw 0 start total
      (if 1 < (total % nw).toNat then 0 else total % nw) some_tasks (by split_ifs <;> omega)
      (by split_ifs <;> omega)
    refine share_laidOut step_pos chunk_pos some_workers some_tasks total_pos idle enough spare
      (.inr ⟨size, ?_, ?_, fun one_over => ?_⟩) s_eq
    · rw [rest]
      split_ifs <;> omega
    · rw [rest]
      split_ifs <;> omega
    · rw [rest] at one_over ⊢
      split_ifs at one_over ⊢ <;> omega

/-- The first chunk of a loop and the indices behind it, where the chunk may be empty. -/
theorem indices_split_of_nonneg {c : Int} (start stop : Int) (step_pos : 0 < step) (chunk : 0 ≤ c) :
    indices step start stop =
      indices step start (min (start + ((c - 1) * step + 1)) stop) ++
        indices step (min (start + ((c - 1) * step + 1)) stop - 1 + step) stop := by
  rcases chunk.lt_or_eq with some_chunk | rfl
  · exact indices_split start stop step_pos some_chunk
  · have first : start + ((0 - 1) * step + 1) = start - step + 1 := by ring
    rw [first, indices_nil step_pos (le_trans (min_le_left _ _) (by omega)), List.nil_append]
    rcases le_or_gt (start - step + 1) stop with inside | beyond
    · rw [min_eq_left inside]
      congr 1
      ring
    · rw [min_eq_right beyond.le, indices_nil step_pos (by omega), indices_nil step_pos (by omega)]

/-- The loop of `init_data_static` cuts a range into parts with a task each. -/
theorem fillStatic_parts (stop : Int) (r left i : Nat) (start : Int) (step_pos : 0 < step)
    (chunk_nonneg : 0 ≤ chunk)
    (inside : r ≤ i + left)
    (enough : ((indices step start stop).length : Int) ≤ chunk * left + (r - i : Nat)) :
    indices step start stop =
        (ForallScheduler.fillStatic r step chunk stop left i start).flatMap (Part.left step) ∧
      (ForallScheduler.fillStatic r step chunk stop left i start).length = left ∧
      ∀ d ∈ ForallScheduler.fillStatic r step chunk stop left i start, d.ntask = 1 ∧
        ((d.left step).length : Int) ≤ if r ≠ 0 then chunk + 1 else chunk := by
  induction left generalizing i start with
  | zero =>
    refine ⟨List.length_eq_zero_iff.mp ?_, rfl, by simp [ForallScheduler.fillStatic]⟩
    simp only [Nat.cast_zero, mul_zero, zero_add] at enough
    omega
  | succ left ih =>
    unfold ForallScheduler.fillStatic
    dsimp only
    set c := chunk + if i < r then 1 else 0 with c_eq
    have c_nonneg : 0 ≤ c := by
      rw [c_eq]
      split_ifs <;> omega
    have bound : start + (chunk - 1) * step + 1 + (if i < r then step else 0) =
        start + ((c - 1) * step + 1) := by
      rw [c_eq]
      split_ifs <;> ring
    rw [ite_lt_eq_min, bound]
    have split := indices_split_of_nonneg start stop step_pos c_nonneg
    have most := length_chunk_le start stop c step_pos
    rw [max_eq_left c_nonneg] at most
    have behind : ((indices step (min (start + ((c - 1) * step + 1)) stop - 1 + step) stop).length :
        Int) ≤ chunk * left + (r - (i + 1) : Nat) := by
      have parts : 0 ≤ chunk * (left : Int) := mul_nonneg chunk_nonneg (by positivity)
      by_cases none_left :
          indices step (min (start + ((c - 1) * step + 1)) stop - 1 + step) stop = []
      · rw [none_left]
        simp only [List.length_nil, Nat.cast_zero]
        omega
      · have full : ((indices step start (min (start + ((c - 1) * step + 1)) stop)).length : Int) =
            c := by
          rcases c_nonneg.lt_or_eq with some_chunk | none
          · exact length_chunk start stop step_pos some_chunk none_left
          · omega
        rw [split, List.length_append, Nat.cast_add, full, Nat.cast_succ, mul_add,
          mul_one] at enough
        by_cases more : i < r
        · rw [if_pos more] at c_eq
          omega
        · rw [if_neg more] at c_eq
          omega
    obtain ⟨whole, size, each⟩ := ih (i + 1) _ (by omega) behind
    refine ⟨?_, by rw [List.length_cons, size], fun d member => ?_⟩
    · rw [List.flatMap_cons, ← whole]
      exact split
    · rcases List.mem_cons.mp member with rfl | later
      · refine ⟨rfl, le_trans most ?_⟩
        rw [c_eq]
        split_ifs <;> omega
      · exact each d later

/-- `init_data_static` lays out the loop; `setloop` starts all workers. -/
theorem initDataStatic_laidOut {nw : Nat} (some_left : start < stop) (step_pos : 0 < step)
    (some_workers : 0 < nw) (idle : ∀ id, 0 < id → (old id).ntask ≤ 0)
    (s_eq : s = ForallScheduler.initDataStatic old start stop step nw) :
    LaidOut (indices step start stop : List Int)
        { s with nw := if s.totaltasks ≤ nw then s.totaltasks.toNat else nw } ∧
      Full { s with nw := if s.totaltasks ≤ nw then s.totaltasks.toNat else nw } ∧
      s.step = step := by
  have numtasks := length_ceilDiv some_left step_pos
  have some_indices : (0 : Int) < (indices step start stop).length := by
    exact_mod_cast List.length_pos_of_ne_nil (indices_ne_nil step_pos some_left)
  unfold ForallScheduler.initDataStatic at s_eq
  dsimp only at s_eq
  rw [← numtasks] at s_eq
  have nw_pos : (0 : Int) < nw := by exact_mod_cast some_workers
  generalize length_eq : ((indices step start stop).length : Int) = n at *
  have below := Int.emod_lt_of_pos n nw_pos
  have nonneg := Int.emod_nonneg n nw_pos.ne'
  have parts := Int.mul_ediv_add_emod n nw
  have chunk_nonneg : 0 ≤ n / nw := Int.ediv_nonneg some_indices.le nw_pos.le
  have chunk_pos : 0 < if (n % nw).toNat ≠ 0 then n / nw + 1 else n / nw := by
    split_ifs with more
    · omega
    · by_contra none
      have zero : n / nw = 0 := by omega
      rw [zero, mul_zero, zero_add] at parts
      omega
  obtain ⟨whole, size, each⟩ := fillStatic_parts stop (n % nw).toNat nw 0 start step_pos
    chunk_nonneg (by omega) (by rw [length_eq, mul_comm]; omega)
  have nw_eq : (if (nw : Int) ≤ nw then (nw : Int).toNat else nw) =
      (ForallScheduler.fillStatic (n % nw).toNat step (n / nw) stop nw 0 start).length := by
    rw [size, if_pos le_rfl, Int.toNat_natCast]
  have tasks : ((ForallScheduler.fillStatic (n % nw).toNat step (n / nw) stop nw 0 start).map
      Part.ntask).sum = nw := by
    rw [List.map_congr_left fun d member => (each d member).1, List.map_const', List.sum_replicate,
      size, nsmul_eq_mul, mul_one]
  subst s_eq
  refine ⟨?_, .ofParts nw_eq (by omega) ?_ rfl (fun d member => (each d member).1.ge) tasks, rfl⟩
  · rw [whole]
    refine LaidOut.ofParts step_pos chunk_pos rfl nw_eq rfl (fun d member => ?_)
      (fun d member => .inl (each d member).1.le) fun id above => ?_
    · rw [(each d member).1, mul_one]
      exact (each d member).2
    · unfold ForallScheduler.resize
      split_ifs
      · exact idle id (by omega)
      · exact le_rfl
  · dsimp only
    rw [if_pos le_rfl, Int.toNat_natCast]

/-- `setloop` lays out the loop. -/
theorem setloop_laidOut {s : ForallScheduler} {nw : Nat} (some_left : start < stop)
    (step_pos : 0 < step) (chunk_nonneg : 0 ≤ chunk) (some_workers : 0 < nw)
    (idle : ∀ id, 0 < id → (s.data id).ntask ≤ 0) :
    LaidOut (indices step start stop : List Int) (s.setloop start stop step chunk nw) ∧
      Full (s.setloop start stop step chunk nw) ∧
      (s.setloop start stop step chunk nw).step = step := by
  unfold ForallScheduler.setloop
  dsimp only
  by_cases static : chunk = 0
  · rw [if_pos static]
    exact initDataStatic_laidOut some_left step_pos some_workers idle rfl
  · rw [if_neg static]
    exact initData_laidOut some_left step_pos (by omega : 0 < chunk) some_workers idle rfl

end Parts

end P3arsec.Fastflow

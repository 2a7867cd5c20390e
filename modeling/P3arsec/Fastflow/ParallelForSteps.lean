import P3arsec.Fastflow.ParallelFor

/-!
# A parallel loop runs every index once

What the workers have run, what they have taken from a part and not yet run and what is left of the
parts are the indices of the loop, each one once. The number of tasks of a part, less the decrements
that are under way, is enough for what is left of it, so a worker that finds no task in its own part
leaves nothing there.
-/

namespace P3arsec.Fastflow

open P3arsec.Lib.Concurrent

/-! ## Indices -/

section Indices

variable {step start stop c : Int}

/-- A quotient rounded up is at most a number whose multiple is large enough. -/
theorem ceilDiv_le_iff {a b k : Int} (positive : 0 < b) : ceilDiv a b ≤ k ↔ a ≤ k * b := by
  unfold ceilDiv
  rw [neg_le, Int.le_ediv_iff_mul_le positive]
  constructor <;> intro known <;> linarith

/-- A loop without indices. -/
theorem indices_nil (positive : 0 < step) (above : stop ≤ start) :
    indices step start stop = [] := by
  have known : ceilDiv (stop - start) step ≤ 0 := (ceilDiv_le_iff positive).mpr (by omega)
  rw [indices, Int.toNat_of_nonpos known]
  rfl

/-- The number of indices. -/
theorem length_indices :
    (indices step start stop).length = (ceilDiv (stop - start) step).toNat := by
  simp [indices]

/-- A loop has an index where its begin is before its end. -/
theorem indices_ne_nil (positive : 0 < step) (below : start < stop) :
    indices step start stop ≠ [] := by
  intro none
  have length := congrArg List.length none
  rw [length_indices, List.length_nil, Int.toNat_eq_zero, ceilDiv_le_iff positive] at length
  omega

/-- A chunk of `c` indices has `c` of them. -/
theorem ceilDiv_chunk (positive : 0 < step) : ceilDiv ((c - 1) * step + 1) step = c := by
  refine le_antisymm ((ceilDiv_le_iff positive).mpr (by linarith)) ?_
  by_contra below
  have known := (ceilDiv_le_iff (a := (c - 1) * step + 1) positive).mp
    (show ceilDiv ((c - 1) * step + 1) step ≤ c - 1 by omega)
  omega

/-- A quotient rounded up loses what is taken from it in multiples. -/
theorem ceilDiv_sub (a : Int) (positive : 0 < step) :
    ceilDiv (a - c * step) step = ceilDiv a step - c := by
  unfold ceilDiv
  have shift : -(a - c * step) = -a + c * step := by ring
  rw [shift, Int.add_mul_ediv_right _ _ positive.ne']
  ring

/-- The first chunk of a loop and the indices behind it. -/
theorem indices_split (start stop : Int) (positive : 0 < step) (some_chunk : 0 < c) :
    indices step start stop =
      indices step start (min (start + ((c - 1) * step + 1)) stop) ++
        indices step (min (start + ((c - 1) * step + 1)) stop - 1 + step) stop := by
  rcases le_or_gt (start + ((c - 1) * step + 1)) stop with inside | beyond
  · rw [min_eq_left inside]
    have behind : start + ((c - 1) * step + 1) - 1 + step = start + c * step := by ring
    have enough : c ≤ ceilDiv (stop - start) step := by
      by_contra below
      have known := (ceilDiv_le_iff (a := stop - start) positive).mp
        (show ceilDiv (stop - start) step ≤ c - 1 by omega)
      omega
    have rest : stop - (start + c * step) = stop - start - c * step := by ring
    rw [behind]
    simp only [indices]
    rw [add_sub_cancel_left, ceilDiv_chunk positive, rest, ceilDiv_sub _ positive]
    have total : (ceilDiv (stop - start) step).toNat =
        c.toNat + (ceilDiv (stop - start) step - c).toNat := by omega
    rw [total, List.range_add, List.map_append, List.map_map]
    congr 1
    refine List.map_congr_left fun j _ => ?_
    have cast : ((c.toNat : Nat) : Int) = c := Int.toNat_of_nonneg some_chunk.le
    simp only [Function.comp_apply, Nat.cast_add, cast]
    ring
  · rw [min_eq_right beyond.le, indices_nil positive (by omega : stop ≤ stop - 1 + step),
      List.append_nil]

/-- A chunk has at most `c` indices. -/
theorem length_chunk_le (start stop c : Int) (positive : 0 < step) :
    ((indices step start (min (start + ((c - 1) * step + 1)) stop)).length : Int) ≤ max c 0 := by
  rw [length_indices, Int.toNat_eq_max]
  refine max_le_max_right 0 ((ceilDiv_le_iff positive).mpr ?_)
  have := min_le_left (start + ((c - 1) * step + 1)) stop
  linarith

/-- A chunk with indices behind it has `c` indices. -/
theorem length_chunk (start stop : Int) (positive : 0 < step) (some_chunk : 0 < c)
    (more : indices step (min (start + ((c - 1) * step + 1)) stop - 1 + step) stop ≠ []) :
    ((indices step start (min (start + ((c - 1) * step + 1)) stop)).length : Int) = c := by
  rcases le_or_gt (start + ((c - 1) * step + 1)) stop with inside | beyond
  · rw [min_eq_left inside, length_indices, add_sub_cancel_left, ceilDiv_chunk positive,
      Int.toNat_of_nonneg some_chunk.le]
  · rw [min_eq_right beyond.le] at more
    exact absurd (indices_nil positive (by omega)) more

/-- The tasks that were enough for a part are enough without one for what is behind a chunk. -/
theorem left_enough (start stop n : Int) (positive : 0 < step) (some_chunk : 0 < c)
    (enough : ((indices step start stop).length : Int) ≤ c * n)
    (more : indices step (min (start + ((c - 1) * step + 1)) stop - 1 + step) stop ≠ []) :
    ((indices step (min (start + ((c - 1) * step + 1)) stop - 1 + step) stop).length : Int) ≤
      c * (n - 1) := by
  have full := length_chunk start stop positive some_chunk more
  rw [indices_split start stop positive some_chunk, List.length_append, Nat.cast_add,
    full] at enough
  linarith

/-- The tasks that were not more than needed are not more without one, or there are none. -/
theorem left_spare (start stop n : Int) (positive : 0 < step) (some_chunk : 0 < c)
    (spare : c * (n - 1) < ((indices step start stop).length : Int)) :
    n - 1 ≤ 0 ∨ c * (n - 1 - 1) <
      ((indices step (min (start + ((c - 1) * step + 1)) stop - 1 + step) stop).length : Int) := by
  rw [indices_split start stop positive some_chunk, List.length_append, Nat.cast_add] at spare
  by_cases none_left :
      indices step (min (start + ((c - 1) * step + 1)) stop - 1 + step) stop = []
  · have length := length_chunk_le start stop c positive
    rw [max_eq_left some_chunk.le] at length
    rw [none_left, List.length_nil, Nat.cast_zero, add_zero] at spare
    refine .inl ?_
    by_contra some_left
    have := mul_le_mul_of_nonneg_left (show (1 : Int) ≤ n - 1 by omega) some_chunk.le
    linarith
  · rw [length_chunk start stop positive some_chunk none_left] at spare
    refine .inr ?_
    linarith

end Indices

/-- What is left of a part. -/
def Part.left (step : Int) (d : Part) : List Int := indices step d.start d.stop

/-- The indices that a worker has taken and not run. -/
def NextTask.held (step : Int) : NextTask → Multiset Int
  | .lowering _ start stop => indices step start stop
  | _ => 0

/-- Whether a worker is about to lower the number of tasks of a part. -/
def NextTask.lowers (id : Nat) : NextTask → Int
  | .lowering id' _ _ => if id' = id then 1 else 0
  | _ => 0

/-- Whether a worker is about to take a chunk of a part. -/
def NextTask.Nears (id : Nat) : NextTask → Prop
  | .testing id' | .loading id' | .swapping id' _ _ => id' = id
  | _ => False

/-- What a worker knows. -/
def NextTask.Knows (s : ForallScheduler) (wid : Nat) : NextTask → Prop
  | .testing id => id ≠ wid → (s.data wid).left s.step = []
  | .loading id => id < s.nw ∧ (id ≠ wid → (s.data wid).left s.step = [])
  | .swapping id oldstart stop => id < s.nw ∧ (id ≠ wid → (s.data wid).left s.step = []) ∧
      stop = min (oldstart + ((s.chunk - 1) * s.step + 1)) (s.data id).stop
  | .lowering id oldstart stop => id < s.nw ∧ (id ≠ wid → (s.data wid).left s.step = []) ∧
      (¬oldstart < stop → (s.data id).left s.step = [])
  | .stealing | .choosing _ | .done => (s.data wid).left s.step = []

/-- The indices of tasks. -/
def Task.run (step : Int) (tasks : List Task) : Multiset Int :=
  (tasks.flatMap fun task => indices step task.start task.stop : List Int)

/-- Every index is in one place. `run` are those that the workers have got. -/
structure Sound (whole run : Multiset Int) (f : Forall) : Prop where
  step_pos : 0 < f.sched.step
  chunk_pos : 0 < f.sched.chunk
  /-- The indices that are run, those that are taken and those that are left. -/
  places : run + ∑ wid ∈ Finset.range f.sched.nw, (f.worker wid).held f.sched.step +
    ∑ id ∈ Finset.range f.sched.nw, ((f.sched.data id).left f.sched.step : Multiset Int) = whole
  /-- The tasks of a part are enough for what is left of it. -/
  enough : ∀ id < f.sched.nw, (f.sched.data id).left f.sched.step ≠ [] →
    (((f.sched.data id).left f.sched.step).length : Int) ≤ f.sched.chunk *
      ((f.sched.data id).ntask - ∑ wid ∈ Finset.range f.sched.nw, (f.worker wid).lowers id)
  /-- They are not more than needed, or there is one more and the worker of the part will see it. -/
  spare : ∀ id < f.sched.nw,
    (f.sched.data id).ntask - ∑ wid ∈ Finset.range f.sched.nw, (f.worker wid).lowers id ≤ 1 ∧
        (f.worker id).Nears id ∨
      (f.sched.data id).ntask - ∑ wid ∈ Finset.range f.sched.nw, (f.worker wid).lowers id ≤ 0 ∨
      f.sched.chunk * ((f.sched.data id).ntask -
        ∑ wid ∈ Finset.range f.sched.nw, (f.worker wid).lowers id - 1) <
          (((f.sched.data id).left f.sched.step).length : Int)
  /-- There are no tasks beyond the parts. -/
  beyond : ∀ id, f.sched.nw ≤ id → (f.sched.data id).ntask ≤ 0
  /-- What the workers know. -/
  knows : ∀ wid < f.sched.nw, (f.worker wid).Knows f.sched wid
  /-- The other workers are not started. -/
  others : ∀ wid, f.sched.nw ≤ wid → f.worker wid = .done

section Sums

variable {M β : Type} [AddCommMonoid M]

/-- A sum over a range with one entry apart, for all values of that entry. -/
theorem exists_sum_update (f : β → M) (g : Nat → β) {i n : Nat} (inside : i < n) :
    ∃ rest, ∑ k ∈ Finset.range n, f (g k) = f (g i) + rest ∧
      ∀ b, ∑ k ∈ Finset.range n, f (Function.update g i b k) = f b + rest := by
  have member := Finset.mem_range.mpr inside
  refine ⟨∑ k ∈ (Finset.range n).erase i, f (g k), (Finset.add_sum_erase _ _ member).symm,
    fun b => ?_⟩
  rw [← Finset.add_sum_erase _ _ member, Function.update_self]
  congr 1
  refine Finset.sum_congr rfl fun k known => ?_
  rw [Function.update_of_ne (Finset.ne_of_mem_erase known)]

end Sums

namespace Sound

variable {whole run : Multiset Int} {s : ForallScheduler} {worker : Nat → NextTask} {wid id : Nat}
variable {next : NextTask} {oldstart stop : Int}

/-- A worker that is not done is one of those that are started. -/
theorem started (sound : Sound whole run ⟨s, worker⟩) (busy : worker wid ≠ .done) : wid < s.nw := by
  by_contra other
  exact busy (sound.others wid (by simpa using other))

/-- What a worker knows where it is. -/
theorem knows_at {pc : NextTask} (sound : Sound whole run ⟨s, worker⟩) (here : worker wid = pc)
    (busy : pc ≠ .done) : wid < s.nw ∧ pc.Knows s wid := by
  have inside := sound.started (by rw [here]; exact busy)
  have known := sound.knows wid inside
  dsimp only at known
  rw [here] at known
  exact ⟨inside, known⟩

/-- There are no less than zero workers that are about to lower a number of tasks. -/
theorem lowers_nonneg (worker : Nat → NextTask) (n id : Nat) :
    0 ≤ ∑ w ∈ Finset.range n, (worker w).lowers id := by
  refine Finset.sum_nonneg fun w _ => ?_
  cases worker w <;> simp only [NextTask.lowers] <;> first | rfl | (split <;> decide)

/-- The other workers are not started when a worker has gone on. -/
theorem others_update (sound : Sound whole run ⟨s, worker⟩) (inside : wid < s.nw) (next : NextTask)
    {w : Nat} (above : s.nw ≤ w) : Function.update worker wid next w = .done := by
  rw [Function.update_of_ne (by omega)]
  exact sound.others w above

/-- A worker that goes on without a change to the parts. -/
theorem turn {pc : NextTask} (sound : Sound whole run ⟨s, worker⟩) (here : worker wid = pc)
    (next : NextTask) (inside : wid < s.nw) (held : pc.held s.step = next.held s.step)
    (lowers : ∀ id, pc.lowers id = next.lowers id) (knows : next.Knows s wid)
    (near : pc.Nears wid → next.Nears wid ∨ (s.data wid).ntask ≤ 0) (maxid : Int) :
    Sound whole run ⟨{ s with maxid }, Function.update worker wid next⟩ := by
  rw [← here] at held lowers near
  have sums : ∀ {M : Type} [AddCommMonoid M] (f : NextTask → M), f next = f (worker wid) →
      ∑ k ∈ Finset.range s.nw, f (Function.update worker wid next k) =
        ∑ k ∈ Finset.range s.nw, f (worker k) := fun f same => by
    obtain ⟨rest, before, behind⟩ := exists_sum_update f worker inside
    rw [before, behind, same]
  refine {
    step_pos := sound.step_pos
    chunk_pos := sound.chunk_pos
    places := ?_
    enough := fun id below some_left => ?_
    spare := fun id below => ?_
    beyond := sound.beyond
    knows := fun w below => ?_
    others := fun w above => ?_ }
  · dsimp only
    rw [sums (NextTask.held s.step) held.symm]
    exact sound.places
  · dsimp only
    rw [sums (NextTask.lowers id) (lowers id).symm]
    exact sound.enough id below some_left
  · dsimp only
    rw [sums (NextTask.lowers id) (lowers id).symm]
    rcases sound.spare id below with ⟨one, nears⟩ | enough
    · by_cases same : id = wid
      · subst same
        rw [Function.update_self]
        rcases near nears with nears | none_left
        · exact .inl ⟨one, nears⟩
        · have := lowers_nonneg worker s.nw id
          exact .inr (.inl (by omega))
      · rw [Function.update_of_ne same]
        exact .inl ⟨one, nears⟩
    · exact .inr enough
  · dsimp only
    have kept : ∀ pc : NextTask, pc.Knows s w → pc.Knows { s with maxid } w := fun pc known => by
      cases pc <;> exact known
    by_cases same : w = wid
    · subst same
      rw [Function.update_self]
      exact kept next knows
    · rw [Function.update_of_ne same]
      exact kept _ (sound.knows w below)
  · exact sound.others_update inside next above

/-- What a worker knows stays right when a part loses indices at its begin. -/
theorem Knows.shrink {pc : NextTask} {data : Nat → Part} (known : pc.Knows s wid)
    (stops : ∀ id, (data id).stop = (s.data id).stop)
    (gone : ∀ id, (s.data id).left s.step = [] → (data id).left s.step = []) :
    pc.Knows { s with data } wid := by
  cases pc with
  | testing => exact fun other => gone _ (known other)
  | loading => exact ⟨known.1, fun other => gone _ (known.2 other)⟩
  | swapping =>
    refine ⟨known.1, fun other => gone _ (known.2.1 other), ?_⟩
    show _ = min _ (data _).stop
    rw [stops]
    exact known.2.2
  | lowering =>
    exact ⟨known.1, fun other => gone _ (known.2.1 other), fun none => gone _ (known.2.2 none)⟩
  | stealing => exact gone _ known
  | choosing => exact gone _ known
  | done => exact gone _ known

/-- There are no tasks beyond the parts when a part has changed. -/
theorem beyond_update (sound : Sound whole run ⟨s, worker⟩) (id_lt : id < s.nw) (part : Part)
    {other : Nat} (above : s.nw ≤ other) : (Function.update s.data id part other).ntask ≤ 0 := by
  rw [Function.update_of_ne (by omega)]
  exact sound.beyond other above

/-- What the workers know when one of them has changed a part and gone on. The part keeps its end
and gets no new indices. -/
theorem knows_update (sound : Sound whole run ⟨s, worker⟩) (part : Part)
    (stops : part.stop = (s.data id).stop)
    (fewer : (s.data id).left s.step = [] → part.left s.step = [])
    (knows : next.Knows s wid) {w : Nat} (below : w < s.nw) :
    (Function.update worker wid next w).Knows
      { s with data := Function.update s.data id part } w := by
  have shrink : ∀ (w : Nat) (pc : NextTask), pc.Knows s w →
      pc.Knows { s with data := Function.update s.data id part } w := fun w pc known => by
    refine Knows.shrink known (fun other => ?_) fun other none => ?_
    · by_cases eq : other = id
      · rw [eq, Function.update_self, stops]
      · rw [Function.update_of_ne eq]
    · by_cases eq : other = id
      · subst eq
        rw [Function.update_self]
        exact fewer none
      · rwa [Function.update_of_ne eq]
  by_cases eq : w = wid
  · subst eq
    rw [Function.update_self]
    exact shrink w next knows
  · rw [Function.update_of_ne eq]
    exact shrink w _ (sound.knows w below)

/-- A chunk without indices begins at or behind the end of its part. -/
theorem left_of_chunk_nil (step_pos : 0 < s.step) (chunk_pos : 0 < s.chunk)
    (stop_eq : stop = min ((s.data id).start + ((s.chunk - 1) * s.step + 1)) (s.data id).stop)
    (none : ¬(s.data id).start < stop) : (s.data id).left s.step = [] := by
  refine indices_nil step_pos ?_
  have some_chunk : 0 ≤ (s.chunk - 1) * s.step := mul_nonneg (by omega) step_pos.le
  rcases min_choice ((s.data id).start + ((s.chunk - 1) * s.step + 1)) (s.data id).stop with
    eq | eq
  · rw [eq] at stop_eq
    omega
  · rw [eq] at stop_eq
    omega

/-- A chunk is taken from a part. -/
theorem swap (sound : Sound whole run ⟨s, worker⟩) (here : worker wid = .swapping id oldstart stop)
    (same : (s.data id).start = oldstart) :
    Sound whole run
      ⟨{ s with
          data := Function.update s.data id
            ⟨(s.data id).ntask, stop - 1 + s.step, (s.data id).stop⟩ },
        Function.update worker wid (.lowering id oldstart stop)⟩ := by
  obtain ⟨inside, id_lt, own, stop_eq⟩ := sound.knows_at here (by simp)
  have step_pos := sound.step_pos
  have chunk_pos := sound.chunk_pos
  dsimp only at step_pos chunk_pos
  -- the chunk and what is left behind it
  have split : (s.data id).left s.step =
      indices s.step oldstart stop ++ indices s.step (stop - 1 + s.step) (s.data id).stop := by
    rw [Part.left, same, stop_eq]
    exact indices_split _ _ step_pos chunk_pos
  refine {
    step_pos := step_pos
    chunk_pos := chunk_pos
    places := ?_
    enough := fun other below some_left => ?_
    spare := fun other below => ?_
    beyond := fun other above => ?_
    knows := fun w below => ?_
    others := fun w above => ?_ }
  · have places := sound.places
    dsimp only at places ⊢
    obtain ⟨rest, before, behind⟩ :=
      exists_sum_update (NextTask.held s.step) worker inside
    obtain ⟨rest', before', behind'⟩ := exists_sum_update
      (fun d : Part => (d.left s.step : Multiset Int)) s.data id_lt
    rw [before, before', here, split, ← Multiset.coe_add] at places
    rw [behind, behind', ← places]
    simp only [NextTask.held, Part.left]
    abel
  · dsimp only at some_left ⊢
    obtain ⟨rest, before, behind⟩ := exists_sum_update (NextTask.lowers other) worker inside
    rw [behind]
    by_cases eq : other = id
    · subst eq
      rw [Function.update_self] at some_left ⊢
      have some_before : (s.data other).left s.step ≠ [] := fun none => by
        rw [split, List.append_eq_nil_iff] at none
        exact some_left none.2
      have enough := sound.enough other below some_before
      dsimp only at enough
      rw [before, here] at enough
      simp only [NextTask.lowers, if_true] at enough ⊢
      have fewer := left_enough (s.data other).start _ _ step_pos chunk_pos enough
        (by rwa [same, ← stop_eq])
      rw [same, ← stop_eq] at fewer
      refine le_of_le_of_eq fewer ?_
      ring
    · rw [Function.update_of_ne eq] at some_left ⊢
      have enough := sound.enough other below some_left
      dsimp only at enough
      rw [before, here] at enough
      simpa [NextTask.lowers, Ne.symm eq] using enough
  · dsimp only
    obtain ⟨rest, before, behind⟩ := exists_sum_update (NextTask.lowers other) worker inside
    have spare := sound.spare other below
    dsimp only at spare
    rw [before, here] at spare
    rw [behind]
    by_cases eq : other = id
    · subst eq
      rw [Function.update_self]
      simp only [NextTask.lowers, if_true] at spare ⊢
      rcases spare with ⟨one, -⟩ | none_left | enough
      · exact .inr (.inl (by omega))
      · exact .inr (.inl (by omega))
      · have fewer := left_spare (s.data other).start _ _ step_pos chunk_pos enough
        rw [same, ← stop_eq] at fewer
        refine .inr (fewer.imp (fun none_left => by omega) fun spare => lt_of_eq_of_lt ?_ spare)
        ring
    · rw [Function.update_of_ne eq]
      have lowers : (NextTask.lowering id oldstart stop).lowers other =
          (NextTask.swapping id oldstart stop).lowers other := if_neg (Ne.symm eq)
      rw [lowers]
      rcases spare with ⟨one, nears⟩ | enough
      · by_cases same : other = wid
        · subst same
          rw [here] at nears
          exact absurd nears (Ne.symm eq)
        · rw [Function.update_of_ne same]
          exact .inl ⟨one, nears⟩
      · exact .inr enough
  · exact sound.beyond_update id_lt _ above
  · refine sound.knows_update ⟨(s.data id).ntask, stop - 1 + s.step, (s.data id).stop⟩ rfl
      (fun none => ?_) ?_ below
    · rw [split, List.append_eq_nil_iff] at none
      exact none.2
    · refine ⟨id_lt, own, fun none => ?_⟩
      rw [← same] at none stop_eq
      exact left_of_chunk_nil step_pos chunk_pos stop_eq none
  · exact sound.others_update inside _ above

/-- The number of tasks of a part is lowered, and the worker has run the chunk. -/
theorem lower (sound : Sound whole run ⟨s, worker⟩) (next : NextTask)
    (here : worker wid = .lowering id oldstart stop)
    (held : next.held s.step = 0) (lowers : ∀ id, next.lowers id = 0) (knows : next.Knows s wid) :
    Sound whole (run + indices s.step oldstart stop)
      ⟨{ s with
          data := Function.update s.data id
            ⟨(s.data id).ntask - 1, (s.data id).start, (s.data id).stop⟩ },
        Function.update worker wid next⟩ := by
  obtain ⟨inside, id_lt, -⟩ := sound.knows_at here (by simp)
  have lefts : ∀ other, (Function.update s.data id
      ⟨(s.data id).ntask - 1, (s.data id).start, (s.data id).stop⟩ other).left s.step =
        (s.data other).left s.step := fun other => by
    by_cases eq : other = id
    · rw [eq, Function.update_self]
      rfl
    · rw [Function.update_of_ne eq]
  refine {
    step_pos := sound.step_pos
    chunk_pos := sound.chunk_pos
    places := ?_
    enough := fun other below some_left => ?_
    spare := fun other below => ?_
    beyond := fun other above => ?_
    knows := fun w below => ?_
    others := fun w above => ?_ }
  · have places := sound.places
    dsimp only at places ⊢
    obtain ⟨rest, before, behind⟩ :=
      exists_sum_update (NextTask.held s.step) worker inside
    simp only [lefts]
    rw [before, here] at places
    rw [behind, held, ← places]
    simp only [NextTask.held]
    abel
  · dsimp only at some_left ⊢
    rw [lefts] at some_left ⊢
    have enough := sound.enough other below some_left
    dsimp only at enough
    obtain ⟨rest, before, behind⟩ := exists_sum_update (NextTask.lowers other) worker inside
    rw [before, here] at enough
    rw [behind, lowers]
    by_cases eq : other = id
    · subst eq
      simp only [NextTask.lowers, if_true] at enough
      rw [Function.update_self]
      linarith
    · simp only [NextTask.lowers, if_neg (Ne.symm eq)] at enough
      rw [Function.update_of_ne eq]
      exact enough
  · dsimp only
    rw [lefts]
    obtain ⟨rest, before, behind⟩ := exists_sum_update (NextTask.lowers other) worker inside
    have spare := sound.spare other below
    dsimp only at spare
    rw [before, here] at spare
    rw [behind, lowers]
    have same : (Function.update s.data id
        ⟨(s.data id).ntask - 1, (s.data id).start, (s.data id).stop⟩ other).ntask - (0 + rest) =
          (s.data other).ntask -
            ((NextTask.lowering id oldstart stop).lowers other + rest) := by
      by_cases eq : other = id
      · subst eq
        rw [Function.update_self]
        simp only [NextTask.lowers, if_true]
        ring
      · rw [Function.update_of_ne eq]
        simp only [NextTask.lowers, if_neg (Ne.symm eq)]
    rw [same]
    rcases spare with ⟨one, nears⟩ | enough
    · by_cases same : other = wid
      · subst same
        rw [here] at nears
        exact nears.elim
      · rw [Function.update_of_ne same]
        exact .inl ⟨one, nears⟩
    · exact .inr enough
  · exact sound.beyond_update id_lt _ above
  · exact sound.knows_update ⟨(s.data id).ntask - 1, (s.data id).start, (s.data id).stop⟩ rfl
      (fun none => none) knows below
  · exact sound.others_update inside _ above

/-- A part without tasks has nothing left. -/
theorem left_nil (sound : Sound whole run ⟨s, worker⟩) (inside : id < s.nw)
    (none_left : (s.data id).ntask ≤ 0) : (s.data id).left s.step = [] := by
  by_contra some_left
  have enough := sound.enough id inside some_left
  have chunk_pos := sound.chunk_pos
  dsimp only at enough chunk_pos
  have lowers := lowers_nonneg worker s.nw id
  have length : (0 : Int) < (((s.data id).left s.step).length : Int) := by
    exact_mod_cast List.length_pos_of_ne_nil some_left
  have := mul_nonpos_of_nonneg_of_nonpos chunk_pos.le
    (show (s.data id).ntask - ∑ w ∈ Finset.range s.nw, (worker w).lowers id ≤ 0 by omega)
  omega

/-- Every step keeps the indices in their places. -/
theorem step {f f' : Forall} {event : Option Task} (sound : Sound whole run f)
    (moves : Forall.Step f event f') :
    Sound whole (run + Task.run f.sched.step event.toList) f' ∧
      f'.sched.step = f.sched.step ∧ f'.sched.nw = f.sched.nw := by
  have quiet : ∀ {g : Forall}, Sound whole run g →
      Sound whole (run + Task.run f.sched.step (none : Option Task).toList) g := fun kept => by
    simpa [Task.run] using kept
  cases moves with
  | @test s worker wid id here =>
    obtain ⟨inside, known⟩ := sound.knows_at here (by simp)
    refine ⟨quiet (sound.turn here (if (s.data id).ntask > 0 then .loading id
      else if s.staticScheduling then .done else .stealing) inside ?_ ?_ ?_ ?_ s.maxid), rfl, rfl⟩
    · split_ifs <;> rfl
    · intro id
      split_ifs <;> rfl
    · have own : ¬(s.data id).ntask > 0 → (s.data wid).left s.step = [] := fun none_left => by
        by_cases eq : id = wid
        · subst eq
          exact sound.left_nil inside (by omega)
        · exact known eq
      split_ifs with some_left static
      · refine ⟨?_, known⟩
        by_contra beyond
        have none_left := sound.beyond id (by simpa using beyond)
        dsimp only at none_left
        omega
      · exact own some_left
      · exact own some_left
    · intro nears
      rw [← show id = wid from nears]
      by_cases some_left : (s.data id).ntask > 0
      · rw [if_pos some_left]
        exact .inl rfl
      · exact .inr (by omega)
  | @load s worker wid id here =>
    obtain ⟨inside, id_lt, own⟩ := sound.knows_at here (by simp)
    exact ⟨quiet (sound.turn here (.swapping id (s.data id).start (s.next (s.data id)).1) inside rfl
      (fun _ => rfl) ⟨id_lt, own, rfl⟩ .inl s.maxid), rfl, rfl⟩
  | @miss s worker wid id oldstart stop here =>
    obtain ⟨inside, -, own, -⟩ := sound.knows_at here (by simp)
    exact ⟨quiet (sound.turn here (.testing id) inside rfl (fun _ => rfl) own .inl s.maxid),
      rfl, rfl⟩
  | swap here same => exact ⟨quiet (sound.swap here same), rfl, rfl⟩
  | take here some_left =>
    refine ⟨?_, rfl, rfl⟩
    simpa [Task.run] using sound.lower (.testing _) here rfl (fun _ => rfl)
      fun other => absurd rfl other
  | @lower s worker wid id oldstart stop here none_left =>
    obtain ⟨inside, id_lt, own, empty⟩ := sound.knows_at here (by simp)
    have own : (s.data wid).left s.step = [] := by
      by_cases eq : id = wid
      · subst eq
        exact empty none_left
      · exact own eq
    have none : indices s.step oldstart stop = [] :=
      indices_nil sound.step_pos (by omega)
    have kept := sound.lower (if s.staticScheduling then .done else .stealing) here
      (by split_ifs <;> rfl) (by intro id; split_ifs <;> rfl) (by split_ifs <;> exact own)
    rw [none] at kept
    exact ⟨quiet (by simpa using kept), rfl, rfl⟩
  | @scan s worker wid id here unset =>
    obtain ⟨inside, own⟩ := sound.knows_at here (by simp)
    exact ⟨quiet (sound.turn here (.choosing id) inside rfl (fun _ => rfl) own False.elim s.maxid),
      rfl, rfl⟩
  | @reuse s worker wid here set =>
    obtain ⟨inside, own⟩ := sound.knows_at here (by simp)
    exact ⟨quiet (sound.turn here (.choosing s.maxid.toNat) inside rfl (fun _ => rfl) own False.elim
      s.maxid), rfl, rfl⟩
  | @steal s worker wid id here some_left =>
    obtain ⟨inside, own⟩ := sound.knows_at here (by simp)
    exact ⟨quiet (sound.turn here (.testing id) inside rfl (fun _ => rfl) (fun _ => own) False.elim
      id), rfl, rfl⟩
  | @stop s worker wid id here none_left =>
    obtain ⟨inside, own⟩ := sound.knows_at here (by simp)
    exact ⟨quiet (sound.turn here .done inside rfl (fun _ => rfl) own False.elim s.maxid),
      rfl, rfl⟩

/-- A task goes to a worker that is started. -/
theorem worker_lt {f f' : Forall} {task : Task} (sound : Sound whole run f)
    (moves : Forall.Step f (some task) f') : task.worker < f.sched.nw := by
  cases moves with
  | take here => exact sound.started (by rw [here]; simp)

/-- The tasks of two lists. -/
theorem run_append (step : Int) (tasks tasks' : List Task) :
    Task.run step (tasks ++ tasks') = Task.run step tasks + Task.run step tasks' := by
  simp [Task.run]

/-- Every run keeps the indices in their places. -/
theorem steps {f f' : Forall} {history : List Task} (sound : Sound whole run f)
    (moves : History Forall.Step f history f') :
    Sound whole (run + Task.run f.sched.step history) f' ∧
      f'.sched.step = f.sched.step ∧ f'.sched.nw = f.sched.nw := by
  induction moves with
  | start => exact ⟨by simpa [Task.run] using sound, rfl, rfl⟩
  | step _ moves ih =>
    obtain ⟨kept, step_eq, nw_eq⟩ := ih
    obtain ⟨kept', step_eq', nw_eq'⟩ := kept.step moves
    rw [step_eq, add_assoc, ← run_append] at kept'
    exact ⟨kept', step_eq'.trans step_eq, nw_eq'.trans nw_eq⟩

/-- All tasks of a run go to workers that are started. -/
theorem workers_lt {f f' : Forall} {history : List Task} (sound : Sound whole run f)
    (moves : History Forall.Step f history f') : ∀ task ∈ history, task.worker < f.sched.nw := by
  induction moves with
  | start => simp
  | @step g g' tasks event before moves ih =>
    obtain ⟨kept, -, nw_eq⟩ := sound.steps before
    intro task inside
    rcases List.mem_append.mp inside with earlier | last
    · exact ih task earlier
    · rw [Option.mem_toList] at last
      rw [← nw_eq]
      cases last
      exact kept.worker_lt moves

/-- Where all workers have returned every index is run. -/
theorem finished {f : Forall} (sound : Sound whole run f)
    (done : ∀ wid < f.sched.nw, f.worker wid = .done) : run = whole := by
  have places := sound.places
  have none_held : ∑ wid ∈ Finset.range f.sched.nw, (f.worker wid).held f.sched.step = 0 :=
    Finset.sum_eq_zero fun wid inside => by rw [done wid (Finset.mem_range.mp inside)]; rfl
  have none_left : ∑ id ∈ Finset.range f.sched.nw,
      ((f.sched.data id).left f.sched.step : Multiset Int) = 0 :=
    Finset.sum_eq_zero fun id inside => by
      have known := sound.knows id (Finset.mem_range.mp inside)
      rw [done id (Finset.mem_range.mp inside)] at known
      rw [show (f.sched.data id).left f.sched.step = [] from known]
      rfl
  rw [none_held, none_left, add_zero, add_zero] at places
  exact places

/-- Where all workers have returned no part has tasks. -/
theorem idle {f : Forall} (sound : Sound whole run f)
    (done : ∀ wid < f.sched.nw, f.worker wid = .done) (id : Nat) :
    (f.sched.data id).ntask ≤ 0 := by
  rcases lt_or_ge id f.sched.nw with inside | above
  · have lowers : ∑ wid ∈ Finset.range f.sched.nw, (f.worker wid).lowers id = 0 :=
      Finset.sum_eq_zero fun wid inside => by rw [done wid (Finset.mem_range.mp inside)]; rfl
    have known := sound.knows id inside
    have spare := sound.spare id inside
    rw [done id inside] at known spare
    rw [lowers, sub_zero, show (f.sched.data id).left f.sched.step = [] from known] at spare
    rcases spare with ⟨-, nears⟩ | none_left | enough
    · exact nears.elim
    · exact none_left
    · have chunk_pos := sound.chunk_pos
      by_contra some_left
      have := mul_nonneg chunk_pos.le (show 0 ≤ (f.sched.data id).ntask - 1 by omega)
      simp only [List.length_nil, Nat.cast_zero] at enough
      omega
  · exact sound.beyond id above

end Sound

end P3arsec.Fastflow

import P3arsec.Dedup.Reorder

/-!
# The bounds of the reorder stage

Every access to `chunks_per_anchor` is at the first-level number of a chunk that has arrived: the
chunk at hand, or one that was put into the tree before. So it is enough that the growth step makes
room for each arriving chunk, which it does exactly for a number below twice the length of the array
as long as the number fits in 31 bits.
-/

namespace P3arsec.Dedup

open P3arsec.Lib

namespace Reorder

variable {Q T : Type} (cache : Cache Q T) (fuel nw : Nat)

/-- Every step of the loop over the chunks of a buffer has a property, which says something about
the chunk and the state in which it arrives. -/
def EachChunk (step : FineChunk → Reorder T → Prop) : List FineChunk → Reorder T → Prop
  | [], _ => True
  | chunk :: rest, st => step chunk st ∧
      ∀ next, receive cache fuel st chunk = .ok next → EachChunk step rest next

/-- Every step of a run over buffers has a property. -/
def EachStep (step : FineChunk → Reorder T → Prop) :
    List (List FineChunk × Bool) → Reorder T → Prop
  | [], _ => True
  | task :: rest, st => EachChunk cache fuel step task.1 st ∧
      ∀ next, svc cache fuel nw st task = .ok next → EachStep step rest next

/-- The growth step leaves an array with an entry for the chunk. -/
def MakesRoom (chunk : FineChunk) (st : Reorder T) : Prop :=
  chunk.sequence.l1num < (grow chunk st).chunksPerAnchorMax

/-- The chunk is less than the length of the array ahead of its end. -/
def NearEnough (chunk : FineChunk) (st : Reorder T) : Prop :=
  chunk.sequence.l1num < 2 ^ 31 ∧ chunk.sequence.l1num < 2 * st.chunksPerAnchorMax

/-- The array is large enough for each chunk that arrives, and no access is beyond its end. The
`pthreads` version receives all chunks and flushes once, as on one buffer with the last mark. -/
def InBounds (tasks : List (List FineChunk × Bool)) : Prop :=
  EachStep cache fuel nw MakesRoom tasks (start cache) ∧
    tasks.foldlM (svc cache fuel nw) (start cache) ≠ .error .outOfBounds

/-- The array has a length it can grow to, and an entry for each coarse chunk of the tree. -/
structure Roomy (st : Reorder T) : Prop where
  /-- The length is 1024 doubled some times, and fits in an `unsigned int`. -/
  doubled : ∃ n, n ≤ 31 ∧ 10 ≤ n ∧ st.chunksPerAnchorMax = 2 ^ n
  /-- A coarse chunk of the tree has an entry. -/
  room : ∀ l1num, cache.tree.find l1num st.T ≠ none → l1num < st.chunksPerAnchorMax

/-- A result that is in bounds: another fault, or a state with room. -/
def Sound : Except Fault (Reorder T) → Prop
  | .error fault => fault ≠ .outOfBounds
  | .ok st => Roomy cache st

/-- What is taken out of the tree leaves a state with room, and a chunk is found only at the node
of the next number. -/
def Took (st : Reorder T) : Except Fault (Option FineChunk × Option Nat × Reorder T) → Prop
  | .error fault => fault ≠ .outOfBounds
  | .ok (found, _, after) => Roomy cache after ∧ after.next = st.next ∧
      after.chunksPerAnchorMax = st.chunksPerAnchorMax ∧
      (found ≠ none → st.next.l1num < st.chunksPerAnchorMax)

variable {cache} {fuel nw}

/-- Two sound parts are sound together. -/
theorem Sound.bind {result : Except Fault (Reorder T)}
    {rest : Reorder T → Except Fault (Reorder T)} (sound : Sound cache result)
    (then' : ∀ st, result = .ok st → Roomy cache st → Sound cache (rest st)) :
    Sound cache (result >>= rest) := by
  cases result with
  | error fault => exact sound
  | ok st => exact then' st rfl sound

/-- There is room at the start. -/
theorem roomy_start : Roomy cache (start cache) where
  doubled := ⟨10, by norm_num, by norm_num, rfl⟩
  room l1num found := absurd (cache.tree.find_makeEmpty l1num) found

/-- The growth step makes room exactly for a chunk that is near enough. -/
theorem makesRoom_iff {chunk : FineChunk} {st : Reorder T} (roomy : Roomy cache st) :
    MakesRoom chunk st ↔ NearEnough chunk st := by
  obtain ⟨n, most, least, length⟩ := roomy.doubled
  unfold MakesRoom NearEnough
  rw [grow_chunksPerAnchorMax, grownMax, length]
  rcases Nat.lt_or_eq_of_le most with below | rfl
  · -- The doubled length is still a 32-bit number.
    have half : 2 ^ n ≤ 2 ^ 30 := Nat.pow_le_pow_right (by norm_num) (by omega)
    rw [Nat.mod_eq_of_lt (by omega)]
    split
    · omega
    · omega
  · split
    · omega
    · omega

/-- A chunk for which there is room leaves an array of a length it can grow to. -/
theorem roomy_grow {chunk : FineChunk} {st : Reorder T} (roomy : Roomy cache st)
    (room : MakesRoom chunk st) : Roomy cache (grow chunk st) := by
  obtain ⟨n, most, least, length⟩ := roomy.doubled
  unfold MakesRoom at room
  rw [grow_chunksPerAnchorMax, grownMax, length] at room
  have grown : ∃ m, m ≤ 31 ∧ 10 ≤ m ∧ n ≤ m ∧ (grow chunk st).chunksPerAnchorMax = 2 ^ m := by
    rw [grow_chunksPerAnchorMax, grownMax, length]
    by_cases beyond : chunk.sequence.l1num ≥ 2 ^ n
    · rw [if_pos beyond] at room ⊢
      rcases Nat.lt_or_eq_of_le most with below | rfl
      · have half : 2 ^ n ≤ 2 ^ 30 := Nat.pow_le_pow_right (by norm_num) (by omega)
        refine ⟨n + 1, below, by omega, by omega, ?_⟩
        rw [Nat.mod_eq_of_lt (by omega), Nat.pow_succ']
      · norm_num at room
    · rw [if_neg beyond]
      exact ⟨n, most, least, le_refl n, rfl⟩
  obtain ⟨m, most', least', larger, length'⟩ := grown
  refine ⟨⟨m, most', least', length'⟩, fun l1num found => ?_⟩
  have inside := roomy.room l1num found
  have sizes : 2 ^ n ≤ 2 ^ m := Nat.pow_le_pow_right (by norm_num) larger
  rw [length] at inside
  omega

/-- A state with the same array and no more coarse chunks in the tree. -/
theorem Roomy.of_same {st st' : Reorder T} (roomy : Roomy cache st)
    (length : st'.chunksPerAnchorMax = st.chunksPerAnchorMax)
    (fewer : ∀ l1num, cache.tree.find l1num st'.T ≠ none → cache.tree.find l1num st.T ≠ none) :
    Roomy cache st' where
  doubled := by
    rw [length]
    exact roomy.doubled
  room l1num found := by
    rw [length]
    exact roomy.room l1num (fewer l1num found)

/-- With room for the chunk the count is stored inside the array. -/
theorem sound_noteLast {chunk : FineChunk} {st : Reorder T} (roomy : Roomy cache st)
    (room : chunk.sequence.l1num < st.chunksPerAnchorMax) : Sound cache (noteLast chunk st) := by
  unfold noteLast
  dsimp only
  split
  · rw [if_neg (Nat.not_le.mpr room)]
    split
    · exact fun same => nomatch same
    · exact roomy.of_same rfl fun _ found => found
  · exact roomy

/-- What `noteLast` keeps. -/
theorem noteLast_same {chunk : FineChunk} {st st' : Reorder T}
    (noted : noteLast chunk st = .ok st') :
    st'.T = st.T ∧ st'.next = st.next ∧ st'.chunksPerAnchorMax = st.chunksPerAnchorMax := by
  unfold noteLast at noted
  dsimp only at noted
  split at noted
  · split at noted
    · exact nomatch noted
    · split at noted
      · exact nomatch noted
      · obtain rfl := Except.ok.inj noted
        exact ⟨rfl, rfl, rfl⟩
  · obtain rfl := Except.ok.inj noted
    exact ⟨rfl, rfl, rfl⟩

/-- A chunk that is put into the tree has an entry. -/
theorem roomy_insert {chunk : FineChunk} {st : Reorder T} (roomy : Roomy cache st)
    (room : chunk.sequence.l1num < st.chunksPerAnchorMax) :
    Roomy cache (insert cache chunk st) := by
  unfold insert
  dsimp only
  cases here : cache.tree.find chunk.sequence.l1num st.T with
  | none =>
    refine ⟨roomy.doubled, fun l1num found => ?_⟩
    dsimp only at found ⊢
    rw [cache.tree.find_insert _ _ _ _ here] at found
    by_cases same : l1num = chunk.sequence.l1num
    · rwa [same]
    · rw [if_neg same] at found
      exact roomy.room l1num found
  | some queue =>
    refine ⟨roomy.doubled, fun l1num found => ?_⟩
    dsimp only at found ⊢
    rw [cache.tree.find_update _ _ _ _ (by rw [here]; exact Option.some_ne_none queue)] at found
    by_cases same : l1num = chunk.sequence.l1num
    · rwa [same]
    · rw [if_neg same] at found
      exact roomy.room l1num found

/-- The next sequence number has an entry when its chunk is written. -/
theorem sound_write {chunk : FineChunk} {st : Reorder T} (roomy : Roomy cache st)
    (room : st.next.l1num < st.chunksPerAnchorMax) : Sound cache (write chunk st) := by
  have inside : ¬st.chunksPerAnchorMax ≤ st.next.incL2.l1num := Nat.not_le.mpr room
  unfold write
  dsimp only
  rw [if_neg inside]
  split
  · exact roomy.of_same rfl fun _ found => found
  · exact roomy.of_same rfl fun _ found => found

/-- What is taken from the tree. -/
theorem took_take {st : Reorder T} (roomy : Roomy cache st) (pos : Option Nat) :
    Took cache st (take cache pos st) := by
  have stays : ∀ pos', Took cache st (.ok (none, pos', st)) :=
    fun _ => ⟨roomy, rfl, rfl, fun found => absurd rfl found⟩
  cases pos with
  | none => exact stays none
  | some l1num =>
    unfold take
    dsimp only
    by_cases own : l1num = st.next.l1num
    · rw [if_pos own]
      cases node : cache.tree.find l1num st.T with
      | none => exact fun same => nomatch same
      | some queue =>
        have here : cache.tree.find l1num st.T ≠ none := by
          rw [node]
          exact Option.some_ne_none queue
        have inside : st.next.l1num < st.chunksPerAnchorMax := own ▸ roomy.room l1num here
        dsimp only
        cases cache.heap.findMin queue with
        | none => exact fun same => nomatch same
        | some chunk =>
          dsimp only
          split
          · split
            · refine ⟨roomy.of_same rfl fun other found => ?_, rfl, rfl, fun _ => inside⟩
              dsimp only at found
              rw [cache.tree.find_delete] at found
              split at found
              · exact absurd rfl found
              · exact found
            · refine ⟨roomy.of_same rfl fun other found => ?_, rfl, rfl, fun _ => inside⟩
              dsimp only at found
              rw [cache.tree.find_update _ _ _ _ here] at found
              split at found
              · rename_i same
                rwa [same]
              · exact found
          · exact stays _
    · rw [if_neg own]
      exact stays _

/-- Everything that is written from the tree is in bounds. -/
theorem sound_drain (fuel : Nat) {pos : Option Nat} {chunk : FineChunk} {st : Reorder T}
    (roomy : Roomy cache st) (room : st.next.l1num < st.chunksPerAnchorMax) :
    Sound cache (drain cache fuel pos chunk st) := by
  induction fuel generalizing pos chunk st with
  | zero => exact fun same => nomatch same
  | succ fuel ih =>
    refine (sound_write roomy room).bind fun written _ roomy' => ?_
    have took := took_take roomy' pos
    cases taken : take cache pos written with
    | error fault =>
      rw [taken] at took
      exact took
    | ok result =>
      obtain ⟨found, pos', after⟩ := result
      rw [taken] at took
      obtain ⟨roomy'', next, length, inside⟩ := took
      cases found with
      | none => exact roomy''
      | some chunk' =>
        refine ih roomy'' ?_
        rw [next, length]
        exact inside (Option.some_ne_none chunk')

/-- The flush is in bounds. -/
theorem sound_flush (fuel : Nat) {pos : Option Nat} {st : Reorder T} (roomy : Roomy cache st) :
    Sound cache (flush cache fuel pos st) := by
  induction fuel generalizing pos st with
  | zero =>
    cases pos with
    | none => exact roomy
    | some l1num => exact fun same => nomatch same
  | succ fuel ih =>
    cases pos with
    | none => exact roomy
    | some l1num =>
      have took := took_take roomy (some l1num)
      rw [flush]
      cases taken : take cache (some l1num) st with
      | error fault =>
        rw [taken] at took
        exact took
      | ok result =>
        obtain ⟨found, pos', after⟩ := result
        rw [taken] at took
        obtain ⟨roomy', next, length, inside⟩ := took
        cases found with
        | none => exact fun same => nomatch same
        | some chunk =>
          have room : after.next.l1num < after.chunksPerAnchorMax := by
            rw [next, length]
            exact inside (Option.some_ne_none chunk)
          exact (sound_write roomy' room).bind fun _ _ roomy'' => ih roomy''

/-- A chunk for which there is room is received in bounds. -/
theorem sound_receive {chunk : FineChunk} {st : Reorder T} (roomy : Roomy cache st)
    (room : MakesRoom chunk st) : Sound cache (receive cache fuel st chunk) := by
  have grown := roomy_grow roomy room
  refine (sound_noteLast grown room).bind fun noted same roomy' => ?_
  obtain ⟨-, next, length⟩ := noteLast_same same
  have inside : chunk.sequence.l1num < noted.chunksPerAnchorMax := by
    rw [length]
    exact room
  split
  · rename_i current
    refine sound_drain fuel roomy' ?_
    rwa [← Sequence.eq_iff.mp current]
  · exact roomy_insert roomy' inside

/-- The chunks of a buffer are received in bounds when each finds room. -/
theorem sound_chunks {chunks : List FineChunk} {st : Reorder T} (roomy : Roomy cache st)
    (each : EachChunk cache fuel MakesRoom chunks st) :
    Sound cache (chunks.foldlM (receive cache fuel) st) := by
  induction chunks generalizing st with
  | nil => exact roomy
  | cons chunk rest ih =>
    rw [List.foldlM_cons]
    exact (sound_receive roomy each.1).bind fun next ran roomy' => ih roomy' (each.2 next ran)

/-- `svc` is sound when there is room for each chunk. -/
theorem sound_svc {task : List FineChunk × Bool} {st : Reorder T} (roomy : Roomy cache st)
    (each : EachChunk cache fuel MakesRoom task.1 st) :
    Sound cache (svc cache fuel nw st task) := by
  refine (sound_chunks roomy each).bind fun received _ roomy' => ?_
  have marked : Roomy cache
      (if task.2 then { received with terminatedW := received.terminatedW + 1 } else received) := by
    split
    · exact roomy'.of_same rfl fun _ found => found
    · exact roomy'
  generalize (if task.2 then { received with terminatedW := received.terminatedW + 1 }
    else received) = after at marked ⊢
  by_cases ended : after.terminatedW = nw
  · rw [if_pos ended]
    exact sound_flush fuel marked
  · rw [if_neg ended]
    exact marked

/-- A run in which each chunk finds room is in bounds. -/
theorem sound_run {tasks : List (List FineChunk × Bool)} {st : Reorder T} (roomy : Roomy cache st)
    (each : EachStep cache fuel nw MakesRoom tasks st) :
    Sound cache (tasks.foldlM (svc cache fuel nw) st) := by
  induction tasks generalizing st with
  | nil => exact roomy
  | cons task rest ih =>
    rw [List.foldlM_cons]
    exact (sound_svc roomy each.1).bind fun next ran roomy' => ih roomy' (each.2 next ran)

/-- There is room for each chunk exactly when each is near enough. -/
theorem eachChunk_congr {chunks : List FineChunk} {st : Reorder T} (roomy : Roomy cache st) :
    EachChunk cache fuel MakesRoom chunks st ↔ EachChunk cache fuel NearEnough chunks st := by
  induction chunks generalizing st with
  | nil => exact Iff.rfl
  | cons chunk rest ih =>
    unfold EachChunk
    rw [← makesRoom_iff roomy]
    refine and_congr_right fun room => forall₂_congr fun next ran => ih ?_
    have sound : Sound cache (receive cache fuel st chunk) := sound_receive roomy room
    rwa [ran] at sound

/-- In a run each chunk finds room exactly when each is near enough. -/
theorem eachStep_congr {tasks : List (List FineChunk × Bool)} {st : Reorder T}
    (roomy : Roomy cache st) :
    EachStep cache fuel nw MakesRoom tasks st ↔ EachStep cache fuel nw NearEnough tasks st := by
  induction tasks generalizing st with
  | nil => exact Iff.rfl
  | cons task rest ih =>
    unfold EachStep
    rw [← eachChunk_congr roomy]
    refine and_congr_right fun each => forall₂_congr fun next ran => ih ?_
    have sound : Sound cache (svc cache fuel nw st task) := sound_svc roomy each
    rwa [ran] at sound

variable (cache) (fuel nw)

/-- A run is in bounds exactly when each chunk arrives less than the length of the array ahead of
its end, with a number of 31 bits. -/
theorem inBounds_iff (tasks : List (List FineChunk × Bool)) :
    InBounds cache fuel nw tasks ↔ EachStep cache fuel nw NearEnough tasks (start cache) := by
  rw [← eachStep_congr roomy_start]
  refine ⟨And.left, fun each => ⟨each, fun failed => ?_⟩⟩
  have sound := sound_run roomy_start each
  rw [failed] at sound
  exact sound rfl

/-- 2049 coarse chunks of one fine chunk each, of which the last arrives first. -/
theorem inBounds_fails : ¬∀ (anchors : List Nat) (tasks : List (List FineChunk × Bool))
    (fuel nw : Nat), (∀ count ∈ anchors, 0 < count) →
      (tasks.flatMap Prod.fst).Perm (complete anchors) → InBounds listCache fuel nw tasks := by
  intro all
  have run := all (List.replicate 2049 1)
    [(⟨⟨2048, 0⟩, true⟩ :: complete (List.replicate 2048 1), true)] 0 1
    (fun count member => by rw [List.eq_of_mem_replicate member]; exact Nat.one_pos)
    (by rw [List.flatMap_singleton, complete_replicate]
        exact (List.perm_append_singleton _ _).symm)
  -- The growth step leaves 2048 entries.
  exact absurd run.1.1.1 (Nat.lt_irrefl 2048)

end Reorder

end P3arsec.Dedup

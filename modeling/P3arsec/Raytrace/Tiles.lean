import P3arsec.Lib.Fold

/-!
# The tiles of a frame

`renderFrame` writes a frame as packets of rays. With one thread it renders the frame as one tile.
With more threads it divides the frame into tiles, and the threads render the tiles with the
numbers below `maxTiles`. The numbers are enough for all tiles, and those beyond the frame write
nothing. But a row has only as many tiles as have room in the frame as a whole, although the test of
the right end provides for a smaller last one (`Frame.agrees_iff`).
-/

namespace P3arsec.Raytrace

open P3arsec.Lib

/-- `PACKET_WIDTH`. -/
def packetWidth : Nat := 8

/-- `PACKET_WIDTH_SHIFT`. -/
def packetWidthShift : Nat := 3

/-- `TILE_WIDTH`. -/
def tileWidth : Nat := 4 * packetWidth

/-- `TILE_WIDTH_SHIFT`. -/
def tileWidthShift : Nat := 5

/-- The result of an operation on `int`, which is not defined where it does not fit. -/
def int (value : Int) : Option Int :=
  if -2 ^ 31 ≤ value ∧ value < 2 ^ 31 then some value else none

/-- A value of `int`. -/
theorem int_some {value : Int} (low : -2 ^ 31 ≤ value) (high : value < 2 ^ 31) :
    int value = some value := if_pos ⟨low, high⟩

/-- A value that is too great for `int`. -/
theorem int_none {value : Int} (high : 2 ^ 31 ≤ value) : int value = none :=
  if_neg fun fits => absurd fits.2 (not_lt.mpr high)

/-- A value that `int` holds is kept. -/
theorem eq_of_int {value result : Int} (defined : int value = some result) :
    result = value ∧ value < 2 ^ 31 := by
  unfold int at defined
  split at defined
  · rename_i fits
    exact ⟨(Option.some.inj defined).symm, fits.2⟩
  · cases defined

/-- The values of a loop of `renderTile` that starts at a value. -/
def steps (value stop : Int) : Option (List Int) :=
  match _ : int (value + packetWidth) with
  | none => none
  | some next => if next ≤ stop then (value :: ·) <$> steps next stop else some []
termination_by (stop - value).toNat
decreasing_by
  rename_i defined room
  obtain ⟨rfl, -⟩ := eq_of_int defined
  unfold packetWidth at room ⊢
  omega

/-- The values of a loop, where the last one that is tested fits. -/
theorem steps_some (value stop : Int) (count : Nat) (low : -2 ^ 31 ≤ value)
    (many : count = ((stop - value) / packetWidth).toNat)
    (fits : value + packetWidth * count + packetWidth < 2 ^ 31) :
    steps value stop = some ((List.range count).map fun i => value + (packetWidth * i : Nat)) := by
  unfold packetWidth at many fits
  induction count generalizing value with
  | zero =>
    have next : int (value + packetWidth) = some (value + 8) :=
      int_some (by unfold packetWidth; omega) (by unfold packetWidth; omega)
    rw [steps, next]
    dsimp only
    rw [if_neg (by omega)]
    rfl
  | succ count ih =>
    have next : int (value + packetWidth) = some (value + 8) :=
      int_some (by unfold packetWidth; omega) (by unfold packetWidth; omega)
    rw [steps, next]
    dsimp only
    rw [if_pos (by omega), ih _ (by omega) (by omega) (by push_cast at fits; omega),
      List.range_succ_eq_map, List.map_cons, List.map_map]
    have shifted : ((fun i : Nat => value + ((packetWidth * i : Nat) : Int)) ∘ Nat.succ) =
        fun i => value + 8 + ((packetWidth * i : Nat) : Int) := by
      funext i
      unfold packetWidth
      simp only [Function.comp_apply]
      omega
    rw [shifted]
    simp

/-- A loop is not defined where the last value that is tested does not fit. -/
theorem steps_none (value stop : Int) (count : Nat)
    (many : count = ((stop - value) / packetWidth).toNat)
    (exceeds : 2 ^ 31 ≤ value + packetWidth * count + packetWidth) :
    steps value stop = none := by
  unfold packetWidth at many exceeds
  induction count generalizing value with
  | zero =>
    have next : int (value + packetWidth) = none :=
      int_none (by unfold packetWidth; omega)
    rw [steps, next]
  | succ count ih =>
    by_cases high : 2 ^ 31 ≤ value + 8
    · have next : int (value + packetWidth) = none := int_none high
      rw [steps, next]
    · by_cases low : -2 ^ 31 ≤ value + 8
      · have next : int (value + packetWidth) = some (value + 8) :=
          int_some low (by unfold packetWidth; omega)
        rw [steps, next]
        dsimp only
        rw [if_pos (by omega), ih _ (by omega) (by push_cast at exceeds; omega)]
        rfl
      · have next : int (value + packetWidth) = none := if_neg fun fits => low fits.1
        rw [steps, next]

/-- `renderTile`: the places of the packets, in the order in which they are written. -/
def renderTile (startX startY endX endY : Int) : Option (List (Int × Int)) := do
  let ys ← steps startY endY
  let rows ← ys.mapM fun y => do
    let xs ← steps startX endX
    some (xs.map fun x => (x, y))
  some rows.flatten

/-- The packets of a tile, where the values of its loops fit. -/
theorem renderTile_some (startX startY endX endY : Int) (columns rows : Nat)
    (lowX : -2 ^ 31 ≤ startX) (lowY : -2 ^ 31 ≤ startY)
    (manyX : columns = ((endX - startX) / packetWidth).toNat)
    (manyY : rows = ((endY - startY) / packetWidth).toNat)
    (fitsX : 0 < rows → startX + packetWidth * columns + packetWidth < 2 ^ 31)
    (fitsY : startY + packetWidth * rows + packetWidth < 2 ^ 31) :
    renderTile startX startY endX endY = some ((List.range rows).flatMap fun j =>
      (List.range columns).map fun i =>
        (startX + (packetWidth * i : Nat), startY + (packetWidth * j : Nat))) := by
  have row : ∀ y ∈ (List.range rows).map fun j => startY + ((packetWidth * j : Nat) : Int),
      ((steps startX endX).bind fun xs => some (xs.map fun x => (x, y))) =
        some ((List.range columns).map fun i => (startX + ((packetWidth * i : Nat) : Int), y)) := by
    intro y member
    have some_ : 0 < rows := by
      obtain ⟨j, inside, -⟩ := List.mem_map.mp member
      have below := List.mem_range.mp inside
      omega
    rw [steps_some _ _ _ lowX manyX (fitsX some_)]
    simp
  unfold renderTile
  rw [steps_some _ _ _ lowY manyY fitsY, Option.bind_eq_bind, Option.bind_some, mapM_eq_map _ row]
  simp [List.flatMap_def, Function.comp_def]

/-- The packets of a tile lie inside of it. -/
theorem mem_renderTile {startX startY endX endY : Int} {packets : List (Int × Int)}
    (defined : renderTile startX startY endX endY = some packets) {packet : Int × Int}
    (member : packet ∈ packets) :
    packet.1 + packetWidth ≤ endX ∧ packet.2 + packetWidth ≤ endY := by
  have inside : ∀ {value stop : Int} {values : List Int}, steps value stop = some values →
      ∀ x ∈ values, x + packetWidth ≤ stop := by
    intro value stop
    fun_induction steps value stop with
    | case1 value none_ =>
      intro values defined
      cases defined
    | case2 value next some_ room ih =>
      intro values defined x found
      obtain ⟨rest, here, rfl⟩ := Option.map_eq_some_iff.mp defined
      rcases List.mem_cons.mp found with rfl | found
      · rw [← (eq_of_int some_).1]
        exact room
      · exact ih here x found
    | case3 value next some_ full =>
      intro values defined x found
      cases defined
      cases found
  unfold renderTile at defined
  obtain ⟨ys, runsY, defined⟩ := Option.bind_eq_some_iff.mp defined
  obtain ⟨rows, runs, same⟩ := Option.bind_eq_some_iff.mp defined
  cases same
  obtain ⟨row, inRow, here⟩ := List.mem_flatten.mp member
  obtain ⟨y, inY, made⟩ := (mem_of_mapM runs).2 row inRow
  obtain ⟨xs, runsX, same⟩ := Option.bind_eq_some_iff.mp made
  cases same
  obtain ⟨x, inX, rfl⟩ := List.mem_map.mp here
  exact ⟨inside runsX x inX, inside runsY y inY⟩

/-- The versions that divide the frame into tiles. -/
inductive Version where
  /-- The task of the threads. -/
  | pthreads
  /-- The loop of FastFlow. -/
  | ff
  /-- The loop of the actors. -/
  | caf
  /-- The loop of Nornir. -/
  | nornir
  deriving DecidableEq, Repr

/-- The begin of a tile is computed with the type of the index, `int`, or a wider one whose value
is then converted. -/
def Version.coord (version : Version) (value : Int) : Option Int :=
  match version with
  | .pthreads | .ff => int value
  | .caf | .nornir => some (value.bmod (2 ^ 32))

/-- A coordinate of `int` is kept in all versions. -/
theorem Version.coord_eq (version : Version) {value : Int} (low : 0 ≤ value)
    (high : value < 2 ^ 31) : version.coord value = some value := by
  cases version with
  | pthreads => exact int_some (by omega) high
  | ff => exact int_some (by omega) high
  | caf => exact congrArg some (Int.bmod_eq_of_le_mul_two (by omega) (by omega))
  | nornir => exact congrArg some (Int.bmod_eq_of_le_mul_two (by omega) (by omega))

/-- The resolution of a frame. -/
structure Frame where
  /-- `resX`. -/
  resX : Nat
  /-- `resY`. -/
  resY : Nat
  /-- There is a column. -/
  posX : 1 ≤ resX
  /-- There is a row. -/
  posY : 1 ≤ resY
  /-- The columns fit an `int`. -/
  intX : resX < 2 ^ 31
  /-- The rows fit an `int`. -/
  intY : resY < 2 ^ 31

namespace Frame

variable (frame : Frame)

/-- `maxTiles`. -/
def maxTiles : Option Int :=
  int ((frame.resX >>> packetWidthShift : Nat) * (frame.resY >>> packetWidthShift : Nat))

/-- The body of the loop over the tiles. -/
def tile (version : Version) (index : Nat) : Option (List (Int × Int)) :=
  let tilesPerRow := frame.resX >>> tileWidthShift
  if tilesPerRow = 0 then none
  else do
    let sx ← version.coord ((index % tilesPerRow * tileWidth : Nat))
    let sy ← version.coord ((index / tilesPerRow * tileWidth : Nat))
    let ex ← int (sx + tileWidth)
    let ey ← int (sy + tileWidth)
    renderTile sx sy (min ex frame.resX) (min ey frame.resY)

/-- The packets of the frame, for an order in which the tiles are rendered. -/
def renderFrame (version : Version) (order : List Nat) : Option (List (Int × Int)) :=
  (order.mapM (frame.tile version)).map List.flatten

/-- The packets of the frame in the version with one thread. -/
def renderSerial : Option (List (Int × Int)) := renderTile 0 0 frame.resX frame.resY

/-- A packet lies inside of the frame. -/
def Inside (packet : Int × Int) : Prop :=
  0 ≤ packet.1 ∧ packet.1 + packetWidth ≤ frame.resX ∧
    0 ≤ packet.2 ∧ packet.2 + packetWidth ≤ frame.resY

/-- All is defined, and for every order of the tiles a version writes the packets that one thread
writes, once, inside of the frame. -/
def Agrees (version : Version) : Prop :=
  ∃ serial, frame.renderSerial = some serial ∧ ∃ maxTiles, frame.maxTiles = some maxTiles ∧
    ∀ order : List Nat, order.Perm (List.range maxTiles.toNat) →
      ∃ packets, frame.renderFrame version order = some packets ∧
        packets.Nodup ∧ (∀ packet, packet ∈ packets ↔ packet ∈ serial) ∧
        ∀ packet ∈ packets, frame.Inside packet

/-- No packet lies outside of the whole tiles: there is no packet, or there is a tile in a row and
less than a packet remains beside the tiles. -/
def Even : Prop :=
  frame.resX < packetWidth ∨ frame.resY < packetWidth ∨
    tileWidth ≤ frame.resX ∧ frame.resX % tileWidth < packetWidth

/-- The values of the loops fit an `int`. -/
def Fits : Prop :=
  packetWidth * (frame.resY / packetWidth) + packetWidth < 2 ^ 31 ∧
    (packetWidth ≤ frame.resY → packetWidth * (frame.resX / packetWidth) + packetWidth < 2 ^ 31) ∧
    frame.resX / packetWidth * (frame.resY / packetWidth) < 2 ^ 31 ∧
    (packetWidth ≤ frame.resX → packetWidth ≤ frame.resY →
      (frame.resX / packetWidth * (frame.resY / packetWidth) - 1) / (frame.resX / tileWidth) *
        tileWidth + tileWidth < 2 ^ 31)

variable {frame : Frame} {version : Version}

/-- The shift divides by the width of a tile. -/
theorem resX_shift : frame.resX >>> tileWidthShift = frame.resX / 32 :=
  Nat.shiftRight_eq_div_pow _ 5

/-- The number of packets of the frame. -/
theorem maxTiles_eq : frame.maxTiles =
    int ((frame.resX / packetWidth * (frame.resY / packetWidth) : Nat)) := by
  unfold maxTiles packetWidthShift packetWidth
  rw [Nat.shiftRight_eq_div_pow, Nat.shiftRight_eq_div_pow]
  push_cast
  rfl

/-- The packets of the frame with one thread. -/
theorem renderSerial_some
    (fitsY : packetWidth * (frame.resY / packetWidth) + packetWidth < 2 ^ 31)
    (fitsX : packetWidth ≤ frame.resY →
      packetWidth * (frame.resX / packetWidth) + packetWidth < 2 ^ 31) :
    frame.renderSerial = some ((List.range (frame.resY / packetWidth)).flatMap fun j =>
      (List.range (frame.resX / packetWidth)).map fun i =>
        (((packetWidth * i : Nat) : Int), ((packetWidth * j : Nat) : Int))) := by
  have defined := renderTile_some 0 0 frame.resX frame.resY (frame.resX / packetWidth)
    (frame.resY / packetWidth)
    (by omega) (by omega) (by unfold packetWidth; omega) (by unfold packetWidth; omega)
    (by unfold packetWidth at fitsX ⊢; omega) (by unfold packetWidth at fitsY ⊢; omega)
  simpa only [renderSerial, zero_add] using defined

/-- A place in the list of the packets with one thread. -/
theorem mem_serial {columns rows : Nat} {packet : Int × Int} :
    packet ∈ ((List.range rows).flatMap fun j => (List.range columns).map fun i =>
      (((packetWidth * i : Nat) : Int), ((packetWidth * j : Nat) : Int))) ↔
    ∃ i < columns, ∃ j < rows,
      packet = (((packetWidth * i : Nat) : Int), ((packetWidth * j : Nat) : Int)) := by
  simp only [List.mem_flatMap, List.mem_map, List.mem_range]
  constructor
  · rintro ⟨j, inY, i, inX, rfl⟩
    exact ⟨i, inX, j, inY, rfl⟩
  · rintro ⟨i, inX, j, inY, rfl⟩
    exact ⟨j, inY, i, inX, rfl⟩

/-- The loops of one thread are defined only where their values fit. -/
theorem fits_of_serial {serial : List (Int × Int)} (defined : frame.renderSerial = some serial) :
    packetWidth * (frame.resY / packetWidth) + packetWidth < 2 ^ 31 ∧
      (packetWidth ≤ frame.resY →
        packetWidth * (frame.resX / packetWidth) + packetWidth < 2 ^ 31) := by
  have fitsY : packetWidth * (frame.resY / packetWidth) + packetWidth < 2 ^ 31 := by
    by_contra exceeds
    have none_ : steps 0 frame.resY = none :=
      steps_none _ _ (frame.resY / packetWidth) (by unfold packetWidth; omega)
        (by unfold packetWidth at exceeds ⊢; omega)
    unfold renderSerial renderTile at defined
    rw [none_] at defined
    cases defined
  refine ⟨fitsY, ?_⟩
  intro row
  by_contra exceeds
  have none_ : steps 0 frame.resX = none :=
    steps_none _ _ (frame.resX / packetWidth) (by unfold packetWidth; omega)
      (by unfold packetWidth at exceeds ⊢; omega)
  have some_ := steps_some 0 frame.resY (frame.resY / packetWidth) (by omega)
    (by unfold packetWidth; omega) (by unfold packetWidth at fitsY ⊢; omega)
  unfold renderSerial renderTile at defined
  rw [some_, none_] at defined
  obtain ⟨ys, same, defined⟩ := Option.bind_eq_some_iff.mp defined
  cases same
  obtain ⟨rows, runs, -⟩ := Option.bind_eq_some_iff.mp defined
  have first : (0 : Int) ∈ (List.range (frame.resY / packetWidth)).map fun i =>
      0 + ((packetWidth * i : Nat) : Int) :=
    List.mem_map.mpr ⟨0, List.mem_range.mpr (by unfold packetWidth at row ⊢; omega), by simp⟩
  obtain ⟨row, -, made⟩ := (mem_of_mapM runs).1 0 first
  cases made

/-- How many rows of packets a tile in a row of tiles has. -/
def tileRows (frame : Frame) (row : Nat) : Nat := min 4 (frame.resY / packetWidth - 4 * row)

/-- The packets of a tile of a frame whose rows are made of whole tiles. -/
def tilePackets (frame : Frame) (index : Nat) : List (Int × Int) :=
  (List.range (frame.tileRows (index / (frame.resX / 32)))).flatMap fun j =>
    (List.range 4).map fun i =>
      (((packetWidth * (4 * (index % (frame.resX / 32)) + i) : Nat) : Int),
        ((packetWidth * (4 * (index / (frame.resX / 32)) + j) : Nat) : Int))

/-- The packets of a tile. -/
theorem mem_tilePackets {index : Nat} {packet : Int × Int} :
    packet ∈ frame.tilePackets index ↔
      ∃ i < 4, ∃ j < frame.tileRows (index / (frame.resX / 32)),
        packet = (((packetWidth * (4 * (index % (frame.resX / 32)) + i) : Nat) : Int),
          ((packetWidth * (4 * (index / (frame.resX / 32)) + j) : Nat) : Int)) := by
  simp only [tilePackets, List.mem_flatMap, List.mem_map, List.mem_range]
  constructor
  · rintro ⟨j, inY, i, inX, rfl⟩
    exact ⟨i, inX, j, inY, rfl⟩
  · rintro ⟨i, inX, j, inY, rfl⟩
    exact ⟨j, inY, i, inX, rfl⟩

/-- The packets of a tile are different. -/
theorem nodup_tilePackets (index : Nat) : (frame.tilePackets index).Nodup := by
  unfold tilePackets packetWidth
  refine List.nodup_flatMap.mpr ⟨?_, ?_⟩
  · intro j _
    refine List.Nodup.map ?_ List.nodup_range
    intro i other same
    simp only [Prod.mk.injEq, Nat.cast_inj] at same
    omega
  · refine List.Pairwise.imp ?_ List.pairwise_lt_range
    intro j other less packet here there
    obtain ⟨i, -, rfl⟩ := List.mem_map.mp here
    obtain ⟨i', -, same⟩ := List.mem_map.mp there
    simp only [Prod.mk.injEq, Nat.cast_inj] at same
    omega

/-- The packets of two tiles are apart. -/
theorem disjoint_tilePackets {index other : Nat} (distinct : index ≠ other) :
    List.Disjoint (frame.tilePackets index) (frame.tilePackets other) := by
  intro packet here there
  obtain ⟨i, inX, j, inY, rfl⟩ := mem_tilePackets.mp here
  obtain ⟨i', inX', j', inY', same⟩ := mem_tilePackets.mp there
  simp only [Prod.mk.injEq, Nat.cast_inj, packetWidth] at same
  unfold tileRows at inY inY'
  have column : index % (frame.resX / 32) = other % (frame.resX / 32) := by omega
  have row : index / (frame.resX / 32) = other / (frame.resX / 32) := by omega
  apply distinct
  rw [← Nat.div_add_mod index (frame.resX / 32), column, row, Nat.div_add_mod]

/-- A tile of a frame whose rows are made of whole tiles. -/
theorem tile_some (fits : frame.Fits) (wide : tileWidth ≤ frame.resX)
    (high : packetWidth ≤ frame.resY) {index : Nat}
    (known : index < frame.resX / packetWidth * (frame.resY / packetWidth)) :
    frame.tile version index = some (frame.tilePackets index) := by
  obtain ⟨fitsY, fitsX, -, fitsTile⟩ := fits
  have fitsX := fitsX high
  have fitsTile := fitsTile (le_trans (by decide) wide) high
  have order : index / (frame.resX / 32) ≤
      (frame.resX / packetWidth * (frame.resY / packetWidth) - 1) / (frame.resX / 32) :=
    Nat.div_le_div_right (by omega)
  have widths : tileWidth = 32 := rfl
  rw [widths] at fitsTile wide
  have column : index % (frame.resX / 32) < frame.resX / 32 := Nat.mod_lt _ (by omega)
  unfold packetWidth at fitsX fitsY high order fitsTile
  have startX : version.coord ((index % (frame.resX / 32) * tileWidth : Nat)) =
      some ((index % (frame.resX / 32) * tileWidth : Nat) : Int) :=
    version.coord_eq (by omega) (by rw [widths]; omega)
  have startY : version.coord ((index / (frame.resX / 32) * tileWidth : Nat)) =
      some ((index / (frame.resX / 32) * tileWidth : Nat) : Int) :=
    version.coord_eq (by omega) (by rw [widths]; omega)
  have endX : int (((index % (frame.resX / 32) * tileWidth : Nat) : Int) + tileWidth) =
      some (((index % (frame.resX / 32) * tileWidth : Nat) : Int) + tileWidth) :=
    int_some (by omega) (by rw [widths]; omega)
  have endY : int (((index / (frame.resX / 32) * tileWidth : Nat) : Int) + tileWidth) =
      some (((index / (frame.resX / 32) * tileWidth : Nat) : Int) + tileWidth) :=
    int_some (by omega) (by rw [widths]; omega)
  unfold tile
  rw [resX_shift]
  dsimp only
  rw [if_neg (by omega), startX, Option.bind_eq_bind, Option.bind_some, startY, Option.bind_some,
    endX, Option.bind_some, endY, Option.bind_some,
    renderTile_some _ _ _ _ 4 (frame.tileRows (index / (frame.resX / 32)))
    (by omega) (by omega) (by rw [widths]; unfold packetWidth; omega)
    (by rw [widths]; unfold tileRows packetWidth; omega)
    (by rw [widths]; unfold packetWidth; omega)
    (by rw [widths]; unfold tileRows packetWidth; omega)]
  have place : ∀ i j : Nat,
      (((index % (frame.resX / 32) * tileWidth : Nat) : Int) + (packetWidth * i : Nat),
        ((index / (frame.resX / 32) * tileWidth : Nat) : Int) + (packetWidth * j : Nat)) =
      (((packetWidth * (4 * (index % (frame.resX / 32)) + i) : Nat) : Int),
        ((packetWidth * (4 * (index / (frame.resX / 32)) + j) : Nat) : Int)) := by
    intro i j
    rw [widths, Prod.mk.injEq]
    unfold packetWidth
    omega
  simp only [place, tilePackets]

/-- In a frame whose rows are made of whole tiles every order of the tiles writes the packets of
one thread. -/
theorem agrees_of_even (even_ : frame.Even) (fits : frame.Fits) : frame.Agrees version := by
  have shape := fits
  obtain ⟨fitsY, fitsX, fitsTiles, -⟩ := shape
  refine ⟨_, renderSerial_some fitsY fitsX, _, maxTiles_eq.trans (int_some (by omega)
    (by exact_mod_cast fitsTiles)), ?_⟩
  intro order every
  rw [Int.toNat_natCast] at every
  by_cases empty : frame.resX < packetWidth ∨ frame.resY < packetWidth
  · have none_ : frame.resX / packetWidth * (frame.resY / packetWidth) = 0 := by
      rcases empty with narrow | flat
      · rw [Nat.div_eq_of_lt narrow, Nat.zero_mul]
      · rw [Nat.div_eq_of_lt flat, Nat.mul_zero]
    rw [none_, List.range_zero] at every
    rw [List.Perm.eq_nil every]
    refine ⟨[], rfl, List.nodup_nil, ?_, by simp⟩
    intro packet
    rw [mem_serial]
    constructor
    · intro member
      cases member
    · rintro ⟨i, inX, j, inY, -⟩
      have some_ : 0 < frame.resX / packetWidth * (frame.resY / packetWidth) :=
        Nat.mul_pos (by omega) (by omega)
      omega
  push Not at empty
  obtain ⟨wide, rest⟩ : tileWidth ≤ frame.resX ∧ frame.resX % tileWidth < packetWidth := by
    rcases even_ with narrow | flat | both
    · omega
    · omega
    · exact both
  have all : ∀ index ∈ order, frame.tile version index = some (frame.tilePackets index) :=
    fun index member => tile_some fits wide empty.2 (List.mem_range.mp (every.mem_iff.mp member))
  refine ⟨(order.map frame.tilePackets).flatten, ?_, ?_, ?_, ?_⟩
  · unfold renderFrame
    rw [mapM_eq_map _ all]
    rfl
  · rw [← List.flatMap_def]
    refine List.nodup_flatMap.mpr ⟨fun index _ => nodup_tilePackets index, ?_⟩
    exact (every.nodup_iff.mpr List.nodup_range).imp fun distinct => disjoint_tilePackets distinct
  · intro packet
    rw [← List.flatMap_def, List.mem_flatMap, mem_serial]
    have widths : tileWidth = 32 := rfl
    rw [widths] at wide rest
    constructor
    · rintro ⟨index, member, here⟩
      obtain ⟨i, inX, j, inY, rfl⟩ := mem_tilePackets.mp here
      have column : index % (frame.resX / 32) < frame.resX / 32 := Nat.mod_lt _ (by omega)
      unfold tileRows at inY
      exact ⟨_, by unfold packetWidth; omega, _, by omega, rfl⟩
    · rintro ⟨i, inX, j, inY, rfl⟩
      have positive : 0 < frame.resX / 32 := by omega
      have column : i / 4 < frame.resX / 32 := by
        unfold packetWidth at inX rest
        omega
      have modulo : (j / 4 * (frame.resX / 32) + i / 4) % (frame.resX / 32) = i / 4 := by
        rw [Nat.mul_comm, Nat.mul_add_mod, Nat.mod_eq_of_lt column]
      have quotient : (j / 4 * (frame.resX / 32) + i / 4) / (frame.resX / 32) = j / 4 := by
        rw [Nat.mul_comm, Nat.mul_add_div positive, Nat.div_eq_of_lt column, Nat.add_zero]
      have known : j / 4 * (frame.resX / 32) + i / 4 <
          frame.resX / packetWidth * (frame.resY / packetWidth) := by
        calc j / 4 * (frame.resX / 32) + i / 4 < (j / 4 + 1) * (frame.resX / 32) := by
              rw [Nat.add_mul]
              omega
          _ ≤ frame.resY / packetWidth * (frame.resX / packetWidth) :=
              Nat.mul_le_mul (by omega) (by unfold packetWidth; omega)
          _ = _ := Nat.mul_comm _ _
      refine ⟨_, every.mem_iff.mpr (List.mem_range.mpr known), mem_tilePackets.mpr ?_⟩
      rw [modulo, quotient]
      refine ⟨i % 4, Nat.mod_lt _ (by decide), j % 4, by unfold tileRows; omega, ?_⟩
      rw [Nat.div_add_mod, Nat.div_add_mod]
  · intro packet member
    rw [← List.flatMap_def, List.mem_flatMap] at member
    obtain ⟨index, known, here⟩ := member
    obtain ⟨i, inX, j, inY, rfl⟩ := mem_tilePackets.mp here
    have widths : tileWidth = 32 := rfl
    rw [widths] at wide
    have column : index % (frame.resX / 32) < frame.resX / 32 := Nat.mod_lt _ (by omega)
    unfold tileRows at inY
    unfold Inside
    unfold packetWidth at inY ⊢
    omega

/-- A version that agrees renders all tiles, and finds each packet of one thread in one. -/
theorem covers_of_agrees (agrees : frame.Agrees version) {index : Nat}
    (known : index < frame.resX / packetWidth * (frame.resY / packetWidth)) :
    (∃ packets, frame.tile version index = some packets) ∧
      ∀ i < frame.resX / packetWidth, ∀ j < frame.resY / packetWidth,
        ∃ other packets, frame.tile version other = some packets ∧
          (((packetWidth * i : Nat) : Int), ((packetWidth * j : Nat) : Int)) ∈ packets := by
  obtain ⟨serial, single, maxTiles, count, all⟩ := agrees
  obtain ⟨fitsY, fitsX⟩ := fits_of_serial single
  rw [renderSerial_some fitsY fitsX] at single
  cases single
  rw [maxTiles_eq] at count
  obtain ⟨rfl, -⟩ := eq_of_int count
  obtain ⟨packets, defined, -, same, -⟩ := all _ (List.Perm.refl _)
  obtain ⟨tiles, runs, rfl⟩ := Option.map_eq_some_iff.mp defined
  obtain ⟨forth, back⟩ := mem_of_mapM runs
  rw [Int.toNat_natCast] at forth
  refine ⟨?_, ?_⟩
  · obtain ⟨packets, -, here⟩ := forth index (List.mem_range.mpr known)
    exact ⟨packets, here⟩
  · intro i inX j inY
    have member := (same _).mpr (mem_serial.mpr ⟨i, inX, j, inY, rfl⟩)
    obtain ⟨tile, found, inside⟩ := List.mem_flatten.mp member
    obtain ⟨other, -, here⟩ := back tile found
    exact ⟨other, tile, here, inside⟩

/-- A tile that is defined lies in the whole tiles of the rows, and its end fits. -/
theorem tile_inside {index : Nat} {packets : List (Int × Int)}
    (defined : frame.tile version index = some packets) :
    tileWidth ≤ frame.resX ∧
      (∀ packet ∈ packets, packet.1 + packetWidth ≤ (frame.resX / tileWidth * tileWidth : Nat)) ∧
      ∀ sy, version.coord ((index / (frame.resX / tileWidth) * tileWidth : Nat)) = some sy →
        sy + tileWidth < 2 ^ 31 := by
  unfold tile at defined
  rw [resX_shift] at defined
  dsimp only at defined
  split at defined
  · cases defined
  rename_i tiles
  have column : index % (frame.resX / 32) < frame.resX / 32 := Nat.mod_lt _ (by omega)
  have bounded := frame.intX
  have startX : version.coord ((index % (frame.resX / 32) * tileWidth : Nat)) =
      some ((index % (frame.resX / 32) * tileWidth : Nat) : Int) :=
    version.coord_eq (by omega) (by unfold tileWidth packetWidth; omega)
  rw [startX] at defined
  obtain ⟨sx, same, defined⟩ := Option.bind_eq_some_iff.mp defined
  cases same
  obtain ⟨sy, startY, defined⟩ := Option.bind_eq_some_iff.mp defined
  obtain ⟨ex, endX, defined⟩ := Option.bind_eq_some_iff.mp defined
  obtain ⟨ey, endY, defined⟩ := Option.bind_eq_some_iff.mp defined
  obtain ⟨rfl, -⟩ := eq_of_int endX
  obtain ⟨rfl, fits⟩ := eq_of_int endY
  have widths : tileWidth = 32 := rfl
  rw [widths] at fits defined ⊢
  refine ⟨by omega, ?_, ?_⟩
  · intro packet member
    have inside := (mem_renderTile defined member).1
    omega
  · intro sy' again
    have startY : version.coord ((index / (frame.resX / 32) * 32 : Nat)) = some sy := startY
    rw [startY] at again
    cases again
    exact fits

/-- Every version writes the packets of one thread, for every order of the tiles, once and inside of
the frame, and all values are defined, exactly where the rows are made of whole tiles and the values
fit. -/
theorem agrees_iff (frame : Frame) (version : Version) :
    frame.Agrees version ↔ frame.Even ∧ frame.Fits := by
  refine ⟨?_, fun both => agrees_of_even both.1 both.2⟩
  intro agrees
  have whole := agrees
  obtain ⟨serial, single, maxTiles, count, -⟩ := whole
  obtain ⟨fitsY, fitsX⟩ := fits_of_serial single
  rw [maxTiles_eq] at count
  obtain ⟨rfl, fitsTiles⟩ := eq_of_int count
  have widths : tileWidth = 32 := rfl
  have even_ : frame.Even := by
    by_contra odd
    unfold Even at odd
    rw [widths] at odd
    unfold packetWidth at odd
    have known : 0 < frame.resX / packetWidth * (frame.resY / packetWidth) :=
      Nat.mul_pos (by unfold packetWidth; omega) (by unfold packetWidth; omega)
    obtain ⟨⟨packets, here⟩, found⟩ := covers_of_agrees agrees known
    have wide := (tile_inside here).1
    rw [widths] at wide
    -- the first packet beside the whole tiles
    obtain ⟨other, packets, here, member⟩ := found (frame.resX / 32 * 4)
      (by unfold packetWidth; omega) 0 (by unfold packetWidth; omega)
    have inside := (tile_inside here).2.1 _ member
    rw [widths] at inside
    unfold packetWidth at inside
    omega
  refine ⟨even_, fitsY, fitsX, by exact_mod_cast fitsTiles, ?_⟩
  intro wide high
  by_contra exceeds
  have known : 0 < frame.resX / packetWidth * (frame.resY / packetWidth) :=
    Nat.mul_pos (Nat.div_pos wide (by decide)) (Nat.div_pos high (by decide))
  have tiles : 32 ≤ frame.resX := by
    obtain ⟨⟨packets, here⟩, -⟩ := covers_of_agrees agrees known
    exact (tile_inside here).1
  rw [widths] at exceeds
  -- the tile whose end is the first value that does not fit
  have early : frame.resX / 32 * (2 ^ 26 - 1) <
      frame.resX / packetWidth * (frame.resY / packetWidth) := by
    have before : 2 ^ 26 - 1 ≤
        (frame.resX / packetWidth * (frame.resY / packetWidth) - 1) / (frame.resX / 32) := by omega
    have least := Nat.mul_div_le
      (frame.resX / packetWidth * (frame.resY / packetWidth) - 1) (frame.resX / 32)
    have times := Nat.mul_le_mul_left (frame.resX / 32) before
    omega
  obtain ⟨⟨packets, here⟩, -⟩ := covers_of_agrees agrees early
  have fits := (tile_inside here).2.2
  rw [widths, Nat.mul_div_cancel_left _ (by omega)] at fits
  have below := fits _ (version.coord_eq (by omega) (by norm_num))
  norm_num at below

/-- One packet more than the whole tile of the row. -/
def beside : Frame := ⟨40, 8, by decide, by decide, by decide, by decide⟩

/-- No version agrees on a frame that is not as wide as its tiles. -/
theorem beside_disagrees : ¬∃ version, beside.Agrees version := by
  rintro ⟨version, agrees⟩
  obtain ⟨-, found⟩ := covers_of_agrees agrees
    (show 0 < beside.resX / packetWidth * (beside.resY / packetWidth) by decide)
  obtain ⟨other, packets, here, member⟩ := found 4 (by decide) 0 (by decide)
  have inside := (tile_inside here).2.1 _ member
  revert inside
  decide

end Frame

end P3arsec.Raytrace

import Mathlib.Order.Lattice

/-!
# Saturating cursor

An outer join reads its right input through a cursor that pretends that every key
absent from it holds the one value `V::default()` with weight 1. The cursor stands on a
ghost key then and remembers in a flag whether its only value is visible. The plain
cursor over the saturated collection says what every move should do to that value.
-/

namespace OpenDera.Trace

/-- A value with its times and weights. -/
abbrev Timed (V T : Type*) := V × List (T × ℤ)

/-- Moves among the values of the current key in the direction of travel: `step` is
`step_val`, or `step_val_reverse` once `fast_forward_vals` has turned the cursor round. -/
inductive ValueMove (V : Type*) where
  | step
  | seek (value : V)
  | seekWith (predicate : V → Bool)
  | rewind
  | fastForward

/-- A plain cursor over the values of one key: all of them in ascending order, the
direction of travel and the values that lie ahead. -/
structure ValueCursor (V T : Type*) where
  values : List (Timed V T)
  reverse : Bool
  ahead : List (Timed V T)

namespace ValueCursor

variable {V T : Type*} [LinearOrder V]

/-- The position on the first value of a key. -/
def start (values : List (Timed V T)) : ValueCursor V T := ⟨values, false, values⟩

variable (cursor : ValueCursor V T)

/-- In the direction of travel, `value` comes before `bound`. -/
def precedes (value bound : V) : Bool := if cursor.reverse then bound < value else value < bound

def move : ValueMove V → ValueCursor V T
  | .step => { cursor with ahead := cursor.ahead.tail }
  | .seek bound =>
    { cursor with ahead := cursor.ahead.dropWhile fun timed => cursor.precedes timed.1 bound }
  | .seekWith predicate =>
    { cursor with ahead := cursor.ahead.dropWhile fun timed => !predicate timed.1 }
  | .rewind => start cursor.values
  | .fastForward => ⟨cursor.values, true, cursor.values.reverse⟩

end ValueCursor

/-- A cursor over a collection, used through `seek_key_exact` and value moves. `Ready`
lists the keys that may be sought next: those past the key sought last. Where a cursor
stands after a key was not found is left open. -/
structure BatchCursor (C K V T : Type*) [LinearOrder K] [LinearOrder V] where
  contents : K → List (Timed V T)
  initial : C
  keyValid : C → Bool
  key : C → K
  view : C → ValueCursor V T
  move : C → ValueMove V → C
  seekKeyExact : C → K → Bool × C
  Ready : C → K → Prop
  ready_initial : ∀ key, Ready initial key
  key_move : ∀ cursor made, key (move cursor made) = key cursor
  view_move : ∀ cursor made, view (move cursor made) = (view cursor).move made
  ready_move : ∀ cursor made next, Ready cursor next → Ready (move cursor made) next
  seek_found : ∀ cursor sought, Ready cursor sought →
    ((seekKeyExact cursor sought).1 ↔ contents sought ≠ [])
  seek_key : ∀ cursor sought, Ready cursor sought → contents sought ≠ [] →
    key (seekKeyExact cursor sought).2 = sought
  seek_view : ∀ cursor sought, Ready cursor sought → contents sought ≠ [] →
    view (seekKeyExact cursor sought).2 = .start (contents sought)
  seek_ready : ∀ cursor sought, Ready cursor sought → ∀ next, sought < next →
    Ready (seekKeyExact cursor sought).2 next

/-- The underlying cursor, whether it stands on a ghost key and on which one, and whether
the ghost value is visible. -/
structure SaturatingCursor (C K : Type*) where
  saturate : Bool
  cursor : C
  onGhostKey : Bool
  ghostKey : K
  ghostValValid : Bool

/-- The plain cursor over the saturated collection: its key and the values there. -/
structure PlainCursor (K V T : Type*) where
  key : K
  values : ValueCursor V T

/-- A search for a key or a move among its values. -/
inductive CursorEvent (K V : Type*) where
  | seek (key : K)
  | move (made : ValueMove V)

/-- Each key sought is greater than the previous one. -/
def Permitted {K V : Type*} [LT K] : K → List (CursorEvent K V) → Prop
  | _, [] => True
  | last, .seek key :: events => last < key ∧ Permitted key events
  | last, .move _ :: events => Permitted last events

variable {C K V T : Type*} [LinearOrder K] [LinearOrder V] [Inhabited V] [Inhabited T]
  (batch : BatchCursor C K V T)

/-- The value of every absent key: the default with weight 1 at the default time. -/
def ghostVal : Timed V T := (default, [(default, 1)])

namespace SaturatingCursor

def new [Inhabited K] (saturate : Bool) : SaturatingCursor C K where
  saturate := saturate
  cursor := batch.initial
  onGhostKey := if saturate then !batch.keyValid batch.initial else false
  ghostKey := default
  ghostValValid := false

variable (saturating : SaturatingCursor C K)

def seekKeyExact (key : K) : Bool × SaturatingCursor C K :=
  let sought := batch.seekKeyExact saturating.cursor key
  if sought.1 then
    (true, { saturating with cursor := sought.2, onGhostKey := false })
  else if saturating.saturate then
    (true, { saturating with
      cursor := sought.2, ghostKey := key, onGhostKey := true, ghostValValid := true })
  else
    (false, { saturating with cursor := sought.2 })

def move (made : ValueMove V) : SaturatingCursor C K :=
  if saturating.onGhostKey then
    match made with
    | .step => { saturating with ghostValValid := false }
    | .seek value => { saturating with ghostValValid := value == default }
    | .seekWith predicate => { saturating with ghostValValid := predicate default }
    | .rewind => { saturating with ghostValValid := true }
    | .fastForward => { saturating with ghostValValid := true }
  else
    { saturating with cursor := batch.move saturating.cursor made }

def apply : CursorEvent K V → SaturatingCursor C K
  | .seek key => (saturating.seekKeyExact batch key).2
  | .move made => saturating.move batch made

/-- The key and the visible value with its times and weights. -/
def observe : K × Option (Timed V T) :=
  if saturating.onGhostKey then
    (saturating.ghostKey, if saturating.ghostValValid then some ghostVal else none)
  else
    (batch.key saturating.cursor, (batch.view saturating.cursor).ahead.head?)

end SaturatingCursor

namespace PlainCursor

variable (plain : PlainCursor K V T)

/-- The first value of a key in the collection in which every absent key holds the ghost value. -/
def seek (key : K) : PlainCursor K V T :=
  ⟨key, .start (if batch.contents key = [] then [ghostVal] else batch.contents key)⟩

def apply : CursorEvent K V → PlainCursor K V T
  | .seek key => seek batch key
  | .move made => { plain with values := plain.values.move made }

def observe : K × Option (Timed V T) := (plain.key, plain.values.ahead.head?)

/-- On an absent key, a search for a value finds the default exactly if it is that value,
and does not return to it. -/
def Harmless : CursorEvent K V → Prop
  | .move (.seek value) => batch.contents plain.key = [] →
    if value = default then plain.values.ahead ≠ []
    else plain.values.ahead ≠ [] → plain.values.precedes default value
  | .move (.seekWith predicate) => batch.contents plain.key = [] →
    predicate default → plain.values.ahead ≠ []
  | _ => True

end PlainCursor

/-- The two cursors show the same now and after each of the events. -/
def Indistinguishable (saturating : SaturatingCursor C K) (plain : PlainCursor K V T) :
    List (CursorEvent K V) → Prop
  | [] => saturating.observe batch = plain.observe
  | event :: events => saturating.observe batch = plain.observe ∧
    Indistinguishable (saturating.apply batch event) (plain.apply batch event) events

/-- Every event is harmless where it happens. -/
def AllHarmless (plain : PlainCursor K V T) : List (CursorEvent K V) → Prop
  | [] => True
  | event :: events => plain.Harmless batch event ∧ AllHarmless (plain.apply batch event) events

/-- What the two cursors have in common while they agree. -/
structure Matches (saturating : SaturatingCursor C K) (plain : PlainCursor K V T) : Prop where
  saturate : saturating.saturate = true
  ready : ∀ next, plain.key < next → batch.Ready saturating.cursor next
  absent : saturating.onGhostKey = true ↔ batch.contents plain.key = []
  ghost : saturating.onGhostKey = true → saturating.ghostKey = plain.key ∧
    plain.values.values = [ghostVal] ∧
    plain.values.ahead = if saturating.ghostValValid then [ghostVal] else []
  real : saturating.onGhostKey = false → batch.key saturating.cursor = plain.key ∧
    batch.view saturating.cursor = plain.values

variable {batch} {saturating : SaturatingCursor C K} {plain : PlainCursor K V T}

theorem Matches.observe_eq (agree : Matches batch saturating plain) :
    saturating.observe batch = plain.observe := by
  unfold SaturatingCursor.observe PlainCursor.observe
  split
  case isTrue ghost =>
    obtain ⟨key, -, ahead⟩ := agree.ghost ghost
    rw [key, ahead]
    split <;> rfl
  case isFalse real =>
    obtain ⟨key, view⟩ := agree.real (Bool.eq_false_iff.mpr real)
    rw [key, view]

/-- A search for a key makes the cursors agree. -/
theorem matches_seek (saturate : saturating.saturate = true) {key : K}
    (ready : batch.Ready saturating.cursor key) :
    Matches batch (saturating.seekKeyExact batch key).2 (.seek batch key) := by
  have found := batch.seek_found _ _ ready
  have later := batch.seek_ready _ _ ready
  unfold SaturatingCursor.seekKeyExact
  by_cases present : batch.contents key = []
  · have missing : (batch.seekKeyExact saturating.cursor key).1 = false := by simpa [present] using found
    simp only [missing, saturate, if_true, Bool.false_eq_true, if_false]
    exact ⟨rfl, later, by simp [PlainCursor.seek, present],
      fun _ => by simp [PlainCursor.seek, present, ValueCursor.start], nofun⟩
  · have hit := found.mpr present
    simp only [hit, if_true]
    refine ⟨saturate, later, by simp [PlainCursor.seek, present], nofun, fun _ => ?_⟩
    refine ⟨batch.seek_key _ _ ready present, ?_⟩
    rw [batch.seek_view _ _ ready present, PlainCursor.seek, if_neg present]

/-- Whether a plain cursor over the ghost value shows it after a move. -/
def ValueCursor.showsGhost (cursor : ValueCursor V T) (valid : Bool) : ValueMove V → Bool
  | .step => false
  | .seek value => valid && !cursor.precedes default value
  | .seekWith predicate => valid && predicate default
  | .rewind => true
  | .fastForward => true

theorem ValueCursor.move_ghost {cursor : ValueCursor V T} (values : cursor.values = [ghostVal])
    {valid : Bool} (ahead : cursor.ahead = if valid then [ghostVal] else []) (made : ValueMove V) :
    (cursor.move made).values = [ghostVal] ∧
      (cursor.move made).ahead = if cursor.showsGhost valid made then [ghostVal] else [] := by
  cases valid with
  | false => cases made <;> simp_all [move, showsGhost, start]
  | true =>
    cases made with
    | seek value =>
      cases passed : cursor.precedes default value <;>
        simp_all [move, showsGhost, ghostVal]
    | seekWith predicate =>
      cases found : predicate default <;> simp_all [move, showsGhost, ghostVal]
    | _ => simp_all [move, showsGhost, start]

attribute [local simp] PlainCursor.Harmless SaturatingCursor.move ValueCursor.showsGhost in
/-- The ghost value is shown after a move as it should exactly if the move is harmless. -/
theorem Matches.harmless_iff (agree : Matches batch saturating plain)
    (ghost : saturating.onGhostKey = true) (made : ValueMove V) :
    plain.Harmless batch (.move made) ↔ (saturating.move batch made).ghostValValid
      = plain.values.showsGhost saturating.ghostValValid made := by
  obtain ⟨-, -, ahead⟩ := agree.ghost ghost
  have absent := agree.absent.mp ghost
  cases made with
  | seek value =>
    simp only [PlainCursor.Harmless, absent, ahead, SaturatingCursor.move, ghost,
      ValueCursor.showsGhost]
    by_cases same : value = default
    · simp [same, ValueCursor.precedes]
    · have other : (value == default) = false := beq_false_of_ne same
      cases saturating.ghostValValid <;> simp [same, other]
  | seekWith predicate =>
    simp [absent, ahead, ghost]
  | _ => simp [ghost]

omit [Inhabited T] in
theorem SaturatingCursor.move_ghost (ghost : saturating.onGhostKey = true) (made : ValueMove V) :
    saturating.move batch made = { saturating with
      ghostValValid := (saturating.move batch made).ghostValValid } := by
  unfold move
  rw [if_pos ghost]
  cases made <;> rfl

/-- After a harmless move the cursors still agree; after any other one they differ. -/
theorem Matches.move (agree : Matches batch saturating plain) (made : ValueMove V) :
    (plain.Harmless batch (.move made) →
      Matches batch (saturating.move batch made) (plain.apply batch (.move made))) ∧
    ((saturating.move batch made).observe batch = (plain.apply batch (.move made)).observe →
      plain.Harmless batch (.move made)) := by
  cases ghost : saturating.onGhostKey with
  | false =>
    obtain ⟨key, view⟩ := agree.real ghost
    have present : batch.contents plain.key ≠ [] := by
      intro absent
      simp [agree.absent.mpr absent] at ghost
    have moved : saturating.move batch made
        = { saturating with cursor := batch.move saturating.cursor made } := by
      simp [SaturatingCursor.move, ghost]
    refine ⟨fun _ => ?_, fun _ => by cases made <;> simp [PlainCursor.Harmless, present]⟩
    rw [moved]
    refine ⟨agree.saturate, fun next later => batch.ready_move _ _ _ (agree.ready next later),
      agree.absent, fun stands => ?_, fun _ => ⟨(batch.key_move _ _).trans key, ?_⟩⟩
    · simp [ghost] at stands
    · rw [batch.view_move, view]
      rfl
  | true =>
    obtain ⟨key, values, ahead⟩ := agree.ghost ghost
    obtain ⟨valuesMoved, aheadMoved⟩ := plain.values.move_ghost values ahead made
    rw [agree.harmless_iff ghost, SaturatingCursor.move_ghost ghost]
    refine ⟨fun shows => ⟨agree.saturate, agree.ready, agree.absent, fun _ => ⟨key, valuesMoved, ?_⟩,
      fun real => ?_⟩, fun same => ?_⟩
    · rw [shows]
      exact aheadMoved
    · simp [ghost] at real
    · have shown := congrArg Prod.snd same
      simp only [SaturatingCursor.observe, ghost, if_true, PlainCursor.observe, PlainCursor.apply,
        aheadMoved] at shown
      generalize (saturating.move batch made).ghostValValid = valid at shown ⊢
      generalize plain.values.showsGhost saturating.ghostValValid made = shows at shown ⊢
      cases valid <;> cases shows <;> simp_all

/-- While the cursors agree, they stay indistinguishable exactly if every move is harmless. -/
theorem Matches.indistinguishable_iff {events : List (CursorEvent K V)}
    (agree : Matches batch saturating plain) (permitted : Permitted plain.key events) :
    Indistinguishable batch saturating plain events ↔ AllHarmless batch plain events := by
  induction events generalizing saturating plain with
  | nil => exact iff_of_true agree.observe_eq trivial
  | cons event events ih =>
    rw [Indistinguishable, AllHarmless, and_iff_right agree.observe_eq]
    cases event with
    | seek key =>
      have sought := matches_seek agree.saturate (agree.ready key permitted.1)
      exact (ih sought permitted.2).trans (and_iff_right trivial).symm
    | move made =>
      obtain ⟨keeps, shown⟩ := agree.move made
      refine ⟨fun same => ?_, fun ⟨harmless, later⟩ => (ih (keeps harmless) permitted).mpr later⟩
      have harmless := shown (by cases events with
        | nil => exact same
        | cons => exact same.1)
      exact ⟨harmless, (ih (keeps harmless) permitted).mp same⟩

/-- A saturating cursor finds every key and is then a cursor over the saturated collection
exactly as long as no search among the values of an absent key moves past the default
before its place or returns to it. -/
theorem saturating_indistinguishable_iff [Inhabited K] (key : K) (events : List (CursorEvent K V))
    (permitted : Permitted key events) :
    let sought := (SaturatingCursor.new batch true).seekKeyExact batch key
    sought.1 = true ∧
      (Indistinguishable batch sought.2 (.seek batch key) events ↔
        AllHarmless batch (.seek batch key) events) := by
  refine ⟨?_, (matches_seek rfl (batch.ready_initial key)).indistinguishable_iff permitted⟩
  simp only [SaturatingCursor.seekKeyExact, SaturatingCursor.new, if_true]
  split <;> rfl

/-- A cursor over the given values of every key. -/
def BatchCursor.ofContents [Inhabited K] (contents : K → List (Timed V T)) :
    BatchCursor (PlainCursor K V T) K V T where
  contents := contents
  initial := ⟨default, .start []⟩
  keyValid _ := false
  key cursor := cursor.key
  view cursor := cursor.values
  move cursor made := { cursor with values := cursor.values.move made }
  seekKeyExact _ key := (!(contents key).isEmpty, ⟨key, .start (contents key)⟩)
  Ready _ _ := True
  ready_initial _ := trivial
  key_move _ _ := rfl
  view_move _ _ := rfl
  ready_move _ _ _ _ := trivial
  seek_found _ _ _ := by simp
  seek_key _ _ _ _ := rfl
  seek_view _ _ _ _ := rfl
  seek_ready _ _ _ _ _ := trivial

/-- A cursor over the values 1 and 2 of key 5. -/
def keyFive : BatchCursor (PlainCursor ℤ ℤ Unit) ℤ ℤ Unit :=
  .ofContents fun key => if key = 5 then [(1, [((), 1)]), (2, [((), -3)])] else []

/-- Past the values of key 5, to the absent key 7 and its default from either side, and to the
absent key 9 until a search passes its default. -/
def walk : List (CursorEvent ℤ ℤ) :=
  [.move (.seek 2), .move .step, .seek 7, .move .step, .move .fastForward,
    .move (.seekWith (· < 1)), .seek 9, .move (.seek 0), .move (.seek 4)]

/-- All of the walk is harmless. -/
theorem saturating_indistinguishable_walk : Permitted 5 walk ∧
    Indistinguishable keyFive ((SaturatingCursor.new keyFive true).seekKeyExact keyFive 5).2
      (.seek keyFive 5) walk := by
  have permitted : Permitted 5 walk := by simp [walk, Permitted]
  refine ⟨permitted, (saturating_indistinguishable_iff 5 walk permitted).2.mpr ?_⟩
  simp +decide [walk, AllHarmless, PlainCursor.Harmless, PlainCursor.seek, ValueCursor.move,
    ValueCursor.start, ValueCursor.precedes, keyFive, BatchCursor.ofContents]

/-- A cursor over the empty collection. -/
def emptyBatch : BatchCursor (PlainCursor ℤ ℤ Unit) ℤ ℤ Unit :=
  .ofContents fun _ => []

/-- A search for -1 among the values of an absent key passes over the default 0. -/
theorem not_indistinguishable_seek_below :
    ¬Indistinguishable emptyBatch ((SaturatingCursor.new emptyBatch true).seekKeyExact emptyBatch 5).2
      (.seek emptyBatch 5) [.move (.seek (-1))] := by
  intro same
  exact absurd (congrArg Prod.snd same.2) (by decide)

end OpenDera.Trace

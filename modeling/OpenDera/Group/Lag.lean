import Mathlib.Data.Prod.Lex
import OpenDera.Std.Run
import OpenDera.Std.ZSetJoin
import OpenDera.Trace.Cursor

/-!
# Lag and lead

`Lag` pairs every occurrence of a value in a group with the projection of the occurrence a
number of positions before it. On a change the forward pass walks the changes along with
the old output and collects and retracts the keys whose output may change: the changed keys,
and after each of them as many rows of old output as the lag. The backward pass moves one
cursor over the new values, from the end, always `lag` occurrences ahead of the key whose
output it computes. A key that the cursor comes past is recorded with the number of
occurrences since the one recorded before; for keys further away the cursor seeks.

For `lead`, `keyCmp` is the reverse order, and all cursors are reversed.
-/

namespace OpenDera.Group

/-- The parameters of the transformer. -/
structure Lag (V Out : Type*) where
  lag : Nat
  /-- `true` for `lag`, `false` for `lead`. -/
  asc : Bool
  project : Option V → Out
  keyCmp : V → V → Ordering

/-- A key that the cursor has come past during the backward pass. The offset is the number
of occurrences between the recorded key before it and the key; it is `none` if the key
does not occur. -/
structure EncounteredKey (V : Type*) where
  key : V
  weight : ℤ := 0
  offset : Option Nat

/-- The state of the backward pass. The affected keys that are still to be processed, in
the order of the pass, are those recorded in `encounteredKeys` (from `current` to
`next_key + 1`) and the ones not yet seen, `nextKeys` (from `next_key` on). -/
structure LagState (V : Type*) where
  cursor : List (V × ℤ)
  remainingWeight : ℤ
  offsetFromPrev : ℤ
  encounteredKeys : List (EncounteredKey V)
  nextKeys : List V

namespace Lag

variable {V Out : Type*}

/-- `dyn_lag`: a positive offset is a lag, any other a lead. -/
def dynLag [LinearOrder V] (offset : ℤ) (project : Option V → Out) : Lag V Out where
  lag := offset.natAbs
  asc := 0 < offset
  project
  keyCmp := if 0 < offset then fun first second => compare first second
    else fun first second => compare second first

variable [DecidableEq V] (operator : Lag V Out) (row : (V × Out) × ℤ)
  (outputTrace : List ((V × Out) × ℤ))

/-- The rows of old output from `row` on that have the same first component. -/
def keyRows : List ((V × Out) × ℤ) :=
  row :: outputTrace.takeWhile fun other => other.1.1 = row.1.1

/-- The cursor over the old output behind those rows. -/
def afterKeyRows : List ((V × Out) × ℤ) :=
  outputTrace.dropWhile fun other => other.1.1 = row.1.1

theorem length_afterKeyRows_le : (afterKeyRows row outputTrace).length ≤ outputTrace.length :=
  (List.dropWhile_sublist _).length_le

variable (rows : List ((V × Out) × ℤ))

/-- The number of occurrences that some rows of output stand for. -/
def rowCount : Nat :=
  (rows.map fun row => row.2.toNat).sum

/-- What takes rows of output back. -/
def retract : List ((V × Out) × ℤ) :=
  rows.map fun row => (row.1, -row.2)

/-- The end of the forward pass, after the last change: retract until `lag` occurrences
are taken back. The result are the affected keys and the retractions. -/
def finishRetractions (lag : Nat) : List ((V × Out) × ℤ) → List V × List ((V × Out) × ℤ)
  | [] => ([], [])
  | row :: outputTrace =>
    if 0 < lag then
      let rest := finishRetractions (lag - rowCount (keyRows row outputTrace))
        (afterKeyRows row outputTrace)
      (row.1.1 :: rest.1, retract (keyRows row outputTrace) ++ rest.2)
    else ([], [])
termination_by outputTrace => outputTrace.length
decreasing_by
  exact Nat.lt_succ_of_le (length_afterKeyRows_le row outputTrace)

/-- The forward pass: the affected keys and the retractions. `lag` is the number of
occurrences that are still to be retracted because of the last processed change. -/
def computeRetractions (lag : Nat) :
    List (V × ℤ) → List ((V × Out) × ℤ) → List V × List ((V × Out) × ℤ)
  | [], outputTrace => finishRetractions lag outputTrace
  | changed :: inputDelta, [] => ((changed :: inputDelta).map Prod.fst, [])
  | changed :: inputDelta, row :: outputTrace =>
    match operator.keyCmp row.1.1 changed.1 with
    | .lt =>
      if 0 < lag then
        let rest := computeRetractions (lag - rowCount (keyRows row outputTrace))
          (changed :: inputDelta) (afterKeyRows row outputTrace)
        (row.1.1 :: rest.1, retract (keyRows row outputTrace) ++ rest.2)
      else
        computeRetractions lag (changed :: inputDelta) (Cursor.seekKeyWith
          (fun other => operator.keyCmp other.1 changed.1 != .lt) outputTrace)
    | .eq =>
      let rest := computeRetractions operator.lag inputDelta (afterKeyRows row outputTrace)
      (row.1.1 :: rest.1, retract (keyRows row outputTrace) ++ rest.2)
    | .gt =>
      let rest := computeRetractions operator.lag inputDelta (row :: outputTrace)
      (changed.1 :: rest.1, rest.2)
termination_by inputDelta outputTrace => inputDelta.length + outputTrace.length
decreasing_by
  · have shorter := length_afterKeyRows_le row outputTrace
    simp only [List.length_cons]
    omega
  · have shorter := Cursor.length_seekKeyWith_le
      (fun other => operator.keyCmp other.1 changed.1 != .lt) outputTrace
    simp only [List.length_cons]
    omega
  · have shorter := length_afterKeyRows_le row outputTrace
    simp only [List.length_cons]
    omega
  · simp only [List.length_cons]
    omega

variable (cursor : List (V × ℤ))

/-- Move the cursor over entries that do not occur. -/
def skipNonPositiveReverse : List (V × ℤ) :=
  cursor.dropWhile fun entry => entry.2 ≤ 0

/-- Whether the cursor is past a key. -/
def isPast (key : V) : Bool :=
  match cursor with
  | [] => true
  | entry :: _ => operator.keyCmp entry.1 key == .lt

variable (state : LagState V)

/-- Move the cursor to the next entry that occurs. -/
def stepKeyReverse : LagState V :=
  let cursor := skipNonPositiveReverse state.cursor.tail
  { state with
    cursor
    remainingWeight := (cursor.head?.map Prod.snd).getD state.remainingWeight }

/-- Record the keys that the cursor has come past: they do not occur. -/
def recordSkipped : LagState V :=
  { state with
    encounteredKeys := state.encounteredKeys ++
      (state.nextKeys.takeWhile (operator.isPast state.cursor)).map fun key =>
        { key, offset := none }
    nextKeys := state.nextKeys.dropWhile (operator.isPast state.cursor) }

/-- Record the next key if the cursor is on it. -/
def recordEncountered : LagState V := match state.cursor, state.nextKeys with
  | entry :: _, key :: nextKeys =>
    if entry.1 = key then
      { state with
        encounteredKeys := state.encounteredKeys ++
          [{ key, weight := state.remainingWeight, offset := some state.offsetFromPrev.toNat }]
        offsetFromPrev := -state.remainingWeight
        nextKeys }
    else state
  | _, _ => state

/-- Move the cursor back by one occurrence. -/
def stepReverse : LagState V :=
  let state := { state with
    offsetFromPrev := state.offsetFromPrev + 1
    remainingWeight :=
      if 0 < state.remainingWeight then state.remainingWeight - 1 else state.remainingWeight }
  if state.remainingWeight = 0 then
    recordEncountered (operator.recordSkipped (stepKeyReverse state))
  else state

/-- Move the cursor back by some occurrences, as far as there are any. -/
def stepKeyReverseN : Nat → LagState V → LagState V
  | 0, state => state
  | steps + 1, state =>
    if state.cursor.isEmpty then state else stepKeyReverseN steps (operator.stepReverse state)

/-- The new output for a number of occurrences of a key, with the cursor on the delayed
occurrence of the first one. -/
def insertRows (key : V) : Nat → LagState V → List ((V × Out) × ℤ) × LagState V
  | 0, state => ([], state)
  | count + 1, state =>
    let rest := insertRows key count (operator.stepKeyReverseN 1 state)
    (((key, operator.project (state.cursor.head?.map Prod.fst)), 1) :: rest.1, rest.2)

/-- Seek to the next key, passing over keys that do not occur. The cursor may end on one
of the keys; then it is recorded. -/
def seekNextKey (key : V) (state : LagState V) : LagState V :=
  let cursor := Cursor.seekKeyWith (fun other => operator.keyCmp other key != .gt) state.cursor
  let nextKeys := state.nextKeys.dropWhile (operator.isPast cursor)
  match cursor, nextKeys with
  | entry :: rest, key :: nextKeys =>
    if key = entry.1 then
      { cursor := entry :: rest
        remainingWeight := entry.2
        offsetFromPrev := -entry.2
        encounteredKeys := [{ key, weight := entry.2, offset := some operator.lag }]
        nextKeys }
    else { state with cursor := entry :: rest, nextKeys := key :: nextKeys }
  | cursor, nextKeys => { state with cursor, nextKeys }

/-- The loop of the backward pass, with a bound on the number of its iterations. -/
def updateLoop : Nat → LagState V → Option (List ((V × Out) × ℤ))
  | 0, _ => none
  | fuel + 1, state =>
    match state.encounteredKeys, state.nextKeys with
    | [], [] => some []
    | { key, weight, offset := some offset } :: encounteredKeys, _ =>
      let rows := operator.insertRows key weight.toNat
        (operator.stepKeyReverseN offset { state with encounteredKeys })
      (updateLoop fuel rows.2).map (rows.1 ++ ·)
    | { offset := none, .. } :: encounteredKeys, _ =>
      updateLoop fuel { state with encounteredKeys }
    | [], key :: _ => updateLoop fuel (operator.seekNextKey key state)

/-- The backward pass over the affected keys: the new output for them. -/
def computeUpdates (affectedKeys : List V) (inputCursor : List (V × ℤ)) :
    Option (List ((V × Out) × ℤ)) :=
  let cursor := skipNonPositiveReverse inputCursor
  operator.updateLoop (2 * affectedKeys.length + 1)
    { cursor
      remainingWeight := (cursor.head?.map Prod.snd).getD 0
      offsetFromPrev := 0
      encounteredKeys := []
      nextKeys := affectedKeys.reverse }

/-- Both passes. The first two cursors go forward, the last one backward. -/
def transformAlong (inputDelta : List (V × ℤ)) (outputTrace : List ((V × Out) × ℤ))
    (inputCursor : List (V × ℤ)) : Option (List ((V × Out) × ℤ)) :=
  let retractions := operator.computeRetractions 0 inputDelta outputTrace
  (operator.computeUpdates retractions.1 inputCursor).map (retractions.2 ++ ·)

end Lag

/-- What is kept for a group: its values and the output for it. -/
structure LagGroup (V Out : Type*) [LinearOrder V] [LinearOrder Out] where
  inputTrace : ZSet V := 0
  outputTrace : ZSet (V ×ₗ Out) := 0

namespace Lag

variable {V Out : Type*} [LinearOrder V] [LinearOrder Out] (operator : Lag V Out)

/-- `Lag::transform`: the changes of the output of a group. -/
def transform (inputDelta inputTrace : ZSet V)
    (outputTrace : ZSet (V ×ₗ Out)) : Option (List ((V × Out) × ℤ)) :=
  let inputCursor := ZSet.sumEntries inputDelta.entries inputTrace.entries
  let outputCursor := outputTrace.entries.map fun row => (ofLex row.1, row.2)
  if operator.asc then
    operator.transformAlong inputDelta.entries outputCursor inputCursor.reverse
  else
    operator.transformAlong inputDelta.entries.reverse outputCursor.reverse inputCursor

/-- Transform the changes of a group, and add the changes and the output to what is kept. -/
def step (group : LagGroup V Out) (delta : ZSet V) : Option (LagGroup V Out) :=
  (operator.transform delta group.inputTrace group.outputTrace).map fun rows =>
    { inputTrace := group.inputTrace + delta
      outputTrace := group.outputTrace +
        ZSet.ofTuples (rows.map fun row => (toLex row.1, row.2)) }

end Lag

end OpenDera.Group

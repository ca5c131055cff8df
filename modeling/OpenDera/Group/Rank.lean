import OpenDera.Group.RowTable

/-!
# The rank operator

`Rank` implements both RANK and DENSE_RANK. It stores every value of a group with its
rank, under the weight of the value. Values are ranked by a projection of theirs:
values that tie in it get the same rank, and the rank moves on, by the weight of the
tie for RANK and by one for DENSE_RANK, when the projection changes.

In a group that is already stored only the values from the first changed one on are
ranked anew. The walk is seeded with the stored rank of the value before it and the
weight of the values that tie with that one and lie below the change.
-/

namespace OpenDera.Group

/-- How the rank moves from one tie to the next. -/
inductive RankUpdateFunc where
  | updateRank
  | updateDenseRank
deriving DecidableEq, Repr

/-- The rank after a tie of the given rank and total weight. -/
def RankUpdateFunc.apply (rankFunc : RankUpdateFunc) (baseRank weight : ℤ) : ℤ :=
  match rankFunc with
  | .updateRank => baseRank + weight
  | .updateDenseRank => baseRank + 1

/-- The parameters of the operator. -/
structure Rank (V P : Type*) where
  projectionFunc : V → P
  keyCmp : V → P → Ordering
  rankFunc : RankUpdateFunc

/-- The variables of the loop over the joint cursor: the projection of the previous
value, if there was one, its rank, and the weight of the values seen with that rank. -/
structure RankState (P : Type*) where
  currentVal : Option P := none
  currentRank : ℤ := 1
  weight : ℤ := 0

namespace Rank

variable {K V P : Type*} [LinearOrder K] [LinearOrder V] (operator : Rank V P) (state : RankState P)

/-- Move on to a value of nonzero weight: when it does not tie with the previous ones, the
rank advances. -/
def moveTo (value : V) : RankState P := if state.weight > 0 ∧
      operator.keyCmp value (state.currentVal.getD (operator.projectionFunc value)) ≠ .eq then
    { currentVal := some (operator.projectionFunc value)
      currentRank := operator.rankFunc.apply state.currentRank state.weight
      weight := 0 }
  else { state with currentVal := some (state.currentVal.getD (operator.projectionFunc value)) }

/-- Rank a value of nonzero weight after the previous ones. -/
def insertValue (value : V) (newWeight : ℤ) : (ℤ × ℤ) × RankState P :=
  let moved := operator.moveTo state value
  ((moved.currentRank, newWeight), { moved with weight := moved.weight + newWeight })

/-- A value is stored with its rank under its own weight. -/
def scheme : RowScheme V ℤ (RankState P) where
  insert := operator.insertValue
  count row := row.2
  retract row := -row.2
  count_insert _ _ _ := rfl
  retract_insert _ _ _ := rfl
  insert_ne_zero _ _ _ nonzero := nonzero

/-- The loop over a new group from the value `value` on. -/
def newGroupLoop (currentVal : P) (currentRank weight : ℤ) (value : V)
    (newWeight : ℤ) : List (V × ℤ) → List (V × ℤ × ℤ)
  | [] => [(value, currentRank, newWeight)]
  | (next, nextWeight) :: entries =>
    (value, currentRank, newWeight) ::
      if operator.keyCmp next currentVal ≠ .eq then
        newGroupLoop (operator.projectionFunc next)
          (operator.rankFunc.apply currentRank (weight + newWeight)) 0 next nextWeight entries
      else
        newGroupLoop currentVal currentRank (weight + newWeight) next nextWeight entries

/-- The rows of a new group. -/
def newGroupRows : List (V × ℤ) → List (V × ℤ × ℤ)
  | [] => []
  | (value, newWeight) :: entries =>
    operator.newGroupLoop (operator.projectionFunc value) 1 0 value newWeight entries

/-- Add up the weights of the rows under the trace cursor until it reaches
`firstDeltaVal` or the end. -/
def sumBelow (firstDeltaVal : V) (weight : ℤ) : List (V × ℤ × ℤ) → ℤ × List (V × ℤ × ℤ)
  | [] => (weight, [])
  | [row] => (weight + row.2.2, [])
  | row :: next :: rows =>
    if firstDeltaVal ≤ next.1 then (weight + row.2.2, next :: rows)
    else sumBelow firstDeltaVal (weight + row.2.2) (next :: rows)

/-- The state and the position of the trace cursor from which a stored group is ranked
anew when `firstDeltaVal` is its first changed value. -/
def startFrom (firstDeltaVal : V) (rows : List (V × ℤ × ℤ)) : RankState P × List (V × ℤ × ℤ) :=
  match Cursor.seekKeyWithReverse (fun value => value < firstDeltaVal) rows with
  | some row =>
    let currentVal := operator.projectionFunc row.1
    let start := Cursor.seekKeyWith (fun value => operator.keyCmp value currentVal != .lt) rows
    let below := sumBelow firstDeltaVal 0 start
    ({ currentVal := some currentVal, currentRank := row.2.1, weight := below.1 }, below.2)
  | none => ({}, rows)

/-- The differences for one group, iteration by iteration. -/
def updateGroup : GroupUpdate V (V ×ₗ ℤ) := fun delta stored =>
  match stored with
  | some table =>
    match delta.entries with
    | [] => []
    | (firstDeltaVal, _) :: _ =>
      let start := operator.startFrom firstDeltaVal (tableRows table)
      operator.scheme.update start.1 (SortedMap.outerJoin delta.entries start.2)
  | none => (operator.newGroupRows delta.entries).map fun row => [toRow row]

/-- One step of the circuit: the chunks the operator puts out are added to its trace. -/
def step (trace : IndexedZSet K (V ×ₗ ℤ)) (input : KeyedStep K V) :
    Option (IndexedZSet K (V ×ₗ ℤ)) := do
  let chunks ← eval operator.updateGroup input trace
  return trace + ChunkBuffer.sumOf chunks

end Rank

end OpenDera.Group

import OpenDera.Compiler.VisitJoinInner

/-!
# Compiling set operations

`visitUnion`, `visitMinus` and `visitIntersect` compile set operations of any number of
inputs. An input that may hold a row several times is made distinct where a set is needed;
rows are cast to a type that all inputs fit in. An intersection is a chain of joins on whole
rows, each of which joins the first input with one of the others.
-/

namespace OpenDera.Compiler

open IndexedZSet List

variable {V : Type*} [LinearOrder V]

/-- An input of a set operation: a multiset of rows that is a set unless it is marked. -/
structure SetInput (V : Type*) [LinearOrder V] where
  rowType : RowType
  isMultiset : Bool
  table : Table V
  relation : IsRelation rowType table
  isSet : isMultiset = false → table.IsSet

/-- A set operation on at least one input; all have the same number of columns. -/
structure SetOperation (V : Type*) [LinearOrder V] where
  all : Bool
  first : SetInput V
  rest : List (SetInput V)
  sameWidth : ∀ input ∈ rest, input.rowType.length = first.rowType.length

namespace SetOperation

variable (operation : SetOperation V)

/-- All inputs. -/
def inputs : List (SetInput V) := operation.first :: operation.rest

/-- The type of the result: a column may be NULL if it may be in one of the inputs. -/
def outputType : RowType :=
  operation.rest.foldl (fun rowType input => zipWith (· || ·) rowType input.rowType)
    operation.first.rowType

end SetOperation

/-- Cast rows to a type if they do not have it. -/
def castOutput (inputType outputType : RowType) (table : Table V) : Option (Table V) :=
  if inputType = outputType then some table
  else table.tryMap fun pair => (castRow outputType pair.1).map fun row => (row, ())

/-- The input as a set. -/
def SetInput.getInputAs (input : SetInput V) : Table V :=
  if input.isMultiset then input.table.distinct else input.table

variable (operation : SetOperation V)

/-- Compile a union. -/
def visitUnion : Option (Table V) := do
  let ports ← operation.inputs.mapM fun input =>
    castOutput input.rowType operation.outputType input.table
  if operation.all then pure ports.sum else pure (distinct ports.sum)

/-- Compile a difference; EXCEPT ALL is not supported. -/
def visitMinus : Option (Table V) := do
  let first ← castOutput operation.first.rowType operation.outputType operation.first.getInputAs
  let others ← operation.rest.mapM fun input =>
    castOutput input.rowType operation.outputType (-input.getInputAs)
  if operation.all then none else pure (distinct (first :: others).sum)

/-- Index a table by whole rows. -/
def indexEntireTuple (resultType : RowType) (table : Table V) : Option (Table V) :=
  table.tryMap fun pair => (castRow resultType pair.1).map fun row => (row, ())

/-- The loop over the inputs after the first: every round joins the index of the first input with
the index of another. -/
def intersectLoop (resultType : RowType) (previousIndex : Table V) :
    Table V → List (SetInput V) → Option (Table V)
  | previous, [] => some previous
  | _, input :: rest => do
      let index ← indexEntireTuple resultType input.getInputAs
      intersectLoop resultType previousIndex (previousIndex.join (fun key _ _ => (key, ())) index) rest

/-- Compile an intersection; INTERSECT ALL is not supported. -/
def visitIntersect : Option (Table V) :=
  let previous := operation.first.getInputAs
  if operation.all then none
  else if operation.rest.isEmpty then some previous
  else do
    let previousIndex ← indexEntireTuple operation.outputType previous
    intersectLoop operation.outputType previousIndex previous operation.rest

section

variable {rowType otherType : RowType} {row : Row (Cell V)}

omit [LinearOrder V]

theorem Typed.or_left (typed : Typed rowType row) (same : otherType.length = rowType.length) :
    Typed (zipWith (· || ·) rowType otherType) row := by
  induction typed generalizing otherType with
  | nil => exact .nil
  | cons first _ ih =>
    cases otherType with
    | nil => cases same
    | cons =>
      refine .cons (fun notNull => first ?_) (ih (Nat.succ.inj same))
      exact (Bool.or_eq_false_iff.mp notNull).1

theorem Typed.or_right (typed : Typed rowType row) (same : otherType.length = rowType.length) :
    Typed (zipWith (· || ·) otherType rowType) row := by
  rw [zipWith_comm_of_comm Bool.or_comm]
  exact typed.or_left same

end

namespace SetOperation

variable {operation} {row : Row (Cell V)}

omit [LinearOrder V] in
theorem typed_foldl {rowType : RowType} {others : List RowType} {row : Row (Cell V)}
    (same : ∀ other ∈ others, other.length = rowType.length)
    (typed : Typed rowType row ∨ ∃ other ∈ others, Typed other row) :
    Typed (others.foldl (zipWith (· || ·)) rowType) row := by
  induction others generalizing rowType with
  | nil => simpa using typed
  | cons other _ ih =>
    rw [forall_mem_cons] at same
    have sameWidth : (zipWith (· || ·) rowType other).length = rowType.length := by
      simp [same.1]
    refine ih (fun later member => (same.2 later member).trans sameWidth.symm) ?_
    rcases typed with typed | ⟨found, member, typed⟩
    · exact .inl (typed.or_left same.1)
    · rcases mem_cons.mp member with rfl | later
      · exact .inl (typed.or_right same.1.symm)
      · exact .inr ⟨found, later, typed⟩

/-- The rows of every input have the type of the result. -/
theorem typed_outputType {input : SetInput V} (member : input ∈ operation.inputs)
    (typed : Typed input.rowType row) : Typed operation.outputType row := by
  rw [outputType, ← foldl_map]
  apply typed_foldl
  · intro other isOther
    obtain ⟨found, inside, rfl⟩ := mem_map.mp isOther
    exact operation.sameWidth found inside
  · rcases mem_cons.mp member with rfl | inside
    · exact .inl typed
    · exact .inr ⟨_, mem_map_of_mem inside, typed⟩

end SetOperation

section

variable {inputType outputType : RowType} {table : Table V}
  (typed : ∀ row value, table.weight row value ≠ 0 → Typed outputType row)

include typed

/-- Casting rows that have the type changes nothing. -/
theorem indexEntireTuple_eq : indexEntireTuple outputType table = some table := by
  rw [indexEntireTuple]
  have casts : table.tryMap (fun pair => (castRow outputType pair.1).map fun row => (row, ())) =
      some (table.map fun pair => pair) := by
    refine tryMap_eq_map _ fun row value present => ?_
    rw [castRow_of_typed (typed row value present)]
    rfl
  rw [casts, map_eq_self fun _ _ _ => rfl]

theorem castOutput_eq : castOutput inputType outputType table = some table := by
  rw [castOutput]
  split
  · rfl
  · exact indexEntireTuple_eq typed

end

namespace SetInput

variable (input : SetInput V) (row : Row (Cell V))

/-- A row is in the input. -/
def Contains : Prop := input.table.weight row () ≠ 0

instance (input : SetInput V) (row : Row (Cell V)) : Decidable (input.Contains row) :=
  inferInstanceAs (Decidable (_ ≠ _))

/-- As a set, the input holds each of its rows once. -/
theorem weight_getInputAs :
    input.getInputAs.weight row () = if input.Contains row then 1 else 0 := by
  rw [getInputAs]
  split
  case isTrue =>
    rw [weight_distinct]
    exact if_congr input.relation.nonneg.pos_iff rfl rfl
  case isFalse notMultiset =>
    have isSet := input.isSet (Bool.eq_false_iff.mpr notMultiset) row ()
    rcases isSet with absent | present
    · rw [absent, if_neg fun contains => contains absent]
    · rw [present, if_pos (by rw [Contains, present]; decide)]

theorem typed_getInputAs {row : Row (Cell V)} {value : Unit}
    (present : input.getInputAs.weight row value ≠ 0) : Typed input.rowType row := by
  refine input.relation.typed row () ?_
  have weight := input.weight_getInputAs row
  intro absent
  rw [if_neg fun contains => contains absent] at weight
  exact present weight

end SetInput

/-- A table holds the rows with a property once and no others. -/
def HoldsOnce (table : Table V) (member : Row (Cell V) → Prop) : Prop :=
  ∀ row, (member row → table.weight row () = 1) ∧ (¬member row → table.weight row () = 0)

theorem holdsOnce_distinct {table : Table V} {member : Row (Cell V) → Prop}
    (positive : ∀ row, 0 < table.weight row () ↔ member row) : HoldsOnce table.distinct member := by
  intro row
  rw [weight_distinct, ← positive]
  exact ⟨fun inside => if_pos inside, fun absent => if_neg absent⟩

namespace SetOperation

variable {operation}

theorem sum_weights_pos_iff {inputs : List (SetInput V)} {row : Row (Cell V)} :
    0 < (inputs.map fun input => input.table.weight row ()).sum ↔
      ∃ input ∈ inputs, input.Contains row := by
  induction inputs with
  | nil => simp
  | cons input inputs ih =>
    have nonneg := input.relation.nonneg row ()
    have restNonneg : 0 ≤ (inputs.map fun input => input.table.weight row ()).sum :=
      sum_nonneg fun weight member => by
        obtain ⟨found, -, rfl⟩ := mem_map.mp member
        exact found.relation.nonneg row ()
    rw [map_cons, sum_cons, exists_mem_cons_iff, ← ih, SetInput.Contains]
    omega

open SetInput

/-- The inputs of a union, cast. -/
theorem ports_eq (operation : SetOperation V) : (operation.inputs.mapM fun input =>
        castOutput input.rowType operation.outputType input.table) =
      some (operation.inputs.map table) :=
  mapM_eq_some_map fun input member => castOutput_eq fun row value present =>
    typed_outputType member (input.relation.typed row value present)

theorem weight_sum_tables (inputs : List (SetInput V)) (row : Row (Cell V)) :
    (inputs.map table).sum.weight row () =
      (inputs.map fun input => input.table.weight row ()).sum := by
  rw [weight_sum, map_map]
  rfl

theorem visitUnion_all (isAll : operation.all = true) :
    ∃ result, visitUnion operation = some result ∧
      ∀ row, result.weight row () = (operation.inputs.map fun input => input.table.weight row ()).sum := by
  refine ⟨(operation.inputs.map table).sum, ?_, weight_sum_tables operation.inputs⟩
  rw [visitUnion, ports_eq, isAll]
  rfl

theorem visitUnion_distinct (notAll : operation.all = false) :
    ∃ result, visitUnion operation = some result ∧
      HoldsOnce result fun row => ∃ input ∈ operation.inputs, input.Contains row := by
  refine ⟨distinct (operation.inputs.map table).sum, ?_, holdsOnce_distinct fun row => ?_⟩
  · rw [visitUnion, ports_eq, notAll]
    rfl
  · rw [weight_sum_tables, sum_weights_pos_iff]

variable {rest : List (SetInput V)}

/-- A row is left over exactly if it is in the first input and in no other. -/
theorem minus_pos_iff {first : SetInput V} {row : Row (Cell V)} :
    0 < weight (first.getInputAs :: rest.map fun input => -input.getInputAs).sum row () ↔
      first.Contains row ∧ ∀ input ∈ rest, ¬input.Contains row := by
  have others : ∀ inputs : List (SetInput V),
      weight (inputs.map fun input => -input.getInputAs).sum row () ≤ 0 ∧
        (weight (inputs.map fun input => -input.getInputAs).sum row () = 0 ↔
          ∀ input ∈ inputs, ¬input.Contains row) := by
    intro inputs
    induction inputs with
    | nil => simp
    | cons input _ ih =>
      rw [map_cons, sum_cons, weight_add, weight_neg,
        input.weight_getInputAs, forall_mem_cons, ← ih.2]
      split
      case isTrue contains =>
        simp only [contains, not_true_eq_false, false_and, iff_false]
        omega
      case isFalse absent =>
        simp only [absent, not_false_eq_true, true_and]
        omega
  obtain ⟨nonpos, isZero⟩ := others rest
  rw [sum_cons, weight_add, first.weight_getInputAs, ← isZero]
  split
  case isTrue contains =>
    simp only [contains, true_and]
    omega
  case isFalse absent =>
    simp only [absent, false_and, iff_false]
    omega

theorem visitMinus_correct (notAll : operation.all = false) :
    ∃ result, visitMinus operation = some result ∧
      HoldsOnce result fun row => operation.first.Contains row ∧
        ∀ input ∈ operation.rest, ¬input.Contains row := by
  have first : castOutput operation.first.rowType operation.outputType operation.first.getInputAs =
      some operation.first.getInputAs :=
    castOutput_eq fun row value present =>
      typed_outputType mem_cons_self (operation.first.typed_getInputAs present)
  have others : (operation.rest.mapM fun input =>
      castOutput input.rowType operation.outputType (-input.getInputAs)) =
        some (operation.rest.map fun input => -input.getInputAs) := by
    refine mapM_eq_some_map fun input member => castOutput_eq fun row value present => ?_
    rw [weight_neg, neg_ne_zero] at present
    exact typed_outputType (mem_cons_of_mem _ member) (input.typed_getInputAs present)
  exact ⟨_, by rw [visitMinus, first, others, notAll]; rfl, holdsOnce_distinct fun row => minus_pos_iff⟩

variable (operation)

/-- The last input. -/
def last : SetInput V := operation.rest.getLast?.getD operation.first

theorem last_mem : operation.last ∈ operation.inputs := by
  rw [last]
  cases found : operation.rest.getLast? with
  | none => exact mem_cons_self
  | some => exact mem_cons_of_mem _ (mem_of_getLast? found)

variable {operation}

/-- Only the last round of the loop matters. -/
theorem intersectLoop_eq {resultType : RowType}
    (typed : ∀ input ∈ rest, ∀ row : Row (Cell V), Typed input.rowType row → Typed resultType row)
    (previousIndex previous : Table V) :
    intersectLoop resultType previousIndex previous rest =
      some (rest.getLast?.elim previous fun input =>
        previousIndex.join (fun key _ _ => (key, ())) input.getInputAs) := by
  induction rest generalizing previous with
  | nil => rfl
  | cons input rest ih =>
    rw [forall_mem_cons] at typed
    have index : indexEntireTuple resultType input.getInputAs = some input.getInputAs :=
      indexEntireTuple_eq fun row _ present => typed.1 row (input.typed_getInputAs present)
    rw [intersectLoop, index, Option.bind_eq_bind, Option.bind_some, ih typed.2]
    cases rest with
    | nil | cons => rfl

/-- An intersection keeps the rows that are in the first and in the last input. -/
theorem visitIntersect_eq (notAll : operation.all = false) :
    ∃ result, visitIntersect operation = some result ∧
      HoldsOnce result fun row => operation.first.Contains row ∧ operation.last.Contains row := by
  rw [visitIntersect, notAll]
  cases found : operation.rest.getLast? with
  | none =>
    have empty := getLast?_eq_none_iff.mp found
    refine ⟨operation.first.getInputAs, by simp [empty], fun row => ?_⟩
    rw [last, found, Option.getD_none, operation.first.weight_getInputAs]
    exact ⟨fun contains => if_pos contains.1, fun absent => if_neg fun contains =>
      absent ⟨contains, contains⟩⟩
  | some input =>
    have nonempty : operation.rest.isEmpty = false := by
      rw [isEmpty_eq_false_iff]
      intro empty
      simp [empty] at found
    have index : indexEntireTuple operation.outputType operation.first.getInputAs =
        some operation.first.getInputAs :=
      indexEntireTuple_eq fun row _ present =>
        typed_outputType mem_cons_self (operation.first.typed_getInputAs present)
    have loop := intersectLoop_eq (fun input member row typed =>
      operation.typed_outputType (mem_cons_of_mem _ member) typed)
        operation.first.getInputAs operation.first.getInputAs
    rw [found, Option.elim_some] at loop
    refine ⟨_, by simpa [nonempty, index] using loop, fun row => ?_⟩
    rw [weight_join_keys, weight_getInputAs, weight_getInputAs, last,
      found, Option.getD_some]
    by_cases inFirst : operation.first.Contains row <;> by_cases inLast : input.Contains row <;>
      simp [inFirst, inLast]

/-- Unions and differences of any number of inputs give the SQL result, and an intersection does
exactly if every row of the first and the last input is in all inputs. -/
theorem set_operations_correct_iff (operation : SetOperation V) :
    (∃ result, visitUnion { operation with all := true } = some result ∧ ∀ row,
        result.weight row () = (operation.inputs.map fun input => input.table.weight row ()).sum) ∧
      (∃ result, visitUnion { operation with all := false } = some result ∧
        HoldsOnce result fun row => ∃ input ∈ operation.inputs, input.Contains row) ∧
      (∃ result, visitMinus { operation with all := false } = some result ∧
        HoldsOnce result fun row => operation.first.Contains row ∧
          ∀ input ∈ operation.rest, ¬input.Contains row) ∧
      ((∃ result, visitIntersect { operation with all := false } = some result ∧
          HoldsOnce result fun row => ∀ input ∈ operation.inputs, input.Contains row) ↔
        ∀ row, operation.first.Contains row → operation.last.Contains row →
          ∀ input ∈ operation.inputs, input.Contains row) := by
  refine ⟨visitUnion_all rfl, visitUnion_distinct rfl, visitMinus_correct rfl, ?_⟩
  obtain ⟨result, isResult, holds⟩ : ∃ result,
      visitIntersect { operation with all := false } = some result ∧
        HoldsOnce result fun row => operation.first.Contains row ∧ operation.last.Contains row :=
    visitIntersect_eq rfl
  constructor
  · rintro ⟨other, isOther, inAll⟩ row inFirst inLast
    obtain rfl := Option.some.inj (isOther.symm.trans isResult)
    by_contra missing
    have once := (holds row).1 ⟨inFirst, inLast⟩
    rw [(inAll row).2 missing] at once
    cases once
  · intro agree
    refine ⟨result, isResult, fun row => ?_⟩
    refine ⟨fun inAll => (holds row).1 ⟨inAll _ mem_cons_self, inAll _ operation.last_mem⟩, ?_⟩
    exact fun missing => (holds row).2 fun inBoth => missing (agree row inBoth.1 inBoth.2)

end SetOperation

section

/-- A table whose only row is NULL. -/
def oneNull : SetInput ℕ where
  rowType := [true]
  isMultiset := false
  table := .single ([⊥], ())
  relation := isRelation_single (.cons (by simp) .nil)
  isSet _ row _ := by
    rw [weight_single]
    split <;> simp

/-- A table without rows. -/
def noRows : SetInput ℕ where
  rowType := [true]
  isMultiset := false
  table := 0
  relation := ⟨nonneg_zero, fun _ _ present => absurd rfl present⟩
  isSet _ _ _ := .inl rfl

/-- Three tables of which the second has no rows. -/
def emptyBetween : SetOperation ℕ where
  all := false
  first := oneNull
  rest := [noRows, oneNull]
  sameWidth := by simp [noRows, oneNull]

/-- The row of the first and the third table is in their intersection with the second one. -/
theorem visitIntersect_ignores_second : ¬∃ result, visitIntersect emptyBetween = some result ∧
      HoldsOnce result fun row => ∀ input ∈ emptyBetween.inputs, input.Contains row := by
  rintro ⟨result, isResult, holds⟩
  have present : (visitIntersect emptyBetween).map (fun table => table.weight [⊥] ()) = some 1 := by
    decide +kernel
  have missing : ¬∀ input ∈ emptyBetween.inputs, input.Contains [⊥] := by
    decide +kernel
  rw [isResult, Option.map_some, (holds [⊥]).2 missing] at present
  cases present

end

end OpenDera.Compiler

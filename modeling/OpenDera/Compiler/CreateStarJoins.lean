import OpenDera.Compiler.ClosureExpression
import OpenDera.Compiler.Operator
import OpenDera.Std.MultiJoin

/-!
# Creating star joins

`CreateStarJoins` looks for trees of joins on a common key and replaces the root of each
maximal tree by one star join of all inputs of the tree. `FindJoinTrees` builds the trees
bottom-up: a join takes over the trees of those inputs that nothing else reads and that
pass their own key on. `ReplaceStarJoins` then clones the circuit. A star join takes
changes to changes, so for a `StreamJoin` root its inputs are differentiated and its
output is integrated; for a `StreamJoinIndex` root they are not.
-/

namespace OpenDera.Compiler

open IndexedZSet List Function

section

open Dataflow

/-- The operators that the pass looks at, with their closures as expressions, and all others.
A join is given the number of fields of its keys. -/
inductive JoinOperator (V : Type*) [LinearOrder V] where
  | streamJoin (keyWidth : ℕ) (row : List (Expression V))
  | streamJoinIndex (keyWidth : ℕ) (key value : List (Expression V))
  | mapIndex (key value : List (Expression V))
  | operator (operator : Operator (Row V))

/-- The closure at the root of a tree: it computes a row, or a key and a value. -/
inductive RootClosure (V : Type*) where
  | row (row : List (Expression V))
  | index (key value : List (Expression V))

/-- What a tree needs to know of a tree below it: the inputs and the synthesized closure, from
the key and one value of each input to a key and a value. -/
structure ChildTree (V : Type*) where
  inputs : List Nat
  closure : Row V → List (Row V) → Row V × Row V

/-- A tree of joins that can be implemented as one star join. `root` is the join at its root,
which is not part of the circuit if it stands for a join followed by an index operator. -/
structure JoinTree (V : Type*) where
  root : Option Nat
  keyWidth : ℕ
  rootClosure : RootClosure V
  closure : Row V → List (Row V) → Row V × Row V
  inputs : List Nat
  left : Option (ChildTree V)
  right : Option (ChildTree V)

/-- The largest tree rooted at each visited operator, and the joins that are not below another
tree. -/
structure JoinTrees (V : Type*) where
  treeByRoot : List (Option (JoinTree V)) := []
  maximalJoinRoots : List Nat := []

namespace JoinTrees

variable {V : Type*} (trees : JoinTrees V) (port : Nat)

/-- The join is not below another tree. -/
def isMaximal : Bool :=
  trees.maximalJoinRoots.contains port

/-- The tree rooted at an operator. -/
def get : Option (JoinTree V) := trees.treeByRoot.getD port none

end JoinTrees

/-- The number of joins of a tree. -/
def JoinTree.size {V : Type*} (tree : JoinTree V) : Nat :=
  tree.inputs.length - 1

/-- An input that is not the root of a tree. -/
def ChildTree.leaf {V : Type*} (port : Nat) : ChildTree V where
  inputs := [port]
  closure := fun key values => (key, values.headD [])

section

variable {V : Type*} [LinearOrder V] [Inhabited V]

/-- The function of the closure at a root. -/
def RootClosure.eval (closure : RootClosure V) (key left right : Row V) : Row V × Row V :=
  match closure with
  | .row fields => asRow (evalRow fields [key, left, right])
  | .index keys values => (evalRow keys [key, left, right], evalRow values [key, left, right])

/-- The operator that an expression operator stands for. -/
def JoinOperator.toOperator : JoinOperator V → Operator (Row V)
  | .streamJoin _ row => .streamJoin fun key left right => evalRow row [key, left, right]
  | .streamJoinIndex _ keys values => .streamJoinIndex fun key left right =>
    (evalRow keys [key, left, right], evalRow values [key, left, right])
  | .mapIndex keys values => .mapIndex fun pair =>
    (evalRow keys [pair.1, pair.2], evalRow values [pair.1, pair.2])
  | .operator other => other

/-- The stream an operator computes. -/
def JoinOperator.denote (tables : String → PortStream (Row V)) (operator : JoinOperator V)
    (inputs : List (PortStream (Row V))) : PortStream (Row V) :=
  operator.toOperator.denote tables inputs

/-- Create a tree from the join at its root and the trees of its inputs, if any. -/
def JoinTree.create (root : Option Nat) (keyWidth : ℕ) (rootClosure : RootClosure V)
    (leftPort rightPort : Nat) (leftChild rightChild : Option (ChildTree V)) :
    JoinTree V :=
  let left := leftChild.getD (.leaf leftPort)
  let right := rightChild.getD (.leaf rightPort)
  { root
    keyWidth
    rootClosure
    closure := fun key values =>
      rootClosure.eval key (left.closure key (values.take left.inputs.length)).2
        (right.closure key (values.drop left.inputs.length)).2
    inputs := left.inputs ++ right.inputs
    left := leftChild
    right := rightChild }

namespace FindJoinTrees

variable (graph : Graph (JoinOperator V)) (trees : JoinTrees V)

/-- How many operators and sinks read a port. -/
def fanout (port : Nat) : Nat :=
  (graph.nodes.map fun node => node.inputs.count port).sum +
    graph.sinks.countP fun sink => sink.2 = port

/-- The tree of an input of a join, if the join is the only one that reads it and the tree has
the same key as the join and passes it on. -/
def checkInput (keyWidth : ℕ) (input : Nat) : Option (JoinTree V) :=
  if fanout graph input = 1 then
    match trees.get input with
    | some tree =>
      match tree.rootClosure with
      | .index key _ =>
        if tree.keyWidth = keyWidth ∧ isIdentityFunction keyWidth (key.map withoutData) = true
        then some tree else none
      | .row _ => none
    | none => none
  else none

/-- What a parent needs to know of a tree. -/
def asChild (tree : JoinTree V) : ChildTree V where
  inputs := tree.inputs
  closure := tree.closure

/-- Take the root of a tree out of the maximal ones. -/
def removeRoot (roots : List Nat) (tree : Option (JoinTree V)) : List Nat :=
  match tree.bind JoinTree.root with
  | some root => roots.filter fun other => other ≠ root
  | none => roots

/-- Visit a join. -/
def processStreamJoin (keyWidth : ℕ) (closure : RootClosure V) (left right : Nat) : JoinTrees V :=
  let operator := trees.treeByRoot.length
  let leftTree := checkInput graph trees keyWidth left
  let rightTree := checkInput graph trees keyWidth right
  let tree := JoinTree.create (some operator) keyWidth closure left right (leftTree.map asChild)
    (rightTree.map asChild)
  { treeByRoot := trees.treeByRoot ++ [some tree]
    maximalJoinRoots :=
      removeRoot (removeRoot trees.maximalJoinRoots leftTree) rightTree ++ [operator] }

/-- Visit an index operator: after a join that nothing else reads it is treated as one join that
produces an indexed result. -/
def processMapIndex (key value : List (Expression V)) (input : Nat) : Option (JoinTree V) :=
  match graph.nodes[input]? with
  | some ⟨.streamJoin keyWidth row, [left, right]⟩ =>
    if fanout graph input = 1 then
      (trees.get input).map fun tree =>
        JoinTree.create none keyWidth
          (.index (key.map (applyAfter row)) (value.map (applyAfter row))) left right
          tree.left tree.right
    else none
  | _ => none

/-- Visit one node. -/
def visit (node : Node (JoinOperator V)) : JoinTrees V :=
  match node.op, node.inputs with
  | .streamJoin keyWidth row, [left, right] =>
    processStreamJoin graph trees keyWidth (.row row) left right
  | .streamJoinIndex keyWidth key value, [left, right] =>
    processStreamJoin graph trees keyWidth (.index key value) left right
  | .mapIndex key value, [input] =>
    { trees with treeByRoot := trees.treeByRoot ++ [processMapIndex graph trees key value input] }
  | _, _ => { trees with treeByRoot := trees.treeByRoot ++ [none] }

/-- The trees of a circuit. -/
def joinTrees : JoinTrees V := graph.nodes.foldl (visit graph) {}

end FindJoinTrees

namespace ReplaceStarJoins

variable (trees : JoinTrees V) (clone : Clone (JoinOperator V))

/-- The tree of the operator visited now, if the operator is the root of a maximal tree of more
than one join. -/
def maximalTree : Option (JoinTree V) :=
  if trees.isMaximal clone.remap.length then
    (trees.get clone.remap.length).filter fun tree => 1 < tree.size
  else none

/-- Differentiate the replacements of some ports. -/
def addDifferentiates (inputs : List Nat) : Clone (JoinOperator V) :=
  inputs.foldl (fun clone input =>
    clone.addOperator (.operator (.differentiate false)) [clone.mapped input]) clone

variable (tree : JoinTree V)

/-- Replace a join by a star join between differentiators and an integrator. -/
def replaceStreamJoin : Clone (JoinOperator V) :=
  let diffs := addDifferentiates clone tree.inputs
  let star := diffs.addOperator
    (.operator (.starJoin fun key values => (tree.closure key values).1))
    (range' clone.nextPort tree.inputs.length)
  star.addAndMap (.operator .integrate) [diffs.nextPort]

/-- Replace a join with an indexed result by a star join. -/
def replaceStreamJoinIndex : Clone (JoinOperator V) :=
  clone.addAndMap (.operator (.starJoinIndex tree.closure)) (tree.inputs.map clone.mapped)

/-- Visit one node. -/
def visit (node : Node (JoinOperator V)) : Clone (JoinOperator V) :=
  match node.op with
  | .streamJoin _ _ =>
    match maximalTree trees clone with
    | some tree => replaceStreamJoin clone tree
    | none => clone.replace node
  | .streamJoinIndex _ _ _ =>
    match maximalTree trees clone with
    | some tree => replaceStreamJoinIndex clone tree
    | none => clone.replace node
  | _ => clone.replace node

end ReplaceStarJoins

/-- `CreateStarJoins` on the operators of a circuit: the new operators and which of them replaces
each old one. -/
def createStarJoins (graph : Graph (JoinOperator V)) : Clone (JoinOperator V) :=
  graph.nodes.foldl (ReplaceStarJoins.visit (FindJoinTrees.joinTrees graph)) {}

end

end

/-! ## The star joins compute the same -/

open Dataflow StreamCalculus

variable {V : Type*} [LinearOrder V] [Inhabited V]

/-- The number of fields of the keys of a join. -/
def JoinOperator.keyWidth? : JoinOperator V → Option ℕ
  | .streamJoin keyWidth _ => some keyWidth
  | .streamJoinIndex keyWidth _ _ => some keyWidth
  | _ => none

/-- Every key of a collection has the given number of fields. -/
def HasKeyWidth (width : ℕ) (stream : PortStream (Row V)) : Prop :=
  ∀ time key value, (stream time).weight key value ≠ 0 → key.length = width

open JoinOperator

/-- The keys that a join reads have the type of its key. -/
def WellTyped (graph : Graph (JoinOperator V)) (tables : String → PortStream (Row V)) : Prop :=
  ∀ (port : Nat) (node : Node (JoinOperator V)), graph.nodes[port]? = some node →
    ∀ width, node.op.keyWidth? = some width → ∀ input ∈ node.inputs,
      HasKeyWidth width (value (denote tables) graph.nodes input)

section

variable {streams : Nat → PortStream (Row V)} {width : ℕ}

/-- A child tree describes the stream of a port: it is the join of the tree's inputs, and the
tree passes its keys on. -/
structure Represents (streams : Nat → PortStream (Row V)) (width : ℕ) (child : ChildTree V)
    (port : Nat) : Prop where
  inputs_le : ∀ input ∈ child.inputs, input ≤ port
  nonempty : child.inputs ≠ []
  keys : ∀ input ∈ child.inputs, HasKeyWidth width (streams input)
  passes : ∀ key : Row V, key.length = width → ∀ values, (child.closure key values).1 = key
  stream_eq : ∀ time, streams port time =
    joinAll child.closure (child.inputs.map fun input => streams input time)

omit [Inhabited V] in
theorem represents_leaf {port : Nat} (keys : HasKeyWidth width (streams port)) :
    Represents streams width (.leaf port) port where
  inputs_le := by simp [ChildTree.leaf]
  nonempty := by simp [ChildTree.leaf]
  keys := by simpa [ChildTree.leaf] using keys
  passes := fun _ _ _ => rfl
  stream_eq := fun _ => (joinAll_singleton _ _ fun _ _ => rfl).symm

/-- Two inputs described by trees are joined by the closure of the tree above them. -/
theorem join_eq_joinAll_create {left right : Nat} {leftChild rightChild : Option (ChildTree V)}
    (leftRepresents : Represents streams width (leftChild.getD (.leaf left)) left)
    (rightRepresents : Represents streams width (rightChild.getD (.leaf right)) right)
    (root : Option Nat) (rootClosure : RootClosure V) (time : ℕ) :
    join rootClosure.eval (streams left time) (streams right time) =
      joinAll (JoinTree.create root width rootClosure left right leftChild rightChild).closure
        ((JoinTree.create root width rootClosure left right leftChild rightChild).inputs.map
          fun input => streams input time) := by
  rw [leftRepresents.stream_eq, rightRepresents.stream_eq]
  simp only [JoinTree.create]
  obtain ⟨leftFirst, leftRest, leftInputs⟩ := exists_cons_of_ne_nil leftRepresents.nonempty
  obtain ⟨rightFirst, rightRest, rightInputs⟩ := exists_cons_of_ne_nil rightRepresents.nonempty
  have leftKeys := leftRepresents.keys leftFirst (by simp [leftInputs]) time
  have rightKeys := rightRepresents.keys rightFirst (by simp [rightInputs]) time
  rw [leftInputs, rightInputs, map_append, map_cons, map_cons,
    join_joinAll leftKeys rightKeys leftRepresents.passes rightRepresents.passes]
  simp

/-- A tree describes a port: its root joins two earlier ports that its children describe. -/
structure Describes (streams : Nat → PortStream (Row V)) (tree : JoinTree V)
    (port left right : Nat) : Prop where
  tree_eq : tree = JoinTree.create tree.root tree.keyWidth tree.rootClosure left right tree.left
    tree.right
  left_lt : left < port
  right_lt : right < port
  left_represents : Represents streams tree.keyWidth (tree.left.getD (.leaf left)) left
  right_represents : Represents streams tree.keyWidth (tree.right.getD (.leaf right)) right
  stream_eq : ∀ time, streams port time =
    join tree.rootClosure.eval (streams left time) (streams right time)

variable {tree : JoinTree V} {port left right : Nat}
  (describes : Describes streams tree port left right)

include describes

theorem Describes.inputs_eq :
    tree.inputs = (tree.left.getD (.leaf left)).inputs ++ (tree.right.getD (.leaf right)).inputs := by
  conv_lhs => rw [describes.tree_eq]
  rfl

theorem Describes.inputs_lt : ∀ input ∈ tree.inputs, input < port := by
  intro input member
  rw [describes.inputs_eq] at member
  rcases mem_append.mp member with member | member
  · exact (describes.left_represents.inputs_le input member).trans_lt describes.left_lt
  · exact (describes.right_represents.inputs_le input member).trans_lt describes.right_lt

/-- The stream of the port is the join of all inputs of the tree. -/
theorem Describes.joinAll_eq (time : ℕ) : streams port time =
      joinAll tree.closure (tree.inputs.map fun input => streams input time) := by
  rw [describes.stream_eq, join_eq_joinAll_create describes.left_represents
    describes.right_represents tree.root, ← describes.tree_eq]

/-- A tree whose root passes its keys on is a child tree for the port. -/
theorem Describes.represents {keys values : List (Expression V)}
    (isIndex : tree.rootClosure = .index keys values)
    (identity : isIdentityFunction tree.keyWidth (keys.map withoutData) = true) :
    Represents streams tree.keyWidth (FindJoinTrees.asChild tree) port where
  inputs_le := fun input member => (describes.inputs_lt input member).le
  nonempty := by
    change tree.inputs ≠ []
    rw [describes.inputs_eq]
    exact fun empty => describes.left_represents.nonempty (append_eq_nil_iff.mp empty).1
  keys := by
    intro input member
    change input ∈ tree.inputs at member
    rw [describes.inputs_eq] at member
    rcases mem_append.mp member with member | member
    · exact describes.left_represents.keys input member
    · exact describes.right_represents.keys input member
  passes := by
    intro key typed others
    rw [describes.tree_eq, isIndex]
    exact evalRow_of_isIdentityFunction identity typed _
  stream_eq := describes.joinAll_eq

end

section

variable {graph : Graph (JoinOperator V)} {tables : String → PortStream (Row V)}

variable (graph tables) in
/-- Every tree found so far describes its port, from the inputs of the join if the port is one. -/
structure TreesDescribe (trees : JoinTrees V) : Prop where
  describes : ∀ port tree, trees.get port = some tree → ∃ left right,
    Describes (value (denote tables) graph.nodes) tree port left right ∧
      ∀ keyWidth row inputs, graph.nodes[port]? = some ⟨.streamJoin keyWidth row, inputs⟩ →
        inputs = [left, right] ∧ tree.keyWidth = keyWidth ∧ tree.rootClosure = .row row

theorem treesDescribe_empty : TreesDescribe graph tables {} where
  describes := by simp [JoinTrees.get]

variable {trees : JoinTrees V}

theorem length_treeByRoot_visit (node : Node (JoinOperator V)) :
    (FindJoinTrees.visit graph trees node).treeByRoot.length = trees.treeByRoot.length + 1 := by
  unfold FindJoinTrees.visit
  split <;> simp [FindJoinTrees.processStreamJoin]

variable (describe : TreesDescribe graph tables trees)

include describe

/-- A tree that is found now has to describe the port visited now. -/
theorem TreesDescribe.push {found : Option (JoinTree V)} {roots : List Nat}
    (new : ∀ tree, found = some tree → ∃ left right,
      Describes (value (denote tables) graph.nodes) tree trees.treeByRoot.length left
          right ∧
        ∀ keyWidth row inputs,
          graph.nodes[trees.treeByRoot.length]? = some ⟨.streamJoin keyWidth row, inputs⟩ →
          inputs = [left, right] ∧ tree.keyWidth = keyWidth ∧ tree.rootClosure = .row row) :
    TreesDescribe graph tables ⟨trees.treeByRoot ++ [found], roots⟩ where
  describes := by
    intro port tree isTree
    rw [JoinTrees.get, getD_eq_getElem?_getD] at isTree
    rcases Nat.lt_trichotomy port trees.treeByRoot.length with earlier | rfl | later
    · rw [getElem?_append_left earlier, ← getD_eq_getElem?_getD] at isTree
      exact describe.describes port tree isTree
    · exact new tree (by simpa using isTree)
    · rw [getElem?_eq_none_iff.mpr (by simp; omega)] at isTree
      simp at isTree

/-- The tree of an input that passes the check describes it. -/
theorem represents_checkInput {width : ℕ} {input : Nat}
    (keys : HasKeyWidth width (value (denote tables) graph.nodes input)) :
    Represents (value (denote tables) graph.nodes) width
      (((FindJoinTrees.checkInput graph trees width input).map FindJoinTrees.asChild).getD
        (.leaf input)) input := by
  have leaf := represents_leaf keys
  unfold FindJoinTrees.checkInput
  split
  case isTrue =>
    split
    case h_1 tree isTree =>
      split
      case h_1 _ _ isIndex =>
        split
        case isTrue passes =>
          obtain ⟨left, right, describes, -⟩ := describe.describes input tree isTree
          obtain ⟨rfl, identity⟩ := passes
          exact describes.represents isIndex identity
        case isFalse => exact leaf
      case h_2 => exact leaf
    case h_2 => exact leaf
  case isFalse => exact leaf

variable (acyclic : Acyclic graph.nodes)

include acyclic

/-- The tree built for an index operator after a join describes it. -/
theorem TreesDescribe.processMapIndex {keys values : List (Expression V)} {input : Nat}
    (found : graph.nodes[trees.treeByRoot.length]? = some ⟨.mapIndex keys values, [input]⟩) :
    TreesDescribe graph tables { trees with treeByRoot := trees.treeByRoot ++
      [FindJoinTrees.processMapIndex graph trees keys values input] } := by
  refine describe.push ?_
  intro tree isTree
  unfold FindJoinTrees.processMapIndex at isTree
  split at isTree
  case h_1 keyWidth row left right isJoin =>
    split at isTree
    case isTrue =>
      obtain ⟨below, belowTree, rfl⟩ := Option.map_eq_some_iff.mp isTree
      obtain ⟨left', right', describes, fromJoin⟩ := describe.describes input below belowTree
      obtain ⟨sameInputs, sameWidth, isRow⟩ := fromJoin keyWidth row _ isJoin
      obtain ⟨rfl, rfl⟩ : left = left' ∧ right = right' := by simpa using sameInputs
      subst sameWidth
      have inputLt := acyclic _ _ found input (by simp)
      refine ⟨left, right, ⟨rfl, describes.left_lt.trans inputLt, describes.right_lt.trans inputLt,
        describes.left_represents, describes.right_represents, ?_⟩, ?_⟩
      · intro time
        rw [value_of_getElem? acyclic found]
        change IndexedZSet.map _ (value (denote tables) graph.nodes input time) = _
        rw [describes.stream_eq, isRow, map_join]
        congr 1
        funext key first second
        change _ = (evalRow (keys.map (applyAfter row)) [key, first, second],
          evalRow (values.map (applyAfter row)) [key, first, second])
        rw [evalRow_applyAfter, evalRow_applyAfter]
        rfl
      · intro width fields inputs impossible
        rw [found] at impossible
        cases Option.some.inj impossible
    case isFalse => simp at isTree
  case h_2 => simp at isTree

variable (typed : WellTyped graph tables)

include typed

/-- The tree built for a join describes it. -/
theorem TreesDescribe.processStreamJoin {operator : JoinOperator V} {width : ℕ} {left right : Nat}
    {closure : RootClosure V}
    (found : graph.nodes[trees.treeByRoot.length]? = some ⟨operator, [left, right]⟩)
    (isJoin : operator.keyWidth? = some width)
    (joins : ∀ first second time, operator.denote tables [first, second] time =
      join closure.eval (first time) (second time))
    (isRow : ∀ keyWidth row, operator = .streamJoin keyWidth row →
      width = keyWidth ∧ closure = .row row) :
    TreesDescribe graph tables
      (FindJoinTrees.processStreamJoin graph trees width closure left right) := by
  refine describe.push ?_
  intro tree isTree
  obtain rfl := Option.some.inj isTree
  have keys := typed _ _ found width isJoin
  refine ⟨left, right, ?_, ?_⟩
  · refine ⟨rfl, acyclic _ _ found left (by simp), acyclic _ _ found right (by simp),
      represents_checkInput describe (keys left (by simp)),
      represents_checkInput describe (keys right (by simp)), ?_⟩
    intro time
    rw [value_of_getElem? acyclic found]
    exact joins _ _ time
  · intro keyWidth row inputs same
    obtain ⟨sameOperator, sameInputs⟩ := Node.mk.inj (Option.some.inj (found.symm.trans same))
    exact ⟨sameInputs.symm, isRow keyWidth row sameOperator⟩

theorem TreesDescribe.visit {node : Node (JoinOperator V)}
    (found : graph.nodes[trees.treeByRoot.length]? = some node) :
    TreesDescribe graph tables (FindJoinTrees.visit graph trees node) := by
  obtain ⟨operator, inputs⟩ := node
  dsimp only [FindJoinTrees.visit]
  split
  case h_1 =>
    refine describe.processStreamJoin acyclic typed found rfl (fun _ _ _ => rfl) ?_
    intro width fields same
    obtain ⟨rfl, rfl⟩ := streamJoin.inj same
    exact ⟨rfl, rfl⟩
  case h_2 =>
    exact describe.processStreamJoin acyclic typed found rfl (fun _ _ _ => rfl) fun _ _ same => by
      cases same
  case h_3 => exact describe.processMapIndex acyclic found
  case h_4 => exact describe.push (by simp)

omit describe in
/-- All trees of a circuit describe their ports. -/
theorem treesDescribe_joinTrees : TreesDescribe graph tables (FindJoinTrees.joinTrees graph) := by
  have along : ∀ earlier, earlier <+: graph.nodes →
      TreesDescribe graph tables (earlier.foldl (FindJoinTrees.visit graph) {}) ∧
        (earlier.foldl (FindJoinTrees.visit graph) {}).treeByRoot.length = earlier.length := by
    intro earlier
    induction earlier using reverseRecOn with
    | nil => exact fun _ => ⟨treesDescribe_empty, rfl⟩
    | append_singleton earlier node ih =>
      intro longer
      obtain ⟨describe, length⟩ := ih ((prefix_append _ _).trans longer)
      have found : graph.nodes[(earlier.foldl (FindJoinTrees.visit graph) {}).treeByRoot.length]? =
          some node := by
        obtain ⟨later, same⟩ := longer
        rw [length, ← same]
        simp
      rw [foldl_append, foldl_cons, foldl_nil]
      refine ⟨describe.visit acyclic typed found, ?_⟩
      rw [length_treeByRoot_visit, length, length_append, length_singleton]
  exact (along graph.nodes (prefix_refl _)).1

end

namespace ReplaceStarJoins

variable {trees : JoinTrees V} {tables : String → PortStream (Row V)}
  {clone : Clone (JoinOperator V)} {expected : List (PortStream (Row V))}
  {node : Node (JoinOperator V)}

/-- The tree of the node visited now describes it. -/
structure Admissible (trees : JoinTrees V) (tables : String → PortStream (Row V))
    (_ : Clone (JoinOperator V)) (expected : List (PortStream (Row V)))
    (node : Node (JoinOperator V)) : Prop where
  inputs_lt : ∀ tree, trees.get expected.length = some tree →
    ∀ input ∈ tree.inputs, input < expected.length
  joins : ∀ tree, trees.get expected.length = some tree → ∀ time,
    node.op.denote tables (node.inputs.map (read expected)) time =
      joinAll tree.closure (tree.inputs.map fun input => read expected input time)
  rows : ∀ tree, trees.get expected.length = some tree → ∀ keyWidth row,
    node.op = .streamJoin keyWidth row → ∀ key values,
    asRow (tree.closure key values).1 = tree.closure key values

variable (trees clone expected node) in
/-- A step is harmless unless it replaces a join with an indexed result by a star join whose
inputs match across steps: where some inputs give what they carried up to a step and the others
what they carry in the next, all that they join to cancels out. -/
def Harmless : Prop :=
  ∀ keyWidth keys values tree, node.op = .streamJoinIndex keyWidth keys values →
    maximalTree trees clone = some tree → ∀ time,
      ((mixtures (tree.inputs.map fun input =>
        (integrate (read expected input) time, read expected input (time + 1)))).map
          (joinAll tree.closure)).sum = 0

omit [Inhabited V] in
/-- What streams join to up to a step: what they do up to the step before, in the step and across
steps. -/
theorem joinAll_integrate_succ (combine : Row V → List (Row V) → Row V × Row V)
    (streams : List (PortStream (Row V))) (time : ℕ) :
    joinAll combine (streams.map fun stream => integrate stream (time + 1)) =
      joinAll combine (streams.map fun stream => integrate stream time) +
        joinAll combine (streams.map fun stream => stream (time + 1)) +
        ((mixtures (streams.map fun stream => (integrate stream time, stream (time + 1)))).map
          (joinAll combine)).sum := by
  cases streams with
  | nil => rfl
  | cons stream streams =>
    have expanded := (multiadditive_joinAll combine).map_add
      (integrate stream time, stream (time + 1))
      (streams.map fun stream => (integrate stream time, stream (time + 1)))
    simp only [map_cons, map_map, comp_def] at expanded
    exact expanded

variable {tree : JoinTree V}

omit [Inhabited V] in
theorem get_of_maximalTree (maximal : maximalTree trees clone = some tree)
    (visited : clone.remap.length = expected.length) : trees.get expected.length = some tree := by
  rw [← visited]
  unfold maximalTree at maximal
  split at maximal
  case isTrue => exact (Option.filter_eq_some_iff.mp maximal).1
  case isFalse => simp at maximal

omit [Inhabited V] in
theorem extends_addDifferentiates (clone : Clone (JoinOperator V)) (inputs : List Nat) :
    Clone.Extends clone (addDifferentiates clone inputs) := by
  induction inputs generalizing clone with
  | nil => exact .refl clone
  | cons _ _ ih => exact (Clone.Extends.addOperator ..).trans (ih _)

section

variable (tracks : Clone.Tracks (denote tables) clone expected [])

include tracks

/-- Differentiators are put on the replacements of the inputs. -/
theorem addDifferentiates_spec {inputs : List Nat}
    (earlier : ∀ input ∈ inputs, input < expected.length) :
    Clone.Tracks (denote tables) (addDifferentiates clone inputs) expected [] ∧
      (addDifferentiates clone inputs).nextPort = clone.nextPort + inputs.length ∧
      (range' clone.nextPort inputs.length).map
          (value (denote tables) (addDifferentiates clone inputs).graph.nodes) =
        inputs.map fun input => differentiate (read expected input) := by
  induction inputs generalizing clone with
  | nil => exact ⟨tracks, rfl, rfl⟩
  | cons input inputs ih =>
    rw [forall_mem_cons] at earlier
    have extension := extends_addDifferentiates
      (clone.addOperator (.operator (.differentiate false)) [clone.mapped input]) inputs
    have added : Clone.Tracks (denote tables)
        (clone.addOperator (.operator (.differentiate false)) [clone.mapped input]) expected [] :=
      tracks.addOperator (by simpa using tracks.mapped_lt input earlier.1)
    obtain ⟨after, length, rest⟩ := ih added earlier.2
    rw [Clone.nextPort_addOperator] at length rest
    refine ⟨after, ?_, ?_⟩
    · rw [length_cons]
      exact length.trans (by omega)
    · rw [length_cons, range'_succ, map_cons, map_cons]
      refine cons_eq_cons.mpr ⟨?_, rest⟩
      refine (extension.value (by simp)).trans ?_
      rw [Clone.value_addOperator_nextPort, map_singleton, tracks.mapped_value input earlier.1]
      rfl

/-- A star join between differentiators and an integrator computes the join of the inputs. -/
theorem tracks_replaceStreamJoin (earlier : ∀ input ∈ tree.inputs, input < expected.length)
    (rows : ∀ key values, asRow (tree.closure key values).1 = tree.closure key values) :
    Clone.Tracks (denote tables) (replaceStreamJoin clone tree)
      (expected ++ [fun time => joinAll tree.closure
        (tree.inputs.map fun input => read expected input time)]) [] := by
  obtain ⟨after, length, differences⟩ := addDifferentiates_spec tracks earlier
  have present : ∀ input ∈ range' clone.nextPort tree.inputs.length,
      input < (addDifferentiates clone tree.inputs).nextPort := by
    intro input member
    have := mem_range'_1.mp member
    omega
  refine (after.addOperator present).addAndMap (by simp) ?_
  rw [map_singleton, Clone.value_addOperator_nextPort, differences]
  change integrate (incrementalAll _ _) = _
  rw [incrementalAll, integrate_differentiate]
  simp only [rows, map_map, comp_def, integrate_differentiate]

end

/-- The step of a star join that takes collections for changes. -/
theorem harmless_iff {keyWidth : ℕ} {keys values : List (Expression V)}
    (isIndex : node.op = .streamJoinIndex keyWidth keys values)
    (maximal : maximalTree trees clone = some tree) (visited : clone.remap.length = expected.length)
    (admitted : Admissible trees tables clone expected node) :
    Harmless trees clone expected node ↔
      incrementalAll (joinAll tree.closure) (tree.inputs.map (read expected)) =
        node.op.denote tables (node.inputs.map (read expected)) := by
  have joins := admitted.joins tree (get_of_maximalTree maximal visited)
  have expanded := joinAll_integrate_succ tree.closure (tree.inputs.map (read expected))
  simp only [map_map, comp_def] at expanded
  rw [incrementalAll, funext_iff]
  constructor
  · intro harmless time
    have cancels := harmless keyWidth keys values tree isIndex maximal
    rw [joins]
    cases time with
    | zero => simp only [differentiate, integrate, map_map, comp_def]
    | succ time =>
      simp only [differentiate, map_map, comp_def, expanded time, cancels time]
      abel
  · intro same _ _ _ other _ again time
    obtain rfl : tree = other := Option.some.inj (maximal.symm.trans again)
    have step := same (time + 1)
    rw [joins, differentiate] at step
    simp only [map_map, comp_def, expanded time, add_assoc, add_sub_cancel_left] at step
    exact left_eq_add.mp step.symm

omit [Inhabited V] in
theorem extends_visit (clone : Clone (JoinOperator V)) (node : Node (JoinOperator V)) :
    Clone.Extends clone (visit trees clone node) := by
  unfold visit
  split
  case h_1 =>
    split
    case h_1 tree _ =>
      exact ((extends_addDifferentiates clone tree.inputs).trans (.addOperator ..)).trans (.addAndMap ..)
    case h_2 => exact .addAndMap ..
  case h_2 =>
    split
    case h_1 => exact .addAndMap ..
    case h_2 => exact .addAndMap ..
  case h_3 => exact .addAndMap ..

/-- What the steps of the visitor do when the trees describe the circuit. -/
theorem judges :
    Clone.Judges (denote tables) (visit trees) (Admissible trees tables)
      (Harmless trees) fun _ => True where
  extends_visit := extends_visit
  initial := trivial
  step := by
    intro clone expected node tracks _ earlier admitted
    have kept : ∀ {harmless : Prop}, harmless → ∃ result,
        Clone.Tracks (denote tables) (clone.replace node) (expected ++ [result]) [] ∧
          True ∧ (harmless ↔ result =
            node.op.denote tables (node.inputs.map (read expected))) :=
      fun holds => ⟨_, tracks.replace earlier, trivial, by simpa using holds⟩
    cases defined : node.op with
    | streamJoin keyWidth row =>
      have harmless : Harmless trees clone expected node := by
        intro _ _ _ _ isIndex
        rw [defined] at isIndex
        cases isIndex
      simp only [visit, defined]
      split
      case h_1 tree maximal =>
        have found := get_of_maximalTree maximal tracks.visited
        refine ⟨_, tracks_replaceStreamJoin tracks (admitted.inputs_lt tree found)
          (admitted.rows tree found keyWidth row defined), trivial, iff_of_true harmless ?_⟩
        rw [← defined]
        exact funext fun time => (admitted.joins tree found time).symm
      case h_2 =>
        rw [← defined]
        exact kept harmless
    | streamJoinIndex =>
      simp only [visit, defined]
      split
      case h_1 tree maximal =>
        have found := get_of_maximalTree maximal tracks.visited
        refine ⟨_, tracks.addAndMap (tracks.map_mapped_lt (admitted.inputs_lt tree found)) rfl,
          trivial, ?_⟩
        rw [← defined, tracks.map_mapped (admitted.inputs_lt tree found)]
        exact harmless_iff defined maximal tracks.visited admitted
      case h_2 unreplaced =>
        rw [← defined]
        exact kept fun _ _ _ tree _ maximal => by simp [unreplaced] at maximal
    | mapIndex keys values | operator other =>
      simp only [visit, defined]
      rw [← defined]
      exact kept fun _ _ _ _ isIndex => by simp [defined] at isIndex

/-- The trees that `FindJoinTrees` builds are admissible at every step. -/
theorem along_admissible {graph : Graph (JoinOperator V)} (acyclic : Acyclic graph.nodes)
    (typed : WellTyped graph tables) :
    Clone.Along (denote tables) (visit (FindJoinTrees.joinTrees graph))
      (Admissible (FindJoinTrees.joinTrees graph) tables) graph.nodes := by
  intro earlier node later split
  have found : graph.nodes[earlier.length]? = some node := by simp [split]
  have before : ∀ input < earlier.length,
      read (values (denote tables) earlier) input =
        value (denote tables) graph.nodes input := by
    intro input present
    rw [split, value_append_of_lt _ present, value]
  have here : node.op.denote tables
      (node.inputs.map (read (values (denote tables) earlier))) =
        value (denote tables) graph.nodes earlier.length := by
    rw [value_of_getElem? acyclic found, acyclic.map_read split]
  have describes := (treesDescribe_joinTrees acyclic typed).describes earlier.length
  constructor
  all_goals rw [length_values]
  case inputs_lt =>
    intro tree isTree
    obtain ⟨left, right, describes, -⟩ := describes tree isTree
    exact describes.inputs_lt
  case joins =>
    intro tree isTree time
    obtain ⟨left, right, describes, -⟩ := describes tree isTree
    rw [here, describes.joinAll_eq]
    congr 1
    exact map_congr_left fun input member => by
      rw [before input (describes.inputs_lt input member)]
  case rows =>
    intro tree isTree keyWidth row isJoin key others
    obtain ⟨left, right, describes, fromJoin⟩ := describes tree isTree
    obtain ⟨operator, inputs⟩ := node
    obtain rfl : operator = _ := isJoin
    rw [describes.tree_eq, (fromJoin keyWidth row inputs found).2.2]
    rfl

end ReplaceStarJoins

/-- `CreateStarJoins` gives every operator a replacement with the same stream exactly if the star
joins that replace maximal roots with an indexed result read collections that do not match
across steps. -/
theorem createStarJoins_keeps_values_iff {graph : Graph (JoinOperator V)}
    (acyclic : Acyclic graph.nodes) {tables : String → PortStream (Row V)}
    (typed : WellTyped graph tables) :
    (∀ port < graph.nodes.length,
      value (denote tables) (createStarJoins graph).graph.nodes
          ((createStarJoins graph).mapped port) =
        value (denote tables) graph.nodes port) ↔
      Clone.Along (denote tables) (ReplaceStarJoins.visit (FindJoinTrees.joinTrees graph))
        (ReplaceStarJoins.Harmless (FindJoinTrees.joinTrees graph)) graph.nodes :=
  ReplaceStarJoins.judges.forall_mapped_value_iff acyclic
    (ReplaceStarJoins.along_admissible acyclic typed)

end OpenDera.Compiler

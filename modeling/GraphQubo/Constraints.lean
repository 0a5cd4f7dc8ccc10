import GraphQubo.Error

/-!
# GraphQubo.Constraints

Which penalty families are compiled, and how strongly.

1. Each family has a field of its own, with a weight or none.  A weight of
   exactly zero acts like none: the family is not compiled at all.
2. Two flags say whether a family also writes the pairs `v > w` into the lower
   triangle: one for the families within a position or from one position to
   the next, one for those from the last position to the first.
3. A weight that is NaN or infinite is refused; of several such weights the
   first family in declaration order is named.
-/

namespace GraphQubo

/-- A weight for each family, which may be unset, and the two flags. -/
structure Constraints (K : Type) where
  startNodeScore : Option K
  terminalNodeScore : Option K
  diagonal : Option K
  nodesWithEdges : Option K
  oneNodeManyPositions : Option K
  onePositionManyNodes : Option K
  edges : Option K
  edgeWeightsFactor : Option K
  edgeWeightsCyclesFactor : Option K
  nonEdges : Option K
  invalidTraversal : Option K
  invalidTraversalCycles : Option K
  invalidTraversalSelf : Option K
  doubleCountEdges : Bool
  doubleCountCycles : Bool
  deriving DecidableEq, Repr

/-- The key of the flag for the families that do not wrap around. -/
def doubleCountEdgesKey : String := "double_count_edges"

/-- The key of the flag for the families that wrap around. -/
def doubleCountCyclesKey : String := "double_count_edges_cycles"

/-- Why a configuration or a job is refused. -/
inductive ConfigError (K : Type) where
  /-- A file that cannot be read as text. -/
  | unreadable
  /-- A text that is not a TOML document of the expected form. -/
  | malformedToml
  /-- A text that is not a YAML document of the expected form. -/
  | malformedYaml
  /-- A key that names no penalty family. -/
  | unknownPenalty (key : String)
  /-- A penalty weight that is NaN or infinite. -/
  | nonFiniteWeight (penalty : Penalty) (weight : K)
  /-- A graph, or a compilation over it, that is refused. -/
  | graph (cause : Error K)
  deriving DecidableEq, Repr

/-- The message of a cause; a text that cannot be read has none of its own. -/
def ConfigError.message {K : Type} [Coefficient K] : ConfigError K → String
  | unreadable | malformedToml | malformedYaml => ""
  | unknownPenalty key => s!"Unknown penalty: {key}"
  | nonFiniteWeight penalty weight => Error.nonFiniteText penalty weight
  | graph cause => "Invalid graph: " ++ cause.message

namespace Constraints

variable {K : Type}

/-- No family and no flag: compiles to the zero matrix. -/
def empty : Constraints K :=
  ⟨none, none, none, none, none, none, none, none, none, none, none, none, none, false, false⟩

/-! ## The field of a family

The same table twice, for reading and for writing.  `weights_put` says that they agree, and with
`ext_weights` it is all that is known of them elsewhere. -/

/-- Reads the field of a family. -/
def weights (c : Constraints K) : Penalty → Option K
  | .startNodeScore => c.startNodeScore
  | .terminalNodeScore => c.terminalNodeScore
  | .diagonal => c.diagonal
  | .nodesWithEdges => c.nodesWithEdges
  | .oneNodeManyPositions => c.oneNodeManyPositions
  | .onePositionManyNodes => c.onePositionManyNodes
  | .edges => c.edges
  | .edgeWeightsFactor => c.edgeWeightsFactor
  | .edgeWeightsCyclesFactor => c.edgeWeightsCyclesFactor
  | .nonEdges => c.nonEdges
  | .invalidTraversal => c.invalidTraversal
  | .invalidTraversalCycles => c.invalidTraversalCycles
  | .invalidTraversalSelf => c.invalidTraversalSelf

/-- Writes the field of a family. -/
def put (c : Constraints K) (penalty : Penalty) (setting : Option K) : Constraints K :=
  match penalty with
  | .startNodeScore => { c with startNodeScore := setting }
  | .terminalNodeScore => { c with terminalNodeScore := setting }
  | .diagonal => { c with diagonal := setting }
  | .nodesWithEdges => { c with nodesWithEdges := setting }
  | .oneNodeManyPositions => { c with oneNodeManyPositions := setting }
  | .onePositionManyNodes => { c with onePositionManyNodes := setting }
  | .edges => { c with edges := setting }
  | .edgeWeightsFactor => { c with edgeWeightsFactor := setting }
  | .edgeWeightsCyclesFactor => { c with edgeWeightsCyclesFactor := setting }
  | .nonEdges => { c with nonEdges := setting }
  | .invalidTraversal => { c with invalidTraversal := setting }
  | .invalidTraversalCycles => { c with invalidTraversalCycles := setting }
  | .invalidTraversalSelf => { c with invalidTraversalSelf := setting }

/-- What is written to a family is read from it, and from no other family. -/
theorem weights_put (c : Constraints K) (penalty p : Penalty) (setting : Option K) :
    (c.put penalty setting).weights p = if p = penalty then setting else c.weights p := by
  cases penalty <;> cases p <;> rfl

/-- Writing to a family leaves the flags alone. -/
@[simp] theorem doubleCountEdges_put (c : Constraints K) (penalty : Penalty)
    (setting : Option K) : (c.put penalty setting).doubleCountEdges = c.doubleCountEdges := by
  cases penalty <;> rfl

@[simp] theorem doubleCountCycles_put (c : Constraints K) (penalty : Penalty)
    (setting : Option K) : (c.put penalty setting).doubleCountCycles = c.doubleCountCycles := by
  cases penalty <;> rfl

/-- Nothing is set in the empty configuration. -/
@[simp] theorem weights_empty (p : Penalty) : (empty : Constraints K).weights p = none := by
  cases p <;> rfl

/-- The flags are no weights. -/
@[simp] theorem weights_flags (c : Constraints K) (edges cycles : Bool) :
    { c with doubleCountEdges := edges, doubleCountCycles := cycles }.weights = c.weights := rfl

/-- Every field belongs to a family or is a flag. -/
theorem ext_weights {c d : Constraints K} (hweights : ∀ p, c.weights p = d.weights p)
    (hedges : c.doubleCountEdges = d.doubleCountEdges)
    (hcycles : c.doubleCountCycles = d.doubleCountCycles) : c = d := by
  cases c
  cases d
  simp only [mk.injEq]
  exact ⟨hweights .startNodeScore, hweights .terminalNodeScore, hweights .diagonal,
    hweights .nodesWithEdges, hweights .oneNodeManyPositions, hweights .onePositionManyNodes,
    hweights .edges, hweights .edgeWeightsFactor, hweights .edgeWeightsCyclesFactor,
    hweights .nonEdges, hweights .invalidTraversal, hweights .invalidTraversalCycles,
    hweights .invalidTraversalSelf, hedges, hcycles⟩

/-- Gives a family a weight. -/
def set (c : Constraints K) (penalty : Penalty) (weight : K) : Constraints K :=
  c.put penalty (some weight)

/-- Takes the weight of a family away. -/
def clear (c : Constraints K) (penalty : Penalty) : Constraints K := c.put penalty none

/-- After a family was given a weight, it has this weight. -/
theorem weights_set (c : Constraints K) (penalty p : Penalty) (w : K) :
    (c.set penalty w).weights p = if p = penalty then some w else c.weights p :=
  c.weights_put penalty p (some w)

@[simp] theorem doubleCountEdges_set (c : Constraints K) (penalty : Penalty) (w : K) :
    (c.set penalty w).doubleCountEdges = c.doubleCountEdges :=
  c.doubleCountEdges_put penalty (some w)

@[simp] theorem doubleCountCycles_set (c : Constraints K) (penalty : Penalty) (w : K) :
    (c.set penalty w).doubleCountCycles = c.doubleCountCycles :=
  c.doubleCountCycles_put penalty (some w)

/-- After the weight of a family was taken away, it has none. -/
theorem weights_clear (c : Constraints K) (penalty p : Penalty) :
    (c.clear penalty).weights p = if p = penalty then none else c.weights p :=
  c.weights_put penalty p none

/-- Gives several families their weights. -/
def setAll (c : Constraints K) (entries : List (Penalty × K)) : Constraints K :=
  entries.foldl (fun c e => c.set e.1 e.2) c

/-- Whether a family also writes the pairs `v > w`. -/
def doubleCounts (c : Constraints K) : Penalty → Bool
  | .edges | .nonEdges | .edgeWeightsFactor | .invalidTraversal => c.doubleCountEdges
  | .edgeWeightsCyclesFactor | .invalidTraversalCycles => c.doubleCountCycles
  | _ => false

variable [Coefficient K]

/-- The weight a family is compiled with: none when unset or zero. -/
def weight (c : Constraints K) (penalty : Penalty) : Option K :=
  (c.weights penalty).filter fun w => !Coefficient.isZero w

/-- Whether a family is compiled. -/
def isEnabled (c : Constraints K) (penalty : Penalty) : Bool := (c.weight penalty).isSome

/-- The compiled families with their weights, in declaration order. -/
def enabled (c : Constraints K) : List (Penalty × K) :=
  Penalty.all.filterMap fun p => (c.weight p).map fun w => (p, w)

/-- Whether no family is compiled. -/
def isEmpty (c : Constraints K) : Bool := c.enabled.isEmpty

/-- A set weight of the family that is NaN or infinite. -/
def nonFinite? (c : Constraints K) (penalty : Penalty) : Option (Penalty × K) :=
  ((c.weights penalty).filter fun w => !Coefficient.isFinite w).map fun w => (penalty, w)

/-- The first family whose weight is NaN or infinite, with that weight. -/
def firstNonFinite? (c : Constraints K) : Option (Penalty × K) :=
  Penalty.all.findSome? c.nonFinite?

/-- Refuses a weight that is NaN or infinite. -/
def validate (c : Constraints K) : Except (ConfigError K) Unit :=
  match c.firstNonFinite? with
  | none => .ok ()
  | some (penalty, weight) => .error (.nonFiniteWeight penalty weight)

/-- Applies one named value: a flag is switched by any value but zero, every
other key must name a family. -/
def applyPair (c : Constraints K) (pair : String × K) : Except (ConfigError K) (Constraints K) :=
  if pair.1 = doubleCountEdgesKey then
    .ok { c with doubleCountEdges := !Coefficient.isZero pair.2 }
  else if pair.1 = doubleCountCyclesKey then
    .ok { c with doubleCountCycles := !Coefficient.isZero pair.2 }
  else match Penalty.ofName? pair.1 with
    | some penalty => .ok (c.set penalty pair.2)
    | none => .error (.unknownPenalty pair.1)

/-- The configuration that named values describe.  All keys are read before
any weight is checked. -/
def ofPairs (pairs : List (String × K)) : Except (ConfigError K) (Constraints K) := do
  let c ← pairs.foldlM applyPair empty
  c.validate
  return c

/-- Whether two optional weights are both unset or the same. -/
def sameSetting : Option K → Option K → Bool
  | none, none => true
  | some v, some w => Coefficient.same v w
  | _, _ => false

/-- Whether two configurations have the same settings. -/
def same (c d : Constraints K) : Bool :=
  (Penalty.all.all fun p => sameSetting (c.weights p) (d.weights p))
    && c.doubleCountEdges == d.doubleCountEdges
    && c.doubleCountCycles == d.doubleCountCycles

end Constraints

end GraphQubo

import FusionGraph.Foundations.Checked
import FusionGraph.Foundations.LabelSet
import FusionGraph.Ontology.Schema

/-!
# Validation of an ontology

The validator goes through the definitions five times: for repeated node labels, for
repeated edge labels, for edges between undefined nodes, for computed properties
without exactly one of a node and an edge, and for temporal edges without a
partition column, which is only a warning. `validateOrError` returns the first
error, and accepts an ontology without one.

What an accepted ontology refers to is there, with one exception: whether the label
that a computed property names is defined is not looked at
(`accepted_closed_iff`).
-/

set_option autoImplicit false

namespace FusionGraph

open Foundations Foundations.LabelSet

/-- What a validation error is about. -/
inductive ValidationErrorKind where
  /-- An edge references an undefined node label. -/
  | danglingEdge (edge node : String)
  /-- A node or edge label is repeated. -/
  | duplicateLabel (kind label : String)
  /-- A computed property does not target exactly one graph object. -/
  | invalidComputedPropertyTarget (property : String) (node edge : Option String)
  deriving DecidableEq, Repr

/-- Validation error. -/
structure ValidationError where
  code : String
  message : String
  kind : ValidationErrorKind
  deriving DecidableEq, Repr

/-- Validation warning. -/
structure ValidationWarning where
  code : String
  message : String
  deriving DecidableEq, Repr

/-- Result of the validation. -/
structure ValidationResult where
  errors : List ValidationError
  warnings : List ValidationWarning
  deriving DecidableEq, Repr

/-- Whether there is no error. -/
def ValidationResult.isValid (self : ValidationResult) : Bool := self.errors.isEmpty

/-- The error for a label that is repeated. -/
def duplicateLabelError (kind label : String) : ValidationError where
  code := "FG-ONT-E004"
  message := s!"Duplicate {kind} label '{label}'"
  kind := .duplicateLabel kind label

namespace EdgeDefinition

/-- The error for a node label of an edge that is not defined. -/
def danglingError (self : EdgeDefinition) (node : String) : ValidationError where
  code := "FG-ONT-E003"
  message := s!"Edge '{self.label}' references undefined node '{node}'"
  kind := .danglingEdge self.label node

/-- The errors of the two node labels of an edge. -/
def danglingErrors (self : EdgeDefinition) (nodeLabels : List String) : List ValidationError :=
  [self.fromNode, self.toNode].flatMap fun node =>
    if node ∈ nodeLabels then [] else [self.danglingError node]

/-- The warning about a temporal edge without a partition column. -/
def partitionWarnings (self : EdgeDefinition) : List ValidationWarning :=
  if self.validFromColumn.isSome && self.partitionColumn.isNone then
    [{ code := "FG-ONT-W002"
       message := s!"Temporal edge '{self.label}' has no partition hint; full scans may occur" }]
  else []

end EdgeDefinition

/-- The error of a computed property that names both a node and an edge, or neither. -/
def ComputedProperty.targetErrors (self : ComputedProperty) : List ValidationError :=
  if self.node.isSome = self.edge.isSome then
    [{ code := "FG-ONT-E007"
       message := s!"Computed property '{self.name}' must target exactly one of node or edge"
       kind := .invalidComputedPropertyTarget self.name self.node self.edge }]
  else []

/-- The errors of the validation. -/
inductive OntologyError where
  | danglingEdge (edge node : String)
  | duplicateLabel (kind label : String)
  | invalidComputedPropertyTarget (property : String) (node edge : Option String)
  deriving DecidableEq, Repr

/-- A character in a debug print of a string. Which characters are printed as they are
depends on the tables of the Unicode version. -/
def debugChar (printed : Char → Bool) : Char → String
  | '\x00' => "\\0"
  | '\t' => "\\t"
  | '\r' => "\\r"
  | '\n' => "\\n"
  | '\\' => "\\\\"
  | '\"' => "\\\""
  | other =>
    if printed other then other.toString
    else "\\u\x7b" ++ String.ofList (Nat.toDigits 16 other.toNat) ++ "\x7d"

/-- A debug print of an optional string. -/
def debugOption (printed : Char → Bool) : Option String → String
  | none => "None"
  | some text => "Some(\"" ++ String.join (text.toList.map (debugChar printed)) ++ "\")"

/-- `OntologyError` in an error message. -/
def OntologyError.display (printed : Char → Bool) : OntologyError → String
  | .danglingEdge edge node => s!"FG-ONT-E003: Edge '{edge}' references undefined node '{node}'"
  | .duplicateLabel kind label => s!"FG-ONT-E004: Duplicate {kind} label '{label}'"
  | .invalidComputedPropertyTarget property node edge =>
      let node := debugOption printed node
      let edge := debugOption printed edge
      s!"FG-ONT-E007: Computed property '{property}' must target exactly one of node or edge " ++
        s!"(node={node}, edge={edge})"

/-- The ASCII characters that a debug print shows as they are. -/
def printedAscii (char : Char) : Bool := decide (32 ≤ char.toNat ∧ char.toNat < 127)

/-- A tab has an escape of its own, another control character its number. -/
example : OntologyError.display printedAscii
    (.invalidComputedPropertyTarget "risk" (some "a\t\x1b") none) =
      "FG-ONT-E007: Computed property 'risk' must target exactly one of node or edge " ++
        "(node=Some(\"a\\t\\u\x7b1b\x7d\"), edge=None)" := by
  decide

/-- The error that is returned for a validation error. -/
def ValidationErrorKind.toError : ValidationErrorKind → OntologyError
  | .danglingEdge edge node => .danglingEdge edge node
  | .duplicateLabel kind label => .duplicateLabel kind label
  | .invalidComputedPropertyTarget property node edge =>
      .invalidComputedPropertyTarget property node edge

namespace Ontology

/-- Validates the ontology structure. -/
def validate (self : Ontology) : ValidationResult :=
  let (repeatedNodes, nodeLabels) := insertAll (self.nodes.map NodeDefinition.label) []
  let (repeatedEdges, _) := insertAll (self.edges.map EdgeDefinition.label) []
  { errors :=
      repeatedNodes.map (duplicateLabelError "node") ++
      repeatedEdges.map (duplicateLabelError "edge") ++
      self.edges.flatMap (fun edge => edge.danglingErrors nodeLabels) ++
      self.properties.flatMap ComputedProperty.targetErrors
    warnings := self.edges.flatMap EdgeDefinition.partitionWarnings }

/-- Validates and returns the first error. -/
def validateOrError (self : Ontology) : Checked OntologyError Unit :=
  match self.validate.errors.head? with
  | none => .ok ()
  | some error => Checked.fail error.kind.toError

/-! ## What is accepted -/

theorem danglingErrors_eq_nil_iff {edge : EdgeDefinition} {nodeLabels : List String} :
    edge.danglingErrors nodeLabels = [] ↔
      edge.fromNode ∈ nodeLabels ∧ edge.toNode ∈ nodeLabels := by
  simp [EdgeDefinition.danglingErrors]

theorem targetErrors_eq_nil_iff {property : ComputedProperty} :
    property.targetErrors = [] ↔ property.node.isSome ≠ property.edge.isSome := by
  simp [ComputedProperty.targetErrors]

/-- What the validator checks. -/
structure Checks (ontology : Ontology) : Prop where
  nodeLabels : (ontology.nodes.map NodeDefinition.label).Nodup
  edgeLabels : (ontology.edges.map EdgeDefinition.label).Nodup
  endpoints : ∀ edge ∈ ontology.edges, edge.fromNode ∈ ontology.nodes.map NodeDefinition.label ∧
    edge.toNode ∈ ontology.nodes.map NodeDefinition.label
  targets : ∀ property ∈ ontology.properties, property.node.isSome ≠ property.edge.isSome

/-- The set of node labels that the validator collects. -/
theorem mem_nodeLabels {self : Ontology} {label : String} :
    label ∈ (insertAll (self.nodes.map NodeDefinition.label) []).2 ↔
      label ∈ self.nodes.map NodeDefinition.label := by
  rw [mem_insertAll_snd]
  simp

/-- **The validator finds no error exactly when the checks pass.** -/
theorem isValid_validate_iff (self : Ontology) : self.validate.isValid = true ↔ self.Checks := by
  rw [ValidationResult.isValid, List.isEmpty_iff, validate]
  simp only [List.append_eq_nil_iff, List.map_eq_nil_iff, insertAll_fst_eq_nil_iff,
    List.flatMap_eq_nil_iff, danglingErrors_eq_nil_iff, targetErrors_eq_nil_iff, mem_nodeLabels,
    List.not_mem_nil, not_false_eq_true, implies_true, and_true]
  exact ⟨fun ⟨⟨⟨nodes, edges⟩, endpoints⟩, targets⟩ => ⟨nodes, edges, endpoints, targets⟩,
    fun checks => ⟨⟨⟨checks.nodeLabels, checks.edgeLabels⟩, checks.endpoints⟩, checks.targets⟩⟩

/-- **An ontology is accepted exactly when it passes the checks.** -/
theorem validateOrError_eq_ok_iff (self : Ontology) :
    self.validateOrError = .ok () ↔ self.Checks := by
  rw [← isValid_validate_iff, ValidationResult.isValid, List.isEmpty_iff, validateOrError]
  cases self.validate.errors with
  | nil => simp
  | cons error rest => simp [Checked.fail]

/-! ## References -/

/-- The label leads to a node definition, and to one only. -/
def ResolvesNode (self : Ontology) (label : String) : Prop :=
  ∃ definition, self.node label = some definition ∧
    self.nodes.filter (fun other => other.label = label) = [definition]

/-- The label leads to an edge definition, and to one only. -/
def ResolvesEdge (self : Ontology) (label : String) : Prop :=
  ∃ definition, self.edge label = some definition ∧
    self.edges.filter (fun other => other.label = label) = [definition]

/-- Every label that the ontology refers to leads to exactly one definition, and the
graphs of its edges have different names. -/
structure ReferenceClosed (ontology : Ontology) : Prop where
  nodeLabels : (ontology.nodes.map NodeDefinition.label).Nodup
  edgeLabels : (ontology.edges.map EdgeDefinition.label).Nodup
  endpoints : ∀ edge ∈ ontology.edges,
    ontology.ResolvesNode edge.fromNode ∧ ontology.ResolvesNode edge.toNode
  nodeTargets : ∀ property ∈ ontology.properties, ∀ label ∈ property.node,
    ontology.ResolvesNode label
  edgeTargets : ∀ property ∈ ontology.properties, ∀ label ∈ property.edge,
    ontology.ResolvesEdge label
  graphNames : (ontology.edges.map ontology.graphName).Nodup

/-- The labels that computed properties name are labels of definitions. -/
def TargetsDefined (self : Ontology) : Prop :=
  ∀ property ∈ self.properties,
    (∀ label ∈ property.node, label ∈ self.nodes.map NodeDefinition.label) ∧
      ∀ label ∈ property.edge, label ∈ self.edges.map EdgeDefinition.label

namespace Checks

variable {self : Ontology} (checks : self.Checks)

include checks

theorem resolvesNode_iff {label : String} :
    self.ResolvesNode label ↔ label ∈ self.nodes.map NodeDefinition.label :=
  resolves_iff checks.nodeLabels

theorem resolvesEdge_iff {label : String} :
    self.ResolvesEdge label ↔ label ∈ self.edges.map EdgeDefinition.label :=
  resolves_iff checks.edgeLabels

/-- The graphs of the edges have different names. -/
theorem graphNames_nodup : (self.edges.map self.graphName).Nodup := by
  have labels := checks.edgeLabels
  rw [List.Nodup, List.pairwise_map] at labels ⊢
  exact labels.imp fun different same => different (label_eq_of_graphName_eq same)

end Checks

/-- **An accepted ontology is closed under references exactly when its computed
properties name defined labels.** -/
theorem accepted_closed_iff (self : Ontology) (accepted : self.validateOrError = .ok ()) :
    self.ReferenceClosed ↔ self.TargetsDefined := by
  have checks := (validateOrError_eq_ok_iff self).mp accepted
  constructor
  · intro closed property member
    refine ⟨fun label named => ?_, fun label named => ?_⟩
    · exact checks.resolvesNode_iff.mp (closed.nodeTargets property member label named)
    · exact checks.resolvesEdge_iff.mp (closed.edgeTargets property member label named)
  · intro defined
    refine ⟨checks.nodeLabels, checks.edgeLabels, fun edge member => ?_,
      fun property member label named => ?_, fun property member label named => ?_,
      checks.graphNames_nodup⟩
    · obtain ⟨source, target⟩ := checks.endpoints edge member
      exact ⟨checks.resolvesNode_iff.mpr source, checks.resolvesNode_iff.mpr target⟩
    · exact checks.resolvesNode_iff.mpr ((defined property member).1 label named)
    · exact checks.resolvesEdge_iff.mpr ((defined property member).2 label named)

/-- Users that follow each other, with one computed property. -/
def follows (property : ComputedProperty) : Ontology where
  ontology := { name := "social" }
  settings := { defaultNodeIdType := .u64 }
  nodes := [{ label := "User", idTransform := .passthrough }]
  edges := [{
    label := "FOLLOWS", source := "follows", fromNode := "User", fromColumn := "follower",
    toNode := "User", toColumn := "followee", weightColumn := none, weightDefault := 1.0,
    validFromColumn := none, validToColumn := none, partitionColumn := none }]
  properties := [property]

theorem accepted_closed_iff_witness :
    (follows { name := "score", node := some "User", edge := none }).ReferenceClosed :=
  (accepted_closed_iff _ (by decide)).mpr fun property member => by
    obtain rfl := List.mem_singleton.mp member
    simp [follows]

/-- A computed property of a node that is not defined is accepted. -/
theorem dangling_property_is_accepted :
    (follows { name := "score", node := some "Ghost", edge := none }).validateOrError = .ok () ∧
      ¬ (follows { name := "score", node := some "Ghost", edge := none }).ReferenceClosed := by
  refine ⟨by decide, fun closed => ?_⟩
  obtain ⟨definition, found, -⟩ := closed.nodeTargets _ List.mem_cons_self "Ghost" rfl
  simp [node, follows] at found

end Ontology

end FusionGraph

import Mathlib.Data.Nat.Notation

/-!
# Ontologies

An ontology declares the nodes and the edges of a graph over tables, and computed
properties of them. Definitions refer to each other by label, and a label is looked
up by its first occurrence. Of each definition the fields are kept that the
validator, the loader and the table provider read.
-/

set_option autoImplicit false

namespace FusionGraph

/-- Ontology metadata. -/
structure OntologyMeta where
  /-- The name of the ontology, empty when it has none. -/
  name : String

/-- The type of node identifiers. -/
inductive IdType where
  | u32
  | u64
  | u128
  | string
  deriving DecidableEq, Repr

/-- Global ontology settings. -/
structure OntologySettings where
  defaultNodeIdType : IdType

/-- How the identifiers of a node table become numbers. -/
inductive IdTransform where
  | passthrough
  | hashU64
  | hashU32
  | uuidToU128
  | extractNumeric
  deriving DecidableEq, Repr

/-- Node definition. -/
structure NodeDefinition where
  label : String
  idTransform : IdTransform

/-- Edge definition. -/
structure EdgeDefinition where
  label : String
  /-- The table of the edges. -/
  source : String
  /-- The label of the source node. -/
  fromNode : String
  fromColumn : String
  /-- The label of the target node. -/
  toNode : String
  toColumn : String
  weightColumn : Option String
  /-- Default weight if the column is null. -/
  weightDefault : Float
  validFromColumn : Option String
  validToColumn : Option String
  partitionColumn : Option String

/-- Computed property definition. -/
structure ComputedProperty where
  name : String
  /-- The label of a node; mutually exclusive with `edge`. -/
  node : Option String
  /-- The label of an edge; mutually exclusive with `node`. -/
  edge : Option String

/-- Complete ontology definition. -/
structure Ontology where
  ontology : OntologyMeta
  settings : OntologySettings
  nodes : List NodeDefinition
  edges : List EdgeDefinition
  properties : List ComputedProperty

namespace Ontology

def name (self : Ontology) : String := self.ontology.name

/-- Finds a node definition by label. -/
def node (self : Ontology) (label : String) : Option NodeDefinition :=
  self.nodes.find? fun definition => definition.label = label

/-- Finds an edge definition by label. -/
def edge (self : Ontology) (label : String) : Option EdgeDefinition :=
  self.edges.find? fun definition => definition.label = label

/-- The name that the graph of an edge definition is registered under. -/
def graphName (self : Ontology) (edge : EdgeDefinition) : String :=
  if self.name = "" then edge.label else s!"{self.name}.{edge.label}"

/-- The graphs of differently labelled edges have different names. -/
theorem label_eq_of_graphName_eq {self : Ontology} {first second : EdgeDefinition}
    (same : self.graphName first = self.graphName second) : first.label = second.label := by
  rw [graphName, graphName] at same
  split at same
  · exact same
  · have texts := congrArg String.toList same
    simp only [String.toList_append, List.append_cancel_left_eq] at texts
    exact String.toList_inj.mp texts

end Ontology

end FusionGraph

import FusionGraph.Catalog.Concurrent
import FusionGraph.Catalog.OntologyLoader

/-!
# A registration that fails

The loader registers the graph of a definition before it builds the next one, and
the first error ends the loop. What was registered until then stays: a failed
registration has bound the names of the definitions before the failing one
(`failed_registration_keeps_prefix`), and no other name. The names of an accepted
ontology are distinct, so no definition takes the name of another.

Only when the validator rejects the ontology, or the first definition fails, is the
catalog as it was.
-/

set_option autoImplicit false

namespace FusionGraph

open Foundations

/-! ## Binding a name -/

namespace GraphCatalog

variable {Dictionary : Type} {catalog : GraphCatalog Dictionary}

theorem WellFormed.new : (GraphCatalog.new : GraphCatalog Dictionary).WellFormed where
  bound name entry bound := by cases bound
  forward entry bound := absurd bound (Nat.not_lt_zero entry)

theorem WellFormed.allocGraph (wellFormed : catalog.WellFormed) (graph : CsrGraph) :
    (catalog.allocGraph graph).2.WellFormed where
  bound := wellFormed.bound
  forward entry bound := Nat.lt_succ_of_lt (wellFormed.forward entry bound)

theorem entry_bindEntry_of_ne {name other : String} (entry : GraphEntry Dictionary)
    (different : other ≠ name) : (catalog.bindEntry name entry).entry other = catalog.entry other :=
  AList.lookup_insert_ne different

theorem entries_bindEntry_of_lt {name : String} {ref : EntryRef} (entry : GraphEntry Dictionary)
    (inUse : ref < catalog.entryCount) :
    (catalog.bindEntry name entry).entries ref = catalog.entries ref :=
  Function.update_of_ne (Nat.ne_of_lt inUse) ..

theorem WellFormed.bindEntry (wellFormed : catalog.WellFormed) (name : String)
    {entry : GraphEntry Dictionary} (inUse : entry.forward < catalog.graphCount) :
    (catalog.bindEntry name entry).WellFormed where
  bound other ref bound := by
    rcases eq_or_ne other name with rfl | different
    · rw [entry_bindEntry, Option.some.injEq] at bound
      exact bound ▸ Nat.lt_succ_self _
    · rw [entry_bindEntry_of_ne _ different] at bound
      exact Nat.lt_succ_of_lt (wellFormed.bound other ref bound)
  forward ref bound := by
    rcases Nat.lt_succ_iff_lt_or_eq.mp bound with old | rfl
    · rw [entries_bindEntry_of_lt _ old]
      exact wellFormed.forward ref old
    · rw [entries_bindEntry_self]
      exact inUse

/-- Both catalogs show the same graph and the same dictionary under the name. -/
structure SameBinding (before after : GraphCatalog Dictionary) (name : String) : Prop where
  get : after.get name = before.get name
  graph : ∀ ref, before.get name = some ref → after.graphs ref = before.graphs ref
  dictionary : after.dictionary name = before.dictionary name

theorem SameBinding.refl (catalog : GraphCatalog Dictionary) (name : String) :
    catalog.SameBinding catalog name := ⟨rfl, fun _ _ => rfl, rfl⟩

theorem SameBinding.trans {first second third : GraphCatalog Dictionary} {name : String}
    (left : first.SameBinding second name) (right : second.SameBinding third name) :
    first.SameBinding third name where
  get := right.get.trans left.get
  graph ref bound := (right.graph ref (left.get.trans bound)).trans (left.graph ref bound)
  dictionary := right.dictionary.trans left.dictionary

theorem WellFormed.get_lt (wellFormed : catalog.WellFormed) {name : String} {ref : GraphRef}
    (bound : catalog.get name = some ref) : ref < catalog.graphCount := by
  obtain ⟨entry, found, rfl⟩ := Option.map_eq_some_iff.mp bound
  exact wellFormed.forward entry (wellFormed.bound name entry found)

theorem WellFormed.sameBinding_allocGraph (wellFormed : catalog.WellFormed) (name : String)
    (graph : CsrGraph) :
    catalog.SameBinding (catalog.allocGraph graph).2 name where
  get := rfl
  graph _ bound := Function.update_of_ne (wellFormed.get_lt bound).ne ..
  dictionary := rfl

/-- Binding a name keeps what the other names show. -/
theorem WellFormed.sameBinding_bindEntry (wellFormed : catalog.WellFormed)
    {name other : String} (entry : GraphEntry Dictionary) (different : other ≠ name) :
    catalog.SameBinding (catalog.bindEntry name entry) other := by
  have found : (catalog.bindEntry name entry).entry other = catalog.entry other :=
    entry_bindEntry_of_ne entry different
  have entries : ∀ ref ∈ catalog.entry other,
      (catalog.bindEntry name entry).entries ref = catalog.entries ref :=
    fun ref bound => entries_bindEntry_of_lt _ (wellFormed.bound other ref bound)
  refine ⟨?_, fun ref bound => rfl, ?_⟩
  · rw [get, found]
    exact Option.map_congr fun ref bound => congrArg GraphEntry.forward (entries ref bound)
  · rw [GraphCatalog.dictionary, found]
    exact Option.bind_congr fun ref bound => congrArg GraphEntry.dictionary (entries ref bound)

/-- The name is bound to the graph and to the dictionary. -/
structure Shows (catalog : GraphCatalog Dictionary) (name : String) (graph : CsrGraph)
    (dictionary : Option Dictionary) : Prop where
  graph : (catalog.get name).map catalog.graphs = some graph
  dictionary : catalog.dictionary name = dictionary

theorem Shows.of_sameBinding {before after : GraphCatalog Dictionary} {name : String}
    {graph : CsrGraph} {dictionary : Option Dictionary}
    (shows : before.Shows name graph dictionary) (same : before.SameBinding after name) :
    after.Shows name graph dictionary where
  graph := by
    rw [same.get, ← shows.graph]
    exact Option.map_congr same.graph
  dictionary := same.dictionary.trans shows.dictionary

/-- The catalog after a new graph is registered under a name. -/
def bindGraph (self : GraphCatalog Dictionary) (name : String) (graph : CsrGraph)
    (dictionary : Option Dictionary) : GraphCatalog Dictionary :=
  (self.allocGraph graph).2.bindEntry name
    { forward := self.graphCount, reverse := none, dictionary := dictionary }

section BindGraph

variable (wellFormed : catalog.WellFormed) (name : String) (graph : CsrGraph)
  (dictionary : Option Dictionary)

theorem shows_bindGraph :
    (catalog.bindGraph name graph dictionary).Shows name graph dictionary := by
  constructor
  · rw [bindGraph, GraphCatalog.get, entry_bindEntry, Option.map_some, entries_bindEntry_self]
    exact congrArg some (Function.update_self ..)
  · rw [bindGraph, GraphCatalog.dictionary, entry_bindEntry, Option.bind_some,
      entries_bindEntry_self]

include wellFormed

theorem WellFormed.bindGraph : (catalog.bindGraph name graph dictionary).WellFormed :=
  (wellFormed.allocGraph graph).bindEntry name (Nat.lt_succ_self _)

/-- Registering a graph leaves the other names. -/
theorem WellFormed.sameBinding_bindGraph {other : String} (different : other ≠ name) :
    catalog.SameBinding (catalog.bindGraph name graph dictionary) other :=
  (wellFormed.sameBinding_allocGraph other graph).trans
    ((wellFormed.allocGraph graph).sameBinding_bindEntry _ different)

end BindGraph

end GraphCatalog

/-! ## Registering one definition -/

/-- The graph of a definition and its dictionary, when it has one. -/
def EdgeDefinition.projected (self : EdgeDefinition) (ctx : SessionContext) (ontology : Ontology)
    (asOf : Option String) : Checked DataFusionError (CsrGraph × Option NodeDictionary) :=
  Checked.mapError self.context
    (if ontology.needsDictionary self then
      (self.buildKeyedGraph ctx asOf).map fun built => (built.1, some built.2)
    else (self.buildEdgeGraph ctx ontology asOf).map fun graph => (graph, none))

section Register

variable {ctx : SessionContext} {ontology : Ontology} {asOf : Option String}
  {catalog : GraphCatalog NodeDictionary} {edge : EdgeDefinition}

/-- **A definition is registered under its name when it is projected**, and else leaves
the catalog. -/
theorem registerEdge_eq :
    registerEdge ctx ontology asOf catalog edge =
      match edge.projected ctx ontology asOf with
      | .error fault => (.error fault, catalog)
      | .ok (graph, dictionary) =>
        (.ok (ontology.graphName edge),
          catalog.bindGraph (ontology.graphName edge) graph dictionary) := by
  rw [registerEdge, EdgeDefinition.projected]
  by_cases keyed : ontology.needsDictionary edge
  · rw [if_pos keyed, if_pos keyed]
    cases edge.buildKeyedGraph ctx asOf with
    | ok built => rfl
    | error fault => cases fault <;> rfl
  · rw [if_neg keyed, if_neg keyed]
    cases edge.buildEdgeGraph ctx ontology asOf with
    | ok graph => rfl
    | error fault => cases fault <;> rfl

end Register

/-! ## Registering definitions in order -/

/-- The catalog `after` the definitions in `done` are registered in `before`. -/
structure Registered (ctx : SessionContext) (ontology : Ontology) (asOf : Option String)
    (before : GraphCatalog NodeDictionary) (done : List EdgeDefinition)
    (after : GraphCatalog NodeDictionary) : Prop where
  wellFormed : after.WellFormed
  /-- Every definition is projected and bound to what was projected. -/
  bound : ∀ edge ∈ done, ∃ graph dictionary,
    edge.projected ctx ontology asOf = .ok (graph, dictionary) ∧
      after.Shows (ontology.graphName edge) graph dictionary
  /-- Every other name is as before. -/
  kept : ∀ name ∉ done.map ontology.graphName, before.SameBinding after name

namespace Registered

variable {ctx : SessionContext} {ontology : Ontology} {asOf : Option String}
  {before catalog : GraphCatalog NodeDictionary} {done : List EdgeDefinition}
  {edge : EdgeDefinition}

theorem nil (wellFormed : catalog.WellFormed) :
    Registered ctx ontology asOf catalog [] catalog where
  wellFormed := wellFormed
  bound _ member := absurd member List.not_mem_nil
  kept name _ := .refl catalog name

/-- One definition more, under a name that is not taken by those before it. -/
theorem snoc (registered : Registered ctx ontology asOf before done catalog)
    (fresh : ontology.graphName edge ∉ done.map ontology.graphName) {graph : CsrGraph}
    {dictionary : Option NodeDictionary}
    (projected : edge.projected ctx ontology asOf = .ok (graph, dictionary)) :
    Registered ctx ontology asOf before (done ++ [edge])
      (catalog.bindGraph (ontology.graphName edge) graph dictionary) where
  wellFormed := registered.wellFormed.bindGraph ..
  bound other member := by
    rcases List.mem_append.mp member with earlier | last
    · obtain ⟨built, keys, found, shows⟩ := registered.bound other earlier
      have different : ontology.graphName other ≠ ontology.graphName edge := fun same =>
        fresh (same ▸ List.mem_map_of_mem earlier)
      have same := registered.wellFormed.sameBinding_bindGraph (ontology.graphName edge) graph
        dictionary different
      exact ⟨built, keys, found, shows.of_sameBinding same⟩
    · obtain rfl := List.mem_singleton.mp last
      exact ⟨graph, dictionary, projected, GraphCatalog.shows_bindGraph ..⟩
  kept name absent := by
    simp only [List.map_append, List.map_cons, List.map_nil, List.mem_append, List.mem_singleton,
      not_or] at absent
    exact (registered.kept name absent.1).trans
      (registered.wellFormed.sameBinding_bindGraph _ graph dictionary absent.2)

end Registered

/-- The outcome of registering the definitions in `rest` after those in `done`. -/
inductive RegistrationOutcome (ctx : SessionContext) (ontology : Ontology) (asOf : Option String)
    (before : GraphCatalog NodeDictionary) (done rest : List EdgeDefinition) :
    Checked DataFusionError (List String) × GraphCatalog NodeDictionary → Prop where
  | finished (after : GraphCatalog NodeDictionary)
      (registered : Registered ctx ontology asOf before (done ++ rest) after) :
      RegistrationOutcome ctx ontology asOf before done rest
        (.ok ((done ++ rest).map ontology.graphName), after)
  | stopped (more : List EdgeDefinition) (failing : EdgeDefinition) (skipped : List EdgeDefinition)
      (fault : Fault DataFusionError) (after : GraphCatalog NodeDictionary)
      (split : rest = more ++ failing :: skipped)
      (failed : failing.projected ctx ontology asOf = .error fault)
      (registered : Registered ctx ontology asOf before (done ++ more) after) :
      RegistrationOutcome ctx ontology asOf before done rest (.error fault, after)

/-- A definition that is registered may be counted with those that follow. -/
theorem RegistrationOutcome.cons {ctx : SessionContext} {ontology : Ontology}
    {asOf : Option String} {before : GraphCatalog NodeDictionary} {edge : EdgeDefinition}
    {done rest : List EdgeDefinition}
    {result : Checked DataFusionError (List String) × GraphCatalog NodeDictionary}
    (outcome : RegistrationOutcome ctx ontology asOf before (done ++ [edge]) rest result) :
    RegistrationOutcome ctx ontology asOf before done (edge :: rest) result := by
  cases outcome with
  | finished after registered =>
    rw [List.append_assoc] at registered ⊢
    exact .finished after registered
  | stopped more failing skipped fault after split failed registered =>
    rw [List.append_assoc] at registered
    exact .stopped (edge :: more) failing skipped fault after (congrArg (edge :: ·) split) failed
      registered

section Run

variable {ctx : SessionContext} {ontology : Ontology} {asOf : Option String}
  {before catalog : GraphCatalog NodeDictionary}

/-- **The loop registers every definition, or those before the first that fails.** -/
theorem registerEdges_outcome (rest : List EdgeDefinition) {done : List EdgeDefinition}
    (distinct : ((done ++ rest).map ontology.graphName).Nodup)
    (registered : Registered ctx ontology asOf before done catalog) :
    RegistrationOutcome ctx ontology asOf before done rest
      (registerEdges ctx ontology asOf rest (done.map ontology.graphName) catalog) := by
  induction rest generalizing done catalog with
  | nil =>
      have all : Registered ctx ontology asOf before (done ++ []) catalog := by
        simpa using registered
      simpa [registerEdges] using RegistrationOutcome.finished catalog all
  | cons edge rest ih =>
      rw [registerEdges, registerEdge_eq]
      cases projected : edge.projected ctx ontology asOf with
      | error fault =>
        exact .stopped [] edge rest fault catalog rfl projected (by simpa using registered)
      | ok built =>
        obtain ⟨graph, dictionary⟩ := built
        have fresh : ontology.graphName edge ∉ done.map ontology.graphName := by
          simp only [List.map_append, List.map_cons, List.nodup_append',
            List.disjoint_cons_right] at distinct
          exact distinct.2.2.1
        have moved := ih (by simpa using distinct) (registered.snoc fresh projected)
        simp only [List.map_append, List.map_cons, List.map_nil] at moved
        exact moved.cons

/-- A call either registers definitions in order, or is rejected by the validator. -/
theorem registerOntologyGraphsAsOf_outcome (ctx : SessionContext) (ontology : Ontology)
    (asOf : Option String) (wellFormed : catalog.WellFormed) :
    (∃ fault, ontology.validateOrError ≠ .ok () ∧
      registerOntologyGraphsAsOf ctx ontology catalog asOf = (.error fault, catalog)) ∨
    RegistrationOutcome ctx ontology asOf catalog [] ontology.edges
      (registerOntologyGraphsAsOf ctx ontology catalog asOf) := by
  rw [registerOntologyGraphsAsOf]
  cases accepted : ontology.validateOrError with
  | error fault =>
    refine .inl ?_
    cases fault with
    | error reason => exact ⟨_, nofun, rfl⟩
    | abort cause => exact ⟨_, nofun, rfl⟩
  | ok value =>
    have checks := (Ontology.validateOrError_eq_ok_iff ontology).mp accepted
    exact .inr (registerEdges_outcome ontology.edges checks.graphNames_nodup (.nil wellFormed))

end Run

/-- **A failed registration binds the names of the definitions before the failing one,
and no other name**; rejected by the validator, it leaves the catalog. -/
theorem failed_registration_keeps_prefix (ctx : SessionContext) (ontology : Ontology)
    (catalog final : GraphCatalog NodeDictionary) (asOf : Option String)
    (wellFormed : catalog.WellFormed) (fault : Fault DataFusionError)
    (failed : registerOntologyGraphsAsOf ctx ontology catalog asOf = (.error fault, final)) :
    (ontology.validateOrError ≠ .ok () ∧ final = catalog) ∨
    ∃ done failing skipped, ontology.edges = done ++ failing :: skipped ∧
      failing.projected ctx ontology asOf = .error fault ∧
      Registered ctx ontology asOf catalog done final := by
  rcases registerOntologyGraphsAsOf_outcome ctx ontology asOf wellFormed with
    ⟨other, rejected, same⟩ | outcome
  · rw [failed, Prod.mk.injEq] at same
    exact .inl ⟨rejected, same.2⟩
  · rw [failed] at outcome
    cases outcome with
    | stopped more failing skipped fault after split stops registered =>
      exact .inr ⟨more, failing, skipped, split, stops, registered⟩

/-! ## Two definitions, and a table that is missing -/

namespace Ontology

/-- Users that follow and block each other. -/
def social : Ontology :=
  let follows := Ontology.follows { name := "score", node := some "User", edge := none }
  { follows with
    edges := follows.edges ++
      follows.edges.map fun edge => { edge with label := "BLOCKS", source := "blocks" } }

end Ontology

/-- A session with one table, without rows. -/
def SessionContext.withTable (name : String) : SessionContext where
  scan query :=
    if query.edge.source = name then .ok []
    else Checked.fail (.plan s!"No table named '{query.edge.source}'")
  collect query :=
    if query.edge.source = name then .ok []
    else Checked.fail (.plan s!"No table named '{query.edge.source}'")
  millis _ _ := 0
  printed := printedAscii

theorem failed_registration_keeps_prefix_witness :
    ∃ fault final, registerOntologyGraphsAsOf (.withTable "follows") Ontology.social .new none =
        (.error fault, final) ∧
      ∃ done failing skipped, Ontology.social.edges = done ++ failing :: skipped ∧
        failing.projected (.withTable "follows") Ontology.social none = .error fault ∧
        Registered (.withTable "follows") Ontology.social none .new done final := by
  refine ⟨_, _, rfl, ?_⟩
  rcases failed_registration_keeps_prefix (.withTable "follows") Ontology.social .new _ none
    .new _ rfl with ⟨rejected, -⟩ | stopped
  · exact absurd (by decide) rejected
  · exact stopped

/-- Without the table of the second definition, the graph of the first stays. -/
theorem missing_second_table_keeps_first_graph :
    ∃ final, registerOntologyGraphsAsOf (.withTable "follows") Ontology.social .new none =
        (Checked.fail (.context "while projecting edge 'BLOCKS' from table 'blocks'"
          (.plan "No table named 'blocks'")), final) ∧
      ¬ ∀ name, (GraphCatalog.new : GraphCatalog NodeDictionary).SameBinding final name := by
  refine ⟨(registerOntologyGraphsAsOf (.withTable "follows") Ontology.social .new none).2, rfl,
    fun same => ?_⟩
  have added : ((registerOntologyGraphsAsOf (.withTable "follows") Ontology.social .new none).2.get
      "social.FOLLOWS").isSome := by decide
  rw [(same "social.FOLLOWS").get] at added
  cases added

end FusionGraph

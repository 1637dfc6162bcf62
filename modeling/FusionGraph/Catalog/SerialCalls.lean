import FusionGraph.Catalog.Concurrent
import FusionGraph.Catalog.Replay

/-!
# Calls one after the other

What a name shows after a list of calls: the registry writes decide to which of
the shared graphs it is bound (`GraphCatalog.get_runWrites`), and a compaction
changes at most how much of the delta layer of that graph is left. Three orders
cover what a list of calls can end with: the compactions find nothing to do on
the graph (`serial_untouched`), the first of them that is due compacts it
(`serial_compacted`), or one of them empties its delta layer before the name is
bound to it for the last time (`serial_emptied`).
-/

set_option autoImplicit false

namespace FusionGraph

open Foundations

/-! ## Compacting a whole delta layer -/

namespace CsrGraph

variable {graph compacted : CsrGraph}

/-- The rebuild of a compaction that drains the whole delta layer. -/
def rebuildAll (graph : CsrGraph) : Outcome CsrGraph :=
  graph.rebuild graph.delta.snapshotDeletions graph.delta.snapshotInsertions

/-- A rebuild reads the base layer only. -/
theorem rebuild_withDelta (delta : DeltaLayer) (deletions : List EdgeKey)
    (insertions : List (EdgeKey × EdgeData)) :
    (graph.withDelta delta).rebuild deletions insertions = graph.rebuild deletions insertions := rfl

/-- A graph without pending mutations is never compacted. -/
theorem shouldCompact_of_clean (clean : graph.delta = .new) (policy : CompactionPolicy) :
    graph.shouldCompact policy = false := by
  rw [shouldCompact_eq, clean]
  rfl

/-- **A compaction of the whole delta layer changes no edge.** -/
theorem Sound.hasEdge_rebuildAll (sound : graph.Sound)
    (rebuilt : graph.rebuildAll = .ok compacted) :
    compacted.hasEdge = graph.hasEdge := by
  obtain ⟨soundNew, -, live⟩ := sound.has_rebuild rebuilt
  funext source target
  have same : compacted.Has (source, target) ↔ graph.Has (source, target) := by
    have apart := sound.disjoint (source, target)
    rw [live, sound.has_iff, DeltaLayer.mem_snapshotDeletions,
      DeltaLayer.map_fst_snapshotInsertions, ← AList.mem_keys]
    tauto
  exact soundNew.hasEdge_eq_of_iff sound same

/-- A rebuild without mutations has the edges of the base layer. -/
theorem Sound.hasEdge_rebuild_nil (sound : graph.Sound)
    (rebuilt : graph.rebuild [] [] = .ok compacted) :
    compacted.hasEdge = (graph.withDelta .new).hasEdge := by
  obtain ⟨soundNew, -, live⟩ := sound.has_rebuild rebuilt
  have soundBase := sound.withDelta .new
  funext source target
  have same : compacted.Has (source, target) ↔ (graph.withDelta .new).Has (source, target) := by
    rw [live, soundBase.has_iff]
    simp
  exact soundNew.hasEdge_eq_of_iff soundBase same

end CsrGraph

/-! ## The registry writes -/

variable {Dictionary : Type}

namespace RegistryWrite

/-- The graph that the name is bound to afterwards. -/
def target : RegistryWrite Dictionary → Option GraphRef
  | register graph => some graph
  | registerWithReverse forward _ => some forward
  | registerWithDictionary forward _ => some forward
  | deregister => none

/-- The graph that the name is bound to after several writes. -/
def boundAfter (bound : Option GraphRef) (writes : List (RegistryWrite Dictionary)) :
    Option GraphRef :=
  writes.foldl (fun _ write => write.target) bound

variable {bound : Option GraphRef} {writes more : List (RegistryWrite Dictionary)}
  {write : RegistryWrite Dictionary}

theorem boundAfter_append :
    boundAfter bound (writes ++ more) = boundAfter (boundAfter bound writes) more :=
  List.foldl_append

@[simp] theorem boundAfter_concat : boundAfter bound (writes ++ [write]) = write.target :=
  boundAfter_append

/-- Some write decides alone. -/
theorem boundAfter_of_ne_nil (other : Option GraphRef) (some : writes ≠ []) :
    boundAfter bound writes = boundAfter other writes := by
  cases writes with
  | nil => exact absurd rfl some
  | cons write rest => rfl

/-- The name was not bound to the graph at some time. -/
def Elsewhere (bound : Option GraphRef) (log : List (RegistryWrite Dictionary)) (ref : GraphRef) :
    Prop :=
  ∃ before after, log = before ++ after ∧ boundAfter bound before ≠ some ref

/-- The name was bound to the graph at some time, and there was a write after that. -/
def Rebound (bound : Option GraphRef) (log : List (RegistryWrite Dictionary)) (ref : GraphRef) :
    Prop :=
  ∃ before after, log = before ++ after ∧ after ≠ [] ∧ boundAfter bound before = some ref

variable {log : List (RegistryWrite Dictionary)} {ref : GraphRef}

theorem Elsewhere.of_ne (other : boundAfter bound log ≠ some ref) : Elsewhere bound log ref :=
  ⟨log, [], (List.append_nil log).symm, other⟩

theorem Elsewhere.mono (elsewhere : Elsewhere bound log ref) (grows : log <+: more) :
    Elsewhere bound more ref := by
  obtain ⟨before, after, rfl, other⟩ := elsewhere
  obtain ⟨later, rfl⟩ := grows
  exact ⟨before, after ++ later, List.append_assoc .., other⟩

theorem Rebound.of_write (here : boundAfter bound log = some ref) :
    Rebound bound (log ++ [write]) ref :=
  ⟨log, [write], rfl, List.cons_ne_nil _ _, here⟩

theorem Rebound.mono (rebound : Rebound bound log ref) (grows : log <+: more) :
    Rebound bound more ref := by
  obtain ⟨before, after, rfl, some, here⟩ := rebound
  obtain ⟨later, rfl⟩ := grows
  exact ⟨before, after ++ later, List.append_assoc .., List.append_ne_nil_of_left_ne_nil some _,
    here⟩

end RegistryWrite

namespace GraphCatalog

open RegistryWrite

variable {catalog : GraphCatalog Dictionary} {name : String} {ref : GraphRef}

/-- What a name shows: nothing, or the answers of the graph that it is bound to. -/
def binding (catalog : GraphCatalog Dictionary) (name : String) :
    Option (ℕ → ℕ → Outcome Bool) :=
  (catalog.get name).map fun ref => (catalog.graphs ref).hasEdge

theorem binding_of_get (bound : catalog.get name = some ref) :
    catalog.binding name = some (catalog.graphs ref).hasEdge := by
  rw [binding, bound, Option.map_some]

theorem get_bindEntry (catalog : GraphCatalog Dictionary) (name : String)
    (entry : GraphEntry Dictionary) :
    (catalog.bindEntry name entry).get name = some entry.forward := by
  rw [get, entry_bindEntry, Option.map_some, entries_bindEntry_self]

/-- A registry write binds the name to its target and changes no graph. -/
theorem run_write (catalog : GraphCatalog Dictionary) (name : String)
    (write : RegistryWrite Dictionary) :
    (write.run name catalog).get name = write.target ∧
      (write.run name catalog).graphs = catalog.graphs ∧
      (write.run name catalog).graphCount = catalog.graphCount := by
  cases write with
  | register graph => exact ⟨get_bindEntry _ _ _, rfl, rfl⟩
  | registerWithReverse forward reverse => exact ⟨get_bindEntry _ _ _, rfl, rfl⟩
  | registerWithDictionary forward dictionary => exact ⟨get_bindEntry _ _ _, rfl, rfl⟩
  | deregister =>
    refine ⟨?_, rfl, rfl⟩
    have erased : (RegistryWrite.deregister.run name catalog).entry name = none :=
      AList.lookup_erase name catalog.registry
    rw [get, erased]
    rfl

/-- The effect of several calls, one after the other. -/
def runCalls (name : String) (catalog : GraphCatalog Dictionary)
    (calls : List (CatalogCall Dictionary)) : GraphCatalog Dictionary :=
  calls.foldl (CatalogCall.run name) catalog

@[simp] theorem runCalls_append (calls more : List (CatalogCall Dictionary)) :
    catalog.runCalls name (calls ++ more) = (catalog.runCalls name calls).runCalls name more :=
  List.foldl_append

theorem runCalls_cons (call : CatalogCall Dictionary) (calls : List (CatalogCall Dictionary)) :
    catalog.runCalls name (call :: calls) = (call.run name catalog).runCalls name calls := rfl

/-- **Registry writes, one after the other.** -/
theorem get_runWrites (writes : List (RegistryWrite Dictionary)) :
    (catalog.runCalls name (writes.map .write)).get name = boundAfter (catalog.get name) writes ∧
      (catalog.runCalls name (writes.map .write)).graphs = catalog.graphs ∧
      (catalog.runCalls name (writes.map .write)).graphCount = catalog.graphCount := by
  induction writes generalizing catalog with
  | nil => exact ⟨rfl, rfl, rfl⟩
  | cons write rest ih =>
      obtain ⟨bound, graphs, count⟩ := catalog.run_write name write
      obtain ⟨boundRest, graphsRest, countRest⟩ := @ih (write.run name catalog)
      refine ⟨boundRest.trans ?_, graphsRest.trans graphs, countRest.trans count⟩
      rw [bound]
      rfl

/-! ## Compactions -/

/-- A compaction that is not due changes nothing. -/
theorem compactIfNeeded_of_not_due {policy : CompactionPolicy}
    (idle : ∀ ref, catalog.get name = some ref →
      (catalog.graphs ref).shouldCompact policy = false) :
    (catalog.compactIfNeeded name policy).1 = catalog := by
  cases found : catalog.entry name with
  | none => simp only [compactIfNeeded, found]
  | some entry =>
    have calm := idle (catalog.entries entry).forward (by rw [get, found, Option.map_some])
    simp only [compactIfNeeded, found, calm, Bool.false_eq_true, if_false]

/-- **A compaction that is due** empties the delta layer of the graph, and binds
the name to the new graph if the rebuild succeeds. -/
theorem compactIfNeeded_of_due {policy : CompactionPolicy} (bound : catalog.get name = some ref)
    (due : (catalog.graphs ref).shouldCompact policy = true) :
    (∃ fault, (catalog.graphs ref).rebuildAll = .error fault ∧
      (catalog.compactIfNeeded name policy).1 =
        catalog.setGraph ref ((catalog.graphs ref).withDelta .new)) ∨
    ∃ compacted entry, (catalog.graphs ref).rebuildAll = .ok compacted ∧
      entry.forward = catalog.graphCount ∧
      (catalog.compactIfNeeded name policy).1 =
        ((catalog.setGraph ref ((catalog.graphs ref).withDelta .new)).allocGraph
          (replay compacted [] [])).2.bindEntry name entry := by
  cases found : catalog.entry name with
  | none => simp [get, found] at bound
  | some entry =>
    obtain rfl : (catalog.entries entry).forward = ref := by simpa [get, found] using bound
    generalize known : catalog.graphs (catalog.entries entry).forward = graph at due ⊢
    have drains : graph.compact = (graph.withDelta .new, graph.rebuildAll) := by
      simp only [CsrGraph.compact, DeltaLayer.drainDeletions_eq, DeltaLayer.drainInsertions_eq]
      rfl
    simp only [compactIfNeeded, found, known, due, if_true, drains]
    cases outcome : graph.rebuildAll with
    | error fault => exact .inl ⟨fault, rfl, rfl⟩
    | ok compacted => exact .inr ⟨compacted, _, rfl, rfl, rfl⟩

/-- Compactions that are not due change nothing. -/
theorem runCompactions_of_not_due {policies : List CompactionPolicy}
    (idle : ∀ ref, catalog.get name = some ref → ∀ policy ∈ policies,
      (catalog.graphs ref).shouldCompact policy = false) :
    catalog.runCalls name (policies.map .compactIfNeeded) = catalog := by
  induction policies with
  | nil => rfl
  | cons policy rest ih =>
      have first : (catalog.compactIfNeeded name policy).1 = catalog :=
        compactIfNeeded_of_not_due fun ref bound => idle ref bound policy List.mem_cons_self
      have later := ih fun ref bound policy member =>
        idle ref bound policy (List.mem_cons_of_mem _ member)
      rw [List.map_cons, runCalls_cons, CatalogCall.run, first]
      exact later

/-- **Compactions leave a graph alone** on which none of them is due while the name
is bound to it. -/
theorem graphs_runCompactions {policies : List CompactionPolicy} (inUse : ref < catalog.graphCount)
    (idle : catalog.get name = some ref → ∀ policy ∈ policies,
      (catalog.graphs ref).shouldCompact policy = false) :
    (catalog.runCalls name (policies.map .compactIfNeeded)).graphs ref = catalog.graphs ref := by
  induction policies generalizing catalog with
  | nil => rfl
  | cons policy rest ih =>
      -- the first compaction leaves the graph alone and does not bind the name to it
      have first : ref < (catalog.compactIfNeeded name policy).1.graphCount ∧
          (catalog.compactIfNeeded name policy).1.graphs ref = catalog.graphs ref ∧
          ((catalog.compactIfNeeded name policy).1.get name = some ref →
            catalog.get name = some ref) := by
        cases bound : catalog.get name with
        | none =>
          rw [compactIfNeeded_of_not_due (by simp [bound])]
          exact ⟨inUse, rfl, fun here => bound.symm.trans here⟩
        | some found =>
          by_cases due : (catalog.graphs found).shouldCompact policy = true
          · have other : ref ≠ found := by
              rintro rfl
              rw [idle bound policy List.mem_cons_self] at due
              cases due
            rcases compactIfNeeded_of_due bound due with
              ⟨fault, -, after⟩ | ⟨new, entry, -, fresh, after⟩
            · rw [after]
              exact ⟨inUse, graphs_setGraph_of_ne _ _ _ other, fun here => bound.symm.trans here⟩
            · rw [after]
              refine ⟨Nat.lt_succ_of_lt inUse, ?_, fun here => ?_⟩
              · exact (Function.update_of_ne inUse.ne _ _).trans
                  (graphs_setGraph_of_ne _ _ _ other)
              · rw [get_bindEntry, fresh, Option.some.injEq] at here
                exact absurd here inUse.ne'
          · rw [compactIfNeeded_of_not_due fun ref here => by
              obtain rfl := Option.some.inj (bound.symm.trans here)
              exact Bool.eq_false_of_not_eq_true due]
            exact ⟨inUse, rfl, fun here => bound.symm.trans here⟩
      obtain ⟨inUseAfter, same, back⟩ := first
      refine (ih inUseAfter fun here policy member => ?_).trans same
      rw [same]
      exact idle (back here) policy (List.mem_cons_of_mem _ member)

/-- **Compactions of a graph whose rebuild succeeds** change no edge of what the name
shows. -/
theorem binding_runCompactions {policies : List CompactionPolicy}
    (bound : catalog.get name = some ref) (sound : (catalog.graphs ref).Sound)
    {compacted : CsrGraph} (rebuilt : (catalog.graphs ref).rebuildAll = .ok compacted) :
    (catalog.runCalls name (policies.map .compactIfNeeded)).binding name =
      some (catalog.graphs ref).hasEdge := by
  induction policies with
  | nil => exact binding_of_get bound
  | cons policy rest ih =>
      rw [List.map_cons, runCalls_cons, CatalogCall.run]
      by_cases due : (catalog.graphs ref).shouldCompact policy = true
      · rcases compactIfNeeded_of_due bound due with
          ⟨fault, failed, -⟩ | ⟨new, entry, same, fresh, after⟩
        · cases failed.symm.trans rebuilt
        · obtain rfl := Except.ok.inj (same.symm.trans rebuilt)
          have clean := (sound.has_rebuild rebuilt).2.1
          rw [after]
          generalize moved : ((catalog.setGraph ref _).allocGraph (replay new [] [])).2.bindEntry
            name entry = next
          have here : next.get name = some catalog.graphCount := by
            rw [← moved, get_bindEntry, fresh]
          have graph : next.graphs catalog.graphCount = new := by
            rw [← moved]
            exact Function.update_self ..
          have rested : next.runCalls name (rest.map .compactIfNeeded) = next := by
            refine runCompactions_of_not_due fun found same policy _ => ?_
            obtain rfl := Option.some.inj (here.symm.trans same)
            rw [graph]
            exact CsrGraph.shouldCompact_of_clean clean policy
          rw [rested, binding_of_get here, graph, sound.hasEdge_rebuildAll rebuilt]
      · have calm : (catalog.compactIfNeeded name policy).1 = catalog :=
          compactIfNeeded_of_not_due fun found same => by
            obtain rfl := Option.some.inj (bound.symm.trans same)
            exact Bool.eq_false_of_not_eq_true due
        rw [calm]
        exact ih

end GraphCatalog

/-! ## Serial orders -/

namespace CatalogCall

/-- The registry write that the call is. -/
def asWrite : CatalogCall Dictionary → Option (RegistryWrite Dictionary)
  | write call => some call
  | compactIfNeeded _ => none

/-- The policy of the compaction that the call is. -/
def asPolicy : CatalogCall Dictionary → Option CompactionPolicy
  | write _ => none
  | compactIfNeeded policy => some policy

/-- All compactions at one place among the registry writes. -/
def inOrder (before : List (RegistryWrite Dictionary)) (policies : List CompactionPolicy)
    (after : List (RegistryWrite Dictionary)) : List (CatalogCall Dictionary) :=
  before.map .write ++ (policies.map .compactIfNeeded ++ after.map .write)

theorem perm_writes_append_policies (calls : List (CatalogCall Dictionary)) :
    calls.Perm ((calls.filterMap asPolicy).map .compactIfNeeded ++
      (calls.filterMap asWrite).map .write) := by
  induction calls with
  | nil => exact .nil
  | cons call rest ih =>
      cases call with
      | write call => exact (ih.cons _).trans List.perm_middle.symm
      | compactIfNeeded policy => exact ih.cons _

/-- The calls in another order. -/
theorem inOrder_perm {calls : List (CatalogCall Dictionary)}
    {before after : List (RegistryWrite Dictionary)} {policies : List CompactionPolicy}
    (writes : (calls.filterMap asWrite).Perm (before ++ after))
    (compactions : (calls.filterMap asPolicy).Perm policies) :
    (inOrder before policies after).Perm calls := by
  refine List.Perm.symm ((perm_writes_append_policies calls).trans ?_)
  refine ((compactions.map _).append (writes.map _)).trans ?_
  rw [List.map_append, ← List.append_assoc, inOrder, ← List.append_assoc]
  exact List.perm_append_comm.append_right _

end CatalogCall

namespace GraphCatalog

open RegistryWrite CatalogCall

variable {catalog : GraphCatalog Dictionary} {name : String} {ref : GraphRef}
  {before after writes : List (RegistryWrite Dictionary)} {policies : List CompactionPolicy}

/-- What the name shows after registry writes that bind it to a graph. -/
theorem binding_runWrites (bound : boundAfter (catalog.get name) writes = some ref) :
    (catalog.runCalls name (writes.map .write)).binding name =
      some (catalog.graphs ref).hasEdge := by
  obtain ⟨get, graphs, -⟩ := @get_runWrites Dictionary catalog name writes
  rw [binding_of_get (get.trans bound), graphs]

/-- Compactions that find nothing to do on a graph, and the registry writes after
them, the last of which binds the name to the graph. -/
theorem binding_of_idle {middle : GraphCatalog Dictionary} (inUse : ref < middle.graphCount)
    (bound : boundAfter (catalog.get name) (before ++ after) = some ref)
    (kept : after = [] → middle.get name = some ref)
    (idle : middle.get name = some ref → ∀ policy ∈ policies,
      (middle.graphs ref).shouldCompact policy = false) :
    ((middle.runCalls name (policies.map .compactIfNeeded)).runCalls name
      (after.map .write)).binding name = some (middle.graphs ref).hasEdge := by
  rw [binding_runWrites, graphs_runCompactions inUse idle]
  by_cases none : after = []
  · have here := kept none
    rw [none, runCompactions_of_not_due fun found same => ?_]
    · exact here
    · obtain rfl := Option.some.inj (here.symm.trans same)
      exact idle here
  · rw [boundAfter_append] at bound
    rw [← bound]
    exact boundAfter_of_ne_nil _ none

/-- The name is not bound after writes that remove it last. -/
theorem serial_absent (absent : boundAfter (catalog.get name) writes = none) :
    (catalog.runCalls name (inOrder writes policies [])).binding name = none := by
  obtain ⟨get, -, -⟩ := @get_runWrites Dictionary catalog name writes
  have unbound := get.trans absent
  rw [inOrder, runCalls_append, List.map_nil, List.append_nil,
    runCompactions_of_not_due (by simp [unbound]), binding, unbound, Option.map_none]

/-- **Compactions that find nothing to do** on the graph that the name is bound to in
the end. -/
theorem serial_untouched (inUse : ref < catalog.graphCount)
    (bound : boundAfter (catalog.get name) (before ++ after) = some ref)
    (idle : boundAfter (catalog.get name) before = some ref → ∀ policy ∈ policies,
      (catalog.graphs ref).shouldCompact policy = false) :
    (catalog.runCalls name (inOrder before policies after)).binding name =
      some (catalog.graphs ref).hasEdge := by
  obtain ⟨get, graphs, count⟩ := @get_runWrites Dictionary catalog name before
  rw [inOrder, runCalls_append, runCalls_append]
  generalize catalog.runCalls name (before.map .write) = first at get graphs count ⊢
  rw [← graphs] at idle ⊢
  rw [← get] at idle
  refine binding_of_idle (count ▸ inUse) bound (fun none => get.trans ?_) idle
  rwa [none, List.append_nil] at bound

/-- **Compactions after the last registry write**, of a graph whose rebuild succeeds. -/
theorem serial_compacted (bound : boundAfter (catalog.get name) writes = some ref)
    (sound : (catalog.graphs ref).Sound) {compacted : CsrGraph}
    (rebuilt : (catalog.graphs ref).rebuildAll = .ok compacted) :
    (catalog.runCalls name (inOrder writes policies [])).binding name =
      some (catalog.graphs ref).hasEdge := by
  obtain ⟨get, graphs, -⟩ := @get_runWrites Dictionary catalog name writes
  rw [inOrder, runCalls_append, List.map_nil, List.append_nil]
  rw [← graphs] at sound rebuilt ⊢
  exact binding_runCompactions (get.trans bound) sound rebuilt

/-- **A compaction that empties the delta layer of the graph** to which the name is
bound in the end: the name is bound to the graph once more after it, or the rebuild
fails. -/
theorem serial_emptied {first : CompactionPolicy} (inUse : ref < catalog.graphCount)
    (here : boundAfter (catalog.get name) before = some ref)
    (bound : boundAfter (catalog.get name) (before ++ after) = some ref)
    (due : (catalog.graphs ref).shouldCompact first = true)
    (fails : after = [] → ∀ compacted, (catalog.graphs ref).rebuildAll ≠ .ok compacted) :
    (catalog.runCalls name (inOrder before (first :: policies) after)).binding name =
      some ((catalog.graphs ref).withDelta .new).hasEdge := by
  obtain ⟨get, graphs, count⟩ := @get_runWrites Dictionary catalog name before
  rw [inOrder, runCalls_append, runCalls_append, List.map_cons, runCalls_cons, CatalogCall.run]
  generalize catalog.runCalls name (before.map .write) = found at get graphs count ⊢
  rw [← graphs] at due fails ⊢
  have now := get.trans here
  have emptied : ref < (found.compactIfNeeded name first).1.graphCount ∧
      (found.compactIfNeeded name first).1.graphs ref = (found.graphs ref).withDelta .new ∧
      (after = [] → (found.compactIfNeeded name first).1.get name = some ref) := by
    rcases compactIfNeeded_of_due now due with ⟨fault, -, next⟩ | ⟨new, entry, same, fresh, next⟩
    · rw [next]
      exact ⟨count ▸ inUse, graphs_setGraph_self .., fun _ => now⟩
    · rw [next]
      refine ⟨Nat.lt_succ_of_lt (count ▸ inUse), ?_, fun none => absurd same (fails none new)⟩
      exact (Function.update_of_ne (count ▸ inUse).ne _ _).trans (graphs_setGraph_self ..)
  obtain ⟨inUseNext, empty, stays⟩ := emptied
  generalize (found.compactIfNeeded name first).1 = next at inUseNext empty stays ⊢
  have clean : (next.graphs ref).delta = .new := by rw [empty, CsrGraph.delta_withDelta]
  have calm : ∀ policy ∈ policies, (next.graphs ref).shouldCompact policy = false :=
    fun policy _ => CsrGraph.shouldCompact_of_clean clean policy
  rw [binding_of_idle inUseNext bound stays fun _ => calm, empty]

/-! ## The order of some calls -/

section Orders

variable {calls : List (CatalogCall Dictionary)} {log : List (RegistryWrite Dictionary)}

theorem exists_order_absent (written : (calls.filterMap asWrite).Perm log)
    (absent : boundAfter (catalog.get name) log = none) :
    ∃ order : List (CatalogCall Dictionary), order.Perm calls ∧
      (catalog.runCalls name order).binding name = none := by
  rw [← List.append_nil log] at written
  exact ⟨_, inOrder_perm written (.refl _), serial_absent absent⟩

/-- The compactions run while the name is not bound to the graph, or none of them is
due on it. -/
theorem exists_order_untouched (written : (calls.filterMap asWrite).Perm log)
    (bound : boundAfter (catalog.get name) log = some ref) (inUse : ref < catalog.graphCount)
    (idle : Elsewhere (catalog.get name) log ref ∨ ∀ policy ∈ calls.filterMap asPolicy,
      (catalog.graphs ref).shouldCompact policy = false) :
    ∃ order : List (CatalogCall Dictionary), order.Perm calls ∧
      (catalog.runCalls name order).binding name = some (catalog.graphs ref).hasEdge := by
  rcases idle with ⟨before, after, rfl, other⟩ | calm
  · exact ⟨_, inOrder_perm written (.refl _),
      serial_untouched inUse bound fun here => absurd here other⟩
  · rw [← List.append_nil log] at written bound
    exact ⟨_, inOrder_perm written (.refl _), serial_untouched inUse bound fun _ => calm⟩

/-- The compactions run after the writes. -/
theorem exists_order_compacted (written : (calls.filterMap asWrite).Perm log)
    (bound : boundAfter (catalog.get name) log = some ref) (sound : (catalog.graphs ref).Sound)
    {compacted : CsrGraph} (rebuilt : (catalog.graphs ref).rebuildAll = .ok compacted) :
    ∃ order : List (CatalogCall Dictionary), order.Perm calls ∧
      (catalog.runCalls name order).binding name = some (catalog.graphs ref).hasEdge := by
  rw [← List.append_nil log] at written
  exact ⟨_, inOrder_perm written (.refl _), serial_compacted bound sound rebuilt⟩

/-- A compaction that is due runs while the name is bound to the graph, and the others
after it. -/
theorem exists_order_emptied (written : (calls.filterMap asWrite).Perm log)
    (bound : boundAfter (catalog.get name) log = some ref) (inUse : ref < catalog.graphCount)
    (due : ∃ policy ∈ calls.filterMap asPolicy, (catalog.graphs ref).shouldCompact policy = true)
    (left : (∀ compacted, (catalog.graphs ref).rebuildAll ≠ .ok compacted) ∨
      Rebound (catalog.get name) log ref) :
    ∃ order : List (CatalogCall Dictionary), order.Perm calls ∧
      (catalog.runCalls name order).binding name =
        some ((catalog.graphs ref).withDelta .new).hasEdge := by
  obtain ⟨first, member, due⟩ := due
  obtain ⟨earlier, later, split⟩ := List.append_of_mem member
  have compactions : (calls.filterMap asPolicy).Perm (first :: (earlier ++ later)) := by
    rw [split]
    exact List.perm_middle
  rcases left with fails | ⟨before, after, rfl, some, here⟩
  · rw [← List.append_nil log] at written
    exact ⟨_, inOrder_perm written compactions,
      serial_emptied inUse bound (by rwa [List.append_nil]) due fun _ => fails⟩
  · exact ⟨_, inOrder_perm written compactions,
      serial_emptied inUse here bound due fun none => absurd none some⟩

end Orders

end GraphCatalog

end FusionGraph

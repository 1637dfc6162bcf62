import FusionGraph.Exec.StreamedBuild

/-!
# The outcome of a build stream

A poll of the input leaves nothing but a longer buffer, or ends the stream. So a
stream returns one item: the statistics of the graph that the builder makes of
the rows of all batches, or the first error on the way. The outcome is the same
when a batch is split, when batches are joined and when the input lets the stream
wait.
-/

set_option autoImplicit false

namespace FusionGraph

open Foundations Foundations.PolledStream

namespace Exec

variable {schema : Schema}

/-- The builder with the given edges. -/
def CsrBuildConfig.builderOf (config : CsrBuildConfig) (rows : List (EdgeRow ℕ)) : CsrBuilder :=
  if config.weightColumn.isSome then
    (CsrBuilder.new.withShardSize config.shardSize).withWeightedEdges rows
  else
    (CsrBuilder.new.withShardSize config.shardSize).withEdges
      (rows.map fun row => (row.1, row.2.1))

/-- The graph of the given edges, or the error of the builder. -/
def CsrBuildConfig.built (config : CsrBuildConfig) (rows : List (EdgeRow ℕ)) :
    Checked DataFusionError CsrGraph :=
  Checked.mapError (fun e => .execution s!"CSR build failed: {e.display}")
    (config.builderOf rows).build

/-- The graph of a buffer and of the input that is still to come. -/
def CsrBuildConfig.outcome (config : CsrBuildConfig) :
    List (InputPoll schema) → List (EdgeRow ℕ) → Checked DataFusionError CsrGraph
  | [], buffered => config.built buffered
  | .pending :: rest, buffered => config.outcome rest buffered
  | .err reason :: _, _ => Checked.fail reason
  | .ok batch :: rest, buffered => config.absorb buffered batch >>= config.outcome rest

/-- The configuration after the outcome: the sink has received the graph. -/
def CsrBuildConfig.settle (config : CsrBuildConfig) :
    Checked DataFusionError CsrGraph → CsrBuildConfig
  | .ok graph => config.publish graph
  | .error _ => config

/-- The statistics of the graph. -/
def statistics (outcome : Checked DataFusionError CsrGraph) (millis : ℕ) :
    Checked DataFusionError (RecordBatch statsSchema) :=
  outcome.map fun graph => statsBatch graph millis

namespace CsrBuildStream

/-! ## One poll -/

/-- A stream that has not finished, with the given edges in its buffers. -/
def collecting (config : CsrBuildConfig) (input : List (InputPoll schema))
    (rows : List (EdgeRow ℕ)) : CsrBuildStream schema :=
  (CsrBuildStream.new input config).holding rows

variable {config : CsrBuildConfig} {rest : List (InputPoll schema)} {rows : List (EdgeRow ℕ)}

theorem collecting_nil (config : CsrBuildConfig) (input : List (InputPoll schema)) :
    collecting config input [] = .new input config := by
  simp [collecting, holding, new]

theorem pollNext_ok (batch : RecordBatch schema) (millis : ℕ) :
    (collecting config (.ok batch :: rest) rows).pollNext millis =
      match (collecting config rest rows).extractEdges batch with
      | (.error fault, next) => (.ready (some (.error fault)), { next with finished := true })
      | (.ok (), next) => (.pending, next) := rfl

/-- A batch that the buffer absorbs leaves nothing but a longer buffer. -/
theorem pollNext_absorbed {batch : RecordBatch schema} {longer : List (EdgeRow ℕ)}
    (absorbed : config.absorb rows batch = .ok longer) (millis : ℕ) :
    (collecting config (.ok batch :: rest) rows).pollNext millis =
      (.pending, collecting config rest longer) := by
  have extracted := extractEdges_holding (CsrBuildStream.new rest config) batch rows
  rw [show (CsrBuildStream.new rest config).config = config from rfl, absorbed] at extracted
  rw [pollNext_ok, collecting, extracted]
  rfl

/-- A batch that the buffer does not absorb ends the stream with the error. -/
theorem pollNext_refused {batch : RecordBatch schema} {fault : Fault DataFusionError}
    (refused : config.absorb rows batch = .error fault) (millis : ℕ) :
    ∃ final, (collecting config (.ok batch :: rest) rows).pollNext millis =
        (.ready (some (.error fault)), final) ∧
      final.finished = true ∧ final.config = config := by
  have extracted := extractEdges_holding (CsrBuildStream.new rest config) batch rows
  have kept := (collecting config rest rows).extractEdges_config batch
  rw [show (CsrBuildStream.new rest config).config = config from rfl, refused] at extracted
  dsimp only at extracted
  rw [pollNext_ok]
  rw [collecting] at kept ⊢
  generalize ((CsrBuildStream.new rest config).holding rows).extractEdges batch = pair at *
  obtain ⟨result, next⟩ := pair
  obtain rfl : result = .error fault := extracted
  exact ⟨_, rfl, rfl, kept⟩

/-- The buffers make the builder of their edges. -/
theorem takeBuilder_collecting (config : CsrBuildConfig) (rows : List (EdgeRow ℕ)) :
    (@collecting schema config [] rows).takeBuilder.1 = config.builderOf rows ∧
      (@collecting schema config [] rows).takeBuilder.2.config = config := by
  cases weighted : config.weightColumn.isSome with
  | false =>
    simp [takeBuilder, CsrBuildConfig.builderOf, collecting, holding, new, weighted]
  | true =>
    simp [takeBuilder, CsrBuildConfig.builderOf, collecting, holding, new, weighted,
      List.zip_map', List.map_map, Function.comp_def]

theorem buildCsr_collecting (config : CsrBuildConfig) (rows : List (EdgeRow ℕ)) (millis : ℕ) :
    ((@collecting schema config [] rows).buildCsr millis).1 =
        statistics (config.built rows) millis ∧
      ((@collecting schema config [] rows).buildCsr millis).2.config =
        config.settle (config.built rows) := by
  obtain ⟨builder, kept⟩ := @takeBuilder_collecting schema config rows
  rw [CsrBuildConfig.built, ← builder, buildCsr]
  dsimp only
  cases Checked.mapError (fun e => DataFusionError.execution s!"CSR build failed: {e.display}")
      (@collecting schema config [] rows).takeBuilder.1.build with
  | ok graph => exact ⟨rfl, congrArg (fun config => config.publish graph) kept⟩
  | error fault => exact ⟨rfl, kept⟩

/-- The end of the input ends the stream with the statistics of the graph. -/
theorem pollNext_end (config : CsrBuildConfig) (rows : List (EdgeRow ℕ)) (millis : ℕ) :
    ∃ final, (@collecting schema config [] rows).pollNext millis =
        (.ready (some (statistics (config.built rows) millis)), final) ∧
      final.finished = true ∧ final.config = config.settle (config.built rows) := by
  obtain ⟨result, settled⟩ := @buildCsr_collecting schema config rows millis
  refine ⟨{ ((@collecting schema config [] rows).buildCsr millis).2 with finished := true }, ?_,
    rfl, settled⟩
  rw [← result]
  rfl

/-- A stream that has finished has ended. -/
theorem ended_of_finished {stream : CsrBuildStream schema} (finished : stream.finished = true) :
    Ended pollNext stream := fun millis => by
  rw [pollNext, if_pos finished]

/-- A poll without an answer leaves the configuration as it is. -/
theorem config_of_pending (stream : CsrBuildStream schema) (millis : ℕ)
    (pending : (stream.pollNext millis).1 = .pending) :
    (stream.pollNext millis).2.config = stream.config := by
  rw [pollNext] at pending ⊢
  split at pending
  · cases pending
  · rename_i unfinished
    rw [if_neg unfinished]
    cases answers : stream.input with
    | nil => simp [answers] at pending
    | cons answer rest =>
      cases answer with
      | pending => rfl
      | err reason => rfl
      | ok batch =>
        have kept := { stream with input := rest }.extractEdges_config batch
        dsimp only
        generalize { stream with input := rest }.extractEdges batch = pair at kept ⊢
        obtain ⟨result, next⟩ := pair
        cases result with
        | ok _ => exact kept
        | error fault => exact kept

/-! ## The whole run -/

/-- **A stream returns the statistics of its outcome, once.** -/
theorem collecting_yieldsOnce (config : CsrBuildConfig) (input : List (InputPoll schema))
    (rows : List (EdgeRow ℕ)) (millis : ℕ → ℕ) :
    ∃ last final, last ≤ input.length ∧
      YieldsOnce pollNext millis (collecting config input rows) last
        (statistics (config.outcome input rows) (millis last)) final ∧
      final.config = config.settle (config.outcome input rows) := by
  induction input generalizing rows millis with
  | nil =>
    obtain ⟨final, step, finished, settled⟩ := @pollNext_end schema config rows (millis 0)
    exact ⟨0, final, Nat.le_refl 0, .of_ready step (ended_of_finished finished), settled⟩
  | cons answer rest ih =>
    cases answer with
    | pending =>
      obtain ⟨last, final, bound, yields, settled⟩ := ih rows fun i => millis (i + 1)
      exact ⟨last + 1, final, Nat.succ_le_succ bound, .of_pending rfl yields, settled⟩
    | err reason =>
      exact ⟨0, _, Nat.zero_le _, .of_ready rfl (ended_of_finished rfl), rfl⟩
    | ok batch =>
      rw [CsrBuildConfig.outcome]
      cases absorbed : config.absorb rows batch with
      | ok longer =>
        obtain ⟨last, final, bound, yields, settled⟩ := ih longer fun i => millis (i + 1)
        exact ⟨last + 1, final, Nat.succ_le_succ bound,
          .of_pending (pollNext_absorbed absorbed _) yields, settled⟩
      | error fault =>
        obtain ⟨final, step, finished, kept⟩ := pollNext_refused absorbed (millis 0)
        exact ⟨0, final, Nat.zero_le _, .of_ready step (ended_of_finished finished), kept⟩

end CsrBuildStream

/-! ## When the outcome is a graph -/

/-- The edges of the rows of all batches, in order. -/
def CsrBuildConfig.wholeRows (config : CsrBuildConfig) (input : List (InputPoll schema)) :
    List (EdgeRow ℕ) :=
  input.flatMap fun answer =>
    match answer with
    | .ok batch => config.rowsOf batch
    | _ => []

/-- Without an error of the input, and with the right columns or without a batch,
the outcome is the graph of the rows of all batches. -/
theorem outcome_of_clean {config : CsrBuildConfig} {input : List (InputPoll schema)}
    (clean : ∀ reason, .err reason ∉ input)
    (readable : config.ColumnsFit schema ∨ ∀ batch, .ok batch ∉ input) (rows : List (EdgeRow ℕ)) :
    config.outcome input rows =
      (config.wholeRows input).foldlM config.pushRow rows >>= config.built := by
  induction input generalizing rows with
  | nil => rfl
  | cons answer rest ih =>
    have later := ih (fun reason member => clean reason (List.mem_cons_of_mem answer member))
      (readable.imp_right fun none batch member => none batch (List.mem_cons_of_mem answer member))
    cases answer with
    | pending => exact later rows
    | err reason => exact absurd List.mem_cons_self (clean reason)
    | ok batch =>
      have fit := readable.resolve_right fun none => none batch List.mem_cons_self
      rw [CsrBuildConfig.outcome, absorb_of_fit fit, CsrBuildConfig.wholeRows, List.flatMap_cons,
        List.foldlM_append, bind_assoc]
      exact congrArg _ (funext later)

/-- An outcome that is a graph met no error and no batch without the right columns. -/
theorem clean_of_outcome {config : CsrBuildConfig} {input : List (InputPoll schema)}
    {rows : List (EdgeRow ℕ)} {graph : CsrGraph} (outcome : config.outcome input rows = .ok graph) :
    (∀ reason, .err reason ∉ input) ∧
      (config.ColumnsFit schema ∨ ∀ batch, .ok batch ∉ input) := by
  induction input generalizing rows with
  | nil => simp
  | cons answer rest ih =>
    cases answer with
    | pending =>
      obtain ⟨clean, readable⟩ := ih outcome
      exact ⟨by simpa using clean, by simpa using readable⟩
    | err reason => cases outcome
    | ok batch =>
      obtain ⟨longer, absorbed, later⟩ := Checked.bind_eq_ok.mp outcome
      refine ⟨by simpa using (ih later).1, .inl ?_⟩
      by_contra unfit
      obtain ⟨reason, refused⟩ := @absorb_of_unfit schema _ unfit
      rw [refused] at absorbed
      cases absorbed

/-- Rows as the graph stores them: with their weights when a weight column is
configured. -/
def CsrBuildConfig.storedRows (config : CsrBuildConfig) (rows : List (EdgeRow ℕ)) :
    List StoredEdge :=
  rows.map fun row => (row.1, row.2.1, if config.weightColumn.isSome then some row.2.2 else none)

/-- The builder holds the rows. -/
theorem builderOf_holds (config : CsrBuildConfig) (rows : List (EdgeRow ℕ)) :
    (config.builderOf rows).Holds config.weightColumn.isSome (config.storedRows rows) := by
  rw [CsrBuildConfig.builderOf, CsrBuildConfig.storedRows]
  cases config.weightColumn.isSome with
  | true =>
    have holds := @CsrBuilder.Holds.afterCalls true
      [.shardSize config.shardSize, .weightedEdges rows] (by simp [BuilderCall.AddsOnly])
    simpa [CsrBuilder.afterCalls, CsrBuilder.call, addedEdges, BuilderCall.added] using holds
  | false =>
    have holds := @CsrBuilder.Holds.afterCalls false
      [.shardSize config.shardSize, .edges (rows.map fun row => (row.1, row.2.1))]
      (by simp [BuilderCall.AddsOnly])
    simpa [CsrBuilder.afterCalls, CsrBuilder.call, addedEdges, BuilderCall.added,
      Function.comp_def] using holds

/-- A builder that accepts its edges has at most `u32::MAX` of them. -/
theorem length_le_of_build {config : CsrBuildConfig} {rows : List (EdgeRow ℕ)} {graph : CsrGraph}
    (built : (config.builderOf rows).build = .ok graph) : rows.length ≤ u32Max := by
  have fit := (builderOf_holds config rows).fit_of_build built
  simpa [CsrBuildConfig.storedRows] using fit.2

/-- **The outcome is a graph exactly when no input fails, the columns are there, the
edges fit into memory and the builder accepts them.** -/
theorem outcome_eq_ok {config : CsrBuildConfig} {input : List (InputPoll schema)}
    {graph : CsrGraph} :
    config.outcome input [] = .ok graph ↔
      (∀ reason, .err reason ∉ input) ∧
      (config.ColumnsFit schema ∨ ∀ batch, .ok batch ∉ input) ∧
      (∀ limit ∈ config.memoryLimit, 16 * (config.wholeRows input).length ≤ limit.val) ∧
      (config.builderOf (config.wholeRows input)).build = .ok graph := by
  have pushed := pushRows_cases config (config.wholeRows input) (fits_nil config)
  constructor
  · intro outcome
    obtain ⟨clean, readable⟩ := clean_of_outcome outcome
    rw [outcome_of_clean clean readable] at outcome
    rcases pushed with ⟨fits, room⟩ | ⟨-, reason, full⟩
    · rw [room, Checked.ok_bind] at outcome
      exact ⟨clean, readable, fits.2, Checked.mapError_eq_ok.mp outcome⟩
    · rw [full] at outcome
      cases outcome
  · rintro ⟨clean, readable, memory, built⟩
    have few := length_le_of_build built
    rw [outcome_of_clean clean readable]
    rcases pushed with ⟨-, room⟩ | ⟨tooMany, -⟩
    · rw [room, Checked.ok_bind]
      exact Checked.mapError_eq_ok.mpr built
    · refine absurd ⟨?_, memory⟩ tooMany
      simp only [List.nil_append, u32Max, usizeMax] at few ⊢
      omega

/-- The outcome is a graph or an error. -/
theorem outcome_ok_or_fail (config : CsrBuildConfig) (input : List (InputPoll schema))
    {rows : List (EdgeRow ℕ)} (start : config.Fits rows.length) :
    (∃ graph, config.outcome input rows = .ok graph) ∨
      ∃ reason, config.outcome input rows = Checked.fail reason := by
  induction input generalizing rows with
  | nil =>
    rw [CsrBuildConfig.outcome, CsrBuildConfig.built]
    rcases (config.builderOf rows).build_ok_or_fail with ⟨graph, built⟩ | ⟨reason, failed⟩
    · exact .inl ⟨graph, by rw [built]; rfl⟩
    · exact .inr ⟨_, by rw [failed]; rfl⟩
  | cons answer rest ih =>
    cases answer with
    | pending => exact ih start
    | err reason => exact .inr ⟨reason, rfl⟩
    | ok batch =>
      rw [CsrBuildConfig.outcome]
      by_cases fit : config.ColumnsFit schema
      · rw [absorb_of_fit fit]
        rcases pushRows_cases config (config.rowsOf batch) start with
          ⟨fits, room⟩ | ⟨-, reason, full⟩
        · rw [room, Checked.ok_bind]
          exact ih fits
        · exact .inr ⟨reason, by rw [full]; rfl⟩
      · obtain ⟨reason, refused⟩ := @absorb_of_unfit schema _ fit
        exact .inr ⟨reason, by rw [refused]; rfl⟩

/-! ## Rows in other batches -/

/-- The second input has a batch of the first in two parts, or waits once more. -/
inductive Rebatch : List (InputPoll schema) → List (InputPoll schema) → Prop where
  | split (before after : List (InputPoll schema)) (left right : RecordBatch schema) :
      Rebatch (before ++ .ok (left.append right) :: after)
        (before ++ .ok left :: .ok right :: after)
  | wait (before after : List (InputPoll schema)) :
      Rebatch (before ++ after) (before ++ .pending :: after)

/-- The two inputs have the same rows in other batches, and wait at other places. -/
abbrev Rebatched (input other : List (InputPoll schema)) : Prop :=
  Relation.EqvGen Rebatch input other

/-- Batches in a row are the batches of any other cut through the same rows. -/
theorem rebatched_append (first : RecordBatch schema) (rest : List (RecordBatch schema))
    (after : List (InputPoll schema)) :
    Rebatched (.ok (rest.foldl RecordBatch.append first) :: after)
      (.ok first :: (rest.map InputPoll.ok ++ after)) := by
  induction rest generalizing first with
  | nil => exact .refl _
  | cons second rest ih =>
    exact .trans _ _ _ (ih (first.append second)) (.rel _ _ (.split [] _ first second))

/-- What comes after the same answers decides. -/
theorem outcome_append_congr (config : CsrBuildConfig) {after other : List (InputPoll schema)}
    (same : ∀ rows, config.outcome after rows = config.outcome other rows)
    (before : List (InputPoll schema)) (rows : List (EdgeRow ℕ)) :
    config.outcome (before ++ after) rows = config.outcome (before ++ other) rows := by
  induction before generalizing rows with
  | nil => exact same rows
  | cons answer before ih =>
    cases answer with
    | pending => exact ih rows
    | err reason => rfl
    | ok batch => exact congrArg _ (funext ih)

/-- **The outcome depends on the rows, not on their batches.** -/
theorem outcome_of_rebatched (config : CsrBuildConfig) {input other : List (InputPoll schema)}
    (same : Rebatched input other) : config.outcome input = config.outcome other := by
  induction same with
  | rel input other step =>
    funext rows
    cases step with
    | split before after left right =>
      refine outcome_append_congr config (fun rows => ?_) before rows
      simp only [CsrBuildConfig.outcome, absorb_append, bind_assoc]
    | wait before after =>
      refine outcome_append_congr config (fun rows => ?_) before rows
      simp only [CsrBuildConfig.outcome]
  | refl input => rfl
  | symm input other _ ih => exact ih.symm
  | trans input between other _ _ first second => exact first.trans second

/-- The item is a row of statistics when the outcome is a graph. -/
theorem statistics_isOk {outcome : Checked DataFusionError CsrGraph} {millis : ℕ} :
    (∃ batch, statistics outcome millis = .ok batch) ↔ ∃ graph, outcome = .ok graph := by
  cases outcome with
  | ok graph => exact ⟨fun _ => ⟨graph, rfl⟩, fun _ => ⟨_, rfl⟩⟩
  | error fault => simp [statistics, Except.map]

/-- The graph of an outcome is the one that the builder makes of all rows. -/
theorem outcome_eq_ok_iff_built {config : CsrBuildConfig} {input : List (InputPoll schema)}
    {graph : CsrGraph} :
    config.outcome input [] = .ok graph ↔ (∃ found, config.outcome input [] = .ok found) ∧
      (config.builderOf (config.wholeRows input)).build = .ok graph := by
  constructor
  · exact fun outcome => ⟨⟨graph, outcome⟩, (outcome_eq_ok.mp outcome).2.2.2⟩
  · rintro ⟨⟨found, outcome⟩, built⟩
    obtain rfl : found = graph :=
      Except.ok.inj ((outcome_eq_ok.mp outcome).2.2.2.symm.trans built)
    exact outcome

/-- What a stream returns, without the time of the build. -/
def withoutBuildTime (item : Checked DataFusionError (RecordBatch statsSchema)) :
    Checked DataFusionError (List ArrayRef) :=
  item.map fun batch => batch.columns.take 3

/-- The time of the build is in the last column only. -/
theorem withoutBuildTime_statistics (outcome : Checked DataFusionError CsrGraph)
    (millis other : ℕ) :
    withoutBuildTime (statistics outcome millis) = withoutBuildTime (statistics outcome other) := by
  cases outcome with
  | ok graph => rfl
  | error fault => rfl

/-- **The stream of the build operator builds the graph of its whole input.** It
returns one item and then its end for ever. The item is a row of statistics
exactly when the input has no error, the columns are there with their types or no
batch came, the edges fit into memory and the builder accepts them; otherwise it
is an error. An empty sink holds the graph of those edges afterwards exactly when
the item is no error, and nothing before. Rows in other batches, and an input
that waits at other places, give the same item but for the time of the build, and
the same sink. -/
theorem csrBuildStream_builds_whole_input (config : CsrBuildConfig)
    (input : List (InputPoll schema)) (millis : ℕ → ℕ) :
    ∃ last item final, last ≤ input.length ∧
      YieldsOnce CsrBuildStream.pollNext millis (.new input config) last item final ∧
      ((∃ batch, item = .ok batch) ∨ ∃ reason, item = Checked.fail reason) ∧
      ((∃ batch, item = .ok batch) ↔
        (∀ reason, .err reason ∉ input) ∧
        (config.ColumnsFit schema ∨ ∀ batch, .ok batch ∉ input) ∧
        (∀ limit ∈ config.memoryLimit, 16 * (config.wholeRows input).length ≤ limit.val) ∧
        ∃ graph, (config.builderOf (config.wholeRows input)).build = .ok graph) ∧
      (config.graphSink = some none →
        (∀ i ≤ last, (stateAfter CsrBuildStream.pollNext millis
          (.new input config) i).config.graphSink = some none) ∧
        ∃ held, final.config.graphSink = some held ∧
          ∀ graph, held = some graph ↔ (∃ batch, item = .ok batch) ∧
            (config.builderOf (config.wholeRows input)).build = .ok graph) ∧
      ∀ other, Rebatched input other → ∀ otherMillis, ∃ otherLast otherItem otherFinal,
        YieldsOnce CsrBuildStream.pollNext otherMillis (.new other config) otherLast otherItem
          otherFinal ∧
        withoutBuildTime otherItem = withoutBuildTime item ∧
        otherFinal.config.graphSink = final.config.graphSink := by
  obtain ⟨last, final, bound, yields, settled⟩ :=
    CsrBuildStream.collecting_yieldsOnce config input [] millis
  rw [CsrBuildStream.collecting_nil] at yields
  refine ⟨last, _, final, bound, yields, ?_, ?_, fun empty => ⟨fun i early => ?_, ?_⟩, ?_⟩
  · rcases outcome_ok_or_fail config input (fits_nil config) with ⟨graph, outcome⟩ | ⟨reason, outcome⟩
    · exact .inl ⟨_, by rw [outcome]; rfl⟩
    · exact .inr ⟨reason, by rw [outcome]; rfl⟩
  · rw [statistics_isOk]
    simp only [outcome_eq_ok, exists_and_left]
  · rw [yields.kept_before CsrBuildStream.config
      (fun stream time pending => stream.config_of_pending time pending) early]
    exact empty
  · simp only [settled, statistics_isOk, ← outcome_eq_ok_iff_built]
    cases config.outcome input [] with
    | ok graph =>
      exact ⟨some graph, by simp [CsrBuildConfig.settle, CsrBuildConfig.publish, empty,
        GraphSink.set], by simp⟩
    | error fault => exact ⟨none, empty, by simp⟩
  · intro other same otherMillis
    obtain ⟨otherLast, otherFinal, -, otherYields, otherSettled⟩ :=
      CsrBuildStream.collecting_yieldsOnce config other [] otherMillis
    rw [CsrBuildStream.collecting_nil] at otherYields
    have outcome := congrFun (outcome_of_rebatched config same) []
    refine ⟨otherLast, _, otherFinal, otherYields, ?_, ?_⟩
    · rw [← outcome]
      exact withoutBuildTime_statistics _ _ _
    · rw [otherSettled, settled, outcome]

/-- A batch of one edge and one row with a null source. -/
def linkBatch : RecordBatch [⟨"source", .uint64⟩, ⟨"target", .uint64⟩] where
  columns := [.uint64 [some 0, none], .uint64 [some 1, some 2]]
  numRows := 2
  types := rfl
  lengths := by simp [ArrayRef.length]

theorem csrBuildStream_builds_whole_input_witness :
    ∃ config : CsrBuildConfig, ∃ last item final otherLast otherItem otherFinal,
      YieldsOnce CsrBuildStream.pollNext (fun _ => 0) (.new [.ok linkBatch, .ok linkBatch] config)
        last item final ∧
      (∃ batch, item = .ok batch) ∧ (∃ graph, final.config.graphSink = some (some graph)) ∧
      YieldsOnce CsrBuildStream.pollNext (fun _ => 9)
        (.new [.ok (linkBatch.append linkBatch)] config) otherLast otherItem otherFinal ∧
      withoutBuildTime otherItem = withoutBuildTime item := by
  let config : CsrBuildConfig := { CsrBuildConfig.default with graphSink := some none }
  obtain ⟨graph, built, -⟩ := Checked.exists_of_passes
    (show ((config.builderOf (config.wholeRows [.ok linkBatch, .ok linkBatch])).build).passes
      (fun _ => true) = true by decide +kernel)
  obtain ⟨last, item, final, -, yields, -, isOk, sink, others⟩ :=
    csrBuildStream_builds_whole_input config [.ok linkBatch, .ok linkBatch] fun _ => 0
  have accepted : ∃ batch, item = .ok batch :=
    isOk.mpr ⟨by simp, .inl ⟨rfl, rfl, by simp [config, CsrBuildConfig.default]⟩,
      by simp [config, CsrBuildConfig.default], graph, built⟩
  obtain ⟨-, held, filled, same⟩ := sink rfl
  obtain ⟨otherLast, otherItem, otherFinal, otherYields, alike, -⟩ :=
    others [.ok (linkBatch.append linkBatch)]
      (.symm _ _ (rebatched_append linkBatch [linkBatch] [])) fun _ => 9
  exact ⟨config, last, item, final, otherLast, otherItem, otherFinal, yields, accepted,
    ⟨graph, by rw [filled, (same graph).mpr ⟨accepted, built⟩]⟩, otherYields, alike⟩

end Exec

end FusionGraph

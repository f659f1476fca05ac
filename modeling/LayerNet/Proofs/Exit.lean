import LayerNet.CommandLine
import LayerNet.Proofs.Offering
import LayerNet.Proofs.RoundTrip

/-!
# What a clean exit means

A run of the command line ends cleanly if nothing stops it and no check finds an error.  Each step
of a run either stops it or answers, having printed something, and a run that answers is taken apart
into its steps (`Run.Ends`).

`run_clean` puts the steps together: when a run with capabilities ends cleanly, the engine offers
everything that the network uses, and the number of calls that is printed is the number of layers
and groups of the printed forest and of the handles of its top level.
-/

namespace LayerNet

/-! ## Training settings -/

namespace TrainSettings

/-- The settings are in the ranges in which a training may start. -/
structure InRange (s : TrainSettings) : Prop where
  epochs : 1 ≤ s.epochs ∧ s.epochs ≤ 10000
  batchSize : 1 ≤ s.batchSize ∧ s.batchSize ≤ 1000
  learningRate : Single.decimal 1 4 ≤ s.learningRate ∧ s.learningRate ≤ Single.decimal 1 0
  momentum : Single.decimal 0 0 ≤ s.momentum ∧ s.momentum ≤ Single.decimal 1 0
  decay : Single.decimal 0 0 ≤ s.decay ∧ s.decay ≤ Single.decimal 1 0
  regularizerParam :
    Single.decimal 0 0 ≤ s.regularizerParam ∧ s.regularizerParam ≤ Single.decimal 1 0
  validationBatchSize : 1 ≤ s.validationBatchSize ∧ s.validationBatchSize ≤ 1000

theorem any_isError_outside (name value first last : String) :
    (outside name value first last).any Diagnostic.isError = true := rfl

theorem any_isError_checkCount (name : String) (value last : Nat) :
    (checkCount name value last).any Diagnostic.isError = false ↔ 1 ≤ value ∧ value ≤ last := by
  rw [checkCount]
  split
  · rename_i h
    exact iff_of_true rfl h
  · rename_i h
    exact iff_of_false (by simp [any_isError_outside]) h

theorem any_isError_checkRate (name : String) (value first : Float32) :
    (checkRate name value first).any Diagnostic.isError = false ↔
      first ≤ value ∧ value ≤ Single.decimal 1 0 := by
  rw [checkRate]
  split
  · rename_i h
    exact iff_of_true rfl h
  · rename_i h
    exact iff_of_false (by simp [any_isError_outside]) h

/-- The check of the ranges finds no error exactly in settings that are in their ranges. -/
theorem hasErrors_validate_iff (s : TrainSettings) : s.validate.hasErrors = false ↔ s.InRange := by
  simp only [validate, Report.hasErrors, List.any_append, Bool.or_eq_false_iff,
    any_isError_checkCount, any_isError_checkRate]
  constructor
  · rintro ⟨⟨⟨⟨⟨⟨h1, h2⟩, h3⟩, h4⟩, h5⟩, h6⟩, h7⟩
    exact ⟨h1, h2, h3, h4, h5, h6, h7⟩
  · rintro ⟨h1, h2, h3, h4, h5, h6, h7⟩
    exact ⟨⟨⟨⟨⟨⟨h1, h2⟩, h3⟩, h4⟩, h5⟩, h6⟩, h7⟩

end TrainSettings

namespace Capabilities

/-- The engine offers what the settings name. -/
structure Trains (c : Capabilities) (s : TrainSettings) : Prop where
  loss : c.losses.contains s.loss = true
  optimizer : c.optimizers.contains s.optimizer = true
  regularizer : s.hasRegularizer = true → c.regularizers.contains s.regularizer = true

theorem any_isError_checkName (what name : String) (names : NameSet) :
    (checkName what name names).any Diagnostic.isError = false ↔ names.contains name = true := by
  rw [checkName]
  split
  · rename_i h
    exact iff_of_true rfl h
  · rename_i h
    exact iff_of_false (by simp [Diagnostic.isError, Diagnostic.error]) h

/-- The check of the names finds no error exactly if all of them are offered. -/
theorem hasErrors_checkTrainSettings_iff (c : Capabilities) (s : TrainSettings) :
    (c.checkTrainSettings s).hasErrors = false ↔ c.Trains s := by
  have hregularizer : ((if s.hasRegularizer then
      checkName "Regularizer" s.regularizer c.regularizers
      else []).any Diagnostic.isError = false) ↔
        (s.hasRegularizer = true → c.regularizers.contains s.regularizer = true) := by
    split
    · rename_i h
      rw [any_isError_checkName]
      exact ⟨fun hname _ => hname, fun hname => hname h⟩
    · rename_i h
      exact iff_of_true rfl fun hs => absurd hs h
  simp only [checkTrainSettings, Report.hasErrors, List.any_append, Bool.or_eq_false_iff,
    any_isError_checkName, hregularizer]
  constructor
  · rintro ⟨⟨hloss, hoptimizer⟩, hregularizer⟩
    exact ⟨hloss, hoptimizer, hregularizer⟩
  · rintro ⟨hloss, hoptimizer, hregularizer⟩
    exact ⟨⟨hloss, hoptimizer⟩, hregularizer⟩

end Capabilities

/-! ## Documents and forests -/

/-- The graph of a document can be reached by editing. -/
theorem Document.edited_of_toGraph {d : Document} {g : Graph} (h : d.toGraph = .ok g) :
    g.Edited := by
  obtain ⟨-, -, hg⟩ := Document.toGraph_eq_ok_iff.1 h
  have hrecords : ∀ (rs : List NodeRecord) (g : Graph), g.Edited →
      (Document.withRecords g rs).Edited := by
    intro rs
    induction rs with
    | nil => exact fun g hg => hg
    | cons r rs ih => exact fun g hg => ih _ (.insertAs r.id (r.node g.catalog) hg)
  exact Document.addConnections_induction (motive := Graph.Edited)
    (fun g a b hg => .connect a b hg) (hrecords d.nodes {} (.empty _)) hg

namespace Layer

/-- How many layers of nodes there are in a forest, those of subgraphs included. -/
def layerCount (forest : List Layer) : Nat :=
  (forestParts forest).countP fun part => part.source?.isSome

/-- How many groups there are in a forest, those of subgraphs included. -/
def groupCount (forest : List Layer) : Nat :=
  (forestParts forest).countP fun part => part.reduction?.isSome

theorem length_filterMap_own? (parts : List Layer) :
    (parts.filterMap own?).length =
      parts.countP (fun part => part.source?.isSome) +
        parts.countP fun part => part.reduction?.isSome := by
  induction parts with
  | nil => rfl
  | cons part parts ih =>
    cases part with
    | node source inner links children =>
      simp [own?, source?, reduction?, ih]
      omega
    | sequence steps => simp [List.filterMap_cons, own?, source?, reduction?, ih]
    | parallel reduction merge branches =>
      simp [own?, source?, reduction?, ih]
      omega

/-- A creation for each layer of a node and for each group. -/
theorem forestSize_eq (forest : List Layer) :
    forestSize forest = layerCount forest + groupCount forest := by
  have hperm := (map_made_forestCreations_perm forest 0).length_eq
  rwa [List.length_map, length_forestCreations, length_filterMap_own?] at hperm

end Layer

namespace CommandLine

open Layer

/-! ## Runs step by step -/

namespace Run

variable {α β : Type} {x : Run α} {f : α → Run β} {a : α} {b : β} {s t : String}

/-- The answer of a run, or why it stops, and what is printed after it if `s` was printed before. -/
def outcome (x : Run α) (s : String) : Except RunError α × String := x.run.run s

/-- The run answers `a`; `s` is what is printed before it, and `t` what is printed after it. -/
def Ends (x : Run α) (s : String) (a : α) (t : String) : Prop := outcome x s = (.ok a, t)

theorem ends_pure_iff {b : α} : Ends (pure b) s a t ↔ b = a ∧ s = t := by
  change (Except.ok b, s) = (Except.ok a, t) ↔ _
  rw [Prod.mk.injEq, Except.ok.injEq]

theorem outcome_bind (x : Run α) (f : α → Run β) (s : String) :
    outcome (x >>= f) s = match outcome x s with
      | (.ok a, u) => outcome (f a) u
      | (.error e, u) => (.error e, u) := by
  change (ExceptT.bindCont f (x.run.run s).1).run (x.run.run s).2 = _
  rw [outcome]
  rcases x.run.run s with ⟨e | a, u⟩ <;> rfl

theorem ends_bind_iff : Ends (x >>= f) s b t ↔ ∃ a u, Ends x s a u ∧ Ends (f a) u b t := by
  rw [Ends, outcome_bind]
  rcases hx : outcome x s with ⟨e | a, u⟩
  · simp [Ends, hx]
  · constructor
    · exact fun h => ⟨a, u, hx, h⟩
    · rintro ⟨a', u', hx', h⟩
      cases hx.symm.trans hx'
      exact h

theorem not_ends_throw (e : RunError) : ¬Ends (throw e : Run α) s a t := by
  change ¬(Except.error e, s) = (Except.ok a, t)
  simp

theorem ends_print_iff {text : String} {u : Unit} : Ends (print text) s u t ↔ t = s ++ text := by
  change (Except.ok (), s ++ text) = (Except.ok u, t) ↔ _
  simp [eq_comm]

/-- What is printed about the findings of a check. -/
def reportText (title : String) (report : Report) : String :=
  match report.diagnostics with
  | [] => ""
  | diagnostics => s!"{title}:\n" ++ String.join (diagnostics.map fun d => s!"  {d.text}\n")

theorem ends_printReport_iff {title : String} {report : Report} {u : Unit} :
    Ends (printReport title report) s u t ↔ t = s ++ reportText title report := by
  rw [printReport, reportText]
  cases report.diagnostics with
  | nil => simp [ends_pure_iff, eq_comm]
  | cons d ds => exact ends_print_iff

theorem ends_ofExcept_iff {ε : Type} {e : ε → RunError} {answer : Except ε α} :
    Ends (ofExcept e answer) s a t ↔ answer = .ok a ∧ t = s := by
  cases answer with
  | error reason => simp [ofExcept, not_ends_throw]
  | ok b => simp [ofExcept, ends_pure_iff, eq_comm]

theorem ends_readFile_iff {read : String → Option String} {decode? : String → Option α}
    {path : String} :
    Ends (readFile read decode? path) s a t ↔ (read path).bind decode? = some a ∧ t = s := by
  rw [readFile]
  cases read path with
  | none => simp [not_ends_throw]
  | some text =>
    cases hdecode : decode? text with
    | none => simp [not_ends_throw, hdecode]
    | some b => simp [ends_pure_iff, hdecode, eq_comm]

end Run

open Run

variable {read : String → Option String} {s t : String}

theorem ends_readDocument_iff {path : String} {d : Document} :
    Ends (readDocument read path) s d t ↔ (read path).bind Document.parse? = some d ∧ t = s := by
  rw [readDocument]
  cases read path with
  | none => simp [not_ends_throw]
  | some text =>
    cases hparse : Document.parse? text with
    | none => simp [not_ends_throw, hparse]
    | some b => simp [ends_pure_iff, hparse, eq_comm]

/-- The engine is prepared with the capabilities that were read, and they are the ones that the
network was checked against. -/
theorem ends_prepareEngine_iff {path : String} {g : Graph} {settings : Option TrainSettings}
    {answer : RecordingEngine × Bool} :
    Ends (prepareEngine read (some path) g settings) s answer t ↔
      ∃ c, (read path).bind Capabilities.parse? = some c ∧
        answer = ({ capabilities := some c }, !(capabilityReport c g settings).hasErrors) ∧
        t = s ++ reportText "Capability check" (capabilityReport c g settings) := by
  simp only [prepareEngine, ends_bind_iff, ends_readFile_iff, ends_printReport_iff, ends_pure_iff]
  constructor
  · rintro ⟨c, _, ⟨hread, rfl⟩, _, _, rfl, rfl, rfl⟩
    exact ⟨c, hread, rfl, rfl⟩
  · rintro ⟨c, hread, rfl, rfl⟩
    exact ⟨c, s, ⟨hread, rfl⟩, (), _, rfl, rfl, rfl⟩

/-- What is printed about the training settings. -/
def settingsText : Option TrainSettings → String
  | none => ""
  | some settings => reportText "Training settings" settings.validate

/-- The check of the ranges is passed by settings that are in their ranges. -/
theorem ends_checkSettings_iff {settings : Option TrainSettings} {inRange : Bool} :
    Ends (checkSettings settings) s inRange t ↔
      (inRange = true ↔ ∀ x, settings = some x → x.InRange) ∧ t = s ++ settingsText settings := by
  cases settings with
  | none => simp [checkSettings, ends_pure_iff, settingsText, eq_comm]
  | some x =>
    simp only [checkSettings, ends_bind_iff, ends_printReport_iff, ends_pure_iff, settingsText,
      Option.some.injEq, forall_eq', ← TrainSettings.hasErrors_validate_iff]
    constructor
    · rintro ⟨_, _, rfl, rfl, rfl⟩
      simp
    · rintro ⟨h, rfl⟩
      exact ⟨(), _, rfl, by cases inRange <;> simp_all, rfl⟩

theorem capabilityReport_hasErrors_iff {c : Capabilities} {g : Graph}
    {settings : Option TrainSettings} :
    (capabilityReport c g settings).hasErrors = false ↔
      (c.checkNodes g).hasErrors = false ∧ ∀ x, settings = some x → c.Trains x := by
  cases settings with
  | none => simp [capabilityReport]
  | some x =>
    simp [capabilityReport, Report.hasErrors_append, Capabilities.hasErrors_checkTrainSettings_iff]

/-! ## Clean runs -/

/-- The configuration that the options ask for. -/
def configOf (options : Options) (read : String → Option String) : Option CompilerConfig :=
  match options.config with
  | none => some {}
  | some path => (read path).bind CompilerConfig.parse?

/-- The run after the network and the configuration have been read. -/
def afterReading (options : Options) (read : String → Option String) (document : Document)
    (graph : Graph) (config : CompilerConfig) : Run Bool := do
  let (engine, capable) ← prepareEngine read options.capabilities graph document.trainSettings
  let inRange ← checkSettings document.trainSettings
  printReport "Network" graph.validate
  let forest ← ofExcept (fun e => .build (.compile e)) (graph.compile config)
  print (forestText options.json forest)
  let (handles, engine) := (lower forest).runIn engine
  let handles ← ofExcept .build handles
  print s!"{engine.log.length} engine call(s), {handles.length} top-level layer(s)\n"
  return capable && inRange

variable {options : Options} {path output : String} {document : Document} {graph : Graph}
  {config : CompilerConfig} {b : Bool}

theorem ends_run_iff : Ends (run options read) s b t ↔ ∃ document graph config,
    (read options.network).bind Document.parse? = some document ∧ document.toGraph = .ok graph ∧
      configOf options read = some config ∧
      Ends (afterReading options read document graph config) s b t := by
  have hrun : run options read = (do
      let document ← readDocument read options.network
      let graph ← ofExcept .document document.toGraph
      match options.config with
      | none => afterReading options read document graph {}
      | some path => do
        let config ← readFile read CompilerConfig.parse? path
        afterReading options read document graph config) := rfl
  rw [hrun]
  simp only [ends_bind_iff, ends_readDocument_iff, ends_ofExcept_iff, configOf]
  constructor
  · rintro ⟨document, _, ⟨hread, rfl⟩, graph, _, ⟨hgraph, rfl⟩, hrest⟩
    cases hconfig : options.config with
    | none =>
      rw [hconfig] at hrest
      exact ⟨document, graph, {}, hread, hgraph, rfl, hrest⟩
    | some path =>
      simp only [hconfig, ends_bind_iff, ends_readFile_iff] at hrest
      obtain ⟨config, _, ⟨hfile, rfl⟩, hrest⟩ := hrest
      exact ⟨document, graph, config, hread, hgraph, hfile, hrest⟩
  · rintro ⟨document, graph, config, hread, hgraph, hconfig, hrest⟩
    refine ⟨document, s, ⟨hread, rfl⟩, graph, s, ⟨hgraph, rfl⟩, ?_⟩
    cases hoption : options.config with
    | none =>
      rw [hoption] at hconfig
      cases hconfig
      exact hrest
    | some path =>
      rw [hoption] at hconfig
      exact ends_bind_iff.2 ⟨config, s, ends_readFile_iff.2 ⟨hconfig, rfl⟩, hrest⟩

/-- Building answers with the handles of the top level after one call for each layer and each group
and one more for each of these handles. -/
theorem length_log_of_build {forest : List Layer} {c : Capabilities} {handles : List Handle}
    {engine : RecordingEngine} (hg : graph.Edited) (h : graph.compile config = .ok forest)
    (hrun : (lower forest).runIn ({ capabilities := some c } : RecordingEngine) =
      (.ok handles, engine)) :
    c.MergesAll forest ∧
      engine.log.length = layerCount forest + groupCount forest + handles.length := by
  rcases RecordingEngine.lower_runIn (hg.valid.wired_of_compile h)
    (hg.valid.nodup_forestPlacements h) (some c) with ⟨hall, hok⟩ | ⟨d, -, refusal, e', -, herror⟩
  · cases hrun.symm.trans hok
    refine ⟨Graph.mergesAll_of_check hall, ?_⟩
    rw [← forestSize_eq]
    simp
  · cases hrun.symm.trans herror

/-- What a run reads. -/
structure Loads (options : Options) (read : String → Option String) (path : String)
    (document : Document) (graph : Graph) (config : CompilerConfig) (c : Capabilities) : Prop where
  document_eq : (read options.network).bind Document.parse? = some document
  graph_eq : document.toGraph = .ok graph
  config_eq : configOf options read = some config
  capabilities_eq : (read path).bind Capabilities.parse? = some c

/-- The engine offers everything that a network and its training use. -/
structure Backs (c : Capabilities) (graph : Graph) (settings : Option TrainSettings)
    (forest : List Layer) : Prop where
  layerTypes : ∀ n ∈ graph.nodes.toList, c.layerTypes.contains n.layerType = true
  reductions : c.MergesAll forest
  inRange : ∀ x, settings = some x → x.InRange
  training : ∀ x, settings = some x → c.Trains x

/-- If a run with capabilities ends cleanly, the network is free of validation errors, the engine
offers everything that the network and its training use, and the number of calls that is printed
counts each layer of a node and each group of the printed forest once, and then each handle of the
top level. -/
theorem run_clean (hpath : options.capabilities = some path)
    (h : (run options read).run.run "" = (.ok true, output)) :
    ∃ document graph config c forest handles engine,
      Loads options read path document graph config c ∧
      graph.compile config = .ok forest ∧
      (lower forest).runIn ({ capabilities := some c } : RecordingEngine) = (.ok handles, engine) ∧
      graph.validate.hasErrors = false ∧
      Backs c graph document.trainSettings forest ∧
      engine.log.length = layerCount forest + groupCount forest + handles.length ∧
      output = reportText "Capability check" (capabilityReport c graph document.trainSettings) ++
        settingsText document.trainSettings ++ reportText "Network" graph.validate ++
        forestText options.json forest ++
        s!"{engine.log.length} engine call(s), {handles.length} top-level layer(s)\n" := by
  obtain ⟨document, graph, config, hdocument, hgraph, hconfig, hcheck⟩ := ends_run_iff.1 h
  simp only [afterReading, hpath, ends_bind_iff, ends_prepareEngine_iff, ends_checkSettings_iff,
    ends_printReport_iff, ends_ofExcept_iff, ends_print_iff, ends_pure_iff] at hcheck
  obtain ⟨_, _, ⟨c, hc, rfl, rfl⟩, inRange, _, ⟨hrange, rfl⟩, _, _, rfl, forest, _, ⟨hforest, rfl⟩,
    _, _, rfl, handles, _, ⟨hhandles, rfl⟩, _, _, rfl, hclean, rfl⟩ := hcheck
  rw [Bool.and_eq_true, Bool.not_eq_true', capabilityReport_hasErrors_iff] at hclean
  obtain ⟨⟨hnodes, htraining⟩, hrange'⟩ := hclean
  obtain ⟨hmerges, hlength⟩ := length_log_of_build (Document.edited_of_toGraph hgraph) hforest
    (Prod.ext hhandles rfl)
  refine ⟨document, graph, config, c, forest, handles, _, ⟨hdocument, hgraph, hconfig, hc⟩, hforest,
    Prod.ext hhandles rfl, (Graph.compile_eq_ok_iff.1 hforest).1,
    ⟨?_, hmerges, hrange.1 hrange', htraining⟩, hlength, by simp⟩
  exact fun n hn => Capabilities.contains_of_checkNodes hnodes (Graph.mem_nodes_iff.1 hn)

theorem eq_mk_snd {α β : Type} {p : α × β} {a : α} (h : p.1 = a) : p = (a, p.2) := by rw [← h]

/-- Two chains that never meet, and an engine that knows their types and can merge them. -/
def files : String → Option String
  | "network" => some r#"["1",["","",""],
[[0,"A","",[0,0]],[1,"B","",[0,0]],[2,"A","",[0,0]],[3,"B","",[0,0]]],
[[[0,"Output"],[1,"Input"]],[[2,"Output"],[3,"Input"]]],[]]"#
  | "engine" => some r#"[["A","B"],[],[],["concat"],["MeanSquaredError"],["Adam"]]"#
  | _ => none

/-- The run on these files is clean, so the engine can merge the chains. -/
theorem run_clean_files : ∃ document graph config c forest,
    Loads ⟨"network", some "engine", none, false⟩ files "engine" document graph config c ∧
      graph.compile config = .ok forest ∧ Backs c graph document.trainSettings forest := by
  have hclean : ((run ⟨"network", some "engine", none, false⟩ files).run.run "").1 = .ok true := by
    decide +kernel
  obtain ⟨document, graph, config, c, forest, -, -, hloads, hforest, -, -, hbacks, -⟩ :=
    run_clean rfl (eq_mk_snd hclean)
  exact ⟨document, graph, config, c, forest, hloads, hforest, hbacks⟩

end CommandLine

end LayerNet

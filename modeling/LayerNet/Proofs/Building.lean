import LayerNet.Engine.Recording
import LayerNet.Proofs.Creations
import LayerNet.Proofs.Placement

/-!
# Building in the recording engine

The recording engine numbers what it creates, so building a forest in it is making the creations of
the forest in their order.  All their handles have been handed out and all linked nodes have layers;
what the engine may still refuse is a name that it does not know (`RecordingEngine.performAll_apply`).

`Edited.lowering_exact` says what this means for a compiled network: the wires of a special layer lead
into its own subgraph, building succeeds in an engine without capabilities, and the log binds each
wire to what was created for the node at its end.
-/

namespace LayerNet

open Layer Lowering

namespace Creation

/-- What the engine may hold against a creation whose handles have been handed out. -/
def check (e : RecordingEngine) : Creation → Except EngineError Unit
  | layer source _ _ => e.checkLayerType source.layerType
  | merge reduction _ _ => e.checkReduction reduction.name

/-- The entry of the log for a creation, if `handleOf` gives the handles of nodes. -/
def entry (handleOf : NodeId → Handle) (handle : Handle) : Creation → LogEntry
  | layer source handles links =>
    .createLayer handle source.layerType source.floatParams source.stringParams handles
      (links.map fun link => ⟨link.port, link.role, handleOf link.node⟩)
  | merge reduction _ branches => .createMerge handle reduction.name branches

/-- The place of the creation for a node. -/
def place (cs : List Creation) (id : NodeId) : Handle := cs.findIdx fun c => c.node? = some id

/-- If no node is created twice, the creation for a node is found at its place. -/
theorem eq_place_iff {cs : List Creation} (hnodup : (cs.filterMap node?).Nodup) {id : NodeId}
    (hid : id ∈ cs.filterMap node?) {k : Nat} :
    k = place cs id ↔ ∃ c, cs[k]? = some c ∧ c.node? = some id := by
  have hapart := List.pairwise_iff_getElem.1 (List.pairwise_filterMap.1 hnodup)
  have hlt : place cs id < cs.length := by
    obtain ⟨c, hc, hnode⟩ := List.mem_filterMap.1 hid
    exact List.findIdx_lt_length_of_exists ⟨c, hc, by simpa using hnode⟩
  have hplace : cs[place cs id].node? = some id :=
    of_decide_eq_true (List.findIdx_getElem (w := hlt))
  constructor
  · rintro rfl
    exact ⟨_, List.getElem?_eq_getElem hlt, hplace⟩
  · rintro ⟨c, hc, hnode⟩
    obtain ⟨hk, rfl⟩ := List.getElem?_eq_some_iff.1 hc
    rcases Nat.lt_trichotomy k (place cs id) with hlt' | heq | hgt
    · exact absurd rfl (hapart k _ hk hlt hlt' id hnode id hplace)
    · exact heq
    · exact absurd rfl (hapart _ k hlt hk hgt id hplace id hnode)

end Creation

namespace RecordingEngine

variable {e : RecordingEngine} {c : Creation} {cs : List Creation} {known : List NodeId}
  {created : NodeHandles} {handleOf : NodeId → Handle}

theorem checkHandles_eq_ok {handles : List Handle} (h : ∀ x ∈ handles, x < e.nextHandle) :
    e.checkHandles handles = .ok () := by
  have hnone : handles.find? (fun x => decide (e.nextHandle ≤ x)) = none := by
    rw [List.find?_eq_none]
    exact fun x hx => by simpa using h x hx
  rw [checkHandles, hnone]

theorem create_apply (checks : RecordingEngine → Except EngineError Unit)
    (entry : Handle → LogEntry) (e : RecordingEngine) :
    create checks entry e = match checks e with
      | .error refusal => (.error refusal, e)
      | .ok () => (.ok e.nextHandle,
          { e with log := e.log ++ [entry e.nextHandle], nextHandle := e.nextHandle + 1 }) := rfl

/-- If the handles were handed out, only the names decide. -/
theorem create_of_handles {handles : List Handle} (h : ∀ x ∈ handles, x < e.nextHandle)
    (names : RecordingEngine → Except EngineError Unit) (entry : Handle → LogEntry) :
    create (fun e => do names e; e.checkHandles handles) entry e = match names e with
      | .error refusal => (.error refusal, e)
      | .ok () => (.ok e.nextHandle,
          { e with log := e.log ++ [entry e.nextHandle], nextHandle := e.nextHandle + 1 }) := by
  rw [create_apply, checkHandles_eq_ok h]
  cases names e <;> rfl

theorem create_numbers {checks : RecordingEngine → Except EngineError Unit}
    {entry : Handle → LogEntry} {e e' : RecordingEngine} {h : Handle}
    (hrun : create checks entry e = (.ok h, e')) :
    h = e.nextHandle ∧ e'.nextHandle = e.nextHandle + 1 := by
  rw [create_apply] at hrun
  split at hrun
  · cases hrun
  · cases hrun
    exact ⟨rfl, rfl⟩

/-- The recording engine numbers what it creates. -/
theorem numbers : Numbers nextHandle where
  createLayer_eq _ _ _ := rfl
  createSpecial {layerType floatParams stringParams inner bindings _ _ _} hrun :=
    create_numbers (show createLayer layerType floatParams stringParams inner bindings _ = _ from hrun)
  createMerge {reduction branches _ _ _} hrun :=
    create_numbers (show createMerge reduction branches _ = _ from hrun)

/-- The engine after creations, each of which got the next handle. -/
def record (e : RecordingEngine) (handleOf : NodeId → Handle) (cs : List Creation) :
    RecordingEngine :=
  { e with
    log := e.log ++ cs.mapIdx fun k c => c.entry handleOf (e.nextHandle + k)
    nextHandle := e.nextHandle + cs.length }

theorem record_nil (e : RecordingEngine) (handleOf : NodeId → Handle) :
    e.record handleOf [] = e := by
  simp [record]

theorem record_cons (e : RecordingEngine) (handleOf : NodeId → Handle) (c : Creation)
    (cs : List Creation) :
    e.record handleOf (c :: cs) = (e.record handleOf [c]).record handleOf cs := by
  simp only [record, List.mapIdx_cons, List.mapIdx_nil, List.append_assoc, List.length_cons,
    List.length_nil, List.singleton_append, Nat.add_zero, Nat.zero_add, Nat.add_assoc,
    Nat.add_comm 1]

theorem check_record (e : RecordingEngine) (handleOf : NodeId → Handle) (cs : List Creation)
    (c : Creation) : c.check (e.record handleOf cs) = c.check e := by
  cases c <;> rfl

/-! ## One creation -/

/-- The handles that are kept for nodes are right and have been handed out. -/
def Keeps (handleOf : NodeId → Handle) (known : List NodeId) (next : Handle)
    (created : NodeHandles) : Prop :=
  ∀ id ∈ known, created.lookup id = some (handleOf id) ∧ handleOf id < next

theorem Keeps.step {next : Handle} (h : Keeps handleOf known next created)
    (hself : ∀ id, c.node? = some id → handleOf id = next) :
    Keeps handleOf (known ++ c.node?.toList) (next + 1)
      (c.node?.toList.map (fun id => (id, next)) ++ created) := by
  intro id hid
  cases hnode : c.node? with
  | none =>
    rw [hnode] at hid
    obtain ⟨hlookup, hlt⟩ := h id (by simpa using hid)
    exact ⟨by simpa using hlookup, Nat.lt_succ_of_lt hlt⟩
  | some x =>
    have hx := hself x hnode
    by_cases he : id = x
    · subst he
      simp [hx]
    · have hne : (id == x) = false := by simpa using he
      rw [hnode] at hid
      obtain ⟨hlookup, hlt⟩ := h id (by simpa [he] using hid)
      exact ⟨by simpa [List.lookup_cons, hne] using hlookup, Nat.lt_succ_of_lt hlt⟩

/-- A creation that is ready is refused for its names only. -/
theorem perform_apply (created : NodeHandles) (hready : c.Ready known e.nextHandle)
    (hkeeps : Keeps handleOf known e.nextHandle created) :
    perform c created e = match c.check e with
      | .error refusal => (.error (.engine c.step refusal), e)
      | .ok () => (.ok (e.nextHandle,
          c.node?.toList.map (fun id => (id, e.nextHandle)) ++ created),
          e.record handleOf [c]) := by
  cases c with
  | layer source inner links =>
    have hbound := mapM_bind_apply handleOf source.id links created e fun link hlink =>
      (hkeeps link.node (hready.links link hlink)).1
    have hhandles : ∀ x ∈ inner ++ (links.map fun link => (⟨link.port, link.role,
        handleOf link.node⟩ : AuxBinding)).map AuxBinding.handle, x < e.nextHandle := by
      intro x hx
      rcases List.mem_append.1 hx with hx | hx
      · exact hready.operands x hx
      · rw [List.map_map, List.mem_map] at hx
        obtain ⟨link, hlink, rfl⟩ := hx
        exact (hkeeps link.node (hready.links link hlink)).2
    have hcall : (LayerEngine.createSpecial source.layerType source.floatParams
        source.stringParams inner _ : EngineCall RecordingEngine Handle) e = _ :=
      create_of_handles hhandles (fun e => e.checkLayerType source.layerType)
        fun handle => Creation.entry handleOf handle (.layer source inner links)
    rw [perform, bind_apply, hbound]
    dsimp only
    rw [callFor_apply, hcall, Creation.check]
    cases e.checkLayerType source.layerType <;> rfl
  | merge reduction node branches =>
    have hcall : (LayerEngine.createMerge reduction.name branches :
        EngineCall RecordingEngine Handle) e = _ :=
      create_of_handles hready.operands (fun e => e.checkReduction reduction.name)
        fun handle => Creation.entry handleOf handle (.merge reduction node branches)
    rw [perform, callFor_apply, hcall, Creation.check]
    cases e.checkReduction reduction.name <;> rfl

/-! ## All creations -/

/-- Creations in an order in which each is ready are made one after the other, unless the engine
refuses the names of one of them. -/
theorem performAll_apply {α : Type} (answer : α) (created : NodeHandles)
    (hseq : Creation.Sequenced known e.nextHandle cs)
    (hkeeps : Keeps handleOf known e.nextHandle created)
    (hself : ∀ k c, cs[k]? = some c → ∀ id, c.node? = some id → handleOf id = e.nextHandle + k) :
    (∀ c ∈ cs, c.check e = .ok ()) ∧
        (∃ created', performAll cs answer created e =
          (.ok (answer, created'), e.record handleOf cs)) ∨
      ∃ c ∈ cs, ∃ refusal e', c.check e = .error refusal ∧
        performAll cs answer created e = (.error (.engine c.step refusal), e') := by
  induction cs generalizing known created e with
  | nil =>
    rw [record_nil]
    exact Or.inl ⟨fun c hc => absurd hc List.not_mem_nil, created, rfl⟩
  | cons c cs ih =>
    obtain ⟨hready, hrest⟩ := hseq
    have hstep := perform_apply created hready hkeeps
    rw [performAll, bind_apply, hstep]
    cases hcheck : c.check e with
    | error refusal => exact Or.inr ⟨c, List.mem_cons_self, refusal, e, hcheck, rfl⟩
    | ok _ =>
      dsimp only
      have hnext : (e.record handleOf [c]).nextHandle = e.nextHandle + 1 := rfl
      have hlater := ih _ (e := e.record handleOf [c]) (hnext ▸ hrest)
        (hnext ▸ hkeeps.step fun id hid => hself 0 c rfl id hid) fun k d hd id hid => by
          rw [hnext, hself (k + 1) d hd id hid, Nat.add_assoc, Nat.add_comm 1]
      simp only [check_record] at hlater
      rw [record_cons e handleOf c cs]
      rcases hlater with ⟨hall, hok⟩ | ⟨d, hd, hrefused⟩
      · exact Or.inl ⟨List.forall_mem_cons.2 ⟨hcheck, hall⟩, hok⟩
      · exact Or.inr ⟨d, List.mem_cons_of_mem _ hd, hrefused⟩

/-- Handles that were handed out are appended. -/
theorem addLayers_apply (handles : List Handle) (created : NodeHandles)
    (h : ∀ x ∈ handles, x < e.nextHandle) :
    (handles.forM fun handle => call (.addingLayer handle) (LayerEngine.addLayer handle) :
      Lowering RecordingEngine Unit) created e =
        (.ok ((), created), { e with log := e.log ++ handles.map .addLayer }) := by
  induction handles generalizing e with
  | nil =>
    rw [List.map_nil, List.append_nil]
    rfl
  | cons handle handles ih =>
    obtain ⟨hhandle, hhandles⟩ := List.forall_mem_cons.1 h
    have hadd : (LayerEngine.addLayer handle : EngineCall RecordingEngine Unit) e =
        (.ok (), { e with log := e.log ++ [.addLayer handle] }) := by
      change addLayer handle e = _
      rw [addLayer, checkHandles_eq_ok (by simpa using hhandle)]
    have hcall : (call (.addingLayer handle) (LayerEngine.addLayer handle) :
        Lowering RecordingEngine Unit) created e =
          (.ok ((), created), { e with log := e.log ++ [.addLayer handle] }) := by
      rw [call, hadd]
    rw [List.forM, bind_apply, hcall]
    dsimp only
    refine (ih (e := { e with log := e.log ++ [.addLayer handle] }) hhandles).trans ?_
    simp only [List.map_cons, List.append_assoc, List.singleton_append]

/-! ## Whole forests -/

/-- A forest whose wires stay inside is built completely, unless the engine refuses a name. -/
theorem lower_runIn {forest : List Layer} (hwired : Wired forest)
    (hnodup : (forestPlacements forest).Nodup) (capabilities : Option Capabilities) :
    let cs := forestCreations 0 forest
    let fresh : RecordingEngine := { capabilities }
    (∀ c ∈ cs, c.check fresh = .ok ()) ∧
        (lower forest).runIn fresh =
          (.ok (forestHandles 0 forest),
            { log := cs.mapIdx (Creation.entry (Creation.place cs)) ++
                (forestHandles 0 forest).map .addLayer
              nextHandle := forestSize forest
              capabilities }) ∨
      ∃ c ∈ cs, ∃ refusal e', c.check fresh = .error refusal ∧
        (lower forest).runIn fresh = (.error (.engine c.step refusal), e') := by
  intro cs fresh
  have hperm := filterMap_node?_forestCreations_perm forest 0
  have hself : ∀ k c, cs[k]? = some c → ∀ id, c.node? = some id →
      Creation.place cs id = fresh.nextHandle + k := by
    intro k c hc id hid
    have hmem : id ∈ cs.filterMap Creation.node? :=
      List.mem_filterMap.2 ⟨c, List.mem_of_getElem? hc, hid⟩
    rw [Nat.zero_add]
    exact ((Creation.eq_place_iff (hperm.nodup_iff.2 hnodup) hmem).2 ⟨c, hc, hid⟩).symm
  have hrun := performAll_apply (forestHandles 0 forest) []
    (sequenced_forestCreations forest [] 0 hwired) (e := fresh)
    (fun id hid => absurd hid List.not_mem_nil) hself
  have hagree := numbers.forest_agrees forest 0 [] fresh rfl
  rcases hrun with ⟨hall, created, hrun⟩ | ⟨c, hc, refusal, e', hcheck, hrun⟩
  · have hrecord : fresh.record (Creation.place cs) cs =
        { log := cs.mapIdx (Creation.entry (Creation.place cs))
          nextHandle := forestSize forest
          capabilities } := by
      simp [record, fresh, cs]
    have hlt : ∀ x ∈ forestHandles 0 forest, x < forestSize forest := by
      simpa using fun x => lt_of_mem_forestHandles (h := x) forest 0
    refine Or.inl ⟨hall, ?_⟩
    rw [runIn, lower, bind_apply, hagree, hrun, hrecord]
    dsimp only
    rw [bind_apply, addLayers_apply _ _ hlt]
    rfl
  · refine Or.inr ⟨c, hc, refusal, e', hcheck, ?_⟩
    rw [runIn, lower, bind_apply, hagree, hrun]

end RecordingEngine

namespace Graph

variable {g : Graph} {config : CompilerConfig} {forest : List Layer} {id : NodeId} {n : Node}

/-! ## Compiled forests -/

/-- The wires of a special node lead into its subgraph. -/
theorem WellFormed.mem_subgraph_of_mem_auxLinks (hg : g.WellFormed) (hn : g.node? id = some n)
    {link : AuxLink} (h : link ∈ (Expander.auxLinks n).map Prod.snd) :
    link.node ∈ g.subgraph id := by
  simp only [Expander.auxLinks, List.mem_map, List.mem_flatMap, List.mem_filter, Prod.exists,
    List.mem_zipIdx_iff_getElem?, List.getElem?_zip_eq_some] at h
  obtain ⟨_, _, ⟨spec, port, i, ⟨-, hport⟩, ⟨peer, slot⟩, ⟨hpeer, hslot⟩, he⟩, rfl⟩ := h
  obtain ⟨-, rfl⟩ := Prod.mk.inj he
  have hpeers : g.peers (.aux id i) = port.peers := by
    simp [peers, port?, PortRef.aux, hn, Node.port?, hport]
  rw [← hpeers] at hpeer
  cases slot with
  | input => exact hg.mem_subgraph_of_enters ⟨i, hpeer⟩
  | output => exact hg.mem_subgraph_of_exits ⟨i, hpeer⟩
  | aux j => cases hslot

/-- In a compiled forest, the wires of a special layer lead to nodes that are placed inside it. -/
theorem Valid.wired_of_compile (hg : g.Valid) (h : g.compile config = .ok forest) :
    Wired forest := by
  intro source inner links children hpart link hlink
  obtain ⟨n, hn, -, rfl⟩ := (formed_of_compile h hpart).of_node
  refine (forestOuterIds_sublist inner).subset ?_
  rw [hg.mem_inner h (mem_forestSites_of_mem_forestParts forest hpart)]
  exact hg.wellFormed.mem_subgraph_of_mem_auxLinks hn hlink

/-- What the engine may hold against a creation of a compiled forest: the type of a placed node, or
the reduction of a group. -/
theorem refusal_of_check {capabilities : Capabilities} {c : Creation} {refusal : EngineError}
    (h : g.compile config = .ok forest) (hc : c ∈ forestCreations 0 forest)
    (hcheck : c.check { capabilities := some capabilities } = .error refusal) :
    (∃ id n, id ∈ forestPlacements forest ∧ g.node? id = some n ∧
        capabilities.layerTypes.contains n.layerType = false ∧
        refusal = .unknownLayerType n.layerType) ∨
      ∃ reduction merge branches, .parallel reduction merge branches ∈ forestParts forest ∧
        capabilities.reductions.isEmpty = false ∧
        capabilities.reductions.contains reduction.name = false ∧
        refusal = .unknownReduction reduction.name := by
  obtain ⟨part, hpart, hown⟩ := exists_part_of_mem_forestCreations hc
  cases c with
  | layer source handles links =>
    cases part with
    | node source' inner links' children =>
      cases hown
      obtain ⟨n, hn, hsource, -⟩ := (formed_of_compile h hpart).of_node
      refine Or.inl ⟨source.id, n, mem_forestPlacements_of_mem_forestParts hpart, hn, ?_⟩
      rw [Creation.check, RecordingEngine.checkLayerType, hsource] at hcheck
      dsimp only at hcheck
      split at hcheck
      · cases hcheck
      · rename_i hunknown
        exact ⟨by simpa using hunknown, (Except.error.inj hcheck).symm⟩
    | sequence steps => cases hown
    | parallel reduction merge branches => cases hown
  | merge reduction merge handles =>
    cases part with
    | node source inner links children => cases hown
    | sequence steps => cases hown
    | parallel reduction' merge' branches =>
      cases hown
      refine Or.inr ⟨reduction, merge, branches, hpart, ?_⟩
      rw [Creation.check, RecordingEngine.checkReduction] at hcheck
      dsimp only at hcheck
      split at hcheck
      · cases hcheck
      · rename_i hunknown
        rw [Bool.or_eq_true, not_or, Bool.not_eq_true, Bool.not_eq_true] at hunknown
        exact ⟨hunknown.1, hunknown.2, (Except.error.inj hcheck).symm⟩

/-- The compiled forest of an edited graph:

* the wires of a special layer lead to nodes that are placed inside it;
* every placed node has a creation, which is the only one for it;
* in an engine without capabilities the forest is built; the log has an entry for each creation, under
  its place as the handle, and then the layers of the top level.  The entry of the layer of a node
  binds each of its wires to the handle of what was created for the node at the end of the wire;
* an engine with capabilities may refuse the type of a placed node that is not among its layer
  types, and the reduction of a group that is not among its reductions, if it lists any.  It refuses
  nothing else. -/
theorem Edited.lowering_exact (hg : g.Edited) (h : g.compile config = .ok forest) :
    let cs := forestCreations 0 forest
    let handleOf := Creation.place cs
    (∀ source inner links children, .node source inner links children ∈ forestParts forest →
      ∀ link ∈ links, link.node ∈ forestPlacements inner) ∧
    (∀ id ∈ forestPlacements forest, ∀ k, k = handleOf id ↔
      ∃ c, cs[k]? = some c ∧ c.node? = some id) ∧
    (∃ engine, (lower forest).runIn ({} : RecordingEngine) = (.ok (forestHandles 0 forest), engine) ∧
      engine.log = cs.mapIdx (Creation.entry handleOf) ++ (forestHandles 0 forest).map .addLayer ∧
      ∀ source inner links children, .node source inner links children ∈ forestParts forest →
        ∃ handles, LogEntry.createLayer (handleOf source.id) source.layerType source.floatParams
          source.stringParams handles
          (links.map fun link => ⟨link.port, link.role, handleOf link.node⟩) ∈ engine.log) ∧
    ∀ capabilities : Capabilities,
      let answer := (lower forest).runIn ({ capabilities := some capabilities } : RecordingEngine)
      answer.1 = .ok (forestHandles 0 forest) ∨
        ∃ step refusal, answer.1 = .error (.engine step refusal) ∧
          ((∃ id n, id ∈ forestPlacements forest ∧ g.node? id = some n ∧
              capabilities.layerTypes.contains n.layerType = false ∧
              refusal = .unknownLayerType n.layerType) ∨
            ∃ reduction merge branches, .parallel reduction merge branches ∈ forestParts forest ∧
              capabilities.reductions.isEmpty = false ∧
              capabilities.reductions.contains reduction.name = false ∧
              refusal = .unknownReduction reduction.name) := by
  intro cs handleOf
  have hwired := hg.valid.wired_of_compile h
  have hnodup := hg.valid.nodup_forestPlacements h
  have hperm := filterMap_node?_forestCreations_perm forest 0
  have hplace : ∀ id ∈ forestPlacements forest, ∀ k, k = handleOf id ↔
      ∃ c, cs[k]? = some c ∧ c.node? = some id := fun id hid k =>
    Creation.eq_place_iff (hperm.nodup_iff.2 hnodup) (hperm.mem_iff.2 hid)
  refine ⟨hwired, hplace, ?_, fun capabilities => ?_⟩
  · rcases RecordingEngine.lower_runIn hwired hnodup none with ⟨-, hrun⟩ | ⟨c, -, refusal, -, hcheck, -⟩
    · refine ⟨_, hrun, rfl, fun source inner links children hpart => ?_⟩
      obtain ⟨handles, hc⟩ := exists_mem_forestCreations hpart 0
      obtain ⟨k, hk⟩ := List.mem_iff_getElem?.1 hc
      have hself := (hplace source.id (mem_forestPlacements_of_mem_forestParts hpart) k).2
        ⟨_, hk, rfl⟩
      refine ⟨handles, List.mem_append_left _ (List.mem_iff_getElem?.2 ⟨k, ?_⟩)⟩
      rw [List.getElem?_mapIdx, hk, Option.map_some, Creation.entry, ← hself]
    · -- without capabilities every name is known
      cases c <;> cases hcheck
  · rcases RecordingEngine.lower_runIn hwired hnodup (some capabilities) with
      ⟨-, hrun⟩ | ⟨c, hc, refusal, e', hcheck, hrun⟩
    · exact Or.inl (congrArg Prod.fst hrun)
    · exact Or.inr ⟨c.step, refusal, congrArg Prod.fst hrun, refusal_of_check h hc hcheck⟩

/-- The network of `sample` is built, and the engine that knows plain layers only refuses nothing but
a layer type. -/
theorem lowering_sample : ∃ forest, sample.compile {} = .ok forest ∧
    ((lower forest).runIn ({} : RecordingEngine)).1 = .ok (forestHandles 0 forest) ∧
    ∀ step refusal, ((lower forest).runIn
        ({ capabilities := some { layerTypes := Keyed.ofList ["LayerDense"] } } :
          RecordingEngine)).1 = .error (.engine step refusal) →
      ∃ layerType, refusal = .unknownLayerType layerType := by
  obtain ⟨forest, h⟩ := compile_sample
  obtain ⟨-, -, ⟨engine, hrun, -⟩, hrefused⟩ := edited_sample.lowering_exact h
  refine ⟨forest, h, congrArg Prod.fst hrun, fun step refusal herror => ?_⟩
  rcases hrefused { layerTypes := Keyed.ofList ["LayerDense"] } with
    hok | ⟨step', refusal', herror', hnames⟩
  · cases herror.symm.trans hok
  · cases herror.symm.trans herror'
    rcases hnames with ⟨id, n, -, -, -, hrefusal⟩ | ⟨reduction, merge, branches, -, hempty, -⟩
    · exact ⟨n.layerType, hrefusal⟩
    · -- no reductions are listed
      cases hempty

/-- The special layer of `sample` holds its two nodes and is bound to both. -/
example : ((sample.build {} ({} : RecordingEngine)).2.log[3]?.map fun
    | .createLayer _ _ _ _ handles bindings => (handles, bindings)
    | _ => ([], [])) = some ([1, 2], [⟨0, .entry, 1⟩, ⟨1, .exit, 2⟩]) := by decide +kernel

end Graph

end LayerNet

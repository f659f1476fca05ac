import LayerNet.Lowering
import LayerNet.Proofs.Parts

/-!
# Building as a list of creations

An engine that numbers what it creates hands out the next number with each creation.  For such an
engine it is known beforehand what a forest is built with: `forestCreations` lists the creations one
after the other, with the handles that they name, and `forestHandles` gives the handles of the layers
of the top level.

* `Lowering.forest_agrees` — building a forest is making its creations in their order;
* `filterMap_node?_forestCreations_perm` — the creations are for the placed nodes, each once;
* `sequenced_forestCreations` — each creation names handles of earlier ones only, and the wires of a
  layer lead to nodes whose creations come before it.
-/

namespace LayerNet

/-- What an engine is asked to create: the layer of a node, or a merge, with the handles that the
call names. -/
inductive Creation where
  | layer (source : LayerNode) (inner : List Handle) (links : List AuxLink)
  | merge (reduction : Reduction) (node : Option NodeId) (branches : List (List Handle))

namespace Creation

/-- The node that a creation is for. -/
def node? : Creation → Option NodeId
  | layer source _ _ => some source.id
  | merge _ node _ => node

/-- The handles that the call names, those of bindings aside. -/
def operands : Creation → List Handle
  | layer _ inner _ => inner
  | merge _ _ branches => branches.flatten

/-- The wires that are bound when the layer is created. -/
def links : Creation → List AuxLink
  | layer _ _ links => links
  | merge .. => []

/-- What a creation makes: a layer without those inside and after it. -/
def made : Creation → Layer
  | layer source _ links => .node source [] links []
  | merge reduction node _ => .parallel reduction node []

/-- The step that an error of the call names. -/
def step : Creation → BuildStep
  | layer source _ _ => .creatingLayer source.layerType source.id
  | merge reduction _ branches => .creatingMerge reduction branches.length

theorem toList_append_filterMap_node? (c : Creation) (cs : List Creation) :
    c.node?.toList ++ cs.filterMap node? = (c :: cs).filterMap node? := by
  rw [List.filterMap_cons]
  cases c.node? <;> rfl

end Creation

namespace Layer

/-! ## The creations of a forest -/

mutual

/-- How many creations a tree takes. -/
def size : Layer → Nat
  | node _ inner _ children => forestSize inner + 1 + forestSize children
  | sequence steps => forestSize steps
  | parallel _ _ branches => forestSize branches + 1

/-- How many creations a forest takes. -/
def forestSize : List Layer → Nat
  | [] => 0
  | layer :: layers => size layer + forestSize layers

end

mutual

/-- The handles of the layers of a tree that is built when `next` is the next handle. -/
def handles (next : Handle) : Layer → List Handle
  | node _ inner _ children =>
    (next + forestSize inner) :: forestHandles (next + forestSize inner + 1) children
  | sequence steps => forestHandles next steps
  | parallel _ _ branches => [next + forestSize branches]

/-- The handles of the layers of a forest. -/
def forestHandles (next : Handle) : List Layer → List Handle
  | [] => []
  | layer :: layers => handles next layer ++ forestHandles (next + size layer) layers

end

/-- The handles of the branches of a group, branch by branch. -/
def branchHandles (next : Handle) : List Layer → List (List Handle)
  | [] => []
  | layer :: layers => handles next layer :: branchHandles (next + size layer) layers

mutual

/-- The creations of a tree: a subgraph before its special layer, and branches before their merge. -/
def creations (next : Handle) : Layer → List Creation
  | node source inner links children =>
    forestCreations next inner ++ .layer source (forestHandles next inner) links ::
      forestCreations (next + forestSize inner + 1) children
  | sequence steps => forestCreations next steps
  | parallel reduction merge branches =>
    forestCreations next branches ++ [.merge reduction merge (branchHandles next branches)]

/-- The creations of a forest. -/
def forestCreations (next : Handle) : List Layer → List Creation
  | [] => []
  | layer :: layers => creations next layer ++ forestCreations (next + size layer) layers

end

mutual

@[simp] theorem length_creations : ∀ (layer : Layer) (next : Handle),
    (creations next layer).length = layer.size
  | node _ inner _ children, next => by
    rw [creations, List.length_append, List.length_cons, length_forestCreations inner,
      length_forestCreations children, size]
    omega
  | sequence steps, next => length_forestCreations steps next
  | parallel _ _ branches, next => by
    rw [creations, List.length_append, length_forestCreations branches, size, List.length_singleton]

@[simp] theorem length_forestCreations : ∀ (forest : List Layer) (next : Handle),
    (forestCreations next forest).length = forestSize forest
  | [], _ => rfl
  | layer :: layers, next => by
    rw [forestCreations, List.length_append, length_creations layer, length_forestCreations layers,
      forestSize]

end

theorem flatten_branchHandles (forest : List Layer) (next : Handle) :
    (branchHandles next forest).flatten = forestHandles next forest := by
  induction forest generalizing next with
  | nil => rfl
  | cons layer layers ih => rw [branchHandles, List.flatten_cons, ih, forestHandles]

mutual

theorem lt_of_mem_handles {h : Nat} : ∀ (layer : Layer) (next : Nat),
    h ∈ handles next layer → h < next + layer.size
  | node _ inner _ children, next, hh => by
    rw [handles, List.mem_cons] at hh
    rw [size]
    rcases hh with rfl | hh
    · omega
    · have hlt := lt_of_mem_forestHandles children _ hh
      omega
  | sequence steps, next, hh => lt_of_mem_forestHandles steps next hh
  | parallel _ _ branches, next, hh => by
    rw [List.mem_singleton.1 hh, size]
    omega

/-- The handles of a forest are given out while it is built. -/
theorem lt_of_mem_forestHandles {h : Nat} : ∀ (forest : List Layer) (next : Nat),
    h ∈ forestHandles next forest → h < next + forestSize forest
  | [], _, hh => absurd hh List.not_mem_nil
  | layer :: layers, next, hh => by
    rw [forestHandles, List.mem_append] at hh
    rw [forestSize]
    rcases hh with hh | hh
    · have hlt := lt_of_mem_handles layer next hh
      omega
    · have hlt := lt_of_mem_forestHandles layers _ hh
      omega

end

mutual

theorem filterMap_node?_creations_perm : ∀ (layer : Layer) (next : Handle),
    ((creations next layer).filterMap Creation.node?).Perm layer.placements
  | node source inner links children, next => by
    rw [creations, List.filterMap_append, ← Creation.toList_append_filterMap_node?, placements]
    refine List.perm_middle.trans (List.Perm.cons source.id ?_)
    exact (filterMap_node?_forestCreations_perm inner next).append
      (filterMap_node?_forestCreations_perm children _)
  | sequence steps, next => filterMap_node?_forestCreations_perm steps next
  | parallel reduction merge branches, next => by
    rw [creations, List.filterMap_append, ← Creation.toList_append_filterMap_node?,
      List.filterMap_nil, List.append_nil, placements]
    exact ((filterMap_node?_forestCreations_perm branches next).append_right _).trans
      List.perm_append_comm

/-- The creations are for the nodes that the forest places. -/
theorem filterMap_node?_forestCreations_perm : ∀ (forest : List Layer) (next : Handle),
    ((forestCreations next forest).filterMap Creation.node?).Perm (forestPlacements forest)
  | [], _ => .nil
  | layer :: layers, next => by
    rw [forestCreations, List.filterMap_append, forestPlacements]
    exact (filterMap_node?_creations_perm layer next).append
      (filterMap_node?_forestCreations_perm layers _)

end

/-- A layer without those inside and after it.  A sequence is nothing without its steps. -/
def own? : Layer → Option Layer
  | node source _ links _ => some (node source [] links [])
  | sequence _ => none
  | parallel reduction merge _ => some (parallel reduction merge [])

mutual

theorem map_made_creations_perm : ∀ (layer : Layer) (next : Handle),
    ((creations next layer).map Creation.made).Perm (layer.parts.filterMap own?)
  | node source inner links children, next => by
    rw [creations, List.map_append, List.map_cons, parts,
      List.filterMap_cons_some (f := own?) (b := node source [] links []) rfl,
      List.filterMap_append]
    refine List.perm_middle.trans (List.Perm.cons _ ?_)
    exact (map_made_forestCreations_perm inner next).append
      (map_made_forestCreations_perm children _)
  | sequence steps, next => map_made_forestCreations_perm steps next
  | parallel reduction merge branches, next => by
    rw [creations, List.map_append, parts,
      List.filterMap_cons_some (f := own?) (b := parallel reduction merge []) rfl]
    exact List.perm_append_comm.trans
      (List.Perm.cons _ (map_made_forestCreations_perm branches next))

/-- The creations make the layers and the groups of the forest. -/
theorem map_made_forestCreations_perm : ∀ (forest : List Layer) (next : Handle),
    ((forestCreations next forest).map Creation.made).Perm ((forestParts forest).filterMap own?)
  | [], _ => .nil
  | layer :: layers, next => by
    rw [forestCreations, List.map_append, forestParts, List.filterMap_append]
    exact (map_made_creations_perm layer next).append (map_made_forestCreations_perm layers _)

end

theorem exists_part_of_mem_forestCreations {forest : List Layer} {next : Handle} {c : Creation}
    (hc : c ∈ forestCreations next forest) :
    ∃ part ∈ forestParts forest, part.own? = some c.made :=
  List.mem_filterMap.1
    ((map_made_forestCreations_perm forest next).subset (List.mem_map_of_mem hc))

/-- Every layer of a node is created. -/
theorem exists_mem_forestCreations {forest : List Layer} {source : LayerNode}
    {inner children : List Layer} {links : List AuxLink}
    (h : node source inner links children ∈ forestParts forest) (next : Handle) :
    ∃ handles, .layer source handles links ∈ forestCreations next forest := by
  have hown : node source [] links [] ∈ (forestParts forest).filterMap own? :=
    List.mem_filterMap.2 ⟨_, h, rfl⟩
  obtain ⟨c, hc, hmade⟩ :=
    List.mem_map.1 ((map_made_forestCreations_perm forest next).mem_iff.2 hown)
  cases c with
  | layer source' handles links' =>
    cases hmade
    exact ⟨handles, hc⟩
  | merge reduction merge branches => cases hmade

end Layer

/-! ## What a creation can rely on -/

namespace Creation

/-- The creation names only handles below `next`, and wires only the nodes in `known`. -/
structure Ready (known : List NodeId) (next : Handle) (c : Creation) : Prop where
  operands : ∀ h ∈ c.operands, h < next
  links : ∀ link ∈ c.links, link.node ∈ known

/-- Creations of which each is ready when those before it are made; `known` are the nodes that
creations were made for before. -/
def Sequenced (known : List NodeId) (next : Handle) : List Creation → Prop
  | [] => True
  | c :: cs => c.Ready known next ∧ Sequenced (known ++ c.node?.toList) (next + 1) cs

theorem Sequenced.append {known : List NodeId} {next : Handle} {cs ds : List Creation}
    (hcs : Sequenced known next cs)
    (hds : Sequenced (known ++ cs.filterMap node?) (next + cs.length) ds) :
    Sequenced known next (cs ++ ds) := by
  induction cs generalizing known next with
  | nil => simpa using hds
  | cons c cs ih =>
    refine ⟨hcs.1, ih hcs.2 ?_⟩
    rwa [List.append_assoc, toList_append_filterMap_node?, Nat.add_assoc, Nat.add_comm 1]

end Creation

namespace Layer

/-- The wires of every special layer lead to nodes that are placed inside it. -/
def Wired (forest : List Layer) : Prop :=
  ∀ source inner links children, node source inner links children ∈ forestParts forest →
    ∀ link ∈ links, link.node ∈ forestPlacements inner

theorem wired_cons_iff {layer : Layer} {layers : List Layer} :
    Wired (layer :: layers) ↔ Wired [layer] ∧ Wired layers := by
  simp only [Wired, forestParts, List.append_nil, List.mem_append, or_imp, forall_and]

theorem Wired.of_node {source : LayerNode} {inner children : List Layer} {links : List AuxLink}
    (h : Wired [node source inner links children]) :
    Wired inner ∧ (∀ link ∈ links, link.node ∈ forestPlacements inner) ∧ Wired children := by
  simp only [Wired, forestParts, parts, List.append_nil, List.mem_cons, List.mem_append] at h
  exact ⟨fun s i l c hp => h s i l c (Or.inr (Or.inl hp)), h _ _ _ _ (Or.inl rfl),
    fun s i l c hp => h s i l c (Or.inr (Or.inr hp))⟩

theorem Wired.of_sequence {steps : List Layer} (h : Wired [sequence steps]) : Wired steps :=
  fun s i l c hp => h s i l c (by simp [forestParts, parts, hp])

theorem Wired.of_parallel {reduction : Reduction} {merge : Option NodeId} {branches : List Layer}
    (h : Wired [parallel reduction merge branches]) : Wired branches :=
  fun s i l c hp => h s i l c (by simp [forestParts, parts, hp])

mutual

theorem sequenced_creations : ∀ (layer : Layer) (known : List NodeId) (next : Handle),
    Wired [layer] → Creation.Sequenced known next (creations next layer)
  | node source inner links children, known, next, h => by
    obtain ⟨hinner, hlinks, hchildren⟩ := h.of_node
    refine (sequenced_forestCreations inner known next hinner).append ?_
    rw [length_forestCreations]
    refine ⟨⟨fun x hx => lt_of_mem_forestHandles inner next hx, fun link hlink => ?_⟩,
      sequenced_forestCreations children _ _ hchildren⟩
    refine List.mem_append_right _ ?_
    exact (filterMap_node?_forestCreations_perm inner next).mem_iff.2 (hlinks link hlink)
  | sequence steps, known, next, h => sequenced_forestCreations steps known next h.of_sequence
  | parallel _ _ branches, known, next, h => by
    refine (sequenced_forestCreations branches known next h.of_parallel).append ?_
    rw [length_forestCreations]
    refine ⟨⟨fun x hx => ?_, fun link hlink => absurd hlink List.not_mem_nil⟩, trivial⟩
    rw [Creation.operands, flatten_branchHandles] at hx
    exact lt_of_mem_forestHandles branches next hx

/-- The creations of a forest are in an order in which each can be made. -/
theorem sequenced_forestCreations : ∀ (forest : List Layer) (known : List NodeId) (next : Handle),
    Wired forest → Creation.Sequenced known next (forestCreations next forest)
  | [], _, _, _ => trivial
  | layer :: layers, known, next, h => by
    obtain ⟨hlayer, hlayers⟩ := wired_cons_iff.1 h
    refine (sequenced_creations layer known next hlayer).append ?_
    rw [length_creations]
    exact sequenced_forestCreations layers _ _ hlayers

end

end Layer

/-! ## Engines that number what they create -/

namespace Lowering

variable {ε α β : Type} {next : ε → Handle} {n : Handle} {x y : Lowering ε α}
  {f f' : α → Lowering ε β} {post : α → Handle → Prop} {post' : β → Handle → Prop}

theorem bind_apply (x : Lowering ε α) (f : α → Lowering ε β) (created : NodeHandles) (e : ε) :
    (x >>= f) created e =
      match x created e with
      | (.ok (a, created), e) => f a created e
      | (.error error, e) => (.error error, e) := by
  simp only [Bind.bind, StateT.bind, ExceptT.bind, ExceptT.mk]
  generalize x created e = r
  obtain ⟨answer, e⟩ := r
  cases answer with
  | ok r => rfl
  | error error => rfl

/-- Two buildings do the same in every engine whose next handle is `n`. -/
def AgreesAt (next : ε → Handle) (n : Handle) (x y : Lowering ε α) : Prop :=
  ∀ created e, next e = n → x created e = y created e

/-- What holds of the answer and of the next handle if a building succeeds in an engine whose next
handle is `n`. -/
def EndsWith (next : ε → Handle) (n : Handle) (x : Lowering ε α) (post : α → Handle → Prop) :
    Prop :=
  ∀ created e, next e = n → ∀ a created' e', x created e = (.ok (a, created'), e') →
    post a (next e')

theorem AgreesAt.refl (x : Lowering ε α) : AgreesAt next n x x := fun _ _ _ => rfl

theorem AgreesAt.bind (hx : AgreesAt next n x y) (hy : EndsWith next n y post)
    (hf : ∀ a m, post a m → AgreesAt next m (f a) (f' a)) :
    AgreesAt next n (x >>= f) (y >>= f') := by
  intro created e he
  rw [bind_apply, bind_apply, hx created e he]
  cases hrun : y created e with
  | mk answer e' =>
    cases answer with
    | error error => rfl
    | ok r => exact hf r.1 (next e') (hy created e he _ _ _ hrun) r.2 e' rfl

theorem EndsWith.bind (hx : EndsWith next n x post)
    (hf : ∀ a m, post a m → EndsWith next m (f a) post') : EndsWith next n (x >>= f) post' := by
  intro created e he b created' e' hrun
  rw [bind_apply] at hrun
  cases hmid : x created e with
  | mk answer e₁ =>
    rw [hmid] at hrun
    cases answer with
    | error error => cases hrun
    | ok r => exact hf r.1 (next e₁) (hx created e he _ _ _ hmid) r.2 e₁ rfl b created' e' hrun

theorem endsWith_pure {a : α} (h : post a n) : EndsWith next n (pure a : Lowering ε α) post := by
  rintro created e rfl b created' e' hrun
  cases hrun
  exact h

theorem bind_link_apply (special : NodeId) (link : AuxLink) (created : NodeHandles) (e : ε) :
    (bind special link : Lowering ε AuxBinding) created e =
      match created.lookup link.node with
      | some handle => (.ok (⟨link.port, link.role, handle⟩, created), e)
      | none => (.error (.engine (.bindingPort link.port special)
          (.rejected s!"node #{link.node} has no layer")), e) := by
  cases hlookup : created.lookup link.node <;>
  · unfold bind
    rw [bind_apply]
    change (match created.lookup link.node with
      | some handle => pure _
      | none => throw _ : Lowering ε AuxBinding) created e = _
    rw [hlookup]
    rfl

theorem endsWith_bind_link (special : NodeId) (link : AuxLink) :
    EndsWith next n (bind special link : Lowering ε AuxBinding) fun _ m => m = n := by
  rintro created e rfl a created' e' hrun
  rw [bind_link_apply] at hrun
  cases hlookup : created.lookup link.node with
  | none =>
    rw [hlookup] at hrun
    cases hrun
  | some handle =>
    rw [hlookup] at hrun
    cases hrun
    rfl

/-- Wires are bound to the handles that are kept for their nodes. -/
theorem mapM_bind_apply (handleOf : NodeId → Handle) (special : NodeId) (links : List AuxLink)
    (created : NodeHandles) (e : ε)
    (h : ∀ link ∈ links, created.lookup link.node = some (handleOf link.node)) :
    (links.mapM (bind special) : Lowering ε (List AuxBinding)) created e =
      (.ok (links.map fun link => ⟨link.port, link.role, handleOf link.node⟩, created), e) := by
  induction links with
  | nil => rfl
  | cons link links ih =>
    obtain ⟨hlink, hlinks⟩ := List.forall_mem_cons.1 h
    rw [List.mapM_cons, bind_apply, bind_link_apply, hlink]
    dsimp only
    rw [bind_apply, ih hlinks]
    rfl

theorem endsWith_mapM_bind (special : NodeId) (links : List AuxLink) :
    EndsWith next n (links.mapM (bind special) : Lowering ε (List AuxBinding)) fun _ m => m = n := by
  induction links with
  | nil => exact endsWith_pure rfl
  | cons link links ih =>
    rw [List.mapM_cons]
    refine (endsWith_bind_link special link).bind fun _ m hm => ?_
    subst hm
    exact ih.bind fun _ m hm => endsWith_pure hm

/-- A call that creates something, whose handle is kept if it is for a node. -/
def callFor (node? : Option NodeId) (step : BuildStep) (request : EngineCall ε Handle) :
    Lowering ε Handle := do
  let handle ← call step request
  match node? with
  | some node => assign node handle
  | none => pure ()
  return handle

theorem callFor_apply (node? : Option NodeId) (step : BuildStep) (request : EngineCall ε Handle)
    (created : NodeHandles) (e : ε) :
    callFor node? step request created e = match request e with
      | (.ok handle, e) =>
        (.ok (handle, node?.toList.map (fun node => (node, handle)) ++ created), e)
      | (.error refusal, e) => (.error (.engine step refusal), e) := by
  unfold callFor call
  rw [bind_apply]
  obtain ⟨answer, e'⟩ := request e
  cases answer with
  | error refusal => rfl
  | ok handle => cases node? <;> rfl

theorem endsWith_callFor {node? : Option NodeId} {step : BuildStep} {request : EngineCall ε Handle}
    (h : ∀ {e e' h}, request e = (.ok h, e') → h = next e ∧ next e' = next e + 1) :
    EndsWith next n (callFor node? step request) fun handle m => handle = n ∧ m = n + 1 := by
  rintro created e rfl a created' e' hrun
  rw [callFor_apply] at hrun
  split at hrun
  · rename_i hrequest
    cases hrun
    exact h hrequest
  · cases hrun

variable [LayerEngine ε]

/-- An engine that numbers its creations: each gets the next handle.  A plain layer is created like
a special one without anything inside. -/
structure Numbers (next : ε → Handle) : Prop where
  createLayer_eq : ∀ layerType floatParams stringParams,
    (LayerEngine.createLayer layerType floatParams stringParams : EngineCall ε Handle) =
      LayerEngine.createSpecial layerType floatParams stringParams [] []
  createSpecial : ∀ {layerType floatParams stringParams inner bindings} {e e' : ε} {h},
    (LayerEngine.createSpecial layerType floatParams stringParams inner bindings :
      EngineCall ε Handle) e = (.ok h, e') → h = next e ∧ next e' = next e + 1
  createMerge : ∀ {reduction branches} {e e' : ε} {h},
    (LayerEngine.createMerge reduction branches : EngineCall ε Handle) e = (.ok h, e') →
      h = next e ∧ next e' = next e + 1

/-- A creation made: its wires are bound to what was created for their nodes. -/
def perform : Creation → Lowering ε Handle
  | .layer source inner links => do
    let bindings ← links.mapM (bind source.id)
    callFor (some source.id) (.creatingLayer source.layerType source.id)
      (LayerEngine.createSpecial source.layerType source.floatParams source.stringParams inner
        bindings)
  | .merge reduction node branches =>
    callFor node (.creatingMerge reduction branches.length)
      (LayerEngine.createMerge reduction.name branches)

/-- Creations made one after the other, with an answer that is known beforehand. -/
def performAll : List Creation → α → Lowering ε α
  | [], answer => return answer
  | c :: cs, answer => do
    let _ ← perform c
    performAll cs answer

theorem performAll_append (cs ds : List Creation) (a : α) (b : β) :
    (performAll (cs ++ ds) b : Lowering ε β) = performAll cs a >>= fun _ => performAll ds b := by
  induction cs with
  | nil => rw [List.nil_append, performAll, pure_bind]
  | cons c cs ih => rw [List.cons_append, performAll, ih, performAll, bind_assoc]

theorem Numbers.endsWith_perform (hn : Numbers next) (c : Creation) :
    EndsWith next n (perform c : Lowering ε Handle) fun handle m => handle = n ∧ m = n + 1 := by
  cases c with
  | layer source inner links =>
    refine (endsWith_mapM_bind source.id links).bind fun bindings m hm => ?_
    subst hm
    exact endsWith_callFor hn.createSpecial
  | merge reduction node branches => exact endsWith_callFor hn.createMerge

theorem Numbers.endsWith_performAll (hn : Numbers next) (cs : List Creation) (answer : α) :
    EndsWith next n (performAll cs answer : Lowering ε α) fun a m =>
      a = answer ∧ m = n + cs.length := by
  induction cs generalizing n with
  | nil => exact endsWith_pure ⟨rfl, rfl⟩
  | cons c cs ih =>
    refine (hn.endsWith_perform c).bind fun _ m hm => ?_
    obtain ⟨-, rfl⟩ := hm
    rw [List.length_cons, Nat.add_comm cs.length, ← Nat.add_assoc]
    exact ih

/-- Buildings that make creations make them one after the other. -/
theorem Numbers.append_agrees (hn : Numbers next) {cs ds : List Creation} {a : α} {b : β}
    (hx : AgreesAt next n x (performAll cs a))
    (hf : AgreesAt next (n + cs.length) (f a) (performAll ds b)) :
    AgreesAt next n (x >>= f) (performAll (cs ++ ds) b) := by
  rw [performAll_append cs ds a]
  refine hx.bind (hn.endsWith_performAll cs a) fun _ m hm => ?_
  obtain ⟨rfl, rfl⟩ := hm
  exact hf

theorem Numbers.cons_agrees (hn : Numbers next) {c : Creation} {cs : List Creation} {b : β}
    {f : Handle → Lowering ε β} (hf : AgreesAt next (n + 1) (f n) (performAll cs b)) :
    AgreesAt next n (perform c >>= f) (performAll (c :: cs) b) := by
  rw [performAll]
  refine (AgreesAt.refl _).bind (hn.endsWith_perform c) fun _ m hm => ?_
  obtain ⟨rfl, rfl⟩ := hm
  exact hf

/-- The answer of a building may be changed in the end. -/
theorem Numbers.map_agrees (hn : Numbers next) {cs : List Creation} {a : α} {φ : α → β}
    (hx : AgreesAt next n x (performAll cs a)) :
    AgreesAt next n (x >>= fun a => pure (φ a)) (performAll cs (φ a)) := by
  rw [← List.append_nil cs]
  exact hn.append_agrees hx (AgreesAt.refl _)

/-! ## Building a tree -/

/-- Whether there is anything inside makes no difference to how a layer is created. -/
theorem Numbers.tree_node (hn : Numbers next) (source : LayerNode) (inner children : List Layer)
    (links : List AuxLink) :
    (tree (.node source inner links children) : Lowering ε (List Handle)) = do
      let handles ← forest inner
      let handle ← perform (.layer source handles links)
      let rest ← forest children
      return handle :: rest := by
  rw [tree]
  split
  · rename_i h
    rw [Bool.and_eq_true, List.isEmpty_iff, List.isEmpty_iff] at h
    obtain ⟨rfl, rfl⟩ := h
    simp only [forest, perform, callFor, List.mapM_nil, pure_bind, bind_assoc, hn.createLayer_eq]
  · simp only [perform, callFor, bind_assoc, pure_bind]

theorem tree_parallel (reduction : Reduction) (merge : Option NodeId) (layers : List Layer) :
    (tree (.parallel reduction merge layers) : Lowering ε (List Handle)) = do
      let handles ← branches layers
      let handle ← perform (.merge reduction merge handles)
      return [handle] := by
  rw [tree]
  cases merge <;> simp only [perform, callFor, bind_assoc, pure_bind]

mutual

theorem Numbers.tree_agrees (hn : Numbers next) : ∀ (layer : Layer) (n : Handle),
    AgreesAt next n (tree layer : Lowering ε (List Handle))
      (performAll (layer.creations n) (layer.handles n))
  | .node source inner links children, n => by
    rw [hn.tree_node, Layer.creations]
    refine hn.append_agrees (hn.forest_agrees inner n) (hn.cons_agrees ?_)
    rw [Layer.length_forestCreations]
    exact hn.map_agrees (hn.forest_agrees children _)
  | .sequence steps, n => hn.forest_agrees steps n
  | .parallel reduction merge layers, n => by
    rw [tree_parallel, Layer.creations]
    refine hn.append_agrees (hn.branches_agrees layers n) (hn.cons_agrees ?_)
    rw [Layer.length_forestCreations]
    exact AgreesAt.refl _

/-- Building a forest is making its creations in their order. -/
theorem Numbers.forest_agrees (hn : Numbers next) : ∀ (layers : List Layer) (n : Handle),
    AgreesAt next n (forest layers : Lowering ε (List Handle))
      (performAll (Layer.forestCreations n layers) (Layer.forestHandles n layers))
  | [], n => AgreesAt.refl _
  | layer :: layers, n => by
    refine hn.append_agrees (hn.tree_agrees layer n) ?_
    rw [Layer.length_creations]
    exact hn.map_agrees (hn.forest_agrees layers _)

theorem Numbers.branches_agrees (hn : Numbers next) : ∀ (layers : List Layer) (n : Handle),
    AgreesAt next n (branches layers : Lowering ε (List (List Handle)))
      (performAll (Layer.forestCreations n layers) (Layer.branchHandles n layers))
  | [], n => AgreesAt.refl _
  | layer :: layers, n => by
    refine hn.append_agrees (hn.tree_agrees layer n) ?_
    rw [Layer.length_creations]
    exact hn.map_agrees (hn.branches_agrees layers _)

end

end Lowering

end LayerNet

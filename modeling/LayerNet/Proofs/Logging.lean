import LayerNet.Proofs.Building
import LayerNet.Proofs.Legality

/-!
# What the log of a building says

Whatever forest is built in the recording engine, compiled or put together by hand: if the building
succeeds, the engine has logged one entry for each creation of the forest, in their order, and then
the layers of the top level.

* `Numbers.lower_agrees` — a whole building is its creations and what is appended to the network;
* `performAll_ok` — a successful run of creations adds their entries to the log (`Creation.Logs`) and
  does nothing else to the engine;
* `operands_forestCreations_perm` — the creations and the network together use each handle of the
  forest once;
* `lower_uses_once` — what this means for the log of a whole building.
-/

namespace LayerNet

open Layer Lowering

/-! ## Reading a log -/

namespace LogEntry

/-- The handle of what the call created. -/
def created? : LogEntry → Option Handle
  | createLayer handle .. => some handle
  | createMerge handle .. => some handle
  | addLayer _ => none

/-- The handles that the call uses up: inside a layer, in a branch or in the network. -/
def operands : LogEntry → List Handle
  | createLayer _ _ _ _ handles _ => handles
  | createMerge _ _ branches => branches.flatten
  | addLayer handle => [handle]

/-- All handles that the call names, those of bindings as well. -/
def named : LogEntry → List Handle
  | createLayer _ _ _ _ handles bindings => handles ++ bindings.map AuxBinding.handle
  | createMerge _ _ branches => branches.flatten
  | addLayer handle => [handle]

/-- The type and the parameters of a layer that the call created. -/
def layer? : LogEntry → Option (String × List Float32 × List String)
  | createLayer _ layerType floatParams stringParams _ _ =>
    some (layerType, floatParams, stringParams)
  | _ => none

/-- The reduction of a merge that the call created. -/
def merge? : LogEntry → Option String
  | createMerge _ reduction _ => some reduction
  | _ => none

end LogEntry

namespace Layer

/-- The type and the parameters of the layer of a node. -/
def content? : Layer → Option (String × List Float32 × List String)
  | node source _ _ _ => some (source.layerType, source.floatParams, source.stringParams)
  | _ => none

/-- The name of the reduction of a group. -/
def reductionName? : Layer → Option String
  | parallel reduction _ _ => some reduction.name
  | _ => none

/-- A log has a layer for each node of a forest, with its type and its parameters, and a merge for
each group. -/
structure RecordedIn (forest : List Layer) (log : List LogEntry) : Prop where
  layers : (log.filterMap LogEntry.layer?).Perm ((forestParts forest).filterMap content?)
  merges : (log.filterMap LogEntry.merge?).Perm ((forestParts forest).filterMap reductionName?)

theorem RecordedIn.append_addLayers {forest : List Layer} {log : List LogEntry}
    (h : RecordedIn forest log) (handles : List Handle) :
    RecordedIn forest (log ++ handles.map .addLayer) where
  layers := by
    have hnone : (handles.map LogEntry.addLayer).filterMap LogEntry.layer? = [] :=
      List.filterMap_eq_nil_iff.2 (by simp [LogEntry.layer?])
    rw [List.filterMap_append, hnone, List.append_nil]
    exact h.layers
  merges := by
    have hnone : (handles.map LogEntry.addLayer).filterMap LogEntry.merge? = [] :=
      List.filterMap_eq_nil_iff.2 (by simp [LogEntry.merge?])
    rw [List.filterMap_append, hnone, List.append_nil]
    exact h.merges

/-! ## The handles that a forest uses -/

mutual

theorem operands_creations_perm : ∀ (layer : Layer) (next : Handle),
    ((creations next layer).flatMap Creation.operands ++ handles next layer).Perm
      (List.range' next layer.size)
  | node source inner links children, next => by
    have hinner := operands_forestCreations_perm inner next
    have hchildren := operands_forestCreations_perm children (next + forestSize inner + 1)
    have hrange : List.range' next (forestSize inner + 1 + forestSize children) =
        List.range' next (forestSize inner) ++ (next + forestSize inner) ::
          List.range' (next + forestSize inner + 1) (forestSize children) := by
      rw [← List.range'_succ, List.range'_append_1, Nat.add_assoc, Nat.add_comm 1]
    rw [size, hrange, List.perm_iff_count]
    intro x
    have hx := hinner.count_eq x
    have hx' := hchildren.count_eq x
    simp only [creations, handles, Creation.operands, List.flatMap_append, List.flatMap_cons,
      List.count_append, List.count_cons] at hx hx' ⊢
    omega
  | sequence steps, next => operands_forestCreations_perm steps next
  | parallel _ _ branches, next => by
    have hbranches := operands_forestCreations_perm branches next
    rw [creations, handles, List.flatMap_append, List.flatMap_singleton, Creation.operands,
      flatten_branchHandles, size, List.range'_concat, Nat.one_mul]
    exact hbranches.append_right _

/-- Each handle that is given out for a forest is used once, by a later creation or at the end. -/
theorem operands_forestCreations_perm : ∀ (forest : List Layer) (next : Handle),
    ((forestCreations next forest).flatMap Creation.operands ++ forestHandles next forest).Perm
      (List.range' next (forestSize forest))
  | [], _ => .nil
  | layer :: layers, next => by
    have hlayer := operands_creations_perm layer next
    have hlayers := operands_forestCreations_perm layers (next + layer.size)
    rw [forestSize, ← List.range'_append_1, List.perm_iff_count]
    intro x
    have hx := hlayer.count_eq x
    have hx' := hlayers.count_eq x
    simp only [forestCreations, forestHandles, List.flatMap_append, List.count_append] at hx hx' ⊢
    omega

end

/-- The creations of a forest make what can be read off its parts. -/
theorem filterMap_made_forestCreations_perm {α : Type} (f : Layer → Option α)
    (hf : ∀ layer : Layer, f layer = layer.own?.bind f) (forest : List Layer) (next : Handle) :
    ((forestCreations next forest).filterMap fun c => f c.made).Perm
      ((forestParts forest).filterMap f) := by
  have hperm := (map_made_forestCreations_perm forest next).filterMap f
  rw [List.filterMap_map, List.filterMap_filterMap] at hperm
  rwa [← funext hf] at hperm

end Layer

/-! ## The entries of creations -/

namespace Creation

/-- An entry of the log is one for the creation, and names only handles that were given out before
its own. -/
inductive Logged (handle : Handle) : Creation → LogEntry → Prop
  | layer {source : LayerNode} {inner : List Handle} {links : List AuxLink}
      {bindings : List AuxBinding} (inner_lt : ∀ x ∈ inner, x < handle)
      (bindings_lt : ∀ b ∈ bindings, b.handle < handle) :
      Logged handle (.layer source inner links)
        (.createLayer handle source.layerType source.floatParams source.stringParams inner bindings)
  | merge {reduction : Reduction} {node : Option NodeId} {branches : List (List Handle)}
      (branches_lt : ∀ x ∈ branches.flatten, x < handle) :
      Logged handle (.merge reduction node branches)
        (.createMerge handle reduction.name branches)

/-- The entries of creations, under the handles from `next` on. -/
inductive Logs : Handle → List Creation → List LogEntry → Prop
  | nil {next : Handle} : Logs next [] []
  | cons {next : Handle} {c : Creation} {cs : List Creation} {entry : LogEntry}
      {entries : List LogEntry} (head : c.Logged next entry) (tail : Logs (next + 1) cs entries) :
      Logs next (c :: cs) (entry :: entries)

variable {handle next : Handle} {c : Creation} {cs : List Creation} {entry : LogEntry}
  {entries : List LogEntry}

theorem Logged.created?_eq (h : c.Logged handle entry) : entry.created? = some handle := by
  cases h <;> rfl

theorem Logged.operands_eq (h : c.Logged handle entry) : entry.operands = c.operands := by
  cases h <;> rfl

theorem Logged.layer?_eq (h : c.Logged handle entry) : entry.layer? = c.made.content? := by
  cases h <;> rfl

theorem Logged.merge?_eq (h : c.Logged handle entry) : entry.merge? = c.made.reductionName? := by
  cases h <;> rfl

theorem Logged.lt_of_mem_named (h : c.Logged handle entry) : ∀ x ∈ entry.named, x < handle := by
  intro x hx
  cases h with
  | layer hinner hbindings =>
    rcases List.mem_append.1 hx with hx | hx
    · exact hinner x hx
    · obtain ⟨b, hb, rfl⟩ := List.mem_map.1 hx
      exact hbindings b hb
  | merge hbranches => exact hbranches x hx

theorem Logs.length_eq (h : Logs next cs entries) : entries.length = cs.length := by
  induction h with
  | nil => rfl
  | cons _ _ ih => rw [List.length_cons, List.length_cons, ih]

theorem Logs.filterMap_created? (h : Logs next cs entries) :
    entries.filterMap LogEntry.created? = List.range' next entries.length := by
  induction h with
  | nil => rfl
  | cons head _ ih =>
    rw [List.filterMap_cons_some head.created?_eq, ih, List.length_cons, List.range'_succ]

/-- The first entries are those of the first creations. -/
theorem Logs.of_append {before after : List LogEntry} (h : Logs next cs (before ++ after)) :
    ∃ cs', Logs next cs' before := by
  induction before generalizing next cs with
  | nil => exact ⟨[], .nil⟩
  | cons entry before ih =>
    cases h with
    | cons head tail =>
      obtain ⟨cs', hbefore⟩ := ih tail
      exact ⟨_, .cons head hbefore⟩

theorem Logs.isSome_created? (h : Logs next cs entries) :
    ∀ entry ∈ entries, entry.created?.isSome := by
  induction h with
  | nil => exact fun entry hentry => absurd hentry List.not_mem_nil
  | cons head _ ih =>
    refine List.forall_mem_cons.2 ⟨?_, ih⟩
    rw [head.created?_eq, Option.isSome_some]

theorem Logs.flatMap_operands (h : Logs next cs entries) :
    entries.flatMap LogEntry.operands = cs.flatMap operands := by
  induction h with
  | nil => rfl
  | cons head _ ih => rw [List.flatMap_cons, List.flatMap_cons, head.operands_eq, ih]

/-- Each entry names handles of earlier ones, or handles that were given out before. -/
theorem Logs.lt_of_mem_named {next : Nat} (h : Logs next cs entries)
    {before after : List LogEntry} (he : entries = before ++ entry :: after) {x : Nat}
    (hx : x ∈ entry.named) : x < next + before.length := by
  induction h generalizing before with
  | nil => exact absurd he (by simp)
  | cons head _ ih =>
    cases before with
    | nil =>
      obtain ⟨rfl, -⟩ := List.cons.inj he
      exact head.lt_of_mem_named x hx
    | cons first before =>
      obtain ⟨-, he⟩ := List.cons.inj he
      have hlt := ih he
      rw [List.length_cons]
      omega

/-- If the handles start at zero, each entry names handles of entries before it. -/
theorem Logs.mem_of_mem_named (h : Logs 0 cs entries) {before after : List LogEntry}
    (he : entries = before ++ entry :: after) {x : Handle} (hx : x ∈ entry.named) :
    x ∈ before.filterMap LogEntry.created? := by
  obtain ⟨cs', hbefore⟩ := Logs.of_append (he ▸ h)
  rw [hbefore.filterMap_created?, List.mem_range'_1]
  exact ⟨Nat.zero_le x, h.lt_of_mem_named he hx⟩

/-- What is read off each entry of the log is what is read off the creations. -/
theorem Logs.filterMap_eq {α : Type} {f : LogEntry → Option α} {f' : Creation → Option α}
    (hf : ∀ {handle c entry}, Logged handle c entry → f entry = f' c) (h : Logs next cs entries) :
    entries.filterMap f = cs.filterMap f' := by
  induction h with
  | nil => rfl
  | cons head _ ih => rw [List.filterMap_cons, List.filterMap_cons, hf head, ih]

/-- The entries for the creations of a forest record the forest. -/
theorem Logs.recordedIn {forest : List Layer}
    (h : Logs next (forestCreations next forest) entries) : RecordedIn forest entries where
  layers := by
    rw [h.filterMap_eq Logged.layer?_eq]
    exact filterMap_made_forestCreations_perm content? (fun layer => by cases layer <;> rfl) _ _
  merges := by
    rw [h.filterMap_eq Logged.merge?_eq]
    exact filterMap_made_forestCreations_perm reductionName? (fun layer => by cases layer <;> rfl) _ _

end Creation

/-! ## Buildings as calls -/

namespace Lowering

variable {ε α β : Type} {created created' : NodeHandles} {e e' : ε}

/-- A building that succeeds succeeds in its first part and then in the second. -/
theorem bind_ok {x : Lowering ε α} {f : α → Lowering ε β} {b : β}
    (h : (x >>= f) created e = (.ok (b, created'), e')) :
    ∃ a created₁ e₁, x created e = (.ok (a, created₁), e₁) ∧
      f a created₁ e₁ = (.ok (b, created'), e') := by
  rw [bind_apply] at h
  cases hrun : x created e with
  | mk outcome e₁ =>
    rw [hrun] at h
    cases outcome with
    | error error => cases h
    | ok r => exact ⟨r.1, r.2, e₁, rfl, h⟩

theorem runIn_eq_ok_iff {x : Lowering ε α} {a : α} :
    x.runIn e = (.ok a, e') ↔ ∃ created, x [] e = (.ok (a, created), e') := by
  rw [runIn]
  split
  · rename_i a' created e₁ hrun
    rw [hrun]
    constructor
    · rintro ⟨⟩
      exact ⟨created, rfl⟩
    · rintro ⟨_, ⟨⟩⟩
      rfl
  · rename_i hrun
    rw [hrun]
    constructor
    · rintro ⟨⟩
    · rintro ⟨_, ⟨⟩⟩

/-- The creations of a forest made one after the other, and its layers appended to the network. -/
def performForest (ε : Type) [LayerEngine ε] (n : Handle) (layers : List Layer) :
    Lowering ε (List Handle) := do
  let handles := forestHandles n layers
  let _ ← performAll (forestCreations n layers) handles
  handles.forM fun handle => call (.addingLayer handle) (LayerEngine.addLayer handle)
  return handles

/-- A whole building is its creations and what is appended to the network. -/
theorem Numbers.lower_agrees [LayerEngine ε] {next : ε → Handle} (hn : Numbers next)
    (layers : List Layer) (n : Handle) :
    AgreesAt next n (lower layers) (performForest ε n layers) := by
  refine (hn.forest_agrees layers n).bind (hn.endsWith_performAll _ _) fun handles m hm => ?_
  obtain ⟨rfl, -⟩ := hm
  exact AgreesAt.refl _

/-- The bindings of wires, if handles are kept for the nodes at their ends. -/
def bindings? (special : NodeId) (created : NodeHandles) (links : List AuxLink) :
    Except BuildError (List AuxBinding) :=
  links.mapM fun link =>
    match created.lookup link.node with
    | some handle => .ok ⟨link.port, link.role, handle⟩
    | none => .error (.engine (.bindingPort link.port special)
        (.rejected s!"node #{link.node} has no layer"))

/-- Binding wires leaves the engine alone. -/
theorem mapM_bind_eq (special : NodeId) (links : List AuxLink) (created : NodeHandles) (e : ε) :
    (links.mapM (bind special) : Lowering ε (List AuxBinding)) created e =
      match bindings? special created links with
      | .ok bindings => (.ok (bindings, created), e)
      | .error error => (.error error, e) := by
  induction links with
  | nil => rfl
  | cons link links ih =>
    rw [List.mapM_cons, bind_apply, bind_link_apply, bindings?, List.mapM_cons]
    cases created.lookup link.node with
    | none => rfl
    | some handle =>
      dsimp only
      rw [bind_apply, ih, ← bindings?]
      cases bindings? special created links <;> rfl

end Lowering

namespace Creation

variable {ε : Type}

/-- The bindings of the wires that belong to a creation. -/
def bindings? (created : NodeHandles) : Creation → Except BuildError (List AuxBinding)
  | layer source _ links => Lowering.bindings? source.id created links
  | merge .. => .ok []

/-- The call that makes a creation. -/
def request [LayerEngine ε] (bindings : List AuxBinding) : Creation → EngineCall ε Handle
  | layer source handles _ => LayerEngine.createSpecial source.layerType source.floatParams
      source.stringParams handles bindings
  | merge reduction _ branches => LayerEngine.createMerge reduction.name branches

/-- A creation is a single call, once its wires are bound. -/
theorem perform_eq [LayerEngine ε] (c : Creation) (created : NodeHandles) (e : ε) :
    perform c created e = match c.bindings? created with
      | .ok bindings => callFor c.node? c.step (c.request bindings) created e
      | .error error => (.error error, e) := by
  cases c with
  | layer source inner links =>
    rw [perform, bind_apply, mapM_bind_eq, Creation.bindings?]
    cases Lowering.bindings? source.id created links <;> rfl
  | merge reduction node branches => rfl

end Creation

/-! ## Successful buildings -/

namespace RecordingEngine

variable {e e' : RecordingEngine} {c : Creation} {cs : List Creation} {created created' : NodeHandles}
  {handle : Handle} {bindings : List AuxBinding} {forest : List Layer} {handles : List Handle}

theorem lt_of_checkHandles (h : e.checkHandles handles = .ok ()) : ∀ x ∈ handles, x < e.nextHandle := by
  unfold checkHandles at h
  split at h
  · rename_i hnone
    intro x hx
    simpa using List.find?_eq_none.1 hnone x hx
  · cases h

/-- The engine after an entry under the next handle, and after several. -/
def append (e : RecordingEngine) (entries : List LogEntry) : RecordingEngine :=
  { e with log := e.log ++ entries, nextHandle := e.nextHandle + entries.length }

theorem append_cons (e : RecordingEngine) (entry : LogEntry) (entries : List LogEntry) :
    e.append (entry :: entries) = (e.append [entry]).append entries := by
  simp only [append, List.append_assoc, List.singleton_append, List.length_cons, List.length_nil,
    Nat.zero_add, Nat.add_assoc, Nat.add_comm 1]

/-- A call that is not refused has an entry, under the next handle. -/
theorem create_ok {checks : RecordingEngine → Except EngineError Unit} {entry : Handle → LogEntry}
    (h : create checks entry e = (.ok handle, e')) :
    checks e = .ok () ∧ e' = e.append [entry e.nextHandle] := by
  rw [create_apply] at h
  split at h
  · cases h
  · rename_i hchecks
    cases h
    exact ⟨hchecks, rfl⟩

/-- A creation that is not refused is logged. -/
theorem request_ok (h : (c.request bindings : EngineCall RecordingEngine Handle) e =
    (.ok handle, e')) : ∃ entry, c.Logged e.nextHandle entry ∧ e' = e.append [entry] := by
  cases c with
  | layer source inner links =>
    obtain ⟨hchecks, rfl⟩ := create_ok (show createLayer source.layerType source.floatParams
      source.stringParams inner bindings e = _ from h)
    obtain ⟨_, -, hhandles⟩ := bind_eq_ok_iff.1 hchecks
    have hlt := lt_of_checkHandles hhandles
    refine ⟨_, .layer (fun x hx => hlt x (List.mem_append_left _ hx)) fun b hb => ?_, rfl⟩
    exact hlt _ (List.mem_append_right _ (List.mem_map_of_mem hb))
  | merge reduction node branches =>
    obtain ⟨hchecks, rfl⟩ := create_ok (show createMerge reduction.name branches e = _ from h)
    obtain ⟨_, -, hhandles⟩ := bind_eq_ok_iff.1 hchecks
    exact ⟨_, .merge (lt_of_checkHandles hhandles), rfl⟩

theorem addLayer_ok (h : addLayer handle e = (.ok (), e')) :
    e' = { e with log := e.log ++ [.addLayer handle] } := by
  rw [addLayer] at h
  split at h
  · cases h
  · cases h
    rfl

theorem perform_ok (h : perform c created e = (.ok (handle, created'), e')) :
    ∃ entry, c.Logged e.nextHandle entry ∧ e' = e.append [entry] := by
  rw [Creation.perform_eq] at h
  split at h
  · rw [callFor_apply] at h
    split at h
    · rename_i hrequest
      cases h
      exact request_ok hrequest
    · cases h
  · cases h

/-- A successful run of creations adds their entries to the log. -/
theorem performAll_ok {α : Type} {a answer : α}
    (h : performAll cs answer created e = (.ok (a, created'), e')) :
    ∃ entries, Creation.Logs e.nextHandle cs entries ∧ e' = e.append entries := by
  induction cs generalizing created e with
  | nil =>
    cases h
    exact ⟨[], .nil, by simp [append]⟩
  | cons c cs ih =>
    obtain ⟨_, _, _, hone, hrest⟩ := bind_ok h
    obtain ⟨entry, hentry, rfl⟩ := perform_ok hone
    obtain ⟨entries, hentries, rfl⟩ := ih hrest
    exact ⟨entry :: entries, .cons hentry hentries, (append_cons e entry entries).symm⟩

/-- A successful building logs the creations of the forest and then the layers of the top level,
which it returns. -/
theorem lower_ok (h : (lower forest).runIn e = (.ok handles, e')) :
    ∃ entries, Creation.Logs e.nextHandle (forestCreations e.nextHandle forest) entries ∧
      handles = forestHandles e.nextHandle forest ∧
      e' = { e.append entries with log := e.log ++ entries ++ handles.map .addLayer } := by
  obtain ⟨created, hrun⟩ := runIn_eq_ok_iff.1 h
  rw [numbers.lower_agrees forest _ [] e rfl] at hrun
  obtain ⟨_, _, _, hcreations, hadded⟩ := bind_ok hrun
  obtain ⟨entries, hentries, rfl⟩ := performAll_ok hcreations
  have hlt : ∀ x ∈ forestHandles e.nextHandle forest, x < (e.append entries).nextHandle := by
    intro x hx
    rw [append, hentries.length_eq, length_forestCreations]
    exact lt_of_mem_forestHandles forest _ hx
  rw [bind_apply, addLayers_apply _ _ hlt] at hadded
  cases hadded
  exact ⟨entries, hentries, rfl, rfl⟩

/-! ## Every layer once -/

/-- An element of a list in two parts is in the first part, with the same elements before it, or in
the second part. -/
theorem append_eq_append_cons {α : Type} {xs ys before after : List α} {x : α}
    (h : xs ++ ys = before ++ x :: after) :
    (∃ rest, xs = before ++ x :: rest) ∨ (∃ more, before = xs ++ more) ∧ x ∈ ys := by
  rcases List.append_eq_append_iff.1 h with ⟨more, hbefore, hys⟩ | ⟨rest, hxs, hrest⟩
  · exact Or.inr ⟨⟨more, hbefore⟩, hys ▸ List.mem_append_right _ List.mem_cons_self⟩
  · cases rest with
    | nil =>
      rw [List.nil_append] at hrest
      exact Or.inr ⟨⟨[], by simp [hxs]⟩, hrest ▸ List.mem_cons_self⟩
    | cons y rest =>
      obtain ⟨rfl, -⟩ := List.cons.inj hrest
      exact Or.inl ⟨rest, hxs⟩

/-- Whatever forest is built in a fresh recording engine, if the building succeeds:

* the log has a layer for each node of the forest and a merge for each group;
* no handle is given out twice, and each is used once: inside a layer, in a branch of a merge or in
  the network;
* every call names only handles of calls before it;
* the layers of the network, those that are returned, are appended after everything is created. -/
theorem lower_uses_once {capabilities : Option Capabilities}
    (h : (lower forest).runIn ({ capabilities } : RecordingEngine) = (.ok handles, e)) :
    RecordedIn forest e.log ∧
    (e.log.filterMap LogEntry.created?).Nodup ∧
    (∀ x ∈ e.log.filterMap LogEntry.created?, (e.log.flatMap LogEntry.operands).count x = 1) ∧
    (∀ before entry after, e.log = before ++ entry :: after →
      ∀ x ∈ entry.named, x ∈ before.filterMap LogEntry.created?) ∧
    ∃ creations, e.log = creations ++ handles.map .addLayer ∧
      ∀ entry ∈ creations, entry.created?.isSome := by
  obtain ⟨entries, hentries, rfl, rfl⟩ := lower_ok h
  have hlength : entries.length = forestSize forest := by
    rw [hentries.length_eq, length_forestCreations]
  have hadded : ((forestHandles 0 forest).map LogEntry.addLayer).filterMap LogEntry.created? = [] :=
    List.filterMap_eq_nil_iff.2 (by simp [LogEntry.created?])
  have hcreated : (entries ++ (forestHandles 0 forest).map LogEntry.addLayer).filterMap
      LogEntry.created? = List.range' 0 entries.length := by
    rw [List.filterMap_append, hadded, List.append_nil]
    exact hentries.filterMap_created?
  have hoperands : ((entries ++ (forestHandles 0 forest).map LogEntry.addLayer).flatMap
      LogEntry.operands).Perm (List.range' 0 entries.length) := by
    rw [List.flatMap_append, hentries.flatMap_operands, List.flatMap_map, hlength]
    simpa [LogEntry.operands] using operands_forestCreations_perm forest 0
  refine ⟨?_, ?_, ?_, ?_, entries, rfl, ?_⟩
  · exact hentries.recordedIn.append_addLayers _
  · exact hcreated ▸ List.nodup_range'
  · intro x hx
    refine (hoperands.count_eq x).trans ?_
    exact List.count_eq_one_of_mem List.nodup_range' (hcreated ▸ hx)
  · intro before entry after hlog x hx
    have hsplit : entries ++ (forestHandles 0 forest).map .addLayer = before ++ entry :: after := hlog
    rcases append_eq_append_cons hsplit with ⟨rest, hrest⟩ | ⟨⟨more, rfl⟩, hentry⟩
    · exact hentries.mem_of_mem_named hrest hx
    · obtain ⟨added, hadded, rfl⟩ := List.mem_map.1 hentry
      obtain rfl := List.mem_singleton.1 hx
      rw [List.filterMap_append, hentries.filterMap_created?, hlength]
      refine List.mem_append_left _ (List.mem_range'_1.2 ⟨Nat.zero_le _, ?_⟩)
      exact lt_of_mem_forestHandles forest 0 hadded
  · exact hentries.isSome_created?

/-- A special layer, followed by a group with one branch that does nothing. -/
def nested : List Layer :=
  [.node ⟨0, "LayerStacked", [], []⟩ [.node ⟨1, "LayerDense", [], ["8"]⟩ [] [] []] [⟨0, .entry, 1⟩]
    [.parallel .sum none [.sequence [], .node ⟨2, "LayerDense", [], ["4"]⟩ [] [] []]]]

/-- The engine in which `nested` was built. -/
def nestedBuilt : RecordingEngine where
  log := [.createLayer 0 "LayerDense" [] ["8"] [] [],
    .createLayer 1 "LayerStacked" [] [] [0] [⟨0, .entry, 0⟩],
    .createLayer 2 "LayerDense" [] ["4"] [] [], .createMerge 3 "sum" [[], [2]],
    .addLayer 1, .addLayer 3]
  nextHandle := 4

theorem lower_nested :
    (lower nested).runIn ({} : RecordingEngine) = (.ok [1, 3], nestedBuilt) := by rfl

theorem nested_uses_once : (lower nested).runIn ({} : RecordingEngine) = (.ok [1, 3], nestedBuilt) ∧
    RecordedIn nested nestedBuilt.log ∧
    ∀ x ∈ [0, 1, 2, 3], (nestedBuilt.log.flatMap LogEntry.operands).count x = 1 := by
  obtain ⟨hrecorded, -, honce, -⟩ := lower_uses_once lower_nested
  exact ⟨lower_nested, hrecorded, honce⟩

end RecordingEngine

end LayerNet

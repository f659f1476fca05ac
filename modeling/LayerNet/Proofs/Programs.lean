import LayerNet.Proofs.Edges
import LayerNet.Proofs.Runs

/-!
# Programs over a level of expansion

A level of expansion uses the level below it in one way only: it asks for the layers from a node
on or for those that follow a group.  `Expander.Program` says this of each function of the compiler,
step by step along its definition.  Whatever a single step has and one step after another keeps
holds of them all, by induction on the program.

`Expander.answer_deeper_cases` is all that has to be known of a level otherwise: before it asks
anything, it places the node that it is asked about.
-/

namespace LayerNet

open Expansion

namespace Expander

/-! ## Programs -/

/-- What a level of expansion may be asked for. -/
inductive Query where
  /-- The layers from a node on. -/
  | node (id : NodeId) (stop : Option NodeId)
  /-- The layers that follow a group which ends at a node. -/
  | afterGroup (id : NodeId) (stop : Option NodeId)
  deriving DecidableEq

/-- The node that a query is about. -/
def Query.id : Query → NodeId
  | node id _ | afterGroup id _ => id

/-- The answer to a query. -/
def answer (below : Expander) : Query → Expansion (List Layer)
  | .node id stop => below.node id stop
  | .afterGroup id stop => below.afterGroup id stop

/-- An expansion that uses a level in one way only: it asks queries, one after another. -/
inductive Program : {α : Type} → (Expander → Expansion α) → Prop
  | pure {α : Type} (a : α) : Program fun _ => Pure.pure a
  | refuse {α : Type} (node : NodeId) (obstacle : Obstacle) :
    Program fun _ => (Expansion.refuse node obstacle : Expansion α)
  | place (id : NodeId) (obstacle : Obstacle) : Program fun _ => Expansion.place id obstacle
  | ask (query : Query) : Program fun below => below.answer query
  | bind {α β : Type} {x : Expander → Expansion α} {f : α → Expander → Expansion β}
    (first : Program x) (rest : ∀ a, Program (f a)) :
    Program fun below => x below >>= (f · below)

namespace Program

theorem mapM {α β : Type} {f : α → Expander → Expansion β} (hf : ∀ a, Program (f a)) (l : List α) :
    Program fun below => l.mapM (f · below) := by
  induction l with
  | nil => exact .pure []
  | cons a l ih =>
    simp only [List.mapM_cons]
    exact (hf a).bind fun b => ih.bind fun rest => .pure (b :: rest)

theorem chain (head : Head) (stop : Option NodeId) :
    Program fun below => below.chain head stop := by
  obtain ⟨node, _ | group⟩ := head
  · exact .ask (.node node stop)
  · exact (ask (.afterGroup node stop)).bind fun rest => .pure (group :: rest)

theorem branchesTo (pending : List Head) (point : NodeId) (places : List Nat) :
    Program fun below => below.branchesTo pending point places := by
  induction places with
  | nil => exact .pure []
  | cons i rest ih =>
    simp only [Expander.branchesTo]
    cases pending[i]? with
    | none => exact ih
    | some head =>
      exact (chain head point).bind fun steps => ih.bind fun branches =>
        .pure (asBranch steps :: branches)

variable (g : Graph) (config : CompilerConfig)

theorem parallelGroup (point : NodeId) (branches : List Layer) :
    Program fun _ => LayerNet.parallelGroup g config point branches := by
  rw [parallelGroup_eq]
  split
  · exact .refuse ..
  · exact .pure _

theorem groupsAt (pending : List Head) (meetings : List MeetingPoint) (taken : List Nat) :
    Program fun below => below.groupsAt g config pending meetings taken := by
  induction meetings generalizing taken with
  | nil => exact .pure _
  | cons meeting rest ih =>
    simp only [Expander.groupsAt]
    cases meeting.heads.find? fun i => i ∈ taken with
    | some i => exact .refuse ..
    | none =>
      refine (branchesTo pending meeting.point meeting.heads).bind fun branches => ?_
      refine (parallelGroup g config meeting.point branches).bind fun group => ?_
      exact (ih _).bind fun groups => .pure _

theorem rounds (stop : Option NodeId) (more : Nat) (pending : List Head) :
    Program fun below => below.rounds g config stop more pending := by
  induction more generalizing pending with
  | zero => exact .pure pending
  | succ more ih =>
    simp only [Expander.rounds]
    cases g.firstMeetings (pending.map Head.node) stop with
    | nil => exact .pure pending
    | cons meeting rest => exact (groupsAt g config pending _ []).bind fun groups => ih _

theorem converge (heads : List NodeId) (stop : Option NodeId) :
    Program fun below => below.converge g config heads stop :=
  (rounds g config stop heads.length _).bind fun pending =>
    .mapM (fun head => chain head stop) pending

theorem mergeHeads (heads : List NodeId) (stop : Option NodeId) :
    Program fun below => below.mergeHeads g config heads stop := by
  refine (converge g config heads stop).bind fun chains => ?_
  dsimp only
  generalize (chains.filter fun chain => !chain.isEmpty) = full
  match full, stop with
  | [], _ => exact .pure []
  | [chain], _ => exact .pure chain
  | _ :: _ :: _, some merge => exact .refuse merge .splitsBefore
  | _ :: _ :: _, none => exact .pure _

theorem heads (heads : List NodeId) (stop : Option NodeId) :
    Program fun below => below.heads g config heads stop := by
  match heads with
  | [] => exact .pure []
  | [head] => exact .ask (.node head stop)
  | _ :: _ :: _ => exact mergeHeads g config _ stop

theorem successors (id : NodeId) (stop : Option NodeId) :
    Program fun below => below.successors g config id stop := by
  simp only [Expander.successors]
  split
  · split
    · exact .refuse ..
    · exact heads ..
  · exact heads ..

theorem subgraph (n : Node) : Program fun below => below.subgraph g config n := by
  simp only [Expander.subgraph]
  split
  · refine (converge g config _ none).bind fun chains => ?_
    exact (Program.pure chains.flatten).bind fun inner => .pure _
  · exact (heads ..).bind fun inner => .pure _

end Program

/-- A program that places a node before it does anything else. -/
def PlacesFirst {α : Type} (id : NodeId) (obstacle : Obstacle) (x : Expander → Expansion α) :
    Prop :=
  ∃ inside, Program inside ∧
    ∀ below, x below = Expansion.place id obstacle >>= fun _ => inside below

theorem PlacesFirst.program {α : Type} {id : NodeId} {obstacle : Obstacle}
    {x : Expander → Expansion α} (h : PlacesFirst id obstacle x) : Program x := by
  obtain ⟨inside, hinside, hx⟩ := h
  rw [funext hx]
  exact (Program.place id obstacle).bind fun _ => hinside

/-! ## A level of expansion -/

section Levels

variable {g : Graph} {id : NodeId} {stop : Option NodeId} {n : Node}

theorem expandNode_of_idle (h : some id = stop ∨ g.node? id = none) (config : CompilerConfig)
    (below : Expander) : below.expandNode g config id stop = pure [] := by
  rw [expandNode]
  split
  · rfl
  · rename_i hstop
    rw [h.resolve_left hstop]

theorem expandNode_placesFirst (hstop : some id ≠ stop) (hn : g.node? id = some n)
    (config : CompilerConfig) :
    PlacesFirst id .metApart fun below => below.expandNode g config id stop := by
  simp only [expandNode, if_neg hstop, hn]
  refine ⟨_, ?_, fun below => rfl⟩
  have hsuccessors := Program.successors g config id stop
  split
  · exact .refuse ..
  · split
    · exact (Program.subgraph g config n).bind fun inner => hsuccessors.bind fun children => .pure _
    · exact (Program.pure _).bind fun inner => hsuccessors.bind fun children => .pure _

/-- What a level does with a query: it has no layers to give, or it places the node of the query
first.  So if all nodes are placed, it gives no layers or is refused. -/
theorem answer_deeper_cases (g : Graph) (config : CompilerConfig) (query : Query) :
    ((exhausted g).answer query = pure [] ∧
        ∀ below, (deeper g config below).answer query = pure []) ∨
      query.id ∈ g.ids ∧ ∃ obstacle,
        (exhausted g).answer query = Expansion.refuse query.id obstacle ∧
          PlacesFirst query.id obstacle fun below => (deeper g config below).answer query := by
  cases query with
  | node id stop =>
    by_cases hidle : some id = stop ∨ g.node? id = none
    · refine Or.inl ⟨if_pos ?_, fun below => expandNode_of_idle hidle config below⟩
      rwa [Option.isNone_iff_eq_none]
    · obtain ⟨hstop, hn⟩ := not_or.mp hidle
      obtain ⟨n, hn⟩ := Option.ne_none_iff_exists'.mp hn
      refine Or.inr ⟨Graph.mem_ids_of_node? hn, .metApart, if_neg ?_,
        expandNode_placesFirst hstop hn config⟩
      simp [hstop, hn]
  | afterGroup id stop =>
    by_cases hstop : some id = stop
    · exact Or.inl ⟨if_pos hstop, fun below => if_pos hstop⟩
    simp only [answer, exhausted, deeper, expandAfterGroup, if_neg hstop]
    cases hn : g.node? id with
    | none => exact Or.inl ⟨rfl, fun below => rfl⟩
    | some n =>
      refine Or.inr ⟨Graph.mem_ids_of_node? hn, _, rfl, ?_⟩
      dsimp only
      split
      · exact ⟨_, Program.successors g config id stop, fun below => rfl⟩
      · exact expandNode_placesFirst hstop hn config

theorem Program.deeper (g : Graph) (config : CompilerConfig) (query : Query) :
    Program fun below => (deeper g config below).answer query := by
  rcases answer_deeper_cases g config query with ⟨-, hidle⟩ | ⟨-, obstacle, -, hplaces⟩
  · rw [funext hidle]
    exact .pure []
  · exact hplaces.program

end Levels

end Expander

end LayerNet

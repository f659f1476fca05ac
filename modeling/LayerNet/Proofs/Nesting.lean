import LayerNet.Proofs.Footprint
import LayerNet.Proofs.Rounds

/-!
# Expansion ends

An expansion asks for further ones, from other nodes on and up to other stops.  Primary edges may
lead it round in circles, and special nodes that capture each other may lead it from one subgraph
into the other and back.  What ends it are the placed ids: an expansion places its node before it
asks for another one, and it is refused if the node is placed already.

* `Graph.iterate_deeper` — so an expander that is built on anything at all, with a level for each
  node and one more, is the expander of the graph: what lies below is never asked.
* `Graph.Nested.deepens` — along expansions that are nested in each other, each one that asks for
  another has placed a node of its own.
* `Expander.Grouping` — the rounds of grouping, with no bound on their number.  Each round leaves
  fewer heads than it finds (`Expander.length_regroup_lt`), so there are fewer rounds than heads.
* `Graph.expansion_ends` — all of this for any graph; it may have cycles and it need not be
  well-formed.
-/

namespace LayerNet

open Expander Expansion

variable {g : Graph} {config : CompilerConfig} {below below' : Expander} {s t : List NodeId}
  {stop : Option NodeId} {pending : List Head} {id : NodeId}

/-! ## Nodes that are not placed -/

namespace Graph

/-- How many nodes are not placed. -/
def unplaced (g : Graph) (s : List NodeId) : Nat := (g.ids.filter fun id => id ∉ s).length

theorem unplaced_le_size (g : Graph) (s : List NodeId) : g.unplaced s ≤ g.size := by
  refine (List.length_filter_le _ _).trans ?_
  rw [ids, Keyed.keys, List.length_map, size, Keyed.size]

theorem unplaced_le_of_subset (h : s ⊆ t) : g.unplaced t ≤ g.unplaced s := by
  refine List.Sublist.length_le (List.monotone_filter_right _ fun id hid => ?_)
  simp only [decide_eq_true_eq] at hid ⊢
  exact fun hs => hid (h hs)

theorem unplaced_cons_lt (hid : id ∈ g.ids) (hs : id ∉ s) :
    g.unplaced (id :: s) < g.unplaced s := by
  have hsplit : (g.ids.filter fun x => x ∉ id :: s) =
      (g.ids.filter fun x => x ∉ s).filter fun x => x ≠ id := by
    rw [List.filter_filter]
    refine List.filter_congr fun x _ => ?_
    by_cases e : x = id <;> simp [e]
  rw [unplaced, hsplit]
  refine List.length_filter_lt_length_iff_exists.mpr ⟨id, ?_, by simp⟩
  exact List.mem_filter.mpr ⟨hid, decide_eq_true hs⟩

end Graph

/-! ## What a program depends on -/

namespace Expander

theorem ext_answer (h : ∀ query s, below.answer query s = below'.answer query s) :
    below = below' := by
  obtain ⟨node, afterGroup⟩ := below
  obtain ⟨node', afterGroup'⟩ := below'
  have hnode : node = node' := by
    funext id stop s
    exact h (.node id stop) s
  have hafter : afterGroup = afterGroup' := by
    funext id stop s
    exact h (.afterGroup id stop) s
  rw [hnode, hafter]

/-- A program that is started when the ids in `s` are placed depends only on the answers that it can
get from then on. -/
theorem Program.congr {α : Type} {x : Expander → Expansion α} (hx : Program x)
    (hbelow : below.Placing)
    (h : ∀ query t, s ⊆ t → below.answer query t = below'.answer query t) (hst : s ⊆ t) :
    x below t = x below' t := by
  induction hx generalizing t with
  | pure | refuse | place => rfl
  | ask query => exact h query t hst
  | @bind α β x f hfirst hrest ihfirst ihrest =>
    have hsame := ihfirst hst
    dsimp only
    cases hrun : x below t with
    | error e => rw [bind_of_error hrun, bind_of_error (hsame ▸ hrun)]
    | ok r =>
      have hgives : (x below).Gives t r.1 r.2 := hrun
      have hgives' : (x below').Gives t r.1 r.2 := hsame.symm.trans hrun
      rw [bind_of_gives hgives, bind_of_gives hgives']
      exact ihrest r.1 (List.Subset.trans hst ((hfirst.placing hbelow).subset hgives))

/-! ## The end of the recursion -/

/-- With fewer nodes left than levels, it does not matter what the levels are built on. -/
theorem answer_iterate (bottom : Expander) (query : Query) {n m : Nat} (hn : g.unplaced s < n)
    (hm : g.unplaced s ≤ m) :
    ((deeper g config)^[n] bottom).answer query s = (levels g config m).answer query s := by
  induction n generalizing query s m with
  | zero => exact absurd hn (Nat.not_lt_zero _)
  | succ n ih =>
    rw [Function.iterate_succ_apply']
    rcases answer_deeper_cases g config query with
      ⟨hexhausted, hidle⟩ | ⟨hid, obstacle, hexhausted, inside, hinside, hplaces⟩
    · cases m with
      | zero => rw [hidle, levels, hexhausted]
      | succ m => rw [hidle, levels, hidle]
    dsimp only at hplaces
    by_cases hplaced : query.id ∈ s
    · -- the query is refused at every level
      have hrefused : ∀ level, (deeper g config level).answer query s =
          .error (.unsupported query.id obstacle) := fun level => by
        rw [hplaces, bind_of_error (place_of_mem hplaced obstacle)]
      cases m with
      | zero =>
        rw [hrefused, levels, hexhausted]
        rfl
      | succ m => rw [hrefused, levels, hrefused]
    · have hless := Graph.unplaced_cons_lt hid hplaced
      cases m with
      | zero => omega
      | succ m =>
        have hstep := place_of_not_mem hplaced obstacle
        rw [levels, hplaces, hplaces, bind_of_gives hstep, bind_of_gives hstep]
        -- what is asked from here on is asked with one node less to place
        refine (hinside.congr (placing_levels g config m) (fun query t ht => ?_) (.refl _)).symm
        have hleft := Graph.unplaced_le_of_subset (g := g) ht
        exact (ih query (by omega) (by omega)).symm

end Expander

namespace Graph

/-- What lies below a level for each node and one more is never asked. -/
theorem iterate_deeper (g : Graph) (config : CompilerConfig) (bottom : Expander) :
    (deeper g config)^[g.size + 1] bottom = g.expander config :=
  ext_answer fun query s => answer_iterate bottom query
    (Nat.lt_succ_of_le (g.unplaced_le_size s)) (g.unplaced_le_size s)

/-- The expander is its own level below, and the only one that is. -/
theorem deeper_eq_self_iff (g : Graph) (config : CompilerConfig) (below : Expander) :
    deeper g config below = below ↔ below = g.expander config := by
  constructor
  · intro h
    rw [← g.iterate_deeper config below, Function.iterate_fixed h]
  · rintro rfl
    calc deeper g config (g.expander config)
        = deeper g config ((deeper g config)^[g.size + 1] (exhausted g)) := by
          rw [g.iterate_deeper config]
      _ = (deeper g config)^[g.size + 1] (deeper g config (exhausted g)) := by
          rw [← Function.iterate_succ_apply' (deeper g config), Function.iterate_succ_apply]
      _ = g.expander config := g.iterate_deeper config _

end Graph

namespace Expander

/-! ## Nested expansions -/

/-- A level that refuses one query when the ids in `t` are placed, and answers all others. -/
def refusing (below : Expander) (query : Query) (t : List NodeId) (node : NodeId)
    (obstacle : Obstacle) : Expander where
  node id stop s :=
    if .node id stop = query ∧ s = t then .error (.unsupported node obstacle)
    else below.node id stop s
  afterGroup id stop s :=
    if .afterGroup id stop = query ∧ s = t then .error (.unsupported node obstacle)
    else below.afterGroup id stop s

theorem answer_refusing_of_ne {query query' : Query} (h : s ≠ t) (node : NodeId)
    (obstacle : Obstacle) :
    (below.refusing query t node obstacle).answer query' s = below.answer query' s := by
  cases query' <;> exact if_neg fun hs => h hs.2

/-- From the ids in `s`, a program comes to ask a query when the ids in `t` are placed: whatever is
given as the reason to refuse this query is the reason why the program is refused. -/
def Asks {α : Type} (x : Expander → Expansion α) (below : Expander) (s : List NodeId)
    (query : Query) (t : List NodeId) : Prop :=
  ∀ node obstacle,
    x (below.refusing query t node obstacle) s = .error (.unsupported node obstacle)

/-- What is placed when a program starts is placed when it asks. -/
theorem Program.subset_of_asks {α : Type} {x : Expander → Expansion α} (hx : Program x)
    (hbelow : below.Placing) {query : Query} (h : Asks x below s query t) : s ⊆ t := by
  by_contra hst
  have hsame : ∀ node, x below s = .error (.unsupported node .metApart) := fun node => by
    rw [← h node .metApart]
    have hothers : ∀ query' u, s ⊆ u →
        below.answer query' u = (below.refusing query t node .metApart).answer query' u := by
      intro query' u hu
      have hne : u ≠ t := fun e => hst (e ▸ hu)
      exact (answer_refusing_of_ne hne node .metApart).symm
    exact hx.congr hbelow hothers (.refl s)
  have hone := (hsame 0).symm.trans (hsame 1)
  simp at hone

/-- A level asks nothing before it has placed the node that it was asked about. -/
theorem placed_of_asks {query query' : Query} (hbelow : below.Placing)
    (h : Asks (fun below => (deeper g config below).answer query) below s query' t) :
    query.id ∈ g.ids ∧ query.id ∉ s ∧ query.id :: s ⊆ t := by
  have hrun : ∀ node obstacle, (deeper g config (below.refusing query' t node obstacle)).answer
      query s = .error (.unsupported node obstacle) := h
  rcases answer_deeper_cases g config query with
    ⟨-, hidle⟩ | ⟨hid, obstacle, -, inside, hinside, hplaces⟩
  · have hnone := hrun 0 .metApart
    rw [hidle] at hnone
    exact nomatch hnone
  dsimp only at hplaces
  by_cases hplaced : query.id ∈ s
  · have hother := hrun (query.id + 1) obstacle
    rw [hplaces, bind_of_error (place_of_mem hplaced obstacle)] at hother
    simp at hother
  · have hinner : Asks inside below (query.id :: s) query' t := fun node obstacle' => by
      rw [← hrun node obstacle', hplaces, bind_of_gives (place_of_not_mem hplaced obstacle)]
    exact ⟨hid, hplaced, hinside.subset_of_asks hbelow hinner⟩

end Expander

/-- A query and the ids that are placed when it is asked. -/
structure Inquiry where
  query : Query
  placed : List NodeId

namespace Graph

/-- The answer to the first inquiry takes the answer to the second one. -/
def Nested (g : Graph) (config : CompilerConfig) (a b : Inquiry) : Prop :=
  Asks (fun below => (deeper g config below).answer a.query) (g.expander config) a.placed b.query
    b.placed

/-- Between two inquiries the node of the first one has been placed, which was not placed before. -/
structure Deepens (g : Graph) (a b : Inquiry) : Prop where
  mem_ids : a.query.id ∈ g.ids
  not_mem : a.query.id ∉ a.placed
  subset : a.query.id :: a.placed ⊆ b.placed

theorem Deepens.trans {a b c : Inquiry} (hab : g.Deepens a b) (hbc : g.Deepens b c) :
    g.Deepens a c :=
  ⟨hab.mem_ids, hab.not_mem,
    fun _ hid => hbc.subset (List.mem_cons_of_mem _ (hab.subset hid))⟩

theorem Deepens.unplaced_lt {a b : Inquiry} (h : g.Deepens a b) :
    g.unplaced b.placed < g.unplaced a.placed :=
  (unplaced_le_of_subset h.subset).trans_lt (unplaced_cons_lt h.mem_ids h.not_mem)

theorem Nested.deepens {a b : Inquiry} (h : g.Nested config a b) : g.Deepens a b := by
  obtain ⟨hid, hfresh, hsubset⟩ := placed_of_asks (placing_levels g config g.size) h
  exact ⟨hid, hfresh, hsubset⟩

/-- Along nested inquiries there are fewer and fewer nodes left. -/
theorem length_le_of_isChain {a : Inquiry} {chain : List Inquiry}
    (h : (a :: chain).IsChain g.Deepens) : chain.length ≤ g.unplaced a.placed := by
  induction chain generalizing a with
  | nil => exact Nat.zero_le _
  | cons b chain ih =>
    obtain ⟨hab, hrest⟩ := List.isChain_cons_cons.mp h
    exact (ih hrest).trans_lt hab.unplaced_lt

end Graph

/-! ## Rounds of grouping -/

namespace Expander

variable (g config below stop) in
/-- What the rounds of grouping come to, and how many they are: they go on until no heads meet, or a
round is refused. -/
inductive Grouping : Nat → List Head → List NodeId →
    Except CompileError (List Head × List NodeId) → Prop
  | apart {pending : List Head} {s : List NodeId}
    (hnone : g.firstMeetings (pending.map Head.node) stop = []) :
    Grouping 0 pending s (.ok (pending, s))
  | refused {pending : List Head} {s : List NodeId} {e : CompileError}
    (hsome : g.firstMeetings (pending.map Head.node) stop ≠ [])
    (hround : below.groupsAt g config pending (g.firstMeetings (pending.map Head.node) stop) [] s =
      .error e) :
    Grouping 1 pending s (.error e)
  | round {pending : List Head} {groups : List (Nat × Head)} {taken : List Nat}
    {s t : List NodeId} {n : Nat} {outcome : Except CompileError (List Head × List NodeId)}
    (hsome : g.firstMeetings (pending.map Head.node) stop ≠ [])
    (hround : (below.groupsAt g config pending
      (g.firstMeetings (pending.map Head.node) stop) []).Gives s (groups, taken) t)
    (hmore : Grouping n (regroup pending groups taken) t outcome) :
    Grouping (n + 1) pending s outcome

/-- Where heads meet, there are two at least. -/
theorem two_le_length_of_meeting (h : g.firstMeetings (pending.map Head.node) stop ≠ []) :
    2 ≤ pending.length := by
  obtain ⟨c, hc⟩ := List.exists_mem_of_ne_nil _ h
  have hmeets := Graph.meets_of_mem hc
  have hplaces : c.heads ⊆ List.range pending.length := fun i hi => by
    obtain ⟨k, hk, -⟩ := (hmeets.places i).mp hi
    exact List.mem_range.mpr (List.getElem?_eq_some_iff.mp hk).1
  have hlength := (hmeets.nodup.subperm hplaces).length_le
  rw [List.length_range] at hlength
  exact hmeets.several.trans hlength

/-- A round leaves one head for each group, and takes two at least. -/
theorem length_regroup_lt {groups : List (Nat × Head)} {taken : List Nat}
    (h : g.firstMeetings (pending.map Head.node) stop ≠ [])
    (hround : (below.groupsAt g config pending
      (g.firstMeetings (pending.map Head.node) stop) []).Gives s (groups, taken) t) :
    (regroup pending groups taken).length < pending.length := by
  obtain ⟨-, hgrouped, hregroup, hsplit⟩ := Graph.groupsAt_round hround
  have hgroups : groups.length = (g.firstMeetings (pending.map Head.node) stop).length := by
    simpa using congrArg List.length hgrouped.nodes
  have hmembers : ∀ meetings : List MeetingPoint, (∀ c ∈ meetings, g.Meets stop pending c) →
      2 * meetings.length ≤ (meetings.flatMap fun c => members pending c.heads).length := by
    intro meetings hmeets
    induction meetings with
    | nil => exact Nat.zero_le _
    | cons c rest ih =>
      rw [List.forall_mem_cons] at hmeets
      have hseveral := hmeets.1.length_members ▸ hmeets.1.several
      have hrest := ih hmeets.2
      rw [List.flatMap_cons, List.length_append, List.length_cons]
      omega
  have hpairs := hmembers _ fun c hc => Graph.meets_of_mem hc
  have hsome := List.length_pos_of_ne_nil h
  rw [hregroup.length_eq, hsplit.length_eq, List.length_append, List.length_append, List.length_map]
  omega

theorem rounds_succ_of_meeting (h : g.firstMeetings (pending.map Head.node) stop ≠ [])
    (more : Nat) :
    below.rounds g config stop (more + 1) pending =
      below.groupsAt g config pending (g.firstMeetings (pending.map Head.node) stop) [] >>=
        fun round => below.rounds g config stop more (regroup pending round.1 round.2) := by
  rw [rounds]
  cases hmeetings : g.firstMeetings (pending.map Head.node) stop with
  | nil => exact absurd hmeetings h
  | cons c rest => rfl

/-- There are fewer rounds than heads, and a bound that is no smaller changes nothing. -/
theorem Grouping.bounded {n : Nat} {outcome : Except CompileError (List Head × List NodeId)}
    (h : Grouping g config below stop n pending s outcome) :
    n ≤ pending.length - 1 ∧ ∀ more, pending.length ≤ more →
      below.rounds g config stop more pending s = outcome := by
  induction h with
  | apart hnone =>
    refine ⟨Nat.zero_le _, fun more _ => ?_⟩
    cases more with
    | zero => rfl
    | succ more =>
      rw [rounds, hnone]
      rfl
  | refused hsome hround =>
    have htwo := two_le_length_of_meeting hsome
    refine ⟨by omega, fun more hmore => ?_⟩
    obtain ⟨more, rfl⟩ : ∃ k, more = k + 1 := ⟨more - 1, by omega⟩
    rw [rounds_succ_of_meeting hsome, bind_of_error hround]
  | round hsome hround _ ih =>
    have htwo := two_le_length_of_meeting hsome
    have hless := length_regroup_lt hsome hround
    refine ⟨by omega, fun more hmore => ?_⟩
    obtain ⟨more, rfl⟩ : ∃ k, more = k + 1 := ⟨more - 1, by omega⟩
    rw [rounds_succ_of_meeting hsome, bind_of_gives hround]
    exact ih.2 more (by omega)

/-- The rounds come to an end. -/
theorem exists_grouping (g : Graph) (config : CompilerConfig) (below : Expander)
    (stop : Option NodeId) (pending : List Head) (s : List NodeId) :
    ∃ n outcome, Grouping g config below stop n pending s outcome := by
  induction hlength : pending.length using Nat.strongRecOn generalizing pending s with
  | _ length ih =>
    by_cases hnone : g.firstMeetings (pending.map Head.node) stop = []
    · exact ⟨0, _, .apart hnone⟩
    cases hround : below.groupsAt g config pending
        (g.firstMeetings (pending.map Head.node) stop) [] s with
    | error e => exact ⟨1, _, .refused hnone hround⟩
    | ok r =>
      obtain ⟨⟨groups, taken⟩, t⟩ := r
      have hless := length_regroup_lt hnone hround
      obtain ⟨n, outcome, hmore⟩ := ih _ (hlength ▸ hless) _ t rfl
      exact ⟨n + 1, outcome, .round hnone hround hmore⟩

end Expander

/-- Expansion ends, whatever the graph is like.

An expander that is built level by level on anything at all is that of the graph, as soon as it has
more levels than there are nodes: nothing is ever asked of what lies below, by the expander or by
any list of heads.  Hence it is the one expander that needs no other one below it.  Of inquiries that
are nested in each other, each one that is not the last places a node that is new to it and to all
inquiries before it, so there is at most one more of them than there are nodes.  And where heads are
to converge, the rounds of grouping come to an end by themselves, and there are fewer of them than
heads. -/
theorem Graph.expansion_ends (g : Graph) (config : CompilerConfig) :
    (∀ bottom, (deeper g config)^[g.size + 1] bottom = g.expander config) ∧
      (∀ below, deeper g config below = below ↔ below = g.expander config) ∧
      (∀ chain : List Inquiry, chain.IsChain (g.Nested config) →
        chain.Pairwise g.Deepens ∧ chain.length ≤ g.size + 1) ∧
      ∀ (below : Expander) (heads : List NodeId) (stop : Option NodeId) (s : List NodeId),
        (∃ n outcome,
          Grouping g config below stop n (heads.map fun node => ⟨node, none⟩) s outcome) ∧
        ∀ n outcome,
          Grouping g config below stop n (heads.map fun node => ⟨node, none⟩) s outcome →
            n ≤ heads.length - 1 ∧ below.converge g config heads stop s =
              outcome >>= fun rounds =>
                (rounds.1.mapM fun head => below.chain head stop) rounds.2 := by
  refine ⟨g.iterate_deeper config, g.deeper_eq_self_iff config, fun chain hchain => ?_,
    fun below heads stop s => ?_⟩
  · have hdeepens : chain.IsChain g.Deepens := hchain.imp fun a b hab => hab.deepens
    have htrans : IsTrans Inquiry g.Deepens := ⟨fun a b c => Deepens.trans⟩
    refine ⟨List.isChain_iff_pairwise.mp hdeepens, ?_⟩
    cases chain with
    | nil => exact Nat.zero_le _
    | cons a chain =>
      exact Nat.succ_le_succ ((length_le_of_isChain hdeepens).trans (g.unplaced_le_size _))
  · refine ⟨exists_grouping g config below stop _ s, fun n outcome hgrouping => ?_⟩
    obtain ⟨hn, hrounds⟩ := hgrouping.bounded
    rw [List.length_map] at hn
    refine ⟨hn, ?_⟩
    rw [← hrounds heads.length (by rw [List.length_map])]
    rfl

/-- Two special nodes that capture each other. -/
def Graph.mutual : Graph :=
  let single := (({} : Graph).createNode "LayerStacked" default).1
  let pair := (single.createNode "LayerStacked" default).1
  ((pair.connect (.aux 0 0) (.input 1)).1.connect (.aux 1 0) (.input 0)).1

/-- From one subgraph into the other and back: then both nodes are placed. -/
example : Graph.mutual.size = 2 ∧
    [⟨.node 0 none, []⟩, ⟨.node 1 none, [0]⟩, ⟨.node 0 none, [1, 0]⟩].IsChain
      (Graph.mutual.Nested {}) :=
  ⟨rfl, .cons_cons (fun _ _ => rfl) (.cons_cons (fun _ _ => rfl) (.singleton _))⟩

end LayerNet

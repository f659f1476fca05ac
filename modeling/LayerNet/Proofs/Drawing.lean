import LayerNet.Proofs.Kinds
import LayerNet.Proofs.Soundness
import LayerNet.Proofs.Terms

/-!
# Drawing a term

`Term.Drawing` holds of the graphs that come up while the nodes and the edges of a term are put in,
one after the other in any order.  No connection on the way is refused: `Drawing.drawn` says that
the edges of the graph are those that were asked for.  The reason is that every edge leads forward
in the order of the term, and that no node is special.
-/

namespace LayerNet.Term

open LayerNet.Graph Relation

variable {t : Term} {ids : List NodeId} {es : List (NodeId × NodeId)} {g : Graph} {a b id : NodeId}
  {p q : PortRef}

/-- The graphs with some of the nodes and some of the edges of a term.  A node gets in under its id,
with any layer type that merges inputs if it has to; an edge may be drawn from either end. -/
inductive Drawing (t : Term) : List NodeId → List (NodeId × NodeId) → Graph → Prop
  | blank (catalog : Catalog) : Drawing t [] [] { catalog }
  | insert {ids : List NodeId} {es : List (NodeId × NodeId)} {g : Graph} (id : NodeId) (n : Node) :
    Drawing t ids es g → id ∈ t.ids → id ∉ ids → n.special = none →
    (∀ e ∈ t.arities, e.1 = id → 1 < e.2 → g.catalog.isMerge n.layerType = true) →
    Drawing t (id :: ids) es (g.insertAs id n)
  | connect {ids : List NodeId} {es : List (NodeId × NodeId)} {g : Graph} (a b : NodeId)
    (p q : PortRef) : Drawing t ids es g → (a, b) ∈ t.edges none → a ∈ ids → b ∈ ids →
    (p = .output a ∧ q = .input b ∨ p = .input b ∧ q = .output a) →
    Drawing t ids ((a, b) :: es) (g.connect p q).1

/-- The ends of an edge of the list. -/
def Ends (es : List (NodeId × NodeId)) (p q : PortRef) : Prop :=
  ∃ e ∈ es, p = .output e.1 ∧ q = .input e.2 ∨ p = .input e.2 ∧ q = .output e.1

/-- A graph whose nodes and edges are the given ones of a term. -/
structure Drawn (t : Term) (ids : List NodeId) (es : List (NodeId × NodeId)) (g : Graph) :
    Prop where
  valid : g.Valid
  nodes : ∀ id, id ∈ g.ids ↔ id ∈ ids
  peers : ∀ p q, q ∈ g.peers p ↔ Ends es p q
  kinds : ∀ id kind, g.kind? id = some kind → kind.1 = none ∧
    ∀ k, (id, k) ∈ t.arities → 1 < k → g.catalog.isMerge kind.2 = true
  within : ∀ id ∈ ids, id ∈ t.ids
  edges : ∀ e ∈ es, e ∈ t.edges none

theorem ends_cons : Ends ((a, b) :: es) p q ↔
    (p = .output a ∧ q = .input b ∨ p = .input b ∧ q = .output a) ∨ Ends es p q := by
  simp [Ends]

theorem Drawing.edited (h : t.Drawing ids es g) : g.Edited := by
  induction h with
  | blank catalog => exact .empty catalog
  | insert id n _ _ _ _ _ ih => exact .insertAs id n ih
  | connect _ _ p q _ _ _ _ _ ih => exact .connect p q ih

theorem Drawn.flows_iff (h : t.Drawn ids es g) : g.Flows a b ↔ (a, b) ∈ es := by
  rw [Graph.flows_iff, h.peers]
  constructor
  · rintro ⟨e, he, ⟨ha, hb⟩ | ⟨ha, -⟩⟩
    · cases ha
      cases hb
      exact he
    · cases ha
  · exact fun he => ⟨_, he, Or.inl ⟨rfl, rfl⟩⟩

theorem Drawn.not_special (h : t.Drawn ids es g) {n : Node} (hn : g.node? id = some n) :
    n.isSpecial = false := by
  have hkind : n.special = none := (h.kinds id _ (kind?_of_node? hn)).1
  rw [Node.isSpecial, hkind]
  rfl

/-- What a path leads to does not come earlier. -/
theorem Drawn.idxOf_le (h : t.Drawn ids es g) (ht : Shaped false t) (hnodup : t.ids.Nodup)
    (hab : ReflTransGen g.Flows a b) : t.ids.idxOf a ≤ t.ids.idxOf b := by
  induction hab with
  | refl => exact Nat.le_refl _
  | tail _ hbc ih =>
    have hlt := idxOf_lt_of_mem_edges ht hnodup (h.edges _ (h.flows_iff.1 hbc))
    exact Nat.le_of_lt (Nat.lt_of_le_of_lt ih hlt)

/-- An edge of the term is never refused. -/
theorem Drawn.canJoin (h : t.Drawn ids es g) (ht : Shaped false t) (hnodup : t.ids.Nodup)
    (hab : (a, b) ∈ t.edges none) : g.canJoin (.output a) (.input b) = .ok () := by
  rw [canJoin_eq_ok_iff]
  refine ⟨Or.inl rfl, ?_, ?_⟩
  · have hplain : g.nodes.toList.any Node.isSpecial = false := by
      refine List.any_eq_false.2 ?_
      intro n hn
      rw [h.not_special (Keyed.get?_eq_some_iff.2 ⟨hn, rfl⟩ : g.node? n.id = some n)]
      exact Bool.false_ne_true
    rw [subgraphConflict?, hplain, if_neg Bool.false_ne_true]
  · rintro ⟨-, -, hback⟩
    have hle := h.idxOf_le ht hnodup (reaches_iff.1 hback)
    have hlt := idxOf_lt_of_mem_edges ht hnodup hab
    exact absurd hlt (Nat.not_lt.2 hle)

/-- A connection for an edge of the term succeeds, from either end. -/
theorem Drawn.canConnect (h : t.Drawn ids es g) (ht : Shaped false t) (hnodup : t.ids.Nodup)
    (hab : (a, b) ∈ t.edges none) (ha : a ∈ ids) (hb : b ∈ ids)
    (hends : p = .output a ∧ q = .input b ∨ p = .input b ∧ q = .output a) :
    g.canConnect p q = .ok () := by
  have hout := (direction?_of_mem_ids (p := .output a) ((h.nodes a).2 ha)).2 rfl
  have hin := (direction?_of_mem_ids (p := .input b) ((h.nodes b).2 hb)).1 rfl
  have hne : a ≠ b := fun e => by
    have hlt := idxOf_lt_of_mem_edges ht hnodup hab
    rw [e] at hlt
    exact Nat.lt_irrefl _ hlt
  have hjoin := h.canJoin ht hnodup hab
  rw [canConnect_eq_ok_iff]
  rcases hends with ⟨rfl, rfl⟩ | ⟨rfl, rfl⟩
  · exact ⟨_, _, hout, hin, hne, by simp, Or.inr (by rwa [if_pos rfl])⟩
  · exact ⟨_, _, hin, hout, hne.symm, by simp, Or.inr (by rwa [if_neg (by simp)])⟩

/-- The graph after a connection for an edge of the term. -/
theorem Drawn.connect (h : t.Drawn ids es g) (ht : Shaped false t) (hnodup : t.ids.Nodup)
    (hab : (a, b) ∈ t.edges none) (ha : a ∈ ids) (hb : b ∈ ids)
    (hends : p = .output a ∧ q = .input b ∨ p = .input b ∧ q = .output a) :
    t.Drawn ids ((a, b) :: es) (g.connect p q).1 where
  valid := h.valid.connect p q
  nodes id := by rw [mem_ids_iff_kind?, kind?_connect, ← mem_ids_iff_kind?, h.nodes]
  peers r s := by
    have hok := h.canConnect ht hnodup hab ha hb hends
    rw [ends_cons, Graph.connect, hok]
    by_cases hpq : g.isConnected p q = true
    · -- the edge was there already
      have hold := (h.peers p q).1 (isConnected_iff.1 hpq)
      simp only [hpq, if_true, h.peers]
      refine ⟨Or.inr, fun hr => hr.elim (fun hr => ?_) id⟩
      have hmem : (a, b) ∈ es := by
        obtain ⟨e, he, hpe⟩ := hold
        rcases hends with ⟨rfl, rfl⟩ | ⟨rfl, rfl⟩
        · rcases hpe with ⟨h1, h2⟩ | ⟨h1, -⟩
          · cases h1
            cases h2
            exact he
          · cases h1
        · rcases hpe with ⟨h1, -⟩ | ⟨h1, h2⟩
          · cases h1
          · cases h1
            cases h2
            exact he
      exact ⟨_, hmem, hr⟩
    · have hpq' : g.isConnected p q = false := by simpa using hpq
      have hnew : q ∉ g.peers p := isConnected_eq_false_iff.1 hpq'
      have hjoinable := (admitted_of_canConnect hok hpq').joinable
      simp only [hpq', Bool.false_eq_true, if_false]
      rw [hjoinable.mem_peers_link, h.peers, or_comm]
      refine or_congr_left ?_
      rcases hends with ⟨rfl, rfl⟩ | ⟨rfl, rfl⟩
      · exact Iff.rfl
      · exact or_comm
  kinds id kind hkind := by
    rw [catalog_connect]
    exact h.kinds id kind (by simpa using hkind)
  within := h.within
  edges := List.forall_mem_cons.2 ⟨hab, h.edges⟩

/-- The graph after one more node. -/
theorem Drawn.insert (h : t.Drawn ids es g) {n : Node} (ht : id ∈ t.ids) (hid : id ∉ ids)
    (hplain : n.special = none)
    (hmerge : ∀ k, (id, k) ∈ t.arities → 1 < k → g.catalog.isMerge n.layerType = true) :
    t.Drawn (id :: ids) es (g.insertAs id n) where
  valid := h.valid.insertAs id n
  nodes i := by
    rw [mem_ids_iff_kind?, kind?_insertAs, List.mem_cons, ← h.nodes, mem_ids_iff_kind?]
    by_cases hi : i = id <;> simp [hi]
  peers p q := by
    have hw := h.valid.wellFormed
    rw [hw.peers_insertAs, ← h.peers, mem_peersWithout]
    refine ⟨fun hq => hq.1, fun hq => ⟨hq, fun e => ?_, fun e => ?_⟩⟩
    · exact hid ((h.nodes id).1 (e ▸ mem_ids_of_mem_peers hq))
    · exact hid ((h.nodes id).1 (e ▸ hw.peer_mem_ids hq))
  kinds i kind hkind := by
    rw [catalog_insertAs]
    rw [kind?_insertAs] at hkind
    split at hkind
    · rename_i hi
      cases hkind
      exact ⟨hplain, hi ▸ hmerge⟩
    · exact h.kinds i kind hkind
  within := List.forall_mem_cons.2 ⟨ht, h.within⟩
  edges := h.edges

/-- A graph that is drawn has exactly the nodes and the edges that were put in. -/
theorem Drawing.drawn (h : t.Drawing ids es g) (ht : Shaped false t) (hnodup : t.ids.Nodup) :
    t.Drawn ids es g := by
  induction h with
  | blank catalog =>
    refine ⟨valid_empty catalog, fun id => ?_, fun p q => ?_, fun id kind hkind => ?_, by simp,
      by simp⟩
    · exact ⟨fun hid => absurd hid List.not_mem_nil, fun hid => absurd hid List.not_mem_nil⟩
    · exact ⟨fun hq => absurd hq List.not_mem_nil,
        fun ⟨e, he, _⟩ => absurd he List.not_mem_nil⟩
    · cases hkind
  | insert id n _ ht' hid hplain hmerge ih =>
    exact ih.insert ht' hid hplain fun k hk => hmerge (id, k) hk rfl
  | connect _ _ _ _ _ hab ha hb hends ih => exact ih.connect ht hnodup hab ha hb hends

end LayerNet.Term

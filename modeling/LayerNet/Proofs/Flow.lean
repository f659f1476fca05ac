import LayerNet.Graph.Traversal
import LayerNet.Proofs.Search
import Mathlib.Data.List.Nodup

/-!
# The primary edges as a relation

`Graph.Flows g a b` says that a primary edge leads from `a` to `b`.  The successors and the
predecessors of a node are the two readings of this relation, `Graph.Leads` is its closure along
paths that do not enter a given node, and `Graph.Acyclic` says that no path returns to its start.

The queries of a graph are exact for these relations: `mem_reachableFrom`, `reaches_iff` and
`reachesAny_iff`.
-/

namespace LayerNet

open Relation

/-! ## Lists without repetition -/

theorem eraseDups_sublist (l : List NodeId) : l.eraseDups.Sublist l := by
  generalize hn : l.length = n
  induction n using Nat.strongRecOn generalizing l with
  | _ n ih =>
    cases l with
    | nil => simp
    | cons a l =>
      rw [List.eraseDups_cons]
      have hlen : (l.filter fun b => !b == a).length ≤ l.length := List.length_filter_le ..
      have hsub := ih _ (by rw [List.length_cons] at hn; omega) (l.filter fun b => !b == a) rfl
      exact (hsub.trans List.filter_sublist).cons_cons a

theorem nodup_eraseDups (l : List NodeId) : l.eraseDups.Nodup := by
  generalize hn : l.length = n
  induction n using Nat.strongRecOn generalizing l with
  | _ n ih =>
    cases l with
    | nil => simp
    | cons a l =>
      rw [List.eraseDups_cons, List.nodup_cons, List.mem_eraseDups]
      have hlen : (l.filter fun b => !b == a).length ≤ l.length := List.length_filter_le ..
      exact ⟨by simp, ih _ (by rw [List.length_cons] at hn; omega) _ rfl⟩

theorem mem_peerNodes {slot : Slot} {peers : List PortRef} {id : NodeId} :
    id ∈ peerNodes slot peers ↔ ⟨id, slot⟩ ∈ peers := by
  simp only [peerNodes, List.mem_eraseDups, List.mem_map, List.mem_filter, decide_eq_true_eq]
  constructor
  · rintro ⟨⟨node, s⟩, ⟨hp, rfl⟩, rfl⟩
    exact hp
  · intro hp
    exact ⟨⟨id, slot⟩, ⟨hp, rfl⟩, rfl⟩

theorem nodup_peerNodes (slot : Slot) (peers : List PortRef) : (peerNodes slot peers).Nodup :=
  nodup_eraseDups _

namespace Graph

variable {g : Graph} {a b c : NodeId} {stop : Option NodeId}

/-! ## One edge -/

/-- A primary edge leads from `a` to `b`. -/
def Flows (g : Graph) (a b : NodeId) : Prop := b ∈ g.successors a

theorem flows_iff : g.Flows a b ↔ PortRef.input b ∈ g.peers (.output a) := mem_peerNodes

theorem nodup_successors (g : Graph) (a : NodeId) : (g.successors a).Nodup := nodup_peerNodes ..

theorem nodup_predecessors (g : Graph) (a : NodeId) : (g.predecessors a).Nodup :=
  nodup_peerNodes ..

/-- An edge starts at a node of the graph. -/
theorem Flows.mem_ids (h : g.Flows a b) : a ∈ g.ids := by
  by_contra hn
  rw [flows_iff, peers_eq_nil hn] at h
  exact absurd h List.not_mem_nil

/-! ## Paths -/

/-- A path of primary edges leads from `a` to `b` and never enters `stop`. -/
def Leads (g : Graph) (stop : Option NodeId) (a b : NodeId) : Prop :=
  g.flow.Leads stop.toList a b

theorem mem_reachableFrom : b ∈ g.reachableFrom a stop ↔ g.Leads stop a b := by
  rw [reachableFrom, Hops.mem_explore]
  simp [Leads]

theorem Leads.refl (h : some a ≠ stop) : g.Leads stop a a :=
  Hops.Leads.refl (by simpa [eq_comm] using h)

theorem Leads.tail (hab : g.Leads stop a b) (hbc : g.Flows b c) (hc : some c ≠ stop) :
    g.Leads stop a c :=
  Hops.Leads.tail hab hbc (by simpa [eq_comm] using hc)

theorem Leads.head (ha : some a ≠ stop) (hab : g.Flows a b) (hbc : g.Leads stop b c) :
    g.Leads stop a c :=
  Hops.Leads.head (by simpa [eq_comm] using ha) hab hbc

theorem Leads.trans (hab : g.Leads stop a b) (hbc : g.Leads stop b c) : g.Leads stop a c :=
  Hops.Leads.trans hab hbc

theorem Leads.ne_stop (hab : g.Leads stop a b) : some b ≠ stop := by
  simpa [eq_comm] using Hops.Leads.not_mem hab

theorem Leads.start_ne_stop (hab : g.Leads stop a b) : some a ≠ stop := by
  simpa [eq_comm] using hab.1

/-- Any path is a path that avoids nothing. -/
theorem Leads.weaken (hab : g.Leads stop a b) : g.Leads none a b :=
  Hops.Leads.mono (by simp) hab

/-- A path that may go anywhere is a chain of edges. -/
theorem leads_none_iff : g.Leads none a b ↔ ReflTransGen g.Flows a b := by
  simp only [Leads, Hops.Leads, Option.toList_none, List.not_mem_nil, not_false_eq_true, and_true,
    true_and]
  rfl

/-- What holds at the start of a path and is handed on by its edges holds at its end. -/
theorem Leads.induction {motive : NodeId → Prop} (hab : g.Leads stop a b) (start : motive a)
    (step : ∀ x y, g.Leads stop a x → motive x → g.Flows x y → some y ≠ stop → motive y) :
    motive b := by
  obtain ⟨ha, hpath⟩ := hab
  induction hpath with
  | refl => exact start
  | @tail x y hpath hxy ih =>
    exact step x y ⟨ha, hpath⟩ ih hxy.1 (by simpa [eq_comm] using hxy.2)

theorem reaches_iff : g.reaches a b = true ↔ ReflTransGen g.Flows a b := by
  rw [reaches, Hops.meets_iff, ← leads_none_iff]
  simp [Leads]

theorem reachesAny_iff {goals : List NodeId} :
    g.reachesAny a goals = true ↔ ∃ b ∈ goals, ReflTransGen g.Flows a b := by
  rw [reachesAny, Hops.meets_iff]
  simp only [decide_eq_true_eq, ← leads_none_iff]
  exact ⟨fun ⟨b, hb, hg⟩ => ⟨b, hg, hb⟩, fun ⟨b, hg, hb⟩ => ⟨b, hb, hg⟩⟩

/-! ## Cycles -/

/-- No path of primary edges returns to its start. -/
def Acyclic (g : Graph) : Prop := ∀ a, ¬TransGen g.Flows a a

/-- Two nodes of a graph without cycles do not lead to each other. -/
theorem Acyclic.eq_of_leads (hg : g.Acyclic) {stop' : Option NodeId} (hab : g.Leads stop a b)
    (hba : g.Leads stop' b a) : a = b := by
  have hab := leads_none_iff.1 hab.weaken
  have hba := leads_none_iff.1 hba.weaken
  rcases reflTransGen_iff_eq_or_transGen.1 hab with e | hab
  · exact e.symm
  · exact absurd (hab.trans_left hba) (hg a)

/-- Fewer edges form no new cycles. -/
theorem Acyclic.mono {g' : Graph} (hg : g.Acyclic) (h : ∀ a b, g'.Flows a b → g.Flows a b) :
    g'.Acyclic := fun a ha => hg a (TransGen.mono h _ _ ha)

/-- A path over one more edge is a path that was there before, or it uses the new edge. -/
theorem transGen_of_edge {g' : Graph} {x y : NodeId}
    (h : ∀ u v, g'.Flows u v → g.Flows u v ∨ u = a ∧ v = b) (hxy : TransGen g'.Flows x y) :
    TransGen g.Flows x y ∨ ReflTransGen g.Flows x a ∧ ReflTransGen g.Flows b y := by
  induction hxy with
  | single hxy =>
    rcases h _ _ hxy with hxy | ⟨rfl, rfl⟩
    · exact Or.inl (.single hxy)
    · exact Or.inr ⟨.refl, .refl⟩
  | tail _ hyz ih =>
    rcases h _ _ hyz with hyz | ⟨rfl, rfl⟩
    · rcases ih with hxy | ⟨hxa, hby⟩
      · exact Or.inl (hxy.tail hyz)
      · exact Or.inr ⟨hxa, hby.tail hyz⟩
    · rcases ih with hxy | ⟨hxa, -⟩
      · exact Or.inr ⟨hxy.to_reflTransGen, .refl⟩
      · exact Or.inr ⟨hxa, .refl⟩

/-- One more edge forms no cycle if its end does not lead back to its start. -/
theorem Acyclic.of_edge {g' : Graph} (hg : g.Acyclic) (hback : ¬ReflTransGen g.Flows b a)
    (h : ∀ u v, g'.Flows u v → g.Flows u v ∨ u = a ∧ v = b) : g'.Acyclic := by
  intro x hx
  rcases transGen_of_edge h hx with hx | ⟨hxa, hbx⟩
  · exact hg x hx
  · exact hback (hbx.trans hxa)

end Graph

end LayerNet

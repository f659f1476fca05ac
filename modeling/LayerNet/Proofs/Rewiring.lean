import LayerNet.Proofs.Recasting

/-!
# Networks that differ in wirings

A compiler follows the edges of a network from their outputs.  Of the inputs it only asks how many
edges arrive, except at the auxiliary ports of special nodes, whose edges it copies into the layer
in their order.  Hence two graphs with the same edges in the same order at all outputs are compiled
to the same forest, up to the wirings of special nodes: `Rewired.compile_eq`.

Their compilations run side by side (`Rewired.recast`), so nothing is to be followed here but the
layers that the compiler makes.
-/

namespace LayerNet

/-! ## Changing the wirings of a tree -/

namespace Layer

mutual

/-- A tree in which every wiring is changed by `f`. -/
def mapLinks (f : List AuxLink → List AuxLink) : Layer → Layer
  | node source inner links children =>
    node source (forestMapLinks f inner) (f links) (forestMapLinks f children)
  | sequence steps => sequence (forestMapLinks f steps)
  | parallel reduction merge branches => parallel reduction merge (forestMapLinks f branches)

/-- A forest in which every wiring is changed by `f`. -/
def forestMapLinks (f : List AuxLink → List AuxLink) : List Layer → List Layer
  | [] => []
  | layer :: layers => mapLinks f layer :: forestMapLinks f layers

end

variable (f : List AuxLink → List AuxLink)

theorem forestMapLinks_eq_map (forest : List Layer) :
    forestMapLinks f forest = forest.map (mapLinks f) := by
  induction forest with
  | nil => rfl
  | cons layer forest ih => rw [forestMapLinks, ih, List.map_cons]

mutual

theorem mapLinks_id : ∀ layer : Layer, mapLinks id layer = layer
  | node source inner links children => by
    rw [mapLinks, forestMapLinks_id inner, forestMapLinks_id children]
    rfl
  | sequence steps => by rw [mapLinks, forestMapLinks_id steps]
  | parallel reduction merge branches => by rw [mapLinks, forestMapLinks_id branches]

theorem forestMapLinks_id : ∀ forest : List Layer, forestMapLinks id forest = forest
  | [] => rfl
  | layer :: layers => by rw [forestMapLinks, mapLinks_id layer, forestMapLinks_id layers]

end

end Layer

open Layer

/-- Two graphs with the same nodes and edges and the same order of edges at all outputs.  The
wirings of the special nodes of `g'` are those of `g`, changed by `f`. -/
structure Graph.Rewired (f : List AuxLink → List AuxLink) (g g' : Graph) : Prop where
  alike : g.Alike g'
  peers_output : ∀ id, g'.peers (.output id) = g.peers (.output id)
  heads : ∀ id n n', g.node? id = some n → g'.node? id = some n' →
    ((Expander.auxLinks n').filter fun link => link.1 = .output) =
      (Expander.auxLinks n).filter fun link => link.1 = .output
  links : ∀ id n n', g.node? id = some n → g'.node? id = some n' →
    (Expander.auxLinks n').map Prod.snd = f ((Expander.auxLinks n).map Prod.snd)
  nil : f [] = []

namespace Graph

variable {f : List AuxLink → List AuxLink} {g g' : Graph}

/-- The compilations of the two graphs make the same layers but for the wirings. -/
theorem Rewired.recast (h : g.Rewired f g') (config : CompilerConfig) :
    g.Recast (mapLinks f) g' config config where
  alike := h.alike
  peers_output := h.peers_output
  heads id n n' hn hn' := by
    unfold Expander.auxHeads
    rw [h.heads id n n' hn hn']
  special id n n' hn hn' source inner children := by
    rw [mapLinks, h.links id n n' hn hn', forestMapLinks_eq_map, forestMapLinks_eq_map]
  plain source children := by
    rw [mapLinks, h.nil, forestMapLinks_eq_map, forestMapLinks_eq_map, List.map_nil]
  sequence steps := by rw [mapLinks, forestMapLinks_eq_map]
  group point branches _ := by
    rw [groupAt_congr h.alike.catalog (h.alike.map_node?_eq (fun _ => rfl) point), groupAt,
      mapLinks, forestMapLinks_eq_map, groupAt]
  apart branches := by rw [mapLinks, forestMapLinks_eq_map]

/-- The forest of a network with other wirings. -/
theorem Rewired.compile_eq (h : g.Rewired f g') (hg : g.WellFormed) (hg' : g'.WellFormed)
    (config : CompilerConfig) :
    g'.compile config = (g.compile config).map (forestMapLinks f) := by
  rw [(h.recast config).compile_eq hg hg', funext (forestMapLinks_eq_map f)]

end Graph

end LayerNet

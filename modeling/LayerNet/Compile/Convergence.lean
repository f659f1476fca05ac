import LayerNet.Graph.Traversal

/-!
# Where branches meet

Several heads are followed along the primary edges.  A node that two or more of them reach is a
candidate for a merge; it is a first one if no other candidate lies between it and one of the heads
that reach it.
-/

namespace LayerNet

/-- A node with the heads that reach it, given by their places. -/
structure MeetingPoint where
  point : NodeId
  heads : List Nat
  deriving DecidableEq, Repr

/-- The nodes that at least two heads reach, in the order in which they are found from one head
after the other; `reach` lists for each head the nodes that it reaches. -/
def MeetingPoint.candidates (reach : List (List NodeId)) : List MeetingPoint :=
  (reach.flatten.eraseDups.map fun id =>
    (⟨id, (reach.zipIdx.filter fun r => id ∈ r.1).map Prod.snd⟩ : MeetingPoint)).filter
      fun c => 2 ≤ c.heads.length

/-- The candidates before which the heads do not meet, if no path enters `stop`. -/
def Graph.firstMeetings (g : Graph) (heads : List NodeId) (stop : Option NodeId) :
    List MeetingPoint :=
  let reach := heads.map fun head => g.reachableFrom head stop
  let candidates := MeetingPoint.candidates reach
  let below := candidates.map fun c => (c.point, g.reachableFrom c.point stop)
  candidates.filter fun c =>
    !below.any fun (other, reached) =>
      other ≠ c.point && c.heads.any (fun i => other ∈ (reach[i]?).getD []) && c.point ∈ reached

end LayerNet

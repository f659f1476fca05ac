import LayerNet.Proofs.Programs

/-!
# The footprint of an expansion

An expansion looks at the placed ids only to refuse a node that is among them.  What it places, and
whether it succeeds otherwise, does not depend on them: `Expansion.Placing` says that a run from any
list of placed ids is the run from the empty list, with its ids in front, if they are all new.  So
two expansions may trade places, which is what an argument about the order of branches rests on.

It says besides that an expansion is refused for no other reason than an obstacle to a tree form.

A single step has both properties, and one step after another keeps them (`Expansion.Placing.bind`).
So all programs over a level have them that the level itself has (`Expander.Program.placing`), and
with them all levels (`Expander.placing_levels`).
-/

namespace LayerNet

namespace Expansion

variable {α β : Type}

/-! ## Runs step by step -/

section Steps

variable {x : Expansion α} {f : α → Expansion β} {s t : List NodeId} {a : α} {e : CompileError}

theorem bind_of_gives (h : x.Gives s a t) : (x >>= f) s = f a t := by
  rw [Gives] at h
  simp only [Bind.bind, StateT.bind, h, Except.bind]

theorem bind_of_error (h : x s = .error e) : (x >>= f) s = .error e := by
  simp only [Bind.bind, StateT.bind, h, Except.bind]

theorem place_of_mem {id : NodeId} (h : id ∈ s) (obstacle : Obstacle) :
    place id obstacle s = .error (.unsupported id obstacle) := by
  simp only [place, Bind.bind, StateT.bind, Except.bind, get, getThe, MonadStateOf.get, StateT.get,
    Pure.pure, Except.pure, if_pos h]
  rfl

theorem place_of_not_mem {id : NodeId} (h : id ∉ s) (obstacle : Obstacle) :
    (place id obstacle).Gives s () (id :: s) :=
  gives_place_iff.2 ⟨h, rfl⟩

end Steps

/-! ## Expansions that only place nodes -/

/-- An expansion that does nothing but place nodes: it runs from any list of placed ids as it does
from the empty one, if its own ids are not among them, and is refused only for an obstacle. -/
structure Placing (x : Expansion α) : Prop where
  frame : ∀ {s : List NodeId} {a : α} {t : List NodeId},
    x.Gives s a t ↔ ∃ ids, x.Gives [] a ids ∧ (∀ id ∈ ids, id ∉ s) ∧ t = ids ++ s
  refusal : ∀ {s : List NodeId} {e : CompileError}, x s = .error e →
    ∃ node obstacle, e = .unsupported node obstacle

theorem Placing.pure (a : α) : (Pure.pure a : Expansion α).Placing where
  frame := by
    intro s b t
    simp only [gives_pure_iff]
    constructor
    · rintro ⟨rfl, rfl⟩
      exact ⟨[], ⟨rfl, rfl⟩, by simp, rfl⟩
    · rintro ⟨_, ⟨rfl, rfl⟩, -, rfl⟩
      exact ⟨rfl, rfl⟩
  refusal h := by cases h

theorem Placing.refuse (node : NodeId) (obstacle : Obstacle) :
    (Expansion.refuse node obstacle : Expansion α).Placing where
  frame := by simp
  refusal h := by
    cases h
    exact ⟨node, obstacle, rfl⟩

theorem Placing.bind {x : Expansion α} {f : α → Expansion β} (hx : x.Placing)
    (hf : ∀ a, (f a).Placing) : (x >>= f).Placing where
  frame := by
    intro s b u
    simp only [gives_bind_iff]
    constructor
    · rintro ⟨a, t, hxs, hft⟩
      obtain ⟨ids, hids, hnew, rfl⟩ := hx.frame.1 hxs
      obtain ⟨more, hmore, hnew', rfl⟩ := (hf a).frame.1 hft
      have hboth : (f a).Gives ids b (more ++ ids) :=
        (hf a).frame.2 ⟨more, hmore, fun id hid hmem => hnew' id hid (by simp [hmem]), rfl⟩
      refine ⟨more ++ ids, ⟨a, ids, hids, hboth⟩, fun id hid hmem => ?_, by simp⟩
      rcases List.mem_append.1 hid with hid | hid
      · exact hnew' id hid (List.mem_append_right _ hmem)
      · exact hnew id hid hmem
    · rintro ⟨_, ⟨a, ids, hids, hft⟩, hnew, rfl⟩
      obtain ⟨more, hmore, hapart, rfl⟩ := (hf a).frame.1 hft
      refine ⟨a, ids ++ s, hx.frame.2 ⟨ids, hids, fun id hid => ?_, rfl⟩,
        (hf a).frame.2 ⟨more, hmore, fun id hid hmem => ?_, by simp⟩⟩
      · exact hnew id (List.mem_append_right _ hid)
      · rcases List.mem_append.1 hmem with hmem | hmem
        · exact hapart id hid hmem
        · exact hnew id (List.mem_append_left _ hid) hmem
  refusal := by
    intro s e h
    cases hrun : x s with
    | error d =>
      rw [bind_of_error hrun] at h
      cases h
      exact hx.refusal hrun
    | ok r =>
      rw [bind_of_gives hrun] at h
      exact (hf r.1).refusal h

theorem Placing.place (id : NodeId) (obstacle : Obstacle) :
    (Expansion.place id obstacle).Placing where
  frame := by simp
  refusal := by
    intro s e h
    by_cases hid : id ∈ s
    · rw [place_of_mem hid] at h
      cases h
      exact ⟨id, obstacle, rfl⟩
    · have hplaced := place_of_not_mem hid obstacle
      rw [Gives, h] at hplaced
      cases hplaced

/-- The ids that are placed stay placed. -/
theorem Placing.subset {x : Expansion α} (hx : x.Placing) {s t : List NodeId} {a : α}
    (h : x.Gives s a t) : s ⊆ t := by
  obtain ⟨ids, -, -, rfl⟩ := hx.frame.1 h
  exact List.subset_append_right ids s

theorem Placing.mapM {f : α → Expansion β} (hf : ∀ a, (f a).Placing) (l : List α) :
    (l.mapM f).Placing := by
  induction l with
  | nil => exact .pure []
  | cons a l ih =>
    rw [List.mapM_cons]
    exact (hf a).bind fun b => ih.bind fun rest => .pure (b :: rest)

end Expansion

open Expansion

theorem placing_parallelGroup (g : Graph) (config : CompilerConfig) (point : NodeId)
    (branches : List Layer) : (parallelGroup g config point branches).Placing := by
  rw [parallelGroup_eq]
  split
  · exact .refuse ..
  · exact .pure _

/-! ## Levels that only place nodes -/

namespace Expander

/-- Both expansions of a level only place nodes. -/
structure Placing (below : Expander) : Prop where
  node : ∀ head stop, (below.node head stop).Placing
  afterGroup : ∀ merge stop, (below.afterGroup merge stop).Placing

variable {below : Expander}

theorem placing_of_answer (h : ∀ query, (below.answer query).Placing) : below.Placing :=
  ⟨fun head stop => h (.node head stop), fun merge stop => h (.afterGroup merge stop)⟩

theorem Placing.answer (h : below.Placing) (query : Query) : (below.answer query).Placing := by
  cases query with
  | node id stop => exact h.node id stop
  | afterGroup id stop => exact h.afterGroup id stop

/-- A program over a level that only places nodes does nothing else. -/
theorem Program.placing {α : Type} {x : Expander → Expansion α} (hx : Program x)
    (h : below.Placing) : (x below).Placing := by
  induction hx with
  | pure a => exact .pure a
  | refuse node obstacle => exact .refuse node obstacle
  | place id obstacle => exact .place id obstacle
  | ask query => exact h.answer query
  | bind _ _ ihfirst ihrest => exact ihfirst.bind ihrest

theorem placing_exhausted (g : Graph) : (exhausted g).Placing := by
  refine placing_of_answer fun query => ?_
  rcases answer_deeper_cases g {} query with ⟨hidle, -⟩ | ⟨-, obstacle, hrefused, -⟩
  · rw [hidle]
    exact .pure []
  · rw [hrefused]
    exact .refuse ..

theorem Placing.deeper (h : below.Placing) (g : Graph) (config : CompilerConfig) :
    (deeper g config below).Placing :=
  placing_of_answer fun query => (Program.deeper g config query).placing h

/-- Every level of expansion only places nodes. -/
theorem placing_levels (g : Graph) (config : CompilerConfig) (n : Nat) :
    (levels g config n).Placing := by
  induction n with
  | zero => exact placing_exhausted g
  | succ n ih => exact ih.deeper g config

end Expander

end LayerNet

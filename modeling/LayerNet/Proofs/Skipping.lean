import LayerNet.Proofs.Copying

/-!
# Copying with ids that do not exist

Duplication skips the ids that do not exist, but it looks each id up in the graph that it is
extending.  So an id that did not exist before may be the id of a copy when its turn comes, and then
the copy is copied as well.

* `keys_withCopies_concat` — one id more in the list: which ids have copies then;
* `withCopies_known` — the ids that do not exist are skipped, as long as none of them is the id of
  an earlier copy;
* `Edited.duplicate_known_iff` — and only that long do they make no difference.
-/

namespace LayerNet.Graph

variable {g : Graph} {offset : Position} {ids : List NodeId} {id : NodeId}

/-- The counter never passes the largest id. -/
theorem Edited.nextId_le (h : g.Edited) : g.nextId ≤ maxId := by
  have hinsert : ∀ (g : Graph) (id : NodeId) (n : Node), g.nextId ≤ maxId →
      (g.insertAs id n).nextId ≤ maxId := by
    intro g id n hg
    rw [nextId_insertAs]
    split <;> grind
  induction h with
  | empty catalog => exact Nat.zero_le _
  | createNode _ _ _ ih => exact hinsert _ _ _ ih
  | addNode _ _ ih => exact hinsert _ _ _ ih
  | insertAs id n _ ih => exact hinsert _ id n ih
  | removeNode id _ ih => rwa [nextId_removeNode]
  | connect a b _ ih => rwa [nextId_connect]
  | disconnect _ _ _ ih => exact ih
  | disconnectAll id _ ih => rwa [nextId_disconnectAll]
  | setHighlighted _ _ _ ih => exact ih
  | editNode _ _ _ ih => exact ih
  | duplicate ids offset _ ih => exact (Extends.duplicate ih ids offset).nextId_le

/-- The ids of a list that exist. -/
def known (g : Graph) (ids : List NodeId) : List NodeId := ids.filter fun id => id ∈ g.ids

/-! ## Which ids have copies -/

theorem isSome_lookup_iff {copies : List (NodeId × NodeId)} :
    (copies.lookup id).isSome = true ↔ id ∈ copies.map Prod.fst := by
  rw [← Option.ne_none_iff_isSome, Ne, List.lookup_eq_none_iff]
  simp

/-- A node that does not exist is skipped. -/
theorem copyNode_of_not_mem {state : Graph × List (NodeId × NodeId)} (h : id ∉ state.1.ids) :
    copyNode offset state id = state := by
  rw [mem_ids, Option.not_isSome_iff_eq_none] at h
  unfold copyNode
  dsimp only
  rw [h]
  split <;> rfl

/-- An id gets a copy if it exists and has none. -/
theorem keys_copyNode (offset : Position) (state : Graph × List (NodeId × NodeId)) (id : NodeId) :
    (copyNode offset state id).2.map Prod.fst =
      if id ∈ state.1.ids ∧ id ∉ state.2.map Prod.fst then state.2.map Prod.fst ++ [id]
      else state.2.map Prod.fst := by
  unfold copyNode
  dsimp only
  by_cases hcopied : id ∈ state.2.map Prod.fst
  · rw [if_pos (isSome_lookup_iff.2 hcopied), if_neg fun h => h.2 hcopied]
  · rw [if_neg fun h => hcopied (isSome_lookup_iff.1 h)]
    cases hn : state.1.node? id with
    | none =>
      rw [if_neg]
      rintro ⟨hid, -⟩
      rw [mem_ids, hn] at hid
      cases hid
    | some n =>
      rw [if_pos ⟨mem_ids_of_node? hn, hcopied⟩, List.map_append]
      rfl

theorem withCopies_append (g : Graph) (ids more : List NodeId) (offset : Position) :
    g.withCopies (ids ++ more) offset = more.foldl (copyNode offset) (g.withCopies ids offset) :=
  List.foldl_append

theorem Extends.withCopies (h : g.nextId ≤ maxId) (ids : List NodeId) (offset : Position) :
    g.Extends (g.withCopies ids offset).1 ((g.withCopies ids offset).2.map Prod.snd) := by
  obtain ⟨added, hadded, hext⟩ := Extends.copyNodes ids offset h []
  rw [List.nil_append] at hadded
  rwa [← hadded] at hext

/-- The ids that have copies. -/
def keys (g : Graph) (ids : List NodeId) (offset : Position) : List NodeId :=
  (g.withCopies ids offset).2.map Prod.fst

theorem keys_withCopies_concat (g : Graph) (ids : List NodeId) (id : NodeId) (offset : Position) :
    g.keys (ids ++ [id]) offset =
      if id ∈ (g.withCopies ids offset).1.ids ∧ id ∉ g.keys ids offset then
        g.keys ids offset ++ [id]
      else g.keys ids offset := by
  rw [keys, withCopies_append]
  exact keys_copyNode offset _ id

theorem nodup_keys (g : Graph) (ids : List NodeId) (offset : Position) :
    (g.keys ids offset).Nodup := by
  induction ids using List.reverseRecOn with
  | nil => exact List.nodup_nil
  | append_singleton ids id ih =>
    rw [keys_withCopies_concat]
    split
    · rename_i h
      rw [← List.concat_eq_append]
      exact ih.concat h.2
    · exact ih

theorem mem_of_mem_keys (h : id ∈ g.keys ids offset) : id ∈ ids := by
  induction ids using List.reverseRecOn with
  | nil => exact h
  | append_singleton ids last ih =>
    rw [keys_withCopies_concat] at h
    split at h
    · exact (List.mem_append.1 h).elim (fun h => List.mem_append_left _ (ih h))
        (List.mem_append_right _)
    · exact List.mem_append_left _ (ih h)

/-- Copies are not forgotten. -/
theorem mem_keys_append (h : id ∈ g.keys ids offset) (more : List NodeId) :
    id ∈ g.keys (ids ++ more) offset := by
  induction more using List.reverseRecOn with
  | nil => rwa [List.append_nil]
  | append_singleton more last ih =>
    rw [← List.append_assoc, keys_withCopies_concat]
    split
    · exact List.mem_append_left _ ih
    · exact ih

/-- An id that exists when its turn comes has a copy then. -/
theorem mem_keys_concat (h : id ∈ (g.withCopies ids offset).1.ids) :
    id ∈ g.keys (ids ++ [id]) offset := by
  rw [keys_withCopies_concat]
  by_cases hcopied : id ∈ g.keys ids offset
  · rwa [if_neg fun h => h.2 hcopied]
  · rw [if_pos ⟨h, hcopied⟩]
    exact List.mem_append_right _ (List.mem_singleton_self id)

/-- All ids that exist from the start get copies. -/
theorem mem_keys_of_mem_known (hmax : g.nextId ≤ maxId) (h : id ∈ g.known ids) :
    id ∈ g.keys ids offset := by
  obtain ⟨hmem, hid⟩ := List.mem_filter.1 h
  obtain ⟨before, after, rfl⟩ := List.append_of_mem hmem
  rw [← List.singleton_append, ← List.append_assoc]
  have hturn := (Extends.withCopies hmax before offset).mem_ids.2 (Or.inl (of_decide_eq_true hid))
  exact mem_keys_append (mem_keys_concat hturn) after

theorem length_known_le (hmax : g.nextId ≤ maxId) (ids : List NodeId) (offset : Position) :
    (g.known ids).eraseDups.length ≤ (g.keys ids offset).length :=
  ((nodup_eraseDups _).subperm fun _ hid =>
    mem_keys_of_mem_known hmax (List.mem_eraseDups.1 hid)).length_le

/-- Of ids that exist, each gets one copy. -/
theorem length_keys_known (hmax : g.nextId ≤ maxId) (ids : List NodeId) (offset : Position) :
    (g.keys (g.known ids) offset).length = (g.known ids).eraseDups.length := by
  have hle := length_known_le hmax (g.known ids) offset
  have hknown : g.known (g.known ids) = g.known ids := by
    simp [known, List.filter_filter]
  rw [hknown] at hle
  refine Nat.le_antisymm (((nodup_keys _ _ _).subperm fun _ hid => ?_).length_le) hle
  exact List.mem_eraseDups.2 (mem_of_mem_keys hid)

/-- The ids of the copies come from the counter. -/
theorem mem_ids_withCopies (hmax : g.nextId ≤ maxId) :
    id ∈ (g.withCopies ids offset).1.ids ↔
      id ∈ g.ids ∨ id ∈ allotted g.nextId (g.keys ids offset).length := by
  have hext := Extends.withCopies hmax ids offset
  have hnew := hext.new_eq
  rw [List.length_map] at hnew
  rw [hext.mem_ids, hnew, keys, List.length_map]

/-! ## Ids that do not exist -/

/-- The ids of a list that do not exist stay unknown until their turn: none of them is an id that the
copies of earlier ones get. -/
def StayUnknown (g : Graph) (ids : List NodeId) : Prop :=
  ∀ i (hi : i < ids.length), ids[i] ∉ g.ids →
    ids[i] ∉ allotted g.nextId (g.known (ids.take i)).eraseDups.length

instance (g : Graph) (ids : List NodeId) : Decidable (g.StayUnknown ids) :=
  inferInstanceAs (Decidable (∀ i (hi : i < ids.length), ids[i] ∉ g.ids →
    ids[i] ∉ allotted g.nextId (g.known (ids.take i)).eraseDups.length))

theorem known_take_succ {i : Nat} (hi : i < ids.length) :
    g.known (ids.take (i + 1)) =
      g.known (ids.take i) ++ if ids[i] ∈ g.ids then [ids[i]] else [] := by
  rw [List.take_succ_eq_append_getElem hi, known, List.filter_append]
  congr 1
  by_cases h : ids[i] ∈ g.ids <;> simp [h]

/-- Unknown ids are skipped, as long as none of them is the id of an earlier copy. -/
theorem withCopies_known (hmax : g.nextId ≤ maxId) (h : g.StayUnknown ids) :
    g.withCopies ids offset = g.withCopies (g.known ids) offset := by
  have hall : ∀ i ≤ ids.length,
      g.withCopies (ids.take i) offset = g.withCopies (g.known (ids.take i)) offset := by
    intro i
    induction i with
    | zero => exact fun _ => rfl
    | succ i ih =>
      intro hi
      rw [known_take_succ hi, List.take_succ_eq_append_getElem hi, withCopies_append,
        withCopies_append, ih (Nat.le_of_lt hi)]
      split
      · rfl
      · rename_i hid
        have hmem : ids[i] ∉ (g.withCopies (g.known (ids.take i)) offset).1.ids := by
          rw [mem_ids_withCopies hmax, length_keys_known hmax]
          exact not_or.2 ⟨hid, h i hi hid⟩
        exact copyNode_of_not_mem hmem
  have hids := hall ids.length (Nat.le_refl _)
  rwa [List.take_length] at hids

/-- An unknown id that is the id of an earlier copy is copied as well. -/
theorem length_keys_known_lt (hmax : g.nextId ≤ maxId) (offset : Position)
    (h : ¬g.StayUnknown ids) :
    (g.keys (g.known ids) offset).length < (g.keys ids offset).length := by
  unfold StayUnknown at h
  push Not at h
  obtain ⟨i, hi, hunknown, hallotted⟩ := h
  have hsplit : ids = (ids.take i ++ [ids[i]]) ++ ids.drop (i + 1) := by
    rw [← List.take_succ_eq_append_getElem hi, List.take_append_drop]
  have hcopied : ids[i] ∈ g.keys ids offset := by
    have hturn : ids[i] ∈ (g.withCopies (ids.take i) offset).1.ids := by
      obtain ⟨k, hk, he⟩ := mem_allotted.1 hallotted
      refine (mem_ids_withCopies hmax).2 (Or.inr (mem_allotted.2 ⟨k, ?_, he⟩))
      exact Nat.lt_of_lt_of_le hk (length_known_le hmax _ offset)
    have hlater := mem_keys_append (mem_keys_concat hturn) (ids.drop (i + 1))
    rwa [← hsplit] at hlater
  have hnodup : (ids[i] :: (g.known ids).eraseDups).Nodup := by
    refine List.nodup_cons.2 ⟨fun hmem => hunknown ?_, nodup_eraseDups _⟩
    exact of_decide_eq_true (List.mem_filter.1 (List.mem_eraseDups.1 hmem)).2
  have hsub : ids[i] :: (g.known ids).eraseDups ⊆ g.keys ids offset := by
    refine List.cons_subset.2 ⟨hcopied, fun _ hid => ?_⟩
    exact mem_keys_of_mem_known hmax (List.mem_eraseDups.1 hid)
  rw [length_keys_known hmax]
  exact (hnodup.subperm hsub).length_le

/-- The ids that do not exist make no difference to a duplication, unless one of them is the id that
the copy of an earlier id gets: then this copy is copied as well. -/
theorem Edited.duplicate_known_iff (h : g.Edited) (ids : List NodeId) (offset : Position) :
    g.duplicate ids offset = g.duplicate (g.known ids) offset ↔ g.StayUnknown ids := by
  have hlength : ∀ ids, (g.duplicate ids offset).2.length = (g.keys ids offset).length := by
    intro ids
    rw [duplicate_eq, List.length_map, keys, List.length_map]
  constructor
  · intro he
    by_contra hnot
    have hlt := length_keys_known_lt h.nextId_le offset hnot
    rw [← hlength, ← hlength, he] at hlt
    exact Nat.lt_irrefl _ hlt
  · intro hstay
    rw [duplicate_eq, duplicate_eq, replayed, replayed, withCopies_known h.nextId_le hstay]

/-- A graph with a single node. -/
def lone : Graph := (({} : Graph).createNode "LayerDense" default).1

theorem edited_lone : lone.Edited := .createNode _ _ (.empty Catalog.builtin)

/-- Node 0 has the copy 1, which is copied again if the list goes on with 1; the ids 2 and 1 in front
of it are skipped. -/
theorem duplicate_lone :
    lone.duplicate [0, 1] default ≠ lone.duplicate [0] default ∧
      lone.duplicate [2, 1, 0] default = lone.duplicate [0] default := by
  constructor
  · intro he
    exact absurd ((edited_lone.duplicate_known_iff [0, 1] default).1 he) (by decide +kernel)
  · exact (edited_lone.duplicate_known_iff [2, 1, 0] default).2 (by decide +kernel)

end LayerNet.Graph

import LayerNet.Graph.Search
import Mathlib.Logic.Relation

/-!
# Breadth-first search is exact

`Hops.Leads avoid a b` is what a search is about: a path of steps from `a` to `b` that enters none
of the ids in `avoid`.  What is proved here:

* `mem_explore` — a search lists exactly the ids to which such a path leads from its queue;
* `nodup_explore` — it lists each of them once;
* `meets_iff` — a search that stops at the first id with a property finds one exactly if such a
  path leads to one.

All three go along the turns of the search (`explore_induction`).  A turn that sees an id for the
first time gives up the paths through this id; `Leads.split` says what takes their place.
-/

namespace LayerNet.Hops

variable {h : Hops} {avoid seen queue : List NodeId} {a b c : NodeId}

/-! ## Paths -/

/-- A path leads from `a` to `b` without entering an id of `avoid`, not even at its ends. -/
def Leads (h : Hops) (avoid : List NodeId) (a b : NodeId) : Prop :=
  a ∉ avoid ∧ Relation.ReflTransGen (fun x y => y ∈ h.next x ∧ y ∉ avoid) a b

theorem Leads.refl (ha : a ∉ avoid) : h.Leads avoid a a := ⟨ha, .refl⟩

theorem Leads.tail (hab : h.Leads avoid a b) (hbc : c ∈ h.next b) (hc : c ∉ avoid) :
    h.Leads avoid a c := ⟨hab.1, hab.2.tail ⟨hbc, hc⟩⟩

theorem Leads.trans (hab : h.Leads avoid a b) (hbc : h.Leads avoid b c) : h.Leads avoid a c :=
  ⟨hab.1, hab.2.trans hbc.2⟩

theorem Leads.head (ha : a ∉ avoid) (hab : b ∈ h.next a) (hbc : h.Leads avoid b c) :
    h.Leads avoid a c := ((Leads.refl ha).tail hab hbc.1).trans hbc

/-- A path ends outside of the ids that it avoids. -/
theorem Leads.not_mem (hab : h.Leads avoid a b) : b ∉ avoid := by
  rcases hab.2.cases_tail with e | ⟨x, -, -, hb⟩
  · exact e ▸ hab.1
  · exact hb

/-- A path that avoids many ids avoids few of them. -/
theorem Leads.mono {fewer : List NodeId} (hsub : fewer ⊆ avoid) (hab : h.Leads avoid a b) :
    h.Leads fewer a b :=
  ⟨fun hm => hab.1 (hsub hm),
    Relation.ReflTransGen.mono (fun _ _ hxy => ⟨hxy.1, fun hm => hxy.2 (hsub hm)⟩) _ _ hab.2⟩

/-- Backward steps follow a path from its end. -/
theorem Leads.reverse {back : Hops} (hback : ∀ x y, y ∈ h.next x → x ∈ back.next y)
    (hab : h.Leads avoid a b) : back.Leads avoid b a := by
  obtain ⟨ha, hpath⟩ := hab
  induction hpath with
  | refl => exact .refl ha
  | tail _ hxy ih => exact .head hxy.2 (hback _ _ hxy.1) ih

theorem leads_reverse_iff {back : Hops} (hback : ∀ x y, y ∈ h.next x ↔ x ∈ back.next y) :
    back.Leads avoid b a ↔ h.Leads avoid a b :=
  ⟨.reverse fun x y => (hback y x).mpr, .reverse fun x y => (hback x y).mp⟩

/-- A path either avoids `c` as well, or ends there, or goes on from there for the last time. -/
theorem Leads.split (c : NodeId) (hab : h.Leads seen a b) :
    h.Leads (c :: seen) a b ∨ b = c ∨ ∃ d ∈ h.next c, h.Leads (c :: seen) d b := by
  obtain ⟨ha, hpath⟩ := hab
  induction hpath with
  | refl =>
    by_cases e : a = c
    · exact Or.inr (Or.inl e)
    · exact Or.inl (.refl (by simp [e, ha]))
  | @tail x y _ hxy ih =>
    by_cases e : y = c
    · exact Or.inr (Or.inl e)
    · have hy : y ∉ c :: seen := by simp [e, hxy.2]
      rcases ih with hx | rfl | ⟨d, hd, hx⟩
      · exact Or.inl (hx.tail hxy.1 hy)
      · exact Or.inr (Or.inr ⟨y, hxy.1, .refl hy⟩)
      · exact Or.inr (Or.inr ⟨d, hd, hx.tail hxy.1 hy⟩)

/-! ## The search -/

/-- To prove something of every search, prove it of the empty queue and carry it through one turn:
over an id that was seen before, and over one that was not. -/
theorem explore_induction {motive : List NodeId → List NodeId → Prop}
    (nil : ∀ seen, motive [] seen)
    (skip : ∀ id queue seen, id ∈ seen → motive queue seen → motive (id :: queue) seen)
    (visit : ∀ id queue seen, id ∉ seen → motive (queue ++ h.next id) (id :: seen) →
      motive (id :: queue) seen) (queue seen : List NodeId) : motive queue seen := by
  generalize hn : queue.length + h.load seen = n
  induction n using Nat.strongRecOn generalizing queue seen with
  | _ n ih =>
    cases queue with
    | nil => exact nil seen
    | cons id queue =>
      rw [List.length_cons] at hn
      by_cases hid : id ∈ seen
      · exact skip id queue seen hid (ih _ (by omega) queue seen rfl)
      · have hload := h.load_cons_add_le hid
        refine visit id queue seen hid (ih _ ?_ _ _ rfl)
        rw [List.length_append]
        omega

/-- A search lists exactly the ids to which a path leads from its queue. -/
theorem mem_explore : b ∈ h.explore queue seen ↔ ∃ a ∈ queue, h.Leads seen a b := by
  induction queue, seen using explore_induction (h := h) with
  | nil seen => simp
  | skip id queue seen hid ih =>
    rw [explore_cons, if_pos hid, ih]
    constructor
    · rintro ⟨a, ha, hab⟩
      exact ⟨a, List.mem_cons_of_mem _ ha, hab⟩
    · rintro ⟨a, ha, hab⟩
      rcases List.mem_cons.1 ha with rfl | ha
      · exact absurd hid hab.1
      · exact ⟨a, ha, hab⟩
  | visit id queue seen hid ih =>
    rw [explore_cons, if_neg hid, List.mem_cons, ih]
    constructor
    · rintro (rfl | ⟨a, ha, hab⟩)
      · exact ⟨b, List.mem_cons_self .., .refl hid⟩
      · have hab' := hab.mono (List.subset_cons_self id seen)
        rcases List.mem_append.1 ha with ha | ha
        · exact ⟨a, List.mem_cons_of_mem _ ha, hab'⟩
        · exact ⟨id, List.mem_cons_self .., .head hid ha hab'⟩
    · rintro ⟨a, ha, hab⟩
      rcases hab.split id with hab | rfl | ⟨d, hd, hdb⟩
      · rcases List.mem_cons.1 ha with rfl | ha
        · exact absurd (List.mem_cons_self ..) hab.1
        · exact Or.inr ⟨a, List.mem_append_left _ ha, hab⟩
      · exact Or.inl rfl
      · exact Or.inr ⟨d, List.mem_append_right _ hd, hdb⟩

/-- A search lists no id twice. -/
theorem nodup_explore (h : Hops) (queue seen : List NodeId) : (h.explore queue seen).Nodup := by
  induction queue, seen using explore_induction (h := h) with
  | nil seen => simp
  | skip id queue seen hid ih => rwa [explore_cons, if_pos hid]
  | visit id queue seen hid ih =>
    rw [explore_cons, if_neg hid, List.nodup_cons]
    refine ⟨fun hm => ?_, ih⟩
    obtain ⟨a, -, hab⟩ := mem_explore.1 hm
    exact hab.not_mem (List.mem_cons_self ..)

/-- A search that stops early looks at the ids that the full search lists. -/
theorem meets_eq_any {p : NodeId → Bool} (hseen : ∀ id ∈ seen, p id = false) :
    h.meets p queue seen = (h.explore queue seen).any p := by
  induction queue, seen using explore_induction (h := h) with
  | nil seen => simp
  | skip id queue seen hid ih =>
    rw [meets_cons, explore_cons, if_pos hid, if_pos hid, ih hseen, hseen id hid, Bool.false_or]
  | visit id queue seen hid ih =>
    rw [meets_cons, explore_cons, if_neg hid, if_neg hid, List.any_cons]
    cases hp : p id with
    | true => rfl
    | false => rw [ih (by simpa [hp] using hseen)]

/-- A search from one id that stops at the first id with a property finds one exactly if a path
leads to one. -/
theorem meets_iff {p : NodeId → Bool} :
    h.meets p [a] [] = true ↔ ∃ b, h.Leads [] a b ∧ p b = true := by
  rw [meets_eq_any (by simp), List.any_eq_true]
  simp [mem_explore]

end LayerNet.Hops

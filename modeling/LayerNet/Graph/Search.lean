import LayerNet.Port

/-!
# Breadth-first search

A search starts from a queue of ids and follows `Hops`, which say where each id leads in one step.
Ids are marked as seen when they leave the queue, so the queue may hold an id more than once.

A search ends because only finitely many ids lead anywhere: each turn takes one id from the queue,
and what a turn puts in is paid for by an id that was not seen before.  This bound (`Hops.load`) is
the fuel of the recursion; `explore_cons` and `meets_cons` are the equations of the search without
it.
-/

namespace LayerNet

/-- Where each id leads in one step.  Only the listed sources lead anywhere. -/
structure Hops where
  next : NodeId → List NodeId
  sources : List NodeId
  next_eq_nil : ∀ id, id ∉ sources → next id = []

namespace Hops

variable (h : Hops)

/-- How many steps lead away from ids that are not yet seen. -/
def load (seen : List NodeId) : Nat :=
  ((h.sources.filter fun id => id ∉ seen).flatMap h.next).length

/-- `explore` with a bound on the turns. -/
def exploreWithin : Nat → List NodeId → List NodeId → List NodeId
  | 0, _, _ => []
  | _ + 1, [], _ => []
  | turns + 1, id :: queue, seen =>
    if id ∈ seen then exploreWithin turns queue seen
    else id :: exploreWithin turns (queue ++ h.next id) (id :: seen)

/-- The ids that are reached from the queue without entering an id that was seen before, each once
and in the order in which they are found. -/
def explore (queue seen : List NodeId) : List NodeId :=
  h.exploreWithin (queue.length + h.load seen) queue seen

/-- `meets` with a bound on the turns. -/
def meetsWithin (p : NodeId → Bool) : Nat → List NodeId → List NodeId → Bool
  | 0, _, _ => false
  | _ + 1, [], _ => false
  | turns + 1, id :: queue, seen =>
    p id ||
      if id ∈ seen then meetsWithin p turns queue seen
      else meetsWithin p turns (queue ++ h.next id) (id :: seen)

/-- Whether an id with the property `p` comes up before the queue is empty. -/
def meets (p : NodeId → Bool) (queue seen : List NodeId) : Bool :=
  h.meetsWithin p (queue.length + h.load seen) queue seen

/-! ## The bound is large enough -/

theorem length_filter_add_le {f : NodeId → List NodeId} {l seen : List NodeId} {id : NodeId}
    (hid : id ∈ l) (hseen : id ∉ seen) :
    ((l.filter fun x => x ∉ id :: seen).flatMap f).length + (f id).length ≤
      ((l.filter fun x => x ∉ seen).flatMap f).length := by
  have mono : ∀ m : List NodeId, ((m.filter fun x => x ∉ id :: seen).flatMap f).length ≤
      ((m.filter fun x => x ∉ seen).flatMap f).length := by
    intro m
    induction m with
    | nil => simp
    | cons a m ih =>
      by_cases ha : a = id
      · subst ha
        simp only [List.mem_cons, true_or, not_true_eq_false, decide_false, Bool.false_eq_true,
          not_false_eq_true, List.filter_cons_of_neg, hseen, decide_true, List.filter_cons_of_pos,
          List.flatMap_cons, List.length_append]
        simp only [List.mem_cons] at ih
        omega
      · by_cases hs : a ∈ seen
        · simpa [ha, hs] using ih
        · simpa [ha, hs] using ih
  induction l with
  | nil => simp at hid
  | cons a l ih =>
    by_cases ha : a = id
    · subst ha
      have := mono l
      simp only [List.mem_cons, true_or, not_true_eq_false, decide_false, Bool.false_eq_true,
        not_false_eq_true, List.filter_cons_of_neg, hseen, decide_true, List.filter_cons_of_pos,
        List.flatMap_cons, List.length_append]
      simp only [List.mem_cons] at this
      omega
    · have hl : id ∈ l := by
        rcases List.mem_cons.1 hid with e | e
        · exact absurd e.symm ha
        · exact e
      have := ih hl
      by_cases hs : a ∈ seen
      · simpa [ha, hs] using this
      · simp only [List.mem_cons, ha, hs, or_self, not_false_eq_true, decide_true,
          List.filter_cons_of_pos, List.flatMap_cons, List.length_append]
        simp only [List.mem_cons] at this
        omega

/-- Seeing an id pays for the steps that lead away from it. -/
theorem load_cons_add_le {id : NodeId} {seen : List NodeId} (hseen : id ∉ seen) :
    h.load (id :: seen) + (h.next id).length ≤ h.load seen := by
  by_cases hid : id ∈ h.sources
  · exact length_filter_add_le hid hseen
  · have e : h.sources.filter (fun x => x ∉ id :: seen) = h.sources.filter fun x => x ∉ seen := by
      apply List.filter_congr
      intro x hx
      have : x ≠ id := fun e => hid (e ▸ hx)
      simp [this]
    rw [load, e, h.next_eq_nil id hid, load]
    exact Nat.le_refl _

/-- More turns than the bound change nothing. -/
theorem exploreWithin_eq {m n : Nat} {queue seen : List NodeId}
    (hm : queue.length + h.load seen ≤ m) (hn : queue.length + h.load seen ≤ n) :
    h.exploreWithin m queue seen = h.exploreWithin n queue seen := by
  induction m generalizing n queue seen with
  | zero =>
    cases queue with
    | nil => cases n <;> rfl
    | cons id queue => simp at hm
  | succ m ih =>
    cases queue with
    | nil => cases n <;> rfl
    | cons id queue =>
      cases n with
      | zero => simp at hn
      | succ n =>
        rw [List.length_cons] at hm hn
        rw [exploreWithin, exploreWithin]
        split
        · exact ih (by omega) (by omega)
        · rename_i hseen
          have := h.load_cons_add_le hseen
          have e := @ih n (queue ++ h.next id) (id :: seen) (by rw [List.length_append]; omega)
            (by rw [List.length_append]; omega)
          rw [e]

theorem meetsWithin_eq {p : NodeId → Bool} {m n : Nat} {queue seen : List NodeId}
    (hm : queue.length + h.load seen ≤ m) (hn : queue.length + h.load seen ≤ n) :
    h.meetsWithin p m queue seen = h.meetsWithin p n queue seen := by
  induction m generalizing n queue seen with
  | zero =>
    cases queue with
    | nil => cases n <;> rfl
    | cons id queue => simp at hm
  | succ m ih =>
    cases queue with
    | nil => cases n <;> rfl
    | cons id queue =>
      cases n with
      | zero => simp at hn
      | succ n =>
        rw [List.length_cons] at hm hn
        rw [meetsWithin, meetsWithin]
        split
        · rw [@ih n queue seen (by omega) (by omega)]
        · rename_i hseen
          have := h.load_cons_add_le hseen
          have e := @ih n (queue ++ h.next id) (id :: seen) (by rw [List.length_append]; omega)
            (by rw [List.length_append]; omega)
          rw [e]

/-! ## The equations of the search -/

@[simp] theorem explore_nil (seen : List NodeId) : h.explore [] seen = [] := by
  rw [explore]
  cases ([] : List NodeId).length + h.load seen <;> rfl

/-- An id that was seen before is skipped; any other is listed and its steps are followed. -/
theorem explore_cons (id : NodeId) (queue seen : List NodeId) :
    h.explore (id :: queue) seen =
      if id ∈ seen then h.explore queue seen
      else id :: h.explore (queue ++ h.next id) (id :: seen) := by
  rw [explore, List.length_cons, show queue.length + 1 + h.load seen =
    queue.length + h.load seen + 1 by omega, exploreWithin]
  split
  · rfl
  · rename_i hseen
    have := h.load_cons_add_le hseen
    rw [explore, exploreWithin_eq h (by rw [List.length_append]; omega) (Nat.le_refl _)]

@[simp] theorem meets_nil (p : NodeId → Bool) (seen : List NodeId) : h.meets p [] seen = false := by
  rw [meets]
  cases ([] : List NodeId).length + h.load seen <;> rfl

/-- The search ends at the first id with the property; otherwise it goes on like `explore`. -/
theorem meets_cons (p : NodeId → Bool) (id : NodeId) (queue seen : List NodeId) :
    h.meets p (id :: queue) seen =
      (p id || if id ∈ seen then h.meets p queue seen
        else h.meets p (queue ++ h.next id) (id :: seen)) := by
  rw [meets, List.length_cons, show queue.length + 1 + h.load seen =
    queue.length + h.load seen + 1 by omega, meetsWithin]
  split
  · rfl
  · rename_i hseen
    have := h.load_cons_add_le hseen
    rw [meets, meetsWithin_eq h (by rw [List.length_append]; omega) (Nat.le_refl _)]

end Hops

end LayerNet

/-!
# Entries kept in the order of their keys

Layer types by name, nodes by id and sets of names are all read back in the order of a key and
hold at most one entry for each key.  `Keyed key` is the list of such entries, strictly
increasing in `key`, so the order and the uniqueness of the keys are part of the type.

The operations are pinned down through `get?`: what an insertion or a removal changes is one key
(`get?_insert`, `get?_erase`), and two collections with the same entry at every key are equal
(`ext_get?`).
-/

namespace LayerNet

/-- A list of entries, strictly increasing in their keys. -/
structure Keyed {α κ : Type} [LT κ] (key : α → κ) where
  /-- The entries in the order of their keys. -/
  toList : List α
  /-- Each entry has a smaller key than all entries behind it. -/
  sorted : toList.Pairwise fun a b => key a < key b

namespace Keyed

variable {α κ : Type} [LT κ] {key : α → κ}

/-- No entries. -/
def empty : Keyed key := ⟨[], List.Pairwise.nil⟩

instance : Inhabited (Keyed key) := ⟨empty⟩

instance [DecidableEq α] : DecidableEq (Keyed key) := fun a b =>
  decidable_of_iff (a.toList = b.toList)
    ⟨fun h => by cases a; cases b; cases h; rfl, fun h => by rw [h]⟩

/-- The keys, in increasing order. -/
def keys (t : Keyed key) : List κ := t.toList.map key

/-- How many entries there are. -/
def size (t : Keyed key) : Nat := t.toList.length

/-- Whether there are none. -/
def isEmpty (t : Keyed key) : Bool := t.toList.isEmpty

section Lookup

variable [DecidableEq κ]

/-- The entry with the key `k`. -/
def get? (t : Keyed key) (k : κ) : Option α := t.toList.find? fun a => key a = k

/-- Whether an entry has the key `k`. -/
def contains (t : Keyed key) (k : κ) : Bool := (t.get? k).isSome

/-- All entries but the one with the key `k`. -/
def erase (t : Keyed key) (k : κ) : Keyed key :=
  ⟨t.toList.filter fun a => key a ≠ k, t.sorted.filter _⟩

/-- The entry found under a key has this key. -/
theorem key_of_get? {t : Keyed key} {k : κ} {a : α} (h : t.get? k = some a) : key a = k := by
  simpa using List.find?_some h

/-- The entry found under a key is one of the entries. -/
theorem mem_of_get? {t : Keyed key} {k : κ} {a : α} (h : t.get? k = some a) : a ∈ t.toList :=
  List.mem_of_find?_eq_some h

end Lookup

/-- Every entry changed by `f`, which leaves the keys alone. -/
def map (f : α → α) (h : ∀ a, key (f a) = key a) (t : Keyed key) : Keyed key :=
  ⟨t.toList.map f, by simpa [List.pairwise_map, h] using t.sorted⟩

/-- A change that leaves the keys alone is seen under every key. -/
theorem get?_map [DecidableEq κ] (f : α → α) (h : ∀ a, key (f a) = key a) (t : Keyed key) (k : κ) :
    (t.map f h).get? k = (t.get? k).map f := by
  simp only [get?, map, List.find?_map]
  congr 2
  funext a
  simp [h]

/-! ## Insertion -/

/-- `x` put into a list in key order; an entry with the same key gives way. -/
def place [DecidableLT κ] (key : α → κ) (x : α) : List α → List α
  | [] => [x]
  | y :: rest =>
    if key x < key y then x :: y :: rest
    else if key y < key x then y :: place key x rest
    else x :: rest

theorem mem_place [DecidableLT κ] {x a : α} {l : List α} (h : a ∈ place key x l) :
    a = x ∨ a ∈ l := by
  induction l with
  | nil => simpa [place] using h
  | cons y rest ih =>
    rw [place] at h
    split at h
    · simpa using h
    · split at h
      · rcases List.mem_cons.1 h with h | h
        · simp [h]
        · rcases ih h with h | h <;> simp [h]
      · rcases List.mem_cons.1 h with h | h <;> simp [h]

/-- Of two keys one is smaller, or they are the same. -/
theorem key_eq_of_not_lt [LE κ] [Std.IsLinearOrder κ] [Std.LawfulOrderLT κ] {a b : κ}
    (h : ¬a < b) (h' : ¬b < a) : a = b :=
  Std.le_antisymm (Std.not_lt.1 h') (Std.not_lt.1 h)

section Insert

variable [LE κ] [DecidableLT κ] [Std.IsLinearOrder κ] [Std.LawfulOrderLT κ]

theorem pairwise_place {x : α} {l : List α} (h : l.Pairwise fun a b => key a < key b) :
    (place key x l).Pairwise fun a b => key a < key b := by
  induction l with
  | nil => simp [place]
  | cons y rest ih =>
    obtain ⟨hy, hrest⟩ := List.pairwise_cons.1 h
    rw [place]
    split
    · rename_i hxy
      refine List.pairwise_cons.2 ⟨fun a ha => ?_, h⟩
      rcases List.mem_cons.1 ha with rfl | ha
      · exact hxy
      · exact Std.lt_trans hxy (hy a ha)
    · split
      · rename_i hyx
        refine List.pairwise_cons.2 ⟨fun a ha => ?_, ih hrest⟩
        rcases mem_place ha with rfl | ha
        · exact hyx
        · exact hy a ha
      · rename_i hxy hyx
        refine List.pairwise_cons.2 ⟨fun a ha => ?_, hrest⟩
        rw [key_eq_of_not_lt hxy hyx]
        exact hy a ha

/-- `x` added; an entry with the same key is replaced. -/
def insert (x : α) (t : Keyed key) : Keyed key := ⟨place key x t.toList, pairwise_place t.sorted⟩

/-- The entries of a list; of two with the same key the later one stays. -/
def ofList (l : List α) : Keyed key := l.foldl (fun t x => t.insert x) empty

end Insert

/-! ## What the operations change -/

section Laws

variable [DecidableEq κ]

/-- Removal empties one key and leaves the others alone. -/
theorem get?_erase (t : Keyed key) (k j : κ) :
    (t.erase k).get? j = if j = k then none else t.get? j := by
  simp only [get?, erase, List.find?_filter]
  split
  · rename_i h
    subst h
    simp
  · rename_i h
    congr 1
    funext a
    by_cases ha : key a = j <;> simp [ha, h]

variable [LE κ] [Std.IsLinearOrder κ] [Std.LawfulOrderLT κ]

theorem find?_place [DecidableLT κ] (x : α) (l : List α) (j : κ) :
    (place key x l).find? (fun a => key a = j) =
      if j = key x then some x else l.find? fun a => key a = j := by
  induction l with
  | nil => by_cases h : j = key x <;> simp [place, h, Ne.symm]
  | cons y rest ih =>
    rw [place]
    by_cases h : j = key x
    · subst h
      split
      · simp
      · split
        · rename_i hyx
          have hne : key y ≠ key x := fun e => Std.lt_irrefl (e ▸ hyx)
          simp [hne, ih]
        · simp
    · have hx : key x ≠ j := Ne.symm h
      split
      · simp [hx]
      · split
        · simp [List.find?_cons, ih, h]
        · rename_i hxy hyx
          have hy : key y ≠ j := key_eq_of_not_lt hxy hyx ▸ hx
          simp [hx, hy]

/-- Insertion sets one key and leaves the others alone. -/
theorem get?_insert [DecidableLT κ] (x : α) (t : Keyed key) (j : κ) :
    (t.insert x).get? j = if j = key x then some x else t.get? j :=
  find?_place x t.toList j

omit [Std.IsLinearOrder κ] in
/-- Every entry is found under its own key. -/
theorem get?_eq_some_iff {t : Keyed key} {k : κ} {a : α} :
    t.get? k = some a ↔ a ∈ t.toList ∧ key a = k := by
  refine ⟨fun h => ⟨mem_of_get? h, key_of_get? h⟩, fun ⟨ha, hk⟩ => ?_⟩
  subst hk
  obtain ⟨l, hl⟩ := t
  simp only [get?] at ha ⊢
  induction l with
  | nil => simp at ha
  | cons b l ih =>
    obtain ⟨hb, hl⟩ := List.pairwise_cons.1 hl
    rcases List.mem_cons.1 ha with rfl | ha
    · simp
    · have hne : key b ≠ key a := fun e => Std.lt_irrefl (e ▸ hb a ha)
      rw [List.find?_cons_of_neg (by simpa using hne)]
      exact ih hl ha ⟨ha, rfl⟩

omit [DecidableEq κ] in
/-- Two strictly increasing lists with the same members are the same list. -/
theorem eq_of_mem_iff {l m : List α} (hl : l.Pairwise fun a b => key a < key b)
    (hm : m.Pairwise fun a b => key a < key b) (h : ∀ a, a ∈ l ↔ a ∈ m) : l = m := by
  induction l generalizing m with
  | nil => cases m with
    | nil => rfl
    | cons b m => exact absurd ((h b).2 (by simp)) (by simp)
  | cons a l ih => cases m with
    | nil => exact absurd ((h a).1 (by simp)) (by simp)
    | cons b m =>
      obtain ⟨ha, hl'⟩ := List.pairwise_cons.1 hl
      obtain ⟨hb, hm'⟩ := List.pairwise_cons.1 hm
      have hab : a = b := by
        rcases List.mem_cons.1 ((h a).1 (by simp)) with e | hal
        · exact e
        · rcases List.mem_cons.1 ((h b).2 (by simp)) with e | hbl
          · exact e.symm
          · exact absurd (Std.lt_trans (ha b hbl) (hb a hal)) Std.lt_irrefl
      subst hab
      refine congrArg (a :: ·) (ih hl' hm' fun c => ⟨fun hc => ?_, fun hc => ?_⟩)
      · rcases List.mem_cons.1 ((h c).1 (by simp [hc])) with rfl | hc'
        · exact absurd (ha _ hc) Std.lt_irrefl
        · exact hc'
      · rcases List.mem_cons.1 ((h c).2 (by simp [hc])) with rfl | hc'
        · exact absurd (hb _ hc) Std.lt_irrefl
        · exact hc'

/-- Two collections with the same entry at every key are equal. -/
theorem ext_get? {s t : Keyed key} (h : ∀ k, s.get? k = t.get? k) : s = t := by
  have hlist : s.toList = t.toList := by
    refine eq_of_mem_iff s.sorted t.sorted fun a => ⟨fun ha => ?_, fun ha => ?_⟩
    · exact mem_of_get? ((h (key a)).symm.trans (get?_eq_some_iff.2 ⟨ha, rfl⟩))
    · exact mem_of_get? ((h (key a)).trans (get?_eq_some_iff.2 ⟨ha, rfl⟩))
  cases s
  cases t
  cases hlist
  rfl

end Laws

end Keyed

/-- A set of names, read in the order of their code points. -/
abbrev NameSet := @Keyed String String _ id

end LayerNet

import LayerNet.CompilerConfig
import LayerNet.Engine.Capabilities
import LayerNet.Proofs.Storing

/-!
# What is kept without fractions

The capabilities of an engine, reports and configurations hold texts, names and ids, but no numbers
of 32 bits.  So there is nothing that a numeral could round, and what is written is read back as it
was, whatever characters its texts have; a reduction that only the engine knows stays one even if it
is called `sum`.

* Names and texts are kept in the order of their keys.  A list in this order gives back the
  collection that it is the list of (`Keyed.ofList_toList`).
* Each value is read off what it was written as (`ofJson?_toJson`), field by field.
* The compact text stands for what was written (`Json.Legible.parse?_compact`).
-/

namespace LayerNet

/-! ## Collections and their lists -/

namespace Keyed

variable {α κ : Type} [LT κ] {key : α → κ}

theorem eq_of_toList_eq {s t : Keyed key} (h : s.toList = t.toList) : s = t := by
  cases s
  cases t
  cases h
  rfl

variable [LE κ] [DecidableLT κ] [Std.IsLinearOrder κ] [Std.LawfulOrderLT κ]

/-- An entry behind all others. -/
theorem place_of_forall_lt {x : α} {l : List α} (h : ∀ y ∈ l, key y < key x) :
    place key x l = l ++ [x] := by
  induction l with
  | nil => rfl
  | cons y l ih =>
    rw [List.forall_mem_cons] at h
    have hxy : ¬key x < key y := fun hxy => Std.lt_irrefl (Std.lt_trans hxy h.1)
    rw [place, if_neg hxy, if_pos h.1, ih h.2, List.cons_append]

/-- A list in the order of its keys stays as it is. -/
theorem toList_ofList {l : List α} (h : l.Pairwise fun a b => key a < key b) :
    (ofList l : Keyed key).toList = l := by
  induction l using List.reverseRecOn with
  | nil => rfl
  | append_singleton l x ih =>
    obtain ⟨hl, -, hx⟩ := List.pairwise_append.mp h
    have hinsert : (ofList (l ++ [x]) : Keyed key).toList =
        place key x (ofList l : Keyed key).toList := by
      rw [ofList, List.foldl_append]
      rfl
    rw [hinsert, ih hl, place_of_forall_lt fun y hy => hx y hy x List.mem_cons_self]

theorem ofList_toList (t : Keyed key) : ofList t.toList = t :=
  eq_of_toList_eq (toList_ofList t.sorted)

end Keyed

/-! ## Values that may be null -/

namespace Json

variable {α : Type} {f : α → Json} {value? : Json → Option α}

theorem Fields.Has.nullable? {fields : Fields} {name : String} {v : Json} (h : fields.Has name v) :
    fields.nullable? name value? = Json.nullable? value? v := by
  rw [Fields.nullable?, h]

theorem nullable?_ofOption_ofNat {o : Option Nat}
    (h : ∀ n, o = some n → n ≤ Nat.pow 2 64 - 1) :
    nullable? word64? (ofOption ofNat o) = some o := by
  cases o with
  | none => rfl
  | some n =>
    have hread : nullable? word64? (ofNat n) = (word64? (ofNat n)).map some := rfl
    rw [ofOption, hread, word64?_ofNat (h n rfl), Option.map_some]

theorem legible_ofOption (h : ∀ a, Legible (f a)) (o : Option α) : Legible (ofOption f o) := by
  cases o with
  | none => exact .null
  | some a => exact h a

/-- A value that is legible and read as itself is kept by its compact text. -/
theorem Legible.decode?_compact {v : Json} (hlegible : Legible v) {a : α} (h : value? v = some a) :
    decode? value? v.compact = some a := by
  rw [decode?, hlegible.parse?_compact, Option.bind_some, h]

end Json

open Json

/-! ## Capabilities -/

namespace Capabilities

theorem names?_namesJson (names : NameSet) : names? (namesJson names) = some names := by
  rw [names?, namesJson, list?_ofList_self fun name _ => string?_ofString name, Option.map_some,
    Keyed.ofList_toList]

theorem usage?_record (usage : Keyed (Prod.fst : String × String → String)) :
    usage? (record (usage.toList.map fun entry => (entry.1, ofString entry.2))) = some usage := by
  have hentries : (usage.toList.map fun entry => (entry.1, ofString entry.2)).mapM
      (fun m => m.2.string?.map fun text => (m.1, text)) = some usage.toList := by
    induction usage.toList with
    | nil => rfl
    | cons entry entries ih => simp [ih]
  rw [usage?, bind_of_eq_some (members?_record _), bind_of_eq_some hentries, Keyed.ofList_toList]
  rfl

theorem ofJson?_toJson (c : Capabilities) : ofJson? c.toJson = some c := by
  rw [ofJson?, toJson]
  refine bind_fields?_record (by simp [fieldNames]) (by simp) fun fields hfields => ?_
  have hfields := hfields.has
  simp only [List.forall_mem_cons] at hfields
  obtain ⟨layerTypes, activations, initializers, reductions, losses, optimizers, regularizers,
    usage, -⟩ := hfields
  rw [bind_of_eq_some (layerTypes.default?.trans (names?_namesJson _)),
    bind_of_eq_some (activations.default?.trans (names?_namesJson _)),
    bind_of_eq_some (initializers.default?.trans (names?_namesJson _)),
    bind_of_eq_some (reductions.default?.trans (names?_namesJson _)),
    bind_of_eq_some (losses.default?.trans (names?_namesJson _)),
    bind_of_eq_some (optimizers.default?.trans (names?_namesJson _)),
    bind_of_eq_some (regularizers.default?.trans (names?_namesJson _)),
    bind_of_eq_some (usage.default?.trans (usage?_record _))]
  rfl

theorem legible_namesJson (names : NameSet) : (namesJson names).Legible :=
  legible_ofList legible_ofString _

theorem legible_toJson (c : Capabilities) : c.toJson.Legible := by
  have husage : (record (c.usage.toList.map fun entry => (entry.1, ofString entry.2))).Legible := by
    refine legible_record fun m hm => ?_
    obtain ⟨entry, -, rfl⟩ := List.mem_map.mp hm
    exact legible_ofString entry.2
  exact legible_record (by simp [legible_namesJson, husage])

end Capabilities

/-! ## Reports -/

namespace Severity

theorem ofJson?_toJson (s : Severity) : ofJson? s.toJson = some s := by
  cases s <;> simp [ofJson?, toJson, name, ofString, tagged?]

end Severity

/-- The id of the node has 64 bits. -/
def Diagnostic.Sized (d : Diagnostic) : Prop := ∀ id, d.node = some id → id ≤ maxId

namespace Diagnostic

theorem ofJson?_toJson {d : Diagnostic} (h : d.Sized) : ofJson? d.toJson = some d := by
  rw [ofJson?, toJson]
  refine bind_fields?_record (by simp) (by simp) fun fields hfields => ?_
  have hfields := hfields.has
  simp only [List.forall_mem_cons] at hfields
  obtain ⟨severity, message, node, -⟩ := hfields
  rw [bind_of_eq_some (severity.required?.trans (Severity.ofJson?_toJson _)),
    bind_of_eq_some (message.required?.trans (string?_ofString _)),
    bind_of_eq_some (node.nullable?.trans (nullable?_ofOption_ofNat h))]
  rfl

theorem legible_toJson (d : Diagnostic) : d.toJson.Legible :=
  legible_record (by
    simp [Severity.toJson, legible_ofString, legible_ofOption legible_ofNat])

end Diagnostic

namespace Report

theorem ofJson?_toJson {r : Report} (h : ∀ d ∈ r.diagnostics, d.Sized) :
    ofJson? r.toJson = some r := by
  have hdiagnostics := list?_ofList_self fun d hd => Diagnostic.ofJson?_toJson (h d hd)
  rw [ofJson?, toJson]
  refine bind_fields?_record (by simp) (by simp) fun fields hfields => ?_
  have hfields := hfields.has
  simp only [List.forall_mem_cons] at hfields
  rw [bind_of_eq_some (hfields.1.required?.trans hdiagnostics)]
  rfl

theorem legible_toJson (r : Report) : r.toJson.Legible :=
  legible_record (by simp [legible_ofList Diagnostic.legible_toJson])

end Report

/-! ## Configurations -/

namespace Reduction

/-- The name of a reduction that only the engine knows stands in an object, so it is never taken for
another reduction. -/
theorem ofJson?_toJson (r : Reduction) : ofJson? r.toJson = some r := by
  cases r <;> simp [ofJson?, toJson, ofString, record, tagged?, string?]

theorem legible_toJson (r : Reduction) : r.toJson.Legible := by
  cases r with
  | named name => exact legible_record (by simp [legible_ofString])
  | _ => exact legible_ofString _

end Reduction

namespace CompilerConfig

theorem ofJson?_toJson (c : CompilerConfig) : ofJson? c.toJson = some c := by
  rw [ofJson?, toJson]
  refine bind_fields?_record (by simp) (by simp) fun fields hfields => ?_
  have hfields := hfields.has
  simp only [List.forall_mem_cons] at hfields
  rw [bind_of_eq_some (hfields.1.default?.trans (Reduction.ofJson?_toJson _))]
  rfl

theorem legible_toJson (c : CompilerConfig) : c.toJson.Legible :=
  legible_record (by simp [Reduction.legible_toJson])

end CompilerConfig

/-! ## Texts -/

/-- Capabilities, reports and configurations are read back from their compact texts as they were. -/
theorem decode?_compact_toJson (c : Capabilities) (r : Report) (config : CompilerConfig)
    (hnodes : ∀ d ∈ r.diagnostics, d.Sized) :
    Capabilities.parse? c.toJson.compact = some c ∧
      Json.decode? Report.ofJson? r.toJson.compact = some r ∧
      CompilerConfig.parse? config.toJson.compact = some config :=
  ⟨c.legible_toJson.decode?_compact c.ofJson?_toJson,
    r.legible_toJson.decode?_compact (Report.ofJson?_toJson hnodes),
    config.legible_toJson.decode?_compact config.ofJson?_toJson⟩

/-- Capabilities whose names and texts have quotes, backslashes and control characters. -/
def awkwardCapabilities : Capabilities where
  layerTypes := Keyed.ofList ["Layer\"Dense\"", "Layer\\Dense", "\x00\x1f\n", ""]
  reductions := Keyed.ofList ["sum", "named"]
  usage := Keyed.ofList [("\x08\x0c", "a\nb;c\n\t"), ("😀", "\u007f/"), ("", "\\u0041")]

/-- A report of two findings, one about the node with the greatest id. -/
def awkwardReport : Report := ⟨[.error "\"\x01\\" (some maxId), .warning "\u2028" none]⟩

theorem decode?_compact_awkward :
    (∀ d ∈ awkwardReport.diagnostics, d.Sized) ∧
      Capabilities.parse? awkwardCapabilities.toJson.compact = some awkwardCapabilities ∧
      Json.decode? Report.ofJson? awkwardReport.toJson.compact = some awkwardReport ∧
      CompilerConfig.parse? (CompilerConfig.toJson ⟨.named "sum"⟩).compact =
        some ⟨.named "sum"⟩ := by
  have hnodes : ∀ d ∈ awkwardReport.diagnostics, d.Sized := by
    simp [awkwardReport, Diagnostic.error, Diagnostic.warning, Diagnostic.Sized]
  exact ⟨hnodes, decode?_compact_toJson awkwardCapabilities awkwardReport ⟨.named "sum"⟩ hnodes⟩

end LayerNet

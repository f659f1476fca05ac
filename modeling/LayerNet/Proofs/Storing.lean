import LayerNet.Document
import LayerNet.Proofs.Magnitude

/-!
# Saving a document that was opened

A document that was read from a text can be written again, and the text that is written is JSON.
Whether *this* text is read as a document depends on the numbers alone: a numeral beyond the range
of 32 bits is read as an infinite number, which is written as null, which is not read as a number.
Otherwise everything but the numbers is read back as it was (`Document.parse?_text`); numbers are
read back from their numerals (`Single.reread`).

* A reader *yields* values with a property if all its results have it (`Json.Yields`); the
  integers of whatever is read fit into their words (`Document.Sized`).
* What a writer writes is read field by field (`Json.bind_fields?_record`), each record as itself
  with its numbers reread.
* By `Json.Legible` the text stands for the value that was written.
-/

namespace LayerNet

/-! ## What readers yield -/

namespace Json

variable {α : Type}

/-- All results of a reader have a property. -/
def Yields (value? : Json → Option α) (P : α → Prop) : Prop :=
  ∀ v a, value? v = some a → P a

theorem yields_natural? (limit : Nat) : Yields (natural? limit) (· ≤ limit) := by
  intro v n h
  cases v with
  | number k =>
    simp only [natural?, Option.ite_none_right_eq_some, Option.some.injEq] at h
    obtain ⟨hk, rfl⟩ := h
    simp only [Bool.and_eq_true, decide_eq_true_eq] at hk
    exact hk.2
  | _ => exact nomatch h

theorem yields_word64? : Yields word64? (· ≤ Nat.pow 2 64 - 1) :=
  yields_natural? _

theorem yields_word32? : Yields word32? (· ≤ Nat.pow 2 32 - 1) :=
  yields_natural? _

variable {value? : Json → Option α} {P : α → Prop}

theorem Yields.list? (h : Yields value? P) : Yields (list? value?) fun l => ∀ a ∈ l, P a := by
  intro v l hl
  cases v with
  | array items =>
    simp only [Json.list?] at hl
    induction items generalizing l with
    | nil =>
      obtain rfl : l = [] := by simpa using hl.symm
      simp
    | cons item items ih =>
      simp only [List.mapM_cons, Option.bind_eq_bind, Option.bind_eq_some_iff, Option.pure_def,
        Option.some.injEq] at hl
      obtain ⟨a, ha, rest, hrest, rfl⟩ := hl
      simpa using ⟨h item a ha, ih rest hrest⟩
  | _ => exact nomatch hl

theorem Yields.nullable? (h : Yields value? P) :
    Yields (nullable? value?) fun o => ∀ a, o = some a → P a := by
  intro v o ho a ha
  subst ha
  unfold Json.nullable? at ho
  split at ho
  case h_1 => exact nomatch ho
  case h_2 => exact h _ a (by simpa using ho)

theorem Yields.required? (h : Yields value? P) {fields : Fields} {name : String} {a : α}
    (ha : fields.required? name value? = some a) : P a := by
  obtain ⟨v, -, hv⟩ := Option.bind_eq_some_iff.mp ha
  exact h v a hv

theorem Yields.default? (h : Yields value? P) {default : α} (hdefault : P default)
    {fields : Fields} {name : String} {a : α}
    (ha : fields.default? name value? default = some a) : P a := by
  unfold Fields.default? at ha
  split at ha
  case h_1 => exact Option.some.inj ha ▸ hdefault
  case h_2 => exact h _ a ha

end Json

/-! ## Integers of documents -/

/-- The numbers of epochs and of rows have 32 bits. -/
def TrainSettings.Sized (s : TrainSettings) : Prop :=
  s.epochs ≤ Nat.pow 2 32 - 1 ∧ s.batchSize ≤ Nat.pow 2 32 - 1 ∧
    s.validationBatchSize ≤ Nat.pow 2 32 - 1

namespace Document

/-- The id has 64 bits. -/
def NodeRecord.Sized (r : NodeRecord) : Prop := r.id ≤ Nat.pow 2 64 - 1

/-- The place of the node and the number of an auxiliary port have 64 bits. -/
def Endpoint.Sized (e : Endpoint) : Prop :=
  e.node ≤ Nat.pow 2 64 - 1 ∧ ∀ index, e.slot = .aux index → index ≤ Nat.pow 2 64 - 1

/-- All integers of a document fit into their words. -/
structure Sized (d : Document) : Prop where
  nodes : ∀ r ∈ d.nodes, r.Sized
  sources : ∀ c ∈ d.connections, c.source.Sized
  targets : ∀ c ∈ d.connections, c.target.Sized
  trainSettings : ∀ s, d.trainSettings = some s → s.Sized

theorem yields_slot? : Json.Yields slot? fun slot =>
    ∀ index, slot = .aux index → index ≤ Nat.pow 2 64 - 1 := by
  intro v slot h index hindex
  subst hindex
  unfold slot? at h
  split at h
  case h_3 value _ =>
    obtain ⟨k, hk, hslot⟩ := Option.map_eq_some_iff.mp h
    exact Slot.aux.inj hslot ▸ Json.yields_word64? value k hk
  all_goals exact nomatch h

theorem yields_endpoint : Json.Yields Endpoint.ofJson? Endpoint.Sized := by
  intro v e h
  obtain ⟨fields, -, h⟩ := Option.bind_eq_some_iff.mp h
  obtain ⟨node, hnode, h⟩ := Option.bind_eq_some_iff.mp h
  obtain ⟨slot, hslot, h⟩ := Option.bind_eq_some_iff.mp h
  obtain rfl := Option.some.inj h
  exact ⟨Json.yields_word64?.required? hnode, yields_slot?.required? hslot⟩

theorem yields_connection : Json.Yields Connection.ofJson? fun c =>
    c.source.Sized ∧ c.target.Sized := by
  intro v c h
  obtain ⟨fields, -, h⟩ := Option.bind_eq_some_iff.mp h
  obtain ⟨source, hsource, h⟩ := Option.bind_eq_some_iff.mp h
  obtain ⟨target, htarget, h⟩ := Option.bind_eq_some_iff.mp h
  obtain rfl := Option.some.inj h
  exact ⟨yields_endpoint.required? hsource, yields_endpoint.required? htarget⟩

theorem yields_nodeRecord : Json.Yields NodeRecord.ofJson? NodeRecord.Sized := by
  intro v r h
  obtain ⟨fields, -, h⟩ := Option.bind_eq_some_iff.mp h
  obtain ⟨id, hid, h⟩ := Option.bind_eq_some_iff.mp h
  iterate 5 obtain ⟨_, -, h⟩ := Option.bind_eq_some_iff.mp h
  obtain rfl := Option.some.inj h
  exact Json.yields_word64?.required? hid

theorem yields_trainSettings : Json.Yields TrainSettings.ofJson? TrainSettings.Sized := by
  intro v s h
  obtain ⟨fields, -, h⟩ := Option.bind_eq_some_iff.mp h
  obtain ⟨epochs, hepochs, h⟩ := Option.bind_eq_some_iff.mp h
  obtain ⟨batchSize, hbatchSize, h⟩ := Option.bind_eq_some_iff.mp h
  iterate 10 obtain ⟨_, -, h⟩ := Option.bind_eq_some_iff.mp h
  obtain ⟨validationBatchSize, hvalidation, h⟩ := Option.bind_eq_some_iff.mp h
  obtain rfl := Option.some.inj h
  exact ⟨Json.yields_word32?.default? (by decide) hepochs,
    Json.yields_word32?.default? (by decide) hbatchSize,
    Json.yields_word32?.default? (by decide) hvalidation⟩

/-- The integers of a document that was read fit into their words. -/
theorem yields_document : Json.Yields ofJson? Sized := by
  intro v d h
  obtain ⟨fields, -, h⟩ := Option.bind_eq_some_iff.mp h
  iterate 2 obtain ⟨_, -, h⟩ := Option.bind_eq_some_iff.mp h
  obtain ⟨nodes, hnodes, h⟩ := Option.bind_eq_some_iff.mp h
  obtain ⟨connections, hconnections, h⟩ := Option.bind_eq_some_iff.mp h
  obtain ⟨settings, hsettings, h⟩ := Option.bind_eq_some_iff.mp h
  obtain rfl := Option.some.inj h
  have hends := yields_connection.list?.required? hconnections
  exact {
    nodes := yields_nodeRecord.list?.required? hnodes
    sources := fun c hc => (hends c hc).1
    targets := fun c hc => (hends c hc).2
    trainSettings := yields_trainSettings.nullable?.default? (by simp) hsettings }

end Document

/-! ## Reading what was written -/

namespace Json

@[simp]
theorem string?_ofString (s : String) : (ofString s).string? = some s := by
  simp [string?, ofString]

theorem natural?_ofNat {limit n : Nat} (h : n ≤ limit) : (ofNat n).natural? limit = some n := by
  simp [natural?, ofNat, h]

theorem word64?_ofNat {n : Nat} (h : n ≤ Nat.pow 2 64 - 1) : (ofNat n).word64? = some n :=
  natural?_ofNat h

theorem word32?_ofNat {n : Nat} (h : n ≤ Nat.pow 2 32 - 1) : (ofNat n).word32? = some n :=
  natural?_ofNat h

theorem bool?_bool (b : Bool) : (Json.bool b).bool? = some b := rfl

theorem members?_record (members : List (String × Json)) :
    (record members).members? = some members := by
  rw [record, members?]
  induction members with
  | nil => rfl
  | cons m members ih => simp [ih]

/-- A field is given with a value. -/
def Fields.Has (fields : Fields) (name : String) (v : Json) : Prop :=
  fields.values.lookup name = some v

/-- A field is left out. -/
def Fields.Lacks (fields : Fields) (name : String) : Prop := fields.values.lookup name = none

/-- Fields are those of a record. -/
structure Fields.Of (fields : Fields) (members : List (String × Json)) : Prop where
  has : ∀ m ∈ members, fields.Has m.1 m.2
  lacks : ∀ name, name ∉ members.map Prod.fst → fields.Lacks name

/-- A record is read off its fields. -/
theorem bind_fields?_record {β : Type} {names : List String} {members : List (String × Json)}
    {read : Fields → Option β} {result : Option β} (hknown : ∀ m ∈ members, m.1 ∈ names)
    (hnodup : (members.map Prod.fst).Nodup)
    (h : ∀ fields : Fields, fields.Of members → read fields = result) :
    ((record members).fields? names >>= read) = result := by
  have hfilter : (members.filter fun m => m.1 ∈ names) = members :=
    List.filter_eq_self.mpr fun m hm => decide_eq_true (hknown m hm)
  have hfields : (record members).fields? names = some ⟨false, members⟩ := by
    rw [fields?]
    · simp [members?_record, hfilter, hnodup]
    · simp [record]
  rw [hfields]
  refine h ⟨false, members⟩ ⟨fun m hm => ?_, fun name hname => ?_⟩
  · clear hknown hfilter hfields h
    rw [Fields.Has]
    induction members with
    | nil => exact absurd hm List.not_mem_nil
    | cons first members ih =>
      obtain ⟨name, value⟩ := first
      rw [List.map_cons, List.nodup_cons] at hnodup
      obtain rfl | hrest := List.mem_cons.mp hm
      · simp
      · have hother : (m.1 == name) = false :=
          beq_eq_false_iff_ne.mpr fun h => hnodup.1 (List.mem_map.mpr ⟨m, hrest, h⟩)
        simpa [List.lookup_cons, hother] using ih hnodup.2 hrest
  · refine List.lookup_eq_none_iff.mpr fun m hm => ?_
    exact bne_iff_ne.mpr fun heq => hname (List.mem_map.mpr ⟨m, hm, heq.symm⟩)

section Steps

variable {α β : Type} {fields : Fields} {name : String} {v : Json} {value? : Json → Option α}
  {default : α}

theorem Fields.Has.required? (h : fields.Has name v) :
    fields.required? name value? = value? v := by
  rw [Fields.required?, h, Option.bind_some]

theorem Fields.Has.default? (h : fields.Has name v) :
    fields.default? name value? default = value? v := by
  rw [Fields.default?, h]

theorem Fields.Lacks.default? (h : fields.Lacks name) :
    fields.default? name value? default = some default := by
  rw [Fields.default?, h]

variable {step : Option α} {a : α} {p : Bool}

/-- A step of a reader that succeeds. -/
theorem bind_of_eq_some (h : step = some a) (f : α → Option β) : (step >>= f) = f a := by
  rw [h]
  rfl

/-- A step of a reader that succeeds under a condition. -/
theorem bind_of_eq_ite (h : step = if p then some a else none) (f : α → Option β) :
    (step >>= f) = if p then f a else none := by
  cases p <;> rw [h] <;> rfl

end Steps

section Lists

variable {α : Type} {f : α → Json} {value? : Json → Option α} {l : List α}

/-- A list is read if all of its items are. -/
theorem list?_ofList {readable : α → Bool} {reread : α → α}
    (h : ∀ a ∈ l, value? (f a) = if readable a then some (reread a) else none) :
    (ofList f l).list? value? = if l.all readable then some (l.map reread) else none := by
  rw [ofList, list?]
  induction l with
  | nil => rfl
  | cons a l ih =>
    have hl := ih fun b hb => h b (List.mem_cons_of_mem a hb)
    rw [List.map_cons, List.mapM_cons, h a List.mem_cons_self, hl]
    rw [List.all_cons]
    cases readable a <;> cases l.all readable <;> rfl

theorem list?_ofList_self (h : ∀ a ∈ l, value? (f a) = some a) :
    (ofList f l).list? value? = some l := by
  have hreadable : ∀ a ∈ l, value? (f a) = if true then some (id a) else none := h
  simpa using list?_ofList hreadable

end Lists

end Json

namespace Single

/-- A number as it is read back from its numeral.  There is none for a number that is not finite. -/
def reread (x : Float32) : Float32 := ((numeral? x).bind Numeral.single?).getD x

theorem single?_toJson (x : Float32) :
    (toJson x).single? = if isFinite x then some (reread x) else none := by
  cases h : isFinite x with
  | true =>
    obtain ⟨n, hn, -, hread⟩ := exists_numeral? h
    obtain ⟨y, hy⟩ := Option.isSome_iff_exists.mp hread
    simp [toJson, reread, hn, hy, Json.ofOption, Json.single?]
  | false => simp [toJson, numeral?_eq_none h, Json.ofOption, Json.single?]

theorem legible_toJson (x : Float32) : (toJson x).Legible := by
  cases h : isFinite x with
  | true =>
    obtain ⟨n, hn, hlegible, -⟩ := exists_numeral? h
    rw [toJson, hn]
    exact .number hlegible
  | false =>
    rw [toJson, numeral?_eq_none h]
    exact .null

end Single

namespace TrainSettings

open Json

/-- Whether all numbers of the settings are finite. -/
def isFinite (s : TrainSettings) : Bool :=
  Single.isFinite s.learningRate && Single.isFinite s.momentum && Single.isFinite s.decay &&
    Single.isFinite s.regularizerParam

/-- The settings with their numbers read back from their numerals. -/
def reread (s : TrainSettings) : TrainSettings :=
  { s with
    learningRate := Single.reread s.learningRate
    momentum := Single.reread s.momentum
    decay := Single.reread s.decay
    regularizerParam := Single.reread s.regularizerParam }

theorem legible_toJson (s : TrainSettings) : s.toJson.Legible := by
  refine Json.legible_record ?_
  simp [Json.legible_ofNat, Json.legible_ofString, Single.legible_toJson, Json.Legible.bool]

theorem ofJson?_toJson {s : TrainSettings} (h : s.Sized) :
    ofJson? s.toJson = if s.isFinite then some s.reread else none := by
  rw [ofJson?, toJson]
  refine bind_fields?_record (by simp [fieldNames]) (by simp) fun fields hfields => ?_
  have hfields := hfields.has
  simp only [List.forall_mem_cons] at hfields ⊢
  obtain ⟨epochs, batchSize, loss, optimizer, learningRate, momentum, decay, regularizer,
    regularizerParam, randomBatchOrder, classBalancing, keepBest, validationBatchSize, -⟩ := hfields
  rw [bind_of_eq_some (epochs.default?.trans (word32?_ofNat h.1)),
    bind_of_eq_some (batchSize.default?.trans (word32?_ofNat h.2.1)),
    bind_of_eq_some (loss.default?.trans (string?_ofString _)),
    bind_of_eq_some (optimizer.default?.trans (string?_ofString _)),
    bind_of_eq_ite (learningRate.default?.trans (Single.single?_toJson _)),
    bind_of_eq_ite (momentum.default?.trans (Single.single?_toJson _)),
    bind_of_eq_ite (decay.default?.trans (Single.single?_toJson _)),
    bind_of_eq_some (regularizer.default?.trans (string?_ofString _)),
    bind_of_eq_ite (regularizerParam.default?.trans (Single.single?_toJson _)),
    bind_of_eq_some (randomBatchOrder.default?.trans (bool?_bool _)),
    bind_of_eq_some (classBalancing.default?.trans (bool?_bool _)),
    bind_of_eq_some (keepBest.default?.trans (bool?_bool _)),
    bind_of_eq_some (validationBatchSize.default?.trans (word32?_ofNat h.2.2)), isFinite]
  cases Single.isFinite s.learningRate <;> cases Single.isFinite s.momentum <;>
    cases Single.isFinite s.decay <;> cases Single.isFinite s.regularizerParam <;> rfl

end TrainSettings

namespace Document

open Json

theorem slot?_slotJson {slot : Slot} (h : ∀ index, slot = .aux index → index ≤ Nat.pow 2 64 - 1) :
    slot? (slotJson slot) = some slot := by
  cases slot with
  | input => simp [slot?, slotJson, ofString, tagged?]
  | output => simp [slot?, slotJson, ofString, tagged?]
  | aux index => simp [slot?, slotJson, record, tagged?, word64?_ofNat (h index rfl)]

theorem Endpoint.ofJson?_toJson {e : Endpoint} (h : e.Sized) : ofJson? e.toJson = some e := by
  rw [ofJson?, toJson]
  refine bind_fields?_record (by simp) (by simp) fun fields hfields => ?_
  have hfields := hfields.has
  simp only [List.forall_mem_cons] at hfields
  obtain ⟨node, slot, -⟩ := hfields
  rw [bind_of_eq_some (node.required?.trans (word64?_ofNat h.1)),
    bind_of_eq_some (slot.required?.trans (slot?_slotJson h.2))]
  rfl

theorem Connection.ofJson?_toJson {c : Connection} (hsource : c.source.Sized)
    (htarget : c.target.Sized) : ofJson? c.toJson = some c := by
  rw [ofJson?, toJson]
  refine bind_fields?_record (by simp) (by simp) fun fields hfields => ?_
  have hfields := hfields.has
  simp only [List.forall_mem_cons] at hfields
  obtain ⟨source, target, -⟩ := hfields
  rw [bind_of_eq_some (source.required?.trans (Endpoint.ofJson?_toJson hsource)),
    bind_of_eq_some (target.required?.trans (Endpoint.ofJson?_toJson htarget))]
  rfl

theorem Metadata.ofJson?_toJson (m : Metadata) : ofJson? m.toJson = some m := by
  rw [ofJson?, toJson]
  refine bind_fields?_record (by simp) (by simp) fun fields hfields => ?_
  have hfields := hfields.has
  simp only [List.forall_mem_cons] at hfields
  obtain ⟨created, modified, creator, description, -⟩ := hfields
  rw [bind_of_eq_some (created.required?.trans (string?_ofString _)),
    bind_of_eq_some (modified.required?.trans (string?_ofString _)),
    bind_of_eq_some (creator.required?.trans (string?_ofString _)),
    bind_of_eq_some (description.default?.trans (string?_ofString _))]
  rfl

/-- Whether all numbers of the record are finite. -/
def NodeRecord.isFinite (r : NodeRecord) : Bool :=
  Single.isFinite r.position.x && Single.isFinite r.position.y &&
    r.floatParams.all Single.isFinite

/-- The record with its numbers read back from their numerals. -/
def NodeRecord.reread (r : NodeRecord) : NodeRecord :=
  { r with
    position := ⟨Single.reread r.position.x, Single.reread r.position.y⟩
    floatParams := r.floatParams.map Single.reread }

theorem position?_toJson (x y : Float32) :
    position? (.array [Single.toJson x, Single.toJson y]) =
      if Single.isFinite x && Single.isFinite y then some ⟨Single.reread x, Single.reread y⟩
      else none := by
  rw [position?, bind_of_eq_ite (Single.single?_toJson x), bind_of_eq_ite (Single.single?_toJson y)]
  cases Single.isFinite x <;> cases Single.isFinite y <;> rfl

theorem NodeRecord.ofJson?_toJson {r : NodeRecord} (h : r.Sized) :
    ofJson? r.toJson = if r.isFinite then some r.reread else none := by
  have hstrings : (ofList ofString r.stringParams).list? string? = some r.stringParams :=
    list?_ofList_self fun s _ => string?_ofString s
  have hfloats := list?_ofList (f := Single.toJson) (l := r.floatParams) fun x _ =>
    Single.single?_toJson x
  rw [ofJson?, toJson]
  refine bind_fields?_record (by simp) (by simp) fun fields hfields => ?_
  have hfields := hfields.has
  simp only [List.forall_mem_cons] at hfields
  obtain ⟨id, layerType, label, position, stringParams, floatParams, -⟩ := hfields
  rw [bind_of_eq_some (id.required?.trans (word64?_ofNat h)),
    bind_of_eq_some (layerType.required?.trans (string?_ofString _)),
    bind_of_eq_some (label.required?.trans (string?_ofString _)),
    bind_of_eq_ite (position.required?.trans (position?_toJson _ _)),
    bind_of_eq_some (stringParams.default?.trans hstrings),
    bind_of_eq_ite (floatParams.default?.trans hfloats), isFinite]
  cases Single.isFinite r.position.x <;> cases Single.isFinite r.position.y <;>
    cases r.floatParams.all Single.isFinite <;> rfl

/-- Whether all numbers of the document are finite. -/
def isFinite (d : Document) : Bool :=
  d.nodes.all NodeRecord.isFinite && d.trainSettings.all TrainSettings.isFinite

/-- The document with its numbers read back from their numerals. -/
def reread (d : Document) : Document :=
  { d with
    nodes := d.nodes.map NodeRecord.reread
    trainSettings := d.trainSettings.map TrainSettings.reread }

theorem ofJson?_toJson {d : Document} (h : d.Sized) :
    ofJson? d.toJson = if d.isFinite then some d.reread else none := by
  have hnodes := list?_ofList (f := NodeRecord.toJson) (l := d.nodes) fun r hr =>
    NodeRecord.ofJson?_toJson (h.nodes r hr)
  have hconnections := list?_ofList_self (f := Connection.toJson) (l := d.connections) fun c hc =>
    Connection.ofJson?_toJson (h.sources c hc) (h.targets c hc)
  rw [ofJson?, toJson, isFinite, reread]
  cases hsettings : d.trainSettings with
  | none =>
    refine bind_fields?_record (by simp) (by simp) fun fields hfields => ?_
    have hlacks := hfields.lacks "train_settings" (by simp)
    have hfields := hfields.has
    simp only [List.append_nil, List.forall_mem_cons] at hfields
    obtain ⟨version, metadata, nodes, connections, -⟩ := hfields
    rw [bind_of_eq_some (version.required?.trans (string?_ofString _)),
      bind_of_eq_some (metadata.required?.trans (Metadata.ofJson?_toJson _)),
      bind_of_eq_ite (nodes.required?.trans hnodes),
      bind_of_eq_some (connections.required?.trans hconnections),
      bind_of_eq_some hlacks.default?]
    cases d.nodes.all NodeRecord.isFinite <;> rfl
  | some s =>
    have hread : nullable? TrainSettings.ofJson? s.toJson =
        if s.isFinite then some (some s.reread) else none := by
      have : nullable? TrainSettings.ofJson? s.toJson = (TrainSettings.ofJson? s.toJson).map some :=
        rfl
      rw [this, TrainSettings.ofJson?_toJson (h.trainSettings s hsettings)]
      cases s.isFinite <;> rfl
    refine bind_fields?_record (by simp) (by simp) fun fields hfields => ?_
    have hfields := hfields.has
    simp only [List.cons_append, List.nil_append, List.forall_mem_cons] at hfields
    obtain ⟨version, metadata, nodes, connections, settings, -⟩ := hfields
    rw [bind_of_eq_some (version.required?.trans (string?_ofString _)),
      bind_of_eq_some (metadata.required?.trans (Metadata.ofJson?_toJson _)),
      bind_of_eq_ite (nodes.required?.trans hnodes),
      bind_of_eq_some (connections.required?.trans hconnections),
      bind_of_eq_ite (settings.default?.trans hread), Option.all_some]
    cases d.nodes.all NodeRecord.isFinite <;> cases s.isFinite <;> rfl

/-! ## The text -/

theorem legible_slotJson (slot : Slot) : (slotJson slot).Legible := by
  cases slot with
  | input => exact legible_ofString _
  | output => exact legible_ofString _
  | aux index => exact legible_record (by simp [legible_ofNat])

theorem Endpoint.legible_toJson (e : Endpoint) : e.toJson.Legible :=
  legible_record (by simp [legible_ofNat, legible_slotJson])

theorem Connection.legible_toJson (c : Connection) : c.toJson.Legible :=
  legible_record (by simp [Endpoint.legible_toJson])

theorem Metadata.legible_toJson (m : Metadata) : m.toJson.Legible :=
  legible_record (by simp [legible_ofString])

theorem NodeRecord.legible_toJson (r : NodeRecord) : r.toJson.Legible := by
  have hposition : (Json.array [Single.toJson r.position.x, Single.toJson r.position.y]).Legible :=
    .array (by simp [Single.legible_toJson])
  refine legible_record ?_
  simp [legible_ofNat, legible_ofString, hposition, legible_ofList, Single.legible_toJson]

theorem legible_toJson (d : Document) : d.toJson.Legible := by
  refine legible_record ?_
  cases d.trainSettings <;>
    simp [legible_ofString, Metadata.legible_toJson, legible_ofList, NodeRecord.legible_toJson,
      Connection.legible_toJson, TrainSettings.legible_toJson]

/-- The text of a document is read as the document, with its numbers reread, if they are finite, and
not at all otherwise. -/
theorem parse?_text {d : Document} (h : d.Sized) :
    parse? d.text = if d.isFinite then some d.reread else none := by
  rw [parse?, Json.decode?, text, d.legible_toJson.parse?_pretty, Option.bind_some,
    ofJson?_toJson h]

theorem sized_of_parse? {t : String} {d : Document} (h : parse? t = some d) : d.Sized := by
  obtain ⟨v, -, hv⟩ := Option.bind_eq_some_iff.mp h
  exact yields_document v d hv

/-- What can be opened can be saved and opened again if and only if its numbers are finite; then
everything but the numbers is as it was. -/
theorem reopens_iff_isFinite {t : String} {d : Document} (h : parse? t = some d) :
    ((∃ d', parse? d.text = some d') ↔ d.isFinite) ∧
      ∀ d', parse? d.text = some d' → d'.version = d.version ∧ d'.metadata = d.metadata ∧
        (d'.nodes.map fun r => (r.id, r.layerType, r.label, r.stringParams)) =
          (d.nodes.map fun r => (r.id, r.layerType, r.label, r.stringParams)) ∧
        d'.connections = d.connections ∧ d'.trainSettings.isSome = d.trainSettings.isSome := by
  rw [parse?_text (sized_of_parse? h)]
  cases d.isFinite with
  | false => simp
  | true =>
    refine ⟨by simp, fun d' hd' => ?_⟩
    obtain rfl : d.reread = d' := by simpa using hd'
    refine ⟨rfl, rfl, ?_, rfl, by simp [reread]⟩
    simp [reread, NodeRecord.reread]

/-- A document with one node at (1/2, 0); the fields are given by their positions. -/
def placed : String := r#"["1",["","",""],[[0,"A","B",[0.5,0]]],[]]"#

/-- The same document with its node at (10³⁹, 0), which no finite number of 32 bits stands for. -/
def displaced : String := r#"["1",["","",""],[[0,"A","B",[1e39,0]]],[]]"#

theorem reopens_placed_not_displaced :
    (∃ d, parse? placed = some d ∧ d.isFinite ∧
      ∃ d', parse? d.text = some d' ∧ d'.version = d.version) ∧
    ∃ d, parse? displaced = some d ∧ ¬d.isFinite ∧ ¬∃ d', parse? d.text = some d' := by
  have hplaced : (parse? placed).any isFinite := by decide +kernel
  have hdisplaced : (parse? displaced).any fun d => !d.isFinite := by decide +kernel
  obtain ⟨d, hd, hfinite⟩ := Option.any_eq_true .. |>.mp hplaced
  obtain ⟨e, he, hinfinite⟩ := Option.any_eq_true .. |>.mp hdisplaced
  have hinfinite : ¬e.isFinite := by simpa using hinfinite
  obtain ⟨d', hd'⟩ := (reopens_iff_isFinite hd).1.mpr hfinite
  refine ⟨⟨d, hd, hfinite, d', hd', ((reopens_iff_isFinite hd).2 d' hd').1⟩, e, he, hinfinite, ?_⟩
  exact fun h => hinfinite ((reopens_iff_isFinite he).1.mp h)

end Document

end LayerNet

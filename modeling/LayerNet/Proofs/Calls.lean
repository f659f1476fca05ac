import LayerNet.Proofs.Logging

/-!
# Calls in any order

The recording engine may be called by anyone, with any arguments and in any order, and it goes on
after a call that it has refused.  Whatever the calls were, its log is in order (`WellKept`): the
handles are numbered without gaps, what an entry names was created by entries before it, and with
capabilities there are only names that are known.

* `answers_make` — a call is logged with its arguments, or something stands in its way (`Objects`)
  and the engine stays as it is;
* `WellKept.make` — one call keeps the log in order;
* `wellKept_after` — both for the engine after any calls.
-/

namespace LayerNet

/-- A call to an engine with its arguments. -/
inductive Call where
  | createLayer (layerType : String) (floatParams : List Float32) (stringParams : List String)
  | createSpecial (layerType : String) (floatParams : List Float32) (stringParams : List String)
      (inner : List Handle) (bindings : List AuxBinding)
  | createMerge (reduction : String) (branches : List (List Handle))
  | addLayer (handle : Handle)

namespace Call

variable {ε : Type}

/-- The call is made.  Only calls that create something are answered with a handle. -/
def make [LayerEngine ε] : Call → EngineCall ε (Option Handle)
  | createLayer layerType floatParams stringParams =>
    some <$> LayerEngine.createLayer layerType floatParams stringParams
  | createSpecial layerType floatParams stringParams inner bindings =>
    some <$> LayerEngine.createSpecial layerType floatParams stringParams inner bindings
  | createMerge reduction branches => some <$> LayerEngine.createMerge reduction branches
  | addLayer handle => do
    LayerEngine.addLayer handle
    return none

/-- The entry of the call in a log, with the handle of what it creates. -/
def entry (handle : Handle) : Call → LogEntry
  | createLayer layerType floatParams stringParams =>
    .createLayer handle layerType floatParams stringParams [] []
  | createSpecial layerType floatParams stringParams inner bindings =>
    .createLayer handle layerType floatParams stringParams inner bindings
  | createMerge reduction branches => .createMerge handle reduction branches
  | addLayer added => .addLayer added

theorem created?_entry (call : Call) (handle : Handle) :
    (call.entry handle).created? = some handle ∨ (call.entry handle).created? = none := by
  cases call with
  | addLayer => exact .inr rfl
  | _ => exact .inl rfl

end Call

/-- The engine offers the type of a layer and the reduction of a merge; an empty list of reductions
offers all of them. -/
structure LogEntry.Offered (c : Capabilities) (entry : LogEntry) : Prop where
  layer : ∀ content, entry.layer? = some content → c.layerTypes.contains content.1 = true
  merge : ∀ reduction, entry.merge? = some reduction →
    c.reductions.isEmpty = true ∨ c.reductions.contains reduction = true

namespace RecordingEngine

variable {e : RecordingEngine} {call : Call}

/-- The handles in the log, in the order of their creation. -/
def created (e : RecordingEngine) : List Handle := e.log.filterMap LogEntry.created?

/-- The engine after a call with this entry. -/
def logged (e : RecordingEngine) (entry : LogEntry) : RecordingEngine :=
  { e with
    log := e.log ++ [entry]
    nextHandle := e.nextHandle + entry.created?.toList.length }

/-- The engine after calls, of which it may have refused some. -/
def after (e : RecordingEngine) (calls : List Call) : RecordingEngine :=
  calls.foldl (fun e call => (call.make e).2) e

/-- What stands in the way of an entry: a type or a reduction that is not offered, or a handle that
was not created before. -/
inductive Objects (e : RecordingEngine) (entry : LogEntry) : EngineError → Prop
  | layerType {c : Capabilities} {content : String × List Float32 × List String}
      (hc : e.capabilities = some c) (hentry : entry.layer? = some content)
      (hunknown : ¬c.layerTypes.contains content.1) : Objects e entry (.unknownLayerType content.1)
  | reduction {c : Capabilities} {name : String}
      (hc : e.capabilities = some c) (hentry : entry.merge? = some name)
      (hlisted : ¬c.reductions.isEmpty) (hunknown : ¬c.reductions.contains name) :
      Objects e entry (.unknownReduction name)
  | handle {handle : Handle} (hentry : handle ∈ entry.named) (hunknown : handle ∉ e.created) :
      Objects e entry (.unknownHandle handle)

/-- What a call does. -/
inductive Answers (e : RecordingEngine) (call : Call) :
    Except EngineError (Option Handle) × RecordingEngine → Prop
  /-- All handles were created before and all names are offered: the call is logged with its
  arguments, and what it creates has the next handle. -/
  | accepted (named : ∀ x ∈ (call.entry e.nextHandle).named, x ∈ e.created)
      (offered : ∀ c, e.capabilities = some c → (call.entry e.nextHandle).Offered c) :
      Answers e call
        (.ok (call.entry e.nextHandle).created?, e.logged (call.entry e.nextHandle))
  /-- Something stands in the way: the engine says what, and stays as it is. -/
  | refused {refusal : EngineError} (reason : e.Objects (call.entry e.nextHandle) refusal) :
      Answers e call (.error refusal, e)

/-- A log in order. -/
structure WellKept (e : RecordingEngine) : Prop where
  /-- The handles are 0, 1, 2, … up to the next one. -/
  created : e.created = List.range e.nextHandle
  /-- An entry names handles that were created by entries before it. -/
  named : ∀ before entry after, e.log = before ++ entry :: after →
    ∀ x ∈ entry.named, x ∈ before.filterMap LogEntry.created?
  /-- With capabilities, all types and reductions are offered. -/
  offered : ∀ c, e.capabilities = some c → ∀ entry ∈ e.log, entry.Offered c

/-! ## One call -/

/-- The check of the type or the reduction in a call. -/
def checkName (e : RecordingEngine) : Call → Except EngineError Unit
  | .createLayer layerType .. | .createSpecial layerType .. => e.checkLayerType layerType
  | .createMerge reduction _ => e.checkReduction reduction
  | .addLayer _ => .ok ()

/-- All checks of a call. -/
def check (e : RecordingEngine) (call : Call) : Except EngineError Unit := do
  e.checkName call
  e.checkHandles (call.entry e.nextHandle).named

/-- Creations are logged under the handle that they are answered with. -/
theorem map_create (call : Call) (hcreates : ∀ handle, (call.entry handle).created? = some handle)
    (e : RecordingEngine) :
    (some <$> create (fun e => e.check call) fun handle => call.entry handle :
      EngineCall RecordingEngine (Option Handle)) e = match e.check call with
      | .error refusal => (.error refusal, e)
      | .ok () => (.ok (call.entry e.nextHandle).created?, e.logged (call.entry e.nextHandle)) := by
  simp only [Functor.map, ExceptT.map, ExceptT.mk, bind, StateT.bind, create_apply, logged,
    hcreates]
  cases e.check call <;> rfl

/-- A call that passes its checks is logged, and every other leaves the engine as it is. -/
theorem make_eq (e : RecordingEngine) (call : Call) :
    call.make e = match e.check call with
      | .error refusal => (.error refusal, e)
      | .ok () => (.ok (call.entry e.nextHandle).created?, e.logged (call.entry e.nextHandle)) := by
  cases call with
  | createLayer layerType floatParams stringParams =>
    exact map_create (.createLayer layerType floatParams stringParams) (fun _ => rfl) e
  | createSpecial layerType floatParams stringParams inner bindings =>
    exact map_create (.createSpecial layerType floatParams stringParams inner bindings)
      (fun _ => rfl) e
  | createMerge reduction branches =>
    exact map_create (.createMerge reduction branches) (fun _ => rfl) e
  | addLayer added =>
    have hcheck : e.check (.addLayer added) = e.checkHandles [added] := rfl
    have hadd : (Call.addLayer added).make e = match addLayer added e with
      | (.error refusal, e') => (.error refusal, e')
      | (.ok (), e') => (.ok none, e') := by
      simp only [Call.make, LayerEngine.addLayer, bind, ExceptT.bind, ExceptT.mk, StateT.bind]
      rcases addLayer added e with ⟨_ | _, _⟩ <;> rfl
    rw [hadd, addLayer, hcheck]
    cases e.checkHandles [added] <;> rfl

theorem checkLayerType_cases (e : RecordingEngine) (entry : LogEntry)
    {content : String × List Float32 × List String} (hlayer : entry.layer? = some content)
    (hmerge : entry.merge? = none) :
    (e.checkLayerType content.1 = .ok () ∧ ∀ c, e.capabilities = some c → entry.Offered c) ∨
    ∃ refusal, e.checkLayerType content.1 = .error refusal ∧ e.Objects entry refusal := by
  rw [checkLayerType]
  cases hc : e.capabilities with
  | none => exact .inl ⟨rfl, fun c h => by cases h⟩
  | some c =>
    by_cases hknown : c.layerTypes.contains content.1 = true
    · refine .inl ⟨if_pos hknown, ?_⟩
      rintro _ ⟨⟩
      exact ⟨fun _ h => Option.some.inj (hlayer.symm.trans h) ▸ hknown, by simp [hmerge]⟩
    · exact .inr ⟨_, if_neg hknown, .layerType hc hlayer hknown⟩

theorem checkReduction_cases (e : RecordingEngine) (entry : LogEntry) {name : String}
    (hlayer : entry.layer? = none) (hmerge : entry.merge? = some name) :
    (e.checkReduction name = .ok () ∧ ∀ c, e.capabilities = some c → entry.Offered c) ∨
    ∃ refusal, e.checkReduction name = .error refusal ∧ e.Objects entry refusal := by
  rw [checkReduction]
  cases hc : e.capabilities with
  | none => exact .inl ⟨rfl, fun c h => by cases h⟩
  | some c =>
    by_cases hknown : c.reductions.isEmpty = true ∨ c.reductions.contains name = true
    · refine .inl ⟨if_pos ((Bool.or_eq_true ..).mpr hknown), ?_⟩
      rintro _ ⟨⟩
      exact ⟨by simp [hlayer], fun _ h => Option.some.inj (hmerge.symm.trans h) ▸ hknown⟩
    · obtain ⟨hlisted, hunknown⟩ := not_or.1 hknown
      exact .inr ⟨_, if_neg fun h => hknown ((Bool.or_eq_true ..).mp h),
        .reduction hc hmerge hlisted hunknown⟩

theorem checkHandles_cases (e : RecordingEngine) (handles : List Handle) :
    (e.checkHandles handles = .ok () ∧ ∀ x ∈ handles, x < e.nextHandle) ∨
    ∃ handle ∈ handles, e.nextHandle ≤ handle ∧
      e.checkHandles handles = .error (.unknownHandle handle) := by
  cases hfind : handles.find? fun handle => e.nextHandle ≤ handle with
  | none =>
    have hok : e.checkHandles handles = .ok () := by rw [checkHandles, hfind]
    exact .inl ⟨hok, lt_of_checkHandles hok⟩
  | some handle =>
    exact .inr ⟨handle, List.mem_of_find?_eq_some hfind, by simpa using List.find?_some hfind,
      by rw [checkHandles, hfind]⟩

theorem checkName_cases (e : RecordingEngine) (call : Call) :
    (e.checkName call = .ok () ∧
      ∀ c, e.capabilities = some c → (call.entry e.nextHandle).Offered c) ∨
    ∃ refusal, e.checkName call = .error refusal ∧ e.Objects (call.entry e.nextHandle) refusal := by
  cases call with
  | createLayer layerType floatParams stringParams =>
    exact e.checkLayerType_cases
      (.createLayer e.nextHandle layerType floatParams stringParams [] []) rfl rfl
  | createSpecial layerType floatParams stringParams inner bindings =>
    exact e.checkLayerType_cases
      (.createLayer e.nextHandle layerType floatParams stringParams inner bindings) rfl rfl
  | createMerge reduction branches =>
    exact e.checkReduction_cases (.createMerge e.nextHandle reduction branches) rfl rfl
  | addLayer handle =>
    exact .inl ⟨rfl, fun c _ => ⟨nofun, nofun⟩⟩

/-- A call is accepted or refused by what it names. -/
theorem answers_make (hcreated : e.created = List.range e.nextHandle) (call : Call) :
    e.Answers call (call.make e) := by
  have hmem : ∀ x, x ∈ e.created ↔ x < e.nextHandle := by
    simp [hcreated]
  rw [make_eq, check]
  rcases e.checkName_cases call with ⟨hname, hoffered⟩ | ⟨refusal, hname, hobjects⟩
  · rcases e.checkHandles_cases (call.entry e.nextHandle).named with
      ⟨hhandles, hlt⟩ | ⟨handle, hhandle, hnew, hhandles⟩
    · rw [hname, hhandles]
      exact .accepted (fun x hx => (hmem x).2 (hlt x hx)) hoffered
    · rw [hname, hhandles]
      exact .refused (.handle hhandle fun h => Nat.not_lt.2 hnew ((hmem handle).1 h))
  · rw [hname]
    exact .refused hobjects

/-! ## Any calls -/

theorem WellKept.logged (h : e.WellKept)
    (hnamed : ∀ x ∈ (call.entry e.nextHandle).named, x ∈ e.created)
    (hoffered : ∀ c, e.capabilities = some c → (call.entry e.nextHandle).Offered c) :
    (e.logged (call.entry e.nextHandle)).WellKept where
  created := by
    have hcreated : (e.logged (call.entry e.nextHandle)).created =
        List.range e.nextHandle ++ (call.entry e.nextHandle).created?.toList := by
      rw [← h.created, RecordingEngine.created, RecordingEngine.logged, List.filterMap_append]
      cases hentry : (call.entry e.nextHandle).created? <;> simp [hentry, RecordingEngine.created]
    rw [hcreated, RecordingEngine.logged]
    rcases call.created?_entry e.nextHandle with hentry | hentry
    · simp [hentry, List.range_succ]
    · simp [hentry]
  named before entry after hsplit x hx := by
    rcases append_eq_append_cons hsplit with ⟨rest, hrest⟩ | ⟨⟨more, rfl⟩, hentry⟩
    · exact h.named before entry rest hrest x hx
    · obtain rfl := List.mem_singleton.1 hentry
      rw [List.filterMap_append]
      exact List.mem_append_left _ (hnamed x hx)
  offered c hc entry hentry := by
    rcases List.mem_append.1 hentry with hentry | hentry
    · exact h.offered c hc entry hentry
    · obtain rfl := List.mem_singleton.1 hentry
      exact hoffered c hc

/-- The log stays in order, whether the call is refused or not. -/
theorem WellKept.make (h : e.WellKept) (call : Call) :
    (call.make e).2.WellKept ∧ (call.make e).2.capabilities = e.capabilities := by
  have hanswer := answers_make h.created call
  generalize call.make e = outcome at hanswer ⊢
  cases hanswer with
  | accepted hnamed hoffered => exact ⟨h.logged hnamed hoffered, rfl⟩
  | refused => exact ⟨h, rfl⟩

theorem wellKept_new (capabilities : Option Capabilities) :
    ({ capabilities } : RecordingEngine).WellKept where
  created := rfl
  named before entry after h := absurd h (by simp)
  offered _ _ _ h := absurd h List.not_mem_nil

theorem WellKept.after (h : e.WellKept) (calls : List Call) :
    (e.after calls).WellKept ∧ (e.after calls).capabilities = e.capabilities := by
  induction calls generalizing e with
  | nil => exact ⟨h, rfl⟩
  | cons call calls ih =>
    obtain ⟨hmake, hsame⟩ := h.make call
    obtain ⟨hafter, hcapabilities⟩ := ih hmake
    exact ⟨hafter, hcapabilities.trans hsame⟩

/-- After any calls, accepted or refused, the log of a new engine is in order, the engine still has
the capabilities that it was given, and it accepts or refuses the next call by what the call
names. -/
theorem wellKept_after (capabilities : Option Capabilities) (calls : List Call) :
    let e := ({ capabilities } : RecordingEngine).after calls
    e.WellKept ∧ e.capabilities = capabilities ∧ ∀ call : Call, e.Answers call (call.make e) := by
  obtain ⟨hkept, hcapabilities⟩ := (wellKept_new capabilities).after calls
  exact ⟨hkept, hcapabilities, answers_make hkept.created⟩

/-- Refused calls leave no gaps. -/
example : (({} : RecordingEngine).after
    [.createLayer "LayerDense" [] [], .addLayer 1,
      .createSpecial "LayerStacked" [] [] [0] [⟨0, .entry, 2⟩], .createMerge "sum" [[0], []],
      .addLayer 1]).log =
    [.createLayer 0 "LayerDense" [] [] [] [], .createMerge 1 "sum" [[0], []], .addLayer 1] := by
  decide +kernel

end RecordingEngine

end LayerNet

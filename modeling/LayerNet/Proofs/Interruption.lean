import LayerNet.Proofs.Logging

/-!
# Buildings that an engine interrupts

The engine may refuse any call.  A building that would succeed is compared with the same building in
an engine that refuses the call with one number: it stops at this call, with its refusal, and what has
been logged until then is the beginning of the log of the whole building.  Nothing is called after
the refusal.

* `Interrupts` — two buildings of which the second may be stopped at each of the steps of the first,
  a property that is closed under composition (`Interrupts.bind`);
* `lower_interrupted` — what this means for the building of a forest.
-/

namespace LayerNet

open Layer Lowering

/-! ## Calls that are passed on -/

namespace Lowering

variable {ε : Type}

/-- A call that is passed on is answered by the engine inside. -/
theorem forward_ok {α : Type} {request : EngineCall ε α} {w w' : RefusingEngine ε} {a : α}
    (h : RefusingEngine.forward request w = (.ok a, w')) :
    request w.engine = (.ok a, w'.engine) := by
  unfold RefusingEngine.forward at h
  split at h
  · cases h
  · cases hcall : request w.engine with
    | mk answer engine =>
      rw [hcall] at h
      cases h
      rfl

variable [LayerEngine ε] {next : ε → Handle}

/-- An engine that may refuse a call numbers like the engine inside. -/
theorem Numbers.refusing (hn : Numbers next) : Numbers fun w : RefusingEngine ε => next w.engine where
  createLayer_eq _ _ _ := congrArg RefusingEngine.forward (hn.createLayer_eq _ _ _)
  createSpecial h := hn.createSpecial (forward_ok h)
  createMerge h := hn.createMerge (forward_ok h)

end Lowering

/-! ## Two runs side by side -/

namespace RefusingEngine

variable {α β : Type} {steps steps' : List BuildStep} {x : Lowering RecordingEngine α}
  {y : Lowering (RefusingEngine RecordingEngine) α} {f : α → Lowering RecordingEngine β}
  {f' : α → Lowering (RefusingEngine RecordingEngine) β} {w : RefusingEngine RecordingEngine}
  {step : BuildStep} {log : List LogEntry} {created : NodeHandles} {k : Nat}

/-- The engine after some calls that were passed on. -/
def passed (w : RefusingEngine RecordingEngine) (calls : Nat) (engine : RecordingEngine) :
    RefusingEngine RecordingEngine :=
  { w with engine, count := w.count + calls }

/-- A building ended at a step that was the `k`th call and was refused. -/
structure StoppedAt (w : RefusingEngine RecordingEngine) (k : Nat) (step : BuildStep)
    (log : List LogEntry)
    (outcome : Except BuildError (α × NodeHandles) × RefusingEngine RecordingEngine) : Prop where
  error : outcome.1 = .error (.engine step (w.refusal (w.count + k)))
  log : outcome.2.engine.log = log
  count : outcome.2.count = w.count + k + 1

/-- What follows is not reached. -/
theorem StoppedAt.bind (h : StoppedAt w k step log (y created w))
    (f' : α → Lowering (RefusingEngine RecordingEngine) β) :
    StoppedAt w k step log ((y >>= f') created w) := by
  rw [bind_apply]
  cases hrun : y created w with
  | mk answer stopped =>
    rw [hrun] at h
    obtain rfl : answer = _ := h.error
    exact ⟨rfl, h.log, h.count⟩

/-- Calls may be counted from an earlier state. -/
theorem StoppedAt.of_passed {calls : Nat} {engine : RecordingEngine}
    {outcome : Except BuildError (α × NodeHandles) × RefusingEngine RecordingEngine}
    (h : StoppedAt (w.passed calls engine) k step log outcome) :
    StoppedAt w (calls + k) step log outcome where
  error := by
    rw [← Nat.add_assoc]
    exact h.error
  log := h.log
  count := by
    rw [← Nat.add_assoc]
    exact h.count

/-- The building `y` in an engine that may refuse a call does what `x` does in the engine alone, one
call for each of `steps`.  If `x` succeeds, the log grows by an entry for each step; if the call for
step `k` is refused, `y` ends with its refusal and has logged the first `k` of the entries; and if
none of these calls is refused, `y` ends like `x`. -/
def Interrupts (steps : List BuildStep) (x : Lowering RecordingEngine α)
    (y : Lowering (RefusingEngine RecordingEngine) α) : Prop :=
  ∀ created e a created' e', x created e = (.ok (a, created'), e') →
    ∃ entries, entries.length = steps.length ∧ e'.log = e.log ++ entries ∧
      ∀ w : RefusingEngine RecordingEngine, w.engine = e →
        (∀ k (hk : k < steps.length), w.refused = some (w.count + k) →
          StoppedAt w k steps[k] (e.log ++ entries.take k) (y created w)) ∧
        ((∀ k < steps.length, w.refused ≠ some (w.count + k)) →
          y created w = (.ok (a, created'), w.passed steps.length e'))

/-- There is nothing to interrupt where no call is made. -/
theorem interrupts_nil {answer : NodeHandles → Except BuildError (α × NodeHandles)}
    (hx : ∀ created e, x created e = (answer created, e))
    (hy : ∀ created w, y created w = (answer created, w)) : Interrupts [] x y := by
  intro created e a created' e' hrun
  rw [hx] at hrun
  obtain ⟨hanswer, rfl⟩ := Prod.mk.inj hrun
  refine ⟨[], rfl, (List.append_nil _).symm, fun w hw => ⟨fun k hk => ?_, fun _ => ?_⟩⟩
  · exact absurd hk (Nat.not_lt_zero k)
  · subst hw
    rw [hy, hanswer]
    rfl

theorem Interrupts.pure (a : α) :
    Interrupts [] (Pure.pure a : Lowering RecordingEngine α) (Pure.pure a) :=
  interrupts_nil (fun _ _ => rfl) fun _ _ => rfl

/-- Buildings one after the other are stopped in the first or in the second. -/
theorem Interrupts.bind (hx : Interrupts steps x y)
    (hf : ∀ a, Interrupts steps' (f a) (f' a)) :
    Interrupts (steps ++ steps') (x >>= f) (y >>= f') := by
  intro created e b created' e' hrun
  obtain ⟨a, created₁, e₁, hmid, hrest⟩ := bind_ok hrun
  obtain ⟨entries, hlength, hlog, hfirst⟩ := hx _ _ _ _ _ hmid
  obtain ⟨entries', hlength', hlog', hsecond⟩ := hf a _ _ _ _ _ hrest
  refine ⟨entries ++ entries', by simp [hlength, hlength'], by simp [hlog, hlog'], fun w hw => ?_⟩
  obtain ⟨hstopped, hpassed⟩ := hfirst w hw
  obtain ⟨hstopped', hpassed'⟩ := hsecond (w.passed steps.length e₁) rfl
  have hreached (hy : ∀ k < steps.length, w.refused ≠ some (w.count + k)) :
      (y >>= f') created w = f' a created₁ (w.passed steps.length e₁) := by
    rw [bind_apply, hpassed hy]
  refine ⟨fun k hk hrefused => ?_, fun hnone => ?_⟩
  · rcases Nat.lt_or_ge k steps.length with hlt | hge
    · rw [List.getElem_append_left hlt, List.take_append_of_le_length (by omega)]
      exact (hstopped k hlt hrefused).bind f'
    · obtain ⟨j, rfl⟩ := Nat.exists_eq_add_of_le hge
      have hj : j < steps'.length := by
        rw [List.length_append] at hk
        omega
      have htake : e.log ++ (entries ++ entries').take (steps.length + j) =
          e₁.log ++ entries'.take j := by
        rw [hlog, ← hlength, List.take_length_add_append, List.append_assoc]
      rw [← Nat.add_assoc] at hrefused
      rw [hreached fun i hi hi' => ?_, htake, List.getElem_append_right hge]
      · simpa using (hstopped' j hj hrefused).of_passed
      · rw [hrefused, Option.some.injEq] at hi'
        omega
  · rw [hreached fun k hk => hnone k (by rw [List.length_append]; omega), hpassed' fun k hk => ?_,
      List.length_append]
    · simp only [passed, Nat.add_assoc]
    · have hk' := hnone (steps.length + k) (by rw [List.length_append]; omega)
      rwa [← Nat.add_assoc] at hk'

/-- A call that is logged if the engine accepts it. -/
theorem interrupts_call (step : BuildStep) {request : EngineCall RecordingEngine α}
    (h : ∀ {e a e'}, request e = (.ok a, e') → ∃ entry, e'.log = e.log ++ [entry]) :
    Interrupts [step] (call step request) (call step (forward request)) := by
  intro created e a created' e' hrun
  unfold call at hrun
  cases hcall : request e with
  | mk answer e₁ =>
    rw [hcall] at hrun
    cases answer with
    | error refusal => cases hrun
    | ok answer =>
      cases hrun
      obtain ⟨entry, hentry⟩ := h hcall
      refine ⟨[entry], rfl, hentry, fun w hw => ⟨fun k hk hrefused => ?_, fun hnone => ?_⟩⟩
      · obtain rfl := Nat.lt_one_iff.1 hk
        have hforward : forward request w =
            (.error (w.refusal w.count), { w with count := w.count + 1 }) := if_pos hrefused
        rw [call, hforward]
        exact ⟨rfl, by simp [hw], rfl⟩
      · have hforward : forward request w = (.ok a, w.passed 1 e') := by
          have hpass := hnone 0 Nat.one_pos
          rw [Nat.add_zero] at hpass
          rw [forward, if_neg hpass, hw, hcall]
          rfl
        rw [call, hforward]
        rfl

/-! ## Buildings -/

theorem interrupts_callFor (node? : Option NodeId) (step : BuildStep)
    {request : EngineCall RecordingEngine Handle}
    (h : ∀ {e a e'}, request e = (.ok a, e') → ∃ entry, e'.log = e.log ++ [entry]) :
    Interrupts [step] (callFor node? step request) (callFor node? step (forward request)) := by
  refine (interrupts_call step h).bind fun handle => ?_
  cases node? <;> exact interrupts_nil (fun _ _ => rfl) fun _ _ => rfl

/-- A creation is a single call. -/
theorem interrupts_perform (c : Creation) : Interrupts [c.step] (perform c) (perform c) := by
  have hlogged (bindings : List AuxBinding) {e e' : RecordingEngine} {handle : Handle}
      (h : (c.request bindings : EngineCall RecordingEngine Handle) e = (.ok handle, e')) :
      ∃ entry, e'.log = e.log ++ [entry] := by
    obtain ⟨entry, -, rfl⟩ := RecordingEngine.request_ok h
    exact ⟨entry, rfl⟩
  cases c with
  | layer source inner links =>
    have hlinks {ε : Type} (created : NodeHandles) (e : ε) :
        links.mapM (Lowering.bind source.id) created e =
          ((bindings? source.id created links).map fun bindings => (bindings, created), e) := by
      rw [mapM_bind_eq]
      cases bindings? source.id created links <;> rfl
    exact (interrupts_nil hlinks hlinks).bind fun bindings => interrupts_callFor _ _ (hlogged bindings)
  | merge reduction node branches => exact interrupts_callFor node _ (hlogged [])

theorem interrupts_performAll (cs : List Creation) (answer : α) :
    Interrupts (cs.map Creation.step) (performAll cs answer) (performAll cs answer) := by
  induction cs with
  | nil => exact Interrupts.pure answer
  | cons c cs ih => exact (interrupts_perform c).bind fun _ => ih

theorem interrupts_addLayers (handles : List Handle) :
    Interrupts (handles.map .addingLayer)
      (handles.forM fun handle => call (.addingLayer handle) (LayerEngine.addLayer handle))
      (handles.forM fun handle => call (.addingLayer handle) (LayerEngine.addLayer handle)) := by
  induction handles with
  | nil => exact Interrupts.pure ()
  | cons handle handles ih =>
    refine (interrupts_call _ fun h => ?_).bind fun _ => ih
    exact ⟨.addLayer handle, congrArg RecordingEngine.log (RecordingEngine.addLayer_ok h)⟩

theorem interrupts_performForest (n : Handle) (forest : List Layer) :
    Interrupts ((forestCreations n forest).map Creation.step ++
        (forestHandles n forest).map .addingLayer)
      (performForest RecordingEngine n forest) (performForest _ n forest) := by
  refine (interrupts_performAll _ _).bind fun _ => ?_
  rw [← List.append_nil (List.map _ _)]
  exact (interrupts_addLayers _).bind fun _ => .pure _

/-! ## Every call refused -/

/-- The answer of a building that is stopped. -/
theorem StoppedAt.runIn (h : StoppedAt w k step log (y [] w)) :
    (y.runIn w).1 = .error (.engine step (w.refusal (w.count + k))) ∧
      (y.runIn w).2.engine.log = log ∧ (y.runIn w).2.count = w.count + k + 1 := by
  rw [Lowering.runIn]
  cases hrun : y [] w with
  | mk answer stopped =>
    rw [hrun] at h
    obtain rfl : answer = _ := h.error
    exact ⟨rfl, h.log, h.count⟩

/-- Among creations that are followed by layers of the network, the first layer comes after all of
the creations. -/
theorem take_of_addLayer_mem {creations : List LogEntry} {handles : List Handle} {handle : Handle}
    (hcreations : ∀ entry ∈ creations, entry.created?.isSome)
    (h : LogEntry.addLayer handle ∈ (creations ++ handles.map LogEntry.addLayer).take k) :
    (creations ++ handles.map LogEntry.addLayer).take k =
      creations ++ (handles.take (k - creations.length)).map LogEntry.addLayer := by
  rw [List.take_append] at h ⊢
  rcases Nat.le_total creations.length k with hle | hle
  · rw [List.take_of_length_le hle, List.map_take]
  · rw [Nat.sub_eq_zero_of_le hle, List.take_zero, List.append_nil] at h
    cases hcreations _ (List.mem_of_mem_take h)

/-- A building that succeeds, in the same engine with one of its calls refused:

* the building makes a call for each creation of the forest, and one for each layer that it appends
  to the network; it logs one entry for each of them;
* with one of these calls refused it ends with the refusal, at the step that the call belongs to.
  It has logged as many entries as there were calls before, the same ones, and it calls nothing
  afterwards;
* with a later call refused it does not differ;
* a layer is appended to the network only after everything in the forest has been created. -/
theorem lower_interrupted {forest : List Layer} {handles : List Handle} {e e' : RecordingEngine}
    (h : (lower forest).runIn e = (.ok handles, e')) (refusal : Nat → EngineError) :
    let steps := (forestCreations e.nextHandle forest).map Creation.step ++
      handles.map .addingLayer
    let start (refused : Option Nat) : RefusingEngine RecordingEngine :=
      { engine := e, refused, refusal }
    ∃ entries, entries.length = steps.length ∧ e'.log = e.log ++ entries ∧
      (lower forest).runIn (start none) =
        (.ok handles, { start none with engine := e', count := steps.length }) ∧
      (∀ k (hk : k < steps.length), let stopped := (lower forest).runIn (start (some k))
        stopped.1 = .error (.engine steps[k] (refusal k)) ∧
          stopped.2.engine.log = e.log ++ entries.take k ∧ stopped.2.count = k + 1) ∧
      (∀ k, steps.length ≤ k → (lower forest).runIn (start (some k)) =
        (.ok handles, { start (some k) with engine := e', count := steps.length })) ∧
      ∀ k handle, .addLayer handle ∈ entries.take k → RecordedIn forest (entries.take k) := by
  intro steps start
  obtain ⟨creations, hcreations, hhandles, he'⟩ := RecordingEngine.lower_ok h
  obtain ⟨created, hrun⟩ := runIn_eq_ok_iff.1 h
  rw [RecordingEngine.numbers.lower_agrees forest _ [] e rfl] at hrun
  obtain ⟨entries, hlength, hlog, hruns⟩ := interrupts_performForest _ forest _ _ _ _ _ hrun
  rw [← hhandles] at hlength hruns
  have hagree (refused : Option Nat) : lower forest [] (start refused) =
      performForest _ e.nextHandle forest [] (start refused) :=
    RecordingEngine.numbers.refusing.lower_agrees forest _ [] (start refused) rfl
  have hpassed (refused : Option Nat) (hrefused : ∀ k < steps.length, refused ≠ some k) :
      (lower forest).runIn (start refused) =
        (.ok handles, { start refused with engine := e', count := steps.length }) := by
    refine runIn_eq_ok_iff.2 ⟨created, (hagree refused).trans ?_⟩
    refine ((hruns (start refused) rfl).2 fun k hk => ?_).trans ?_
    · rw [Nat.zero_add]
      exact hrefused k hk
    · rw [passed, Nat.zero_add]
  refine ⟨entries, hlength, hlog, hpassed none (fun k _ => nofun), fun k hk => ?_, fun k hk => ?_,
    fun k handle hadded => ?_⟩
  · have hstopped := (hruns (start (some k)) rfl).1 k hk (by rw [Nat.zero_add])
    rw [← hagree] at hstopped
    simpa [start] using hstopped.runIn
  · refine hpassed (some k) fun j hj hjk => ?_
    rw [Option.some.injEq] at hjk
    omega
  · obtain rfl : entries = creations ++ handles.map .addLayer := by
      rw [he'] at hlog
      exact (List.append_cancel_left ((List.append_assoc _ _ _).symm.trans hlog)).symm
    rw [take_of_addLayer_mem hcreations.isSome_created? hadded]
    exact hcreations.recordedIn.append_addLayers _

/-- The network of `nested` takes six calls.  If the fifth is refused, everything has been created and
nothing is appended; if the fourth is, the merge is missing. -/
theorem nested_interrupted :
    let run (refused : Nat) := (lower RecordingEngine.nested).runIn ({
      engine := {}, refused := some refused, refusal := fun _ => .rejected "out of memory" } :
        RefusingEngine RecordingEngine)
    (run 4).1 = .error (.engine (.addingLayer 1) (.rejected "out of memory")) ∧
      (run 4).2.engine.log = RecordingEngine.nestedBuilt.log.take 4 ∧
      (run 3).1 = .error (.engine (.creatingMerge .sum 2) (.rejected "out of memory")) ∧
      (run 3).2.engine.log = RecordingEngine.nestedBuilt.log.take 3 ∧
      (run 6).1 = .ok [1, 3] := by
  intro run
  obtain ⟨entries, -, hlog, -, hstopped, hpassed, -⟩ :=
    lower_interrupted RecordingEngine.lower_nested fun _ => .rejected "out of memory"
  obtain rfl : RecordingEngine.nestedBuilt.log = entries := hlog
  obtain ⟨hanswer, hentries, -⟩ := hstopped 4 (by decide)
  obtain ⟨hanswer', hentries', -⟩ := hstopped 3 (by decide)
  exact ⟨hanswer, hentries, hanswer', hentries', congrArg Prod.fst (hpassed 6 (by decide))⟩

end RefusingEngine

end LayerNet

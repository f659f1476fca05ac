import LayerNet.Document.File
import LayerNet.Proofs.Storing

/-!
# The file of a document over many calls

An editor marks its document as modified, saves it and opens other documents, in any order, and the
store of files may fail it at each of these calls.  A `trace` lists the calls with what each of them
asked of the store and what it did to the file of the document.

* `answers_event` — what one call does.  It either completes, or something is in its way and the
  file of the document stays as it is.
* `settled_trace` — while no other document is opened, all texts that are written give the time of
  creation that was opened or written first.
* `trace_keeps` — both for any number of calls.

The time of creation is looked up in the texts themselves (`Document.createdIn?`), since a document
with numbers that are not finite is written but cannot be read back.
-/

namespace LayerNet

namespace Document

open Json

/-- The time of creation that the text of a document gives.  The nodes and connections in the text
are of no importance. -/
def createdIn? (text : String) : Option String := do
  let value ← Json.parse? text
  let fields ← value.fields? ["version", "metadata", "nodes", "connections", "train_settings"]
  let metadata ← fields.required? "metadata" Metadata.ofJson?
  return metadata.created

/-- A document that is read gives its time of creation. -/
theorem createdIn?_of_parse? {text : String} {d : Document} (h : parse? text = some d) :
    createdIn? text = some d.metadata.created := by
  obtain ⟨value, hvalue, hd⟩ := Option.bind_eq_some_iff.mp h
  obtain ⟨fields, hfields, hd⟩ := Option.bind_eq_some_iff.mp hd
  obtain ⟨version, -, hd⟩ := Option.bind_eq_some_iff.mp hd
  obtain ⟨metadata, hmetadata, hd⟩ := Option.bind_eq_some_iff.mp hd
  iterate 3 obtain ⟨_, -, hd⟩ := Option.bind_eq_some_iff.mp hd
  obtain rfl := Option.some.inj hd
  rw [createdIn?, bind_of_eq_some hvalue, bind_of_eq_some hfields, bind_of_eq_some hmetadata]
  rfl

/-- A document that is written gives its time of creation, even if it cannot be read back. -/
theorem createdIn?_text (d : Document) : createdIn? d.text = some d.metadata.created := by
  rw [createdIn?, text, bind_of_eq_some d.legible_toJson.parse?_pretty, toJson]
  have hread : ∀ fields : Fields, fields.Has "metadata" d.metadata.toJson →
      (do
        let metadata ← fields.required? "metadata" Metadata.ofJson?
        return metadata.created) = some d.metadata.created := by
    intro fields hfields
    rw [bind_of_eq_some (hfields.required?.trans (Metadata.ofJson?_toJson _))]
    rfl
  cases d.trainSettings with
  | none =>
    refine bind_fields?_record (by simp) (by simp) fun fields hfields => hread fields ?_
    exact hfields.has ("metadata", d.metadata.toJson) (by simp)
  | some s =>
    refine bind_fields?_record (by simp) (by simp) fun fields hfields => hread fields ?_
    exact hfields.has ("metadata", d.metadata.toJson) (by simp)

end Document

/-! ## Stores that are watched -/

/-- A file was read or written, or could not be. -/
inductive FileAccess where
  | read (path : String) (text : Option String)
  | write (path text : String) (written : Bool)
  deriving DecidableEq, Repr

/-- A store with the accesses to it. -/
structure Watched (σ : Type) where
  store : σ
  accesses : List FileAccess := []

variable {σ : Type} [FileStore σ]

instance : FileStore (Watched σ) where
  read path w :=
    let (text, store) := FileStore.read path w.store
    (text, ⟨store, w.accesses ++ [.read path text]⟩)
  write path text w :=
    let (written, store) := FileStore.write path text w.store
    (written, ⟨store, w.accesses ++ [.write path text written]⟩)

namespace DocumentFile

/-! ## Calls -/

/-- A call with its arguments.  A graph is saved with training settings at the time `now`. -/
inductive Call where
  | markModified
  | save (g : Graph) (settings : Option TrainSettings) (now : String)
  | saveAs (path : String) (g : Graph) (settings : Option TrainSettings) (now : String)
  | openAt (path : String)

/-- What a call answers if it does not fail. -/
inductive Answer where
  | marked
  /-- Whether there was a file to save to. -/
  | saved (written : Bool)
  | opened (g : Graph) (settings : Option TrainSettings)

/-- The document that is written when a graph is saved. -/
def record (f : DocumentFile) (g : Graph) (settings : Option TrainSettings) (now : String) :
    Document :=
  let d := Document.ofGraph g settings now
  { d with metadata := { d.metadata with created := f.created.getD now } }

namespace Call

/-- The call is made. -/
def make (f : DocumentFile) : Call → StateM σ (Except Document.Error Answer × DocumentFile)
  | markModified => return (.ok .marked, f.markModified)
  | save g settings now => do
    let (answer, f) ← f.save g settings now
    return (answer.map .saved, f)
  | saveAs path g settings now => do
    let (answer, f) ← f.saveAs path g settings now
    return (answer.map fun _ => .saved true, f)
  | openAt path => do
    let (answer, f) ← f.openAt path
    return (answer.map fun opened => .opened opened.1 opened.2, f)

/-- The file that a call is to read or to write. -/
def path? (f : DocumentFile) : Call → Option String
  | markModified => none
  | save .. => f.path
  | saveAs path .. => some path
  | openAt path => some path

/-- The document that a call is to write. -/
def record? (f : DocumentFile) : Call → Option Document
  | save g settings now | saveAs _ g settings now => some (f.record g settings now)
  | markModified | openAt _ => none

end Call

/-- A call, what it asked of the store, and what it did to the file of the document. -/
structure Event where
  call : Call
  before : DocumentFile
  accesses : List FileAccess
  answer : Except Document.Error Answer
  after : DocumentFile

/-- One call, made while its store is watched. -/
def event (f : DocumentFile) (s : σ) (call : Call) : Event where
  call
  before := f
  accesses := (call.make f (⟨s, []⟩ : Watched σ)).2.accesses
  answer := (call.make f s).1.1
  after := (call.make f s).1.2

/-- The events of a number of calls, made one after the other. -/
def trace (f : DocumentFile) (s : σ) : List Call → List Event
  | [] => []
  | call :: calls =>
    f.event s call :: trace (f.event s call).after (call.make f s).2 calls

namespace Event

/-- The call fails, or there is no file to save to. -/
def Refused (e : Event) : Prop :=
  (∃ error, e.answer = .error error) ∨ e.answer = .ok (.saved false)

/-- The file at a path is opened or written. -/
def Completes (e : Event) (path : String) : Prop :=
  e.call.path? e.before = some path ∧ ∃ answer, e.answer = .ok answer

/-- A document is opened. -/
def Opens (e : Event) : Prop := ∃ g settings, e.answer = .ok (.opened g settings)

/-- A text with this time of creation is opened or written. -/
def Settles (e : Event) (created : String) : Prop :=
  ∃ path text, e.Completes path ∧ Document.createdIn? text = some created ∧
    (e.accesses = [.read path (some text)] ∨ e.accesses = [.write path text true])

/-- What a call does.  If something is in its way, the file of the document stays as it is. -/
inductive Answers : Event → Prop
  | marked {f : DocumentFile} :
    Answers ⟨.markModified, f, [], .ok .marked, { f with isModified := true }⟩
  | saved {f : DocumentFile} {call : Call} {path : String} {d : Document}
    (hpath : call.path? f = some path) (hrecord : call.record? f = some d) :
    Answers ⟨call, f, [.write path d.text true], .ok (.saved true),
      ⟨path, false, d.metadata.created⟩⟩
  | opened {f : DocumentFile} {path text : String} {d : Document} {g : Graph}
    (hread : Document.parse? text = some d) (hgraph : d.toGraph = .ok g) :
    Answers ⟨.openAt path, f, [.read path (some text)], .ok (.opened g d.trainSettings),
      ⟨path, false, d.metadata.created⟩⟩
  /-- There is no file to save to. -/
  | pathless {f : DocumentFile} {g : Graph} {settings : Option TrainSettings} {now : String}
    (hpath : f.path = none) :
    Answers ⟨.save g settings now, f, [], .ok (.saved false), f⟩
  | unwritten {f : DocumentFile} {call : Call} {path : String} {d : Document}
    (hpath : call.path? f = some path) (hrecord : call.record? f = some d) :
    Answers ⟨call, f, [.write path d.text false], .error .file, f⟩
  | unread {f : DocumentFile} {path : String} :
    Answers ⟨.openAt path, f, [.read path none], .error .file, f⟩
  | illegible {f : DocumentFile} {path text : String} (hread : Document.parse? text = none) :
    Answers ⟨.openAt path, f, [.read path (some text)], .error .json, f⟩
  /-- The document that was read describes no graph. -/
  | unbuilt {f : DocumentFile} {path text : String} {d : Document} {error : Document.Error}
    (hread : Document.parse? text = some d) (hgraph : d.toGraph = .error error) :
    Answers ⟨.openAt path, f, [.read path (some text)], .error error, f⟩

end Event

/-! ## One call -/

variable {f : DocumentFile} {s : σ} {call : Call}

theorem saveAs_apply (f : DocumentFile) (path : String) (g : Graph)
    (settings : Option TrainSettings) (now : String) (s : σ) :
    f.saveAs path g settings now s =
      match FileStore.write path (f.record g settings now).text s with
      | (true, s') => ((.ok (), ⟨path, false, f.created.getD now⟩), s')
      | (false, s') => ((.error .file, f), s') := by
  have hrecord : { Document.ofGraph g settings now with
      metadata.created := f.created.getD (Document.ofGraph g settings now).metadata.created } =
    f.record g settings now := rfl
  simp only [saveAs, Document.write, bind, StateT.bind, hrecord]
  rcases FileStore.write path (f.record g settings now).text s with ⟨_ | _, s'⟩ <;> rfl

theorem openAt_apply (f : DocumentFile) (path : String) (s : σ) :
    f.openAt path s =
      match FileStore.read path s with
      | (none, s') => ((.error .file, f), s')
      | (some text, s') =>
        match Document.parse? text with
        | none => ((.error .json, f), s')
        | some d =>
          match d.toGraph with
          | .error e => ((.error e, f), s')
          | .ok g => ((.ok (g, d.trainSettings), ⟨path, false, d.metadata.created⟩), s') := by
  simp only [openAt, Document.read, bind, StateT.bind]
  rcases FileStore.read path s with ⟨_ | text, s'⟩
  · rfl
  · dsimp only
    cases Document.parse? text with
    | none => rfl
    | some d =>
      change (match d.toGraph with | .error e => StateT.pure _ | .ok g => StateT.pure _) s' = _
      dsimp only
      cases d.toGraph <;> rfl

/-- A call with a document to write writes it, and if that succeeds takes on its time of creation. -/
theorem make_of_record? {path : String} {d : Document} (hpath : call.path? f = some path)
    (hrecord : call.record? f = some d) (s : σ) :
    call.make f s =
      match FileStore.write path d.text s with
      | (true, s') => ((.ok (.saved true), ⟨path, false, d.metadata.created⟩), s')
      | (false, s') => ((.error .file, f), s') := by
  cases call with
  | save g settings now =>
    obtain rfl := Option.some.inj hrecord
    have hpath : f.path = some path := hpath
    simp only [Call.make, save, hpath, bind, StateT.bind, saveAs_apply]
    rcases FileStore.write path (f.record g settings now).text s with ⟨_ | _, s'⟩ <;> rfl
  | saveAs path g settings now =>
    obtain rfl := Option.some.inj hrecord
    obtain rfl := Option.some.inj hpath
    simp only [Call.make, bind, StateT.bind, saveAs_apply]
    rcases FileStore.write path (f.record g settings now).text s with ⟨_ | _, s'⟩ <;> rfl
  | markModified => exact nomatch hrecord
  | openAt path => exact nomatch hrecord

theorem make_openAt (f : DocumentFile) (path : String) (s : σ) :
    (Call.openAt path).make f s =
      match FileStore.read path s with
      | (none, s') => ((.error .file, f), s')
      | (some text, s') =>
        match Document.parse? text with
        | none => ((.error .json, f), s')
        | some d =>
          match d.toGraph with
          | .error e => ((.error e, f), s')
          | .ok g => ((.ok (.opened g d.trainSettings), ⟨path, false, d.metadata.created⟩), s') := by
  simp only [Call.make, bind, StateT.bind, openAt_apply]
  rcases FileStore.read path s with ⟨_ | text, s'⟩
  · rfl
  · dsimp only
    cases Document.parse? text with
    | none => rfl
    | some d =>
      dsimp only
      cases d.toGraph <;> rfl

theorem answers_of_record? {path : String} {d : Document} (hpath : call.path? f = some path)
    (hrecord : call.record? f = some d) (s : σ) : (f.event s call).Answers := by
  have hwatch : FileStore.write path d.text (⟨s, []⟩ : Watched σ) =
    ((FileStore.write path d.text s).1, ⟨(FileStore.write path d.text s).2,
      [.write path d.text (FileStore.write path d.text s).1]⟩) := rfl
  rw [event, make_of_record? hpath hrecord, make_of_record? hpath hrecord, hwatch]
  rcases FileStore.write path d.text s with ⟨_ | _, s'⟩
  · exact .unwritten hpath hrecord
  · exact .saved hpath hrecord

/-- What a call does. -/
theorem answers_event (f : DocumentFile) (s : σ) (call : Call) : (f.event s call).Answers := by
  cases call with
  | markModified => exact .marked
  | save g settings now =>
    cases hpath : f.path with
    | none =>
      have hrun : ∀ {τ : Type} [FileStore τ] (s : τ),
          (Call.save g settings now).make f s = ((.ok (.saved false), f), s) := by
        intro τ _ s
        simp only [Call.make, save, hpath]
        rfl
      rw [event, hrun, hrun]
      exact .pathless hpath
    | some path =>
      have hpath : (Call.save g settings now).path? f = some path := hpath
      exact answers_of_record? hpath rfl s
  | saveAs path g settings now => exact answers_of_record? rfl rfl s
  | openAt path =>
    have hwatch : FileStore.read path (⟨s, []⟩ : Watched σ) =
      ((FileStore.read path s).1, ⟨(FileStore.read path s).2,
        [.read path (FileStore.read path s).1]⟩) := rfl
    rw [event, make_openAt, make_openAt, hwatch]
    rcases FileStore.read path s with ⟨_ | text, s'⟩
    · exact .unread
    · dsimp only
      cases hread : Document.parse? text with
      | none => exact .illegible hread
      | some d =>
        dsimp only
        cases hgraph : d.toGraph with
        | error e => exact .unbuilt hread hgraph
        | ok g => exact .opened hread hgraph

namespace Event

variable {e : Event} {created : String}

/-- A call that is refused changes nothing. -/
theorem Answers.unchanged (h : e.Answers) (hrefused : e.Refused) : e.after = e.before := by
  cases h with
  | marked => simp [Refused] at hrefused
  | saved => simp [Refused] at hrefused
  | opened => simp [Refused] at hrefused
  | _ => rfl

/-- A file that is opened or written becomes the file of the document, without changes. -/
theorem Answers.current (h : e.Answers) {path : String} (hcompletes : e.Completes path) :
    e.after.path = some path ∧ e.after.isModified = false := by
  obtain ⟨hpath, answer, hanswer⟩ := hcompletes
  cases h with
  | marked => exact nomatch hpath
  | saved hpath' => exact ⟨hpath'.symm.trans hpath, rfl⟩
  | opened => exact ⟨hpath, rfl⟩
  | pathless hpath' => exact nomatch hpath'.symm.trans hpath
  | _ => exact nomatch hanswer

/-- A document that is written is given the time of creation that is remembered. -/
theorem created_of_record? {call : Call} {f : DocumentFile} {d : Document}
    (hrecord : call.record? f = some d) (hcreated : f.created = some created) :
    d.metadata.created = created := by
  cases call with
  | save g settings now | saveAs path g settings now =>
    obtain rfl := Option.some.inj hrecord
    simp [record, hcreated]
  | markModified | openAt => exact nomatch hrecord

/-- A file that is opened or written gives a time of creation. -/
theorem Answers.exists_settles (h : e.Answers) {path : String} (hcompletes : e.Completes path) :
    ∃ created, e.Settles created := by
  obtain ⟨hpath, answer, hanswer⟩ := hcompletes
  cases h with
  | marked => exact nomatch hpath
  | saved hpath' =>
    exact ⟨_, _, _, ⟨hpath', answer, hanswer⟩, Document.createdIn?_text _, .inr rfl⟩
  | opened hread =>
    exact ⟨_, _, _, ⟨rfl, answer, hanswer⟩, Document.createdIn?_of_parse? hread, .inl rfl⟩
  | pathless hpath' => exact nomatch hpath'.symm.trans hpath
  | _ => exact nomatch hanswer

/-- The time of creation of a file that was opened or written is remembered. -/
theorem Answers.created_of_settles (h : e.Answers) (hsettles : e.Settles created) :
    e.after.created = some created := by
  obtain ⟨path, text, ⟨-, answer, hanswer⟩, hcreated, haccess⟩ := hsettles
  cases h with
  | saved =>
    obtain ⟨-, rfl⟩ : _ ∧ _ = text := by simpa using haccess
    exact (Document.createdIn?_text _).symm.trans hcreated
  | opened hread =>
    obtain ⟨-, rfl⟩ : _ ∧ _ = text := by simpa using haccess
    exact (Document.createdIn?_of_parse? hread).symm.trans hcreated
  | marked | pathless => simp at haccess
  | _ => exact nomatch hanswer

/-- A time of creation that is remembered stays, unless a document is opened. -/
theorem Answers.created_of_not_opens (h : e.Answers) (hcreated : e.before.created = some created)
    (hopens : ¬e.Opens) : e.after.created = some created := by
  cases h with
  | saved _ hrecord => exact congrArg some (created_of_record? hrecord hcreated)
  | opened => exact absurd ⟨_, _, rfl⟩ hopens
  | _ => exact hcreated

/-- A time of creation that is remembered is written. -/
theorem Answers.created_of_write (h : e.Answers) (hcreated : e.before.created = some created)
    {path text : String} {written : Bool} (hwrite : .write path text written ∈ e.accesses) :
    Document.createdIn? text = some created := by
  cases h with
  | saved _ hrecord | unwritten _ hrecord =>
    obtain ⟨-, rfl, -⟩ : _ ∧ text = _ ∧ _ := by simpa using hwrite
    rw [Document.createdIn?_text, created_of_record? hrecord hcreated]
  | _ => simp at hwrite

end Event

/-! ## Many calls -/

variable {calls : List Call} {e e' : Event} {between rest after : List Event} {created : String}

/-- Behind each event there are the events of further calls. -/
theorem exists_trace_of_append (h : f.trace s calls = between ++ e :: rest) :
    e.Answers ∧ ∃ (s' : σ) (calls' : List Call), rest = e.after.trace s' calls' := by
  induction between generalizing f s calls with
  | nil =>
    cases calls with
    | nil => exact nomatch h
    | cons call calls =>
      obtain ⟨rfl, rfl⟩ := List.cons.inj h
      exact ⟨answers_event .., _, calls, rfl⟩
  | cons first between ih =>
    cases calls with
    | nil => exact nomatch h
    | cons call calls => exact ih (List.cons.inj h).2

/-- A time of creation that is remembered is written until a document is opened. -/
theorem settled_trace (hcreated : f.created = some created)
    (h : f.trace s calls = between ++ e :: rest) (hbetween : ∀ x ∈ between, ¬x.Opens)
    {path text : String} {written : Bool} (hwrite : .write path text written ∈ e.accesses) :
    Document.createdIn? text = some created := by
  induction between generalizing f s calls with
  | nil =>
    cases calls with
    | nil => exact nomatch h
    | cons call calls =>
      obtain ⟨rfl, -⟩ := List.cons.inj h
      exact (answers_event f s call).created_of_write hcreated hwrite
  | cons first between ih =>
    rw [List.forall_mem_cons] at hbetween
    cases calls with
    | nil => exact nomatch h
    | cons call calls =>
      obtain ⟨rfl, hrest⟩ := List.cons.inj h
      exact ih ((answers_event f s call).created_of_not_opens hcreated hbetween.1) hrest hbetween.2

/-- Over any calls and with any store, a call that fails and a save without a file leave the file of
the document as it was, and a file that is opened or written becomes the current one, without
changes.  From then on every text that is written, or was to be written, gives the same time of
creation, until another document is opened. -/
theorem trace_keeps (f : DocumentFile) (s : σ) (calls : List Call) :
    (∀ e ∈ f.trace s calls, e.Answers ∧ (e.Refused → e.after = e.before) ∧
      ∀ path, e.Completes path → e.after.path = some path ∧ e.after.isModified = false ∧
        ∃ created, e.Settles created) ∧
    ∀ before e between e' rest created,
      f.trace s calls = before ++ e :: (between ++ e' :: rest) → e.Settles created →
      (∀ x ∈ between, ¬x.Opens) → ∀ path text written,
        .write path text written ∈ e'.accesses → Document.createdIn? text = some created := by
  constructor
  · intro e he
    obtain ⟨before, rest, h⟩ := List.append_of_mem he
    have hanswers := (exists_trace_of_append h).1
    refine ⟨hanswers, hanswers.unchanged, fun path hcompletes => ?_⟩
    obtain ⟨hpath, hclean⟩ := hanswers.current hcompletes
    exact ⟨hpath, hclean, hanswers.exists_settles hcompletes⟩
  · intro before e between e' rest created h hsettles hbetween path text written hwrite
    obtain ⟨hanswers, s', calls', h'⟩ := exists_trace_of_append h
    exact settled_trace (hanswers.created_of_settles hsettles) h'.symm hbetween hwrite

end DocumentFile

end LayerNet

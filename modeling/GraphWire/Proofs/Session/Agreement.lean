import GraphWire.Proofs.Session.Steps

/-!
# Reading what a session has written

Whatever a session closes stays where it is: later calls only put bytes in front, and sharing a
vtable drops none that were there before.  So once the buffer is finished, a reader finds every
object at the distance from the end that its caller was told.
-/

namespace GraphWire

/-! ## Runs -/

/-- A call that succeeds in a session. -/
theorem Builder.step_eq_ok {builder next : Builder} {call : Call} {answer : Answer}
    (hstep : builder.step call = (.ok answer, next)) : call.perform builder = .ok answer next := by
  unfold step at hstep
  split at hstep
  · next hresult =>
      cases hstep
      exact hresult
  · cases hstep

/-- A session without errors begins with a call that succeeds and goes on without errors. -/
theorem Builder.of_run_cons {builder : Builder} {call : Call} {calls : List Call}
    {answers : List Answer} (hrun : (builder.run (call :: calls)).1 = answers.map .ok) :
    ∃ answer later next, answers = answer :: later ∧ builder.step call = (.ok answer, next) ∧
      (next.run calls).1 = later.map .ok := by
  cases hstep : builder.step call with
  | mk outcome next =>
      cases answers with
      | nil => simp [Builder.run] at hrun
      | cons answer later =>
          simp only [Builder.run, hstep, List.map_cons, List.cons.injEq] at hrun
          obtain ⟨rfl, hlater⟩ := hrun
          exact ⟨answer, later, next, rfl, rfl, hlater⟩

/-- A session keeps a builder in agreement with its record. -/
theorem Builder.Keeps.run {builder : Builder} {force : Bool} {record : Record}
    (hkeeps : builder.Keeps force record) {calls : List Call} {answers : List Answer}
    (hrun : (builder.run calls).1 = answers.map .ok)
    (hallowed : record.AllowsAll force (calls.zip answers)) :
    (builder.run calls).2.Keeps force (record.follow force (calls.zip answers)) := by
  induction calls generalizing builder record answers with
  | nil => exact hkeeps
  | cons call calls ih =>
      obtain ⟨answer, later, next, rfl, hstep, hlater⟩ := of_run_cons hrun
      obtain ⟨hcall, hrest⟩ := hallowed
      have hnext := hkeeps.perform hcall (step_eq_ok hstep)
      have hlast := ih hnext hlater hrest
      simpa only [Builder.run, hstep, List.zip_cons_cons, Record.follow] using hlast

theorem Builder.run_cons (builder : Builder) (call : Call) (calls : List Call) :
    builder.run (call :: calls) = ((builder.step call).1 :: ((builder.step call).2.run calls).1,
      ((builder.step call).2.run calls).2) :=
  rfl

theorem Builder.run_append (builder : Builder) (first second : List Call) :
    builder.run (first ++ second) = ((builder.run first).1 ++ ((builder.run first).2.run second).1,
      ((builder.run first).2.run second).2) := by
  induction first generalizing builder with
  | nil => rfl
  | cons call calls ih =>
      simp only [List.cons_append, Builder.run, ih]

theorem Builder.length_run (builder : Builder) (calls : List Call) :
    (builder.run calls).1.length = calls.length := by
  induction calls generalizing builder with
  | nil => rfl
  | cons call calls ih =>
      simp only [Builder.run, List.length_cons, ih]

/-- A new builder agrees with a session that has not begun. -/
theorem Builder.keeps_new {options : BuilderOptions} {settings : BuilderSettings}
    (hsettings : options.resolve = .ok settings) :
    (Builder.new settings).Keeps settings.forceDefaults .empty where
  sound := sound_new hsettings
  forceDefaults := rfl
  opened := Or.inl rfl
  closed := by simp [Record.empty]
  modest := modest_new settings 31
  raised := fun hclosed => absurd rfl hclosed

/-- The last two calls of a session that ends with a finished buffer. -/
theorem Builder.run_finish {builder : Builder} {calls : List Call} {answers : List Answer}
    {root : Number} {head : FinishOptions} {bytes : List UInt8}
    (hrun : (builder.run (calls ++ [.finish root head, .bytes])).1
      = answers.map .ok ++ [.ok .nothing, .ok (.bytes bytes)]) :
    (builder.run calls).1 = answers.map .ok ∧
      ∃ finished, Build.finish root head (builder.run calls).2 = .ok () finished ∧
        finished.written.bytes = bytes := by
  rw [run_append] at hrun
  obtain ⟨hcalls, hends⟩ := List.append_inj' hrun (by simp [length_run])
  refine ⟨hcalls, ?_⟩
  cases hfinish : (builder.run calls).2.step (.finish root head) with
  | mk outcome finished =>
      cases hbytes : finished.step .bytes with
      | mk outcome' last =>
          simp only [Builder.run, hfinish, hbytes, List.cons.injEq, and_true] at hends
          obtain ⟨rfl, rfl⟩ := hends
          obtain ⟨result, hdone, hresult⟩ := Call.of_perform_map (step_eq_ok hbytes)
          obtain ⟨rfl, rfl⟩ := Build.of_bytes hdone
          cases hresult
          exact ⟨_, Call.of_perform_nothing (step_eq_ok hfinish), rfl⟩

theorem Builder.step_finish (builder : Builder) (root : Number) (options : FinishOptions) :
    builder.step (.finish root options)
      = match Build.finish root options builder with
        | .ok _ finished => (.ok .nothing, finished)
        | .error error failed => (.error error, failed) := by
  cases hresult : Build.finish root options builder with
  | ok value finished =>
      have hdone : (Call.finish root options).perform builder = .ok .nothing finished :=
        Build.bind_of_ok hresult
      simp only [step, hdone]
  | error error failed =>
      have hdone : (Call.finish root options).perform builder = .error error failed :=
        Build.bind_of_error hresult
      simp only [step, hdone]

/-- A finished buffer gives its bytes and stays as it is. -/
theorem Builder.step_bytes {builder : Builder} (hphase : builder.phase = .finished) :
    builder.step .bytes = (.ok (.bytes builder.written.bytes), builder) := by
  have hbytes : Build.bytes builder = .ok builder.written.bytes builder := by
    simp only [Build.bytes, Build.get_bind_apply, hphase]
    rfl
  simp [step, Call.perform, hbytes, Functor.map, EStateM.map]

/-! ## Finished sessions -/

/-- A session on a new builder in which every call succeeds and keeps to the terms, and which ends
with the bytes of the finished buffer. -/
structure FinishedSession (settings : BuilderSettings) where
  calls : List Call
  answers : List Answer
  root : Number
  head : FinishOptions
  bytes : List UInt8
  succeeds : ((Builder.new settings).run (calls ++ [.finish root head, .bytes])).1
    = answers.map .ok ++ [.ok .nothing, .ok (.bytes bytes)]
  allowed : Record.empty.AllowsAll settings.forceDefaults (calls.zip answers)

namespace FinishedSession

variable {settings : BuilderSettings}

/-- The objects that the session has closed, with their offsets. -/
def closed (session : FinishedSession settings) : List (ℕ × Item) :=
  (Record.empty.follow settings.forceDefaults (session.calls.zip session.answers)).closed

/-- A reader of the bytes finds every object that was closed, and from the head the root table and
the identifier. -/
theorem closed_found {options : BuilderOptions} (hsettings : options.resolve = .ok settings)
    (session : FinishedSession settings) {rootOffset : ℕ} {slots : List (ℕ × Content)}
    (hroot : session.root.toNat? = some rootOffset)
    (htable : (rootOffset, .table slots) ∈ session.closed) {window : Window}
    (hwindow : window.toList = session.bytes) :
    (∀ entry ∈ session.closed, entry.1 ≤ window.length ∧
      entry.2.FoundAt window (window.length - entry.1)) ∧
    window.rootTable session.head.sizePrefix = .ok (window.length - rootOffset) ∧
    ∀ identifier ∈ session.head.identifier,
      window.identifier? session.head.sizePrefix = some identifier := by
  obtain ⟨hcalls, finished, hfinish, hbytes⟩ := Builder.run_finish session.succeeds
  have hkeeps := (Builder.keeps_new hsettings).run hcalls session.allowed
  obtain ⟨offset, hoffset, -, hfinishes⟩ :=
    (Build.finish_writes hkeeps.sound session.root session.head).ok hfinish
  obtain rfl : rootOffset = offset := Option.some.inj (hroot.symm.trans hoffset)
  have hwritten : window.toList = finished.written.bytes := hwindow.trans hbytes.symm
  refine ⟨?_, hfinishes.rootTable_eq hwritten, ?_⟩
  · intro entry hentry
    have hplaced := (hkeeps.closed entry hentry).mono hfinishes.suffix
    rw [← hwritten] at hplaced
    have hlength := hplaced.le_length
    rw [Window.length_toList] at hlength
    exact ⟨hlength, hplaced.found⟩
  · intro identifier hidentifier
    have hraised := hkeeps.raised (List.ne_nil_of_mem htable)
    exact hfinishes.identifier_eq (le_refl 31) hraised hidentifier hwritten

/-- A vector with a greater alignment than its elements have, and a table that refers to it and
leaves out a field that has its default. -/
theorem closed_found_vector_and_table :
    ∃ session : FinishedSession ⟨1024, false, true⟩,
      session.closed = [(24, .table [(0, .scalar .int32 (5 : Number)), (2, .reference 12)]),
        (12, .vector 2 [.scalar .uint16 (7 : Number), .scalar .uint16 (9 : Number)])] ∧
      (∀ entry ∈ session.closed, entry.1 ≤ (Window.ofList session.bytes).length ∧
        entry.2.FoundAt (.ofList session.bytes)
          ((Window.ofList session.bytes).length - entry.1)) ∧
      (Window.ofList session.bytes).rootTable session.head.sizePrefix
        = .ok ((Window.ofList session.bytes).length - 24) ∧
      ∀ identifier ∈ session.head.identifier,
        (Window.ofList session.bytes).identifier? session.head.sizePrefix = some identifier := by
  let session : FinishedSession ⟨1024, false, true⟩ := {
    calls := [.startVector 2 2 8, .write .uint16 (9 : Number), .write .uint16 (7 : Number),
      .endVector, .startTable 3, .addField 2 (.reference 12),
      .addField 1 (.scalar .int64 (-1) (-1)),
      .addField 0 (.scalar .int32 (5 : Number) (0 : Number)), .endTable]
    answers := [.nothing, .nothing, .nothing, .offset 12, .nothing, .nothing, .nothing, .nothing,
      .offset 24]
    root := 24
    head := ⟨some "TEST", true⟩
    bytes := [44, 0, 0, 0, 20, 0, 0, 0, 84, 69, 83, 84, 0, 0, 10, 0, 12, 0, 4, 0, 0, 0, 8, 0,
      10, 0, 0, 0, 5, 0, 0, 0, 4, 0, 0, 0, 2, 0, 0, 0, 7, 0, 9, 0, 0, 0, 0, 0]
    succeeds := by decide +kernel
    allowed := ⟨⟨⟨1, rfl⟩, 3, rfl⟩, rfl, rfl, trivial, trivial, trivial, trivial, trivial, trivial,
      trivial⟩ }
  have hclosed : session.closed
      = [(24, .table [(0, .scalar .int32 (5 : Number)), (2, .reference 12)]),
        (12, .vector 2 [.scalar .uint16 (7 : Number), .scalar .uint16 (9 : Number)])] := by rfl
  have hroot : (24, Item.table [(0, .scalar .int32 (5 : Number)), (2, .reference 12)])
      ∈ session.closed := by
    rw [hclosed]
    exact List.mem_cons_self
  have hsettings : BuilderOptions.resolve {} = .ok ⟨1024, false, true⟩ := by rfl
  exact ⟨session, hclosed, session.closed_found hsettings rfl hroot (Window.toList_ofList _)⟩

end FinishedSession

end GraphWire

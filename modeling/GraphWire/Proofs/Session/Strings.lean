import GraphWire.Proofs.Session.Ledger
import GraphWire.Proofs.Text.Utf8

/-!
# The strings of a session

A string that a session has written stays in the buffer until that is cleared, at the offset that
its caller was told.  Whatever alignments and paddings come around it, every reference to it gives
its bytes, and its text but for a byte order mark at the front.
-/

namespace GraphWire

/-- The strings in a buffer with their offsets, after one more call. -/
def noteString (strings : List (ℕ × List UInt8)) : Call → Answer → List (ℕ × List UInt8)
  | .string bytes, .offset offset => (offset, bytes) :: strings
  | .clear, _ => []
  | _, _ => strings

/-- A builder has some strings at their offsets. -/
def Builder.HoldsStrings (builder : Builder) (strings : List (ℕ × List UInt8)) : Prop :=
  ∀ entry ∈ strings, StringAt builder.written.bytes entry.1 entry.2

namespace Builder.HoldsStrings

variable {before after : Builder} {strings : List (ℕ × List UInt8)}

theorem mono (hstrings : before.HoldsStrings strings)
    (hsuffix : before.written.bytes <:+ after.written.bytes) : after.HoldsStrings strings :=
  fun entry hentry => (hstrings entry hentry).mono hsuffix

/-- A call that succeeds adds the string that it has written, if any. -/
theorem perform {settings : BuilderSettings} {ledger : Ledger} {tables : List PlacedTable}
    (haccounts : before.Accounts settings ledger tables) {call : Call} {answer : Answer}
    (hbasic : call.Basic) (hstrings : before.HoldsStrings strings)
    (hresult : call.perform before = .ok answer after) :
    after.HoldsStrings (noteString strings call answer) := by
  by_cases hclear : call = .clear
  · subst hclear
    exact nofun
  · have hearlier := hstrings.mono (Call.perform_appends hclear hresult)
    cases call with
    | string bytes =>
        obtain ⟨offset, hdone, rfl⟩ := Call.of_perform_map hresult
        obtain ⟨-, hstring⟩ := (Build.stringBytes_writes haccounts.sound bytes).ok hdone
        exact List.forall_mem_cons.mpr ⟨hstring, hearlier⟩
    | clear => exact absurd rfl hclear
    | _ => exact hearlier

end Builder.HoldsStrings

/-- Every reference to a place gives the bytes of a text there, and the text as a reader gives
it. -/
structure Window.KeepsText (window : Window) (start : ℕ) (text : String) : Prop where
  stringBytes : ∀ position, window.indirect position = .ok start →
    window.stringBytes position = .ok (Utf8.encode text)
  string : ∀ position, window.indirect position = .ok start →
    window.string position = .ok (Utf8.unmarked text)
  slot : ∀ position slot, Table.LeadsTo ⟨window, position⟩ slot start →
    Table.string? ⟨window, position⟩ slot = .ok (some (Utf8.unmarked text))

theorem StringAt.keepsText {window : Window} {offset : ℕ} {text : String}
    (hstring : StringAt window.toList offset (Utf8.encode text)) :
    window.KeepsText (window.length - offset) text where
  stringBytes := hstring.holds.stringBytes
  string := fun position hposition =>
    hstring.holds.string position _ hposition (Utf8.decode?_encode_unmarked text)
  slot := fun position slot hleads =>
    hstring.holds.slot position slot _ hleads (Utf8.decode?_encode_unmarked text)

/-- A slot of a closed table leads to what its reference refers to. -/
theorem Builder.Accounts.leadsTo {builder : Builder} {settings : BuilderSettings} {ledger : Ledger}
    {tables : List PlacedTable} (haccounts : builder.Accounts settings ledger tables)
    {window : Window} (hsuffix : builder.written.bytes <:+ window.toList) {closed : ClosedTable}
    (hclosed : closed ∈ ledger.closed) {value : FilledSlot} (hvalue : value ∈ closed.filled)
    {target : ℕ} (hcontent : value.content = .reference target) :
    Table.LeadsTo ⟨window, (window.length - closed.offset : ℕ)⟩ value.slot
      (window.length - target) := by
  rw [haccounts.closed] at hclosed
  obtain ⟨placed, hplaced, rfl⟩ := List.mem_map.mp hclosed
  have htable : TableAt window.toList placed.offset (placed.filled.map FilledSlot.holding) :=
    ⟨_, _, _, (haccounts.layouts placed hplaced).mono hsuffix, rfl⟩
  have hslot : (value.slot, Content.reference target) ∈ placed.filled.map FilledSlot.holding := by
    rw [← hcontent]
    exact List.mem_map_of_mem hvalue
  exact (htable.holds hslot).position

/-- A string that a session has written is read from every reference to it, and from every slot of a
closed table that refers to it, without the byte order mark that it may begin with.  That is the
string itself exactly if it begins with no mark, and two strings are read as the same one exactly if
they are the same or one is the other with a mark in front. -/
theorem Builder.strings_read {options : BuilderOptions} {settings : BuilderSettings}
    (hsettings : options.resolve = .ok settings) {calls : List Call}
    (hbasic : ∀ call ∈ calls, call.Basic) {answers : List Answer} {root : Number}
    {head : FinishOptions} {bytes : List UInt8}
    (hrun : ((Builder.new settings).run (calls ++ [.finish root head, .bytes])).1
      = answers.map .ok ++ [.ok .nothing, .ok (.bytes bytes)])
    {window : Window} (hwindow : window.toList = bytes) :
    let strings := observe noteString [] (calls.zip answers)
    let tables := ((Builder.new settings).account .empty calls).closed
    (∀ offset text, (offset, Utf8.encode text) ∈ strings →
      window.KeepsText (window.length - offset) text ∧
      ∀ closed ∈ tables, ∀ value ∈ closed.filled, value.content = .reference offset →
        Table.string? ⟨window, (window.length - closed.offset : ℕ)⟩ value.slot
          = .ok (some (Utf8.unmarked text))) ∧
    (∀ text, Utf8.unmarked text = text ↔ ¬Utf8.Marked text) ∧
    ∀ text text', Utf8.unmarked text = Utf8.unmarked text' ↔ text = text' ∨
      ¬Utf8.Marked text' ∧ text = Utf8.mark ++ text' ∨
      ¬Utf8.Marked text ∧ text' = Utf8.mark ++ text := by
  obtain ⟨hcalls, finished, hfinish, hbytes⟩ := run_finish hrun
  have hnew := Accounts.new hsettings
  obtain ⟨⟨tables, haccounts⟩, -⟩ := hnew.run hbasic hcalls
  have hstrings := Accounts.run_observe (fun builder _ => builder.HoldsStrings) noteString
    (fun _ => id) (fun haccounts => HoldsStrings.perform haccounts) hnew
    (show HoldsStrings _ [] from nofun) hbasic hcalls
  have hsuffix : ((Builder.new settings).run calls).2.written.bytes <:+ window.toList := by
    rw [hwindow, ← hbytes]
    exact (Build.finish_extending root head hfinish).suffix
  refine ⟨?_, Utf8.unmarked_eq_self_iff, Utf8.unmarked_eq_unmarked_iff⟩
  intro offset text hwritten
  have hkeeps := ((hstrings _ hwritten).mono hsuffix).keepsText
  refine ⟨hkeeps, ?_⟩
  intro closed hclosed value hvalue hcontent
  exact hkeeps.slot _ _ (haccounts.leadsTo hsuffix hclosed hvalue hcontent)

/-! ## One string in one field -/

/-- A string of five or six bytes in the only field of a table. -/
def Call.named (text : String) : List Call :=
  [.string (Utf8.encode text), .startTable 1, .addField 0 (.reference 12), .endTable]

theorem Builder.strings_read_accent :
    ∃ bytes, ((Builder.new ⟨1024, false, true⟩).run
        (Call.named "h\u00e9llo" ++ [.finish 20 {}, .bytes])).1
      = [.ok (.offset 12), .ok .nothing, .ok .nothing, .ok (.offset 20), .ok .nothing,
        .ok (.bytes bytes)] ∧
      Table.string? ⟨.ofList bytes, (12 : ℕ)⟩ (0 : ℕ) = .ok (some "h\u00e9llo") := by
  have hsettings : BuilderOptions.resolve {} = .ok ⟨1024, false, true⟩ := by rfl
  have hbasic : ∀ call ∈ Call.named "h\u00e9llo", call.Basic := by simp [Call.named, Call.Basic]
  let bytes : List UInt8 := [12, 0, 0, 0, 0, 0, 6, 0, 8, 0, 4, 0, 6, 0, 0, 0, 4, 0, 0, 0,
    6, 0, 0, 0, 104, 195, 169, 108, 108, 111, 0, 0]
  let answers : List Answer := [.offset 12, .nothing, .nothing, .offset 20]
  have hrun : ((Builder.new ⟨1024, false, true⟩).run
      (Call.named "h\u00e9llo" ++ [.finish 20 {}, .bytes])).1
      = answers.map .ok ++ [.ok .nothing, .ok (.bytes bytes)] := by decide +kernel
  have hleads : Table.LeadsTo ⟨.ofList bytes, (12 : ℕ)⟩ (0 : ℕ)
      ((Window.ofList bytes).length - 12) := ⟨16, by decide +kernel, by decide +kernel⟩
  obtain ⟨hread, -⟩ := strings_read hsettings hbasic hrun (Window.toList_ofList bytes)
  obtain ⟨hkeeps, -⟩ := hread 12 "h\u00e9llo" List.mem_cons_self
  have hname := hkeeps.slot _ _ hleads
  rw [Utf8.unmarked_eq (by decide)] at hname
  exact ⟨bytes, hrun, hname⟩

/-- A string that begins with a byte order mark is not read back. -/
theorem Builder.strings_read_marked :
    ∃ bytes, ((Builder.new ⟨1024, false, true⟩).run
        (Call.named "\uFEFFid" ++ [.finish 20 {}, .bytes])).1
      = [.ok (.offset 12), .ok .nothing, .ok .nothing, .ok (.offset 20), .ok .nothing,
        .ok (.bytes bytes)] ∧
      Table.string? ⟨.ofList bytes, (12 : ℕ)⟩ (0 : ℕ) = .ok (some "id") ∧ "\uFEFFid" ≠ "id" := by
  let bytes : List UInt8 := [12, 0, 0, 0, 0, 0, 6, 0, 8, 0, 4, 0, 6, 0, 0, 0, 4, 0, 0, 0,
    5, 0, 0, 0, 239, 187, 191, 105, 100, 0, 0, 0]
  exact ⟨bytes, by decide +kernel, by decide +kernel, by decide⟩

end GraphWire

import GraphWire.Proofs.Session.Ledger
import GraphWire.Proofs.Session.Trace

/-!
# The written region of a session

What a session has written fits the buffer after every call, also one that fails.  A call that
succeeds leaves the written bytes where they are, unless it discards all of them, and whatever it
adds is a part that it is known to write or zero.
-/

namespace GraphWire

/-! ## Calls -/

/-- Whether the alignments that a call asks for are powers of two and the sizes it gives are not
less than none. -/
def Call.Sized : Call → Prop
  | prepare alignment additional =>
      (∃ exponent : ℕ, alignment = (2 ^ exponent : ℕ)) ∧ Number.atMost 0 additional = true
  | startVector elementSize _ alignment =>
      (∃ exponent : ℕ, alignment = (2 ^ exponent : ℕ)) ∧ Number.atMost 0 elementSize = true
  | _ => True

theorem Call.Sized.powered {call : Call} (hsized : call.Sized) : call.Powered := by
  cases call with
  | prepare alignment additional => exact hsized.1
  | startVector elementSize count alignment => exact hsized.1
  | _ => trivial

section Calls

open Build

/-- Whether or not it succeeds, a call leaves a buffer that holds what is written. -/
theorem Call.perform_stays {call : Call} (hsized : call.Sized) :
    Leads Builder.Stays call.perform := by
  cases call with
  | prepare alignment additional =>
      obtain ⟨hpower, hadditional⟩ := hsized
      exact (prepare_stays hpower (.inr (Number.atLeast_of_atMost hadditional))).bind
        fun _ => .pure _
  | write type value => exact (write_stays type value).bind fun _ => .pure _
  | writeOffset target => exact (writeOffset_stays target).bind fun _ => .pure _
  | addField slot field => exact (addField_stays slot field).bind fun _ => .pure _
  | startTable fieldCount => exact (startTable_stays fieldCount).bind fun _ => .pure _
  | endTable => exact endTable_stays.bind fun _ => .pure _
  | startVector elementSize count alignment =>
      obtain ⟨hpower, helement⟩ := hsized
      exact (startVector_stays count helement hpower).bind fun _ => .pure _
  | endVector => exact endVector_stays.bind fun _ => .pure _
  | scalars type values => exact (scalars_stays type values).bind fun _ => .pure _
  | offsets targets => exact (offsets_stays targets).bind fun _ => .pure _
  | string content => exact (stringBytes_stays content).bind fun _ => .pure _
  | attrs _ | payload _ | operator _ | constant _ | valueNode | node _ | graph _ | model _ =>
      exact stays_composes.perform id
  | finish root options => exact (finish_stays root options).bind fun _ => .pure _
  | bytes => exact Leads.sequences.bytes.bind fun _ => .pure _
  | offset => exact .look fun _ => .pure _
  | clear => exact clear_stays.bind fun _ => .pure _

end Calls

/-! ## Runs -/

/-- Every byte belongs to a part or is zero. -/
theorem Laid.byte {parts : List (ℕ × Part)} {bytes : List UInt8} (hlaid : Laid parts bytes)
    {index : ℕ} {byte : UInt8} (hbyte : bytes[index]? = some byte) :
    byte = 0 ∨ ∃ entry ∈ parts, bytes.length - entry.1 ≤ index ∧
      (entry.2.bytes entry.1)[index - (bytes.length - entry.1)]? = some byte := by
  induction parts generalizing bytes index with
  | nil => exact .inl (hlaid byte (List.mem_of_getElem? hbyte))
  | cons entry behind ih =>
      obtain ⟨zeros, rest, rfl, hoffset, hrest⟩ := hlaid
      have hlength : (List.replicate zeros 0 ++ (entry.2.bytes entry.1 ++ rest)).length
          = zeros + entry.1 := by
        rw [List.length_append, List.length_append, List.length_replicate]
        omega
      rcases Nat.lt_or_ge index zeros with hzero | hpart
      · rw [List.getElem?_append_left (by rwa [List.length_replicate])] at hbyte
        exact .inl (List.eq_of_mem_replicate (List.mem_of_getElem? hbyte))
      rw [List.getElem?_append_right (by rwa [List.length_replicate]),
        List.length_replicate] at hbyte
      rcases Nat.lt_or_ge (index - zeros) (entry.2.bytes entry.1).length with hinside | hbehind
      · rw [List.getElem?_append_left hinside] at hbyte
        refine .inr ⟨entry, List.mem_cons_self, ?_⟩
        rw [hlength, Nat.add_sub_cancel]
        exact ⟨hpart, hbyte⟩
      · rw [List.getElem?_append_right hbehind] at hbyte
        rcases ih hrest hbyte with hzero | ⟨later, hlater, hfrom, hat⟩
        · exact .inl hzero
        · have hbelow := (hrest.placed hlater).le_length
          have hplace : index - (zeros + entry.1 - later.1)
              = index - zeros - (entry.2.bytes entry.1).length - (rest.length - later.1) := by
            omega
          refine .inr ⟨later, List.mem_cons_of_mem _ hlater, ?_⟩
          rw [hlength, hplace]
          exact ⟨by omega, hat⟩

namespace Builder

theorem Contained.run {builder : Builder} (hcontained : builder.Contained) {calls : List Call}
    (hsized : ∀ call ∈ calls, call.Sized) : (builder.run calls).2.Contained :=
  run_leads (fun call hcall => Call.perform_stays (hsized call hcall)) builder hcontained

theorem contained_new {options : BuilderOptions} {settings : BuilderSettings}
    (hsettings : options.resolve = .ok settings) : (Builder.new settings).Contained := by
  obtain ⟨⟨-, hlimited⟩, -⟩ := options.settings_of_resolve hsettings
  exact ⟨Nat.zero_le _, hlimited, 0, rfl⟩

/-- The written region of any session whose alignments are powers of two and whose sizes are not
negative, whether or not its calls succeed.  It fits the buffer.  A call that succeeds, and does not
discard everything, leaves it as large at least, with the bytes that were there behind the new ones.
It consists of the parts that the calls are known to have written, with zero bytes between them: so
every byte of a finished buffer belongs to such a part or is zero. -/
theorem append_only {options : BuilderOptions} {settings : BuilderSettings}
    (hsettings : options.resolve = .ok settings) {calls : List Call}
    (hsized : ∀ call ∈ calls, call.Sized) :
    let reached := ((Builder.new settings).run calls).2
    reached.offset ≤ reached.capacity ∧
    (∀ call answer next, call.Sized → call ≠ .clear → reached.step call = (.ok answer, next) →
      next.offset ≤ next.capacity ∧ reached.offset ≤ next.offset ∧
        next.written.bytes.drop (next.offset - reached.offset) = reached.written.bytes) ∧
    ∃ parts, (Builder.new settings).Traced [] calls parts ∧ Laid parts reached.written.bytes ∧
      ∀ bytes next, reached.step .bytes = (.ok (.bytes bytes), next) →
        bytes = reached.written.bytes ∧ ∀ index byte, bytes[index]? = some byte →
          byte = 0 ∨ ∃ entry ∈ parts, bytes.length - entry.1 ≤ index ∧
            (entry.2.bytes entry.1)[index - (bytes.length - entry.1)]? = some byte := by
  intro reached
  have hreached : reached.Contained := (contained_new hsettings).run hsized
  refine ⟨hreached.size_le, ?_, ?_⟩
  · intro call answer next hcall hkept hstep
    have hdone := step_eq_ok hstep
    have hnext : next.Contained := (Call.perform_stays hcall).ok hdone hreached
    have hsuffix := Call.perform_appends hkept hdone
    have hsize := hsuffix.length_le
    rw [← Region.size_eq, ← Region.size_eq] at hsize
    refine ⟨hnext.size_le, hsize, ?_⟩
    obtain ⟨front, hfront⟩ := hsuffix
    have hlength := congrArg List.length hfront
    rw [List.length_append, ← Region.size_eq, ← Region.size_eq] at hlength
    have hdropped : next.offset - reached.offset = front.length := by
      simp only [offset_eq]
      omega
    rw [hdropped, ← hfront, List.drop_left]
  · obtain ⟨parts, htraced, hconsists⟩ := (Consists.new settings).run fun call hcall =>
      (hsized call hcall).powered
    refine ⟨parts, htraced, hconsists.laid, ?_⟩
    intro bytes next hbytes
    obtain ⟨result, hdone, hanswer⟩ := Call.of_perform_map (step_eq_ok hbytes)
    obtain ⟨-, hresult⟩ := Build.of_bytes hdone
    cases hanswer
    subst hresult
    exact ⟨rfl, fun _ _ => hconsists.laid.byte⟩

/-- Two tables that share a vtable, and a vector that is completed after its reference has been
refused. -/
theorem append_only_shared :
    let calls : List Call := [.write .int16 (7 : Number), .startTable 1,
      .addField 0 (.scalar .int32 (5 : Number) (0 : Number)), .endTable, .startTable 1,
      .addField 0 (.scalar .int32 (6 : Number) (0 : Number)), .endTable, .offsets [99],
      .writeOffset 12, .endVector, .finish 28 {}]
    let ran := (Builder.new ⟨1024, false, true⟩).run calls
    ran.1[7]? = some (.error (.unwrittenOffset 99 28)) ∧ ran.2.offset = 40 ∧
      ran.2.offset ≤ ran.2.capacity ∧
      ∃ parts, (Builder.new ⟨1024, false, true⟩).Traced [] calls parts ∧
        Laid parts ([12, 0, 0, 0, 1, 0, 0, 0, 20, 0, 0, 0, 246, 255, 255, 255, 6, 0, 0, 0, 0, 0]
          ++ [6, 0, 10, 0, 4, 0, 6, 0, 0, 0, 5, 0, 0, 0, 0, 0, 7, 0]) := by
  intro calls ran
  have hsettings : BuilderOptions.resolve {} = .ok ⟨1024, false, true⟩ := by rfl
  have hsized : ∀ call ∈ calls, call.Sized := by
    simp only [calls, List.forall_mem_cons, List.not_mem_nil, false_imp_iff, forall_true_iff,
      Call.Sized, and_self]
  have hbytes : ran.2.written.bytes
      = [12, 0, 0, 0, 1, 0, 0, 0, 20, 0, 0, 0, 246, 255, 255, 255, 6, 0, 0, 0, 0, 0]
        ++ [6, 0, 10, 0, 4, 0, 6, 0, 0, 0, 5, 0, 0, 0, 0, 0, 7, 0] := by decide +kernel
  obtain ⟨hfits, -, parts, htraced, hlaid, -⟩ := append_only hsettings hsized
  exact ⟨by decide +kernel, by decide +kernel, hfits, parts, htraced, hbytes ▸ hlaid⟩

end Builder

end GraphWire

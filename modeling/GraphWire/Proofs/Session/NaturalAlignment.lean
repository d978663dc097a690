import GraphWire.Proofs.Builder.Contiguity
import GraphWire.Proofs.Session.AppendOnly
import GraphWire.Proofs.Session.Head
import Mathlib.Data.Nat.Prime.Basic

/-!
# Natural alignment

While a buffer is written, alignment counts from its end.  Finishing makes its size a multiple of
the largest alignment asked for, so whatever was at a multiple of its width from the end is so from
the front as well (`Builder.natural_alignment`).
-/

namespace GraphWire

/-- The alignment that the open vector was opened with, and the closed vectors with theirs, after
one more call that succeeds. -/
def noteVectors (seen : ℕ × List (ℕ × ℕ)) : Call → Answer → ℕ × List (ℕ × ℕ)
  | .startVector _ _ alignment, _ => (alignment.toNat?.getD 0, seen.2)
  | .endVector, .offset offset => (seen.1, (offset, seen.1) :: seen.2)
  | .scalars type _, .offset offset => (seen.1, (offset, type.width) :: seen.2)
  | .offsets _, .offset offset => (seen.1, (offset, 4) :: seen.2)
  | .string _, .offset offset => (seen.1, (offset, 1) :: seen.2)
  | .clear, _ => (0, [])
  | _, _ => seen

/-- The largest alignment asked for is a multiple of one. -/
def Builder.Covers (builder : Builder) (width : ℕ) : Prop :=
  ∃ exponent : ℕ, builder.alignment = (2 ^ exponent : ℕ) ∧ width ∣ 2 ^ exponent

/-- The first element of a vector that has been closed at an offset is at a multiple of its
alignment. -/
structure Builder.Seated (builder : Builder) (offset alignment : ℕ) : Prop where
  four_le : 4 ≤ offset
  within : offset ≤ builder.written.size
  aligned : max alignment 4 ∣ offset - 4
  covers : builder.Covers (max alignment 4)

/-- The vectors of a session: the first elements of the closed ones are at multiples of their
alignments, and that of the open one will be when it is full. -/
structure Builder.SeatsAll (builder : Builder) (seen : ℕ × List (ℕ × ℕ)) : Prop where
  covers : builder.Covers 1
  closed : ∀ vector ∈ seen.2, builder.Seated vector.1 vector.2
  opened : ∀ opened, builder.phase = .vector opened → opened.start ≤ builder.written.size ∧
    builder.Covers (max seen.1 4) ∧
    ∀ bytes, opened.byteLength.toNat? = some bytes → max seen.1 4 ∣ opened.start + bytes

namespace Builder

variable {before after : Builder} {placed : List (ℕ × Part)} {seen : ℕ × List (ℕ × ℕ)}

theorem Covers.lays {width : ℕ} (hcovers : before.Covers width) (hlays : before.Lays placed after) :
    after.Covers width := by
  obtain ⟨exponent, hpower, hwidth⟩ := hcovers
  obtain ⟨larger, hlarger, hafter, -⟩ := hlays.climbs hpower
  exact ⟨larger, hafter, hwidth.trans (Nat.pow_dvd_pow 2 hlarger)⟩

theorem Covers.climb {width width' : ℕ} (hcovers : before.Covers width)
    (hclimbs : before.Climbs width' after) : after.Covers width' := by
  obtain ⟨exponent, hpower, -⟩ := hcovers
  obtain ⟨larger, -, hafter, hwidth⟩ := hclimbs hpower
  exact ⟨larger, hafter, hwidth⟩

/-- No less than four, a divisor of a power of two is a multiple of four. -/
theorem Covers.four_dvd {width : ℕ} (hcovers : before.Covers (max width 4)) : 4 ∣ max width 4 := by
  obtain ⟨exponent, -, hwidth⟩ := hcovers
  obtain ⟨power, -, hpower⟩ := (Nat.dvd_prime_pow Nat.prime_two).mp hwidth
  have hle : 2 ^ 2 ≤ 2 ^ power := hpower ▸ Nat.le_max_right width 4
  rw [hpower]
  exact Nat.pow_dvd_pow 2 ((Nat.pow_le_pow_iff_right (by decide)).mp hle)

namespace Seated

variable {offset alignment : ℕ}

theorem lays (hseated : before.Seated offset alignment) (hlays : before.Lays placed after)
    (hsize : before.written.size ≤ after.written.size) : after.Seated offset alignment :=
  ⟨hseated.four_le, hseated.within.trans hsize, hseated.aligned, hseated.covers.lays hlays⟩

/-- A vector that an operation has closed. -/
theorem of_seats (hseats : before.Seats alignment offset after)
    (hoffset : offset = after.written.size) (hcovers : before.Covers 1) :
    after.Seated offset alignment :=
  ⟨hseats.four_le, hoffset.le, hseats.aligned, hcovers.climb hseats.climbs⟩

end Seated

namespace SeatsAll

/-- What neither opens nor closes a vector leaves them as they are. -/
theorem lays (hseats : before.SeatsAll seen) (hlays : before.Lays placed after)
    (hsize : before.written.size ≤ after.written.size)
    (hopened : ∀ opened, after.phase = .vector opened → before.phase = .vector opened) :
    after.SeatsAll seen where
  covers := hseats.covers.lays hlays
  closed := fun vector hvector => (hseats.closed vector hvector).lays hlays hsize
  opened := by
    intro opened hphase
    obtain ⟨hstart, hcovers, hbytes⟩ := hseats.opened opened (hopened opened hphase)
    exact ⟨hstart.trans hsize, hcovers.lays hlays, hbytes⟩

/-- A vector has been closed. -/
theorem close (hseats : before.SeatsAll seen) (hlays : before.Lays placed after)
    (hsize : before.written.size ≤ after.written.size)
    (hphase : ∀ opened, after.phase ≠ .vector opened) {offset alignment : ℕ}
    (hseated : after.Seated offset alignment) :
    after.SeatsAll (seen.1, (offset, alignment) :: seen.2) where
  covers := hseats.covers.lays hlays
  closed := by
    rintro vector (_ | ⟨_, hvector⟩)
    · exact hseated
    · exact (hseats.closed vector hvector).lays hlays hsize
  opened := fun opened hopened => absurd hopened (hphase opened)

end SeatsAll

end Builder

namespace Build

variable {before after : Builder}

/-- A vector is opened where its first element will be aligned once it is full. -/
theorem startVector_aligns (hsound : before.Sound) {elementSize count : Number} {power : ℕ}
    (hresult : startVector elementSize count (2 ^ power : ℕ) before = .ok () after) :
    before.Climbs (max (2 ^ power) 4) after ∧
      after.phase = .vector ⟨count, elementSize * count, after.written.size⟩ ∧
      ∀ bytes, (elementSize * count).toNat? = some bytes →
        max (2 ^ power) 4 ∣ after.written.size + bytes := by
  have hfour : ∃ power : ℕ, 4 = 2 ^ power := ⟨2, rfl⟩
  have hwidth : ∃ power' : ℕ, 2 ^ power = 2 ^ power' := ⟨power, rfl⟩
  obtain ⟨_, writable, hwritable, hresult⟩ := of_bind_ok hresult
  obtain rfl := requireWritable_lays.ok hwritable
  obtain ⟨_, idle, hidle, hresult⟩ := of_bind_ok hresult
  obtain rfl := (requireIdle_lays .vector).ok hidle
  split at hresult
  · cases hresult
  obtain ⟨_, counted, hcounted, hresult⟩ := of_bind_ok hresult
  obtain ⟨_, padded, hpadded, hresult⟩ := of_bind_ok hresult
  obtain ⟨zeros, hpads⟩ := (prepare_lays hfour (elementSize * count)).ok hcounted
  obtain ⟨zeros', hpads'⟩ := (prepare_lays hwidth (elementSize * count)).ok hpadded
  cases hresult
  refine ⟨?_, rfl, ?_⟩
  · have hopened : padded.Lays [] { padded with
        phase := .vector ⟨count, elementSize * count, padded.written.size⟩ } := .same rfl rfl
    have hclimbs := Builder.climbs_of_max hwidth hpads'.alignment
    have hclimbs' := Builder.climbs_of_max hfour hpads.alignment
    exact ((hclimbs.after_lays (hpads.lays hfour)).greater
      (hclimbs'.before_lays (hpads'.lays hwidth))).before_lays hopened
  · intro bytes hbytes
    have hcount : before.Reserves 2 bytes counted := prepare_power_reserves hsound hbytes hcounted
    have helements := prepare_power_reserves hcount.sound hbytes hpadded
    exact max_dvd helements.aligned (helements.keeps hcount.aligned)

/-- Whatever the head is, room for it was made at the largest alignment. -/
theorem of_beginHead {options : FinishOptions} (hresult : beginHead options before = .ok () after) :
    ∃ (total : ℕ) (padded : Builder), prepare before.alignment (total : ℕ) before = .ok () padded ∧
      after.alignment = padded.alignment := by
  rcases beginHead_cases options before with ⟨_, -, -, error, herror⟩ | ⟨-, hbegin⟩
  · rw [herror] at hresult
    cases hresult
  · rw [hbegin] at hresult
    obtain ⟨_, padded, hpadded, hresult⟩ := of_bind_ok hresult
    cases hresult
    exact ⟨_, padded, hpadded, rfl⟩

/-- The front of a finished buffer is that of a word. -/
theorem four_dvd_size {root : Number} {options : FinishOptions}
    (hlays : before.Lays (before.headParts root options after.written.size) after) :
    4 ∣ after.written.size := by
  have haligned := hlays.aligned
  unfold Builder.headParts at haligned
  split at haligned
  · exact haligned _ List.mem_cons_self
  · next hsized =>
      have hroot := haligned _ List.mem_cons_self
      rw [Window.rootOffsetPosition, if_neg hsized] at hroot
      exact hroot

/-- A finished buffer is a multiple of every alignment that was asked for. -/
theorem finish_aligns (hsound : before.Sound) {root : Number} {options : FinishOptions}
    {exponent : ℕ} (hpower : before.alignment = (2 ^ exponent : ℕ))
    (hresult : finish root options before = .ok () after) :
    ∃ larger : ℕ, after.alignment = (2 ^ larger : ℕ) ∧ 2 ^ larger ∣ after.written.size := by
  have hlays := (finish_lays root options ⟨exponent, hpower⟩).ok hresult
  obtain ⟨_, -, -, hfinishes⟩ := (finish_writes hsound root options).ok hresult
  obtain ⟨_, writable, hwritable, hresult⟩ := of_bind_ok hresult
  obtain rfl := requireWritable_lays.ok hwritable
  obtain ⟨_, idle, hidle, hresult⟩ := of_bind_ok hresult
  obtain rfl := (requireIdle_lays .finish).ok hidle
  obtain ⟨_, begun, hbegun, hresult⟩ := of_bind_ok hresult
  obtain ⟨total, padded, hpadded, hsame⟩ := of_beginHead hbegun
  rw [hpower] at hpadded
  have htotal : Number.AtLeast 0 (total : Number) :=
    (Number.atLeast_ofInt total).mono (by positivity)
  obtain ⟨_, -, hexponent, -, halignment⟩ :=
    (prepare_power_writes hsound exponent htotal 0).ok hpadded
  have hlargest : largestAlignment [2 ^ exponent] = 2 ^ exponent :=
    Nat.max_eq_left Nat.one_le_two_pow
  have hnotes : begun.Notes [2 ^ exponent] := by
    refine ⟨?_, by simpa using ⟨exponent, hexponent, rfl⟩⟩
    rw [hsame, halignment, hpower, Number.max_natCast, Nat.max_self, hlargest]
  have hrest : Asks [4] (do
      writeOffset root
      if options.sizePrefix then writeSize
      markFinished options.identifier) := by
    have hmark : Asks [] (markFinished options.identifier) := .change fun _ => rfl
    have hsize : Asks [4] writeSize := .look fun _ => write_asks _ _
    split
    · apply ((writeOffset_asks root).bind fun _ => hsize.bind fun _ => hmark).same
      simp
    · exact (writeOffset_asks root).bind fun _ => hmark
  have hafter := (hrest hresult hnotes).alignment
  rw [List.singleton_append, largestAlignment_cons, hlargest, show 4 = 2 ^ 2 from rfl,
    max_two_pow] at hafter
  refine ⟨max 2 exponent, hafter, ?_⟩
  rcases Nat.le_total 2 exponent with hle | hle
  · obtain ⟨hsize, -⟩ := hfinishes.exact ⟨exponent, hle, hexponent, hpower⟩
    rw [Nat.max_eq_right hle, hsize]
    exact dvd_finishedSize ⟨exponent, le_refl _, hexponent, hpower⟩ options
  · rw [Nat.max_eq_left hle]
    exact four_dvd_size hlays

end Build

/-! ## Calls -/

namespace Builder.SeatsAll

open Build

variable {before after : Builder} {placed : List (ℕ × Part)} {seen : ℕ × List (ℕ × ℕ)}

/-- The vector that is open is full where it is closed, so its count needs no padding. -/
theorem endVector (hseats : before.SeatsAll seen) (hsound : before.Sound) {offset : ℕ}
    (hlays : before.Lays placed after) (hresult : Build.endVector before = .ok offset after) :
    after.Seated offset seen.1 := by
  obtain ⟨rfl, opened, word, hphase, hlength, -, hword⟩ := (endVector_writes hsound).ok hresult
  obtain ⟨hstart, hcovers, hbytes⟩ := hseats.opened opened hphase
  have haligned := hbytes _ hlength
  rw [Nat.add_sub_cancel' hstart] at haligned
  have hfour : 4 ∣ before.written.size := hcovers.four_dvd.trans haligned
  have hsize : after.written.size = 4 + padding 4 before.written.size + before.written.size :=
    hword.size
  rw [isWidth_four.padding_eq_zero hfour] at hsize
  refine ⟨by omega, le_refl _, ?_, hcovers.lays hlays⟩
  rwa [hsize, show 4 + 0 + before.written.size - 4 = before.written.size by omega]

/-- A call that succeeds keeps the first elements aligned. -/
theorem perform {settings : BuilderSettings} {ledger : Ledger} {tables : List PlacedTable}
    (haccounts : before.Accounts settings ledger tables) {call : Call} {answer : Answer}
    (hallowed : call.Basic ∧ call.Powered) (hseats : before.SeatsAll seen)
    (hresult : call.perform before = .ok answer after) :
    after.SeatsAll (noteVectors seen call answer) := by
  obtain ⟨hbasic, hpowered⟩ := hallowed
  by_cases hkept : call = .clear
  · subst hkept
    cases Call.of_perform_nothing hresult
    exact ⟨⟨0, rfl, Nat.dvd_refl _⟩, nofun, nofun⟩
  obtain ⟨exponent, hpower, -⟩ := hseats.covers
  have hlays := (Call.perform_lays hbasic hpowered hkept ⟨exponent, hpower⟩).ok hresult
  have hsize := (Call.perform_appends hkept hresult).length_le
  rw [← Region.size_eq, ← Region.size_eq] at hsize
  have hsame (hphase : after.phase = before.phase) : after.SeatsAll seen :=
    hseats.lays hlays hsize fun _ hopened => hphase.symm.trans hopened
  have hleave (hphase : ∀ opened, after.phase ≠ .vector opened) : after.SeatsAll seen :=
    hseats.lays hlays hsize fun opened hopened => absurd hopened (hphase opened)
  cases call with
  | prepare _ _ | write _ _ | writeOffset _ | bytes | offset =>
      exact hsame (Call.phase_of_still hresult trivial)
  | addField slot field =>
      obtain ⟨_, _, _, -, -, -, -, hafter⟩ := phase_after_addField (Call.of_perform_nothing hresult)
      exact hleave (by simp [hafter])
  | startTable fieldCount =>
      obtain ⟨_, -, rfl⟩ := (startTable_writes fieldCount).ok (Call.of_perform_nothing hresult)
      exact hleave nofun
  | endTable =>
      obtain ⟨_, hdone, rfl⟩ := Call.of_perform_map hresult
      exact hleave (by simp [idle_after_endTable hdone])
  | startVector elementSize count alignment =>
      obtain ⟨power, rfl⟩ := hpowered
      obtain ⟨hclimbs, hphase, hbytes⟩ :=
        startVector_aligns haccounts.sound (Call.of_perform_nothing hresult)
      refine ⟨hseats.covers.lays hlays, ?_, ?_⟩
      · exact fun vector hvector => (hseats.closed vector hvector).lays hlays hsize
      · intro opened hopened
        obtain rfl := Phase.vector.inj (hphase.symm.trans hopened)
        simp only [noteVectors, Number.toNat?_natCast, Option.getD_some]
        exact ⟨le_refl _, hseats.covers.climb hclimbs, hbytes⟩
  | endVector =>
      obtain ⟨offset, hdone, rfl⟩ := Call.of_perform_map hresult
      exact hseats.close hlays hsize (by simp [idle_after_endVector hdone])
        (hseats.endVector haccounts.sound hlays hdone)
  | scalars type values =>
      obtain ⟨offset, hdone, rfl⟩ := Call.of_perform_map hresult
      obtain ⟨hoffset, hseat, -⟩ := ((scalarColumn type).vector_lays type.isWidth values).ok hdone
      exact hseats.close hlays hsize (by simp [idle_after_vectorOf hdone])
        (.of_seats hseat hoffset hseats.covers)
  | offsets targets =>
      obtain ⟨offset, hdone, rfl⟩ := Call.of_perform_map hresult
      obtain ⟨hoffset, hseat, -⟩ := (offsetColumn.vector_lays isWidth_four targets).ok hdone
      exact hseats.close hlays hsize (by simp [idle_after_vectorOf hdone])
        (.of_seats hseat hoffset hseats.covers)
  | string bytes =>
      obtain ⟨offset, hdone, rfl⟩ := Call.of_perform_map hresult
      obtain ⟨hoffset, hseat, -⟩ := (stringBytes_lays bytes).ok hdone
      exact hseats.close hlays hsize (by simp [idle_after_stringBytes hdone])
        (.of_seats hseat hoffset hseats.covers)
  | attrs _ | payload _ | operator _ | constant _ | valueNode | node _ | graph _ | model _ =>
      exact hbasic.elim
  | finish root options =>
      exact hleave (by simp [phase_after_finish (Call.of_perform_nothing hresult)])
  | clear => exact absurd rfl hkept

end Builder.SeatsAll

/-! ## Runs -/

namespace Builder

/-- In a finished buffer, whatever its head, every value that a session without errors has written
is at a multiple of its width from the front: scalars, references, counts, the distances from tables
to their vtables and the words of these.  So is the first element of every closed vector at a
multiple of the alignment that the vector was opened with, and of four. -/
theorem natural_alignment {options : BuilderOptions} {settings : BuilderSettings}
    (hsettings : options.resolve = .ok settings) {calls : List Call}
    (hallowed : ∀ call ∈ calls, call.Basic ∧ call.Powered) {answers : List Answer} {root : Number}
    {head : FinishOptions} {bytes : List UInt8}
    (hrun : ((Builder.new settings).run (calls ++ [.finish root head, .bytes])).1
      = answers.map .ok ++ [.ok .nothing, .ok (.bytes bytes)]) :
    ∃ parts, (Builder.new settings).Traced [] (calls ++ [.finish root head, .bytes]) parts ∧
      (∀ entry ∈ parts, entry.1 ≤ bytes.length ∧
        Placed bytes (entry.2.bytes entry.1) entry.1 ∧
        entry.2.width ∣ bytes.length - entry.1) ∧
      ∀ vector ∈ (observe noteVectors (0, []) (calls.zip answers)).2,
        4 ≤ vector.1 ∧ vector.1 ≤ bytes.length ∧
        max vector.2 4 ∣ bytes.length - vector.1 + 4 := by
  obtain ⟨hcalls, finished, hfinish, rfl⟩ := run_finish hrun
  have hnew := Accounts.new hsettings
  have hfresh : (Builder.new settings).SeatsAll (0, []) := ⟨⟨0, rfl, Nat.dvd_refl _⟩, nofun, nofun⟩
  obtain ⟨⟨tables, haccounts⟩, -⟩ := hnew.run (fun call hcall => (hallowed call hcall).1) hcalls
  have hseats := hnew.run_observe (fun builder _ => builder.SeatsAll) noteVectors
    (fun _ => And.left) (fun haccounts hcall hseats => hseats.perform haccounts hcall) hfresh
    hallowed hcalls
  obtain ⟨exponent, hpower, -⟩ := hseats.covers
  have hhead := (Build.finish_lays root head ⟨exponent, hpower⟩).ok hfinish
  obtain ⟨larger, halignment, hwhole⟩ := Build.finish_aligns haccounts.sound hpower hfinish
  rw [← Region.size_eq]
  have hlargest {width exponent' : ℕ} (hsame : finished.alignment = (2 ^ exponent' : ℕ))
      (hwidth : width ∣ 2 ^ exponent') : width ∣ finished.written.size := by
    have hequal := congrArg Number.toNat? (hsame.symm.trans halignment)
    rw [Number.toNat?_natCast, Number.toNat?_natCast, Option.some.injEq] at hequal
    exact (hequal ▸ hwidth).trans hwhole
  have hpowered : ∀ call ∈ calls ++ [.finish root head, .bytes], call.Powered := by
    intro call hcall
    rcases List.mem_append.mp hcall with hearlier | hlast
    · exact (hallowed call hearlier).2
    · rcases List.mem_pair.mp hlast with rfl | rfl <;> trivial
  obtain ⟨parts, htraced, hconsists⟩ := (Consists.new settings).run hpowered
  have hlast : ((Builder.new settings).run (calls ++ [.finish root head, .bytes])).2
      = finished := by
    have hbytes := step_bytes (Build.phase_after_finish hfinish)
    simp only [run_append, run, step_finish, hfinish, hbytes]
  rw [hlast] at hconsists
  refine ⟨parts, htraced, ?_, ?_⟩
  · intro entry hentry
    have hplaced := hconsists.laid.placed hentry
    have hwithin := hplaced.le_length
    rw [← Region.size_eq] at hwithin
    obtain ⟨exponent', hsame, hwidths⟩ := hconsists.power
    exact ⟨hwithin, hplaced,
      Nat.dvd_sub (hlargest hsame (hwidths entry hentry)) (hconsists.aligned entry hentry)⟩
  · intro vector hvector
    have hsize : ((Builder.new settings).run calls).2.written.size ≤ finished.written.size := by
      rw [Region.size_eq, Region.size_eq]
      exact (Build.finish_extending root head hfinish).suffix.length_le
    obtain ⟨hfour, hwithin, haligned, exponent', hsame, hcovers⟩ :=
      (hseats.closed vector hvector).lays hhead hsize
    have hdistance := Nat.dvd_sub (hlargest hsame hcovers) haligned
    rw [show finished.written.size - (vector.1 - 4) = finished.written.size - vector.1 + 4 by
      omega] at hdistance
    exact ⟨hfour, hwithin, hdistance⟩

/-- A session with a vector that is aligned to sixteen bytes, in a buffer with a whole head. -/
theorem natural_alignment_spaced :
    ∃ (bytes : List UInt8) (parts : List (ℕ × Part)),
      ((Builder.new ⟨1024, false, true⟩).run
          (Call.spaced ++ [.finish 32 ⟨some "TEST", true⟩, .bytes])).1
        = [.ok .nothing, .ok .nothing, .ok (.offset 20), .ok .nothing, .ok .nothing, .ok .nothing,
          .ok (.offset 32), .ok .nothing, .ok (.bytes bytes)] ∧ bytes.length = 64 ∧
      (Builder.new ⟨1024, false, true⟩).Traced []
        (Call.spaced ++ [.finish 32 ⟨some "TEST", true⟩, .bytes]) parts ∧
      (∀ entry ∈ parts, entry.1 ≤ 64 ∧ Placed bytes (entry.2.bytes entry.1) entry.1 ∧
        entry.2.width ∣ 64 - entry.1) ∧ max 16 4 ∣ 64 - 20 + 4 := by
  let answers : List Answer :=
    [.nothing, .nothing, .offset 20, .nothing, .nothing, .nothing, .offset 32]
  let bytes : List UInt8 := [60, 0, 0, 0, 28, 0, 0, 0, 84, 69, 83, 84] ++ List.replicate 14 0
    ++ [6, 0, 11, 0, 4, 0, 6, 0, 0, 0, 8, 0, 0, 0, 0, 0, 0, 1, 1, 0, 0, 0, 7, 0]
    ++ List.replicate 14 0
  have hsettings : BuilderOptions.resolve {} = .ok ⟨1024, false, true⟩ := by rfl
  have hallowed : ∀ call ∈ Call.spaced, call.Basic ∧ call.Powered := by
    simp only [Call.spaced, List.forall_mem_cons, List.not_mem_nil, false_imp_iff,
      forall_true_iff]
    exact ⟨⟨trivial, 4, rfl⟩, ⟨trivial, trivial⟩, ⟨trivial, trivial⟩, ⟨trivial, trivial⟩,
      ⟨trivial, trivial⟩, ⟨trivial, trivial⟩, ⟨trivial, trivial⟩, trivial⟩
  have hrun : ((Builder.new ⟨1024, false, true⟩).run
      (Call.spaced ++ [.finish 32 ⟨some "TEST", true⟩, .bytes])).1
      = answers.map .ok ++ [.ok .nothing, .ok (.bytes bytes)] := by decide +kernel
  obtain ⟨parts, htraced, hparts, hvectors⟩ := natural_alignment hsettings hallowed hrun
  obtain ⟨-, -, hvector⟩ := hvectors (20, 16) (by decide)
  exact ⟨bytes, parts, hrun, by decide, htraced, hparts, hvector⟩

end Builder

end GraphWire

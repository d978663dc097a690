import GraphWire.Text.Utf8
import Mathlib.Data.List.Basic

/-!
# Byte order marks

A reader drops a byte order mark at the front of a text, and it cannot know whether the mark was
part of the text.  What it gives for the bytes of any text is the text without such a mark.
-/

namespace GraphWire.Utf8

/-- Whether a text begins with the character of the byte order mark, which a reader drops. -/
def Marked (text : String) : Prop :=
  text.toList.head? = some '\uFEFF'

instance (text : String) : Decidable (Marked text) :=
  inferInstanceAs (Decidable (text.toList.head? = some '\uFEFF'))

/-- The text that is read for a text: all of it but for a mark at the front. -/
def unmarked (text : String) : String :=
  if Marked text then String.ofList text.toList.tail else text

theorem unmarked_eq {text : String} (hunmarked : ¬Marked text) : unmarked text = text :=
  if_neg hunmarked

/-- The bytes of a text that is a list of characters. -/
theorem encode_eq (text : String) : encode text = text.toList.utf8Encode.data.toList := by
  rw [String.utf8Encode_toList]
  rfl

theorem encode_mark : (['\uFEFF'].utf8Encode).data.toList = byteOrderMark := by decide

/-- Only a marked text is stored with the mark in front. -/
theorem marked_of_take {text : String}
    (hmark : (Utf8.encode text).take 3 = Utf8.byteOrderMark) : Utf8.Marked text := by
  have hencoded : ['\uFEFF'].utf8Encode = ⟨Utf8.byteOrderMark.toArray⟩ := by decide
  have hbytes : ['\uFEFF'].utf8Encode ++ ⟨((Utf8.encode text).drop 3).toArray⟩
      = text.toList.utf8Encode := by
    rw [hencoded, ← hmark, String.utf8Encode_toList]
    apply ByteArray.ext
    rw [ByteArray.data_append, List.append_toArray, List.take_append_drop]
    rfl
  obtain ⟨rest, hrest⟩ := List.isPrefix_of_utf8Encode_append_eq_utf8Encode _ hbytes
  rw [Marked, ← hrest]
  rfl

/-- A marked text is stored as the mark and then the text behind it. -/
theorem encode_of_marked {text : String} (hmarked : Marked text) :
    encode text = byteOrderMark ++ encode (unmarked text) := by
  obtain ⟨rest, hrest⟩ := List.head?_eq_some_iff.mp hmarked
  rw [unmarked, if_pos hmarked, encode_eq, encode_eq, hrest, String.toList_ofList, List.tail_cons,
    ← encode_mark, ← List.singleton_append, List.utf8Encode_append]
  simp

/-- Any text is read back without the mark that it may begin with. -/
theorem decode?_encode_unmarked (text : String) : decode? (encode text) = some (unmarked text) := by
  by_cases hmarked : Marked text
  · have hrest : withoutMark (byteOrderMark ++ encode (unmarked text)) = encode (unmarked text) :=
      if_pos rfl
    have hvalid : (unmarked text).toUTF8.IsValidUTF8 := (unmarked text).isValidUTF8
    rw [encode_of_marked hmarked, decode?, hrest]
    exact dif_pos hvalid
  · rw [unmarked_eq hmarked]
    exact decode?_encode text fun hmark => hmarked (marked_of_take hmark)

/-- The text of a byte order mark alone. -/
def mark : String := "\uFEFF"

theorem eq_mark_append {text : String} (hmarked : Marked text) : text = mark ++ unmarked text := by
  obtain ⟨rest, hrest⟩ := List.head?_eq_some_iff.mp hmarked
  rw [unmarked, if_pos hmarked, hrest, List.tail_cons]
  apply String.toList_injective
  rw [String.toList_append, String.toList_ofList, hrest]
  rfl

theorem unmarked_mark_append (text : String) : unmarked (mark ++ text) = text := by
  have hlist : (mark ++ text).toList = '\uFEFF' :: text.toList := by
    rw [String.toList_append]
    rfl
  have hmarked : Marked (mark ++ text) := by rw [Marked, hlist, List.head?_cons]
  rw [unmarked, if_pos hmarked, hlist, List.tail_cons, String.ofList_toList]

theorem mark_append_ne (text : String) : mark ++ text ≠ text := by
  intro hsame
  have hlength := congrArg String.length hsame
  rw [String.length_append] at hlength
  have hmark : mark.length = 1 := by decide
  omega

/-- A text is read as itself if it begins with no mark. -/
theorem unmarked_eq_self_iff (text : String) : unmarked text = text ↔ ¬Marked text := by
  refine ⟨fun hsame hmarked => ?_, unmarked_eq⟩
  have hwhole := eq_mark_append hmarked
  rw [hsame] at hwhole
  exact mark_append_ne text hwhole.symm

/-- Two texts are read as the same one if they are the same, or if one of them is the other with a
mark in front. -/
theorem unmarked_eq_unmarked_iff (text text' : String) : unmarked text = unmarked text' ↔
    text = text' ∨ ¬Marked text' ∧ text = mark ++ text' ∨ ¬Marked text ∧ text' = mark ++ text := by
  constructor
  · intro hsame
    by_cases hmarked : Marked text
    · rw [eq_mark_append hmarked, hsame]
      by_cases hmarked' : Marked text'
      · exact Or.inl (eq_mark_append hmarked').symm
      · rw [unmarked_eq hmarked']
        exact Or.inr (Or.inl ⟨hmarked', rfl⟩)
    · rw [unmarked_eq hmarked] at hsame
      by_cases hmarked' : Marked text'
      · rw [eq_mark_append hmarked', ← hsame]
        exact Or.inr (Or.inr ⟨hmarked, rfl⟩)
      · exact Or.inl (hsame.trans (unmarked_eq hmarked'))
  · rintro (rfl | ⟨hmarked, rfl⟩ | ⟨hmarked, rfl⟩)
    · rfl
    · rw [unmarked_mark_append, unmarked_eq hmarked]
    · rw [unmarked_mark_append, unmarked_eq hmarked]

end GraphWire.Utf8

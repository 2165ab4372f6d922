/-!
# Text as bytes

The bytes of a text are its UTF-8 encoding, as a list. Main statement: a text is read back from its
bytes (`ofUtf8?_utf8Bytes`), so texts with the same bytes are equal.
-/
namespace FiniteAutomata

/-- The UTF-8 encoding of a text. -/
def utf8Bytes (s : String) : List UInt8 := s.toUTF8.data.toList

/-- The text that some bytes encode, when they are valid UTF-8. -/
def ofUtf8? (bs : List UInt8) : Option String := String.fromUTF8? ⟨bs.toArray⟩

/-- A text is read back from its bytes. -/
@[simp] theorem ofUtf8?_utf8Bytes (s : String) : ofUtf8? (utf8Bytes s) = some s := by
  have e : (⟨(utf8Bytes s).toArray⟩ : ByteArray) = s.toByteArray := by
    simp [utf8Bytes, String.toUTF8]
  rw [ofUtf8?, e, String.fromUTF8?, dif_pos s.isValidUTF8]
  rfl

/-- Only the bytes of a text are read as that text. -/
theorem eq_utf8Bytes_of_ofUtf8? {bs : List UInt8} {s : String} (h : ofUtf8? bs = some s) :
    bs = utf8Bytes s := by
  simp only [ofUtf8?, String.fromUTF8?] at h
  split at h
  · obtain rfl := Option.some.inj h
    simp [utf8Bytes, String.fromUTF8, String.toUTF8]
  · simp at h

theorem utf8Bytes_injective {s t : String} (h : utf8Bytes s = utf8Bytes t) : s = t := by
  have e := ofUtf8?_utf8Bytes s
  rw [h, ofUtf8?_utf8Bytes] at e
  exact (Option.some.inj e).symm

end FiniteAutomata

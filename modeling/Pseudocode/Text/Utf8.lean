/-
Text as bytes.

Programs read and write bytes.  A text is written as its UTF-8 bytes, and bytes are
read as a text only when they are the UTF-8 bytes of one.
-/

namespace Pseudocode.Text

/-- The UTF-8 bytes of a text. -/
def toBytes (s : String) : List UInt8 :=
  s.toUTF8.data.toList

/-- The text whose UTF-8 bytes are given, if there is one. -/
def ofBytes? (bytes : List UInt8) : Option String :=
  String.fromUTF8? bytes.toByteArray

/-- A text is read back from no bytes but its own. -/
theorem toBytes_of_ofBytes? {bytes : List UInt8} {s : String} (h : ofBytes? bytes = some s) :
    toBytes s = bytes := by
  unfold ofBytes? String.fromUTF8? at h
  split at h
  · cases h
    simp [toBytes, String.fromUTF8]
  · cases h

theorem ofBytes?_toBytes (s : String) : ofBytes? (toBytes s) = some s := by
  have hbytes : (toBytes s).toByteArray = s.toByteArray := by
    apply ByteArray.ext
    simp [toBytes]
  rw [ofBytes?, hbytes, String.fromUTF8?, dif_pos s.isValidUTF8]
  rfl

theorem toBytes_append (s t : String) : toBytes (s ++ t) = toBytes s ++ toBytes t := by
  simp [toBytes]

theorem toBytes_concat (cs : List Char) (c : Char) :
    toBytes (String.ofList (cs ++ [c])) =
      toBytes (String.ofList cs) ++ String.utf8EncodeChar c := by
  simp [toBytes, List.utf8Encode_singleton]

/-- The text of bytes that may stop in the middle of a character: the characters that
are complete, and U+FFFD for a last one that is cut.  A character takes four bytes at
most, so at most three bytes of it remain. -/
def ofCutBytes (bytes : List UInt8) : String :=
  match ofBytes? bytes with
  | some s => s
  | none =>
    ([1, 2, 3].findSome? fun n => ofBytes? (bytes.take (bytes.length - n))).getD "" ++ "�"

end Pseudocode.Text

import Chip8.Text.Basic

/-!
# Text in Files

Files hold bytes. Source files hold text in UTF-8, and bytes that are not
UTF-8 are no text at all.

## Main definitions

* `Text.ofUtf8?`: The text that bytes encode.
* `Text.toUtf8`: The bytes of a text.
-/

namespace Chip8

namespace Text

/-- The text that bytes encode in UTF-8, if they are well formed. -/
def ofUtf8? (bytes : ByteArray) : Option Text :=
  (String.fromUTF8? bytes).map String.toList

/-- The bytes of a text in UTF-8. -/
def toUtf8 (t : Text) : ByteArray :=
  (String.ofList t).toUTF8

end Text

end Chip8

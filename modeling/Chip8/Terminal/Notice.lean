import Chip8.Report
import Chip8.Terminal.Basic

/-!
# Error Notices

How an error is put before the user when the command line ends with it.

## Main definitions

* `Terminal.report`: A report with its code, wording and help.
* `Terminal.failure`: An error that has a wording alone.
-/

namespace Chip8

namespace Terminal

/-- The mark and the wording of an error. -/
def headline (t : Terminal) (message : Text) : Text :=
  "  ".toList ++ paint t.colours .red ['×'] ++ ' ' :: message ++ ['\n']

/-- What is written for a report. -/
def report (t : Terminal) (r : Report) : Text :=
  "Error: ".toList ++ paint t.colours .red r.code.toList ++ "\n\n".toList
    ++ t.headline r.message.toList
    ++ paint t.colours .cyan "  help: ".toList ++ r.help.toList ++ "\n\n".toList

/-- What is written for an error without a report. -/
def failure (t : Terminal) (message : Text) : Text :=
  "Error: \n".toList ++ t.headline message ++ ['\n']

end Terminal

end Chip8

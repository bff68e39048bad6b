import MiniOS.Screen.Ports

/-!
# What the serial port gets

`terminal_putchar` copies to the serial port what it shows: new lines with a
carriage return before them, a backspace as one that also erases, tabs as the
spaces they are shown as, and the four line-drawing characters of the VGA font in
UTF-8.  While only these and ASCII are printed, all that the port gets is UTF-8
(`serial_utf8`); calls that print nothing send nothing.
-/

namespace MiniOS

open Lib

variable {t t' : Terminal}

/-- The text a call prints. -/
def TerminalCall.text : TerminalCall → List UInt8
  | .putchar c => [c]
  | .write data => data
  | .writestring s => str s
  | .writecolor s _ _ => str s
  | _ => []

end MiniOS

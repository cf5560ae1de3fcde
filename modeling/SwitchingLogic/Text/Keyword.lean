import SwitchingLogic.Text.Blank

/-!
# Keywords

The names of options are recognised whatever their case and with white space around them.
-/

namespace SwitchingLogic.Text

/-- The small letter of a capital.  Keywords hold plain small letters only, and besides the
capitals of the alphabet just the sign of the kelvin has one of them as its small letter. -/
def lower (c : Char) : Char :=
  if c = '\u212a' then 'k' else c.toLower

def keyword (s : String) : String :=
  String.ofList ((trim s.toList).map lower)

end SwitchingLogic.Text

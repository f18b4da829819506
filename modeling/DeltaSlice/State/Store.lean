import DeltaSlice.Table
import DeltaSlice.Value.Logic

/-!
Stores: the values of variables.
-/

namespace DeltaSlice

abbrev Store := Table Variable Value

/-- The entries by text, in braces; nothing for an empty store. -/
def Store.key (s : Store) : String :=
  if s.isEmpty then ""
  else
    let texts := s.entries.map fun e => e.1.text ++ "=" ++ e.2.key
    " \x7b" ++ ",".intercalate (sortByText id texts) ++ "\x7d"

end DeltaSlice

import Synora.Lib.Text

namespace Synora.Toml
open Strings

/-- A TOML value, as `toml::Value` tells the types apart. -/
inductive Value
  | string (t : Text)
  | integer (n : ℤ)
  | float
  | boolean (b : Bool)
  | datetime
  | array (items : List Value)
  | table (entries : List (Text × Value))

abbrev Table := List (Text × Value)

namespace Value

def asTable : Value → Option Table
  | .table entries => some entries
  | _ => none

def asInteger : Value → Option ℤ
  | .integer n => some n
  | _ => none

def asStr : Value → Option Text
  | .string t => some t
  | _ => none

def asArray : Value → Option (List Value)
  | .array items => some items
  | _ => none

end Value

end Synora.Toml

import Editing.Text.Quoted

/-!
# Property values

The values that properties of overlays and texts can have, with their two written forms.
-/

namespace Editing

inductive Value where
  | nil
  | bool (b : Bool)
  | int (n : Int)
  | str (s : String)
  | symbol (name : String)
deriving DecidableEq, Repr, Inhabited

namespace Value

/-- Whether the value is `nil`; false is another value. -/
def isNil : Value → Bool
  | nil => true
  | _ => false

def asInt? : Value → Option Int
  | int n => some n
  | _ => none

/-- The form in which truth is written `t`, and falsehood like `nil`. -/
def display : Value → String
  | nil => "nil"
  | bool true => "t"
  | bool false => "nil"
  | int n => toString n
  | str s => String.ofList (Text.quoted s.toList)
  | symbol name => name

/-- The form in which the truth values are spelled out. -/
def render : Value → String
  | bool true => "true"
  | bool false => "false"
  | v => v.display

end Value

end Editing

import StackMachine.Derive.Item

/-!
# Display code

The code of a type's display, as tokens with single blanks between them.
-/

namespace StackMachine.Derive

/-- A text in curly brackets, with blanks inside. -/
def inBraces (body : String) : String := "\x7b " ++ body ++ "\x7d"

namespace Pattern

/-- The tokens of a pattern after the variant's path. -/
def code : Pattern → String
  | unit => ""
  | tuple bindings => " (" ++ " , ".intercalate (bindings.map (·.getD "_")) ++ ")"
  | named bindings => " " ++ inBraces (String.join (bindings.map (· ++ " , ")) ++ ".. ")

end Pattern

namespace Arm

/-- The tokens of a variant's path. -/
def path : Option String → String
  | some name => "Self :: " ++ name
  | none => "Self"

/-- The tokens of an arm. -/
def code (a : Arm) : String :=
  path a.variant ++ a.pattern.code ++ " => write ! (f , " ++
    String.ofList (StringLiteral.write a.format.toList) ++
    String.join (a.arguments.map fun b => " , " ++ b ++ " = " ++ b) ++ ") , "

end Arm

namespace Item

/-- The tokens of a list of type parameters, with a blank before them. -/
def genericsCode (generics : List String) : String :=
  if generics.isEmpty then "" else " < " ++ " , ".intercalate generics ++ " >"

/-- The tokens of the display code of a type with the given arms. -/
def codeOf (item : Item) (arms : List Arm) : String :=
  let parameters := genericsCode item.generics
  let implementation := "impl" ++ parameters
  let type := item.name ++ parameters
  let body := "match self " ++ inBraces (String.join (arms.map Arm.code))
  let method :=
    "fn fmt (& self , f : & mut :: std :: fmt :: Formatter < '_ >) -> :: std :: fmt :: Result " ++
      inBraces (body ++ " ")
  implementation ++ " :: std :: fmt :: Display for " ++ type ++ " " ++ inBraces (method ++ " ") ++
    " " ++ implementation ++ " :: std :: error :: Error for " ++ type ++ " " ++ inBraces ""

/-- The display code of a type. -/
def derive (item : Item) : Except Refusal String := item.arms.map item.codeOf

end Item

end StackMachine.Derive

import BlendPlot.Token

namespace BlendPlot

/-- The greatest height of a tree and the greatest nesting of expressions in a text. -/
def maxDepth : Nat := 256

inductive ParseError where
  | unknownInput (c : Char) (position : Nat)
  | endOfInput
  | missingOperand (op : Operator) (position : Nat)
  /-- A closing parenthesis where an operand should begin. -/
  | closingForOperand (position : Nat)
  | unexpected (found : Token)
  /-- Another token where the group opened at `opening` should close. -/
  | expectedClosing (found : Token) (opening : Nat)
  /-- The text ends inside the group opened at `opening`. -/
  | unclosed (opening : Nat)
  /-- A closing parenthesis after a complete expression. -/
  | unopened (position : Nat)
  | tooComplex
  deriving DecidableEq

inductive BindError where
  /-- The name of a function that is not called. -/
  | uncalledFunction (name : String)
  | unknownName (name : String)
  | unknownFunction (name : String)
  | wrongArity (name : String) (found : Nat)
  /-- A reserved name where it has no value. -/
  | unavailable (name : String)
  deriving DecidableEq

inductive SourceError where
  | parse (error : ParseError)
  | bind (error : BindError)
  deriving DecidableEq

def ParseError.ofTrailing (t : Token) : ParseError :=
  match t.lexeme with
  | .closing => .unopened t.position
  | .unknown c => .unknownInput c t.position
  | _ => .unexpected t

def atPosition (position : Nat) : String :=
  "at position " ++ toString position

def quoted (text : String) : String :=
  "'" ++ text ++ "'"

def ParseError.message : ParseError → String
  | unknownInput c position =>
    "Tokenizer error: Unexpected input " ++ quoted c.toString ++ " " ++ atPosition position
  | endOfInput => "Syntax error: Unexpected end of input"
  | missingOperand op position =>
    "Syntax error: Expected expression after " ++ quoted op.symbol.toString ++ " " ++
      atPosition position
  | closingForOperand position =>
    "Syntax error: Unexpected closing parenthesis " ++ atPosition position ++
      ": check for balanced parentheses"
  | unexpected found =>
    "Syntax error: Unexpected token " ++ atPosition found.position ++ ": " ++
      quoted found.lexeme.spelling
  | expectedClosing found opening =>
    "Syntax error: Expected closing parenthesis ')' but found " ++
      quoted found.lexeme.spelling ++ " " ++ atPosition found.position ++
      " (opening " ++ atPosition opening ++ ")"
  | unclosed opening => "Unmatched parenthesis " ++ atPosition opening ++ ": found '('"
  | unopened position => "Unmatched parenthesis " ++ atPosition position ++ ": found ')'"
  | tooComplex =>
    "Recursion limit exceeded: Expression too complex: exceeded maximum nesting depth of " ++
      toString maxDepth

def BindError.message : BindError → String
  | uncalledFunction name =>
    "Syntax error: " ++ quoted name ++ " is a function and must be called, e.g. " ++ name ++ "(x)"
  | unknownName name => "Unknown variable: " ++ quoted name
  | unknownFunction name => "Unknown function: " ++ quoted name
  | wrongArity name found =>
    "Invalid function call to " ++ quoted name ++ ": expected 1 arguments, found " ++
      toString found
  | unavailable name => quoted name ++ " cannot be used in this expression"

def SourceError.message : SourceError → String
  | parse e => e.message
  | bind e => e.message

end BlendPlot

namespace BlendPlot

/-- An ASCII letter or an underscore. -/
def isIdentifierChar (c : Char) : Bool :=
  c.isAlpha || c == '_'

/-- The maximal runs of identifier characters, in order and with repetitions. -/
def identifierRunsOf : List Char → List String
  | [] => []
  | c :: cs =>
    if isIdentifierChar c then
      String.ofList (c :: cs.takeWhile isIdentifierChar) ::
        identifierRunsOf (cs.dropWhile isIdentifierChar)
    else identifierRunsOf cs
termination_by cs => cs.length
decreasing_by
  · exact Nat.lt_succ_of_le (List.dropWhile_suffix isIdentifierChar).length_le
  · exact Nat.lt_succ_self _

def identifierRuns (text : String) : List String :=
  identifierRunsOf text.toList

end BlendPlot

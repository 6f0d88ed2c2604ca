import ArmorPolicy.Glob.Basic
import ArmorPolicy.Glob.CharClass

/-!
# The regular expression of a glob

A glob stands for an anchored regular expression with look-behind, which other tools can use.
-/

namespace ArmorPolicy.Glob

/-- The characters with a meaning of their own in regular expressions. -/
def isRegexSpecial (c : Char) : Bool :=
  c == '\\' || c == '.' || c == '+' || c == '*' || c == '?' || c == '(' || c == ')' || c == '|' ||
    c == '[' || c == ']' || c == '{' || c == '}' || c == '^' || c == '$'

def charRegex (c : Char) : String :=
  if isRegexSpecial c then String.ofList ['\\', c] else String.singleton c

/-- A run may be empty unless a slash stands before it. -/
def runRegex (allowed : String) : String :=
  "(((?<=/)" ++ allowed ++ "+)|((?<!/)" ++ allowed ++ "*))"

def Atom.regex : Atom → String
  | .char c => charRegex c
  | .one => "[^/\\x00]"
  | .run false => runRegex "[^/\\x00]"
  | .run true => runRegex "[^\\x00]"
  | .oneOf inner => "[" ++ String.ofList (classRegex inner) ++ "]"

def regexBody : Glob → String
  | .empty => ""
  | .atom a => a.regex
  | .seq first second => first.regexBody ++ second.regexBody
  | .alt first second => first.regexBody ++ "|" ++ second.regexBody
  | .group inner => "(" ++ inner.regexBody ++ ")"

def regex (g : Glob) : String := "^" ++ g.regexBody ++ "$"

end ArmorPolicy.Glob

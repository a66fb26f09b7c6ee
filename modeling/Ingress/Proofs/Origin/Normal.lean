import Mathlib
import Ingress.Proofs.Origin.Issued
/-!
The normal form of origins. An origin that is handed out has it, whatever it was made or resolved
from, and it is what comes out when the parts of such an origin are put together again.
-/
namespace Ingress

namespace Host

/-- Nothing of a host can be taken for a port behind a shorter one. -/
theorem Proper.suffix_eq_nil {h g suffix : Text} (hh : Proper h) (hg : Proper g)
    (hs : PortSuffix suffix) (he : h = g ++ suffix) : suffix = [] := by
  have hx := congrArg split he
  have hsplit := @split_append_suffix h [] hh (by simp)
  rw [List.append_nil] at hsplit
  rw [hsplit, split_append_suffix hg hs.head] at hx
  exact (Prod.mk.inj hx).2.symm

end Host

namespace Origin

structure Normal (o : Origin) : Prop where
  lower : ∀ c ∈ o.scheme.text, c.isUpper = false
  scheme : Scheme.ofText o.scheme.text = .ok o.scheme
  ne_nil : o.host ≠ []
  host : Host.Proper o.host
  bare : ∀ h suffix, Host.Proper h → Host.PortSuffix suffix → o.host = h ++ suffix → suffix = []
  parts : ofParts o.scheme o.host o.port = .ok o

theorem ofParts_of_wellFormed {o : Origin} (h : o.WellFormed) :
    ofParts o.scheme o.host o.port = .ok o := by
  have hh := Host.ofText?_append h.host .none
  rw [List.append_nil] at hh
  rw [ofParts, hh]
  exact congrArg Except.ok (congrArg (Origin.mk · _ _) h.scheme)

theorem normal_of_wellFormed {o : Origin} (h : o.WellFormed) : o.Normal where
  lower := Text.lower_eq_self_iff.1 (congrArg Scheme.text h.scheme)
  scheme := Scheme.ofText_text o.scheme
  ne_nil := h.host.ne_nil
  host := h.host
  bare := fun _ _ hg hs he => h.host.suffix_eq_nil hg hs he
  parts := ofParts_of_wellFormed h

/-- Every origin is normal, and the port of a resolved one can be connected to. -/
theorem normal_of_issued {o : Origin} (h : o.Issued) :
    o.Normal ∧ ∀ p v, (TrustPolicy.resolve p v).value = .ok o →
      1 ≤ o.port.toNat ∧ o.port.toNat ≤ 65535 := by
  refine ⟨normal_of_wellFormed h.wellFormed, ?_⟩
  intro p v ho
  have h0 : o.port.toNat ≠ 0 := fun hz => (wellFormed_of_resolve ho).2 (UInt16.toNat_inj.1 hz)
  have hlt := o.port.toNat_lt
  omega

/-- The scheme is written in mixed case, the port of the proxy is zero, and that of the connection
is too large. -/
theorem normal_of_issued_zero :
    let v := View.ofTexts "HtTpS://u@[::1]:70000/".toList [("X-Forwarded-Port".toList, "00".toList)]
    let o : Origin := ⟨.https, "[::1]".toList, 443⟩
    (TrustPolicy.trusting.resolve v).value = .ok o ∧ o.Issued ∧ o.Normal ∧
      1 ≤ o.port.toNat ∧ o.port.toNat ≤ 65535 := by
  intro v o
  have ho : (TrustPolicy.trusting.resolve v).value = .ok o := by cbv
  have h : o.Issued := .resolved ho
  obtain ⟨hn, hp⟩ := normal_of_issued h
  exact ⟨ho, h, hn, hp _ v ho⟩

end Origin
end Ingress

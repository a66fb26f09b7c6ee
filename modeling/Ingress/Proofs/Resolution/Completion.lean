import Mathlib
import Ingress.Proofs.Resolution.Failure
import Ingress.Proofs.Uri.Reading
/-!
A request that names only a target is completed from its `Host` header and the scheme to fall back
to. It resolves as the request for the URI that is put together from the two, and fails where that
URI does not read, for the reason that this has.
-/
namespace Ingress

namespace Connection

theorem ofView_relative {s : Scheme} {v : View} {target : Target} {value : Text}
    (hu : v.uri = .ok (.relative target)) (hv : (v.lookup .host).head? = some value)
    (hn : value.trim ≠ []) :
    ofView s v = (Authority.ofText value.trim).mapError .malformed >>= ofAuthority s := by
  have ha : authorityOf (.relative target) v.lookup =
      (Authority.ofText value.trim).mapError .malformed := by
    change hostAuthority v.lookup = _
    rw [hostAuthority, hv]
    exact if_neg hn
  rw [ofView, hu, ← ha]
  rfl

theorem ofAuthority_reread (s : Scheme) (a : Authority) :
    ofAuthority s.reread a = ofAuthority s a := by
  rw [ofAuthority, ofAuthority, s.lower_reread]

end Connection

namespace TrustPolicy

/-- What a request for a target resolves to is what the request for the completed URI resolves to, a
missing host included, and where the completed URI does not read the request fails with the error of
that URI. -/
theorem resolve_of_completion (p : TrustPolicy) {v : View} {target : Target} {value : Text}
    (hu : v.uri = .ok (.relative target)) (hv : (v.lookup .host).head? = some value)
    (hn : value.trim ≠ []) (hd : ∀ c ∈ value.trim, c ≠ '/' ∧ c ≠ '?' ∧ c ≠ '#')
    (hl : Text.byteLength (Uri.completion p.fallbackScheme value.trim) ≤ 65534) :
    (∀ u, Uri.ofText (Uri.completion p.fallbackScheme value.trim) = .ok u →
        p.resolve v = p.resolve { v with uri := .ok u } ∧
          ∀ e, (p.resolve v).value = .error e → e = .noHost) ∧
      ∀ e, Uri.ofText (Uri.completion p.fallbackScheme value.trim) = .error e →
        p.resolve v = pure (.error (.malformed e)) := by
  have hnd : ∀ c ∈ value.trim, Uri.isDelimiter c = false := by
    intro c hc
    obtain ⟨h1, h2, h3⟩ := hd c hc
    simp [Uri.isDelimiter, h1, h2, h3]
  have hview := Connection.ofView_relative (s := p.fallbackScheme) hu hv hn
  rw [Uri.ofText_completion p.fallbackScheme hn hnd hl]
  cases ha : Authority.ofText value.trim with
  | error cause =>
    rw [ha] at hview
    constructor
    · intro u hx
      cases hx
    · intro e hx
      cases hx
      exact resolve_of_error hview
  | ok a =>
    rw [ha] at hview
    constructor
    · intro u hx
      cases hx
      constructor
      · refine resolve_congr ?_ rfl
        exact hview.trans (Connection.ofAuthority_reread p.fallbackScheme a).symm
      · intro e he
        have hfail := (@Connection.ofView_eq_error_iff p.fallbackScheme v e).2
          (value_resolve_eq_error_iff.1 he)
        rw [hview] at hfail
        exact (Connection.ofAuthority_eq_error_iff.1 hfail).2
    · intro e hx
      cases hx

/-- A fallback in capital letters, once with a user, an address and a port behind blanks and once
with a name that has a `%`. -/
theorem resolve_of_completion_capital :
    let s : Scheme := ⟨"HTTP".toList, by decide, by decide⟩
    let p : TrustPolicy := ⟨true, false, true, s⟩
    let v := View.ofTexts "/app?q".toList [("Host".toList, " u@[::1]:08443 ".toList),
      ("X-Forwarded-Port".toList, "0".toList)]
    let w := View.ofTexts "/app?q".toList [("Host".toList, "caf%C3%A9.example".toList)]
    let u := Uri.absolute .http ⟨"u@[::1]:08443".toList, by decide, by cbv⟩ ⟨"/".toList, none⟩
    let target : Target := ⟨"/app".toList, some ['q']⟩
    v.uri = .ok (.relative target) ∧ w.uri = .ok (.relative target) ∧
      Uri.ofText (Uri.completion s "u@[::1]:08443".toList) = .ok u ∧
      p.resolve v = p.resolve { v with uri := .ok u } ∧
      (p.resolve v).value = .ok ⟨.http, "[::1]".toList, 8443⟩ ∧
      Uri.ofText (Uri.completion s "caf%C3%A9.example".toList) = .error .invalidAuthority ∧
      p.resolve w = pure (.error (.malformed .invalidAuthority)) := by
  intro s p v w u target
  have hv : v.uri = .ok (.relative target) := by cbv
  have hw : w.uri = .ok (.relative target) := by cbv
  have hu : Uri.ofText (Uri.completion s "u@[::1]:08443".toList) = .ok u := by cbv
  have he : Uri.ofText (Uri.completion s "caf%C3%A9.example".toList) =
      .error .invalidAuthority := by cbv
  have hr : (p.resolve v).value = .ok ⟨.http, "[::1]".toList, 8443⟩ := by cbv
  have hvh : (v.lookup .host).head? = some " u@[::1]:08443 ".toList := by cbv
  have hwh : (w.lookup .host).head? = some "caf%C3%A9.example".toList := by cbv
  have hvt : Text.trim " u@[::1]:08443 ".toList = "u@[::1]:08443".toList := by cbv
  have hwt : Text.trim "caf%C3%A9.example".toList = "caf%C3%A9.example".toList := by cbv
  have hok := (resolve_of_completion p hv hvh (by decide) (by rw [hvt]; simp) (by decide)).1 u hu
  have herr := (resolve_of_completion p hw hwh (by decide) (by rw [hwt]; simp) (by decide)).2 _ he
  exact ⟨hv, hw, hu, hok.1, hr, he, herr⟩

end TrustPolicy
end Ingress

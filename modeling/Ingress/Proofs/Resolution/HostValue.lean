import Mathlib
import Ingress.Proofs.Forwarding.RoundTrip
import Ingress.Proofs.Origin.RoundTrip
import Ingress.Proofs.Resolution.Completion
/-!
A host with an optional port, once as the `Host` of a request and once as what a proxy reports. Two
readers that know nothing of each other find the same host in it, except that a `%` in the host is
refused in the first place and passed on in the second.
-/
namespace Ingress

namespace Host

variable {t h : Text}

theorem isBlank_of_mem_of_ofText? (ht : ofText? t = some h) : ∀ c ∈ t, Text.isBlank c = false := by
  obtain ⟨hh, suffix, hs, rfl⟩ := ofText?_eq_some_iff.1 ht
  exact isBlank_of_mem_append hh hs

theorem ne_nil_of_ofText? (ht : ofText? t = some h) : t ≠ [] := by
  obtain ⟨hh, suffix, hs, rfl⟩ := ofText?_eq_some_iff.1 ht
  simp [hh.ne_nil]

end Host

namespace Authority

variable {t h : Text}

theorem check_of_host (ht : Host.ofText? t = some h) :
    check t = if '%' ∈ t then .error .invalidAuthority else .ok () := by
  obtain ⟨hh, suffix, hs, rfl⟩ := Host.ofText?_eq_some_iff.1 ht
  simp only [check_append hh hs, List.mem_append, not_percent_mem_suffix hs, or_false]

/-- The authority that a host and its port make is the whole text. -/
theorem exists_of_host (ht : Host.ofText? t = some h) (hp : '%' ∉ t) :
    ∃ a, ofText t = .ok a ∧ a.text = t ∧ a.host = h := by
  have hc : check t = .ok () := (check_of_host ht).trans (if_neg hp)
  refine ⟨⟨t, Host.ne_nil_of_ofText? ht, hc⟩,
    ofText_text ⟨t, Host.ne_nil_of_ofText? ht, hc⟩, rfl, ?_⟩
  obtain ⟨hh, suffix, hs, he⟩ := Host.ofText?_eq_some_iff.1 ht
  exact host_of_text he hh hs

theorem ofText_of_percent (ht : Host.ofText? t = some h) (hp : '%' ∈ t) :
    ofText t = .error .invalidAuthority := by
  have hc : check t = .error .invalidAuthority := (check_of_host ht).trans (if_pos hp)
  have hd : ∀ c ∈ t, Uri.isDelimiter c = false := by
    obtain ⟨hh, suffix, hs, rfl⟩ := Host.ofText?_eq_some_iff.1 ht
    exact isDelimiter_of_mem_append hh hs
  have htake := @take_append t [] (Host.ne_nil_of_ofText? ht) hd (by simp) _ hc
  rw [List.append_nil] at htake
  rw [ofText, htake]

/-- An address in brackets stays below the colons at which the pass gives up. -/
theorem exists_of_isAddress {a : Text} (ha : Address.isAddress a = true) :
    a.count ':' ≤ maxColons ∧
      ∃ b, ofText ('[' :: a ++ [']']) = .ok b ∧ b.host = '[' :: a ++ [']'] := by
  have ht := Host.ofText?_append (.literal ha) .none
  rw [List.append_nil] at ht
  obtain ⟨b, hb, -, hh⟩ := exists_of_host ht (not_percent_mem_literal ha)
  exact ⟨Address.count_colon_le ha, b, hb, hh⟩

end Authority

namespace Connection

theorem ofView_of_host {s : Scheme} {v : View} {target : Target} {t h : Text}
    (ht : Host.ofText? t = some h) (hu : v.uri = .ok (.relative target))
    (hv : (v.lookup .host).head? = some t) :
    ofView s v = (Authority.ofText t).mapError .malformed >>= ofAuthority s := by
  have htrim := Text.trim_eq_self (Host.isBlank_of_mem_of_ofText? ht)
  have hview := @ofView_relative s v target t hu hv (by rw [htrim]; exact Host.ne_nil_of_ofText? ht)
  rwa [htrim] at hview

end Connection

theorem Overrides.host_of_value {t h : Text} (ht : Host.ofText? t = some h) (hc : ',' ∉ t)
    {lookup : Lookup} (hl : lookup Forwarded.host.name = [t]) :
    (Overrides.read lookup).value.host = some h := by
  have hf := Forwarded.first?_singleton (Host.ne_nil_of_ofText? ht) hc
    (Host.isBlank_of_mem_of_ofText? ht)
  rw [value_read, hl, hf, Option.bind_some]
  exact ht

namespace TrustPolicy

/-- The host of a text without a `%` is the host of the authority that the whole text is. A request
for a target with that text as its `Host` resolves to it, with a port of the text if there is one,
and a proxy that reports the text reports the same host. With a `%` the request fails. No address in
brackets is refused for its colons. -/
theorem resolve_of_hostValue {t h : Text} (ht : Host.ofText? t = some h) :
    ('%' ∉ t → ∃ a, Authority.ofText t = .ok a ∧ a.text = t ∧ a.host = h ∧
        ∀ (p : TrustPolicy) (v : View) (target : Target), v.uri = .ok (.relative target) →
          (v.lookup .host).head? = some t → (∀ f : Forwarded, v.lookup f.name = []) →
          (p.resolve v).value =
            .ok ⟨p.fallbackScheme.lower, h,
              (Connection.portOf a).getD p.fallbackScheme.lower.usualPort⟩) ∧
      (',' ∉ t → ∀ lookup : Lookup, lookup Forwarded.host.name = [t] →
        (Overrides.read lookup).value.host = some h) ∧
      ('%' ∈ t → ∀ (p : TrustPolicy) (v : View) (target : Target), v.uri = .ok (.relative target) →
        (v.lookup .host).head? = some t →
          p.resolve v = pure (.error (.malformed .invalidAuthority))) ∧
      ∀ a, Address.isAddress a = true → a.count ':' ≤ Authority.maxColons ∧
        ∃ b, Authority.ofText ('[' :: a ++ [']']) = .ok b ∧ b.host = '[' :: a ++ [']'] := by
  refine ⟨fun hp => ?_, fun hc lookup hl => Overrides.host_of_value ht hc hl,
    fun hp p v target hu hv => ?_, fun a ha => Authority.exists_of_isAddress ha⟩
  · obtain ⟨a, ha, htext, hhost⟩ := Authority.exists_of_host ht hp
    refine ⟨a, ha, htext, hhost, fun p v target hu hv hl => ?_⟩
    have hproper := (Host.ofText?_eq_some_iff.1 ht).1
    have hview : Connection.ofView p.fallbackScheme v =
        .ok ⟨p.fallbackScheme.lower, h, Connection.portOf a⟩ := by
      rw [Connection.ofView_of_host ht hu hv, ha]
      exact Connection.ofAuthority_eq_ok_iff.2 ⟨hhost ▸ hproper, by rw [hhost]⟩
    rw [value_resolve_of_ok hview, p.value_overrides_of_nil hl]
    rfl
  · refine resolve_of_error ?_
    rw [Connection.ofView_of_host ht hu hv, Authority.ofText_of_percent ht hp]
    rfl

/-- The address with the most colons that there can be and an empty port, and a name with an escape
and a port. -/
theorem resolve_of_hostValue_longest :
    let v := View.ofTexts "/app".toList [("Host".toList, "[1:2:3:4:5:6:7::]:".toList)]
    let w := View.ofTexts "/app".toList [("Host".toList, "caf%C3%A9.example:80".toList)]
    let reported := View.ofTexts "/app".toList
      [("X-Forwarded-Host".toList, "[1:2:3:4:5:6:7::]:".toList)]
    Host.ofText? "[1:2:3:4:5:6:7::]:".toList = some "[1:2:3:4:5:6:7::]".toList ∧
      (∃ o, (untrusting.resolve v).value = .ok o ∧ o.host = "[1:2:3:4:5:6:7::]".toList) ∧
      (Overrides.read reported.lookup).value.host = some "[1:2:3:4:5:6:7::]".toList ∧
      Host.ofText? "caf%C3%A9.example:80".toList = some "caf%C3%A9.example".toList ∧
      trusting.resolve w = pure (.error (.malformed .invalidAuthority)) ∧
      "1:2:3:4:5:6:7::".toList.count ':' ≤ Authority.maxColons := by
  intro v w reported
  have ht : Host.ofText? "[1:2:3:4:5:6:7::]:".toList = some "[1:2:3:4:5:6:7::]".toList := by cbv
  have hw : Host.ofText? "caf%C3%A9.example:80".toList = some "caf%C3%A9.example".toList := by cbv
  have hu : v.uri = .ok (.relative ⟨"/app".toList, none⟩) := by cbv
  have hv : (v.lookup .host).head? = some "[1:2:3:4:5:6:7::]:".toList := by cbv
  have hl : ∀ f : Forwarded, v.lookup f.name = [] := by
    intro f
    cases f <;> cbv
  have hwu : w.uri = .ok (.relative ⟨"/app".toList, none⟩) := by cbv
  have hwv : (w.lookup .host).head? = some "caf%C3%A9.example:80".toList := by cbv
  have hr : reported.lookup Forwarded.host.name = ["[1:2:3:4:5:6:7::]:".toList] := by cbv
  obtain ⟨hok, hread, -, haddress⟩ := resolve_of_hostValue ht
  obtain ⟨a, -, -, -, horigin⟩ := hok (by decide)
  have hfail := (resolve_of_hostValue hw).2.2.1 (by decide) trusting w _ hwu hwv
  exact ⟨ht, ⟨_, horigin untrusting v _ hu hv hl, rfl⟩, hread (by decide) _ hr, hw, hfail,
    (haddress _ (by cbv)).1⟩

end TrustPolicy
end Ingress

import Ingress.Resolution
import Ingress.Proofs.Connection
import Ingress.Proofs.Forwarding.Entry
/-!
The result of a resolution without its events. What is believed of the headers is stated as a
relation that exactly one answer satisfies, and an origin is the connection with that answer put in.
-/
namespace Ingress

/-- What the three headers have to say to a policy. -/
structure Overrides.Stated (p : TrustPolicy) (lookup : Lookup) (o : Overrides) : Prop where
  proto : Forwarded.Says Forwarded.ReadsScheme p.proto (lookup Forwarded.proto.name) o.proto
  host : Forwarded.Says Forwarded.ReadsHost p.host (lookup Forwarded.host.name) o.host
  port : Forwarded.Says Forwarded.ReadsPort p.port (lookup Forwarded.port.name) o.port

theorem Overrides.value_read (lookup : Lookup) :
    (Overrides.read lookup).value =
      ⟨(Forwarded.first? (lookup Forwarded.proto.name)).bind Forwarded.readProto?,
        (Forwarded.first? (lookup Forwarded.host.name)).bind Forwarded.readHost?,
        (Forwarded.first? (lookup Forwarded.port.name)).bind Forwarded.readPort?⟩ := by
  simp only [Overrides.read, Logged.value_bind, Logged.value_pure, Forwarded.value_read]

namespace TrustPolicy

/-- Reading no header at all comes to the same as believing none of what was read. -/
theorem value_overrides (p : TrustPolicy) (lookup : Lookup) :
    (p.overrides lookup).value = p.mask (Overrides.read lookup).value := by
  by_cases h : (p.proto || p.host || p.port) = true
  · rw [overrides, if_pos h, Logged.value_map]
  · simp only [Bool.or_eq_true, not_or, Bool.not_eq_true] at h
    obtain ⟨⟨hp, hh⟩, hn⟩ := h
    simp [overrides, mask, Overrides.empty, hp, hh, hn]

theorem stated_iff {p : TrustPolicy} {lookup : Lookup} {o : Overrides} :
    Overrides.Stated p lookup o ↔ o = (p.overrides lookup).value := by
  have hs := @Forwarded.says_iff _ Forwarded.ReadsScheme Forwarded.readProto?
    (fun _ _ => Forwarded.readProto?_eq_some_iff) p.proto (lookup Forwarded.proto.name) o.proto
  have hh := @Forwarded.says_iff _ Forwarded.ReadsHost Forwarded.readHost?
    (fun _ _ => Forwarded.readHost?_eq_some_iff) p.host (lookup Forwarded.host.name) o.host
  have hn := @Forwarded.says_iff _ Forwarded.ReadsPort Forwarded.readPort?
    (fun _ _ => Forwarded.readPort?_eq_some_iff) p.port (lookup Forwarded.port.name) o.port
  rw [value_overrides, Overrides.value_read]
  constructor
  · intro h
    obtain ⟨h1, h2, h3⟩ := h
    cases o
    simp only [mask, Overrides.mk.injEq]
    exact ⟨(hs.1 h1).symm, (hh.1 h2).symm, (hn.1 h3).symm⟩
  · intro h
    subst h
    exact ⟨hs.2 rfl, hh.2 rfl, hn.2 rfl⟩

theorem value_resolve (p : TrustPolicy) (v : View) :
    (p.resolve v).value =
      (Connection.ofView p.fallbackScheme v).map fun c =>
        c.override (p.overrides v.lookup).value := by
  rw [resolve]
  cases Connection.ofView p.fallbackScheme v <;> rfl

theorem value_url (p : TrustPolicy) (v : View) (path : Text) :
    (p.url v path).value = (p.resolve v).value.map (·.url path) := by
  rw [url, Logged.value_map]

theorem value_resolve_of_ok {p : TrustPolicy} {v : View} {c : Connection}
    (h : Connection.ofView p.fallbackScheme v = .ok c) :
    (p.resolve v).value = .ok (c.override (p.overrides v.lookup).value) := by
  rw [value_resolve, h]
  rfl

theorem connection_of_resolve {p : TrustPolicy} {v : View} {o : Origin}
    (h : (p.resolve v).value = .ok o) :
    ∃ c, Connection.ofView p.fallbackScheme v = .ok c ∧
      o = c.override (p.overrides v.lookup).value := by
  rw [value_resolve, Except.map_eq_ok_iff] at h
  obtain ⟨c, hc, ho⟩ := h
  exact ⟨c, hc, ho.symm⟩

/-- Events included, a resolution depends on the connection and the headers alone. -/
theorem resolve_congr {p : TrustPolicy} {v w : View}
    (hc : Connection.ofView p.fallbackScheme v = Connection.ofView p.fallbackScheme w)
    (hl : v.lookup = w.lookup) : p.resolve v = p.resolve w := by
  rw [resolve, resolve, hc, hl]

theorem resolve_of_error {p : TrustPolicy} {v : View} {e : RequestError}
    (h : Connection.ofView p.fallbackScheme v = .error e) : p.resolve v = pure (.error e) := by
  rw [resolve, h]

end TrustPolicy
end Ingress

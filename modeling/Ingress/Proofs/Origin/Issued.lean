import Mathlib
import Ingress.Proofs.Resolution.Value
/-!
Every origin that is handed out, whether it was made from its parts or resolved, has a scheme in
lower case and a proper host. A resolved one also has a port that can be connected to.
-/
namespace Ingress

namespace Overrides

variable {p : TrustPolicy} {lookup : Lookup} {o : Overrides}

theorem Stated.lower_proto (h : Stated p lookup o) {s : Scheme} (hs : o.proto = some s) :
    s.lower = s := by
  have hp := h.proto
  rw [hs] at hp
  obtain ⟨-, e, -, he⟩ := hp
  cases s
  simp only [Forwarded.ReadsScheme] at he
  simp only [Scheme.lower, he, Text.lower_lower]

theorem Stated.proper_host (h : Stated p lookup o) {t : Text} (ht : o.host = some t) :
    Host.Proper t := by
  have hh := h.host
  rw [ht] at hh
  obtain ⟨-, e, -, he⟩ := hh
  exact he.1

theorem Stated.port_ne_zero (h : Stated p lookup o) {n : Port} (hn : o.port = some n) : n ≠ 0 := by
  have hp := h.port
  rw [hn] at hp
  obtain ⟨-, e, -, he⟩ := hp
  exact he.2.2.2

end Overrides

namespace Origin

structure WellFormed (o : Origin) : Prop where
  scheme : o.scheme.lower = o.scheme
  host : Host.Proper o.host

theorem wellFormed_of_ofParts {s : Scheme} {h : Text} {n : Port} {o : Origin}
    (ho : ofParts s h n = .ok o) : o.WellFormed := by
  cases hh : Host.ofText? h with
  | none =>
    rw [ofParts, hh] at ho
    cases ho
  | some t =>
    rw [ofParts, hh] at ho
    cases ho
    exact ⟨s.lower_lower, (Host.ofText?_eq_some_iff.1 hh).1⟩

theorem wellFormed_override {p : TrustPolicy} {lookup : Lookup} {w : Overrides}
    (hw : Overrides.Stated p lookup w) {c : Connection} (hs : c.scheme.lower = c.scheme)
    (hh : Host.Proper c.host) : (c.override w).WellFormed := by
  constructor
  · cases h : w.proto with
    | none => simpa [Connection.override, h] using hs
    | some s => simpa [Connection.override, h] using hw.lower_proto h
  · cases h : w.host with
    | none => simpa [Connection.override, h] using hh
    | some t => simpa [Connection.override, h] using hw.proper_host h

theorem usualPort_ne_zero (s : Scheme) : s.usualPort ≠ 0 := by
  rw [Scheme.usualPort]
  split <;> decide

theorem portOf_ne_zero {a : Authority} {n : Port} (h : Connection.portOf a = some n) : n ≠ 0 := by
  simpa using (Option.filter_eq_some_iff.1 h).2

theorem port_override_ne_zero {p : TrustPolicy} {lookup : Lookup} {w : Overrides}
    (hw : Overrides.Stated p lookup w) {c : Connection} (hc : ∀ n, c.port = some n → n ≠ 0) :
    (c.override w).port ≠ 0 := by
  cases h : w.port with
  | some n => simpa [Connection.override, h] using hw.port_ne_zero h
  | none =>
    by_cases hr : w.relocates = true
    · simpa [Connection.override, h, hr] using usualPort_ne_zero _
    · cases hp : c.port with
      | none => simpa [Connection.override, h, hr, hp] using usualPort_ne_zero _
      | some n => simpa [Connection.override, h, hr, hp] using hc n hp

theorem wellFormed_of_resolve {p : TrustPolicy} {v : View} {o : Origin}
    (h : (p.resolve v).value = .ok o) : o.WellFormed ∧ o.port ≠ 0 := by
  obtain ⟨c, hc, rfl⟩ := TrustPolicy.connection_of_resolve h
  obtain ⟨uri, a, -, -, hh, rfl⟩ := Connection.ofView_eq_ok_iff.1 hc
  have hw := @TrustPolicy.stated_iff p v.lookup _ |>.2 rfl
  exact ⟨wellFormed_override hw (Scheme.lower_lower _) hh,
    port_override_ne_zero hw fun _ => portOf_ne_zero⟩

/-- The origins that are handed out. -/
inductive Issued (o : Origin) : Prop where
  | made {s : Scheme} {h : Text} {n : Port} (ho : ofParts s h n = .ok o) : Issued o
  | resolved {p : TrustPolicy} {v : View} (ho : (p.resolve v).value = .ok o) : Issued o

theorem Issued.wellFormed {o : Origin} (h : o.Issued) : o.WellFormed := by
  cases h with
  | made ho => exact wellFormed_of_ofParts ho
  | resolved ho => exact (wellFormed_of_resolve ho).1

/-- An origin with an address for its host. -/
def loopback : Origin := ⟨.https, "[::1]".toList, 8443⟩

theorem issued_loopback : loopback.Issued := by
  have ho : ofParts .https "[::1]:1".toList 8443 = .ok loopback := by cbv
  exact .made ho

end Origin
end Ingress

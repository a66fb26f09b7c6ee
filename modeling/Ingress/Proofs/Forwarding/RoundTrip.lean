import Ingress.Proofs.Origin.Issued
/-!
An origin can be handed on in the three headers. A server that believes them resolves it again,
whatever connection the request came over. The list of entries cannot carry an empty scheme or a
host with a comma, and the zero port is none.
-/
namespace Ingress

theorem Scheme.isNameChar_of_isSchemeChar {c : Char} (h : isSchemeChar c = true) :
    Uri.isNameChar c = true := by
  simp only [isSchemeChar, Bool.or_eq_true, beq_iff_eq, or_assoc] at h
  obtain ha | rfl | rfl | rfl | rfl := h
  · exact Uri.isNameChar_of_isAlphanum ha
  all_goals rfl

namespace Forwarded

theorem first?_scheme {s : Scheme} (hn : s.text ≠ []) : first? [s.text] = some s.text := by
  have hc : ∀ c ∈ s.text, Scheme.isSchemeChar c = true := List.all_eq_true.1 s.chars
  refine first?_singleton hn ?_ ?_
  · intro hm
    cases hc ',' hm
  · intro c hm
    exact Uri.isBlank_of_isNameChar (Scheme.isNameChar_of_isSchemeChar (hc c hm))

theorem first?_port (n : Port) : first? [n.text] = some n.text := by
  refine first?_singleton n.text_ne_nil ?_ ?_
  · intro hm
    cases Port.isDigit_of_mem_text hm
  · intro c hm
    exact Uri.isBlank_of_isNameChar (Uri.isNameChar_of_isDigit (Port.isDigit_of_mem_text hm))

theorem first?_host {h suffix : Text} (hh : Host.Proper h) (hc : ',' ∉ h)
    (hs : Host.PortSuffix suffix) : first? [h ++ suffix] = some (h ++ suffix) := by
  refine first?_singleton (by simp [hh.ne_nil]) ?_ ?_
  · intro hm
    obtain hm | hm := List.mem_append.1 hm
    · exact hc hm
    · cases hs with
      | none => cases hm
      | digits hd =>
        obtain he | hm := List.mem_cons.1 hm
        · cases he
        · cases hd ',' hm
  · exact Host.isBlank_of_mem_append hh hs

theorem readProto?_text {s : Scheme} (hs : s.lower = s) : readProto? s.text = some s :=
  readProto?_eq_some_iff.2 (congrArg Scheme.text hs).symm

theorem readPort?_text {n : Port} (hn : n ≠ 0) : readPort? n.text = some n := by
  rw [readPort?, Port.ofDigits?_text]
  exact specified?_eq_some_iff.2 ⟨rfl, hn⟩

end Forwarded

namespace Overrides

/-- The texts of an origin, one in each header, say all of it. -/
theorem value_read_origin {o : Origin} (ho : o.WellFormed) (h0 : o.port ≠ 0)
    (hs : o.scheme.text ≠ []) (hc : ',' ∉ o.host) {suffix : Text} (hx : Host.PortSuffix suffix)
    {lookup : Lookup} (h1 : lookup Forwarded.proto.name = [o.scheme.text])
    (h2 : lookup Forwarded.host.name = [o.host ++ suffix])
    (h3 : lookup Forwarded.port.name = [o.port.text]) :
    (Overrides.read lookup).value = ⟨some o.scheme, some o.host, some o.port⟩ := by
  have hp := Forwarded.readProto?_text ho.scheme
  have hh : Forwarded.readHost? (o.host ++ suffix) = some o.host := Host.ofText?_append ho.host hx
  have hn := Forwarded.readPort?_text h0
  rw [value_read, h1, h2, h3, Forwarded.first?_scheme hs, Forwarded.first?_host ho.host hc hx,
    Forwarded.first?_port]
  simp only [Option.bind_some, hp, hh, hn]

end Overrides

namespace TrustPolicy

/-- An origin that reaches a believing server in the three headers is the origin there, with or
without a port behind the host and over any connection. -/
theorem resolve_of_forwarded {o : Origin} (ho : o.Issued) (h0 : o.port ≠ 0)
    (hs : o.scheme.text ≠ []) (hc : ',' ∉ o.host) {q : TrustPolicy}
    (hq : q.proto = true ∧ q.host = true ∧ q.port = true) {v : View} {own : Connection}
    (hv : Connection.ofView q.fallbackScheme v = .ok own) {suffix : Text}
    (hx : Host.PortSuffix suffix) (h1 : v.lookup Forwarded.proto.name = [o.scheme.text])
    (h2 : v.lookup Forwarded.host.name = [o.host ++ suffix])
    (h3 : v.lookup Forwarded.port.name = [o.port.text]) : (q.resolve v).value = .ok o := by
  obtain ⟨hp, hh, hn⟩ := hq
  have hr := Overrides.value_read_origin ho.wellFormed h0 hs hc hx h1 h2 h3
  have hw : (q.overrides v.lookup).value = ⟨some o.scheme, some o.host, some o.port⟩ := by
    rw [value_overrides, hr]
    simp [mask, hp, hh, hn]
  rw [value_resolve_of_ok hv, hw]
  rfl

/-- The port that the client wrote is left behind the host; the connection is another one in all
parts. -/
theorem resolve_of_forwarded_loopback :
    let v := View.ofTexts "http://internal:8080/".toList
      [("x-forwarded-proto".toList, "https".toList), ("x-forwarded-host".toList, "[::1]:1".toList),
        ("x-forwarded-port".toList, "8443".toList)]
    let own : Connection := ⟨.http, "internal".toList, some 8080⟩
    Origin.loopback.Issued ∧ Origin.loopback.port ≠ 0 ∧ Origin.loopback.scheme.text ≠ [] ∧
      ',' ∉ Origin.loopback.host ∧ Connection.ofView trusting.fallbackScheme v = .ok own ∧
      Host.PortSuffix [':', '1'] ∧ v.lookup Forwarded.proto.name = [Origin.loopback.scheme.text] ∧
      v.lookup Forwarded.host.name = [Origin.loopback.host ++ [':', '1']] ∧
      v.lookup Forwarded.port.name = [Origin.loopback.port.text] ∧
      (trusting.resolve v).value = .ok Origin.loopback := by
  intro v own
  have hv : Connection.ofView trusting.fallbackScheme v = .ok own := by cbv
  have hx : Host.PortSuffix [':', '1'] := .digits (by simp)
  have h1 : v.lookup Forwarded.proto.name = [Origin.loopback.scheme.text] := by cbv
  have h2 : v.lookup Forwarded.host.name = [Origin.loopback.host ++ [':', '1']] := by cbv
  have h3 : v.lookup Forwarded.port.name = [Origin.loopback.port.text] := by cbv
  have ho := Origin.issued_loopback
  have h0 : Origin.loopback.port ≠ 0 := by decide
  have hs : Origin.loopback.scheme.text ≠ [] := by decide
  have hc : ',' ∉ Origin.loopback.host := by decide
  exact ⟨ho, h0, hs, hc, hv, hx, h1, h2, h3,
    resolve_of_forwarded ho h0 hs hc ⟨rfl, rfl, rfl⟩ hv hx h1 h2 h3⟩

end TrustPolicy
end Ingress

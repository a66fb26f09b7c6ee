import Ingress.Proofs.Origin.Reading
/-!
The text of a resolved origin is a URI that resolves to that origin again. It is refused only for
its length or for a `%` in its host; a port that was left out comes back as the usual one of the
scheme.
-/
namespace Ingress

theorem View.readAbsolute_eq_ok_iff {t : Text} {u : Uri} :
    readAbsolute t = .ok u ↔ Uri.ofText t = .ok u ∧ ∃ s a target, u = .absolute s a target := by
  rw [← Except.mapError_eq_ok_iff (f := RequestError.malformed)]
  change _ ↔ readUri t = .ok u ∧ _
  rw [readAbsolute]
  cases readUri t with
  | error e =>
    constructor
    · intro h
      cases h
    · intro h
      cases h.1
  | ok w =>
    constructor
    · intro h
      cases w with
      | absolute s a target =>
        cases h
        exact ⟨rfl, s, a, target, rfl⟩
      | relative target => cases h
      | authority b => cases h
    · intro h
      obtain ⟨he, s, a, target, rfl⟩ := h
      cases he
      rfl

namespace TrustPolicy

theorem value_overrides_of_nil (q : TrustPolicy) {lookup : Lookup}
    (h : ∀ f : Forwarded, lookup f.name = []) : (q.overrides lookup).value = .empty := by
  rw [value_overrides, Overrides.value_read, h .proto, h .host, h .port]
  simp [mask, Forwarded.first?, Forwarded.elements, Overrides.empty]

theorem value_overrides_of_false {q : TrustPolicy}
    (h : q.proto = false ∧ q.host = false ∧ q.port = false) (lookup : Lookup) :
    (q.overrides lookup).value = .empty := by
  obtain ⟨hp, hh, hn⟩ := h
  simp [overrides, hp, hh, hn]

end TrustPolicy

namespace Origin

theorem readAbsolute_render_eq_ok_iff {o : Origin} (ho : o.WellFormed) {u : Uri} :
    View.readAbsolute o.render = .ok u ↔ Text.byteLength o.render ≤ Uri.maxLength ∧
      ∃ hp : '%' ∉ o.host, u = .absolute o.scheme (o.authority ho hp) (.ofPath [] none) := by
  have hread := @ofText_render_append o ho [] (by simp)
  rw [List.append_nil] at hread
  rw [View.readAbsolute_eq_ok_iff, hread]
  by_cases hl : Uri.maxLength < Text.byteLength o.render
  · simp [if_pos hl, Nat.not_le.2 hl]
  · by_cases hp : '%' ∈ o.host
    · simp [if_neg hl, hp]
    · rw [if_neg hl, dif_neg hp]
      simp only [Target.ofText, Except.map, Except.ok.injEq]
      constructor
      · intro h
        exact ⟨Nat.le_of_not_lt hl, hp, h.1.symm⟩
      · intro h
        obtain ⟨-, _, rfl⟩ := h
        exact ⟨rfl, _, _, _, rfl⟩

theorem portOf_authority {o : Origin} (ho : o.WellFormed) (hp : '%' ∉ o.host) (h0 : o.port ≠ 0) :
    Connection.portOf (o.authority ho hp) = if o.hasUsualPort then none else some o.port := by
  by_cases hu : o.hasUsualPort = true
  · have ht : (o.authority ho hp).text = o.host := by
      simp only [authority, Scheme.portSuffix, if_pos (o.hasUsualPort_iff.1 hu), List.append_nil]
    rw [Connection.portOf, Authority.port?_of_host ht ho.host, if_pos hu]
    rfl
  · have ht : (o.authority ho hp).text = o.host ++ ':' :: o.port.text := by
      simp only [authority, Scheme.portSuffix, if_neg (mt o.hasUsualPort_iff.2 hu)]
    rw [Connection.portOf, Authority.port?_of_text ht fun _ hc => Port.isDigit_of_mem_text hc,
      Port.ofDigits?_text, if_neg hu]
    simp [Option.filter, h0]

/-- The connection of a request for an origin is that origin, its port being left out if it is the
usual one. -/
theorem ofView_absolute {o : Origin} (ho : o.WellFormed) (hp : '%' ∉ o.host) (h0 : o.port ≠ 0)
    (t : Target) (s : Scheme) (fields : Headers) :
    Connection.ofView s (.ofHeaders (.absolute o.scheme (o.authority ho hp) t) fields) =
      .ok ⟨o.scheme, o.host, if o.hasUsualPort then none else some o.port⟩ := by
  refine Connection.ofView_eq_ok_iff.2 ⟨_, o.authority ho hp, rfl, .uri rfl, ?_, ?_⟩
  · rw [host_authority ho hp]
    exact ho.host
  · rw [host_authority ho hp, portOf_authority ho hp h0]
    exact congrArg (Connection.mk · _ _) ho.scheme.symm

theorem override_empty (o : Origin) :
    (⟨o.scheme, o.host, if o.hasUsualPort then none else some o.port⟩ :
      Connection).override .empty = o := by
  by_cases hu : o.hasUsualPort = true
  · have hn : o.port = o.scheme.usualPort := by
      simp only [hasUsualPort, Bool.and_eq_true, beq_iff_eq] at hu
      exact hu.2
    rw [if_pos hu]
    exact congrArg (Origin.mk _ _) hn.symm
  · rw [if_neg hu]
    rfl

/-- The text of a resolved origin is a URI unless its host has a `%` or it is too long. A request
for that URI resolves to the same origin, under every policy if no proxy says anything and under a
policy that believes no proxy always. -/
theorem resolve_readAbsolute_render {p : TrustPolicy} {v : View} {o : Origin}
    (ho : (p.resolve v).value = .ok o) :
    ((∃ u, View.readAbsolute o.render = .ok u) ↔ '%' ∉ o.host ∧ Text.byteLength o.render ≤ 65534) ∧
      ∀ u, View.readAbsolute o.render = .ok u → ∀ (q : TrustPolicy) (fields : Headers),
        (∀ f : Forwarded, fields.valuesOf f.name = []) ∨
          (q.proto = false ∧ q.host = false ∧ q.port = false) →
        (q.resolve (.ofHeaders u fields)).value = .ok o := by
  obtain ⟨hw, h0⟩ := wellFormed_of_resolve ho
  constructor
  · constructor
    · intro h
      obtain ⟨u, hu⟩ := h
      obtain ⟨hl, hp, -⟩ := (readAbsolute_render_eq_ok_iff hw).1 hu
      exact ⟨hp, hl⟩
    · intro h
      obtain ⟨hp, hl⟩ := h
      exact ⟨_, (readAbsolute_render_eq_ok_iff hw).2 ⟨hl, hp, rfl⟩⟩
  · intro u hu q fields hq
    obtain ⟨-, hp, rfl⟩ := (readAbsolute_render_eq_ok_iff hw).1 hu
    have he : (q.overrides fields.textsOf).value = .empty := by
      obtain hn | hf := hq
      · exact q.value_overrides_of_nil fun f => by rw [Headers.textsOf, hn f, List.filterMap_nil]
      · exact TrustPolicy.value_overrides_of_false hf _
    rw [TrustPolicy.value_resolve_of_ok (ofView_absolute hw hp h0 _ q.fallbackScheme fields)]
    exact congrArg Except.ok ((congrArg (Connection.override _) he).trans o.override_empty)

/-- A host header from outside changes nothing for a policy that believes none. -/
theorem resolve_readAbsolute_render_loopback :
    let v := View.ofTexts "HTTPS://u@[::1]:8443/x".toList []
    let forged : Headers := [(Forwarded.host.name, ⟨[0x65, 0x76, 0x69, 0x6C], by decide⟩)]
    (TrustPolicy.trusting.resolve v).value = .ok loopback ∧
      ((∃ u, View.readAbsolute loopback.render = .ok u) ↔
        '%' ∉ loopback.host ∧ Text.byteLength loopback.render ≤ 65534) ∧
      ∃ u, View.readAbsolute loopback.render = .ok u ∧
        (TrustPolicy.trusting.resolve (.ofHeaders u [])).value = .ok loopback ∧
        (TrustPolicy.untrusting.resolve (.ofHeaders u forged)).value = .ok loopback := by
  intro v forged
  have hv : (TrustPolicy.trusting.resolve v).value = .ok loopback := by cbv
  obtain ⟨hr, ho⟩ := resolve_readAbsolute_render hv
  obtain ⟨u, hu⟩ := hr.2 ⟨by decide, by decide⟩
  exact ⟨hv, hr, u, hu, ho u hu _ [] (.inl fun _ => rfl), ho u hu _ forged (.inr ⟨rfl, rfl, rfl⟩)⟩

end Origin
end Ingress

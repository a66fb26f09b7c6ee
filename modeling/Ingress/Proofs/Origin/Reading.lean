import Ingress.Proofs.Except
import Ingress.Proofs.Origin.Issued
import Ingress.Proofs.Origin.Render
import Ingress.Proofs.Uri.Reading
/-!
Reading back the text of an origin, alone or with a path behind it. The reader finds the scheme and
the authority that were written and nothing of the path in them; only a length or a `%` in the host
makes it refuse them.
-/
namespace Ingress.Origin

/-- The authority that is written for an origin. -/
def authority (o : Origin) (ho : o.WellFormed) (hp : '%' ∉ o.host) : Authority where
  text := o.host ++ o.scheme.portSuffix o.port
  ne_nil := by simp [ho.host.ne_nil]
  checked := by rw [Authority.check_append ho.host (o.scheme.portSuffix_digits o.port), if_neg hp]

theorem render_append_eq (o : Origin) (rest : Text) :
    o.render ++ rest =
      o.scheme.text ++ ':' :: '/' :: '/' :: (o.host ++ o.scheme.portSuffix o.port ++ rest) := by
  rw [render_eq]
  simp

theorem ofText_render_append {o : Origin} (ho : o.WellFormed) {rest : Text}
    (hr : ∀ c ∈ rest.head?, Uri.isDelimiter c = true) :
    Uri.ofText (o.render ++ rest) =
      if Uri.maxLength < Text.byteLength (o.render ++ rest) then .error .tooLong
      else if hp : '%' ∈ o.host then .error .invalidAuthority
      else (Target.ofText rest).map (.absolute o.scheme (o.authority ho hp)) := by
  by_cases hl : Uri.maxLength < Text.byteLength (o.render ++ rest)
  · rw [Uri.ofText, if_pos hl, if_pos hl]
  · have hn : o.host ++ o.scheme.portSuffix o.port ++ rest ≠ [] := by simp [ho.host.ne_nil]
    rw [if_neg hl]
    rw [render_append_eq] at hl ⊢
    rw [Uri.ofText_scheme_append o.scheme hn hl, Scheme.reread_of_lower ho.scheme]
    by_cases hp : '%' ∈ o.host
    · rw [dif_pos hp]
      exact Uri.ofSchemeText_percent o.scheme ho.host (o.scheme.portSuffix_digits o.port) hp hr
    · rw [dif_neg hp]
      exact Uri.ofSchemeText_append o.scheme (o.authority ho hp) hr

/-! Paths -/

theorem isDelimiter_head_rooted (path : Text) :
    ∀ c ∈ (rooted path).head?, Uri.isDelimiter c = true := by
  intro c hc
  rw [head_rooted] at hc
  rw [← Option.some.inj hc]
  rfl

theorem absolute_of_ofText_url {o : Origin} (ho : o.WellFormed) {path : Text} {u : Uri}
    (hu : Uri.ofText (o.url path) = .ok u) :
    ∃ (hp : '%' ∉ o.host) (t : Target), u = .absolute o.scheme (o.authority ho hp) t := by
  rw [url, ofText_render_append ho (isDelimiter_head_rooted path)] at hu
  split at hu
  · cases hu
  · split at hu
    · cases hu
    · rename_i hp
      rw [Except.map_eq_ok_iff] at hu
      obtain ⟨t, -, ht⟩ := hu
      exact ⟨hp, t, ht.symm⟩

theorem host_authority {o : Origin} (ho : o.WellFormed) (hp : '%' ∉ o.host) :
    (o.authority ho hp).host = o.host :=
  Authority.host_of_text rfl ho.host (o.scheme.portSuffix_digits o.port)

/-- No path moves a URL to another scheme or authority: what is read back is what was written for
the origin, without a user, and has its host. -/
theorem authority_of_ofText_url {o : Origin} (ho : o.Issued) {path : Text} {u : Uri}
    (hu : Uri.ofText (o.url path) = .ok u) :
    u.scheme? = some o.scheme ∧ ∃ a, u.authority? = some a ∧
      o.render = o.scheme.text ++ [':', '/', '/'] ++ a.text ∧
      '@' ∉ a.text ∧ a.host = o.host := by
  have hw := ho.wellFormed
  obtain ⟨hp, t, rfl⟩ := absolute_of_ofText_url hw hu
  have hs := o.scheme.portSuffix_digits o.port
  refine ⟨rfl, o.authority hw hp, rfl, ?_, Authority.not_at_mem_append hw.host hs,
    host_authority hw hp⟩
  rw [render_eq]
  simp [authority]

/-- A path that would name a user and another host, were it not for the slash in front. -/
theorem authority_of_ofText_url_loopback :
    loopback.Issued ∧ ∃ u, Uri.ofText (loopback.url "@evil.example:80//x?y#z".toList) = .ok u ∧
      u.scheme? = some loopback.scheme ∧ ∃ a, u.authority? = some a ∧
        loopback.render = loopback.scheme.text ++ [':', '/', '/'] ++ a.text ∧ '@' ∉ a.text ∧
        a.host = loopback.host := by
  have hu : Uri.ofText (loopback.url "@evil.example:80//x?y#z".toList) =
      .ok (.absolute .https ⟨"[::1]:8443".toList, by decide, by cbv⟩
        ⟨"/@evil.example:80//x".toList, some "y".toList⟩) := by cbv
  exact ⟨issued_loopback, _, hu, authority_of_ofText_url issued_loopback hu⟩

end Ingress.Origin

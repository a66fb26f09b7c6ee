import Mathlib
import Ingress.Proofs.Resolution.Value
/-!
When a resolution fails, and with which error. The URI of the request and its first `Host` value
settle it; what proxies write, whom a policy believes and the scheme that it falls back to take no
part, and lowering a scheme cannot fail.
-/
namespace Ingress

namespace Connection

/-- Why a request has no connection: its URI does not read, nothing names a host, or what does is no
authority or one without a proper host. -/
inductive Fails (uri : Except RequestError Uri) (first : Option Text) : RequestError → Prop where
  | uri {e : RequestError} (hu : uri = .error e) : Fails uri first e
  | blank {u : Uri} (hu : uri = .ok u) (ha : u.authority? = none)
      (hb : ∀ value, first = some value → ∀ c ∈ value, Text.isBlank c = true) :
      Fails uri first .noHost
  | header {u : Uri} {value : Text} {cause : UriError} (hu : uri = .ok u) (ha : u.authority? = none)
      (hv : first = some value) (hb : ∃ c ∈ value, Text.isBlank c = false)
      (hc : Authority.ofText value.trim = .error cause) : Fails uri first (.malformed cause)
  | host {u : Uri} {a : Authority} (hu : uri = .ok u)
      (ha : u.authority? = some a ∨
        u.authority? = none ∧ ∃ value, first = some value ∧ value.trim = a.text)
      (hh : ¬ Host.Proper a.host) : Fails uri first .noHost

theorem reaches_iff {u : Uri} {lookup : Lookup} {a : Authority} :
    Reaches u lookup a ↔
      u.authority? = some a ∨
        u.authority? = none ∧ ∃ value, (lookup .host).head? = some value ∧ value.trim = a.text := by
  constructor
  · intro h
    cases h with
    | uri hu => exact .inl hu
    | header hu hv ht => exact .inr ⟨hu, _, by rw [hv, List.head?_cons], ht⟩
  · intro h
    obtain hu | ⟨hu, value, hv, ht⟩ := h
    · exact .uri hu
    · obtain ⟨rest, hr⟩ := List.head?_eq_some_iff.1 hv
      exact .header hu hr ht

theorem hostAuthority_eq_error_iff {lookup : Lookup} {e : RequestError} :
    hostAuthority lookup = .error e ↔
      (e = .noHost ∧
          ∀ value, (lookup .host).head? = some value → ∀ c ∈ value, Text.isBlank c = true) ∨
        ∃ value cause, (lookup .host).head? = some value ∧ (∃ c ∈ value, Text.isBlank c = false) ∧
          Authority.ofText value.trim = .error cause ∧ e = .malformed cause := by
  rw [hostAuthority]
  cases (lookup .host).head? with
  | none =>
    constructor
    · intro h
      cases h
      exact .inl ⟨rfl, by simp⟩
    · intro h
      obtain ⟨rfl, -⟩ | ⟨_, _, hv, -⟩ := h
      · rfl
      · cases hv
  | some value =>
    by_cases ht : value.trim = []
    · have hb := Text.trim_eq_nil_iff.1 ht
      simp only [if_pos ht]
      constructor
      · intro h
        cases h
        exact .inl ⟨rfl, fun w hv => Option.some.inj hv ▸ hb⟩
      · intro h
        obtain ⟨rfl, -⟩ | ⟨w, _, hv, ⟨c, hc, hn⟩, -⟩ := h
        · rfl
        · cases hv
          rw [hb c hc] at hn
          cases hn
    · have hb : ∃ c ∈ value, Text.isBlank c = false := by simpa using mt Text.trim_eq_nil_iff.2 ht
      simp only [if_neg ht, Except.mapError_eq_error_iff]
      constructor
      · intro h
        obtain ⟨cause, hc, rfl⟩ := h
        exact .inr ⟨value, cause, rfl, hb, hc, rfl⟩
      · intro h
        obtain ⟨-, hv⟩ | ⟨w, cause, hv, -, hc, rfl⟩ := h
        · exact absurd (Text.trim_eq_nil_iff.2 (hv value rfl)) ht
        · cases hv
          exact ⟨cause, hc, rfl⟩

theorem authorityOf_eq_error_iff {u : Uri} {lookup : Lookup} {e : RequestError} :
    authorityOf u lookup = .error e ↔ u.authority? = none ∧ hostAuthority lookup = .error e := by
  cases hu : u.authority? with
  | some a => simp [authorityOf, hu]
  | none => simp [authorityOf, hu]

theorem ofView_eq_error_iff {fallback : Scheme} {v : View} {e : RequestError} :
    ofView fallback v = .error e ↔ Fails v.uri (v.lookup .host).head? e := by
  simp only [ofView, Except.bind_eq_error_iff, authorityOf_eq_error_iff, authorityOf_eq_ok_iff,
    ofAuthority_eq_error_iff, hostAuthority_eq_error_iff, reaches_iff]
  constructor
  · intro h
    obtain hu | ⟨u, hu, ⟨ha, ⟨rfl, hb⟩ | ⟨value, cause, hv, hb, hc, rfl⟩⟩ | ⟨a, ha, hh, rfl⟩⟩ := h
    · exact .uri hu
    · exact .blank hu ha hb
    · exact .header hu ha hv hb hc
    · exact .host hu ha hh
  · intro h
    cases h with
    | uri hu => exact .inl hu
    | blank hu ha hb => exact .inr ⟨_, hu, .inl ⟨ha, .inl ⟨rfl, hb⟩⟩⟩
    | header hu ha hv hb hc => exact .inr ⟨_, hu, .inl ⟨ha, .inr ⟨_, _, hv, hb, hc, rfl⟩⟩⟩
    | host hu ha hh => exact .inr ⟨_, hu, .inr ⟨_, ha, hh, rfl⟩⟩

end Connection

namespace TrustPolicy

theorem value_resolve_eq_error_iff {p : TrustPolicy} {v : View} {e : RequestError} :
    (p.resolve v).value = .error e ↔ Connection.Fails v.uri (v.lookup .host).head? e := by
  rw [value_resolve, Except.map_eq_error_iff, Connection.ofView_eq_error_iff]

theorem resolve_error_of_error (q : TrustPolicy) {p : TrustPolicy} {v : View} {e : RequestError}
    (h : (p.resolve v).value = .error e) : (q.resolve v).value = .error e :=
  value_resolve_eq_error_iff.2 (value_resolve_eq_error_iff.1 h)

/-- What fails under one policy fails under every other with the same error, whatever the headers of
proxies are changed to, and for the reasons of the connection only. Lowering a scheme, which is part
of every resolution, gives a scheme. -/
theorem resolve_eq_error_iff_fails (p q : TrustPolicy) {v w : View} (hu : w.uri = v.uri)
    (hl : ∀ name, (∀ f : Forwarded, name ≠ f.name) → w.lookup name = v.lookup name)
    (e : RequestError) :
    ((p.resolve v).value = .error e ↔ Connection.Fails v.uri (v.lookup .host).head? e) ∧
      ((q.resolve w).value = .error e ↔ (p.resolve v).value = .error e) ∧
      ∀ s : Scheme, Scheme.ofText s.text.lower = .ok s.lower := by
  have hw := @value_resolve_eq_error_iff q w e
  rw [hu, hl .host fun f => f.name_ne_host.symm] at hw
  have hv := @value_resolve_eq_error_iff p v e
  exact ⟨hv, hw.trans hv.symm, fun s => Scheme.ofText_text s.lower⟩

/-- A `Host` value that is no authority, under a policy that believes nothing and under one that is
told of another host. -/
theorem resolve_eq_error_iff_fails_spaced :
    let v := View.ofTexts "/app".toList [("Host".toList, " two words ".toList)]
    let w : View :=
      ⟨fun name => if name = Forwarded.host.name then ["public.example.com".toList]
        else v.lookup name, v.uri⟩
    let e := RequestError.malformed .invalidCharacter
    (trusting.resolve w).value = .error e ∧ w.uri = v.uri ∧
      (∀ name, (∀ f : Forwarded, name ≠ f.name) → w.lookup name = v.lookup name) ∧
      ((untrusting.resolve v).value = .error e ↔ Connection.Fails v.uri (v.lookup .host).head? e) ∧
      ((trusting.resolve w).value = .error e ↔ (untrusting.resolve v).value = .error e) ∧
      ∀ s : Scheme, Scheme.ofText s.text.lower = .ok s.lower := by
  intro v w e
  have he : (trusting.resolve w).value = .error e := by cbv
  have hl : ∀ name, (∀ f : Forwarded, name ≠ f.name) → w.lookup name = v.lookup name :=
    fun name h => if_neg (h .host)
  exact ⟨he, rfl, hl, resolve_eq_error_iff_fails untrusting trusting (v := v) (w := w) rfl hl e⟩

end TrustPolicy
end Ingress

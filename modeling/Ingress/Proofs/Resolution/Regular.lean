import Mathlib
import Ingress.Proofs.Resolution.Value
import Ingress.Proofs.Uri.Remainder
/-!
Which authorities resolve. The host must be proper, and what remains behind it is not held against
the request: where it is a port of 16 bits the authority is regular, and everywhere else the request
resolves without it.
-/
namespace Ingress.TrustPolicy

theorem exists_resolve_iff {p : TrustPolicy} {v : View} :
    (∃ o, (p.resolve v).value = .ok o) ↔
      ∃ uri a, v.uri = .ok uri ∧ Connection.Reaches uri v.lookup a ∧ Host.Proper a.host := by
  constructor
  · intro h
    obtain ⟨o, ho⟩ := h
    obtain ⟨c, hc, -⟩ := connection_of_resolve ho
    obtain ⟨uri, a, hu, ha, hh, -⟩ := Connection.ofView_eq_ok_iff.1 hc
    exact ⟨uri, a, hu, ha, hh⟩
  · intro h
    obtain ⟨uri, a, hu, ha, hh⟩ := h
    exact ⟨_, value_resolve_of_ok (Connection.ofView_eq_ok_iff.2 ⟨uri, a, hu, ha, hh, rfl⟩)⟩

theorem proper_of_resolve {p : TrustPolicy} {v : View} {uri : Uri} {a : Authority} {o : Origin}
    (hu : v.uri = .ok uri) (ha : Connection.Reaches uri v.lookup a)
    (ho : (p.resolve v).value = .ok o) : Host.Proper a.host := by
  obtain ⟨uri', b, hu', hb, hh⟩ := exists_resolve_iff.1 ⟨o, ho⟩
  obtain rfl := Except.ok.inj (hu.symm.trans hu')
  rw [ha.unique hb]
  exact hh

/-- A request resolves exactly if it reaches an authority with a proper host. Nothing but a user is
then in front of that host, and the authority is regular exactly if a port remains behind it. Every
other remainder is let through as well: behind a literal the characters of names with one colon at
most, behind a name all that starts with a colon. -/
theorem regular_iff_of_resolve (p : TrustPolicy) (v : View) :
    ((∃ o, (p.resolve v).value = .ok o) ↔
        ∃ uri a, v.uri = .ok uri ∧ Connection.Reaches uri v.lookup a ∧ Host.Proper a.host) ∧
      ∀ uri a o, v.uri = .ok uri → Connection.Reaches uri v.lookup a → (p.resolve v).value = .ok o →
        (∃ user, Authority.UserPart user ∧ a.text = user ++ (a.host ++ a.remainder)) ∧
          Host.Proper a.host ∧ Authority.Behind a.host a.remainder ∧
          (Authority.Regular a.text ↔ Host.PortPart a.remainder) := by
  refine ⟨exists_resolve_iff, ?_⟩
  intro uri a o hu ha ho
  have hh := proper_of_resolve hu ha ho
  refine ⟨a.exists_userPart, hh, Authority.behind_host hh, ?_⟩
  rw [a.regular_iff]
  exact and_iff_right hh

/-- A user with a colon, an address, and a port with zeros in front. -/
theorem regular_iff_of_resolve_padded :
    let a : Authority := ⟨"u:p@[::1]:00443".toList, by decide, by cbv⟩
    let v := View.ofTexts "/app".toList [("Host".toList, " u:p@[::1]:00443 ".toList)]
    let uri := Uri.relative ⟨"/app".toList, none⟩
    let o : Origin := ⟨.http, "[::1]".toList, 443⟩
    v.uri = .ok uri ∧ Connection.Reaches uri v.lookup a ∧ (trusting.resolve v).value = .ok o ∧
      (∃ user, Authority.UserPart user ∧ a.text = user ++ (a.host ++ a.remainder)) ∧
      Host.Proper a.host ∧ Authority.Behind a.host a.remainder ∧
      (Authority.Regular a.text ↔ Host.PortPart a.remainder) := by
  intro a v uri o
  have hu : v.uri = .ok uri := by cbv
  have ha : Connection.Reaches uri v.lookup a := .header rfl (by cbv) (by cbv)
  have ho : (trusting.resolve v).value = .ok o := by cbv
  exact ⟨hu, ha, ho, (regular_iff_of_resolve trusting v).2 uri a o hu ha ho⟩

/-- Neither text behind an address nor a port that is too large is refused. -/
theorem resolve_irregular :
    let a : Authority := ⟨"[::1]x:80".toList, by decide, by cbv⟩
    let b : Authority := ⟨"host:99999".toList, by decide, by cbv⟩
    let v := View.ofTexts "https://[::1]x:80/p".toList []
    let w := View.ofTexts "/p".toList [("Host".toList, "host:99999".toList)]
    (∃ uri, v.uri = .ok uri ∧ Connection.Reaches uri v.lookup a) ∧ ¬ Authority.Regular a.text ∧
      (trusting.url v "/x".toList).value = .ok "https://[::1]:80/x".toList ∧
      (∃ uri, w.uri = .ok uri ∧ Connection.Reaches uri w.lookup b) ∧ ¬ Authority.Regular b.text ∧
      (trusting.url w "/x".toList).value = .ok "http://host/x".toList := by
  intro a b v w
  have ha : Connection.Reaches (.absolute .https a ⟨"/p".toList, none⟩) v.lookup a := .uri rfl
  have hb : Connection.Reaches (.relative ⟨"/p".toList, none⟩) w.lookup b :=
    .header rfl (by cbv) (by cbv)
  have hra : a.remainder = ['x', ':', '8', '0'] := by cbv
  have hrb : b.remainder = [':', '9', '9', '9', '9', '9'] := by cbv
  have hna : ¬ Authority.Regular a.text := by
    intro h
    have hp := (a.regular_iff.1 h).2
    rw [hra] at hp
    cases hp
  have hnb : ¬ Authority.Regular b.text := by
    intro h
    have hp := (b.regular_iff.1 h).2
    rw [hrb] at hp
    cases hp with
    | digits _ hn => exact absurd hn (by decide)
  exact ⟨⟨_, by cbv, ha⟩, hna, by cbv, ⟨_, by cbv, hb⟩, hnb, by cbv⟩

end Ingress.TrustPolicy

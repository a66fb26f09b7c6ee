import Ingress.Connection
import Ingress.Proofs.Except
import Ingress.Proofs.Uri.Names
/-!
When a request has a connection, and which: the authority that it reaches must have a proper host,
and scheme, host and port then come from the URI and that authority alone.
-/
namespace Ingress.Connection

/-- The authority that a request reaches: the one in its URI, or else its trimmed first `Host`
value. -/
inductive Reaches (uri : Uri) (lookup : Lookup) : Authority → Prop where
  | uri {a : Authority} (hu : uri.authority? = some a) : Reaches uri lookup a
  | header {a : Authority} {value : Text} {rest : List Text} (hu : uri.authority? = none)
      (hv : lookup .host = value :: rest) (ha : value.trim = a.text) : Reaches uri lookup a

theorem hostAuthority_eq_ok_iff {lookup : Lookup} {a : Authority} :
    hostAuthority lookup = .ok a ↔
      ∃ value rest, lookup .host = value :: rest ∧ value.trim = a.text := by
  cases hl : lookup .host with
  | nil => simp [hostAuthority, hl]
  | cons value rest =>
    rw [hostAuthority, hl]
    by_cases ht : value.trim = []
    · simp [ht, a.ne_nil.symm]
    · simp [ht, Except.mapError_eq_ok_iff, Authority.ofText_eq_ok_iff]

theorem authorityOf_eq_ok_iff {uri : Uri} {lookup : Lookup} {a : Authority} :
    authorityOf uri lookup = .ok a ↔ Reaches uri lookup a := by
  cases hu : uri.authority? with
  | some b =>
    simp only [authorityOf, hu]
    constructor
    · intro h
      cases h
      exact .uri hu
    · intro h
      cases h with
      | uri ha => rw [← Option.some.inj (hu.symm.trans ha)]
      | header hn => cases hu.symm.trans hn
  | none =>
    simp only [authorityOf, hu, hostAuthority_eq_ok_iff]
    constructor
    · intro h
      obtain ⟨value, rest, hl, ht⟩ := h
      exact .header hu hl ht
    · intro h
      cases h with
      | uri ha => cases hu.symm.trans ha
      | header _ hl ht => exact ⟨_, _, hl, ht⟩

theorem Reaches.unique {uri : Uri} {lookup : Lookup} {a b : Authority} (ha : Reaches uri lookup a)
    (hb : Reaches uri lookup b) : a = b :=
  Except.ok.inj ((authorityOf_eq_ok_iff.2 ha).symm.trans (authorityOf_eq_ok_iff.2 hb))

/-- The port of an authority that can be connected to. -/
def portOf (a : Authority) : Option Port := a.port?.filter (· != 0)

theorem bind_specified? (n : Option Port) : n.bind Port.specified? = n.filter (· != 0) := by
  cases n with
  | none => rfl
  | some n => by_cases hn : n = 0 <;> simp [Port.specified?, Option.filter, hn]

theorem portOf_eq_some_iff {a : Authority} {n : Port} :
    portOf a = some n ↔ Authority.NamesPort a.text n := by
  rw [portOf, Authority.namesPort_iff, Option.filter_eq_some_iff, bne_iff_ne]

theorem ofAuthority_eq (s : Scheme) (a : Authority) :
    ofAuthority s a =
      if Host.isHost a.host then .ok ⟨s.lower, a.host, portOf a⟩ else .error .noHost := by
  have hh : Host.ofText? a.host = if Host.isHost a.host then some a.host else none :=
    Host.ofText?_split_fst a.hostAndPort
  rw [ofAuthority, hh, bind_specified?]
  by_cases hp : Host.isHost a.host = true
  · simp only [hp, if_true]
    rfl
  · simp [hp]

theorem ofAuthority_eq_ok_iff {s : Scheme} {a : Authority} {c : Connection} :
    ofAuthority s a = .ok c ↔ Host.Proper a.host ∧ c = ⟨s.lower, a.host, portOf a⟩ := by
  rw [ofAuthority_eq, ← Host.isHost_iff_proper]
  by_cases hp : Host.isHost a.host = true
  · simp only [hp, if_true, Except.ok.injEq, true_and]
    exact eq_comm
  · simp [hp]

theorem ofAuthority_eq_error_iff {s : Scheme} {a : Authority} {e : RequestError} :
    ofAuthority s a = .error e ↔ ¬ Host.Proper a.host ∧ e = .noHost := by
  rw [ofAuthority_eq, ← Host.isHost_iff_proper]
  by_cases hp : Host.isHost a.host = true
  · simp [hp]
  · simp only [hp, Bool.false_eq_true, if_false, not_false_eq_true, true_and, Except.error.injEq]
    exact eq_comm

theorem ofView_eq_ok_iff {fallback : Scheme} {v : View} {c : Connection} :
    ofView fallback v = .ok c ↔
      ∃ uri a, v.uri = .ok uri ∧ Reaches uri v.lookup a ∧ Host.Proper a.host ∧
      c = ⟨(uri.scheme?.getD fallback).lower, a.host, portOf a⟩ := by
  simp only [ofView, Except.bind_eq_ok_iff, authorityOf_eq_ok_iff, ofAuthority_eq_ok_iff,
    exists_and_left]

/-- What a URI and the text of the authority that is reached say of the connection. -/
structure Stated (fallback : Scheme) (uri : Uri) (a : Authority) (c : Connection) : Prop where
  scheme : c.scheme.text = (uri.scheme?.getD fallback).text.lower
  host : Authority.NamesHost a.text c.host
  port : ∀ n, c.port = some n ↔ Authority.NamesPort a.text n

theorem stated_iff {fallback : Scheme} {uri : Uri} {a : Authority} {c : Connection} :
    Stated fallback uri a c ↔
      Host.Proper a.host ∧ c = ⟨(uri.scheme?.getD fallback).lower, a.host, portOf a⟩ := by
  constructor
  · intro h
    obtain ⟨hs, hn, hp⟩ := h
    obtain ⟨hh, he⟩ := Authority.namesHost_iff.1 hn
    have hport : c.port = portOf a := by
      ext n
      rw [hp, portOf_eq_some_iff]
    have hscheme : c.scheme = (uri.scheme?.getD fallback).lower := Scheme.text_inj hs
    cases c
    subst hscheme he hport
    exact ⟨hh, rfl⟩
  · intro h
    obtain ⟨hh, rfl⟩ := h
    exact ⟨rfl, Authority.namesHost_iff.2 ⟨hh, rfl⟩, fun n => portOf_eq_some_iff⟩

end Ingress.Connection

import Mathlib
import Ingress.Proofs.Resolution.Value
/-!
What a resolution may depend on. Two requests resolve alike if a policy cannot tell them apart: the
same URI, the same values in the headers that it believes, and the same first `Host` value where the
URI leaves the authority open. All else in a request can be anything, values that are no text
included.
-/
namespace Ingress

namespace Connection

theorem hostAuthority_congr {l k : Lookup} (h : (l .host).head? = (k .host).head?) :
    hostAuthority l = hostAuthority k := by
  rw [hostAuthority, hostAuthority, h]

theorem authorityOf_congr {u : Uri} {l k : Lookup}
    (h : u.authority? = none → (l .host).head? = (k .host).head?) :
    authorityOf u l = authorityOf u k := by
  cases hu : u.authority? with
  | some a => rw [authorityOf, authorityOf, hu]
  | none => simp only [authorityOf, hu, hostAuthority_congr (h hu)]

/-- The scheme to fall back to counts only for a URI without one. -/
theorem ofView_congr {s t : Scheme} {v w : View} (hu : v.uri = w.uri)
    (hh : ∀ u, v.uri = .ok u → u.authority? = none →
      (v.lookup .host).head? = (w.lookup .host).head?)
    (hs : ∀ u, v.uri = .ok u → u.scheme? = none → s = t) : ofView s v = ofView t w := by
  rw [ofView, ofView, ← hu]
  cases hv : v.uri with
  | error e => rfl
  | ok u =>
    have ha : authorityOf u v.lookup = authorityOf u w.lookup := authorityOf_congr (hh u hv)
    have hc : u.scheme?.getD s = u.scheme?.getD t := by
      cases hx : u.scheme? with
      | some x => rfl
      | none => exact hs u hv hx
    change (authorityOf u v.lookup >>= fun a => ofAuthority (u.scheme?.getD s) a) = _
    rw [ha, hc]
    rfl

end Connection

namespace TrustPolicy

def believes (p : TrustPolicy) : Forwarded → Bool
  | .proto => p.proto
  | .host => p.host
  | .port => p.port

/-- Two views that a policy cannot tell apart. -/
structure Alike (p : TrustPolicy) (v w : View) : Prop where
  uri : v.uri = w.uri
  believed : ∀ f : Forwarded, p.believes f = true → v.lookup f.name = w.lookup f.name
  host : ∀ u, v.uri = .ok u → u.authority? = none → (v.lookup .host).head? = (w.lookup .host).head?

theorem ite_read_congr {α : Type} (read? : Text → Option α) {b c : Bool} {xs ys : List Text}
    (hb : b = c) (h : b = true → xs = ys) :
    (if b then (Forwarded.first? xs).bind read? else none) =
      if c then (Forwarded.first? ys).bind read? else none := by
  subst hb
  refine ite_congr rfl (fun hb => ?_) fun _ => rfl
  rw [h hb]

theorem value_overrides_congr {p q : TrustPolicy} {l k : Lookup} (hb : p.believes = q.believes)
    (hl : ∀ f : Forwarded, p.believes f = true → l f.name = k f.name) :
    (p.overrides l).value = (q.overrides k).value := by
  rw [value_overrides, value_overrides, Overrides.value_read, Overrides.value_read, mask, mask]
  have hp := ite_read_congr Forwarded.readProto? (congrFun hb .proto) (hl .proto)
  have hh := ite_read_congr Forwarded.readHost? (congrFun hb .host) (hl .host)
  have hn := ite_read_congr Forwarded.readPort? (congrFun hb .port) (hl .port)
  simp only [Overrides.mk.injEq]
  exact ⟨hp, hh, hn⟩

theorem value_resolve_congr {p q : TrustPolicy} {v w : View} (hb : p.believes = q.believes)
    (ha : p.Alike v w)
    (hs : ∀ u, v.uri = .ok u → u.scheme? = none → p.fallbackScheme = q.fallbackScheme) :
    (p.resolve v).value = (q.resolve w).value := by
  rw [value_resolve, value_resolve, Connection.ofView_congr ha.uri ha.host hs,
    value_overrides_congr hb ha.believed]

theorem Alike.trans {p : TrustPolicy} {u v w : View} (h : p.Alike u v) (k : p.Alike v w) :
    p.Alike u w := by
  constructor
  · exact h.uri.trans k.uri
  · intro f hf
    exact (h.believed f hf).trans (k.believed f hf)
  · intro x hx ha
    exact (h.host x hx ha).trans (k.host x (h.uri ▸ hx) ha)

/-- The `Host` header of a request whose URI has an authority is not looked at. -/
theorem alike_update_host {p : TrustPolicy} {v : View} {u : Uri} {a : Authority}
    (hu : v.uri = .ok u) (ha : u.authority? = some a) (values : List Text) :
    p.Alike v { v with lookup := Function.update v.lookup .host values } := by
  constructor
  · rfl
  · intro f _
    exact (Function.update_of_ne f.name_ne_host values v.lookup).symm
  · intro x hx hn
    cases hu.symm.trans hx
    cases ha.symm.trans hn

/-- Views that a policy cannot tell apart have the same origin, or fail alike. A scheme in the URI
also makes the scheme to fall back to irrelevant, and an authority in it the `Host` header. -/
theorem resolve_of_alike {p : TrustPolicy} {v w : View} (h : p.Alike v w) :
    (p.resolve w).value = (p.resolve v).value ∧
      (∀ u s, v.uri = .ok u → u.scheme? = some s →
        ∀ fallback, ({ p with fallbackScheme := fallback }.resolve w).value = (p.resolve v).value) ∧
      ∀ u a, v.uri = .ok u → u.authority? = some a →
        ∀ values, (p.resolve { w with lookup := Function.update w.lookup .host values }).value =
          (p.resolve v).value := by
  refine ⟨(value_resolve_congr rfl h fun _ _ _ => rfl).symm, ?_, ?_⟩
  · intro u s hu hs fallback
    let q : TrustPolicy := { p with fallbackScheme := fallback }
    refine (value_resolve_congr (p := p) (q := q) rfl h fun x hx hn => ?_).symm
    cases hu.symm.trans hx
    cases hs.symm.trans hn
  · intro u a hu ha values
    have hw := h.trans (alike_update_host (h.uri ▸ hu) ha values)
    exact (value_resolve_congr rfl hw fun _ _ _ => rfl).symm

/-- Of the fields of the first view only the second proto line counts: the line before it is no
text, the other headers are not believed, and the URI has an authority. -/
theorem resolve_of_alike_absolute :
    let p : TrustPolicy := ⟨true, false, false, .http⟩
    let s : Scheme := ⟨"ws".toList, by decide, by decide⟩
    let a : Authority := ⟨"internal:8080".toList, by decide, by cbv⟩
    let u := Uri.absolute s a ⟨"/app".toList, none⟩
    let v := View.ofHeaders u
      [(Forwarded.proto.name, ⟨[0xC3, 0xA9], by decide⟩),
        (Forwarded.proto.name, ⟨[0x77, 0x73, 0x73], by decide⟩),
        (Forwarded.host.name, ⟨[0x65, 0x76, 0x69, 0x6C], by decide⟩), (.host, ⟨[0x78], by decide⟩)]
    let w := View.ofTexts "ws://internal:8080/app".toList
      [("X-Forwarded-Proto".toList, "wss".toList)]
    p.Alike v w ∧ v.uri = .ok u ∧ u.scheme? = some s ∧ u.authority? = some a ∧
      (p.resolve w).value = (p.resolve v).value ∧
      ({ p with fallbackScheme := .https }.resolve w).value = (p.resolve v).value ∧
      (p.resolve { w with lookup := Function.update w.lookup .host ["two words".toList] }).value =
        (p.resolve v).value := by
  intro p s a u v w
  have hu : v.uri = w.uri := by cbv
  have hp : v.lookup Forwarded.proto.name = w.lookup Forwarded.proto.name := by cbv
  have hv : v.uri = .ok u := rfl
  have h : p.Alike v w := by
    constructor
    · exact hu
    · intro f hf
      cases f with
      | proto => exact hp
      | host => cases hf
      | port => cases hf
    · intro x hx hn
      cases hv.symm.trans hx
      cases hn
  obtain ⟨h1, h2, h3⟩ := resolve_of_alike h
  exact ⟨h, hv, rfl, rfl, h1, h2 u s hv rfl .https, h3 u a hv rfl _⟩

end TrustPolicy

/-! Fields of a request that may as well be absent -/

theorem Headers.textsOf_eq (h : Headers) (name : FieldName) :
    h.textsOf name = h.filterMap fun field => if field.1 == name then field.2.text? else none := by
  rw [textsOf, valuesOf, List.filterMap_map, List.filterMap_filter]
  rfl

theorem Headers.textsOf_filter {keep : FieldName × FieldValue → Bool} {name : FieldName}
    (h : Headers)
    (hk : ∀ value : FieldValue, value.text?.isSome = true → keep (name, value) = true) :
    Headers.textsOf (h.filter keep) name = h.textsOf name := by
  rw [textsOf_eq, textsOf_eq, List.filterMap_filter]
  refine List.filterMap_congr fun field _ => ?_
  by_cases hn : field.1 = name
  · subst hn
    cases ht : field.2.text? with
    | none => simp
    | some t =>
      have hf : keep field = true := hk field.2 (by rw [ht, Option.isSome_some])
      simp [hf]
  · simp [hn]

namespace TrustPolicy

/-- Whether a policy may look at a field: its value is text, and it is a header that is believed or
the `Host`. -/
def reads (p : TrustPolicy) (field : FieldName × FieldValue) : Bool :=
  field.2.text?.isSome &&
    (field.1 == .host || [Forwarded.proto, .host, .port].any fun f =>
      p.believes f && field.1 == f.name)

theorem alike_filter (p : TrustPolicy) (u : Uri) (h : Headers) :
    p.Alike (.ofHeaders u h) (.ofHeaders u (h.filter p.reads)) := by
  constructor
  · rfl
  · intro f hf
    refine (h.textsOf_filter fun value ht => ?_).symm
    cases f <;> simp [reads, ht, hf]
  · intro _ _ _
    refine congrArg List.head? (h.textsOf_filter fun value ht => ?_).symm
    simp [reads, ht]

/-- The fields that a policy does not read can be dropped from a request. -/
theorem value_resolve_filter (p : TrustPolicy) (u : Uri) (h : Headers) :
    (p.resolve (.ofHeaders u (h.filter p.reads))).value = (p.resolve (.ofHeaders u h)).value :=
  (value_resolve_congr rfl (alike_filter p u h) fun _ _ _ => rfl).symm

end TrustPolicy
end Ingress

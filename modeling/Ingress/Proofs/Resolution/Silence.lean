import Mathlib
import Ingress.Proofs.Resolution.Noninterference
import Ingress.Proofs.Resolution.Url
/-!
Headers that say nothing. A header that is not believed, one without an entry and one whose entry
does not read are all the same as a header that is not there: a resolution comes to what it comes to
without their lines when all that is left is believed.
-/
namespace Ingress

namespace Forwarded

theorem name_injective : Function.Injective name := by
  intro f g h
  cases f <;> cases g <;> cases h <;> rfl

/-- Whether the reader of a header takes a text. -/
def accepts : Forwarded → Text → Bool
  | proto, e => (readProto? e).isSome
  | host, e => (readHost? e).isSome
  | port, e => (readPort? e).isSome

/-- A header without an entry, or with one that its reader refuses. -/
inductive Silent (f : Forwarded) (values : List Text) : Prop where
  | blank (h : ∀ e, ¬ IsEntry values e) : Silent f values
  | refused {e : Text} (he : IsEntry values e) (hr : f.accepts e = false) : Silent f values

theorem Silent.bind_eq_none {f : Forwarded} {values : List Text} (h : f.Silent values) {α : Type}
    {read? : Text → Option α} (hr : ∀ e, f.accepts e = false → read? e = none) :
    (first? values).bind read? = none := by
  cases h with
  | blank h =>
    have hn : first? values = none :=
      Option.eq_none_iff_forall_ne_some.2 fun e he => h e (first?_eq_some_iff.1 he)
    rw [hn, Option.bind_none]
  | refused he ha => rw [first?_eq_some_iff.2 he, Option.bind_some, hr _ ha]

end Forwarded

/-- Fields dropped by their names are all values of a name or none. -/
theorem Headers.textsOf_filter_name (h : Headers) (keep : FieldName → Prop) [DecidablePred keep]
    (name : FieldName) :
    Headers.textsOf (h.filter fun field => keep field.1) name =
      if keep name then h.textsOf name else [] := by
  rw [textsOf_eq, textsOf_eq, List.filterMap_filter]
  by_cases hk : keep name
  · rw [if_pos hk]
    refine List.filterMap_congr fun field _ => ?_
    by_cases hn : field.1 = name
    · simp [hn, hk]
    · simp [hn]
  · rw [if_neg hk, List.filterMap_eq_nil_iff]
    intro field _
    by_cases hn : field.1 = name
    · simp [hn, hk]
    · simp [hn]

namespace View

/-- The view without the lines of some of the three headers. -/
def without (v : View) (removed : List Forwarded) : View :=
  { v with lookup := fun name => if name ∈ removed.map Forwarded.name then [] else v.lookup name }

variable {v : View} {removed : List Forwarded}

theorem lookup_without_of_mem {f : Forwarded} (h : f ∈ removed) :
    (v.without removed).lookup f.name = [] :=
  if_pos (List.mem_map_of_mem h)

theorem lookup_without_of_ne {name : FieldName} (h : ∀ f ∈ removed, name ≠ f.name) :
    (v.without removed).lookup name = v.lookup name := by
  refine if_neg fun hm => ?_
  obtain ⟨f, hf, he⟩ := List.mem_map.1 hm
  exact h f hf he.symm

theorem lookup_without_of_not_mem {f : Forwarded} (h : f ∉ removed) :
    (v.without removed).lookup f.name = v.lookup f.name :=
  lookup_without_of_ne fun _ hg he => h (Forwarded.name_injective he ▸ hg)

/-- In a request they are the fields with these names. -/
theorem ofHeaders_without (u : Uri) (h : Headers) :
    (ofHeaders u h).without removed =
      .ofHeaders u (h.filter fun field => field.1 ∉ removed.map Forwarded.name) := by
  refine congrArg (View.mk · _) (funext fun name => ?_)
  rw [ofHeaders, Headers.textsOf_filter_name h (· ∉ removed.map Forwarded.name) name, ite_not]

end View

theorem Connection.ofView_without (s : Scheme) (v : View) (removed : List Forwarded) :
    ofView s (v.without removed) = ofView s v := by
  refine ofView_congr rfl (fun _ _ _ => ?_) fun _ _ _ => rfl
  rw [View.lookup_without_of_ne fun f _ => f.name_ne_host.symm]

namespace TrustPolicy

/-- Headers of which a policy gets nothing: among them all that it does not believe, and else none
but silent ones. -/
structure Disregards (p : TrustPolicy) (v : View) (headers : List Forwarded) : Prop where
  unbelieved : ∀ f : Forwarded, p.believes f = false → f ∈ headers
  silent : ∀ f ∈ headers, p.believes f = true → f.Silent (v.lookup f.name)

variable {p : TrustPolicy} {v : View} {headers : List Forwarded} {f : Forwarded} {α : Type}
  {read? : Text → Option α}

theorem Disregards.ite_eq_none (h : p.Disregards v headers) (hf : f ∈ headers)
    (hr : ∀ e, f.accepts e = false → read? e = none) :
    (if p.believes f then (Forwarded.first? (v.lookup f.name)).bind read? else none) = none := by
  by_cases hb : p.believes f = true
  · rw [if_pos hb, (h.silent f hf hb).bind_eq_none hr]
  · rw [if_neg hb]

/-- What a policy gets of a header is what is left of it. -/
theorem Disregards.ite_eq (h : p.Disregards v headers)
    (hr : ∀ e, f.accepts e = false → read? e = none) :
    (if p.believes f then (Forwarded.first? (v.lookup f.name)).bind read? else none) =
      (Forwarded.first? ((v.without headers).lookup f.name)).bind read? := by
  by_cases hf : f ∈ headers
  · rw [h.ite_eq_none hf hr, View.lookup_without_of_mem hf]
    rfl
  · have hb : p.believes f = true := by
      by_contra hb
      exact hf (h.unbelieved f (by simpa using hb))
    rw [if_pos hb, View.lookup_without_of_not_mem hf]

theorem Disregards.value_overrides (h : p.Disregards v headers) :
    (p.overrides v.lookup).value = (Overrides.read (v.without headers).lookup).value := by
  have hp := @Disregards.ite_eq p v headers .proto _ Forwarded.readProto? h
    (by simp [Forwarded.accepts])
  have hh := @Disregards.ite_eq p v headers .host _ Forwarded.readHost? h
    (by simp [Forwarded.accepts])
  have hn := @Disregards.ite_eq p v headers .port _ Forwarded.readPort? h
    (by simp [Forwarded.accepts])
  rw [TrustPolicy.value_overrides, Overrides.value_read, Overrides.value_read, mask,
    ← hp, ← hh, ← hn]
  rfl

theorem Disregards.proto_eq_none (h : p.Disregards v headers) (hf : .proto ∈ headers) :
    (p.overrides v.lookup).value.proto = none := by
  rw [TrustPolicy.value_overrides, Overrides.value_read]
  exact h.ite_eq_none hf (by simp [Forwarded.accepts])

theorem Disregards.host_eq_none (h : p.Disregards v headers) (hf : .host ∈ headers) :
    (p.overrides v.lookup).value.host = none := by
  rw [TrustPolicy.value_overrides, Overrides.value_read]
  exact h.ite_eq_none hf (by simp [Forwarded.accepts])

/-- A resolution comes to what it comes to if all headers are believed and the disregarded ones are
not there. In particular nothing that stands in a disregarded header replaces a part of the
connection, and the port of the connection is lost only to a scheme or a host that does. -/
theorem resolve_without (h : p.Disregards v headers) :
    (p.resolve v).value =
      ({ trusting with fallbackScheme := p.fallbackScheme }.resolve (v.without headers)).value ∧
      ∀ c, Connection.ofView p.fallbackScheme v = .ok c →
        ∃ o, (p.resolve v).value = .ok o ∧ (.proto ∈ headers → o.scheme = c.scheme) ∧
          (.host ∈ headers → o.host = c.host) ∧
          (.proto ∈ headers → .host ∈ headers →
            o.port = ((p.overrides v.lookup).value.port.or c.port).getD c.scheme.usualPort) := by
  constructor
  · rw [value_resolve, value_resolve, Connection.ofView_without, h.value_overrides, value_overrides]
    rfl
  · intro c hc
    refine ⟨_, value_resolve_of_ok hc, ?_, ?_, ?_⟩
    · intro hp
      simp only [Connection.override, h.proto_eq_none hp, Option.getD_none]
    · intro hh
      simp only [Connection.override, h.host_eq_none hh, Option.getD_none]
    · intro hp hh
      have hr := (p.overrides v.lookup).value.relocates_eq_false_iff.2
        ⟨h.proto_eq_none hp, h.host_eq_none hh⟩
      simp only [Connection.override, h.proto_eq_none hp, hr, Option.getD_none, Bool.false_eq_true,
        if_false]

/-- The proto header is refused although a scheme stands behind its entry, the host header has no
entry, and the port header is not believed. The request is the one with none of their lines, and the
port of its connection stays. -/
theorem resolve_without_refused :
    let p : TrustPolicy := ⟨true, true, false, .https⟩
    let u := Uri.absolute .http ⟨"internal:8080".toList, by decide, by cbv⟩ ⟨"/app".toList, none⟩
    let other : FieldName × FieldValue := (.host, ⟨[0x78], by decide⟩)
    let v := View.ofHeaders u
      [(Forwarded.proto.name, ⟨[0x5F, 0x2C, 0x77, 0x73], by decide⟩), other,
        (Forwarded.host.name, ⟨[0x20, 0x2C], by decide⟩),
        (Forwarded.port.name, ⟨[0x39], by decide⟩)]
    p.Disregards v [.proto, .host, .port] ∧
      v.without [.proto, .host, .port] = .ofHeaders u [other] ∧
      (p.resolve v).value =
        ({ trusting with fallbackScheme := .https }.resolve (.ofHeaders u [other])).value ∧
      ∃ o, (p.resolve v).value = .ok o ∧ o.scheme = .http ∧ o.host = "internal".toList ∧
        o.port = 8080 := by
  intro p u other v
  have hproto : Forwarded.IsEntry (v.lookup Forwarded.proto.name) ['_'] :=
    Forwarded.first?_eq_some_iff.1 (by cbv)
  have hhost : Forwarded.first? (v.lookup Forwarded.host.name) = none := by cbv
  have h : p.Disregards v [.proto, .host, .port] := by
    constructor
    · intro f _
      cases f <;> simp
    · intro f _ hf
      cases f with
      | proto => exact .refused hproto (by decide)
      | host =>
        refine .blank fun e he => ?_
        cases hhost.symm.trans (Forwarded.first?_eq_some_iff.2 he)
      | port => cases hf
  have hw : v.without [.proto, .host, .port] = .ofHeaders u [other] :=
    (View.ofHeaders_without u _).trans (by rfl)
  obtain ⟨heq, hparts⟩ := resolve_without h
  rw [hw] at heq
  have hc : Connection.ofView p.fallbackScheme v =
      .ok ⟨.http, "internal".toList, some 8080⟩ := by cbv
  obtain ⟨o, ho, hscheme, hname, hport⟩ := hparts _ hc
  exact ⟨h, hw, heq, o, ho, hscheme (by simp), hname (by simp),
    (hport (by simp) (by simp)).trans (by cbv)⟩

end TrustPolicy
end Ingress

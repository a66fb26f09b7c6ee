import Ingress.Proofs.Resolution.Silence
/-!
What a resolution writes to the log. The lines are settled by the outcome and by the entries of the
three headers: a failure writes nothing, and an origin is written behind one line for each entry
that is refused. The headers are read all together or not at all, so that an entry is complained of
even where its header is not believed, provided that some other header is.
-/
namespace Ingress

namespace Forwarded

theorem IsEntry.unique {values : List Text} {e x : Text} (he : IsEntry values e)
    (hx : IsEntry values x) : e = x :=
  Option.some.inj ((first?_eq_some_iff.2 he).symm.trans (first?_eq_some_iff.2 hx))

/-- What is written about a header: one line if its entry is refused, with the entry as it came, and
else nothing. -/
inductive Remark (f : Forwarded) (values : List Text) : List LogLine → Prop where
  | refused {e : Text} (he : IsEntry values e) (hr : f.accepts e = false) :
      Remark f values
        [⟨.debug, "ignoring invalid " ++ String.ofList f.name.text ++ " header",
          [("value", String.ofList e)]⟩]
  | nothing (h : ∀ e, IsEntry values e → f.accepts e = true) : Remark f values []

/-- The events of reading a header. -/
def refusals (f : Forwarded) (values : List Text) : List Event :=
  match first? values with
  | none => []
  | some e => if f.accepts e then [] else [.ignored f e]

theorem remark_refusals (f : Forwarded) (values : List Text) :
    Remark f values ((f.refusals values).map Event.line) := by
  rw [refusals]
  cases hf : first? values with
  | none =>
    refine .nothing fun e he => ?_
    cases hf.symm.trans (first?_eq_some_iff.2 he)
  | some e =>
    have he := first?_eq_some_iff.1 hf
    cases ha : f.accepts e with
    | true =>
      simp only [ha, if_true, List.map_nil]
      refine .nothing fun x hx => ?_
      rw [hx.unique he, ha]
    | false =>
      simp only [ha, Bool.false_eq_true, if_false]
      exact .refused he ha

theorem Remark.unique {f : Forwarded} {values : List Text} {a b : List LogLine}
    (ha : Remark f values a) (hb : Remark f values b) : a = b := by
  cases ha with
  | refused he hr =>
    cases hb with
    | refused hx _ => rw [he.unique hx]
    | nothing h =>
      rw [h _ he] at hr
      cases hr
  | nothing h =>
    cases hb with
    | refused he hr =>
      rw [h _ he] at hr
      cases hr
    | nothing => rfl

theorem events_read {α : Type} {f : Forwarded} {read? : Text → Option α}
    (hr : ∀ e, (read? e).isSome = f.accepts e) (lookup : Lookup) :
    (f.read read? lookup).events = f.refusals (lookup f.name) := by
  rw [read, refusals]
  cases first? (lookup f.name) with
  | none => rfl
  | some e =>
    simp only [← hr e]
    cases read? e <;> rfl

end Forwarded

theorem Overrides.events_read (lookup : Lookup) :
    (Overrides.read lookup).events =
      Forwarded.proto.refusals (lookup Forwarded.proto.name) ++
        (Forwarded.host.refusals (lookup Forwarded.host.name) ++
        Forwarded.port.refusals (lookup Forwarded.port.name)) := by
  have hproto := @Forwarded.events_read _ .proto Forwarded.readProto? (fun _ => rfl) lookup
  have hhost := @Forwarded.events_read _ .host Forwarded.readHost? (fun _ => rfl) lookup
  have hport := @Forwarded.events_read _ .port Forwarded.readPort? (fun _ => rfl) lookup
  rw [← hproto, ← hhost, ← hport]
  simp only [read, Logged.events_bind, Logged.events_pure, List.append_nil]

namespace TrustPolicy

/-- What is written about the outcome of a resolution. -/
inductive Account (p : TrustPolicy) (v : View) :
    Except RequestError Origin → List LogLine → Prop where
  | failed (e : RequestError) : Account p v (.error e) []
  | unread (o : Origin) (h : ∀ f, p.believes f = false) :
      Account p v (.ok o) [⟨.trace, "resolved external origin",
        [("origin", String.ofList o.render)]⟩]
  | read {proto host port : List LogLine} (o : Origin) (h : ∃ f, p.believes f = true)
      (hproto : Forwarded.proto.Remark (v.lookup Forwarded.proto.name) proto)
      (hhost : Forwarded.host.Remark (v.lookup Forwarded.host.name) host)
      (hport : Forwarded.port.Remark (v.lookup Forwarded.port.name) port) :
      Account p v (.ok o)
        (proto ++ host ++ port ++
          [⟨.trace, "resolved external origin", [("origin", String.ofList o.render)]⟩])

theorem exists_believes_iff (p : TrustPolicy) :
    (∃ f, p.believes f = true) ↔ (p.proto || p.host || p.port) = true := by
  rw [Bool.or_eq_true, Bool.or_eq_true]
  constructor
  · intro h
    obtain ⟨f, hf⟩ := h
    cases f with
    | proto => exact .inl (.inl hf)
    | host => exact .inl (.inr hf)
    | port => exact .inr hf
  · rintro ((h | h) | h)
    · exact ⟨.proto, h⟩
    · exact ⟨.host, h⟩
    · exact ⟨.port, h⟩

theorem events_overrides (p : TrustPolicy) (lookup : Lookup) :
    (p.overrides lookup).events =
      if p.proto || p.host || p.port then (Overrides.read lookup).events else [] := by
  rw [overrides]
  split
  · exact Logged.events_map _ _
  · rfl

theorem events_resolve_of_error {p : TrustPolicy} {v : View} {e : RequestError}
    (h : (p.resolve v).value = .error e) : (p.resolve v).events = [] := by
  rw [resolve] at h ⊢
  cases hc : Connection.ofView p.fallbackScheme v with
  | error e => rfl
  | ok c =>
    rw [hc] at h
    cases h

theorem events_resolve_of_ok {p : TrustPolicy} {v : View} {o : Origin}
    (h : (p.resolve v).value = .ok o) :
    (p.resolve v).events = (p.overrides v.lookup).events ++ [.resolved o] := by
  rw [resolve] at h ⊢
  cases hc : Connection.ofView p.fallbackScheme v with
  | error e =>
    rw [hc] at h
    cases h
  | ok c =>
    rw [hc] at h
    rw [← Except.ok.inj h]
    rfl

theorem account_resolve (p : TrustPolicy) (v : View) :
    p.Account v (p.resolve v).value ((p.resolve v).events.map Event.line) := by
  cases hv : (p.resolve v).value with
  | error e =>
    rw [events_resolve_of_error hv]
    exact .failed e
  | ok o =>
    rw [events_resolve_of_ok hv, events_overrides, List.map_append]
    by_cases h : (p.proto || p.host || p.port) = true
    · have hread := Account.read o (p.exists_believes_iff.2 h)
        (Forwarded.proto.remark_refusals (v.lookup Forwarded.proto.name))
        (Forwarded.host.remark_refusals (v.lookup Forwarded.host.name))
        (Forwarded.port.remark_refusals (v.lookup Forwarded.port.name))
      rw [if_pos h, Overrides.events_read, List.map_append, List.map_append, ← List.append_assoc]
      exact hread
    · rw [if_neg h]
      refine .unread o fun f => ?_
      rw [← p.exists_believes_iff, not_exists] at h
      simpa using h f

theorem Account.unique {p : TrustPolicy} {v : View} {outcome : Except RequestError Origin}
    {a b : List LogLine} (ha : p.Account v outcome a) (hb : p.Account v outcome b) : a = b := by
  cases ha with
  | failed =>
    cases hb with
    | failed => rfl
  | unread o h =>
    cases hb with
    | unread => rfl
    | read _ hf =>
      obtain ⟨f, hf⟩ := hf
      rw [h f] at hf
      cases hf
  | read o hf hproto hhost hport =>
    cases hb with
    | unread _ h =>
      obtain ⟨f, hf⟩ := hf
      rw [h f] at hf
      cases hf
    | read _ _ kproto khost kport =>
      rw [hproto.unique kproto, hhost.unique khost, hport.unique kport]

theorem account_iff {p : TrustPolicy} {v : View} {lines : List LogLine} :
    p.Account v (p.resolve v).value lines ↔ (p.resolve v).events.map Event.line = lines := by
  constructor
  · intro h
    exact (p.account_resolve v).unique h
  · intro h
    subst h
    exact p.account_resolve v

/-- A header that is not believed is complained of while another one is, and in the order of the
headers. -/
example :
    ((⟨false, false, true, .http⟩ : TrustPolicy).resolve (.ofTexts "/app".toList
      [("X-Forwarded-Port".toList, "0".toList),
        ("X-Forwarded-Proto".toList, " ht tp ,https".toList),
        ("Host".toList, "internal:8080".toList)])).events =
      [.ignored .proto "ht tp".toList, .ignored .port "0".toList,
        .resolved ⟨.http, "internal".toList, 8080⟩] := by
  cbv

end TrustPolicy
end Ingress

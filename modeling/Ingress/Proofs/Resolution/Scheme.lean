import Mathlib
import Ingress.Proofs.Resolution.Value
/-!
Which schemes proxies can bring in. An entry is read leniently: it passes if it has at most 64
characters of those that a scheme of the URI standard may have, or `~`, in any order. So a proxy can
bring in a scheme that is none by the standard, which is one exactly if the entry starts with a
letter and has no `~`. What does not pass leaves the scheme of the connection.
-/
namespace Ingress

namespace Text

/-- The case of a letter does not tell in a class that has all letters. -/
theorem toLower_of_class {p : Char → Bool} (hp : ∀ c : Char, c.isAlpha = true → p c = true)
    (c : Char) : p c.toLower = p c := by
  by_cases hu : c.isUpper = true
  · have hl : c.toLower.isLower = true := by
      obtain he | hl := toLower_eq_self_or c
      · rw [toLower_eq_self_iff, hu] at he
        cases he
      · exact hl
    rw [hp c (by simp [Char.isAlpha, hu]), hp c.toLower (by simp [Char.isAlpha, hl])]
  · rw [toLower_of_not_isUpper hu]

end Text

namespace Scheme

/-- The characters that may stand behind the first one. -/
def isProperChar (c : Char) : Bool := c.isAlphanum || c == '+' || c == '-' || c == '.'

/-- The schemes of the URI standard: a letter, and then letters, digits and three more
characters. -/
def Proper : Text → Prop
  | [] => False
  | c :: rest => c.isAlpha = true ∧ ∀ d ∈ rest, isProperChar d = true

instance : DecidablePred Proper
  | [] => inferInstanceAs (Decidable False)
  | _ :: _ => inferInstanceAs (Decidable (_ ∧ _))

/-- The texts that pass for schemes. -/
structure Lenient (t : Text) : Prop where
  chars : ∀ c ∈ t, isProperChar c = true ∨ c = '~'
  short : t.byteLength ≤ 64

/-- Whether a text starts with a letter and has no `~`, which the standard asks for beyond what
passes. -/
def Strict (t : Text) : Prop := (∃ c, t.head? = some c ∧ c.isAlpha = true) ∧ '~' ∉ t

theorem isProperChar_of_isAlpha {c : Char} (h : c.isAlpha = true) : isProperChar c = true := by
  simp [isProperChar, Char.isAlphanum, h]

theorem isSchemeChar_iff {c : Char} : isSchemeChar c = true ↔ isProperChar c = true ∨ c = '~' := by
  simp [isSchemeChar, isProperChar]

theorem isSchemeChar_lower (c : Char) : isSchemeChar c.toLower = isSchemeChar c :=
  Text.toLower_of_class (fun _ h => isSchemeChar_iff.2 (.inl (isProperChar_of_isAlpha h))) c

theorem lenient_iff {t : Text} : Lenient t ↔ ∃ s : Scheme, s.text = t.lower := by
  have hall : t.lower.all isSchemeChar = true ↔ ∀ c ∈ t, isProperChar c = true ∨ c = '~' := by
    simp [Text.lower, isSchemeChar_lower, isSchemeChar_iff]
  constructor
  · intro h
    exact ⟨⟨t.lower, hall.2 h.chars, t.byteLength_lower.le.trans h.short⟩, rfl⟩
  · intro h
    obtain ⟨s, hs⟩ := h
    exact ⟨hall.1 (hs ▸ s.chars), t.byteLength_lower ▸ hs ▸ s.short⟩

theorem proper_lower {t : Text} : Proper t.lower ↔ Proper t := by
  cases t with
  | nil => exact Iff.rfl
  | cons c rest =>
    have ha : c.toLower.isAlpha = c.isAlpha := Text.toLower_of_class (fun _ h => h) c
    have hr : ∀ d : Char, isProperChar d.toLower = isProperChar d :=
      Text.toLower_of_class fun _ h => isProperChar_of_isAlpha h
    simp [Text.lower, Proper, ha, hr]

theorem proper_iff {t : Text} (h : Lenient t) : Proper t ↔ Strict t := by
  cases t with
  | nil => simp [Proper, Strict]
  | cons c rest =>
    have hc : c.isAlpha = true → '~' ≠ c := fun ha he => by
      rw [← he] at ha
      cases ha
    have hr : (∀ d ∈ rest, isProperChar d = true) ↔ '~' ∉ rest := by
      constructor
      · intro hp hm
        cases hp '~' hm
      · intro hn d hd
        exact (h.chars d (List.mem_cons_of_mem c hd)).resolve_right fun he => hn (he ▸ hd)
    simp only [Proper, Strict, List.head?_cons, Option.some.injEq, exists_eq_left', List.mem_cons,
      not_or, hr]
    constructor
    · intro hp
      exact ⟨hp.1, hc hp.1, hp.2⟩
    · intro hs
      exact ⟨hs.1, hs.2.2⟩

theorem proper_text_iff {s : Scheme} {e : Text} (h : Lenient e) (hs : s.text = e.lower) :
    Proper s.text ↔ Strict e := by
  rw [hs, proper_lower, proper_iff h]

end Scheme

namespace Overrides

theorem value_proto_eq_some_iff {lookup : Lookup} {s : Scheme} :
    (Overrides.read lookup).value.proto = some s ↔
      ∃ e, Forwarded.IsEntry (lookup Forwarded.proto.name) e ∧ Scheme.Lenient e ∧
        s.text = e.lower := by
  simp only [value_read, Option.bind_eq_some_iff, Forwarded.first?_eq_some_iff,
    Forwarded.readProto?_eq_some_iff, Forwarded.ReadsScheme]
  refine exists_congr fun e => and_congr_right fun _ => ?_
  exact (and_iff_right_of_imp fun hs => Scheme.lenient_iff.2 ⟨s, hs⟩).symm

theorem value_proto_eq_none_iff {lookup : Lookup} :
    (Overrides.read lookup).value.proto = none ↔
      ∀ e, Forwarded.IsEntry (lookup Forwarded.proto.name) e → ¬ Scheme.Lenient e := by
  simp only [Option.eq_none_iff_forall_ne_some, ne_eq, value_proto_eq_some_iff, not_exists, not_and]
  constructor
  · intro h e he hl
    obtain ⟨s, hs⟩ := Scheme.lenient_iff.1 hl
    exact h s e he hl hs
  · intro h s e he hl
    exact absurd hl (h e he)

end Overrides

namespace TrustPolicy

/-- An entry that passes is taken for the scheme, in lower case, and any other is passed over. What
is taken is a scheme of the standard exactly if the entry that passes starts with a letter and has
no `~`. A policy that believes the header resolves to what is taken in either case, and where
nothing is taken, or it does not believe the header, to the scheme of the connection. -/
theorem scheme_of_entry (p : TrustPolicy) (v : View) :
    (∀ s, (Overrides.read v.lookup).value.proto = some s ↔
        ∃ e, Forwarded.IsEntry (v.lookup Forwarded.proto.name) e ∧ Scheme.Lenient e ∧
          s.text = e.lower) ∧
      ((∀ s, (Overrides.read v.lookup).value.proto = some s →
          Scheme.Proper s.text ∧ s.text.lower = s.text) ↔
        ∀ e, Forwarded.IsEntry (v.lookup Forwarded.proto.name) e → Scheme.Lenient e →
          Scheme.Strict e) ∧
      ∀ c, Connection.ofView p.fallbackScheme v = .ok c → ∃ o, (p.resolve v).value = .ok o ∧
        ((o.scheme = c.scheme ∧
            (p.proto = true → ∀ e, Forwarded.IsEntry (v.lookup Forwarded.proto.name) e →
              ¬ Scheme.Lenient e)) ∨
          (p.proto = true ∧ ∃ e, Forwarded.IsEntry (v.lookup Forwarded.proto.name) e ∧
            Scheme.Lenient e ∧ o.scheme.text = e.lower ∧
            (Scheme.Proper o.scheme.text ↔ Scheme.Strict e))) := by
  refine ⟨fun s => Overrides.value_proto_eq_some_iff, ?_, ?_⟩
  · constructor
    · intro h e he hl
      obtain ⟨s, hs⟩ := Scheme.lenient_iff.1 hl
      exact (Scheme.proper_text_iff hl hs).1
        (h s (Overrides.value_proto_eq_some_iff.2 ⟨e, he, hl, hs⟩)).1
    · intro h s hp
      obtain ⟨e, he, hl, hs⟩ := Overrides.value_proto_eq_some_iff.1 hp
      exact ⟨(Scheme.proper_text_iff hl hs).2 (h e he hl), by rw [hs, Text.lower_lower]⟩
  · intro c hc
    refine ⟨_, value_resolve_of_ok hc, ?_⟩
    simp only [Connection.override, value_overrides, mask]
    cases hb : p.proto with
    | false => exact .inl ⟨rfl, fun h => by cases h⟩
    | true =>
      cases hr : (Overrides.read v.lookup).value.proto with
      | none => exact .inl ⟨rfl, fun _ => Overrides.value_proto_eq_none_iff.1 hr⟩
      | some s =>
        obtain ⟨e, he, hl, hs⟩ := Overrides.value_proto_eq_some_iff.1 hr
        exact .inr ⟨rfl, e, he, hl, hs, Scheme.proper_text_iff hl hs⟩

/-- A scheme of the standard in mixed case, with a proper one behind it that is not used. -/
theorem scheme_of_entry_mixed :
    let v := View.ofTexts "http://internal:8080/app".toList
      [("X-Forwarded-Proto".toList, " Coap+TCP,https".toList)]
    let s : Scheme := ⟨"coap+tcp".toList, by decide, by decide⟩
    Connection.ofView .http v = .ok ⟨.http, "internal".toList, some 8080⟩ ∧
      Forwarded.IsEntry (v.lookup Forwarded.proto.name) "Coap+TCP".toList ∧
      Scheme.Lenient "Coap+TCP".toList ∧ Scheme.Strict "Coap+TCP".toList ∧
      (Overrides.read v.lookup).value.proto = some s ∧
      ∃ o, (trusting.resolve v).value = .ok o ∧ o.scheme.text = "coap+tcp".toList ∧
        Scheme.Proper o.scheme.text := by
  intro v s
  have hc : Connection.ofView .http v = .ok ⟨.http, "internal".toList, some 8080⟩ := by cbv
  have hf : Forwarded.first? (v.lookup Forwarded.proto.name) = some "Coap+TCP".toList := by cbv
  have he := Forwarded.first?_eq_some_iff.1 hf
  have hl : Scheme.Lenient "Coap+TCP".toList := Scheme.lenient_iff.2 ⟨s, by decide⟩
  have hs : Scheme.Strict "Coap+TCP".toList := ⟨⟨'C', by decide, by decide⟩, by decide⟩
  obtain ⟨hread, -, horigin⟩ := scheme_of_entry trusting v
  obtain ⟨o, ho, ⟨-, hn⟩ | ⟨-, e, hx, -, ht, hp⟩⟩ := horigin _ hc
  · exact absurd hl (hn rfl _ he)
  · obtain rfl := Option.some.inj (hf.symm.trans (Forwarded.first?_eq_some_iff.2 hx))
    exact ⟨hc, he, hl, hs, (hread s).2 ⟨_, he, hl, by decide⟩, o, ho, ht.trans (by decide), hp.2 hs⟩

/-- A digit in front and a `~` pass, though neither makes a scheme of the standard, and the port of
the connection is lost with its scheme. -/
theorem scheme_of_entry_improper :
    let v := View.ofTexts "http://internal:8080/app".toList
      [("X-Forwarded-Proto".toList, "1http".toList)]
    let w := View.ofTexts "http://internal:8080/app".toList
      [("X-Forwarded-Proto".toList, "~".toList)]
    let digit : Scheme := ⟨"1http".toList, by decide, by decide⟩
    let tilde : Scheme := ⟨"~".toList, by decide, by decide⟩
    Forwarded.IsEntry (v.lookup Forwarded.proto.name) "1http".toList ∧
      ¬ Scheme.Proper "1http".toList ∧
      (Overrides.read v.lookup).value.proto = some digit ∧
      (trusting.url v "/x".toList).value = .ok "1http://internal:80/x".toList ∧
      Forwarded.IsEntry (w.lookup Forwarded.proto.name) "~".toList ∧ ¬ Scheme.Proper "~".toList ∧
      (Overrides.read w.lookup).value.proto = some tilde ∧
      (trusting.url w "/x".toList).value = .ok "~://internal:80/x".toList := by
  intro v w digit tilde
  have hv : Forwarded.first? (v.lookup Forwarded.proto.name) = some "1http".toList := by cbv
  have hw : Forwarded.first? (w.lookup Forwarded.proto.name) = some "~".toList := by cbv
  exact ⟨Forwarded.first?_eq_some_iff.1 hv, by decide, by cbv, by cbv,
    Forwarded.first?_eq_some_iff.1 hw, by decide, by cbv,
    by cbv⟩

end TrustPolicy
end Ingress

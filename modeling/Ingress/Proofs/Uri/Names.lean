import Ingress.Proofs.Uri.Remainder
/-!
What an authority names, said of its text alone: the proper host behind the last `@`, and the number
of a port behind the last colon. No text names two hosts or two ports.
-/
namespace Ingress

theorem Port.ofSigned?_eq_some_iff {t : Text} {n : Port} :
    ofSigned? t = some n ↔
      ∃ sign digits, t = sign ++ digits ∧ (sign = [] ∨ sign = ['+']) ∧
        ofDigits? digits = some n := by
  constructor
  · intro h
    unfold ofSigned? at h
    split at h
    · exact ⟨['+'], _, rfl, .inr rfl, h⟩
    · exact ⟨[], _, rfl, .inl rfl, h⟩
  · intro h
    obtain ⟨sign, digits, rfl, rfl | rfl, hd⟩ := h
    · rw [List.nil_append, Authority.ofSigned?_of_digits (ofDigits?_eq_some_iff.1 hd).2.1]
      exact hd
    · exact hd

namespace Host

theorem not_mem_of_literal {t : Text} (h : Proper ('[' :: t ++ [']'])) : ']' ∉ t := by
  generalize hl : '[' :: t ++ [']'] = l at h
  cases h with
  | @literal a ha =>
    obtain rfl := List.append_cancel_right (List.cons.inj hl).2
    exact not_mem_of_isAddress ha (by decide) rfl
  | @name pieces _ hp =>
    obtain he | hc := eq_percent_or_isNameChar (c := '[') hp (by simp [← hl])
    · cases he
    · cases hc

end Host

namespace Authority

/-- A proper host stands in `t` behind a user, and what the pass lets through behind a host
follows. -/
inductive NamesHost : Text → Text → Prop where
  | parts {user host rest : Text} (hu : UserPart user) (hh : Host.Proper host)
      (hb : Behind host rest) (hn : '@' ∉ rest) : NamesHost (user ++ (host ++ rest)) host

/-- A number from 1 to 65535 stands behind the last colon of `t`, with at most one plus sign in
front of it. -/
inductive NamesPort : Text → Port → Prop where
  | parts {front sign digits : Text} {n : Port} (hs : sign = [] ∨ sign = ['+']) (hd : digits ≠ [])
      (hc : ∀ c ∈ digits, c.isDigit = true) (hn : Nat.ofDigitChars 10 digits 0 = n.toNat)
      (h0 : n ≠ 0) : NamesPort (front ++ ':' :: (sign ++ digits)) n

theorem split_of_behind {host rest : Text} (hh : Host.Proper host) (hb : Behind host rest) :
    Host.split (host ++ rest) = (host, rest) := by
  cases hb with
  | literal =>
    have hs := @Host.split_bracketed _ rest (Host.not_mem_of_literal hh)
    simpa using hs
  | name _ hc => exact Host.split_append_suffix hh hc

theorem namesHost_iff {a : Authority} {h : Text} :
    NamesHost a.text h ↔ Host.Proper a.host ∧ a.host = h := by
  constructor
  · intro hn
    generalize ht : a.text = t at hn
    cases hn with
    | @parts user _ rest hu hh hb hr =>
      have hh' := not_at_mem_append hh .none
      rw [List.append_nil] at hh'
      have ha : '@' ∉ h ++ rest := by simp [hh', hr]
      have hs : a.host = h := by
        rw [host, hostAndPort_of_userPart ht hu ha, split_of_behind hh hb]
      exact ⟨hs ▸ hh, hs⟩
  · intro hn
    obtain ⟨hh, rfl⟩ := hn
    obtain ⟨user, hu, ht⟩ := a.exists_userPart
    have hr : '@' ∉ a.host ++ a.remainder := a.host_append_remainder ▸ a.not_at_mem_hostAndPort
    rw [ht]
    exact .parts hu hh (behind_host hh) fun hm => hr (List.mem_append_right _ hm)

theorem portText?_eq_some_iff {a : Authority} {d : Text} :
    a.portText? = some d ↔ ':' ∉ d ∧ ∃ front, a.text = front ++ ':' :: d := by
  constructor
  · intro h
    by_cases hm : ':' ∈ a.text
    · rw [portText?, if_pos hm] at h
      obtain ⟨front, ht, hf⟩ := Text.exists_front_of_last ':' a.text
      rw [Option.some.inj h] at ht
      have hd : ':' ∉ d := by
        rw [← Option.some.inj h, List.mem_reverse]
        exact Text.not_mem_takeWhile_ne ':' _
      obtain rfl | ⟨u, rfl⟩ := hf
      · rw [ht] at hm
        exact absurd hm hd
      · exact ⟨hd, u, by simpa using ht⟩
    · rw [portText?, if_neg hm] at h
      cases h
  · intro h
    obtain ⟨hd, front, ht⟩ := h
    exact portText?_of_text ht hd

theorem namesPort_iff {a : Authority} {n : Port} :
    NamesPort a.text n ↔ a.port? = some n ∧ n ≠ 0 := by
  rw [port?, Option.bind_eq_some_iff]
  simp only [portText?_eq_some_iff, Port.ofSigned?_eq_some_iff, Port.ofDigits?_eq_some_iff]
  constructor
  · intro h
    generalize ht : a.text = t at h
    cases h with
    | @parts front sign digits _ hs hd hc hn h0 =>
      have hm : ':' ∉ sign ++ digits := by
        have hdigits : ':' ∉ digits := fun hm => by cases hc ':' hm
        obtain rfl | rfl := hs <;> simp [hdigits]
      exact ⟨⟨_, ⟨hm, front, rfl⟩, sign, digits, rfl, hs, hd, hc, hn⟩, h0⟩
  · intro h
    obtain ⟨⟨d, ⟨-, front, ht⟩, sign, digits, rfl, hs, hd, hc, hn⟩, h0⟩ := h
    rw [ht]
    exact .parts hs hd hc hn h0

end Authority
end Ingress

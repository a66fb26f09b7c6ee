import Ingress.Proofs.Origin.Reading
/-!
The text of an origin determines it, and the text of a URL determines the origin and the path under
its slash. The scheme ends at the first colon, the host and port at the first slash behind `://`,
and a port is left out for one number only under each scheme, so that no two origins share a text.
-/
namespace Ingress

theorem Port.text_inj {n m : Port} (h : n.text = m.text) : n = m := by
  have hn := ofDigits?_text n
  rw [h, ofDigits?_text] at hn
  exact (Option.some.inj hn).symm

namespace Scheme

/-- Schemes in lower case count as equal only if they are: the standard ones have no other spelling
left. -/
theorem same_iff_eq {s t : Scheme} (hs : s.lower = s) (ht : t.lower = t) :
    s.same t = true ↔ s = t := by
  rw [same, hs, ht]
  by_cases h : s = t
  · simp [h]
  · simp [h]

theorem eq_usualPort {s : Scheme} {n : Port} (h : s = https ∧ n = 443 ∨ s = http ∧ n = 80) :
    n = s.usualPort := by
  obtain ⟨rfl, rfl⟩ | ⟨rfl, rfl⟩ := h
  · rfl
  · rfl

theorem portSuffix_inj {s : Scheme} {n m : Port} (h : s.portSuffix n = s.portSuffix m) : n = m := by
  by_cases hn : s = https ∧ n = 443 ∨ s = http ∧ n = 80
  · by_cases hm : s = https ∧ m = 443 ∨ s = http ∧ m = 80
    · rw [eq_usualPort hn, eq_usualPort hm]
    · rw [portSuffix, portSuffix, if_pos hn, if_neg hm] at h
      cases h
  · by_cases hm : s = https ∧ m = 443 ∨ s = http ∧ m = 80
    · rw [portSuffix, portSuffix, if_neg hn, if_pos hm] at h
      cases h
    · rw [portSuffix, portSuffix, if_neg hn, if_neg hm] at h
      exact Port.text_inj (List.cons.inj h).2

end Scheme

namespace Origin

theorem same_iff_eq {o₁ o₂ : Origin} (h₁ : o₁.WellFormed) (h₂ : o₂.WellFormed) :
    o₁.same o₂ = true ↔ o₁ = o₂ := by
  have hs := Scheme.same_iff_eq h₁.scheme h₂.scheme
  cases o₁
  cases o₂
  simp only [same, Bool.and_eq_true, beq_iff_eq, hs, Origin.mk.injEq, and_assoc]

/-- Host and port are told apart by where the host ends, which what follows cannot move. -/
theorem host_port_inj {h₁ h₂ : Text} (hh₁ : Host.Proper h₁) (hh₂ : Host.Proper h₂) {s : Scheme}
    {n₁ n₂ : Port} (h : h₁ ++ s.portSuffix n₁ = h₂ ++ s.portSuffix n₂) : h₁ = h₂ ∧ n₁ = n₂ := by
  have hx := congrArg Host.split h
  rw [Host.split_append_suffix hh₁ (s.portSuffix_digits n₁).head,
    Host.split_append_suffix hh₂ (s.portSuffix_digits n₂).head] at hx
  obtain ⟨hh, hp⟩ := Prod.mk.inj hx
  exact ⟨hh, Scheme.portSuffix_inj hp⟩

theorem render_append_inj {o₁ o₂ : Origin} (h₁ : o₁.WellFormed) (h₂ : o₂.WellFormed) {t₁ t₂ : Text}
    (ht₁ : ∀ c ∈ t₁.head?, Uri.isDelimiter c = true)
    (ht₂ : ∀ c ∈ t₂.head?, Uri.isDelimiter c = true) (h : o₁.render ++ t₁ = o₂.render ++ t₂) :
    o₁ = o₂ ∧ t₁ = t₂ := by
  rw [render_append_eq, render_append_eq] at h
  obtain ⟨hs, hr⟩ := Text.append_inj_of_forall (List.all_eq_true.1 o₁.scheme.chars)
    (List.all_eq_true.1 o₂.scheme.chars) (by simp [Scheme.not_isSchemeChar_colon])
    (by simp [Scheme.not_isSchemeChar_colon]) h
  have hscheme := Scheme.text_inj hs
  simp only [List.cons.injEq, true_and] at hr
  have hd : ∀ o : Origin, o.WellFormed →
      ∀ c ∈ o.host ++ o.scheme.portSuffix o.port, (!Uri.isDelimiter c) = true := by
    intro o ho c hc
    simp [Authority.isDelimiter_of_mem_append ho.host (o.scheme.portSuffix_digits o.port) c hc]
  obtain ⟨ha, ht⟩ := Text.append_inj_of_forall (hd o₁ h₁) (hd o₂ h₂) (by simpa using ht₁)
    (by simpa using ht₂) hr
  rw [hscheme] at ha
  obtain ⟨hhost, hport⟩ := host_port_inj h₁.host h₂.host ha
  refine ⟨?_, ht⟩
  cases o₁
  cases o₂
  cases hscheme
  cases hhost
  cases hport
  rfl

/-- Two URLs are the same text exactly if they are on the same origin and have the same path under
its slash, and two origins exactly if they are equal. -/
theorem url_eq_url_iff {o₁ o₂ : Origin} (h₁ : o₁.Issued) (h₂ : o₂.Issued) (p₁ p₂ : Text) :
    (o₁.url p₁ = o₂.url p₂ ↔ o₁.same o₂ = true ∧ underSlash p₁ = underSlash p₂) ∧
      (o₁.render = o₂.render ↔ o₁.same o₂ = true) := by
  have hw₁ := h₁.wellFormed
  have hw₂ := h₂.wellFormed
  rw [same_iff_eq hw₁ hw₂]
  constructor
  · constructor
    · intro h
      obtain ⟨ho, hp⟩ := render_append_inj hw₁ hw₂ (isDelimiter_head_rooted p₁)
        (isDelimiter_head_rooted p₂) h
      exact ⟨ho, by rw [← rooted_eq, ← rooted_eq, hp]⟩
    · intro h
      obtain ⟨rfl, hp⟩ := h
      rw [url, url, rooted_eq, rooted_eq, hp]
  · constructor
    · intro h
      have hn : o₁.render ++ [] = o₂.render ++ [] := congrArg (· ++ []) h
      exact (render_append_inj hw₁ hw₂ (by simp) (by simp) hn).1
    · intro h
      rw [h]

/-- A path that looks like the port of the other origin stays behind the slash. -/
theorem url_eq_url_iff_loopback :
    let usual : Origin := ⟨.https, "[::1]".toList, 443⟩
    usual.Issued ∧ loopback.Issued ∧
      (usual.url ":8443/x".toList = loopback.url "x".toList ↔
        usual.same loopback = true ∧ underSlash ":8443/x".toList = underSlash "x".toList) ∧
      (usual.render = loopback.render ↔ usual.same loopback = true) := by
  intro usual
  have ho : ofParts .https "[::1]:8443".toList 443 = .ok usual := by cbv
  have hu : usual.Issued := .made ho
  exact ⟨hu, issued_loopback, url_eq_url_iff hu issued_loopback _ _⟩

end Origin
end Ingress

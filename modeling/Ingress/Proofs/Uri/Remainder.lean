import Ingress.Proofs.Uri.Authority
/-!
An authority in three pieces: a user in front of the last `@`, the host, and what remains behind the
host. It is regular if the host is proper and the remainder is a port of 16 bits. The pass over the
characters asks for neither: behind a closing bracket it lets the characters of names through, and
behind a name anything that starts with a colon.
-/
namespace Ingress

namespace Text

/-- What stands in front of the text behind the last `x` is nothing, or ends with that `x`. -/
theorem exists_front_of_last (x : Char) (t : Text) :
    ∃ front, t = front ++ (t.reverse.takeWhile (· != x)).reverse ∧
      (front = [] ∨ ∃ u, front = u ++ [x]) := by
  have h := congrArg List.reverse
    (List.takeWhile_append_dropWhile (p := fun c : Char => c != x) (l := t.reverse))
  rw [List.reverse_append, List.reverse_reverse] at h
  refine ⟨_, h.symm, ?_⟩
  cases hd : t.reverse.dropWhile (· != x) with
  | nil => exact .inl rfl
  | cons c u =>
    have hc : c = x := by simpa [hd] using List.head?_dropWhile_not (· != x) t.reverse
    exact .inr ⟨u.reverse, by rw [hc, List.reverse_cons]⟩

end Text

namespace Host

/-- Nothing, or a colon and any run of digits whose number has 16 bits. -/
inductive PortPart : Text → Prop where
  | none : PortPart []
  | digits {d : Text} (h : ∀ c ∈ d, c.isDigit = true) (hn : Nat.ofDigitChars 10 d 0 ≤ 65535) :
      PortPart (':' :: d)

theorem PortPart.suffix {t : Text} (h : PortPart t) : PortSuffix t := by
  cases h with
  | none => exact .none
  | digits hd _ => exact .digits hd

theorem head_split_snd {t : Text} (h : t.head? ≠ some '[') : ∀ c ∈ (split t).2.head?, c = ':' := by
  have hs : (split t).2 = t.dropWhile (· != ':') := by
    rw [split]
    intro u he
    exact h (congrArg List.head? he)
  intro c hc
  rw [hs] at hc
  have hd := List.head?_dropWhile_not (· != ':') t
  rw [hc] at hd
  simpa using hd

theorem head_split_fst {t : Text} (h : (split t).1.head? ≠ some '[') : t.head? ≠ some '[' := by
  intro ht
  obtain ⟨rest, rfl⟩ := List.head?_eq_some_iff.1 ht
  refine h ?_
  rw [split]
  split <;> rfl

end Host

namespace Authority

/-- Nothing, or any text with an `@` behind it. -/
inductive UserPart : Text → Prop where
  | none : UserPart []
  | user (u : Text) : UserPart (u ++ ['@'])

/-- `user@host:port`, of which user and port may be missing. -/
inductive Regular : Text → Prop where
  | parts {user host port : Text} (hu : UserPart user) (hh : Host.Proper host)
      (hp : Host.PortPart port) :
      Regular (user ++ (host ++ port))

/-- What stands behind the host. -/
def remainder (a : Authority) : Text := (Host.split a.hostAndPort).2

theorem host_append_remainder (a : Authority) : a.host ++ a.remainder = a.hostAndPort :=
  Host.split_append a.hostAndPort

theorem not_at_mem_hostAndPort (a : Authority) : '@' ∉ a.hostAndPort := by
  rw [hostAndPort, List.mem_reverse]
  exact Text.not_mem_takeWhile_ne '@' a.text.reverse

theorem exists_userPart (a : Authority) :
    ∃ user, UserPart user ∧ a.text = user ++ (a.host ++ a.remainder) := by
  obtain ⟨user, ht, hu⟩ := Text.exists_front_of_last '@' a.text
  refine ⟨user, ?_, by rw [host_append_remainder]; exact ht⟩
  obtain rfl | ⟨u, rfl⟩ := hu
  · exact .none
  · exact .user u

theorem hostAndPort_of_userPart {a : Authority} {user t : Text} (ht : a.text = user ++ t)
    (hu : UserPart user) (hn : '@' ∉ t) : a.hostAndPort = t := by
  cases hu with
  | none => exact (hostAndPort_of_not_mem (ht ▸ hn)).trans ht
  | user u =>
    have hr : a.text.reverse = t.reverse ++ '@' :: u.reverse := by simp [ht]
    rw [hostAndPort, hr, (Text.takeWhile_ne_append (by simpa using hn)).1, List.reverse_reverse]

/-- A text is cut into user, host and port in one way only. -/
theorem regular_iff (a : Authority) :
    Regular a.text ↔ Host.Proper a.host ∧ Host.PortPart a.remainder := by
  constructor
  · intro h
    generalize ht : a.text = t at h
    cases h with
    | @parts user host port hu hh hp =>
      have hn := not_at_mem_append hh hp.suffix
      have hs : Host.split a.hostAndPort = (host, port) := by
        rw [hostAndPort_of_userPart ht hu hn, Host.split_append_suffix hh hp.suffix.head]
      rw [Authority.host, remainder, hs]
      exact ⟨hh, hp⟩
  · intro h
    obtain ⟨user, hu, ht⟩ := a.exists_userPart
    rw [ht]
    exact .parts hu h.1 h.2

/-! What the pass lets through behind a host -/

namespace Scan

theorem count_le_of_step {s u : Scan} {c : Char} (hs : s.colons ≤ maxColons)
    (h : s.step c = .ok u) : s.colons + [c].count ':' ≤ maxColons := by
  by_cases hc : c = ':'
  · subst hc
    by_cases hlt : s.colons < maxColons
    · rw [List.count_singleton_self]
      exact hlt
    · simp [step, hlt] at h
  · have h0 : [c].count ':' = 0 := List.count_eq_zero.2 (by simpa using Ne.symm hc)
    omega

/-- Once a bracket is closed only an `@` could begin anew. -/
theorem isPlain_of_step {s u : Scan} {c : Char} (ho : s.opened = true) (hc : s.closed = true)
    (ha : c ≠ '@') (h : s.step c = .ok u) : isPlain c = true := by
  by_cases hb : c = '[' ∨ c = ']'
  · obtain rfl | rfl := hb
    · simp [step, ho] at h
    · simp [step, hc] at h
  · obtain ⟨h1, h2⟩ := not_or.1 hb
    by_cases hp : c = ':' ∨ c = '%'
    · obtain rfl | rfl := hp <;> rfl
    · obtain ⟨h3, h4⟩ := not_or.1 hp
      by_cases hn : Uri.isNameChar c = true
      · simp [isPlain, hn]
      · simp [step, h1, h2, h3, h4, ha, hn] at h

/-- A closing bracket leaves no trace of what was in front of it. -/
theorem eq_of_step_close {s u : Scan} (h : s.step ']' = .ok u) :
    u = ⟨0, false, true, true, false⟩ := by
  cases ho : s.opened with
  | false => simp [step, ho] at h
  | true =>
    cases hc : s.closed with
    | false => simpa [step, ho, hc] using h.symm
    | true => simp [step, ho, hc] at h

/-- Behind both brackets the pass goes on as it does over a text without brackets and users. -/
theorem run_closed {s u : Scan} {t : Text} (ho : s.opened = true) (hc : s.closed = true)
    (hl : s.atLast = false) (hs : s.colons ≤ maxColons) (ha : '@' ∉ t) (h : s.run t = .ok u) :
    (∀ c ∈ t, isPlain c = true) ∧ u = s.after t := by
  induction t generalizing s with
  | nil =>
    obtain rfl := Except.ok.inj h
    simp [after]
  | cons c t ih =>
    simp only [List.mem_cons, not_or] at ha
    obtain ⟨m, hm, hr⟩ := run_cons_eq_ok h
    have hp := isPlain_of_step ho hc (Ne.symm ha.1) hm
    have hn := count_le_of_step hs hm
    obtain rfl := Except.ok.inj (hm.symm.trans (step_plain hl hp hn))
    obtain ⟨ht, hu⟩ := ih (s := s.after [c]) ho hc hl hn ha.2 hr
    exact ⟨List.forall_mem_cons.2 ⟨hp, ht⟩, hu.trans (after_cons s c t)⟩

end Scan

/-- What is behind a closing bracket and the last `@` has one colon at most, and else characters of
names only. -/
theorem behind_bracket {a : Authority} {front rest : Text} (ht : a.text = front ++ ']' :: rest)
    (hn : '@' ∉ rest) : (∀ c ∈ rest, c = ':' ∨ Uri.isNameChar c = true) ∧ rest.count ':' ≤ 1 := by
  obtain ⟨s, hs, hf⟩ := a.run_of_checked
  rw [ht] at hs
  -- The bracket sets the pass back, so that the state that the front has led to can be forgotten.
  obtain ⟨m, -, hm⟩ := Scan.run_append_eq_ok hs
  obtain ⟨k, hk, hr⟩ := Scan.run_cons_eq_ok hm
  rw [Scan.eq_of_step_close hk] at hr
  obtain ⟨hp, rfl⟩ := Scan.run_closed rfl rfl rfl (Nat.zero_le _) hn hr
  simp only [Scan.isFinal, Scan.after, Bool.and_eq_true, Bool.not_eq_true', Bool.false_or,
    decide_eq_true_eq, Nat.zero_add, List.contains_eq_mem, decide_eq_false_iff_not] at hf
  obtain ⟨⟨⟨-, hcolon⟩, -⟩, hpercent⟩ := hf
  refine ⟨fun c hc => ?_, hcolon⟩
  have hcp := hp c hc
  simp only [Scan.isPlain, Bool.or_eq_true, beq_iff_eq] at hcp
  obtain (he | he) | hname := hcp
  · exact .inl he
  · exact absurd (he ▸ hc) hpercent
  · exact .inr hname

/-- The remainders that the pass lets through: anything behind a colon, and more behind a
literal. -/
inductive Behind : Text → Text → Prop where
  | literal {b rest : Text} (hc : ∀ c ∈ rest, c = ':' ∨ Uri.isNameChar c = true)
      (hn : rest.count ':' ≤ 1) :
      Behind ('[' :: b ++ [']']) rest
  | name {host rest : Text} (hb : host.head? ≠ some '[') (hc : ∀ c ∈ rest.head?, c = ':') :
      Behind host rest

theorem behind_host {a : Authority} (hh : Host.Proper a.host) : Behind a.host a.remainder := by
  obtain ⟨user, -, ht⟩ := a.exists_userPart
  have hn : '@' ∉ a.host ++ a.remainder := a.host_append_remainder ▸ a.not_at_mem_hostAndPort
  generalize hb : a.host = host at hh ht hn
  cases hh with
  | @literal b _ =>
    have hl : a.text = (user ++ '[' :: b) ++ ']' :: a.remainder := by simp [ht]
    obtain ⟨hc, hcount⟩ := behind_bracket hl fun hm => hn (List.mem_append_right _ hm)
    exact .literal hc hcount
  | @name pieces hne hp =>
    -- No name starts with a bracket, so the host was cut off at a colon.
    have hs : a.host.head? ≠ some '[' := by
      rw [hb]
      intro he
      obtain he | hc := Host.eq_percent_or_isNameChar hp (List.mem_of_head? he)
      · cases he
      · cases hc
    exact .name (hb ▸ hs) (Host.head_split_snd (Host.head_split_fst hs))

end Authority
end Ingress

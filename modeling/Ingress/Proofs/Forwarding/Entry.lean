import Ingress.Forwarding
import Ingress.Proofs.Host.Grammar
import Ingress.Proofs.Text.Split
/-!
The entry of a forwarding header and what it reads as, each as a relation of its own: an entry is an
element of the list that the values form when commas join them, and the readers accept exactly the
texts of the three relations.
-/
namespace Ingress.Forwarded

/-- `e` is the first element of the list that is more than blanks, without the blanks around it. -/
def IsEntry (values : List Text) (e : Text) : Prop :=
  ∃ front x back, ([','].intercalate values).splitOn ',' = front ++ x :: back ∧
    (∀ y ∈ front, Text.trim y = []) ∧ Text.trim x = e ∧ e ≠ []

theorem elements_eq {values : List Text} (h : values ≠ []) :
    elements values = (([','].intercalate values).splitOn ',').map Text.trim := by
  rw [elements, Text.flatMap_splitOn h]

theorem first?_eq_some_iff {values : List Text} {e : Text} :
    first? values = some e ↔ IsEntry values e := by
  by_cases hv : values = []
  · subst hv
    constructor
    · intro h
      cases h
    · intro h
      obtain ⟨front, x, back, hl, -, rfl, hn⟩ := h
      have hx : x ∈ [([] : Text)] := by
        rw [List.intercalate_nil, List.splitOn_nil] at hl
        simp [hl]
      rw [List.mem_singleton.1 hx] at hn
      exact absurd rfl hn
  · rw [first?, elements_eq hv, List.find?_map, Option.map_eq_some_iff]
    simp only [List.find?_eq_some_iff_append, Function.comp_apply, Bool.not_eq_true', bne_iff_ne,
      bne_eq_false_iff_eq]
    constructor
    · intro h
      obtain ⟨x, ⟨hn, front, back, hl, hf⟩, rfl⟩ := h
      exact ⟨front, x, back, hl, hf, rfl, hn⟩
    · intro h
      obtain ⟨front, x, back, hl, hf, rfl, hn⟩ := h
      exact ⟨x, ⟨hn, front, back, hl, hf⟩, rfl⟩

/-- A single value without commas and blanks is its own entry. -/
theorem first?_singleton {t : Text} (hn : t ≠ []) (hc : ',' ∉ t)
    (hb : ∀ c ∈ t, Text.isBlank c = false) : first? [t] = some t := by
  have he : elements [t] = [t] := by
    rw [elements, List.flatMap_singleton, List.splitOn_eq_singleton hc, List.map_singleton,
      Text.trim_eq_self hb]
  rw [first?, he, List.find?_singleton, if_pos (by simpa using hn)]

/-! What an entry reads as -/

def ReadsScheme (e : Text) (s : Scheme) : Prop := s.text = e.lower

def ReadsHost (e h : Text) : Prop :=
  Host.Proper h ∧ ∃ suffix, Host.PortSuffix suffix ∧ e = h ++ suffix

/-- A decimal number that is a port; there may be zeros in front. -/
def ReadsPort (e : Text) (n : Port) : Prop :=
  e ≠ [] ∧ (∀ c ∈ e, c.isDigit = true) ∧ Nat.ofDigitChars 10 e 0 = n.toNat ∧ n ≠ 0

theorem readProto?_eq_some_iff {e : Text} {s : Scheme} :
    readProto? e = some s ↔ ReadsScheme e s := by
  constructor
  · intro h
    cases hr : Scheme.ofText e.lower with
    | ok t =>
      rw [readProto?, hr] at h
      cases h
      exact Scheme.text_of_ofText hr
    | error _ =>
      rw [readProto?, hr] at h
      cases h
  · intro h
    have hr := Scheme.ofText_text s
    rw [h] at hr
    rw [readProto?, hr]
    rfl

theorem readHost?_eq_some_iff {e h : Text} : readHost? e = some h ↔ ReadsHost e h :=
  Host.ofText?_eq_some_iff

theorem specified?_eq_some_iff {n m : Port} : Port.specified? n = some m ↔ n = m ∧ m ≠ 0 := by
  by_cases hn : n = 0
  · simp only [Port.specified?, hn, if_true]
    constructor
    · intro h
      cases h
    · intro h
      exact absurd h.1.symm h.2
  · simp only [Port.specified?, hn, if_false, Option.some.injEq]
    constructor
    · intro h
      subst h
      exact ⟨rfl, hn⟩
    · exact And.left

theorem readPort?_eq_some_iff {e : Text} {n : Port} : readPort? e = some n ↔ ReadsPort e n := by
  simp only [readPort?, Option.bind_eq_some_iff, specified?_eq_some_iff, Port.ofDigits?_eq_some_iff]
  constructor
  · intro h
    obtain ⟨m, ⟨hn, hd, hv⟩, rfl, h0⟩ := h
    exact ⟨hn, hd, hv, h0⟩
  · intro h
    obtain ⟨hn, hd, hv, h0⟩ := h
    exact ⟨n, ⟨hn, hd, hv⟩, rfl, h0⟩

variable {α : Type}

/-- What a header has to say by a way of reading, if the header is believed at all. -/
def Says (Reads : Text → α → Prop) (believed : Bool) (values : List Text) : Option α → Prop
  | some a => believed = true ∧ ∃ e, IsEntry values e ∧ Reads e a
  | none => believed = false ∨ ∀ e, IsEntry values e → ∀ a, ¬ Reads e a

theorem value_read (header : Forwarded) (read? : Text → Option α) (lookup : Lookup) :
    (read header read? lookup).value = (first? (lookup header.name)).bind read? := by
  rw [read]
  cases first? (lookup header.name) with
  | none => rfl
  | some e =>
    simp only [Option.bind_some]
    cases read? e <;> rfl

theorem says_iff {Reads : Text → α → Prop} {read? : Text → Option α}
    (hr : ∀ e a, read? e = some a ↔ Reads e a) {believed : Bool} {values : List Text}
    {o : Option α} :
    Says Reads believed values o ↔ (if believed then (first? values).bind read? else none) = o := by
  cases o with
  | some a =>
    cases believed with
    | false => simp [Says]
    | true => simp [Says, Option.bind_eq_some_iff, first?_eq_some_iff, hr]
  | none =>
    cases believed with
    | false => simp [Says]
    | true =>
      simp only [Says, ← first?_eq_some_iff, ← hr, if_true, Option.bind_eq_none_iff,
        Bool.true_eq_false, false_or]
      exact forall_congr' fun e => forall_congr' fun _ => Option.eq_none_iff_forall_ne_some.symm

end Ingress.Forwarded

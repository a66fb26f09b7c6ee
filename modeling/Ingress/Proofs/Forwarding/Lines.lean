import Mathlib
import Ingress.Proofs.Forwarding.Entry
/-!
The lines of a forwarding header. A comma separates elements just as the end of a line does, so that
it makes no difference how a list is spread over lines. Blanks in front of the entry and anything at
all behind it make none either.
-/
namespace Ingress

namespace Forwarded

/-- The characters of lines and elements without an entry. -/
def isFiller (c : Char) : Bool := c == ',' || Text.isBlank c

/-- Changes to the values of a header that leave its entry what it is. -/
inductive Reshaped : List Text → List Text → Prop where
  | regrouped {xs ys : List Text} (h : [','].intercalate xs = [','].intercalate ys) : Reshaped xs ys
  | linesBefore {xs blank : List Text} (h : ∀ t ∈ blank, ∀ c ∈ t, isFiller c = true) :
      Reshaped xs (blank ++ xs)
  | elementsBefore {x blank : Text} {xs : List Text} (h : ∀ c ∈ blank, isFiller c = true) :
      Reshaped (x :: xs) ((blank ++ ',' :: x) :: xs)
  | elementsBehind {xs : List Text} {x t e : Text} (he : IsEntry (xs ++ [x]) e) :
      Reshaped (xs ++ [x]) (xs ++ [x ++ ',' :: t])
  | linesBehind {xs more : List Text} {e : Text} (he : IsEntry xs e) : Reshaped xs (xs ++ more)

theorem elements_append (xs ys : List Text) : elements (xs ++ ys) = elements xs ++ elements ys := by
  rw [elements, List.flatMap_append, List.map_append]
  rfl

/-- A comma in a line is as good as the end of the line. -/
theorem elements_cons_comma (s t : Text) (xs : List Text) :
    elements ((s ++ ',' :: t) :: xs) = elements (s :: t :: xs) := by
  simp only [elements, List.flatMap_cons, List.splitOn_append_cons_self, List.append_assoc]

theorem first?_append (xs ys : List Text) : first? (xs ++ ys) = (first? xs).or (first? ys) := by
  rw [first?, elements_append, List.find?_append]
  rfl

theorem first?_filler {xs : List Text} (h : ∀ t ∈ xs, ∀ c ∈ t, isFiller c = true) :
    first? xs = none := by
  rw [first?, List.find?_eq_none]
  intro y hy
  obtain ⟨w, hw, rfl⟩ := List.mem_map.1 hy
  obtain ⟨t, ht, hw⟩ := List.mem_flatMap.1 hw
  have hb : ∀ c ∈ w, Text.isBlank c = true := by
    intro c hc
    have hf := h t ht c ((Text.infix_of_mem_splitOn hw).subset hc)
    have hne : c ≠ ',' := fun he => Text.not_mem_of_mem_splitOn hw (he ▸ hc)
    simpa [isFiller, hne] using hf
  simpa using Text.trim_eq_nil_iff.2 hb

theorem first?_congr {xs ys : List Text} (h : [','].intercalate xs = [','].intercalate ys) :
    first? xs = first? ys := by
  refine Option.ext fun e => ?_
  rw [first?_eq_some_iff, first?_eq_some_iff, IsEntry, IsEntry, h]

theorem first?_of_reshaped {xs ys : List Text} (h : Reshaped xs ys) : first? ys = first? xs := by
  cases h with
  | regrouped h => exact (first?_congr h).symm
  | linesBefore h => rw [first?_append, first?_filler h, Option.none_or]
  | @elementsBefore x blank xs h =>
    have hb := @first?_filler [blank] (by simpa using h)
    calc
      first? ((blank ++ ',' :: x) :: xs) = first? ([blank] ++ (x :: xs)) := by
        rw [first?, elements_cons_comma]
        rfl
      _ = first? (x :: xs) := by rw [first?_append, hb, Option.none_or]
  | @elementsBehind xs x t e he =>
    have hs : first? (xs ++ [x ++ ',' :: t]) = first? (xs ++ [x] ++ [t]) := by
      rw [first?, elements_append, elements_cons_comma, ← elements_append, List.append_assoc]
      rfl
    rw [hs, first?_append, first?_eq_some_iff.2 he, Option.some_or]
  | linesBehind he => rw [first?_append, first?_eq_some_iff.2 he, Option.some_or]

/-- An entry is a slice of one line and has neither commas nor blanks at its ends. -/
theorem slice_of_isEntry {values : List Text} {e : Text} (h : IsEntry values e) :
    e ≠ [] ∧ ',' ∉ e ∧ e.trim = e ∧ ∃ line ∈ values, e <:+: line := by
  have hf := first?_eq_some_iff.2 h
  obtain ⟨w, hw, rfl⟩ := List.mem_map.1 (List.mem_of_find?_eq_some hf)
  obtain ⟨line, hl, hw⟩ := List.mem_flatMap.1 hw
  have hi := Text.trim_infix w
  refine ⟨by simpa using List.find?_some hf, ?_, Text.trim_trim w, line, hl,
    hi.trans (Text.infix_of_mem_splitOn hw)⟩
  intro hc
  exact Text.not_mem_of_mem_splitOn hw (hi.subset hc)

/-- The events of a reading, like its result, depend on the entry alone. -/
theorem read_congr {α : Type} {header : Forwarded} (read? : Text → Option α) {l k : Lookup}
    (h : first? (l header.name) = first? (k header.name)) :
    header.read read? l = header.read read? k := by
  rw [read, read, h]

/-- Fields behind those of a request change nothing once there is an entry, whatever bytes they
hold. -/
theorem first?_textsOf_append {h : Headers} {name : FieldName} {e : Text}
    (he : IsEntry (h.textsOf name) e) (more : Headers) :
    first? (Headers.textsOf (h ++ more) name) = first? (h.textsOf name) := by
  have ht : Headers.textsOf (h ++ more) name = h.textsOf name ++ Headers.textsOf more name := by
    simp [Headers.textsOf, Headers.valuesOf]
  rw [ht]
  exact first?_of_reshaped (.linesBehind he)

end Forwarded

namespace Overrides

theorem read_congr {l k : Lookup}
    (h : ∀ f : Forwarded, Forwarded.first? (l f.name) = Forwarded.first? (k f.name)) :
    Overrides.read l = Overrides.read k := by
  rw [read, read, Forwarded.read_congr _ (h .proto), Forwarded.read_congr _ (h .host),
    Forwarded.read_congr _ (h .port)]

/-- The entry of a header is the first element that is not blank in the list that its values make,
and it comes out of a single value. Every reshaping of a header leaves what is read of it and the
event of the reading, and when all three headers are reshaped the overrides and their events are the
same. Of a request the fields that come later do not count, readable or not. -/
theorem read_of_reshaped (l k : Lookup) :
    (∀ (f : Forwarded) e, Forwarded.first? (l f.name) = some e ↔ Forwarded.IsEntry (l f.name) e) ∧
      (∀ (f : Forwarded) e, Forwarded.IsEntry (l f.name) e →
        e ≠ [] ∧ ',' ∉ e ∧ e.trim = e ∧ ∃ line ∈ l f.name, e <:+: line) ∧
      (∀ f : Forwarded, Forwarded.Reshaped (l f.name) (k f.name) →
        ∀ (α : Type) (read? : Text → Option α), f.read read? k = f.read read? l) ∧
      ((∀ f : Forwarded, Forwarded.Reshaped (l f.name) (k f.name)) →
        Overrides.read k = Overrides.read l) ∧
      ∀ (f : Forwarded) (h more : Headers) e, Forwarded.IsEntry (h.textsOf f.name) e →
        ∀ (α : Type) (read? : Text → Option α),
          f.read read? (Headers.textsOf (h ++ more)) = f.read read? h.textsOf := by
  refine ⟨fun f e => Forwarded.first?_eq_some_iff,
    fun f e he => Forwarded.slice_of_isEntry he, ?_, ?_, ?_⟩
  · intro f h α read?
    exact Forwarded.read_congr read? (Forwarded.first?_of_reshaped h)
  · intro h
    exact read_congr fun f => Forwarded.first?_of_reshaped (h f)
  · intro f h more e he α read?
    exact Forwarded.read_congr read? (Forwarded.first?_textsOf_append he more)

/-- The proto entry is refused in both shapes, and the proper one behind it does not help; the host
entry has blank elements in front in the second shape, and the list of ports is one line in the
first and two in the second. -/
theorem read_of_reshaped_relayed :
    let v := View.ofTexts "/".toList
      [("X-Forwarded-Proto".toList, " ht tp ,https".toList),
        ("X-Forwarded-Host".toList, "[::1]:80".toList),
        ("X-Forwarded-Port".toList, "443, 8080".toList)]
    let w := View.ofTexts "/".toList
      [("X-Forwarded-Proto".toList, " ht tp ,https,http".toList),
        ("X-Forwarded-Host".toList, " ,\t,[::1]:80".toList),
        ("X-Forwarded-Port".toList, "443".toList), ("X-Forwarded-Port".toList, " 8080".toList)]
    let h : Headers := [(Forwarded.proto.name, ⟨[0x77, 0x73], by decide⟩)]
    let more : Headers :=
      [(Forwarded.proto.name, ⟨[0xC3, 0xA9], by decide⟩),
        (Forwarded.proto.name, ⟨[0x68], by decide⟩)]
    (∀ f : Forwarded, Forwarded.Reshaped (v.lookup f.name) (w.lookup f.name)) ∧
      Overrides.read w.lookup = Overrides.read v.lookup ∧
      (Overrides.read v.lookup).value = ⟨none, some "[::1]".toList, some 443⟩ ∧
      (Overrides.read v.lookup).events = [.ignored .proto "ht tp".toList] ∧
      Forwarded.IsEntry (v.lookup Forwarded.proto.name) "ht tp".toList ∧
      (∃ line ∈ v.lookup Forwarded.proto.name, "ht tp".toList <:+: line) ∧
      Forwarded.IsEntry (h.textsOf Forwarded.proto.name) "ws".toList ∧
      Forwarded.proto.read Forwarded.readProto? (Headers.textsOf (h ++ more)) =
        Forwarded.proto.read Forwarded.readProto? h.textsOf := by
  intro v w h more
  have hp : v.lookup Forwarded.proto.name = [] ++ [" ht tp ,https".toList] := by cbv
  have hp' : w.lookup Forwarded.proto.name =
      [] ++ [" ht tp ,https".toList ++ ',' :: "http".toList] := by cbv
  have hh : v.lookup Forwarded.host.name = ["[::1]:80".toList] := by cbv
  have hh' : w.lookup Forwarded.host.name = [[' ', ',', '\t'] ++ ',' :: "[::1]:80".toList] := by cbv
  have hn : [','].intercalate (v.lookup Forwarded.port.name) =
      [','].intercalate (w.lookup Forwarded.port.name) := by cbv
  have he : Forwarded.IsEntry (v.lookup Forwarded.proto.name) "ht tp".toList :=
    Forwarded.first?_eq_some_iff.1 (by cbv)
  have hw : Forwarded.IsEntry (h.textsOf Forwarded.proto.name) "ws".toList :=
    Forwarded.first?_eq_some_iff.1 (by cbv)
  have hr : ∀ f : Forwarded, Forwarded.Reshaped (v.lookup f.name) (w.lookup f.name) := by
    intro f
    cases f with
    | proto =>
      rw [hp] at he
      rw [hp, hp']
      exact .elementsBehind he
    | host =>
      rw [hh, hh']
      exact .elementsBefore (by simp [Forwarded.isFiller, Text.isBlank])
    | port => exact .regrouped hn
  obtain ⟨-, hslice, -, hread, hmore⟩ := read_of_reshaped v.lookup w.lookup
  exact ⟨hr, hread hr, by cbv, by cbv, he, (hslice .proto _ he).2.2.2, hw,
    hmore .proto h more _ hw _ _⟩

end Overrides
end Ingress

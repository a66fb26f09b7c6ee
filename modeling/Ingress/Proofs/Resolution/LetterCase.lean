import Mathlib
import Ingress.Proofs.Resolution.Noninterference
import Ingress.Proofs.Resolution.Scheme
import Ingress.Proofs.Origin.Injective
import Ingress.Proofs.Uri.Reading
/-!
The case of letters does not tell in schemes. A scheme is written in the URI of a request, in the
policy that is fallen back on and in the proto header; each of the three is read as its lower case
is read, whether it is a standard scheme in another spelling or any other. So requests resolve alike
if they differ in nothing but the case of letters where a scheme is written.
-/
namespace Ingress

namespace Text

/-- Texts that differ at most in the case of letters. -/
def Recased (s t : Text) : Prop := s.lower = t.lower

instance (s t : Text) : Decidable (s.Recased t) := inferInstanceAs (Decidable (s.lower = t.lower))

theorem Recased.eq_nil_iff {s t : Text} (h : s.Recased t) : s = [] ↔ t = [] := by
  rw [← @List.map_eq_nil_iff _ _ Char.toLower s, ← @List.map_eq_nil_iff _ _ Char.toLower t]
  exact iff_of_eq (congrArg (· = []) h)

theorem toLower_eq_comma_iff (c : Char) : c.toLower = ',' ↔ c = ',' := by
  constructor
  · intro h
    obtain he | hl := toLower_eq_self_or c
    · rw [← he, h]
    · rw [h] at hl
      cases hl
  · intro h
    subst h
    rfl

theorem isBlank_toLower (c : Char) : isBlank c.toLower = isBlank c := by
  refine Bool.not_inj (toLower_of_class (p := fun c => !isBlank c) (fun c hc => ?_) c)
  have hn := Uri.isBlank_of_isNameChar
    (Uri.isNameChar_of_isAlphanum (by simp [Char.isAlphanum, hc] : c.isAlphanum = true))
  simp [hn]

theorem trimStart_lower (t : Text) : trimStart t.lower = (trimStart t).lower := by
  have hb : isBlank ∘ Char.toLower = isBlank := funext isBlank_toLower
  rw [trimStart, lower, List.dropWhile_map, hb]
  rfl

theorem reverse_lower (t : Text) : t.lower.reverse = lower t.reverse := List.map_reverse.symm

theorem trim_lower (t : Text) : trim t.lower = (trim t).lower := by
  rw [trim, trimEnd, trimStart_lower, reverse_lower, trimStart_lower, reverse_lower, trim, trimEnd]

end Text

namespace Scheme

theorem all_isSchemeChar_lower (t : Text) : t.lower.all isSchemeChar = t.all isSchemeChar := by
  rw [Text.lower, List.all_map, Function.comp_def]
  simp only [isSchemeChar_lower]

theorem forall_isSchemeChar_of_recased {s t : Text} (h : s.Recased t) :
    (∀ c ∈ s, isSchemeChar c = true) ↔ ∀ c ∈ t, isSchemeChar c = true := by
  rw [← List.all_eq_true, ← List.all_eq_true, ← all_isSchemeChar_lower s, h, all_isSchemeChar_lower]

theorem map_lower_ofText (t : Text) : (ofText t).map lower = ofText t.lower := by
  have hall := all_isSchemeChar_lower t
  by_cases hs : t.byteLength ≤ maxLength
  · by_cases hc : t.all isSchemeChar = true
    · simp [ofText, hs, hc, hall, t.byteLength_lower, Except.map, lower]
    · simp [ofText, hs, hc, hall, t.byteLength_lower, Except.map]
  · simp [ofText, hs, t.byteLength_lower, Except.map]

theorem lower_canonical (name : Text) : (canonical name).lower = name.lower := by
  rw [canonical]
  split
  · exact name.lower_lower
  · rfl

theorem lower_eq_of_recased {s t : Scheme} (h : s.text.Recased t.text) : s.lower = t.lower :=
  text_inj h

/-- Schemes that count as equal differ at most in case. -/
theorem recased_of_same {s t : Scheme} (h : s.same t = true) : s.text.Recased t.text := by
  simp only [same, Bool.or_eq_true, Bool.and_eq_true, beq_iff_eq] at h
  obtain rfl | ⟨-, hl⟩ := h
  · rfl
  · exact congrArg text hl

/-- The other way round there is an exception: a standard scheme and another spelling of it count as
different. -/
theorem same_eq_false_iff {s t : Scheme} (h : s.text.Recased t.text) :
    s.same t = false ↔ s ≠ t ∧ (s.isStandard = true ∨ t.isStandard = true) := by
  have hl := lower_eq_of_recased h
  simp only [same, hl, beq_self_eq_true, Bool.and_true, Bool.or_eq_false_iff, beq_eq_false_iff_ne,
    Bool.and_eq_false_iff, Bool.not_eq_false']

end Scheme

namespace Uri

def lowerScheme : Uri → Uri
  | absolute s a target => absolute s.lower a target
  | u => u

/-- Texts of URIs that differ at most in the case of their scheme. -/
inductive Recased : Text → Text → Prop where
  | refl (t : Text) : Recased t t
  | scheme {s t : Text} (hs : ∀ c ∈ s, Scheme.isSchemeChar c = true) (h : s.Recased t)
      (rest : Text) : Recased (s ++ ':' :: '/' :: '/' :: rest) (t ++ ':' :: '/' :: '/' :: rest)

theorem scheme?_lowerScheme (u : Uri) : u.lowerScheme.scheme? = u.scheme?.map Scheme.lower := by
  cases u <;> rfl

theorem authority?_lowerScheme (u : Uri) : u.lowerScheme.authority? = u.authority? := by
  cases u <;> rfl

theorem map_lowerScheme_ofSchemeText (s : Scheme) (t : Text) :
    (ofSchemeText s t).map lowerScheme = ofSchemeText s.lower t := by
  rw [ofSchemeText, ofSchemeText]
  split
  · rfl
  · rfl
  · rename_i a rest _
    cases Target.ofText rest <;> rfl

/-- With its scheme in lower case, a URI reads as if the scheme had been written so. -/
theorem map_lowerScheme_ofText {name t : Text} (hc : ∀ c ∈ name, Scheme.isSchemeChar c = true)
    (hn : name ≠ [] ∨ t ≠ []) :
    (ofText (name ++ ':' :: '/' :: '/' :: t)).map lowerScheme =
      if maxLength < Text.byteLength (name.lower ++ ':' :: '/' :: '/' :: t) then .error .tooLong
      else (Scheme.ofText name.lower).bind fun s => ofSchemeText s t := by
  rw [ofText_of_chars hc hn, Text.byteLength_append, Text.byteLength_append, Text.byteLength_lower,
    apply_ite (Except.map lowerScheme)]
  refine ite_congr rfl (fun _ => rfl) fun _ => ?_
  rw [← Scheme.lower_canonical, ← Scheme.map_lower_ofText]
  cases Scheme.ofText (Scheme.canonical name) with
  | error e => rfl
  | ok s => exact map_lowerScheme_ofSchemeText s t

theorem Recased.map_ofText {a b : Text} (h : Recased a b) :
    (ofText a).map lowerScheme = (ofText b).map lowerScheme := by
  cases h with
  | refl => rfl
  | @scheme s t hs h rest =>
    by_cases hn : s ≠ [] ∨ rest ≠ []
    · have ht : ∀ c ∈ t, Scheme.isSchemeChar c = true :=
        (Scheme.forall_isSchemeChar_of_recased h).1 hs
      have hm : t ≠ [] ∨ rest ≠ [] := hn.imp_left (mt h.eq_nil_iff.2)
      rw [map_lowerScheme_ofText hs hn, map_lowerScheme_ofText ht hm, h]
    · -- A bare `://` has no letters.
      simp only [not_or, not_not] at hn
      rw [hn.1, h.eq_nil_iff.1 hn.1]

end Uri

namespace View

/-- URIs of requests, read or not, that differ at most in the case of their scheme. -/
inductive RecasedUri : Except RequestError Uri → Except RequestError Uri → Prop where
  | refl (x : Except RequestError Uri) : RecasedUri x x
  | value {s t : Scheme} (h : s.text.Recased t.text) (a : Authority) (target : Target) :
      RecasedUri (.ok (.absolute s a target)) (.ok (.absolute t a target))
  | read {a b : Text} (h : Uri.Recased a b) : RecasedUri (readUri a) (readUri b)
  | readAbsolute {a b : Text} (h : Uri.Recased a b) : RecasedUri (readAbsolute a) (readAbsolute b)

theorem map_lowerScheme_readUri (t : Text) :
    (readUri t).map Uri.lowerScheme = ((Uri.ofText t).map Uri.lowerScheme).mapError .malformed := by
  rw [readUri]
  cases Uri.ofText t <;> rfl

/-- A URI that is not absolute has no scheme to lower, so that the error which carries it is the
same. -/
theorem map_lowerScheme_readAbsolute (t : Text) :
    (readAbsolute t).map Uri.lowerScheme = ((readUri t).map Uri.lowerScheme).bind fun u =>
      match u with
      | .absolute s a target => .ok (.absolute s a target)
      | u => .error (.notAbsolute u) := by
  rw [readAbsolute]
  cases readUri t with
  | error e => rfl
  | ok u => cases u <;> rfl

theorem RecasedUri.map_eq {x y : Except RequestError Uri} (h : RecasedUri x y) :
    x.map Uri.lowerScheme = y.map Uri.lowerScheme := by
  cases h with
  | refl => rfl
  | @value s t h a target =>
    change Except.ok (Uri.absolute s.lower a target) = .ok (.absolute t.lower a target)
    rw [Scheme.lower_eq_of_recased h]
  | read h => rw [map_lowerScheme_readUri, map_lowerScheme_readUri, h.map_ofText]
  | readAbsolute h =>
    rw [map_lowerScheme_readAbsolute, map_lowerScheme_readAbsolute, map_lowerScheme_readUri,
      map_lowerScheme_readUri, h.map_ofText]

/-- Requests that differ at most in the case of letters where a scheme is written. -/
structure Recased (v w : View) : Prop where
  uri : RecasedUri v.uri w.uri
  proto : (v.lookup Forwarded.proto.name).map Text.lower =
    (w.lookup Forwarded.proto.name).map Text.lower
  others : ∀ name, name ≠ Forwarded.proto.name → v.lookup name = w.lookup name

end View

namespace Forwarded

theorem elements_map_lower (values : List Text) :
    elements (values.map Text.lower) = (elements values).map Text.lower := by
  have hsplit : ∀ t : Text, t.lower.splitOn ',' = (t.splitOn ',').map Text.lower :=
    Text.splitOn_map Text.toLower_eq_comma_iff
  have htrim : Text.trim ∘ Text.lower = Text.lower ∘ Text.trim := funext Text.trim_lower
  simp only [elements, List.flatMap_map, hsplit, ← List.map_flatMap, List.map_map, htrim]

theorem first?_map_lower (values : List Text) :
    first? (values.map Text.lower) = (first? values).map Text.lower := by
  have hn : ((· != []) : Text → Bool) ∘ Text.lower = (· != []) := by
    funext t
    cases t <;> rfl
  rw [first?, elements_map_lower, List.find?_map, hn, first?]

theorem readProto?_lower (e : Text) : readProto? e.lower = readProto? e := by
  rw [readProto?, readProto?, Text.lower_lower]

/-- What is read of the proto header is what is read of it in lower case. -/
theorem bind_readProto? (values : List Text) :
    (first? values).bind readProto? = (first? (values.map Text.lower)).bind readProto? := by
  rw [first?_map_lower, Option.bind_map]
  exact congrArg _ (funext fun e => (readProto?_lower e).symm)

end Forwarded

namespace Connection

theorem ofAuthority_lower (s : Scheme) (a : Authority) :
    ofAuthority s.lower a = ofAuthority s a := by
  rw [ofAuthority, ofAuthority, s.lower_lower]

theorem ofView_lower (s : Scheme) (v : View) :
    ofView s v = ofView s.lower { v with uri := v.uri.map Uri.lowerScheme } := by
  rw [ofView, ofView]
  cases v.uri with
  | error e => rfl
  | ok u =>
    have ha : authorityOf u.lowerScheme v.lookup = authorityOf u v.lookup := by
      rw [authorityOf, authorityOf, u.authority?_lowerScheme]
    have hs : u.lowerScheme.scheme?.getD s.lower = (u.scheme?.getD s).lower := by
      rw [u.scheme?_lowerScheme, Option.getD_map]
    change (authorityOf u v.lookup >>= ofAuthority (u.scheme?.getD s)) =
      authorityOf u.lowerScheme v.lookup >>= ofAuthority (u.lowerScheme.scheme?.getD s.lower)
    rw [ha, hs]
    exact congrArg _ (funext fun a => (ofAuthority_lower _ a).symm)

end Connection

namespace TrustPolicy

/-- Policies that differ at most in the case of the scheme to fall back to. -/
structure Recased (p q : TrustPolicy) : Prop where
  believes : p.believes = q.believes
  fallback : p.fallbackScheme.text.Recased q.fallbackScheme.text

variable {p q : TrustPolicy} {v w : View}

theorem recased_of_same (h : p.same q = true) : p.Recased q := by
  simp only [same, Bool.and_eq_true, beq_iff_eq] at h
  obtain ⟨⟨⟨hp, hh⟩, hn⟩, hs⟩ := h
  refine ⟨funext fun f => ?_, Scheme.recased_of_same hs⟩
  cases f with
  | proto => exact hp
  | host => exact hh
  | port => exact hn

theorem flags_eq_of_believes (h : p.believes = q.believes) :
    p.proto = q.proto ∧ p.host = q.host ∧ p.port = q.port :=
  ⟨congrFun h .proto, congrFun h .host, congrFun h .port⟩

theorem mask_congr (h : p.believes = q.believes) : p.mask = q.mask := by
  obtain ⟨hp, hh, hn⟩ := flags_eq_of_believes h
  funext o
  rw [mask, mask, hp, hh, hn]

theorem overrides_congr (h : p.believes = q.believes) : p.overrides = q.overrides := by
  obtain ⟨hp, hh, hn⟩ := flags_eq_of_believes h
  funext lookup
  rw [overrides, overrides, mask_congr h, hp, hh, hn]

theorem Recased.ofView_eq (hp : p.Recased q) (hv : v.Recased w) :
    Connection.ofView p.fallbackScheme v = Connection.ofView q.fallbackScheme w := by
  rw [Connection.ofView_lower, Connection.ofView_lower q.fallbackScheme]
  refine Connection.ofView_congr hv.uri.map_eq (fun _ _ _ => ?_) fun _ _ _ =>
    Scheme.lower_eq_of_recased hp.fallback
  exact congrArg List.head? (hv.others .host Forwarded.proto.name_ne_host.symm)

theorem value_read_of_recased (hv : v.Recased w) :
    (Overrides.read v.lookup).value = (Overrides.read w.lookup).value := by
  rw [Overrides.value_read, Overrides.value_read, Forwarded.bind_readProto?, hv.proto,
    ← Forwarded.bind_readProto?, hv.others Forwarded.host.name (by decide),
    hv.others Forwarded.port.name (by decide)]

theorem value_resolve_of_recased (hp : p.Recased q) (hv : v.Recased w) :
    (p.resolve v).value = (q.resolve w).value := by
  rw [value_resolve, value_resolve, hp.ofView_eq hv, value_overrides, value_overrides,
    mask_congr hp.believes, value_read_of_recased hv]

/-- Reading an absolute URI first and resolving it then is resolving the view that has the reading
for its URI. -/
theorem externalUrl_eq (uri : Text) (headers : Headers) (path : Text) :
    externalUrl uri headers path = trusting.url ⟨headers.textsOf, View.readAbsolute uri⟩ path := by
  rw [externalUrl]
  cases View.readAbsolute uri with
  | ok u => rfl
  | error e => rfl

/-- Events included, policies that count as equal resolve alike. -/
theorem resolve_of_same (h : p.same q = true) (v : View) : p.resolve v = q.resolve v := by
  have hr := recased_of_same h
  have hv : v.Recased v := ⟨.refl _, rfl, fun _ _ => rfl⟩
  rw [resolve, resolve, hr.ofView_eq hv, overrides_congr hr.believes]

/-- Requests that differ in nothing but the case of letters where a scheme is written have the same
origin and the same URLs, or fail with the same error. Nor does the case tell in an origin that is
made of its parts, though a standard scheme and another spelling of it count as different schemes.
So policies that count as equal resolve every request alike. -/
theorem resolve_of_recased (hp : p.Recased q) (hv : v.Recased w) :
    (p.resolve v).value = (q.resolve w).value ∧
      (∀ path, (p.url v path).value = (q.url w path).value) ∧
      (∀ (a b : Text) (h k : Headers),
        View.Recased ⟨h.textsOf, View.readAbsolute a⟩ ⟨k.textsOf, View.readAbsolute b⟩ →
          ∀ path, (externalUrl a h path).value = (externalUrl b k path).value) ∧
      (∀ s t : Scheme, s.text.Recased t.text →
        (∀ host port, Origin.ofParts s host port = Origin.ofParts t host port) ∧
          (s.same t = false ↔ s ≠ t ∧ (s.isStandard = true ∨ t.isStandard = true))) ∧
      ∀ x y : TrustPolicy, x.same y = true → ∀ r, x.resolve r = y.resolve r := by
  refine ⟨value_resolve_of_recased hp hv, fun path => ?_, fun a b h k hr path => ?_,
    fun s t h => ⟨fun host port => ?_, ?_⟩, fun x y h r => resolve_of_same h r⟩
  · rw [value_url, value_url, value_resolve_of_recased hp hv]
  · rw [externalUrl_eq, externalUrl_eq, value_url, value_url,
      value_resolve_of_recased ⟨rfl, rfl⟩ hr]
  · rw [Origin.ofParts, Origin.ofParts, Scheme.lower_eq_of_recased h]
  · exact Scheme.same_eq_false_iff h

/-- The proto header brings in `https` in two spellings, over connections with two spellings of
`http`. A request without a scheme falls back to `HTTP`, which is no standard scheme and yet comes
to the port of one. -/
theorem resolve_of_recased_capital :
    let capital : Scheme := ⟨"HTTP".toList, by decide, by decide⟩
    let p : TrustPolicy := ⟨true, false, true, capital⟩
    let q : TrustPolicy := ⟨true, false, true, .http⟩
    let r := View.ofTexts "/app".toList [("Host".toList, "internal".toList)]
    let v : View :=
      ⟨fun name => if name = Forwarded.proto.name then [" HTTPS ,Ws".toList] else r.lookup name,
        View.readUri ("HtTp".toList ++ ':' :: '/' :: '/' :: "internal:8080/app".toList)⟩
    let w : View :=
      ⟨fun name => if name = Forwarded.proto.name then [" https ,wS".toList] else r.lookup name,
        View.readUri ("http".toList ++ ':' :: '/' :: '/' :: "internal:8080/app".toList)⟩
    let x : TrustPolicy := ⟨false, true, false, ⟨"Ws".toList, by decide, by decide⟩⟩
    let y : TrustPolicy := ⟨false, true, false, ⟨"wS".toList, by decide, by decide⟩⟩
    p.Recased q ∧ v.Recased w ∧ (p.resolve v).value = (q.resolve w).value ∧
      (p.url v "x".toList).value = .ok "https://internal/x".toList ∧ r.Recased r ∧
      (p.resolve r).value = (q.resolve r).value ∧
      (p.resolve r).value = .ok ⟨.http, "internal".toList, 80⟩ ∧
      (externalUrl ("WsS".toList ++ "://[::1]/".toList) [] []).value =
        (externalUrl ("wss".toList ++ "://[::1]/".toList) [] []).value ∧
      capital.same .http = false ∧
      Origin.ofParts capital "[::1]:1".toList 80 = Origin.ofParts .http "[::1]:1".toList 80 ∧
      x.same y = true ∧ x.resolve v = y.resolve v := by
  intro capital p q r v w x y
  have hp : p.Recased q := ⟨rfl, rfl⟩
  have hproto : (v.lookup Forwarded.proto.name).map Text.lower =
      (w.lookup Forwarded.proto.name).map Text.lower := by cbv
  have hothers : ∀ name, name ≠ Forwarded.proto.name → v.lookup name = w.lookup name :=
    fun name hn => (if_neg hn).trans (if_neg hn).symm
  have huri := @Uri.Recased.scheme "HtTp".toList "http".toList (List.all_eq_true.1 (by decide))
    (by decide)
  have hwss := @Uri.Recased.scheme "WsS".toList "wss".toList (List.all_eq_true.1 (by decide))
    (by decide)
  have hv : v.Recased w := ⟨.read (huri "internal:8080/app".toList), hproto, hothers⟩
  have hr : r.Recased r := ⟨.refl _, rfl, fun _ _ => rfl⟩
  have hurl : (p.url v "x".toList).value = .ok "https://internal/x".toList := by cbv
  have hfallback : (p.resolve r).value = .ok ⟨.http, "internal".toList, 80⟩ := by cbv
  have hdiffer : capital.same .http = false := by decide
  have hxy : x.same y = true := by decide
  obtain ⟨horigin, -, hexternal, hparts, hsame⟩ := resolve_of_recased hp hv
  have hrelative := (resolve_of_recased hp hr).1
  have habsolute := hexternal _ _ [] []
    ⟨.readAbsolute (hwss "[::1]/".toList), rfl, fun _ _ => rfl⟩ []
  exact ⟨hp, hv, horigin, hurl, hr, hrelative, hfallback, habsolute, hdiffer,
    (hparts capital .http rfl).1 _ 80, hxy,
    hsame x y hxy v⟩

end TrustPolicy
end Ingress

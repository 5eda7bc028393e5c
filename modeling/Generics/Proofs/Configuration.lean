import Generics.Options.Text
import Generics.Proofs.Json.Reading
import Generics.Proofs.Lists

/-!
# Options survive JSON

Whatever the options are, their text is read back as these options.  And a text need not be one that
was rendered: of any JSON object the known members are read, wherever they stand and however their
keys are written, the others are skipped, and what is missing has its default.
-/

namespace Generics

/-! ## Decimal digits -/

/-- The decimal digits of a number have no leading zeros. -/
theorem exists_toDigits_eq_cons {n : Nat} (hn : 0 < n) :
    ∃ d ds, Nat.toDigits 10 n = d :: ds ∧ d ≠ '0' := by
  induction n using Nat.strongRecOn with
  | _ n ih =>
    by_cases hlt : n < 10
    · have hchar : ∀ m < 10, 0 < m → m.digitChar ≠ '0' := by decide
      exact ⟨n.digitChar, [], Nat.toDigits_of_lt_base hlt, hchar n hlt hn⟩
    · obtain ⟨d, ds, heq, hd⟩ := ih (n / 10) (by omega) (by omega)
      exact ⟨d, _, by rw [Nat.toDigits_of_base_le (by decide) (by omega), heq]; rfl, hd⟩

theorem digits_toDigits (n : Nat) : Json.Digits (Nat.toDigits 10 n) where
  ne_nil := Nat.toDigits_ne_nil
  isDigit _ hc := Nat.isDigit_of_mem_toDigits (by decide) (by decide) hc

theorem integral_toDigits (n : Nat) : Json.Integral (Nat.toDigits 10 n) := by
  rcases Nat.eq_zero_or_pos n with rfl | hn
  · exact .zero
  · have hdigits := digits_toDigits n
    obtain ⟨d, ds, heq, hd⟩ := exists_toDigits_eq_cons hn
    rw [heq] at hdigits ⊢
    exact .digits hd hdigits

theorem number_toDigits (n : Nat) : Json.Number (Nat.toDigits 10 n) := by
  simpa using Json.Number.positive (.mk (integral_toDigits n) .absent .absent)

theorem ofDigits_toDigits (n : Nat) : Json.ofDigits (Nat.toDigits 10 n) = n :=
  Nat.ofDigitChars_ten_toDigits

/-! ## Values -/

theorem Ambiguity.ofName?_name (a : Ambiguity) : ofName? a.name.toList = some a := by
  cases a <;> decide

namespace Json

/-- The documents that mean a policy. -/
inductive MeansAmbiguity : Json → Ambiguity → Prop
  | string {raw : List Char} {a : Ambiguity} (h : Denotes raw a.name.toList) :
      MeansAmbiguity (string raw) a
  /-- The policy is the only key of an object. -/
  | object {raw : List Char} {a : Ambiguity} (h : Denotes raw a.name.toList) :
      MeansAmbiguity (object [(raw, null)]) a

/-- The document that means a number of 32 bits: its decimal digits. -/
def MeansWord (j : Json) (n : UInt32) : Prop := j = number (Nat.toDigits 10 n.toNat)

theorem MeansAmbiguity.toAmbiguity? {j : Json} {a : Ambiguity} (h : MeansAmbiguity j a) :
    j.toAmbiguity? = some a := by
  cases h with
  | string h => rw [Json.toAmbiguity?, decode_of_denotes h, Option.bind_some, a.ofName?_name]
  | object h => rw [Json.toAmbiguity?, decode_of_denotes h, Option.bind_some, a.ofName?_name]

theorem MeansWord.toWord? {j : Json} {n : UInt32} (h : MeansWord j n) : j.toWord? = some n := by
  obtain rfl := h
  have hdigits : (Nat.toDigits 10 n.toNat).all Char.isDigit :=
    List.all_eq_true.2 (digits_toDigits n.toNat).isDigit
  rw [Json.toWord?, if_pos ⟨hdigits, by rw [ofDigits_toDigits]; exact n.toNat_lt⟩, ofDigits_toDigits,
    UInt32.ofNat_toNat]

/-! ## Members -/

/-- The values of the members whose keys denote `name`, in order.  Every key denotes something. -/
inductive ValuesOf (name : List Char) : List (List Char × Json) → List Json → Prop
  | nil : ValuesOf name [] []
  | here {key : List Char} {j : Json} {ms : List (List Char × Json)} {js : List Json}
      (hkey : Denotes key name) (h : ValuesOf name ms js) : ValuesOf name ((key, j) :: ms) (j :: js)
  | skip {key other : List Char} {j : Json} {ms : List (List Char × Json)} {js : List Json}
      (hkey : Denotes key other) (hne : other ≠ name) (h : ValuesOf name ms js) :
      ValuesOf name ((key, j) :: ms) js

/-- A field that is set to `x` or missing: at most one member has its name, and that means `x`. -/
def Sets {α : Type} (Means : Json → α → Prop) (name : String) (ms : List (List Char × Json))
    (x : Option α) : Prop :=
  ∃ js, ValuesOf name.toList ms js ∧ List.Forall₂ Means js x.toList

section

variable {α : Type} {Means : Json → α → Prop} {name : String} {key k : List Char} {j : Json}
  {ms : List (List Char × Json)} {x : Option α}

theorem Sets.exists_decode (h : Sets Means name ((key, j) :: ms) x) : ∃ k, decode key = some k := by
  obtain ⟨js, hjs, -⟩ := h
  cases hjs with
  | here hkey => exact ⟨_, decode_of_denotes hkey⟩
  | skip hkey => exact ⟨_, decode_of_denotes hkey⟩

/-- A member with the name of the field sets it, and no later one does. -/
theorem Sets.tail_of_eq (h : Sets Means name ((key, j) :: ms) x) (hkey : decode key = some name.toList) :
    ∃ a, x = some a ∧ Means j a ∧ Sets Means name ms none := by
  obtain ⟨js, hjs, hx⟩ := h
  cases hjs with
  | skip hother hne =>
    rw [decode_of_denotes hother] at hkey
    exact absurd (Option.some.inj hkey) hne
  | here _ hjs =>
    cases x with
    | none => cases hx
    | some a =>
      obtain ⟨ha, hnil⟩ := List.forall₂_cons.1 hx
      exact ⟨a, rfl, ha, _, hjs, hnil⟩

/-- A member with another name leaves the field to the later ones. -/
theorem Sets.tail_of_ne (h : Sets Means name ((key, j) :: ms) x) (hkey : decode key = some k)
    (hne : k ≠ name.toList) : Sets Means name ms x := by
  obtain ⟨js, hjs, hx⟩ := h
  cases hjs with
  | skip _ _ hjs => exact ⟨js, hjs, hx⟩
  | here hname =>
    rw [decode_of_denotes hname] at hkey
    exact absurd (Option.some.inj hkey).symm hne

theorem Sets.eq_none_of_nil (h : Sets Means name [] x) : x = none := by
  obtain ⟨js, hjs, hx⟩ := h
  cases hjs
  cases x with
  | none => rfl
  | some a => cases hx

end

end Json

/-! ## Fields -/

namespace Options

open Json

namespace Fields

variable {f g : Fields} {key k : List Char} {j : Json} {ms : List (List Char × Json)}

/-- The members of an object set exactly the fields `f`, each at most once and with valid values. -/
structure SetBy (f : Fields) (ms : List (List Char × Json)) : Prop where
  ambiguity : Sets MeansAmbiguity "ambiguity" ms f.ambiguity
  maxDepth : Sets MeansWord "maxDepth" ms f.maxDepth
  maxIterations : Sets MeansWord "maxIterations" ms f.maxIterations

/-- No field is set on both sides. -/
structure Apart (g f : Fields) : Prop where
  ambiguity : g.ambiguity = none ∨ f.ambiguity = none
  maxDepth : g.maxDepth = none ∨ f.maxDepth = none
  maxIterations : g.maxIterations = none ∨ f.maxIterations = none

/-- The fields on either side. -/
def or (g f : Fields) : Fields where
  ambiguity := g.ambiguity.or f.ambiguity
  maxDepth := g.maxDepth.or f.maxDepth
  maxIterations := g.maxIterations.or f.maxIterations

theorem addMember_ambiguity {a : Ambiguity} (hkey : decode key = some "ambiguity".toList)
    (hg : g.ambiguity = none) (ha : j.toAmbiguity? = some a) :
    g.addMember key j = some { g with ambiguity := some a } := by
  rw [addMember, hkey, Option.bind_eq_bind, Option.bind_some, if_pos rfl, hg, ha]
  rfl

theorem addMember_maxDepth {n : UInt32} (hkey : decode key = some "maxDepth".toList)
    (hg : g.maxDepth = none) (hn : j.toWord? = some n) :
    g.addMember key j = some { g with maxDepth := some n } := by
  rw [addMember, hkey, Option.bind_eq_bind, Option.bind_some, if_neg (by decide), if_pos rfl, hg, hn]
  rfl

theorem addMember_maxIterations {n : UInt32} (hkey : decode key = some "maxIterations".toList)
    (hg : g.maxIterations = none) (hn : j.toWord? = some n) :
    g.addMember key j = some { g with maxIterations := some n } := by
  rw [addMember, hkey, Option.bind_eq_bind, Option.bind_some, if_neg (by decide),
    if_neg (by decide), if_pos rfl, hg, hn]
  rfl

theorem addMember_other (hkey : decode key = some k) (ha : k ≠ "ambiguity".toList)
    (hd : k ≠ "maxDepth".toList) (hi : k ≠ "maxIterations".toList) : g.addMember key j = some g := by
  rw [addMember, hkey, Option.bind_eq_bind, Option.bind_some, if_neg ha, if_neg hd, if_neg hi]
  rfl

/-- Every key of an object that options are read from denotes something. -/
theorem exists_decode_of_foldlM
    (h : ms.foldlM (fun (f : Fields) (key, value) => f.addMember key value) g = some f) :
    ∀ m ∈ ms, ∃ k, decode m.1 = some k := by
  refine (of_foldlM_eq_some (R := fun _ _ => True)
    (P := fun (m : List Char × Json) (_ : Fields) => ∃ k, decode m.1 = some k)
    (fun _ => trivial) (fun _ _ _ _ _ => trivial) (fun _ _ _ _ hk => hk) ?_ h).2
  intro m _ f f' _ hstep
  obtain ⟨k, hk, -⟩ := Option.bind_eq_some_iff.1 hstep
  exact ⟨trivial, k, hk⟩

/-- One member adds what it sets to the fields that were found before: what is left to the later ones
makes up for it. -/
theorem exists_addMember (hf : f.SetBy ((key, j) :: ms)) (hapart : g.Apart f) :
    ∃ g' f', g.addMember key j = some g' ∧ SetBy f' ms ∧ Apart g' f' ∧ g'.or f' = g.or f := by
  obtain ⟨k, hkey⟩ := hf.ambiguity.exists_decode
  by_cases ha : k = "ambiguity".toList
  · subst ha
    obtain ⟨a, hfa, hmeans, hrest⟩ := hf.ambiguity.tail_of_eq hkey
    have hg : g.ambiguity = none := hapart.ambiguity.resolve_right (by simp [hfa])
    refine ⟨{ g with ambiguity := some a }, { f with ambiguity := none },
      addMember_ambiguity hkey hg hmeans.toAmbiguity?, ⟨hrest, ?_, ?_⟩,
      ⟨.inr rfl, hapart.maxDepth, hapart.maxIterations⟩, by simp [or, hfa, hg]⟩
    · exact hf.maxDepth.tail_of_ne hkey (by decide)
    · exact hf.maxIterations.tail_of_ne hkey (by decide)
  by_cases hd : k = "maxDepth".toList
  · subst hd
    obtain ⟨n, hfn, hmeans, hrest⟩ := hf.maxDepth.tail_of_eq hkey
    have hg : g.maxDepth = none := hapart.maxDepth.resolve_right (by simp [hfn])
    refine ⟨{ g with maxDepth := some n }, { f with maxDepth := none },
      addMember_maxDepth hkey hg hmeans.toWord?, ⟨?_, hrest, ?_⟩,
      ⟨hapart.ambiguity, .inr rfl, hapart.maxIterations⟩, by simp [or, hfn, hg]⟩
    · exact hf.ambiguity.tail_of_ne hkey ha
    · exact hf.maxIterations.tail_of_ne hkey (by decide)
  by_cases hi : k = "maxIterations".toList
  · subst hi
    obtain ⟨n, hfn, hmeans, hrest⟩ := hf.maxIterations.tail_of_eq hkey
    have hg : g.maxIterations = none := hapart.maxIterations.resolve_right (by simp [hfn])
    refine ⟨{ g with maxIterations := some n }, { f with maxIterations := none },
      addMember_maxIterations hkey hg hmeans.toWord?, ⟨?_, ?_, hrest⟩,
      ⟨hapart.ambiguity, hapart.maxDepth, .inr rfl⟩, by simp [or, hfn, hg]⟩
    · exact hf.ambiguity.tail_of_ne hkey ha
    · exact hf.maxDepth.tail_of_ne hkey hd
  · refine ⟨g, f, addMember_other hkey ha hd hi, ⟨?_, ?_, ?_⟩, hapart, rfl⟩
    · exact hf.ambiguity.tail_of_ne hkey ha
    · exact hf.maxDepth.tail_of_ne hkey hd
    · exact hf.maxIterations.tail_of_ne hkey hi

/-- Members add what they set to the fields that were found before. -/
theorem foldlM_addMember (hf : f.SetBy ms) (hapart : g.Apart f) :
    ms.foldlM (fun (f : Fields) (key, value) => f.addMember key value) g = some (g.or f) := by
  induction ms generalizing f g with
  | nil =>
    rw [List.foldlM_nil, or, hf.ambiguity.eq_none_of_nil, hf.maxDepth.eq_none_of_nil,
      hf.maxIterations.eq_none_of_nil]
    simp
  | cons m ms ih =>
    obtain ⟨g', f', hstep, hf', hapart', hor⟩ := exists_addMember hf hapart
    rw [List.foldlM_cons, ← hor]
    exact Option.bind_eq_some_iff.2 ⟨g', hstep, ih hf' hapart'⟩

/-- What the members of an object set is what is read from them. -/
theorem SetBy.foldlM (hf : f.SetBy ms) :
    ms.foldlM (fun (f : Fields) (key, value) => f.addMember key value) {} = some f :=
  foldlM_addMember hf ⟨.inl rfl, .inl rfl, .inl rfl⟩

end Fields

/-! ## Rendered options -/

theorem value_word (n : UInt32) :
    Value (.number (toString n.toNat).toList) (Json.number (toString n.toNat).toList).render := by
  rw [Nat.toString_eq_ofList_toDigits, String.toList_ofList, Json.render]
  exact .number (number_toDigits n.toNat)

theorem meansWord_toString (n : UInt32) : MeansWord (.number (toString n.toNat).toList) n := by
  rw [MeansWord, Nat.toString_eq_ofList_toDigits, String.toList_ofList]

theorem value_name (a : Ambiguity) : Value (.string a.name.toList) (Json.string a.name.toList).render := by
  rw [Json.render]
  exact .string (by cases a <;> decide)

/-- The text of some options is a text of their document. -/
theorem element_render (o : Options) : Element o.toJson o.toJson.render := by
  refine (object_render (List.cons_ne_nil _ _) fun m hm => ?_).element
  simp only [List.mem_cons, List.not_mem_nil, or_false] at hm
  obtain rfl | rfl | rfl := hm
  · exact ⟨(by decide : Content "ambiguity".toList), value_name o.ambiguity⟩
  · exact ⟨(by decide : Content "maxDepth".toList), value_word o.limits.maxDepth⟩
  · exact ⟨(by decide : Content "maxIterations".toList),
      value_word o.limits.maxIterations⟩

/-- The document of some options sets every field. -/
theorem setBy_toJson (o : Options) :
    ∃ ms, o.toJson = .object ms ∧ Fields.SetBy
      ⟨some o.ambiguity, some o.limits.maxDepth, some o.limits.maxIterations⟩ ms := by
  have hambiguity : Denotes "ambiguity".toList "ambiguity".toList :=
    denotes_of_decode (by decide +kernel) (by decide +kernel)
  have hmaxDepth : Denotes "maxDepth".toList "maxDepth".toList :=
    denotes_of_decode (by decide +kernel) (by decide +kernel)
  have hmaxIterations : Denotes "maxIterations".toList "maxIterations".toList :=
    denotes_of_decode (by decide +kernel) (by decide +kernel)
  have hname : Denotes o.ambiguity.name.toList o.ambiguity.name.toList :=
    denotes_of_decode (by cases o.ambiguity <;> decide +kernel)
      (by cases o.ambiguity <;> decide +kernel)
  refine ⟨_, rfl, ⟨_, .here hambiguity (.skip hmaxDepth ?_ (.skip hmaxIterations ?_ .nil)),
      List.forall₂_cons.2 ⟨.string hname, .nil⟩⟩,
    ⟨_, .skip hambiguity ?_ (.here hmaxDepth (.skip hmaxIterations ?_ .nil)),
      List.forall₂_cons.2 ⟨meansWord_toString _, .nil⟩⟩,
    ⟨_, .skip hambiguity ?_ (.skip hmaxDepth ?_ (.here hmaxIterations .nil)),
      List.forall₂_cons.2 ⟨meansWord_toString _, .nil⟩⟩⟩ <;> decide

/-! ## Options survive JSON -/

/-- What is set by the members of an object is read from every text of it. -/
theorem parse?_of_element {text : String} {ms : List (List Char × Json)} {f : Fields}
    (htext : Element (.object ms) text.toList) (hf : f.SetBy ms) : parse? text = some f.toOptions := by
  rw [parse?, read?_eq_some_iff.2 htext, Option.bind_some, ofJson?, hf.foldlM, Option.map_some]

/-- An object with a key that denotes nothing is not read. -/
theorem parse?_eq_none_of_element {text : String} {ms : List (List Char × Json)}
    (htext : Element (.object ms) text.toList) (h : ∃ m ∈ ms, ∀ name, ¬Denotes m.1 name) :
    parse? text = none := by
  obtain ⟨m, hm, hkey⟩ := h
  rw [parse?, read?_eq_some_iff.2 htext, Option.bind_some, ofJson?, Option.map_eq_none_iff,
    Option.eq_none_iff_forall_ne_some]
  intro f hf
  obtain ⟨k, hk⟩ := Fields.exists_decode_of_foldlM hf m hm
  exact hkey k (denotes_of_decode (htext.content_of_object m hm) hk)

/-- Options survive JSON: their own text is read back as them, and from every text of an object in
which each of the three known members occurs at most once, with a valid value, the defaults
overwritten by these members are read, whatever the other members are.  Only an object with a key that
denotes nothing, as half of a surrogate pair does, is not read. -/
theorem parse?_survives :
    (∀ o : Options, parse? (render o) = some o) ∧
      (∀ (text : String) (ms : List (List Char × Json)) (a : Option Ambiguity) (d i : Option UInt32),
        Element (.object ms) text.toList →
        Sets MeansAmbiguity "ambiguity" ms a → Sets MeansWord "maxDepth" ms d →
        Sets MeansWord "maxIterations" ms i →
        let default : Options := {}
        parse? text = some
          { ambiguity := a.getD default.ambiguity
            limits :=
              { maxDepth := d.getD default.limits.maxDepth
                maxIterations := i.getD default.limits.maxIterations } }) ∧
      ∀ (text : String) (ms : List (List Char × Json)), Element (.object ms) text.toList →
        (∃ m ∈ ms, ∀ name, ¬Denotes m.1 name) → parse? text = none := by
  refine ⟨?_, ?_, fun text ms => parse?_eq_none_of_element⟩
  · intro o
    obtain ⟨ms, hms, hset⟩ := setBy_toJson o
    have helement := element_render o
    rw [hms, ← String.toList_ofList (l := (Json.object ms).render)] at helement
    rw [render, hms, parse?_of_element helement hset]
    rfl
  · intro text ms a d i htext ha hd hi
    exact parse?_of_element (f := ⟨a, d, i⟩) htext ⟨ha, hd, hi⟩

/-- An object with an unknown key twice, the second time with half of a surrogate pair as its value, a
limit whose key is written with an escape, and a policy as the only key of an object. -/
def sampleText : String :=
  "\x7b\"x\": [1e5,[ ]],\"max\\u0044epth\":7,\"x\":\"\\ud800\",\"ambiguity\":\x7b\"firstMatch\":null\x7d\x7d"

@[inherit_doc sampleText]
def sampleMembers : List (List Char × Json) :=
  [("x".toList, .array [.number "1e5".toList, .array []]),
    ("max\\u0044epth".toList, .number "7".toList),
    ("x".toList, .string "\\ud800".toList),
    ("ambiguity".toList, .object [("firstMatch".toList, .null)])]

theorem element_sampleText : Element (.object sampleMembers) sampleText.toList := by
  have hblank : Blank [' '] := by decide
  have hitem : Value (.number "1e5".toList) "1e5".toList := .number (by decide)
  have hnested := Value.emptyArray hblank
  have harray := Value.array (.more hitem.element (.last hnested.element))
  have hdepth : Value (.number "7".toList) "7".toList := .number (by decide)
  have hhalf := Value.string (by decide : Content "\\ud800".toList)
  have hpolicy := Value.object
    (.last (.mk blank_nil (by decide : Content "firstMatch".toList) blank_nil Value.null.element))
  have hmembers := Members.more
    (.mk blank_nil (by decide : Content "x".toList) blank_nil (.mk hblank harray blank_nil)) <| .more
    (.mk blank_nil (by decide : Content "max\\u0044epth".toList) blank_nil hdepth.element) <| .more
    (.mk blank_nil (by decide : Content "x".toList) blank_nil hhalf.element) <| .last
    (.mk blank_nil (by decide : Content "ambiguity".toList) blank_nil hpolicy.element)
  refine Eq.subst (motive := Element (.object sampleMembers)) ?_ (Value.object hmembers).element
  rfl

/-- An object whose key is half of a surrogate pair. -/
def oddText : String := "\x7b\"\\ud800\":7\x7d"

theorem parse?_survives_sample :
    parse? sampleText =
        some { ambiguity := .firstMatch, limits := { maxDepth := 7, maxIterations := 100000 } } ∧
      parse? oddText = none := by
  constructor
  · have hx : Denotes "x".toList "x".toList := denotes_of_decode (by decide +kernel) (by decide +kernel)
    have hambiguity : Denotes "ambiguity".toList "ambiguity".toList :=
      denotes_of_decode (by decide +kernel) (by decide +kernel)
    have hpolicy : Denotes "firstMatch".toList Ambiguity.firstMatch.name.toList :=
      denotes_of_decode (by decide +kernel) (by decide +kernel)
    have hmaxDepth : Denotes "max\\u0044epth".toList "maxDepth".toList :=
      denotes_of_decode (by decide +kernel) (by decide +kernel)
    refine parse?_survives.2.1 sampleText sampleMembers (some .firstMatch) (some 7) none
      element_sampleText
      ⟨_, .skip hx ?_ (.skip hmaxDepth ?_ (.skip hx ?_ (.here hambiguity .nil))),
        List.forall₂_cons.2 ⟨.object hpolicy, .nil⟩⟩
      ⟨_, .skip hx ?_ (.here hmaxDepth (.skip hx ?_ (.skip hambiguity ?_ .nil))),
        List.forall₂_cons.2 ⟨rfl, .nil⟩⟩
      ⟨_, .skip hx ?_ (.skip hmaxDepth ?_ (.skip hx ?_ (.skip hambiguity ?_ .nil))), .nil⟩ <;> decide
  · have hmembers : Members [("\\ud800".toList, .number "7".toList)] _ := .last (.mk blank_nil
      (by decide) blank_nil (Value.number (by decide : Number "7".toList)).element)
    have htext : Element (.object [("\\ud800".toList, .number "7".toList)]) oddText.toList := by
      refine Eq.subst (motive := Element _) ?_ (Value.object hmembers).element
      rfl
    refine parse?_survives.2.2 oddText _ htext ⟨_, List.mem_cons_self .., fun name h => ?_⟩
    have hnone : decode "\\ud800".toList = none := by decide +kernel
    exact absurd (hnone.symm.trans (decode_of_denotes h)) (Option.some_ne_none name).symm

end Options

end Generics

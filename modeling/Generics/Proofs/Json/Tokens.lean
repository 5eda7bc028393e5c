import Generics.Proofs.Json.Grammar
import Mathlib.Data.List.DropRight
import Mathlib.Data.List.TakeDrop

/-!
# Reading tokens

The readers of blanks, numbers and strings take from a text what the grammar calls a token, and what
the grammar calls a token they take as a whole.  A number has no closing sign: it is read to its end
only if the text behind it does not go on with it.
-/

namespace Generics

namespace Json

variable {cs rest ds text raw name : List Char}

/-! ## Blanks -/

theorem skipBlanks_append {ws : List Char} (h : Blank ws) (cs : List Char) :
    skipBlanks (ws ++ cs) = skipBlanks cs :=
  List.dropWhile_append_of_pos h

theorem skipBlanks_of_blank {ws : List Char} (h : Blank ws) : skipBlanks ws = [] :=
  List.dropWhile_eq_nil_iff.2 h

theorem skipBlanks_cons {c : Char} (h : isBlank c = false) (cs : List Char) :
    skipBlanks (c :: cs) = c :: cs :=
  List.dropWhile_cons_of_neg (by simp [h])

theorem skipBlanks_append_cons {ws : List Char} {c : Char} (h : Blank ws) (hc : isBlank c = false)
    (cs : List Char) : skipBlanks (ws ++ c :: cs) = c :: cs := by
  rw [skipBlanks_append h, skipBlanks_cons hc]

@[simp]
theorem skipBlanks_skipBlanks (cs : List Char) : skipBlanks (skipBlanks cs) = skipBlanks cs :=
  List.dropWhile_idempotent ..

/-- What is skipped is blank. -/
theorem exists_blank (cs : List Char) : ∃ ws, Blank ws ∧ cs = ws ++ skipBlanks cs :=
  ⟨cs.takeWhile isBlank, fun _ hc => List.mem_takeWhile_imp hc, List.takeWhile_append_dropWhile.symm⟩

/-! ## Digits -/

/-- A text with which no number goes on. -/
def Stops (rest : List Char) : Prop := ∀ c ∈ rest.head?, ¬c.isDigit ∧ c ≠ '.' ∧ c ≠ 'e' ∧ c ≠ 'E'

theorem readDigits_append (h : Digits ds) (hrest : ∀ c ∈ rest.head?, ¬c.isDigit) :
    readDigits (ds ++ rest) = some (ds, rest) := by
  have hspan : spanDigits (ds ++ rest) = (ds, rest) := by
    rw [spanDigits, List.span_eq_takeWhile_dropWhile, List.takeWhile_append_of_pos h.isDigit,
      List.dropWhile_append_of_pos h.isDigit]
    cases rest with
    | nil => simp
    | cons c rest => simp [hrest c rfl]
  rw [readDigits, hspan]
  cases ds with
  | nil => exact absurd rfl h.ne_nil
  | cons d ds => rfl

theorem of_readDigits (h : readDigits cs = some (ds, rest)) : Digits ds ∧ cs = ds ++ rest := by
  rw [readDigits, spanDigits, List.span_eq_takeWhile_dropWhile] at h
  split at h
  · simp at h
  · rename_i hne
    obtain ⟨rfl, rfl⟩ := Prod.mk.inj (Option.some.inj h)
    exact ⟨⟨fun hnil => hne _ (by rw [hnil]), fun c hc => List.mem_takeWhile_imp hc⟩,
      List.takeWhile_append_dropWhile.symm⟩

/-! ## Numbers -/

theorem readIntegral_append (h : Integral text) (hrest : ∀ c ∈ rest.head?, ¬c.isDigit) :
    readIntegral (text ++ rest) = some (text, rest) := by
  cases h with
  | zero => rfl
  | @digits d ds hd h =>
    rw [List.cons_append, readIntegral, ← List.cons_append]
    · exact readDigits_append h hrest
    · simpa using hd

theorem of_readIntegral (h : readIntegral cs = some (text, rest)) :
    Integral text ∧ cs = text ++ rest := by
  unfold readIntegral at h
  split at h
  · obtain ⟨rfl, rfl⟩ := Prod.mk.inj (Option.some.inj h)
    exact ⟨.zero, rfl⟩
  · rename_i hne
    obtain ⟨hds, rfl⟩ := of_readDigits h
    cases text with
    | nil => exact absurd rfl hds.ne_nil
    | cons d ds => exact ⟨.digits (fun hd => hne (ds ++ rest) (by rw [hd]; rfl)) hds, rfl⟩

theorem readFraction_append (h : Fraction text)
    (hrest : ∀ c ∈ rest.head?, ¬c.isDigit ∧ c ≠ '.') :
    readFraction (text ++ rest) = some (text, rest) := by
  cases h with
  | absent =>
    rw [List.nil_append, readFraction]
    rintro rest' rfl
    exact (hrest '.' rfl).2 rfl
  | digits h =>
    rw [List.cons_append, readFraction, readDigits_append h fun c hc => (hrest c hc).1]
    rfl

theorem of_readFraction (h : readFraction cs = some (text, rest)) :
    Fraction text ∧ cs = text ++ rest := by
  unfold readFraction at h
  split at h
  · obtain ⟨⟨ds, rest'⟩, hds, h⟩ := Option.bind_eq_some_iff.1 h
    obtain ⟨rfl, rfl⟩ := Prod.mk.inj (Option.some.inj h)
    obtain ⟨hdigits, rfl⟩ := of_readDigits hds
    exact ⟨.digits hdigits, rfl⟩
  · obtain ⟨rfl, rfl⟩ := Prod.mk.inj (Option.some.inj h)
    exact ⟨.absent, rfl⟩

theorem readSign_append {sign : List Char} (h : Sign sign) (hds : Digits ds) (rest : List Char) :
    readSign (sign ++ (ds ++ rest)) = (sign, ds ++ rest) := by
  cases h with
  | plus => rfl
  | minus => rfl
  | absent =>
    cases ds with
    | nil => exact absurd rfl hds.ne_nil
    | cons d ds =>
      have hd := hds.isDigit d (List.mem_cons_self ..)
      rw [List.nil_append, List.cons_append, readSign] <;>
        · rintro rest' heq
          rw [(List.cons.inj heq).1] at hd
          exact absurd hd (by decide)

theorem of_readSign {sign : List Char} (h : readSign cs = (sign, rest)) :
    Sign sign ∧ cs = sign ++ rest := by
  unfold readSign at h
  split at h <;> obtain ⟨rfl, rfl⟩ := Prod.mk.inj h
  · exact ⟨.plus, rfl⟩
  · exact ⟨.minus, rfl⟩
  · exact ⟨.absent, rfl⟩

theorem readExponent_append (h : Exponent text) (hrest : Stops rest) :
    readExponent (text ++ rest) = some (text, rest) := by
  cases h with
  | absent =>
    cases rest with
    | nil => rfl
    | cons c rest =>
      have hc := hrest c rfl
      rw [List.nil_append, readExponent, if_neg (by simp [hc])]
  | @digits e sign ds he hs h =>
    have hds := readDigits_append h fun c hc => (hrest c hc).1
    simp only [List.cons_append, List.append_assoc, readExponent, if_pos he, readSign_append hs h,
      hds]
    rfl

theorem of_readExponent (h : readExponent cs = some (text, rest)) :
    Exponent text ∧ cs = text ++ rest := by
  unfold readExponent at h
  split at h
  · obtain ⟨rfl, rfl⟩ := Prod.mk.inj (Option.some.inj h)
    exact ⟨.absent, rfl⟩
  · split at h
    · rename_i e tail he
      rcases htail : readSign tail with ⟨sign, digits⟩
      rw [htail] at h
      obtain ⟨⟨ds, rest'⟩, hds, h⟩ := Option.bind_eq_some_iff.1 h
      obtain ⟨rfl, rfl⟩ := Prod.mk.inj (Option.some.inj h)
      obtain ⟨hsign, rfl⟩ := of_readSign htail
      obtain ⟨hdigits, rfl⟩ := of_readDigits hds
      exact ⟨.digits he hsign hdigits, by simp⟩
    · obtain ⟨rfl, rfl⟩ := Prod.mk.inj (Option.some.inj h)
      exact ⟨.absent, rfl⟩

/-- What follows the digits before an exponent does not continue them. -/
theorem Exponent.head_append (h : Exponent text) (hrest : Stops rest) :
    ∀ c ∈ (text ++ rest).head?, ¬c.isDigit ∧ c ≠ '.' := by
  cases h with
  | absent => exact fun c hc => ⟨(hrest c hc).1, (hrest c hc).2.1⟩
  | digits he =>
    intro c hc
    obtain rfl := Option.some.inj hc
    rcases he with rfl | rfl <;> decide

/-- What follows the digits before a fraction does not continue them. -/
theorem Fraction.head_append (h : Fraction text) (hrest : ∀ c ∈ rest.head?, ¬c.isDigit) :
    ∀ c ∈ (text ++ rest).head?, ¬c.isDigit := by
  cases h with
  | absent => exact hrest
  | digits =>
    intro c hc
    obtain rfl := Option.some.inj hc
    decide

theorem readUnsigned_append (h : Unsigned text) (hrest : Stops rest) :
    readUnsigned (text ++ rest) = some (text, rest) := by
  cases h with
  | @mk i f e hi hf he =>
    have hexponent := he.head_append hrest
    have hfraction := hf.head_append fun c hc => (hexponent c hc).1
    simp only [List.append_assoc, readUnsigned, readIntegral_append hi hfraction,
      readFraction_append hf hexponent, readExponent_append he hrest, Option.bind_eq_bind,
      Option.bind_some, Option.pure_def]

theorem of_readUnsigned (h : readUnsigned cs = some (text, rest)) :
    Unsigned text ∧ cs = text ++ rest := by
  obtain ⟨⟨i, cs₁⟩, hi, h⟩ := Option.bind_eq_some_iff.1 h
  obtain ⟨⟨f, cs₂⟩, hf, h⟩ := Option.bind_eq_some_iff.1 h
  obtain ⟨⟨e, cs₃⟩, he, h⟩ := Option.bind_eq_some_iff.1 h
  obtain ⟨rfl, rfl⟩ := Prod.mk.inj (Option.some.inj h)
  obtain ⟨hintegral, rfl⟩ := of_readIntegral hi
  obtain ⟨hfraction, rfl⟩ := of_readFraction hf
  obtain ⟨hexponent, rfl⟩ := of_readExponent he
  exact ⟨.mk hintegral hfraction hexponent, by simp⟩

/-- The characters with which a number begins. -/
def startsNumber (c : Char) : Bool := c == '-' || c.isDigit

theorem Integral.exists_head (h : Integral text) :
    ∃ c tail, text = c :: tail ∧ c.isDigit := by
  cases h with
  | zero => exact ⟨_, _, rfl, by decide⟩
  | digits hd h => exact ⟨_, _, rfl, h.isDigit _ (List.mem_cons_self ..)⟩

theorem Unsigned.exists_head (h : Unsigned text) :
    ∃ c tail, text = c :: tail ∧ c.isDigit := by
  cases h with
  | mk hi =>
    obtain ⟨c, tail, rfl, hc⟩ := hi.exists_head
    exact ⟨c, _, rfl, hc⟩

theorem Number.exists_head (h : Number text) :
    ∃ c tail, text = c :: tail ∧ startsNumber c := by
  cases h with
  | positive h =>
    obtain ⟨c, tail, rfl, hc⟩ := h.exists_head
    exact ⟨c, tail, rfl, by simp [startsNumber, hc]⟩
  | negative h => exact ⟨_, _, rfl, rfl⟩

theorem readNumber_append (h : Number text) (hrest : Stops rest) :
    readNumber (text ++ rest) = some (text, rest) := by
  cases h with
  | positive h =>
    obtain ⟨c, tail, rfl, hc⟩ := h.exists_head
    rw [List.cons_append, readNumber, ← List.cons_append]
    · exact readUnsigned_append h hrest
    · rintro rest' heq
      rw [(List.cons.inj heq).1] at hc
      exact absurd hc (by decide)
  | negative h =>
    rw [List.cons_append, readNumber, readUnsigned_append h hrest]
    rfl

theorem of_readNumber (h : readNumber cs = some (text, rest)) : Number text ∧ cs = text ++ rest := by
  unfold readNumber at h
  split at h
  · obtain ⟨⟨text', rest'⟩, hread, h⟩ := Option.bind_eq_some_iff.1 h
    obtain ⟨rfl, rfl⟩ := Prod.mk.inj (Option.some.inj h)
    obtain ⟨hnumber, rfl⟩ := of_readUnsigned hread
    exact ⟨.negative hnumber, rfl⟩
  · obtain ⟨hnumber, rfl⟩ := of_readUnsigned h
    exact ⟨.positive hnumber, rfl⟩

theorem stops_nil : Stops [] := nofun

/-- Whether a text is a number is decided by reading it. -/
instance (text : List Char) : Decidable (Number text) :=
  decidable_of_iff (readNumber text = some (text, []))
    ⟨fun h => (of_readNumber h).1, fun h => by simpa using readNumber_append h stops_nil⟩

/-! ## Strings -/

theorem ne_of_escaped? {e c : Char} (h : escaped? e = some c) : e ≠ 'u' := by
  rintro rfl
  simp [escaped?] at h

theorem readQuoted_append (h : Content raw) (rest : List Char) :
    readQuoted (raw ++ '"' :: rest) = some (raw, rest) := by
  induction h with
  | nil => rw [List.nil_append, readQuoted]
  | plain hquote hescape hcontrol _ ih =>
    rw [List.cons_append, readQuoted, if_neg hcontrol, ih]
    · rfl
    all_goals simp_all
  | escape he _ ih =>
    rw [List.cons_append, List.cons_append, readQuoted, he, ih]
    · rfl
    · simp [ne_of_escaped? he]
  | unit hu _ ih =>
    simp only [List.cons_append]
    rw [readQuoted, hu, ih]
    rfl

theorem of_readQuoted (h : readQuoted cs = some (raw, rest)) :
    Content raw ∧ cs = raw ++ '"' :: rest := by
  fun_induction readQuoted cs generalizing raw with
  | case1 => simp at h
  | case2 rest' =>
    obtain ⟨rfl, rfl⟩ := Prod.mk.inj (Option.some.inj h)
    exact ⟨.nil, rfl⟩
  | case3 a b c d tail ih =>
    obtain ⟨u, hu, h⟩ := Option.bind_eq_some_iff.1 h
    obtain ⟨⟨raw', rest'⟩, hread, h⟩ := Option.bind_eq_some_iff.1 h
    obtain ⟨rfl, rfl⟩ := Prod.mk.inj (Option.some.inj h)
    obtain ⟨hcontent, rfl⟩ := ih hread
    exact ⟨.unit hu hcontent, rfl⟩
  | case4 e tail hunit ih =>
    obtain ⟨c, hc, h⟩ := Option.bind_eq_some_iff.1 h
    obtain ⟨⟨raw', rest'⟩, hread, h⟩ := Option.bind_eq_some_iff.1 h
    obtain ⟨rfl, rfl⟩ := Prod.mk.inj (Option.some.inj h)
    obtain ⟨hcontent, rfl⟩ := ih hread
    exact ⟨.escape hc hcontent, rfl⟩
  | case5 => simp at h
  | case6 c tail hquote hunit hescape hcontrol ih =>
    obtain ⟨⟨raw', rest'⟩, hread, h⟩ := Option.bind_eq_some_iff.1 h
    obtain ⟨rfl, rfl⟩ := Prod.mk.inj (Option.some.inj h)
    obtain ⟨hcontent, rfl⟩ := ih hread
    -- a backslash would be read together with the character behind it
    have hplain : c ≠ '\\' := by
      rintro rfl
      obtain ⟨e, tail', htail⟩ := List.exists_cons_of_ne_nil
        (List.append_ne_nil_of_right_ne_nil raw' (List.cons_ne_nil '"' rest'))
      exact hescape e tail' rfl htail
    exact ⟨.plain hquote hplain hcontrol hcontent, rfl⟩

/-- Whether a text may stand between quotes is decided by reading it. -/
instance (raw : List Char) : Decidable (Content raw) :=
  decidable_of_iff (readQuoted (raw ++ ['"']) = some (raw, []))
    ⟨fun h => (of_readQuoted h).1, fun h => readQuoted_append h []⟩

theorem isLowSurrogate_of_high {u : Nat} (h : isHighSurrogate u) : isLowSurrogate u = false := by
  simp only [isHighSurrogate, Bool.and_eq_true, decide_eq_true_eq] at h
  simp only [isLowSurrogate, Bool.and_eq_false_iff, decide_eq_false_iff_not]
  omega

/-- What the content of a string denotes is decoded. -/
theorem decode_of_denotes (h : Denotes raw name) : decode raw = some name := by
  induction h with
  | nil => rw [decode]
  | plain hescape _ ih =>
    rw [decode, ih]
    · rfl
    all_goals simp_all
  | escape he _ ih =>
    rw [decode, he, ih]
    · rfl
    · simp [ne_of_escaped? he]
  | unit hu hhigh hlow _ ih =>
    rw [decode, hu, ih]
    simp [hhigh, hlow]
  | pair hu hhigh hw hlow _ ih =>
    rw [decode, hu]
    simp [hhigh, isLowSurrogate_of_high hhigh, hw, hlow, ih]

theorem Content.of_unit {a b c d : Char}
    (h : Content ('\\' :: 'u' :: a :: b :: c :: d :: raw)) : Content raw := by
  cases h with
  | plain _ hescape => exact absurd rfl hescape
  | escape he => exact absurd rfl (ne_of_escaped? he)
  | unit _ h => exact h

theorem Content.of_escape {e c : Char} (h : Content ('\\' :: e :: raw)) (he : escaped? e = some c) :
    Content raw := by
  cases h with
  | plain _ hescape => exact absurd rfl hescape
  | escape _ h => exact h
  | unit => exact absurd rfl (ne_of_escaped? he)

theorem Content.of_plain {c : Char} (h : Content (c :: raw)) (hc : c ≠ '\\') : Content raw := by
  cases h with
  | plain _ _ _ h => exact h
  | escape => exact absurd rfl hc
  | unit => exact absurd rfl hc

/-- What is decoded is what the content of a string denotes. -/
theorem denotes_of_decode (hraw : Content raw) (h : decode raw = some name) : Denotes raw name := by
  fun_induction decode raw generalizing name with
  | case1 =>
    obtain rfl := Option.some.inj h
    exact .nil
  | case2 a b c d rest ihpair ih =>
    obtain ⟨u, hu, hlater⟩ := Option.bind_eq_some_iff.1 h
    have hrest := hraw.of_unit
    split at hlater
    · simp at hlater
    rename_i hlow
    split at hlater
    · -- a high surrogate needs a low one
      rename_i hhigh
      split at hlater
      · obtain ⟨w, hw, hlater⟩ := Option.bind_eq_some_iff.1 hlater
        split at hlater
        · rename_i hwlow
          obtain ⟨cs, hcs, hname⟩ := Option.bind_eq_some_iff.1 hlater
          obtain rfl := Option.some.inj hname
          exact .pair hu hhigh hw hwlow (ihpair hrest.of_unit hcs)
        · simp at hlater
      · simp at hlater
    · rename_i hhigh
      obtain ⟨cs, hcs, hname⟩ := Option.bind_eq_some_iff.1 hlater
      obtain rfl := Option.some.inj hname
      exact .unit hu (Bool.eq_false_iff.2 hhigh) (Bool.eq_false_iff.2 hlow)
        (ih hrest hcs)
  | case3 e rest _ ih =>
    obtain ⟨c, he, hlater⟩ := Option.bind_eq_some_iff.1 h
    obtain ⟨cs, hcs, hname⟩ := Option.bind_eq_some_iff.1 hlater
    obtain rfl := Option.some.inj hname
    exact .escape he (ih (hraw.of_escape he) hcs)
  | case4 c rest _ hescape ih =>
    obtain ⟨cs, hcs, hname⟩ := Option.bind_eq_some_iff.1 h
    obtain rfl := Option.some.inj hname
    have hplain : c ≠ '\\' := by
      rintro rfl
      cases hraw with
      | plain _ hne => exact hne rfl
      | escape => exact hescape _ _ rfl rfl
      | unit => exact hescape _ _ rfl rfl
    exact .plain hplain (ih (hraw.of_plain hplain) hcs)

end Json

end Generics

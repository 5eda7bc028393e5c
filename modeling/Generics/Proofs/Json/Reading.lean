import Generics.Proofs.Json.Tokens

/-!
# Reading documents

The reader accepts exactly the texts of the grammar, and it gives each the document that it is a text
of.  Both directions follow the recursion of the reader and of the grammar.  The fuel never runs out:
twice the length of a text suffices for it.
-/

namespace Generics

namespace Json

variable {n : Nat} {c : Char} {j : Json} {js : List Json} {m : List Char × Json}
  {ms : List (List Char × Json)} {cs rest text raw : List Char}

/-! ## First characters -/

/-- The characters with which a document begins. -/
def startsValue (c : Char) : Bool := startsNumber c || c ∈ ['n', 't', 'f', '"', '[', '\x7b']

theorem isBlank_of_startsValue (h : startsValue c) : isBlank c = false := by
  rw [← Bool.not_eq_true]
  intro hblank
  simp only [isBlank, Bool.or_eq_true, beq_iff_eq] at hblank
  obtain ((rfl | rfl) | rfl) | rfl := hblank <;> exact absurd h (by decide)

theorem startsValue_of_startsNumber (h : startsNumber c) : startsValue c := by
  rw [startsValue, h, Bool.true_or]

theorem Value.exists_head (h : Value j cs) : ∃ c tail, cs = c :: tail ∧ startsValue c := by
  cases h with
  | number h =>
    obtain ⟨c, tail, rfl, hc⟩ := h.exists_head
    exact ⟨c, tail, rfl, startsValue_of_startsNumber hc⟩
  | _ => exact ⟨_, _, rfl, by decide⟩

theorem Element.exists_head (h : Element j cs) :
    ∃ ws c tail, Blank ws ∧ cs = ws ++ c :: tail ∧ startsValue c := by
  cases h with
  | @mk _ ws _ _ hws h =>
    obtain ⟨c, tail, rfl, hc⟩ := h.exists_head
    exact ⟨ws, c, _, hws, List.append_assoc .., hc⟩

theorem Elements.exists_head (h : Elements js cs) :
    ∃ ws c tail, Blank ws ∧ cs = ws ++ c :: tail ∧ startsValue c := by
  cases h with
  | last h => exact h.exists_head
  | more h =>
    obtain ⟨ws, c, tail, hws, rfl, hc⟩ := h.exists_head
    exact ⟨ws, c, _, hws, List.append_assoc .., hc⟩

theorem Member.exists_head (h : Member m cs) : ∃ ws tail, Blank ws ∧ cs = ws ++ '"' :: tail := by
  cases h with
  | @mk key _ ws ws' cs hws =>
    exact ⟨ws, key ++ '"' :: ws' ++ ':' :: cs, hws, by simp⟩

theorem Members.exists_head (h : Members ms cs) : ∃ ws tail, Blank ws ∧ cs = ws ++ '"' :: tail := by
  cases h with
  | last h => exact h.exists_head
  | more h =>
    obtain ⟨ws, tail, hws, rfl⟩ := h.exists_head
    exact ⟨ws, _, hws, List.append_assoc ..⟩

/-! ## What follows a document -/

theorem stops_cons (h : ¬c.isDigit ∧ c ≠ '.' ∧ c ≠ 'e' ∧ c ≠ 'E') (cs : List Char) : Stops (c :: cs) := by
  intro d hd
  obtain rfl := Option.some.inj hd
  exact h

theorem Stops.blank_append {ws : List Char} (hws : Blank ws) (h : Stops rest) : Stops (ws ++ rest) := by
  cases ws with
  | nil => exact h
  | cons c ws =>
    have hc := hws c (List.mem_cons_self ..)
    simp only [isBlank, Bool.or_eq_true, beq_iff_eq] at hc
    obtain ((rfl | rfl) | rfl) | rfl := hc <;> exact stops_cons (by decide) _

/-! ## One step of the reader -/

theorem readValue_blank_append {ws : List Char} (h : Blank ws) (n : Nat) (cs : List Char) :
    readValue n (ws ++ cs) = readValue n cs := by
  cases n with
  | zero => rw [readValue, readValue]
  | succ n => rw [readValue, readValue, skipBlanks_append h]

theorem readValue_skipBlanks (n : Nat) (cs : List Char) :
    readValue n (skipBlanks cs) = readValue n cs := by
  obtain ⟨ws, hws, hcs⟩ := exists_blank cs
  conv_rhs => rw [hcs, readValue_blank_append hws]

theorem readItems_skipBlanks (n : Nat) (cs : List Char) :
    readItems n (skipBlanks cs) = readItems n cs := by
  cases n with
  | zero => rw [readItems, readItems]
  | succ n => rw [readItems, readItems, readValue_skipBlanks]

theorem readMembers_skipBlanks (n : Nat) (cs : List Char) :
    readMembers n (skipBlanks cs) = readMembers n cs := by
  cases n with
  | zero => rw [readMembers, readMembers]
  | succ n => rw [readMembers, readMembers, skipBlanks_skipBlanks]

theorem readValue_string (n : Nat) (cs : List Char) :
    readValue (n + 1) ('"' :: cs) = (readQuoted cs).map fun r => (string r.1, r.2) := by
  rw [readValue, skipBlanks_cons rfl]
  change (readQuoted cs).bind (fun r => some (string r.1, r.2)) = _
  cases readQuoted cs <;> rfl

theorem readValue_number (hc : startsNumber c) (n : Nat) (cs : List Char) :
    readValue (n + 1) (c :: cs) = (readNumber (c :: cs)).map fun r => (number r.1, r.2) := by
  rw [readValue, skipBlanks_cons (isBlank_of_startsValue (startsValue_of_startsNumber hc))]
  split
  case h_7 => cases readNumber (c :: cs) <;> rfl
  all_goals
    rename_i heq
    rw [(List.cons.inj heq).1] at hc
    exact absurd hc (by decide)

theorem readValue_array (n : Nat) (cs : List Char) :
    readValue (n + 1) ('[' :: cs) =
      if (skipBlanks cs).head? = some ']' then some (array [], (skipBlanks cs).tail)
      else (readItems n cs).map fun r => (array r.1, r.2) := by
  rw [readValue, skipBlanks_cons rfl]
  split
  case h_5 tail heq =>
    obtain rfl : cs = tail := (List.cons.inj heq).2
    split
    · rename_i hend
      rw [hend]
      rfl
    · rename_i hne
      rw [if_neg, readItems_skipBlanks]
      · cases readItems n cs <;> rfl
      · intro hhead
        obtain ⟨tail, htail⟩ := List.head?_eq_some_iff.1 hhead
        exact hne tail htail
  case h_7 hne _ => exact absurd rfl (hne cs)
  all_goals simp at *

theorem readValue_object (n : Nat) (cs : List Char) :
    readValue (n + 1) ('\x7b' :: cs) =
      if (skipBlanks cs).head? = some '\x7d' then some (object [], (skipBlanks cs).tail)
      else (readMembers n cs).map fun r => (object r.1, r.2) := by
  rw [readValue, skipBlanks_cons rfl]
  split
  case h_6 tail heq =>
    obtain rfl : cs = tail := (List.cons.inj heq).2
    split
    · rename_i hend
      rw [hend]
      rfl
    · rename_i hne
      rw [if_neg, readMembers_skipBlanks]
      · cases readMembers n cs <;> rfl
      · intro hhead
        obtain ⟨tail, htail⟩ := List.head?_eq_some_iff.1 hhead
        exact hne tail htail
  case h_7 hne => exact absurd rfl (hne cs)
  all_goals simp at *

/-- The members of an object from the first on, when the text behind the first is `rest`. -/
def membersFrom (n : Nat) (m : List Char × Json) (rest : List Char) :
    Option (List (List Char × Json) × List Char) :=
  match skipBlanks rest with
  | ',' :: rest => do
    let (members, rest) ← readMembers n rest
    pure (m :: members, rest)
  | '\x7d' :: rest => pure ([m], rest)
  | _ => none

theorem membersFrom_blank_append {ws : List Char} (h : Blank ws) (n : Nat) (m : List Char × Json)
    (rest : List Char) : membersFrom n m (ws ++ rest) = membersFrom n m rest := by
  rw [membersFrom, membersFrom, skipBlanks_append h]

theorem membersFrom_comma (n : Nat) (m : List Char × Json) (rest : List Char) :
    membersFrom n m (',' :: rest) = (readMembers n rest).map fun r => (m :: r.1, r.2) := by
  rw [membersFrom, skipBlanks_cons rfl]
  change (readMembers n rest).bind (fun r => some (m :: r.1, r.2)) = _
  cases readMembers n rest <;> rfl

theorem membersFrom_end (n : Nat) (m : List Char × Json) (rest : List Char) :
    membersFrom n m ('\x7d' :: rest) = some ([m], rest) := by
  rw [membersFrom, skipBlanks_cons rfl]
  rfl

theorem readMembers_append {ws ws' key : List Char} (hws : Blank ws) (hkey : Content key)
    (hws' : Blank ws') (n : Nat) (cs : List Char) :
    readMembers (n + 1) (ws ++ '"' :: key ++ '"' :: ws' ++ ':' :: cs) =
      (readValue n cs).bind fun v => membersFrom n (key, v.1) v.2 := by
  have hread := readQuoted_append hkey (ws' ++ ':' :: cs)
  simp only [readMembers, List.append_assoc, List.cons_append,
    skipBlanks_append hws, skipBlanks_cons (c := '"') rfl, hread, Option.bind_eq_bind,
    Option.bind_some, skipBlanks_append hws', skipBlanks_cons (c := ':') rfl]
  cases readValue n cs with
  | none => rfl
  | some v => rfl

/-! ## Texts of the grammar are read -/

/-- The items of an array do not begin with the end of the array. -/
theorem Elements.head?_ne (h : Elements js cs) (rest : List Char) :
    (skipBlanks (cs ++ rest)).head? ≠ some ']' := by
  obtain ⟨ws, c, tail, hws, rfl, hc⟩ := h.exists_head
  rw [List.append_assoc, List.cons_append,
    skipBlanks_append_cons hws (isBlank_of_startsValue hc), List.head?_cons]
  rintro heq
  rw [Option.some.inj heq] at hc
  exact absurd hc (by decide)

/-- The members of an object do not begin with the end of the object. -/
theorem Members.head?_ne (h : Members ms cs) (rest : List Char) :
    (skipBlanks (cs ++ rest)).head? ≠ some '\x7d' := by
  obtain ⟨ws, tail, hws, rfl⟩ := h.exists_head
  rw [List.append_assoc, List.cons_append, skipBlanks_append_cons hws rfl, List.head?_cons]
  decide

theorem length_pos_of_value (h : Value j cs) : 0 < cs.length := by
  obtain ⟨c, tail, rfl, -⟩ := h.exists_head
  exact Nat.zero_lt_succ _

mutual

theorem Value.reads {j : Json} {cs rest : List Char} {n : Nat} (h : Value j cs)
    (hn : 2 * cs.length ≤ n) (hrest : Stops rest) : readValue n (cs ++ rest) = some (j, rest) := by
  obtain ⟨n, rfl⟩ : ∃ m, n = m + 1 := by
    have := length_pos_of_value h
    exact Nat.exists_eq_succ_of_ne_zero (by omega)
  cases h with
  | null => rw [readValue]; rfl
  | true => rw [readValue]; rfl
  | false => rw [readValue]; rfl
  | number h =>
    obtain ⟨c, tail, rfl, hc⟩ := h.exists_head
    rw [List.cons_append, readValue_number hc, ← List.cons_append, readNumber_append h hrest]
    rfl
  | @string raw h =>
    have hread := readQuoted_append h rest
    simp only [List.cons_append, List.append_assoc, List.nil_append, readValue_string, hread]
    rfl
  | emptyArray h =>
    simp only [List.cons_append, List.append_assoc, List.nil_append, readValue_array,
      skipBlanks_append_cons h (c := ']') rfl]
    rfl
  | @array items cs h =>
    simp only [List.length_append, List.length_cons, List.length_nil] at hn
    have hread := h.reads rest (n := n) (by omega)
    simp only [List.cons_append, List.append_assoc, List.nil_append, readValue_array,
      if_neg (h.head?_ne (']' :: rest)), hread]
    rfl
  | emptyObject h =>
    simp only [List.cons_append, List.append_assoc, List.nil_append, readValue_object,
      skipBlanks_append_cons h (c := '\x7d') rfl]
    rfl
  | @object members cs h =>
    simp only [List.length_append, List.length_cons, List.length_nil] at hn
    have hread := h.reads rest (n := n) (by omega)
    simp only [List.cons_append, List.append_assoc, List.nil_append, readValue_object,
      if_neg (h.head?_ne ('\x7d' :: rest)), hread]
    rfl

theorem Element.reads {j : Json} {cs rest : List Char} {n : Nat} (h : Element j cs)
    (hn : 2 * cs.length ≤ n) (hrest : Stops rest) :
    ∃ ws, Blank ws ∧ readValue n (cs ++ rest) = some (j, ws ++ rest) := by
  cases h with
  | @mk _ ws cs ws' hws h hws' =>
    simp only [List.length_append] at hn
    have hread := h.reads (n := n) (by omega) (hrest.blank_append hws')
    refine ⟨ws', hws', ?_⟩
    rw [List.append_assoc, List.append_assoc, readValue_blank_append hws, hread]

theorem Elements.reads {js : List Json} {cs : List Char} {n : Nat} (h : Elements js cs)
    (rest : List Char) (hn : 2 * cs.length + 1 ≤ n) : readItems n (cs ++ ']' :: rest) = some (js, rest) := by
  obtain ⟨n, rfl⟩ : ∃ m, n = m + 1 := Nat.exists_eq_succ_of_ne_zero (by omega)
  cases h with
  | last h =>
    obtain ⟨ws, hws, hread⟩ := h.reads (n := n) (by omega)
      (stops_cons (c := ']') (by decide) rest)
    rw [readItems, hread]
    simp only [Option.bind_eq_bind, Option.bind_some, skipBlanks_append_cons hws (c := ']') rfl,
      Option.pure_def]
  | @more j js cs rest' h hrest =>
    simp only [List.length_append, List.length_cons] at hn
    obtain ⟨ws, hws, hread⟩ := h.reads (n := n) (by omega)
      (stops_cons (c := ',') (by decide) (rest' ++ ']' :: rest))
    have hread' := hrest.reads rest (n := n) (by omega)
    rw [List.append_assoc, List.cons_append, readItems, hread]
    simp only [Option.bind_eq_bind, Option.bind_some, skipBlanks_append_cons hws (c := ',') rfl,
      hread', Option.pure_def]

theorem Member.reads {m : List Char × Json} {cs rest : List Char} {n : Nat} (h : Member m cs)
    (hn : 2 * cs.length ≤ n) (hrest : Stops rest) :
    readMembers (n + 1) (cs ++ rest) = membersFrom n m rest := by
  cases h with
  | @mk key j ws ws' cs hws hkey hws' h =>
    simp only [List.length_append, List.length_cons] at hn
    obtain ⟨ws, hblank, hread⟩ := h.reads (n := n) (by omega) hrest
    rw [List.append_assoc, List.cons_append, readMembers_append hws hkey hws', hread,
      Option.bind_some, membersFrom_blank_append hblank]

theorem Members.reads {ms : List (List Char × Json)} {cs : List Char} {n : Nat}
    (h : Members ms cs) (rest : List Char) (hn : 2 * cs.length + 1 ≤ n) :
    readMembers n (cs ++ '\x7d' :: rest) = some (ms, rest) := by
  obtain ⟨n, rfl⟩ : ∃ m, n = m + 1 := Nat.exists_eq_succ_of_ne_zero (by omega)
  cases h with
  | last h =>
    have hstops : Stops ('\x7d' :: rest) := stops_cons (by decide) rest
    rw [h.reads (by omega) hstops, membersFrom_end]
  | @more m ms cs rest' h hrest =>
    simp only [List.length_append, List.length_cons] at hn
    have hstops : Stops (',' :: (rest' ++ '\x7d' :: rest)) := stops_cons (by decide) _
    have hread := hrest.reads rest (n := n) (by omega)
    rw [List.append_assoc, List.cons_append, h.reads (by omega) hstops, membersFrom_comma, hread]
    rfl

end

/-! ## What is read is a text of the grammar -/

/-- With fuel `n` only texts of the grammar are read. -/
structure Sound (n : Nat) : Prop where
  value {cs rest : List Char} {j : Json} (h : readValue n cs = some (j, rest)) :
    ∃ ws text, Blank ws ∧ Value j text ∧ cs = ws ++ text ++ rest
  items {cs rest : List Char} {js : List Json} (h : readItems n cs = some (js, rest)) :
    ∃ text, Elements js text ∧ cs = text ++ ']' :: rest
  members {cs rest : List Char} {ms : List (List Char × Json)}
    (h : readMembers n cs = some (ms, rest)) : ∃ text, Members ms text ∧ cs = text ++ '\x7d' :: rest

theorem sound_zero : Sound 0 where
  value h := by simp [readValue] at h
  items h := by simp [readItems] at h
  members h := by simp [readMembers] at h

theorem Sound.value_succ (hn : Sound n) (h : readValue (n + 1) cs = some (j, rest)) :
    ∃ text, Value j text ∧ skipBlanks cs = text ++ rest := by
  rw [readValue] at h
  split at h
  case h_1 heq | h_2 heq | h_3 heq =>
    obtain ⟨rfl, rfl⟩ := Prod.mk.inj (Option.some.inj h)
    exact ⟨_, by constructor, heq⟩
  case h_4 tail heq =>
    obtain ⟨⟨raw, rest'⟩, hread, h⟩ := Option.bind_eq_some_iff.1 h
    obtain ⟨rfl, rfl⟩ := Prod.mk.inj (Option.some.inj h)
    obtain ⟨hcontent, rfl⟩ := of_readQuoted hread
    exact ⟨_, .string hcontent, by rw [heq]; simp⟩
  case h_5 tail heq =>
    obtain ⟨ws, hws, htail⟩ := exists_blank tail
    split at h
    · rename_i rest' hend
      obtain ⟨rfl, rfl⟩ := Prod.mk.inj (Option.some.inj h)
      exact ⟨_, .emptyArray hws, by rw [heq, htail, hend]; simp⟩
    · obtain ⟨⟨items, rest'⟩, hread, h⟩ := Option.bind_eq_some_iff.1 h
      obtain ⟨rfl, rfl⟩ := Prod.mk.inj (Option.some.inj h)
      rw [readItems_skipBlanks] at hread
      obtain ⟨text, htext, rfl⟩ := hn.items hread
      exact ⟨_, .array htext, by rw [heq]; simp⟩
  case h_6 tail heq =>
    obtain ⟨ws, hws, htail⟩ := exists_blank tail
    split at h
    · rename_i rest' hend
      obtain ⟨rfl, rfl⟩ := Prod.mk.inj (Option.some.inj h)
      exact ⟨_, .emptyObject hws, by rw [heq, htail, hend]; simp⟩
    · obtain ⟨⟨members, rest'⟩, hread, h⟩ := Option.bind_eq_some_iff.1 h
      obtain ⟨rfl, rfl⟩ := Prod.mk.inj (Option.some.inj h)
      rw [readMembers_skipBlanks] at hread
      obtain ⟨text, htext, rfl⟩ := hn.members hread
      exact ⟨_, .object htext, by rw [heq]; simp⟩
  case h_7 =>
    obtain ⟨⟨text, rest'⟩, hread, h⟩ := Option.bind_eq_some_iff.1 h
    obtain ⟨rfl, rfl⟩ := Prod.mk.inj (Option.some.inj h)
    obtain ⟨hnumber, heq⟩ := of_readNumber hread
    exact ⟨text, .number hnumber, heq⟩

/-- A document with the blanks on both sides of it. -/
theorem element_of_skipBlanks {ws tail : List Char} (hws : Blank ws) (htext : Value j text)
    (hcs : cs = ws ++ text ++ tail) :
    ∃ element, Element j element ∧ cs = element ++ skipBlanks tail := by
  obtain ⟨ws', hws', htail⟩ := exists_blank tail
  exact ⟨_, .mk hws htext hws', by rw [hcs, List.append_assoc (ws ++ text), ← htail]⟩

theorem Sound.items_succ (hn : Sound n) (h : readItems (n + 1) cs = some (js, rest)) :
    ∃ text, Elements js text ∧ cs = text ++ ']' :: rest := by
  rw [readItems] at h
  obtain ⟨⟨j, tail⟩, hread, hcont⟩ := Option.bind_eq_some_iff.1 h
  obtain ⟨ws, text, hws, htext, hcs⟩ := hn.value hread
  obtain ⟨element, helement, heq⟩ := element_of_skipBlanks hws htext hcs
  dsimp only at hcont
  split at hcont
  · rename_i tail' hcomma
    obtain ⟨⟨items, rest'⟩, hread', hdone⟩ := Option.bind_eq_some_iff.1 hcont
    obtain ⟨rfl, rfl⟩ := Prod.mk.inj (Option.some.inj hdone)
    obtain ⟨text', htext', rfl⟩ := hn.items hread'
    exact ⟨_, .more helement htext', by rw [heq, hcomma]; simp⟩
  · rename_i tail' hend
    obtain ⟨rfl, rfl⟩ := Prod.mk.inj (Option.some.inj hcont)
    exact ⟨_, .last helement, by rw [heq, hend]⟩
  · simp at hcont

/-- What is read as the members from `m` on are the members behind `m`, or none. -/
theorem Sound.of_membersFrom (hn : Sound n) (hm : Member m text)
    (h : membersFrom n m cs = some (ms, rest)) :
    ∃ text', Members ms text' ∧ text ++ skipBlanks cs = text' ++ '\x7d' :: rest := by
  unfold membersFrom at h
  split at h
  · rename_i tail hcomma
    obtain ⟨⟨members, rest'⟩, hread, hdone⟩ := Option.bind_eq_some_iff.1 h
    obtain ⟨rfl, rfl⟩ := Prod.mk.inj (Option.some.inj hdone)
    obtain ⟨text', htext', rfl⟩ := hn.members hread
    exact ⟨_, .more hm htext', by rw [hcomma]; simp⟩
  · rename_i tail hend
    obtain ⟨rfl, rfl⟩ := Prod.mk.inj (Option.some.inj h)
    exact ⟨_, .last hm, by rw [hend]⟩
  · simp at h

theorem Sound.members_succ (hn : Sound n) (h : readMembers (n + 1) cs = some (ms, rest)) :
    ∃ text, Members ms text ∧ cs = text ++ '\x7d' :: rest := by
  obtain ⟨ws, hws, hcs⟩ := exists_blank cs
  rw [readMembers] at h
  split at h
  case h_2 => simp at h
  case h_1 tail hquote =>
    obtain ⟨⟨key, tail'⟩, hkey, hcont⟩ := Option.bind_eq_some_iff.1 h
    obtain ⟨hcontent, htail⟩ := of_readQuoted hkey
    obtain ⟨ws', hws', htail'⟩ := exists_blank tail'
    dsimp only at hcont
    split at hcont
    case h_2 => simp at hcont
    case h_1 tail'' hcolon =>
      obtain ⟨⟨j, more⟩, hread, hmore⟩ := Option.bind_eq_some_iff.1 hcont
      obtain ⟨ws'', text, hws'', htext, heq⟩ := hn.value hread
      obtain ⟨element, helement, helement_eq⟩ := element_of_skipBlanks hws'' htext heq
      obtain ⟨text', htext', heq'⟩ :=
        hn.of_membersFrom (.mk hws hcontent hws' helement) hmore
      refine ⟨text', htext', ?_⟩
      calc cs
        _ = ws ++ '"' :: (key ++ '"' :: (ws' ++ ':' :: (element ++ skipBlanks more))) := by
          rw [hcs, hquote, htail, htail', hcolon, helement_eq]
        _ = text' ++ '\x7d' :: rest := by
          rw [← heq']
          simp

theorem sound (n : Nat) : Sound n := by
  induction n with
  | zero => exact sound_zero
  | succ n hn =>
    refine ⟨fun {cs _ _} h => ?_, hn.items_succ, hn.members_succ⟩
    obtain ⟨ws, hws, hcs⟩ := exists_blank cs
    obtain ⟨text, htext, heq⟩ := hn.value_succ h
    exact ⟨ws, text, hws, htext, by rw [List.append_assoc, ← heq, ← hcs]⟩

/-- The reader accepts exactly the texts of the grammar, each as the document that it is a text of. -/
theorem read?_eq_some_iff : read? text = some j ↔ Element j text := by
  constructor
  · intro h
    obtain ⟨⟨value, tail⟩, hread, hend⟩ := Option.bind_eq_some_iff.1 h
    obtain ⟨ws, cs, hws, hcs, heq⟩ := (sound _).value hread
    obtain ⟨element, helement, htext⟩ := element_of_skipBlanks hws hcs heq
    dsimp only at hend
    split at hend
    · rename_i hnil
      obtain rfl := Option.some.inj hend
      rwa [htext, hnil, List.append_nil]
    · simp at hend
  · intro h
    obtain ⟨ws, hws, hread⟩ := h.reads (n := 2 * text.length + 1) (by omega) stops_nil
    rw [List.append_nil, List.append_nil] at hread
    simp [read?, hread, skipBlanks_of_blank hws]

end Json

end Generics

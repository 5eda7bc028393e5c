import Mathlib.Data.List.Forall2

/-!
# Lists that correspond

The arguments of a type and of its tree, the arguments before and after a substitution: many lists
here correspond member by member, which `List.Forall₂` expresses.
-/

namespace Generics

variable {α β γ : Type} {R S : α → β → Prop} {l : List α} {m : List β}

theorem forall₂_imp_of_mem (h : List.Forall₂ R l m) (H : ∀ a ∈ l, ∀ b ∈ m, R a b → S a b) :
    List.Forall₂ S l m := by
  induction h with
  | nil => exact .nil
  | cons hab _ ih =>
    refine .cons (H _ (List.mem_cons_self ..) _ (List.mem_cons_self ..) hab) (ih ?_)
    exact fun a ha b hb => H a (List.mem_cons_of_mem _ ha) b (List.mem_cons_of_mem _ hb)

theorem exists_of_mem_left (h : List.Forall₂ R l m) {a : α} (ha : a ∈ l) : ∃ b ∈ m, R a b := by
  induction h with
  | nil => cases ha
  | @cons a' b _ _ hab _ ih =>
    rcases List.mem_cons.1 ha with rfl | ha
    · exact ⟨b, List.mem_cons_self .., hab⟩
    · obtain ⟨b, hb, h⟩ := ih ha
      exact ⟨b, List.mem_cons_of_mem _ hb, h⟩

theorem exists_of_mem_right (h : List.Forall₂ R l m) {b : β} (hb : b ∈ m) : ∃ a ∈ l, R a b :=
  exists_of_mem_left h.flip hb

theorem eq_of_forall₂ {m' : List β} (h : List.Forall₂ R l m) (h' : List.Forall₂ S l m')
    (H : ∀ a ∈ l, ∀ b ∈ m, ∀ b', R a b → S a b' → b = b') : m = m' := by
  induction h generalizing m' with
  | nil =>
    cases h'
    rfl
  | cons hab _ ih =>
    cases h' with
    | cons hab' h' =>
      rw [H _ (List.mem_cons_self ..) _ (List.mem_cons_self ..) _ hab hab', ih h']
      exact fun a ha b hb => H a (List.mem_cons_of_mem _ ha) b (List.mem_cons_of_mem _ hb)

/-- Corresponding members stand at the same positions. -/
theorem exists_getElem?_of_forall₂ (h : List.Forall₂ R l m) {i : Nat} {a : α} (ha : l[i]? = some a) :
    ∃ b, m[i]? = some b ∧ R a b := by
  induction h generalizing i with
  | nil => simp at ha
  | cons hab _ ih =>
    cases i with
    | zero =>
      simp only [List.getElem?_cons_zero, Option.some.injEq] at ha ⊢
      exact ⟨_, rfl, ha ▸ hab⟩
    | succ i => simpa using ih (by simpa using ha)

theorem getElem?_eq_none_of_forall₂ (h : List.Forall₂ R l m) {i : Nat} (ha : l[i]? = none) :
    m[i]? = none := by
  rw [List.getElem?_eq_none_iff] at ha ⊢
  rwa [← h.length_eq]

theorem forall₂_of_getElem? (hlen : l.length = m.length)
    (h : ∀ (i : Nat) a b, l[i]? = some a → m[i]? = some b → R a b) : List.Forall₂ R l m := by
  induction l generalizing m with
  | nil =>
    obtain rfl := List.length_eq_zero_iff.1 hlen.symm
    exact .nil
  | cons a l ih =>
    cases m with
    | nil => cases hlen
    | cons b m =>
      exact .cons (h 0 a b rfl rfl) (ih (Nat.succ.inj hlen) fun i a b ha hb => h (i + 1) a b ha hb)

/-- Lists that both correspond to one list correspond to each other. -/
theorem forall₂_of_common {S : γ → β → Prop} {n : List γ} (h : List.Forall₂ R l m)
    (h' : List.Forall₂ S n m) : List.Forall₂ (fun a c => ∃ b ∈ m, R a b ∧ S c b) l n := by
  induction h generalizing n with
  | nil =>
    cases h'
    exact .nil
  | cons hab _ ih =>
    cases h' with
    | cons hcb h' =>
      refine .cons ⟨_, List.mem_cons_self .., hab, hcb⟩ ((ih h').imp fun a c hac => ?_)
      obtain ⟨b, hb, hac⟩ := hac
      exact ⟨b, List.mem_cons_of_mem _ hb, hac⟩

theorem forall₂_zip {γ δ : Type} {T : γ → δ → Prop} {l' : List γ} {m' : List δ}
    (h : List.Forall₂ R l m) (h' : List.Forall₂ T l' m') :
    List.Forall₂ (fun a b => R a.1 b.1 ∧ T a.2 b.2) (l.zip l') (m.zip m') := by
  induction h generalizing l' m' with
  | nil => exact .nil
  | cons hab _ ih =>
    cases h' with
    | nil => exact .nil
    | cons hcd h' => exact .cons ⟨hab, hcd⟩ (ih h')

theorem forall₂_of_forall_exists (h : ∀ a ∈ l, ∃ b, R a b) : ∃ m, List.Forall₂ R l m := by
  induction l with
  | nil => exact ⟨[], .nil⟩
  | cons a l ih =>
    simp only [List.mem_cons, forall_eq_or_imp] at h
    obtain ⟨⟨b, hb⟩, h⟩ := h
    obtain ⟨m, hm⟩ := ih h
    exact ⟨b :: m, .cons hb hm⟩

open scoped Classical in
/-- What stands at one place only is related to one thing. -/
theorem exists_eq_map_of_forall₂ [Nonempty β] (hl : l.Nodup) (h : List.Forall₂ R l m) :
    ∃ f : α → β, m = l.map f ∧ ∀ a ∈ l, R a (f a) := by
  induction h with
  | nil => exact ⟨fun _ => Classical.ofNonempty, rfl, nofun⟩
  | @cons a b l _ hab _ ih =>
    rw [List.nodup_cons] at hl
    obtain ⟨f, rfl, hf⟩ := ih hl.2
    have hrest : ∀ a' ∈ l, Function.update f a b a' = f a' := fun a' ha' =>
      Function.update_of_ne (fun heq : a' = a => hl.1 (heq ▸ ha')) ..
    refine ⟨Function.update f a b, ?_, List.forall_mem_cons.2 ⟨?_, fun a' ha' => ?_⟩⟩
    · rw [List.map_cons, Function.update_self, List.map_congr_left hrest]
    · rwa [Function.update_self]
    · rw [hrest a' ha']
      exact hf a' ha'

/-- Steps that agree on the members of a list agree on the list. -/
theorem foldlM_ext {m : Type → Type} [Monad m] {α β : Type} {f g : β → α → m β} {l : List α}
    (h : ∀ b, ∀ a ∈ l, f b a = g b a) (b : β) : l.foldlM f b = l.foldlM g b := by
  induction l generalizing b with
  | nil => rfl
  | cons a l ih =>
    simp only [List.foldlM_cons, h b a (List.mem_cons_self ..)]
    exact bind_congr fun b => ih (fun b a ha => h b a (List.mem_cons_of_mem _ ha)) b

theorem mapM_ext {m : Type → Type} [Monad m] [LawfulMonad m] {α β : Type} {f g : α → m β} {l : List α}
    (h : ∀ a ∈ l, f a = g a) : l.mapM f = l.mapM g := by
  induction l with
  | nil => rfl
  | cons a l ih =>
    rw [List.mapM_cons, List.mapM_cons, h a (List.mem_cons_self ..),
      ih fun a ha => h a (List.mem_cons_of_mem _ ha)]

/-- What is left when one more value is removed. -/
theorem removeAll_append_singleton [DecidableEq α] (l m : List α) (a : α) :
    l.removeAll (m ++ [a]) = (l.removeAll m).filter (!· == a) := by
  simp only [List.removeAll, List.filter_filter]
  refine List.filter_congr fun b _ => ?_
  rw [Bool.eq_iff_iff]
  simp [and_comm]

/-- First occurrences may be appended one by one. -/
theorem append_eraseDups_cons [DecidableEq α] (m : List α) (a : α) (l : List α) :
    m ++ ((a :: l).removeAll m).eraseDups =
      if a ∈ m then m ++ (l.removeAll m).eraseDups
      else (m ++ [a]) ++ (l.removeAll (m ++ [a])).eraseDups := by
  rw [List.cons_removeAll]
  by_cases h : a ∈ m
  · simp [h]
  · simp [h, removeAll_append_singleton, List.eraseDups_cons]

/-! ## Walks that may fail -/

section Except

variable {ε : Type} {α β : Type} {f : β → α → Except ε β} {l : List α} {b r : β}

theorem bind_eq_ok_iff {x : Except ε α} {f : α → Except ε β} :
    x >>= f = .ok r ↔ ∃ a, x = .ok a ∧ f a = .ok r := by
  cases x with
  | error e => exact ⟨nofun, nofun⟩
  | ok a => exact ⟨fun h => ⟨a, rfl, h⟩, fun ⟨_, ha, h⟩ => Except.ok.inj ha ▸ h⟩

/-- A fold fails only at one of its steps. -/
theorem exists_of_foldlM_eq_error {e : ε} (h : l.foldlM f b = .error e) :
    ∃ a ∈ l, ∃ b', f b' a = .error e := by
  induction l generalizing b with
  | nil => cases h
  | cons a l ih =>
    rw [List.foldlM_cons] at h
    cases hf : f b a with
    | error e' =>
      rw [hf] at h
      exact ⟨a, List.mem_cons_self .., b, hf.trans (congrArg _ (Except.error.inj h))⟩
    | ok b' =>
      rw [hf] at h
      obtain ⟨a', ha', herror⟩ := ih h
      exact ⟨a', List.mem_cons_of_mem _ ha', herror⟩

theorem exists_foldlM_eq_ok (h : ∀ b, ∀ a ∈ l, ∃ b', f b a = .ok b') (b : β) :
    ∃ r, l.foldlM f b = .ok r := by
  induction l generalizing b with
  | nil => exact ⟨b, rfl⟩
  | cons a l ih =>
    obtain ⟨b', hb'⟩ := h b a (List.mem_cons_self ..)
    obtain ⟨r, hr⟩ := ih (fun b a ha => h b a (List.mem_cons_of_mem _ ha)) b'
    exact ⟨r, by rw [List.foldlM_cons, hb']; exact hr⟩

/-- A fold that succeeds keeps the invariant of its steps and collects what they establish. -/
theorem of_foldlM_eq_ok {I : β → Prop} {P : α → Prop}
    (hstep : ∀ b b', ∀ a ∈ l, I b → f b a = .ok b' → I b' ∧ P a) (hb : I b)
    (h : l.foldlM f b = .ok r) : I r ∧ ∀ a ∈ l, P a := by
  induction l generalizing b with
  | nil => exact ⟨Except.ok.inj h ▸ hb, by simp⟩
  | cons a l ih =>
    rw [List.foldlM_cons, bind_eq_ok_iff] at h
    obtain ⟨b', hb', h⟩ := h
    obtain ⟨hI, hP⟩ := hstep b b' a (List.mem_cons_self ..) hb hb'
    obtain ⟨hr, hl⟩ := ih (fun b b' a ha => hstep b b' a (List.mem_cons_of_mem _ ha)) hI h
    exact ⟨hr, List.forall_mem_cons.2 ⟨hP, hl⟩⟩

theorem mapM_eq_ok_iff {f : α → Except ε β} {l : List α} {r : List β} :
    l.mapM f = .ok r ↔ List.Forall₂ (fun a b => f a = .ok b) l r := by
  induction l generalizing r with
  | nil =>
    rw [List.mapM_nil, List.forall₂_nil_left_iff]
    exact ⟨fun h => (Except.ok.inj h).symm, fun h => congrArg _ h.symm⟩
  | cons a l ih =>
    rw [List.mapM_cons, bind_eq_ok_iff]
    constructor
    · rintro ⟨b, hb, h⟩
      obtain ⟨bs, hbs, h⟩ := bind_eq_ok_iff.1 h
      cases h
      exact .cons hb (ih.1 hbs)
    · rintro (_ | ⟨hb, hbs⟩)
      exact ⟨_, hb, bind_eq_ok_iff.2 ⟨_, ih.2 hbs, rfl⟩⟩

end Except

section Option

variable {α β : Type} {f g : β → α → Option β} {l : List α} {b : β}

/-- Steps that agree under an invariant agree on the list, and the invariant is kept. -/
theorem foldlM_eq_of_invariant {I : β → Prop}
    (hstep : ∀ b, ∀ a ∈ l, I b → f b a = g b a ∧ ∀ b', g b a = some b' → I b') (hb : I b) :
    l.foldlM f b = l.foldlM g b ∧ ∀ r, l.foldlM g b = some r → I r := by
  induction l generalizing b with
  | nil => exact ⟨rfl, fun r hr => Option.some.inj hr ▸ hb⟩
  | cons a l ih =>
    obtain ⟨heq, hI⟩ := hstep b a (List.mem_cons_self ..) hb
    simp only [List.foldlM_cons, heq]
    cases h : g b a with
    | none => exact ⟨rfl, nofun⟩
    | some b' => exact ih (fun b a ha => hstep b a (List.mem_cons_of_mem _ ha)) (hI b' h)

theorem exists_of_foldlM_eq_none (h : l.foldlM f b = none) : ∃ a ∈ l, ∃ b', f b' a = none := by
  induction l generalizing b with
  | nil => cases h
  | cons a l ih =>
    rw [List.foldlM_cons, Option.bind_eq_bind] at h
    cases hf : f b a with
    | none => exact ⟨a, List.mem_cons_self .., b, hf⟩
    | some b' =>
      rw [hf, Option.bind_some] at h
      obtain ⟨a', ha', hnone⟩ := ih h
      exact ⟨a', List.mem_cons_of_mem _ ha', hnone⟩

/-- A fold that succeeds is related from its start to its end as its steps are, and each member is
settled there. -/
theorem of_foldlM_eq_some {R : β → β → Prop} {P : α → β → Prop} {r : β} (hrefl : ∀ b, R b b)
    (htrans : ∀ b b' b'', R b b' → R b' b'' → R b b'') (hP : ∀ a b b', R b b' → P a b → P a b')
    (hstep : ∀ a ∈ l, ∀ b' b'', R b b' → f b' a = some b'' → R b' b'' ∧ P a b'')
    (h : l.foldlM f b = some r) : R b r ∧ ∀ a ∈ l, P a r := by
  induction l generalizing b with
  | nil => exact ⟨Option.some.inj h ▸ hrefl b, by simp⟩
  | cons a l ih =>
    rw [List.foldlM_cons, Option.bind_eq_bind, Option.bind_eq_some_iff] at h
    obtain ⟨b', hb', h⟩ := h
    obtain ⟨hR, ha⟩ := hstep a (List.mem_cons_self ..) b b' (hrefl b) hb'
    obtain ⟨hr, hl⟩ := ih (fun a ha b₁ b₂ hb₁ =>
      hstep a (List.mem_cons_of_mem _ ha) b₁ b₂ (htrans _ _ _ hR hb₁)) h
    exact ⟨htrans _ _ _ hR hr, List.forall_mem_cons.2 ⟨hP _ _ _ hr ha, hl⟩⟩

end Option

/-- To append a member unless it is there already. -/
theorem appendNew_spec {α : Type} [DecidableEq α] (a : α) {l : List α} (hl : l.Nodup) :
    (∀ b, b ∈ (if a ∈ l then l else l ++ [a]) ↔ b ∈ l ∨ b = a) ∧
      (if a ∈ l then l else l ++ [a]).Nodup ∧
      (if a ∈ l then l else l ++ [a]).length ≤ l.length + 1 ∧
      (if a ∈ l then l else l ++ [a]) ≠ [] := by
  split
  · rename_i ha
    exact ⟨fun b => ⟨.inl, fun hb => hb.elim id (· ▸ ha)⟩, hl, Nat.le_succ _, List.ne_nil_of_mem ha⟩
  · rename_i ha
    refine ⟨fun b => by simp, ?_, by simp, by simp⟩
    refine List.nodup_append.2 ⟨hl, by simp, fun b hb b' hb' heq => ha ?_⟩
    rwa [← List.mem_singleton.1 hb', ← heq]

end Generics

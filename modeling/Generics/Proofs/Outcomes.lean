import Mathlib.Logic.Basic

/-!
# Outcomes

What a computation on trees comes to may depend on questions that no run answers in full, such as what
lies above a type.  So it is described by the outcomes that it may have.  Such descriptions are composed
like computations; a run has one of the outcomes, and two descriptions may agree in all of theirs.
-/

namespace Generics

/-- Which outcomes a computation may have: values, and `none` if it may fail. -/
def Outcomes (α : Type) : Type := Option α → Prop

namespace Outcomes

variable {α β ε : Type} {x : Outcomes α} {f : α → Outcomes β} {a : α} {o : Option α} {p : Prop}

instance : Monad Outcomes where
  pure a o := o = some a
  bind x f o := x none ∧ o = none ∨ ∃ a, x (some a) ∧ f a o

/-- The value `a` if `p` holds, and a failure otherwise. -/
def given (p : Prop) (a : α) : Outcomes α
  | some b => p ∧ b = a
  | none => ¬p

/-- The one value that satisfies `C`, and a failure if there is none or another one. -/
def theOne (C : α → Prop) : Outcomes α := fun o => ∀ a, o = some a ↔ ∀ b, C b ↔ b = a

theorem pure_iff : (pure a : Outcomes α) o ↔ o = some a := Iff.rfl

theorem bind_iff {o : Option β} : (x >>= f) o ↔ x none ∧ o = none ∨ ∃ a, x (some a) ∧ f a o := Iff.rfl

theorem bind_none (h : x none) : (x >>= f) none := .inl ⟨h, rfl⟩

theorem bind_some {o : Option β} (h : x (some a)) (hf : f a o) : (x >>= f) o := .inr ⟨a, h, hf⟩

/-! ## Agreement -/

/-- The outcomes of `x` and of `y` are the same one, and if it is a value, `P` holds of it. -/
structure Agree (P : α → Prop) (x y : Outcomes α) : Prop where
  eq : ∀ {o o'}, x o → y o' → o = o'
  holds : ∀ {a}, x (some a) → P a

section

variable {P : α → Prop} {Q : β → Prop} {y : Outcomes α}

theorem agree_pure (h : P a) : Agree P (pure a) (pure a) where
  eq ho ho' := (pure_iff.1 ho).trans (pure_iff.1 ho').symm
  holds ha := Option.some.inj (pure_iff.1 ha) ▸ h

theorem agree_given (h : p → P a) : Agree P (given p a) (given p a) where
  eq {o o'} ho ho' := by
    cases o with
    | none =>
      cases o' with
      | none => rfl
      | some b' => exact absurd ho'.1 ho
    | some b =>
      cases o' with
      | none => exact absurd ho.1 ho'
      | some b' => exact congrArg some (ho.2.trans ho'.2.symm)
  holds ha := ha.2 ▸ h ha.1

theorem agree_theOne (C : α → Prop) : Agree (fun _ => True) (theOne C) (theOne C) where
  eq ho ho' := Option.ext fun a => (ho a).trans (ho' a).symm
  holds _ := trivial

theorem Agree.bind {g : α → Outcomes β} (hx : Agree P x y) (hf : ∀ a, P a → Agree Q (f a) (g a)) :
    Agree Q (x >>= f) (y >>= g) where
  eq {o o'} ho ho' := by
    rcases bind_iff.1 ho with ⟨hnone, rfl⟩ | ⟨a, ha, hfa⟩ <;>
      rcases bind_iff.1 ho' with ⟨hnone', rfl⟩ | ⟨a', ha', hfa'⟩
    · rfl
    · cases hx.eq hnone ha'
    · cases hx.eq ha hnone'
    · obtain rfl := Option.some.inj (hx.eq ha ha')
      exact (hf a (hx.holds ha)).eq hfa hfa'
  holds hb := by
    rcases bind_iff.1 hb with ⟨-, hnone⟩ | ⟨a, ha, hfa⟩
    · cases hnone
    · exact (hf a (hx.holds ha)).holds hfa

theorem agree_foldlM {step step' : β → α → Outcomes β} {l : List α} {b : β} (hb : Q b)
    (hstep : ∀ b, Q b → ∀ a ∈ l, Agree Q (step b a) (step' b a)) :
    Agree Q (l.foldlM step b) (l.foldlM step' b) := by
  induction l generalizing b with
  | nil => exact agree_pure hb
  | cons a l ih =>
    rw [List.foldlM_cons, List.foldlM_cons]
    exact (hstep b hb a (List.mem_cons_self ..)).bind fun b' hb' =>
      ih hb' fun b hb a ha => hstep b hb a (List.mem_cons_of_mem _ ha)

end

/-! ## Runs -/

/-- A run that ends so has one of the outcomes: it ends with a value that is related to one of them by
`R`, or it fails where that is one of them. -/
def Include (R : β → α → Prop) (x : Outcomes α) : Except ε β → Prop
  | .error _ => x none
  | .ok b => ∃ a, x (some a) ∧ R b a

theorem Include.mono {R R' : β → α → Prop} {y : Outcomes α} {r : Except ε β} (h : x.Include R r)
    (hxy : ∀ o, x o → y o) (hR : ∀ b a, R b a → R' b a) : y.Include R' r := by
  cases r with
  | error e => exact hxy _ h
  | ok b =>
    obtain ⟨a, ha, hba⟩ := h
    exact ⟨a, hxy _ ha, hR b a hba⟩

end Outcomes

end Generics

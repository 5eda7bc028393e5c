import Generics.Proofs.Conduct
import Generics.Proofs.Unification

/-!
# Bindings are only appended

Whatever the store holds and whatever guard watches, matching and inference change no binding: they
append new ones, each of a free parameter that was not bound before.  Once the patterns are matched,
the only errors left are constraints without a counterpart and the limits of the guard.
-/

namespace Generics

namespace Substitution

variable {free : List Param} {σ τ υ : Substitution} {p : Param} {t : TypeId}

/-- `τ` appends to `σ` bindings of free parameters that `σ` does not bind, one for each. -/
def Appends (free : List Param) (σ τ : Substitution) : Prop :=
  ∃ more, τ.entries = σ.entries ++ more ∧ (more.map Prod.fst).Nodup ∧
    ∀ e ∈ more, e.1 ∈ free ∧ e.1 ∉ σ.domain

namespace Appends

theorem refl (free : List Param) (σ : Substitution) : σ.Appends free σ :=
  ⟨[], (List.append_nil _).symm, .nil, by simp⟩

theorem entries (h : σ.Appends free τ) : σ.entries <+: τ.entries := by
  obtain ⟨more, hmore, -⟩ := h
  exact ⟨more, hmore.symm⟩

theorem domain (h : σ.Appends free τ) : σ.domain <+: τ.domain := h.entries.map Prod.fst

theorem trans (h : σ.Appends free τ) (h' : τ.Appends free υ) : σ.Appends free υ := by
  have hdomain := h.domain.subset
  obtain ⟨more, hmore, hnodup, hfree⟩ := h
  obtain ⟨more', hmore', hnodup', hfree'⟩ := h'
  have hmem : ∀ e ∈ more, e.1 ∈ τ.domain := fun e he =>
    List.mem_map_of_mem (hmore ▸ List.mem_append_right _ he)
  refine ⟨more ++ more', by rw [hmore', hmore, List.append_assoc], ?_, fun e he => ?_⟩
  · rw [List.map_append, List.nodup_append]
    refine ⟨hnodup, hnodup', fun p hp q hq heq => ?_⟩
    obtain ⟨e, he, rfl⟩ := List.mem_map.1 hp
    obtain ⟨e', he', rfl⟩ := List.mem_map.1 hq
    exact (hfree' e' he').2 (heq ▸ hmem e he)
  · rcases List.mem_append.1 he with he | he
    · exact hfree e he
    · exact (hfree' e he).imp id fun hnew hσ => hnew (hdomain hσ)

theorem insert (hp : p ∈ free) (hnew : ¬σ.contains p) (t : TypeId) :
    σ.Appends free (σ.insert p t) := by
  refine ⟨[(p, t)], by rw [insert_of_not_contains hnew], List.nodup_singleton _, fun e he => ?_⟩
  obtain rfl := List.mem_singleton.1 he
  exact ⟨hp, fun hmem => hnew ((contains_iff_mem_domain ..).2 hmem)⟩

/-- What is bound was bound before, or it is free. -/
theorem mem_domain_cases (h : σ.Appends free τ) (hp : p ∈ τ.domain) : p ∈ σ.domain ∨ p ∈ free := by
  obtain ⟨more, hmore, -, hfree⟩ := h
  rw [(domain_of_entries hmore).1, List.mem_append] at hp
  refine hp.imp id fun hp => ?_
  obtain ⟨e, he, rfl⟩ := List.mem_map.1 hp
  exact (hfree e he).1

theorem nodup (h : σ.Appends free τ) (hσ : σ.domain.Nodup) : τ.domain.Nodup := by
  obtain ⟨more, hmore, hnodup, hfree⟩ := h
  rw [(domain_of_entries hmore).1, List.nodup_append]
  refine ⟨hσ, hnodup, fun p hp q hq heq => ?_⟩
  obtain ⟨e, he, rfl⟩ := List.mem_map.1 hq
  exact (hfree e he).2 (heq ▸ hp)

/-- What stands behind the old bindings is new. -/
theorem drop_domain (h : σ.Appends free τ) :
    (τ.domain.drop σ.size).Nodup ∧ ∀ p ∈ τ.domain.drop σ.size, p ∈ τ.domain ∧ p ∉ σ.domain := by
  obtain ⟨more, hmore, hnodup, hfree⟩ := h
  rw [(domain_of_entries hmore).2]
  refine ⟨hnodup, fun p hp => ?_⟩
  obtain ⟨e, he, rfl⟩ := List.mem_map.1 hp
  exact ⟨List.mem_map_of_mem (hmore ▸ List.mem_append_right _ he), (hfree e he).2⟩

theorem get? (h : σ.Appends free τ) (hp : σ.get? p = some t) : τ.get? p = some t := by
  obtain ⟨more, hmore, -⟩ := h
  rw [Substitution.get?] at hp ⊢
  rw [hmore, List.lookup_append, hp, Option.some_or]

end Appends

end Substitution

/-! ## Matching -/

section

variable {v : View} {free : List Param} {m m' : Matching} {σ τ : Substitution} {p : Param}
  {pattern concrete : TypeId} {n : Nat}

theorem Matching.appends_bind (hp : p ∈ free) (h : m.bind p concrete = .ok m') :
    m.bindings.Appends free m'.bindings := by
  unfold Matching.bind at h
  split at h
  · rename_i hnone
    cases h
    refine .insert hp ?_ concrete
    simp [Substitution.contains, hnone]
  · split at h
    · cases h
      exact .refl ..
    · cases h

theorem View.appends_matchRigid (h : matchRigid m pattern concrete = .ok m') :
    m.bindings.Appends free m'.bindings := by
  unfold matchRigid at h
  split at h
  · cases h
    exact .refl ..
  · cases h

/-- Steps that append make a walk that appends. -/
theorem appends_foldlM {α β ε : Type} (bindings : β → Substitution) {step : β → α → Except ε β}
    (hstep : ∀ b a b', step b a = .ok b' → (bindings b).Appends free (bindings b')) {l : List α}
    {b b' : β} (h : l.foldlM step b = .ok b') : (bindings b).Appends free (bindings b') := by
  induction l generalizing b with
  | nil =>
    cases h
    exact .refl ..
  | cons a l ih =>
    rw [List.foldlM_cons, bind_eq_ok_iff] at h
    obtain ⟨b₁, hfirst, hrest⟩ := h
    exact (hstep b a b₁ hfirst).trans (ih hrest)

theorem View.appends_matchTo (h : v.matchTo free n m pattern concrete = .ok m') :
    m.bindings.Appends free m'.bindings := by
  induction n generalizing pattern concrete m m' with
  | zero =>
    cases h
    exact .refl ..
  | succ n ih =>
    rw [matchTo] at h
    split at h
    · cases h
      exact .refl ..
    -- noting the pair changes no binding
    obtain ⟨m₁, hm₁, hbindings⟩ : ∃ m₁ : Matching,
        m₁ = { m with matched := m.matched.insert (pattern, concrete) } ∧ m₁.bindings = m.bindings :=
      ⟨_, rfl, rfl⟩
    simp only [← hm₁] at h
    rw [← hbindings]
    split at h
    · split at h
      · rename_i hp
        exact Matching.appends_bind hp h
      · exact appends_matchRigid h
    · split at h
      · split at h
        · exact appends_foldlM Matching.bindings (fun _ _ _ hstep => ih hstep) h
        · cases h
      · cases h
    · exact appends_matchRigid h

theorem View.appends_matchType (h : v.matchType free σ pattern concrete = .ok τ) :
    σ.Appends free τ := by
  unfold matchType at h
  cases hrun : v.matchTo free (v.bound * v.bound) ⟨σ, ∅⟩ pattern concrete with
  | error e => simp [hrun, Except.map] at h
  | ok m =>
    rw [hrun] at h
    cases h
    exact appends_matchTo hrun

theorem View.appends_matchAll {as bs : List TypeId} (h : v.matchAll free σ as bs = .ok τ) :
    σ.Appends free τ :=
  appends_foldlM id (fun _ _ _ hstep => appends_matchType hstep) h

theorem View.appends_inferAmong (v : View) (free : List Param) (σ : Substitution)
    (args : List TypeId) (supers : List (List TypeId)) :
    σ.Appends free (v.inferAmong free σ args supers) := by
  rcases Unifier.inferAmong_cases v free σ args supers with heq | ⟨bs, -, hmatch⟩
  · rw [heq]
    exact .refl ..
  · exact appends_matchAll hmatch

end

/-! ## Expanding -/

/-- Patterns and concrete types do not fit together. -/
def UnifyError.IsMismatch : UnifyError → Prop
  | structureMismatch .. | ambiguousBinding .. => True
  | _ => False

namespace Conduct

variable {α β : Type} {E : UnifyError → Prop}

/-- An answer is as `P` says, an error as `E` says. -/
def Outcome (E : UnifyError → Prop) (P : α → Prop) : Except UnifyError α → Prop
  | .ok a => P a
  | .error e => E e

/-- Unifiers that have such outcomes from every session and under every guard. -/
def outcomes (E : UnifyError → Prop) : Conduct Unifier where
  Ensures m P := ∀ g s, Outcome E P (m.run.run g s).1.1
  pure h _ _ := h
  bind {α β m f P Q} hm hf g s := by
    have hfirst := hm g s
    rw [ExceptT.run_bind, StateT.run_bind, Engine.bind_apply]
    rcases hrun : m.run.run g s with ⟨⟨r, g'⟩, s'⟩
    rw [hrun] at hfirst
    cases r with
    | error e => exact hfirst
    | ok a => exact hf a hfirst g' s'

theorem lift_outcomes (m : Engine α) : (outcomes E).Obeys (monadLift m : Unifier α) := fun _ _ =>
  trivial

theorem throw_outcomes {e : UnifyError} {P : α → Prop} (h : E e) :
    (outcomes E).Ensures (MonadExcept.throw e : Unifier α) P := fun _ _ => h

/-- Visiting a parameter does not change an outcome. -/
theorem visiting_outcomes (p : Param) {m : Unifier α} {P : α → Prop} (hm : (outcomes E).Ensures m P) :
    (outcomes E).Ensures (Unifier.visiting p m) P := fun g s => hm g s

/-- Unifiers that may fail, but not because of a mismatch. -/
abbrev expanding : Conduct Unifier := outcomes fun e => ¬e.IsMismatch

variable {c : Catalog} {u : Unknowns} {σ : Substitution} {p : Param}

/-- Inference appends what it binds, and its only error is a constraint without a counterpart. -/
theorem outcomes_infer (hE : ∀ q k t, E (.unsatisfiedConstraint q k t)) (k bound : TypeId) :
    (outcomes E).Ensures (Unifier.infer c u p k bound σ) (σ.Appends u.free) := by
  refine (outcomes E).bind (lift_outcomes _) fun node _ => ?_
  split
  · refine (outcomes E).pure ?_
    split
    · rename_i hq
      exact .insert hq.1 (by simpa using hq.2) bound
    · exact .refl ..
  · refine (outcomes E).bind (lift_outcomes _) fun above _ => ?_
    refine (outcomes E).bind (lift_outcomes _) fun supers _ => ?_
    split
    · exact throw_outcomes (hE ..)
    · exact fun _ s => View.appends_inferAmong (c.view s.types) ..
  · exact (outcomes E).pure (.refl ..)

theorem appends_infer (k bound : TypeId) :
    expanding.Ensures (Unifier.infer c u p k bound σ) (σ.Appends u.free) :=
  outcomes_infer (fun _ _ _ => id) k bound

theorem appends_foldlM {β : Type} {step : Substitution → β → Unifier Substitution}
    (hstep : ∀ σ b, expanding.Ensures (step σ b) (σ.Appends u.free)) (l : List β) (σ : Substitution) :
    expanding.Ensures (l.foldlM step σ) (σ.Appends u.free) :=
  expanding.foldlM (fun τ b hτ => expanding.mono (hstep τ b) fun _ => hτ.trans) (.refl ..)

theorem appends_expandEach {expand : Substitution → Param → Unifier Substitution}
    (hexpand : ∀ σ p, expanding.Ensures (expand σ p) (σ.Appends u.free)) :
    expanding.Ensures (Unifier.expandEach c u expand σ p) (σ.Appends u.free) := by
  refine expanding.bind (lift_outcomes _) fun decl _ => ?_
  split
  · refine appends_foldlM (fun σ k => ?_) _ σ
    refine expanding.bind (lift_outcomes _) fun k _ => ?_
    refine expanding.bind (lift_outcomes _) fun mentions _ => ?_
    split
    · refine expanding.bind (appends_infer k _) fun τ hτ => ?_
      exact expanding.mono (appends_foldlM hexpand _ τ) fun _ => hτ.trans
    · exact expanding.pure (.refl ..)
  · exact expanding.pure (.refl ..)

/-- Expansion only appends bindings, and it ends in no mismatch. -/
theorem appends_expandTo (c : Catalog) (u : Unknowns) (n : Nat) (σ : Substitution) (p : Param) :
    expanding.Ensures (Unifier.expandTo c u n σ p) (σ.Appends u.free) := by
  induction n generalizing σ p with
  | zero => exact throw_outcomes id
  | succ n ih =>
    refine expanding.bind (P := fun _ => True) (fun _ _ => trivial) fun e _ => ?_
    cases e with
    | entered => exact visiting_outcomes p (appends_expandEach ih)
    | cycle => exact expanding.pure (.refl ..)
    | tooDeep => exact throw_outcomes id
    | tooLong => exact throw_outcomes id

end Conduct

end Generics

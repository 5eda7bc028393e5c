import Generics.Proofs.Appending
import Generics.Proofs.Conduct.Resolving
import Generics.Proofs.Deciding
import Generics.Proofs.Growth

/-!
# Matching is exact

Unification refuses the arguments as a mismatch exactly if no substitution of free parameters turns the
patterns into the concrete types.  Otherwise, if it answers at all, the answer begins with the free
parameters of the patterns in order of first occurrence, and it binds them as every such substitution
must; what the expansion of constraints appends does not show in the patterns.
-/

namespace Generics

open View.Mentions (appendNew)

/-! ## Mismatches -/

section

variable {v : View} {free : List Param} {m : Matching} {σ : Substitution} {p : Param} {e : UnifyError}
  {pattern concrete : TypeId} {n : Nat}

theorem Matching.isMismatch_of_bind (h : m.bind p concrete = .error e) : e.IsMismatch := by
  unfold Matching.bind at h
  split at h
  · cases h
  · split at h <;> cases h
    trivial

theorem View.isMismatch_of_matchRigid (h : matchRigid m pattern concrete = .error e) :
    e.IsMismatch := by
  unfold matchRigid at h
  split at h <;> cases h
  trivial

theorem isMismatch_of_foldlM {α β : Type} {step : β → α → Except UnifyError β}
    (hstep : ∀ b a e, step b a = .error e → e.IsMismatch) {l : List α} {b : β}
    (h : l.foldlM step b = .error e) : e.IsMismatch := by
  induction l generalizing b with
  | nil => cases h
  | cons a l ih =>
    rw [List.foldlM_cons] at h
    cases hfirst : step b a with
    | error e' =>
      rw [hfirst] at h
      cases h
      exact hstep b a e hfirst
    | ok b' =>
      rw [hfirst] at h
      exact ih h

/-- Matching fails in no other way. -/
theorem View.isMismatch_of_matchTo (h : v.matchTo free n m pattern concrete = .error e) :
    e.IsMismatch := by
  induction n generalizing pattern concrete m e with
  | zero => cases h
  | succ n ih =>
    rw [matchTo] at h
    split at h
    · cases h
    dsimp only at h
    split at h
    · split at h
      · exact Matching.isMismatch_of_bind h
      · exact isMismatch_of_matchRigid h
    · split at h
      · split at h
        · exact isMismatch_of_foldlM (fun _ _ _ hstep => ih hstep) h
        · cases h
          trivial
      · cases h
        trivial
    · exact isMismatch_of_matchRigid h

theorem View.isMismatch_of_matchAll {as bs : List TypeId} (h : v.matchAll free σ as bs = .error e) :
    e.IsMismatch := by
  refine isMismatch_of_foldlM (fun σ pair e hstep => ?_) h
  change v.matchType free σ pair.1 pair.2 = .error e at hstep
  unfold matchType at hstep
  cases hrun : v.matchTo free (v.bound * v.bound) ⟨σ, ∅⟩ pair.1 pair.2 with
  | ok m => simp [hrun, Except.map] at hstep
  | error e' =>
    rw [hrun] at hstep
    cases hstep
    exact isMismatch_of_matchTo hrun

end

/-! ## What unification answers -/

namespace Unifier

variable {c : Catalog} {u : Unknowns} {s : Session} {σ τ b : Substitution} {as bs : List TypeId}
  {As Bs : List Tree} {free : List Param}

/-- Unification refuses what does not match, and expands what does. -/
theorem outcome_unify (hlen : as.length = bs.length) (g : Guard Param) (s : Session) :
    match (c.view s.types).matchAll u.free .empty as bs with
    | .error e => ((unify c u as bs).run.run g s).1.1 = .error e
    | .ok matched => Conduct.Outcome (fun e => ¬e.IsMismatch) (matched.Appends u.free)
        ((unify c u as bs).run.run g s).1.1 := by
  have hunify : (unify c u as bs).run.run g s =
      (match (c.view s.types).matchAll u.free .empty as bs with
        | .error e => throw e
        | .ok matched => do
          let σ ← matched.domain.foldlM (expandTo c u (u.free.length + 1)) matched
          monadLift (Engine.report c fun _ => .unified σ.size u.free.length)
          pure σ : Unifier Substitution).run.run g s := by
    rw [unify, if_neg (not_not_intro hlen)]
    rfl
  rw [hunify]
  split
  · rfl
  · rename_i matched _
    refine Conduct.expanding.bind (Conduct.appends_foldlM (Conduct.appends_expandTo c u _) _ matched)
      (fun σ hσ => ?_) g s
    exact Conduct.expanding.bind (Conduct.lift_outcomes _) fun _ _ => Conduct.expanding.pure hσ

/-- `σ` maps free parameters to types of the store, and so that each pattern becomes the concrete type
at its position. -/
structure Solution (c : Catalog) (s : Session) (free : List Param) (patterns concretes : List TypeId)
    (σ : Substitution) : Prop where
  free : ∀ p ∈ σ.domain, p ∈ free
  finite : σ.Finite s.types
  instantiate : List.Forall₂ (fun a b => (Engine.instantiate c a σ s).1 = b) patterns concretes

/-- The free parameters that the patterns mention, in order of first occurrence. -/
def mentioned (free : List Param) (As : List Tree) : List Param :=
  appendNew [] ((As.flatMap Tree.params).filter (· ∈ free))

theorem not_contains_iff {p : Param} : σ.get? p = none ↔ p ∉ σ.domain := by
  rw [← Substitution.contains_iff_mem_domain, Substitution.contains, Option.not_isSome_iff_eq_none]

/-- A substitution of free parameters fixes all others. -/
theorem rigid_of_unfolds {ts : Types} {f : Param → Tree} (hσ : σ.Unfolds ts f)
    (hfree : ∀ p ∈ σ.domain, p ∈ free) : Rigid free f := fun p hp =>
  (hσ p).2 (not_contains_iff.2 fun hmem => hp (hfree p hmem))

/-- A solution is a substitution of trees that solves the patterns. -/
theorem Solution.exists_subst (hplain : c.overrides = []) (has : List.Forall₂ s.types.Unfolds as As)
    (hbs : List.Forall₂ s.types.Unfolds bs Bs) (h : Solution c s free as bs σ) :
    ∃ f, σ.Unfolds s.types f ∧ Rigid free f ∧ Bs = As.map (Tree.subst f) := by
  obtain ⟨f, hσ⟩ := h.finite
  refine ⟨f, hσ, rigid_of_unfolds hσ h.free, ?_⟩
  have hinstantiate := h.instantiate
  clear h
  induction has generalizing bs Bs with
  | nil =>
    cases hinstantiate
    cases hbs
    rfl
  | @cons a A as As ha _ ih =>
    cases hinstantiate with
    | @cons _ b _ bs hab hrest =>
      cases hbs with
      | @cons _ B _ Bs hb hbs =>
        obtain ⟨hgrow, hunfolds, -⟩ := (Engine.settles_instantiate hplain ha hσ).elim rfl
        rw [hab] at hunfolds
        rw [List.map_cons, hunfolds.unique (hb.grow hgrow), ih hbs hrest]

/-- Bindings that solve a pattern do so by instantiation, whatever is appended to them. -/
theorem instantiate_eq_of_solves (hplain : c.overrides = []) {f : Param → Tree} {s' : Session}
    {a b : TypeId} {A B : Tree} (ha : s.types.Unfolds a A) (hb : s.types.Unfolds b B)
    (hσ : σ.Unfolds s.types f) (hsolves : σ.Solves s.types free A B) (happends : σ.Appends free τ)
    (hfree : ∀ p ∈ τ.domain, p ∈ free) (hgrow : s.types.Grows s'.types) :
    (Engine.instantiate c a τ s').1 = b := by
  have hrigid : Rigid free f :=
    rigid_of_unfolds hσ fun p hp => hfree p (happends.domain.subset hp)
  have hτ : τ.UnfoldsOn s.types f A := by
    intro p hp
    cases hget : σ.get? p with
    | some t =>
      rw [happends.get? hget]
      exact ⟨fun u hu => Option.some.inj hu ▸ (hσ p).1 t hget, fun h => absurd h (Option.some_ne_none t)⟩
    | none =>
      -- a free parameter of the pattern would be bound
      have hnot : p ∉ free := fun hmem => by
        have hcontains := hsolves.contains p hmem hp
        simp [Substitution.contains, hget] at hcontains
      rw [not_contains_iff.2 fun hmem => hnot (hfree p hmem)]
      exact ⟨fun u hu => absurd hu.symm (Option.some_ne_none u), fun _ => hrigid p hnot⟩
  obtain ⟨hgrow', hunfolds, -⟩ :=
    (Engine.settles_instantiate_on hplain (ha.grow hgrow) (hτ.grow hgrow)).elim rfl
  rw [hsolves.subst_eq f hσ.agrees hrigid] at hunfolds
  exact hunfolds.inj (hb.grow (hgrow.trans hgrow'))

theorem forall₂_instantiate (hplain : c.overrides = []) {f : Param → Tree} {s' : Session}
    (has : List.Forall₂ s.types.Unfolds as As) (hbs : List.Forall₂ s.types.Unfolds bs Bs)
    (hσ : σ.Unfolds s.types f) (hsolves : σ.SolvesAll s.types free As Bs)
    (happends : σ.Appends free τ) (hfree : ∀ p ∈ τ.domain, p ∈ free)
    (hgrow : s.types.Grows s'.types) :
    List.Forall₂ (fun a b => (Engine.instantiate c a τ s').1 = b) as bs := by
  induction hsolves generalizing as bs with
  | nil =>
    cases has
    cases hbs
    exact .nil
  | cons hAB _ ih =>
    cases has with | cons ha has =>
    cases hbs with | cons hb hbs =>
    exact .cons (instantiate_eq_of_solves hplain ha hb hσ hAB happends hfree hgrow) (ih has hbs)

/-- Where there is a solution, matching succeeds, and with bindings that agree with it. -/
theorem Solution.exists_matchAll_eq_ok (hplain : c.overrides = [])
    (has : List.Forall₂ s.types.Unfolds as As) (hbs : List.Forall₂ s.types.Unfolds bs Bs)
    (h : Solution c s free as bs σ) : ∃ f matched, σ.Unfolds s.types f ∧
      (c.view s.types).matchAll free .empty as bs = .ok matched ∧ matched.Agrees s.types f := by
  obtain ⟨f, hf, hrigid, rfl⟩ := h.exists_subst hplain has hbs
  obtain ⟨matched, hmatch, hagrees⟩ :=
    c.exists_matchAll_eq_ok hplain has hbs (Substitution.agrees_empty s.types f) hrigid
  exact ⟨f, matched, hf, hmatch, hagrees⟩

/-- What is bound as a substitution of trees says is bound as the substitution has it; a parameter that
it does not map stands for itself. -/
theorem get?_of_agrees {ts : Types} {f : Param → Tree} {p : Param} {t : TypeId}
    (hσ : σ.Unfolds ts f) (hτ : τ.Agrees ts f) (hp : τ.get? p = some t) :
    σ.get? p = some t ∨ σ.get? p = none ∧ ts.get? t = some (.param p) := by
  have ht := hτ p t hp
  cases hget : σ.get? p with
  | some u => exact .inl (congrArg some (((hσ p).1 u hget).inj ht))
  | none =>
    rw [(hσ p).2 hget] at ht
    cases ht with
    | param ht => exact .inr ⟨rfl, ht⟩

end Unifier

/-- Unification ends in a mismatch exactly if there is no solution.  An answer binds free parameters
only; in every store that has grown from this one, such as the one that is left, it turns the patterns
into the concrete types; it begins with the free parameters of the patterns, and there every solution
agrees with it. -/
theorem unify_exact {c : Catalog} {u : Unknowns} {limits : Limits} {s : Session}
    {patterns concretes : List TypeId} {As Bs : List Tree} (hplain : c.overrides = [])
    (has : List.Forall₂ s.types.Unfolds patterns As)
    (hbs : List.Forall₂ s.types.Unfolds concretes Bs) (hlen : patterns.length = concretes.length) :
    ((∃ e, (Unifier.runFresh limits (Unifier.unify c u patterns concretes) s).1 = .error e ∧
          e.IsMismatch) ↔
        ¬∃ σ, Unifier.Solution c s u.free patterns concretes σ) ∧
      s.types.Grows (Unifier.runFresh limits (Unifier.unify c u patterns concretes) s).2.types ∧
      ∀ b, (Unifier.runFresh limits (Unifier.unify c u patterns concretes) s).1 = .ok b →
        (∀ p ∈ b.domain, p ∈ u.free) ∧
        (∀ s' : Session, s.types.Grows s'.types →
          List.Forall₂ (fun a t => (Engine.instantiate c a b s').1 = t) patterns concretes) ∧
        Unifier.mentioned u.free As <+: b.domain ∧
        ∀ σ, Unifier.Solution c s u.free patterns concretes σ → ∀ p ∈ Unifier.mentioned u.free As,
          ∃ t, b.get? p = some t ∧
            (σ.get? p = some t ∨ σ.get? p = none ∧ s.types.get? t = some (.param p)) := by
  have houtcome := Unifier.outcome_unify (c := c) (u := u) hlen { limits } s
  have hgrows : s.types.Grows
      (Unifier.runFresh limits (Unifier.unify c u patterns concretes) s).2.types := by
    obtain ⟨_, us, _, hruns, hgrow, -⟩ := Conduct.runUnify c limits u patterns concretes s.types
    rwa [(hruns s rfl).2.1]
  have hrun : (Unifier.runFresh limits (Unifier.unify c u patterns concretes) s).1 =
      ((Unifier.unify c u patterns concretes).run.run { limits } s).1.1 := rfl
  rw [hrun]
  generalize ((Unifier.unify c u patterns concretes).run.run { limits } s).1.1 = answer at houtcome
  cases hmatch : (c.view s.types).matchAll u.free .empty patterns concretes with
  | error e =>
    rw [hmatch] at houtcome
    obtain rfl := houtcome
    refine ⟨⟨fun _ ⟨σ, hσ⟩ => ?_, fun _ => ⟨e, rfl, View.isMismatch_of_matchAll hmatch⟩⟩, hgrows, nofun⟩
    obtain ⟨_, matched, -, hok, -⟩ := hσ.exists_matchAll_eq_ok hplain has hbs
    cases hmatch.symm.trans hok
  | ok matched =>
    rw [hmatch] at houtcome
    obtain ⟨hext, hsolves⟩ := Catalog.of_matchAll_eq_ok hplain has hbs hlen.symm hmatch
    obtain ⟨f, hf⟩ := Substitution.exists_unfolds_of_extends (Substitution.unfolds_empty s.types) hext
    have hfree : ∀ b : Substitution, matched.Appends u.free b → ∀ p ∈ b.domain, p ∈ u.free :=
      fun b hb p hp =>
        (((View.appends_matchAll hmatch).trans hb).mem_domain_cases hp).resolve_left nofun
    have hsolution : Unifier.Solution c s u.free patterns concretes matched :=
      ⟨hfree matched (.refl ..), ⟨f, hf⟩, Unifier.forall₂_instantiate hplain has hbs hf hsolves
        (.refl ..) (hfree matched (.refl ..)) (.refl _)⟩
    refine ⟨⟨fun ⟨e, herror, hmismatch⟩ => ?_, fun hnone => absurd ⟨matched, hsolution⟩ hnone⟩,
      hgrows, fun b hb => ?_⟩
    · subst herror
      exact absurd hmismatch houtcome
    · subst hb
      have happends : matched.Appends u.free b := houtcome
      have hdomain : Unifier.mentioned u.free As = matched.domain :=
        (Catalog.domain_matchAll hplain has hbs hlen.symm hmatch).symm
      refine ⟨hfree b happends, fun s' hgrow => Unifier.forall₂_instantiate hplain has hbs hf hsolves
        happends (hfree b happends) hgrow, hdomain ▸ happends.domain, fun σ hσ p hp => ?_⟩
      obtain ⟨g, _, hg, hok, hagrees⟩ := hσ.exists_matchAll_eq_ok hplain has hbs
      obtain rfl := Except.ok.inj (hmatch.symm.trans hok)
      rw [hdomain, ← Substitution.contains_iff_mem_domain] at hp
      obtain ⟨t, ht⟩ := Option.isSome_iff_exists.1 hp
      exact ⟨t, happends.get? ht, Unifier.get?_of_agrees hg hagrees ht⟩

/-! ## A class whose second parameter occurs in a constraint only -/

namespace ServedSample

/-- An interface `L<T>`, the class `D<T, U>` where `T : L<U>`, and the classes `C : L<O>` and `O`. -/
def catalog : Catalog where
  definitions.entries := #[
    { kind := .interfaceType, name := ⟨1⟩, params := [{ name := ⟨2⟩ }] },
    { kind := .classType, name := ⟨3⟩, params := [{ name := ⟨2⟩, constraints := [⟨2⟩] }, { name := ⟨4⟩ }] },
    { kind := .classType, name := ⟨5⟩, interfaces := [⟨5⟩] },
    { kind := .classType, name := ⟨6⟩ }]

/-- The parameters `T` and `U` of `D`, then `L<U>`, `C`, `O`, `L<O>` and `L<T>`. -/
def session : Session where
  types := .ofNodes [.param ⟨⟨2⟩, 0⟩, .param ⟨⟨2⟩, 1⟩, .app ⟨1⟩ [⟨1⟩], .named ⟨3⟩, .named ⟨4⟩,
    .app ⟨1⟩ [⟨4⟩], .app ⟨1⟩ [⟨0⟩]]

/-- Both parameters are free, and nothing is closed. -/
def unknowns : Unknowns := ⟨[⟨⟨2⟩, 0⟩, ⟨⟨2⟩, 1⟩], .empty⟩

/-- `T` becomes `C` by an answer that binds `T` first, and no substitution turns `T` into `C` and `L<T>`
into `L<O>`. -/
theorem unify_exact_served :
    (∃ b, (Unifier.runFresh .unification (Unifier.unify catalog unknowns [⟨0⟩] [⟨3⟩]) session).1 =
          .ok b ∧
        (Engine.instantiate catalog ⟨0⟩ b session).1 = ⟨3⟩ ∧ [⟨⟨2⟩, 0⟩] <+: b.domain) ∧
      ¬∃ σ, Unifier.Solution catalog session unknowns.free [⟨0⟩, ⟨6⟩] [⟨3⟩, ⟨5⟩] σ := by
  have hT : session.types.Unfolds ⟨0⟩ (.param ⟨⟨2⟩, 0⟩) := .param rfl
  have hC : session.types.Unfolds ⟨3⟩ (.named ⟨3⟩) := .named rfl
  have hO : session.types.Unfolds ⟨4⟩ (.named ⟨4⟩) := .named rfl
  have hLO : session.types.Unfolds ⟨5⟩ (.app ⟨1⟩ [.named ⟨4⟩]) := .app rfl (.cons hO .nil)
  have hLT : session.types.Unfolds ⟨6⟩ (.app ⟨1⟩ [.param ⟨⟨2⟩, 0⟩]) := .app rfl (.cons hT .nil)
  have hmentioned : Unifier.mentioned unknowns.free [.param ⟨⟨2⟩, 0⟩] = [⟨⟨2⟩, 0⟩] := by
    simp [Unifier.mentioned, unknowns, View.Mentions.appendNew]
  obtain ⟨b, hb⟩ : ∃ b, (Unifier.runFresh .unification
      (Unifier.unify catalog unknowns [⟨0⟩] [⟨3⟩]) session).1 = .ok b := ⟨_, rfl⟩
  have hfails : ∃ e, (Unifier.runFresh .unification
      (Unifier.unify catalog unknowns [⟨0⟩, ⟨6⟩] [⟨3⟩, ⟨5⟩]) session).1 = .error e ∧ e.IsMismatch :=
    ⟨.ambiguousBinding ⟨⟨2⟩, 0⟩ ⟨3⟩ ⟨4⟩, by decide +kernel, trivial⟩
  constructor
  · obtain ⟨-, hinstantiate, hbegins, -⟩ :=
      (unify_exact rfl (.cons hT .nil) (.cons hC .nil) rfl).2.2 b hb
    cases hinstantiate session (.refl _) with
    | cons hab _ => exact ⟨b, hb, hab, hmentioned ▸ hbegins⟩
  · exact (unify_exact rfl (.cons hT (.cons hLT .nil)) (.cons hC (.cons hLO .nil)) rfl).1.1 hfails

end ServedSample

end Generics

import Generics.Proofs.Deciding

/-!
# What truncation loses

A type at the greatest depth is found, but the walk does not go on above it, and when it is met again
nearer to the start it is passed over as found.  So depth alone does not tell what a truncated
enumeration lists: a type is lost only behind one that lies at the end of a path of the greatest length,
and there even a near one may be lost.
-/

namespace Generics

/-! ## Paths -/

/-- A path from `S` on which no type comes twice, the last type first. -/
inductive Trail (c : Catalog) (base : Types) (S : Tree) : List Tree → Prop
  | start : Trail c base S [S]
  | step {T U : Tree} {path : List Tree} (h : Trail c base S (T :: path))
      (hTU : DirectSupertype c base T U) (hnew : U ∉ T :: path) : Trail c base S (U :: T :: path)

/-- A path as long as an enumeration may be deep leads from `S` to `T`. -/
def Deep (c : Catalog) (base : Types) (S T : Tree) : Prop :=
  ∃ path, Trail c base S (T :: path) ∧ path.length = Limits.hierarchy.maxDepth.toNat

namespace Ascent

variable {c : Catalog} {base : Types} {path found pending found' : List Tree}
  {refused : List (List Tree)} {S : Tree}

/-- What is refused lies at the end of a path.  A type that is pending may already lie on the path, but
then it has been found and is passed over. -/
theorem trail_of_mem_refused (h : Ascent c base path found pending found' refused)
    (hfound : ∀ T ∈ path, T ∈ found) (hpending : ∀ T ∈ pending, T ∉ path → Trail c base S (T :: path)) :
    ∀ p ∈ refused, Trail c base S p := by
  induction h with
  | done => simp
  | known _ _ ih => exact ih hfound fun T hT => hpending T (List.mem_cons_of_mem _ hT)
  | refuse hT _ ih =>
    refine List.forall_mem_cons.2 ⟨hpending _ List.mem_cons_self fun hpath => hT (hfound _ hpath), ?_⟩
    exact ih (fun U hU => List.mem_append_left _ (hfound U hU)) fun U hU =>
      hpending U (List.mem_cons_of_mem _ hU)
  | @enter T path found pending Us found' found'' refused refused' hT hUs habove _ ihabove ihrest =>
    have htrail := hpending T List.mem_cons_self fun hpath => hT (hfound T hpath)
    refine List.forall_mem_append.2 ⟨ihabove (fun U hU => ?_) fun U hU hnew => ?_, ?_⟩
    · rcases List.mem_cons.1 hU with rfl | hU
      · simp
      · exact List.mem_append_left _ (hfound U hU)
    · exact .step htrail (hUs.mem_iff.1 hU) hnew
    · refine ihrest (fun U hU => habove.isPrefix.subset ?_) fun U hU =>
        hpending U (List.mem_cons_of_mem _ hU)
      exact List.mem_append_left _ (hfound U hU)

end Ascent

/-! ## What is found nevertheless -/

/-- How often an enumeration asks its guard. -/
def Engine.climbSteps (c : Catalog) (t : TypeId) (s : Session) : Nat :=
  (climbAll c t s).1.guard.iterations

/-- The answer of an enumeration is what its walk has found. -/
theorem Engine.supertypes_apply (c : Catalog) (t : TypeId) (s : Session) :
    (supertypes c t s).1 = (climbAll c t s).1.found ∧
      (supertypes c t s).2.types = (climbAll c t s).2.types := by
  rw [supertypes, bind_apply]
  split
  · exact ⟨rfl, retire_types ..⟩
  · exact ⟨rfl, retire_types ..⟩

/-- While the guard has steps left, every supertype is found to which a chain leads through types that
lie at the end of no path of the greatest length. -/
theorem mem_supertypes_of_shallow {c : Catalog} {s : Session} {t : TypeId} {T S : Tree}
    (hc : c.Grounded s.types) (ht : s.types.Unfolds t T)
    (hsteps : Engine.climbSteps c t s ≤ Limits.hierarchy.maxIterations.toNat)
    (hS : Relation.ReflTransGen
      (fun U V => DirectSupertype c s.types U V ∧ ¬Deep c s.types T U) T S) :
    ∃ u ∈ (Engine.supertypes c t s).1.toList, (Engine.supertypes c t s).2.types.Unfolds u S := by
  obtain ⟨hgrow, -, Us, refused, hw⟩ := (Engine.ascends_climbAll hc (.refl s.types) ht).elim rfl
  obtain ⟨hanswer, htypes⟩ := Engine.supertypes_apply c t s
  rw [hanswer, htypes]
  have htrails := hw.ascent.trail_of_mem_refused (S := T) (by simp) (by simpa using .start)
  obtain ⟨hfirst, hexplored⟩ := hw.ascent.explored
  -- along the chain each type is found, and a type found without what is above it lies deep
  suffices hmem : S ∈ Us by
    obtain ⟨u, hu, huS⟩ := exists_of_mem_right hw.depicts.found hmem
    exact ⟨u, hu, huS⟩
  induction hS with
  | refl => exact hfirst T List.mem_cons_self
  | tail _ hstep ih =>
    obtain ⟨hUV, hshallow⟩ := hstep
    rcases hexplored _ ih with hold | ⟨path, hpath⟩ | hall
    · cases hold
    · refine absurd ⟨path, htrails _ hpath, ?_⟩ hshallow
      exact Nat.succ.inj (hw.deep hsteps _ hpath)
    · exact hall _ hUV

/-! ## A class that grows without end -/

namespace GrowSample

/-- Interfaces `J` and `I : J`, and classes `Grow<T> : Grow<Grow<T>>` and `D : Grow<D>, I`. -/
def catalog : Catalog where
  definitions.entries := #[
    { kind := .interfaceType, name := ⟨1⟩ },
    { kind := .interfaceType, name := ⟨2⟩, interfaces := [⟨0⟩] },
    { kind := .classType, name := ⟨3⟩, params := [{ name := ⟨4⟩ }], base := some ⟨4⟩ },
    { kind := .classType, name := ⟨5⟩, base := some ⟨6⟩, interfaces := [⟨1⟩] }]

/-- The types `J`, `I`, the parameter of `Grow` with `Grow` over it once and twice, `D` and `Grow<D>`. -/
def session : Session where
  types := .ofNodes [.named ⟨1⟩, .named ⟨2⟩, .param ⟨⟨3⟩, 0⟩, .app ⟨3⟩ [⟨2⟩], .app ⟨3⟩ [⟨3⟩],
    .named ⟨4⟩, .app ⟨3⟩ [⟨5⟩]]

/-- Nothing is declared below `D`, and only `D` below `I`. -/
theorem definition?_of_directSupertype {U V : Tree} (h : DirectSupertype catalog session.types U V) :
    V.definition? ≠ some ⟨4⟩ ∧ (V.definition? = some ⟨2⟩ → U.definition? = some ⟨4⟩) := by
  have hc : catalog.WellDeclared session.types := by decide +kernel
  cases h with
  | @declared d info t T hd hinfo ht hT =>
    obtain ⟨T', hT', -, -, hsome⟩ := hc.exists_supertype hinfo ht
    obtain rfl := hT.unique hT'
    obtain ⟨e, he⟩ := Option.isSome_iff_exists.1 hsome
    have hdeclared : ∀ d info, catalog.definitions.get? d = some info → ∀ t ∈ info.supertypes,
        (catalog.view session.types).definitionOf t ≠ some ⟨4⟩ ∧
          ((catalog.view session.types).definitionOf t = some ⟨2⟩ → d = ⟨4⟩) := by decide +kernel
    rw [Tree.definition?_subst he, hd, ← he, ← Catalog.definitionOf_eq (c := catalog) rfl hT]
    obtain ⟨hD, hI⟩ := hdeclared d info hinfo t ht
    exact ⟨hD, fun h => congrArg some (hI h)⟩
  | @constraint p decl t T _ hdecl ht =>
    have hnone : ∀ p decl, catalog.definitions.param? p = some decl → decl.constraints = [] := by
      decide +kernel
    rw [hnone p decl hdecl] at ht
    cases ht

/-- The only path to `D` is the empty one. -/
theorem eq_nil_of_trail {path : List Tree} {T : Tree}
    (h : Trail catalog session.types (.named ⟨4⟩) (T :: path)) (hT : T.definition? = some ⟨4⟩) :
    path = [] := by
  cases h with
  | start => rfl
  | step _ hdirect => exact absurd hT (definition?_of_directSupertype hdirect).1

/-- The walk is cut short above `Grow<D>`, yet it finds `J` behind `I`. -/
theorem mem_supertypes_of_shallow_grow :
    (Engine.climbAll catalog ⟨5⟩ session).1.guard.exceeded = true ∧
      ∃ u ∈ (Engine.supertypes catalog ⟨5⟩ session).1.toList,
        (Engine.supertypes catalog ⟨5⟩ session).2.types.Unfolds u (.named ⟨1⟩) := by
  have hc : catalog.Grounded session.types := Catalog.WellDeclared.grounded (by decide +kernel)
  have hwalk : (Engine.climbAll catalog ⟨5⟩ session).1.guard.exceeded = true ∧
      Engine.climbSteps catalog ⟨5⟩ session ≤ Limits.hierarchy.maxIterations.toNat := by decide +kernel
  have hJ : session.types.Unfolds ⟨0⟩ (.named ⟨1⟩) := .named rfl
  have hI : session.types.Unfolds ⟨1⟩ (.named ⟨2⟩) := .named rfl
  have hDI : DirectSupertype catalog session.types (.named ⟨4⟩) (.named ⟨2⟩) := by
    simpa using DirectSupertype.declared (S := .named ⟨4⟩) rfl rfl (by decide) hI
  have hIJ : DirectSupertype catalog session.types (.named ⟨2⟩) (.named ⟨1⟩) := by
    simpa using DirectSupertype.declared (S := .named ⟨2⟩) rfl rfl (by decide) hJ
  have hshallowD : ¬Deep catalog session.types (.named ⟨4⟩) (.named ⟨4⟩) := by
    rintro ⟨path, hpath, hlength⟩
    rw [eq_nil_of_trail hpath rfl] at hlength
    cases hlength
  have hshallowI : ¬Deep catalog session.types (.named ⟨4⟩) (.named ⟨2⟩) := by
    rintro ⟨path, hpath, hlength⟩
    cases hpath with
    | step hpath hdirect =>
      rw [eq_nil_of_trail hpath ((definition?_of_directSupertype hdirect).2 rfl)] at hlength
      cases hlength
  exact ⟨hwalk.1, mem_supertypes_of_shallow hc (.named rfl) hwalk.2
    (.tail (.single ⟨hDI, hshallowD⟩) ⟨hIJ, hshallowI⟩)⟩

end GrowSample

/-! ## A tower of classes -/

namespace TowerSample

/-- Classes `C₁ : C₂, X` to `C₆₃ : C₆₄` and `C₆₄ : X`, and interfaces `X : Y` and `Y`. -/
def catalog : Catalog where
  definitions.entries := List.toArray <|
    [{ kind := .classType, name := ⟨1⟩, base := some ⟨1⟩, interfaces := [⟨64⟩] }] ++
    ((List.range 62).map fun i => { kind := .classType, name := ⟨i + 2⟩, base := some ⟨i + 2⟩ }) ++
    [{ kind := .classType, name := ⟨64⟩, interfaces := [⟨64⟩] },
      { kind := .interfaceType, name := ⟨65⟩, interfaces := [⟨65⟩] },
      { kind := .interfaceType, name := ⟨66⟩ }]

/-- The types `C₁` to `C₆₄`, `X` and `Y`. -/
def session : Session where
  types := .ofNodes ((List.range 66).map fun i => .named ⟨i + 1⟩)

/-- Two steps lead from `C₁` to `Y`, but the walk comes to `X` along the base classes first, where it is
refused, and so it does not find `Y`. -/
theorem supertypes_lose_near :
    catalog.Grounded session.types ∧
      DirectSupertype catalog session.types (.named ⟨1⟩) (.named ⟨65⟩) ∧
      DirectSupertype catalog session.types (.named ⟨65⟩) (.named ⟨66⟩) ∧
      session.types.Unfolds ⟨0⟩ (.named ⟨1⟩) ∧
      Engine.climbSteps catalog ⟨0⟩ session < 100000 ∧
      ¬∃ u ∈ (Engine.supertypes catalog ⟨0⟩ session).1.toList,
        (Engine.supertypes catalog ⟨0⟩ session).2.types.Unfolds u (.named ⟨66⟩) := by
  have hc : catalog.Grounded session.types := Catalog.WellDeclared.grounded (by decide +kernel)
  obtain ⟨hC, hX, hY⟩ : session.types.get? ⟨0⟩ = some (.named ⟨1⟩) ∧
      session.types.get? ⟨64⟩ = some (.named ⟨65⟩) ∧
      session.types.get? ⟨65⟩ = some (.named ⟨66⟩) := by decide +kernel
  have hCX : DirectSupertype catalog session.types (.named ⟨1⟩) (.named ⟨65⟩) := by
    simpa using DirectSupertype.declared (S := .named ⟨1⟩) rfl (by rfl) (by decide) (.named hX)
  have hXY : DirectSupertype catalog session.types (.named ⟨65⟩) (.named ⟨66⟩) := by
    simpa using DirectSupertype.declared (S := .named ⟨65⟩) rfl (by rfl) (by decide) (.named hY)
  have hwalk : Engine.climbSteps catalog ⟨0⟩ session < 100000 ∧
      ⟨65⟩ ∉ (Engine.climbAll catalog ⟨0⟩ session).1.found.toList := by decide +kernel
  refine ⟨hc, hCX, hXY, .named hC, hwalk.1, ?_⟩
  rintro ⟨u, hu, hunfolds⟩
  obtain ⟨hgrow, -⟩ := (Engine.settles_supertypes hc (.refl _) (.named hC)).elim rfl
  rw [hunfolds.inj (.named (hgrow _ _ hY)), (Engine.supertypes_apply ..).1] at hu
  exact hwalk.2 hu

end TowerSample

end Generics

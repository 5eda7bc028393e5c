import Generics.Proofs.Bindings
import Generics.Proofs.Growth
import Generics.Proofs.HashConsing

/-!
# Composition of substitutions

To instantiate twice is to instantiate once with the composed substitution, whose images under the
first are themselves instantiated with the second.  On trees this is `Tree.subst_subst`.  On
handles it says more: an image that mentions replaced parameters is not walked again, and the two
ways, which intern their nodes in different orders, end with the same handle.
-/

namespace Generics

/-- What is looked up in related lists is related. -/
theorem rel_lookup_of_forall₂ {α β : Type} {R : α → β → Prop} {l : List (Param × α)}
    {m : List (Param × β)} (h : List.Forall₂ (fun e e' => e'.1 = e.1 ∧ R e.2 e'.2) l m) (p : Param) :
    Option.Rel R (l.lookup p) (m.lookup p) := by
  induction h with
  | nil => exact .none
  | @cons e e' l m he _ ih =>
    obtain ⟨q, a⟩ := e
    obtain ⟨q', b⟩ := e'
    obtain ⟨rfl, hab⟩ : q' = q ∧ R a b := he
    simp only [List.lookup_cons]
    cases p == q' with
    | true => exact .some hab
    | false => exact ih

/-- Entries are dropped by their parameters, so the ones that are kept read as before. -/
theorem lookup_filter {α : Type} (keep : Param → Bool) {p : Param} (h : keep p = true)
    (l : List (Param × α)) : (l.filter fun e => keep e.1).lookup p = l.lookup p := by
  induction l with
  | nil => rfl
  | cons e l ih =>
    obtain ⟨q, a⟩ := e
    by_cases hp : p = q
    · subst hp
      simp [h]
    · have hne : (p == q) = false := beq_false_of_ne hp
      cases hkeep : keep q <;> simp [List.lookup_cons, hne, hkeep, ih]

namespace Substitution

variable {ts us : Types} {σ ρ : Substitution} {f g : Param → Tree}

/-- The images of a substitution are determined by the types. -/
theorem Unfolds.unique (hf : σ.Unfolds ts f) (hg : σ.Unfolds ts g) : f = g := by
  funext p
  cases hp : σ.get? p with
  | none => rw [(hf p).2 hp, (hg p).2 hp]
  | some t => exact ((hf p).1 t hp).unique ((hg p).1 t hp)

/-- A substitution is finite where its entries are. -/
theorem Finite.of_entries (h : ∀ e ∈ σ.entries, ts.Finite e.2) : σ.Finite ts :=
  finite_iff.2 fun _ _ ht => h _ (mem_of_lookup ht)

theorem Finite.of_ordered {c : Catalog} (hc : c.Ordered ts)
    (h : ∀ e ∈ σ.entries, e.2.val < ts.size) : σ.Finite ts :=
  .of_entries fun e he => hc.finite_iff.2 (h e he)

/-- A parameter that no entry moves stands for itself. -/
theorem Unfolds.eq_param {p : Param} (hf : σ.Unfolds ts f)
    (h : ∀ t, σ.get? p = some t → ts.get? t = some (.param p)) : f p = .param p := by
  cases hp : σ.get? p with
  | none => exact (hf p).2 hp
  | some t => exact ((hf p).1 t hp).unique (.param (h t hp))

end Substitution

namespace Engine

variable {c : Catalog} {ts us : Types} {σ ρ : Substitution} {f g : Param → Tree}

/-- First `σ`, then `ρ`: the images under `σ` are instantiated with `ρ`, and behind them stand the
entries of `ρ` for the parameters that `σ` does not map. -/
def compose (c : Catalog) (σ ρ : Substitution) : Engine Substitution := do
  let images ← σ.entries.mapM fun e => (e.1, ·) <$> instantiate c e.2 ρ
  pure ⟨images ++ ρ.entries.filter fun e => !σ.contains e.1⟩

/-- Instantiation only adds types. -/
theorem grows_instantiate (hplain : c.overrides = []) {s : Session} {t : TypeId}
    (ht : s.types.Finite t) (hσ : σ.Finite s.types) :
    s.types.Grows (instantiate c t σ s).2.types := by
  obtain ⟨T, hT⟩ := ht
  obtain ⟨f, hf⟩ := hσ
  exact ((settles_instantiate hplain hT hf).elim rfl).1

/-- The images under `σ`, instantiated with `ρ`. -/
theorem settles_images (hplain : c.overrides = []) (hσ : ∀ e ∈ σ.entries, ts.Finite e.2)
    (hρ : ρ.Unfolds ts g) :
    Settles (σ.entries.mapM fun e => (e.1, ·) <$> instantiate c e.2 ρ) ts fun images us cut =>
      List.Forall₂ (fun e e' => e'.1 = e.1 ∧ ∀ T, ts.Unfolds e.2 T → us.Unfolds e'.2 (T.subst g))
        σ.entries images ∧ cut = false := by
  refine Settles.mapM (R := fun us (e e' : Param × TypeId) =>
    e'.1 = e.1 ∧ ∀ T, ts.Unfolds e.2 T → us.Unfolds e'.2 (T.subst g)) ?grow ?each
  case grow => exact fun us vs e e' hgrow h => ⟨h.1, fun T hT => (h.2 T hT).grow hgrow⟩
  case each =>
    intro e he us hgrow
    obtain ⟨T, hT⟩ := hσ e he
    refine (settles_instantiate hplain (hT.grow hgrow) (hρ.grow hgrow)).map ?_
    rintro u vs _ - ⟨hu, rfl, -⟩
    exact ⟨⟨rfl, fun T' hT' => hT.unique hT' ▸ hu⟩, rfl⟩

/-- The composed substitution sends a parameter where `σ` and then `ρ` send it. -/
theorem settles_compose (hplain : c.overrides = []) (hentries : ∀ e ∈ σ.entries, ts.Finite e.2)
    (hσ : σ.Unfolds ts f) (hρ : ρ.Unfolds ts g) :
    Settles (compose c σ ρ) ts fun τ us cut =>
      τ.Unfolds us (fun p => (f p).subst g) ∧ cut = false := by
  refine (settles_images hplain hentries hρ).bind ?_
  rintro images us _ hgrow ⟨himages, rfl⟩
  refine .pure ⟨fun p => ?_, rfl⟩
  have himage := rel_lookup_of_forall₂
    (R := fun t u => ∀ T, ts.Unfolds t T → us.Unfolds u (T.subst g)) himages p
  simp only [Substitution.get?, List.lookup_append]
  cases hp : σ.entries.lookup p with
  | some t =>
    -- an image under `σ` hides what `ρ` says about the parameter
    rw [hp] at himage
    generalize images.lookup p = o at himage ⊢
    cases himage with
    | some hu =>
      simp only [Option.some_or, Option.some.injEq, reduceCtorEq, false_implies, and_true]
      rintro _ rfl
      exact hu (f p) ((hσ p).1 t hp)
  | none =>
    rw [hp] at himage
    generalize images.lookup p = o at himage ⊢
    cases himage
    have hfree : (!σ.contains p) = true := by simp [Substitution.contains, Substitution.get?, hp]
    rw [Option.none_or, lookup_filter (fun q => !σ.contains q) hfree, (hσ p).2 hp,
      Tree.subst_param]
    exact (hρ.grow hgrow) p

/-- Composition only adds types. -/
theorem grows_compose (hplain : c.overrides = []) {s : Session}
    (hσ : ∀ e ∈ σ.entries, s.types.Finite e.2) (hρ : ρ.Finite s.types) :
    s.types.Grows (compose c σ ρ s).2.types := by
  obtain ⟨f, hf⟩ := Substitution.Finite.of_entries hσ
  obtain ⟨g, hg⟩ := hρ
  exact ((settles_compose hplain hσ hf hg).elim rfl).1

/-- Instantiation is substitution on trees.  The answer is the type whose tree has every mapped
parameter replaced by its image, all at once; a type in which nothing moves is its own instance and
nothing is interned; and to instantiate the answer with a further substitution `ρ`, in any session
`a` that continues the first, is to instantiate the type once with the composed substitution, which
may be computed in any session `b` and used in any later session `d`: the handles agree in every
store that continues both ways. -/
theorem instantiate_composes (hplain : c.overrides = []) {s s₁ : Session} (hs : s.types.Unfolded)
    {t u : TypeId} (ht : t.val < s.types.size) (hσ : ∀ e ∈ σ.entries, e.2.val < s.types.size)
    (hu : instantiate c t σ s = (u, s₁)) :
    ∃ T f, s.types.Unfolds t T ∧ σ.Unfolds s.types f ∧
      s.types.Grows s₁.types ∧ s₁.types.Unfolds u (T.subst f) ∧
      ((∀ p ∈ T.params, ∀ w, σ.get? p = some w → s.types.get? w = some (.param p)) →
        u = t ∧ s₁.types = s.types) ∧
      ∀ (ρ τ : Substitution) (v w : TypeId) (a a' b b' d d' : Session) (ts : Types),
        s₁.types.Grows a.types → ρ.Finite a.types → instantiate c u ρ a = (v, a') →
        s.types.Grows b.types → ρ.Finite b.types → compose c σ ρ b = (τ, b') →
        b'.types.Grows d.types → instantiate c t τ d = (w, d') →
        a'.types.Grows ts → d'.types.Grows ts → v = w := by
  obtain ⟨T, hT⟩ := hs t ht
  have hentries : ∀ e ∈ σ.entries, s.types.Finite e.2 := fun e he => hs e.2 (hσ e he)
  obtain ⟨f, hf⟩ := Substitution.Finite.of_entries hentries
  obtain ⟨hgrow, hU, -, hsame⟩ := (settles_instantiate hplain hT hf).of_apply_eq hu
  refine ⟨T, f, hT, hf, hgrow, hU, ?unmoved, ?composed⟩
  case unmoved =>
    intro hfix
    have hself : T.subst f = T := Tree.subst_eq_self fun p hp => hf.eq_param (hfix p hp)
    have hkept : s₁.types = s.types := hsame t (hself.symm ▸ hT)
    rw [hself, hkept] at hU
    exact ⟨hU.inj hT, hkept⟩
  case composed =>
    intro ρ τ v w a a' b b' d d' ts hsa ⟨g, hg⟩ hv hsb ⟨g', hg'⟩ hτ hbd hw hats hdts
    obtain ⟨haa', hV, -⟩ := (settles_instantiate hplain (hU.grow hsa) hg).of_apply_eq hv
    obtain ⟨hbb', hτ', -⟩ :=
      (settles_compose hplain (fun e he => (hentries e he).grow hsb) (hf.grow hsb) hg').of_apply_eq hτ
    have hsd := hsb.trans (hbb'.trans hbd)
    obtain ⟨hdd', hW, -⟩ :=
      (settles_instantiate hplain (hT.grow hsd) (hτ'.grow hbd)).of_apply_eq hw
    -- the images of `ρ` are the same in both sessions, which have a common future
    have hb := hbb'.trans (hbd.trans (hdd'.trans hdts))
    obtain rfl : g = g' := (hg.grow (haa'.trans hats)).unique (hg'.grow hb)
    rw [Tree.subst_subst] at hV
    exact (hV.grow hats).inj (hW.grow hdts)

end Engine

/-! ## Images that mention the parameters they replace -/

namespace TurnSample

/-- The parameters `T`, `U` and `V` of `P`, then `L<U>`, `L<T>` and `P<T, L<U>, V>`. -/
def session : Session where
  types := .ofNodes [.param ⟨⟨2⟩, 0⟩, .param ⟨⟨2⟩, 1⟩, .param ⟨⟨2⟩, 2⟩, .app ⟨1⟩ [⟨1⟩], .app ⟨1⟩ [⟨0⟩],
    .app ⟨2⟩ [⟨0⟩, ⟨3⟩, ⟨2⟩]]

/-- `T` becomes `U`, and `U` becomes `L<T>`. -/
def turn : Substitution := ⟨[(⟨⟨2⟩, 0⟩, ⟨1⟩), (⟨⟨2⟩, 1⟩, ⟨4⟩)]⟩

/-- The session after `P<U, L<L<T>>, V>` has been interned as the instance. -/
def turned : Session := (Engine.instantiate {} ⟨5⟩ turn session).2

/-- `U` becomes `L<L<T>>`, which the first instance has added, and `V` becomes `T`. -/
def next : Substitution := ⟨[(⟨⟨2⟩, 1⟩, ⟨6⟩), (⟨⟨2⟩, 2⟩, ⟨0⟩)]⟩

/-- The instance of the instance. -/
def twice : TypeId × Session := Engine.instantiate {} ⟨7⟩ next turned

/-- Both substitutions in one. -/
def both : Substitution × Session := Engine.compose {} turn next twice.2

/-- `T` becomes `T`. -/
def still : Substitution := ⟨[(⟨⟨2⟩, 0⟩, ⟨0⟩)]⟩

/-- Both ways end in `P<L<L<T>>, L<L<T>>, T>`, and where `T` stays `T` nothing is interned. -/
theorem instantiate_composes_turn :
    twice.1 = (Engine.instantiate {} ⟨5⟩ both.1 both.2).1 ∧
      (Engine.instantiate {} ⟨5⟩ still session).2.types = session.types := by
  have hunfolded : session.types.Unfolded := fun t ht =>
    (show Catalog.Ordered {} session.types by decide +kernel).exists_unfolds ht
  constructor
  · obtain ⟨T, f, -, -, hgrow, -, -, hcomposed⟩ := Engine.instantiate_composes rfl hunfolded
      (by decide +kernel) (by decide +kernel)
      (show Engine.instantiate {} ⟨5⟩ turn session = (⟨7⟩, turned) from
        Prod.fst_eq_iff.1 (by decide +kernel))
    have hturned : Catalog.Ordered {} turned.types := by decide +kernel
    have htwice : Catalog.Ordered {} twice.2.types := by decide +kernel
    have hboth : Catalog.Ordered {} both.2.types := by decide +kernel
    have hgrow₁ : turned.types.Grows twice.2.types :=
      Engine.grows_instantiate rfl (hturned.finite_iff.2 (by decide +kernel))
        (.of_ordered hturned (by decide +kernel))
    have hgrow₂ : twice.2.types.Grows both.2.types :=
      Engine.grows_compose rfl (fun e he => htwice.finite_iff.2 (by revert e; decide +kernel))
        (.of_ordered htwice (by decide +kernel))
    have hgrow₃ : both.2.types.Grows (Engine.instantiate {} ⟨5⟩ both.1 both.2).2.types :=
      Engine.grows_instantiate rfl (hboth.finite_iff.2 (by decide +kernel))
        (.of_ordered hboth (by decide +kernel))
    exact hcomposed next both.1 _ _ turned twice.2 twice.2 both.2 both.2 _ _ (.refl _)
      (.of_ordered hturned (by decide +kernel)) rfl (hgrow.trans hgrow₁)
      (.of_ordered htwice (by decide +kernel)) rfl (.refl _) rfl (hgrow₂.trans hgrow₃) (.refl _)
  · obtain ⟨T, f, -, -, -, -, hunmoved, -⟩ := Engine.instantiate_composes rfl hunfolded
      (by decide +kernel) (by decide +kernel)
      (rfl : Engine.instantiate {} ⟨5⟩ still session = (_, _))
    refine (hunmoved fun p _ w hw => ?_).2
    obtain ⟨rfl, rfl⟩ : p = ⟨⟨2⟩, 0⟩ ∧ w = ⟨0⟩ := by
      simpa [still] using Substitution.mem_of_lookup hw
    decide +kernel

end TurnSample

end Generics

import Generics.Proofs.Deciding
import Generics.Proofs.Listing

/-!
# Assignability as a greatest fixpoint

Over what enumerations list, the answers of a comparison are those of the greatest relation that
satisfies the rules of assignability: a positive answer always, a negative one if the guard of the
comparison itself has refused no step.
-/

namespace Generics

/-- Whether the guard of a comparison refuses one of its steps, apart from what the guards of
enumerations do. -/
def Comparison.refused (c : Catalog) (target source : TypeId) (s : Session) : Bool :=
  ((accepts c target source).run { limits := .assignability } s).1.2.exceeded

/-- A target that is said to accept a source is related to it by a consistent relation; one that is
said not to accept it is related to it by none, unless the guard has refused a step. -/
theorem isAssignable_greatest {c : Catalog} {s : Session} {target source : TypeId} {T S : Tree}
    (hc : c.Grounded s.types) (ht : s.types.Unfolds target T) (hs : s.types.Unfolds source S) :
    ((Engine.isAssignable c target source s).1 = true →
        ∃ R, Consistent c s.types (Listed c s.types) R ∧ R T S) ∧
      ((Engine.isAssignable c target source s).1 = false →
        Comparison.refused c target source s = false →
        ∀ R, Consistent c s.types (Listed c s.types) R → ¬R T S) := by
  have hsurveys : Comparison.Surveys c s.types (Listed c s.types) false := fun _ _ _ hbase ht =>
    (Engine.settles_supertypes_listed hc hbase ht).mono fun _ _ _ _ h => ⟨h.1, fun _ => h.2⟩
  have hwatches :=
    Comparison.watches_acceptsThrough hc hsurveys (.refl _) ht hs (Guard.Keeps.refl _)
  obtain ⟨-, -, hsound, hcomplete⟩ := Engine.Settles.elim hwatches rfl
  refine ⟨hsound, fun hanswer hrefused R hR hTS => ?_⟩
  exact absurd ((hcomplete hrefused ⟨R, hR, hTS⟩).symm.trans hanswer) nofun

/-! ## A class that is a collection of itself -/

namespace LoopSample

/-- An interface `E<out T>` and the classes `L : E<L>` and `O`. -/
def catalog : Catalog where
  definitions.entries := #[
    { kind := .interfaceType, name := ⟨1⟩, params := [{ name := ⟨2⟩, variance := .covariant }] },
    { kind := .classType, name := ⟨3⟩, interfaces := [⟨1⟩] },
    { kind := .classType, name := ⟨4⟩ }]

/-- The types `L`, `E<L>`, `E<E<L>>`, `O` and `E<O>`. -/
def session : Session where
  types := .ofNodes [.named ⟨2⟩, .app ⟨1⟩ [⟨0⟩], .app ⟨1⟩ [⟨1⟩], .named ⟨3⟩, .app ⟨1⟩ [⟨3⟩]]

/-- `E<E<L>>` accepts `L`, and `E<O>` does not. -/
theorem isAssignable_greatest_loop :
    (∃ R, Consistent catalog session.types (Listed catalog session.types) R ∧
        R (.app ⟨1⟩ [.app ⟨1⟩ [.named ⟨2⟩]]) (.named ⟨2⟩)) ∧
      ∀ R, Consistent catalog session.types (Listed catalog session.types) R →
        ¬R (.app ⟨1⟩ [.named ⟨3⟩]) (.named ⟨2⟩) := by
  have hc : catalog.Grounded session.types := Catalog.WellDeclared.grounded (by decide +kernel)
  have hL : session.types.Unfolds ⟨0⟩ (.named ⟨2⟩) := .named rfl
  have hO : session.types.Unfolds ⟨3⟩ (.named ⟨3⟩) := .named rfl
  have hEL : session.types.Unfolds ⟨1⟩ (.app ⟨1⟩ [.named ⟨2⟩]) := .app rfl (.cons hL .nil)
  have hEEL : session.types.Unfolds ⟨2⟩ (.app ⟨1⟩ [.app ⟨1⟩ [.named ⟨2⟩]]) :=
    .app rfl (.cons hEL .nil)
  have hEO : session.types.Unfolds ⟨4⟩ (.app ⟨1⟩ [.named ⟨3⟩]) := .app rfl (.cons hO .nil)
  exact ⟨(isAssignable_greatest hc hEEL hL).1 (by decide +kernel),
    (isAssignable_greatest hc hEO hL).2 (by decide +kernel) (by decide +kernel)⟩

end LoopSample

end Generics

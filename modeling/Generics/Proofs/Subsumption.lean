import Generics.Proofs.GreatestFixpoint

/-!
# Subsumption

Assignability goes along with subtyping: what accepts a supertype of a type accepts the type.
-/

namespace Generics

/-- What lies above a supertype lies above the type, so the reasons to accept one are reasons to accept the
other. -/
theorem AcceptsBy.of_supertype {c : Catalog} {base : Types} {R : Tree → Tree → Prop} {T S S' : Tree}
    (h : AcceptsBy c base R T S') (hS : Supertype c base S S') : AcceptsBy c base R T S := by
  cases h with
  | supertype h => exact .supertype (hS.trans h)
  | variant hinfo hkind hvariant h hlen hargs =>
    exact .variant hinfo hkind hvariant (hS.trans h) hlen hargs

theorem Accepts.of_supertype {c : Catalog} {base : Types} {T S S' : Tree}
    (h : Accepts c base T S') (hS : Supertype c base S S') : Accepts c base T S :=
  .of_acceptsBy (h.acceptsBy.of_supertype hS)

/-- If a type found above `source` is accepted once, `source` is accepted whenever no guard refuses a step
of the comparison. -/
theorem isAssignable_of_mem_supertypes {c : Catalog} {s s' s'' : Session}
    {target source source' : TypeId} {T S : Tree} (hc : c.Grounded s.types)
    (ht : s.types.Unfolds target T) (hs : s.types.Unfolds source S)
    (hmem : source' ∈ (Engine.supertypes c source s).1.toList)
    (hs' : (Engine.supertypes c source s).2.types.Grows s'.types)
    (haccepts : (Engine.isAssignable c target source' s').1 = true)
    (hs'' : s.types.Grows s''.types)
    (hlimit : Engine.cutShort (Engine.isAssignable c target source) s'' = false) :
    (Engine.isAssignable c target source s'').1 = true := by
  obtain ⟨hgrow, habove⟩ := (Engine.settles_supertypes hc (.refl _) hs).elim rfl
  obtain ⟨S', hS', hSS'⟩ := habove.sound source' hmem
  -- the store has grown between the questions, but each type is the same tree throughout
  have hbase : s.types.Grows s'.types := hgrow.trans hs'
  obtain ⟨-, hsound, -⟩ :=
    (Engine.settles_isAssignable hc hbase (ht.grow hbase) (hS'.grow hs')).elim rfl
  obtain ⟨-, -, hcomplete⟩ :=
    (Engine.settles_isAssignable hc hs'' (ht.grow hs'') (hs.grow hs'')).elim rfl
  exact hcomplete hlimit ((hsound haccepts).of_supertype hSS')

namespace LoopSample

/-- `E<E<L>>` accepts `E<L>`, which lies above `L`, and so it accepts `L`. -/
theorem isAssignable_of_mem_supertypes_loop :
    (⟨1⟩ : TypeId) ∈ (Engine.supertypes catalog ⟨0⟩ session).1.toList ∧
      (Engine.isAssignable catalog ⟨2⟩ ⟨1⟩ (Engine.supertypes catalog ⟨0⟩ session).2).1 = true ∧
      (Engine.isAssignable catalog ⟨2⟩ ⟨0⟩ session).1 = true := by
  have hc : catalog.Grounded session.types := Catalog.WellDeclared.grounded (by decide +kernel)
  have hL : session.types.Unfolds ⟨0⟩ (.named ⟨2⟩) := .named rfl
  have hEEL : session.types.Unfolds ⟨2⟩ (.app ⟨1⟩ [.app ⟨1⟩ [.named ⟨2⟩]]) :=
    .app rfl (.cons (.app rfl (.cons hL .nil)) .nil)
  have hmem : (⟨1⟩ : TypeId) ∈ (Engine.supertypes catalog ⟨0⟩ session).1.toList := by decide +kernel
  have haccepts : (Engine.isAssignable catalog ⟨2⟩ ⟨1⟩
      (Engine.supertypes catalog ⟨0⟩ session).2).1 = true := by decide +kernel
  exact ⟨hmem, haccepts,
    isAssignable_of_mem_supertypes hc hEEL hL hmem (.refl _) haccepts (.refl _) (by decide +kernel)⟩

end LoopSample

end Generics

import Generics.Proofs.Growth.Resolving
import Generics.Store

/-!
# Calls only grow a store

A host uses the engine through a few calls.  Whatever a call answers, and however it fails, the
catalog stays as it is and the types that the store knows stay what they are.  New applications
mention older types only, so the store stays ordered and no type ever becomes infinite: the invariant
that all walks through types rest on survives any series of calls.
-/

namespace Generics

/-- What a host may ask of the engine. -/
inductive Call
  | instantiate (t : TypeId) (σ : Substitution)
  | supertypes (t : TypeId)
  | isAssignable (target source : TypeId)
  | construct (d : DefId) (args : List TypeId)
  | unify (limits : Limits) (u : Unknowns) (patterns concretes : List TypeId)
  /-- Close an implementation for an abstraction, given types for the parameters. -/
  | close (k : Closing) (abstraction : TypeId) (found : Substitution)
  | resolve (r : Request)
  | closedImplementation (abstraction implementation : TypeId)
  | servesEveryInstance (abstraction implementation : TypeId)
  | getOrResolve (k : Cache) (abstraction implementation : TypeId)

namespace Call

/-- The types that a substitution maps to. -/
def images (σ : Substitution) : List TypeId := σ.entries.map (·.2)

/-- The types that a call is about. -/
def types : Call → List TypeId
  | instantiate t σ => t :: images σ
  | supertypes t => [t]
  | isAssignable target source => [target, source]
  | construct _ args => args
  | unify _ u patterns concretes => images u.closure ++ patterns ++ concretes
  | close k abstraction found => abstraction :: k.args ++ images found
  | resolve r => [r.abstraction, r.implementation]
  | closedImplementation abstraction implementation => [abstraction, implementation]
  | servesEveryInstance abstraction implementation => [abstraction, implementation]
  | getOrResolve _ abstraction implementation => [abstraction, implementation]

/-- Perform a call, whatever its answer is. -/
def perform (c : Catalog) : Call → Engine Unit
  | instantiate t σ => discard (Engine.instantiate c t σ)
  | supertypes t => discard (Engine.supertypes c t)
  | isAssignable target source => discard (Engine.isAssignable c target source)
  | construct d args => discard (Engine.construct c d args)
  | unify limits u patterns concretes =>
    discard (Unifier.runFresh limits (Unifier.unify c u patterns concretes))
  | close k abstraction found => discard (k.close c abstraction found).run
  | resolve r => discard (r.resolve c)
  | closedImplementation abstraction implementation =>
    discard (Engine.closedImplementation c abstraction implementation)
  | servesEveryInstance abstraction implementation =>
    discard (Engine.servesEveryInstance c abstraction implementation)
  | getOrResolve k abstraction implementation =>
    discard (k.getOrResolve c abstraction implementation)

variable {c : Catalog} {ts : Types} {call : Call}

theorem finite_of_images {σ : Substitution} (h : ∀ t ∈ images σ, ts.Finite t) : σ.Finite ts :=
  Substitution.finite_iff.2 fun p t ht =>
    h t (List.mem_map.2 ⟨(p, t), Substitution.mem_of_lookup ht, rfl⟩)

/-- A call only adds types. -/
theorem keeps_perform (hc : c.Ordered ts) (h : ∀ t ∈ call.types, ts.Finite t) :
    (Growth.engine c).Keeps (call.perform c) ts := by
  cases call with
  | instantiate t σ =>
    obtain ⟨ht, hσ⟩ := List.forall_mem_cons.1 h
    exact Growth.discard (Growth.instantiate hc ht (finite_of_images hσ))
  | supertypes t => exact Growth.discard (Growth.supertypes hc (h t List.mem_cons_self))
  | isAssignable target source =>
    have htarget := h target List.mem_cons_self
    have hsource := h source (List.mem_cons_of_mem _ List.mem_cons_self)
    exact Growth.discard (Growth.isAssignable hc htarget hsource)
  | construct d args => exact Growth.discard (Growth.construct hc h)
  | unify limits u patterns concretes =>
    obtain ⟨h, hconcretes⟩ := List.forall_mem_append.1 h
    obtain ⟨hclosure, hpatterns⟩ := List.forall_mem_append.1 h
    exact Growth.discard
      (Growth.runUnify limits hc (finite_of_images hclosure) hpatterns hconcretes)
  | close k abstraction found =>
    obtain ⟨h, hfound⟩ := List.forall_mem_append.1 h
    obtain ⟨habstraction, hargs⟩ := List.forall_mem_cons.1 h
    exact Growth.discard ((Growth.engine c).run_except
      (Growth.close hc hargs habstraction (finite_of_images hfound)))
  | resolve r => exact Growth.discard (Growth.resolve hc)
  | closedImplementation => exact Growth.discard (Growth.closedImplementation hc)
  | servesEveryInstance => exact Growth.discard (Growth.servesEveryInstance hc)
  | getOrResolve => exact Growth.discard (Growth.getOrResolve hc)

end Call

/-! ## Stores -/

/-- What a call, or a series of calls, does to a store: the catalog stays, known types stay as they
are, and the store stays ordered. -/
structure Store.Grows (s s' : Store) : Prop where
  catalog : s'.catalog = s.catalog
  types : s.session.types.Grows s'.session.types
  ordered : s'.catalog.Ordered s'.session.types

/-- One call about types that the store knows. -/
def Store.Step (s s' : Store) : Prop :=
  ∃ call : Call, (∀ t ∈ call.types, t.val < s.session.types.size) ∧
    s' = (s.run call.perform).2

theorem Store.Step.grows {s s' : Store} (h : s.Step s') (hs : s.catalog.Ordered s.session.types) :
    s.Grows s' := by
  obtain ⟨call, hcall, rfl⟩ := h
  obtain ⟨hgrow, hordered, -⟩ := Call.keeps_perform hs
    (fun t ht => hs.exists_unfolds (hcall t ht)) s.session rfl
  exact ⟨rfl, hgrow, hordered⟩

/-- A series of calls only grows an ordered store. -/
theorem Store.grows_of_steps {s s' : Store} (h : Relation.ReflTransGen Store.Step s s')
    (hs : s.catalog.Ordered s.session.types) : s.Grows s' := by
  induction h with
  | refl => exact ⟨rfl, .refl _, hs⟩
  | tail _ hstep ih =>
    have hnext := hstep.grows ih.ordered
    exact ⟨hnext.catalog.trans ih.catalog, ih.types.trans hnext.types, hnext.ordered⟩

/-- A call about known types, whatever its answer is, leaves the catalog of an ordered store as it
is, keeps every known type, and leaves the store ordered, so that each of its types is a finite
tree. -/
theorem run_perform_grows {s : Store} (hs : s.catalog.Ordered s.session.types) {call : Call}
    (hcall : ∀ t ∈ call.types, t.val < s.session.types.size) :
    (s.run call.perform).2.catalog = s.catalog ∧
      (∀ t n, s.session.types.get? t = some n →
        (s.run call.perform).2.session.types.get? t = some n) ∧
      s.catalog.Ordered (s.run call.perform).2.session.types ∧
      ∀ t n, (s.run call.perform).2.session.types.get? t = some n →
        ∃ T, (s.run call.perform).2.session.types.Unfolds t T := by
  have hgrows : s.Grows (s.run call.perform).2 := Store.Step.grows ⟨call, hcall, rfl⟩ hs
  exact ⟨rfl, hgrows.types, hgrows.ordered, fun t n hn =>
    hgrows.ordered.exists_unfolds (Types.lt_size_of_get? hn)⟩

namespace FixedSample

/-- The sample store, in which `D<T, C>` is to serve `G<C>`. -/
def store : Store := { catalog, session }

/-- The resolution that closes `D<T, C>` to `D<C, C>` leaves the store ordered. -/
theorem run_perform_grows_partial :
    (∀ t n, store.session.types.get? t = some n →
        (store.run (Call.resolve request).perform).2.session.types.get? t = some n) ∧
      store.catalog.Ordered (store.run (Call.resolve request).perform).2.session.types :=
  have hordered : store.catalog.Ordered store.session.types := by decide +kernel
  have hknown : ∀ t ∈ (Call.resolve request).types, t.val < store.session.types.size := by
    decide +kernel
  have hgrows := run_perform_grows hordered hknown
  ⟨hgrows.2.1, hgrows.2.2.1⟩

end FixedSample

end Generics

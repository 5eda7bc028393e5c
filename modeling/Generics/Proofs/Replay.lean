import Generics.Proofs.Examination
import Generics.Proofs.Soundness

/-!
# Replays

A resolution leaves behind every type that it needed.  Asked again on the store that it leaves
behind, or on any larger one, it answers the same and interns nothing, whatever it answered.
-/

namespace Generics

namespace Request

variable {c : Catalog} {r : Request} {ts : Types} {A I : Tree}

/-- Every request about types that unfold settles, errors included. -/
theorem settles_resolve (hc : c.Grounded ts) (hA : ts.Unfolds r.abstraction A)
    (hI : ts.Unfolds r.implementation I) : Engine.Settles (r.resolve c) ts fun _ _ _ => True := by
  have hplain := hc.plain
  cases hi : (c.view ts).examine r.abstraction r.implementation with
  | error e =>
    unfold resolve
    refine .query_bind c (fun us hus => ?_) ?_
    · exact c.examine_eq hplain hplain (fun _ _ => rfl) hus hA A.over_true hI I.over_true
    · rw [hi]
      exact .pure trivial
  | ok i =>
    by_cases hfree : i.free = []
    · exact settles_resolve_of_free_eq_nil hplain hi hfree
        ((settles_resolveClosed hc (.refl ts) hA hI).map fun _ _ _ _ _ => trivial)
    · refine settles_resolve_of_free_ne_nil hplain hi hfree
        ((Engine.settles_definitionType c i.definition ts).bind ?_)
      rintro o us _ hgrow ⟨rfl, hopened⟩
      obtain ⟨-, ⟨I', hI', hwf, hdefinition⟩, hargs, -⟩ := (c.examine_eq_ok_iff hplain).1 hi
      obtain ⟨info, hinfo⟩ := hwf.exists_definition hdefinition
      rw [hinfo] at hopened
      obtain ⟨opened, rfl, hopened⟩ := hopened
      have hFs : List.Forall₂ ts.Unfolds i.args I'.args := by
        rw [hargs]
        exact Engine.exists_argsOf_unfold hplain hI'
      exact (settles_resolveOpen hc hgrow (hA.grow hgrow) (Types.forall₂_unfolds_grow hFs hgrow)
        hopened).map fun _ _ _ _ _ => trivial

end Request

/-- A request about known types, asked again on any store that holds the types which its first answer
left behind, has the same answer and adds no type. -/
theorem resolve_replay {c : Catalog} {r : Request} {s t : Session} (hc : c.Ordered s.types)
    (habstraction : r.abstraction.val < s.types.size)
    (himplementation : r.implementation.val < s.types.size)
    (hgrow : (r.resolve c s).2.types.Grows t.types) :
    (r.resolve c t).1 = (r.resolve c s).1 ∧ (r.resolve c t).2.types = t.types := by
  obtain ⟨A, hA⟩ := hc.exists_unfolds habstraction
  obtain ⟨I, hI⟩ := hc.exists_unfolds himplementation
  obtain ⟨answer, us, cut, hrun, -, -, hagain⟩ := Request.settles_resolve hc.grounded hA hI
  obtain ⟨hanswer, hus, -⟩ := hrun s rfl
  rw [hus] at hgrow
  obtain ⟨hanswer', htypes, -⟩ := hagain t.types hgrow t rfl
  exact ⟨hanswer'.trans hanswer.symm, htypes⟩

namespace FixedSample

/-- The session after the request for a `G<C>` has been answered with `D<C, C>`, and after a
`G<D<C, C>>` has been interned. -/
def later : Session where
  types := ((request.resolve catalog session).2.types.intern (.app ⟨1⟩ [⟨7⟩])).2

/-- The request is answered with `D<C, C>` again. -/
theorem resolve_replay_partial : (request.resolve catalog session).1 = .ok (.valid ⟨7⟩) ∧
    later.types.size = (request.resolve catalog session).2.types.size + 1 ∧
    (request.resolve catalog later).1 = .ok (.valid ⟨7⟩) ∧
    (request.resolve catalog later).2.types = later.types := by
  have hrun : (request.resolve catalog session).1 = .ok (.valid ⟨7⟩) := by decide +kernel
  have hgrow : (request.resolve catalog session).2.types.Grows later.types := by
    simp only [later]
    exact Types.grows_intern _ _
  have hreplay := resolve_replay (c := catalog) (r := request) (s := session) (t := later)
    (by decide +kernel) (by decide +kernel) (by decide +kernel) hgrow
  exact ⟨hrun, by decide +kernel, hreplay.1.trans hrun, hreplay.2⟩

end FixedSample

end Generics

import Generics.Proofs.Mirroring.Types

/-!
# What an enumeration lists

An enumeration of supertypes may be cut short, but it is cut short at the same place from every store,
so which supertypes it lists is a matter of the type alone.
-/

namespace Generics

/-- `U` is among the supertypes that an enumeration from `S` lists. -/
def Listed (c : Catalog) (base : Types) (S U : Tree) : Prop :=
  ∃ (s : Session) (t : TypeId), base.Grows s.types ∧ s.types.Unfolds t S ∧
    ∃ u ∈ (Engine.supertypes c t s).1.toList, (Engine.supertypes c t s).2.types.Unfolds u U

section

variable {c : Catalog} {base : Types} {s s' : Session} {t t' : TypeId} {S U : Tree}

/-- What one enumeration lists, an enumeration from the same type in another store lists too. -/
theorem exists_mem_supertypes (hc : c.Grounded base) (hs : base.Grows s.types)
    (hs' : base.Grows s'.types) (ht : s.types.Unfolds t S) (ht' : s'.types.Unfolds t' S)
    (h : ∃ u ∈ (Engine.supertypes c t s).1.toList, (Engine.supertypes c t s).2.types.Unfolds u U) :
    ∃ u ∈ (Engine.supertypes c t' s').1.toList,
      (Engine.supertypes c t' s').2.types.Unfolds u U := by
  obtain ⟨found, us, found', us', cut, hrun, hrun', -, -, htwins⟩ :=
    Engine.mirrors_supertypes hc.coincide hs hs' ⟨S, S.over_true, ht, ht'⟩
  obtain ⟨rfl, rfl, -⟩ := hrun s rfl
  obtain ⟨rfl, rfl, -⟩ := hrun' s' rfl
  obtain ⟨u, hu, hU⟩ := h
  obtain ⟨u', hu', V, -, hV, hV'⟩ := exists_of_mem_left htwins hu
  exact ⟨u', hu', hU.unique hV ▸ hV'⟩

/-- Every enumeration from a type lists the same supertypes. -/
theorem listed_iff (hc : c.Grounded base) (hs : base.Grows s.types) (ht : s.types.Unfolds t S) :
    Listed c base S U ↔
      ∃ u ∈ (Engine.supertypes c t s).1.toList, (Engine.supertypes c t s).2.types.Unfolds u U := by
  constructor
  · rintro ⟨s', t', hs', ht', h⟩
    exact exists_mem_supertypes hc hs' hs ht' ht h
  · exact fun h => ⟨s, t, hs, ht, h⟩

/-- An enumeration finds what is listed, even where its guard refuses steps. -/
theorem Engine.settles_supertypes_listed {ts : Types} (hc : c.Grounded base) (hbase : base.Grows ts)
    (ht : ts.Unfolds t S) :
    Settles (supertypes c t) ts fun found us _ =>
      (∀ u ∈ found.toList, ∃ U, us.Unfolds u U ∧ Listed c base S U) ∧
        ∀ U, Listed c base S U → ∃ u ∈ found.toList, us.Unfolds u U := by
  obtain ⟨found, us, cut, hrun, hgrow, habove, hagain⟩ := settles_supertypes hc hbase ht
  obtain ⟨rfl, rfl, -⟩ := hrun { types := ts } rfl
  refine ⟨_, _, cut, hrun, hgrow, ⟨fun u hu => ?_, fun U hU => ?_⟩, hagain⟩
  · obtain ⟨U, hU, -⟩ := habove.sound u hu
    exact ⟨U, hU, { types := ts }, t, hbase, ht, u, hu, hU⟩
  · exact (listed_iff (s := { types := ts }) hc hbase ht).1 hU

end

end Generics

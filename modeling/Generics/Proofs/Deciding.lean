import Generics.Proofs.Declarations
import Mathlib.Data.Prod.Basic

/-!
# Concrete stores

A store holds finitely many definitions, parameters and types, so what is asked of all of them can be
decided, and a concrete store can be checked by evaluation.
-/

namespace Generics

namespace Definitions

variable {ds : Definitions} {d : DefId} {info : Definition}

theorem val_le_size_of_get? (h : ds.get? d = some info) : d.val ≤ ds.size := by
  obtain ⟨_ | i⟩ := d
  · exact Nat.zero_le _
  · exact (Array.getElem?_eq_some_iff.1 h).1

instance {P : DefId → Definition → Prop} [∀ d info, Decidable (P d info)] :
    Decidable (∀ d info, ds.get? d = some info → P d info) :=
  decidable_of_iff (∀ i ≤ ds.size, ∀ info ∈ ds.get? ⟨i⟩, P ⟨i⟩ info)
    ⟨fun h d info hd => h d.val (val_le_size_of_get? hd) info hd, fun h i _ info hd => h ⟨i⟩ info hd⟩

instance {P : Param → ParamDecl → Prop} [∀ p decl, Decidable (P p decl)] :
    Decidable (∀ p decl, ds.param? p = some decl → P p decl) :=
  decidable_of_iff (∀ d info, ds.get? d = some info → ∀ i < info.params.length,
      ∀ decl ∈ info.params[i]?, P ⟨d, i⟩ decl) <| by
    constructor
    · intro h p decl hdecl
      obtain ⟨info, hinfo, hdecl⟩ := Option.bind_eq_some_iff.1 hdecl
      exact h p.owner info hinfo p.index (List.getElem?_eq_some_iff.1 hdecl).1 decl hdecl
    · intro h d info hinfo i _ decl hdecl
      exact h ⟨d, i⟩ decl (Option.bind_eq_some_iff.2 ⟨info, hinfo, hdecl⟩)

end Definitions

namespace Types

variable {ts : Types}

instance {P : TypeId → Node → Prop} [∀ t n, Decidable (P t n)] :
    Decidable (∀ t n, ts.get? t = some n → P t n) :=
  decidable_of_iff (∀ i < ts.size, ∀ n ∈ ts.get? ⟨i⟩, P ⟨i⟩ n)
    ⟨fun h t n ht => h t.val (lt_size_of_get? ht) n ht, fun h i _ n ht => h ⟨i⟩ n ht⟩

instance (ts us : Types) : Decidable (ts.Grows us) :=
  inferInstanceAs (Decidable (∀ t n, ts.get? t = some n → _))

/-- The types whose nodes are `nodes`, interned in this order. -/
def ofNodes (nodes : List Node) : Types := nodes.foldl (fun ts n => (ts.intern n).2) .empty

end Types

instance (c : Catalog) (ts : Types) (d : DefId) (t : TypeId) : Decidable (c.Declarable ts d t) :=
  inferInstanceAs (Decidable (_ ∧ _))

instance (c : Catalog) (ts : Types) : Decidable (c.Declared ts) :=
  decidable_of_iff _
    ⟨fun h : _ ∧ _ ∧ _ => ⟨h.1, h.2.1, h.2.2⟩, fun h => ⟨h.plain, h.supertypes, h.constraints⟩⟩

instance (c : Catalog) (ts : Types) : Decidable (c.WellDeclared ts) :=
  decidable_of_iff _
    ⟨fun h : _ ∧ _ ∧ _ => ⟨h.1, h.2.1, h.2.2⟩, fun h => ⟨h.plain, h.supertypes, h.constraints⟩⟩

end Generics

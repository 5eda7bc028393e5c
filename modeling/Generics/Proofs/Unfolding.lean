import Generics.Catalog
import Generics.Proofs.Lists
import Generics.Proofs.Tree
import Mathlib.Data.List.Nodup
import Mathlib.Data.List.Perm.Subperm

/-!
# Unfolding types

`Unfolds look t T` says that the type `t`, read through `look`, is the tree `T`.  Interned types of
one tree are equal, a store that grows keeps the trees of its types, and no path of a tree is longer
than the store has types: a path that met a type twice would never end.
-/

namespace Generics

/-- The type `t` written out in full is `T`. -/
inductive Unfolds (look : TypeId → Option Node) : TypeId → Tree → Prop
  | named {t : TypeId} {d : DefId} (h : look t = some (.named d)) : Unfolds look t (.named d)
  | app {t : TypeId} {d : DefId} {args : List TypeId} {Ts : List Tree}
      (h : look t = some (.app d args)) (hargs : List.Forall₂ (Unfolds look) args Ts) :
      Unfolds look t (.app d Ts)
  | param {t : TypeId} {p : Param} (h : look t = some (.param p)) : Unfolds look t (.param p)

namespace Unfolds

variable {look look' : TypeId → Option Node} {t : TypeId} {T U : Tree}

theorem mono (h : Unfolds look t T) (hlook : ∀ t n, look t = some n → look' t = some n) :
    Unfolds look' t T := by
  induction T using Tree.induct generalizing t with
  | named d =>
    cases h with
    | named h => exact .named (hlook _ _ h)
  | param p =>
    cases h with
    | param h => exact .param (hlook _ _ h)
  | app d Ts ih =>
    cases h with
    | app h hargs =>
      exact .app (hlook _ _ h) (forall₂_imp_of_mem hargs fun _ _ _ hA ha => ih _ hA ha)

/-- A type has one tree. -/
theorem unique (hT : Unfolds look t T) (hU : Unfolds look t U) : T = U := by
  induction T using Tree.induct generalizing t U with
  | named d =>
    cases hT with
    | named h => cases hU <;> simp_all
  | param p =>
    cases hT with
    | param h => cases hU <;> simp_all
  | app d Ts ih =>
    cases hT with
    | app h hargs =>
      cases hU with
      | named h' => simp_all
      | param h' => simp_all
      | @app _ e args' Us h' hargs' =>
        rw [h] at h'
        cases h'
        rw [eq_of_forall₂ hargs hargs' fun _ _ A hA _ ha ha' => ih A hA ha ha']

/-- The node of a type that unfolds to an application. -/
theorem exists_app {d : DefId} {Ts : List Tree} (h : Unfolds look t (.app d Ts)) :
    ∃ args, look t = some (.app d args) ∧ List.Forall₂ (Unfolds look) args Ts := by
  cases h with
  | app h hargs => exact ⟨_, h, hargs⟩

theorem exists_node (h : Unfolds look t T) : ∃ n, look t = some n ∧ n.definition? = T.definition? := by
  cases h with
  | named h => exact ⟨_, h, rfl⟩
  | param h => exact ⟨_, h, rfl⟩
  | app h => exact ⟨_, h, rfl⟩

end Unfolds

namespace Types

variable {ts us vs : Types} {t u : TypeId} {T U : Tree}

/-- The interned type `t` written out in full is `T`. -/
abbrev Unfolds (ts : Types) : TypeId → Tree → Prop := Generics.Unfolds ts.get?

/-- Types of one tree are equal. -/
theorem Unfolds.inj (ht : ts.Unfolds t T) (hu : ts.Unfolds u T) : t = u := by
  induction T using Tree.induct generalizing t u with
  | named d =>
    cases ht with
    | named ht => cases hu with | named hu => exact eq_of_get?_eq_some ht hu
  | param p =>
    cases ht with
    | param ht => cases hu with | param hu => exact eq_of_get?_eq_some ht hu
  | app d Ts ih =>
    obtain ⟨args, ht, hargs⟩ := ht.exists_app
    obtain ⟨args', hu, hargs'⟩ := hu.exists_app
    have hargs : args = args' :=
      eq_of_forall₂ hargs.flip hargs'.flip fun A hA _ _ _ ha ha' => ih A hA ha ha'
    exact eq_of_get?_eq_some ht (hargs ▸ hu)

theorem forall₂_unfolds_inj {ss tt : List TypeId} {Ts : List Tree}
    (hs : List.Forall₂ ts.Unfolds ss Ts) (ht : List.Forall₂ ts.Unfolds tt Ts) : ss = tt :=
  List.left_unique_forall₂' (fun _ _ _ ha hb => ha.inj hb) hs ht

/-! ## Growth -/

/-- Every type of `ts` is the same in `us`. -/
def Grows (ts us : Types) : Prop := ∀ t n, ts.get? t = some n → us.get? t = some n

theorem Grows.refl (ts : Types) : ts.Grows ts := fun _ _ h => h

theorem Grows.trans (h : ts.Grows us) (h' : us.Grows vs) : ts.Grows vs :=
  fun t n ht => h' t n (h t n ht)

theorem Unfolds.grow (ht : ts.Unfolds t T) (h : ts.Grows us) : us.Unfolds t T := ht.mono h

theorem forall₂_unfolds_grow {args : List TypeId} {Ts : List Tree}
    (hargs : List.Forall₂ ts.Unfolds args Ts) (h : ts.Grows us) :
    List.Forall₂ us.Unfolds args Ts :=
  hargs.imp fun _ _ ha => ha.grow h

theorem lt_size_of_get? {n : Node} (h : ts.get? t = some n) : t.val < ts.size :=
  InternTable.lt_size_of_get? h

theorem Grows.size_le (h : ts.Grows us) : ts.size ≤ us.size := by
  rcases Nat.lt_or_ge us.size ts.size with hlt | hle
  · cases hget : ts.get? ⟨us.size⟩ with
    | none => exact absurd ((get?_eq_none_iff ts _).1 hget) (Nat.not_le_of_lt hlt)
    | some n =>
      exact absurd (lt_size_of_get? (h _ n hget)) (Nat.lt_irrefl us.size)
  · exact hle

theorem grows_intern (ts : Types) (n : Node) : ts.Grows (ts.intern n).2 := fun _ _ h =>
  (get?_intern_of_lt n (lt_size_of_get? h)).trans h

/-! ## Height -/

/-- A longest path meets no type twice. -/
theorem Unfolds.exists_path (ht : ts.Unfolds t T) :
    ∃ path : List TypeId, path.Nodup ∧ path.length = T.height ∧
      ∀ u ∈ path, ∃ U, ts.Unfolds u U ∧ U.height ≤ T.height := by
  have single : T.height = 1 → ∃ path : List TypeId, path.Nodup ∧ path.length = T.height ∧
      ∀ u ∈ path, ∃ U, ts.Unfolds u U ∧ U.height ≤ T.height := fun h =>
    ⟨[t], List.nodup_singleton t, h.symm, by simpa using ⟨T, ht, Nat.le_refl _⟩⟩
  induction T using Tree.induct generalizing t with
  | named d => exact single (by simp [Tree.height])
  | param p => exact single (by simp [Tree.height])
  | app d Ts ih =>
    rcases eq_or_ne Ts [] with rfl | hne
    · exact single (by simp [Tree.height])
    · obtain ⟨args, -, hargs⟩ := ht.exists_app
      obtain ⟨A, hA, hheight⟩ := Tree.exists_height_eq (d := d) hne
      obtain ⟨a, -, ha⟩ := exists_of_mem_right hargs hA
      obtain ⟨path, hnodup, hlen, hpath⟩ := ih A hA ha fun h =>
        ⟨[a], List.nodup_singleton a, h.symm, by simpa using ⟨A, ha, Nat.le_refl _⟩⟩
      have hlt := Nat.lt_succ_self A.height
      refine ⟨t :: path, List.nodup_cons.2 ⟨fun hmem => ?_, hnodup⟩, by simp [hlen, hheight], ?_⟩
      · obtain ⟨U, hU, hle⟩ := hpath t hmem
        rw [← ht.unique hU, hheight] at hle
        omega
      · simp only [List.mem_cons, forall_eq_or_imp]
        refine ⟨⟨_, ht, Nat.le_refl _⟩, fun u hu => ?_⟩
        obtain ⟨U, hU, hle⟩ := hpath u hu
        exact ⟨U, hU, by omega⟩

/-- The fuel of a walk along arguments suffices for the types of a store. -/
theorem Unfolds.height_le (ht : ts.Unfolds t T) : T.height ≤ ts.size := by
  obtain ⟨path, hnodup, hlen, hpath⟩ := ht.exists_path
  have hsub : path.map TypeId.val ⊆ List.range ts.size := by
    intro i hi
    obtain ⟨u, hu, rfl⟩ := List.mem_map.1 hi
    obtain ⟨U, hU, -⟩ := hpath u hu
    obtain ⟨n, hn, -⟩ := hU.exists_node
    exact List.mem_range.2 (lt_size_of_get? hn)
  have hle := ((hnodup.map fun _ _ => TypeId.ext).subperm hsub).length_le
  simpa [hlen] using hle

/-! ## Interning -/

theorem unfolds_intern_param (ts : Types) (p : Param) :
    (ts.intern (.param p)).2.Unfolds (ts.intern (.param p)).1 (.param p) :=
  .param (get?_intern_self ts _)

theorem unfolds_intern_app {args : List TypeId} {Ts : List Tree} (d : DefId)
    (hargs : List.Forall₂ ts.Unfolds args Ts) :
    (ts.intern (.app d args)).2.Unfolds (ts.intern (.app d args)).1 (.apply d Ts) := by
  have hget := get?_intern_self ts (.app d args)
  have hargs' := forall₂_unfolds_grow hargs (grows_intern ts (.app d args))
  cases hargs with
  | nil => exact .named hget
  | cons _ _ => exact .app hget hargs'

/-- An application that is there already is not added again. -/
theorem intern_app_of_unfolds {args : List TypeId} {Ts : List Tree} {d : DefId}
    (ht : ts.Unfolds t (.apply d Ts)) (hargs : List.Forall₂ ts.Unfolds args Ts) :
    ts.intern (.app d args) = (t, ts) := by
  cases hargs with
  | nil =>
    cases ht with
    | named h => exact intern_of_get? h
  | @cons a A as As ha has =>
    obtain ⟨args', h, hargs'⟩ := ht.exists_app
    rw [forall₂_unfolds_inj hargs' (.cons ha has)] at h
    exact intern_of_get? h

end Types

/-! ## Grounded catalogs -/

namespace Catalog

variable {c : Catalog} {ts us : Types}

/-- No shape is replaced, and what the definitions mention unfolds to trees. -/
structure Grounded (c : Catalog) (ts : Types) : Prop where
  plain : c.overrides = []
  supertypes : ∀ d info, c.definitions.get? d = some info →
    ∀ t ∈ info.supertypes, ∃ T, ts.Unfolds t T
  constraints : ∀ p decl, c.definitions.param? p = some decl →
    ∀ t ∈ decl.constraints, ∃ T, ts.Unfolds t T

theorem Grounded.grow (h : c.Grounded ts) (hgrow : ts.Grows us) : c.Grounded us where
  plain := h.plain
  supertypes d info hd t ht := (h.supertypes d info hd t ht).imp fun _ hT => hT.grow hgrow
  constraints p decl hp t ht := (h.constraints p decl hp t ht).imp fun _ hT => hT.grow hgrow

theorem view_node? (h : c.overrides = []) (ts : Types) : (c.view ts).node? = ts.get? :=
  funext fun t => node?_of_overrides_eq_nil h ts t

theorem view_definition? (c : Catalog) (ts : Types) (d : DefId) :
    (c.view ts).definition? d = c.definitions.get? d :=
  rfl

/-- The definition that a type is an instance of is read off its tree. -/
theorem definitionOf_eq (hplain : c.overrides = []) {t : TypeId} {T : Tree} (ht : ts.Unfolds t T) :
    (c.view ts).definitionOf t = T.definition? := by
  obtain ⟨node, hnode, hdefinition⟩ := ht.exists_node
  rw [View.definitionOf, view_node? hplain, hnode, Option.bind_some, hdefinition]

theorem view_param? (c : Catalog) (ts : Types) (p : Param) :
    (c.view ts).param? p = c.definitions.param? p :=
  rfl

theorem size_lt_bound (c : Catalog) (ts : Types) : ts.size < (c.view ts).bound := by
  simp only [view]
  omega

end Catalog

end Generics

import Generics.Proofs.Mentions
import Generics.Proofs.Validation

/-!
# Traversals of shared types

The walks through the parameters of a type go once through what is shared.  Where the graph below the type
is finite and has no cycle, they find what a traversal from left to right finds in the type written out in
full, which may be exponentially larger: the one walk in the same order, the other with the same outcome.
-/

namespace Generics

namespace View

variable {v : View} {t u : TypeId} {T U : Tree} {n : Nat} {path : List TypeId} {ps : List Param}

/-! ## Written out in full -/

/-- The view with a shape for every type: one that is unknown is shown as the definition 0, which is
never registered. -/
def completed (v : View) : View := { v with node? := fun t => some ((v.node? t).getD (.named ⟨0⟩)) }

/-- The type `t` written out in full is `T`; unknown types are leaves of it. -/
abbrev WrittenOut (v : View) : TypeId → Tree → Prop := Unfolds v.completed.node?

theorem completed_node?_of_some {node : Node} (h : v.node? t = some node) :
    v.completed.node? t = some node := by
  simp [completed, h]

theorem completed_node?_of_none (h : v.node? t = none) :
    v.completed.node? t = some (.named ⟨0⟩) := by
  simp [completed, h]

/-- Where nothing contains itself, a type that is met on a walk has a tree no higher than the steps that
the walk has left. -/
theorem Below.exists_writtenOut (hacyclic : ∀ w, v.Reaches t w → ¬v.Contains w w)
    (h : v.Below t n path u) : ∃ U, v.WrittenOut u U ∧ U.height ≤ n := by
  -- on the steps left: the path meets no type twice, so the walk has one for every type it meets
  induction n generalizing path u with
  | zero => exact absurd h.pos (Nat.lt_irrefl 0)
  | succ n ih =>
    cases hnode : v.node? u with
    | none => exact ⟨_, .named (completed_node?_of_none hnode), by simp [Tree.height]⟩
    | some node =>
      have hcompleted := completed_node?_of_some hnode
      cases node with
      | named d => exact ⟨_, .named hcompleted, by simp [Tree.height]⟩
      | param p => exact ⟨_, .param hcompleted, by simp [Tree.height]⟩
      | app d args =>
        have hpath : u ∉ path := fun hmem => hacyclic u h.reached (h.onPath u hmem).2
        have hargs : ∀ a ∈ args, ∃ A, v.WrittenOut a A ∧ A.height ≤ n := fun a ha =>
          ih (h.step hpath (by simp [hnode]) (by rwa [argsOf_eq hnode]))
        obtain ⟨As, hAs⟩ := forall₂_of_forall_exists hargs
        refine ⟨_, .app hcompleted (hAs.imp fun _ _ hA => hA.1), Tree.height_app_le fun A hA => ?_⟩
        obtain ⟨a, -, -, hle⟩ := exists_of_mem_right hAs hA
        exact hle

/-- A type without cycles below it has a tree, and fuel for its known types is fuel for the tree. -/
theorem Confines.exists_writtenOut (h : v.Confines t n)
    (hacyclic : ∀ w, v.Reaches t w → ¬v.Contains w w) : ∃ T, v.WrittenOut t T ∧ T.height ≤ n :=
  (below_self h).exists_writtenOut hacyclic

/-! ## Walks through written out types -/

/-- A walk finds no parameter in a type that is unknown, and none in a definition. -/
theorem mentionsFrom_completed (v : View) (n : Nat) :
    v.completed.mentionsFrom n = v.mentionsFrom n := by
  induction n with
  | zero => rfl
  | succ n ih =>
    funext m t
    rw [mentionsFrom, mentionsFrom, ih]
    cases hnode : v.node? t with
    | none => rw [completed_node?_of_none hnode]
    | some node => rw [completed_node?_of_some hnode]

theorem cleanFrom_completed (v : View) (ps : List Param) (n : Nat) :
    v.completed.cleanFrom ps n = v.cleanFrom ps n := by
  induction n with
  | zero => rfl
  | succ n ih =>
    funext clean t
    rw [cleanFrom, cleanFrom, ih]
    cases hnode : v.node? t with
    | none => rw [completed_node?_of_none hnode]
    | some node => rw [completed_node?_of_some hnode]

theorem addParams_completed (v : View) (ps : List Param) (t : TypeId) :
    v.completed.addParams ps t = v.addParams ps t := by
  rw [addParams, addParams, mentionsFrom_completed]
  rfl

theorem mentionsAny_completed (v : View) (t : TypeId) (ps : List Param) :
    v.completed.mentionsAny t ps = v.mentionsAny t ps := by
  rw [mentionsAny, mentionsAny, cleanFrom_completed]
  rfl

/-- To append one after the other what is not there yet is to append the first occurrences of what is
not there at the start. -/
theorem Mentions.appendNew_eq (ps qs : List Param) :
    appendNew ps qs = ps ++ (qs.removeAll ps).eraseDups := by
  induction qs generalizing ps with
  | nil => simp [appendNew]
  | cons q qs ih =>
    have hstep : appendNew ps (q :: qs) = appendNew (if q ∈ ps then ps else ps ++ [q]) qs := rfl
    rw [hstep, ih, append_eraseDups_cons]
    split <;> rfl

/-- What the walks of `v` find below `t`, where a traversal from left to right meets the parameters
`qs`. -/
structure Finds (v : View) (t : TypeId) (qs : List Param) : Prop where
  addParams : ∀ ps, v.addParams ps t = ps ++ (qs.removeAll ps).eraseDups
  paramsOf : ∀ d, v.paramsOf d t = qs.eraseDups.filter (·.owner == d)
  mentionsAny : ∀ ps, v.mentionsAny t ps ↔ ∃ p ∈ ps, p ∈ v.params t

/-- With fuel for the tree the walks find what the tree holds. -/
theorem finds_of_writtenOut (ht : v.WrittenOut t T) (hn : T.height ≤ v.bound) :
    v.Finds t T.params := by
  have hadd : ∀ ps, v.addParams ps t = ps ++ (T.params.removeAll ps).eraseDups := by
    intro ps
    rw [← addParams_completed, ← Mentions.appendNew_eq]
    exact params_mentionsFrom ht hn fun u hu => absurd hu Std.TreeSet.not_mem_emptyc
  have hparams : v.params t = T.params.eraseDups := by
    rw [params, hadd, List.removeAll_nil, List.nil_append]
  refine ⟨hadd, fun d => by rw [paramsOf, hparams], fun ps => ?_⟩
  rw [← mentionsAny_completed, View.mentionsAny_iff ht hn, hparams]
  simp only [List.mem_eraseDups]

/-- Fuel for the known types is fuel for the tree. -/
theorem Confines.finds (h : v.Confines t n) (hacyclic : ∀ u, v.Reaches t u → ¬v.Contains u u)
    (ht : v.WrittenOut t T) : { v with bound := n }.Finds t T.params := by
  obtain ⟨U, hU, hle⟩ := h.exists_writtenOut hacyclic
  obtain rfl := ht.unique hU
  exact finds_of_writtenOut (v := { v with bound := n }) ht hle

/-- Types whose arguments are older contain none of themselves. -/
theorem not_contains_self (h : ∀ u, ∀ a ∈ v.argsOf u, a.val < u.val) (u : TypeId) :
    ¬v.Contains u u := by
  have hlt : ∀ w, v.Contains u w → w.val < u.val := by
    intro w hw
    induction hw with
    | single ha => exact h _ _ ha
    | tail _ ha ih => exact Nat.lt_trans (h _ _ ha) ih
  exact fun hu => Nat.lt_irrefl _ (hlt u hu)

end View

/-- The walks agree with a traversal of the tree.  Whatever types a view shows, if there are finitely
many below `t` and none of them contains itself, then a tree writes `t` out.  With more fuel than there
are types, and in every store, the first walk appends the parameters that the traversal meets and that
were not there, in order of first occurrence; those of one owner stand in the same order; and the second
walk meets a parameter of a list exactly if the first one finds it. -/
theorem finds_traversal (v : View) (t : TypeId) (hfinite : {u | v.Reaches t u}.Finite)
    (hacyclic : ∀ u, v.Reaches t u → ¬v.Contains u u) :
    ∃ T, v.WrittenOut t T ∧
      (∀ n, {u | v.Reaches t u}.ncard < n → { v with bound := n }.Finds t T.params) ∧
      ∀ c ts, v = Catalog.view c ts → v.Finds t T.params := by
  have henough := View.confines_of_finite hfinite (Nat.lt_succ_self _)
  obtain ⟨T, hT, -⟩ := henough.exists_writtenOut hacyclic
  refine ⟨T, hT, fun n hn => ?_, ?_⟩
  · exact (View.confines_of_finite hfinite hn).finds hacyclic hT
  · rintro c ts rfl
    exact (c.confines ts t).finds hacyclic hT

namespace FixedSample

/-- `D<C, P>` where `P` is `D<Q, Q>`, `Q` is `D<R, R>` and `R` is `D<U, T>`, in a store that does not
show `C`. -/
def sharing : Store :=
  Store.override ⟨catalog, { types := .ofNodes [.param ⟨⟨2⟩, 0⟩, .param ⟨⟨2⟩, 1⟩, .named ⟨3⟩,
    .app ⟨2⟩ [⟨1⟩, ⟨0⟩], .app ⟨2⟩ [⟨3⟩, ⟨3⟩], .app ⟨2⟩ [⟨4⟩, ⟨4⟩], .app ⟨2⟩ [⟨2⟩, ⟨5⟩]] }⟩ ⟨2⟩ none

theorem sharing_descends : ∀ u, ∀ a ∈ sharing.view.argsOf u, a.val < u.val := by
  intro u a ha
  have hdescends : sharing.session.types.Descends := by decide +kernel
  by_cases hu : u = ⟨2⟩
  · have hnone : sharing.view.argsOf ⟨2⟩ = [] := by decide +kernel
    rw [hu, hnone] at ha
    cases ha
  · have hnode : sharing.view.node? u = sharing.session.types.get? u := by
      have hlookup : sharing.catalog.overrides.lookup u = none := by
        simp [sharing, Store.override, catalog, List.lookup_cons, beq_eq_false_iff_ne.2 hu]
      change (sharing.catalog.overrides.lookup u).getD _ = _
      rw [hlookup]
      rfl
    cases hget : sharing.session.types.get? u with
    | none => simp [View.argsOf, hnode, hget] at ha
    | some node =>
      rw [View.argsOf_eq (hnode.trans hget)] at ha
      exact hdescends u node hget a ha

/-- The tree of a `D<T, T>`. -/
def pair (T : Tree) : Tree := .app ⟨2⟩ [T, T]

theorem writtenOut_sharing : sharing.view.WrittenOut ⟨6⟩
    (.app ⟨2⟩ [.named ⟨0⟩, pair (pair (.app ⟨2⟩ [.param ⟨⟨2⟩, 1⟩, .param ⟨⟨2⟩, 0⟩]))]) := by
  have hpair : ∀ {t a T}, sharing.view.completed.node? t = some (.app ⟨2⟩ [a, a]) →
      sharing.view.WrittenOut a T → sharing.view.WrittenOut t (pair T) :=
    fun h ha => .app h (.cons ha (.cons ha .nil))
  have hnode : sharing.view.completed.node? ⟨3⟩ = some (.app ⟨2⟩ [⟨1⟩, ⟨0⟩]) := by decide +kernel
  have hT : sharing.view.WrittenOut ⟨0⟩ (.param ⟨⟨2⟩, 0⟩) := .param (by decide +kernel)
  have hU : sharing.view.WrittenOut ⟨1⟩ (.param ⟨⟨2⟩, 1⟩) := .param (by decide +kernel)
  have hC : sharing.view.WrittenOut ⟨2⟩ (.named ⟨0⟩) := .named (by decide +kernel)
  have hR := Unfolds.app hnode (.cons hU (.cons hT .nil))
  have hP := hpair (t := ⟨5⟩) (by decide +kernel) (hpair (t := ⟨4⟩) (by decide +kernel) hR)
  exact .app (by decide +kernel) (.cons hC (.cons hP .nil))

/-- The traversal meets eight parameters, two different ones; behind `T` the walk finds `U`. -/
theorem finds_traversal_sharing :
    {u | sharing.view.Reaches ⟨6⟩ u}.Finite ∧ (∀ u, ¬sharing.view.Contains u u) ∧
      ∃ T, sharing.view.WrittenOut ⟨6⟩ T ∧ T.params.length = 8 ∧
        sharing.view.addParams [⟨⟨2⟩, 0⟩] ⟨6⟩ = [⟨⟨2⟩, 0⟩, ⟨⟨2⟩, 1⟩] := by
  have hfinite := sharing.catalog.finite_reaches sharing.session.types ⟨6⟩
  have hacyclic := View.not_contains_self sharing_descends
  obtain ⟨T, hT, -, hstore⟩ := finds_traversal sharing.view ⟨6⟩ hfinite fun u _ => hacyclic u
  have hparams : T.params = (List.replicate 4 [⟨⟨2⟩, 1⟩, ⟨⟨2⟩, 0⟩]).flatten := by
    rw [hT.unique writtenOut_sharing]
    simp [pair]
  refine ⟨hfinite, hacyclic, T, hT, by rw [hparams]; rfl, ?_⟩
  rw [(hstore _ _ rfl).addParams, hparams]
  decide +kernel

end FixedSample

end Generics

import Generics.Proofs.Malformed
import Mathlib.Data.List.Perm.Subperm
import Mathlib.Data.Set.Card

/-!
# What the check decides

Whatever graph the types of a view form, the check accepts a type exactly if everything that the
type reaches is in order, and what it reports otherwise is wrong with something that the type
reaches.  Shared types are no cycles, and no cycle is missed: the path of the check is a walk, so a
type met on it reaches itself, while whatever the good types reach is in order.
-/

namespace Generics

namespace View

variable {v : View} {t u a : TypeId} {e : ResolveError} {n m : Nat} {path : List TypeId}
  {good good' : Std.TreeSet TypeId}

/-- Some walk along arguments leads from `t` to `u` and has at least one step. -/
abbrev Contains (v : View) : TypeId → TypeId → Prop :=
  Relation.TransGen fun t u => u ∈ v.argsOf t

/-- A known type, declared by its owner if it is a parameter, and with as many arguments as its
definition has parameters if it is an instance. -/
structure Proper (v : View) (t : TypeId) : Prop where
  known : (v.node? t).isSome
  declared : ∀ p, v.node? t = some (.param p) → (v.param? p).isSome
  fits : ∀ node d, v.node? t = some node → node.definition? = some d →
    ∃ info, v.definition? d = some info ∧ info.arity = node.args.length

/-- A proper type that does not contain itself. -/
structure InOrder (v : View) (t : TypeId) : Prop extends v.Proper t where
  acyclic : ¬v.Contains t t

/-- What is wrong with a type: a defect of its own, or that it contains itself. -/
inductive Flaw (v : View) (t : TypeId) : ResolveError → Prop
  | defect {e : ResolveError} (h : v.Defect t e) : Flaw v t e
  | cyclic (h : v.Contains t t) : Flaw v t (.cyclicType t)

theorem argsOf_eq {node : Node} (h : v.node? t = some node) : v.argsOf t = node.args := by
  rw [argsOf, h]
  rfl

theorem Proper.not_defect (h : v.Proper t) : ¬v.Defect t e := by
  rintro (hnode | ⟨hnode, hp⟩ | ⟨hnode, hn, hd⟩ | ⟨hnode, hn, hd, harity⟩)
  · simpa [hnode] using h.known
  · simpa [hp] using h.declared _ hnode
  · obtain ⟨info, hinfo, -⟩ := h.fits _ _ hnode hn
    exact absurd (hinfo.symm.trans hd) nofun
  · obtain ⟨info, hinfo, hargs⟩ := h.fits _ _ hnode hn
    exact harity (Option.some.inj (hd.symm.trans hinfo) ▸ hargs)

theorem InOrder.not_flaw (h : v.InOrder t) : ¬v.Flaw t e := by
  rintro (hdefect | hcycle)
  · exact h.not_defect hdefect
  · exact h.acyclic hcycle

/-- Everything that `t` reaches is in order. -/
def Valid (v : View) (t : TypeId) : Prop := ∀ u, v.Reaches t u → v.InOrder u

/-- A cycle through a type goes through one of its arguments. -/
theorem Proper.valid (h : v.Proper t) (hargs : ∀ a ∈ v.argsOf t, v.Valid a) : v.Valid t := by
  intro u htu
  rcases Relation.ReflTransGen.cases_head htu with rfl | ⟨a, ha, hau⟩
  · refine ⟨h, fun hcycle => ?_⟩
    obtain ⟨a, ha, hat⟩ := Relation.TransGen.head'_iff.1 hcycle
    exact (hargs a ha t hat).acyclic hcycle
  · exact hargs a ha u hau

/-! ## One step of the check -/

/-- The ways in which one step of the check can end. -/
inductive Step (v : View) (n : Nat) (path : List TypeId) (good : Std.TreeSet TypeId) (t : TypeId) :
    Except ResolveError (Std.TreeSet TypeId) → Prop
  | known (h : t ∈ good) : Step v n path good t (.ok good)
  | cyclic (h : t ∈ path) : Step v n path good t (.error (.cyclicType t))
  | defect {e : ResolveError} (h : v.Defect t e) : Step v n path good t (.error e)
  | args (hpath : t ∉ path) (h : v.Proper t) : Step v n path good t (do
      let good ← (v.argsOf t).foldlM (v.checkFrom n (t :: path)) good
      pure (good.insert t))

theorem step_of_definition? {node : Node} {d : DefId} (h : v.node? t = some node)
    (hd : node.definition? = some d) (hpath : t ∉ path) : v.Step n path good t (do
      v.checkArity t d node.args
      let good ← (v.argsOf t).foldlM (v.checkFrom n (t :: path)) good
      pure (good.insert t)) := by
  unfold checkArity
  cases hinfo : v.definition? d with
  | none => exact .defect (.unknownDefinition h hd hinfo)
  | some info =>
    dsimp only
    split
    · rename_i harity
      refine .args hpath ⟨by simp [h], fun p hp => ?_, fun node' d' h' hd' => ?_⟩
      · obtain rfl := Option.some.inj (h.symm.trans hp)
        cases hd
      · obtain rfl := Option.some.inj (h.symm.trans h')
        exact ⟨info, Option.some.inj (hd.symm.trans hd') ▸ hinfo, harity⟩
    · rename_i harity
      exact .defect (.arityMismatch h hd hinfo harity)

theorem step_checkFrom (v : View) (n : Nat) (path : List TypeId) (good : Std.TreeSet TypeId)
    (t : TypeId) : v.Step n path good t (v.checkFrom (n + 1) path good t) := by
  rw [checkFrom]
  split
  · rename_i hgood
    exact .known (Std.TreeSet.contains_iff_mem.1 hgood)
  split
  · rename_i hpath
    exact .cyclic hpath
  rename_i hpath
  split
  · rename_i h
    exact .defect (.unknownType h)
  · rename_i p h
    split
    · rename_i hp
      have hproper : v.Proper t := by
        refine ⟨by simp [h], fun q hq => ?_, fun node d h' hd => ?_⟩
        · cases h.symm.trans hq
          exact hp
        · cases h.symm.trans h'
          cases hd
      have hstep : v.Step n path good t _ := .args hpath hproper
      rwa [argsOf_eq h] at hstep
    · rename_i hp
      exact .defect (.unknownParameter h (Option.not_isSome_iff_eq_none.1 hp))
  · rename_i d h
    have hstep : v.Step n path good t _ := step_of_definition? h rfl hpath
    rwa [argsOf_eq h] at hstep
  · rename_i d args h
    have hstep : v.Step n path good t _ := step_of_definition? h rfl hpath
    rwa [argsOf_eq h] at hstep

/-- What passes the check is valid, for whatever path and fuel. -/
theorem valid_of_checkFrom (hgood : ∀ u ∈ good, v.Valid u)
    (h : v.checkFrom n path good t = .ok good') : (∀ u ∈ good', v.Valid u) ∧ v.Valid t := by
  induction n generalizing path good good' t with
  | zero => cases h
  | succ n ih =>
    have hstep := step_checkFrom v n path good t
    generalize v.checkFrom (n + 1) path good t = r at h hstep
    cases hstep with
    | known hmem =>
      cases h
      exact ⟨hgood, hgood t hmem⟩
    | cyclic => cases h
    | defect => cases h
    | args _ hproper =>
      obtain ⟨good'', hargs, h⟩ := bind_eq_ok_iff.1 h
      cases h
      obtain ⟨hgood'', hargs⟩ := of_foldlM_eq_ok (fun _ _ a _ hI ha => ih hI ha) hgood hargs
      have ht := hproper.valid hargs
      refine ⟨fun u hu => ?_, ht⟩
      rcases mem_insert_treeSet.1 hu with rfl | hu
      · exact ht
      · exact hgood'' u hu

/-! ## Fuel -/

/-- Fewer than `n` known types are reached from `t`. -/
def Confines (v : View) (t : TypeId) (n : Nat) : Prop :=
  ∀ l : List TypeId, l.Nodup → (∀ u ∈ l, v.Reaches t u ∧ (v.node? u).isSome) → l.length < n

theorem confines_of_finite (hfinite : {u | v.Reaches t u}.Finite)
    (hn : {u | v.Reaches t u}.ncard < n) : v.Confines t n := by
  intro l hl hreached
  refine Nat.lt_of_le_of_lt ?_ hn
  rw [← List.toFinset_card_of_nodup hl, ← Set.ncard_coe_finset]
  exact Set.ncard_le_ncard (fun u hu => (hreached u (by simpa using hu)).1) hfinite

/-- The check of `u` is a step of the check of `t`: the path leads from `t` to `u` and meets no type
twice, and there is fuel for as many more steps as known types are left. -/
structure Below (v : View) (t : TypeId) (n : Nat) (path : List TypeId) (u : TypeId) : Prop where
  reached : v.Reaches t u
  nodup : path.Nodup
  onPath : ∀ w ∈ path, (v.Reaches t w ∧ (v.node? w).isSome) ∧ v.Contains w u
  room : v.Confines t (n + path.length)

theorem Below.pos (h : v.Below t n path u) : 0 < n := by
  have hroom := h.room path h.nodup fun w hw => (h.onPath w hw).1
  omega

theorem Below.step (h : v.Below t (n + 1) path u) (hu : u ∉ path) (hknown : (v.node? u).isSome)
    (ha : a ∈ v.argsOf u) : v.Below t n (u :: path) a where
  reached := h.reached.tail ha
  nodup := List.nodup_cons.2 ⟨hu, h.nodup⟩
  onPath := List.forall_mem_cons.2 ⟨⟨⟨h.reached, hknown⟩, .single ha⟩, fun w hw =>
    ⟨(h.onPath w hw).1, (h.onPath w hw).2.tail ha⟩⟩
  room := by
    rw [List.length_cons, ← Nat.add_assoc, Nat.add_right_comm]
    exact h.room

/-- What the check reports is a flaw of a type that is reached. -/
theorem exists_flaw_of_checkFrom (hbelow : v.Below t n path u)
    (h : v.checkFrom n path good u = .error e) : ∃ w, v.Reaches u w ∧ v.Flaw w e := by
  induction n generalizing path good u with
  | zero => exact absurd hbelow.pos (Nat.lt_irrefl 0)
  | succ n ih =>
    have hstep := step_checkFrom v n path good u
    generalize v.checkFrom (n + 1) path good u = r at h hstep
    cases hstep with
    | known => cases h
    | cyclic hmem =>
      cases h
      exact ⟨u, .refl, .cyclic (hbelow.onPath u hmem).2⟩
    | defect hdefect =>
      cases h
      exact ⟨u, .refl, .defect hdefect⟩
    | args hpath hproper =>
      cases hargs : (v.argsOf u).foldlM (v.checkFrom n (u :: path)) good with
      | ok good' =>
        rw [hargs] at h
        cases h
      | error e' =>
        rw [hargs] at h
        cases h
        obtain ⟨a, ha, good', herror⟩ := exists_of_foldlM_eq_error hargs
        obtain ⟨w, haw, hw⟩ := ih (hbelow.step hpath hproper.known ha) herror
        exact ⟨w, .head ha haw, hw⟩

/-- More fuel than there are known types changes nothing. -/
theorem checkFrom_eq_of_below (hn : v.Below t n path u) (hm : v.Below t m path u)
    (good : Std.TreeSet TypeId) : v.checkFrom n path good u = v.checkFrom m path good u := by
  induction n generalizing m path good u with
  | zero => exact absurd hn.pos (Nat.lt_irrefl 0)
  | succ n ih =>
    obtain ⟨m, rfl⟩ := Nat.exists_eq_add_one_of_ne_zero (Nat.pos_iff_ne_zero.1 hm.pos)
    simp only [checkFrom]
    split
    · rfl
    split
    · rfl
    rename_i hpath
    split <;> try rfl
    rename_i d args hnode
    have hargs : ∀ good, ∀ a ∈ args,
        v.checkFrom n (u :: path) good a = v.checkFrom m (u :: path) good a := by
      intro good a ha
      have hknown : (v.node? u).isSome := by simp [hnode]
      have ha' : a ∈ v.argsOf u := by rwa [argsOf_eq hnode]
      exact ih (hn.step hpath hknown ha') (hm.step hpath hknown ha') good
    rw [foldlM_ext hargs]

theorem below_self (h : v.Confines t n) : v.Below t n [] t :=
  ⟨.refl, List.nodup_nil, nofun, h⟩

theorem checkFrom_bound (v : View) (k n : Nat) :
    { v with bound := k }.checkFrom n = v.checkFrom n := by
  induction n with
  | zero => rfl
  | succ n ih =>
    funext path good t
    simp only [checkFrom, ih]
    rfl

theorem check_eq_of_confines (hn : v.Confines t n) (hm : v.Confines t m) :
    { v with bound := n }.check t = { v with bound := m }.check t := by
  simp only [check, checkFrom_bound, checkFrom_eq_of_below (below_self hn) (below_self hm)]

/-- What a check with enough fuel decides. -/
theorem check_of_confines (h : v.Confines t n) :
    ({ v with bound := n }.check t = .ok () ↔ v.Valid t) ∧
      ∀ e, { v with bound := n }.check t = .error e → ∃ u, v.Reaches t u ∧ v.Flaw u e := by
  rw [check, checkFrom_bound]
  cases hrun : v.checkFrom n [] ∅ t with
  | ok good =>
    have hgood : ∀ u ∈ (∅ : Std.TreeSet TypeId), v.Valid u :=
      fun u hu => absurd hu Std.TreeSet.not_mem_emptyc
    refine ⟨⟨fun _ => (valid_of_checkFrom hgood hrun).2, fun _ => rfl⟩, fun e he => ?_⟩
    cases he
  | error e =>
    obtain ⟨u, hu, hflaw⟩ := exists_flaw_of_checkFrom (below_self h) hrun
    refine ⟨⟨fun hok => ?_, fun hvalid => absurd hflaw (hvalid u hu).not_flaw⟩, fun e' he => ?_⟩
    · cases hok
    · cases he
      exact ⟨u, hu, hflaw⟩

end View

/-! ## Stores -/

namespace Catalog

variable {c : Catalog} {ts : Types} {t u : TypeId}

/-- The types that can be known: the interned ones and those that are given another shape. -/
def typeIds (c : Catalog) (ts : Types) : List TypeId :=
  (List.range ts.size).map TypeId.mk ++ c.overrides.map Prod.fst

theorem mem_typeIds (h : ((c.view ts).node? u).isSome) : u ∈ c.typeIds ts := by
  change ((c.overrides.lookup u).getD (ts.get? u)).isSome at h
  rw [typeIds, List.mem_append]
  cases hlookup : c.overrides.lookup u with
  | some node =>
    obtain ⟨l₁, l₂, heq, -⟩ := List.lookup_eq_some_iff.1 hlookup
    exact .inr (by simp [heq])
  | none =>
    rw [hlookup, Option.getD_none, Option.isSome_iff_exists] at h
    obtain ⟨node, hnode⟩ := h
    exact .inl (List.mem_map.2 ⟨u.val, List.mem_range.2 (Types.lt_size_of_get? hnode), rfl⟩)

/-- Whatever a store replaces, its checks have fuel enough. -/
theorem confines (c : Catalog) (ts : Types) (t : TypeId) :
    (c.view ts).Confines t (c.view ts).bound := by
  intro l hl hreached
  have hsub : l ⊆ c.typeIds ts := fun u hu => mem_typeIds (hreached u hu).2
  have hle := (List.subperm_of_subset hl hsub).length_le
  simp only [typeIds, List.length_append, List.length_map, List.length_range] at hle
  exact Nat.lt_succ_of_le hle

theorem finite_reaches (c : Catalog) (ts : Types) (t : TypeId) :
    {u | (c.view ts).Reaches t u}.Finite := by
  refine (List.finite_toSet (t :: (c.typeIds ts).flatMap (c.view ts).argsOf)).subset fun u hu => ?_
  rcases Relation.ReflTransGen.cases_tail hu with rfl | ⟨w, -, hw⟩
  · exact List.mem_cons_self ..
  · have hknown : ((c.view ts).node? w).isSome := by
      rw [← Option.ne_none_iff_isSome]
      intro hnone
      rw [View.argsOf, hnone] at hw
      cases hw
    exact List.mem_cons_of_mem _ (List.mem_flatMap.2 ⟨w, mem_typeIds hknown, hw⟩)

end Catalog

/-- The check terminates and decides validity: whatever host stands behind the view, if it shows
finitely many types below `t`, then with more fuel than these the check has one answer, which is
also that of a store.  It accepts exactly if everything that `t` reaches is in order, and otherwise
reports a flaw of a type that `t` reaches. -/
theorem check_decides (v : View) (t : TypeId) (hfinite : {u | v.Reaches t u}.Finite) :
    ∃ r : Except ResolveError Unit,
      (∀ n, {u | v.Reaches t u}.ncard < n → { v with bound := n }.check t = r) ∧
      (∀ c ts, v = Catalog.view c ts → v.check t = r) ∧
      (r = .ok () ↔ ∀ u, v.Reaches t u → v.InOrder u) ∧
      ∀ e, r = .error e → ∃ u, v.Reaches t u ∧ v.Flaw u e := by
  have henough := View.confines_of_finite hfinite (Nat.lt_succ_self _)
  obtain ⟨hvalid, hflaw⟩ := View.check_of_confines henough
  refine ⟨_, fun n hn => ?_, ?_, hvalid, hflaw⟩
  · exact View.check_eq_of_confines (View.confines_of_finite hfinite hn) henough
  · rintro c ts rfl
    exact View.check_eq_of_confines (c.confines ts t) henough

namespace FixedSample

/-- A store that shows the argument of a `D<_>` as a `D` of that very type. -/
def twisted : Store := crooked.override ⟨3⟩ (some (.app ⟨1⟩ [⟨5⟩]))

/-- The cycle is reported from a type that reaches it without being part of it. -/
theorem check_decides_cycle : {u | twisted.view.Reaches ⟨4⟩ u}.Finite ∧
    twisted.view.check ⟨4⟩ = .error (.cyclicType ⟨3⟩) ∧ twisted.view.Reaches ⟨4⟩ ⟨3⟩ ∧
      twisted.view.Contains ⟨3⟩ ⟨3⟩ := by
  have hfinite := twisted.catalog.finite_reaches twisted.session.types ⟨4⟩
  obtain ⟨r, -, hstore, -, hflaw⟩ := check_decides twisted.view ⟨4⟩ hfinite
  have hcheck : twisted.view.check ⟨4⟩ = .error (.cyclicType ⟨3⟩) := by decide +kernel
  obtain ⟨u, hu, h⟩ := hflaw _ ((hstore _ _ rfl).symm.trans hcheck)
  obtain ⟨rfl, hcycle⟩ : u = ⟨3⟩ ∧ twisted.view.Contains u u := by
    cases h with
    | defect h => cases h
    | cyclic h => exact ⟨rfl, h⟩
  exact ⟨hfinite, hcheck, hu, hcycle⟩

end FixedSample

end Generics

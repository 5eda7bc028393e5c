import Generics.Proofs.Unfolding
import Generics.View.Promise
import Mathlib.Logic.Relation

/-!
# Promises

A parameter meets a demand if and only if its declaration promises so: by itself, through the kind of a
constraint, or through another parameter that bounds it.  The search for a promise visits each
parameter once, so the number of parameters that are left bounds it, whatever fuel it is given, and
whether a type meets a demand does not change as a store grows.
-/

namespace Generics

namespace View

variable {v v' : View} {known searched : List Param} {p : Param} {d : Demand} {n n' : Nat}

/-- How many parameters are left to search. -/
def unsearched (known searched : List Param) : Nat := (known.filter (· ∉ searched)).length

theorem unsearched_le {searched' : List Param} (known : List Param)
    (h : searched ⊆ searched') :
    unsearched known searched' ≤ unsearched known searched := by
  unfold unsearched
  rw [← List.countP_eq_length_filter, ← List.countP_eq_length_filter]
  refine List.countP_mono_left fun q _ hq => ?_
  rw [decide_eq_true_iff] at hq ⊢
  exact fun hmem => hq (h hmem)

theorem unsearched_cons_lt (hp : p ∈ known) (hnew : p ∉ searched) :
    unsearched known (p :: searched) < unsearched known searched := by
  have hsub : known.filter (· ∉ p :: searched) = (known.filter (· ∉ searched)).filter (· ≠ p) := by
    rw [List.filter_filter]
    refine List.filter_congr fun q _ => ?_
    simp
  unfold unsearched
  rw [hsub]
  exact List.length_filter_lt_length_iff_exists.2
    ⟨p, List.mem_filter.2 ⟨hp, by simpa using hnew⟩, by simp⟩

/-- Searches agree when both views show the definitions that they come across alike, and there is fuel
for both; `known` and `known'` list the parameters that may come up. -/
theorem promiseFrom_eq {K : DefId → Prop} (known known' : List Param)
    (hdef : ∀ e, K e → v'.definition? e = v.definition? e)
    (hnode : ∀ p decl, K p.owner → v.param? p = some decl → ∀ k ∈ decl.constraints,
      v'.node? k = v.node? k ∧ ∀ node, v.node? k = some node →
        (∀ e, node.definition? = some e → K e) ∧
          ∀ q, node = .param q → K q.owner ∧ q ∈ known ∧ q ∈ known')
    (hK : K p.owner) (hp : p ∈ known) (hp' : p ∈ known') (hn : unsearched known searched < n)
    (hn' : unsearched known' searched < n') :
    v'.promiseFrom d n' searched p = v.promiseFrom d n searched p ∧
      ∀ found, v.promiseFrom d n searched p = some found → searched ⊆ found := by
  induction n generalizing n' searched p with
  | zero => omega
  | succ n ih =>
    obtain ⟨n', rfl⟩ := Nat.exists_eq_add_one_of_ne_zero (by omega : n' ≠ 0)
    have hparam : v'.param? p = v.param? p := by rw [param?, param?, hdef _ hK]
    rw [promiseFrom, promiseFrom, hparam]
    by_cases hmem : p ∈ searched
    · rw [if_pos hmem, if_pos hmem]
      exact ⟨rfl, fun found h => Option.some.inj h ▸ List.Subset.refl _⟩
    · rw [if_neg hmem, if_neg hmem]
      cases hdecl : v.param? p with
      | none => exact ⟨rfl, fun found h => Option.some.inj h ▸ List.subset_cons_self ..⟩
      | some decl =>
        by_cases hdeclares : decl.declares d = true
        · simp only [hdeclares, if_true]
          exact ⟨trivial, by simp⟩
        · simp only [hdeclares]
          have hlt := unsearched_cons_lt hp hmem
          have hlt' := unsearched_cons_lt hp' hmem
          -- the parameters found stay, so at each constraint there is still fuel
          have hsubset : searched ⊆ p :: searched := List.subset_cons_self ..
          refine (foldlM_eq_of_invariant (I := fun found => p :: searched ⊆ found)
            (fun found k hk hfound => ?_) (List.Subset.refl _)).imp_right
            fun hfold found h => List.Subset.trans hsubset (hfold found h)
          · have hle := unsearched_le known hfound
            have hle' := unsearched_le known' hfound
            have hkeep : ∀ found', some found = some found' → p :: searched ⊆ found' :=
              fun found' h => Option.some.inj h ▸ hfound
            obtain ⟨heq, hmeets⟩ := hnode p decl hK hdecl k hk
            simp only [heq]
            cases hk' : v.node? k with
            | none => exact ⟨rfl, hkeep⟩
            | some node =>
              obtain ⟨hdefined, hmentioned⟩ := hmeets node hk'
              have hgrants : v'.grants d node = v.grants d node := by
                rw [grants, grants]
                cases he : node.definition? with
                | none => rfl
                | some e => rw [Option.bind_some, Option.bind_some, hdef e (hdefined e he)]
              cases node with
              | param q =>
                cases hd : d.isInherited with
                | false => exact ⟨rfl, hkeep⟩
                | true =>
                  obtain ⟨hq, hmem, hmem'⟩ := hmentioned q rfl
                  obtain ⟨heq, hsub⟩ := ih hq hmem hmem' (by omega : unsearched known found < n)
                    (by omega : unsearched known' found < n')
                  exact ⟨heq, fun found' h => List.Subset.trans hfound (hsub found' h)⟩
              | named e =>
                simp only [hgrants]
                split
                · exact ⟨trivial, by simp⟩
                · exact ⟨trivial, hkeep⟩
              | app e args =>
                simp only [hgrants]
                split
                · exact ⟨trivial, by simp⟩
                · exact ⟨trivial, hkeep⟩

/-! ### What a search finds -/

/-- `p` inherits promises of `d` from `q`, by which it is constrained. -/
def Inherits (v : View) (d : Demand) (p q : Param) : Prop :=
  d.isInherited ∧ ∃ decl k, v.param? p = some decl ∧ k ∈ decl.constraints ∧
    v.node? k = some (.param q)

/-- `p` promises `d` by itself: it declares it, or a constraint grants it. -/
def Offers (v : View) (d : Demand) (p : Param) : Prop :=
  ∃ decl, v.param? p = some decl ∧
    (decl.declares d ∨ ∃ k ∈ decl.constraints, ∃ node, v.node? k = some node ∧ v.grants d node)

/-- A promise that is found is offered by a parameter from which it is inherited. -/
theorem exists_offers_of_promiseFrom (h : v.promiseFrom d n searched p = none) :
    ∃ q, Relation.ReflTransGen (v.Inherits d) p q ∧ v.Offers d q := by
  induction n generalizing searched p with
  | zero => cases h
  | succ n ih =>
    rw [promiseFrom] at h
    split at h
    · cases h
    cases hdecl : v.param? p with
    | none => simp [hdecl] at h
    | some decl =>
      simp only [hdecl] at h
      split at h
      · rename_i hdeclares
        exact ⟨p, .refl, decl, hdecl, .inl hdeclares⟩
      obtain ⟨k, hk, searched', hstep⟩ := exists_of_foldlM_eq_none h
      cases hnode : v.node? k with
      | none => simp [hnode] at hstep
      | some node =>
        cases node with
        | named e | app e args =>
          simp only [hnode] at hstep
          split at hstep
          · rename_i hgrants
            exact ⟨p, .refl, decl, hdecl, .inr ⟨k, hk, _, hnode, hgrants⟩⟩
          · cases hstep
        | param q =>
          simp only [hnode] at hstep
          split at hstep
          · rename_i hd
            obtain ⟨r, hqr, hr⟩ := ih hstep
            exact ⟨r, .head ⟨hd, decl, k, hdecl, hk, hnode⟩ hqr, hr⟩
          · cases hstep

/-- `p` offers nothing, and the parameters that it inherits from are found. -/
def Barren (v : View) (d : Demand) (found : List Param) (p : Param) : Prop :=
  ¬v.Offers d p ∧ ∀ q, v.Inherits d p q → q ∈ found

/-- More has been searched: only barren parameters have been added. -/
def Explored (v : View) (d : Demand) (searched found : List Param) : Prop :=
  searched ⊆ found ∧ ∀ q ∈ found, q ∉ searched → v.Barren d found q

variable {found found' : List Param}

theorem Explored.refl (v : View) (d : Demand) (searched : List Param) :
    v.Explored d searched searched :=
  ⟨List.Subset.refl _, fun _ hq hnew => absurd hq hnew⟩

theorem Explored.trans (h : v.Explored d searched found) (h' : v.Explored d found found') :
    v.Explored d searched found' := by
  refine ⟨List.Subset.trans h.1 h'.1, fun q hq hnew => ?_⟩
  by_cases hfound : q ∈ found
  · exact (h.2 q hfound hnew).imp_right fun hall r hr => h'.1 (hall r hr)
  · exact h'.2 q hq hfound

/-- What a search adds beside `p` is barren, so that `p` is left to look at. -/
theorem Explored.of_cons (h : v.Explored d (p :: searched) found) (hp : v.Barren d found p) :
    v.Explored d searched found ∧ p ∈ found := by
  obtain ⟨hsub, hall⟩ := h
  rw [List.cons_subset] at hsub
  refine ⟨⟨hsub.2, fun q hq hnew => ?_⟩, hsub.1⟩
  by_cases heq : q = p
  · exact heq ▸ hp
  · exact hall q hq (by simp [heq, hnew])

/-- The constraint `k` grants nothing, and the parameter that it is, if it is one, has been found where
promises are inherited. -/
def Spent (v : View) (d : Demand) (found : List Param) (k : TypeId) : Prop :=
  ∀ node, v.node? k = some node → ¬v.grants d node ∧ ∀ q, node = .param q → d.isInherited → q ∈ found

theorem Spent.mono {k : TypeId} (h : v.Spent d found k) (hsub : found ⊆ found') :
    v.Spent d found' k :=
  fun node hnode => (h node hnode).imp_right fun hq q heq hd => hsub (hq q heq hd)

theorem barren_of_param?_eq_none (h : v.param? p = none) : v.Barren d found p := by
  constructor
  · rintro ⟨decl, hdecl, -⟩
    cases h.symm.trans hdecl
  · rintro q ⟨-, decl, k, hdecl, -⟩
    cases h.symm.trans hdecl

/-- A parameter is barren if it declares nothing and all its constraints are spent. -/
theorem barren_of_spent {decl : ParamDecl} (hdecl : v.param? p = some decl)
    (hdeclares : ¬decl.declares d) (hspent : ∀ k ∈ decl.constraints, v.Spent d found k) :
    v.Barren d found p := by
  constructor
  · rintro ⟨decl', hdecl', hoffers⟩
    obtain rfl := Option.some.inj (hdecl.symm.trans hdecl')
    rcases hoffers with h | ⟨k, hk, node, hnode, h⟩
    · exact hdeclares h
    · exact (hspent k hk node hnode).1 h
  · rintro q ⟨hd, decl', k, hdecl', hk, hnode⟩
    obtain rfl := Option.some.inj (hdecl.symm.trans hdecl')
    exact (hspent k hk _ hnode).2 q rfl hd

/-- A search that finds no promise has explored all parameters that one could be inherited from. -/
theorem explored_of_promiseFrom (hknown : ∀ k q, v.node? k = some (.param q) → q ∈ known)
    (hp : p ∈ known) (hn : unsearched known searched < n)
    (h : v.promiseFrom d n searched p = some found) :
    v.Explored d searched found ∧ p ∈ found := by
  induction n generalizing searched found p with
  | zero => exact absurd hn (Nat.not_lt_zero _)
  | succ n ih =>
    rw [promiseFrom] at h
    split at h
    · rename_i hmem
      cases h
      exact ⟨.refl v d _, hmem⟩
    rename_i hnew
    cases hdecl : v.param? p with
    | none =>
      simp only [hdecl] at h
      cases h
      exact (Explored.refl v d _).of_cons (barren_of_param?_eq_none hdecl)
    | some decl =>
      simp only [hdecl] at h
      split at h
      · cases h
      rename_i hdeclares
      have hlt := unsearched_cons_lt hp hnew
      -- at each constraint there is fuel left, since what has been searched stays so
      have hall : v.Explored d (p :: searched) found ∧ ∀ k ∈ decl.constraints, v.Spent d found k := by
        refine of_foldlM_eq_some (P := fun k found => v.Spent d found k)
          (Explored.refl v d) (fun _ _ _ => Explored.trans) (fun k _ _ hR h => h.mono hR.1)
          (fun k hk b b' hb hstep => ?_) h
        have hle := unsearched_le known hb.1
        cases hnode : v.node? k with
        | none =>
          simp only [hnode] at hstep
          cases hstep
          exact ⟨.refl v d _, fun node hnode' => absurd (hnode.symm.trans hnode') nofun⟩
        | some node =>
          suffices h : v.Explored d b b' ∧ ¬v.grants d node ∧
              ∀ q, node = .param q → d.isInherited → q ∈ b' by
            refine ⟨h.1, fun node' hnode' => ?_⟩
            obtain rfl := Option.some.inj (hnode.symm.trans hnode')
            exact h.2
          cases node with
          | named e | app e args =>
            simp only [hnode] at hstep
            split at hstep
            · cases hstep
            · rename_i hgrants
              cases hstep
              exact ⟨.refl v d _, hgrants, nofun⟩
          | param q =>
            refine (and_left_comm.2 ⟨nofun, ?_⟩)
            simp only [hnode] at hstep
            split at hstep
            · obtain ⟨hexplored, hq⟩ := ih (hknown k q hnode) (by omega) hstep
              refine ⟨hexplored, ?_⟩
              rintro _ ⟨⟩ -
              exact hq
            · rename_i hd
              cases hstep
              exact ⟨.refl v d _, fun _ _ hd' => absurd hd' hd⟩
      exact hall.1.of_cons (barren_of_spent hdecl hdeclares hall.2)

/-- A search finds a promise exactly if one is offered by a parameter that is reached along
inheritance; `known` lists the parameters that may come up. -/
theorem promiseFrom_eq_none_iff (known : List Param)
    (hknown : ∀ k q, v.node? k = some (.param q) → q ∈ known) (hp : p ∈ known)
    (hn : unsearched known [] < n) :
    v.promiseFrom d n [] p = none ↔
      ∃ q, Relation.ReflTransGen (v.Inherits d) p q ∧ v.Offers d q := by
  refine ⟨exists_offers_of_promiseFrom, fun ⟨q, hpq, hq⟩ => ?_⟩
  cases h : v.promiseFrom d n [] p with
  | none => rfl
  | some found =>
    obtain ⟨⟨-, hbarren⟩, hfound⟩ := explored_of_promiseFrom hknown hp hn h
    have hmem : q ∈ found := by
      clear hq
      induction hpq with
      | refl => exact hfound
      | tail _ hstep ih => exact (hbarren _ ih (by simp)).2 _ hstep
    exact absurd hq (hbarren q hmem (by simp)).1

end View

namespace Types

/-- The parameters that have a type. -/
def paramsKnown (ts : Types) : List Param :=
  (List.range ts.size).filterMap fun i =>
    match ts.get? ⟨i⟩ with
    | some (.param q) => some q
    | _ => none

theorem mem_paramsKnown {ts : Types} {t : TypeId} {q : Param} (h : ts.get? t = some (.param q)) :
    q ∈ ts.paramsKnown :=
  List.mem_filterMap.2 ⟨t.val, List.mem_range.2 (lt_size_of_get? h), by simp only [h]⟩

theorem unsearched_paramsKnown_le (ts : Types) : View.unsearched ts.paramsKnown [] ≤ ts.size := by
  refine Nat.le_trans (List.length_filter_le ..) ?_
  exact Nat.le_trans (List.length_filterMap_le ..) (Nat.le_of_eq List.length_range)

end Types

/-! ## What trees meet -/

/-- The kind of the definition that the tree is an instance of. -/
def Tree.kind? (ds : Definitions) (T : Tree) : Option Kind := (T.definition?.bind ds.get?).map (·.kind)

/-- Whether the tree's definition provides what is demanded. -/
def Tree.provides (ds : Definitions) (m : Demand) (T : Tree) : Bool :=
  (T.definition?.bind ds.get?).any (·.provides m)

/-- The declaration of `p` promises that `p` meets the demand. -/
inductive Promised (c : Catalog) (base : Types) (m : Demand) : Param → Prop
  | declared {p : Param} {decl : ParamDecl} (hdecl : c.definitions.param? p = some decl)
      (h : decl.declares m) : Promised c base m p
  | granted {p : Param} {decl : ParamDecl} {k : TypeId} {K : Tree} {kind : Kind}
      (hdecl : c.definitions.param? p = some decl) (hk : k ∈ decl.constraints)
      (hK : base.Unfolds k K) (hkind : K.kind? c.definitions = some kind) (h : kind.grants m) :
      Promised c base m p
  | inherited {p q : Param} {decl : ParamDecl} {k : TypeId}
      (hdecl : c.definitions.param? p = some decl) (hk : k ∈ decl.constraints)
      (hK : base.Unfolds k (.param q)) (hm : m.isInherited) (h : Promised c base m q) :
      Promised c base m p

/-- The tree meets the demand: its definition provides it, or it is a parameter that promises it. -/
inductive Tree.Meets (c : Catalog) (base : Types) (m : Demand) : Tree → Prop
  | provided {T : Tree} (h : T.provides c.definitions m) : Meets c base m T
  | promised {p : Param} (h : Promised c base m p) : Meets c base m (.param p)

namespace Catalog

variable {c : Catalog} {base ts us : Types} {t u : TypeId} {T K : Tree} {m : Demand} {p : Param}
  {searched : List Param} {n : Nat}

/-- There is fuel for all parameters of a store. -/
theorem unsearched_lt_bound (c : Catalog) (ts : Types) :
    View.unsearched ts.paramsKnown [] < (c.view ts).bound :=
  Nat.lt_of_le_of_lt ts.unsearched_paramsKnown_le (c.size_lt_bound ts)

theorem grants_iff {node : Node} (h : node.definition? = K.definition?) :
    (c.view ts).grants m node ↔ ∃ kind, K.kind? c.definitions = some kind ∧ kind.grants m := by
  rw [View.grants, h, Option.any_eq_true, Tree.kind?]
  simp only [Option.map_eq_some_iff, ← exists_and_right, and_assoc]
  constructor
  · rintro ⟨info, hinfo, hgrants⟩
    exact ⟨_, info, hinfo, rfl, hgrants⟩
  · rintro ⟨_, info, hinfo, rfl, hgrants⟩
    exact ⟨info, hinfo, hgrants⟩

/-! ### The search for a promise -/

/-- A declaration promises what is offered by the parameters that it inherits from. -/
theorem promised_iff (hc : c.Grounded base) (hbase : base.Grows ts) :
    Promised c base m p ↔
      ∃ q, Relation.ReflTransGen ((c.view ts).Inherits m) p q ∧ (c.view ts).Offers m q := by
  have hnode : (c.view ts).node? = ts.get? := view_node? hc.plain ts
  constructor
  · intro h
    induction h with
    | declared hdecl h => exact ⟨_, .refl, _, hdecl, .inl h⟩
    | granted hdecl hk hK hkind h =>
      obtain ⟨node, hk', hdefinition⟩ := (hK.grow hbase).exists_node
      have hgrants : (c.view ts).grants m node := (c.grants_iff hdefinition).2 ⟨_, hkind, h⟩
      exact ⟨_, .refl, _, hdecl, .inr ⟨_, hk, node, hnode ▸ hk', hgrants⟩⟩
    | inherited hdecl hk hK hm _ ih =>
      obtain ⟨r, hqr, hr⟩ := ih
      cases hK with
      | param hk' => exact ⟨r, .head ⟨hm, _, _, hdecl, hk, hnode ▸ hbase _ _ hk'⟩ hqr, hr⟩
  · rintro ⟨q, hpq, hq⟩
    induction hpq using Relation.ReflTransGen.head_induction_on with
    | refl =>
      obtain ⟨decl, hdecl, h | ⟨k, hk, node, hk', h⟩⟩ := hq
      · exact .declared hdecl h
      · obtain ⟨K, hK⟩ := hc.constraints q decl hdecl k hk
        obtain ⟨node', hk'', hdefinition⟩ := (hK.grow hbase).exists_node
        rw [hnode, hk''] at hk'
        obtain ⟨kind, hkind, h⟩ := (c.grants_iff hdefinition).1 (Option.some.inj hk' ▸ h)
        exact .granted hdecl hk hK hkind h
    | @head p r hstep _ ih =>
      obtain ⟨hm, decl, k, hdecl, hk, hk'⟩ := hstep
      obtain ⟨K, hK⟩ := hc.constraints p decl hdecl k hk
      obtain rfl := (hK.grow hbase).unique (.param (hnode ▸ hk'))
      exact .inherited hdecl hk hK hm ih

/-- A promise that is found has been made. -/
theorem promised_of_promiseFrom (hc : c.Grounded base) (hbase : base.Grows ts)
    (h : (c.view ts).promiseFrom m n searched p = none) : Promised c base m p :=
  (promised_iff hc hbase).2 (View.exists_offers_of_promiseFrom h)

/-! ### Types -/

/-- An instance of a definition meets what the definition provides. -/
theorem meets_eq_provides (hplain : c.overrides = []) (ht : ts.Unfolds t T)
    (hT : T.definition?.isSome) : (c.view ts).meets m t = T.provides c.definitions m := by
  rw [View.meets, view_node? hplain]
  cases ht with
  | named h => simp only [h]; rfl
  | app h => simp only [h]; rfl
  | param => cases hT

/-- What a parameter meets is offered by one that it inherits from; any fuel that exceeds the number of
types will do. -/
theorem meets_param_iff (hplain : c.overrides = []) (ht : ts.get? t = some (.param p))
    (hn : ts.size < n) :
    { c.view ts with bound := n }.meets m t ↔
      ∃ q, Relation.ReflTransGen ((c.view ts).Inherits m) p q ∧ (c.view ts).Offers m q := by
  have hnode : { c.view ts with bound := n }.node? = ts.get? := view_node? hplain ts
  rw [View.meets, hnode, ht, Option.isNone_iff_eq_none]
  exact View.promiseFrom_eq_none_iff ts.paramsKnown
    (fun k q hq => Types.mem_paramsKnown (hnode ▸ hq)) (Types.mem_paramsKnown ht)
    (Nat.lt_of_le_of_lt ts.unsearched_paramsKnown_le hn)

/-- A type meets what its tree meets. -/
theorem meets_iff (hc : c.Grounded base) (hbase : base.Grows ts) (ht : ts.Unfolds t T) :
    (c.view ts).meets m t ↔ T.Meets c base m := by
  cases hd : T.definition? with
  | some d =>
    rw [meets_eq_provides hc.plain ht (by simp [hd])]
    refine ⟨.provided, fun h => ?_⟩
    cases h with
    | provided h => exact h
    | promised => cases hd
  | none =>
    cases ht with
    | named => cases hd
    | app => cases hd
    | param hnode =>
      refine Iff.trans ((meets_param_iff hc.plain hnode (c.size_lt_bound ts)).trans
        (promised_iff hc hbase).symm) ⟨.promised, fun h => ?_⟩
      cases h with
      | provided h => cases h
      | promised h => exact h

theorem meets_grow (hc : c.Grounded ts) (ht : ts.Unfolds t T) (hgrow : ts.Grows us) (m : Demand) :
    (c.view us).meets m t = (c.view ts).meets m t := by
  rw [Bool.eq_iff_iff, meets_iff hc hgrow (ht.grow hgrow), meets_iff hc (.refl ts) ht]

theorem missing_grow (hc : c.Grounded ts) (ht : ts.Unfolds t T) (hgrow : ts.Grows us) (s : Special) :
    (c.view us).missing t s = (c.view ts).missing t s := by
  simp only [View.missing, meets_grow hc ht hgrow]

end Catalog

end Generics

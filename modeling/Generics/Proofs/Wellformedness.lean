import Generics.Proofs.Mentions
import Generics.View.Wellformed

/-!
# Well-formed trees

A type passes the check exactly if it unfolds to a well-formed tree: a finite one, whose definitions
and parameters are known and whose applications have as many arguments as they need.
-/

namespace Generics

/-- Everything the tree mentions is known, and applications have as many arguments as they need. -/
inductive Tree.Wellformed (ds : Definitions) : Tree → Prop
  | named {d : DefId} {info : Definition} (h : ds.get? d = some info) (harity : info.arity = 0) :
      Wellformed ds (.named d)
  | app {d : DefId} {args : List Tree} {info : Definition} (h : ds.get? d = some info)
      (harity : info.arity = args.length) (hargs : ∀ a ∈ args, Wellformed ds a) :
      Wellformed ds (.app d args)
  | param {p : Param} (h : (ds.param? p).isSome) : Wellformed ds (.param p)

namespace Tree

variable {ds : Definitions} {T : Tree} {f : Param → Tree} {p : Param}

theorem wellformed_apply {d : DefId} {args : List Tree} {info : Definition}
    (h : ds.get? d = some info) (harity : info.arity = args.length)
    (hargs : ∀ a ∈ args, a.Wellformed ds) : (apply d args).Wellformed ds := by
  cases args with
  | nil => exact .named h harity
  | cons a args => exact .app h harity hargs

theorem Wellformed.subst (h : T.Wellformed ds) (hf : ∀ p ∈ T.params, (f p).Wellformed ds) :
    (T.subst f).Wellformed ds := by
  induction h with
  | named h harity => simpa using .named h harity
  | param h => simpa using hf
  | @app d args info h harity _ ih =>
    rw [subst_app]
    refine .app h (by simpa using harity) fun b hb => ?_
    obtain ⟨a, ha, rfl⟩ := List.mem_map.1 hb
    exact ih a ha fun p hp => hf p (by simpa using ⟨a, ha, hp⟩)

theorem Wellformed.exists_definition {d : DefId} (h : T.Wellformed ds) (hd : T.definition? = some d) :
    ∃ info, ds.get? d = some info := by
  cases h with
  | named h => exact ⟨_, Option.some.inj hd ▸ h⟩
  | app h => exact ⟨_, Option.some.inj hd ▸ h⟩
  | param => cases hd

theorem Wellformed.isSome_param? (h : T.Wellformed ds) (hp : p ∈ T.params) : (ds.param? p).isSome := by
  induction h with
  | named => simp at hp
  | param h =>
    rw [params_param, List.mem_singleton] at hp
    rwa [hp]
  | app _ _ _ ih =>
    rw [params_app, List.mem_flatMap] at hp
    obtain ⟨a, ha, hp⟩ := hp
    exact ih a ha hp

/-- A known parameter stands at one of the positions of its owner. -/
theorem index_lt_arity {info : Definition} (h : ds.get? p.owner = some info)
    (hp : (ds.param? p).isSome) : p.index < info.arity := by
  rw [Definitions.param?, h, Option.bind_some, Option.isSome_iff_exists] at hp
  obtain ⟨decl, hdecl⟩ := hp
  exact (List.getElem?_eq_some_iff.1 hdecl).1

end Tree

namespace Catalog

variable {c : Catalog} {ts us : Types} {t : TypeId} {T : Tree} {n : Nat} {path : List TypeId}
  {good good' : Std.TreeSet TypeId}

/-- The members of the set unfold to well-formed trees. -/
def Checked (c : Catalog) (ts : Types) (good : Std.TreeSet TypeId) : Prop :=
  ∀ u ∈ good, ∃ U, ts.Unfolds u U ∧ U.Wellformed c.definitions

theorem Checked.insert (h : c.Checked ts good) (ht : ts.Unfolds t T)
    (hT : T.Wellformed c.definitions) : c.Checked ts (good.insert t) := by
  intro u hu
  rcases mem_insert_treeSet.1 hu with rfl | hu
  · exact ⟨T, ht, hT⟩
  · exact h u hu

theorem checkArity_eq_ok_iff {d : DefId} {args : List TypeId} :
    (c.view ts).checkArity t d args = .ok () ↔
      ∃ info, c.definitions.get? d = some info ∧ info.arity = args.length := by
  rw [View.checkArity, view_definition?]
  cases c.definitions.get? d with
  | none => simp
  | some info => simp

/-- Nothing but well-formed types passes the check. -/
theorem checked_of_checkFrom (hplain : c.overrides = []) (hgood : c.Checked ts good)
    (h : (c.view ts).checkFrom n path good t = .ok good') :
    c.Checked ts good' ∧ ∃ T, ts.Unfolds t T ∧ T.Wellformed c.definitions := by
  induction n generalizing path good good' t with
  | zero => cases h
  | succ n ih =>
    rw [View.checkFrom, view_node? hplain] at h
    split at h
    · rename_i hmem
      cases h
      exact ⟨hgood, hgood t (Std.TreeSet.contains_iff_mem.1 hmem)⟩
    · split at h
      · cases h
      · split at h
        · cases h
        · rename_i p hp
          split at h
          · rename_i hparam
            cases h
            exact ⟨hgood.insert (.param hp) (.param hparam), _, .param hp, .param hparam⟩
          · cases h
        · rename_i d hd
          obtain ⟨_, harity, h⟩ := bind_eq_ok_iff.1 h
          obtain ⟨info, hinfo, harity⟩ := checkArity_eq_ok_iff.1 harity
          cases h
          exact ⟨hgood.insert (.named hd) (.named hinfo harity), _, .named hd, .named hinfo harity⟩
        · rename_i d args hd
          obtain ⟨_, harity, h⟩ := bind_eq_ok_iff.1 h
          obtain ⟨good'', hargs, h⟩ := bind_eq_ok_iff.1 h
          obtain ⟨info, hinfo, harity⟩ := checkArity_eq_ok_iff.1 harity
          cases h
          obtain ⟨hgood'', hargs⟩ := of_foldlM_eq_ok (fun _ _ a _ hI ha => ih hI ha) hgood hargs
          obtain ⟨Ts, hTs⟩ := forall₂_of_forall_exists hargs
          have hT : Tree.Wellformed c.definitions (.app d Ts) := by
            refine .app hinfo (harity.trans hTs.length_eq) fun A hA => ?_
            obtain ⟨a, -, -, ha⟩ := exists_of_mem_right hTs hA
            exact ha
          have ht : ts.Unfolds t (.app d Ts) := .app hd (hTs.imp fun _ _ h => h.1)
          exact ⟨hgood''.insert ht hT, _, ht, hT⟩

/-- A well-formed type is not found on the path that leads to it, so it passes. -/
theorem exists_checkFrom_eq_ok (hplain : c.overrides = []) (ht : ts.Unfolds t T)
    (hT : T.Wellformed c.definitions) (hn : T.height ≤ n)
    (hpath : ∀ u ∈ path, ∃ U, ts.Unfolds u U ∧ T.height < U.height) (good : Std.TreeSet TypeId) :
    ∃ good', (c.view ts).checkFrom n path good t = .ok good' := by
  induction n generalizing path good t T with
  | zero => exact absurd hn (Nat.not_le_of_lt T.height_pos)
  | succ n ih =>
    rw [View.checkFrom, view_node? hplain]
    split
    · exact ⟨_, rfl⟩
    · have hnot : t ∉ path := by
        intro hmem
        obtain ⟨U, hU, hlt⟩ := hpath t hmem
        rw [hU.unique ht] at hlt
        exact Nat.lt_irrefl _ hlt
      rw [if_neg hnot]
      cases ht with
      | named h =>
        cases hT with
        | named hinfo harity =>
          simp only [h]
          exact ⟨_, bind_eq_ok_iff.2 ⟨(), checkArity_eq_ok_iff.2 ⟨_, hinfo, harity⟩, rfl⟩⟩
      | param h =>
        cases hT with
        | param hparam =>
          simp only [h, view_param?]
          exact ⟨_, if_pos hparam⟩
      | @app _ d args Ts h hargs =>
        cases hT with
        | app hinfo harity hwf =>
          simp only [h]
          have harity' : (c.view ts).checkArity t d args = .ok () :=
            checkArity_eq_ok_iff.2 ⟨_, hinfo, harity.trans hargs.length_eq.symm⟩
          have hok : ∃ r, args.foldlM ((c.view ts).checkFrom n (t :: path)) good = .ok r := by
            refine exists_foldlM_eq_ok (fun good a ha => ?_) good
            obtain ⟨A, hA, ha⟩ := exists_of_mem_left hargs ha
            have hlt := Tree.height_lt_of_mem (d := d) hA
            refine ih ha (hwf A hA) (Tree.height_le_of_mem hn hA)
              (List.forall_mem_cons.2 ⟨⟨_, .app h hargs, hlt⟩, fun u hu => ?_⟩) good
            obtain ⟨U, hU, hlt'⟩ := hpath u hu
            exact ⟨U, hU, Nat.lt_trans hlt hlt'⟩
          obtain ⟨r, hr⟩ := hok
          exact ⟨_, bind_eq_ok_iff.2 ⟨(), harity', bind_eq_ok_iff.2 ⟨r, hr, rfl⟩⟩⟩

/-- The types that pass the check are those that unfold to well-formed trees. -/
theorem check_eq_ok_iff (hplain : c.overrides = []) :
    (c.view ts).check t = .ok () ↔ ∃ T, ts.Unfolds t T ∧ T.Wellformed c.definitions := by
  constructor
  · intro h
    obtain ⟨good, hgood⟩ : ∃ good, (c.view ts).checkFrom (c.view ts).bound [] ∅ t = .ok good := by
      unfold View.check at h
      cases hrun : (c.view ts).checkFrom (c.view ts).bound [] ∅ t with
      | error e => simp [hrun, Except.map] at h
      | ok good => exact ⟨good, rfl⟩
    exact (checked_of_checkFrom hplain (fun u hu => absurd hu Std.TreeSet.not_mem_emptyc) hgood).2
  · rintro ⟨T, ht, hT⟩
    have hn := Nat.le_trans ht.height_le (Nat.le_of_lt (c.size_lt_bound ts))
    obtain ⟨good, hgood⟩ : ∃ good, (c.view ts).checkFrom (c.view ts).bound [] ∅ t = .ok good :=
      exists_checkFrom_eq_ok hplain ht hT hn (by simp) ∅
    rw [View.check, hgood]
    rfl

end Catalog

end Generics

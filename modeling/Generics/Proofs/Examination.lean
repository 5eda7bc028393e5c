import Generics.Resolve
import Generics.Proofs.Mentions

/-!
# What an examination depends on

The examination of a request reads the trees of its two types and the definitions that these mention,
and nothing else: two views that agree on them examine it alike, errors included.
-/

namespace Generics

/-- Every definition that the tree mentions, owners of parameters included, satisfies `K`. -/
inductive Tree.Over (K : DefId → Prop) : Tree → Prop
  | named {d : DefId} (h : K d) : Over K (.named d)
  | app {d : DefId} {args : List Tree} (h : K d) (hargs : ∀ a ∈ args, Over K a) :
      Over K (.app d args)
  | param {p : Param} (h : K p.owner) : Over K (.param p)

namespace Tree

variable {K : DefId → Prop} {T : Tree} {f : Param → Tree} {p : Param}

theorem Over.of_mem_params (h : T.Over K) (hp : p ∈ T.params) : K p.owner := by
  induction h with
  | named => simp at hp
  | param h =>
    rw [params_param, List.mem_singleton] at hp
    rwa [hp]
  | app _ _ ih =>
    rw [params_app, List.mem_flatMap] at hp
    obtain ⟨a, ha, hp⟩ := hp
    exact ih a ha hp

theorem Over.subst (h : T.Over K) (hf : ∀ p ∈ T.params, (f p).Over K) : (T.subst f).Over K := by
  induction h with
  | named h => simpa using .named h
  | param => simpa using hf
  | @app d args h _ ih =>
    rw [subst_app]
    refine .app h fun b hb => ?_
    obtain ⟨a, ha, rfl⟩ := List.mem_map.1 hb
    exact ih a ha fun p hp => hf p (by simpa using ⟨a, ha, hp⟩)

theorem Over.apply {d : DefId} {args : List Tree} (hd : K d) (hargs : ∀ T ∈ args, T.Over K) :
    (Tree.apply d args).Over K := by
  cases args with
  | nil => exact .named hd
  | cons a args => exact .app hd hargs

theorem over_true (T : Tree) : T.Over fun _ => True := by
  induction T using induct with
  | named => exact .named trivial
  | param => exact .param trivial
  | app d args ih => exact .app trivial ih

end Tree

namespace View

variable {v v' : View} {K : DefId → Prop} {t : TypeId} {T : Tree} {n n' : Nat}

theorem param?_eq (hdef : ∀ d, K d → v'.definition? d = v.definition? d) {p : Param} (h : K p.owner) :
    v'.param? p = v.param? p := by
  rw [param?, param?, hdef _ h]

/-- Checks of one type agree when both views show it alike and there is fuel for both. -/
theorem checkFrom_eq (hlook : ∀ t n, v.node? t = some n → v'.node? t = some n)
    (hdef : ∀ d, K d → v'.definition? d = v.definition? d) (ht : Unfolds v.node? t T)
    (hT : T.Over K) (hn : T.height ≤ n) (hn' : T.height ≤ n') (path : List TypeId)
    (good : Std.TreeSet TypeId) : v'.checkFrom n' path good t = v.checkFrom n path good t := by
  induction n generalizing t T n' path good with
  | zero => exact absurd hn (Nat.not_le_of_lt T.height_pos)
  | succ n ih =>
    obtain ⟨n', rfl⟩ := Nat.exists_eq_add_one_of_ne_zero
      (Nat.pos_iff_ne_zero.1 (Nat.lt_of_lt_of_le T.height_pos hn'))
    cases ht with
    | named h =>
      cases hT with
      | named hd => simp only [checkFrom, h, hlook _ _ h, checkArity, hdef _ hd]
    | param h =>
      cases hT with
      | param hp => simp only [checkFrom, h, hlook _ _ h, param?_eq hdef hp]
    | @app _ d args Ts h hargs =>
      cases hT with
      | app hd hTs =>
        have hstep : ∀ path good, ∀ a ∈ args,
            v'.checkFrom n' path good a = v.checkFrom n path good a := by
          intro path good a ha
          obtain ⟨A, hA, ha⟩ := exists_of_mem_left hargs ha
          exact ih ha (hTs A hA) (Tree.height_le_of_mem hn hA) (Tree.height_le_of_mem hn' hA) path good
        simp only [checkFrom, h, hlook _ _ h, checkArity, hdef _ hd, foldlM_ext (hstep (t :: path))]

end View

namespace Catalog

variable {c c' : Catalog} {ts us : Types} {K : DefId → Prop} {t abstraction implementation : TypeId}
  {T A I : Tree}

theorem check_eq (hplain : c.overrides = []) (hplain' : c'.overrides = [])
    (hdef : ∀ d, K d → c'.definitions.get? d = c.definitions.get? d) (hgrow : ts.Grows us)
    (ht : ts.Unfolds t T) (hT : T.Over K) : (c'.view us).check t = (c.view ts).check t := by
  have hlook : ∀ t n, (c.view ts).node? t = some n → (c'.view us).node? t = some n := by
    rw [view_node? hplain, view_node? hplain']
    exact hgrow
  have hheight : ∀ (c : Catalog) {ts : Types}, ts.Unfolds t T → T.height ≤ (c.view ts).bound :=
    fun c ts h => Nat.le_of_lt (Nat.lt_of_le_of_lt h.height_le (c.size_lt_bound ts))
  rw [View.check, View.check, View.checkFrom_eq hlook hdef (view_node? hplain ts ▸ ht) hT
    (hheight c ht) (hheight c' (ht.grow hgrow))]

/-- A request about types that both stores hold is examined alike. -/
theorem examine_eq (hplain : c.overrides = []) (hplain' : c'.overrides = [])
    (hdef : ∀ d, K d → c'.definitions.get? d = c.definitions.get? d) (hgrow : ts.Grows us)
    (hA : ts.Unfolds abstraction A) (hAK : A.Over K) (hI : ts.Unfolds implementation I)
    (hIK : I.Over K) :
    (c'.view us).examine abstraction implementation =
      (c.view ts).examine abstraction implementation := by
  obtain ⟨a, ha, -⟩ := hA.exists_node
  obtain ⟨i, hi, -⟩ := hI.exists_node
  have hparams : (c'.view us).params implementation = (c.view ts).params implementation := by
    rw [params_eq hplain hI, params_eq hplain' (hI.grow hgrow)]
  simp only [View.examine, check_eq hplain hplain' hdef hgrow hA hAK,
    check_eq hplain hplain' hdef hgrow hI hIK, View.isParam, view_node? hplain, view_node? hplain',
    ha, hi, hgrow _ _ ha, hgrow _ _ hi, hparams]

end Catalog

end Generics

import Generics.Definition

/-!
# Trees

A type is a node of a graph.  Written out in full it is a tree, and what the engine does to types is
described by what it does to trees: substitution replaces parameters, all at once, and leaves the
rest in place.  Equations between trees do not depend on which types a store happens to hold.
-/

namespace Generics

/-- A type written out in full. -/
inductive Tree
  | named (d : DefId)
  | app (d : DefId) (args : List Tree)
  | param (p : Param)
  deriving Inhabited

namespace Tree

/-- What holds of leaves and carries over from arguments to applications holds of every tree. -/
theorem induct {P : Tree → Prop} (named : ∀ d, P (.named d))
    (app : ∀ d args, (∀ a ∈ args, P a) → P (.app d args)) (param : ∀ p, P (.param p)) :
    ∀ T, P T
  | .named d => named d
  | .app d args => app d args fun a _ => induct named app param a
  | .param p => param p

/-- Replace every parameter by its image. -/
def subst (f : Param → Tree) : Tree → Tree
  | named d => named d
  | app d args => app d (args.map (subst f))
  | param p => f p

/-- The parameters of a tree from left to right, with repetitions. -/
def params : Tree → List Param
  | named _ => []
  | app _ args => args.flatMap params
  | param p => [p]

/-- The number of nodes on the longest path. -/
def height : Tree → Nat
  | app _ args => (args.map height).foldr max 0 + 1
  | _ => 1

/-- The definition that a tree is an instance of. -/
def definition? : Tree → Option DefId
  | named d => some d
  | app d _ => some d
  | param _ => none

/-- The arguments of an application. -/
def args : Tree → List Tree
  | app _ args => args
  | _ => []

/-- A definition applied to arguments; applied to none it is the definition itself. -/
def apply (d : DefId) : List Tree → Tree
  | [] => named d
  | a :: args => app d (a :: args)

/-- The image of every parameter when the parameters of `d` are replaced by `args`. -/
def assign (d : DefId) (args : List Tree) (p : Param) : Tree :=
  if p.owner = d then args[p.index]?.getD (.param p) else .param p

/-! ## Substitution -/

@[simp]
theorem subst_named (f : Param → Tree) (d : DefId) : (named d).subst f = named d := by
  simp [subst]

@[simp]
theorem subst_param (f : Param → Tree) (p : Param) : (param p).subst f = f p := by
  simp [subst]

@[simp]
theorem subst_app (f : Param → Tree) (d : DefId) (args : List Tree) :
    (app d args).subst f = app d (args.map (subst f)) := by
  simp [subst]

@[simp]
theorem params_named (d : DefId) : (named d).params = [] := by
  simp [params]

@[simp]
theorem params_param (p : Param) : (param p).params = [p] := by
  simp [params]

@[simp]
theorem params_app (d : DefId) (args : List Tree) : (app d args).params = args.flatMap params := by
  simp [params]

theorem apply_of_ne_nil {args : List Tree} (h : args ≠ []) (d : DefId) : apply d args = app d args := by
  cases args with
  | nil => exact absurd rfl h
  | cons a args => rfl

/-- A substitution acts through the images of the parameters that occur. -/
theorem subst_congr {f g : Param → Tree} {T : Tree} (h : ∀ p ∈ T.params, f p = g p) :
    T.subst f = T.subst g := by
  induction T using induct with
  | named d => simp
  | param p => simpa using h p
  | app d args ih =>
    simp only [params_app, List.mem_flatMap] at h
    simp only [subst_app, app.injEq, true_and]
    exact List.map_congr_left fun a ha => ih a ha fun p hp => h p ⟨a, ha, hp⟩

theorem subst_eq_self {f : Param → Tree} {T : Tree} (h : ∀ p ∈ T.params, f p = param p) :
    T.subst f = T := by
  induction T using induct with
  | named d => simp
  | param p => simpa using h p
  | app d args ih =>
    simp only [params_app, List.mem_flatMap] at h
    simp only [subst_app, app.injEq, true_and]
    rw [List.map_congr_left (g := id) fun a ha => ih a ha fun p hp => h p ⟨a, ha, hp⟩, List.map_id]

/-- Two substitutions in a row are one. -/
theorem subst_subst (f g : Param → Tree) (T : Tree) :
    (T.subst f).subst g = T.subst fun p => (f p).subst g := by
  induction T using induct with
  | named d => simp
  | param p => simp
  | app d args ih =>
    simp only [subst_app, List.map_map, app.injEq, true_and]
    exact List.map_congr_left ih

/-- Where two substitutions have the same result, the images of what occurs are the same. -/
theorem eq_of_subst_eq {f g : Param → Tree} {T : Tree} (h : T.subst f = T.subst g) {p : Param}
    (hp : p ∈ T.params) : f p = g p := by
  induction T using induct with
  | named d => simp at hp
  | param q =>
    obtain rfl : p = q := by simpa using hp
    simpa using h
  | app d args ih =>
    simp only [params_app, List.mem_flatMap] at hp
    simp only [subst_app, app.injEq, true_and] at h
    obtain ⟨a, ha, hp⟩ := hp
    exact ih a ha (List.map_inj_left.1 h a ha) hp

/-- The parameters of an instance are those of the images of what occurs. -/
theorem mem_params_subst {f : Param → Tree} {T : Tree} {q : Param} :
    q ∈ (T.subst f).params ↔ ∃ p ∈ T.params, q ∈ (f p).params := by
  induction T using induct with
  | named d => simp
  | param p => simp
  | app d args ih =>
    simp only [subst_app, params_app, List.mem_flatMap, List.mem_map]
    constructor
    · rintro ⟨_, ⟨a, ha, rfl⟩, hq⟩
      obtain ⟨p, hp, hq⟩ := (ih a ha).1 hq
      exact ⟨p, ⟨a, ha, hp⟩, hq⟩
    · rintro ⟨p, ⟨a, ha, hp⟩, hq⟩
      exact ⟨_, ⟨a, ha, rfl⟩, (ih a ha).2 ⟨p, hp, hq⟩⟩

/-! ## Height -/

theorem height_pos (T : Tree) : 0 < T.height := by
  cases T <;> simp [height]

theorem height_lt_of_mem {d : DefId} {args : List Tree} {a : Tree} (ha : a ∈ args) :
    a.height < (app d args).height := by
  have hle : ∀ ns : List Nat, ∀ n ∈ ns, n ≤ ns.foldr max 0 := by
    intro ns
    induction ns with
    | nil => simp
    | cons m ns ih =>
      intro n hn
      rcases List.mem_cons.1 hn with rfl | hn
      · exact Nat.le_max_left ..
      · exact Nat.le_trans (ih n hn) (Nat.le_max_right ..)
  simp only [height]
  exact Nat.lt_succ_of_le (hle _ _ (List.mem_map_of_mem ha))

/-- Fuel for an application leaves enough for its arguments. -/
theorem height_le_of_mem {d : DefId} {args : List Tree} {a : Tree} {n : Nat}
    (h : (app d args).height ≤ n + 1) (ha : a ∈ args) : a.height ≤ n :=
  Nat.le_of_lt_succ (Nat.lt_of_lt_of_le (height_lt_of_mem ha) h)

/-- A longest path of an application goes through one of its arguments. -/
theorem exists_height_eq {d : DefId} {args : List Tree} (h : args ≠ []) :
    ∃ a ∈ args, (app d args).height = a.height + 1 := by
  simp only [height, Nat.add_right_cancel_iff]
  induction args with
  | nil => exact absurd rfl h
  | cons a args ih =>
    simp only [List.map_cons, List.foldr_cons, List.mem_cons]
    rcases Nat.le_total ((args.map height).foldr max 0) a.height with hle | hle
    · exact ⟨a, .inl rfl, Nat.max_eq_left hle⟩
    · cases args with
      | nil => exact ⟨a, .inl rfl, Nat.max_eq_left (Nat.zero_le _)⟩
      | cons b args =>
        obtain ⟨c, hc, hmax⟩ := ih (List.cons_ne_nil b args)
        exact ⟨c, .inr hc, (Nat.max_eq_right hle).trans hmax⟩

theorem height_app_le {d : DefId} {args : List Tree} {n : Nat} (h : ∀ a ∈ args, a.height ≤ n) :
    (app d args).height ≤ n + 1 := by
  by_cases hargs : args = []
  · simp [hargs, height]
  · obtain ⟨a, ha, heq⟩ := exists_height_eq (d := d) hargs
    rw [heq]
    exact Nat.succ_le_succ (h a ha)

end Tree

end Generics

import Generics.Proofs.Instantiation

/-!
# Growing bindings

Matching and inference only ever append bindings.  What a substitution of trees has to agree with
grows with them: the more is bound, the fewer substitutions agree.
-/

namespace Generics

namespace Substitution

variable {ts us : Types} {σ τ υ : Substitution} {f g : Param → Tree} {p : Param} {t : TypeId}
  {S S' : Param → Prop}

/-- What `σ` binds, written out in full, is what `g` gives. -/
def Agrees (ts : Types) (σ : Substitution) (g : Param → Tree) : Prop :=
  ∀ p t, σ.get? p = some t → ts.Unfolds t (g p)

/-- `τ` appends to `σ` bindings of parameters in `S`, to types that unfold. -/
def Extends (ts : Types) (S : Param → Prop) (σ τ : Substitution) : Prop :=
  ∃ more, τ.entries = σ.entries ++ more ∧
    ∀ e ∈ more, S e.1 ∧ ¬σ.contains e.1 ∧ ∃ T, ts.Unfolds e.2 T

theorem Unfolds.agrees (h : σ.Unfolds ts f) : σ.Agrees ts f := fun p t => (h p).1 t

theorem Agrees.grow (h : σ.Agrees ts g) (hgrow : ts.Grows us) : σ.Agrees us g := fun p t ht =>
  (h p t ht).grow hgrow

theorem Agrees.of_grows (h : σ.Agrees us g) (hσ : ∃ f, σ.Unfolds ts f) (hgrow : ts.Grows us) :
    σ.Agrees ts g := by
  obtain ⟨f, hf⟩ := hσ
  intro p t ht
  have hp := (hf p).1 t ht
  rwa [(h p t ht).unique (hp.grow hgrow)]

theorem agrees_empty (ts : Types) (g : Param → Tree) : empty.Agrees ts g := nofun

/-! ## Looking up -/

theorem contains_of_get? (h : σ.get? p = some t) : σ.contains p := by
  rw [contains, h]
  rfl

theorem get?_of_extends (h : σ.Extends ts S τ) (hp : σ.get? p = some t) : τ.get? p = some t := by
  obtain ⟨more, hmore, -⟩ := h
  rw [get?, hmore, List.lookup_append]
  rw [get?] at hp
  rw [hp, Option.some_or]

theorem contains_of_extends (h : σ.Extends ts S τ) (hp : σ.contains p) : τ.contains p := by
  obtain ⟨t, ht⟩ := Option.isSome_iff_exists.1 hp
  exact contains_of_get? (get?_of_extends h ht)

theorem mem_of_lookup {l : List (Param × TypeId)} (h : l.lookup p = some t) : (p, t) ∈ l := by
  obtain ⟨l₁, l₂, rfl, -⟩ := List.lookup_eq_some_iff.1 h
  exact List.mem_append_right _ (List.mem_cons_self ..)

/-- Behind what was bound before stands what has been appended. -/
theorem domain_of_entries {more : List (Param × TypeId)} (h : τ.entries = σ.entries ++ more) :
    τ.domain = σ.domain ++ more.map Prod.fst ∧ τ.domain.drop σ.size = more.map Prod.fst := by
  have hdomain : τ.domain = σ.domain ++ more.map Prod.fst := by
    rw [domain, h, List.map_append, domain]
  refine ⟨hdomain, ?_⟩
  rw [hdomain]
  exact List.drop_left' (List.length_map _)

/-- A binding of the extension is an old one, or one of those appended. -/
theorem get?_cases_of_extends (h : σ.Extends ts S τ) (hp : τ.get? p = some t) :
    σ.get? p = some t ∨ S p ∧ ¬σ.contains p ∧ ∃ T, ts.Unfolds t T := by
  obtain ⟨more, hmore, hall⟩ := h
  rw [get?, hmore, List.lookup_append] at hp
  rcases Option.or_eq_some_iff.1 hp with hp | ⟨-, hp⟩
  · exact .inl hp
  · exact .inr (hall _ (mem_of_lookup hp))

/-- What the extension binds was bound before, or may be bound. -/
theorem contains_cases_of_extends (h : σ.Extends ts S τ) (hp : τ.contains p) :
    σ.contains p ∨ S p := by
  obtain ⟨t, ht⟩ := Option.isSome_iff_exists.1 hp
  exact (get?_cases_of_extends h ht).imp contains_of_get? And.left

theorem of_contains_of_extends_empty (h : empty.Extends ts S τ) (hp : τ.contains p) : S p :=
  (contains_cases_of_extends h hp).resolve_left nofun

/-! ## Extending -/

theorem Extends.refl (ts : Types) (S : Param → Prop) (σ : Substitution) : σ.Extends ts S σ :=
  ⟨[], (List.append_nil _).symm, by simp⟩

theorem Extends.trans (h : σ.Extends ts S τ) (h' : τ.Extends ts S υ) : σ.Extends ts S υ := by
  have hcontains := fun {p} => contains_of_extends (p := p) h
  obtain ⟨more, hmore, hall⟩ := h
  obtain ⟨more', hmore', hall'⟩ := h'
  refine ⟨more ++ more', by rw [hmore', hmore, List.append_assoc], fun e he => ?_⟩
  rcases List.mem_append.1 he with he | he
  · exact hall e he
  · obtain ⟨hS, hnot, hT⟩ := hall' e he
    exact ⟨hS, fun hσ => hnot (hcontains hσ), hT⟩

theorem Extends.mono (h : σ.Extends ts S τ) (hS : ∀ p, S p → S' p) : σ.Extends ts S' τ := by
  obtain ⟨more, hmore, hall⟩ := h
  exact ⟨more, hmore, fun e he => ⟨hS _ (hall e he).1, (hall e he).2⟩⟩

theorem Extends.grow (h : σ.Extends ts S τ) (hgrow : ts.Grows us) : σ.Extends us S τ := by
  obtain ⟨more, hmore, hall⟩ := h
  refine ⟨more, hmore, fun e he => ?_⟩
  obtain ⟨hS, hnot, T, hT⟩ := hall e he
  exact ⟨hS, hnot, T, hT.grow hgrow⟩

/-- Where everything is bound already nothing is appended. -/
theorem Extends.eq_of_contains (h : σ.Extends ts S τ) (hS : ∀ p, S p → σ.contains p) : τ = σ := by
  obtain ⟨more, hmore, hall⟩ := h
  cases more with
  | nil =>
    rw [List.append_nil] at hmore
    exact congrArg Substitution.mk hmore
  | cons e more =>
    obtain ⟨hSe, hnot, -⟩ := hall e (List.mem_cons_self ..)
    exact absurd (hS _ hSe) hnot

theorem extends_insert {T : Tree} (hp : S p) (hnew : ¬σ.contains p) (ht : ts.Unfolds t T) :
    σ.Extends ts S (σ.insert p t) := by
  refine ⟨[(p, t)], by rw [insert_of_not_contains hnew], fun e he => ?_⟩
  obtain rfl := List.mem_singleton.1 he
  exact ⟨hp, hnew, T, ht⟩

/-! ## Agreeing -/

theorem Agrees.of_extends (h : τ.Agrees ts g) (hext : σ.Extends ts S τ) : σ.Agrees ts g :=
  fun p t ht => h p t (get?_of_extends hext ht)

theorem Agrees.insert (h : σ.Agrees ts g) (ht : ts.Unfolds t (g p)) : (σ.insert p t).Agrees ts g := by
  intro q u hu
  rw [get?_insert] at hu
  split at hu
  · rename_i hq
    cases hu
    exact hq ▸ ht
  · exact h q u hu

/-- Substitutions that agree with the same bindings give the same for what is bound. -/
theorem Agrees.eq_of_contains (hf : σ.Agrees ts f) (hg : σ.Agrees ts g) (hp : σ.contains p) :
    f p = g p := by
  obtain ⟨t, ht⟩ := Option.isSome_iff_exists.1 hp
  exact (hf p t ht).unique (hg p t ht)

/-- Bindings to types that unfold give a substitution of trees. -/
theorem exists_unfolds_of_extends (hσ : σ.Unfolds ts f) (h : σ.Extends ts S τ) :
    ∃ g, τ.Unfolds ts g := by
  refine exists_unfolds fun p t ht => ?_
  rcases get?_cases_of_extends h ht with hp | ⟨-, -, hT⟩
  · exact ⟨_, (hσ p).1 t hp⟩
  · exact hT

end Substitution

end Generics

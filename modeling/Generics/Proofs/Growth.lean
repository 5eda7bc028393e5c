import Generics.Proofs.Soundness

/-!
# Computations that only add types

Whatever the engine does, it adds types to a store and changes nothing else.  What it adds are
applications to types that the store holds already, so an ordered store stays ordered and its types
stay finite.  This file has the rules by which a computation is seen to do so, for computations of
the engine and for those that carry a state or may fail.
-/

namespace Generics

/-! ## Finite types -/

/-- The type `t` is a finite tree. -/
def Types.Finite (ts : Types) (t : TypeId) : Prop := ∃ T, ts.Unfolds t T

/-- Every type that `σ` maps to is a finite tree. -/
def Substitution.Finite (σ : Substitution) (ts : Types) : Prop := ∃ f, σ.Unfolds ts f

section

variable {c : Catalog} {ts us : Types} {t : TypeId} {n : Node} {σ : Substitution}

theorem Types.Finite.grow (h : ts.Finite t) (hgrow : ts.Grows us) : us.Finite t :=
  h.imp fun _ hT => hT.grow hgrow

theorem Types.Finite.lt_size (h : ts.Finite t) : t.val < ts.size := by
  obtain ⟨T, hT⟩ := h
  obtain ⟨n, hn, -⟩ := hT.exists_node
  exact lt_size_of_get? hn

theorem Types.finite_of_mem {ss : List TypeId} {Ss : List Tree}
    (h : List.Forall₂ ts.Unfolds ss Ss) (ht : t ∈ ss) : ts.Finite t := by
  obtain ⟨T, -, hT⟩ := exists_of_mem_left h ht
  exact ⟨T, hT⟩

theorem Substitution.Finite.grow (h : σ.Finite ts) (hgrow : ts.Grows us) : σ.Finite us :=
  h.imp fun _ hf => hf.grow hgrow

theorem Substitution.finite_iff :
    σ.Finite ts ↔ ∀ p t, σ.get? p = some t → ts.Finite t :=
  ⟨fun ⟨f, hf⟩ p t ht => ⟨f p, (hf p).1 t ht⟩, exists_unfolds⟩

theorem Substitution.finite_empty (ts : Types) : empty.Finite ts := ⟨_, unfolds_empty ts⟩

theorem Substitution.finite_ofArgs {args : List TypeId} (d : DefId)
    (h : ∀ a ∈ args, ts.Finite a) : (ofArgs d args).Finite ts := by
  obtain ⟨As, hAs⟩ := forall₂_of_forall_exists h
  exact ⟨_, unfolds_ofArgs d hAs⟩

/-- In an ordered store the finite types are the known ones. -/
theorem Catalog.Ordered.finite_iff (hc : c.Ordered ts) : ts.Finite t ↔ t.val < ts.size :=
  ⟨Types.Finite.lt_size, hc.exists_unfolds⟩

theorem Catalog.Ordered.finite_args (hc : c.Ordered ts) (hn : ts.get? t = some n) :
    ∀ a ∈ n.args, ts.Finite a := fun a ha =>
  hc.exists_unfolds (Nat.lt_trans (hc.arguments t n hn a ha) (Types.lt_size_of_get? hn))

/-- An application to known types leaves the store ordered. -/
theorem Catalog.Ordered.intern (hc : c.Ordered ts) (hn : ∀ a ∈ n.args, ts.Finite a) :
    c.Ordered (ts.intern n).2 := by
  have hsize := (Types.grows_intern ts n).size_le
  refine ⟨hc.plain, fun d info hinfo t ht => ?_, fun d info hinfo decl hdecl t ht => ?_,
    fun t m hm a ha => ?_⟩
  · exact Nat.lt_of_lt_of_le (hc.supertypes d info hinfo t ht) hsize
  · exact Nat.lt_of_lt_of_le (hc.constraints d info hinfo decl hdecl t ht) hsize
  · rcases Types.get?_intern_cases hm with hm | ⟨hnew, rfl⟩
    · exact hc.arguments t m hm a ha
    · exact Nat.lt_of_lt_of_le (hn a (Node.args_normal n ▸ ha)).lt_size hnew

theorem Catalog.Ordered.finite_intern (hc : c.Ordered ts) (hn : ∀ a ∈ n.args, ts.Finite a) :
    (ts.intern n).2.Finite (ts.intern n).1 :=
  (hc.intern hn).finite_iff.2 (Types.lt_size_of_get? (Types.get?_intern_self ts n))

end

/-! ## Ways to say that only types are added -/

/-- A way to say that a computation, begun in an ordered store with the types `ts`, only adds types,
leaves the store ordered, and ends with an answer and types as `P` says. -/
structure Growth (c : Catalog) (M : Type → Type) [Monad M] where
  Ensures {α : Type} : M α → Types → (α → Types → Prop) → Prop
  protected pure {α : Type} {a : α} {ts : Types} {P : α → Types → Prop} (hc : c.Ordered ts) (h : P a ts) :
    Ensures (Pure.pure a) ts P
  protected bind {α β : Type} {m : M α} {f : α → M β} {ts : Types} {P : α → Types → Prop}
    {Q : β → Types → Prop} (hm : Ensures m ts P)
    (hf : ∀ a us, ts.Grows us → c.Ordered us → P a us → Ensures (f a) us Q) :
    Ensures (m >>= f) ts Q

namespace Growth

variable {c : Catalog} {M : Type → Type} [Monad M] (G : Growth c M) {α β σ ε : Type}
  {ts us : Types} {l : List α}

theorem mono [LawfulMonad M] {m : M α} {P P' : α → Types → Prop} (hm : G.Ensures m ts P)
    (h : ∀ a us, ts.Grows us → P a us → P' a us) : G.Ensures m ts P' := by
  rw [← bind_pure m]
  exact G.bind hm fun a us hgrow hc hP => G.pure hc (h a us hgrow hP)

theorem map [LawfulMonad M] {m : M α} {f : α → β} {P : α → Types → Prop} {Q : β → Types → Prop}
    (hm : G.Ensures m ts P) (h : ∀ a us, ts.Grows us → P a us → Q (f a) us) :
    G.Ensures (f <$> m) ts Q := by
  rw [map_eq_pure_bind]
  exact G.bind hm fun a us hgrow hc hP => G.pure hc (h a us hgrow hP)

/-! ### Lists -/

theorem foldlM {f : β → α → M β} {I : β → Types → Prop} (hc : c.Ordered ts)
    (hf : ∀ b, ∀ a ∈ l, ∀ us, ts.Grows us → c.Ordered us → I b us → G.Ensures (f b a) us I)
    {b : β} (hb : I b ts) : G.Ensures (l.foldlM f b) ts I := by
  induction l generalizing b ts with
  | nil => exact G.pure hc hb
  | cons a l ih =>
    refine G.bind (hf b a List.mem_cons_self ts (.refl ts) hc hb) fun b us hgrow hc hb => ?_
    exact ih hc (fun b a ha vs hvs => hf b a (List.mem_cons_of_mem _ ha) vs (hgrow.trans hvs)) hb

theorem mapM [LawfulMonad M] {f : α → M β} {R : β → Types → Prop}
    (hR : ∀ b us vs, us.Grows vs → R b us → R b vs) (hc : c.Ordered ts)
    (hf : ∀ a ∈ l, ∀ us, ts.Grows us → c.Ordered us → G.Ensures (f a) us R) :
    G.Ensures (l.mapM f) ts fun bs us => ∀ b ∈ bs, R b us := by
  induction l generalizing ts with
  | nil =>
    rw [List.mapM_nil]
    exact G.pure hc nofun
  | cons a l ih =>
    rw [List.mapM_cons]
    refine G.bind (hf a List.mem_cons_self ts (.refl ts) hc) fun b us hgrow hc hb => ?_
    refine G.bind (ih hc fun a ha vs hvs => hf a (List.mem_cons_of_mem _ ha) vs (hgrow.trans hvs)) ?_
    intro bs vs hvs hc hbs
    exact G.pure hc (List.forall_mem_cons.2 ⟨hR b us vs hvs hb, hbs⟩)

/-- The computation only adds types, whatever its answer is. -/
abbrev Keeps (m : M α) (ts : Types) : Prop := G.Ensures m ts fun _ _ => True

theorem anyM [LawfulMonad M] {f : α → M Bool} (hc : c.Ordered ts)
    (hf : ∀ a ∈ l, ∀ us, ts.Grows us → c.Ordered us → G.Keeps (f a) us) : G.Keeps (l.anyM f) ts := by
  induction l generalizing ts with
  | nil => exact G.pure hc trivial
  | cons a l ih =>
    rw [List.anyM_cons]
    refine G.bind (hf a List.mem_cons_self ts (.refl ts) hc) fun b us hgrow hc _ => ?_
    cases b with
    | true => exact G.pure hc trivial
    | false => exact ih hc fun a ha vs hvs => hf a (List.mem_cons_of_mem _ ha) vs (hgrow.trans hvs)

theorem allM [LawfulMonad M] {f : α → M Bool} (hc : c.Ordered ts)
    (hf : ∀ a ∈ l, ∀ us, ts.Grows us → c.Ordered us → G.Keeps (f a) us) : G.Keeps (l.allM f) ts := by
  induction l generalizing ts with
  | nil => exact G.pure hc trivial
  | cons a l ih =>
    rw [List.allM_cons]
    refine G.bind (hf a List.mem_cons_self ts (.refl ts) hc) fun b us hgrow hc _ => ?_
    cases b with
    | true => exact ih hc fun a ha vs hvs => hf a (List.mem_cons_of_mem _ ha) vs (hgrow.trans hvs)
    | false => exact G.pure hc trivial

theorem findSomeM? [LawfulMonad M] {f : α → M (Option β)} (hc : c.Ordered ts)
    (hf : ∀ a ∈ l, ∀ us, ts.Grows us → c.Ordered us → G.Keeps (f a) us) :
    G.Keeps (l.findSomeM? f) ts := by
  induction l generalizing ts with
  | nil => exact G.pure hc trivial
  | cons a l ih =>
    rw [List.findSomeM?_cons]
    refine G.bind (hf a List.mem_cons_self ts (.refl ts) hc) fun b us hgrow hc _ => ?_
    cases b with
    | some b => exact G.pure hc trivial
    | none => exact ih hc fun a ha vs hvs => hf a (List.mem_cons_of_mem _ ha) vs (hgrow.trans hvs)

/-! ### State and failure -/

/-- Computations that carry a state of which `I` holds throughout. -/
def state (I : σ → Types → Prop) : Growth c (StateT σ M) where
  Ensures m ts P := ∀ st, I st ts → G.Ensures (m.run st) ts fun r us => P r.1 us ∧ I r.2 us
  pure hc h _ hst := G.pure hc ⟨h, hst⟩
  bind hm hf st hst := G.bind (hm st hst) fun _ us hgrow hc h => hf _ us hgrow hc h.1 _ h.2

/-- Computations that may fail. -/
def except (ε : Type) : Growth c (ExceptT ε M) where
  Ensures m ts P := G.Ensures m.run ts fun r us => ∀ a, r = .ok a → P a us
  pure hc h := G.pure hc fun _ heq => Except.ok.inj heq ▸ h
  bind hm hf := G.bind hm fun r us hgrow hc h =>
    match r with
    | .ok a => hf a us hgrow hc (h a rfl)
    | .error _ => G.pure hc nofun

variable {I : σ → Types → Prop} {m : M α} {P : α → Types → Prop}

theorem lift_state [LawfulMonad M] (hI : ∀ st us vs, us.Grows vs → I st us → I st vs)
    (hm : G.Ensures m ts P) : (G.state I).Ensures (monadLift m : StateT σ M α) ts P := by
  intro st hst
  rw [StateT.run_monadLift, monadLift_self]
  exact G.bind hm fun a us hgrow hc hP => G.pure hc ⟨hP, hI st _ us hgrow hst⟩

theorem modifyGet {f : σ → α × σ} (hc : c.Ordered ts)
    (h : ∀ st, I st ts → P (f st).1 ts ∧ I (f st).2 ts) :
    (G.state I).Ensures (MonadStateOf.modifyGet f : StateT σ M α) ts P := fun st hst =>
  G.pure hc (h st hst)

theorem lift_except [LawfulMonad M] (hm : G.Ensures m ts P) :
    (G.except ε).Ensures (monadLift m : ExceptT ε M α) ts P :=
  G.map hm fun _ _ _ hP _ heq => Except.ok.inj heq ▸ hP

theorem except_mk {m : M (Except ε α)} (hm : G.Ensures m ts fun r us => ∀ a, r = .ok a → P a us) :
    (G.except ε).Ensures (ExceptT.mk m) ts P :=
  hm

theorem run_except {m : ExceptT ε M α} (hm : (G.except ε).Ensures m ts P) :
    G.Ensures m.run ts fun r us => ∀ a, r = .ok a → P a us :=
  hm

theorem throw (hc : c.Ordered ts) (e : ε) :
    (G.except ε).Ensures (MonadExceptOf.throw e : ExceptT ε M α) ts P :=
  G.pure hc nofun

/-! ### The engine -/

/-- Computations of the engine. -/
def engine (c : Catalog) : Growth c Engine where
  Ensures m ts P := ∀ s : Session, s.types = ts →
    ts.Grows (m s).2.types ∧ c.Ordered (m s).2.types ∧ P (m s).1 (m s).2.types
  pure hc h s hs := ⟨hs ▸ .refl _, hs ▸ hc, hs ▸ h⟩
  bind {α β m f ts P Q} hm hf s hs := by
    obtain ⟨hgrow, hc, hP⟩ := hm s hs
    obtain ⟨hgrow', hc', hQ⟩ := hf _ _ hgrow hc hP _ rfl
    exact ⟨hgrow.trans hgrow', hc', hQ⟩

section

variable {m : Engine α} {P : α → Types → Prop} {Q : β → Types → Prop} {n : Node}

theorem query {g : View → α} (hc : c.Ordered ts) (h : P (g (c.view ts)) ts) :
    (engine c).Ensures (Engine.query c g) ts P := by
  rintro s rfl
  exact ⟨.refl _, hc, h⟩

theorem query_bind {g : View → α} {f : α → Engine β}
    (h : (engine c).Ensures (f (g (c.view ts))) ts Q) :
    (engine c).Ensures (Engine.query c g >>= f) ts Q := by
  rintro s rfl
  exact h s rfl

theorem discard (hm : (engine c).Ensures m ts P) :
    (engine c).Keeps (Functor.discard m) ts :=
  (engine c).map hm fun _ _ _ _ => trivial

/-- A computation that adds no types. -/
theorem of_types_eq (hc : c.Ordered ts) (hm : ∀ s, (m s).2.types = s.types) :
    (engine c).Ensures m ts fun _ us => us = ts := by
  rintro s rfl
  rw [hm]
  exact ⟨.refl _, hc, rfl⟩

theorem of_types_eq_bind {f : α → Engine β} (hc : c.Ordered ts)
    (hm : ∀ s, (m s).2.types = s.types) (h : ∀ a, (engine c).Ensures (f a) ts Q) :
    (engine c).Ensures (m >>= f) ts Q := by
  refine (engine c).bind (of_types_eq hc hm) ?_
  rintro a _ - - rfl
  exact h a

theorem report_bind {event : View → Event} {f : Unit → Engine β} (hc : c.Ordered ts)
    (h : (engine c).Ensures (f ()) ts Q) :
    (engine c).Ensures (Engine.report c event >>= f) ts Q :=
  of_types_eq_bind hc (Engine.report_types c event) fun _ => h

theorem intern (hc : c.Ordered ts) (hn : ∀ a ∈ n.args, ts.Finite a) :
    (engine c).Ensures (Engine.intern n) ts fun t us => us.Finite t := by
  rintro s rfl
  exact ⟨Types.grows_intern _ n, hc.intern hn, hc.finite_intern hn⟩

end

/-- Computations under a guard. -/
abbrev guarded (c : Catalog) (κ : Type) : Growth c (StateT (Guard κ) Engine) :=
  (engine c).state fun _ _ => True

section

variable {κ : Type} {m : StateT (Guard κ) Engine α} {P : α → Types → Prop} {Q : β → Types → Prop}

theorem lift_guarded_bind {m : Engine α} {f : α → StateT (Guard κ) Engine β}
    (hm : (engine c).Ensures m ts P)
    (hf : ∀ a us, ts.Grows us → c.Ordered us → P a us → (guarded c κ).Ensures (f a) us Q) :
    (guarded c κ).Ensures (monadLift m >>= f) ts Q :=
  (guarded c κ).bind ((engine c).lift_state (fun _ _ _ _ _ => trivial) hm) hf

theorem query_guarded_bind {g : View → α} {f : α → StateT (Guard κ) Engine β} (hc : c.Ordered ts)
    (h : (guarded c κ).Ensures (f (g (c.view ts))) ts Q) :
    (guarded c κ).Ensures (monadLift (Engine.query c g) >>= f) ts Q := by
  refine lift_guarded_bind (query (P := fun a us => a = g (c.view ts) ∧ us = ts) hc ⟨rfl, rfl⟩) ?_
  rintro _ _ - - ⟨rfl, rfl⟩
  exact h

/-- A computation under a guard of its own. -/
theorem retire (limits : Limits) (hm : (guarded c κ).Ensures m ts P) :
    (engine c).Ensures (do
      let (a, guard) ← StateT.run m { limits }
      Engine.retire guard
      Pure.pure a) ts P := by
  refine (engine c).bind (hm _ trivial) ?_
  rintro ⟨a, g⟩ us - hc ⟨h, -⟩
  exact of_types_eq_bind hc (Engine.retire_types g) fun _ => (engine c).pure hc h

end

end Growth

end Generics

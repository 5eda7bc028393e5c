import Generics.Engine
import Generics.Proofs.Unfolding

/-!
# Settling

What an engine computation answers depends on the types of its session only, and all it does to them
is to add more.  It settles when, moreover, a later run on any larger store gives the same answer and
adds nothing: every type it needs is there by then.  The rules of this file derive that a computation
settles, together with what its answer is like, from its parts.
-/

namespace Generics

namespace Engine

variable {α β κ : Type} {m : Engine α} {f : α → Engine β} {ts us vs : Types} {a : α} {b : β}
  {cut cut' : Bool}

/-- From every session with the types `ts`, `m` answers `a` and leaves the types `us`; `cut` tells
whether one of its guards refuses a step. -/
def Runs (m : Engine α) (ts : Types) (a : α) (us : Types) (cut : Bool) : Prop :=
  ∀ s : Session, s.types = ts →
    (m s).1 = a ∧ (m s).2.types = us ∧ (m s).2.limited = (s.limited || cut)

/-- From the types `ts`, `m` only adds types; its answer, its types and whether it was cut short
satisfy `Q`; and a run on any larger store has the same answer and adds nothing. -/
def Settles (m : Engine α) (ts : Types) (Q : α → Types → Bool → Prop) : Prop :=
  ∃ a us cut, Runs m ts a us cut ∧ ts.Grows us ∧ Q a us cut ∧
    ∀ vs, us.Grows vs → Runs m vs a vs cut

/-! ## Runs -/

theorem Runs.pure (a : α) (ts : Types) : Runs (Pure.pure a) ts a ts false := fun _ hs =>
  ⟨rfl, hs, (Bool.or_false _).symm⟩

theorem Runs.query (c : Catalog) (g : View → α) (ts : Types) :
    Runs (Engine.query c g) ts (g (c.view ts)) ts false := fun _ hs =>
  ⟨by rw [← hs]; rfl, hs, (Bool.or_false _).symm⟩

theorem Runs.bind (hm : Runs m ts a us cut) (hf : Runs (f a) us b vs cut') :
    Runs (m >>= f) ts b vs (cut || cut') := by
  intro s hs
  obtain ⟨ha, hus, hcut⟩ := hm s hs
  obtain ⟨hb, hvs, hcut'⟩ := hf (m s).2 hus
  rw [← ha] at hb hvs hcut'
  exact ⟨hb, hvs, by rw [← Bool.or_assoc, ← hcut]; exact hcut'⟩

/-- A computation runs in one way. -/
theorem Runs.unique {a' : α} {us' : Types} (h : Runs m ts a us cut) (h' : Runs m ts a' us' cut') :
    a = a' ∧ us = us' ∧ cut = cut' := by
  obtain ⟨ha, hus, hcut⟩ := h { types := ts } rfl
  obtain ⟨ha', hus', hcut'⟩ := h' { types := ts } rfl
  exact ⟨ha.symm.trans ha', hus.symm.trans hus', by simpa using hcut.symm.trans hcut'⟩

/-- Whether a guard refuses a step when `m` runs from `s`. -/
def cutShort (m : Engine α) (s : Session) : Bool := (m { s with limited := false }).2.limited

theorem Runs.cutShort_eq (h : Runs m ts a us cut) {s : Session} (hs : s.types = ts) :
    cutShort m s = cut :=
  (h { s with limited := false } hs).2.2.trans (Bool.false_or cut)

/-- On every store that holds `us`, `m` answers `a` and adds nothing. -/
def Lasts (m : Engine α) (us : Types) (a : α) : Prop :=
  ∃ cut, ∀ vs, us.Grows vs → Runs m vs a vs cut

theorem Lasts.grow (h : Lasts m us a) (hgrow : us.Grows vs) : Lasts m vs a := by
  obtain ⟨cut, h⟩ := h
  exact ⟨cut, fun ws hws => h ws (hgrow.trans hws)⟩

theorem Lasts.answer_eq (h : Lasts m us a) {s : Session} (hs : us.Grows s.types) : (m s).1 = a := by
  obtain ⟨cut, h⟩ := h
  exact (h s.types hs s rfl).1

theorem answers_eq_of_lasts {g : α → Engine β} {l : List α} {bs : List β}
    (h : List.Forall₂ (fun a b => Lasts (g a) us b) l bs) {s : Session} (hs : us.Grows s.types) :
    bs = l.map fun a => (g a s).1 := by
  induction h with
  | nil => rfl
  | cons ha _ ih => rw [List.map_cons, ← ih, ha.answer_eq hs]

/-- On the way from the types `ts` to `us`, `m` has answered `a`; if that was cut short, so is the
way, as `cut` tells. -/
def Begins (m : Engine α) (ts : Types) (a : α) (us : Types) (cut : Bool) : Prop :=
  ∃ vs cut', Runs m ts a vs cut' ∧ vs.Grows us ∧ (cut = false → cut' = false)

theorem Begins.mono (h : Begins m ts a us cut) (hgrow : us.Grows vs)
    (hcut : cut' = false → cut = false) : Begins m ts a vs cut' := by
  obtain ⟨ws, cut₀, hrun, hws, h⟩ := h
  exact ⟨ws, cut₀, hrun, hws.trans hgrow, fun h' => h (hcut h')⟩

theorem Begins.answer_eq {s : Session} (h : Begins m s.types a us cut) : (m s).1 = a := by
  obtain ⟨vs, cut', h, -⟩ := h
  exact (h s rfl).1

/-! ## Rules -/

namespace Settles

variable {P : α → Types → Bool → Prop} {Q : β → Types → Bool → Prop}

theorem pure {P : α → Types → Bool → Prop} (h : P a ts false) : Settles (Pure.pure a) ts P :=
  ⟨a, ts, false, Runs.pure a ts, .refl ts, h, fun vs _ => Runs.pure a vs⟩

theorem bind (hm : Settles m ts P)
    (hf : ∀ a us cut, ts.Grows us → P a us cut →
      Settles (f a) us fun b vs cut' => Q b vs (cut || cut')) :
    Settles (m >>= f) ts Q := by
  obtain ⟨a, us, cut, hrun, hgrow, hP, hagain⟩ := hm
  obtain ⟨b, vs, cut', hrun', hgrow', hQ, hagain'⟩ := hf a us cut hgrow hP
  exact ⟨b, vs, cut || cut', hrun.bind hrun', hgrow.trans hgrow', hQ, fun ws hws =>
    (hagain ws (hgrow'.trans hws)).bind (hagain' ws hws)⟩

/-- A computation settles when wherever it runs from later on it gives the one possible answer. -/
theorem of_forall {R : α → Types → Prop}
    (hrun : ∀ vs, ts.Grows vs → ∃ a us, Runs m vs a us false ∧ vs.Grows us ∧ R a us ∧
      ∀ b, R b vs → us = vs)
    (hR : ∀ vs a b, ts.Grows vs → R a vs → R b vs → a = b)
    (hgrow : ∀ us vs a, us.Grows vs → R a us → R a vs) :
    Settles m ts fun a us cut => R a us ∧ cut = false ∧ ∀ b, R b ts → us = ts := by
  obtain ⟨a, us, hm, htsus, ha, hsame⟩ := hrun ts (.refl ts)
  refine ⟨a, us, false, hm, htsus, ⟨ha, rfl, hsame⟩, fun vs hvs => ?_⟩
  obtain ⟨b, ws, hm', -, hb, hsame'⟩ := hrun vs (htsus.trans hvs)
  have hav := hgrow us vs a hvs ha
  obtain rfl := hsame' a hav
  obtain rfl := hR ws a b (htsus.trans hvs) hav hb
  exact hm'

theorem mono {P' : α → Types → Bool → Prop} (hm : Settles m ts P)
    (h : ∀ a us cut, ts.Grows us → P a us cut → P' a us cut) : Settles m ts P' := by
  obtain ⟨a, us, cut, hrun, hgrow, hP, hagain⟩ := hm
  exact ⟨a, us, cut, hrun, hgrow, h a us cut hgrow hP, hagain⟩

/-- What is known about a computation from two sources holds of its one run. -/
theorem and {P' : α → Types → Bool → Prop} (hm : Settles m ts P) (hm' : Settles m ts P') :
    Settles m ts fun a us cut => P a us cut ∧ P' a us cut := by
  obtain ⟨a, us, cut, hrun, hgrow, hP, hagain⟩ := hm
  obtain ⟨a', us', cut', hrun', -, hP', -⟩ := hm'
  obtain ⟨rfl, rfl, rfl⟩ := hrun.unique hrun'
  exact ⟨a, us, cut, hrun, hgrow, ⟨hP, hP'⟩, hagain⟩

/-- What is known about a computation under a condition holds of its one run. -/
theorem and_imp {A : Prop} {P' : α → Types → Bool → Prop} (hm : Settles m ts P)
    (h : A → Settles m ts P') : Settles m ts fun a us cut => P a us cut ∧ (A → P' a us cut) := by
  by_cases hA : A
  · exact (hm.and (h hA)).mono fun _ _ _ _ hboth => ⟨hboth.1, fun _ => hboth.2⟩
  · exact hm.mono fun _ _ _ _ hP => ⟨hP, fun hA' => absurd hA' hA⟩

theorem map (hm : Settles m ts P) {g : α → β} (h : ∀ a us cut, ts.Grows us → P a us cut →
    Q (g a) us cut) : Settles (g <$> m) ts Q := by
  refine hm.bind fun a us cut hgrow hP => pure ?_
  rw [Bool.or_false]
  exact h a us cut hgrow hP

theorem query (c : Catalog) {g : View → α} {P : α → Types → Bool → Prop}
    (hstable : ∀ vs, ts.Grows vs → g (c.view vs) = g (c.view ts)) (h : P (g (c.view ts)) ts false) :
    Settles (Engine.query c g) ts P :=
  ⟨g (c.view ts), ts, false, Runs.query c g ts, .refl ts, h, fun vs hvs => by
    rw [← hstable vs hvs]
    exact Runs.query c g vs⟩

theorem query_bind (c : Catalog) {g : View → α} {f : α → Engine β}
    (hstable : ∀ vs, ts.Grows vs → g (c.view vs) = g (c.view ts))
    (h : Settles (f (g (c.view ts))) ts Q) : Settles (Engine.query c g >>= f) ts Q := by
  refine (Settles.query (P := fun a us cut => a = g (c.view ts) ∧ us = ts ∧ cut = false)
    c hstable ⟨rfl, rfl, rfl⟩).bind ?_
  rintro _ _ _ - ⟨rfl, rfl, rfl⟩
  exact h

theorem report (c : Catalog) (event : View → Event) {P : Unit → Types → Bool → Prop}
    (h : P () ts false) : Settles (Engine.report c event) ts P :=
  ⟨(), ts, false, fun _ hs => ⟨rfl, hs, (Bool.or_false _).symm⟩, .refl ts, h,
    fun _ _ _ hs => ⟨rfl, hs, (Bool.or_false _).symm⟩⟩

theorem report_bind (c : Catalog) (event : View → Event) {f : Unit → Engine β}
    (h : Settles (f ()) ts Q) : Settles (Engine.report c event >>= f) ts Q := by
  refine (Settles.report (P := fun _ us cut => us = ts ∧ cut = false) c event ⟨rfl, rfl⟩).bind ?_
  rintro _ _ _ - ⟨rfl, rfl⟩
  exact h

theorem intern {n : Node} {P : TypeId → Types → Bool → Prop}
    (h : P (ts.intern n).1 (ts.intern n).2 false) : Settles (Engine.intern n) ts P := by
  refine ⟨_, _, false, fun s hs => ?_, Types.grows_intern ts n, h, fun vs hvs s hs => ?_⟩
  · rw [intern_apply, hs]
    exact ⟨rfl, rfl, (Bool.or_false _).symm⟩
  · have hget := hvs _ _ (Types.get?_intern_self ts n)
    rw [intern_apply, hs, Types.intern_of_get? hget]
    exact ⟨rfl, rfl, (Bool.or_false _).symm⟩

theorem retire (g : Guard κ) {P : Unit → Types → Bool → Prop} (h : P () ts g.exceeded) :
    Settles (Engine.retire g) ts P :=
  ⟨(), ts, g.exceeded, fun s hs => ⟨rfl, hs ▸ retire_types g s, retire_limited g s⟩, .refl ts, h,
    fun _ _ s hs => ⟨rfl, hs ▸ retire_types g s, retire_limited g s⟩⟩

theorem retire_bind (g : Guard κ) {f : Unit → Engine β}
    (h : Settles (f ()) ts fun b us cut => Q b us (g.exceeded || cut)) :
    Settles (Engine.retire g >>= f) ts Q := by
  refine (Settles.retire (P := fun _ us cut => us = ts ∧ cut = g.exceeded) g ⟨rfl, rfl⟩).bind ?_
  rintro _ _ _ - ⟨rfl, rfl⟩
  exact h

theorem leave_bind [DecidableEq κ] {g g' : Guard κ} {key : κ} {f : Guard κ → Engine β}
    (hleave : g.leave key = .ok g') (h : Settles (f g') ts Q) :
    Settles (Engine.leave g key >>= f) ts Q := by
  rw [Engine.leave, hleave]
  exact h

theorem lasts (hm : Settles m ts P) : Settles m ts fun a us cut => P a us cut ∧ Lasts m us a := by
  obtain ⟨a, us, cut, hrun, hgrow, hP, hagain⟩ := hm
  exact ⟨a, us, cut, hrun, hgrow, ⟨hP, cut, hagain⟩, hagain⟩

theorem begins (hm : Settles m ts P) :
    Settles m ts fun a us cut => P a us cut ∧ Begins m ts a us cut := by
  obtain ⟨a, us, cut, hrun, hgrow, hP, hagain⟩ := hm
  exact ⟨a, us, cut, hrun, hgrow, ⟨hP, us, cut, hrun, .refl us, id⟩, hagain⟩

/-- What is known about a computation holds of the answer that it has given on the way. -/
theorem of_begins (hm : Settles m ts P) (h : Begins m ts a us cut) :
    ∃ vs cut', P a vs cut' ∧ vs.Grows us ∧ (cut = false → cut' = false) := by
  obtain ⟨a', vs, cut', hrun, -, hP, -⟩ := hm
  obtain ⟨vs', cut'', hrun', hgrow, hcut⟩ := h
  obtain ⟨rfl, rfl, rfl⟩ := hrun.unique hrun'
  exact ⟨vs, cut', hP, hgrow, hcut⟩

/-- What is known about a computation holds of the answer on which it lasts. -/
theorem exists_of_lasts (hm : Settles m ts P) (h : Lasts m ts a) : ∃ cut, P a ts cut := by
  obtain ⟨a', us, cut, hrun, -, hP, -⟩ := hm
  obtain ⟨cut', h⟩ := h
  obtain ⟨rfl, rfl, -⟩ := hrun.unique (h ts (.refl ts))
  exact ⟨cut, hP⟩

/-- Where `m` starts from a given session. -/
theorem elim (hm : Settles m ts P) {s : Session} (hs : s.types = ts) :
    ts.Grows (m s).2.types ∧ P (m s).1 (m s).2.types (cutShort m s) := by
  obtain ⟨a, us, cut, hrun, hgrow, hP, -⟩ := hm
  rw [hrun.cutShort_eq hs]
  obtain ⟨rfl, rfl, -⟩ := hrun s hs
  exact ⟨hgrow, hP⟩

theorem of_apply_eq {s s' : Session} (hm : Settles m s.types P) (h : m s = (a, s')) :
    s.types.Grows s'.types ∧ P a s'.types (cutShort m s) := by
  have helim := hm.elim rfl
  rwa [h] at helim

/-- A computation that lasts settles on its answer. -/
theorem of_lasts (hm : Lasts m us a) (hgrow : us.Grows ts) {P : α → Types → Bool → Prop}
    (h : ∀ cut, P a ts cut) : Settles m ts P := by
  obtain ⟨cut, hm⟩ := hm
  exact ⟨a, ts, cut, hm ts hgrow, .refl ts, h cut, fun vs hvs => hm vs (hgrow.trans hvs)⟩

theorem of_lasts_bind (hm : Lasts m ts a)
    (hf : Settles (f a) ts fun b us cut' => ∀ cut, Q b us (cut || cut')) : Settles (m >>= f) ts Q := by
  refine (of_lasts (P := fun a' us _ => a' = a ∧ us = ts) hm (.refl ts) fun _ => ⟨rfl, rfl⟩).bind ?_
  rintro _ _ cut - ⟨rfl, rfl⟩
  exact hf.mono fun b us cut' _ hQ => hQ cut

/-! ## Lists -/

/-- An invariant of the members treated so far carries over to the whole list. -/
theorem foldlM {g : β → α → Engine β} {I : List α → β → Types → Bool → Prop} {l : List α}
    (hinit : I [] b ts false)
    (hstep : ∀ done a rest b us cut, l = done ++ a :: rest → ts.Grows us → I done b us cut →
      Settles (g b a) us fun b vs cut' => I (done ++ [a]) b vs (cut || cut')) :
    Settles (l.foldlM g b) ts (I l) := by
  suffices h : ∀ (rest done : List α) (b : β) (us : Types) (cut : Bool), l = done ++ rest →
      ts.Grows us → I done b us cut →
      Settles (rest.foldlM g b) us fun b vs cut' => I l b vs (cut || cut') from
    h l [] b ts false rfl (.refl ts) hinit
  intro rest
  induction rest with
  | nil =>
    intro done b us cut hl _ hI
    refine pure ?_
    rw [Bool.or_false, hl, List.append_nil]
    exact hI
  | cons a rest ih =>
    intro done b us cut hl hgrow hI
    rw [List.foldlM_cons]
    refine (hstep done a rest b us cut hl hgrow hI).bind fun b vs cut' hgrow' hI' => ?_
    simp only [← Bool.or_assoc]
    exact ih (done ++ [a]) b vs (cut || cut') (by simp [hl]) (hgrow.trans hgrow') hI'

/-- Member by member, `g` gives what `R` asks for. -/
theorem mapM {g : α → Engine β} {R : Types → α → β → Prop} {l : List α}
    (hR : ∀ us vs a b, us.Grows vs → R us a b → R vs a b)
    (hg : ∀ a ∈ l, ∀ us, ts.Grows us → Settles (g a) us fun b vs cut => R vs a b ∧ cut = false) :
    Settles (l.mapM g) ts fun bs vs cut => List.Forall₂ (R vs) l bs ∧ cut = false := by
  induction l generalizing ts with
  | nil =>
    rw [List.mapM_nil]
    exact pure ⟨.nil, rfl⟩
  | cons a l ih =>
    rw [List.mapM_cons]
    refine (hg a (List.mem_cons_self ..) ts (.refl ts)).bind ?_
    rintro b us _ hgrow ⟨hb, rfl⟩
    refine (ih fun a ha us' hus' => hg a (List.mem_cons_of_mem _ ha) us' (hgrow.trans hus')).bind ?_
    rintro bs vs _ hgrow' ⟨hbs, rfl⟩
    exact pure ⟨.cons (hR us vs a b hgrow' hb) hbs, rfl⟩

/-- What each member is answered, it is answered on every later store. -/
theorem mapM_lasts {g : α → Engine β} {l : List α}
    (hg : ∀ a ∈ l, ∀ us, ts.Grows us → Settles (g a) us fun _ _ _ => True) :
    Settles (l.mapM g) ts fun bs us _ => List.Forall₂ (fun a b => Lasts (g a) us b) l bs := by
  induction l generalizing ts with
  | nil =>
    rw [List.mapM_nil]
    exact pure .nil
  | cons a l ih =>
    rw [List.mapM_cons]
    refine (hg a (List.mem_cons_self ..) ts (.refl ts)).lasts.bind ?_
    rintro b us _ hgrow ⟨-, hlasts⟩
    refine (ih fun a ha vs hvs => hg a (List.mem_cons_of_mem _ ha) vs (hgrow.trans hvs)).bind ?_
    intro bs vs _ hgrow' hbs
    exact pure (.cons (hlasts.grow hgrow') hbs)

/-- A search passes over the members that satisfy `H`, and it ends with the first one that does not. -/
theorem findSomeM? {g : α → Engine (Option β)} {H : α → Prop} {l : List α}
    (hg : ∀ a ∈ l, ∀ us, ts.Grows us → Settles (g a) us fun o _ _ => o = none ↔ H a) :
    Settles (l.findSomeM? g) ts fun o us _ =>
      (o = none ∧ ∀ a ∈ l, H a) ∨ ∃ done a rest b, l = done ++ a :: rest ∧ (∀ a ∈ done, H a) ∧
        ¬H a ∧ o = some b ∧ Lasts (g a) us (some b) := by
  induction l generalizing ts with
  | nil => exact pure (.inl ⟨rfl, by simp⟩)
  | cons a l ih =>
    rw [List.findSomeM?_cons]
    refine (hg a (List.mem_cons_self ..) ts (.refl ts)).lasts.bind ?_
    rintro o us _ hgrow ⟨hH, hlasts⟩
    cases o with
    | some b =>
      have ha : ¬H a := fun h => Option.some_ne_none b (hH.2 h)
      exact pure (.inr ⟨[], a, l, b, rfl, by simp, ha, rfl, hlasts⟩)
    | none =>
      have ha : H a := hH.1 rfl
      refine (ih fun a ha vs hvs => hg a (List.mem_cons_of_mem _ ha) vs (hgrow.trans hvs)).mono ?_
      rintro o vs _ - (⟨ho, hl⟩ | ⟨done, a', rest, b, rfl, hdone, hrest⟩)
      · exact .inl ⟨ho, List.forall_mem_cons.2 ⟨ha, hl⟩⟩
      · exact .inr ⟨a :: done, a', rest, b, rfl, List.forall_mem_cons.2 ⟨ha, hdone⟩, hrest⟩

end Settles

end Engine

end Generics

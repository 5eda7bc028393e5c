import Generics.Proofs.Deciding
import Generics.Proofs.Resolution
import Generics.Store

/-!
# The two policies

Whether a resolution rejects ambiguity or lets the first match win, it tries the same candidates in
the same order up to the first one that it accepts.  So the policies agree on errors and on requests
that nothing serves, and what one of them finds without ambiguity is what the other finds first.
They part only where a later candidate closes to another type.
-/

namespace Generics

/-! ## Trials -/

namespace Request

/-- What the candidates lead to, each of them tried after the ones before it. -/
def trials (c : Catalog) (close : Candidate → Engine (Except Rejection TypeId)) :
    List Candidate → Engine (List (Candidate × Except Rejection TypeId))
  | [] => pure []
  | candidate :: rest => do
    let outcome ← close candidate
    Engine.report c fun v =>
      match outcome with
      | .ok t => .accepted (v.format candidate.type) (v.format t)
      | .error e => .rejected (v.format candidate.type) e.message
    let others ← trials c close rest
    pure ((candidate, outcome) :: others)

/-- What the candidates of the open definition `opened` lead to, in the order of their discovery. -/
def discoveriesOf (c : Catalog) (r : Request) (i : Implementation) (opened : TypeId) :
    Engine (List (Candidate × Except Rejection TypeId)) := do
  let declared ← Engine.query c (·.paramsOf i.definition opened)
  let candidates ← Engine.candidates c opened r.abstraction
  let requested ← Engine.query c (·.argsOf r.abstraction)
  trials c (r.closeThrough c (r.closing i) declared requested) candidates

/-- What the candidates for a request lead to, in the order of their discovery. -/
def discoveries (c : Catalog) (r : Request) :
    Engine (List (Candidate × Except Rejection TypeId)) := do
  match ← Engine.query c (·.examine r.abstraction r.implementation) with
  | .error _ => pure []
  | .ok i =>
    if i.free.isEmpty then pure []
    else
      match ← Engine.definitionType c i.definition with
      | none => pure []
      | some opened => r.discoveriesOf c i opened

/-- The same request under the policy `p`. -/
def under (r : Request) (p : Ambiguity) : Request :=
  { r with options := { r.options with ambiguity := p } }

/-- The answer to the request under the policy `p`. -/
def answer (s : Store) (r : Request) (p : Ambiguity) : Except ResolveError Resolution :=
  (s.run fun c => (r.under p).resolve c).1

end Request

/-- The types that candidates close to. -/
def closings (found : List (Candidate × Except Rejection TypeId)) : List TypeId :=
  found.filterMap fun x => x.2.toOption

/-- Which closed types a policy looks at. -/
def Ambiguity.considered : Ambiguity → List TypeId → List TypeId
  | reject, ts => ts
  | firstMatch, ts => ts.take 1

/-- Add `t` to the types in `closed`, unless it is one of them. -/
def addNew (closed : List TypeId) (t : TypeId) : List TypeId :=
  if t ∈ closed then closed else closed ++ [t]

variable {found : List (Candidate × Except Rejection TypeId)} {candidate : Candidate}
variable {ts closed : List TypeId} {t u : TypeId}

@[simp]
theorem closings_nil : closings [] = [] :=
  rfl

@[simp]
theorem closings_cons_ok : closings ((candidate, .ok t) :: found) = t :: closings found :=
  rfl

@[simp]
theorem closings_cons_error {e : Rejection} :
    closings ((candidate, .error e) :: found) = closings found :=
  rfl

@[simp]
theorem mem_closings : t ∈ closings found ↔ ∃ x ∈ found, x.2 = .ok t := by
  simp only [closings, List.mem_filterMap]
  refine exists_congr fun x => and_congr_right fun _ => ?_
  cases x.2 <;> simp [Except.toOption]

/-- The first candidate that closes to a type comes after candidates that do not. -/
theorem exists_eq_append_of_closings_eq_cons (h : closings found = t :: ts) :
    ∃ before candidate after, found = before ++ (candidate, .ok t) :: after ∧
      closings before = [] ∧ closings after = ts := by
  induction found with
  | nil => cases h
  | cons x found ih =>
    obtain ⟨candidate, outcome | u⟩ := x
    · obtain ⟨before, first, after, rfl, hbefore, hafter⟩ := ih h
      exact ⟨_ :: before, first, after, rfl, hbefore, hafter⟩
    · obtain ⟨rfl, rfl⟩ := List.cons.inj h
      exact ⟨[], candidate, found, rfl, rfl, rfl⟩

theorem mem_addNew : u ∈ addNew closed t ↔ u ∈ closed ∨ u = t := by
  unfold addNew
  split
  · rename_i ht
    exact ⟨.inl, fun h => h.elim id (· ▸ ht)⟩
  · simp

theorem mem_foldl_addNew : u ∈ ts.foldl addNew closed ↔ u ∈ closed ∨ u ∈ ts := by
  induction ts generalizing closed with
  | nil => simp
  | cons t ts ih => rw [List.foldl_cons, ih, mem_addNew, List.mem_cons, or_assoc]

theorem foldl_addNew_singleton (h : ∀ u ∈ ts, u = t) : ts.foldl addNew [t] = [t] := by
  induction ts with
  | nil => rfl
  | cons u ts ih =>
    obtain rfl := h u List.mem_cons_self
    rw [List.foldl_cons, addNew, if_pos List.mem_cons_self]
    exact ih fun v hv => h v (List.mem_cons_of_mem _ hv)

namespace Resolution

theorem ofClosed_eq_valid_iff : ofClosed closed = valid t ↔ closed = [t] := by
  unfold ofClosed
  split <;> simp_all

/-- A resolution succeeds with `t` when there is a closed type and every one of them is `t`. -/
theorem ofClosed_foldl_eq_valid_iff :
    ofClosed (ts.foldl addNew []) = valid t ↔ ts ≠ [] ∧ ∀ u ∈ ts, u = t := by
  rw [ofClosed_eq_valid_iff]
  constructor
  · intro h
    refine ⟨?_, fun u hu => ?_⟩
    · rintro rfl
      cases h
    · have hmem : u ∈ ts.foldl addNew [] := mem_foldl_addNew.2 (.inr hu)
      rw [h] at hmem
      exact List.mem_singleton.1 hmem
  · rintro ⟨hne, hall⟩
    obtain ⟨u, rest, rfl⟩ := List.exists_cons_of_ne_nil hne
    obtain rfl := hall u List.mem_cons_self
    exact foldl_addNew_singleton fun v hv => hall v (List.mem_cons_of_mem _ hv)

theorem eq_invalid_iff {o : Resolution} : o = invalid ↔ ∀ t, o ≠ valid t := by
  cases o <;> simp

end Resolution

/-! ## What a policy makes of the trials -/

/-- The outcome under a policy when candidates close to the types `ts`. -/
def Ambiguity.outcome (p : Ambiguity) (ts : List TypeId) : Resolution :=
  .ofClosed ((p.considered ts).foldl addNew [])

namespace Ambiguity

theorem outcome_reject_eq_valid_iff :
    reject.outcome ts = .valid t ↔ ts ≠ [] ∧ ∀ u ∈ ts, u = t :=
  Resolution.ofClosed_foldl_eq_valid_iff

theorem outcome_firstMatch_eq_valid_iff : firstMatch.outcome ts = .valid t ↔ ts.head? = some t := by
  rw [outcome, Resolution.ofClosed_foldl_eq_valid_iff]
  cases ts <;> simp [considered, eq_comm]

theorem outcome_firstMatch_of_reject (h : reject.outcome ts = .valid t) :
    firstMatch.outcome ts = .valid t := by
  obtain ⟨hne, hall⟩ := outcome_reject_eq_valid_iff.1 h
  rw [outcome_firstMatch_eq_valid_iff, List.head?_eq_some_head hne, hall _ (List.head_mem hne)]

theorem outcome_reject_of_firstMatch (h : firstMatch.outcome ts = .invalid) :
    reject.outcome ts = .invalid :=
  Resolution.eq_invalid_iff.2 fun t ht =>
    Resolution.eq_invalid_iff.1 h t (outcome_firstMatch_of_reject ht)

theorem outcome_reject_of_forall (hsome : ∃ x ∈ found, x.2 = .ok t)
    (hall : ∀ x ∈ found, ∀ u, x.2 = .ok u → u = t) :
    reject.outcome (closings found) = .valid t := by
  refine outcome_reject_eq_valid_iff.2 ⟨List.ne_nil_of_mem (mem_closings.2 hsome), fun u hu => ?_⟩
  obtain ⟨x, hx, hxu⟩ := mem_closings.1 hu
  exact hall x hx u hxu

/-- What the first match finds although ambiguity would be rejected is contradicted by a later
candidate. -/
theorem exists_later_of_outcome (hfirst : firstMatch.outcome (closings found) = .valid t)
    (hreject : reject.outcome (closings found) = .invalid) :
    ∃ before candidate between other after u,
      found = before ++ (candidate, .ok t) :: (between ++ (other, .ok u) :: after) ∧
        closings before = [] ∧ u ≠ t := by
  obtain ⟨ts, hts⟩ := List.head?_eq_some_iff.1 (outcome_firstMatch_eq_valid_iff.1 hfirst)
  obtain ⟨before, candidate, later, rfl, hbefore, rfl⟩ := exists_eq_append_of_closings_eq_cons hts
  obtain ⟨u, hu, hne⟩ : ∃ u ∈ closings later, u ≠ t := by
    by_contra! hall
    refine Resolution.eq_invalid_iff.1 hreject t (outcome_reject_eq_valid_iff.2 ⟨by simp [hts], ?_⟩)
    rw [hts]
    intro u hu
    rcases List.mem_cons.1 hu with rfl | hu
    exacts [rfl, hall u hu]
  obtain ⟨⟨other, outcome⟩, hother, rfl⟩ := mem_closings.1 hu
  obtain ⟨between, after, rfl⟩ := List.append_of_mem hother
  exact ⟨before, candidate, between, other, after, u, rfl, hbefore, hne⟩

end Ambiguity

namespace Request

variable {c : Catalog} {r : Request}

/-- A loop through the candidates collects the closed types that its policy looks at. -/
theorem closedThrough_apply (close : Candidate → Engine (Except Rejection TypeId))
    (candidates : List Candidate) (closed : List TypeId) (s : Session) :
    (r.closedThrough c close candidates closed s).1 =
      (r.options.ambiguity.considered (closings (trials c close candidates s).1)).foldl addNew
        closed := by
  induction candidates generalizing closed s with
  | nil => cases h : r.options.ambiguity <;> rfl
  | cons candidate rest ih =>
    rw [closedThrough, trials, Engine.bind_apply, Engine.bind_apply]
    cases hclose : (close candidate s).1 with
    | error e =>
      rw [Engine.bind_apply]
      exact ih closed _
    | ok t =>
      dsimp only
      rw [Engine.bind_apply]
      cases h : r.options.ambiguity with
      | firstMatch => rfl
      | reject =>
        rw [h] at ih
        exact ih (addNew closed t) _

theorem abstraction_under (p : Ambiguity) : (r.under p).abstraction = r.abstraction :=
  rfl

theorem implementation_under (p : Ambiguity) : (r.under p).implementation = r.implementation :=
  rfl

/-- A policy matters only for what it makes of the closed types of the candidates. -/
theorem resolveOpen_under (i : Implementation) (opened : TypeId) (p : Ambiguity) (s : Session) :
    ((r.under p).resolveOpen c i opened s).1 =
      p.outcome (closings (r.discoveriesOf c i opened s).1) := by
  simp only [resolveOpen, discoveriesOf, Engine.bind_apply, Engine.query_apply,
    abstraction_under]
  generalize Engine.candidates c opened r.abstraction s = found
  obtain ⟨candidates, s'⟩ := found
  cases candidates with
  | nil => cases p <;> rfl
  | cons candidate rest =>
    have hloop := closedThrough_apply (c := c) (r := r.under p)
      (r.closeThrough c (r.closing i) ((c.view s.types).paramsOf i.definition opened)
        ((c.view s'.types).argsOf r.abstraction)) (candidate :: rest) [] s'
    refine Eq.trans ?_ (congrArg Resolution.ofClosed hloop)
    simp only [List.isEmpty_cons, Bool.false_eq_true, if_false, Engine.bind_apply,
      Engine.query_apply]
    split <;> rfl

/-- A request is answered in the same way under both policies, or by what the candidates lead to. -/
theorem resolve_under (c : Catalog) (r : Request) (s : Session) :
    (∃ a, ∀ p, ((r.under p).resolve c s).1 = a) ∧ (r.discoveries c s).1 = [] ∨
      ∀ p, ((r.under p).resolve c s).1 = .ok (p.outcome (closings (r.discoveries c s).1)) := by
  simp only [resolve, discoveries, Engine.bind_apply, Engine.query_apply, abstraction_under,
    implementation_under]
  cases (c.view s.types).examine r.abstraction r.implementation with
  | error e => exact .inl ⟨⟨.error e, fun _ => rfl⟩, rfl⟩
  | ok i =>
    dsimp only
    cases i.free.isEmpty with
    | true => exact .inl ⟨⟨.ok (r.resolveClosed c s).1, fun _ => rfl⟩, rfl⟩
    | false =>
      simp only [Bool.false_eq_true, if_false, Engine.bind_apply]
      obtain ⟨opened, s'⟩ := Engine.definitionType c i.definition s
      cases opened with
      | none => exact .inl ⟨⟨_, fun _ => rfl⟩, rfl⟩
      | some opened => exact .inr fun p => congrArg Except.ok (resolveOpen_under i opened p s')

end Request

/-- The two policies agree on errors.  What is found when ambiguity is rejected is the first match;
where there is no first match nothing is found; and where the first match is rejected a later
candidate closes to another type.  Candidates that close to one type are not rejected. -/
theorem answer_under_policies (s : Store) (r : Request) :
    (∀ e, r.answer s .reject = .error e ↔ r.answer s .firstMatch = .error e) ∧
      (∀ t, r.answer s .reject = .ok (.valid t) → r.answer s .firstMatch = .ok (.valid t)) ∧
      (r.answer s .firstMatch = .ok .invalid → r.answer s .reject = .ok .invalid) ∧
      (∀ t, r.answer s .firstMatch = .ok (.valid t) → r.answer s .reject = .ok .invalid →
        ∃ before candidate between other after u,
          (s.run fun c => r.discoveries c).1 =
              before ++ (candidate, .ok t) :: (between ++ (other, .ok u) :: after) ∧
            closings before = [] ∧ u ≠ t) ∧
      ∀ t, (∃ x ∈ (s.run fun c => r.discoveries c).1, x.2 = .ok t) →
        (∀ x ∈ (s.run fun c => r.discoveries c).1, ∀ u, x.2 = .ok u → u = t) →
          r.answer s .reject = .ok (.valid t) := by
  have hanswer : ∀ p, r.answer s p = ((r.under p).resolve s.catalog s.session).1 := fun _ => rfl
  have hfound : (s.run fun c => r.discoveries c).1 = (r.discoveries s.catalog s.session).1 := rfl
  simp only [hanswer, hfound]
  rcases Request.resolve_under s.catalog r s.session with ⟨⟨a, ha⟩, hnone⟩ | h
  · rw [ha, ha, hnone]
    refine ⟨fun _ => .rfl, fun _ => id, id, fun t hvalid hinvalid => ?_, fun t hsome => ?_⟩
    · cases hvalid.symm.trans hinvalid
    · obtain ⟨x, hx, -⟩ := hsome
      cases hx
  · rw [h, h]
    refine ⟨fun _ => ⟨nofun, nofun⟩, fun t hreject => ?_, fun hfirst => ?_,
      fun t hfirst hreject => ?_, fun t hsome hall => ?_⟩
    · rw [Ambiguity.outcome_firstMatch_of_reject (Except.ok.inj hreject)]
    · rw [Ambiguity.outcome_reject_of_firstMatch (Except.ok.inj hfirst)]
    · exact Ambiguity.exists_later_of_outcome (Except.ok.inj hfirst) (Except.ok.inj hreject)
    · rw [Ambiguity.outcome_reject_of_forall hsome hall]

namespace ForkSample

/-- An interface `G<T>`, a class `L<T>`, a class `D<T> : G<T>, G<L<T>>`, and a class `C`. -/
def catalog : Catalog where
  definitions.entries := #[
    { kind := .interfaceType, name := ⟨1⟩, params := [{ name := ⟨2⟩ }] },
    { kind := .classType, name := ⟨3⟩, params := [{ name := ⟨2⟩ }] },
    { kind := .classType, name := ⟨4⟩, params := [{ name := ⟨2⟩ }], interfaces := [⟨2⟩, ⟨3⟩] },
    { kind := .classType, name := ⟨5⟩ }]

/-- The parameter `T` of `D`, then `L<T>`, `G<T>`, `G<L<T>>`, `D<T>`, `C`, `L<C>` and `G<L<C>>`. -/
def store : Store where
  catalog := catalog
  session := { types := .ofNodes [.param ⟨⟨3⟩, 0⟩, .app ⟨2⟩ [⟨0⟩], .app ⟨1⟩ [⟨0⟩], .app ⟨1⟩ [⟨1⟩],
    .app ⟨3⟩ [⟨0⟩], .named ⟨4⟩, .app ⟨2⟩ [⟨5⟩], .app ⟨1⟩ [⟨6⟩]] }

/-- A request for a `G<L<C>>` that `D` is to serve. -/
def request : Request := { abstraction := ⟨7⟩, implementation := ⟨4⟩ }

/-- The first match for `G<L<C>>` is `D<L<C>>`, and a later candidate closes to `D<C>`. -/
theorem answer_under_policies_fork : ∃ before candidate between other after u,
    (store.run fun c => request.discoveries c).1 =
        before ++ (candidate, .ok ⟨8⟩) :: (between ++ (other, .ok u) :: after) ∧
      closings before = [] ∧ u ≠ ⟨8⟩ :=
  have hfirst : request.answer store .firstMatch = .ok (.valid ⟨8⟩) := by decide +kernel
  have hreject : request.answer store .reject = .ok .invalid := by decide +kernel
  (answer_under_policies store request).2.2.2.1 ⟨8⟩ hfirst hreject

end ForkSample

end Generics

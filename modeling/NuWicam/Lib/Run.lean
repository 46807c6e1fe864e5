import Mathlib.Data.List.Basic

/-!
# Runs of a partial step function

A system is a step function `step : S → E → Option S`, `none` when the event cannot be taken, where its runs end.
`always_of_eachStep` is the invariant rule for runs whose steps meet a condition; `always_and_eachStep_iff` is its exact
form, and `run_iff_eachStep` the one for a property of a log.
-/

namespace NuWicam.Lib

open Option

variable {S E : Type*} (step : S → E → Option S)

def run : S → List E → Option S
  | s, [] => some s
  | s, e :: es => (step s e).bind fun s' => run s' es

/-- `P` holds in the start state and after every step of the run. -/
def Always (P : S → Prop) : S → List E → Prop
  | s, [] => P s
  | s, e :: es => P s ∧ ∀ s', step s e = some s' → Always P s' es

/-- Every step that the run takes meets `C`. -/
def EachStep (C : S → E → Prop) : S → List E → Prop
  | _, [] => True
  | s, e :: es => ∀ s', step s e = some s' → C s e ∧ EachStep C s' es

variable {step}

theorem run_append : ∀ (s : S) (es fs : List E), run step s (es ++ fs) = (run step s es).bind fun t => run step t fs
  | _, [], _ => rfl
  | s, e :: es, fs => by
    rw [List.cons_append, run, run, bind_assoc]
    exact congrArg _ (funext fun t => run_append t es fs)

theorem Always.head {P : S → Prop} : ∀ {s : S} {es : List E}, Always step P s es → P s
  | _, [], h => h
  | _, _ :: _, h => h.1

theorem Always.mono {P Q : S → Prop} (hpq : ∀ s, P s → Q s) : ∀ {s : S} {es : List E}, Always step P s es → Always step Q s es
  | _, [], h => hpq _ h
  | _, _ :: _, h => ⟨hpq _ h.1, fun s' hs => (h.2 s' hs).mono hpq⟩

theorem eachStep_of_forall {C : E → Prop} : ∀ {es : List E}, (∀ e ∈ es, C e) → ∀ s : S, EachStep step (fun _ e => C e) s es
  | [], _, _ => trivial
  | _ :: _, h, _ => fun s' _ =>
    ⟨h _ List.mem_cons_self, eachStep_of_forall (fun e he => h e (List.mem_cons_of_mem _ he)) s'⟩

theorem EachStep.forall_of_run {C : E → Prop} {s t : S} {es : List E} (hrun : run step s es = some t)
    (h : EachStep step (fun _ e => C e) s es) : ∀ e ∈ es, C e := by
  induction es generalizing s with
  | nil => exact fun e he => absurd he List.not_mem_nil
  | cons e es ih =>
    obtain ⟨s', hs, hrun⟩ := bind_eq_some_iff.mp hrun
    exact List.forall_mem_cons.mpr ⟨(h s' hs).1, ih hrun (h s' hs).2⟩

/-- **Progress rule.** A run gets to its end if every event can be taken where the invariant holds, and keeps it. -/
theorem run_total {I : S → Prop} {D : E → Prop} (hstep : ∀ s e, I s → D e → ∃ s', step s e = some s' ∧ I s') {s : S}
    {es : List E} (hs : I s) (hes : ∀ e ∈ es, D e) : ∃ t, run step s es = some t ∧ I t := by
  induction es generalizing s with
  | nil => exact ⟨s, rfl, hs⟩
  | cons e es ih =>
    obtain ⟨he, hes⟩ := List.forall_mem_cons.mp hes
    obtain ⟨s', hs', hi⟩ := hstep s e hs he
    obtain ⟨t, ht, hit⟩ := ih hi hes
    exact ⟨t, by rw [run, hs', bind_some, ht], hit⟩

theorem EachStep.mono {I : S → Prop} {C D : S → E → Prop} (hI : ∀ s e s', I s → step s e = some s' → I s')
    (hcd : ∀ s e, I s → C s e → D s e) : ∀ {s : S} {es : List E}, I s → EachStep step C s es → EachStep step D s es
  | _, [], _, _ => trivial
  | s, e :: _, hi, h => fun s' hs => ⟨hcd s e hi (h s' hs).1, (h s' hs).2.mono hI hcd (hI s e s' hi hs)⟩

/-- **Two conditions on steps** that agree under an invariant agree on runs. -/
theorem eachStep_congr {I : S → Prop} {C D : S → E → Prop} (hI : ∀ s e s', I s → step s e = some s' → I s')
    (hcd : ∀ s e s', I s → step s e = some s' → (C s e ↔ D s e)) :
    ∀ {s : S} {es : List E}, I s → (EachStep step C s es ↔ EachStep step D s es)
  | _, [], _ => Iff.rfl
  | s, e :: _, hi => forall₂_congr fun s' hs =>
    and_congr (hcd s e s' hi hs) (eachStep_congr hI hcd (hI s e s' hi hs))

theorem EachStep.and {C D : S → E → Prop} : ∀ {s : S} {es : List E}, EachStep step C s es → EachStep step D s es →
    EachStep step (fun s e => C s e ∧ D s e) s es
  | _, [], _, _ => trivial
  | _, _ :: _, h, h' => fun s' hs => ⟨⟨(h s' hs).1, (h' s' hs).1⟩, (h s' hs).2.and (h' s' hs).2⟩

theorem Always.last {P : S → Prop} : ∀ {s t : S} {es : List E}, Always step P s es → run step s es = some t → P t
  | _, _, [], h, hr => by cases hr; exact h
  | s, t, e :: es, h, hr => by
    simp only [run, bind_eq_some_iff] at hr
    obtain ⟨s', hs, hr⟩ := hr
    exact (h.2 s' hs).last hr

/-- **Invariant rule** for runs whose steps all meet `C`. -/
theorem always_of_eachStep {P : S → Prop} {C : S → E → Prop} (hstep : ∀ s e s', P s → C s e → step s e = some s' → P s') :
    ∀ {s : S} {es : List E}, P s → EachStep step C s es → Always step P s es
  | _, [], hp, _ => hp
  | s, e :: _, hp, hc => ⟨hp, fun s' hs =>
      always_of_eachStep hstep (hstep s e s' hp (hc s' hs).1 hs) (hc s' hs).2⟩

/-- **Invariant rule**: what each step keeps holds along every run. -/
theorem always_of_step {P : S → Prop} (hstep : ∀ s e s', P s → step s e = some s' → P s') :
    ∀ {s : S} {es : List E}, P s → Always step P s es
  | _, [], hp => hp
  | s, e :: _, hp => ⟨hp, fun s' hs => always_of_step hstep (hstep s e s' hp hs)⟩

/-- **Exact invariant rule.** Where the invariant `I` and the property `P` hold, a step keeps `P` and meets `Q` exactly when it
meets `C`. -/
theorem always_and_eachStep_iff {I P : S → Prop} {Q C : S → E → Prop} (hI : ∀ s e s', I s → step s e = some s' → I s')
    (hP : ∀ s e s', I s → P s → step s e = some s' → (P s' ∧ Q s e ↔ C s e)) :
    ∀ {s : S} {es : List E}, I s → P s → (Always step P s es ∧ EachStep step Q s es ↔ EachStep step C s es)
  | _, [], _, hp => ⟨fun _ => trivial, fun _ => ⟨hp, trivial⟩⟩
  | s, e :: es, hi, hp => by
    constructor
    · rintro ⟨h, hq⟩ s' hs
      have hp' : P s' := (h.2 s' hs).head
      exact ⟨(hP s e s' hi hp hs).1 ⟨hp', (hq s' hs).1⟩,
        (always_and_eachStep_iff hI hP (hI s e s' hi hs) hp').1 ⟨h.2 s' hs, (hq s' hs).2⟩⟩
    · intro h
      have key : ∀ s', step s e = some s' → Q s e ∧ Always step P s' es ∧ EachStep step Q s' es := by
        intro s' hs
        obtain ⟨hp', hq⟩ := (hP s e s' hi hp hs).2 (h s' hs).1
        exact ⟨hq, (always_and_eachStep_iff hI hP (hI s e s' hi hs) hp').2 (h s' hs).2⟩
      exact ⟨⟨hp, fun s' hs => (key s' hs).2.1⟩, fun s' hs => ⟨(key s' hs).1, (key s' hs).2.2⟩⟩

/-- **Exact conditions**: a property of states holds along a run exactly if each step allows it. -/
theorem always_iff_eachStep {I P : S → Prop} {C : S → E → Prop} (hI : ∀ s e s', I s → step s e = some s' → I s')
    (hP : ∀ s e s', I s → P s → step s e = some s' → (P s' ↔ C s e)) {s : S} {es : List E} (hi : I s) (hp : P s) :
    Always step P s es ↔ EachStep step C s es := by
  rw [← always_and_eachStep_iff (Q := fun _ _ => True) hI (fun s e s' hi hp hs => (and_iff_left trivial).trans
    (hP s e s' hi hp hs)) hi hp]
  exact (and_iff_left (eachStep_of_forall (fun _ _ => trivial) s)).symm

/-- **What each step adds.** The property `P` of a log holds after a step exactly when it held before and the step meets
`C`. -/
theorem run_iff_eachStep {I P : S → Prop} {A C : S → E → Prop} (hI : ∀ s e s', I s → A s e → step s e = some s' → I s')
    (hP : ∀ s e s', I s → A s e → step s e = some s' → (P s' ↔ P s ∧ C s e)) {s t : S} {es : List E} (hs : I s)
    (hA : EachStep step A s es) (hrun : run step s es = some t) : P t ↔ P s ∧ EachStep step C s es := by
  induction es generalizing s with
  | nil =>
    cases hrun
    exact (and_iff_left trivial).symm
  | cons e es ih =>
    obtain ⟨s', hs', hrun⟩ := bind_eq_some_iff.mp hrun
    obtain ⟨ha, hA⟩ := hA s' hs'
    have hstep : EachStep step C s (e :: es) ↔ C s e ∧ EachStep step C s' es := by
      refine ⟨fun h => h s' hs', fun h s'' hs'' => ?_⟩
      rw [hs', some.injEq] at hs''
      exact hs'' ▸ h
    rw [ih (hI s e s' hs ha hs') hA hrun, hP s e s' hs ha hs', hstep, and_assoc]

theorem Always.and {P Q : S → Prop} : ∀ {s : S} {es : List E}, Always step P s es → Always step Q s es →
    Always step (fun s => P s ∧ Q s) s es
  | _, [], h, h' => ⟨h, h'⟩
  | _, _ :: _, h, h' => ⟨⟨h.1, h'.1⟩, fun s' hs => (h.2 s' hs).and (h'.2 s' hs)⟩

instance EachStep.decidable {C : S → E → Prop} [∀ s e, Decidable (C s e)] :
    ∀ (s : S) (es : List E), Decidable (EachStep step C s es)
  | _, [] => isTrue trivial
  | s, e :: es =>
    match h : step s e with
    | none => isTrue fun s' hs => by rw [h] at hs; cases hs
    | some s' =>
      have := EachStep.decidable (C := C) s' es
      decidable_of_iff (C s e ∧ EachStep step C s' es)
        ⟨fun hc s'' hs => by rw [h] at hs; cases hs; exact hc, fun hc => hc s' h⟩

/-! ## Two systems side by side -/

section SideBySide

variable {T F : Type*} {step : S → E → Option S} {step' : T → F → Option T}

def sideBySide (step : S → E → Option S) (step' : T → F → Option T) (s : S × T) : E ⊕ F → Option (S × T)
  | .inl e => (step s.1 e).map (·, s.2)
  | .inr f => (step' s.2 f).map (s.1, ·)

def OnEach (C : S → E → Prop) (C' : T → F → Prop) (s : S × T) : E ⊕ F → Prop
  | .inl e => C s.1 e
  | .inr f => C' s.2 f

theorem always_sideBySide {P : S → Prop} {P' : T → Prop} {C : S → E → Prop} {C' : T → F → Prop}
    (hstep : ∀ s e s', P s → C s e → step s e = some s' → P s')
    (hstep' : ∀ t f t', P' t → C' t f → step' t f = some t' → P' t') {s : S × T} {es : List (E ⊕ F)}
    (h : P s.1 ∧ P' s.2) (hes : EachStep (sideBySide step step') (OnEach C C') s es) :
    Always (sideBySide step step') (fun s => P s.1 ∧ P' s.2) s es := by
  refine always_of_eachStep (fun s e s' hp hc hs => ?_) h hes
  cases e with
  | inl e =>
    obtain ⟨s₁, hs₁, rfl⟩ := map_eq_some_iff.mp hs
    exact ⟨hstep s.1 e s₁ hp.1 hc hs₁, hp.2⟩
  | inr f =>
    obtain ⟨t₁, ht₁, rfl⟩ := map_eq_some_iff.mp hs
    exact ⟨hp.1, hstep' s.2 f t₁ hp.2 hc ht₁⟩

end SideBySide

/-! ## Labelled steps -/

/-- The labels on a way from one state to another, where `R s l s'` is a step labelled `l`. -/
inductive Trail {L : Type*} (R : S → L → S → Prop) : S → List L → S → Prop
  | nil (s : S) : Trail R s [] s
  | cons {s s₁ s' : S} {l : L} {ls : List L} : R s l s₁ → Trail R s₁ ls s' → Trail R s (l :: ls) s'

namespace Trail

variable {L : Type*} {R : S → L → S → Prop} {s s₁ s' : S} {l : L} {ls ms : List L}

theorem single (h : R s l s') : Trail R s [l] s' := .cons h (.nil s')

theorem append (h : Trail R s ls s₁) (h' : Trail R s₁ ms s') : Trail R s (ls ++ ms) s' := by
  induction h with
  | nil => exact h'
  | cons hl _ ih => exact .cons hl (ih h')

theorem keeps {I : S → Prop} {A : L → Prop} (hstep : ∀ s l s', A l → I s → R s l s' → I s') (h : Trail R s ls s')
    (hall : ∀ l ∈ ls, A l) (hi : I s) : I s' := by
  induction h with
  | nil => exact hi
  | cons hl _ ih =>
    rw [List.forall_mem_cons] at hall
    exact ih hall.2 (hstep _ _ _ hall.1 hi hl)

end Trail

end NuWicam.Lib

import Mathlib.Data.List.Induction
import Mathlib.Logic.Relation

/-!
# Labelled transition systems

A system is a set of initial states and a labelled step relation. A reachable state is one at the
end of a finite run from an initial state; `Lts.Reachable.invariant` is the induction over runs
every safety proof uses. `Lts.guard` keeps only the steps whose label and source state satisfy a
condition: a property of its reachable states is a property of every run whose steps all meet the
condition. `Lts.prod` interleaves two systems that share nothing.
-/

namespace Melnode.Lib

universe u v w

/-- A labelled transition system with states `σ` and labels `ε`. -/
structure Lts (σ : Type u) (ε : Type v) where
  init : σ → Prop
  step : σ → ε → σ → Prop

namespace Lts

variable {σ : Type u} {ε : Type v} {τ : Type u} {δ : Type w}

/-- One step under some label. -/
def Next (L : Lts σ ε) (s s' : σ) : Prop := ∃ e, L.step s e s'

/-- A finite run leads from `s` to `s'`. -/
def Reaches (L : Lts σ ε) : σ → σ → Prop := Relation.ReflTransGen L.Next

/-- A finite run leads from an initial state to `s`. -/
def Reachable (L : Lts σ ε) (s : σ) : Prop := ∃ s₀, L.init s₀ ∧ L.Reaches s₀ s

theorem Reaches.refl {L : Lts σ ε} (s : σ) : L.Reaches s s := Relation.ReflTransGen.refl

theorem Reaches.trans {L : Lts σ ε} {s t u : σ} (h₁ : L.Reaches s t) (h₂ : L.Reaches t u) :
    L.Reaches s u :=
  Relation.ReflTransGen.trans h₁ h₂

theorem Reaches.tail {L : Lts σ ε} {s t u : σ} {e : ε} (h : L.Reaches s t) (hs : L.step t e u) :
    L.Reaches s u :=
  Relation.ReflTransGen.tail h ⟨e, hs⟩

/-- What holds at the start of a run and is kept by every step holds at its end. -/
theorem Reaches.invariant {L : Lts σ ε} {I : σ → Prop} {s s' : σ} (h : L.Reaches s s')
    (hs : I s) (hstep : ∀ t e t', I t → L.step t e t' → I t') : I s' := by
  induction h with
  | refl => exact hs
  | tail _ hn ih =>
    obtain ⟨e, he⟩ := hn
    exact hstep _ e _ ih he

/-- A map of states under which every step becomes a step or none maps runs to runs. -/
theorem Reaches.map {L : Lts σ ε} {K : Lts τ δ} {f : σ → τ} {s s' : σ}
    (h : L.Reaches s s')
    (hstep : ∀ t e t', L.step t e t' → f t' = f t ∨ ∃ d, K.step (f t) d (f t')) :
    K.Reaches (f s) (f s') := by
  induction h with
  | refl => exact Reaches.refl _
  | tail _ hn ih =>
    obtain ⟨e, he⟩ := hn
    rcases hstep _ e _ he with heq | ⟨d, hd⟩
    · rw [heq]
      exact ih
    · exact ih.tail hd

theorem Reachable.init {L : Lts σ ε} {s : σ} (h : L.init s) : L.Reachable s :=
  ⟨s, h, Reaches.refl s⟩

theorem Reachable.tail {L : Lts σ ε} {s s' : σ} {e : ε} (h : L.Reachable s) (hs : L.step s e s') :
    L.Reachable s' :=
  let ⟨s₀, h₀, hr⟩ := h
  ⟨s₀, h₀, hr.tail hs⟩

theorem Reachable.trans {L : Lts σ ε} {s s' : σ} (h : L.Reachable s) (hs : L.Reaches s s') :
    L.Reachable s' :=
  let ⟨s₀, h₀, hr⟩ := h
  ⟨s₀, h₀, hr.trans hs⟩

/-- **Induction over runs**: an invariant holds initially and is kept by every step. -/
theorem Reachable.invariant {L : Lts σ ε} {I : σ → Prop} {s : σ} (h : L.Reachable s)
    (hinit : ∀ s, L.init s → I s) (hstep : ∀ s e s', I s → L.step s e s' → I s') : I s := by
  obtain ⟨s₀, h₀, hr⟩ := h
  exact hr.invariant (hinit s₀ h₀) hstep

/-- An invariant whose steps may use that their source is reachable. -/
theorem Reachable.invariant_of_reachable {L : Lts σ ε} {I : σ → Prop} {s : σ} (h : L.Reachable s)
    (hinit : ∀ s, L.init s → I s)
    (hstep : ∀ s e s', L.Reachable s → I s → L.step s e s' → I s') : I s := by
  have hboth : L.Reachable s ∧ I s := by
    refine h.invariant (I := fun s => L.Reachable s ∧ I s) ?_ ?_
    · exact fun s hs => ⟨Reachable.init hs, hinit s hs⟩
    · exact fun s e s' ⟨hr, hI⟩ hs => ⟨hr.tail hs, hstep s e s' hr hI hs⟩
  exact hboth.2

/-! ## Runs whose steps meet a condition -/

section Guard

/-- The runs of `L` whose steps all satisfy `good`. -/
def guard (L : Lts σ ε) (good : σ → ε → Prop) : Lts σ ε where
  init := L.init
  step s e s' := good s e ∧ L.step s e s'

theorem Reaches.of_guard {L : Lts σ ε} {good : σ → ε → Prop} {s s' : σ}
    (h : (L.guard good).Reaches s s') : L.Reaches s s' := by
  induction h with
  | refl => exact Reaches.refl _
  | tail _ hn ih =>
    obtain ⟨e, -, he⟩ := hn
    exact ih.tail he

theorem Reachable.of_guard {L : Lts σ ε} {good : σ → ε → Prop} {s : σ}
    (h : (L.guard good).Reachable s) : L.Reachable s :=
  let ⟨s₀, h₀, hr⟩ := h
  ⟨s₀, h₀, hr.of_guard⟩

/-- A weaker condition allows more runs. -/
theorem Reaches.guard_mono {L : Lts σ ε} {good good' : σ → ε → Prop}
    (hmono : ∀ s e, good s e → good' s e) {s s' : σ} (h : (L.guard good).Reaches s s') :
    (L.guard good').Reaches s s' := by
  induction h with
  | refl => exact Reaches.refl _
  | tail _ hn ih =>
    obtain ⟨e, hgood, he⟩ := hn
    exact ih.tail ⟨hmono _ _ hgood, he⟩

theorem Reachable.guard_mono {L : Lts σ ε} {good good' : σ → ε → Prop}
    (hmono : ∀ s e, good s e → good' s e) {s : σ} (h : (L.guard good).Reachable s) :
    (L.guard good').Reachable s :=
  let ⟨s₀, h₀, hr⟩ := h
  ⟨s₀, h₀, hr.guard_mono hmono⟩

/-- With no condition, the guarded runs are all runs. -/
theorem Reachable.guard_true {L : Lts σ ε} {s : σ} (h : L.Reachable s) :
    (L.guard fun _ _ => True).Reachable s := by
  obtain ⟨s₀, h₀, hr⟩ := h
  refine ⟨s₀, h₀, ?_⟩
  induction hr with
  | refl => exact Reaches.refl _
  | tail _ hn ih =>
    obtain ⟨e, he⟩ := hn
    exact ih.tail (e := e) ⟨trivial, he⟩

end Guard

/-! ## Executable steps -/

section Executable

/-- The system of a partial step function. -/
def ofNext (init : σ → Prop) (next : σ → ε → Option σ) : Lts σ ε where
  init := init
  step s e s' := next s e = some s'

variable {init : σ → Prop} {next : σ → ε → Option σ}

/-- Steps one after the other. -/
def run (next : σ → ε → Option σ) (s : σ) (labels : List ε) : Option σ := labels.foldlM next s

/-- Steps one after the other that all satisfy `good`. -/
def runGuarded (next : σ → ε → Option σ) (good : σ → ε → Prop) [∀ s e, Decidable (good s e)]
    (s : σ) (labels : List ε) : Option σ :=
  labels.foldlM (fun s e => if good s e then next s e else none) s

/-- A run goes on where its first part ends. -/
theorem run_append {s : σ} {before after : List ε} :
    run next s (before ++ after) = (run next s before).bind fun t => run next t after :=
  List.foldlM_append

theorem run_snoc {s s' : σ} {labels : List ε} {label : ε}
    (h : run next s (labels ++ [label]) = some s') :
    ∃ t, run next s labels = some t ∧ next t label = some s' := by
  rw [run_append] at h
  obtain ⟨t, ht, hlast⟩ := Option.bind_eq_some_iff.mp h
  refine ⟨t, ht, ?_⟩
  simpa [run] using hlast

theorem run_tail {s t s' : σ} {labels : List ε} {label : ε} (h : run next s labels = some t)
    (hlast : next t label = some s') : run next s (labels ++ [label]) = some s' := by
  rw [run_append, h]
  simpa [run] using hlast

theorem run_uncons {s s' : σ} {labels : List ε} {label : ε}
    (h : run next s (label :: labels) = some s') :
    ∃ t, next s label = some t ∧ run next t labels = some s' := by
  unfold run at h
  rw [List.foldlM_cons] at h
  exact Option.bind_eq_some_iff.mp h

theorem run_cons {s t s' : σ} {labels : List ε} {label : ε} (hfirst : next s label = some t)
    (h : run next t labels = some s') : run next s (label :: labels) = some s' := by
  simpa [run, hfirst] using h

/-- **Induction over a run and what is left of it**: what holds of a run without steps and is kept by
one more step. -/
theorem run_induction {I : List ε → σ → Prop} {s s' : σ} {labels : List ε} (hstart : I [] s)
    (hstep : ∀ past t label t', run next s past = some t → I past t → next t label = some t' →
      I (past ++ [label]) t')
    (hrun : run next s labels = some s') : I labels s' := by
  induction labels using List.reverseRecOn generalizing s' with
  | nil =>
    cases hrun
    exact hstart
  | append_singleton past label ih =>
    obtain ⟨t, hpast, hlast⟩ := run_snoc hrun
    exact hstep past t label s' hpast (ih hpast) hlast

/-- **Replacing the steps of a run**: where the steps between good states are matched by pieces of
another run, and the states before a good one are good, so is the run. -/
theorem run_replaced {f : σ → σ} {I G : σ → Prop} {R : ε → List ε → Prop}
    (hkeep : ∀ t label t', I t → next t label = some t' → I t')
    (hback : ∀ t label t', I t → next t label = some t' → G t' → G t)
    (hstep : ∀ t label t', I t → G t → G t' → next t label = some t' →
      ∃ piece, R label piece ∧ run next (f t) piece = some (f t')) :
    ∀ {labels : List ε} {s s' : σ}, I s → run next s labels = some s' → G s' →
      G s ∧ ∃ pieces, List.Forall₂ R labels pieces ∧
        run next (f s) pieces.flatten = some (f s') := by
  intro labels
  induction labels with
  | nil =>
    intro s s' _ hrun hgood
    cases hrun
    exact ⟨hgood, [], .nil, rfl⟩
  | cons label labels ih =>
    intro s s' hI hrun hgood
    obtain ⟨t, hfirst, hrest⟩ := run_uncons hrun
    obtain ⟨ht, pieces, hpieces, hmatched⟩ := ih (hkeep s label t hI hfirst) hrest hgood
    have hs := hback s label t hI hfirst ht
    obtain ⟨piece, hpiece, hmatch⟩ := hstep s label t hI hs ht hfirst
    refine ⟨hs, piece :: pieces, .cons hpiece hpieces, ?_⟩
    rw [List.flatten_cons, run_append, hmatch]
    exact hmatched

/-- What the steps of a run show, in their order. -/
def observe {α : Type*} (next : σ → ε → Option σ) (shown : σ → ε → Option α) :
    σ → List ε → List α
  | _, [] => []
  | s, label :: rest =>
    (shown s label).toList ++ (next s label).elim [] fun t => observe next shown t rest

theorem observe_snoc {α : Type*} {shown : σ → ε → Option α} {label : ε} : ∀ {past : List ε}
    {s t : σ}, run next s past = some t →
      observe next shown s (past ++ [label]) =
        observe next shown s past ++ (shown t label).toList := by
  intro past
  induction past with
  | nil =>
    intro s t hrun
    cases hrun
    simp only [List.nil_append, observe]
    cases next s label <;> simp
  | cons first past ih =>
    intro s t hrun
    obtain ⟨u, hfirst, hrest⟩ := run_uncons hrun
    simp only [List.cons_append, observe, hfirst, Option.elim_some, ih hrest, List.append_assoc]

/-- A run that goes through is a run of the system. -/
theorem reaches_of_run {labels : List ε} : ∀ {s s' : σ}, run next s labels = some s' →
    (ofNext init next).Reaches s s' := by
  induction labels with
  | nil =>
    intro s s' h
    cases h
    exact Reaches.refl s
  | cons label labels ih =>
    intro s s' h
    unfold run at h
    rw [List.foldlM_cons] at h
    obtain ⟨s₁, h₁, h⟩ := Option.bind_eq_some_iff.mp h
    have hstep : (ofNext init next).step s label s₁ := h₁
    exact ((Reaches.refl s).tail hstep).trans (ih h)

theorem runGuarded_run {good : σ → ε → Prop} [∀ s e, Decidable (good s e)] {labels : List ε} :
    ∀ {s s' : σ}, runGuarded next good s labels = some s' →
      ((ofNext init next).guard good).Reaches s s' ∧ run next s labels = some s' := by
  induction labels with
  | nil =>
    intro s s' h
    cases h
    exact ⟨Reaches.refl s, rfl⟩
  | cons label labels ih =>
    intro s s' h
    unfold runGuarded at h
    rw [List.foldlM_cons] at h
    obtain ⟨s₁, h₁, h⟩ := Option.bind_eq_some_iff.mp h
    obtain ⟨hreach, hrun⟩ := ih h
    by_cases hgood : good s label
    · rw [if_pos hgood] at h₁
      have hstep : ((ofNext init next).guard good).step s label s₁ := ⟨hgood, h₁⟩
      refine ⟨((Reaches.refl s).tail hstep).trans hreach, ?_⟩
      unfold run
      rw [List.foldlM_cons]
      exact Option.bind_eq_some_iff.mpr ⟨s₁, h₁, hrun⟩
    · rw [if_neg hgood] at h₁
      cases h₁

/-- The end of a run that goes through is reached from its start. -/
theorem reaches_end {s : σ} {labels : List ε} (h : (run next s labels).isSome) :
    (ofNext init next).Reaches s ((run next s labels).getD s) := by
  obtain ⟨s', hs'⟩ := Option.isSome_iff_exists.mp h
  rw [hs']
  exact reaches_of_run hs'

/-- The end of a run that goes through with every step good is reached by good steps. -/
theorem reaches_end_guarded {good : σ → ε → Prop} [∀ s e, Decidable (good s e)] {s : σ}
    {labels : List ε} (h : (runGuarded next good s labels).isSome) :
    ((ofNext init next).guard good).Reaches s ((run next s labels).getD s) := by
  obtain ⟨s', hs'⟩ := Option.isSome_iff_exists.mp h
  have hboth : ((ofNext init next).guard good).Reaches s s' ∧ run next s labels = some s' :=
    runGuarded_run hs'
  obtain ⟨hreach, hrun⟩ := hboth
  rw [hrun]
  exact hreach

end Executable

/-! ## Two systems side by side -/

section Prod

/-- The interleavings of two systems that share no state. -/
def prod (L : Lts σ ε) (K : Lts τ δ) : Lts (σ × τ) (ε ⊕ δ) where
  init s := L.init s.1 ∧ K.init s.2
  step
    | s, .inl e, s' => L.step s.1 e s'.1 ∧ s'.2 = s.2
    | s, .inr d, s' => K.step s.2 d s'.2 ∧ s'.1 = s.1

/-- Each side of an interleaving is a run of its own system. -/
theorem Reachable.of_prod {L : Lts σ ε} {K : Lts τ δ} {s : σ × τ} (h : (L.prod K).Reachable s) :
    L.Reachable s.1 ∧ K.Reachable s.2 := by
  refine h.invariant (I := fun s => L.Reachable s.1 ∧ K.Reachable s.2) ?_ ?_
  · exact fun s hs => ⟨Reachable.init hs.1, Reachable.init hs.2⟩
  · rintro s (e | d) s' ⟨h₁, h₂⟩ hstep
    · obtain ⟨hs, heq⟩ := hstep
      exact ⟨h₁.tail hs, heq ▸ h₂⟩
    · obtain ⟨hs, heq⟩ := hstep
      exact ⟨heq ▸ h₁, h₂.tail hs⟩

theorem Reachable.prod {L : Lts σ ε} {K : Lts τ δ} {s : σ} {t : τ} (h₁ : L.Reachable s)
    (h₂ : K.Reachable t) : (L.prod K).Reachable (s, t) := by
  obtain ⟨s₀, hs₀, hrs⟩ := h₁
  obtain ⟨t₀, ht₀, hrt⟩ := h₂
  refine ⟨(s₀, t₀), ⟨hs₀, ht₀⟩, ?_⟩
  have hleft : (L.prod K).Reaches (s₀, t₀) (s, t₀) := by
    induction hrs with
    | refl => exact Reaches.refl _
    | tail _ hn ih =>
      obtain ⟨e, he⟩ := hn
      exact ih.tail (e := .inl e) ⟨he, rfl⟩
  refine hleft.trans ?_
  clear hleft hrs
  induction hrt with
  | refl => exact Reaches.refl _
  | tail _ hn ih =>
    obtain ⟨d, hd⟩ := hn
    exact ih.tail (e := .inr d) ⟨hd, rfl⟩

end Prod

end Lts

end Melnode.Lib

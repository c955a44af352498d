import Melnode.Lib.Procs

/-!
# Programs over operations

A program returns a value, or performs an operation and goes on with its answer. `Prog.eval` runs it
against answers that are given. A protocol tells which operations a program may perform, given what
it knows, and what it may know after an answer; `Prog.Obeys` is the pre- and postcondition of a
program under a protocol, with one rule for each way to build a program.

`Threads` are processes that run programs: a call starts one, a step performs its next operation on
the shared state. `Threads.Sound` carries what the programs know over to every interleaving,
`Threads.run_obeys` over the part of a run that one thread is in.
-/

namespace Melnode.Lib

/-- A program over operations `Op` with answers `Res`. -/
inductive Prog (Op : Type) (Res : Op → Type) (α : Type) where
  | ret (a : α)
  | call (op : Op) (k : Res op → Prog Op Res α)

namespace Prog

variable {Op : Type} {Res : Op → Type} {α β : Type}

def bind : Prog Op Res α → (α → Prog Op Res β) → Prog Op Res β
  | .ret a, f => f a
  | .call op k, f => .call op fun r => (k r).bind f

instance : Monad (Prog Op Res) where
  pure := .ret
  bind := bind

/-- The program that performs one operation. -/
def perform (op : Op) : Prog Op Res (Res op) := .call op .ret

@[simp] theorem pure_eq (a : α) : (pure a : Prog Op Res α) = .ret a := rfl

@[simp] theorem ret_bind (a : α) (f : α → Prog Op Res β) : ret a >>= f = f a := rfl

@[simp] theorem call_bind (op : Op) (k : Res op → Prog Op Res α) (f : α → Prog Op Res β) :
    call op k >>= f = call op fun r => k r >>= f := rfl

theorem map_eq (f : α → β) (p : Prog Op Res α) : f <$> p = p >>= fun a => ret (f a) := rfl

/-- Runs a program against answers that are given; `none` ends it. -/
def eval (answer : (op : Op) → Option (Res op)) : Prog Op Res α → Option α
  | .ret a => some a
  | .call op k => (answer op).bind fun r => (k r).eval answer

section Eval

variable {answer : (op : Op) → Option (Res op)}

@[simp] theorem eval_ret (a : α) : (ret a : Prog Op Res α).eval answer = some a := rfl

@[simp] theorem eval_call (op : Op) (k : Res op → Prog Op Res α) :
    (call op k).eval answer = (answer op).bind fun r => (k r).eval answer := rfl

@[simp] theorem eval_bind (p : Prog Op Res α) (f : α → Prog Op Res β) :
    (p >>= f).eval answer = (p.eval answer).bind fun a => (f a).eval answer := by
  induction p with
  | ret a => rfl
  | call op k ih =>
    rw [call_bind, eval_call, eval_call]
    cases answer op with
    | none => rfl
    | some r => exact ih r

theorem eval_map (f : α → β) (p : Prog Op Res α) : (f <$> p).eval answer = (p.eval answer).map f := by
  rw [map_eq, eval_bind]
  cases p.eval answer <;> rfl

theorem eval_map_eq_some {f : α → β} {p : Prog Op Res α} {b : β} :
    (f <$> p).eval answer = some b ↔ ∃ a, p.eval answer = some a ∧ f a = b := by
  rw [eval_map]
  exact Option.map_eq_some_iff

end Eval

end Prog

/-- What a program may do with what it knows: the operations it may perform, and how an answer
changes what it knows. -/
structure Proto (Op : Type) (Res : Op → Type) (γ : Type) where
  pre : γ → Op → Prop
  post : γ → (op : Op) → Res op → γ → Prop

namespace Prog

variable {Op : Type} {Res : Op → Type} {α β γ : Type}

/-- From knowing `g`, the program keeps to the protocol, and `Q` holds of what it returns and of
what it knows by then. -/
def Obeys (P : Proto Op Res γ) (Q : α → γ → Prop) : Prog Op Res α → γ → Prop
  | .ret a, g => Q a g
  | .call op k, g => P.pre g op ∧ ∀ r g', P.post g op r g' → (k r).Obeys P Q g'

section Rules

variable {P : Proto Op Res γ} {Q Q' : α → γ → Prop}

theorem obeys_perform {op : Op} {Q : Res op → γ → Prop} {g : γ} (hpre : P.pre g op)
    (hpost : ∀ r g', P.post g op r g' → Q r g') : (perform op).Obeys P Q g :=
  ⟨hpre, hpost⟩

/-- The rule of consequence. -/
theorem Obeys.mono {p : Prog Op Res α} : ∀ {g : γ}, p.Obeys P Q g →
    (∀ a g', Q a g' → Q' a g') → p.Obeys P Q' g := by
  induction p with
  | ret a => exact fun h hQ => hQ _ _ h
  | call op k ih =>
    intro g h hQ
    exact ⟨h.1, fun r g' hpost => ih r (h.2 r g' hpost) hQ⟩

/-- The rule of composition. -/
theorem Obeys.bind {Q : β → γ → Prop} {R : α → γ → Prop} {p : Prog Op Res α}
    {f : α → Prog Op Res β} : ∀ {g : γ}, p.Obeys P R g →
    (∀ a g', R a g' → (f a).Obeys P Q g') → (p >>= f).Obeys P Q g := by
  induction p with
  | ret a => exact fun h hf => hf _ _ h
  | call op k ih =>
    intro g h hf
    exact ⟨h.1, fun r g' hpost => ih r (h.2 r g' hpost) hf⟩

theorem Obeys.map {Q : β → γ → Prop} {p : Prog Op Res α} {f : α → β} {g : γ}
    (h : p.Obeys P (fun a g' => Q (f a) g') g) : (f <$> p).Obeys P Q g :=
  h.bind fun _ _ hQ => hQ

end Rules

/-- Every operation the program can come to satisfies `allowed`, whatever is answered. -/
def All (allowed : Op → Prop) : Prog Op Res α → Prop
  | .ret _ => True
  | .call op k => allowed op ∧ ∀ r, (k r).All allowed

section All

variable {allowed : Op → Prop}

theorem All.bind {p : Prog Op Res α} {f : α → Prog Op Res β} (h : p.All allowed)
    (hf : ∀ a, (f a).All allowed) : (p >>= f).All allowed := by
  induction p with
  | ret a => exact hf a
  | call op k ih => exact ⟨h.1, fun r => ih r (h.2 r)⟩

theorem All.map {p : Prog Op Res α} {f : α → β} (h : p.All allowed) : (f <$> p).All allowed :=
  h.bind fun _ => trivial

/-- Operations that teach nothing leave what is known as it is. -/
theorem All.obeys {P : Proto Op Res γ} {p : Prog Op Res α} {g : γ} (h : p.All allowed)
    (hallowed : ∀ op, allowed op → P.pre g op ∧ ∀ r g', P.post g op r g' → g' = g) :
    p.Obeys P (fun _ g' => g' = g) g := by
  induction p with
  | ret a => rfl
  | call op k ih =>
    obtain ⟨hpre, hpost⟩ := hallowed op h.1
    refine ⟨hpre, fun r g' hg' => ?_⟩
    rw [hpost r g' hg']
    exact ih r (h.2 r)

end All

end Prog

/-! ## Threads -/

/-- Where a thread is: it has not been called, it runs a program, or an operation has ended it. -/
inductive Thread (Op : Type) (Res : Op → Type) (ω α : Type) where
  | idle
  | running (req : ω) (p : Prog Op Res α)
  | stopped (req : ω)

/-- What a thread has returned, and for which request. -/
def Thread.reply? {Op : Type} {Res : Op → Type} {ω α : Type} : Thread Op Res ω α → Option (ω × α)
  | .running req (.ret a) => some (req, a)
  | _ => none

theorem Thread.reply?_eq_some {Op : Type} {Res : Op → Type} {ω α : Type} {t : Thread Op Res ω α}
    {req : ω} {a : α} (h : t.reply? = some (req, a)) : t = .running req (.ret a) := by
  unfold Thread.reply? at h
  split at h
  · cases h
    rfl
  · cases h

/-- The operation a thread performs next, and for which request. -/
def Thread.next? {Op : Type} {Res : Op → Type} {ω α : Type} : Thread Op Res ω α → Option (ω × Op)
  | .running req (.call op _) => some (req, op)
  | _ => none

/-- The steps of a thread. -/
inductive ThreadEvent (ω ε : Type) where
  | call (req : ω)
  | step (e : ε)

/-- Threads numbered by `ι` that run programs for requests `ω` on a shared state `σ`. An operation
that is performed changes the state and answers, or ends the thread. -/
structure Threads (ι σ ω α ε δ Op : Type) (Res : Op → Type) where
  init : σ → Prop
  body : ω → Prog Op Res α
  exec : ι → ε → (op : Op) → σ → Option (σ × Option (Res op))
  env : δ → σ → Option σ

namespace Threads

variable {ι σ ω α ε δ Op γ : Type} {Res : Op → Type} [DecidableEq ι]
variable (T : Threads ι σ ω α ε δ Op Res)

/-- One step of a thread. -/
def step (i : ι) : ThreadEvent ω ε → σ → Thread Op Res ω α → Option (σ × Thread Op Res ω α)
  | .call req, s, .idle => some (s, .running req (T.body req))
  | .step e, s, .running req (.call op k) =>
    (T.exec i e op s).map fun
      | (s', some r) => (s', .running req (k r))
      | (s', none) => (s', .stopped req)
  | _, _, _ => none

/-- The interleavings of the threads. -/
def procs : Procs ι σ (Thread Op Res ω α) (ThreadEvent ω ε) δ where
  init := T.init
  start := .idle
  step := T.step
  env := T.env
  moved _ t := t

/-- The cases of `step`. -/
inductive Step (i : ι) (s : σ) : ThreadEvent ω ε → Thread Op Res ω α → σ → Thread Op Res ω α → Prop
  where
  | call (req : ω) : Step i s (.call req) .idle s (.running req (T.body req))
  | answer {e : ε} {req : ω} {op : Op} {k : Res op → Prog Op Res α} {s' : σ} {r : Res op}
      (hexec : T.exec i e op s = some (s', some r)) :
      Step i s (.step e) (.running req (.call op k)) s' (.running req (k r))
  | stop {e : ε} {req : ω} {op : Op} {k : Res op → Prog Op Res α} {s' : σ}
      (hexec : T.exec i e op s = some (s', none)) :
      Step i s (.step e) (.running req (.call op k)) s' (.stopped req)

variable {T}

omit [DecidableEq ι] in
theorem step_cases {i : ι} {e : ThreadEvent ω ε} {s s' : σ} {t t' : Thread Op Res ω α}
    (h : T.step i e s t = some (s', t')) : T.Step i s e t s' t' := by
  cases e with
  | call req =>
    cases t with
    | idle =>
      cases h
      exact .call req
    | running req' p => cases h
    | stopped req' => cases h
  | step e =>
    cases t with
    | idle => cases h
    | stopped req => cases h
    | running req p =>
      cases p with
      | ret a => cases h
      | call op k =>
        obtain ⟨⟨s₁, r⟩, hexec, heq⟩ := Option.map_eq_some_iff.mp h
        cases r with
        | none =>
          cases heq
          exact .stop hexec
        | some r =>
          cases heq
          exact .answer hexec

/-- A step of a thread performs an operation, or leaves the shared state as it is. -/
theorem exec_thread {c c' : Procs.Config ι σ (Thread Op Res ω α)} {i : ι} {e : ThreadEvent ω ε}
    (h : T.procs.exec c (.inl (i, e)) = some c') : c'.shared = c.shared ∨
      ∃ ev req op k r, e = .step ev ∧ c.procs i = .running req (.call op k) ∧
        T.exec i ev op c.shared = some (c'.shared, r) := by
  obtain ⟨s', l', hstep, rfl⟩ := Procs.exec_proc.mp h
  have hcases : T.Step i c.shared e (c.procs i) s' l' := step_cases hstep
  generalize hthread : c.procs i = thread at hcases
  cases hcases with
  | call req => exact Or.inl rfl
  | answer hexec => exact Or.inr ⟨_, _, _, _, _, rfl, rfl, hexec⟩
  | stop hexec => exact Or.inr ⟨_, _, _, _, _, rfl, rfl, hexec⟩

/-- A call starts the program of its request. -/
theorem exec_call {c c' : Procs.Config ι σ (Thread Op Res ω α)} {t : ι} {req : ω}
    (h : T.procs.exec c (.inl (t, .call req)) = some c') :
    c'.procs t = .running req (T.body req) := by
  obtain ⟨s', l', hstep, rfl⟩ := Procs.exec_proc.mp h
  have hcases : T.Step t c.shared (.call req) (c.procs t) s' l' := step_cases hstep
  generalize c.procs t = thread at hcases
  cases hcases
  exact Function.update_self _ _ _

/-- An operation that can be performed is a step of its thread. -/
theorem exec_of_next {c : Procs.Config ι σ (Thread Op Res ω α)} {t : ι} {e : ε} {req : ω} {op : Op}
    {res : σ × Option (Res op)} (hnext : (c.procs t).next? = some (req, op))
    (hexec : T.exec t e op c.shared = some res) :
    ∃ c', T.procs.exec c (.inl (t, .step e)) = some c' := by
  have hstep : ∃ r, T.step t (.step e) c.shared (c.procs t) = some r := by
    generalize c.procs t = thread at hnext
    match thread, hnext with
    | .running _ (.call _ k), rfl =>
      simp only [step, hexec, Option.map_some]
      exact ⟨_, rfl⟩
  obtain ⟨⟨s', l'⟩, hstep⟩ := hstep
  exact ⟨_, Procs.exec_proc.mpr ⟨s', l', hstep, rfl⟩⟩

/-- What is known of a thread by where it is: a thread that runs obeys the protocol of its
request. -/
def Local (P : ω → Proto Op Res γ) (Q : ω → α → γ → Prop) (Rel : σ → ι → γ → Prop) (g₀ : γ) (s : σ)
    (i : ι) : Thread Op Res ω α → Prop
  | .idle => Rel s i g₀
  | .running req p => ∃ g, Rel s i g ∧ p.Obeys (P req) (Q req) g
  | .stopped _ => ∃ g, Rel s i g

/-- A proof that the operations keep what the protocols promise: an invariant of the shared state,
what the knowledge of a thread says about it, and what the steps of one thread leave to the
others. -/
structure Sound (T : Threads ι σ ω α ε δ Op Res)
    (good : Procs.Config ι σ (Thread Op Res ω α) → (ι × ThreadEvent ω ε) ⊕ δ → Prop)
    (Inv : σ → Prop) (G : ι → σ → σ → Prop) (P : ω → Proto Op Res γ) (Q : ω → α → γ → Prop)
    (Rel : σ → ι → γ → Prop) (g₀ : γ) : Prop where
  init : ∀ {s}, T.init s → Inv s ∧ ∀ i, Rel s i g₀
  body : ∀ req, (T.body req).Obeys (P req) (Q req) g₀
  refl : ∀ {i s}, Inv s → G i s s
  exec : ∀ {c : Procs.Config ι σ (Thread Op Res ω α)} {i e req op s' r g}
    {k : Res op → Prog Op Res α}, (T.procs.lts.guard good).Reachable c →
    good c (.inl (i, .step e)) → c.procs i = .running req (.call op k) → Inv c.shared →
    Rel c.shared i g → (P req).pre g op → T.exec i e op c.shared = some (s', r) →
    Inv s' ∧ G i c.shared s' ∧ (∀ a ∈ r, ∃ g', (P req).post g op a g' ∧ Rel s' i g') ∧
      ∃ g', Rel s' i g'
  stable : ∀ {i j s s' g}, i ≠ j → Inv s → G j s s' → Rel s i g → Rel s' i g
  env : ∀ {c : Procs.Config ι σ (Thread Op Res ω α)} {d s'},
    (T.procs.lts.guard good).Reachable c → good c (.inr d) → Inv c.shared →
    T.env d c.shared = some s' → Inv s' ∧ ∀ i g, Rel c.shared i g → Rel s' i g

section Sound

variable {good : Procs.Config ι σ (Thread Op Res ω α) → (ι × ThreadEvent ω ε) ⊕ δ → Prop}
  {Inv : σ → Prop} {G : ι → σ → σ → Prop} {P : ω → Proto Op Res γ} {Q : ω → α → γ → Prop}
  {Rel : σ → ι → γ → Prop} {g₀ : γ}

omit [DecidableEq ι] in
theorem Local.map {s s' : σ} {i : ι} {t : Thread Op Res ω α} (h : Local P Q Rel g₀ s i t)
    (hRel : ∀ g, Rel s i g → Rel s' i g) : Local P Q Rel g₀ s' i t := by
  cases t with
  | idle => exact hRel g₀ h
  | running req p =>
    obtain ⟨g, hg, hp⟩ := h
    exact ⟨g, hRel g hg, hp⟩
  | stopped req =>
    obtain ⟨g, hg⟩ := h
    exact ⟨g, hRel g hg⟩

omit [DecidableEq ι] in
/-- Wherever a thread is, there is something it knows. -/
theorem Local.knows {s : σ} {i : ι} {t : Thread Op Res ω α} (h : Local P Q Rel g₀ s i t) :
    ∃ g, Rel s i g := by
  cases t with
  | idle => exact ⟨g₀, h⟩
  | running req p =>
    obtain ⟨g, hg, -⟩ := h
    exact ⟨g, hg⟩
  | stopped req => exact h

theorem Sound.outline (h : T.Sound good Inv G P Q Rel g₀) :
    T.procs.Outline good Inv (Local P Q Rel g₀) G where
  init hinit := (h.init hinit).1
  start hinit := (h.init hinit).2 _
  step {c i e _ _} hreach hgood hinv hlocal hstep := by
    have hcases : T.Step i c.shared e (c.procs i) _ _ := step_cases hstep
    generalize hthread : c.procs i = thread at hlocal hcases
    cases hcases with
    | call req => exact ⟨hinv, ⟨g₀, hlocal, h.body req⟩, h.refl hinv⟩
    | answer hexec =>
      obtain ⟨g, hg, hpre, hk⟩ := hlocal
      obtain ⟨hinv', hG, hanswer, -⟩ := h.exec hreach hgood hthread hinv hg hpre hexec
      obtain ⟨g', hpost, hg'⟩ := hanswer _ rfl
      exact ⟨hinv', ⟨g', hg', hk _ g' hpost⟩, hG⟩
    | stop hexec =>
      obtain ⟨g, hg, hpre, hk⟩ := hlocal
      obtain ⟨hinv', hG, -, hrel⟩ := h.exec hreach hgood hthread hinv hg hpre hexec
      exact ⟨hinv', hrel, hG⟩
  stable hne hinv hG hlocal := hlocal.map fun _ hg => h.stable hne hinv hG hg
  env hreach hgood hinv hlocal hstep := by
    obtain ⟨hinv', hrel⟩ := h.env hreach hgood hinv hstep
    exact ⟨hinv', fun i => (hlocal i).map (hrel i)⟩

/-- **Threads under protocols**: in every run the invariant holds and every thread obeys its
protocol. -/
theorem Sound.reachable (h : T.Sound good Inv G P Q Rel g₀)
    {c : Procs.Config ι σ (Thread Op Res ω α)} (hc : (T.procs.lts.guard good).Reachable c) :
    Inv c.shared ∧ ∀ i, Local P Q Rel g₀ c.shared i (c.procs i) :=
  h.outline.reachable hc

end Sound

/-- **One thread through a run**: from a moment where it runs a program that obeys a protocol, it
goes on obeying it or an operation has ended it, if what it knows is kept by the steps of the others
and updated as the protocol says by its own. What it knows may be about the run since that moment. -/
theorem run_moments {t : ι} {req : ω} {P : Proto Op Res γ} {Q : α → γ → Prop}
    (Rel : List ((ι × ThreadEvent ω ε) ⊕ δ) → Procs.Config ι σ (Thread Op Res ω α) → γ → Prop)
    (Stop : List ((ι × ThreadEvent ω ε) ⊕ δ) → Procs.Config ι σ (Thread Op Res ω α) → Prop)
    {c₁ : Procs.Config ι σ (Thread Op Res ω α)} {p : Prog Op Res α} {g : γ}
    (hstart : c₁.procs t = .running req p) (hg : Rel [] c₁ g) (hp : p.Obeys P Q g)
    (hother : ∀ past c label c', T.procs.run c₁ past = some c →
      T.procs.exec c label = some c' → (∀ e, label ≠ .inl (t, e)) →
      (∀ g, Rel past c g → Rel (past ++ [label]) c' g) ∧ (Stop past c → Stop (past ++ [label]) c'))
    (hown : ∀ past c e op (k : Res op → Prog Op Res α) s' r g, T.procs.run c₁ past = some c →
      c.procs t = .running req (.call op k) → T.exec t e op c.shared = some (s', some r) →
      T.procs.exec c (.inl (t, .step e)) =
        some ⟨s', Function.update c.procs t (.running req (k r))⟩ →
      Rel past c g → P.pre g op → ∃ g', P.post g op r g' ∧
        Rel (past ++ [.inl (t, .step e)])
          ⟨s', Function.update c.procs t (.running req (k r))⟩ g')
    (hstop : ∀ past c e op (k : Res op → Prog Op Res α) s' g, T.procs.run c₁ past = some c →
      c.procs t = .running req (.call op k) → T.exec t e op c.shared = some (s', none) →
      Rel past c g → P.pre g op →
      Stop (past ++ [.inl (t, .step e)]) ⟨s', Function.update c.procs t (.stopped req)⟩)
    {labels : List ((ι × ThreadEvent ω ε) ⊕ δ)} {c : Procs.Config ι σ (Thread Op Res ω α)}
    (hrun : T.procs.run c₁ labels = some c) :
    (∃ p g, c.procs t = .running req p ∧ Rel labels c g ∧ p.Obeys P Q g) ∨
      c.procs t = .stopped req ∧ Stop labels c := by
  refine Lts.run_induction (I := fun past c =>
    (∃ p g, c.procs t = .running req p ∧ Rel past c g ∧ p.Obeys P Q g) ∨
      c.procs t = .stopped req ∧ Stop past c) (Or.inl ⟨p, g, hstart, hg, hp⟩) ?_ hrun
  · intro past c₀ label c hpast ih hexec
    -- a step of somebody else leaves the thread where it is
    have hsame : (∀ e, label ≠ .inl (t, e)) → c.procs t = c₀.procs t →
        (∃ p g, c.procs t = .running req p ∧ Rel (past ++ [label]) c g ∧ p.Obeys P Q g) ∨
          c.procs t = .stopped req ∧ Stop (past ++ [label]) c := by
      intro hne heq
      obtain ⟨hrel, hended⟩ := hother past c₀ label c hpast hexec hne
      rw [heq]
      rcases ih with ⟨p, g, hp, hg, hobeys⟩ | ⟨hstopped, hS⟩
      · exact Or.inl ⟨p, g, hp, hrel g hg, hobeys⟩
      · exact Or.inr ⟨hstopped, hended hS⟩
    rcases label with ⟨i, e⟩ | d
    · obtain ⟨s', l', hstep, rfl⟩ := Procs.exec_proc.mp hexec
      by_cases hi : t = i
      · subst hi
        have hcases : T.Step t c₀.shared e (c₀.procs t) s' l' := step_cases hstep
        simp only [Function.update_self]
        rcases ih with ⟨p, g, hp, hg, hobeys⟩ | ⟨hstopped, -⟩
        · rw [hp] at hcases
          cases hcases with
          | @answer e _ op k _ r hans =>
            obtain ⟨g', hpost, hg'⟩ := hown past c₀ e op k s' r g hpast hp hans hexec hg hobeys.1
            exact Or.inl ⟨k r, g', rfl, hg', hobeys.2 r g' hpost⟩
          | @stop e _ op k _ hans =>
            exact Or.inr ⟨rfl, hstop past c₀ e op k s' g hpast hp hans hg hobeys.1⟩
        · rw [hstopped] at hcases
          cases hcases
      · refine hsame ?_ (Function.update_of_ne hi _ _)
        rintro e' ⟨⟩
        exact hi rfl
    · obtain ⟨s', -, rfl⟩ := Procs.exec_env.mp hexec
      exact hsame (by rintro e ⟨⟩) rfl

/-- **One thread's part of a run**: if it comes to its end, then with the postcondition. -/
theorem run_obeys {t : ι} {req : ω} {P : Proto Op Res γ} {Q : α → γ → Prop}
    (Rel : List ((ι × ThreadEvent ω ε) ⊕ δ) → Procs.Config ι σ (Thread Op Res ω α) → γ → Prop)
    {c₁ : Procs.Config ι σ (Thread Op Res ω α)} {p : Prog Op Res α} {g : γ}
    (hstart : c₁.procs t = .running req p) (hg : Rel [] c₁ g) (hp : p.Obeys P Q g)
    (hother : ∀ past c label c' g, T.procs.run c₁ past = some c →
      T.procs.exec c label = some c' → Rel past c g → Rel (past ++ [label]) c' g)
    (hown : ∀ past c e op (k : Res op → Prog Op Res α) s' r g, T.procs.run c₁ past = some c →
      c.procs t = .running req (.call op k) → T.exec t e op c.shared = some (s', some r) →
      T.procs.exec c (.inl (t, .step e)) =
        some ⟨s', Function.update c.procs t (.running req (k r))⟩ →
      Rel past c g → P.pre g op → ∃ g', P.post g op r g' ∧
        Rel (past ++ [.inl (t, .step e)])
          ⟨s', Function.update c.procs t (.running req (k r))⟩ g')
    {labels : List ((ι × ThreadEvent ω ε) ⊕ δ)} {c₂ : Procs.Config ι σ (Thread Op Res ω α)}
    (hrun : T.procs.run c₁ labels = some c₂) {a : α} (hend : c₂.procs t = .running req (.ret a)) :
    ∃ g, Rel labels c₂ g ∧ Q a g := by
  have hmoment := run_moments (T := T) Rel (fun _ _ => True) hstart hg hp
    (fun past c label c' hpast hexec _ =>
      ⟨fun g hg => hother past c label c' g hpast hexec hg, fun _ => trivial⟩)
    hown (fun _ _ _ _ _ _ _ _ _ _ _ _ => trivial) hrun
  rcases hmoment with ⟨p, g, hp, hg, hobeys⟩ | ⟨hstopped, -⟩
  · rw [hend] at hp
    cases hp
    exact ⟨g, hg, hobeys⟩
  · rw [hend] at hstopped
    cases hstopped

end Threads

end Melnode.Lib

import Mathlib.Algebra.BigOperators.Group.Finset.Basic
import Mathlib.Logic.Function.Basic
import Melnode.Lib.Lts

/-!
# Processes over a shared state

Processes numbered by `ι` share a state `σ`; each has a local state `lam`. A step of one process
changes the shared state and its own local state, a step of the environment changes the shared
state and may move every process at once (a restart ends them all). Both are partial functions, so a
run can be evaluated (`Procs.run`).

`Procs.Outline` is a rely-guarantee proof: an invariant of the shared state, an assertion about each
process, and a relation `G i` that the steps of process `i` stay within and that keeps the assertions
about the other processes. `Procs.Conserves` is a conservation law: what is in the shared state and
what the processes hold adds up to the same in every reachable state.
-/

namespace Melnode.Lib

universe u v

/-- Processes over a shared state, with labels `ε` for their steps and `δ` for the environment's. -/
structure Procs (ι σ lam ε δ : Type u) where
  init : σ → Prop
  start : lam
  step : ι → ε → σ → lam → Option (σ × lam)
  env : δ → σ → Option σ
  moved : δ → lam → lam

namespace Procs

variable {ι σ lam ε δ : Type u} [DecidableEq ι]

/-- The shared state and the local state of every process. -/
@[ext] structure Config (ι σ lam : Type u) where
  shared : σ
  procs : ι → lam

variable (P : Procs ι σ lam ε δ)

/-- One step. -/
def exec (c : Config ι σ lam) : (ι × ε) ⊕ δ → Option (Config ι σ lam)
  | .inl (i, e) =>
    (P.step i e c.shared (c.procs i)).map fun r => ⟨r.1, Function.update c.procs i r.2⟩
  | .inr d => (P.env d c.shared).map fun s => ⟨s, fun i => P.moved d (c.procs i)⟩

/-- Several steps. -/
def run : Config ι σ lam → List ((ι × ε) ⊕ δ) → Option (Config ι σ lam) := Lts.run P.exec

/-- The interleavings of the processes. -/
def lts : Lts (Config ι σ lam) ((ι × ε) ⊕ δ) :=
  Lts.ofNext (fun c => P.init c.shared ∧ c.procs = fun _ => P.start) P.exec

variable {P}

theorem exec_proc {c c' : Config ι σ lam} {i : ι} {e : ε} :
    P.exec c (.inl (i, e)) = some c' ↔
      ∃ s l, P.step i e c.shared (c.procs i) = some (s, l) ∧
        c' = ⟨s, Function.update c.procs i l⟩ := by
  unfold exec
  rw [Option.map_eq_some_iff]
  constructor
  · rintro ⟨⟨s, l⟩, hstep, rfl⟩
    exact ⟨s, l, hstep, rfl⟩
  · rintro ⟨s, l, hstep, rfl⟩
    exact ⟨(s, l), hstep, rfl⟩

theorem exec_env {c c' : Config ι σ lam} {d : δ} :
    P.exec c (.inr d) = some c' ↔
      ∃ s, P.env d c.shared = some s ∧ c' = ⟨s, fun i => P.moved d (c.procs i)⟩ := by
  unfold exec
  rw [Option.map_eq_some_iff]
  constructor
  · rintro ⟨s, hstep, rfl⟩
    exact ⟨s, hstep, rfl⟩
  · rintro ⟨s, hstep, rfl⟩
    exact ⟨s, hstep, rfl⟩

theorem reaches_of_run {c c' : Config ι σ lam} {labels : List ((ι × ε) ⊕ δ)}
    (h : P.run c labels = some c') : P.lts.Reaches c c' :=
  Lts.reaches_of_run h

/-- The end of a run that goes through is reachable from its start. -/
theorem reaches_end {c : Config ι σ lam} {labels : List ((ι × ε) ⊕ δ)}
    (h : (P.run c labels).isSome) : P.lts.Reaches c ((P.run c labels).getD c) :=
  Lts.reaches_end h

/-- The end of a run that goes through with every step good is reachable by good steps. -/
theorem reaches_end_guarded {good : Config ι σ lam → (ι × ε) ⊕ δ → Prop}
    [∀ c label, Decidable (good c label)] {c : Config ι σ lam} {labels : List ((ι × ε) ⊕ δ)}
    (h : (Lts.runGuarded P.exec good c labels).isSome) :
    (P.lts.guard good).Reaches c ((P.run c labels).getD c) :=
  Lts.reaches_end_guarded h

/-- A rely-guarantee proof over the runs of `P` whose steps satisfy `good`. -/
structure Outline (P : Procs ι σ lam ε δ) (good : Config ι σ lam → (ι × ε) ⊕ δ → Prop)
    (Inv : σ → Prop) (Local : σ → ι → lam → Prop) (G : ι → σ → σ → Prop) : Prop where
  init : ∀ {s}, P.init s → Inv s
  start : ∀ {s i}, P.init s → Local s i P.start
  step : ∀ {c : Config ι σ lam} {i e s' l'}, (P.lts.guard good).Reachable c →
    good c (.inl (i, e)) → Inv c.shared → Local c.shared i (c.procs i) →
    P.step i e c.shared (c.procs i) = some (s', l') → Inv s' ∧ Local s' i l' ∧ G i c.shared s'
  stable : ∀ {i j s s' l}, i ≠ j → Inv s → G j s s' → Local s i l → Local s' i l
  env : ∀ {c : Config ι σ lam} {d s'}, (P.lts.guard good).Reachable c → good c (.inr d) →
    Inv c.shared → (∀ i, Local c.shared i (c.procs i)) → P.env d c.shared = some s' →
    Inv s' ∧ ∀ i, Local s' i (P.moved d (c.procs i))

/-- **Rely-guarantee**: the invariant and every process's assertion hold throughout. -/
theorem Outline.reachable {good : Config ι σ lam → (ι × ε) ⊕ δ → Prop} {Inv : σ → Prop}
    {Local : σ → ι → lam → Prop} {G : ι → σ → σ → Prop} (h : P.Outline good Inv Local G)
    {c : Config ι σ lam} (hc : (P.lts.guard good).Reachable c) :
    Inv c.shared ∧ ∀ i, Local c.shared i (c.procs i) := by
  refine hc.invariant_of_reachable
    (I := fun c => Inv c.shared ∧ ∀ i, Local c.shared i (c.procs i)) ?_ ?_
  · rintro c ⟨hinit, hstart⟩
    rw [hstart]
    exact ⟨h.init hinit, fun _ => h.start hinit⟩
  · rintro c (⟨i, e⟩ | d) c' hreach ⟨hinv, hlocal⟩ ⟨hgood, hexec⟩
    · obtain ⟨s', l', hstep, rfl⟩ := exec_proc.mp hexec
      obtain ⟨hinv', hself, hG⟩ := h.step hreach hgood hinv (hlocal i) hstep
      refine ⟨hinv', fun j => ?_⟩
      show Local s' j (Function.update c.procs i l' j)
      by_cases hj : j = i
      · subst hj
        rw [Function.update_self]
        exact hself
      · rw [Function.update_of_ne hj]
        exact h.stable hj hinv hG (hlocal j)
    · obtain ⟨s', hstep, rfl⟩ := exec_env.mp hexec
      exact h.env hreach hgood hinv hlocal hstep

/-! ## One process on its own -/

/-- **A process runs as a system of its own**: where all that a view shows of its steps is steps of
`K`, what the view shows of the process is a state `K` reaches. -/
theorem local_reachable {τ : Type u} {κ : Type v} {good : Config ι σ lam → (ι × ε) ⊕ δ → Prop}
    {K : Lts τ κ} {view : lam → τ} (i : ι) (hstart : K.init (view P.start))
    (hstep : ∀ {c : Config ι σ lam} {e s' l'}, good c (.inl (i, e)) →
      P.step i e c.shared (c.procs i) = some (s', l') →
      view l' = view (c.procs i) ∨ ∃ d, K.step (view (c.procs i)) d (view l'))
    (hmoved : ∀ d l, view (P.moved d l) = view l) {c : Config ι σ lam}
    (hc : (P.lts.guard good).Reachable c) : K.Reachable (view (c.procs i)) := by
  refine hc.invariant (I := fun c => K.Reachable (view (c.procs i))) ?_ ?_
  · rintro c ⟨-, hprocs⟩
    rw [hprocs]
    exact Lts.Reachable.init hstart
  · rintro c (⟨j, e⟩ | d) c' hreach ⟨hgood, hexec⟩
    · obtain ⟨s', l', hs, rfl⟩ := exec_proc.mp hexec
      show K.Reachable (view (Function.update c.procs j l' i))
      by_cases hj : i = j
      · subst hj
        rw [Function.update_self]
        rcases hstep hgood hs with heq | ⟨d, hd⟩
        · rw [heq]
          exact hreach
        · exact hreach.tail hd
      · rw [Function.update_of_ne hj]
        exact hreach
    · obtain ⟨s', -, rfl⟩ := exec_env.mp hexec
      show K.Reachable (view (P.moved d (c.procs i)))
      rw [hmoved]
      exact hreach

/-! ## Conservation -/

section Conservation

open Finset

/-- Every step moves units between the shared state and the process that takes it; a process that
has not started holds none, and the environment moves none. -/
structure Conserves (P : Procs ι σ lam ε δ) (free : σ → Nat) (held : lam → Nat) (total : Nat) :
    Prop where
  init : ∀ {s}, P.init s → free s = total
  start : held P.start = 0
  step : ∀ {i e s l s' l'}, P.step i e s l = some (s', l') → free s' + held l' = free s + held l
  env : ∀ {d s s'}, P.env d s = some s' → free s' = free s
  moved : ∀ {d l}, held (P.moved d l) = held l

/-- `free` and the holdings of finitely many processes are the total; the others hold nothing. -/
def Balanced (free : σ → Nat) (held : lam → Nat) (total : Nat) (c : Config ι σ lam) : Prop :=
  ∃ F : Finset ι, (∀ i ∉ F, held (c.procs i) = 0) ∧
    free c.shared + ∑ i ∈ F, held (c.procs i) = total

omit [DecidableEq ι] in
theorem Balanced.free_eq {free : σ → Nat} {held : lam → Nat} {total : Nat} {c : Config ι σ lam}
    (h : Balanced free held total c) (hidle : ∀ i, held (c.procs i) = 0) : free c.shared = total := by
  obtain ⟨F, -, hsum⟩ := h
  rw [Finset.sum_eq_zero fun i _ => hidle i] at hsum
  exact hsum

/-- Counting more idle processes changes nothing. -/
theorem Balanced.insert {free : σ → Nat} {held : lam → Nat} {total : Nat} {c : Config ι σ lam}
    (h : Balanced free held total c) (i : ι) :
    ∃ F : Finset ι, i ∈ F ∧ (∀ j ∉ F, held (c.procs j) = 0) ∧
      free c.shared + ∑ j ∈ F, held (c.procs j) = total := by
  obtain ⟨F, hout, hsum⟩ := h
  by_cases hi : i ∈ F
  · exact ⟨F, hi, hout, hsum⟩
  · refine ⟨Insert.insert i F, mem_insert_self i F, ?_, ?_⟩
    · intro j hj
      exact hout j fun hjF => hj (mem_insert_of_mem hjF)
    · rw [sum_insert hi, hout i hi, Nat.zero_add]
      exact hsum

/-- **Conservation**: the balance holds throughout. -/
theorem Conserves.reachable {free : σ → Nat} {held : lam → Nat} {total : Nat}
    (h : P.Conserves free held total) {c : Config ι σ lam} (hc : P.lts.Reachable c) :
    Balanced free held total c := by
  refine hc.invariant (I := Balanced free held total) ?_ ?_
  · rintro c ⟨hinit, hstart⟩
    refine ⟨∅, ?_, ?_⟩
    · intro i _
      rw [hstart]
      exact h.start
    · rw [sum_empty]
      exact h.init hinit
  · rintro c (⟨i, e⟩ | d) c' hbal hexec
    · obtain ⟨s', l', hstep, rfl⟩ := exec_proc.mp hexec
      obtain ⟨F, hi, hout, hsum⟩ := hbal.insert i
      have hmove := h.step hstep
      refine ⟨F, ?_, ?_⟩
      · intro j hj
        have hne : j ≠ i := fun heq => hj (heq ▸ hi)
        show held (Function.update c.procs i l' j) = 0
        rw [Function.update_of_ne hne]
        exact hout j hj
      · have hrest : ∑ j ∈ F.erase i, held (Function.update c.procs i l' j) =
            ∑ j ∈ F.erase i, held (c.procs j) := by
          apply sum_congr rfl
          intro j hj
          rw [Function.update_of_ne (ne_of_mem_erase hj)]
        have hnew := add_sum_erase F (fun j => held (Function.update c.procs i l' j)) hi
        have hold := add_sum_erase F (fun j => held (c.procs j)) hi
        simp only [Function.update_self] at hnew
        show free s' + ∑ j ∈ F, held (Function.update c.procs i l' j) = total
        omega
    · obtain ⟨s', hstep, rfl⟩ := exec_env.mp hexec
      obtain ⟨F, hout, hsum⟩ := hbal
      refine ⟨F, ?_, ?_⟩
      · intro i hi
        exact h.moved.trans (hout i hi)
      · show free s' + ∑ i ∈ F, held (P.moved d (c.procs i)) = total
        rw [h.env hstep, sum_congr rfl fun i _ => h.moved]
        exact hsum

end Conservation

end Procs

end Melnode.Lib

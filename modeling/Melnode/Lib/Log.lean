import Mathlib.Data.List.Infix
import Mathlib.Logic.Function.Basic
import Melnode.Lib.Lts

/-!
# A shared log

A log that is only ever appended to, and readers that have read some of it. A reader reads the next
entry, or has read them all and appends one. `SharedLog.implements` is how a system of nodes
implements it: each node has a list that only grows, one node moves at a time, and of any two lists
one is a prefix of the other.
-/

namespace Melnode.Lib

universe u v

/-- A log, and how many of its entries each reader has. -/
structure SharedLog (ι α : Type u) where
  entries : List α
  read : ι → Nat

namespace SharedLog

variable {ι α : Type u} [DecidableEq ι]

/-- A reader reads one entry, or appends one. -/
inductive Step (r : SharedLog ι α) (i : ι) : SharedLog ι α → Prop where
  | read (hmore : r.read i < r.entries.length) :
      Step r i ⟨r.entries, Function.update r.read i (r.read i + 1)⟩
  | append (a : α) (hall : r.read i = r.entries.length) :
      Step r i ⟨r.entries ++ [a], Function.update r.read i (r.read i + 1)⟩

/-- The runs of a log that starts empty. -/
def lts : Lts (SharedLog ι α) ι where
  init r := r = ⟨[], fun _ => 0⟩
  step := Step

/-- What a reader has. -/
def seen (r : SharedLog ι α) (i : ι) : List α := r.entries.take (r.read i)

/-- Reader `i` has the first `n` entries. -/
def readTo (r : SharedLog ι α) (i : ι) (n : Nat) : SharedLog ι α :=
  ⟨r.entries, Function.update r.read i n⟩

/-- Reader `i` has appended entries and has them all. -/
def appendTo (r : SharedLog ι α) (i : ι) (more : List α) : SharedLog ι α :=
  ⟨r.entries ++ more, Function.update r.read i (r.entries.length + more.length)⟩

variable {r : SharedLog ι α} {i j : ι}

/-! ## One reader -/

@[simp] theorem read_readTo_self (n : Nat) : (r.readTo i n).read i = n := by
  show Function.update r.read i n i = n
  rw [Function.update_self]

@[simp] theorem readTo_readTo (n m : Nat) : (r.readTo i n).readTo i m = r.readTo i m := by
  unfold readTo
  rw [Function.update_idem]

@[simp] theorem appendTo_readTo (n : Nat) (more : List α) :
    (r.readTo i n).appendTo i more = r.appendTo i more := by
  unfold readTo appendTo
  rw [Function.update_idem]

theorem appendTo_appendTo (more more' : List α) :
    (r.appendTo i more).appendTo i more' = r.appendTo i (more ++ more') := by
  unfold appendTo
  rw [Function.update_idem, List.append_assoc, List.length_append, List.length_append, Nat.add_assoc]

/-- A reader reads on. -/
theorem reaches_readTo {n : Nat} (hle : n ≤ r.entries.length) :
    ∀ {d : Nat} {r' : SharedLog ι α}, r'.entries = r.entries → r'.read i + d = n →
      lts.Reaches r' (r'.readTo i n) := by
  intro d
  induction d with
  | zero =>
    intro r' _ hn
    obtain rfl : r'.read i = n := hn
    have hsame : r'.readTo i (r'.read i) = r' := by
      unfold readTo
      rw [Function.update_eq_self]
    rw [hsame]
    exact Lts.Reaches.refl r'
  | succ d ih =>
    intro r' hentries hn
    have hstep : lts.step r' i (r'.readTo i (r'.read i + 1)) := .read (by rw [hentries]; omega)
    have hrest : lts.Reaches _ ((r'.readTo i (r'.read i + 1)).readTo i n) :=
      ih hentries (by rw [read_readTo_self]; omega)
    rw [readTo_readTo] at hrest
    exact ((Lts.Reaches.refl r').tail hstep).trans hrest

/-- A reader that has all of it appends some. -/
theorem reaches_appendTo : ∀ {more : List α} {r : SharedLog ι α}, r.read i = r.entries.length →
    lts.Reaches r (r.appendTo i more) := by
  intro more
  induction more with
  | nil =>
    intro r hall
    have hsame : r.appendTo i [] = r := by
      unfold appendTo
      rw [List.append_nil, List.length_nil, Nat.add_zero, ← hall, Function.update_eq_self]
    rw [hsame]
    exact Lts.Reaches.refl r
  | cons a more ih =>
    intro r hall
    have hstep : lts.step r i (r.appendTo i [a]) := by
      unfold appendTo
      rw [List.length_singleton, ← hall]
      exact .append a hall
    have hall' : (r.appendTo i [a]).read i = (r.appendTo i [a]).entries.length := by
      show Function.update r.read i _ i = (r.entries ++ [a]).length
      rw [Function.update_self, List.length_append]
    have hrest := ih hall'
    rw [appendTo_appendTo] at hrest
    exact ((Lts.Reaches.refl r).tail hstep).trans hrest

/-! ## A system that implements the log -/

omit [DecidableEq ι] in
/-- The nodes have what the readers have, and one of them has all of it. -/
structure Shows (view : ι → List α) (r : SharedLog ι α) : Prop where
  read_le : ∀ i, r.read i ≤ r.entries.length
  seen : ∀ i, r.seen i = view i
  whole : r.entries = [] ∨ ∃ i, view i = r.entries

variable {view view' : ι → List α}

omit [DecidableEq ι] in
theorem Shows.read_eq (h : Shows view r) (i : ι) : r.read i = (view i).length := by
  have hseen := h.seen i
  unfold SharedLog.seen at hseen
  rw [← hseen, List.length_take, Nat.min_eq_left (h.read_le i)]

/-- A node's list grew within the log: its reader reads. -/
theorem Shows.readTo (h : Shows view r) (hmoves : view i <+: view' i)
    (hothers : ∀ j, j ≠ i → view' j = view j) (hshort : view' i <+: r.entries) :
    lts.Reaches r (r.readTo i (view' i).length) ∧ Shows view' (r.readTo i (view' i).length) := by
  obtain ⟨d, hd⟩ := Nat.le.dest hmoves.length_le
  refine ⟨reaches_readTo hshort.length_le rfl (by rw [h.read_eq i]; exact hd), ?_, ?_, ?_⟩
  · intro j
    by_cases hji : j = i
    · subst hji
      rw [read_readTo_self]
      exact hshort.length_le
    · show Function.update r.read i _ j ≤ _
      rw [Function.update_of_ne hji]
      exact h.read_le j
  · intro j
    by_cases hji : j = i
    · subst hji
      unfold SharedLog.seen
      rw [read_readTo_self]
      exact (List.prefix_iff_eq_take.mp hshort).symm
    · show r.entries.take (Function.update r.read i _ j) = view' j
      rw [Function.update_of_ne hji, hothers j hji]
      exact h.seen j
  · rcases h.whole with hnil | ⟨j, hj⟩
    · exact Or.inl hnil
    · by_cases hji : j = i
      · subst hji
        exact Or.inr ⟨j, hshort.eq_of_length_le (by rw [← hj]; exact hmoves.length_le)⟩
      · exact Or.inr ⟨j, (hothers j hji).trans hj⟩

/-- A node's list grew past the log: its reader reads to the end and appends. -/
theorem Shows.appendTo (h : Shows view r) (hothers : ∀ j, j ≠ i → view' j = view j)
    {more : List α} (hmore : r.entries ++ more = view' i) :
    lts.Reaches r (r.appendTo i more) ∧ Shows view' (r.appendTo i more) := by
  have hread := reaches_readTo (Nat.le_refl r.entries.length) rfl
    (Nat.add_sub_of_le (h.read_le i))
  have happend : lts.Reaches _ ((r.readTo i r.entries.length).appendTo i more) :=
    reaches_appendTo (read_readTo_self r.entries.length)
  rw [appendTo_readTo] at happend
  refine ⟨hread.trans happend, ?_, ?_, Or.inr ⟨i, hmore.symm⟩⟩
  · intro j
    show Function.update r.read i _ j ≤ (r.entries ++ more).length
    rw [List.length_append]
    by_cases hji : j = i
    · rw [hji, Function.update_self]
    · rw [Function.update_of_ne hji]
      exact Nat.le_add_right_of_le (h.read_le j)
  · intro j
    show (r.entries ++ more).take (Function.update r.read i _ j) = view' j
    by_cases hji : j = i
    · rw [hji, Function.update_self, ← List.length_append, List.take_length]
      exact hmore
    · rw [Function.update_of_ne hji, hothers j hji, List.take_append_of_le_length (h.read_le j)]
      exact h.seen j

/-- A longer list of one node is read or appended by its reader. -/
theorem Shows.move (h : Shows view r) (hmoves : view i <+: view' i)
    (hothers : ∀ j, j ≠ i → view' j = view j)
    (hcomp : ∀ j, view' i <+: view' j ∨ view' j <+: view' i) :
    ∃ r', lts.Reaches r r' ∧ Shows view' r' := by
  -- the node's list beside the log, which is the list of some node
  have hlog : view' i <+: r.entries ∨ r.entries <+: view' i := by
    rcases h.whole with hnil | ⟨j, hj⟩
    · rw [hnil]
      exact Or.inr List.nil_prefix
    · rw [← hj]
      by_cases hji : j = i
      · rw [hji]
        exact Or.inr hmoves
      · rw [← hothers j hji]
        exact hcomp j
  rcases hlog with hshort | ⟨more, hmore⟩
  · exact ⟨_, h.readTo hmoves hothers hshort⟩
  · exact ⟨_, h.appendTo hothers hmore⟩

/-- **Implementing a shared log.** In a system whose nodes start with empty lists, where a step makes
at most one list longer, and where of any two lists one is a prefix of the other, at least as long as
`Q` holds, every run up to a state with `Q` is a run of the log. -/
theorem implements {σ : Type u} {ε : Type v} {L : Lts σ ε} (view : σ → ι → List α) (Q : σ → Prop)
    (hinit : ∀ s, L.init s → ∀ i, view s i = [])
    (hstep : ∀ s e s', L.Reachable s → L.step s e s' →
      view s' = view s ∨ ∃ i, view s i <+: view s' i ∧ ∀ j, j ≠ i → view s' j = view s j)
    (hback : ∀ s e s', L.Reachable s → L.step s e s' → Q s' → Q s)
    (hcomp : ∀ s, L.Reachable s → Q s → ∀ i j, view s i <+: view s j ∨ view s j <+: view s i)
    {s s' : σ} (hs : L.Reachable s) (hreaches : L.Reaches s s') (hQ : Q s') :
    ∃ r r', lts.Reachable r ∧ lts.Reaches r r' ∧ Shows (view s) r ∧ Shows (view s') r' := by
  -- one step
  have hone : ∀ {t e t'} {r : SharedLog ι α}, L.Reachable t → L.step t e t' → Q t' →
      Shows (view t) r → ∃ r', lts.Reaches r r' ∧ Shows (view t') r' := by
    intro t e t' r ht he hQ' hr
    rcases hstep t e t' ht he with heq | ⟨i, hmoves, hothers⟩
    · exact ⟨r, Lts.Reaches.refl r, by rw [heq]; exact hr⟩
    · exact hr.move hmoves hothers (hcomp t' (ht.tail he) hQ' i)
  have hrun : ∀ {t t'}, L.Reachable t → L.Reaches t t' → Q t' → Q t ∧
      ∀ r, Shows (view t) r → ∃ r', lts.Reaches r r' ∧ Shows (view t') r' := by
    intro t t' ht hreaches
    induction hreaches with
    | refl => exact fun hQ' => ⟨hQ', fun r hr => ⟨r, Lts.Reaches.refl r, hr⟩⟩
    | @tail u u' hto hn ih =>
      intro hQ'
      obtain ⟨e, he⟩ := hn
      have hu := ht.trans hto
      obtain ⟨hQt, hshows⟩ := ih (hback u e u' hu he hQ')
      refine ⟨hQt, fun r hr => ?_⟩
      obtain ⟨r₁, hr₁, hshows₁⟩ := hshows r hr
      obtain ⟨r₂, hr₂, hshows₂⟩ := hone hu he hQ' hshows₁
      exact ⟨r₂, hr₁.trans hr₂, hshows₂⟩
  obtain ⟨hQs, hlater⟩ := hrun hs hreaches hQ
  obtain ⟨s₀, hs₀, hfrom⟩ := hs
  have hstart : Shows (view s₀) (⟨[], fun _ => 0⟩ : SharedLog ι α) :=
    ⟨fun _ => Nat.le_refl 0, fun i => (hinit s₀ hs₀ i).symm, Or.inl rfl⟩
  obtain ⟨-, hbefore⟩ := hrun (Lts.Reachable.init hs₀) hfrom hQs
  obtain ⟨r, hr, hshows⟩ := hbefore _ hstart
  obtain ⟨r', hr', hshows'⟩ := hlater r hshows
  exact ⟨r, r', ⟨_, rfl, hr⟩, hr', hshows, hshows'⟩

end SharedLog

end Melnode.Lib

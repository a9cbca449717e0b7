import Mathlib.Logic.Basic
import Mathlib.Data.Option.Basic

/-!
# Labelled systems

A `System` steps under labels. A label carries every choice that is not the program's own:
which party moves, what the clock reads, whether an I/O call fails. With the label fixed the
step is a function, so a run on concrete labels can be evaluated.

`Reach ok` collects the states of the runs all of whose steps satisfy `ok`. `Reachable` is the
case without a condition.

* `Reach.invariant` — what holds at the start and is kept by every step holds in every state.
* `reach_of_runOk` — a list of labels that can be run is a run.
* `observe` — an observer may ride along a run, to say which step came last; it changes no run.
-/

namespace HaAddons

/-- A transition system whose labels resolve every choice of the environment. -/
structure System (σ α : Type*) where
  init : σ → Prop
  next : σ → α → Option σ

namespace System

variable {σ α : Type*} {T : System σ α} {ok ok' : σ → α → Prop}

/-- The states of the runs in which every step satisfies `ok`. -/
inductive Reach (T : System σ α) (ok : σ → α → Prop) : σ → Prop
  | init {s : σ} : T.init s → Reach T ok s
  | step {s s' : σ} {a : α} : Reach T ok s → ok s a → T.next s a = some s' → Reach T ok s'

/-- The states of all runs. -/
abbrev Reachable (T : System σ α) : σ → Prop := T.Reach fun _ _ => True

theorem Reach.mono (hok : ∀ s a, ok s a → ok' s a) {s : σ} (h : T.Reach ok s) :
    T.Reach ok' s := by
  induction h with
  | init h => exact .init h
  | step _ ha hn ih => exact .step ih (hok _ _ ha) hn

theorem Reach.reachable {s : σ} (h : T.Reach ok s) : T.Reachable s :=
  h.mono fun _ _ _ => trivial

/-- **The invariant rule.** A predicate that holds at the start and that every permitted step
keeps holds in every state of every permitted run. -/
theorem Reach.invariant {I : σ → Prop} (h0 : ∀ s, T.init s → I s)
    (hs : ∀ s a s', I s → ok s a → T.next s a = some s' → I s') {s : σ} (h : T.Reach ok s) :
    I s := by
  induction h with
  | init h => exact h0 _ h
  | step _ ha hn ih => exact hs _ _ _ ih ha hn

/-- The invariant rule, with a fact already known of every state to help the step. -/
theorem Reach.invariant_with {J I : σ → Prop} (hJ : ∀ s, T.Reach ok s → J s)
    (h0 : ∀ s, T.init s → I s)
    (hs : ∀ s a s', J s → I s → ok s a → T.next s a = some s' → I s') {s : σ}
    (h : T.Reach ok s) : I s := by
  induction h with
  | init h => exact h0 _ h
  | step hr ha hn ih => exact hs _ _ _ (hJ _ hr) ih ha hn

/-! ## Runs on given labels -/

/-- Run a list of labels as long as every step satisfies `ok`. -/
def runOk (T : System σ α) (ok : σ → α → Bool) : σ → List α → Option σ
  | s, [] => some s
  | s, a :: as => if ok s a then (T.next s a).bind fun s' => T.runOk ok s' as else none

/-- Run a list of labels. -/
abbrev run (T : System σ α) : σ → List α → Option σ := T.runOk fun _ _ => true

theorem reach_of_runOk {ok : σ → α → Bool} {s s' : σ} {as : List α}
    (h : T.Reach (fun s a => ok s a = true) s) (hr : T.runOk ok s as = some s') :
    T.Reach (fun s a => ok s a = true) s' := by
  induction as generalizing s with
  | nil =>
    obtain rfl : s = s' := by simpa [runOk] using hr
    exact h
  | cons a as ih =>
    unfold runOk at hr
    split at hr
    · rename_i hok
      obtain ⟨t, ht, hr⟩ := Option.bind_eq_some_iff.mp hr
      exact ih (.step h hok ht) hr
    · cases hr

theorem reachable_of_run {s s' : σ} {as : List α} (h : T.init s) (hr : T.run s as = some s') :
    T.Reachable s' :=
  (reach_of_runOk (.init h) hr).reachable

/-- A run on given labels that ends in a state with `f` reaches such a state. -/
theorem exists_of_runOk {ok : σ → α → Bool} {s : σ} {as : List α} {f : σ → Bool} (h : T.init s)
    (hr : (T.runOk ok s as).any f = true) :
    ∃ s', T.Reach (fun s a => ok s a = true) s' ∧ f s' = true := by
  cases hs : T.runOk ok s as with
  | none => simp [hs] at hr
  | some s' => exact ⟨s', reach_of_runOk (.init h) hs, by simpa [hs] using hr⟩

/-! ## Observers -/

/-- The system with an observer `w` that sees every step and steers none. -/
def observe {η : Type*} (T : System σ α) (w : η) (see : σ → α → η → η) : System (σ × η) α where
  init s := T.init s.1 ∧ s.2 = w
  next s a := (T.next s.1 a).map fun s' => (s', see s.1 a s.2)

theorem observe_next {η : Type*} {w : η} {see : σ → α → η → η} {s s' : σ × η} {a : α}
    (h : (T.observe w see).next s a = some s') :
    T.next s.1 a = some s'.1 ∧ s'.2 = see s.1 a s.2 := by
  obtain ⟨t, ht, rfl⟩ := Option.map_eq_some_iff.mp h
  exact ⟨ht, rfl⟩

/-- An observed run is a run, of which the observed conditions may say more. -/
theorem Reach.unobserved {η : Type*} {w : η} {see : σ → α → η → η}
    {ok' : σ × η → α → Prop} (hok : ∀ s a, ok' s a → ok s.1 a) {s : σ × η}
    (h : (T.observe w see).Reach ok' s) : T.Reach ok s.1 := by
  induction h with
  | init h => exact .init h.1
  | step _ ha hn ih => exact .step ih (hok _ _ ha) (observe_next hn).1

end System

end HaAddons

import HaAddons.Lib.System
import Mathlib.Algebra.BigOperators.Group.List.Basic
import Mathlib.Algebra.Order.BigOperators.Group.List
import Mathlib.Algebra.Order.Group.Nat
import Mathlib.Algebra.GroupWithZero.Nat

/-!
# Pools of threads over one shared state

A `Pool` describes a program whose calls run concurrently: a call starts a thread in a known
local state, and a thread moves together with the shared state. Any thread may move next.

Two rules carry the proofs about such programs.

* **Conservation** (`conserved`). If every move changes a counter of the shared state by what
  the thread's own weight changes, the counter is the sum of the weights in every state. A
  mutex, a semaphore and an admission count are all instances.
* **Thread facts** (`Sound`). A fact about the shared state, one about each thread and a relation
  between any two threads hold in every state when every move keeps them.
-/

namespace HaAddons

/-- Threads of local state `τ` over a shared state `σ`, started by calls `κ` and moving under
labels `α`. -/
structure Pool (σ τ κ α : Type*) where
  init : σ → Prop
  start : κ → τ
  step : σ → τ → α → Option (σ × τ)

/-- The shared state and every thread started so far; a thread that returned stays listed. -/
structure Config (σ τ : Type*) where
  shared : σ
  threads : List τ

/-- A call starts a new thread, or a thread moves. -/
inductive Move (κ α : Type*) where
  | call (k : κ)
  | move (i : ℕ) (a : α)

/-! ## Weights of a list -/

section Weights

variable {τ : Type*}

theorem sum_map_set (w : τ → ℕ) {l : List τ} {i : ℕ} {t : τ} (h : l[i]? = some t) (t' : τ) :
    ((l.set i t').map w).sum + w t = (l.map w).sum + w t' := by
  induction l generalizing i with
  | nil => simp at h
  | cons x l ih =>
    cases i with
    | zero =>
      obtain rfl : x = t := by simpa using h
      simp only [List.set_cons_zero, List.map_cons, List.sum_cons]
      omega
    | succ i =>
      have hi := ih (i := i) (by simpa using h)
      simp only [List.set_cons_succ, List.map_cons, List.sum_cons]
      omega

theorem le_sum_map {w : τ → ℕ} {l : List τ} {t : τ} (h : t ∈ l) : w t ≤ (l.map w).sum :=
  List.single_le_sum (fun _ _ => Nat.zero_le _) _ (List.mem_map_of_mem h)

/-- A predicate bounded by a weight holds of at most as many threads as the weights sum to. -/
theorem countP_le_sum_map {p : τ → Bool} {w : τ → ℕ} {l : List τ}
    (h : ∀ t ∈ l, p t = true → 1 ≤ w t) : l.countP p ≤ (l.map w).sum := by
  induction l with
  | nil => simp
  | cons x l ih =>
    have ih := ih fun t ht => h t (List.mem_cons_of_mem x ht)
    simp only [List.map_cons, List.sum_cons]
    by_cases hx : p x = true
    · rw [List.countP_cons_of_pos hx]
      have := h x List.mem_cons_self hx
      omega
    · rw [List.countP_cons_of_neg hx]
      omega

theorem countP_eq_sum_map (p : τ → Bool) (l : List τ) :
    l.countP p = (l.map fun t => (p t).toNat).sum := by
  induction l with
  | nil => rfl
  | cons x l ih => cases hx : p x <;> simp [hx, ih, Nat.add_comm]

/-- Two different positions of a list both weigh in. -/
theorem add_le_sum_map {w : τ → ℕ} {l : List τ} {i j : ℕ} {t u : τ} (hij : i ≠ j)
    (hi : l[i]? = some t) (hj : l[j]? = some u) : w t + w u ≤ (l.map w).sum := by
  induction l generalizing i j with
  | nil => simp at hi
  | cons x l ih =>
    simp only [List.map_cons, List.sum_cons]
    cases i with
    | zero =>
      cases j with
      | zero => exact absurd rfl hij
      | succ j =>
        obtain rfl : x = t := by simpa using hi
        have := le_sum_map (w := w) (List.mem_of_getElem? (by simpa using hj : l[j]? = some u))
        omega
    | succ i =>
      cases j with
      | zero =>
        obtain rfl : x = u := by simpa using hj
        have := le_sum_map (w := w) (List.mem_of_getElem? (by simpa using hi : l[i]? = some t))
        omega
      | succ j =>
        have := ih (i := i) (j := j) (fun h => hij (congrArg Nat.succ h)) (by simpa using hi)
          (by simpa using hj)
        omega

/-- A predicate that no two positions share holds at one position at most. -/
theorem countP_le_one {p : τ → Bool} {l : List τ}
    (h : ∀ (i j : ℕ) t u, i ≠ j → l[i]? = some t → l[j]? = some u → p t = true → p u = false) :
    l.countP p ≤ 1 := by
  induction l with
  | nil => simp
  | cons x l ih =>
    have ih := ih fun i j t u hij hi hj => h (i + 1) (j + 1) t u (by omega) (by simpa using hi)
      (by simpa using hj)
    by_cases hx : p x = true
    · have hnone : l.countP p = 0 := by
        refine List.countP_eq_zero.mpr fun t ht => ?_
        obtain ⟨j, hj⟩ := List.getElem?_of_mem ht
        simp [h 0 (j + 1) x t (by omega) rfl (by simpa using hj) hx]
      rw [List.countP_cons_of_pos hx, hnone]
    · rw [List.countP_cons_of_neg hx]
      exact ih

end Weights

namespace Pool

variable {σ τ κ α : Type*} (P : Pool σ τ κ α)

/-- The pool as a system: any thread may take the next step. -/
def system : System (Config σ τ) (Move κ α) where
  init c := P.init c.shared ∧ c.threads = []
  next c
    | .call k => some { c with threads := c.threads ++ [P.start k] }
    | .move i a =>
      c.threads[i]?.bind fun t =>
        (P.step c.shared t a).map fun r => ⟨r.1, c.threads.set i r.2⟩

variable {P}

theorem next_call {c c' : Config σ τ} {k : κ} (h : P.system.next c (.call k) = some c') :
    c' = { c with threads := c.threads ++ [P.start k] } := by
  simpa [system, eq_comm] using h

/-- What a move does: one thread steps, and the others are left alone. -/
theorem next_move {c c' : Config σ τ} {i : ℕ} {a : α}
    (h : P.system.next c (.move i a) = some c') :
    ∃ t s' t', c.threads[i]? = some t ∧ P.step c.shared t a = some (s', t') ∧
      c' = ⟨s', c.threads.set i t'⟩ := by
  obtain ⟨t, ht, h⟩ := Option.bind_eq_some_iff.mp h
  obtain ⟨⟨s', t'⟩, hs, rfl⟩ := Option.map_eq_some_iff.mp h
  exact ⟨t, s', t', ht, hs, rfl⟩

/-- **Conservation.** A counter of the shared state that moves with the weight of the moving
thread is the sum of the weights. The step may use what is known of the thread, and that the
counter covers it. -/
theorem conserved {ok : Config σ τ → Move κ α → Prop} {Q : σ → τ → Prop} {f : σ → ℕ} {w : τ → ℕ}
    (hQ : ∀ c, P.system.Reach ok c → ∀ t ∈ c.threads, Q c.shared t)
    (h0 : ∀ s, P.init s → f s = 0) (hstart : ∀ k, w (P.start k) = 0)
    (hstep : ∀ s t a s' t', P.step s t a = some (s', t') → Q s t → w t ≤ f s →
      f s' + w t = f s + w t')
    {c : Config σ τ} (h : P.system.Reach ok c) : f c.shared = (c.threads.map w).sum := by
  refine h.invariant_with (I := fun c => f c.shared = (c.threads.map w).sum) hQ ?_ ?_
  · rintro c ⟨hi, hn⟩
    simp [h0 _ hi, hn]
  · rintro c a c' hQc hc - hn
    cases a with
    | call k =>
      rw [next_call hn]
      simp [hc, hstart]
    | move i a =>
      obtain ⟨t, s', t', ht, hs, rfl⟩ := next_move hn
      have hmem := List.mem_of_getElem? ht
      have hw := sum_map_set w ht t'
      have hle := le_sum_map (w := w) hmem
      have hf := hstep _ _ _ _ _ hs (hQc t hmem) (by omega)
      simp only at hc ⊢
      omega

/-! ## A thread that runs alone -/

/-- One thread takes all the steps. -/
def solo (P : Pool σ τ κ α) : σ → τ → List α → Option (σ × τ)
  | s, t, [] => some (s, t)
  | s, t, a :: as => (P.step s t a).bind fun r => P.solo r.1 r.2 as

theorem run_last (s : σ) (l : List τ) (t : τ) (as : List α) :
    P.system.run ⟨s, l ++ [t]⟩ (as.map (.move l.length)) =
      (P.solo s t as).map fun r => ⟨r.1, l ++ [r.2]⟩ := by
  induction as generalizing s t with
  | nil => rfl
  | cons a as ih =>
    simp only [List.map_cons, System.run, System.runOk, if_true, solo]
    have hnext : P.system.next ⟨s, l ++ [t]⟩ (.move l.length a) =
        (P.step s t a).map fun r => ⟨r.1, l ++ [r.2]⟩ := by
      simp [system]
    rw [hnext]
    cases P.step s t a with
    | none => rfl
    | some r => exact ih r.1 r.2

/-- A new call that runs alone. -/
theorem run_call (c : Config σ τ) (k : κ) (as : List α) :
    P.system.run c (.call k :: as.map (.move c.threads.length)) =
      (P.solo c.shared (P.start k) as).map fun r => ⟨r.1, c.threads ++ [r.2]⟩ := by
  rw [← run_last]
  rfl

theorem solo_cons {s s' : σ} {t t' : τ} {a : α} {as : List α} (h : P.step s t a = some (s', t')) :
    P.solo s t (a :: as) = P.solo s' t' as := by
  rw [solo, h]
  rfl

/-- What holds of a thread at its start and is kept by each of its steps holds as long as it runs
alone. -/
theorem solo_invariant {I : σ → τ → Prop}
    (hs : ∀ s t a s' t', I s t → P.step s t a = some (s', t') → I s' t') {s s' : σ} {t t' : τ}
    {as : List α} (h0 : I s t) (h : P.solo s t as = some (s', t')) : I s' t' := by
  induction as generalizing s t with
  | nil =>
    cases h
    exact h0
  | cons a as ih =>
    obtain ⟨⟨s₁, t₁⟩, h₁, h⟩ := Option.bind_eq_some_iff.mp h
    exact ih (hs _ _ _ _ _ h0 h₁) h

/-- Thread `i` of `c` steps under `a`, from `t` to `t'`, and leaves the shared state `s'`. -/
structure Moves (P : Pool σ τ κ α) (c : Config σ τ) (i : ℕ) (a : α) (t : τ) (s' : σ) (t' : τ) :
    Prop where
  at_ : c.threads[i]? = some t
  step : P.step c.shared t a = some (s', t')

/-- A fact `J` about the shared state, a fact `Q` about each thread and a symmetric relation `R`
between any two threads, which every permitted move keeps. `I` is what is known of every state
already. -/
structure Sound (P : Pool σ τ κ α) (ok : Config σ τ → Move κ α → Prop) (I : Config σ τ → Prop)
    (J : σ → Prop) (Q : σ → τ → Prop) (R : τ → τ → Prop) : Prop where
  init : ∀ s, P.init s → J s
  start : ∀ s k, J s → Q s (P.start k)
  symm : ∀ t u, R t u → R u t
  startPair : ∀ k u, R (P.start k) u
  shared : ∀ {c i a t s' t'}, P.Moves c i a t s' t' → I c → ok c (.move i a) →
    J c.shared → Q c.shared t → J s'
  own : ∀ {c i a t s' t'}, P.Moves c i a t s' t' → I c → ok c (.move i a) →
    J c.shared → Q c.shared t → Q s' t'
  frame : ∀ {c i a t s' t' j u}, P.Moves c i a t s' t' → I c → ok c (.move i a) →
    J c.shared → Q c.shared t → j ≠ i → c.threads[j]? = some u → R t u → Q c.shared u → Q s' u
  pair : ∀ {c i a t s' t' j u}, P.Moves c i a t s' t' → I c → ok c (.move i a) →
    J c.shared → Q c.shared t → j ≠ i → c.threads[j]? = some u → Q c.shared u → R t u → R t' u

/-- What a sound triple says of one state. -/
structure Holds (J : σ → Prop) (Q : σ → τ → Prop) (R : τ → τ → Prop) (c : Config σ τ) : Prop where
  shared : J c.shared
  thread : ∀ t ∈ c.threads, Q c.shared t
  pair : ∀ (i j : ℕ) t u, i ≠ j → c.threads[i]? = some t → c.threads[j]? = some u → R t u

variable {ok : Config σ τ → Move κ α → Prop} {I : Config σ τ → Prop} {J : σ → Prop}
  {Q : σ → τ → Prop} {R : τ → τ → Prop}

theorem Sound.call (hP : P.Sound ok I J Q R) {c : Config σ τ} (hc : Holds J Q R c) (k : κ) :
    Holds J Q R { c with threads := c.threads ++ [P.start k] } where
  shared := hc.shared
  thread t ht := by
    rcases List.mem_append.mp ht with ht | ht
    · exact hc.thread t ht
    · rw [List.mem_singleton.mp ht]
      exact hP.start _ k hc.shared
  pair i j t u hij hi hj := by
    simp only [List.getElem?_append] at hi hj
    split_ifs at hi hj with h₁ h₂ h₂
    · exact hc.pair i j t u hij hi hj
    · obtain rfl : P.start k = u := (List.mem_singleton.mp (List.mem_of_getElem? hj)).symm
      exact hP.symm _ _ (hP.startPair k t)
    · obtain rfl : P.start k = t := (List.mem_singleton.mp (List.mem_of_getElem? hi)).symm
      exact hP.startPair k u
    · obtain rfl : P.start k = t := (List.mem_singleton.mp (List.mem_of_getElem? hi)).symm
      exact hP.startPair k u

theorem Sound.move (hP : P.Sound ok I J Q R) {c : Config σ τ} (hc : Holds J Q R c) {m : ℕ} {a : α}
    {t t' : τ} {s' : σ} (hm : P.Moves c m a t s' t') (hI : I c) (hok : ok c (.move m a)) :
    Holds J Q R ⟨s', c.threads.set m t'⟩ := by
  have hQt := hc.thread t (List.mem_of_getElem? hm.at_)
  have hself : ∀ v, (c.threads.set m t')[m]? = some v → t' = v := by
    have := (List.getElem?_eq_some_iff.mp hm.at_).1
    simp [this]
  refine ⟨hP.shared hm hI hok hc.shared hQt, fun u hu => ?_, fun i j u v hij hi hj => ?_⟩
  · obtain ⟨j, hj⟩ := List.getElem?_of_mem hu
    by_cases hjm : j = m
    · subst hjm
      rw [← hself u hj]
      exact hP.own hm hI hok hc.shared hQt
    · rw [List.getElem?_set_ne (Ne.symm hjm)] at hj
      exact hP.frame hm hI hok hc.shared hQt hjm hj (hc.pair _ _ _ _ (Ne.symm hjm) hm.at_ hj)
        (hc.thread u (List.mem_of_getElem? hj))
  · by_cases him : i = m
    · subst him
      rw [← hself u hi]
      rw [List.getElem?_set_ne hij] at hj
      exact hP.pair hm hI hok hc.shared hQt (Ne.symm hij) hj (hc.thread v (List.mem_of_getElem? hj))
        (hc.pair _ _ _ _ hij hm.at_ hj)
    · rw [List.getElem?_set_ne (Ne.symm him)] at hi
      by_cases hjm : j = m
      · subst hjm
        rw [← hself v hj]
        exact hP.symm _ _ (hP.pair hm hI hok hc.shared hQt him hi
          (hc.thread u (List.mem_of_getElem? hi)) (hc.pair _ _ _ _ (Ne.symm him) hm.at_ hi))
      · rw [List.getElem?_set_ne (Ne.symm hjm)] at hj
        exact hc.pair i j u v hij hi hj

/-- A sound triple holds in every state of every permitted run. -/
theorem Sound.holds (hP : P.Sound ok I J Q R) (hI : ∀ c, P.system.Reach ok c → I c)
    {c : Config σ τ} (h : P.system.Reach ok c) : Holds J Q R c := by
  refine h.invariant_with (I := Holds J Q R) hI ?_ ?_
  · rintro c ⟨hi, hn⟩
    exact ⟨hP.init _ hi, by simp [hn], by simp [hn]⟩
  · rintro c a c' hI hc hok hn
    cases a with
    | call k =>
      rw [next_call hn]
      exact hP.call hc k
    | move i a =>
      obtain ⟨t, s', t', ht, hs, rfl⟩ := next_move hn
      exact hP.move hc ⟨ht, hs⟩ hI hok

/-! ## Keys -/

/-- Two threads have no key in common. -/
def KeysDiffer {β : Type*} (key : τ → Option β) (t u : τ) : Prop :=
  ∀ b, key t = some b → key u ≠ some b

theorem KeysDiffer.symm {β : Type*} {key : τ → Option β} {t u : τ} (h : KeysDiffer key t u) :
    KeysDiffer key u t := fun b hu ht => h b ht hu

/-- Keys stay apart when a thread takes a key only while it is not among the used ones, `U`. -/
theorem KeysDiffer.step {β : Type*} {key : τ → Option β} {U : β → Prop} {t t' u : τ}
    (h : KeysDiffer key t u) (hstep : ∀ b, key t' = some b → key t = some b ∨ ¬U b)
    (hu : ∀ b, key u = some b → U b) : KeysDiffer key t' u := by
  intro b hb hub
  rcases hstep b hb with h' | h'
  · exact h b h' hub
  · exact h' (hu b hub)

end Pool

end HaAddons

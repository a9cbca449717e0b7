import HaAddons.Lib.Pool

/-!
# Programs that ask

A `Dialogue` is a program that asks questions `ι` of the outside world and goes on with the answers,
which may be anything of the right type. Calls started from such programs run concurrently; the
shared state is the list of the questions asked so far.

* `Only` — whatever the answers, the program asks questions with a property only. Rules: `Only.bind`,
  `Only.mono`.
* `eval` — the outcome where every question has one answer.
* `Logs` — the questions of one run with their answers. Rule: `logs_bind`.
* `Ends` — the postcondition where a world answers and changes. Rules: `ends_bind`, `Ends.mono`.
* `runWith` — the run against one way to answer; `Faithful` where all others are noticed.
* `asked` — if every call that is started asks such questions only, so does the whole run.
-/

namespace HaAddons

/-- A program over questions `ι` with answers `ω` that ends with an `α`. -/
inductive Dialogue (ι : Type) (ω : ι → Type) (α : Type) : Type where
  | done (a : α)
  | ask (i : ι) (k : ω i → Dialogue ι ω α)

namespace Dialogue

variable {ι κ : Type} {ω : ι → Type} {α β : Type}

def bind : Dialogue ι ω α → (α → Dialogue ι ω β) → Dialogue ι ω β
  | done a, f => f a
  | ask i k, f => ask i fun o => (k o).bind f

instance : Monad (Dialogue ι ω) where
  pure := done
  bind := bind

/-- Ask one question. -/
def query (i : ι) : Dialogue ι ω (ω i) := ask i done

@[simp] theorem pure_eq (a : α) : (pure a : Dialogue ι ω α) = done a := rfl

@[simp] theorem bind_eq (d : Dialogue ι ω α) (f : α → Dialogue ι ω β) :
    (d >>= f) = d.bind f := rfl

/-- Whatever the answers, every question asked has `P`. -/
def Only (P : ι → Prop) : Dialogue ι ω α → Prop
  | done _ => True
  | ask i k => P i ∧ ∀ o, (k o).Only P

variable {P P' : ι → Prop}

theorem Only.bind {d : Dialogue ι ω α} {f : α → Dialogue ι ω β} (hd : d.Only P)
    (hf : ∀ a, (f a).Only P) : (d.bind f).Only P := by
  induction d with
  | done a => exact hf a
  | ask i k ih => exact ⟨hd.1, fun o => ih o (hd.2 o)⟩

theorem Only.mono {d : Dialogue ι ω α} (hP : ∀ i, P i → P' i) (h : d.Only P) : d.Only P' := by
  induction d with
  | done a => trivial
  | ask i k ih => exact ⟨hP i h.1, fun o => ih o (h.2 o)⟩

theorem Only.query {i : ι} (h : P i) : (query i : Dialogue ι ω (ω i)).Only P :=
  ⟨h, fun _ => trivial⟩

/-! ## One answer for each question -/

/-- The outcome where every question has one answer. -/
def eval (answers : ∀ i, ω i) : Dialogue ι ω α → α
  | done a => a
  | ask i k => (k (answers i)).eval answers

@[simp] theorem eval_done (answers : ∀ i, ω i) (a : α) :
    (done a : Dialogue ι ω α).eval answers = a := rfl

@[simp] theorem eval_ask (answers : ∀ i, ω i) (i : ι) (k : ω i → Dialogue ι ω α) :
    (ask i k).eval answers = (k (answers i)).eval answers := rfl

@[simp] theorem eval_bind (answers : ∀ i, ω i) (d : Dialogue ι ω α) (f : α → Dialogue ι ω β) :
    (d.bind f).eval answers = (f (d.eval answers)).eval answers := by
  induction d with
  | done a => rfl
  | ask i k ih => exact ih (answers i)

/-! ## What one run asks and hears -/

/-- A run: the questions in the order in which they were asked, each with its answer, and how the
program ended. -/
inductive Logs : Dialogue ι ω α → List (Σ i, ω i) → α → Prop
  | done (a : α) : Logs (done a) [] a
  | ask {i : ι} {k : ω i → Dialogue ι ω α} {o : ω i} {log : List (Σ i, ω i)} {a : α} :
      Logs (k o) log a → Logs (ask i k) (⟨i, o⟩ :: log) a

theorem logs_done {a b : α} {log : List (Σ i, ω i)} :
    (done a : Dialogue ι ω α).Logs log b ↔ log = [] ∧ b = a := by
  constructor
  · intro h
    cases h
    exact ⟨rfl, rfl⟩
  · rintro ⟨rfl, rfl⟩
    exact .done b

theorem logs_ask {i : ι} {k : ω i → Dialogue ι ω α} {log : List (Σ i, ω i)} {a : α} :
    (ask i k).Logs log a ↔ ∃ o rest, log = ⟨i, o⟩ :: rest ∧ (k o).Logs rest a := by
  constructor
  · intro h
    cases h with
    | ask h => exact ⟨_, _, rfl, h⟩
  · rintro ⟨o, rest, rfl, h⟩
    exact .ask h

/-- The run of a program with a second part is a run of the first part and one of the second. -/
theorem logs_bind {d : Dialogue ι ω α} {f : α → Dialogue ι ω β} {log : List (Σ i, ω i)} {b : β} :
    (d.bind f).Logs log b ↔
      ∃ first a rest, d.Logs first a ∧ (f a).Logs rest b ∧ log = first ++ rest := by
  induction d generalizing log with
  | done a =>
    constructor
    · exact fun h => ⟨[], a, log, .done a, h, rfl⟩
    · rintro ⟨first, a', rest, hd, hf, rfl⟩
      obtain ⟨rfl, rfl⟩ := logs_done.mp hd
      exact hf
  | ask i k ih =>
    constructor
    · intro h
      obtain ⟨o, rest, rfl, hk⟩ := logs_ask.mp h
      obtain ⟨first, a, rest, hd, hf, rfl⟩ := (ih o).mp hk
      exact ⟨⟨i, o⟩ :: first, a, rest, .ask hd, hf, rfl⟩
    · rintro ⟨first, a, rest, hd, hf, rfl⟩
      obtain ⟨o, tail, rfl, hk⟩ := logs_ask.mp hd
      exact .ask ((ih o).mpr ⟨tail, a, rest, hk, hf, rfl⟩)

/-! ## A world that answers -/

section Worlds

variable {σ : Type} {world : σ → ∀ i, ω i → σ → Prop} {Q Q' : α → σ → Prop} {s : σ}

/-- Whatever the world answers, the program ends with `Q`. An answer may change the world. -/
def Ends (world : σ → ∀ i, ω i → σ → Prop) (Q : α → σ → Prop) : Dialogue ι ω α → σ → Prop
  | done a, s => Q a s
  | ask i k, s => ∀ o s', world s i o s' → (k o).Ends world Q s'

theorem Ends.bind {R : β → σ → Prop} {d : Dialogue ι ω α} {f : α → Dialogue ι ω β}
    (h : d.Ends world (fun a s => (f a).Ends world R s) s) : (d.bind f).Ends world R s := by
  induction d generalizing s with
  | done a => exact h
  | ask i k ih => exact fun o s' hs => ih o (h o s' hs)

theorem Ends.of_bind {R : β → σ → Prop} {d : Dialogue ι ω α} {f : α → Dialogue ι ω β}
    (h : (d.bind f).Ends world R s) : d.Ends world (fun a s => (f a).Ends world R s) s := by
  induction d generalizing s with
  | done a => exact h
  | ask i k ih => exact fun o s' hs => ih o (h o s' hs)

theorem ends_bind {R : β → σ → Prop} {d : Dialogue ι ω α} {f : α → Dialogue ι ω β} :
    (d.bind f).Ends world R s ↔ d.Ends world (fun a s => (f a).Ends world R s) s :=
  ⟨Ends.of_bind, Ends.bind⟩

theorem Ends.mono (hQ : ∀ a s, Q a s → Q' a s) {d : Dialogue ι ω α} (h : d.Ends world Q s) :
    d.Ends world Q' s := by
  induction d generalizing s with
  | done a => exact hQ a s h
  | ask i k ih => exact fun o s' hs => ih o (h o s' hs)

/-- From any first part the program goes on with what follows. -/
theorem ends_bind_of_forall {R : β → σ → Prop} {d : Dialogue ι ω α} {f : α → Dialogue ι ω β}
    (h : ∀ a s, (f a).Ends world R s) : (d.bind f).Ends world R s := by
  induction d generalizing s with
  | done a => exact h a s
  | ask i k ih => exact fun o s' _ => ih o

/-- A run of the program: it ends with an outcome and leaves the world changed. -/
inductive Leads (world : σ → ∀ i, ω i → σ → Prop) : Dialogue ι ω α → σ → α → σ → Prop
  | done (a : α) (s : σ) : Leads world (done a) s a s
  | ask {i : ι} {k : ω i → Dialogue ι ω α} {o : ω i} {s s' t : σ} {a : α} :
      world s i o s' → Leads world (k o) s' a t → Leads world (ask i k) s a t

/-- The postcondition holds at the end of every run. -/
theorem Ends.of_leads {d : Dialogue ι ω α} {a : α} {t : σ} (h : d.Ends world Q s)
    (hl : d.Leads world s a t) : Q a t := by
  induction hl with
  | done a s => exact h
  | ask hs _ ih => exact ih (h _ _ hs)

end Worlds

/-! ## One way to answer -/

section Replies

variable {σ : Type}

/-- The run in which the questions are answered by a function of the world. -/
def runWith (reply : σ → ∀ i, ω i × σ) : Dialogue ι ω α → σ → α × σ
  | done a, s => (a, s)
  | ask i k, s => (k (reply s i).1).runWith reply (reply s i).2

variable {reply : σ → ∀ i, ω i × σ} {s : σ}

@[simp] theorem runWith_done (a : α) : (done a : Dialogue ι ω α).runWith reply s = (a, s) := rfl

@[simp] theorem runWith_ask (i : ι) (k : ω i → Dialogue ι ω α) :
    (ask i k).runWith reply s = (k (reply s i).1).runWith reply (reply s i).2 := rfl

theorem runWith_bind (d : Dialogue ι ω α) (f : α → Dialogue ι ω β) :
    (d.bind f).runWith reply s =
      (f (d.runWith reply s).1).runWith reply (d.runWith reply s).2 := by
  induction d generalizing s with
  | done a => rfl
  | ask i k ih => exact ih (reply s i).1

/-- The rule for a first part whose run is known. -/
theorem runWith_bind_of {d : Dialogue ι ω α} {a : α} {s' : σ} (h : d.runWith reply s = (a, s'))
    (f : α → Dialogue ι ω β) : (d.bind f).runWith reply s = (f a).runWith reply s' := by
  rw [runWith_bind, h]

variable {world : σ → ∀ i, ω i → σ → Prop}

/-- What holds at the end whatever the answers holds at the end of such a run. -/
theorem Ends.runWith {Q : α → σ → Prop} {d : Dialogue ι ω α}
    (hreply : ∀ s i, world s i (reply s i).1 (reply s i).2) (h : d.Ends world Q s) :
    Q (d.runWith reply s).1 (d.runWith reply s).2 := by
  induction d generalizing s with
  | done a => exact h
  | ask i k ih => exact ih (reply s i).1 (h _ _ (hreply s i))

/-- Other answers than those of `reply` make the program end with `bad`. -/
def Faithful (world : σ → ∀ i, ω i → σ → Prop) (reply : σ → ∀ i, ω i × σ) (bad : α → Prop)
    (d : Dialogue ι ω α) : Prop :=
  ∀ s, d.Ends world (fun a s' => bad a ∨ (a, s') = d.runWith reply s) s

theorem faithful_done (bad : α → Prop) (a : α) :
    (done a : Dialogue ι ω α).Faithful world reply bad := fun _ => .inr rfl

theorem Faithful.bind {bad : α → Prop} {bad' : β → Prop} {d : Dialogue ι ω α}
    {f : α → Dialogue ι ω β} (hd : d.Faithful world reply bad)
    (hbad : ∀ a, bad a → ∃ b, f a = done b ∧ bad' b)
    (hf : ∀ a, (f a).Faithful world reply bad') : (d.bind f).Faithful world reply bad' := by
  intro s
  refine Ends.bind ((hd s).mono ?_)
  rintro a s' (ha | heq)
  · obtain ⟨b, hb, hbad'⟩ := hbad a ha
    rw [hb]
    exact .inl hbad'
  · rw [runWith_bind, ← heq]
    exact hf a s'

end Replies

/-! ## A program in the place of the world -/

/-- Every question is put to a program, which asks questions of its own. -/
def subst {η : Type} {χ : η → Type} (serve : ∀ i, Dialogue η χ (ω i)) :
    Dialogue ι ω α → Dialogue η χ α
  | done a => done a
  | ask i k => (serve i).bind fun o => (k o).subst serve

theorem bind_assoc {γ : Type} (d : Dialogue ι ω α) (f : α → Dialogue ι ω β)
    (g : β → Dialogue ι ω γ) : (d.bind f).bind g = d.bind fun a => (f a).bind g := by
  induction d with
  | done a => rfl
  | ask i k ih =>
    show ask i _ = ask i _
    congr 1
    funext o
    exact ih o

theorem subst_bind {η : Type} {χ : η → Type} (serve : ∀ i, Dialogue η χ (ω i))
    (d : Dialogue ι ω α) (f : α → Dialogue ι ω β) :
    (d.bind f).subst serve = (d.subst serve).bind fun a => (f a).subst serve := by
  induction d with
  | done a => rfl
  | ask i k ih =>
    show (serve i).bind _ = ((serve i).bind _).bind _
    rw [bind_assoc]
    congr 1
    funext o
    exact ih o

/-! ## Runs -/

/-- Calls of the programs `start`; a step puts the next question and answers it. -/
def pool (start : κ → Dialogue ι ω α) : Pool (List ι) (Dialogue ι ω α) κ (∀ i, ω i) where
  init s := s = []
  start := start
  step s d answer :=
    match d with
    | done _ => none
    | ask i k => some (s ++ [i], k (answer i))

theorem step_eq_some {start : κ → Dialogue ι ω α} {s s' : List ι} {d d' : Dialogue ι ω α}
    {answer : ∀ i, ω i} (h : (pool start).step s d answer = some (s', d')) :
    ∃ i k, d = ask i k ∧ s' = s ++ [i] ∧ d' = k (answer i) := by
  cases d with
  | done a => cases h
  | ask i k =>
    cases h
    exact ⟨i, k, rfl, rfl, rfl⟩

/-- **What a run asks.** If every call that a run starts asks questions with `P` only, the run has
asked no other. -/
theorem asked {start : κ → Dialogue ι ω α}
    {ok : Config (List ι) (Dialogue ι ω α) → Move κ (∀ i, ω i) → Prop}
    (hstart : ∀ c k, ok c (.call k) → (start k).Only P)
    {c : Config (List ι) (Dialogue ι ω α)} (h : (pool start).system.Reach ok c) :
    ∀ i ∈ c.shared, P i := by
  have hall : (∀ i ∈ c.shared, P i) ∧ ∀ d ∈ c.threads, d.Only P := by
    refine h.invariant (I := fun c => (∀ i ∈ c.shared, P i) ∧ ∀ d ∈ c.threads, d.Only P) ?_ ?_
    · rintro c ⟨hs, ht⟩
      rw [show c.shared = [] from hs, ht]
      simp
    · rintro c a c' ⟨hs, ht⟩ hok hn
      cases a with
      | call k =>
        rw [Pool.next_call hn]
        refine ⟨hs, fun d hd => ?_⟩
        rcases List.mem_append.mp hd with hd | hd
        · exact ht d hd
        · rw [List.mem_singleton.mp hd]
          exact hstart c k hok
      | move i a =>
        obtain ⟨d, s', d', hd, hstep, rfl⟩ := Pool.next_move hn
        obtain ⟨q, k, rfl, rfl, rfl⟩ := step_eq_some hstep
        have honly := ht _ (List.mem_of_getElem? hd)
        refine ⟨fun j hj => ?_, fun e he => ?_⟩
        · rcases List.mem_append.mp hj with hj | hj
          · exact hs j hj
          · rw [List.mem_singleton.mp hj]
            exact honly.1
        · rcases List.mem_or_eq_of_mem_set he with he | rfl
          · exact ht e he
          · exact honly.2 _
  exact hall.1

end Dialogue

end HaAddons

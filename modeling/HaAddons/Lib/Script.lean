import Mathlib.Init

/-!
# Programs whose operations can fail

A `Script` looks at a world, changes it by named operations, and ends with a value or raises. Each
operation may fail, with an error of the outside world's choosing; the program says what it does
then. What an operation does to the world is given once, as `apply`.

* `next` — one step of a script in a world. The label says whether the operation fails.
* `eval`, `evalWhere`, `evalAmong` — a whole run, on a list of failures.
* `Ends` — whatever fails of what may, the script ends as the two postconditions say. Rules:
  `Ends.bind`, `Ends.handle`, `Ends.mono`, and `Ends.foldlM` for loops. `Meets` is the case in which
  an operation that may fail may do so with any error.
* `Meets.now` — where everything may fail, what holds at every end holds all the way.
* `Only.ends` — the frame rule: what no operation of a script changes, the script does not change.
* `Guarded.ends` — errors that are raised before the first operation only leave the world as it is.
* `Ends.embed` — a script that sees a part of a world ends there as it ends on the part.
* `runLost` — a whole run in which answers get lost. Rules: `runLost_bind`, `runLost_handle`,
  `Only.runLost`.
* `Meets.next`, `Meets.eval`, `Ends.evalAmong`, `Ends.eval_nil` — what they say of steps and of whole
  runs.
* `trace` — a run in which nothing fails, with the operations it carries out. Rules: `trace_bind`,
  `trace_handle`, `Ends.trace`, `Only.trace`.
* `foldlM_ok` — the loop rule of plain `Except`.
-/

namespace HaAddons

/-- A program over operations `ι` that fail with a `φ`. It looks at the world as an `ω`, raises
an `ε` and returns an `α`. -/
inductive Script (ι φ ω ε α : Type) : Type where
  | done (a : α)
  | raise (e : ε)
  | look (k : ω → Script ι φ ω ε α)
  | op (o : ι) (ok : Script ι φ ω ε α) (fail : φ → Script ι φ ω ε α)

namespace Script

variable {ι φ ω ε ε' α β σ κ : Type}

def bind : Script ι φ ω ε α → (α → Script ι φ ω ε β) → Script ι φ ω ε β
  | done a, f => f a
  | raise e, _ => raise e
  | look k, f => look fun w => (k w).bind f
  | op o ok fail, f => op o (ok.bind f) fun e => (fail e).bind f

instance : Monad (Script ι φ ω ε) where
  pure := done
  bind := bind

/-- `try`: what is raised goes to `h`. -/
def handle : Script ι φ ω ε α → (ε → Script ι φ ω ε' α) → Script ι φ ω ε' α
  | done a, _ => done a
  | raise e, h => h e
  | look k, h => look fun w => (k w).handle h
  | op o ok fail, h => op o (ok.handle h) fun e => (fail e).handle h

/-- Read something of the world. -/
def get (f : ω → α) : Script ι φ ω ε α := look fun w => done (f w)

/-- An operation whose failure is raised. -/
def act (raised : φ → ε) (o : ι) : Script ι φ ω ε Unit := op o (done ()) fun e => raise (raised e)

@[simp] theorem pure_eq (a : α) : (pure a : Script ι φ ω ε α) = done a := rfl

@[simp] theorem bind_eq (s : Script ι φ ω ε α) (f : α → Script ι φ ω ε β) :
    (s >>= f) = s.bind f := rfl

/-! ## Runs -/

section Runs

variable (apply : ι → ω → Except φ ω)

/-- One step. An operation goes through only where `apply` lets it; the label can make it fail. -/
def next : ω × Script ι φ ω ε α → Option φ → Option (ω × Script ι φ ω ε α)
  | (w, look k), none => some (w, k w)
  | (w, op o ok fail), none =>
    match apply o w with
    | .ok w' => some (w', ok)
    | .error e => some (w, fail e)
  | (w, op _ _ fail), some e => some (w, fail e)
  | _, _ => none

/-- A whole run. The list says which operations fail; those after its end do not. -/
def eval : Script ι φ ω ε α → ω → List (Option φ) → Except ε α × ω
  | done a, w, _ => (.ok a, w)
  | raise e, w, _ => (.error e, w)
  | look k, w, fs => (k w).eval w fs
  | op o ok fail, w, fs =>
    match fs.headD none, apply o w with
    | none, .ok w' => ok.eval w' fs.tail
    | none, .error e => (fail e).eval w fs.tail
    | some e, _ => (fail e).eval w fs.tail

/-- A whole run in which only such operations fail as may. -/
def evalWhere (may : ι → ω → Bool) : Script ι φ ω ε α → ω → List (Option φ) → Except ε α × ω
  | done a, w, _ => (.ok a, w)
  | raise e, w, _ => (.error e, w)
  | look k, w, fs => (k w).evalWhere may w fs
  | op o ok fail, w, fs =>
    match if may o w then fs.headD none else none, apply o w with
    | none, .ok w' => ok.evalWhere may w' fs.tail
    | none, .error e => (fail e).evalWhere may w fs.tail
    | some e, _ => (fail e).evalWhere may w fs.tail

/-- A whole run in which an operation fails only with such errors as it may. -/
def evalAmong (may : ι → ω → φ → Bool) :
    Script ι φ ω ε α → ω → List (Option φ) → Except ε α × ω
  | done a, w, _ => (.ok a, w)
  | raise e, w, _ => (.error e, w)
  | look k, w, fs => (k w).evalAmong may w fs
  | op o ok fail, w, fs =>
    match (fs.headD none).filter (may o w), apply o w with
    | none, .ok w' => ok.evalAmong may w' fs.tail
    | none, .error e => (fail e).evalAmong may w fs.tail
    | some e, _ => (fail e).evalAmong may w fs.tail

/-! ## How a script ends -/

section Ends

variable (may : ι → ω → φ → Prop)

/-- Whatever fails of what may, a run from `w` ends in a value and a world with `Q`, or raises
with `R`. -/
def Ends (Q : α → ω → Prop) (R : ε → ω → Prop) : Script ι φ ω ε α → ω → Prop
  | done a, w => Q a w
  | raise e, w => R e w
  | look k, w => (k w).Ends Q R w
  | op o ok fail, w =>
    (∀ w', apply o w = .ok w' → ok.Ends Q R w') ∧
      ∀ e, may o w e ∨ apply o w = .error e → (fail e).Ends Q R w

variable {apply may} {Q Q' : α → ω → Prop} {R R' : ε → ω → Prop} {s : Script ι φ ω ε α} {w : ω}

theorem Ends.mono (h : s.Ends apply may Q R w) (hQ : ∀ a w, Q a w → Q' a w)
    (hR : ∀ e w, R e w → R' e w) : s.Ends apply may Q' R' w := by
  induction s generalizing w with
  | done a => exact hQ _ _ h
  | raise e => exact hR _ _ h
  | look k ih => exact ih _ h
  | op o ok fail ih ihf => exact ⟨fun w' hw => ih (h.1 w' hw), fun e he => ihf e (h.2 e he)⟩

theorem Ends.and (h : s.Ends apply may Q R w) (h' : s.Ends apply may Q' R' w) :
    s.Ends apply may (fun a w => Q a w ∧ Q' a w) (fun e w => R e w ∧ R' e w) w := by
  induction s generalizing w with
  | done a | raise e => exact ⟨h, h'⟩
  | look k ih => exact ih _ h h'
  | op o ok fail ih ihf =>
    exact ⟨fun w' hw => ih (h.1 w' hw) (h'.1 w' hw), fun e he => ihf e (h.2 e he) (h'.2 e he)⟩

theorem Ends.of_forall (hQ : ∀ a w, Q a w) (hR : ∀ e w, R e w) : s.Ends apply may Q R w := by
  induction s generalizing w with
  | done a => exact hQ a w
  | raise e => exact hR e w
  | look k ih => exact ih w
  | op o ok fail ih ihf => exact ⟨fun _ _ => ih, fun e _ => ihf e⟩

theorem Ends.bind {f : α → Script ι φ ω ε β} {Q : β → ω → Prop}
    (h : s.Ends apply may (fun a w => (f a).Ends apply may Q R w) R w) :
    (s.bind f).Ends apply may Q R w := by
  induction s generalizing w with
  | done a => exact h
  | raise e => exact h
  | look k ih => exact ih _ h
  | op o ok fail ih ihf => exact ⟨fun w' hw => ih (h.1 w' hw), fun e he => ihf e (h.2 e he)⟩

theorem Ends.handle {h : ε → Script ι φ ω ε' α} {R : ε' → ω → Prop}
    (hs : s.Ends apply may Q (fun e w => (h e).Ends apply may Q R w) w) :
    (s.handle h).Ends apply may Q R w := by
  induction s generalizing w with
  | done a => exact hs
  | raise e => exact hs
  | look k ih => exact ih _ hs
  | op o ok fail ih ihf => exact ⟨fun w' hw => ih (hs.1 w' hw), fun e he => ihf e (hs.2 e he)⟩

theorem Ends.get {g : ω → α} {f : α → Script ι φ ω ε β} {Q : β → ω → Prop}
    (h : (f (g w)).Ends apply may Q R w) : ((Script.get g).bind f).Ends apply may Q R w := h

theorem Ends.act {raised : φ → ε} {o : ι} {Q : Unit → ω → Prop}
    (hok : ∀ w', apply o w = .ok w' → Q () w')
    (hfail : ∀ e, may o w e ∨ apply o w = .error e → R (raised e) w) :
    (Script.act raised o : Script ι φ ω ε Unit).Ends apply may Q R w :=
  ⟨hok, hfail⟩

/-- **Loop rule.** `I` says what holds when the elements of the list are still to be done. -/
theorem Ends.foldlM {f : σ → κ → Script ι φ ω ε σ} {I : List κ → σ → ω → Prop}
    (hstep : ∀ k ks s w, I (k :: ks) s w → (f s k).Ends apply may (I ks) R w) {ks : List κ}
    {s : σ} (h : I ks s w) : (ks.foldlM f s).Ends apply may (I []) R w := by
  induction ks generalizing s w with
  | nil => exact h
  | cons k ks ih => exact Ends.bind ((hstep k ks s w h).mono (fun _ _ h => ih h) fun _ _ h => h)

/-- A whole run in which nothing fails but what cannot go through ends as the postconditions
say. -/
theorem Ends.eval_nil (h : s.Ends apply (fun _ _ _ => False) Q R w) :
    match s.eval apply w [] with
    | (.ok a, w') => Q a w'
    | (.error e, w') => R e w' := by
  induction s generalizing w with
  | done a => exact h
  | raise e => exact h
  | look k ih => exact ih w h
  | op o ok fail ih ihf =>
    simp only [Script.eval, List.headD_nil, List.tail_nil]
    cases ha : apply o w with
    | ok w' => exact ih (h.1 w' ha)
    | error e => exact ihf e (h.2 e (.inr ha))

/-- A whole run in which an operation fails only with such errors as it may ends as the
postconditions say. -/
theorem Ends.evalAmong {may : ι → ω → φ → Bool}
    (h : s.Ends apply (fun o w e => may o w e = true) Q R w) (fs : List (Option φ)) :
    match s.evalAmong apply may w fs with
    | (.ok a, w') => Q a w'
    | (.error e, w') => R e w' := by
  induction s generalizing w fs with
  | done a => exact h
  | raise e => exact h
  | look k ih => exact ih _ h fs
  | op o ok fail ih ihf =>
    simp only [Script.evalAmong]
    cases hf : (fs.headD none).filter (may o w) with
    | none =>
      cases ha : apply o w with
      | ok w' => exact ih (h.1 w' ha) fs.tail
      | error e => exact ihf e (h.2 e (.inr ha)) fs.tail
    | some e => exact ihf e (h.2 e (.inl (Option.filter_eq_some_iff.mp hf).2)) fs.tail

end Ends

/-! ## What a script leaves alone -/

section Only

/-- All operations of the script are of a kind. -/
def Only (K : ι → Prop) : Script ι φ ω ε α → Prop
  | done _ | raise _ => True
  | look k => ∀ w, (k w).Only K
  | op o ok fail => K o ∧ ok.Only K ∧ ∀ e, (fail e).Only K

variable {apply} {K : ι → Prop} {s : Script ι φ ω ε α}

theorem Only.mono {K' : ι → Prop} (hs : s.Only K) (hK : ∀ o, K o → K' o) : s.Only K' := by
  induction s with
  | done a | raise e => trivial
  | look k ih => exact fun w => ih w (hs w)
  | op o ok fail ih ihf => exact ⟨hK o hs.1, ih hs.2.1, fun e => ihf e (hs.2.2 e)⟩

theorem Only.bind {f : α → Script ι φ ω ε β} (hs : s.Only K) (hf : ∀ a, (f a).Only K) :
    (s.bind f).Only K := by
  induction s with
  | done a => exact hf a
  | raise e => trivial
  | look k ih => exact fun w => ih w (hs w)
  | op o ok fail ih ihf => exact ⟨hs.1, ih hs.2.1, fun e => ihf e (hs.2.2 e)⟩

theorem Only.handle {h : ε → Script ι φ ω ε' α} (hs : s.Only K) (hh : ∀ e, (h e).Only K) :
    (s.handle h).Only K := by
  induction s with
  | done a => trivial
  | raise e => exact hh e
  | look k ih => exact fun w => ih w (hs w)
  | op o ok fail ih ihf => exact ⟨hs.1, ih hs.2.1, fun e => ihf e (hs.2.2 e)⟩

theorem Only.act {raised : φ → ε} {o : ι} (ho : K o) :
    (Script.act raised o : Script ι φ ω ε Unit).Only K := ⟨ho, trivial, fun _ => trivial⟩

theorem Only.foldlM {f : σ → κ → Script ι φ ω ε σ} (hf : ∀ s k, (f s k).Only K) (ks : List κ)
    (s : σ) : (ks.foldlM f s).Only K := by
  induction ks generalizing s with
  | nil => trivial
  | cons k ks ih => exact (hf s k).bind fun s => ih s

/-- **Frame rule.** What no operation of the script changes holds at its end. -/
theorem Only.ends {may : ι → ω → φ → Prop} {I : ω → Prop} {w : ω} (hs : s.Only K)
    (hK : ∀ o w w', K o → apply o w = .ok w' → I w → I w') (hw : I w) :
    s.Ends apply may (fun _ => I) (fun _ => I) w := by
  induction s generalizing w with
  | done a => exact hw
  | raise e => exact hw
  | look k ih => exact ih w (hs w) hw
  | op o ok fail ih ihf =>
    exact ⟨fun w' ha => ih hs.2.1 (hK o w w' hs.1 ha hw), fun e _ => ihf e (hs.2.2 e) hw⟩

end Only

/-! ## What a script meets -/

section Meets

variable (may : ι → ω → Prop)

/-- Whatever fails of what may, a run from `w` ends in a value and a world with `Q`, or raises
with `R`. -/
def Meets (Q : α → ω → Prop) (R : ε → ω → Prop) : Script ι φ ω ε α → ω → Prop
  | done a, w => Q a w
  | raise e, w => R e w
  | look k, w => (k w).Meets Q R w
  | op o ok fail, w =>
    (∀ w', apply o w = .ok w' → ok.Meets Q R w') ∧
      ∀ e, may o w ∨ apply o w = .error e → (fail e).Meets Q R w

theorem meets_eq (Q : α → ω → Prop) (R : ε → ω → Prop) :
    Meets apply may Q R = Ends apply (fun o w _ => may o w) Q R := by
  funext s w
  induction s generalizing w with
  | done a => rfl
  | raise e => rfl
  | look k ih => exact ih w w
  | op o ok fail ih ihf => simp only [Meets, Ends, ih, ihf]

variable {apply may} {Q Q' : α → ω → Prop} {R R' : ε → ω → Prop} {s : Script ι φ ω ε α} {w : ω}

theorem Meets.mono (h : s.Meets apply may Q R w) (hQ : ∀ a w, Q a w → Q' a w)
    (hR : ∀ e w, R e w → R' e w) : s.Meets apply may Q' R' w := by
  rw [meets_eq] at h ⊢
  exact h.mono hQ hR

theorem Meets.bind {f : α → Script ι φ ω ε β} {Q : β → ω → Prop}
    (h : s.Meets apply may (fun a w => (f a).Meets apply may Q R w) R w) :
    (s.bind f).Meets apply may Q R w := by
  simp only [meets_eq] at h ⊢
  exact h.bind

theorem Meets.handle {h : ε → Script ι φ ω ε' α} {R : ε' → ω → Prop}
    (hs : s.Meets apply may Q (fun e w => (h e).Meets apply may Q R w) w) :
    (s.handle h).Meets apply may Q R w := by
  simp only [meets_eq] at hs ⊢
  exact hs.handle

theorem Meets.get {g : ω → α} {f : α → Script ι φ ω ε β} {Q : β → ω → Prop}
    (h : (f (g w)).Meets apply may Q R w) : ((Script.get g).bind f).Meets apply may Q R w := h

theorem Meets.act {raised : φ → ε} {o : ι} {Q : Unit → ω → Prop}
    (hok : ∀ w', apply o w = .ok w' → Q () w') (hfail : ∀ e, R (raised e) w) :
    (Script.act raised o : Script ι φ ω ε Unit).Meets apply may Q R w :=
  ⟨hok, fun e _ => hfail e⟩

/-- Where everything may fail, what holds at every end holds at every point on the way there. -/
theorem Meets.now [Nonempty φ] {I : ω → Prop} (h : s.Meets apply may Q R w)
    (hmay : ∀ o w, may o w) (hQ : ∀ a w, Q a w → I w) (hR : ∀ e w, R e w → I w) : I w := by
  induction s generalizing w with
  | done a => exact hQ a w h
  | raise e => exact hR e w h
  | look k ih => exact ih w h
  | op o ok fail ih ihf =>
    have e : φ := Classical.choice inferInstance
    exact ihf e (h.2 e (.inl (hmay o w)))

/-- **Loop rule.** `I` says what holds when the elements of the list are still to be done. -/
theorem Meets.foldlM {f : σ → κ → Script ι φ ω ε σ} {I : List κ → σ → ω → Prop}
    (hstep : ∀ k ks s w, I (k :: ks) s w → (f s k).Meets apply may (I ks) R w) {ks : List κ}
    {s : σ} (h : I ks s w) : (ks.foldlM f s).Meets apply may (I []) R w := by
  simp only [meets_eq] at hstep ⊢
  exact Ends.foldlM hstep h

/-- The label lets only such operations fail as may. -/
def Permits (may : ι → ω → Bool) : ω × Script ι φ ω ε α → Option φ → Bool
  | (w, op o _ _), some _ => may o w
  | _, _ => true

/-- A step keeps what is ahead. -/
theorem Meets.next {may : ι → ω → Bool} {f : Option φ} {s' : Script ι φ ω ε α} {w' : ω}
    (h : s.Meets apply (fun o w => may o w = true) Q R w) (hf : Permits may (w, s) f = true)
    (hn : Script.next apply (w, s) f = some (w', s')) :
    s'.Meets apply (fun o w => may o w = true) Q R w' := by
  cases s with
  | done a | raise e => cases hn
  | look k =>
    cases f with
    | none =>
      cases hn
      exact h
    | some e => cases hn
  | op o ok fail =>
    cases f with
    | none =>
      simp only [Script.next] at hn
      split at hn
      · rename_i w₁ hw
        cases hn
        exact h.1 _ hw
      · rename_i e he
        cases hn
        exact h.2 e (.inr he)
    | some e =>
      cases hn
      exact h.2 e (.inl hf)

/-- A whole run ends as the postconditions say. -/
theorem Meets.eval (h : s.Meets apply may Q R w) (hmay : ∀ o w, may o w) (fs : List (Option φ)) :
    match s.eval apply w fs with
    | (.ok a, w') => Q a w'
    | (.error e, w') => R e w' := by
  induction s generalizing w fs with
  | done a => exact h
  | raise e => exact h
  | look k ih => exact ih _ h fs
  | op o ok fail ih ihf =>
    simp only [Script.eval]
    have hfail : ∀ e, (fail e).Meets apply may Q R w := fun e => h.2 e (.inl (hmay o w))
    cases fs.headD none with
    | none =>
      cases ha : apply o w with
      | ok w' => exact ih (h.1 w' ha) fs.tail
      | error e => exact ihf e (hfail e) fs.tail
    | some e => exact ihf e (hfail e) fs.tail

/-- A whole run in which only such operations fail as may ends as the postconditions say. -/
theorem Meets.evalWhere {may : ι → ω → Bool}
    (h : s.Meets apply (fun o w => may o w = true) Q R w) (fs : List (Option φ)) :
    match s.evalWhere apply may w fs with
    | (.ok a, w') => Q a w'
    | (.error e, w') => R e w' := by
  induction s generalizing w fs with
  | done a => exact h
  | raise e => exact h
  | look k ih => exact ih _ h fs
  | op o ok fail ih ihf =>
    simp only [Script.evalWhere]
    cases hf : if may o w then fs.headD none else none with
    | none =>
      cases ha : apply o w with
      | ok w' => exact ih (h.1 w' ha) fs.tail
      | error e => exact ihf e (h.2 e (.inr ha)) fs.tail
    | some e =>
      cases hmay : may o w with
      | true => exact ihf e (h.2 e (.inl hmay)) fs.tail
      | false => simp [hmay] at hf

end Meets

/-! ## Lost answers -/

section Lost

variable (may : ι → ω → Bool)

/-- A whole run in which an operation that may fail may also fail after it had its effect. The flag
of a failure says so. What is left of the list comes back. -/
def runLost : Script ι φ ω ε α → ω → List (Option (Bool × φ)) →
    Except ε α × ω × List (Option (Bool × φ))
  | done a, w, fs => (.ok a, w, fs)
  | raise e, w, fs => (.error e, w, fs)
  | look k, w, fs => (k w).runLost w fs
  | op o ok fail, w, fs =>
    match if may o w then fs.headD none else none, apply o w with
    | none, .ok w' => ok.runLost w' fs.tail
    | none, .error e => (fail e).runLost w fs.tail
    | some (true, e), .ok w' => (fail e).runLost w' fs.tail
    | some (_, e), _ => (fail e).runLost w fs.tail

variable {apply may} {w : ω} {fs : List (Option (Bool × φ))}

theorem runLost_bind (s : Script ι φ ω ε α) (f : α → Script ι φ ω ε β) :
    (s.bind f).runLost apply may w fs =
      match s.runLost apply may w fs with
      | (.ok a, w', fs') => (f a).runLost apply may w' fs'
      | (.error e, w', fs') => (.error e, w', fs') := by
  induction s generalizing w fs with
  | done a | raise e => rfl
  | look k ih => exact ih w
  | op o ok fail ih ihf =>
    simp only [bind, runLost]
    split
    · exact ih
    · exact ihf _
    · exact ihf _
    · exact ihf _

theorem runLost_handle (s : Script ι φ ω ε α) (h : ε → Script ι φ ω ε' α) :
    (s.handle h).runLost apply may w fs =
      match s.runLost apply may w fs with
      | (.ok a, w', fs') => (.ok a, w', fs')
      | (.error e, w', fs') => (h e).runLost apply may w' fs' := by
  induction s generalizing w fs with
  | done a | raise e => rfl
  | look k ih => exact ih w
  | op o ok fail ih ihf =>
    simp only [handle, runLost]
    split
    · exact ih
    · exact ihf _
    · exact ihf _
    · exact ihf _

/-- What no operation of the script changes holds at the end of the run. -/
theorem Only.runLost {K : ι → Prop} {I : ω → Prop} {s : Script ι φ ω ε α} (hs : s.Only K)
    (hK : ∀ o w w', K o → apply o w = .ok w' → I w → I w') (hw : I w) :
    I (s.runLost apply may w fs).2.1 := by
  induction s generalizing w fs with
  | done a | raise e => exact hw
  | look k ih => exact ih w (hs w) hw
  | op o ok fail ih ihf =>
    simp only [Script.runLost]
    split
    · rename_i w' _ ha
      exact ih hs.2.1 (hK o w w' hs.1 ha hw)
    · exact ihf _ (hs.2.2 _) hw
    · rename_i w' _ ha
      exact ihf _ (hs.2.2 _) (hK o w w' hs.1 ha hw)
    · exact ihf _ (hs.2.2 _) hw

end Lost

/-! ## What a run carries out -/

section Trace

/-- A whole run in which nothing fails but what cannot go through, and the operations it carries
out. -/
def trace : Script ι φ ω ε α → ω → Except ε α × ω × List ι
  | done a, w => (.ok a, w, [])
  | raise e, w => (.error e, w, [])
  | look k, w => (k w).trace w
  | op o ok fail, w =>
    match apply o w with
    | .ok w' => ((ok.trace w').1, (ok.trace w').2.1, o :: (ok.trace w').2.2)
    | .error e => (fail e).trace w

variable {apply} {s : Script ι φ ω ε α} {w : ω}

theorem trace_op (o : ι) (ok : Script ι φ ω ε α) (fail : φ → Script ι φ ω ε α) (w : ω) :
    (op o ok fail).trace apply w =
      match apply o w with
      | .ok w' => ((ok.trace apply w').1, (ok.trace apply w').2.1, o :: (ok.trace apply w').2.2)
      | .error e => (fail e).trace apply w := by
  rw [trace]

theorem trace_bind (s : Script ι φ ω ε α) (f : α → Script ι φ ω ε β) (w : ω) :
    (s.bind f).trace apply w =
      match s.trace apply w with
      | (.ok a, w', os) =>
        (((f a).trace apply w').1, ((f a).trace apply w').2.1, os ++ ((f a).trace apply w').2.2)
      | (.error e, w', os) => (.error e, w', os) := by
  induction s generalizing w with
  | done a | raise e => rfl
  | look k ih => exact ih w w
  | op o ok fail ih ihf =>
    rw [bind, trace_op, trace_op]
    cases apply o w with
    | ok w₁ =>
      dsimp only
      rw [ih w₁]
      rcases ok.trace apply w₁ with ⟨r, w₂, os⟩
      cases r <;> rfl
    | error e => exact ihf e w

theorem trace_handle (s : Script ι φ ω ε α) (k : ε → Script ι φ ω ε' α) (w : ω) :
    (s.handle k).trace apply w =
      match s.trace apply w with
      | (.ok a, w', os) => (.ok a, w', os)
      | (.error e, w', os) =>
        (((k e).trace apply w').1, ((k e).trace apply w').2.1, os ++ ((k e).trace apply w').2.2) := by
  induction s generalizing w with
  | done a | raise e => rfl
  | look k ih => exact ih w w
  | op o ok fail ih ihf =>
    rw [handle, trace_op, trace_op]
    cases apply o w with
    | ok w₁ =>
      dsimp only
      rw [ih w₁]
      rcases ok.trace apply w₁ with ⟨r, w₂, os⟩
      cases r <;> rfl
    | error e => exact ihf e w

/-- A run in which nothing fails ends as the postconditions say. -/
theorem Ends.trace {Q : α → ω → Prop} {R : ε → ω → Prop}
    (h : s.Ends apply (fun _ _ _ => False) Q R w) :
    match s.trace apply w with
    | (.ok a, w', _) => Q a w'
    | (.error e, w', _) => R e w' := by
  induction s generalizing w with
  | done a | raise e => exact h
  | look k ih => exact ih w h
  | op o ok fail ih ihf =>
    rw [trace_op]
    cases ha : apply o w with
    | ok w' =>
      have hrun := ih (h.1 w' ha)
      dsimp only
      rcases hok : ok.trace apply w' with ⟨r, w'', os⟩
      rw [hok] at hrun
      cases r <;> exact hrun
    | error e => exact ihf e (h.2 e (.inr ha))

theorem Only.trace {K : ι → Prop} (hs : s.Only K) : ∀ o ∈ (s.trace apply w).2.2, K o := by
  induction s generalizing w with
  | done a | raise e => exact fun o ho => absurd ho List.not_mem_nil
  | look k ih => exact ih w (hs w)
  | op o ok fail ih ihf =>
    rw [trace_op]
    cases apply o w with
    | ok w' => exact List.forall_mem_cons.mpr ⟨hs.1, ih hs.2.1⟩
    | error e => exact ihf e (hs.2.2 e)

end Trace

/-! ## Errors that come first -/

section Guarded

variable (may : ι → ω → φ → Prop) (P : ε → Prop)

/-- Errors of a kind are raised before the first operation only. -/
def Guarded : Script ι φ ω ε α → ω → Prop
  | done _, _ | raise _, _ => True
  | look k, w => (k w).Guarded w
  | op o ok fail, w =>
    (∀ w', apply o w = .ok w' → ok.Ends apply may (fun _ _ => True) (fun e _ => ¬ P e) w') ∧
      ∀ e, may o w e ∨ apply o w = .error e →
        (fail e).Ends apply may (fun _ _ => True) (fun e _ => ¬ P e) w

variable {apply may P} {s : Script ι φ ω ε α} {w : ω}

/-- **A guarded script changes nothing** where it raises an error of the kind. -/
theorem Guarded.ends (h : s.Guarded apply may P w) :
    s.Ends apply may (fun _ _ => True) (fun e w' => P e → w' = w) w := by
  induction s with
  | done a => trivial
  | raise e => exact fun _ => rfl
  | look k ih => exact ih w h
  | op o ok fail ih ihf =>
    refine ⟨fun w' hw => ?_, fun e he => ?_⟩
    · exact (h.1 w' hw).mono (fun _ _ _ => trivial) fun _ _ hnot hp => absurd hp hnot
    · exact (h.2 e he).mono (fun _ _ _ => trivial) fun _ _ hnot hp => absurd hp hnot

theorem Guarded.of_never (h : s.Ends apply may (fun _ _ => True) (fun e _ => ¬ P e) w) :
    s.Guarded apply may P w := by
  induction s with
  | done a | raise e => trivial
  | look k ih => exact ih w h
  | op o ok fail _ _ => exact h

theorem Guarded.of_only (hs : s.Only fun _ => False) : s.Guarded apply may P w := by
  induction s with
  | done a | raise e => trivial
  | look k ih => exact ih w (hs w)
  | op o ok fail _ _ => exact hs.1.elim

/-- Checks that run no operation may come first. -/
theorem Guarded.bind {f : α → Script ι φ ω ε β} (hs : s.Only fun _ => False)
    (hf : ∀ a, (f a).Guarded apply may P w) : (s.bind f).Guarded apply may P w := by
  induction s with
  | done a => exact hf a
  | raise e => trivial
  | look k ih => exact ih w (hs w)
  | op o ok fail _ _ => exact hs.1.elim

/-- What comes after the script raises no such error. -/
theorem Guarded.followed {f : α → Script ι φ ω ε β} (hs : s.Guarded apply may P w)
    (hf : s.Ends apply may (fun a w => (f a).Ends apply may (fun _ _ => True) (fun e _ => ¬ P e) w)
      (fun _ _ => True) w) : (s.bind f).Guarded apply may P w := by
  induction s with
  | done a => exact of_never hf
  | raise e => trivial
  | look k ih => exact ih w hs hf
  | op o ok fail _ _ =>
    refine ⟨fun w' hw => Ends.bind ?_, fun e he => Ends.bind ?_⟩
    · exact ((hs.1 w' hw).and (hf.1 w' hw)).mono (fun _ _ h => h.2) fun _ _ h => h.1
    · exact ((hs.2 e he).and (hf.2 e he)).mono (fun _ _ h => h.2) fun _ _ h => h.1

end Guarded

/-! ## Scripts over a part of a world -/

section Embed

variable {ι' ω' : Type} (f : ι → ι') (g : ω' → ω)

/-- The script on a world of which it sees a part. -/
def embed : Script ι φ ω ε α → Script ι' φ ω' ε α
  | done a => done a
  | raise e => raise e
  | look k => look fun w => (k (g w)).embed
  | op o ok fail => op (f o) ok.embed fun e => (fail e).embed

theorem embed_bind (s : Script ι φ ω ε α) (k : α → Script ι φ ω ε β) :
    (s.bind k).embed f g = (s.embed f g).bind fun a => (k a).embed f g := by
  induction s with
  | done a | raise e => rfl
  | look h ih => exact congrArg look (funext fun w => ih (g w))
  | op o ok fail ih ihf =>
    show op (f o) _ _ = op (f o) _ _
    rw [ih, funext ihf]

variable {apply f g} {apply' : ι' → ω' → Except φ ω'} {may : ι → ω → φ → Prop}
  {may' : ι' → ω' → φ → Prop} {s : Script ι φ ω ε α} {w : ω'}

/-- What an operation does to the part is what the script counts on. -/
structure Embeds (apply : ι → ω → Except φ ω) (apply' : ι' → ω' → Except φ ω')
    (may : ι → ω → φ → Prop) (may' : ι' → ω' → φ → Prop) (f : ι → ι') (g : ω' → ω) : Prop where
  ok : ∀ o w w', apply' (f o) w = .ok w' → apply o (g w) = .ok (g w')
  error : ∀ o w e, may' (f o) w e ∨ apply' (f o) w = .error e →
    may o (g w) e ∨ apply o (g w) = .error e

/-- **Embedding.** The whole ends as the part does. -/
theorem Ends.embed (hf : Embeds apply apply' may may' f g) {Q : α → ω → Prop} {R : ε → ω → Prop}
    (h : s.Ends apply may Q R (g w)) :
    (s.embed f g).Ends apply' may' (fun a w => Q a (g w)) (fun e w => R e (g w)) w := by
  induction s generalizing w with
  | done a => exact h
  | raise e => exact h
  | look k ih => exact ih _ h
  | op o ok fail ih ihf =>
    exact ⟨fun w' hw => ih (h.1 _ (hf.ok o w w' hw)), fun e he => ihf e (h.2 e (hf.error o w e he))⟩

theorem Only.embed {K : ι' → Prop} (hs : s.Only fun o => K (f o)) : (s.embed f g).Only K := by
  induction s with
  | done a | raise e => trivial
  | look k ih => exact fun w => ih _ (hs (g w))
  | op o ok fail ih ihf => exact ⟨hs.1, ih hs.2.1, fun e => ihf e (hs.2.2 e)⟩

theorem Guarded.embed (hf : Embeds apply apply' may may' f g) {P : ε → Prop}
    (h : s.Guarded apply may P (g w)) : (s.embed f g).Guarded apply' may' P w := by
  induction s with
  | done a | raise e => trivial
  | look k ih => exact ih _ h
  | op o ok fail _ _ =>
    exact ⟨fun w' hw => (h.1 _ (hf.ok o w w' hw)).embed hf,
      fun e he => (h.2 e (hf.error o w e he)).embed hf⟩

end Embed

end Runs

end Script

/-- **Loop rule** for a loop that only raises. -/
theorem foldlM_ok {ε σ κ : Type*} {f : σ → κ → Except ε σ} {I : List κ → σ → Prop}
    (hstep : ∀ k ks s s', I (k :: ks) s → f s k = .ok s' → I ks s') {ks : List κ} {s s' : σ}
    (h : ks.foldlM f s = .ok s') (hI : I ks s) : I [] s' := by
  induction ks generalizing s with
  | nil =>
    cases h
    exact hI
  | cons k ks ih =>
    rw [List.foldlM_cons] at h
    cases hk : f s k with
    | error e => simp [hk, bind, Except.bind] at h
    | ok s₁ =>
      simp only [hk, bind, Except.bind] at h
      exact ih h (hstep k ks s s₁ hI hk)

end HaAddons

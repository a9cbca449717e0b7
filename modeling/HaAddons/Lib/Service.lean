import HaAddons.Lib.Script
import HaAddons.Lib.System

/-!
# Calls with lost answers

A service runs one script after the other. An operation may fail before it takes effect, or after it:
then the effect is there, but the script sees a failure, as it does when a command times out.

* `lossy` — the script with a second operation behind each one, which stands for its answer.
* `Survives` — how a script ends, whatever fails and whichever answers are lost.
* `service_invariant` — what every call keeps, however it ends, holds in every state of a service,
  inside calls too.
-/

namespace HaAddons

namespace Script

variable {ι φ ω ε ε' α β : Type}

/-- Behind each operation comes its answer, which may be lost. -/
def lossy : Script ι φ ω ε α → Script (Option ι) φ ω ε α
  | done a => done a
  | raise e => raise e
  | look k => look fun w => (k w).lossy
  | op o ok fail => op (some o) (op none ok.lossy fun e => (fail e).lossy) fun e => (fail e).lossy

/-- An answer changes nothing. -/
def lossyApply (apply : ι → ω → Except φ ω) : Option ι → ω → Except φ ω
  | some o, w => apply o w
  | none, w => .ok w

theorem lossy_bind (s : Script ι φ ω ε α) (f : α → Script ι φ ω ε β) :
    (s.bind f).lossy = s.lossy.bind fun a => (f a).lossy := by
  induction s with
  | done a => rfl
  | raise e => rfl
  | look k ih =>
    show look _ = look _
    congr 1
    funext w
    exact ih w
  | op o ok fail ih ihf =>
    have hfail : (fun e => ((fail e).bind f).lossy) =
        fun e => (fail e).lossy.bind fun a => (f a).lossy := by
      funext e
      exact ihf e
    show op _ (op _ (ok.bind f).lossy _) _ = op _ (op _ _ _) _
    rw [ih, hfail]

theorem lossy_handle (s : Script ι φ ω ε α) (h : ε → Script ι φ ω ε' α) :
    (s.handle h).lossy = s.lossy.handle fun e => (h e).lossy := by
  induction s with
  | done a => rfl
  | raise e => rfl
  | look k ih =>
    show look _ = look _
    congr 1
    funext w
    exact ih w
  | op o ok fail ih ihf =>
    have hfail : (fun e => ((fail e).handle h).lossy) =
        fun e => (fail e).lossy.handle fun e => (h e).lossy := by
      funext e
      exact ihf e
    show op _ (op _ (ok.handle h).lossy _) _ = op _ (op _ _ _) _
    rw [ih, hfail]

/-! ## What survives -/

section Survives

/-- Whatever fails, before its effect or after it, a run from `w` ends in a value and a world with
`Q`, or raises with `R`. -/
def Survives (apply : ι → ω → Except φ ω) (Q : α → ω → Prop) (R : ε → ω → Prop)
    (s : Script ι φ ω ε α) (w : ω) : Prop :=
  s.lossy.Meets (lossyApply apply) (fun _ _ => true = true) Q R w

variable {apply : ι → ω → Except φ ω} {Q Q' : α → ω → Prop} {R R' : ε → ω → Prop}
  {s : Script ι φ ω ε α} {w : ω}

theorem Survives.mono (h : s.Survives apply Q R w) (hQ : ∀ a w, Q a w → Q' a w)
    (hR : ∀ e w, R e w → R' e w) : s.Survives apply Q' R' w :=
  Meets.mono h hQ hR

theorem Survives.bind {f : α → Script ι φ ω ε β} {Q : β → ω → Prop}
    (h : s.Survives apply (fun a w => (f a).Survives apply Q R w) R w) :
    (s.bind f).Survives apply Q R w := by
  unfold Survives
  rw [lossy_bind]
  exact Meets.bind h

theorem Survives.handle {h : ε → Script ι φ ω ε' α} {R : ε' → ω → Prop}
    (hs : s.Survives apply Q (fun e w => (h e).Survives apply Q R w) w) :
    (s.handle h).Survives apply Q R w := by
  unfold Survives
  rw [lossy_handle]
  exact Meets.handle hs

theorem Survives.get {g : ω → α} {f : α → Script ι φ ω ε β} {Q : β → ω → Prop}
    (h : (f (g w)).Survives apply Q R w) : ((Script.get g).bind f).Survives apply Q R w := h

/-- The operation fails before its effect, its answer is lost, or neither. -/
theorem Survives.act {raised : φ → ε} {o : ι} {Q : Unit → ω → Prop}
    (hok : ∀ w', apply o w = .ok w' → Q () w' ∧ ∀ e, R (raised e) w')
    (hfail : ∀ e, R (raised e) w) :
    (Script.act raised o : Script ι φ ω ε Unit).Survives apply Q R w := by
  refine ⟨fun w' hw => ⟨fun w'' hw' => ?_, fun e _ => (hok w' hw).2 e⟩, fun e _ => hfail e⟩
  cases hw'
  exact (hok w' hw).1

/-- **Frame rule.** What no operation of the script changes survives it. -/
theorem Only.survives {K : ι → Prop} {I : ω → Prop} (hs : s.Only K)
    (hK : ∀ o w w', K o → apply o w = .ok w' → I w → I w') (hw : I w) :
    s.Survives apply (fun _ => I) (fun _ => I) w := by
  induction s generalizing w with
  | done a => exact hw
  | raise e => exact hw
  | look k ih => exact ih w (hs w) hw
  | op o ok fail ih ihf =>
    refine ⟨fun w' hw' => ?_, fun e _ => ihf e (hs.2.2 e) hw⟩
    have hkept : I w' := hK o w w' hs.1 hw' hw
    refine ⟨fun w'' hw'' => ?_, fun e _ => ihf e (hs.2.2 e) hkept⟩
    cases hw''
    exact ih hs.2.1 hkept

end Survives

end Script

/-! ## Services -/

/-- A call begins, makes a step that may fail, or returns. -/
inductive ServiceLabel (κ φ : Type) : Type where
  | call (c : κ)
  | step (failure : Option φ)
  | ret

section Service

variable {ι φ ω ε κ : Type} (apply : ι → ω → Except φ ω)

/-- Calls one after the other: the world, and what is left of the call that is running. -/
def service (start : κ → Script ι φ ω ε Unit) (init : ω → Prop) :
    System (ω × Option (Script (Option ι) φ ω ε Unit)) (ServiceLabel κ φ) where
  init s := init s.1 ∧ s.2 = none
  next s l :=
    match l, s.2 with
    | .call c, none => some (s.1, some (start c).lossy)
    | .step failure, some script =>
      (Script.next (Script.lossyApply apply) (s.1, script) failure).map fun r => (r.1, some r.2)
    | .ret, some (.done _) | .ret, some (.raise _) => some (s.1, none)
    | _, _ => none

variable {apply} {start : κ → Script ι φ ω ε Unit} {init : ω → Prop}
  {s : ω × Option (Script (Option ι) φ ω ε Unit)}

/-- **The invariant rule.** -/
theorem service_invariant [Nonempty φ] {I : ω → Prop} (hinit : ∀ w, init w → I w)
    (hstart : ∀ c w, I w → (start c).Survives apply (fun _ => I) (fun _ => I) w)
    (h : (service apply start init).Reachable s) : I s.1 := by
  let J : ω × Option (Script (Option ι) φ ω ε Unit) → Prop := fun s =>
    I s.1 ∧ ∀ script, s.2 = some script → script.Meets (Script.lossyApply apply)
      (fun _ _ => true = true) (fun _ => I) (fun _ => I) s.1
  have hJ : J s := by
    refine System.Reach.invariant (fun s hs => ?_) (fun s l s' hI _ hn => ?_) h
    · exact ⟨hinit s.1 hs.1, by simp [hs.2]⟩
    · obtain ⟨w, call⟩ := s
      cases l with
      | call c =>
        cases call with
        | none =>
          cases hn
          refine ⟨hI.1, fun script hs => ?_⟩
          cases hs
          exact hstart c w hI.1
        | some script => cases hn
      | step failure =>
        cases call with
        | none => cases hn
        | some script =>
          obtain ⟨r, hr, hn⟩ := Option.map_eq_some_iff.mp hn
          cases hn
          have hperm : Script.Permits (fun _ _ => true) (w, script) failure = true := by
            unfold Script.Permits
            split <;> rfl
          have hnext := Script.Meets.next (hI.2 script rfl) hperm hr
          refine ⟨hnext.now (fun _ _ => rfl) (fun _ _ h => h) fun _ _ h => h, fun s hs => ?_⟩
          cases hs
          exact hnext
      | ret =>
        cases call with
        | none => cases hn
        | some script =>
          cases script with
          | done a | raise e =>
            cases hn
            exact ⟨hI.1, by simp⟩
          | look k | op o ok fail => cases hn
  exact hJ.1

end Service

end HaAddons

import HaAddons.Lib.Script

/-!
# Which operations of a run fail

A whole run of a script is given by the list of its failures. `Fails bad` says that an operation
fails in it where that is bad.

* `Ends.eval_of_not_fails` — a run without bad failures ends as one in which only the others may
  occur.
* `Dooms` — a bad failure is raised. Rules: `Dooms.act`, `Dooms.get`, `Dooms.bind`, `Dooms.handle`.
* `Dooms.eval` — a run with a bad failure raises.
-/

namespace HaAddons.Script

variable {ι φ ω ε ε' α β : Type}

/-- An operation of the run fails where it is bad. -/
def Fails (apply : ι → ω → Except φ ω) (bad : ι → ω → Prop) :
    Script ι φ ω ε α → ω → List (Option φ) → Prop
  | done _, _, _ | raise _, _, _ => False
  | look k, w, fs => (k w).Fails apply bad w fs
  | op o ok fail, w, fs =>
    match fs.headD none, apply o w with
    | none, .ok w' => ok.Fails apply bad w' fs.tail
    | none, .error e => bad o w ∨ (fail e).Fails apply bad w fs.tail
    | some e, _ => bad o w ∨ (fail e).Fails apply bad w fs.tail

instance decidableFails (apply : ι → ω → Except φ ω) (bad : ι → ω → Prop)
    [∀ o w, Decidable (bad o w)] :
    (s : Script ι φ ω ε α) → (w : ω) → (fs : List (Option φ)) → Decidable (s.Fails apply bad w fs)
  | done _, _, _ | raise _, _, _ => .isFalse id
  | look k, w, fs => decidableFails apply bad (k w) w fs
  | op o ok fail, w, fs => by
    unfold Fails
    exact
      match fs.headD none, apply o w with
      | none, .ok w' => decidableFails apply bad ok w' fs.tail
      | none, .error e => @instDecidableOr _ _ _ (decidableFails apply bad (fail e) w fs.tail)
      | some e, _ => @instDecidableOr _ _ _ (decidableFails apply bad (fail e) w fs.tail)

section Fails

variable {apply : ι → ω → Except φ ω} {bad : ι → ω → Prop} {Q : α → ω → Prop} {R : ε → ω → Prop}
  {s : Script ι φ ω ε α} {w : ω} {fs : List (Option φ)}

theorem fails_or {bad' : ι → ω → Prop} :
    s.Fails apply (fun o w => bad o w ∨ bad' o w) w fs ↔
      s.Fails apply bad w fs ∨ s.Fails apply bad' w fs := by
  induction s generalizing w fs with
  | done a | raise e => exact (or_iff_left id).symm
  | look k ih => exact ih w
  | op o ok fail ih ihf =>
    unfold Fails
    cases fs.headD none with
    | none =>
      cases apply o w with
      | ok w' => exact ih
      | error e =>
        dsimp only
        rw [ihf e]
        exact or_or_or_comm
    | some e =>
      dsimp only
      rw [ihf e]
      exact or_or_or_comm

/-- Without bad failures a run ends as the postconditions say. -/
theorem Ends.eval_of_not_fails (h : s.Ends apply (fun o w _ => ¬ bad o w) Q R w)
    (hf : ¬ s.Fails apply bad w fs) :
    match s.eval apply w fs with
    | (.ok a, w') => Q a w'
    | (.error e, w') => R e w' := by
  induction s generalizing w fs with
  | done a => exact h
  | raise e => exact h
  | look k ih => exact ih w h hf
  | op o ok fail ih ihf =>
    simp only [Script.eval]
    unfold Fails at hf
    cases hhead : fs.headD none with
    | none =>
      cases ha : apply o w with
      | ok w' =>
        rw [hhead, ha] at hf
        exact ih (h.1 w' ha) hf
      | error e =>
        rw [hhead, ha] at hf
        exact ihf e (h.2 e (.inr ha)) fun h => hf (.inr h)
    | some e =>
      rw [hhead] at hf
      exact ihf e (h.2 e (.inl fun h => hf (.inl h))) fun h => hf (.inr h)

end Fails

/-! ## Failures that are raised -/

section Dooms

variable (apply : ι → ω → Except φ ω) (bad : ι → ω → Prop)

/-- Once an operation has failed where it is bad, the script raises with `R`. -/
def Dooms (R : ε → ω → Prop) : Script ι φ ω ε α → ω → Prop
  | done _, _ | raise _, _ => True
  | look k, w => (k w).Dooms R w
  | op o ok fail, w =>
    (∀ w', apply o w = .ok w' → ok.Dooms R w') ∧
      ∀ e, (bad o w → (fail e).Meets apply (fun _ _ => True) (fun _ _ => False) R w) ∧
        (fail e).Dooms R w

variable {apply bad} {R : ε → ω → Prop} {s : Script ι φ ω ε α} {w : ω}

theorem Meets.raises (h : s.Meets apply (fun _ _ => True) (fun _ _ => False) R w)
    (fs : List (Option φ)) : ∃ e w', s.eval apply w fs = (.error e, w') ∧ R e w' := by
  have heval := h.eval (fun _ _ => trivial) fs
  cases hrun : s.eval apply w fs with
  | mk r w' =>
    rw [hrun] at heval
    cases r with
    | ok a => exact heval.elim
    | error e => exact ⟨e, w', rfl, heval⟩

/-- **A run with a bad failure raises.** -/
theorem Dooms.eval (h : s.Dooms apply bad R w) {fs : List (Option φ)}
    (hf : s.Fails apply bad w fs) : ∃ e w', s.eval apply w fs = (.error e, w') ∧ R e w' := by
  induction s generalizing w fs with
  | done a => exact hf.elim
  | raise e => exact hf.elim
  | look k ih => exact ih w h hf
  | op o ok fail ih ihf =>
    simp only [Script.eval]
    unfold Fails at hf
    cases hhead : fs.headD none with
    | none =>
      cases ha : apply o w with
      | ok w' =>
        rw [hhead, ha] at hf
        exact ih (h.1 w' ha) hf
      | error e =>
        rw [hhead, ha] at hf
        rcases hf with hbad | hf
        · exact ((h.2 e).1 hbad).raises fs.tail
        · exact ihf e (h.2 e).2 hf
    | some e =>
      rw [hhead] at hf
      rcases hf with hbad | hf
      · exact ((h.2 e).1 hbad).raises fs.tail
      · exact ihf e (h.2 e).2 hf

theorem Dooms.get {γ : Type} {g : ω → γ} {f : γ → Script ι φ ω ε β}
    (h : (f (g w)).Dooms apply bad R w) : ((Script.get g).bind f).Dooms apply bad R w := h

/-- An operation whose failure is raised. -/
theorem Dooms.act {raised : φ → ε} {o : ι} (hbad : bad o w → ∀ e, R (raised e) w) :
    (Script.act raised o : Script ι φ ω ε Unit).Dooms apply bad R w :=
  ⟨fun _ _ => trivial, fun e => ⟨fun h => hbad h e, trivial⟩⟩

theorem Dooms.bind {f : α → Script ι φ ω ε β} (h : s.Dooms apply bad R w)
    (hf : ∀ a w, (f a).Dooms apply bad R w) : (s.bind f).Dooms apply bad R w := by
  induction s generalizing w with
  | done a => exact hf a w
  | raise e => trivial
  | look k ih => exact ih w h
  | op o ok fail ih ihf =>
    refine ⟨fun w' ha => ih (h.1 w' ha), fun e => ⟨fun hbad => ?_, ihf e (h.2 e).2⟩⟩
    exact Meets.bind (((h.2 e).1 hbad).mono (fun _ _ h => h.elim) fun _ _ h => h)

theorem Dooms.handle {h : ε → Script ι φ ω ε' α} {R' : ε' → ω → Prop}
    (hs : s.Dooms apply bad R w)
    (hR : ∀ e w, R e w → (h e).Meets apply (fun _ _ => True) (fun _ _ => False) R' w)
    (hh : ∀ e w, (h e).Dooms apply bad R' w) : (s.handle h).Dooms apply bad R' w := by
  induction s generalizing w with
  | done a => trivial
  | raise e => exact hh e w
  | look k ih => exact ih w hs
  | op o ok fail ih ihf =>
    refine ⟨fun w' ha => ih (hs.1 w' ha), fun e => ⟨fun hbad => ?_, ihf e (hs.2 e).2⟩⟩
    exact Meets.handle (((hs.2 e).1 hbad).mono (fun _ _ h => h.elim) hR)

end Dooms

end HaAddons.Script

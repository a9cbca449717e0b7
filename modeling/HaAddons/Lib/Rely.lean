import HaAddons.Lib.Script

/-!
# Programs among other parties

Between two steps of a script other parties change the world, as far as `rely` lets them. The script
may also be abandoned at any point, so that what it owes the world has to hold all the way.

* `Holds` — whatever the others do and whatever fails of what may, every operation of the script
  keeps `I`, and the script ends as the two postconditions say.
* `Holds.among` — what holds of a script is not spoiled by the others.
* `Holds.bind`, `Holds.seq`, `Holds.handle`, `Holds.act`, `Holds.get`, and `Holds.foldlM` for loops.
* `Only.holds`, `Holds.quiet` — the frame rules.
* `Holds.next` — a step keeps `I`, and what is ahead.
-/

namespace HaAddons.Script

variable {ι φ ω ε ε' α β σ κ : Type}

section Holds

variable (apply : ι → ω → Except φ ω) (may : ι → ω → Prop) (rely : ω → ω → Prop) (I : ω → Prop)

/-- Whatever the others do between its steps and whatever fails of what may, the script keeps `I`,
and ends in a value and a world with `Q`, or raises with `R`. -/
def Holds (Q : α → ω → Prop) (R : ε → ω → Prop) : Script ι φ ω ε α → ω → Prop
  | done a, w => ∀ w', rely w w' → I w' → Q a w'
  | raise e, w => ∀ w', rely w w' → I w' → R e w'
  | look k, w => ∀ w', rely w w' → I w' → (k w').Holds Q R w'
  | op o ok fail, w => ∀ w', rely w w' → I w' →
      (∀ w'', apply o w' = .ok w'' → I w'' ∧ ok.Holds Q R w'') ∧
        ∀ e, may o w' ∨ apply o w' = .error e → (fail e).Holds Q R w'

/-- What the others do, in one step or in many. -/
class Relies : Prop where
  refl : ∀ w, rely w w
  trans : ∀ {u v w}, rely u v → rely v w → rely u w

variable {apply may rely I} {Q Q' : α → ω → Prop} {R R' : ε → ω → Prop} {s : Script ι φ ω ε α}
  {w w' : ω}

theorem Holds.mono (h : s.Holds apply may rely I Q R w) (hQ : ∀ a w, I w → Q a w → Q' a w)
    (hR : ∀ e w, I w → R e w → R' e w) : s.Holds apply may rely I Q' R' w := by
  induction s generalizing w with
  | done a => exact fun w' hw hI => hQ a w' hI (h w' hw hI)
  | raise e => exact fun w' hw hI => hR e w' hI (h w' hw hI)
  | look k ih => exact fun w' hw hI => ih w' (h w' hw hI)
  | op o ok fail ih ihf =>
    intro w' hw hI
    obtain ⟨hok, hfail⟩ := h w' hw hI
    exact ⟨fun w'' ha => ⟨(hok w'' ha).1, ih (hok w'' ha).2⟩, fun e he => ihf e (hfail e he)⟩

variable [hrely : Relies rely]

/-- What holds of a script holds whatever the others do first. -/
theorem Holds.among (h : s.Holds apply may rely I Q R w) (hw : rely w w') :
    s.Holds apply may rely I Q R w' := by
  cases s with
  | done a | raise e | look k | op o ok fail =>
    exact fun v hv hI => h v (hrely.trans hw hv) hI

theorem Holds.bind {f : α → Script ι φ ω ε β} {Q : β → ω → Prop} (hI : I w)
    (h : s.Holds apply may rely I (fun a w => (f a).Holds apply may rely I Q R w) R w) :
    (s.bind f).Holds apply may rely I Q R w := by
  induction s generalizing w with
  | done a => exact h w (hrely.refl w) hI
  | raise e => exact h
  | look k ih => exact fun w' hw hI' => ih w' hI' (h w' hw hI')
  | op o ok fail ih ihf =>
    intro w' hw hI'
    obtain ⟨hok, hfail⟩ := h w' hw hI'
    exact ⟨fun w'' ha => ⟨(hok w'' ha).1, ih (hok w'' ha).1 (hok w'' ha).2⟩,
      fun e he => ihf e hI' (hfail e he)⟩

/-- One script after the other. -/
theorem Holds.seq {f : α → Script ι φ ω ε β} {Q' : β → ω → Prop} (hI : I w)
    (h : s.Holds apply may rely I Q R w)
    (hf : ∀ a w, I w → Q a w → (f a).Holds apply may rely I Q' R w) :
    (s.bind f).Holds apply may rely I Q' R w :=
  Holds.bind hI (h.mono hf fun _ _ _ h => h)

theorem Holds.handle {h : ε → Script ι φ ω ε' α} {R : ε' → ω → Prop} (hI : I w)
    (hs : s.Holds apply may rely I Q (fun e w => (h e).Holds apply may rely I Q R w) w) :
    (s.handle h).Holds apply may rely I Q R w := by
  induction s generalizing w with
  | done a => exact hs
  | raise e => exact hs w (hrely.refl w) hI
  | look k ih => exact fun w' hw hI' => ih w' hI' (hs w' hw hI')
  | op o ok fail ih ihf =>
    intro w' hw hI'
    obtain ⟨hok, hfail⟩ := hs w' hw hI'
    exact ⟨fun w'' ha => ⟨(hok w'' ha).1, ih (hok w'' ha).1 (hok w'' ha).2⟩,
      fun e he => ihf e hI' (hfail e he)⟩

omit hrely in
theorem Holds.done {a : α} (h : ∀ w', rely w w' → I w' → Q a w') :
    (Script.done a : Script ι φ ω ε α).Holds apply may rely I Q R w := h

omit hrely in
/-- A look, and what follows from what is seen. -/
theorem Holds.get {g : ω → α} {f : α → Script ι φ ω ε β} {Q : β → ω → Prop}
    (h : ∀ w', rely w w' → I w' → (f (g w')).Holds apply may rely I Q R w') :
    ((Script.get g).bind f).Holds apply may rely I Q R w := h

omit hrely in
theorem Holds.act {raised : φ → ε} {o : ι} {Q : Unit → ω → Prop}
    (hok : ∀ w' w'', rely w w' → I w' → apply o w' = .ok w'' →
      I w'' ∧ ∀ v, rely w'' v → I v → Q () v)
    (hfail : ∀ w' e, rely w w' → I w' → may o w' ∨ apply o w' = .error e →
      ∀ v, rely w' v → I v → R (raised e) v) :
    (Script.act raised o : Script ι φ ω ε Unit).Holds apply may rely I Q R w :=
  fun w' hw hI => ⟨fun w'' ha => hok w' w'' hw hI ha, fun e he => hfail w' e hw hI he⟩

/-- **Loop rule.** `P` says what holds when the elements of the list are still to be done. -/
theorem Holds.foldlM {f : σ → κ → Script ι φ ω ε σ} {P : List κ → σ → ω → Prop}
    (hstep : ∀ k ks s w, I w → P (k :: ks) s w → (f s k).Holds apply may rely I (P ks) R w)
    (hstable : ∀ s w w', P [] s w → rely w w' → I w' → P [] s w') {ks : List κ} {s : σ}
    (hI : I w) (h : P ks s w) : (ks.foldlM f s).Holds apply may rely I (P []) R w := by
  induction ks generalizing s w with
  | nil => exact fun w' hw hI' => hstable s w w' h hw hI'
  | cons k ks ih =>
    exact Holds.bind hI ((hstep k ks s w hI h).mono (fun _ _ hI' h' => ih hI' h') fun _ _ _ h' => h')

omit hrely in
/-- **Frame rule.** A script all of whose operations keep `I` keeps it among others. -/
theorem Only.holds {K : ι → Prop} (hs : s.Only K)
    (hK : ∀ o w w', K o → apply o w = .ok w' → I w → I w') :
    s.Holds apply may rely I (fun _ _ => True) (fun _ _ => True) w := by
  induction s generalizing w with
  | done a | raise e => exact fun _ _ _ => trivial
  | look k ih => exact fun w' _ _ => ih w' (hs w')
  | op o ok fail ih ihf =>
    exact fun w' _ hI => ⟨fun w'' ha => ⟨hK o w' w'' hs.1 ha hI, ih hs.2.1⟩,
      fun e _ => ihf e (hs.2.2 e)⟩

omit hrely in
/-- A script without operations leaves to the others what is stable under them. -/
theorem Holds.quiet {A : ω → Prop} (h : s.Holds apply may rely I Q R w)
    (hs : s.Only fun _ => False) (hA : ∀ w w', A w → rely w w' → A w') (hw : A w) :
    s.Holds apply may rely I (fun a w => Q a w ∧ A w) R w := by
  induction s generalizing w with
  | done a => exact fun w' hrel hI => ⟨h w' hrel hI, hA _ _ hw hrel⟩
  | raise e => exact h
  | look k ih => exact fun w' hrel hI => ih w' (h w' hrel hI) (hs w') (hA _ _ hw hrel)
  | op o ok fail => exact hs.1.elim

end Holds

/-! ## Steps -/

section Next

variable {apply : ι → ω → Except φ ω} {may : ι → ω → Bool} {rely : ω → ω → Prop} {I : ω → Prop}
  {Q : α → ω → Prop} {R : ε → ω → Prop} {s s' : Script ι φ ω ε α} {w w' : ω} [hrely : Relies rely]

/-- **A step among others.** It keeps `I`, and what is ahead. -/
theorem Holds.next {f : Option φ} (h : s.Holds apply (fun o w => may o w = true) rely I Q R w)
    (hI : I w) (hf : Permits may (w, s) f = true)
    (hn : Script.next apply (w, s) f = some (w', s')) :
    I w' ∧ s'.Holds apply (fun o w => may o w = true) rely I Q R w' := by
  cases s with
  | done a | raise e => cases hn
  | look k =>
    cases f with
    | none =>
      cases hn
      exact ⟨hI, h w (hrely.refl w) hI⟩
    | some e => cases hn
  | op o ok fail =>
    obtain ⟨hok, hfail⟩ := h w (hrely.refl w) hI
    cases f with
    | none =>
      simp only [Script.next] at hn
      split at hn
      · rename_i hw
        cases hn
        exact hok _ hw
      · rename_i e he
        cases hn
        exact ⟨hI, hfail e (.inr he)⟩
    | some e =>
      cases hn
      exact ⟨hI, hfail e (.inl hf)⟩

end Next

end HaAddons.Script

import HaAddons.Lib.Json

/-!
# Errors of the JSON decoders

A decoder fails at something within the document that does not have the kind of its target, and the
error names the kind and the target's type.

* `Faults` — the types that the errors of a decoder name. Rules: `string_faults`, `boolean_faults`,
  `slice_faults`, `stringMap_faults`, `struct_faults`.
-/

namespace HaAddons.Json

/-- A document within a document. -/
inductive Within : Json → Json → Prop where
  | refl (j : Json) : Within j j
  | elem {k j : Json} {elems : List Json} (hj : j ∈ elems) (h : Within k j) : Within k (.arr elems)
  | field {k : Json} {e : String × Json} {fields : List (String × Json)} (he : e ∈ fields)
    (h : Within k e.2) : Within k (.obj fields)

/-- The error of something within the document that is not of one of the types. -/
def Fault (types : List String) (j : Json) (err : String) : Prop :=
  ∃ k t, Within k j ∧ t ∈ types ∧ (k.mismatch t : Except String Unit) = .error err

/-- The errors of the decoder. -/
def Faults {α : Type} (types : List String) (d : Decoder α) : Prop :=
  ∀ cur j err, d cur j = .error err → Fault types j err

section Faults

variable {α β : Type} {types : List String} {d : Decoder α}

theorem faults_of_mismatch {j : Json} {t err : String} (ht : t ∈ types)
    (h : (j.mismatch t : Except String α) = .error err) : Fault types j err := by
  obtain rfl := Except.error.inj h
  exact ⟨j, t, .refl j, ht, rfl⟩

theorem foldlM_error {f : β → α → Except String β} {l : List α} {b : β} {err : String}
    (h : l.foldlM f b = .error err) : ∃ b a, a ∈ l ∧ f b a = .error err := by
  induction l generalizing b with
  | nil => cases h
  | cons a l ih =>
    rw [List.foldlM_cons] at h
    cases hstep : f b a with
    | error e =>
      rw [hstep] at h
      cases h
      exact ⟨b, a, List.mem_cons_self, hstep⟩
    | ok b' =>
      rw [hstep] at h
      obtain ⟨b, a', hmem, herr⟩ := ih h
      exact ⟨b, a', List.mem_cons_of_mem a hmem, herr⟩

theorem mapM_error {f : α → Except String β} {l : List α} {err : String}
    (h : l.mapM f = .error err) : ∃ a ∈ l, f a = .error err := by
  induction l with
  | nil => cases h
  | cons a l ih =>
    rw [List.mapM_cons] at h
    cases hstep : f a with
    | error e =>
      rw [hstep] at h
      cases h
      exact ⟨a, List.mem_cons_self, hstep⟩
    | ok b =>
      rw [hstep] at h
      cases hrest : l.mapM f with
      | error e =>
        rw [hrest] at h
        cases h
        obtain ⟨a', hmem, herr⟩ := ih hrest
        exact ⟨a', List.mem_cons_of_mem a hmem, herr⟩
      | ok bs =>
        rw [hrest] at h
        cases h

theorem string_faults (ht : "string" ∈ types) : Faults types string := by
  intro cur j err h
  cases j with
  | str s => cases h
  | null => cases h
  | bool b => exact faults_of_mismatch ht h
  | num s => exact faults_of_mismatch ht h
  | arr es => exact faults_of_mismatch ht h
  | obj fs => exact faults_of_mismatch ht h

theorem boolean_faults (ht : "bool" ∈ types) : Faults types boolean := by
  intro cur j err h
  cases j with
  | bool b => cases h
  | null => cases h
  | str s => exact faults_of_mismatch ht h
  | num s => exact faults_of_mismatch ht h
  | arr es => exact faults_of_mismatch ht h
  | obj fs => exact faults_of_mismatch ht h

theorem map_error {γ δ : Type} {r : Except String γ} {f : γ → δ} {err : String}
    (h : r.map f = .error err) : r = .error err := by
  cases r with
  | error e => cases h; rfl
  | ok a => cases h

theorem bind_error {γ δ : Type} {r : Except String γ} {f : γ → δ} {err : String}
    (h : (do return f (← r)) = Except.error err) : r = .error err := by
  cases r with
  | error e => cases h; rfl
  | ok a => cases h

theorem slice_faults {goType : String} {zero : α} (ht : "[]" ++ goType ∈ types)
    (hd : Faults types d) : Faults types (slice goType zero d) := by
  intro cur j err h
  cases j with
  | null => cases h
  | arr es =>
    obtain ⟨j, hj, herr⟩ := mapM_error (map_error h)
    obtain ⟨k, t, hk, ht, hkt⟩ := hd zero j err herr
    exact ⟨k, t, .elem hj hk, ht, hkt⟩
  | str s => exact faults_of_mismatch ht h
  | num s => exact faults_of_mismatch ht h
  | bool b => exact faults_of_mismatch ht h
  | obj fs => exact faults_of_mismatch ht h

theorem stringMap_faults {goType : String} {zero : α} (ht : "map[string]" ++ goType ∈ types)
    (hd : Faults types d) : Faults types (stringMap goType zero d) := by
  intro cur j err h
  cases j with
  | null => cases h
  | obj fs =>
    obtain ⟨b, e, he, herr⟩ := foldlM_error (map_error h)
    obtain ⟨k, t, hk, ht, hkt⟩ := hd zero e.2 err (map_error herr)
    exact ⟨k, t, .field he hk, ht, hkt⟩
  | str s => exact faults_of_mismatch ht h
  | num s => exact faults_of_mismatch ht h
  | bool b => exact faults_of_mismatch ht h
  | arr es => exact faults_of_mismatch ht h

theorem struct_faults {goType : String} {names : List String}
    {set : α → String → Json → Except String α} (ht : goType ∈ types)
    (hset : ∀ a name j err, set a name j = .error err → Fault types j err) :
    Faults types (struct goType names set) := by
  intro cur j err h
  cases j with
  | null => cases h
  | obj fs =>
    obtain ⟨a, e, he, herr⟩ := foldlM_error h
    cases hfield : matchField names e.1 with
    | none =>
      rw [hfield] at herr
      cases herr
    | some name =>
      rw [hfield] at herr
      obtain ⟨k, t, hk, ht, hkt⟩ := hset a name e.2 err herr
      exact ⟨k, t, .field he hk, ht, hkt⟩
  | str s => exact faults_of_mismatch ht h
  | num s => exact faults_of_mismatch ht h
  | bool b => exact faults_of_mismatch ht h
  | arr es => exact faults_of_mismatch ht h

end Faults

end HaAddons.Json

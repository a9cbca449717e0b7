import HaAddons.Lib.Yaml

/-!
# Flat mappings in YAML 1.1

A reader for streams of comment lines, empty lines and lines `"key": "value"`, as PyYAML reads them.
A simple key has at most 1024 characters and stays on its line, a stream holds printable characters
only, and what is quoted is a string whatever it says. Values that go on in a further line are not
read, nor is anything else YAML has.

* `Spells` — characters between quotes that are read as a given text.
* `readFlat_lines` — lines of such characters are read as the entries.
-/

namespace HaAddons

namespace Yaml

/-! ## The reader -/

/-- What follows the opening quote of a scalar on one line, up to the end of the scalar. -/
def lineScalar (s : List Char) : Option (String × List Char) := do
  let r ← quoted .v11 0 (.text []) s
  if (s.take (s.length - r.2.length)).any (isBreak .v11) then none
  else some (String.ofList r.1, r.2)

/-- The rest of the stream after this line. -/
def nextLine (s : List Char) : List Char := (s.dropWhile fun c => !isBreak .v11 c).drop 1

def flatLines : ℕ → List Char → Option (List (String × String))
  | 0, _ => none
  | _ + 1, [] => some []
  | n + 1, '#' :: s => flatLines n (nextLine s)
  | n + 1, '"' :: s => do
    let key ← lineScalar s
    match key.2 with
    | ':' :: ' ' :: '"' :: r =>
      -- The colon comes within 1024 characters of the opening quote.
      if 1 + (s.length - key.2.length) ≤ 1024 then do
        let value ← lineScalar r
        let rest ← lineEnd .v11 value.2
        let entries ← flatLines n rest
        some ((key.1, value.1) :: entries)
      else none
    | _ => none
  | n + 1, c :: s => if isBreak .v11 c then flatLines n s else none

/-- The entries of a stream, in their order. -/
def readFlat (text : List Char) : Option (List (String × String)) :=
  if text.all (admits .v11) then
    let s := normalize text
    flatLines (s.length + 1) s
  else none

/-! ## What is read back -/

/-- Characters that are read as a text when they stand between quotes. -/
structure Spells (raw : List Char) (x : String) : Prop where
  reads : ∀ s, quoted .v11 0 (.text []) (raw ++ '"' :: s) = some (x.toList, s)
  plain : ∀ c ∈ raw, admits .v11 c = true ∧ isBreak .v11 c = false ∧ c ≠ '\r'

theorem lineScalar_spells {raw : List Char} {x : String} (h : Spells raw x) (s : List Char) :
    lineScalar (raw ++ '"' :: s) = some (x, s) := by
  have hlen : (raw ++ '"' :: s).length - s.length = (raw ++ ['"']).length := by
    simp only [List.length_append, List.length_cons, List.length_nil]
    omega
  have htake : (raw ++ '"' :: s).take ((raw ++ ['"']).length) = raw ++ ['"'] := by
    have happ : raw ++ '"' :: s = (raw ++ ['"']) ++ s := by simp
    rw [happ, List.take_left]
  have hline : (raw ++ ['"']).any (isBreak .v11) = false := by
    rw [List.any_eq_false]
    intro c hc
    rcases List.mem_append.mp hc with hc | hc
    · simp [(h.plain c hc).2.1]
    · rw [List.mem_singleton.mp hc]
      decide
  rw [lineScalar, h.reads]
  show (if ((raw ++ '"' :: s).take ((raw ++ '"' :: s).length - s.length)).any _ then _ else _) = _
  rw [hlen, htake, hline, String.ofList_toList]
  rfl

/-- A line of the mapping. -/
def flatLine (e : List Char × List Char) : List Char :=
  '"' :: (e.1 ++ '"' :: ':' :: ' ' :: '"' :: (e.2 ++ ['"', '\n']))

/-- The lines of a mapping are read one by one. -/
theorem flatLines_lines {raws : List (List Char × List Char)} {es : List (String × String)}
    (h : List.Forall₂ (fun r e => Spells r.1 e.1 ∧ Spells r.2 e.2 ∧ r.1.length + 2 ≤ 1024)
      raws es) {n : ℕ} (hn : es.length < n) : flatLines n (raws.flatMap flatLine) = some es := by
  induction h generalizing n with
  | nil =>
    obtain ⟨m, rfl⟩ := Nat.exists_eq_add_of_lt hn
    simp [flatLines]
  | @cons r e raws es hr _ ih =>
    obtain ⟨hkey, hvalue, hshort⟩ := hr
    obtain ⟨m, rfl⟩ : ∃ m, n = m + 1 := ⟨n - 1, by omega⟩
    generalize htail : raws.flatMap flatLine = tail at ih
    have hline : flatLine r ++ tail =
        '"' :: (r.1 ++ '"' :: (':' :: ' ' :: '"' :: (r.2 ++ '"' :: ('\n' :: tail)))) := by
      simp [flatLine]
    have hlen : ∀ t : List Char, (r.1 ++ '"' :: t).length - t.length = r.1.length + 1 := by
      intro t
      simp only [List.length_append, List.length_cons]
      omega
    have hrest := ih (n := m) (by simpa using hn)
    rw [List.flatMap_cons, htail, hline, flatLines, lineScalar_spells hkey]
    simp only [Option.bind_eq_bind, Option.bind_some]
    rw [hlen, if_pos (by omega), lineScalar_spells hvalue]
    simp [lineEnd, isBreak, hrest]

theorem plain_flatLine {r : List Char × List Char} {e : String × String} (hkey : Spells r.1 e.1)
    (hvalue : Spells r.2 e.2) : ∀ c ∈ flatLine r, admits .v11 c = true ∧ c ≠ '\r' := by
  have hpoint : ∀ c ∈ ['"', ':', ' ', '\n'], admits .v11 c = true ∧ c ≠ '\r' := by simp [admits]
  intro c hc
  simp only [flatLine, List.mem_cons, List.mem_append, List.not_mem_nil, or_false] at hc
  rcases hc with rfl | hc | rfl | rfl | rfl | rfl | hc | rfl | rfl
  case inr.inl => exact ⟨(hkey.plain c hc).1, (hkey.plain c hc).2.2⟩
  case inr.inr.inr.inr.inr.inr.inl => exact ⟨(hvalue.plain c hc).1, (hvalue.plain c hc).2.2⟩
  all_goals exact hpoint _ (by simp)

/-- Lines are no more than their characters, which are all readable. -/
theorem plain_flatLines {raws : List (List Char × List Char)} {es : List (String × String)}
    (h : List.Forall₂ (fun r e => Spells r.1 e.1 ∧ Spells r.2 e.2 ∧ r.1.length + 2 ≤ 1024)
      raws es) :
    es.length ≤ (raws.flatMap flatLine).length ∧
      ∀ c ∈ raws.flatMap flatLine, admits .v11 c = true ∧ c ≠ '\r' := by
  induction h with
  | nil => exact ⟨Nat.le_refl 0, by simp⟩
  | cons hr _ ih =>
    rw [List.flatMap_cons]
    constructor
    · rw [List.length_append, flatLine, List.length_cons, List.length_cons]
      omega
    · intro c hc
      rcases List.mem_append.mp hc with hc | hc
      · exact plain_flatLine hr.1 hr.2.1 c hc
      · exact ih.2 c hc

/-- **A comment and the lines of a mapping.** -/
theorem readFlat_lines {comment : List Char}
    (hcomment : ∀ c ∈ comment, admits .v11 c = true ∧ isBreak .v11 c = false ∧ c ≠ '\r')
    {raws : List (List Char × List Char)} {es : List (String × String)}
    (h : List.Forall₂ (fun r e => Spells r.1 e.1 ∧ Spells r.2 e.2 ∧ r.1.length + 2 ≤ 1024)
      raws es) :
    readFlat ('#' :: (comment ++ '\n' :: raws.flatMap flatLine)) = some es := by
  obtain ⟨hle, hlines⟩ := plain_flatLines h
  have hall : ∀ c ∈ '#' :: (comment ++ '\n' :: raws.flatMap flatLine),
      admits .v11 c = true ∧ c ≠ '\r' := by
    intro c hc
    rcases List.mem_cons.mp hc with rfl | hc
    · exact ⟨rfl, by decide⟩
    rcases List.mem_append.mp hc with hc | hc
    · exact ⟨(hcomment c hc).1, (hcomment c hc).2.2⟩
    rcases List.mem_cons.mp hc with rfl | hc
    · exact ⟨rfl, by decide⟩
    · exact hlines c hc
  have hnext : nextLine (comment ++ '\n' :: raws.flatMap flatLine) = raws.flatMap flatLine := by
    have hdrop : (comment ++ '\n' :: raws.flatMap flatLine).dropWhile (fun c => !isBreak .v11 c) =
        '\n' :: raws.flatMap flatLine := by
      rw [List.dropWhile_append_of_pos fun c hc => by simp [(hcomment c hc).2.1]]
      rfl
    rw [nextLine, hdrop]
    rfl
  have hlen : es.length < (comment ++ '\n' :: raws.flatMap flatLine).length + 1 := by
    rw [List.length_append, List.length_cons]
    omega
  rw [readFlat, if_pos (List.all_eq_true.mpr fun c hc => (hall c hc).1),
    normalize_of_not_mem fun hc => (hall _ hc).2 rfl]
  show flatLines _ (nextLine _) = _
  rw [hnext]
  exact flatLines_lines h hlen

end Yaml

end HaAddons

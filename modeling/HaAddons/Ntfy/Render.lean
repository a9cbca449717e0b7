import HaAddons.Lib.Yaml
import HaAddons.Ntfy.Contract

/-!
# The two renderings of a document

`toJson` and `toYaml`, the hand-written emitter, and what readers make of the text.

* `load_toYaml` — what a reader makes of the YAML text: every string as it is after folding.
* `load_toYaml_eq_some_iff` — which documents the two versions of the language read back.
-/

namespace HaAddons.Ntfy

open Doc

def toJson (doc : Doc) : List Char := dumps 0 doc ++ ['\n']

/-! ## The emitter -/

/-- `_PLAIN_KEY_RE` with `re.match`; `$` lets a newline at the end through. -/
def plainKeyRe (text : List Char) : Bool :=
  match if text.getLast? = some '\n' then text.dropLast else text with
  | [] => false
  | c :: cs => (isAsciiLetter c || c = '_') && cs.all fun c => isAsciiLetter c || isAsciiDigit c || c = '_'

/-- `_scalar` -/
def scalar : Doc → List Char
  | .null => "null".toList
  | .bool true => "true".toList
  | .bool false => "false".toList
  | .int n => decimal n
  | .str s => quote s
  | .list _ | .dict _ => []

/-- `_key` -/
def keyText (key : String) : List Char :=
  if plainKeyRe key.toList then key.toList else quote key

/-- `_inline` -/
def inline : Doc → List Char
  | .dict _ => "\x7b\x7d".toList
  | .list _ => "[]".toList
  | d => scalar d

/-- A container with members. -/
def isFull : Doc → Bool
  | .dict (_ :: _) | .list (_ :: _) => true
  | _ => false

def pad (indent : ℕ) : List Char := List.replicate (2 * indent) ' '

/-- `str.isspace` of one character. -/
def isSpace (c : Char) : Bool :=
  (0x09 ≤ c.toNat && c.toNat ≤ 0x0D) || (0x1C ≤ c.toNat && c.toNat ≤ 0x20) ||
    (0x2000 ≤ c.toNat && c.toNat ≤ 0x200A) ||
      c.toNat ∈ [0x85, 0xA0, 0x1680, 0x2028, 0x2029, 0x202F, 0x205F, 0x3000]

def lstrip (s : List Char) : List Char := s.dropWhile isSpace

mutual

/-- `_emit`: the lines of a container at an indentation. -/
def emit (indent : ℕ) : Doc → List (List Char)
  | .dict entries => emitEntries indent entries
  | .list items => emitItems indent items
  | _ => []

def emitEntries (indent : ℕ) : List (String × Doc) → List (List Char)
  | [] => []
  | (key, item) :: entries =>
    (if isFull item then (pad indent ++ keyText key ++ [':']) :: emit (indent + 1) item
      else [pad indent ++ keyText key ++ ':' :: ' ' :: inline item]) ++ emitEntries indent entries

def emitItems (indent : ℕ) : List Doc → List (List Char)
  | [] => []
  | item :: items =>
    (if isFull item then
        match emit (indent + 1) item with
        | first :: rest => (pad indent ++ '-' :: ' ' :: lstrip first) :: rest
        | [] => []
      else [pad indent ++ '-' :: ' ' :: inline item]) ++ emitItems indent items

end

def toYaml (doc : Doc) : List Char := List.intercalate ['\n'] (emit 0 doc) ++ ['\n']

/-! ## What a reader makes of it -/

mutual

/-- A document in a container at an indentation, after it was written and read: its strings are
folded. -/
def readBackAs (v : Yaml.Version) (indent : ℕ) : Doc → Option Doc
  | .str s =>
    (Yaml.flow v (2 * indent + 1) (.text []) s.toList).map fun x => .str (String.ofList x)
  | .list items => (readItemsAs v (indent + 1) items).map .list
  | .dict entries => (readEntriesAs v (indent + 1) entries).map .dict
  | d => some d

def readItemsAs (v : Yaml.Version) (indent : ℕ) : List Doc → Option (List Doc)
  | [] => some []
  | item :: items => do
    let item ← readBackAs v indent item
    let items ← readItemsAs v indent items
    some (item :: items)

def readEntriesAs (v : Yaml.Version) (indent : ℕ) :
    List (String × Doc) → Option (List (String × Doc))
  | [] => some []
  | (key, item) :: entries => do
    let item ← readBackAs v indent item
    let entries ← readEntriesAs v indent entries
    some ((key, item) :: entries)

end

/-! ## Lines -/

def joinLines (lines : List (List Char)) : List Char := lines.flatMap (· ++ ['\n'])

theorem toYaml_eq {doc : Doc} (h : emit 0 doc ≠ []) : toYaml doc = joinLines (emit 0 doc) := by
  unfold toYaml
  generalize emit 0 doc = lines at h
  induction lines with
  | nil => exact absurd rfl h
  | cons line lines ih =>
    cases lines with
    | nil => simp [joinLines, List.intercalate]
    | cons next lines =>
      have := ih (by simp)
      simp only [List.intercalate, List.intersperse_cons_cons, List.flatten_cons, List.append_assoc,
        joinLines, List.flatMap_cons] at this ⊢
      rw [this]

theorem indentation_pad (k : ℕ) {c : Char} (hc : c ≠ ' ') (s : List Char) :
    Yaml.indentation (pad k ++ c :: s) = 2 * k := by
  have hpad : ∀ d ∈ pad k, decide (d = ' ') = true := fun d hd => by
    simp [List.eq_of_mem_replicate hd]
  unfold Yaml.indentation
  rw [List.takeWhile_append_of_pos hpad, List.takeWhile_cons_of_neg (by simpa using hc)]
  simp [pad]

theorem drop_pad (k : ℕ) (s : List Char) : (pad k ++ s).drop (2 * k) = s :=
  List.drop_left' (by simp [pad])

theorem lstrip_pad (k : ℕ) {c : Char} (hc : isSpace c = false) (s : List Char) :
    lstrip (pad k ++ c :: s) = c :: s := by
  have hpad : ∀ d ∈ pad k, isSpace d = true := fun d hd => by
    rw [List.eq_of_mem_replicate hd]
    rfl
  unfold lstrip
  rw [List.dropWhile_append_of_pos hpad, List.dropWhile_cons_of_neg (by simp [hc])]

/-! ## Keys and scalars -/

/-- A key that is written plain and read as a string in every version. -/
def PlainKey (key : String) : Prop :=
  plainKeyRe key.toList = true ∧ key.toList.all Yaml.isWordChar = true ∧
    ∀ v, Yaml.resolve v key.toList = some (.str key)

variable {v : Yaml.Version} {k n : ℕ} {s : List Char} {d : Doc}

theorem span_wordChars {w : List Char} (hw : w.all Yaml.isWordChar = true) {c : Char}
    (hc : Yaml.isWordChar c = false) (s : List Char) :
    (w ++ c :: s).takeWhile Yaml.isWordChar = w ∧ (w ++ c :: s).dropWhile Yaml.isWordChar = c :: s := by
  have hall := List.all_eq_true.mp hw
  rw [List.takeWhile_append_of_pos hall, List.dropWhile_append_of_pos hall,
    List.takeWhile_cons_of_neg (by simp [hc]), List.dropWhile_cons_of_neg (by simp [hc]),
    List.append_nil]
  exact ⟨rfl, rfl⟩

theorem key_plain {key : String} (hkey : PlainKey key) (s : List Char) :
    Yaml.key v (key.toList ++ ':' :: s) = some (key, s) := by
  obtain ⟨htake, hdrop⟩ := span_wordChars hkey.2.1 (c := ':') rfl s
  unfold Yaml.key
  rw [htake, hdrop, hkey.2.2 v]
  rfl

/-- A plain scalar that is read as a value. -/
structure PlainScalar (v : Yaml.Version) (w : List Char) (d : Doc) : Prop where
  ne_nil : w ≠ []
  word : w.all Yaml.isWordChar = true
  resolves : Yaml.resolve v w = some d
  unquoted : ∀ c ∈ w.head?, c ≠ '"' ∧ c ≠ '[' ∧ c ≠ '{'

theorem resolve_decimal (m : ℤ) : Yaml.resolve v (decimal m) = some (.int m) := by
  obtain ⟨c, t, ht, hc⟩ := exists_decimal m
  have hread := readInt_decimal m (s := []) (by simp [NoDigit])
  rw [List.append_nil] at hread
  have hnot : ∀ words : List String, ((words.filterMap fun w => w.toList.head?).all
      fun d => d ≠ '-' && !d.isDigit) = true → String.ofList (decimal m) ∉ words := by
    intro words hwords hmem
    refine not_mem_of_numeric hc hwords (List.mem_filterMap.mpr ⟨_, hmem, ?_⟩)
    rw [String.toList_ofList, ht]
    rfl
  unfold Yaml.resolve
  cases v with
  | v11 | v12 =>
    rw [if_neg (hnot _ (by decide)), if_neg (hnot _ (by decide)), if_neg (hnot _ (by decide)), hread]

theorem plainScalar_decimal (m : ℤ) : PlainScalar v (decimal m) (.int m) := by
  obtain ⟨c, t, ht, hc⟩ := exists_decimal m
  refine ⟨by simp [ht], ?_, resolve_decimal m, fun d hd => ?_⟩
  · have hdigits : ∀ c ∈ Nat.toDigits 10 m.natAbs, Yaml.isWordChar c = true := fun c hc => by
      have := Nat.isDigit_of_mem_toDigits (by decide) (by decide) hc
      simp [Yaml.isWordChar, Char.isAlphanum, this]
    rw [List.all_eq_true]
    intro c hc
    rcases List.mem_append.mp hc with hc | hc
    · split_ifs at hc
      · rw [List.mem_singleton.mp hc]
        rfl
      · cases hc
    · exact hdigits c hc
  · rw [ht] at hd
    obtain rfl : c = d := Option.some.inj hd
    have hnot : c ∉ ['"', '[', '{'] := not_mem_of_numeric hc rfl
    simpa only [List.mem_cons, List.not_mem_nil, not_or, or_false] using hnot

theorem scalar_plain {w : List Char} (hw : PlainScalar v w d) (indent : ℕ) (s : List Char) :
    Yaml.scalar v indent (w ++ '\n' :: s) = some (d, '\n' :: s) := by
  obtain ⟨htake, hdrop⟩ := span_wordChars hw.word (c := '\n') rfl s
  obtain ⟨c, t, rfl⟩ := List.exists_cons_of_ne_nil hw.ne_nil
  obtain ⟨hquote, hlist, hdict⟩ := hw.unquoted c rfl
  unfold Yaml.scalar
  split
  · rename_i heq
    exact absurd (List.cons.inj heq).1 hquote
  · rename_i heq
    exact absurd (List.cons.inj heq).1 hlist
  · rename_i heq
    exact absurd (List.cons.inj heq).1 hdict
  · dsimp only
    rw [htake, hdrop, if_neg hw.ne_nil, hw.resolves]
    rfl

theorem key_scalar {w : List Char} (hw : PlainScalar v w d) (s : List Char) :
    Yaml.key v (w ++ '\n' :: s) = none := by
  obtain ⟨htake, hdrop⟩ := span_wordChars hw.word (c := '\n') rfl s
  unfold Yaml.key
  rw [htake, hdrop]
  split
  · rename_i heq
    exact absurd (List.cons.inj heq).1 (by decide)
  · rfl

theorem key_of_not_word {c : Char} (hc : Yaml.isWordChar c = false) (s : List Char) :
    Yaml.key v (c :: s) = none := by
  have hnone : Yaml.resolve v [] = none := by cases v <;> rfl
  unfold Yaml.key
  rw [List.takeWhile_cons_of_neg (by simp [hc]), hnone]

/-- A scalar or an empty container is read back, and is not taken for a key. -/
theorem scalar_inline (hd : isFull d = false) (k : ℕ) (s : List Char) :
    Yaml.scalar v (2 * k + 1) (inline d ++ '\n' :: s) =
        (readBackAs v k d).map (fun d => (d, '\n' :: s)) ∧
      Yaml.key v (inline d ++ '\n' :: s) = none := by
  have hplain : ∀ {w : List Char}, PlainScalar v w d → readBackAs v k d = some d →
      Yaml.scalar v (2 * k + 1) (w ++ '\n' :: s) = (readBackAs v k d).map (fun d => (d, '\n' :: s)) ∧
        Yaml.key v (w ++ '\n' :: s) = none := by
    intro w hw hd
    rw [hd]
    exact ⟨scalar_plain hw _ s, key_scalar hw s⟩
  cases d with
  | null =>
    exact hplain (w := "null".toList) ⟨by decide, by decide, by cases v <;> rfl, by simp⟩ rfl
  | bool b =>
    cases b with
    | false =>
      exact hplain (w := "false".toList) ⟨by decide, by decide, by cases v <;> rfl, by simp⟩ rfl
    | true =>
      exact hplain (w := "true".toList) ⟨by decide, by decide, by cases v <;> rfl, by simp⟩ rfl
  | int m => exact hplain (plainScalar_decimal m) rfl
  | str x =>
    have htext : inline (.str x) ++ '\n' :: s =
        '"' :: (Doc.escape x.toList ++ '"' :: '\n' :: s) := by
      simp [inline, scalar, quote]
    rw [htext]
    refine ⟨?_, key_of_not_word rfl _⟩
    show (Yaml.quoted v (2 * k + 1) (.text []) _).map _ = _
    rw [Yaml.quoted_escape, readBackAs]
    cases Yaml.flow v (2 * k + 1) (.text []) x.toList <;> rfl
  | list items =>
    cases items with
    | nil => exact ⟨rfl, key_of_not_word rfl _⟩
    | cons item items => cases hd
  | dict entries =>
    cases entries with
    | nil => exact ⟨rfl, key_of_not_word rfl _⟩
    | cons e entries => cases hd

/-! ## Collections -/

/-- What a text is followed by: nothing, or a line that ends the collections at the column. -/
def Ends (column : ℕ) (s : List Char) : Prop := Yaml.ends column s = true

theorem Ends.mono {column column' : ℕ} (h : Ends column s) (hle : column ≤ column') :
    Ends column' s := by
  simp only [Ends, Yaml.ends, Bool.or_eq_true, decide_eq_true_eq] at h ⊢
  exact h.imp_right fun h => by omega

/-- The lines of a member, the first one without its indentation. -/
structure Lines (k : ℕ) (lines : List (List Char)) (text : List Char) : Prop where
  eq : ∃ first rest, lines = (pad k ++ first) :: rest ∧ text = joinLines (first :: rest)
  starts : ∃ c t, text = c :: t ∧ isSpace c = false

/-- A container with members is read back at its indentation. -/
def NodeRead (v : Yaml.Version) (k : ℕ) (d : Doc) : Prop :=
  isFull d = true → ∃ text, Lines (k + 1) (emit (k + 1) d) text ∧
    ∀ n i s, Ends (2 * (k + 1)) s → text.length ≤ n →
      Yaml.node v n (2 * (k + 1)) i (text ++ s) = (readBackAs v k d).map fun d => (d, s)

/-- The lines of one entry. -/
def entryLines (k : ℕ) (key : String) (item : Doc) : List (List Char) :=
  if isFull item then (pad k ++ keyText key ++ [':']) :: emit (k + 1) item
  else [pad k ++ keyText key ++ ':' :: ' ' :: inline item]

theorem joinLines_cons (line : List Char) (lines : List (List Char)) :
    joinLines (line :: lines) = line ++ '\n' :: joinLines lines := by
  simp [joinLines]

theorem joinLines_append (lines more : List (List Char)) :
    joinLines (lines ++ more) = joinLines lines ++ joinLines more := List.flatMap_append

theorem Lines.join {lines : List (List Char)} {text : List Char} (h : Lines k lines text) :
    joinLines lines = pad k ++ text := by
  obtain ⟨first, rest, rfl, rfl⟩ := h.eq
  rw [joinLines_cons, joinLines_cons, List.append_assoc]

theorem Lines.indentation {lines : List (List Char)} {text : List Char} (h : Lines k lines text)
    (s : List Char) : Yaml.indentation (pad k ++ text ++ s) = 2 * k := by
  obtain ⟨c, t, rfl, hc⟩ := h.starts
  have hne : c ≠ ' ' := by
    rintro rfl
    exact absurd hc (by decide)
  rw [List.append_assoc]
  exact indentation_pad k hne (t ++ s)

theorem lineEnd_newline (s : List Char) : Yaml.lineEnd v ('\n' :: s) = some s := by
  cases v <;> rfl

theorem isSpace_of_word {c : Char} (hc : Yaml.isWordChar c = true) : isSpace c = false := by
  obtain ⟨hle, hge⟩ := Yaml.wordChar_range hc
  simp [isSpace]
  omega

theorem head_of_plainKey {key : String} (hkey : PlainKey key) :
    ∃ c t, key.toList = c :: t ∧ isSpace c = false ∧ c ≠ '-' := by
  obtain ⟨hplain, hword, -⟩ := hkey
  cases hlist : key.toList with
  | nil =>
    rw [hlist] at hplain
    exact absurd hplain (by decide)
  | cons c t =>
    rw [hlist] at hplain hword
    have hall := List.all_eq_true.mp hword
    have hline : (c :: t).getLast? ≠ some '\n' := fun h =>
      absurd (hall '\n' (List.mem_of_getLast? h)) (by decide)
    refine ⟨c, t, rfl, isSpace_of_word (hall c List.mem_cons_self), ?_⟩
    rintro rfl
    rw [plainKeyRe, if_neg hline] at hplain
    cases hplain

/-- One entry is read back. -/
theorem entry_read {key : String} {item : Doc} (hkey : PlainKey key) (hitem : NodeRead v k item) :
    ∃ text, Lines k (entryLines k key item) (key.toList ++ ':' :: text) ∧
      ∀ n s, Ends (2 * k + 1) s → text.length < n →
        Yaml.entry v n (2 * k) (text ++ s) = (readBackAs v k item).map fun d => (d, s) := by
  have hstarts : ∀ text, ∃ c t, key.toList ++ ':' :: text = c :: t ∧ isSpace c = false := by
    intro text
    obtain ⟨c, t, ht, hc, -⟩ := head_of_plainKey hkey
    exact ⟨c, _, by rw [ht]; rfl, hc⟩
  cases hfull : isFull item with
  | false =>
    refine ⟨' ' :: (inline item ++ ['\n']), ⟨?_, hstarts _⟩, fun n s _ hn => ?_⟩
    · refine ⟨key.toList ++ ':' :: ' ' :: inline item, [], ?_, by simp [joinLines]⟩
      rw [entryLines, hfull, keyText, if_pos hkey.1, ← List.append_assoc]
      rfl
    · obtain ⟨n, rfl⟩ : ∃ m, n = m + 1 := ⟨n - 1, by omega⟩
      have hscalar := (scalar_inline (v := v) hfull k s).1
      rw [List.cons_append, List.append_assoc, Yaml.entry]
      show (Yaml.scalar v (2 * k + 1) (inline item ++ '\n' :: s)).bind _ = _
      rw [hscalar]
      cases readBackAs v k item with
      | none => rfl
      | some d => simp only [Option.map_some, Option.bind_some, lineEnd_newline, bind]
  | true =>
    obtain ⟨t, hlines, hread⟩ := hitem hfull
    refine ⟨'\n' :: (pad (k + 1) ++ t), ⟨?_, hstarts _⟩, fun n s hs hn => ?_⟩
    · refine ⟨key.toList ++ [':'], emit (k + 1) item, ?_, ?_⟩
      · rw [entryLines, hfull, keyText, if_pos hkey.1, List.append_assoc]
        rfl
      · rw [joinLines_cons, hlines.join, List.append_assoc]
        rfl
    · obtain ⟨n, rfl⟩ : ∃ m, n = m + 1 := ⟨n - 1, by omega⟩
      simp only [List.length_cons, List.length_append] at hn
      have hindent := hlines.indentation s
      have hnode := hread n (2 * k + 1) s (hs.mono (by omega)) (by omega)
      rw [List.cons_append, Yaml.entry]
      · show (Yaml.lineEnd v ('\n' :: (pad (k + 1) ++ t ++ s))).bind _ = _
        rw [lineEnd_newline, Option.bind_some, hindent, if_pos (by omega), List.append_assoc,
          drop_pad, hnode]
      · simp

/-- A line of a collection is not the end of it. -/
theorem not_ends {lines : List (List Char)} {text : List Char} (h : Lines k lines text)
    (s : List Char) : Yaml.ends (2 * k) (pad k ++ text ++ s) = false := by
  obtain ⟨c, t, hc, -⟩ := h.starts
  have hne : pad k ++ text ++ s ≠ [] := by simp [hc]
  unfold Yaml.ends
  rw [h.indentation s]
  simpa using hne

/-- What comes after a member, up to the end of the collection. -/
theorem ends_after {lines : List (List Char)} {text : List Char} (h : Lines k lines text)
    (s : List Char) : Ends (2 * k + 1) (pad k ++ text ++ s) := by
  unfold Ends Yaml.ends
  rw [h.indentation s]
  simp

theorem emitEntries_cons (k : ℕ) (e : String × Doc) (entries : List (String × Doc)) :
    emitEntries k (e :: entries) = entryLines k e.1 e.2 ++ emitEntries k entries := rfl

/-- The text after an entry: the other entries of the mapping, or its end. -/
theorem ends_entries {entries : List (String × Doc)} (hs : Ends (2 * k) s)
    (hentries : ∀ e ∈ entries, PlainKey e.1 ∧ NodeRead v k e.2) :
    Ends (2 * k + 1) (joinLines (emitEntries k entries) ++ s) := by
  cases entries with
  | nil => exact hs.mono (by omega)
  | cons e entries =>
    obtain ⟨hkey, hitem⟩ := hentries e List.mem_cons_self
    obtain ⟨text, hlines, -⟩ := entry_read hkey hitem
    rw [emitEntries_cons, joinLines_append, hlines.join, List.append_assoc]
    exact ends_after hlines _

/-- The entries of a mapping are read back. -/
theorem mapping_read {entries : List (String × Doc)}
    (hentries : ∀ e ∈ entries, PlainKey e.1 ∧ NodeRead v k e.2) (hs : Ends (2 * k) s)
    (hn : (joinLines (emitEntries k entries)).length < n) :
    Yaml.mapping v n (2 * k) (joinLines (emitEntries k entries) ++ s) =
      (readEntriesAs v k entries).map fun es => (es, s) := by
  induction entries generalizing n with
  | nil =>
    obtain ⟨n, rfl⟩ : ∃ m, n = m + 1 := ⟨n - 1, by omega⟩
    show Yaml.mapping v (n + 1) (2 * k) s = some ([], s)
    rw [Yaml.mapping]
    exact if_pos hs
  | cons e entries ih =>
    obtain ⟨⟨hkey, hitem⟩, hrest⟩ := List.forall_mem_cons.mp hentries
    obtain ⟨text, hlines, hread⟩ := entry_read hkey hitem
    obtain ⟨n, rfl⟩ : ∃ m, n = m + 1 := ⟨n - 1, by omega⟩
    rw [emitEntries_cons, joinLines_append, hlines.join] at hn ⊢
    simp only [List.length_append, List.length_cons] at hn
    have hafter := ends_entries hs hrest
    have hends := not_ends hlines (joinLines (emitEntries k entries) ++ s)
    have hindent := hlines.indentation (joinLines (emitEntries k entries) ++ s)
    rw [List.append_assoc _ _ s, Yaml.mapping, hends, if_neg (by simp), hindent, if_pos rfl,
      List.append_assoc, drop_pad, List.append_assoc, List.cons_append, key_plain hkey]
    simp only [bind, Option.bind_some]
    rw [hread n _ hafter (by omega), readEntriesAs]
    cases readBackAs v k e.2 with
    | none => rfl
    | some item =>
      simp only [Option.map_some, Option.bind_some, bind]
      rw [ih hrest (by omega)]
      cases readEntriesAs v k entries <;> rfl

theorem Lines.append {lines : List (List Char)} {text : List Char} (h : Lines k lines text)
    (more : List (List Char)) : Lines k (lines ++ more) (text ++ joinLines more) := by
  obtain ⟨⟨first, rest, rfl, rfl⟩, c, t, ht, hc⟩ := h
  exact ⟨⟨first, rest ++ more, rfl, (joinLines_append (first :: rest) more).symm⟩, c,
    t ++ joinLines more, by rw [ht]; rfl, hc⟩

/-- A mapping is read back at any indentation. -/
theorem node_mapping {e : String × Doc} {entries : List (String × Doc)}
    (hentries : ∀ e' ∈ e :: entries, PlainKey e'.1 ∧ NodeRead v k e'.2) :
    ∃ text, Lines k (emit k (.dict (e :: entries))) text ∧
      ∀ n i s, Ends (2 * k) s → text.length ≤ n → Yaml.node v n (2 * k) i (text ++ s) =
        ((readEntriesAs v k (e :: entries)).map .dict).map fun d => (d, s) := by
  obtain ⟨⟨hkey, hitem⟩, hrest⟩ := List.forall_mem_cons.mp hentries
  obtain ⟨text, hlines, hread⟩ := entry_read hkey hitem
  refine ⟨_, hlines.append (emitEntries k entries), fun n i s hs hn => ?_⟩
  have hpos : 0 < e.1.toList.length := by
    obtain ⟨c, t, ht, -⟩ := head_of_plainKey hkey
    rw [ht]
    exact Nat.succ_pos _
  simp only [List.length_append, List.length_cons] at hn
  obtain ⟨n, rfl⟩ : ∃ m, n = m + 1 := ⟨n - 1, by omega⟩
  have hafter := ends_entries hs hrest
  rw [List.append_assoc, List.append_assoc, List.cons_append]
  rw [Yaml.node, key_plain hkey]
  · simp only [bind]
    rw [hread n _ hafter (by omega), readEntriesAs]
    cases readBackAs v k e.2 with
    | none => rfl
    | some item =>
      simp only [Option.map_some, Option.bind_some, bind]
      rw [mapping_read hrest hs (by omega)]
      cases readEntriesAs v k entries <;> rfl
  · obtain ⟨c, t, ht, -, hc⟩ := head_of_plainKey hkey
    rw [ht]
    exact fun _ heq => hc (List.cons.inj heq).1

theorem node_dict {entries : List (String × Doc)}
    (hentries : ∀ e ∈ entries, PlainKey e.1 ∧ NodeRead v (k + 1) e.2) :
    NodeRead v k (.dict entries) := by
  intro hfull
  cases entries with
  | nil => cases hfull
  | cons e entries => exact node_mapping hentries

/-! ### Sequences -/

/-- The lines of one item. -/
def itemLines (k : ℕ) (item : Doc) : List (List Char) :=
  if isFull item then
    match emit (k + 1) item with
    | first :: rest => (pad k ++ '-' :: ' ' :: lstrip first) :: rest
    | [] => []
  else [pad k ++ '-' :: ' ' :: inline item]

theorem emitItems_cons (k : ℕ) (item : Doc) (items : List Doc) :
    emitItems k (item :: items) = itemLines k item ++ emitItems k items := rfl

/-- A scalar does not look like an item of a sequence. -/
theorem inline_ne_item (d : Doc) (s t : List Char) : inline d ++ '\n' :: s ≠ '-' :: ' ' :: t := by
  intro h
  cases d with
  | null | list items | dict entries => exact absurd (List.cons.inj h).1 (by decide)
  | bool b => cases b <;> exact absurd (List.cons.inj h).1 (by decide)
  | str x => exact absurd (List.cons.inj h).1 (by decide)
  | int m =>
    obtain ⟨c, u, hu, hc⟩ := exists_toDigits m.natAbs
    have hne : ∀ d, d.isDigit = false → c ≠ d := by
      rintro d hd rfl
      rw [hc] at hd
      cases hd
    change decimal m ++ '\n' :: s = _ at h
    unfold decimal at h
    split_ifs at h
    · rw [hu] at h
      exact hne ' ' rfl (List.cons.inj (List.cons.inj h).2).1
    · rw [hu] at h
      exact hne '-' rfl (List.cons.inj h).1

/-- The lines of a container after a dash. -/
theorem lines_item {item : Doc} {text : List Char} (hfull : isFull item = true)
    (h : Lines (k + 1) (emit (k + 1) item) text) : Lines k (itemLines k item) ('-' :: ' ' :: text) := by
  obtain ⟨⟨first, rest, heq, rfl⟩, c, t, hc, hspace⟩ := h
  obtain ⟨first', rfl⟩ : ∃ first', first = c :: first' := by
    cases first with
    | nil =>
      obtain rfl : '\n' = c := (List.cons.inj hc).1
      exact absurd hspace (by decide)
    | cons d first' => exact ⟨first', by rw [(List.cons.inj hc).1]⟩
  refine ⟨⟨'-' :: ' ' :: c :: first', rest, ?_, rfl⟩, '-', _, rfl, rfl⟩
  rw [itemLines, hfull, heq]
  show (pad k ++ '-' :: ' ' :: lstrip (pad (k + 1) ++ c :: first')) :: rest = _
  rw [lstrip_pad (k + 1) hspace]

/-- One item is read back. -/
theorem item_read {item : Doc} (hitem : NodeRead v k item) :
    ∃ text, Lines k (itemLines k item) ('-' :: ' ' :: text) ∧ text ≠ [] ∧
      ∀ n s, Ends (2 * k + 1) s → text.length ≤ n →
        Yaml.node v n (2 * k + 2) (2 * k + 1) (text ++ s) =
          (readBackAs v k item).map fun d => (d, s) := by
  cases hfull : isFull item with
  | false =>
    refine ⟨inline item ++ ['\n'], ⟨?_, '-', _, rfl, rfl⟩, by simp, fun n s _ hn => ?_⟩
    · refine ⟨'-' :: ' ' :: inline item, [], ?_, by simp [joinLines]⟩
      rw [itemLines, hfull]
      rfl
    · rw [List.length_append, List.length_singleton] at hn
      obtain ⟨n, rfl⟩ : ∃ m, n = m + 1 := ⟨n - 1, by omega⟩
      obtain ⟨hscalar, hkey⟩ := scalar_inline (v := v) hfull k s
      rw [List.append_assoc, List.singleton_append, Yaml.node, hkey]
      · show (Yaml.scalar v (2 * k + 1) (inline item ++ '\n' :: s)).bind _ = _
        rw [hscalar]
        cases readBackAs v k item with
        | none => rfl
        | some d => simp only [Option.map_some, Option.bind_some, lineEnd_newline, bind]
      · exact fun t => inline_ne_item item s t
  | true =>
    obtain ⟨text, hlines, hread⟩ := hitem hfull
    refine ⟨text, lines_item hfull hlines, ?_, fun n s hs hn => ?_⟩
    · obtain ⟨c, t, rfl, -⟩ := hlines.starts
      simp
    · exact hread n (2 * k + 1) s (hs.mono (by omega)) hn

/-- The text after an item: the other items of the sequence, or its end. -/
theorem ends_items {items : List Doc} (hs : Ends (2 * k) s) (hitems : ∀ d ∈ items, NodeRead v k d) :
    Ends (2 * k + 1) (joinLines (emitItems k items) ++ s) := by
  cases items with
  | nil => exact hs.mono (by omega)
  | cons item items =>
    obtain ⟨text, hlines, -⟩ := item_read (hitems item List.mem_cons_self)
    rw [emitItems_cons, joinLines_append, hlines.join, List.append_assoc]
    exact ends_after hlines _

/-- The items of a sequence are read back. -/
theorem sequence_read {items : List Doc} (hitems : ∀ d ∈ items, NodeRead v k d)
    (hs : Ends (2 * k) s) (hn : (joinLines (emitItems k items)).length < n) :
    Yaml.sequence v n (2 * k) (joinLines (emitItems k items) ++ s) =
      (readItemsAs v k items).map fun ds => (ds, s) := by
  induction items generalizing n with
  | nil =>
    obtain ⟨n, rfl⟩ : ∃ m, n = m + 1 := ⟨n - 1, by omega⟩
    show Yaml.sequence v (n + 1) (2 * k) s = some ([], s)
    rw [Yaml.sequence]
    exact if_pos hs
  | cons item items ih =>
    obtain ⟨hitem, hrest⟩ := List.forall_mem_cons.mp hitems
    obtain ⟨text, hlines, -, hread⟩ := item_read hitem
    obtain ⟨n, rfl⟩ : ∃ m, n = m + 1 := ⟨n - 1, by omega⟩
    rw [emitItems_cons, joinLines_append, hlines.join] at hn ⊢
    simp only [List.length_append, List.length_cons] at hn
    have hafter := ends_items hs hrest
    have hends := not_ends hlines (joinLines (emitItems k items) ++ s)
    have hindent := hlines.indentation (joinLines (emitItems k items) ++ s)
    rw [List.append_assoc _ _ s, Yaml.sequence, hends, if_neg (by simp), hindent, if_pos rfl,
      List.append_assoc, drop_pad]
    show (Yaml.node v n (2 * k + 2) (2 * k + 1) (text ++ _)).bind _ = _
    rw [hread n _ hafter (by omega), readItemsAs]
    cases readBackAs v k item with
    | none => rfl
    | some d =>
      simp only [Option.map_some, Option.bind_some, bind]
      rw [ih hrest (by omega)]
      cases readItemsAs v k items <;> rfl

theorem node_list {items : List Doc} (hitems : ∀ d ∈ items, NodeRead v (k + 1) d) :
    NodeRead v k (.list items) := by
  intro hfull
  cases items with
  | nil => cases hfull
  | cons item items =>
    obtain ⟨hitem, hrest⟩ := List.forall_mem_cons.mp hitems
    obtain ⟨text, hlines, hne, hread⟩ := item_read hitem
    refine ⟨_, hlines.append (emitItems (k + 1) items), fun n i s hs hn => ?_⟩
    have hpos : 0 < text.length := List.length_pos_of_ne_nil hne
    simp only [List.length_append, List.length_cons] at hn
    obtain ⟨n, rfl⟩ : ∃ m, n = m + 1 := ⟨n - 1, by omega⟩
    have hafter := ends_items hs hrest
    rw [List.append_assoc, List.cons_append, List.cons_append, Yaml.node,
      hread n _ hafter (by omega), readBackAs, readItemsAs]
    cases readBackAs v (k + 1) item with
    | none => rfl
    | some d =>
      simp only [Option.map_some, Option.bind_some, bind]
      rw [sequence_read hrest hs (by omega)]
      cases readItemsAs v (k + 1) items <;> rfl

/-- **Every container is read back**, with its strings folded. -/
theorem node_read (d : Doc) (hkeys : ∀ key ∈ keys d, PlainKey key) (k : ℕ) : NodeRead v k d := by
  induction d using members_induction generalizing k with
  | hnull | hbool b | hint m | hstr x => exact fun hfull => by cases hfull
  | hlist items ih =>
    refine node_list fun d hd => ih d hd (fun key hkey => hkeys key ?_) (k + 1)
    exact mem_itemKeys.mpr ⟨d, hd, hkey⟩
  | hdict entries ih =>
    refine node_dict fun e he => ⟨hkeys e.1 ?_, ih e he (fun key hkey => hkeys key ?_) (k + 1)⟩
    · exact mem_entryKeys.mpr ⟨e, he, .inl rfl⟩
    · exact mem_entryKeys.mpr ⟨e, he, .inr hkey⟩

/-! ## The characters of the text -/

/-- A character that the emitter adds. -/
def IsLayout (c : Char) : Prop := c = '\n' ∨ 0x20 ≤ c.toNat ∧ c.toNat ≤ 0x7E

instance (c : Char) : Decidable (IsLayout c) := inferInstanceAs (Decidable (_ ∨ _))

/-- The text holds the characters of the strings that JSON does not escape, and layout. -/
structure Spells (text : List Char) (strs : List String) : Prop where
  layout : ∀ c ∈ text, IsLayout c ∨ ∃ x ∈ strs, c ∈ x.toList ∧ 0x20 ≤ c.toNat
  chars : ∀ x ∈ strs, ∀ c ∈ x.toList, 0x20 ≤ c.toNat → c = ' ' ∨ c ∈ text

namespace Spells

variable {text text' : List Char} {strs strs' : List String}

theorem of_layout (h : ∀ c ∈ text, IsLayout c) : Spells text [] :=
  ⟨fun c hc => .inl (h c hc), fun _ hx => absurd hx List.not_mem_nil⟩

theorem append (h : Spells text strs) (h' : Spells text' strs') :
    Spells (text ++ text') (strs ++ strs') := by
  refine ⟨fun c hc => ?_, fun x hx c hc hle => ?_⟩
  · rcases List.mem_append.mp hc with hc | hc
    · exact (h.layout c hc).imp_right fun ⟨x, hx, hcx⟩ => ⟨x, List.mem_append_left _ hx, hcx⟩
    · exact (h'.layout c hc).imp_right fun ⟨x, hx, hcx⟩ => ⟨x, List.mem_append_right _ hx, hcx⟩
  · rcases List.mem_append.mp hx with hx | hx
    · exact (h.chars x hx c hc hle).imp_right (List.mem_append_left _)
    · exact (h'.chars x hx c hc hle).imp_right (List.mem_append_right _)

/-- Layout may stand around it. -/
theorem wrap {before after : List Char} (h : Spells text strs) (hb : ∀ c ∈ before, IsLayout c)
    (ha : ∀ c ∈ after, IsLayout c) : Spells (before ++ text ++ after) strs := by
  have := ((of_layout hb).append h).append (of_layout ha)
  rwa [List.nil_append, List.append_nil] at this

theorem drop_pad (k : ℕ) (h : Spells (pad k ++ text) strs) : Spells text strs := by
  refine ⟨fun c hc => h.layout c (List.mem_append_right _ hc), fun x hx c hc hle => ?_⟩
  rcases h.chars x hx c hc hle with hspace | hc
  · exact .inl hspace
  · rcases List.mem_append.mp hc with hc | hc
    · exact .inl (List.eq_of_mem_replicate hc)
    · exact .inr hc

end Spells

theorem isLayout_pad (k : ℕ) : ∀ c ∈ pad k, IsLayout c := by
  intro c hc
  rw [List.eq_of_mem_replicate hc]
  decide

theorem isLayout_hexDigit (n : ℕ) : IsLayout (hexDigit n) := by
  by_cases hn : n < 16
  · have hall : ∀ n < 16, IsLayout (hexDigit n) := by decide
    exact hall n hn
  · have hdefault : hexDigit n = '0' := by
      simp only [hexDigit, List.getD_eq_getElem?_getD]
      rw [List.getElem?_eq_none (by simpa using hn)]
      rfl
    rw [hdefault]
    decide

theorem isLayout_all {w : List Char} (h : (w.all fun c => decide (IsLayout c)) = true) :
    ∀ c ∈ w, IsLayout c :=
  fun c hc => of_decide_eq_true (List.all_eq_true.mp h c hc)

theorem isLayout_escapeChar (c : Char) :
    (∀ d ∈ escapeChar c, IsLayout d ∨ d = c ∧ 0x20 ≤ c.toNat) ∧
      (0x20 ≤ c.toNat → c ∈ escapeChar c) := by
  have hnamed : ∀ e, (['\\', e].all fun c => decide (IsLayout c)) = true →
      (0x20 ≤ c.toNat → c = e ∨ c = '\\') → (∀ d ∈ ['\\', e], IsLayout d ∨ d = c ∧ 0x20 ≤ c.toNat) ∧
        (0x20 ≤ c.toNat → c ∈ ['\\', e]) := by
    intro e he hc
    refine ⟨fun d hd => .inl (isLayout_all he d hd), fun hle => ?_⟩
    rcases hc hle with rfl | rfl <;> simp
  unfold escapeChar
  split_ifs with h1 h2 h3 h4 h5 h6 h7 h8
  · exact hnamed '"' (by decide) fun _ => .inl h1
  · exact hnamed '\\' (by decide) fun _ => .inl h2
  · exact hnamed 'n' (by decide) fun hle => absurd (h3 ▸ hle) (by decide)
  · exact hnamed 'r' (by decide) fun hle => absurd (h4 ▸ hle) (by decide)
  · exact hnamed 't' (by decide) fun hle => absurd (h5 ▸ hle) (by decide)
  · exact hnamed 'f' (by decide) fun hle => absurd (h6 ▸ hle) (by decide)
  · exact hnamed 'b' (by decide) fun hle => absurd (h7 ▸ hle) (by decide)
  · refine ⟨?_, fun hle => by omega⟩
    simp only [List.forall_mem_cons]
    exact ⟨.inl (by decide), .inl (by decide), .inl (by decide), .inl (by decide),
      .inl (isLayout_hexDigit _), .inl (isLayout_hexDigit _), by simp⟩
  · exact ⟨fun d hd => .inr ⟨List.mem_singleton.mp hd, by omega⟩, fun _ => List.mem_singleton_self c⟩

theorem spells_quote (x : String) : Spells (quote x) [x] := by
  refine ⟨fun c hc => ?_, fun y hy c hc hle => .inr ?_⟩
  · rw [quote, List.cons_append] at hc
    rcases List.mem_cons.mp hc with rfl | hc
    · exact .inl (by decide)
    · rcases List.mem_append.mp hc with hc | hc
      · obtain ⟨d, hd, hc⟩ := List.mem_flatMap.mp hc
        rcases (isLayout_escapeChar d).1 c hc with hlayout | ⟨rfl, hle⟩
        · exact .inl hlayout
        · exact .inr ⟨x, List.mem_singleton_self x, hd, hle⟩
      · rw [List.mem_singleton.mp hc]
        exact .inl (by decide)
  · obtain rfl := List.mem_singleton.mp hy
    refine List.mem_cons_of_mem _ (List.mem_append_left _ ?_)
    exact List.mem_flatMap.mpr ⟨c, hc, (isLayout_escapeChar c).2 hle⟩

theorem isLayout_of_word {c : Char} (hc : Yaml.isWordChar c = true) : IsLayout c := by
  obtain ⟨hle, hge⟩ := Yaml.wordChar_range hc
  exact .inr ⟨by omega, by omega⟩

theorem isLayout_plain {w : List Char} (hw : w.all Yaml.isWordChar = true) : ∀ c ∈ w, IsLayout c :=
  fun c hc => isLayout_of_word (List.all_eq_true.mp hw c hc)

theorem spells_inline {d : Doc} (hd : isFull d = false) : Spells (inline d) (strings d) := by
  cases d with
  | null => exact .of_layout (isLayout_plain (w := "null".toList) (by decide))
  | bool b =>
    cases b with
    | false => exact .of_layout (isLayout_plain (w := "false".toList) (by decide))
    | true => exact .of_layout (isLayout_plain (w := "true".toList) (by decide))
  | int m => exact .of_layout (isLayout_plain (plainScalar_decimal (v := .v12) m).word)
  | str x => exact spells_quote x
  | list items =>
    cases items with
    | nil => exact .of_layout (isLayout_all (w := ['[', ']']) (by decide))
    | cons item items => cases hd
  | dict entries =>
    cases entries with
    | nil => exact .of_layout (isLayout_all (w := ['{', '}']) (by decide))
    | cons e entries => cases hd

theorem joinLines_entryLines {key : String} (hkey : PlainKey key) (k : ℕ) (item : Doc) :
    joinLines (entryLines k key item) = if isFull item then
      pad k ++ (key.toList ++ [':', '\n']) ++ joinLines (emit (k + 1) item)
    else pad k ++ (key.toList ++ [':', ' ']) ++ inline item ++ ['\n'] := by
  unfold entryLines keyText
  rw [if_pos hkey.1]
  split_ifs
  · simp [joinLines_cons]
  · simp [joinLines]

theorem spells_entry {key : String} {item : Doc} (hkey : PlainKey key)
    (hitem : isFull item = true → Spells (joinLines (emit (k + 1) item)) (strings item)) :
    Spells (joinLines (entryLines k key item)) (strings item) := by
  have hbefore : ∀ w : List Char, (w.all fun c => decide (IsLayout c)) = true →
      ∀ c ∈ pad k ++ (key.toList ++ w), IsLayout c := by
    intro w hw c hc
    rcases List.mem_append.mp hc with hc | hc
    · exact isLayout_pad k c hc
    · rcases List.mem_append.mp hc with hc | hc
      · exact isLayout_plain hkey.2.1 c hc
      · exact isLayout_all hw c hc
  rw [joinLines_entryLines hkey]
  split_ifs with hfull
  · have := (hitem hfull).wrap (hbefore [':', '\n'] (by decide)) (fun _ hc => absurd hc List.not_mem_nil)
    rwa [List.append_nil] at this
  · exact (spells_inline (by simpa using hfull)).wrap (hbefore [':', ' '] (by decide))
      (isLayout_all (w := ['\n']) (by decide))

theorem spells_entries {entries : List (String × Doc)} (hentries : ∀ e ∈ entries, PlainKey e.1 ∧
      (isFull e.2 = true → Spells (joinLines (emit (k + 1) e.2)) (strings e.2))) :
    Spells (joinLines (emitEntries k entries)) (entryStrings entries) := by
  induction entries with
  | nil => exact .of_layout fun c hc => absurd hc List.not_mem_nil
  | cons e entries ih =>
    obtain ⟨⟨hkey, hitem⟩, hrest⟩ := List.forall_mem_cons.mp hentries
    rw [emitEntries_cons, joinLines_append]
    exact (spells_entry hkey hitem).append (ih hrest)

theorem spells_item {item : Doc} (hlines : isFull item = true →
      ∃ text, Lines (k + 1) (emit (k + 1) item) text)
    (hitem : isFull item = true → Spells (joinLines (emit (k + 1) item)) (strings item)) :
    Spells (joinLines (itemLines k item)) (strings item) := by
  have hbefore : ∀ c ∈ pad k ++ ['-', ' '], IsLayout c := by
    intro c hc
    rcases List.mem_append.mp hc with hc | hc
    · exact isLayout_pad k c hc
    · exact isLayout_all (by decide) c hc
  cases hfull : isFull item with
  | false =>
    have htext : joinLines (itemLines k item) = pad k ++ ['-', ' '] ++ inline item ++ ['\n'] := by
      simp [itemLines, hfull, joinLines]
    rw [htext]
    exact (spells_inline hfull).wrap hbefore (isLayout_all (w := ['\n']) (by decide))
  | true =>
    obtain ⟨text, htext⟩ := hlines hfull
    have hspells := hitem hfull
    rw [htext.join] at hspells
    have := (hspells.drop_pad (k + 1)).wrap hbefore (fun _ hc => absurd hc List.not_mem_nil)
    rw [(lines_item hfull htext).join]
    simpa using this

theorem spells_items {items : List Doc} (hitems : ∀ d ∈ items,
      (isFull d = true → ∃ text, Lines (k + 1) (emit (k + 1) d) text) ∧
        (isFull d = true → Spells (joinLines (emit (k + 1) d)) (strings d))) :
    Spells (joinLines (emitItems k items)) (itemStrings items) := by
  induction items with
  | nil => exact .of_layout fun c hc => absurd hc List.not_mem_nil
  | cons item items ih =>
    obtain ⟨⟨hlines, hitem⟩, hrest⟩ := List.forall_mem_cons.mp hitems
    rw [emitItems_cons, joinLines_append]
    exact (spells_item hlines hitem).append (ih hrest)

/-- The lines of the members of a container. -/
theorem spells_emit (d : Doc) (hkeys : ∀ key ∈ keys d, PlainKey key) (k : ℕ) :
    isFull d = true → Spells (joinLines (emit k d)) (strings d) := by
  induction d using members_induction generalizing k with
  | hnull | hbool b | hint m | hstr x => exact fun hfull => by cases hfull
  | hlist items ih =>
    intro _
    have hmember : ∀ d ∈ items, ∀ key ∈ keys d, PlainKey key := fun d hd key hkey =>
      hkeys key (mem_itemKeys.mpr ⟨d, hd, hkey⟩)
    refine spells_items fun d hd => ⟨fun hfull => ?_, ih d hd (hmember d hd) (k + 1)⟩
    obtain ⟨text, hlines, -⟩ := node_read (v := .v12) d (hmember d hd) k hfull
    exact ⟨text, hlines⟩
  | hdict entries ih =>
    intro _
    refine spells_entries fun e he => ⟨hkeys e.1 ?_, ih e he (fun key hkey => hkeys key ?_) (k + 1)⟩
    · exact mem_entryKeys.mpr ⟨e, he, .inl rfl⟩
    · exact mem_entryKeys.mpr ⟨e, he, .inr hkey⟩

/-! ## The whole text -/

theorem readItemsAs_eq_some_iff (items : List Doc) (k : ℕ) :
    readItemsAs v k items = some items ↔ ∀ d ∈ items, readBackAs v k d = some d := by
  induction items with
  | nil => exact iff_of_true rfl fun d hd => absurd hd List.not_mem_nil
  | cons item items ih =>
    rw [List.forall_mem_cons, ← ih, readItemsAs]
    cases readBackAs v k item <;> cases readItemsAs v k items <;> simp

theorem readEntriesAs_eq_some_iff (entries : List (String × Doc)) (k : ℕ) :
    readEntriesAs v k entries = some entries ↔ ∀ e ∈ entries, readBackAs v k e.2 = some e.2 := by
  induction entries with
  | nil => exact iff_of_true rfl fun e he => absurd he List.not_mem_nil
  | cons e entries ih =>
    obtain ⟨key, item⟩ := e
    rw [List.forall_mem_cons, ← ih, readEntriesAs]
    cases readBackAs v k item <;> cases readEntriesAs v k entries <;> simp

/-- The strings of a document after it was written and read are those written exactly where no string
has a line break. -/
theorem readBackAs_eq_some_iff (d : Doc) (k : ℕ) :
    readBackAs v k d = some d ↔ ∀ x ∈ strings d, Yaml.Unbroken v x.toList := by
  induction d using members_induction generalizing k with
  | hnull | hbool b | hint m => exact iff_of_true rfl fun x hx => absurd hx List.not_mem_nil
  | hstr x =>
    have hflow := Yaml.flow_eq_some_iff (v := v) (x := x.toList) (show 1 ≤ 2 * k + 1 by omega)
    rw [strings, List.forall_mem_singleton, ← hflow, readBackAs, Option.map_eq_some_iff]
    constructor
    · rintro ⟨y, hy, heq⟩
      rw [hy, ← str.inj heq, String.toList_ofList]
    · intro h
      exact ⟨x.toList, h, by rw [String.ofList_toList]⟩
  | hlist items ih =>
    have hitems : readBackAs v k (.list items) = some (.list items) ↔
        readItemsAs v (k + 1) items = some items := by
      rw [readBackAs]
      cases readItemsAs v (k + 1) items <;> simp
    rw [hitems, readItemsAs_eq_some_iff, strings]
    simp only [mem_itemStrings]
    constructor
    · rintro h x ⟨d, hd, hx⟩
      exact (ih d hd (k + 1)).mp (h d hd) x hx
    · exact fun h d hd => (ih d hd (k + 1)).mpr fun x hx => h x ⟨d, hd, hx⟩
  | hdict entries ih =>
    have hentries : readBackAs v k (.dict entries) = some (.dict entries) ↔
        readEntriesAs v (k + 1) entries = some entries := by
      rw [readBackAs]
      cases readEntriesAs v (k + 1) entries <;> simp
    rw [hentries, readEntriesAs_eq_some_iff, strings]
    simp only [mem_entryStrings]
    constructor
    · rintro h x ⟨e, he, hx⟩
      exact (ih e he (k + 1)).mp (h e he) x hx
    · exact fun h e he => (ih e he (k + 1)).mpr fun x hx => h x ⟨e, he, hx⟩

section Load

variable {e : String × Doc} {entries : List (String × Doc)}

theorem toYaml_dict : toYaml (.dict (e :: entries)) = joinLines (emit 0 (.dict (e :: entries))) := by
  refine toYaml_eq ?_
  show entryLines 0 e.1 e.2 ++ emitEntries 0 entries ≠ []
  unfold entryLines
  split_ifs <;> simp

theorem spells_toYaml (hkeys : ∀ key ∈ keys (.dict (e :: entries)), PlainKey key) :
    Spells (toYaml (.dict (e :: entries))) (strings (.dict (e :: entries))) := by
  rw [toYaml_dict]
  exact spells_emit _ hkeys 0 rfl

/-- **What a reader makes of the text.** -/
theorem load_toYaml (hkeys : ∀ key ∈ keys (.dict (e :: entries)), PlainKey key) :
    Yaml.load v (toYaml (.dict (e :: entries))) =
      if (toYaml (.dict (e :: entries))).all (Yaml.admits v) then
        (readEntriesAs v 0 (e :: entries)).map .dict
      else none := by
  have hmembers : ∀ e' ∈ e :: entries, PlainKey e'.1 ∧ NodeRead v 0 e'.2 := fun e' he =>
    ⟨hkeys e'.1 (mem_entryKeys.mpr ⟨e', he, .inl rfl⟩),
      node_read e'.2 (fun key hkey => hkeys key (mem_entryKeys.mpr ⟨e', he, .inr hkey⟩)) 0⟩
  obtain ⟨text, hlines, hread⟩ := node_mapping hmembers
  have hspells := spells_toYaml hkeys
  have htext : toYaml (.dict (e :: entries)) = text := by
    rw [toYaml_dict, hlines.join]
    rfl
  have hreturn : '\r' ∉ text := by
    intro hmem
    rcases hspells.layout _ (htext ▸ hmem) with h | ⟨x, -, -, h⟩
    · exact absurd h (by decide)
    · exact absurd h (by decide)
  have hnode := hread (text.length + 1) 0 [] (by simp [Ends, Yaml.ends]) (by omega)
  rw [List.append_nil] at hnode
  rw [htext]
  unfold Yaml.load
  split_ifs with hall
  · rw [Yaml.normalize_of_not_mem hreturn]
    dsimp only
    rw [hnode]
    cases readEntriesAs v 0 (e :: entries) <;> rfl
  · rfl

theorem admits_layout {c : Char} (hc : IsLayout c) : Yaml.admits v c = true := by
  rcases hc with rfl | ⟨hle, hge⟩
  · cases v <;> rfl
  · cases v <;> simp [Yaml.admits, hle, hge]

/-- The characters of the text are admitted when those of the strings are. -/
theorem all_admits_iff (hkeys : ∀ key ∈ keys (.dict (e :: entries)), PlainKey key) :
    (toYaml (.dict (e :: entries))).all (Yaml.admits v) = true ↔
      ∀ x ∈ strings (.dict (e :: entries)), ∀ c ∈ x.toList, 0x20 ≤ c.toNat →
        Yaml.admits v c = true := by
  have hspells := spells_toYaml hkeys
  rw [List.all_eq_true]
  constructor
  · intro h x hx c hc hle
    rcases hspells.chars x hx c hc hle with rfl | hmem
    · exact admits_layout (by decide)
    · exact h c hmem
  · intro h c hc
    rcases hspells.layout c hc with hlayout | ⟨x, hx, hcx, hle⟩
    · exact admits_layout hlayout
    · exact h x hx c hcx hle

/-- **Which documents are read back.** Those whose strings hold only safe characters. -/
theorem load_toYaml_eq_some_iff (hkeys : ∀ key ∈ keys (.dict (e :: entries)), PlainKey key) :
    Yaml.load v (toYaml (.dict (e :: entries))) = some (.dict (e :: entries)) ↔
      ∀ x ∈ strings (.dict (e :: entries)), ∀ c ∈ x.toList, Yaml.isSafe v c = true := by
  have hread : (readEntriesAs v 0 (e :: entries)).map Doc.dict = some (.dict (e :: entries)) ↔
      ∀ x ∈ strings (.dict (e :: entries)), Yaml.Unbroken v x.toList := by
    have hentries : (readEntriesAs v 0 (e :: entries)).map Doc.dict = some (.dict (e :: entries)) ↔
        readEntriesAs v 0 (e :: entries) = some (e :: entries) := by
      cases readEntriesAs v 0 (e :: entries) <;> simp
    rw [hentries, readEntriesAs_eq_some_iff, strings]
    simp only [readBackAs_eq_some_iff, mem_entryStrings]
    exact ⟨fun h x ⟨e', he, hx⟩ => h e' he x hx, fun h e' he x hx => h x ⟨e', he, hx⟩⟩
  rw [load_toYaml hkeys]
  simp only [Yaml.isSafe_iff]
  split_ifs with hall
  · rw [hread]
    rw [all_admits_iff hkeys] at hall
    exact ⟨fun h x hx c hc => ⟨hall x hx c hc, fun hv => h x hx hv c hc⟩,
      fun h x hx hv c hc => (h x hx c hc).2 hv⟩
  · rw [all_admits_iff hkeys] at hall
    refine iff_of_false (by simp) fun h => hall fun x hx c hc hle => (h x hx c hc).1 hle

end Load

end HaAddons.Ntfy

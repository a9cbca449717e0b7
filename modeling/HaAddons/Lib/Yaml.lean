import HaAddons.Lib.Document

/-!
# Reading YAML

A reader for block mappings with plain keys, block sequences, double-quoted and plain scalars and empty
flow collections, in the two versions of the language. In the first, three more characters end a line,
and a stream holds printable characters only; in the second, a quoted scalar may hold whatever JSON
allows. A quoted scalar that goes on in a further line has to be indented there; its line breaks are
folded. What else YAML has is not read.

* `quoted_escape` — how a JSON string is read.
* `flow_eq_some_iff` — it is read as it was written exactly where none of its characters ends a line.
-/

namespace HaAddons

namespace Yaml

inductive Version where
  | v11
  | v12
  deriving DecidableEq, Repr

/-! ## Characters -/

/-- The line breaks that JSON strings hold unescaped: next line, line separator, paragraph separator. -/
def wideBreaks : List Char := ['\u0085', '\u2028', '\u2029']

def isBreak (v : Version) (c : Char) : Bool := c = '\n' || (v = .v11 && c ∈ wideBreaks)

/-- What is kept of a line break. -/
def breakChar (c : Char) : Char := if c = '\u0085' then '\n' else c

/-- What a stream may hold: `c-printable`, or what JSON allows. -/
def admits (v : Version) (c : Char) : Bool :=
  c = '\t' || c = '\n' || c = '\r' ||
    match v with
    | .v11 => (0x20 ≤ c.toNat && c.toNat ≤ 0x7E) || c.toNat = 0x85 ||
        (0xA0 ≤ c.toNat && c.toNat ≤ 0xFFFD) || 0x10000 ≤ c.toNat
    | .v12 => 0x20 ≤ c.toNat

/-- A carriage return, with the line feed after it, is a line feed. -/
def normalize : List Char → List Char
  | '\r' :: '\n' :: s => '\n' :: normalize s
  | '\r' :: s => '\n' :: normalize s
  | c :: s => c :: normalize s
  | [] => []

theorem normalize_of_not_mem {s : List Char} (h : '\r' ∉ s) : normalize s = s := by
  induction s with
  | nil => rfl
  | cons c s ih =>
    obtain ⟨hc, hs⟩ := not_or.mp (mt List.mem_cons.mpr h)
    rw [normalize, ih hs]
    · exact fun _ heq _ => hc heq.symm
    · exact fun heq => hc heq.symm

/-! ## Double-quoted scalars -/

/-- What has been read of a scalar and is not yet part of it: white space that is dropped if the line
ends, or line breaks and the indentation after the last. -/
inductive Pending where
  | text (white : List Char)
  | line (first : Char) (more : List Char) (column : ℕ)

/-- What is pending becomes part of the scalar. A single line feed is folded into a space. -/
def Pending.flush (indent : ℕ) : Pending → Option (List Char)
  | text white => some white
  | line first more column =>
    if column < indent then none
    else if first ≠ '\n' then some (first :: more)
    else if more = [] then some [' ']
    else some more

/-- A character that stands for itself: what it adds to the scalar, and what is then pending. -/
def Pending.step (v : Version) (indent : ℕ) (p : Pending) (c : Char) :
    Option (List Char × Pending) :=
  if isBreak v c then
    match p with
    | text _ => some ([], line (breakChar c) [] 0)
    | line first more _ => some ([], line first (more ++ [breakChar c]) 0)
  else
    match p with
    | text white =>
      if c = ' ' ∨ c = '\t' then some ([], text (white ++ [c])) else some (white ++ [c], text [])
    | line first more column =>
      if c = ' ' then some ([], line first more (column + 1))
      else if c = '\t' ∧ indent ≤ column then some ([], line first more column)
      else (p.flush indent).map fun w => (w ++ [c], text [])

/-- The character that an escape of one letter names. -/
def namedEscape : Char → Option Char
  | '0' => some '\x00'
  | 'a' => some '\x07'
  | 'v' => some '\x0b'
  | 'e' => some '\x1b'
  | ' ' => some ' '
  | 'N' => some '\u0085'
  | '_' => some '\u00a0'
  | 'L' => some '\u2028'
  | 'P' => some '\u2029'
  | e => Doc.namedEscape e

/-- What follows the opening quote, up to the end of the scalar. -/
def quoted (v : Version) (indent : ℕ) : Pending → List Char → Option (List Char × List Char)
  | _, [] => none
  | p, '"' :: s => (p.flush indent).map fun w => (w, s)
  | p, '\\' :: 'x' :: a :: b :: s => do
    let w ← p.flush indent
    let ch ← Doc.hexChar [a, b]
    let r ← quoted v indent (.text []) s
    some (w ++ ch :: r.1, r.2)
  | p, '\\' :: 'u' :: a :: b :: c :: d :: s => do
    let w ← p.flush indent
    let ch ← Doc.hexChar [a, b, c, d]
    let r ← quoted v indent (.text []) s
    some (w ++ ch :: r.1, r.2)
  | p, '\\' :: e :: s => do
    let w ← p.flush indent
    let ch ← namedEscape e
    let r ← quoted v indent (.text []) s
    some (w ++ ch :: r.1, r.2)
  | p, c :: s => do
    let w ← p.step v indent c
    let r ← quoted v indent w.2 s
    some (w.1 ++ r.1, r.2)

/-! ## Plain scalars -/

def isWordChar (c : Char) : Bool := c.isAlphanum || c = '_' || c = '-' || c = '+' || c = '.'

theorem wordChar_range {c : Char} (hc : isWordChar c = true) : 0x2B ≤ c.toNat ∧ c.toNat ≤ 0x7A := by
  delta isWordChar Char.isAlphanum Char.isAlpha Char.isUpper Char.isLower Char.isDigit at hc
  simp only [Bool.or_eq_true, Bool.and_eq_true, decide_eq_true_eq, UInt32.le_iff_toNat_le, ge_iff_le,
    Char.toNat_val] at hc
  have hcodes : 'A'.toNat = 65 ∧ 'Z'.toNat = 90 ∧ 'a'.toNat = 97 ∧ 'z'.toNat = 122 ∧
      '0'.toNat = 48 ∧ '9'.toNat = 57 := by decide
  rcases hc with (((((h | h) | h) | rfl) | rfl) | rfl) | rfl
  · omega
  · omega
  · omega
  all_goals decide

/-- Words that are no strings: for null, true and false. -/
def reserved : Version → List String × List String × List String
  | .v11 => (["null", "Null", "NULL"],
      ["true", "True", "TRUE", "yes", "Yes", "YES", "on", "On", "ON", "y", "Y"],
      ["false", "False", "FALSE", "no", "No", "NO", "off", "Off", "OFF", "n", "N"])
  | .v12 => (["null", "Null", "NULL"], ["true", "True", "TRUE"], ["false", "False", "FALSE"])

/-- The value of a plain scalar. -/
def resolve (v : Version) (w : List Char) : Option Doc :=
  let word := String.ofList w
  if word ∈ (reserved v).1 then some .null
  else if word ∈ (reserved v).2.1 then some (.bool true)
  else if word ∈ (reserved v).2.2 then some (.bool false)
  else
    match Doc.readInt w with
    | some (n, []) => some (.int n)
    | some _ => none
    | none => if w.head?.any fun c => c.isAlpha || c = '_' then some (.str word) else none

/-! ## Nodes -/

def indentation (s : List Char) : ℕ := (s.takeWhile (· = ' ')).length

/-- A scalar or an empty collection, and what follows it. -/
def scalar (v : Version) (indent : ℕ) : List Char → Option (Doc × List Char)
  | '"' :: s => (quoted v indent (.text []) s).map fun r => (.str (String.ofList r.1), r.2)
  | '[' :: ']' :: s => some (.list [], s)
  | '{' :: '}' :: s => some (.dict [], s)
  | s =>
    let w := s.takeWhile isWordChar
    if w = [] then none else (resolve v w).map fun d => (d, s.dropWhile isWordChar)

/-- A plain key with its colon, and what follows it. -/
def key (v : Version) (s : List Char) : Option (String × List Char) :=
  match resolve v (s.takeWhile isWordChar), s.dropWhile isWordChar with
  | some (.str k), ':' :: r => some (k, r)
  | _, _ => none

def lineEnd (v : Version) : List Char → Option (List Char)
  | [] => some []
  | c :: s => if isBreak v c then some s else none

/-- The line is no part of a collection at this column. -/
def ends (column : ℕ) (s : List Char) : Bool := s = [] || indentation s < column

mutual

/-- A node at a column. Its scalars have to be indented when they go on in a further line. -/
def node (v : Version) : ℕ → ℕ → ℕ → List Char → Option (Doc × List Char)
  | 0, _, _, _ => none
  | n + 1, column, _, '-' :: ' ' :: s => do
    let item ← node v n (column + 2) (column + 1) s
    let items ← sequence v n column item.2
    some (.list (item.1 :: items.1), items.2)
  | n + 1, column, indent, s =>
    match key v s with
    | some k => do
      let item ← entry v n column k.2
      let entries ← mapping v n column item.2
      some (.dict ((k.1, item.1) :: entries.1), entries.2)
    | none => do
      let d ← scalar v indent s
      let s ← lineEnd v d.2
      some (d.1, s)

/-- What follows the colon of a key. -/
def entry (v : Version) : ℕ → ℕ → List Char → Option (Doc × List Char)
  | 0, _, _ => none
  | _ + 1, column, ' ' :: s => do
    let d ← scalar v (column + 1) s
    let s ← lineEnd v d.2
    some (d.1, s)
  | n + 1, column, s => do
    let s ← lineEnd v s
    if column < indentation s then node v n (indentation s) (column + 1) (s.drop (indentation s))
    else some (.null, s)

/-- The further items of a sequence. -/
def sequence (v : Version) : ℕ → ℕ → List Char → Option (List Doc × List Char)
  | 0, _, _ => none
  | n + 1, column, s =>
    if ends column s then some ([], s)
    else if indentation s = column then
      match s.drop column with
      | '-' :: ' ' :: s => do
        let item ← node v n (column + 2) (column + 1) s
        let items ← sequence v n column item.2
        some (item.1 :: items.1, items.2)
      | _ => none
    else none

/-- The further entries of a mapping. -/
def mapping (v : Version) : ℕ → ℕ → List Char → Option (List (String × Doc) × List Char)
  | 0, _, _ => none
  | n + 1, column, s =>
    if ends column s then some ([], s)
    else if indentation s = column then do
      let k ← key v (s.drop column)
      let item ← entry v n column k.2
      let entries ← mapping v n column item.2
      some ((k.1, item.1) :: entries.1, entries.2)
    else none

end

/-- The document of a stream. -/
def load (v : Version) (text : List Char) : Option Doc :=
  if text.all (admits v) then
    let s := normalize text
    match node v (s.length + 1) 0 0 s with
    | some (d, []) => some d
    | _ => none
  else none

/-! ## How a JSON string is read -/

section Flow

variable {v : Version} {indent : ℕ} {p : Pending} {c : Char} {x s : List Char}

/-- What a string is after it was written as a JSON string and read. A character that JSON escapes is
never a line break or white space. -/
def flow (v : Version) (indent : ℕ) : Pending → List Char → Option (List Char)
  | p, [] => p.flush indent
  | p, c :: x =>
    if Doc.escapeChar c = [c] then do
      let w ← p.step v indent c
      let r ← flow v indent w.2 x
      some (w.1 ++ r)
    else do
      let w ← p.flush indent
      let r ← flow v indent (.text []) x
      some (w ++ c :: r)

theorem quoted_plain (hquote : c ≠ '"') (hslash : c ≠ '\\') :
    quoted v indent p (c :: s) = (p.step v indent c).bind fun r =>
      (quoted v indent r.2 s).map fun t => (r.1 ++ t.1, t.2) := by
  rw [quoted.eq_6 v indent p c s hquote (fun _ _ _ h _ => hslash h) (fun _ _ _ _ _ h _ => hslash h)
    fun _ _ h _ => hslash h]
  cases p.step v indent c with
  | none => rfl
  | some r =>
    show (quoted v indent r.2 s).bind _ = (quoted v indent r.2 s).map _
    cases quoted v indent r.2 s <;> rfl

theorem namedEscape_of_json {e : Char} (h : Doc.namedEscape e = some c) :
    namedEscape e = some c ∧ e ≠ 'x' ∧ e ≠ 'u' := by
  unfold Doc.namedEscape at h
  split at h <;> first | cases h; done | skip
  all_goals
    obtain rfl := Option.some.inj h
    decide

/-- What an escape adds. -/
theorem quoted_named {e : Char} (he : Doc.namedEscape e = some c) :
    quoted v indent p ('\\' :: e :: s) = (p.flush indent).bind fun w =>
      (quoted v indent (.text []) s).map fun t => (w ++ c :: t.1, t.2) := by
  obtain ⟨hnamed, hx, hu⟩ := namedEscape_of_json he
  rw [quoted.eq_5 v indent p e s (fun _ _ _ h _ => hx h) (fun _ _ _ _ _ h _ => hu h), hnamed]
  cases p.flush indent with
  | none => rfl
  | some w =>
    show (quoted v indent (.text []) s).bind _ = (quoted v indent (.text []) s).map _
    cases quoted v indent (.text []) s <;> rfl

theorem quoted_coded {a b : Char} (hhex : Doc.hexChar ['0', '0', a, b] = some c) :
    quoted v indent p ('\\' :: 'u' :: '0' :: '0' :: a :: b :: s) = (p.flush indent).bind fun w =>
      (quoted v indent (.text []) s).map fun t => (w ++ c :: t.1, t.2) := by
  rw [quoted, hhex]
  cases p.flush indent with
  | none => rfl
  | some w =>
    show (quoted v indent (.text []) s).bind _ = (quoted v indent (.text []) s).map _
    cases quoted v indent (.text []) s <;> rfl

/-- **How a JSON string is read.** -/
theorem quoted_escape (v : Version) (indent : ℕ) (p : Pending) (x s : List Char) :
    quoted v indent p (Doc.escape x ++ '"' :: s) = (flow v indent p x).map fun y => (y, s) := by
  induction x generalizing p with
  | nil => simp [Doc.escape, quoted, flow]
  | cons c x ih =>
    have hcons : Doc.escape (c :: x) ++ '"' :: s = Doc.escapeChar c ++ (Doc.escape x ++ '"' :: s) := by
      simp [Doc.escape]
    have hescaped : Doc.escapeChar c ≠ [c] → (p.flush indent).bind (fun w =>
        (quoted v indent (.text []) (Doc.escape x ++ '"' :: s)).map fun t => (w ++ c :: t.1, t.2)) =
          (flow v indent p (c :: x)).map fun y => (y, s) := by
      intro hne
      rw [flow, if_neg hne, ih]
      cases p.flush indent with
      | none => rfl
      | some w =>
        show Option.map _ (Option.map _ _) = Option.map _ (Option.bind _ _)
        cases flow v indent (.text []) x <;> rfl
    rw [hcons]
    rcases Doc.escapeChar_cases c with ⟨hc, hquote, hslash, -⟩ | ⟨e, hc, he⟩ | ⟨a, b, hc, hhex⟩
    · rw [hc, List.singleton_append, quoted_plain hquote hslash, flow, if_pos hc]
      cases p.step v indent c with
      | none => rfl
      | some r =>
        show Option.map _ (quoted v indent r.2 _) = Option.map _ (Option.bind (flow v indent r.2 x) _)
        rw [ih]
        cases flow v indent r.2 x <;> rfl
    · rw [← hescaped (by rw [hc]; exact fun h => by cases h), hc, List.cons_append,
        List.singleton_append, quoted_named he]
    · rw [← hescaped (by rw [hc]; exact fun h => by cases h), hc]
      exact quoted_coded hhex

/-- No character of the text ends a line. -/
def Unbroken (v : Version) (x : List Char) : Prop := v = .v11 → ∀ c ∈ x, c ∉ wideBreaks

theorem isBreak_iff (hc : Doc.escapeChar c = [c]) : isBreak v c = true ↔ v = .v11 ∧ c ∈ wideBreaks := by
  have hne : c ≠ '\n' := by
    rintro rfl
    exact absurd hc (by decide)
  simp [isBreak, hne]

theorem escapeChar_wide (hc : c ∈ wideBreaks) : Doc.escapeChar c = [c] := by
  simp only [wideBreaks, List.mem_cons, List.not_mem_nil, or_false] at hc
  rcases hc with rfl | rfl | rfl <;> rfl

/-- A text without line breaks is read as it is. -/
theorem flow_unbroken (hx : Unbroken v x) (white : List Char) :
    flow v indent (.text white) x = some (white ++ x) := by
  induction x generalizing white with
  | nil => simp [flow, Pending.flush]
  | cons c x ih =>
    have hrest : Unbroken v x := fun hv d hd => hx hv d (List.mem_cons_of_mem c hd)
    rw [flow]
    split_ifs with hc
    · have hbreak : ¬ isBreak v c = true := by
        rw [isBreak_iff hc]
        exact fun h => hx h.1 c List.mem_cons_self h.2
      unfold Pending.step
      rw [if_neg hbreak]
      dsimp only
      split_ifs
      · show (flow v indent (.text (white ++ [c])) x).bind _ = _
        rw [ih hrest]
        simp
      · show (flow v indent (.text []) x).bind _ = _
        rw [ih hrest]
        simp
    · show (flow v indent (.text []) x).bind _ = _
      rw [ih hrest]
      simp

/-- How much of the text is pending. -/
def Pending.weight : Pending → ℕ
  | text white => white.length
  | line _ more column => 1 + more.length + column

def Pending.IsLine : Pending → Prop
  | text _ => False
  | line .. => True

theorem flush_length {w : List Char} (h : p.flush indent = some w) :
    w.length ≤ p.weight ∧ (1 ≤ indent → p.IsLine → w.length < p.weight) := by
  cases p with
  | text white =>
    obtain rfl := Option.some.inj h
    exact ⟨Nat.le_refl _, fun _ hline => hline.elim⟩
  | line first more column =>
    have hkept : w.length ≤ 1 + more.length ∧ indent ≤ column := by
      simp only [Pending.flush] at h
      split_ifs at h with hlt hfirst hmore
      · cases h
        exact ⟨by rw [List.length_cons]; omega, by omega⟩
      · cases h
        exact ⟨by simp, by omega⟩
      · cases h
        exact ⟨by omega, by omega⟩
    show w.length ≤ 1 + more.length + column ∧ (_ → _ → w.length < 1 + more.length + column)
    exact ⟨by omega, fun _ _ => by omega⟩

theorem step_length {w : List Char × Pending} (h : p.step v indent c = some w) :
    w.1.length + w.2.weight ≤ p.weight + 1 ∧ (isBreak v c = true → w.2.IsLine) ∧
      (1 ≤ indent → p.IsLine → w.2.IsLine ∨ w.1.length + w.2.weight < p.weight + 1) := by
  cases p with
  | text white =>
    simp only [Pending.step] at h
    split_ifs at h with hbreak hwhite <;> cases h
    · exact ⟨by simp [Pending.weight], fun _ => trivial, fun _ hline => hline.elim⟩
    · exact ⟨by simp [Pending.weight], fun hb => absurd hb hbreak, fun _ hline => hline.elim⟩
    · exact ⟨by simp [Pending.weight], fun hb => absurd hb hbreak, fun _ hline => hline.elim⟩
  | line first more column =>
    simp only [Pending.step] at h
    split_ifs at h with hbreak hspace htab
    · cases h
      exact ⟨by simp [Pending.weight]; omega, fun _ => trivial, fun _ _ => .inl trivial⟩
    · cases h
      exact ⟨by simp [Pending.weight]; omega, fun hb => absurd hb hbreak, fun _ _ => .inl trivial⟩
    · cases h
      exact ⟨by simp [Pending.weight], fun hb => absurd hb hbreak, fun _ _ => .inl trivial⟩
    · obtain ⟨flushed, hf, rfl⟩ := Option.map_eq_some_iff.mp h
      obtain ⟨hle, hlt⟩ := flush_length hf
      refine ⟨?_, fun hb => absurd hb hbreak, fun hindent hline => .inr ?_⟩
      · simp only [Pending.weight, List.length_append, List.length_cons, List.length_nil] at hle ⊢
        omega
      · have := hlt hindent hline
        simp only [Pending.weight, List.length_append, List.length_cons, List.length_nil] at this ⊢
        omega

/-- Reading makes nothing longer, and a text with a line break shorter. -/
theorem flow_length {y : List Char} (h : flow v indent p x = some y) :
    y.length ≤ p.weight + x.length ∧
      (1 ≤ indent → p.IsLine ∨ ¬ Unbroken v x → y.length < p.weight + x.length) := by
  induction x generalizing p y with
  | nil =>
    obtain ⟨hle, hlt⟩ := flush_length h
    refine ⟨hle, fun hindent hbroken => ?_⟩
    rcases hbroken with hline | hbroken
    · exact hlt hindent hline
    · exact absurd (fun _ d hd => absurd hd List.not_mem_nil) hbroken
  | cons c x ih =>
    rw [flow] at h
    rw [List.length_cons]
    split_ifs at h with hc
    · obtain ⟨w, hw, h⟩ := Option.bind_eq_some_iff.mp h
      obtain ⟨r, hr, h⟩ := Option.bind_eq_some_iff.mp h
      obtain rfl := Option.some.inj h
      obtain ⟨hle, hbreak, hlate⟩ := step_length hw
      obtain ⟨hrest, hless⟩ := ih hr
      rw [List.length_append]
      refine ⟨by omega, fun hindent hbroken => ?_⟩
      have hcases : (w.2.IsLine ∨ ¬ Unbroken v x) ∨ w.1.length + w.2.weight < p.weight + 1 := by
        rcases hbroken with hline | hbroken
        · exact (hlate hindent hline).imp_left .inl
        · by_cases hb : isBreak v c = true
          · exact .inl (.inl (hbreak hb))
          · refine .inl (.inr fun hx => hbroken fun hv d hd => ?_)
            rcases List.mem_cons.mp hd with rfl | hd
            · exact fun hmem => hb ((isBreak_iff hc).mpr ⟨hv, hmem⟩)
            · exact hx hv d hd
      rcases hcases with hcases | hlt
      · have := hless hindent hcases
        omega
      · omega
    · obtain ⟨w, hw, h⟩ := Option.bind_eq_some_iff.mp h
      obtain ⟨r, hr, h⟩ := Option.bind_eq_some_iff.mp h
      obtain rfl := Option.some.inj h
      obtain ⟨hle, hlate⟩ := flush_length hw
      obtain ⟨hrest, hless⟩ := ih hr
      have hzero : (Pending.text []).weight = 0 := rfl
      rw [List.length_append, List.length_cons]
      refine ⟨by omega, fun hindent hbroken => ?_⟩
      rcases hbroken with hline | hbroken
      · have := hlate hindent hline
        omega
      · have hx : ¬ Unbroken v x := by
          refine fun hx => hbroken fun hv d hd => ?_
          rcases List.mem_cons.mp hd with rfl | hd
          · exact fun hmem => hc (escapeChar_wide hmem)
          · exact hx hv d hd
        have := hless hindent (.inr hx)
        omega

/-- **What survives.** An indented string is read as it was written exactly where nothing in it ends
a line. -/
theorem flow_eq_some_iff (hindent : 1 ≤ indent) :
    flow v indent (.text []) x = some x ↔ Unbroken v x := by
  refine ⟨fun h => ?_, fun h => flow_unbroken h []⟩
  by_contra hbroken
  have hlt := (flow_length h).2 hindent (.inr hbroken)
  have hzero : (Pending.text []).weight = 0 := rfl
  omega

/-- A character that a JSON string may hold for a YAML reader: printable, and not the end of a
line. -/
def isSafe : Version → Char → Bool
  | .v11, c => !((0x7F ≤ c.toNat && c.toNat ≤ 0x9F) || c.toNat ∈ [0x2028, 0x2029, 0xFFFE, 0xFFFF])
  | .v12, _ => true

theorem isSafe_iff : isSafe v c = true ↔
    (0x20 ≤ c.toNat → admits v c = true) ∧ (v = .v11 → c ∉ wideBreaks) := by
  cases v with
  | v12 => exact iff_of_true rfl ⟨fun hle => by simp [admits, hle], fun hv => by cases hv⟩
  | v11 =>
    have hwide : c ∈ wideBreaks ↔ c.toNat = 0x85 ∨ c.toNat = 0x2028 ∨ c.toNat = 0x2029 := by
      have hcodes : ('\u0085'.toNat = 0x85 ∧ '\u2028'.toNat = 0x2028) ∧ '\u2029'.toNat = 0x2029 := by
        decide
      simp only [wideBreaks, List.mem_cons, List.not_mem_nil, or_false, ← Char.toNat_inj, hcodes]
    have hlow : c = '\t' ∨ c = '\n' ∨ c = '\r' → c.toNat < 0x20 := by
      rintro (rfl | rfl | rfl) <;> decide
    have hsafe : isSafe .v11 c = true ↔ ¬ (0x7F ≤ c.toNat ∧ c.toNat ≤ 0x9F) ∧ c.toNat ≠ 0x2028 ∧
        c.toNat ≠ 0x2029 ∧ c.toNat ≠ 0xFFFE ∧ c.toNat ≠ 0xFFFF := by
      simp [isSafe]
      omega
    have hadmits : 0x20 ≤ c.toNat → (admits .v11 c = true ↔ c.toNat ≤ 0x7E ∨ c.toNat = 0x85 ∨
        (0xA0 ≤ c.toNat ∧ c.toNat ≤ 0xFFFD) ∨ 0x10000 ≤ c.toNat) := by
      intro hle
      have hnot : ¬ (c = '\t' ∨ c = '\n' ∨ c = '\r') := fun h => absurd (hlow h) (by omega)
      simp only [not_or] at hnot
      simp [admits, hnot, hle, or_assoc]
    rw [hsafe, hwide]
    constructor
    · rintro h
      refine ⟨fun hle => (hadmits hle).mpr ?_, fun _ => ?_⟩ <;> omega
    · rintro ⟨hprint, hline⟩
      have hline := hline rfl
      by_cases hle : 0x20 ≤ c.toNat
      · have := (hadmits hle).mp (hprint hle)
        omega
      · omega

end Flow

end Yaml

end HaAddons

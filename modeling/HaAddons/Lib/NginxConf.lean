import Mathlib.Data.List.Basic
import Mathlib.Data.Nat.Notation

/-!
# Configuration files of nginx

How nginx reads a configuration: `ngx_conf_read_token`, which makes parameters of characters, and
the nesting of blocks.

* `Lex.step`, `run` — one character, and a text.
* `events`, `parse` — the events of a text, and the directives whose events they are.
* `Literal` — the texts that are read as one parameter, with themselves as the value.
* `run_items` — what is read from a text that is written in pieces.
-/

namespace HaAddons.Lib.Nginx

abbrev Text := List Char

/-! ## Characters to events -/

inductive Event where
  /-- a directive that ends with a semicolon -/
  | simple (args : List Text)
  /-- the start of a block -/
  | block (args : List Text)
  /-- the end of a block -/
  | close
  deriving DecidableEq

/-- Where the reader is. -/
inductive Mode where
  /-- `last_space` -/
  | space
  /-- `sharp_comment` -/
  | comment
  /-- in a parameter; `esc` is `quoted`, `var` is `variable` -/
  | bare (raw : Text) (esc var : Bool)
  /-- in a parameter in quotes -/
  | quoted (quote : Char) (raw : Text) (esc var : Bool)
  /-- `need_space`, after such a parameter -/
  | closed
  deriving DecidableEq

structure Lex where
  /-- the parameters so far -/
  args : List Text
  mode : Mode
  /-- bytes since `start` -/
  len : ℕ
  out : List Event
  deriving DecidableEq

/-- `NGX_CONF_BUFFER` -/
def confBuffer : ℕ := 4096

def isBlank (c : Char) : Bool := c == ' ' || c == '\t' || c == '\r' || c == '\n'

/-- What a backslash before a character stands for, where it does not stand for itself. -/
def escaped (c : Char) : Option Char :=
  if c = '"' ∨ c = '\'' ∨ c = '\\' then some c
  else if c = 't' then some '\t'
  else if c = 'r' then some '\r'
  else if c = 'n' then some '\n'
  else none

/-- The value of a parameter. -/
def unescape : Text → Text
  | [] => []
  | [c] => [c]
  | c :: d :: s =>
    if c = '\\' then
      match escaped d with
      | some e => e :: unescape s
      | none => c :: unescape (d :: s)
    else c :: unescape (d :: s)

/-- The end of a parameter. -/
def isEnd (c : Char) : Bool := isBlank c || c == ';' || c == '{'

/-- A parameter may start with it, outside quotes. -/
def startsBare (c : Char) : Bool := !isEnd c && c != '}' && c != '#' && c != '"' && c != '\''

/-- The number of bytes of a text. -/
def bytes : Text → ℕ
  | [] => 0
  | c :: s => c.utf8Size + bytes s

namespace Lex

variable (s : Lex) (c : Char)

/-- The reader starts a new directive. -/
def emit (e : Event) : Lex := ⟨[], .space, 0, s.out ++ [e]⟩

/-- A character where a parameter may start. -/
def start : Option Lex :=
  if isBlank c then some { s with mode := .space, len := 1 }
  else if c = ';' then if s.args = [] then none else some (s.emit (.simple s.args))
  else if c = '{' then if s.args = [] then none else some (s.emit (.block s.args))
  else if c = '}' then if s.args = [] then some (s.emit .close) else none
  else if c = '#' then some { s with mode := .comment, len := 1 }
  else if c = '"' ∨ c = '\'' then some { s with mode := .quoted c [] false false, len := 0 }
  else some { s with mode := .bare [c] (c = '\\') (c = '$'), len := c.utf8Size }

/-- The end of a parameter. -/
def word (raw : Text) : Lex := { s with args := s.args ++ [unescape raw] }

/-- A blank or the end of a directive, after a parameter. -/
def after : Option Lex :=
  if isBlank c then some { s with mode := .space, len := s.len + 1 }
  else if c = ';' then some (s.emit (.simple s.args))
  else if c = '{' then some (s.emit (.block s.args))
  else none

/-- One character more of the same parameter, or of the same comment. -/
def more (mode : Mode) : Lex := { s with mode := mode, len := s.len + c.utf8Size }

/-- The bytes from `start` on no longer fit into the buffer. -/
def full : Bool :=
  match s.mode with
  | .space => decide (confBuffer ≤ s.len)
  | _ => decide (confBuffer < s.len + c.utf8Size)

/-- `ngx_conf_read_token`, one character; none for an error. -/
def step : Option Lex :=
  if s.full c then none
  else match s.mode with
  | .space => s.start c
  | .comment => if c = '\n' then some { s with mode := .space, len := 1 } else some (s.more c .comment)
  | .bare raw esc var =>
    if esc then some (s.more c (.bare (raw ++ [c]) false var))
    else if c = '{' ∧ var then some (s.more c (.bare (raw ++ [c]) false true))
    else if c = '\\' then some (s.more c (.bare (raw ++ [c]) true false))
    else if c = '$' then some (s.more c (.bare (raw ++ [c]) false true))
    else if isBlank c ∨ c = ';' ∨ c = '{' then (s.word raw).after c
    else some (s.more c (.bare (raw ++ [c]) false false))
  | .quoted q raw esc var =>
    if esc then some (s.more c (.quoted q (raw ++ [c]) false var))
    else if c = '{' ∧ var then some (s.more c (.quoted q (raw ++ [c]) false true))
    else if c = '\\' then some (s.more c (.quoted q (raw ++ [c]) true false))
    else if c = '$' then some (s.more c (.quoted q (raw ++ [c]) false true))
    else if c = q then some ((s.word raw).more c .closed)
    else some (s.more c (.quoted q (raw ++ [c]) false false))
  | .closed => if c = ')' then s.start c else s.after c

def init : Lex := ⟨[], .space, 0, []⟩

end Lex

def run (s : Lex) (t : Text) : Option Lex := t.foldlM Lex.step s

/-- The events of a whole file. -/
def events (t : Text) : Option (List Event) :=
  (run .init t).bind fun s =>
    if s.args = [] ∧ (s.mode = .space ∨ s.mode = .comment) then some s.out else none

/-! ## Events to directives -/

inductive Directive where
  | simple (args : List Text)
  | block (args : List Text) (body : List Directive)

mutual

/-- The events of a directive. -/
def Directive.events : Directive → List Event
  | .simple args => [.simple args]
  | .block args body => .block args :: (eventsOf body ++ [.close])

def eventsOf : List Directive → List Event
  | [] => []
  | d :: ds => d.events ++ eventsOf ds

end

/-- `ngx_conf_parse`; `stack` has the blocks that are open, each with what is before it. -/
def build (stack : List (List Directive × List Text)) (cur : List Directive) :
    List Event → Option (List Directive)
  | [] => if stack.isEmpty then some cur else none
  | .simple args :: es => build stack (cur ++ [.simple args]) es
  | .block args :: es => build ((cur, args) :: stack) [] es
  | .close :: es =>
    match stack with
    | [] => none
    | (outer, args) :: stack => build stack (outer ++ [.block args cur]) es

/-- The directives of a file. -/
def parse (t : Text) : Option (List Directive) := (events t).bind (build [] [])

theorem eventsOf_append (ds ks : List Directive) :
    eventsOf (ds ++ ks) = eventsOf ds ++ eventsOf ks := by
  induction ds with
  | nil => rw [List.nil_append, eventsOf, List.nil_append]
  | cons d ds ih => rw [List.cons_append, eventsOf, eventsOf, ih, List.append_assoc]

theorem eventsOf_flatMap {α : Type} (f : α → List Directive) (as : List α) :
    eventsOf (as.flatMap f) = as.flatMap fun a => eventsOf (f a) := by
  induction as with
  | nil => rfl
  | cons a as ih => rw [List.flatMap_cons, eventsOf_append, ih, List.flatMap_cons]

mutual

theorem build_directive (d : Directive) (stack : List (List Directive × List Text))
    (cur : List Directive) (es : List Event) :
    build stack cur (d.events ++ es) = build stack (cur ++ [d]) es := by
  cases d with
  | simple args => rw [Directive.events, List.singleton_append, build]
  | block args body =>
    rw [Directive.events, List.cons_append, build, List.append_assoc, build_eventsOf body,
      List.singleton_append, build, List.nil_append]

theorem build_eventsOf (ds : List Directive) (stack : List (List Directive × List Text))
    (cur : List Directive) (es : List Event) :
    build stack cur (eventsOf ds ++ es) = build stack (cur ++ ds) es := by
  cases ds with
  | nil => rw [eventsOf, List.nil_append, List.append_nil]
  | cons d ds =>
    rw [eventsOf, List.append_assoc, build_directive d, build_eventsOf ds, List.append_assoc,
      List.singleton_append]

end

/-! ## Runs -/

@[simp] theorem run_nil (s : Lex) : run s [] = some s := rfl

theorem run_cons (s : Lex) (c : Char) (t : Text) :
    run s (c :: t) = (s.step c).bind fun s' => run s' t := rfl

theorem run_append (s : Lex) (t u : Text) :
    run s (t ++ u) = (run s t).bind fun s' => run s' u := List.foldlM_append

/-! ## Parameters that stand for themselves -/

/-- No character ends the parameter, and no backslash changes the one after it. -/
def isBare : Text → Bool
  | [] => true
  | [c] => c ≠ '\\' && !isEnd c
  | c :: d :: s =>
    if c = '\\' then (escaped d).isNone && isBare s else !isEnd c && isBare (d :: s)

/-- A text that is read as one parameter, with itself as the value. -/
structure Literal (t : Text) : Prop where
  first : t.head?.any startsBare = true
  bare : isBare t = true

instance decidableLiteral (t : Text) : Decidable (Literal t) :=
  decidable_of_iff (t.head?.any startsBare = true ∧ isBare t = true)
    ⟨fun h => ⟨h.1, h.2⟩, fun h => ⟨h.first, h.bare⟩⟩

section Literals

variable {s : Lex} {c : Char} {t u : Text} {args : List Text} {out : List Event}

theorem unescape_cons_of_ne (hc : c ≠ '\\') (t : Text) : unescape (c :: t) = c :: unescape t := by
  cases t with
  | nil => rfl
  | cons d t => rw [unescape, if_neg hc]

theorem unescape_of_isBare (h : isBare t = true) : unescape t = t := by
  induction t using isBare.induct with
  | case1 => rfl
  | case2 c => rfl
  | case3 d s ih =>
    rw [isBare, if_pos rfl, Bool.and_eq_true, Option.isNone_iff_eq_none] at h
    have hd : d ≠ '\\' := by
      rintro rfl
      exact absurd h.1 (by decide)
    rw [unescape, if_pos rfl, h.1]
    simp only
    rw [unescape_cons_of_ne hd, ih h.2]
  | case4 c d s hc ih =>
    rw [isBare, if_neg hc, Bool.and_eq_true] at h
    rw [unescape_cons_of_ne hc, ih h.2]

theorem unescape_of_not_mem (h : '\\' ∉ t) : unescape t = t := by
  induction t with
  | nil => rfl
  | cons c t ih =>
    rw [List.mem_cons, not_or] at h
    rw [unescape_cons_of_ne (Ne.symm h.1), ih h.2]

theorem bytes_append (t u : Text) : bytes (t ++ u) = bytes t + bytes u := by
  induction t with
  | nil => simp [bytes]
  | cons c t ih => simp [bytes, ih, Nat.add_assoc]

/-- A character that neither ends a parameter nor changes the next one. -/
def isPlain (c : Char) : Bool := c != '\\' && !isEnd c

theorem isPlain_iff : isPlain c = true ↔ c ≠ '\\' ∧ isEnd c = false := by
  rw [isPlain, Bool.and_eq_true, bne_iff_ne, Bool.not_eq_true']

theorem isBare_of_plain (h : ∀ c ∈ t, isPlain c = true) : isBare t = true := by
  induction t using isBare.induct with
  | case1 => rfl
  | case2 c =>
    obtain ⟨hc, he⟩ := isPlain_iff.mp (h c (by simp))
    simp [isBare, hc, he]
  | case3 d s ih => exact absurd rfl (isPlain_iff.mp (h '\\' (by simp))).1
  | case4 c d s hc ih =>
    rw [isBare, if_neg hc, (isPlain_iff.mp (h c (by simp))).2,
      ih fun c hm => h c (List.mem_cons_of_mem _ hm)]
    rfl

/-- Plain characters make a literal, if a parameter can start with the first one. -/
theorem literal_of_plain (hc : startsBare c = true) (h : ∀ d ∈ c :: t, isPlain d = true) :
    Literal (c :: t) :=
  ⟨by simpa using hc, isBare_of_plain h⟩

theorem not_isEnd (h : isEnd c = false) : isBlank c = false ∧ c ≠ ';' ∧ c ≠ '{' := by
  simpa [isEnd, and_assoc] using h

/-- A character that goes on with a parameter. -/
theorem step_bare (args : List Text) (out : List Event) (raw : Text) (var : Bool) {l : ℕ} 
    (hc : c ≠ '\\') (he : isEnd c = false) (hl : l + c.utf8Size ≤ confBuffer) :
    ∃ var', Lex.step ⟨args, .bare raw false var, l, out⟩ c =
      some ⟨args, .bare (raw ++ [c]) false var', l + c.utf8Size, out⟩ := by
  obtain ⟨hblank, hsemicolon, hbrace⟩ := not_isEnd he
  have hfull : ¬confBuffer < l + c.utf8Size := by omega
  by_cases hv : c = '$'
  · subst hv
    exact ⟨true, by simp [Lex.step, Lex.full, hfull, Lex.more]⟩
  · exact ⟨false, by simp [Lex.step, Lex.full, hfull, hc, hv, hblank, hsemicolon, hbrace, Lex.more]⟩

theorem step_backslash {raw : Text} {var : Bool} {l : ℕ} (hl : l + 1 ≤ confBuffer) :
    Lex.step ⟨args, .bare raw false var, l, out⟩ '\\' =
      some ⟨args, .bare (raw ++ ['\\']) true false, l + 1, out⟩ := by
  have hsize : Char.utf8Size '\\' = 1 := by decide
  have hfull : ¬confBuffer < l + 1 := by omega
  simp [Lex.step, Lex.full, hsize, hfull, Lex.more]

theorem step_escaped {raw : Text} {var : Bool} {l : ℕ} (hl : l + c.utf8Size ≤ confBuffer) :
    Lex.step ⟨args, .bare raw true var, l, out⟩ c =
      some ⟨args, .bare (raw ++ [c]) false var, l + c.utf8Size, out⟩ := by
  have hfull : ¬confBuffer < l + c.utf8Size := by omega
  simp [Lex.step, Lex.full, hfull, Lex.more]

/-- The rest of a parameter. -/
theorem run_bare (args : List Text) (out : List Event) (raw : Text) (var : Bool) {l : ℕ}
    (h : isBare t = true) (hl : l + bytes t ≤ confBuffer) :
    ∃ var', run ⟨args, .bare raw false var, l, out⟩ t =
      some ⟨args, .bare (raw ++ t) false var', l + bytes t, out⟩ := by
  induction t using isBare.induct generalizing raw l var with
  | case1 => exact ⟨var, by simp [bytes]⟩
  | case2 c =>
    simp only [isBare, Bool.and_eq_true, decide_eq_true_eq, Bool.not_eq_true'] at h
    simp only [bytes, Nat.add_zero] at hl ⊢
    obtain ⟨var', hstep⟩ := step_bare args out raw var h.1 h.2 hl
    exact ⟨var', by rw [run_cons, hstep, Option.bind_some, run_nil]⟩
  | case3 d s ih =>
    rw [isBare, if_pos rfl, Bool.and_eq_true] at h
    have hsize : Char.utf8Size '\\' = 1 := by decide
    simp only [bytes, hsize] at hl ⊢
    obtain ⟨var', hrun⟩ := ih _ _ h.2 (by omega : l + 1 + d.utf8Size + bytes s ≤ confBuffer)
    refine ⟨var', ?_⟩
    rw [run_cons, step_backslash (by omega), Option.bind_some, run_cons, step_escaped (by omega),
      Option.bind_some, hrun]
    simp [Nat.add_assoc]
  | case4 c d s hc ih =>
    rw [isBare, if_neg hc, Bool.and_eq_true, Bool.not_eq_true'] at h
    rw [bytes] at hl ⊢
    obtain ⟨var₁, hstep⟩ := step_bare args out raw var hc h.1 (by omega : l + c.utf8Size ≤ confBuffer)
    obtain ⟨var', hrun⟩ := ih (raw ++ [c]) var₁ h.2 (by omega : l + c.utf8Size + bytes (d :: s) ≤ confBuffer)
    refine ⟨var', ?_⟩
    rw [run_cons, hstep, Option.bind_some, hrun]
    simp [Nat.add_assoc]

/-- A parameter starts as if it went on. -/
theorem step_first (hc : startsBare c = true) {l : ℕ} (hl : l < confBuffer) :
    Lex.step ⟨args, .space, l, out⟩ c = Lex.step ⟨args, .bare [] false false, 0, out⟩ c := by
  simp only [startsBare, Bool.and_eq_true, Bool.not_eq_true', bne_iff_ne] at hc
  obtain ⟨⟨⟨⟨he, hclose⟩, hcomment⟩, hdouble⟩, hsingle⟩ := hc
  obtain ⟨hblank, hsemicolon, hbrace⟩ := not_isEnd he
  have hfull : ¬confBuffer ≤ l := by omega
  have hsize : ¬confBuffer < c.utf8Size := by
    have := c.utf8Size_le_four
    unfold confBuffer
    omega
  by_cases hb : c = '\\'
  · subst hb
    simp [Lex.step, Lex.full, Lex.start, Lex.more, hfull, hsize, hblank]
  · by_cases hv : c = '$'
    · subst hv
      simp [Lex.step, Lex.full, Lex.start, Lex.more, hfull, hsize, hblank]
    · simp [Lex.step, Lex.full, Lex.start, Lex.more, hfull, hsize, hblank, hsemicolon, hbrace,
        hclose, hcomment, hdouble, hsingle, hb, hv]

/-- A literal is read as one parameter. -/
theorem run_literal (args : List Text) (out : List Event) (h : Literal t) {l : ℕ} (hl : l < confBuffer) (hb : bytes t ≤ confBuffer) :
    ∃ var, run ⟨args, .space, l, out⟩ t = some ⟨args, .bare t false var, bytes t, out⟩ := by
  cases t with
  | nil => exact absurd h.first (by simp)
  | cons c t =>
    have hc : startsBare c = true := by simpa using h.first
    obtain ⟨var, hrun⟩ := run_bare args out [] false h.bare
      (by omega : 0 + bytes (c :: t) ≤ confBuffer)
    refine ⟨var, ?_⟩
    rw [run_cons, step_first hc hl, ← run_cons, hrun]
    simp

end Literals

/-! ## Texts in pieces -/

/-- A piece of a configuration. -/
inductive Item where
  | blank (c : Char)
  /-- a comment, up to the end of its line -/
  | comment (t : Text)
  /-- a parameter and the blank after it -/
  | word (w : Text) (c : Char)
  /-- a parameter in double quotes and the blank after it -/
  | quoted (w : Text) (c : Char)
  /-- the last parameter of a directive, and the semicolon -/
  | last (w : Text)
  | opens
  | closes

/-- What the reader has where a parameter may start. -/
structure Front where
  args : List Text
  out : List Event

namespace Item

def text : Item → Text
  | blank c => [c]
  | comment t => '#' :: t ++ ['\n']
  | word w c => w ++ [c]
  | quoted w c => '"' :: w ++ ['"', c]
  | last w => w ++ [';']
  | opens => ['{']
  | closes => ['}']

/-- A character that stands for itself in double quotes. -/
def inQuotes (c : Char) : Bool := c != '"' && c != '\\' && c != '$'

/-- The piece is read as it is meant. -/
def Fits : Item → Prop
  | blank c => isBlank c = true
  | comment t => '\n' ∉ t ∧ bytes t + 1 < confBuffer
  | word w c => Literal w ∧ bytes w + 1 < confBuffer ∧ isBlank c = true
  | quoted w c => w.all inQuotes = true ∧ bytes w + 3 < confBuffer ∧ isBlank c = true
  | last w => Literal w ∧ bytes w < confBuffer
  | opens | closes => True

instance decidableFits : (i : Item) → Decidable i.Fits
  | blank c => inferInstanceAs (Decidable (isBlank c = true))
  | comment t => inferInstanceAs (Decidable ('\n' ∉ t ∧ bytes t + 1 < confBuffer))
  | word w c =>
    inferInstanceAs (Decidable (Literal w ∧ bytes w + 1 < confBuffer ∧ isBlank c = true))
  | quoted w c =>
    inferInstanceAs
      (Decidable (w.all inQuotes = true ∧ bytes w + 3 < confBuffer ∧ isBlank c = true))
  | last w => inferInstanceAs (Decidable (Literal w ∧ bytes w < confBuffer))
  | opens | closes => .isTrue trivial

/-- What the reader has after the piece. -/
def read (f : Front) : Item → Option Front
  | blank _ | comment _ => some f
  | word w _ | quoted w _ => some { f with args := f.args ++ [w] }
  | last w => some ⟨[], f.out ++ [.simple (f.args ++ [w])]⟩
  | opens => if f.args.isEmpty then none else some ⟨[], f.out ++ [.block f.args]⟩
  | closes => if f.args.isEmpty then some ⟨[], f.out ++ [.close]⟩ else none

end Item

/-- The reader is where a parameter may start. -/
structure Lex.At (s : Lex) (f : Front) : Prop where
  mode : s.mode = .space
  args : s.args = f.args
  out : s.out = f.out
  len : s.len < confBuffer

section Items

variable {s : Lex} {f f' : Front} {c : Char} {t w : Text} {args : List Text} {out : List Event}

theorem Lex.At.eq (h : s.At f) : s = ⟨f.args, .space, s.len, f.out⟩ := by
  obtain ⟨args, mode, len, out⟩ := s
  obtain ⟨rfl, rfl, rfl, -⟩ := h
  rfl

theorem blank_facts (hc : isBlank c = true) :
    c ≠ '\\' ∧ c ≠ '$' ∧ c ≠ '{' ∧ c ≠ '"' ∧ c ≠ ';' ∧ c ≠ ')' ∧ c.utf8Size = 1 := by
  simp only [isBlank, Bool.or_eq_true, beq_iff_eq] at hc
  rcases hc with ((rfl | rfl) | rfl) | rfl <;> decide

theorem step_blank (hc : isBlank c = true) {l : ℕ} (hl : l < confBuffer) :
    Lex.step ⟨args, .space, l, out⟩ c = some ⟨args, .space, 1, out⟩ := by
  have hfull : ¬confBuffer ≤ l := by omega
  simp [Lex.step, Lex.full, Lex.start, hfull, hc]

theorem run_comment (ht : '\n' ∉ t) {l : ℕ} (hl : l + bytes t < confBuffer) :
    run ⟨args, .comment, l, out⟩ (t ++ ['\n']) = some ⟨args, .space, 1, out⟩ := by
  induction t generalizing l with
  | nil =>
    have hsize : Char.utf8Size '\n' = 1 := by decide
    have hfull : ¬confBuffer < l + 1 := by
      rw [bytes] at hl
      omega
    simp [run_cons, Lex.step, Lex.full, hsize, hfull]
  | cons c t ih =>
    rw [List.mem_cons, not_or] at ht
    rw [bytes] at hl
    have hfull : ¬confBuffer < l + c.utf8Size := by omega
    have hstep : Lex.step ⟨args, .comment, l, out⟩ c =
        some ⟨args, .comment, l + c.utf8Size, out⟩ := by
      simp [Lex.step, Lex.full, hfull, Ne.symm ht.1, Lex.more]
    rw [List.cons_append, run_cons, hstep, Option.bind_some, ih ht.2 (by omega)]

/-- What is between the quotes. -/
theorem run_quoted (args : List Text) (out : List Event) (raw : Text) {l : ℕ}
    (h : t.all Item.inQuotes = true)
    (hl : l + bytes t ≤ confBuffer) :
    run ⟨args, .quoted '"' raw false false, l, out⟩ t =
      some ⟨args, .quoted '"' (raw ++ t) false false, l + bytes t, out⟩ := by
  induction t generalizing raw l with
  | nil => simp [bytes]
  | cons c t ih =>
    rw [bytes] at hl ⊢
    rw [List.all_cons, Bool.and_eq_true] at h
    obtain ⟨hc, ht⟩ := h
    simp only [Item.inQuotes, Bool.and_eq_true, bne_iff_ne] at hc
    obtain ⟨⟨hquote, hb⟩, hv⟩ := hc
    have hfull : ¬confBuffer < l + c.utf8Size := by omega
    have hstep : Lex.step ⟨args, .quoted '"' raw false false, l, out⟩ c =
        some ⟨args, .quoted '"' (raw ++ [c]) false false, l + c.utf8Size, out⟩ := by
      simp [Lex.step, Lex.full, hfull, hquote, hb, hv, Lex.more]
    rw [run_cons, hstep, Option.bind_some, ih _ ht (by omega)]
    simp [Nat.add_assoc]

/-- A parameter and what ends it. -/
theorem run_word (h : Literal w) {l : ℕ} (hl : l < confBuffer) (hb : bytes w < confBuffer)
    (hc : isBlank c = true ∨ c = ';') :
    run ⟨args, .space, l, out⟩ (w ++ [c]) =
      Lex.after ⟨args ++ [w], .bare w false false, bytes w, out⟩ c := by
  obtain ⟨var, hrun⟩ := run_literal args out h hl (Nat.le_of_lt hb)
  have hsize : c.utf8Size = 1 := by
    rcases hc with hc | rfl
    · exact (blank_facts hc).2.2.2.2.2.2
    · decide
  have hne : c ≠ '\\' ∧ c ≠ '$' ∧ c ≠ '{' := by
    rcases hc with hc | rfl
    · exact ⟨(blank_facts hc).1, (blank_facts hc).2.1, (blank_facts hc).2.2.1⟩
    · decide
  have hfull : ¬confBuffer < bytes w + 1 := by omega
  rw [run_append, hrun, Option.bind_some, run_cons]
  simp [Lex.step, Lex.full, hsize, hfull, hne, hc, Lex.word, unescape_of_isBare h.bare, Lex.after,
    Lex.emit]

/-- **A piece** leads the reader to the next one. -/
theorem run_item {i : Item} (hs : s.At f) (hi : i.Fits) (h : i.read f = some f') :
    ∃ s', run s i.text = some s' ∧ s'.At f' := by
  have hl := hs.len
  rw [hs.eq]
  have hfull : ¬confBuffer ≤ s.len := by omega
  cases i with
  | blank c =>
    cases h
    refine ⟨⟨f.args, .space, 1, f.out⟩, ?_, rfl, rfl, rfl, (by decide : 1 < confBuffer)⟩
    rw [Item.text, run_cons, step_blank hi hl]
    rfl
  | comment t =>
    cases h
    obtain ⟨ht, hb⟩ := hi
    have hstep : Lex.step ⟨f.args, .space, s.len, f.out⟩ '#' =
        some ⟨f.args, .comment, 1, f.out⟩ := by
      simp [Lex.step, Lex.full, hfull, Lex.start, isBlank]
    refine ⟨⟨f.args, .space, 1, f.out⟩, ?_, rfl, rfl, rfl, (by decide : 1 < confBuffer)⟩
    rw [Item.text, List.cons_append, run_cons, hstep, Option.bind_some]
    exact run_comment ht (by omega)
  | word w c =>
    cases h
    obtain ⟨hw, hb, hc⟩ := hi
    refine ⟨⟨f.args ++ [w], .space, bytes w + 1, f.out⟩, ?_, rfl, rfl, rfl, hb⟩
    rw [Item.text, run_word hw hl (by omega) (.inl hc), Lex.after, if_pos hc]
  | quoted w c =>
    cases h
    obtain ⟨hw, hb, hc⟩ := hi
    have hopen : Lex.step ⟨f.args, .space, s.len, f.out⟩ '"' =
        some ⟨f.args, .quoted '"' [] false false, 0, f.out⟩ := by
      simp [Lex.step, Lex.full, hfull, Lex.start, isBlank]
    have hclose : Lex.step ⟨f.args, .quoted '"' w false false, bytes w, f.out⟩ '"' =
        some ⟨f.args ++ [w], .closed, bytes w + 1, f.out⟩ := by
      have hsize : Char.utf8Size '"' = 1 := by decide
      have hfull : ¬confBuffer < bytes w + 1 := by omega
      have hun : unescape w = w := unescape_of_not_mem fun hm => by
        simpa [Item.inQuotes] using List.all_eq_true.mp hw _ hm
      simp [Lex.step, Lex.full, hsize, hfull, Lex.word, hun, Lex.more]
    have hlast : Lex.step ⟨f.args ++ [w], .closed, bytes w + 1, f.out⟩ c =
        some ⟨f.args ++ [w], .space, bytes w + 2, f.out⟩ := by
      obtain ⟨-, -, -, -, -, hparen, hsize⟩ := blank_facts hc
      have hfull : ¬confBuffer < bytes w + 2 := by omega
      simp [Lex.step, Lex.full, hsize, hfull, hparen, Lex.after, hc]
    refine ⟨⟨f.args ++ [w], .space, bytes w + 2, f.out⟩, ?_, rfl, rfl, rfl,
      (by omega : bytes w + 2 < confBuffer)⟩
    have hrun := run_quoted f.args f.out [] hw (by omega : 0 + bytes w ≤ confBuffer)
    rw [List.nil_append, Nat.zero_add] at hrun
    rw [Item.text, List.cons_append, run_cons, hopen, Option.bind_some, run_append, hrun,
      Option.bind_some, run_cons, hclose, Option.bind_some, run_cons, hlast, Option.bind_some,
      run_nil]
  | last w =>
    cases h
    obtain ⟨hw, hb⟩ := hi
    refine ⟨⟨[], .space, 0, f.out ++ [.simple (f.args ++ [w])]⟩, ?_, rfl, rfl, rfl, (by decide : 0 < confBuffer)⟩
    rw [Item.text, run_word hw hl hb (.inr rfl), Lex.after, if_neg (by decide), if_pos rfl]
    rfl
  | opens =>
    cases hargs : f.args with
    | nil => simp [Item.read, hargs] at h
    | cons a as =>
      simp only [Item.read, hargs, List.isEmpty_cons, Bool.false_eq_true, if_false,
        Option.some.injEq] at h
      refine ⟨⟨[], .space, 0, f.out ++ [.block (a :: as)]⟩, ?_, h ▸ ⟨rfl, rfl, rfl, (by decide : 0 < confBuffer)⟩⟩
      simp [Item.text, run_cons, Lex.step, Lex.full, hfull, Lex.start, isBlank, Lex.emit]
  | closes =>
    cases hargs : f.args with
    | nil =>
      simp only [Item.read, hargs, List.isEmpty_nil, if_true, Option.some.injEq] at h
      refine ⟨⟨[], .space, 0, f.out ++ [.close]⟩, ?_, h ▸ ⟨rfl, rfl, rfl, (by decide : 0 < confBuffer)⟩⟩
      simp [Item.text, run_cons, Lex.step, Lex.full, hfull, Lex.start, isBlank, Lex.emit]
    | cons a as => simp [Item.read, hargs] at h

/-- **Pieces**, one after the other. -/
theorem run_items {items : List Item} (hs : s.At f) (hi : ∀ i ∈ items, i.Fits)
    (h : items.foldlM Item.read f = some f') :
    ∃ s', run s (items.flatMap Item.text) = some s' ∧ s'.At f' := by
  induction items generalizing s f with
  | nil =>
    cases h
    exact ⟨s, rfl, hs⟩
  | cons i items ih =>
    rw [List.foldlM_cons] at h
    obtain ⟨f₁, hread, hrest⟩ := Option.bind_eq_some_iff.mp h
    obtain ⟨s₁, hrun₁, hs₁⟩ := run_item hs (hi i List.mem_cons_self) hread
    obtain ⟨s', hrun, hs'⟩ := ih hs₁ (fun i hm => hi i (List.mem_cons_of_mem _ hm)) hrest
    refine ⟨s', ?_, hs'⟩
    rw [List.flatMap_cons, run_append, hrun₁, Option.bind_some, hrun]

/-- What has been read is only added to. -/
theorem foldlM_read (items : List Item) (f : Front) (out : List Event) :
    items.foldlM Item.read ⟨f.args, out ++ f.out⟩ =
      (items.foldlM Item.read f).map fun g => ⟨g.args, out ++ g.out⟩ := by
  induction items generalizing f with
  | nil => rfl
  | cons i items ih =>
    have hi : i.read ⟨f.args, out ++ f.out⟩ = (i.read f).map fun g => ⟨g.args, out ++ g.out⟩ := by
      cases i with
      | opens | closes =>
        simp only [Item.read]
        split <;> simp
      | _ => simp [Item.read]
    rw [List.foldlM_cons, List.foldlM_cons, hi]
    cases i.read f with
    | none => rfl
    | some g => exact ih g

theorem read_of_nil {items : List Item} {es : List Event}
    (h : items.foldlM Item.read ⟨[], []⟩ = some ⟨[], es⟩) (out : List Event) :
    items.foldlM Item.read ⟨[], out⟩ = some ⟨[], out ++ es⟩ := by
  have := foldlM_read items ⟨[], []⟩ out
  rw [List.append_nil, h] at this
  exact this

/-- A reader that comes to the end of a text where a directive may start. -/
theorem parse_of_run {ds : List Directive} (h : run .init t = some s) (hs : s.At ⟨[], eventsOf ds⟩) :
    parse t = some ds := by
  have hevents : events t = some (eventsOf ds) := by
    rw [events, h, Option.bind_some, if_pos ⟨hs.args, .inl hs.mode⟩, hs.out]
  have hbuild := build_eventsOf ds [] [] []
  rw [List.append_nil, List.nil_append] at hbuild
  rw [parse, hevents, Option.bind_some, hbuild]
  rfl

end Items

end HaAddons.Lib.Nginx

import HaAddons.AdminUi.Server

/-!
# Requests on the wire

How `http.server` reads a request head from a stream, and how a client writes a request.

* `readHead_encode` — a head that was written is read back, and the stream stands at its body.
* `readBody_framed` — a body that is read is read to its end.
-/

namespace HaAddons.AdminUi

/-! ## Reading -/

/-- `fp.readline()` -/
def readLine : Text → Text × Text
  | [] => ([], [])
  | c :: s => if c = '\n' then ([c], s) else (c :: (readLine s).1, (readLine s).2)

def maxLine : ℕ := 65536

def maxHeaders : ℕ := 100

def crlf : Text := ['\r', '\n']

/-- The lines up to the empty one, of which there may be `n` with it. -/
def headerLines : ℕ → Text → Option (List Text × Text)
  | 0, _ => none
  | n + 1, s =>
    if (readLine s).1.length > maxLine then none
    else if [crlf, ['\n'], []].contains (readLine s).1 then some ([], (readLine s).2)
    else (headerLines n (readLine s).2).map fun r => ((readLine s).1 :: r.1, r.2)

def isNameChar (c : Char) : Bool := 0x21 ≤ c.toNat && c.toNat ≤ 0x7e && c ≠ ':'

def isOws (c : Char) : Bool := c = ' ' || c = '\t'

def isLineEnd (c : Char) : Bool := c = '\r' || c = '\n'

/-- `s.rstrip("\r\n")` -/
def chomp (s : Text) : Text := (s.reverse.dropWhile isLineEnd).reverse

/-- The name and the rest of a line that has both. -/
def headerLine (line : Text) : Option (Text × Text) :=
  match line.dropWhile isNameChar with
  | ':' :: value => some (line.takeWhile isNameChar, value.dropWhile isOws)
  | _ => none

def flush (last : Option (Text × Text)) : Headers := last.toList.map fun e => (e.1, chomp e.2)

/-- `email.parser`: a line that begins with a blank continues the last one, and the first line that
is no header ends the headers. -/
def parseHeaders : Option (Text × Text) → List Text → Headers
  | last, [] => flush last
  | last, line :: lines =>
    if line.head?.any isOws then parseHeaders (last.map fun e => (e.1, e.2 ++ line)) lines
    else
      match headerLine line with
      | none => flush last
      | some e => flush last ++ parseHeaders (if e.1 = [] then none else some e) lines

/-- A request line and headers, and the stream behind them; none where the server closes. -/
def readHead (s : Text) : Option (Head × Text) :=
  if (readLine s).1.length > maxLine then none
  else if (readLine s).1 = [] then none
  else (headerLines maxHeaders (readLine s).2).map fun r =>
    (⟨chomp (readLine s).1, parseHeaders none r.1⟩, r.2)

/-! ## Writing -/

def isVisible (c : Char) : Bool := 0x21 ≤ c.toNat && c.toNat ≤ 0x7e

/-- The number that digits stand for. -/
def number (ds : Text) : ℕ := ds.foldl (fun n c => 10 * n + (c.toNat - '0'.toNat)) 0

/-- The value is digits for a number, with blanks around them. -/
def Denotes (value : Text) (n : ℕ) : Prop :=
  ∃ ds post, value.dropWhile isOws = ds ++ post ∧ ds ≠ [] ∧ (∀ c ∈ ds, c.isDigit = true) ∧
    (∀ c ∈ post, isOws c = true) ∧ number ds = n

/-- A well-formed request, as it is sent. A line is a name and what follows its colon. -/
structure Sent where
  method : Text
  target : Text
  lines : List (Text × Text)
  body : Text
  handled : method ∈ handledMethods
  visible : target ≠ [] ∧ ∀ c ∈ target, isVisible c = true
  plain : ∀ e ∈ lines, e.1 ≠ [] ∧ (∀ c ∈ e.1, isNameChar c = true) ∧ ∀ c ∈ e.2, isLineEnd c = false
  unchunked : ∀ e ∈ lines, lower e.1 ≠ lower "Transfer-Encoding".toList
  framed : ∀ e ∈ lines, lower e.1 = lower "Content-Length".toList → Denotes e.2 body.length
  bare : (∀ e ∈ lines, lower e.1 ≠ lower "Content-Length".toList) → body = []

namespace Sent

def requestline (m : Sent) : Text := m.method ++ ' ' :: m.target ++ " HTTP/1.1".toList

def encodeLine (e : Text × Text) : Text := e.1 ++ ':' :: e.2

def encodeHead (m : Sent) : Text :=
  m.requestline ++ crlf ++ (m.lines.flatMap fun e => encodeLine e ++ crlf) ++ crlf

def encode (m : Sent) : Text := m.encodeHead ++ m.body

/-- The head, as the server should see it. -/
def head (m : Sent) : Head := ⟨m.requestline, m.lines.map fun e => (e.1, e.2.dropWhile isOws)⟩

end Sent

/-! ## Heads are read back -/

theorem readLine_append {u : Text} (hu : '\n' ∉ u) (rest : Text) :
    readLine (u ++ '\n' :: rest) = (u ++ ['\n'], rest) := by
  induction u with
  | nil => rfl
  | cons c u ih =>
    obtain ⟨hc, hu⟩ := not_or.mp (List.mem_cons.not.mp hu)
    rw [List.cons_append, readLine, if_neg (fun h => hc h.symm), ih hu]
    rfl

theorem readLine_crlf {u : Text} (hu : ∀ c ∈ u, isLineEnd c = false) (rest : Text) :
    readLine (u ++ crlf ++ rest) = (u ++ crlf, rest) := by
  have hnot : '\n' ∉ u ++ ['\r'] := by
    intro h
    rcases List.mem_append.mp h with h | h
    · exact absurd (hu _ h) (by decide)
    · exact absurd (List.mem_singleton.mp h) (by decide)
  have hline := readLine_append hnot rest
  rw [List.append_assoc, List.append_assoc] at hline
  rw [List.append_assoc]
  exact hline

theorem chomp_crlf {u : Text} (hu : ∀ c ∈ u, isLineEnd c = false) : chomp (u ++ crlf) = u := by
  unfold chomp
  rw [List.reverse_append]
  show ((u.reverse.dropWhile isLineEnd)).reverse = u
  have hself : u.reverse.dropWhile isLineEnd = u.reverse := by
    cases hrev : u.reverse with
    | nil => rfl
    | cons d t =>
      have hd : d ∈ u := List.mem_reverse.mp (hrev ▸ List.mem_cons_self ..)
      exact List.dropWhile_cons_of_neg (by simp [hu d hd])
  rw [hself, List.reverse_reverse]

theorem isLineEnd_of_isNameChar {c : Char} (h : isNameChar c = true) : isLineEnd c = false := by
  by_contra hend
  rcases (Bool.or_eq_true _ _).mp ((Bool.not_eq_false _).mp hend) with hc | hc
  · exact absurd (of_decide_eq_true hc ▸ h) (by decide)
  · exact absurd (of_decide_eq_true hc ▸ h) (by decide)

theorem isLineEnd_of_isVisible {c : Char} (h : isVisible c = true) : isLineEnd c = false := by
  by_contra hend
  rcases (Bool.or_eq_true _ _).mp ((Bool.not_eq_false _).mp hend) with hc | hc
  · exact absurd (of_decide_eq_true hc ▸ h) (by decide)
  · exact absurd (of_decide_eq_true hc ▸ h) (by decide)

theorem isLineEnd_of_isOws {c : Char} (h : isOws c = true) : isLineEnd c = false := by
  rcases (Bool.or_eq_true _ _).mp h with hc | hc
  · rw [of_decide_eq_true hc]; rfl
  · rw [of_decide_eq_true hc]; rfl

/-- A name, and what may follow its colon. -/
def PlainLine (e : Text × Text) : Prop :=
  e.1 ≠ [] ∧ (∀ c ∈ e.1, isNameChar c = true) ∧ ∀ c ∈ e.2, isLineEnd c = false

theorem encodeLine_plain {e : Text × Text} (he : PlainLine e) :
    ∀ c ∈ Sent.encodeLine e, isLineEnd c = false := by
  intro c hc
  rcases List.mem_append.mp hc with hc | hc
  · exact isLineEnd_of_isNameChar (he.2.1 c hc)
  · rcases List.mem_cons.mp hc with rfl | hc
    · rfl
    · exact he.2.2 c hc

/-- A line of a header is not the empty line. -/
theorem encodeLine_not_end (e : Text × Text) :
    Sent.encodeLine e ++ crlf ∉ [crlf, ['\n'], []] := by
  intro h
  have hlength : 3 ≤ (Sent.encodeLine e ++ crlf).length := by
    simp only [Sent.encodeLine, crlf, List.length_append, List.length_cons, List.length_nil]
    omega
  simp only [List.mem_cons, List.not_mem_nil, or_false] at h
  rcases h with h | h | h
  · rw [h] at hlength
    exact absurd hlength (by decide)
  · rw [h] at hlength
    exact absurd hlength (by decide)
  · rw [h] at hlength
    exact absurd hlength (by decide)

/-- The lines that were written are the lines that are read, where the server reads them. -/
theorem headerLines_encode {lines : List (Text × Text)} (hlines : ∀ e ∈ lines, PlainLine e)
    (rest : Text) (n : ℕ) {r : List Text × Text}
    (hr : headerLines n ((lines.flatMap fun e => Sent.encodeLine e ++ crlf) ++ crlf ++ rest) =
      some r) :
    r = (lines.map fun e => Sent.encodeLine e ++ crlf, rest) := by
  induction lines generalizing n r with
  | nil =>
    cases n with
    | zero => cases hr
    | succ n =>
      have hline : readLine (crlf ++ rest) = (crlf, rest) :=
        readLine_crlf (u := []) (fun c hc => absurd hc List.not_mem_nil) rest
      have hshort : ¬ crlf.length > maxLine := by decide
      rw [List.flatMap_nil, List.nil_append, headerLines, hline, if_neg hshort,
        if_pos (by rfl)] at hr
      exact (Option.some.inj hr).symm
  | cons e lines ih =>
    obtain ⟨he, hlines⟩ := List.forall_mem_cons.mp hlines
    cases n with
    | zero => cases hr
    | succ n =>
      have hline := readLine_crlf (encodeLine_plain he)
        ((lines.flatMap fun e => Sent.encodeLine e ++ crlf) ++ crlf ++ rest)
      rw [List.flatMap_cons, List.append_assoc (Sent.encodeLine e ++ crlf),
        List.append_assoc (Sent.encodeLine e ++ crlf), headerLines, hline,
        if_neg fun h => encodeLine_not_end e (List.contains_iff_mem.mp h)] at hr
      split_ifs at hr
      obtain ⟨t, ht, rfl⟩ := Option.map_eq_some_iff.mp hr
      rw [ih hlines n ht]
      rfl

theorem headerLine_encode {e : Text × Text} (he : PlainLine e) :
    headerLine (Sent.encodeLine e ++ crlf) = some (e.1, (e.2 ++ crlf).dropWhile isOws) := by
  have hdrop : (Sent.encodeLine e ++ crlf).dropWhile isNameChar = ':' :: (e.2 ++ crlf) := by
    unfold Sent.encodeLine
    rw [List.append_assoc, List.dropWhile_append_of_pos he.2.1]
    rfl
  have htake : (Sent.encodeLine e ++ crlf).takeWhile isNameChar = e.1 := by
    unfold Sent.encodeLine
    rw [List.append_assoc, List.takeWhile_append_of_pos he.2.1]
    exact List.append_nil _
  unfold headerLine
  rw [hdrop, htake]
  rfl

/-- The value of a header is what follows the blanks. -/
theorem flush_encode {e : Text × Text} (he : PlainLine e) :
    flush (some (e.1, (e.2 ++ crlf).dropWhile isOws)) = [(e.1, e.2.dropWhile isOws)] := by
  have hdrop : (e.2 ++ crlf).dropWhile isOws = e.2.dropWhile isOws ++ crlf := by
    induction e.2 with
    | nil => rfl
    | cons c s ih =>
      rw [List.cons_append, List.dropWhile_cons, List.dropWhile_cons]
      split_ifs
      · exact ih
      · rfl
  have hplain : ∀ c ∈ e.2.dropWhile isOws, isLineEnd c = false :=
    fun c hc => he.2.2 c ((List.dropWhile_sublist _).subset hc)
  show [(e.1, chomp ((e.2 ++ crlf).dropWhile isOws))] = _
  rw [hdrop, chomp_crlf hplain]

theorem parseHeaders_encode {lines : List (Text × Text)} (hlines : ∀ e ∈ lines, PlainLine e)
    (last : Option (Text × Text)) :
    parseHeaders last (lines.map fun e => Sent.encodeLine e ++ crlf) =
      flush last ++ lines.map fun e => (e.1, e.2.dropWhile isOws) := by
  induction lines generalizing last with
  | nil => exact (List.append_nil _).symm
  | cons e lines ih =>
    obtain ⟨he, hlines⟩ := List.forall_mem_cons.mp hlines
    have hhead : (Sent.encodeLine e ++ crlf).head?.any isOws = false := by
      obtain ⟨hne, hname, -⟩ := he
      unfold Sent.encodeLine
      cases hcons : e.1 with
      | nil => exact absurd hcons hne
      | cons c s =>
        have hc := hname c (hcons ▸ List.mem_cons_self ..)
        show isOws c = false
        by_contra hows
        rcases (Bool.or_eq_true _ _).mp ((Bool.not_eq_false _).mp hows) with heq | heq
        · exact absurd (of_decide_eq_true heq ▸ hc) (by decide)
        · exact absurd (of_decide_eq_true heq ▸ hc) (by decide)
    rw [List.map_cons, parseHeaders, hhead, if_neg Bool.false_ne_true, headerLine_encode he]
    show flush last ++ parseHeaders (if e.1 = [] then none else _) _ = _
    rw [if_neg he.1, ih hlines, flush_encode he]
    rfl

theorem Sent.requestline_plain (m : Sent) : ∀ c ∈ m.requestline, isLineEnd c = false := by
  have hmethods : handledMethods.all (fun w => w.all fun c => !isLineEnd c) = true := by decide
  intro c hc
  rcases List.mem_append.mp hc with hc | hc
  · rcases List.mem_append.mp hc with hc | hc
    · have hall := List.all_eq_true.mp (List.all_eq_true.mp hmethods m.method m.handled) c hc
      simpa using hall
    · rcases List.mem_cons.mp hc with rfl | hc
      · rfl
      · exact isLineEnd_of_isVisible (m.visible.2 c hc)
  · have hversion : " HTTP/1.1".toList.all (fun c => !isLineEnd c) = true := by decide
    simpa using List.all_eq_true.mp hversion c hc

/-- **Heads are read back.** Where the server reads a request that was written, it reads its head
and stands at its body. -/
theorem readHead_encode (m : Sent) (rest : Text) {r : Head × Text}
    (hr : readHead (m.encode ++ rest) = some r) : r = (m.head, m.body ++ rest) := by
  have hline := readLine_crlf m.requestline_plain
    ((m.lines.flatMap fun e => Sent.encodeLine e ++ crlf) ++ crlf ++ (m.body ++ rest))
  have hstream : m.encode ++ rest = m.requestline ++ crlf ++
      ((m.lines.flatMap fun e => Sent.encodeLine e ++ crlf) ++ crlf ++ (m.body ++ rest)) := by
    unfold Sent.encode Sent.encodeHead
    simp only [List.append_assoc]
  unfold readHead at hr
  rw [hstream, hline] at hr
  split_ifs at hr
  obtain ⟨t, ht, rfl⟩ := Option.map_eq_some_iff.mp hr
  rw [headerLines_encode m.plain _ _ ht, chomp_crlf m.requestline_plain,
    parseHeaders_encode m.plain]
  rfl

/-! ## Bodies are read to their end -/

theorem isSpace_of_isOws {c : Char} (h : isOws c = true) : isSpace c = true := by
  rcases (Bool.or_eq_true _ _).mp h with hc | hc
  · rw [of_decide_eq_true hc]; rfl
  · rw [of_decide_eq_true hc]; rfl

/-- A digit is neither a blank nor a sign. -/
theorem digit_facts {c : Char} (h : c.isDigit = true) :
    isSpace c = false ∧ c ≠ '-' ∧ c ≠ '+' ∧ c ≠ '_' := by
  refine ⟨?_, by rintro rfl; exact absurd h (by decide), by rintro rfl; exact absurd h (by decide),
    by rintro rfl; exact absurd h (by decide)⟩
  by_contra hspace
  have hmem := of_decide_eq_true ((Bool.not_eq_false _).mp hspace)
  rw [← Char.ofNat_toNat c] at h
  simp only [List.mem_cons, List.not_mem_nil, or_false] at hmem
  rcases hmem with hc | hc | hc | hc | hc | hc | hc | hc | hc | hc | hc | hc <;>
    · rw [hc] at h
      exact absurd h (by decide)

theorem dropWhile_of_head {p : Char → Bool} {c : Char} {s : Text} (hc : p c = false) :
    (c :: s).dropWhile p = c :: s := List.dropWhile_cons_of_neg (by simp [hc])

theorem stripSpace_digits {ds post : Text} (hne : ds ≠ []) (hds : ∀ c ∈ ds, c.isDigit = true)
    (hpost : ∀ c ∈ post, isOws c = true) : stripSpace (ds ++ post) = ds := by
  unfold stripSpace
  have hfront : (ds ++ post).dropWhile isSpace = ds ++ post := by
    cases ds with
    | nil => exact absurd rfl hne
    | cons d ds => exact dropWhile_of_head (digit_facts (hds d (List.mem_cons_self ..))).1
  have hback : (post.reverse ++ ds.reverse).dropWhile isSpace = ds.reverse := by
    rw [List.dropWhile_append_of_pos
      fun c hc => isSpace_of_isOws (hpost c (List.mem_reverse.mp hc))]
    cases hrev : ds.reverse with
    | nil => rfl
    | cons d t =>
      have hd : d ∈ ds := List.mem_reverse.mp (hrev ▸ List.mem_cons_self ..)
      exact dropWhile_of_head (digit_facts (hds d hd)).1
  rw [hfront, List.reverse_append, hback, List.reverse_reverse]

theorem intDigits_digits {ds : Text} (hne : ds ≠ []) (hds : ∀ c ∈ ds, c.isDigit = true) :
    intDigits ds = some (number ds : ℤ) := by
  have hplain : '_' ∉ ds := fun h => (digit_facts (hds _ h)).2.2.2 rfl
  have hfilter : ds.filter (· ≠ '_') = ds :=
    List.filter_eq_self.mpr fun c hc => decide_eq_true (digit_facts (hds c hc)).2.2.2
  have hall : (ds.splitOn '_').all (fun part => part ≠ [] && part.all Char.isDigit) = true := by
    rw [List.splitOn_eq_singleton hplain]
    simp [hne, List.all_eq_true.mpr hds]
  unfold intDigits
  rw [if_pos hall, hfilter]
  rfl

theorem pyInt_of_denotes {value : Text} {n : ℕ} (h : Denotes value n) :
    value.dropWhile isOws ≠ [] ∧ pyInt (value.dropWhile isOws) = some (n : ℤ) := by
  obtain ⟨ds, post, hvalue, hne, hds, hpost, rfl⟩ := h
  refine ⟨by rw [hvalue]; exact List.append_ne_nil_of_left_ne_nil hne _, ?_⟩
  unfold pyInt
  rw [hvalue, stripSpace_digits hne hds hpost]
  cases ds with
  | nil => exact absurd rfl hne
  | cons d ds =>
    obtain ⟨-, hminus, hplus, -⟩ := digit_facts (hds d (List.mem_cons_self ..))
    split
    · rename_i heq
      exact absurd (List.cons.inj heq).1 hminus
    · rename_i heq
      exact absurd (List.cons.inj heq).1 hplus
    · exact intDigits_digits hne hds

theorem Sent.get_head (m : Sent) (name : Text) :
    m.head.headers.get name =
      (m.lines.find? fun e => lower e.1 = lower name).map fun e => e.2.dropWhile isOws := by
  unfold Headers.get
  show ((m.lines.map fun e => (e.1, e.2.dropWhile isOws)).find? _).map Prod.snd = _
  rw [List.find?_map, Option.map_map]
  rfl

/-- The declared length is the length of the body. -/
theorem contentLength_head (m : Sent) :
    contentLength m.head.headers = some (m.body.length : ℤ) := by
  unfold contentLength
  rw [m.get_head]
  cases hfind : m.lines.find? fun e => lower e.1 = lower "Content-Length".toList with
  | none =>
    have hbare : m.body = [] := by
      refine m.bare fun e he heq => ?_
      exact List.find?_eq_none.mp hfind e he (decide_eq_true heq)
    rw [hbare]
    rfl
  | some e =>
    have hfound := List.find?_some hfind
    have hname : lower e.1 = lower "Content-Length".toList := of_decide_eq_true hfound
    obtain ⟨hne, hint⟩ := pyInt_of_denotes (m.framed e (List.mem_of_find?_eq_some hfind) hname)
    show (if e.2.dropWhile isOws = [] then _ else pyInt (e.2.dropWhile isOws)) = _
    rw [if_neg hne, hint]

/-- **Bodies are framed.** A body that is read is read to its end. -/
theorem readBody_framed (loads : Text → Option Json) (m : Sent) (rest : Text) {json : Option Json}
    (hok : (readBody loads m.head.headers (m.body ++ rest)).1 = .ok json) :
    (readBody loads m.head.headers (m.body ++ rest)).2 = m.body.length := by
  unfold readBody at hok ⊢
  simp only [contentLength_head] at hok ⊢
  split_ifs at hok ⊢ with hchunked hneg hbig hzero htype
  · exact (Int.ofNat_eq_zero.mp hzero).symm
  · have htake : (m.body ++ rest).take (m.body.length : ℤ).toNat = m.body := List.take_left
    rw [htake]
    cases loads m.body <;> rfl

end HaAddons.AdminUi

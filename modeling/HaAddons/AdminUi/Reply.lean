import Mathlib.Data.List.DropRight
import HaAddons.AdminUi.Wire

/-!
# Responses on the wire

How `http.server` writes a response, and how a client that knows the method of its request reads
one: a status line, fields without continuation lines, and a body where the method and the status
have one, as long as `Content-Length` says.

* `readFields_encode`, `readFields_plain` — fields are read back, and what is read has no line end.
* `readReply_iff` — a response is read back, and nothing behind it, exactly if its status is final,
  no value has a line end, and a status without a body has none.
-/

namespace HaAddons.AdminUi

/-! ## Writing -/

/-- `"%d" % n` -/
def decimal (n : ℤ) : Text :=
  if n < 0 then '-' :: Nat.toDigits 10 n.natAbs else Nat.toDigits 10 n.natAbs

def encodeField (e : Text × Text) : Text := e.1 ++ ": ".toList ++ e.2 ++ crlf

def encodeFields (fields : Headers) : Text := fields.flatMap encodeField ++ crlf

def version : Text := "HTTP/1.1".toList

def statusLine (status : ℤ) (reason : Text) : Text :=
  version ++ ' ' :: decimal status ++ ' ' :: reason

/-- What is written for a status, headers and a body. -/
def encodeReply (reason : Text) (status : ℤ) (fields : Headers) (body : Text) : Text :=
  statusLine status reason ++ crlf ++ encodeFields fields ++ body

/-! ## Reading -/

/-- A response, as a client sees it. -/
structure Reply where
  status : ℤ
  headers : Headers
  body : Text
  deriving DecidableEq

/-- The text before the first line end, and what is behind it; none if that is a part of one. -/
def cutLine : Text → Option (Text × Text)
  | [] => none
  | c :: s =>
    if c = '\r' ∧ s.head? = some '\n' then some ([], s.tail)
    else if isLineEnd c then none
    else (cutLine s).map fun r => (c :: r.1, r.2)

/-- Blanks around a value are no part of it. -/
def fieldValue (v : Text) : Text := ((v.dropWhile isOws).reverse.dropWhile isOws).reverse

/-- A name, a colon and a value. -/
def readField (line : Text) : Option (Text × Text) :=
  match headerLine line with
  | some e => if e.1 = [] then none else some (e.1, fieldValue e.2)
  | none => none

/-- The fields up to the empty line; there may be `n` lines with it. -/
def readFields : ℕ → Text → Option (Headers × Text)
  | 0, _ => none
  | n + 1, s =>
    match cutLine s with
    | none => none
    | some (line, rest) =>
      if line = [] then some ([], rest)
      else
        match readField line with
        | none => none
        | some e => (readFields n rest).map fun r => (e :: r.1, r.2)

/-- Three digits after the version. -/
def readStatus (line : Text) : Option ℤ :=
  if line.takeWhile (· ≠ ' ') = version then
    let code := ((line.dropWhile (· ≠ ' ')).tail).takeWhile (· ≠ ' ')
    if code.length = 3 ∧ code.all Char.isDigit then some (Nat.ofDigitChars 10 code 0 : ℕ) else none
  else none

/-- A final response with this status has no body. -/
def bodiless (status : ℤ) : Bool := status = 204 || status = 304

def bodyLength (fields : Headers) : Option ℕ :=
  match fields.get "Content-Length".toList with
  | none => none
  | some value =>
    if value ≠ [] ∧ value.all Char.isDigit then some (Nat.ofDigitChars 10 value 0) else none

/-- The body of a response, and the stream behind it. -/
def readRest (method : Text) (status : ℤ) (fields : Headers) (s : Text) : Option (Reply × Text) :=
  if method = "HEAD".toList ∨ bodiless status then some (⟨status, fields, []⟩, s)
  else
    match bodyLength fields with
    | none => none
    | some n => if s.length < n then none else some (⟨status, fields, s.take n⟩, s.drop n)

/-- A response to a request with this method, and the stream behind it. An interim one is none. -/
def readReply (method s : Text) : Option (Reply × Text) :=
  match cutLine s with
  | none => none
  | some (line, s) =>
    match readStatus line with
    | none => none
    | some status =>
      if status < 200 then none
      else
        match readFields maxHeaders s with
        | none => none
        | some (fields, s) => readRest method status fields s

/-! ## Lines -/

theorem cutLine_append {u : Text} (hu : ∀ c ∈ u, isLineEnd c = false) (rest : Text) :
    cutLine (u ++ crlf ++ rest) = some (u, rest) := by
  induction u with
  | nil => rfl
  | cons c u ih =>
    obtain ⟨hc, hu⟩ := List.forall_mem_cons.mp hu
    have hcr : ¬ (c = '\r' ∧ (u ++ crlf ++ rest).head? = some '\n') := by
      intro h
      rw [h.1] at hc
      cases hc
    rw [List.cons_append, List.cons_append, cutLine, if_neg hcr,
      if_neg (by rw [hc]; exact Bool.false_ne_true), ih hu]
    rfl

theorem cutLine_plain {s : Text} {r : Text × Text} (h : cutLine s = some r) :
    ∀ c ∈ r.1, isLineEnd c = false := by
  induction s generalizing r with
  | nil => cases h
  | cons c s ih =>
    rw [cutLine] at h
    split_ifs at h with hcr hc
    · rw [← Option.some.inj h]
      exact fun c hc => absurd hc List.not_mem_nil
    · obtain ⟨t, ht, rfl⟩ := Option.map_eq_some_iff.mp h
      exact List.forall_mem_cons.mpr ⟨Bool.eq_false_iff.mpr hc, ih ht⟩

/-! ## Values -/

theorem mem_dropWhile {p : Char → Bool} {v : Text} {c : Char} (hc : p c = false) :
    c ∈ v.dropWhile p ↔ c ∈ v := by
  constructor
  · exact fun h => (List.dropWhile_sublist p).subset h
  · intro h
    rw [← List.takeWhile_append_dropWhile (p := p) (l := v)] at h
    cases List.mem_append.mp h with
    | inl htake => rw [List.mem_takeWhile_imp htake] at hc; cases hc
    | inr hdrop => exact hdrop

theorem mem_fieldValue {v : Text} {c : Char} (hc : isOws c = false) :
    c ∈ fieldValue v ↔ c ∈ v := by
  rw [fieldValue, List.mem_reverse, mem_dropWhile hc, List.mem_reverse, mem_dropWhile hc]

/-- A value has a line end exactly if it has one without the blanks around it. -/
theorem fieldValue_plain {v : Text} :
    (∀ c ∈ fieldValue v, isLineEnd c = false) ↔ ∀ c ∈ v, isLineEnd c = false := by
  constructor
  · intro h c hc
    cases hows : isOws c with
    | true => exact isLineEnd_of_isOws hows
    | false => exact h c ((mem_fieldValue hows).mpr hc)
  · intro h c hc
    cases hows : isOws c with
    | true => exact isLineEnd_of_isOws hows
    | false => exact h c ((mem_fieldValue hows).mp hc)

theorem fieldValue_blank (v : Text) : fieldValue (' ' :: v) = fieldValue v := rfl

theorem fieldValue_digits {v : Text} (hv : ∀ c ∈ v, isOws c = false) : fieldValue v = v := by
  have hself {u : Text} (hu : ∀ c ∈ u, isOws c = false) : u.dropWhile isOws = u := by
    cases u with
    | nil => rfl
    | cons c u => exact dropWhile_of_head (hu c (List.mem_cons_self ..))
  rw [fieldValue, hself hv, hself fun c hc => hv c (List.mem_reverse.mp hc), List.reverse_reverse]

/-! ## Fields -/

/-- The name of a field. -/
def FieldName (name : Text) : Prop := name ≠ [] ∧ ∀ c ∈ name, isNameChar c = true

theorem readField_encode {e : Text × Text} (he : FieldName e.1) :
    readField (e.1 ++ ": ".toList ++ e.2) = some (e.1, fieldValue e.2) := by
  have hdrop : (e.1 ++ ": ".toList ++ e.2).dropWhile isNameChar = ':' :: ' ' :: e.2 := by
    rw [List.append_assoc, List.dropWhile_append_of_pos he.2]
    rfl
  have htake : (e.1 ++ ": ".toList ++ e.2).takeWhile isNameChar = e.1 := by
    rw [List.append_assoc, List.takeWhile_append_of_pos he.2]
    exact List.append_nil _
  have hblanks : fieldValue ((' ' :: e.2).dropWhile isOws) = fieldValue e.2 := by
    unfold fieldValue
    rw [List.dropWhile_idempotent]
    rfl
  have hline : headerLine (e.1 ++ ": ".toList ++ e.2) =
      some (e.1, (' ' :: e.2).dropWhile isOws) := by
    unfold headerLine
    rw [hdrop]
    simp only [htake]
  simp only [readField, hline, if_neg he.1, hblanks]

theorem encodeField_line (e : Text × Text) (rest : Text) :
    encodeField e ++ rest = e.1 ++ ": ".toList ++ e.2 ++ crlf ++ rest := rfl

/-- The line of a field is plain, and not the empty one. -/
theorem fieldLine_plain {e : Text × Text} (he : FieldName e.1)
    (hvalue : ∀ c ∈ e.2, isLineEnd c = false) :
    (∀ c ∈ e.1 ++ ": ".toList ++ e.2, isLineEnd c = false) ∧ e.1 ++ ": ".toList ++ e.2 ≠ [] := by
  constructor
  · intro c hc
    rw [List.append_assoc, List.mem_append, List.mem_append] at hc
    rcases hc with hc | hc | hc
    · exact isLineEnd_of_isNameChar (he.2 c hc)
    · simp only [String.reduceToList, List.mem_cons, List.not_mem_nil, or_false] at hc
      rcases hc with rfl | rfl <;> rfl
    · exact hvalue c hc
  · intro hnil
    exact he.1 (List.append_eq_nil_iff.mp (List.append_eq_nil_iff.mp hnil).1).1

/-- Fields that were written are read back, without the blanks around their values. -/
theorem readFields_encode {fields : Headers} (hnames : ∀ e ∈ fields, FieldName e.1)
    (hvalues : ∀ e ∈ fields, ∀ c ∈ e.2, isLineEnd c = false) {n : ℕ} (hn : fields.length < n)
    (rest : Text) :
    readFields n (encodeFields fields ++ rest) =
      some (fields.map fun e => (e.1, fieldValue e.2), rest) := by
  induction fields generalizing n with
  | nil =>
    cases n with
    | zero => exact absurd hn (Nat.not_lt_zero _)
    | succ n => rfl
  | cons e fields ih =>
    obtain ⟨he, hnames⟩ := List.forall_mem_cons.mp hnames
    obtain ⟨hv, hvalues⟩ := List.forall_mem_cons.mp hvalues
    cases n with
    | zero => exact absurd hn (Nat.not_lt_zero _)
    | succ n =>
      obtain ⟨hline, hne⟩ := fieldLine_plain he hv
      have hstream : encodeFields (e :: fields) ++ rest =
          e.1 ++ ": ".toList ++ e.2 ++ crlf ++ (encodeFields fields ++ rest) := by
        simp only [encodeFields, List.flatMap_cons, encodeField, List.append_assoc]
      simp only [hstream, readFields, cutLine_append hline, if_neg hne, readField_encode he,
        ih hnames hvalues (Nat.lt_of_succ_lt_succ hn), Option.map_some, List.map_cons]

theorem readField_plain {line : Text} (hline : ∀ c ∈ line, isLineEnd c = false) {e : Text × Text}
    (h : readField line = some e) : ∀ c ∈ e.2, isLineEnd c = false := by
  unfold readField headerLine at h
  split at h
  · rename_i found hfound
    split_ifs at h
    rw [← Option.some.inj h]
    refine fieldValue_plain.mpr ?_
    split at hfound
    · rename_i value hdrop
      rw [← Option.some.inj hfound]
      intro c hc
      have hvalue := (List.dropWhile_sublist isOws).subset hc
      have hmem : c ∈ line.dropWhile isNameChar := hdrop ▸ List.mem_cons_of_mem _ hvalue
      exact hline c ((List.dropWhile_sublist _).subset hmem)
    · cases hfound
  · cases h

/-- No value that is read has a line end. -/
theorem readFields_plain {n : ℕ} {s : Text} {r : Headers × Text} (h : readFields n s = some r) :
    ∀ e ∈ r.1, ∀ c ∈ e.2, isLineEnd c = false := by
  induction n generalizing s r with
  | zero => cases h
  | succ n ih =>
    rw [readFields] at h
    split at h
    · cases h
    · rename_i line rest hcut
      split_ifs at h
      · rw [← Option.some.inj h]
        exact fun e he => absurd he List.not_mem_nil
      · split at h
        · cases h
        · rename_i e he
          obtain ⟨t, ht, rfl⟩ := Option.map_eq_some_iff.mp h
          exact List.forall_mem_cons.mpr ⟨readField_plain (cutLine_plain hcut) he, ih ht⟩

/-! ## Numbers -/

theorem digit_plain {c : Char} (h : c.isDigit = true) :
    isOws c = false ∧ isLineEnd c = false ∧ c ≠ ' ' := by
  obtain ⟨hspace, -⟩ := digit_facts h
  have hows : isOws c = false := by
    by_contra hcon
    rw [isSpace_of_isOws ((Bool.not_eq_false _).mp hcon)] at hspace
    cases hspace
  refine ⟨hows, ?_, ?_⟩
  · by_contra hcon
    rcases (Bool.or_eq_true _ _).mp ((Bool.not_eq_false _).mp hcon) with hc | hc
    · rw [of_decide_eq_true hc] at h
      cases h
    · rw [of_decide_eq_true hc] at h
      cases h
  · rintro rfl
    cases hows

theorem isDigit_toDigits (n : ℕ) : (Nat.toDigits 10 n).all Char.isDigit = true :=
  List.all_eq_true.mpr fun _ hc => Nat.isDigit_of_mem_toDigits (by decide) (by decide) hc

/-- A word before a blank. -/
theorem word_blank {w : Text} (hw : ∀ c ∈ w, c ≠ ' ') (rest : Text) :
    (w ++ ' ' :: rest).takeWhile (· ≠ ' ') = w ∧
      (w ++ ' ' :: rest).dropWhile (· ≠ ' ') = ' ' :: rest := by
  have hpos : ∀ c ∈ w, decide (c ≠ ' ') = true := fun c hc => decide_eq_true (hw c hc)
  constructor
  · rw [List.takeWhile_append_of_pos hpos]
    exact List.append_nil _
  · rw [List.dropWhile_append_of_pos hpos]
    rfl

theorem decimal_word (n : ℤ) : ∀ c ∈ decimal n, c ≠ ' ' := by
  have hdigits : ∀ c ∈ Nat.toDigits 10 n.natAbs, c ≠ ' ' := fun c hc =>
    (digit_plain (List.all_eq_true.mp (isDigit_toDigits _) c hc)).2.2
  unfold decimal
  split_ifs
  · exact List.forall_mem_cons.mpr ⟨by decide, hdigits⟩
  · exact hdigits

/-- The status of a line that was written, where it has three digits. -/
theorem readStatus_encode (status : ℤ) (reason : Text) :
    readStatus (statusLine status reason) =
      if 0 ≤ status ∧ (Nat.toDigits 10 status.natAbs).length = 3 then some status else none := by
  have hword : version.all (fun c => c ≠ ' ') = true := by decide
  have hversion := @word_blank version
    (fun c hc => of_decide_eq_true (List.all_eq_true.mp hword c hc))
    (decimal status ++ ' ' :: reason)
  have hcode := word_blank (decimal_word status) reason
  rw [readStatus, statusLine, List.append_assoc, List.cons_append, if_pos hversion.1]
  simp only [hversion.2, List.tail_cons, hcode.1]
  by_cases hneg : status < 0
  · have hsign : (decimal status).all Char.isDigit = false := by
      rw [decimal, if_pos hneg, List.all_cons]
      rfl
    rw [hsign, if_neg (fun h => Bool.false_ne_true h.2), if_neg (by omega)]
  · have hle := Int.not_lt.mp hneg
    have hdec : decimal status = Nat.toDigits 10 status.natAbs := if_neg hneg
    rw [hdec, isDigit_toDigits, Nat.ofDigitChars_ten_toDigits, Int.natAbs_of_nonneg hle]
    simp only [hle, and_true, true_and]

theorem length_three {n : ℕ} (hn : 200 ≤ n) : (Nat.toDigits 10 n).length = 3 ↔ n ≤ 999 := by
  have hle := @Nat.length_toDigits_le_iff 10 n 3 (by decide) (by decide)
  have hlt := @Nat.length_toDigits_le_iff 10 n 2 (by decide) (by decide)
  omega

/-! ## Responses are read back -/

/-- Field names, and a `Content-Length` that is the body's. -/
structure Framed (fields : Headers) (body : Text) : Prop where
  names : ∀ e ∈ fields, FieldName e.1
  few : fields.length < maxHeaders
  length : fields.get "Content-Length".toList = some (Nat.toDigits 10 body.length)

/-- What a client should read: values without the blanks around them, and no body for `HEAD`. -/
def replyTo (method : Text) (status : ℤ) (fields : Headers) (body : Text) : Reply where
  status := status
  headers := fields.map fun e => (e.1, fieldValue e.2)
  body := if method = "HEAD".toList then [] else body

theorem get_map_fieldValue (fields : Headers) (name : Text) :
    Headers.get (fields.map fun e => (e.1, fieldValue e.2)) name =
      (fields.get name).map fieldValue := by
  unfold Headers.get
  rw [List.find?_map, Option.map_map, Option.map_map]
  rfl

theorem bodyLength_framed {fields : Headers} {body : Text} (h : Framed fields body) :
    bodyLength (fields.map fun e => (e.1, fieldValue e.2)) = some body.length := by
  have hows : ∀ c ∈ Nat.toDigits 10 body.length, isOws c = false := fun c hc =>
    (digit_plain (List.all_eq_true.mp (isDigit_toDigits _) c hc)).1
  have hvalue : Headers.get (fields.map fun e => (e.1, fieldValue e.2)) "Content-Length".toList =
      some (Nat.toDigits 10 body.length) := by
    rw [get_map_fieldValue, h.length, Option.map_some, fieldValue_digits hows]
  simp only [bodyLength, hvalue, isDigit_toDigits, and_true, Nat.ofDigitChars_ten_toDigits]
  exact if_pos Nat.toDigits_ne_nil

/-- The status is final, and has a body if there is one to be sent. -/
def FinalStatus (method : Text) (status : ℤ) (body : Text) : Prop :=
  200 ≤ status ∧ status ≤ 999 ∧ (bodiless status = true → method = "HEAD".toList ∨ body = [])

/-- The body is read to its end, where the status has one. -/
theorem readRest_iff {method : Text} {status : ℤ} {fields : Headers} {body : Text}
    (h : Framed fields body) (rest : Text) :
    readRest method status (fields.map fun e => (e.1, fieldValue e.2))
        ((replyTo method status fields body).body ++ rest) =
      some (replyTo method status fields body, rest) ↔
    (bodiless status = true → method = "HEAD".toList ∨ body = []) := by
  rw [readRest]
  by_cases hhead : method = "HEAD".toList
  · have hbody : (replyTo method status fields body).body = [] := if_pos hhead
    rw [if_pos (Or.inl hhead), hbody]
    exact iff_of_true (by rw [replyTo, if_pos hhead, List.nil_append]) fun _ => Or.inl hhead
  · have hbody : (replyTo method status fields body).body = body := if_neg hhead
    rw [hbody]
    by_cases hnone : bodiless status = true
    · rw [if_pos (Or.inr hnone), Option.some.injEq, Prod.mk.injEq, replyTo, if_neg hhead,
        Reply.mk.injEq]
      constructor
      · exact fun heq _ => Or.inr heq.1.2.2.symm
      · intro hempty
        have hnil := (hempty hnone).resolve_left hhead
        exact ⟨⟨rfl, rfl, hnil.symm⟩, by rw [hnil, List.nil_append]⟩
    · have hlong : ¬ (body ++ rest).length < body.length := by
        rw [List.length_append]
        omega
      rw [if_neg (not_or.mpr ⟨hhead, hnone⟩), bodyLength_framed h]
      simp only [if_neg hlong, List.take_left, List.drop_left]
      exact iff_of_true (by rw [replyTo, if_neg hhead]) fun htrue => absurd htrue hnone

theorem readRest_headers {method : Text} {status : ℤ} {fields : Headers} {s : Text}
    {r : Reply × Text} (h : readRest method status fields s = some r) : r.1.headers = fields := by
  rw [readRest] at h
  split_ifs at h
  · rw [← Option.some.inj h]
  · split at h
    · cases h
    · split_ifs at h
      rw [← Option.some.inj h]

theorem statusLine_plain (status : ℤ) {reason : Text}
    (hreason : ∀ c ∈ reason, isLineEnd c = false) :
    ∀ c ∈ statusLine status reason, isLineEnd c = false := by
  have hdigits : ∀ c ∈ Nat.toDigits 10 status.natAbs, isLineEnd c = false := fun c hc =>
    (digit_plain (List.all_eq_true.mp (isDigit_toDigits _) c hc)).2.1
  have hversion : version.all (fun c => !isLineEnd c) = true := by decide
  have hdecimal : ∀ c ∈ decimal status, isLineEnd c = false := by
    unfold decimal
    split_ifs
    · exact List.forall_mem_cons.mpr ⟨rfl, hdigits⟩
    · exact hdigits
  intro c hc
  rw [statusLine, List.mem_append, List.mem_append, List.mem_cons, List.mem_cons] at hc
  rcases hc with (hc | rfl | hc) | rfl | hc
  · exact (Bool.not_eq_true' _).mp (List.all_eq_true.mp hversion c hc)
  · rfl
  · exact hdecimal c hc
  · rfl
  · exact hreason c hc

/-- **Responses are read back**, with nothing of the stream behind them, exactly if the status is
final and has the body, and no value has a line end. -/
theorem readReply_iff {method reason : Text} {status : ℤ} {fields : Headers} {body : Text}
    (hframed : Framed fields body) (hreason : ∀ c ∈ reason, isLineEnd c = false) :
    (∀ rest, readReply method
        (encodeReply reason status fields (replyTo method status fields body).body ++ rest) =
      some (replyTo method status fields body, rest)) ↔
    FinalStatus method status body ∧ ∀ e ∈ fields, ∀ c ∈ e.2, isLineEnd c = false := by
  have hcut (rest : Text) : cutLine
      (encodeReply reason status fields (replyTo method status fields body).body ++ rest) =
      some (statusLine status reason,
        encodeFields fields ++ ((replyTo method status fields body).body ++ rest)) := by
    rw [← cutLine_append (statusLine_plain status hreason), encodeReply]
    simp only [List.append_assoc]
  constructor
  · intro h
    have h := h []
    rw [readReply, hcut] at h
    simp only [readStatus_encode] at h
    split_ifs at h with hcode
    · simp only at h
      split_ifs at h with hfinal
      split at h
      · cases h
      · rename_i read stream hread
        have hheaders : read = fields.map fun e => (e.1, fieldValue e.2) :=
          (readRest_headers h).symm
        have hvalues : ∀ e ∈ fields, ∀ c ∈ e.2, isLineEnd c = false := by
          intro e he
          have hmem : (e.1, fieldValue e.2) ∈ read := hheaders ▸ List.mem_map_of_mem he
          exact fieldValue_plain.mp (readFields_plain hread _ hmem)
        have hback := readFields_encode hframed.names hvalues hframed.few
          ((replyTo method status fields body).body ++ [])
        obtain ⟨rfl, rfl⟩ := Prod.mk.inj (Option.some.inj (hread.symm.trans hback))
        have hlength := (length_three (by omega)).mp hcode.2
        exact ⟨⟨by omega, by omega, (readRest_iff hframed []).mp h⟩, hvalues⟩
  · intro h rest
    obtain ⟨⟨hlow, hhigh, hempty⟩, hvalues⟩ := h
    have hcode : 0 ≤ status ∧ (Nat.toDigits 10 status.natAbs).length = 3 :=
      ⟨by omega, (length_three (by omega)).mpr (by omega)⟩
    have hback := readFields_encode hframed.names hvalues hframed.few
      ((replyTo method status fields body).body ++ rest)
    rw [readReply, hcut]
    simp only [readStatus_encode, if_pos hcode, if_neg (Int.not_lt.mpr hlow), hback]
    exact (readRest_iff hframed rest).mpr hempty

end HaAddons.AdminUi

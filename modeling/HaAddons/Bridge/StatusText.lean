import HaAddons.Bridge.Handlers
import HaAddons.Lib.JsonFaults

/-!
# Statuses that are read back from error texts

The client writes the status of an answer into an error text, next to the path with the slug, and
looks for it there by a substring test.

* `infix_append_cons`, `infix_cut` — where a text occurs in one that is put together.
* `pathError_mentions`, `classifyStatus_mentions` — what the error texts say.
* `classified_iff` — `GetAddonInfo` reports a missing add-on, and the options handler sees a client
  error, exactly where the statuses say so, unless the slug or the text of a failed exchange reads
  like a status.
-/

namespace HaAddons.Bridge.Handlers

open Supervisor URL

/-! ## Substrings -/

section Infix

variable {α : Type*} {c : α} {p w k x y : List α}

/-- A text without the separator occurs on one side of it. -/
theorem infix_append_cons (hc : c ∉ p) : p <:+: x ++ c :: y ↔ p <:+: x ∨ p <:+: y := by
  constructor
  · intro h
    rcases List.infix_append_iff.mp h with hx | hy | ⟨l, r, rfl, hl, hr⟩
    · exact .inl hx
    · rcases List.infix_cons_iff.mp hy with hpre | hinf
      · cases p with
        | nil => exact .inl List.nil_infix
        | cons b p =>
          obtain ⟨rfl, -⟩ := List.cons_prefix_cons.mp hpre
          exact absurd List.mem_cons_self hc
      · exact .inr hinf
    · cases r with
      | nil => exact .inl (by simpa using hl.isInfix)
      | cons b r =>
        obtain ⟨rfl, -⟩ := List.cons_prefix_cons.mp hr
        exact absurd (by simp) hc
  · intro h
    rcases h with h | h
    · exact List.infix_append_of_infix_left h
    · exact List.infix_append_of_infix_right (List.infix_cons h)

/-- A text occurs behind another one if nothing of it does there. -/
theorem infix_append_of_apart (hx : ¬ p <:+: x) (hapart : ∀ l ∈ p.inits, l <:+ x → l = []) :
    p <:+: x ++ y ↔ p <:+: y := by
  constructor
  · intro h
    rcases List.infix_append_iff.mp h with h | h | ⟨l, r, rfl, hl, hr⟩
    · exact absurd h hx
    · exact h
    · rw [hapart l ((List.mem_inits _ _).mpr (List.prefix_append l r)) hl]
      exact hr.isInfix
  · exact fun h => List.infix_append_of_infix_right h

/-- Two words occur at the last separator if the first one ends and the second one begins there. -/
theorem infix_cut (hk : c ∉ k) (hy : c ∉ y) :
    w ++ c :: k <:+: x ++ c :: y ↔ w ++ c :: k <:+: x ∨ w <:+ x ∧ k <+: y := by
  constructor
  · intro h
    obtain ⟨l, r, h⟩ := h
    have h : (l ++ w) ++ c :: (k ++ r) = x ++ c :: y := by simpa using h
    rcases List.append_eq_append_iff.mp h with ⟨d, hx, hd⟩ | ⟨d, hw, hd⟩
    · cases d with
      | nil =>
        have hk : k ++ r = y := by simpa using hd
        exact .inr ⟨⟨l, by simpa using hx.symm⟩, r, hk⟩
      | cons b d =>
        obtain ⟨rfl, hkr⟩ := List.cons.inj hd
        rcases List.append_eq_append_iff.mp hkr with ⟨e, rfl, -⟩ | ⟨e, he, hrest⟩
        · exact .inl ⟨l, e, by simp [hx]⟩
        · cases e with
          | nil => exact .inl ⟨l, [], by simp [hx, he]⟩
          | cons b e =>
            obtain ⟨rfl, -⟩ := List.cons.inj hrest
            exact absurd (by simp [he]) hk
    · cases d with
      | nil =>
        have hk : y = k ++ r := by simpa using hd
        exact .inr ⟨⟨l, by simpa using hw⟩, r, hk.symm⟩
      | cons b d =>
        obtain ⟨-, rfl⟩ := List.cons.inj hd
        exact absurd (by simp) hy
  · intro h
    rcases h with h | ⟨⟨l, rfl⟩, r, rfl⟩
    · exact List.infix_append_of_infix_left h
    · exact ⟨l, r, by simp⟩

end Infix

theorem utf8_append (a b : String) : utf8 (a ++ b) = utf8 a ++ utf8 b := by
  show (a ++ b).toByteArray.data.toList = _
  rw [String.toByteArray_append, ByteArray.data_append, Array.toList_append]
  rfl

/-! ## Decimal statuses -/

def digit (d : ℕ) : UInt8 := UInt8.ofNat (48 + d)

theorem digit_inj {a b : ℕ} (ha : a < 10) (hb : b < 10) : digit a = digit b ↔ a = b := by
  have hall : ∀ a < 10, ∀ b < 10, digit a = digit b ↔ a = b := by decide
  exact hall a ha b hb

theorem utf8_status {n : ℕ} (hlow : 100 ≤ n) (hhigh : n < 1000) :
    utf8 (toString n) = [digit (n / 100), digit (n / 10 % 10), digit (n % 10)] := by
  have hdigit : ∀ d < 10, utf8 (String.ofList [Nat.digitChar d]) = [digit d] := by decide
  have hdigits : Nat.toDigits 10 n = [Nat.digitChar (n / 100)] ++ ([Nat.digitChar (n / 10 % 10)] ++
      [Nat.digitChar (n % 10)]) := by
    rw [Nat.toDigits_of_base_le (by decide) (by omega),
      Nat.toDigits_of_base_le (by decide) (by omega), Nat.toDigits_of_lt_base (by omega),
      Nat.div_div_eq_div_mul, List.append_assoc]
  rw [Nat.toString_eq_ofList_toDigits, hdigits, String.ofList_append, String.ofList_append,
    utf8_append, utf8_append, hdigit _ (by omega), hdigit _ (by omega), hdigit _ (by omega)]
  rfl

/-! ## The error texts -/

/-- `strings.Contains` on the bytes of a text. -/
def Mentions (s : Bytes) (text : String) : Prop := utf8 text <:+: s

/-- The texts that are looked for. -/
def statusTexts : List String := ["status 404", "status 403", "status 4"]

/-- The first byte of each of them, and the two after it. -/
theorem mentions_sta {s : Bytes} {text : String} (ht : text ∈ statusTexts) (h : Mentions s text) :
    utf8 "sta" <:+: s := by
  have hall : ∀ text ∈ statusTexts, utf8 "sta" <:+: utf8 text := by decide
  exact (hall text ht).trans h

theorem not_slash {text : String} (ht : text ∈ statusTexts) : 0x2F ∉ utf8 text := by
  have hall : ∀ text ∈ statusTexts, 0x2F ∉ utf8 text := by decide
  exact hall text ht

/-- The digits that are looked for after the word. -/
def digitsOf (text : String) : Bytes := (utf8 text).drop 7

theorem mentions_status {text : String} (ht : text ∈ statusTexts) {n : ℕ} (hlow : 100 ≤ n)
    (hhigh : n < 1000) {x : Bytes} (hx : utf8 "status" <:+ x) (hno : ¬ utf8 text <:+: x) :
    Mentions (x ++ utf8 (" " ++ toString n)) text ↔ digitsOf text <+: utf8 (toString n) := by
  have hcut : ∀ text ∈ statusTexts, utf8 text = utf8 "status" ++ 0x20 :: digitsOf text ∧
      0x20 ∉ digitsOf text := by decide
  have hblank : ∀ d < 10, (0x20 : UInt8) ≠ digit d := by decide
  obtain ⟨htext, hdigits⟩ := hcut text ht
  have hn : (0x20 : UInt8) ∉ utf8 (toString n) := by
    rw [utf8_status hlow hhigh]
    simp only [List.mem_cons, List.not_mem_nil, or_false, not_or]
    exact ⟨hblank _ (by omega), hblank _ (by omega), hblank _ (by omega)⟩
  have happend : x ++ utf8 (" " ++ toString n) = x ++ 0x20 :: utf8 (toString n) := by
    rw [utf8_append]
    rfl
  rw [Mentions, happend]
  rw [htext] at hno ⊢
  rw [infix_cut hdigits hn]
  exact ⟨fun h => (h.resolve_left hno).2, fun h => .inr ⟨hx, h⟩⟩

/-- A status of three digits that begins with the digits looked for. -/
theorem digits_status {n : ℕ} (hlow : 100 ≤ n) (hhigh : n < 1000) :
    (digitsOf "status 404" <+: utf8 (toString n) ↔ n = 404) ∧
    (digitsOf "status 403" <+: utf8 (toString n) ↔ n = 403) ∧
    (digitsOf "status 4" <+: utf8 (toString n) ↔ n / 100 = 4) := by
  have h404 : digitsOf "status 404" = [digit 4, digit 0, digit 4] := by decide
  have h403 : digitsOf "status 403" = [digit 4, digit 0, digit 3] := by decide
  have h4 : digitsOf "status 4" = [digit 4] := by decide
  rw [utf8_status hlow hhigh, h404, h403, h4]
  simp only [List.cons_prefix_cons, List.nil_prefix, and_true,
    digit_inj (by decide : 4 < 10) (by omega : n / 100 < 10),
    digit_inj (by decide : 0 < 10) (by omega : n / 10 % 10 < 10),
    digit_inj (by decide : 4 < 10) (by omega : n % 10 < 10),
    digit_inj (by decide : 3 < 10) (by omega : n % 10 < 10)]
  omega

/-! ## The paths in the texts -/

/-- `appsPath` and `addonsPath`. -/
def pathBelow (root slug : Bytes) (op : String) : Bytes :=
  0x2F :: (root ++ [0x2F]) ++ (slug ++ utf8 ("/" ++ op))

theorem appsPath_eq (slug : Bytes) (op : String) :
    appsPath slug op = pathBelow (utf8 "apps") slug op := rfl

theorem addonsPath_eq (slug : Bytes) (op : String) :
    addonsPath slug op = pathBelow (utf8 "addons") slug op := rfl

section Paths

variable {text op : String} {pre root slug tail : Bytes}

/-- What is looked for is in the slug or behind the path. -/
theorem pathBelow_mentions (ht : text ∈ statusTexts) (hpre : ¬ utf8 text <:+: pre)
    (hroot : ¬ utf8 text <:+: root) :
    Mentions (pre ++ pathBelow root slug op ++ tail) text ↔
      Mentions slug text ∨ Mentions (utf8 op ++ tail) text := by
  have hcut : pre ++ pathBelow root slug op ++ tail =
      pre ++ 0x2F :: (root ++ 0x2F :: (slug ++ 0x2F :: (utf8 op ++ tail))) := by
    rw [pathBelow, utf8_append]
    show pre ++ (0x2F :: (root ++ [0x2F]) ++ (slug ++ ([0x2F] ++ utf8 op))) ++ tail = _
    simp
  have hslash := not_slash ht
  rw [Mentions, hcut, infix_append_cons hslash, infix_append_cons hslash, infix_append_cons hslash]
  exact ⟨fun h => (h.resolve_left hpre).resolve_left hroot, fun h => .inr (.inr h)⟩

end Paths

/-! ## Exchanges -/

abbrev Exchange := Except SendError (ℕ × Bytes)

def Exchange.status : Exchange → Option ℕ
  | .ok r => some r.1
  | .error _ => none

/-- What an exchange can be: a status has three digits, and a URL is refused with a text of
`net/url`. -/
def Exchange.Possible : Exchange → Prop
  | .ok r => 100 ≤ r.1 ∧ r.1 < 1000
  | .error (.badURL err) => ∃ e : URLError, err = utf8 e.text
  | .error (.failed _) => True

/-- The exchange itself reads like a text that is looked for: its status does, or the text of its
failure. -/
def Exchange.Reads (text : String) : Exchange → Prop
  | .ok r => digitsOf text <+: utf8 (toString r.1)
  | .error (.badURL _) => False
  | .error (.failed err) => Mentions err text

theorem send_possible {answers : ∀ i, Answer i}
    (hanswers : ∀ c status b, answers (.supervisor c) = .ok (status, b) →
      100 ≤ status ∧ status < 1000) (method : String) (path : Bytes) (body : Option Bytes) :
    Exchange.Possible ((send method path body).eval answers) := by
  unfold send
  cases hparse : parse path with
  | error e => exact ⟨e, rfl⟩
  | ok u =>
    show Exchange.Possible ((answers (.supervisor ⟨method, u.escapedPath, u.rawQuery, body⟩) :
      Except Bytes (ℕ × Bytes)).mapError .failed)
    cases hanswer : answers (.supervisor ⟨method, u.escapedPath, u.rawQuery, body⟩) with
    | error err => trivial
    | ok r => exact hanswers _ r.1 r.2 hanswer

section Texts

variable {text op : String} {root slug err : Bytes}

/-- The texts of the two paths of an operation do not read like a status. -/
structure Plain (op : String) (root : Bytes) : Prop where
  operation : op = "info" ∨ op = "options"
  root : root = utf8 "apps" ∨ root = utf8 "addons"

theorem buildError_mentions (hp : Plain op root) (ht : text ∈ statusTexts) (e : URLError) :
    Mentions (buildError (pathBelow root slug op) (utf8 e.text)).message text ↔
      Mentions slug text := by
  have hall : ∀ text ∈ statusTexts, (¬ utf8 text <:+: utf8 "supervisor: build ") ∧
      (∀ root ∈ [utf8 "apps", utf8 "addons"], ¬ utf8 text <:+: root) ∧
      ∀ op ∈ ["info", "options"], ∀ e ∈ [URLError.controlCharacter, .badEscape],
        ¬ utf8 text <:+: utf8 op ++ (utf8 " request: " ++ utf8 e.text) := by decide
  obtain ⟨hpre, hroot, htail⟩ := hall text ht
  have hop : op ∈ ["info", "options"] := by simpa using hp.operation
  have he : e ∈ [URLError.controlCharacter, .badEscape] := by cases e <;> simp
  unfold buildError
  rw [List.append_assoc, pathBelow_mentions ht hpre (hroot root (by simpa using hp.root))]
  exact or_iff_left (htail op hop e he)

/-- What is behind the path and its colon. -/
theorem colon_mentions (hp : Plain op root) (ht : text ∈ statusTexts) {pre : Bytes}
    (hpre : ¬ utf8 text <:+: pre) :
    Mentions (pre ++ pathBelow root slug op ++ (utf8 ": " ++ err)) text ↔
      Mentions slug text ∨ Mentions err text := by
  have hall : ∀ text ∈ statusTexts, (∀ root ∈ [utf8 "apps", utf8 "addons"], ¬ utf8 text <:+: root) ∧
      ∀ op ∈ ["info", "options"], (¬ utf8 text <:+: utf8 op ++ utf8 ": ") ∧
        ∀ l ∈ (utf8 text).inits, l <:+ utf8 op ++ utf8 ": " → l = [] := by decide
  obtain ⟨hroot, htail⟩ := hall text ht
  have hop : op ∈ ["info", "options"] := by simpa using hp.operation
  obtain ⟨hno, hapart⟩ := htail op hop
  rw [pathBelow_mentions ht hpre (hroot root (by simpa using hp.root)), ← List.append_assoc]
  exact or_congr_right (infix_append_of_apart hno hapart)

theorem transportError_mentions (hp : Plain op root) (ht : text ∈ statusTexts) :
    Mentions (transportError (pathBelow root slug op) err).message text ↔
      Mentions slug text ∨ Mentions err text := by
  have hpre : ∀ text ∈ statusTexts, ¬ utf8 text <:+: utf8 "supervisor: " := by decide
  unfold transportError
  rw [List.append_assoc]
  exact colon_mentions hp ht (hpre text ht)

theorem statusError_mentions (hroot : root = utf8 "apps" ∨ root = utf8 "addons")
    (ht : text ∈ statusTexts) {n : ℕ} (hlow : 100 ≤ n) (hhigh : n < 1000) :
    Mentions (utf8 "supervisor: " ++ pathBelow root slug "info" ++
        utf8 (" status " ++ toString n)) text ↔
      Mentions slug text ∨ digitsOf text <+: utf8 (toString n) := by
  have hall : ∀ text ∈ statusTexts, (¬ utf8 text <:+: utf8 "supervisor: ") ∧
      (∀ root ∈ [utf8 "apps", utf8 "addons"], ¬ utf8 text <:+: root) ∧
      ¬ utf8 text <:+: utf8 "info status" := by decide
  obtain ⟨hpre, hplain, hno⟩ := hall text ht
  rw [pathBelow_mentions ht hpre (hplain root (by simpa using hroot))]
  have happend : utf8 "info" ++ utf8 (" status " ++ toString n) =
      utf8 "info status" ++ utf8 (" " ++ toString n) := by
    rw [utf8_append " status ", utf8_append " "]
    rfl
  rw [happend]
  exact or_congr_right (mentions_status ht hlow hhigh (by decide) hno)

end Texts

/-! ## Errors of the JSON decoder -/

/-- The error texts of the codec do not read like a status, and its numbers are written as numbers
are. -/
structure Quiet (codec : Codec) : Prop where
  decode_error : ∀ body err, codec.decode body = .error err → ¬ utf8 "sta" <:+: utf8 err
  marshal_error : ∀ j err, codec.marshal j = .error err → ¬ utf8 "sta" <:+: utf8 err
  number : ∀ body j text, codec.decode body = .ok j → Json.Within (.num text) j →
    ∀ b ∈ utf8 text, b ∈ utf8 "+-.0123456789Ee"

def infoTypes : List String :=
  ["struct", "contract.AddOnInfo", "string", "bool", "[]string", "map[string]string"]

theorem decode_faults : Json.Faults infoTypes (dataOf AddOnInfo.decode) := by
  have hstring : Json.Faults infoTypes Json.string := Json.string_faults (by decide)
  have hboolean : Json.Faults infoTypes Json.boolean := Json.boolean_faults (by decide)
  have hmap : Json.Faults infoTypes (Json.stringMap "string" "" Json.string) :=
    Json.stringMap_faults (by decide) hstring
  have hslice : Json.Faults infoTypes (Json.slice "string" "" Json.string) :=
    Json.slice_faults (by decide) hstring
  have hinfo : Json.Faults infoTypes AddOnInfo.decode := by
    refine Json.struct_faults (by decide) fun a name j err h => ?_
    unfold AddOnInfo.set at h
    split at h
    all_goals first
      | exact hstring _ _ _ (Json.bind_error h)
      | exact hboolean _ _ _ (Json.bind_error h)
      | exact hmap _ _ _ (Json.bind_error h)
      | exact hslice _ _ _ (Json.bind_error h)
      | cases h
  exact Json.struct_faults (by decide) fun a name j err h => hinfo a j err h

theorem fault_quiet {j : Json} {err : String}
    (hnum : ∀ text, Json.Within (.num text) j → ∀ b ∈ utf8 text, b ∈ utf8 "+-.0123456789Ee")
    (h : Json.Fault infoTypes j err) : ¬ utf8 "sta" <:+: utf8 err := by
  obtain ⟨k, t, hk, ht, herr⟩ := h
  have hblank : (0x20 : UInt8) ∉ utf8 "sta" := by decide
  have htypes : ∀ t ∈ infoTypes, ¬ utf8 "sta" <:+: utf8 t := by decide
  have hkind : ¬ utf8 "sta" <:+: utf8 k.kind := by
    cases k with
    | num text =>
      have hcut : utf8 (Json.kind (.num text)) = utf8 "number" ++ 0x20 :: utf8 text := by
        rw [Json.kind, utf8_append]
        rfl
      rw [hcut, infix_append_cons hblank]
      intro h
      rcases h with h | h
      · exact absurd h (by decide)
      · have hs := hnum text hk 0x73 (h.subset (by decide))
        exact absurd hs (by decide)
    | null => exact (by decide : ¬ utf8 "sta" <:+: utf8 "null")
    | bool b => exact (by decide : ¬ utf8 "sta" <:+: utf8 "bool")
    | str s => exact (by decide : ¬ utf8 "sta" <:+: utf8 "string")
    | arr es => exact (by decide : ¬ utf8 "sta" <:+: utf8 "array")
    | obj fs => exact (by decide : ¬ utf8 "sta" <:+: utf8 "object")
  have hcut : utf8 err = utf8 "json: cannot unmarshal" ++ 0x20 :: (utf8 k.kind ++
      0x20 :: (utf8 "into Go value of type" ++ 0x20 :: utf8 t)) := by
    rw [← Except.error.inj herr, utf8_append, utf8_append, utf8_append, List.append_assoc,
      List.append_assoc]
    rfl
  rw [hcut, infix_append_cons hblank, infix_append_cons hblank, infix_append_cons hblank]
  intro h
  rcases h with h | h | h | h
  · exact absurd h (by decide)
  · exact hkind h
  · exact absurd h (by decide)
  · exact htypes t ht h

theorem body_error_quiet {codec : Codec} (hq : Quiet codec) {body : Bytes} {err : String}
    (h : (codec.decode body).bind (dataOf AddOnInfo.decode {}) = .error err) :
    ¬ utf8 "sta" <:+: utf8 err := by
  cases hdoc : codec.decode body with
  | error err' =>
    rw [hdoc] at h
    obtain rfl := Except.error.inj h
    exact hq.decode_error body _ hdoc
  | ok j =>
    rw [hdoc] at h
    exact fault_quiet (fun text => hq.number body j text hdoc) (decode_faults {} j err h)

/-! ## `GetAddonInfo` -/

/-- The answer is an add-on's info. -/
def Exchange.Informs (codec : Codec) (x : Exchange) : Prop :=
  ∃ body info, x = .ok (200, body) ∧
    (codec.decode body).bind (dataOf AddOnInfo.decode {}) = .ok info

/-- What `getAddonInfoFromPath` makes of an exchange. -/
def infoFrom (codec : Codec) (path : Bytes) : Exchange → Except WireError AddOnInfo
  | .error (.badURL err) => .error (buildError path err)
  | .error (.failed err) => .error (transportError path err)
  | .ok (status, body) =>
    if status ≠ 200 then
      .error ⟨utf8 "supervisor: " ++ path ++ utf8 (" status " ++ toString status), none⟩
    else
      match (codec.decode body).bind (dataOf AddOnInfo.decode {}) with
      | .ok info => .ok (Client.normalize info)
      | .error err =>
        .error ⟨utf8 "supervisor: decode " ++ path ++ utf8 (": " ++ err), none⟩

theorem eval_getAddonInfoFromPath (codec : Codec) (path : Bytes) (answers : ∀ i, Answer i) :
    (getAddonInfoFromPath codec path).eval answers =
      infoFrom codec path ((send "GET" path none).eval answers) := by
  simp only [getAddonInfoFromPath, Dialogue.bind_eq, Dialogue.eval_bind]
  unfold infoFrom
  cases (send "GET" path none).eval answers with
  | error e => cases e <;> rfl
  | ok r =>
    obtain ⟨status, body⟩ := r
    dsimp only
    split_ifs
    · rfl
    · cases (codec.decode body).bind (dataOf AddOnInfo.decode {}) <;> rfl

/-- What `GetAddonInfo` makes of its two exchanges. -/
def infoOf (codec : Codec) (slug : Bytes) (v2 v1 : Exchange) : Except WireError AddOnInfo :=
  match infoFrom codec (appsPath slug "info") v2 with
  | .ok info => .ok info
  | .error v2Err =>
    match infoFrom codec (addonsPath slug "info") v1 with
    | .ok info => .ok info
    | .error v1Err =>
      if (v2Err.mentions "status 404" || v2Err.mentions "status 403") &&
          v1Err.mentions "status 404" then
        .error ⟨utf8 Sentinel.notFound.text, some .notFound⟩
      else .error v1Err

theorem eval_getAddonInfo (codec : Codec) (slug : Bytes) (answers : ∀ i, Answer i) :
    (getAddonInfo codec slug).eval answers =
      infoOf codec slug ((send "GET" (appsPath slug "info") none).eval answers)
        ((send "GET" (addonsPath slug "info") none).eval answers) := by
  simp only [getAddonInfo, Dialogue.bind_eq, Dialogue.eval_bind, eval_getAddonInfoFromPath]
  unfold infoOf
  cases infoFrom codec (appsPath slug "info")
      ((send "GET" (appsPath slug "info") none).eval answers) with
  | ok info => rfl
  | error v2Err =>
    simp only [Dialogue.eval_bind, eval_getAddonInfoFromPath]
    cases infoFrom codec (addonsPath slug "info")
        ((send "GET" (addonsPath slug "info") none).eval answers) with
    | ok info => rfl
    | error v1Err =>
      dsimp only
      split_ifs <;> rfl

section Info

variable {codec : Codec} {text : String} {root slug path : Bytes} {x v1 v2 : Exchange}
  {e : WireError}

theorem infoFrom_of_informs (path : Bytes) (h : x.Informs codec) :
    ∃ info, infoFrom codec path x = .ok info := by
  obtain ⟨body, info, rfl, hinfo⟩ := h
  refine ⟨Client.normalize info, ?_⟩
  unfold infoFrom
  dsimp only
  rw [if_neg (not_not.mpr rfl), hinfo]

theorem informs_of_infoFrom {info : AddOnInfo} (h : infoFrom codec path x = .ok info) :
    x.Informs codec := by
  unfold infoFrom at h
  rcases x with err | ⟨status, body⟩
  · cases err <;> cases h
  · dsimp only at h
    by_cases hstatus : status = 200
    · subst hstatus
      rw [if_neg (not_not.mpr rfl)] at h
      cases hbody : (codec.decode body).bind (dataOf AddOnInfo.decode {}) with
      | ok info => exact ⟨body, info, rfl, hbody⟩
      | error err =>
        rw [hbody] at h
        cases h
    · rw [if_pos hstatus] at h
      cases h

/-- The errors of a path carry no sentinel, and what they say. -/
theorem infoFrom_error (hq : Quiet codec) (hx : x.Possible)
    (hroot : root = utf8 "apps" ∨ root = utf8 "addons") (ht : text ∈ statusTexts)
    (h : infoFrom codec (pathBelow root slug "info") x = .error e) :
    e.sentinel = none ∧ (Mentions e.message text ↔ Mentions slug text ∨ x.Reads text) := by
  have hp : Plain "info" root := ⟨.inl rfl, hroot⟩
  unfold infoFrom at h
  rcases x with err | ⟨status, body⟩
  · cases err with
    | badURL err =>
      obtain ⟨u, rfl⟩ := hx
      obtain rfl := Except.error.inj h
      exact ⟨rfl, (buildError_mentions hp ht u).trans (or_iff_left id).symm⟩
    | failed err =>
      obtain rfl := Except.error.inj h
      exact ⟨rfl, transportError_mentions hp ht⟩
  · dsimp only at h
    by_cases hstatus : status = 200
    · subst hstatus
      rw [if_neg (not_not.mpr rfl)] at h
      cases hbody : (codec.decode body).bind (dataOf AddOnInfo.decode {}) with
      | ok info =>
        rw [hbody] at h
        cases h
      | error err =>
        rw [hbody] at h
        obtain rfl := Except.error.inj h
        have hall : ∀ text ∈ statusTexts, (¬ utf8 text <:+: utf8 "supervisor: decode ") ∧
          ¬ digitsOf text <+: utf8 (toString 200) := by decide
        obtain ⟨hpre, hread⟩ := hall text ht
        refine ⟨rfl, ?_⟩
        have herr : ¬ Mentions (utf8 err) text := fun h =>
          body_error_quiet hq hbody (mentions_sta ht h)
        show Mentions (_ ++ utf8 (": " ++ err)) text ↔ _
        rw [utf8_append, colon_mentions hp ht hpre]
        exact or_congr_right (iff_of_false herr hread)
    · rw [if_pos hstatus] at h
      obtain rfl := Except.error.inj h
      exact ⟨rfl, statusError_mentions hroot ht hx.1 hx.2⟩

end Info

theorem mentions_iff (e : WireError) (text : String) :
    e.mentions text = true ↔ Mentions e.message text := by
  rw [WireError.mentions, Mentions, decide_eq_true_iff]

/-- The slug or the exchange reads like the status. -/
def LooksLike (slug : Bytes) (x : Exchange) (text : String) : Prop :=
  Mentions slug text ∨ x.Reads text

/-- Neither exchange gives an info, and both look like a missing add-on. -/
def LooksMissing (codec : Codec) (slug : Bytes) (v2 v1 : Exchange) : Prop :=
  ¬ v2.Informs codec ∧ ¬ v1.Informs codec ∧
    (LooksLike slug v2 "status 404" ∨ LooksLike slug v2 "status 403") ∧
    LooksLike slug v1 "status 404"

/-- The statuses say that the add-on is missing. -/
def Missing (v2 v1 : Exchange) : Prop :=
  (v2.status = some 404 ∨ v2.status = some 403) ∧ v1.status = some 404

section NotFound

variable {codec : Codec} {slug : Bytes} {v2 v1 : Exchange}

def IsNotFound (r : Except WireError AddOnInfo) : Prop :=
  ∃ e, r = .error e ∧ e.sentinel = some .notFound

theorem infoOf_notFound (hq : Quiet codec) (hv2 : v2.Possible) (hv1 : v1.Possible) :
    IsNotFound (infoOf codec slug v2 v1) ↔ LooksMissing codec slug v2 v1 := by
  have hok : ∀ info, ¬ IsNotFound (.ok info) := fun info ⟨e, h, _⟩ => nomatch h
  unfold infoOf LooksMissing
  cases h2 : infoFrom codec (appsPath slug "info") v2 with
  | ok info => exact iff_of_false (hok info) fun h => h.1 (informs_of_infoFrom h2)
  | error v2Err =>
    have hno2 : ¬ v2.Informs codec := fun h => by
      obtain ⟨info, hinfo⟩ := infoFrom_of_informs (appsPath slug "info") h
      rw [h2] at hinfo
      cases hinfo
    rw [appsPath_eq] at h2
    cases h1 : infoFrom codec (addonsPath slug "info") v1 with
    | ok info => exact iff_of_false (hok info) fun h => h.2.1 (informs_of_infoFrom h1)
    | error v1Err =>
      have hno1 : ¬ v1.Informs codec := fun h => by
        obtain ⟨info, hinfo⟩ := infoFrom_of_informs (addonsPath slug "info") h
        rw [h1] at hinfo
        cases hinfo
      rw [addonsPath_eq] at h1
      have h404 : "status 404" ∈ statusTexts := by decide
      have h403 : "status 403" ∈ statusTexts := by decide
      obtain ⟨-, h2404⟩ := infoFrom_error hq hv2 (.inl rfl) h404 h2
      obtain ⟨-, h2403⟩ := infoFrom_error hq hv2 (.inl rfl) h403 h2
      obtain ⟨hnone, h1404⟩ := infoFrom_error hq hv1 (.inr rfl) h404 h1
      have htest : ((v2Err.mentions "status 404" || v2Err.mentions "status 403") &&
          v1Err.mentions "status 404") = true ↔
          (LooksLike slug v2 "status 404" ∨ LooksLike slug v2 "status 403") ∧
            LooksLike slug v1 "status 404" := by
        rw [Bool.and_eq_true, Bool.or_eq_true, mentions_iff, mentions_iff, mentions_iff, h2404,
          h2403, h1404]
        rfl
      dsimp only
      split_ifs with hcond
      · exact iff_of_true ⟨_, rfl, rfl⟩ ⟨hno2, hno1, htest.mp hcond⟩
      · refine iff_of_false ?_ fun h => hcond (htest.mpr h.2.2)
        rintro ⟨e, he, hs⟩
        obtain rfl := Except.error.inj he
        rw [hnone] at hs
        cases hs

theorem reads_of_status {x : Exchange} {n : ℕ} (hx : x.Possible) (h : x.status = some n) :
    (x.Reads "status 404" ↔ n = 404) ∧ (x.Reads "status 403" ↔ n = 403) ∧
      (x.Reads "status 4" ↔ n / 100 = 4) := by
  rcases x with err | ⟨status, body⟩
  · cases h
  · obtain rfl := Option.some.inj h
    exact digits_status hx.1 hx.2

theorem not_informs_of_status {x : Exchange} {n : ℕ} (hn : n ≠ 200) (h : x.status = some n) :
    ¬ x.Informs codec := by
  rintro ⟨body, info, rfl, -⟩
  exact hn (Option.some.inj h).symm

/-- A missing add-on is always reported. -/
theorem looksMissing_of_missing (hv2 : v2.Possible) (hv1 : v1.Possible) (h : Missing v2 v1) :
    LooksMissing codec slug v2 v1 := by
  obtain ⟨h2, h1⟩ := h
  have hread1 := (reads_of_status hv1 h1).1.mpr rfl
  refine ⟨?_, not_informs_of_status (by decide) h1, ?_, .inr hread1⟩
  · rcases h2 with h2 | h2
    · exact not_informs_of_status (by decide) h2
    · exact not_informs_of_status (by decide) h2
  · rcases h2 with h2 | h2
    · exact .inl (.inr ((reads_of_status hv2 h2).1.mpr rfl))
    · exact .inr (.inr ((reads_of_status hv2 h2).2.1.mpr rfl))

end NotFound

/-! ## The options call -/

section Options

variable {codec : Codec} {slug : Bytes} {v2 v1 : Exchange} {answers : ∀ i, Answer i}

/-- What `postFallback` makes of its two exchanges. -/
def postedOf (slug : Bytes) (op : String) : Exchange → Exchange → Except WireError Unit
  | .error (.badURL err), _ => .error (buildError (appsPath slug op) err)
  | .error (.failed err), _ => .error (transportError (appsPath slug op) err)
  | .ok (status, _), v1 =>
    if status = 200 then .ok ()
    else
      match v1.status with
      | none => .error (.ofGoError (classifyStatus "POST" op status))
      | some status2 =>
        if status2 = 200 then .ok ()
        else .error (.ofGoError (classifyStatus "POST" op status2))

theorem eval_postFallback (slug : Bytes) (op : String) (body : Option Bytes)
    (answers : ∀ i, Answer i) :
    (postFallback slug op body).eval answers =
      postedOf slug op ((send "POST" (appsPath slug op) body).eval answers)
        ((send "POST" (addonsPath slug op) body).eval answers) := by
  simp only [postFallback, tryPost, Dialogue.bind_eq, Dialogue.eval_bind]
  unfold postedOf
  cases (send "POST" (appsPath slug op) body).eval answers with
  | error e => cases e <;> rfl
  | ok r =>
    obtain ⟨status, b⟩ := r
    dsimp only
    simp only [Dialogue.pure_eq, Dialogue.eval_done]
    split_ifs
    · rfl
    · simp only [Dialogue.eval_bind]
      cases (send "POST" (addonsPath slug op) body).eval answers with
      | error e => cases e <;> rfl
      | ok r =>
        obtain ⟨status2, b2⟩ := r
        simp only [Dialogue.eval_done, Exchange.status]
        split_ifs <;> rfl

/-- The options handler takes the error for one of the client. -/
def IsClientError (r : Except WireError Unit) : Prop :=
  ∃ e, r = .error e ∧ e.mentions "status 4" = true

/-- The status of a POST that failed: that of the second answer if there is one. -/
def failedStatus (v2 v1 : Exchange) : Option ℕ :=
  v2.status.bind fun status => if status = 200 then none else
    match v1.status with
    | none => some status
    | some status2 => if status2 = 200 then none else some status2

/-- A refusal of the Supervisor itself. -/
def Refused (v2 v1 : Exchange) : Prop := ∃ n, failedStatus v2 v1 = some n ∧ n / 100 = 4

theorem not_refused (h : v2.status = none) : ¬ Refused v2 v1 := by
  rintro ⟨n, hn, -⟩
  rw [failedStatus, h] at hn
  cases hn

theorem classifyStatus_mentions {n : ℕ} (hlow : 100 ≤ n) (hhigh : n < 1000) :
    (WireError.ofGoError (classifyStatus "POST" "options" n)).mentions "status 4" = true ↔
      n / 100 = 4 := by
  have hpre : ∀ s : Sentinel,
      (¬ utf8 "status 4" <:+: utf8 (s.text ++ ": supervisor: POST options status")) ∧
        utf8 "status" <:+ utf8 (s.text ++ ": supervisor: POST options status") := by
    intro s
    cases s <;> decide
  have hmessage : ∀ s : Sentinel,
      Mentions (utf8 (s.text ++ ": supervisor: POST options status" ++ (" " ++ toString n)))
        "status 4" ↔ n / 100 = 4 := by
    intro s
    rw [utf8_append, mentions_status (by decide) hlow hhigh (hpre s).2 (hpre s).1]
    exact (digits_status hlow hhigh).2.2
  have hassoc : ∀ s : Sentinel, s.text ++ ": supervisor: " ++ "POST" ++ " " ++ "options" ++
      " status " ++ toString n =
        s.text ++ ": supervisor: POST options status" ++ (" " ++ toString n) := by
    intro s
    simp only [String.append_assoc]
    rfl
  rw [mentions_iff, WireError.ofGoError, classifyStatus]
  split_ifs
  all_goals
    dsimp only
    rw [hassoc]
    exact hmessage _

theorem postedOf_clientError (hv2 : v2.Possible) (hv1 : v1.Possible) :
    IsClientError (postedOf slug "options" v2 v1) ↔
      Refused v2 v1 ∨ v2.status = none ∧ LooksLike slug v2 "status 4" := by
  have hp : Plain "options" (utf8 "apps") := ⟨.inr rfl, .inl rfl⟩
  have hok : ¬ IsClientError (.ok ()) := fun ⟨e, h, _⟩ => nomatch h
  have herror : ∀ e, IsClientError (.error e) ↔ e.mentions "status 4" = true := by
    intro e
    exact ⟨fun ⟨e', he, h⟩ => Except.error.inj he ▸ h, fun h => ⟨e, rfl, h⟩⟩
  have hnone : ∀ {v2 : Exchange}, v2.status = none → ¬ Refused v2 v1 := not_refused
  rcases v2 with err | ⟨status, body⟩
  · cases err with
    | badURL err =>
      obtain ⟨u, rfl⟩ := hv2
      rw [postedOf, herror, mentions_iff, appsPath_eq, buildError_mentions hp (by decide),
        or_iff_right (hnone rfl)]
      exact ⟨fun h => ⟨rfl, .inl h⟩, fun h => h.2.resolve_right id⟩
    | failed err =>
      rw [postedOf, herror, mentions_iff, appsPath_eq, transportError_mentions hp (by decide),
        or_iff_right (hnone rfl)]
      exact ⟨fun h => ⟨rfl, h⟩, fun h => h.2⟩
  · have hsome : ¬ (Exchange.status (.ok (status, body)) = none ∧
        LooksLike slug (.ok (status, body)) "status 4") := fun h => nomatch h.1
    rw [or_iff_left hsome]
    have hrefused : ∀ {o : Option ℕ}, failedStatus (.ok (status, body)) v1 = o →
        (Refused (.ok (status, body)) v1 ↔ ∃ n, o = some n ∧ n / 100 = 4) := by
      intro o ho
      rw [Refused, ho]
    by_cases hstatus : status = 200
    · rw [postedOf, if_pos hstatus]
      have ho : failedStatus (.ok (status, body)) v1 = none := by
        show (if status = 200 then none else _) = none
        rw [if_pos hstatus]
      rw [hrefused ho]
      exact iff_of_false hok fun ⟨n, h, _⟩ => nomatch h
    · rw [postedOf, if_neg hstatus]
      have ho : failedStatus (.ok (status, body)) v1 =
          match v1.status with
          | none => some status
          | some status2 => if status2 = 200 then none else some status2 := by
        show (if status = 200 then none else _) = _
        rw [if_neg hstatus]
      rw [hrefused ho]
      rcases v1 with err | ⟨status2, body2⟩
      · show IsClientError (.error _) ↔ ∃ n, some status = some n ∧ n / 100 = 4
        rw [herror, classifyStatus_mentions hv2.1 hv2.2]
        simp
      · show IsClientError (if status2 = 200 then _ else _) ↔
          ∃ n, (if status2 = 200 then none else some status2) = some n ∧ n / 100 = 4
        by_cases hstatus2 : status2 = 200
        · rw [if_pos hstatus2, if_pos hstatus2]
          exact iff_of_false hok fun ⟨n, h, _⟩ => nomatch h
        · rw [if_neg hstatus2, if_neg hstatus2, herror, classifyStatus_mentions hv1.1 hv1.2]
          simp

end Options

/-! ## What the texts decide -/

/-- **The texts say what the statuses say unless the slug or a failure's text reads like one.** -/
theorem classified_iff {codec : Codec} (hq : Quiet codec) {answers : ∀ i, Answer i}
    (hanswers : ∀ c status b, answers (.supervisor c) = .ok (status, b) →
      100 ≤ status ∧ status < 1000) (slug : Bytes) :
    ((IsNotFound ((getAddonInfo codec slug).eval answers) ↔
        Missing ((send "GET" (appsPath slug "info") none).eval answers)
          ((send "GET" (addonsPath slug "info") none).eval answers)) ↔
      (LooksMissing codec slug ((send "GET" (appsPath slug "info") none).eval answers)
          ((send "GET" (addonsPath slug "info") none).eval answers) →
        Missing ((send "GET" (appsPath slug "info") none).eval answers)
          ((send "GET" (addonsPath slug "info") none).eval answers))) ∧
    ∀ opts, ((IsClientError ((optionsCall codec slug opts).eval answers) ↔
        ∃ b, codec.marshal opts = .ok b ∧
          Refused ((send "POST" (appsPath slug "options") (some b)).eval answers)
            ((send "POST" (addonsPath slug "options") (some b)).eval answers)) ↔
      ∀ b, codec.marshal opts = .ok b →
        Exchange.status ((send "POST" (appsPath slug "options") (some b)).eval answers) = none →
          ¬ LooksLike slug ((send "POST" (appsPath slug "options") (some b)).eval answers)
            "status 4") := by
  constructor
  · have hv2 := send_possible hanswers "GET" (appsPath slug "info") none
    have hv1 := send_possible hanswers "GET" (addonsPath slug "info") none
    rw [eval_getAddonInfo, infoOf_notFound hq hv2 hv1]
    exact ⟨fun h => h.mp, fun h => ⟨h, looksMissing_of_missing hv2 hv1⟩⟩
  · intro opts
    unfold optionsCall
    cases hm : codec.marshal opts with
    | error err =>
      have hno : ¬ IsClientError
          (.error ⟨utf8 ("supervisor: marshal options body: " ++ err), none⟩) := by
        rintro ⟨e, he, h⟩
        obtain rfl := Except.error.inj he
        rw [mentions_iff] at h
        have hsta := mentions_sta (by decide) h
        have hcut : utf8 ("supervisor: marshal options body: " ++ err) =
            utf8 "supervisor: marshal options body:" ++ 0x20 :: utf8 err := by
          rw [utf8_append]
          rfl
        dsimp only at hsta
        rw [hcut, infix_append_cons (by decide)] at hsta
        rcases hsta with hsta | hsta
        · exact absurd hsta (by decide)
        · exact hq.marshal_error opts err hm hsta
      refine iff_of_true (iff_of_false hno ?_) fun b hb => nomatch hb
      rintro ⟨b, hb, -⟩
      cases hb
    | ok b =>
      dsimp only
      have hv2 := send_possible hanswers "POST" (appsPath slug "options") (some b)
      have hv1 := send_possible hanswers "POST" (addonsPath slug "options") (some b)
      rw [eval_postFallback, postedOf_clientError hv2 hv1]
      constructor
      · rintro h b' hb hnone hlooks
        obtain rfl := Except.ok.inj hb
        obtain ⟨b', hb, hrefused⟩ := h.mp (.inr ⟨hnone, hlooks⟩)
        obtain rfl := Except.ok.inj hb
        exact not_refused hnone hrefused
      · intro h
        constructor
        · rintro (hrefused | ⟨hnone, hlooks⟩)
          · exact ⟨b, rfl, hrefused⟩
          · exact absurd hlooks (h b rfl hnone)
        · rintro ⟨b', hb, hrefused⟩
          obtain rfl := Except.ok.inj hb
          exact .inl hrefused

/-! ### The slug `status 404` -/

/-- A decoder that finds no document, as in the empty body. -/
def emptyCodec : Codec where
  unmarshal := fun _ => .error "unexpected end of JSON input"
  decode := fun _ => .error "EOF"
  marshal := fun _ => .ok (utf8 "null")

/-- Every request is answered with a server error. -/
def unwell : ∀ i, Answer i
  | .validate _ _ _ => .ok ()
  | .tryAcquire _ => .ok ()
  | .release _ => ()
  | .supervisor _ => .ok (500, [])

theorem quiet_emptyCodec : Quiet emptyCodec where
  decode_error := by
    rintro body err h
    obtain rfl := Except.error.inj h
    decide
  marshal_error := fun j err h => nomatch h
  number := fun body j text h => nomatch h

theorem unwell_status (c : Call) (status : ℕ) (b : Bytes)
    (h : unwell (.supervisor c) = .ok (status, b)) : 100 ≤ status ∧ status < 1000 := by
  obtain ⟨rfl, -⟩ := Prod.mk.inj (Except.ok.inj h)
  decide

/-- `GET /v1/addons/core_ssh/info` while the Supervisor is unwell is no missing add-on. -/
theorem unwell_core_ssh :
    ¬ IsNotFound ((getAddonInfo emptyCodec (utf8 "core_ssh")).eval unwell) := by
  intro h
  have hlooks : LooksMissing emptyCodec (utf8 "core_ssh") (.ok (500, [])) (.ok (500, [])) →
      Missing (.ok (500, [])) (.ok (500, [])) := by
    rintro ⟨-, -, -, hv1⟩
    rcases hv1 with hv1 | hv1
    · exact absurd hv1 (by unfold Mentions; decide)
    · exact absurd hv1 (by unfold Exchange.Reads; decide)
  have hiff := (classified_iff quiet_emptyCodec unwell_status (utf8 "core_ssh")).1.mpr hlooks
  exact absurd (hiff.mp h).2 (by decide)

/-- `POST /v1/addons/status%20404/options` while the Supervisor is unwell: the router hands over the
slug, and its info is reported as missing although both answers are 500. -/
theorem unwell_not_found :
    ((setPath (utf8 "/v1/addons/status%20404/options") []).toOption.bind route =
      some (.options, utf8 "status 404")) ∧
    IsNotFound ((getAddonInfo emptyCodec (utf8 "status 404")).eval unwell) ∧
    ¬ Missing ((send "GET" (appsPath (utf8 "status 404") "info") none).eval unwell)
      ((send "GET" (addonsPath (utf8 "status 404") "info") none).eval unwell) := by
  refine ⟨by decide, ⟨⟨utf8 Sentinel.notFound.text, some .notFound⟩, by decide, rfl⟩, ?_⟩
  rintro ⟨-, h⟩
  exact absurd h (by decide)

end HaAddons.Bridge.Handlers

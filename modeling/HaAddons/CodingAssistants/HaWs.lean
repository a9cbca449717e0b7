import HaAddons.Lib.Dict
import HaAddons.Lib.PyText

/-!
# The values that `ha-ws` sends

Two front ends feed one value parser. The shell passes a list of arguments, a batch line is split
at white space, and `parse_value` guesses the type of what stands behind the `=`.

**Documented values** (`Arg`). A string stands for itself, or in double quotes if it has spaces or
reads like another type. Which strings read like another type is left to the writer (`Spelling`).

**Main result.** `sends_written_iff` — the values arrive, from a batch line and from the shell,
exactly when no number has more digits than `int` reads, every string is one word and is quoted or
`Verbatim`, and no key is one of the parameters of `send`.
-/

namespace HaAddons.CodingAssistants

open Lib.Py

/-! ## Values -/

/-- The values of a message. -/
inductive Value where
  | null
  | bool (b : Bool)
  | int (n : ℤ)
  /-- `float(text)` -/
  | float (text : String)
  | str (s : String)
  deriving DecidableEq

section Parsing

variable (numerals : Numerals)

/-- Both ends of the text are `q`. -/
def enclosed (q : Char) (v : Text) : Bool := v.head? = some q && v.getLast? = some q

/-- The words for null and the two booleans. -/
def typeWords : List Text := ["null".toList, "none".toList, "true".toList, "false".toList]

/-- `parse_value` of a text that is none of the words. -/
def parseRest (v : String) : Value :=
  match pyInt numerals v.toList with
  | some n => .int n
  | none =>
    if isFloat numerals v.toList then .float v
    else if enclosed '"' v.toList || enclosed '\'' v.toList then
      .str (String.ofList v.toList.tail.dropLast)
    else .str v

def parseValue (v : String) : Value :=
  let lowered := lower v.toList
  if lowered = "null".toList ∨ lowered = "none".toList then .null
  else if lowered = "true".toList then .bool true
  else if lowered = "false".toList then .bool false
  else parseRest numerals v

/-- `arg.split('=', 1)` of an argument that has a `=`. -/
def splitEq (arg : String) : Option (String × String) :=
  if '=' ∈ arg.toList then
    some (String.ofList (arg.toList.takeWhile (· ≠ '=')),
      String.ofList (arg.toList.dropWhile (· ≠ '=')).tail)
  else none

def parseKvArgs (args : List String) : Dict String Value :=
  .ofList (args.filterMap fun arg => (splitEq arg).map fun e => (e.1, parseValue numerals e.2))

end Parsing

/-! ## Messages -/

inductive Field where
  | value (v : Value)
  | dict (d : Dict String Value)
  deriving DecidableEq

/-- A message as JSON object. -/
abbrev Message := Dict String Field

/-- `HAWebSocket.send`, the first of its connection. `none` is the `TypeError` of a keyword that is
one of its parameters. -/
def send (msgType : String) (kwargs : Dict String Field) : Option Message :=
  if "self" ∈ kwargs.keys ∨ "msg_type" ∈ kwargs.keys then none
  else
    let payload : Message :=
      .ofList [("id", .value (.int 1)), ("type", .value (.str msgType))]
    some (payload.update kwargs)

/-- The call `send(msg_type, key=own, **params)`, which takes no second `key`. -/
def sendWith (msgType key own : String) (params : Dict String Value) : Option Message :=
  if key ∈ params.keys then none
  else
    let kwargs : Dict String Field := .ofList [(key, .value (.str own))]
    send msgType (kwargs.update (params.map .value))

def entityUpdate (entityId : String) (updates : Dict String Value) : Option Message :=
  sendWith "config/entity_registry/update" "entity_id" entityId updates

def deviceUpdate (deviceId : String) (updates : Dict String Value) : Option Message :=
  sendWith "config/device_registry/update" "device_id" deviceId updates

def areaUpdate (areaId : String) (updates : Dict String Value) : Option Message :=
  sendWith "config/area_registry/update" "area_id" areaId updates

/-- The arguments that go into the target of a service call. -/
def isTarget (key : String) : Bool := key = "entity_id" || key = "device_id" || key = "area_id"

/-- `if d: args[key] = d` -/
def setDict (args : Dict String Field) (key : String) (d : Dict String Value) : Dict String Field :=
  if d.entries = [] then args else args.insert key (.dict d)

def callService (service : String) (data : Dict String Value) : Option Message :=
  if '.' ∉ service.toList then none
  else
    let domain := String.ofList (service.toList.takeWhile (· ≠ '.'))
    let name := String.ofList (service.toList.dropWhile (· ≠ '.')).tail
    let target := data.filter isTarget
    let serviceData := data.filter (!isTarget ·)
    let args : Dict String Field :=
      .ofList [("domain", .value (.str domain)), ("service", .value (.str name))]
    send "call_service" (setDict (setDict args "service_data" serviceData) "target" target)

def rawCall (msgType : String) (params : Dict String Value) : Option Message :=
  send msgType (params.map .value)

/-! ## Commands -/

section Running

variable (numerals : Numerals)

/-- The first message of a command; `none` if there is none. -/
def runCommand : List String → Option Message
  | "entity" :: "update" :: id :: arg :: args =>
    entityUpdate id (parseKvArgs numerals (arg :: args))
  | "device" :: "update" :: id :: arg :: args =>
    deviceUpdate id (parseKvArgs numerals (arg :: args))
  | "area" :: "update" :: id :: arg :: args => areaUpdate id (parseKvArgs numerals (arg :: args))
  | "call" :: service :: args => callService service (parseKvArgs numerals args)
  | "raw" :: type :: args => rawCall type (parseKvArgs numerals args)
  | "entity" :: "list" :: _ => send "config/entity_registry/list" .empty
  | "entity" :: "get" :: id :: _ => sendWith "config/entity_registry/get" "entity_id" id .empty
  | "entity" :: "remove" :: id :: _ =>
    sendWith "config/entity_registry/remove" "entity_id" id .empty
  | "device" :: "list" :: _ | "device" :: "get" :: _ :: _ =>
    send "config/device_registry/list" .empty
  | "device" :: "remove" :: id :: _ =>
    sendWith "config/device_registry/remove" "device_id" id .empty
  | "area" :: "list" :: _ => send "config/area_registry/list" .empty
  | "area" :: "create" :: name :: _ => sendWith "config/area_registry/create" "name" name .empty
  | "area" :: "delete" :: id :: _ => sendWith "config/area_registry/delete" "area_id" id .empty
  | "state" :: _ :: _ | "states" :: _ => send "get_states" .empty
  | "services" :: _ => send "get_services" .empty
  | "search" :: item :: _ | "related" :: item :: _ =>
    sendWith "search/related" "item_id" item (.ofList [("item_type", .str "entity")])
  | "config" :: _ => send "get_config" .empty
  | "info" :: _ => send "config/core/info" .empty
  | _ => none

/-- One line of batch input. -/
def batchLine (line : String) : Option Message :=
  let line := strip line.toList
  if line ≠ [] ∧ line.head? ≠ some '#' then runCommand numerals ((words line).map String.ofList)
  else none

/-- The arguments without the first of each option. -/
def dropOptions (args : List String) : List String :=
  ((args.erase "--json").erase "--quiet").erase "-q"

/-- The first message of each command that is run. -/
def main (args stdin : List String) : List Message :=
  match dropOptions args with
  | [] | "-h" :: _ | "--help" :: _ | "help" :: _ => []
  | "batch" :: _ => stdin.filterMap (batchLine numerals)
  | args => (runCommand numerals args).toList

end Running

/-! ## Documented writing -/

/-- The values of an argument. -/
inductive Arg where
  | null
  | bool (b : Bool)
  | int (n : ℤ)
  | str (s : String) (line : ∀ c ∈ s.toList, c ≠ '"' ∧ c ≠ '\n' ∧ c ≠ '\r')

def Arg.value : Arg → Value
  | null => .null
  | bool b => .bool b
  | int n => .int n
  | str s _ => .str s

/-- What the documentation leaves open: the word for null, and which strings read like another
type, apart from those that it lists. -/
structure Spelling where
  null : String
  documented : null = "null" ∨ null = "none"
  typed : String → Bool
  typed_word : ∀ s ∈ ["null", "none", "true", "false"], typed s = true
  typed_int : ∀ n, typed (String.ofList (Doc.decimal n)) = true

def quote (s : String) : String := String.ofList ('"' :: s.toList ++ ['"'])

/-- The text of a value, where `quoted` strings stand in double quotes. -/
def Arg.text (spelling : Spelling) (quoted : String → Bool) : Arg → String
  | null => spelling.null
  | bool b => if b then "true" else "false"
  | int n => String.ofList (Doc.decimal n)
  | str s _ => if quoted s then quote s else s

/-- In a batch line, strings with spaces are quoted too. -/
def Spelling.quoted (spelling : Spelling) (s : String) : Bool :=
  ' ' ∈ s.toList || spelling.typed s

/-- A word of the command line that is no option. -/
structure Word where
  text : String
  ne_nil : text.toList ≠ []
  solid : Solid text.toList
  no_option : text ∉ ["--json", "--quiet", "-q"]

/-- The commands with `key=value` arguments. -/
inductive Command where
  | entityUpdate (entityId : Word)
  | deviceUpdate (deviceId : Word)
  | areaUpdate (areaId : Word)
  | call (service : Word) (dotted : '.' ∈ service.text.toList)
  | raw (type : Word)

/-- The words before the arguments. -/
def Command.words : Command → List String
  | entityUpdate id => ["entity", "update", id.text]
  | deviceUpdate id => ["device", "update", id.text]
  | areaUpdate id => ["area", "update", id.text]
  | call service _ => ["call", service.text]
  | raw type => ["raw", type.text]

/-- What a command is about. -/
def Command.subject : Command → Word
  | entityUpdate id | deviceUpdate id | areaUpdate id | call id _ | raw id => id

/-- A command with its arguments. -/
structure Invocation where
  command : Command
  args : Dict String Arg
  some_arg : args.entries ≠ []
  plain_keys : ∀ key ∈ args.keys, '=' ∉ key.toList ∧ Solid key.toList

namespace Invocation

variable (inv : Invocation) (spelling : Spelling)

/-- The arguments, where `quoted` strings stand in double quotes. -/
def written (quoted : String → Bool) : List String :=
  inv.args.entries.map fun e => e.1 ++ "=" ++ e.2.text spelling quoted

/-- The command as a line of batch input. -/
def line : String :=
  String.ofList ([' '].intercalate ((inv.command.words ++ inv.written spelling spelling.quoted).map
    String.toList) ++ ['\n'])

/-- The command as the shell passes it, with one level of quotes removed from the strings that do
not read like another type. -/
def argv : List String := inv.command.words ++ inv.written spelling spelling.typed

end Invocation

/-! ## What arrives -/

def Field.value? : Field → Option Value
  | value v => some v
  | dict _ => none

def Field.entry? (key : String) : Field → Option Value
  | value _ => none
  | dict d => d.get? key

/-- The argument `key` of a command, in its message. -/
def Message.argument? (command : Command) (m : Message) (key : String) : Option Value :=
  match command with
  | .call _ _ => (m.get? (if isTarget key then "target" else "service_data")).bind
    fun f => Field.entry? key f
  | _ => (m.get? key).bind Field.value?

/-- What a message holds apart from its arguments. -/
def Command.own? (key : String) : Command → Option Value
  | entityUpdate id => own "config/entity_registry/update" "entity_id" id
  | deviceUpdate id => own "config/device_registry/update" "device_id" id
  | areaUpdate id => own "config/area_registry/update" "area_id" id
  | call _ _ => none
  | raw type => base type.text
where
  base (type : String) : Option Value :=
    if key = "id" then some (.int 1) else if key = "type" then some (.str type) else none
  own (type idKey : String) (id : Word) : Option Value :=
    if key = idKey then some (.str id.text) else base type

/-- The message has the written arguments, with their types, and no others. -/
def Invocation.Carries (inv : Invocation) (m : Message) : Prop :=
  ∀ key, m.argument? inv.command key =
    ((inv.args.get? key).map Arg.value).or (inv.command.own? key)

/-- The keys that a command cannot pass on, being parameters of `send`. -/
def Command.taken : Command → List String
  | entityUpdate _ => ["self", "msg_type", "entity_id"]
  | deviceUpdate _ => ["self", "msg_type", "device_id"]
  | areaUpdate _ => ["self", "msg_type", "area_id"]
  | call _ _ => []
  | raw _ => ["self", "msg_type"]

/-- A string that stands for itself. -/
def Verbatim (numerals : Numerals) (s : String) : Prop :=
  lower s.toList ∉ typeWords ∧ pyInt numerals s.toList = none ∧
    isFloat numerals s.toList = false ∧ enclosed '\'' s.toList = false

/-- A value whose text is read back. -/
def Arg.Exact (numerals : Numerals) (quoted : String → Bool) : Arg → Prop
  | int n => digitCount n ≤ maxStrDigits
  | str s _ => quoted s = true ∨ Verbatim numerals s
  | _ => True

/-- A value that is one word of a batch line. -/
def Arg.OneWord : Arg → Prop
  | str s _ => Solid s.toList
  | _ => True

/-! ## Reading a value -/

section Reading

variable {numerals : Numerals} {spelling : Spelling} {quoted : String → Bool}

theorem toList_quote (s : String) : (quote s).toList = '"' :: (s.toList ++ ['"']) := by
  simp [quote]

theorem parseValue_of_not_mem {v : String} (h : lower v.toList ∉ typeWords) :
    parseValue numerals v = parseRest numerals v := by
  simp only [typeWords, List.mem_cons, List.not_mem_nil, or_false, not_or] at h
  simp only [parseValue, h, or_self, if_false]

theorem parseValue_of_mem {v : String} (h : lower v.toList ∈ typeWords) (s : String) :
    parseValue numerals v ≠ .str s := by
  simp only [typeWords, List.mem_cons, List.not_mem_nil, or_false] at h
  obtain h | h | h | h := h <;> simp [parseValue, h]

theorem toLower_of_isDigit {c : Char} (h : c.isDigit = true) : c.toLower = c := by
  delta Char.isDigit at h
  simp only [Bool.and_eq_true, decide_eq_true_eq, UInt32.le_iff_toNat_le, ge_iff_le] at h
  have hnine : '9'.val.toNat = 57 := rfl
  unfold Char.toLower
  rw [dif_neg]
  simp only [ge_iff_le, UInt32.le_iff_toNat_le]
  have hupper : 'A'.val.toNat = 65 := rfl
  omega

theorem head_of_mem_typeWords {c : Char} {t : Text} (h : lower (c :: t) ∈ typeWords) :
    c.toLower ∈ ['n', 't', 'f'] := by
  simp [typeWords, lower] at h
  simp
  tauto

theorem parseValue_quote (s : String) : parseValue numerals (quote s) = .str s := by
  have hlower : lower (quote s).toList ∉ typeWords := by
    rw [toList_quote]
    intro hmem
    exact absurd (head_of_mem_typeWords hmem) (by decide)
  have henclosed : enclosed '"' (quote s).toList = true := by
    rw [toList_quote, ← List.cons_append, enclosed, List.getLast?_concat]
    rfl
  have hinside : (quote s).toList.tail.dropLast = s.toList := by
    rw [toList_quote]
    simp
  have hint : pyInt numerals (quote s).toList = none := by rw [toList_quote, pyInt_quote]
  have hfloat : isFloat numerals (quote s).toList = false := by rw [toList_quote, isFloat_quote]
  rw [parseValue_of_not_mem hlower, parseRest, hint]
  simp [hfloat, henclosed, hinside]

/-- A string stands for itself exactly when it is `Verbatim`. -/
theorem parseValue_iff {s : String} (hs : '"' ∉ s.toList) :
    parseValue numerals s = .str s ↔ Verbatim numerals s := by
  have hdouble : enclosed '"' s.toList = false := by
    cases h : s.toList with
    | nil => rfl
    | cons c t =>
      have hc : c ≠ '"' := fun he => hs (h ▸ he ▸ List.mem_cons_self)
      simp [enclosed, hc]
  have hshort : enclosed '\'' s.toList = true → String.ofList s.toList.tail.dropLast ≠ s := by
    intro h he
    have hlength := congrArg (fun t : String => t.toList.length) he
    cases hl : s.toList with
    | nil => simp [hl, enclosed] at h
    | cons c t => simp [hl] at hlength
  unfold Verbatim
  by_cases hword : lower s.toList ∈ typeWords
  · simp [hword, parseValue_of_mem hword]
  rw [parseValue_of_not_mem hword, parseRest]
  cases pyInt numerals s.toList with
  | some n => simp
  | none =>
    by_cases hfloat : isFloat numerals s.toList = true
    · simp [hfloat]
    · by_cases hsingle : enclosed '\'' s.toList = true
      · simp [hfloat, hdouble, hsingle, hshort hsingle]
      · simp [hword, hfloat, hdouble, hsingle]

/-- A number is read back if `int` takes that many digits. -/
theorem parseValue_decimal (n : ℤ) :
    parseValue numerals (String.ofList (Doc.decimal n)) = .int n ↔ digitCount n ≤ maxStrDigits := by
  have hlower : lower (String.ofList (Doc.decimal n)).toList ∉ typeWords := by
    obtain ⟨c, t, ht, hc⟩ := Doc.exists_decimal n
    rw [String.toList_ofList, ht]
    intro hmem
    have hhead := head_of_mem_typeWords hmem
    cases hc with
    | inl h =>
      rw [h] at hhead
      exact absurd hhead (by decide)
    | inr h =>
      rw [toLower_of_isDigit h] at hhead
      simp only [List.mem_cons, List.not_mem_nil, or_false] at hhead
      obtain rfl | rfl | rfl := hhead <;> cases h
  rw [parseValue_of_not_mem hlower, parseRest, String.toList_ofList, pyInt_decimal]
  by_cases hn : digitCount n ≤ maxStrDigits
  · simp [hn]
  · simp only [hn, if_false, iff_false]
    split_ifs <;> simp

theorem parseValue_text_iff (a : Arg) :
    parseValue numerals (a.text spelling quoted) = a.value ↔ a.Exact numerals quoted := by
  cases a with
  | null =>
    obtain h | h := spelling.documented <;>
      simp [Arg.text, Arg.value, Arg.Exact, h, parseValue, lower]
  | bool b => cases b <;> simp [Arg.text, Arg.value, Arg.Exact, parseValue, lower]
  | int n => exact parseValue_decimal n
  | str s line =>
    have hs : '"' ∉ s.toList := fun h => (line _ h).1 rfl
    show parseValue numerals (if quoted s then quote s else s) = .str s ↔ _
    by_cases hq : quoted s = true
    · simp [Arg.Exact, hq, parseValue_quote]
    · simp [Arg.Exact, hq, parseValue_iff hs]

/-- Strings that are read from one word have no white space. -/
theorem solid_of_parseValue {v s : String} (hv : Solid v.toList)
    (h : parseValue numerals v = .str s) : Solid s.toList := by
  by_cases hword : lower v.toList ∈ typeWords
  · exact absurd h (parseValue_of_mem hword s)
  rw [parseValue_of_not_mem hword, parseRest] at h
  split at h
  · cases h
  · split_ifs at h
    · obtain rfl := Value.str.inj h
      intro c hc
      rw [String.toList_ofList] at hc
      exact hv c (List.mem_of_mem_tail (List.dropLast_subset _ hc))
    · exact Value.str.inj h ▸ hv

end Reading

/-! ## Messages and their arguments -/

/-- The message of a command, given its arguments. -/
def Command.run (d : Dict String Value) : Command → Option Message
  | entityUpdate id => CodingAssistants.entityUpdate id.text d
  | deviceUpdate id => CodingAssistants.deviceUpdate id.text d
  | areaUpdate id => CodingAssistants.areaUpdate id.text d
  | call service _ => callService service.text d
  | raw type => rawCall type.text d

section Arguments

variable {numerals : Numerals} {d : Dict String Value} {m : Message} {msgType key own : String}

theorem runCommand_words (command : Command) {args : List String} (hargs : args ≠ []) :
    runCommand numerals (command.words ++ args) = command.run (parseKvArgs numerals args) := by
  obtain ⟨arg, args, rfl⟩ := List.exists_cons_of_ne_nil hargs
  cases command <;> rfl

theorem get?_send {kwargs : Dict String Field} (h : send msgType kwargs = some m) (k : String) :
    m.get? k = (kwargs.get? k).or (if k = "id" then some (.value (.int 1))
      else if k = "type" then some (.value (.str msgType)) else none) := by
  unfold send at h
  split_ifs at h
  obtain rfl := Option.some.inj h
  have hbase : (Dict.ofList [("id", Field.value (.int 1)),
      ("type", .value (.str msgType))]).get? k = if k = "id" then some (.value (.int 1))
      else if k = "type" then some (.value (.str msgType)) else none := by
    simp only [Dict.ofList, List.foldl_cons, List.foldl_nil, Dict.get?_insert, Dict.get?_empty]
    split_ifs with htype hid
    · subst htype
      contradiction
    · rfl
    · rfl
    · rfl
  rw [Dict.get?_update, hbase]

theorem isSome_get? {ν : Type} {d : Dict String ν} {k : String} :
    (d.get? k).isSome ↔ k ∈ d.keys := by
  rw [Dict.mem_keys, Option.isSome_iff_exists]

theorem send_eq_none {kwargs : Dict String Field} :
    send msgType kwargs = none ↔ ∃ k ∈ ["self", "msg_type"], (kwargs.get? k).isSome := by
  unfold send
  simp only [List.mem_cons, List.not_mem_nil, or_false, exists_eq_or_imp, exists_eq_left,
    isSome_get?]
  split_ifs with h <;> simp [h]

theorem sendWith_eq_none (hkey : key ∉ ["self", "msg_type"]) :
    sendWith msgType key own d = none ↔ ∃ k ∈ ["self", "msg_type", key], (d.get? k).isSome := by
  simp only [List.mem_cons, List.not_mem_nil, or_false, not_or] at hkey
  unfold sendWith
  split_ifs with hmem
  · simp [isSome_get?, hmem]
  · rw [send_eq_none]
    simp [Dict.ofList, Dict.get?_update, Dict.get?_insert, Dict.get?_map, isSome_get?, hmem,
      Ne.symm hkey.1, Ne.symm hkey.2]

theorem get?_sendWith (h : sendWith msgType key own d = some m) (k : String) :
    m.get? k = ((d.get? k).map .value).or (if k = key then some (.value (.str own))
      else if k = "id" then some (.value (.int 1))
      else if k = "type" then some (.value (.str msgType)) else none) := by
  unfold sendWith at h
  split_ifs at h with hmem
  have hown : (Dict.ofList [(key, Field.value (.str own))]).get? k =
      if k = key then some (.value (.str own)) else none := by
    simp only [Dict.ofList, List.foldl_cons, List.foldl_nil, Dict.get?_insert, Dict.get?_empty]
  rw [get?_send h, Dict.get?_update, Dict.get?_map, hown, Option.or_assoc]
  split_ifs <;> rfl

theorem value?_sendWith (h : sendWith msgType key own d = some m) (k : String) :
    (m.get? k).bind Field.value? = (d.get? k).or (if k = key then some (.str own)
      else if k = "id" then some (.int 1)
      else if k = "type" then some (.str msgType) else none) := by
  rw [get?_sendWith h]
  cases d.get? k with
  | some v => rfl
  | none => split_ifs <;> rfl

theorem get?_setDict (args : Dict String Field) (k : String) :
    (setDict args key d).get? k =
      if k = key ∧ d.entries ≠ [] then some (.dict d) else args.get? k := by
  unfold setDict
  split_ifs with hnil hk hk
  · exact absurd hnil hk.2
  · rfl
  · rw [Dict.get?_insert, if_pos hk.1]
  · rw [Dict.get?_insert, if_neg fun h => hk ⟨h, hnil⟩]

/-- The service data and the target of a call. -/
theorem get?_callService {service : String} (h : callService service d = some m) (k : String)
    (hk : k ∈ ["service_data", "target"]) :
    m.get? k = if k = "target" ∧ (d.filter isTarget).entries ≠ [] then
        some (.dict (d.filter isTarget))
      else if k = "service_data" ∧ (d.filter (!isTarget ·)).entries ≠ [] then
        some (.dict (d.filter (!isTarget ·)))
      else none := by
  unfold callService at h
  split_ifs at h
  rw [get?_send h, get?_setDict, get?_setDict]
  simp only [List.mem_cons, List.not_mem_nil, or_false] at hk
  obtain rfl | rfl := hk <;> simp [Dict.ofList, Dict.get?_insert]

theorem callService_eq_none {service : String} (hdot : '.' ∈ service.toList) :
    callService service d ≠ none := by
  unfold callService
  rw [if_neg (not_not.mpr hdot), Ne, send_eq_none]
  simp [get?_setDict, Dict.ofList, Dict.get?_insert]

/-- A command sends nothing exactly when an argument takes a parameter of `send`. -/
theorem run_eq_none {command : Command} :
    command.run d = none ↔ ∃ k ∈ command.taken, (d.get? k).isSome := by
  cases command with
  | entityUpdate id => exact sendWith_eq_none (by decide)
  | deviceUpdate id => exact sendWith_eq_none (by decide)
  | areaUpdate id => exact sendWith_eq_none (by decide)
  | call service dotted =>
    show callService _ _ = none ↔ _
    simp [callService_eq_none dotted, Command.taken]
  | raw type =>
    show send _ _ = none ↔ _
    rw [send_eq_none]
    simp [Dict.get?_map, Command.taken]

theorem get?_of_entries_eq_nil {ν : Type} {d : Dict String ν} (h : d.entries = []) (k : String) :
    d.get? k = none := by
  simp [Dict.get?, h]

/-- **The arguments of a message** are those of the command, then its own. -/
theorem argument?_run {command : Command} (h : command.run d = some m) (k : String) :
    m.argument? command k = (d.get? k).or (command.own? k) := by
  cases command with
  | entityUpdate id => exact value?_sendWith h k
  | deviceUpdate id => exact value?_sendWith h k
  | areaUpdate id => exact value?_sendWith h k
  | call service dotted =>
    show (m.get? (if isTarget k then "target" else "service_data")).bind
      (fun f => Field.entry? k f) =
      (d.get? k).or none
    rw [Option.or_none]
    by_cases hk : isTarget k = true
    · have hfilter : (d.filter isTarget).get? k = d.get? k := by rw [Dict.get?_filter, if_pos hk]
      rw [if_pos hk, get?_callService h "target" (by simp)]
      by_cases hnil : (d.filter isTarget).entries = []
      · simp [hnil, ← hfilter, get?_of_entries_eq_nil hnil]
      · simp [hnil, hfilter, Field.entry?]
    · have hfilter : (d.filter (!isTarget ·)).get? k = d.get? k := by
        rw [Dict.get?_filter, if_pos (by simp [hk])]
      rw [if_neg hk, get?_callService h "service_data" (by simp)]
      by_cases hnil : (d.filter (!isTarget ·)).entries = []
      · simp [hnil, ← hfilter, get?_of_entries_eq_nil hnil]
      · simp [hnil, hfilter, Field.entry?]
  | raw type =>
    show (m.get? k).bind Field.value? = _
    rw [get?_send h, Dict.get?_map]
    cases d.get? k with
    | some v => rfl
    | none =>
      show (if _ then _ else _ : Option Field).bind _ = Command.own?.base k type.text
      unfold Command.own?.base
      split_ifs <;> rfl

end Arguments

/-! ## The two front ends -/

section FrontEnds

variable {numerals : Numerals} {spelling : Spelling} {quoted : String → Bool} {inv : Invocation}

theorem splitEq_append {key : String} (hkey : '=' ∉ key.toList) (v : String) :
    splitEq (key ++ "=" ++ v) = some (key, v) := by
  have htext : (key ++ "=" ++ v).toList = key.toList ++ '=' :: v.toList := by simp
  have hall : ∀ c ∈ key.toList, decide (c ≠ '=') = true := fun c hc =>
    decide_eq_true fun h => hkey (h ▸ hc)
  rw [splitEq, htext, if_pos (by simp), List.takeWhile_append_of_pos hall,
    List.dropWhile_append_of_pos hall]
  simp

/-- The written arguments are parsed one by one. -/
theorem parseKvArgs_written : parseKvArgs numerals (inv.written spelling quoted) =
    inv.args.map fun a => parseValue numerals (a.text spelling quoted) := by
  have hentries : (inv.written spelling quoted).filterMap
      (fun arg => (splitEq arg).map fun e => (e.1, parseValue numerals e.2)) =
      inv.args.entries.map fun e => (e.1, parseValue numerals (e.2.text spelling quoted)) := by
    rw [Invocation.written, List.filterMap_map, ← List.filterMap_eq_map]
    apply List.filterMap_congr
    intro e he
    have hkey := (inv.plain_keys e.1 (List.mem_map_of_mem he)).1
    show (splitEq (e.1 ++ "=" ++ _)).map _ = _
    rw [splitEq_append hkey]
    rfl
  have hnodup : ((inv.args.entries.map fun e =>
      (e.1, parseValue numerals (e.2.text spelling quoted))).map Prod.fst).Nodup :=
    (inv.args.map fun a => parseValue numerals (a.text spelling quoted)).nodup
  rw [parseKvArgs, hentries]
  have hsame := Dict.entries_ofList hnodup
  cases h : Dict.ofList (inv.args.entries.map fun e =>
    (e.1, parseValue numerals (e.2.text spelling quoted)))
  rw [h] at hsame
  simp only [Dict.map, Dict.mk.injEq]
  exact hsame

theorem written_ne_nil : inv.written spelling quoted ≠ [] := by
  simp [Invocation.written, inv.some_arg]

/-! ### The shell -/

theorem dropOptions_eq_self {args : List String}
    (h : ∀ arg ∈ args, arg ∉ ["--json", "--quiet", "-q"]) : dropOptions args = args := by
  have herase : ∀ option ∈ ["--json", "--quiet", "-q"], args.erase option = args :=
    fun option hoption => List.erase_of_not_mem fun hmem => h option hmem hoption
  rw [dropOptions, herase "--json" (by simp), herase "--quiet" (by simp), herase "-q" (by simp)]

theorem mem_words {command : Command} {w : String} (h : w ∈ command.words) :
    w = command.subject.text ∨ w ∈ ["entity", "device", "area", "update", "call", "raw"] := by
  cases command <;>
  · simp only [Command.words, List.mem_cons, List.not_mem_nil, or_false] at h
    simp only [Command.subject, List.mem_cons, List.not_mem_nil, or_false]
    tauto

theorem main_argv : main numerals (inv.argv spelling) [] =
    (inv.command.run (parseKvArgs numerals (inv.written spelling spelling.typed))).toList := by
  have hwords : ∀ w ∈ inv.command.words, w ∉ ["--json", "--quiet", "-q"] := by
    intro w hw
    cases mem_words hw with
    | inl h => exact h ▸ inv.command.subject.no_option
    | inr h =>
      have hall : ∀ w ∈ ["entity", "device", "area", "update", "call", "raw"],
          w ∉ ["--json", "--quiet", "-q"] := by decide
      exact hall w h
  have hwritten : ∀ w ∈ inv.written spelling spelling.typed, w ∉ ["--json", "--quiet", "-q"] := by
    intro w hw hoption
    obtain ⟨e, -, rfl⟩ := List.mem_map.mp hw
    have hequals : ∀ w ∈ ["--json", "--quiet", "-q"], '=' ∉ w.toList := by decide
    exact hequals _ hoption (by simp)
  have hdrop : dropOptions (inv.argv spelling) = inv.argv spelling :=
    dropOptions_eq_self fun w hw =>
      (List.mem_append.mp hw).elim (hwords w) (hwritten w)
  have hrun := @runCommand_words numerals inv.command (inv.written spelling spelling.typed)
    written_ne_nil
  rw [← hrun]
  show _ = (runCommand numerals (inv.argv spelling)).toList
  unfold main
  rw [hdrop, Invocation.argv]
  cases inv.command <;> rfl

/-! ### A batch line -/

theorem words_toList {s : String} (hs : Solid s.toList) (hne : s.toList ≠ []) :
    (words s.toList).map String.ofList = [s] := by
  rw [words_solid hs hne]
  simp

theorem flatMap_words {ws : List String} (h : ∀ w ∈ ws, (words w.toList).map String.ofList = [w]) :
    (ws.flatMap fun t => (words t.toList).map String.ofList) = ws := by
  induction ws with
  | nil => rfl
  | cons w ws ih =>
    rw [List.flatMap_cons, h w List.mem_cons_self, ih fun v hv => h v (List.mem_cons_of_mem w hv)]
    rfl

theorem words_command (command : Command) :
    (command.words.flatMap fun t => (words t.toList).map String.ofList) = command.words := by
  apply flatMap_words
  intro w hw
  cases mem_words hw with
  | inl h => exact h ▸ words_toList command.subject.solid command.subject.ne_nil
  | inr h =>
    have hall : ∀ w ∈ ["entity", "device", "area", "update", "call", "raw"],
        (words w.toList).map String.ofList = [w] := by decide
    exact hall w h

/-- A line of batch input begins with its command. -/
theorem exists_line : ∃ c t, (inv.line spelling).toList = c :: t ∧ isSpace c = false ∧ c ≠ '#' := by
  unfold Invocation.line
  rw [String.toList_ofList]
  cases inv.command with
  | entityUpdate id => exact ⟨'e', _, rfl, by decide, by decide⟩
  | deviceUpdate id => exact ⟨'d', _, rfl, by decide, by decide⟩
  | areaUpdate id => exact ⟨'a', _, rfl, by decide, by decide⟩
  | call service dotted => exact ⟨'c', _, rfl, by decide, by decide⟩
  | raw type => exact ⟨'r', _, rfl, by decide, by decide⟩

theorem batchLine_line : batchLine numerals (inv.line spelling) = runCommand numerals
    (inv.command.words ++ (inv.written spelling spelling.quoted).flatMap fun t =>
      (words t.toList).map String.ofList) := by
  obtain ⟨c, t, hline, hspace, hhash⟩ := @exists_line spelling inv
  obtain ⟨u, hstrip⟩ := trim_cons hspace t
  have hwords : (words (strip (inv.line spelling).toList)).map String.ofList =
      inv.command.words ++ (inv.written spelling spelling.quoted).flatMap fun t =>
        (words t.toList).map String.ofList := by
    have hnewline : ∀ c ∈ ['\n'], isSpace c = true := by simp [isSpace]
    rw [words_strip, Invocation.line, String.toList_ofList, words_append_space hnewline,
      words_intercalate, List.flatMap_map, List.map_flatMap, List.flatMap_append, words_command]
  have hcommand : strip (inv.line spelling).toList ≠ [] ∧
      (strip (inv.line spelling).toList).head? ≠ some '#' := by
    rw [hline, strip, hstrip]
    exact ⟨List.cons_ne_nil c u, by simpa using hhash⟩
  rw [batchLine]
  show (if _ then _ else _) = _
  rw [if_pos hcommand, hwords]

/-! ### Exactness -/

theorem run_of_runCommand {command : Command} {args : List String} {m : Message}
    (h : runCommand numerals (command.words ++ args) = some m) :
    command.run (parseKvArgs numerals args) = some m := by
  by_cases hargs : args = []
  · subst hargs
    cases command with
    | entityUpdate id => cases h
    | deviceUpdate id => cases h
    | areaUpdate id => cases h
    | call service dotted => exact h
    | raw type => exact h
  · rw [← runCommand_words command hargs]
    exact h

theorem solid_own {command : Command} {k s : String} (h : command.own? k = some (.str s)) :
    Solid s.toList := by
  have hpath : ∀ path ∈ ["config/entity_registry/update", "config/device_registry/update",
      "config/area_registry/update"], Solid path.toList := by decide
  have hbase : ∀ type : String, Solid type.toList →
      Command.own?.base k type = some (.str s) → Solid s.toList := by
    intro type htype h
    unfold Command.own?.base at h
    split_ifs at h
    · cases h
    · cases h
      exact htype
  have hown : ∀ (type idKey : String) (id : Word), Solid type.toList →
      Command.own?.own k type idKey id = some (.str s) → Solid s.toList := by
    intro type idKey id htype h
    unfold Command.own?.own at h
    split_ifs at h
    · cases h
      exact id.solid
    · exact hbase type htype h
  cases command with
  | entityUpdate id => exact hown _ _ id (hpath _ (by simp)) h
  | deviceUpdate id => exact hown _ _ id (hpath _ (by simp)) h
  | areaUpdate id => exact hown _ _ id (hpath _ (by simp)) h
  | call service dotted => cases h
  | raw type => exact hbase _ type.solid h

theorem solid_of_splitEq {arg key v : String} (harg : Solid arg.toList)
    (h : splitEq arg = some (key, v)) : Solid v.toList := by
  unfold splitEq at h
  split_ifs at h
  cases h
  intro c hc
  rw [String.toList_ofList] at hc
  exact harg c ((List.dropWhile_sublist _).subset (List.mem_of_mem_tail hc))

/-- Strings of a batch line have no white space. -/
theorem solid_of_argument? {m : Message} {k s : String}
    (h : batchLine numerals (inv.line spelling) = some m)
    (hk : m.argument? inv.command k = some (.str s)) : Solid s.toList := by
  rw [batchLine_line] at h
  rw [argument?_run (run_of_runCommand h)] at hk
  cases Option.or_eq_some_iff.mp hk with
  | inl hd =>
    obtain ⟨arg, harg, he⟩ := List.mem_filterMap.mp (Dict.mem_of_get?_ofList hd)
    obtain ⟨e, hsplit, heq⟩ := Option.map_eq_some_iff.mp he
    obtain ⟨t, -, hw⟩ := List.mem_flatMap.mp harg
    obtain ⟨w, hword, rfl⟩ := List.mem_map.mp hw
    have hsolid : Solid (String.ofList w).toList := by
      rw [String.toList_ofList]
      exact solid_of_mem_words hword
    exact solid_of_parseValue (solid_of_splitEq hsolid hsplit) (Prod.mk.inj heq).2
  | inr hown => exact solid_own hown.2

theorem text_oneWord {a : Arg} (h : a.OneWord) :
    a.text spelling spelling.quoted = a.text spelling spelling.typed ∧
      Solid (a.text spelling spelling.typed).toList := by
  have hwords : ∀ w ∈ ["null", "none", "true", "false"], Solid w.toList := by decide
  cases a with
  | null =>
    refine ⟨rfl, hwords spelling.null ?_⟩
    obtain h | h := spelling.documented <;> simp [h]
  | bool b =>
    cases b with
    | false => exact ⟨rfl, hwords "false" (by simp)⟩
    | true => exact ⟨rfl, hwords "true" (by simp)⟩
  | int n =>
    refine ⟨rfl, ?_⟩
    show Solid (String.ofList (Doc.decimal n)).toList
    rw [String.toList_ofList]
    exact solid_decimal n
  | str s line =>
    have hs : Solid s.toList := h
    have hspace : ' ' ∉ s.toList := fun hmem => absurd (hs ' ' hmem) (by decide)
    have hquoted : spelling.quoted s = spelling.typed s := by simp [Spelling.quoted, hspace]
    refine ⟨by simp only [Arg.text, hquoted], ?_⟩
    show Solid (if spelling.typed s then quote s else s).toList
    split_ifs
    · rw [toList_quote]
      intro c hc
      have hquote : isSpace '"' = false := by decide
      simp only [List.mem_cons, List.mem_append, List.not_mem_nil, or_false] at hc
      obtain rfl | hc | rfl := hc
      · exact hquote
      · exact hs c hc
      · exact hquote
    · exact hs

theorem written_oneWord (h : ∀ e ∈ inv.args.entries, e.2.OneWord) :
    inv.written spelling spelling.quoted = inv.written spelling spelling.typed ∧
      ((inv.written spelling spelling.typed).flatMap fun t => (words t.toList).map String.ofList) =
        inv.written spelling spelling.typed := by
  constructor
  · apply List.map_congr_left
    intro e he
    rw [(text_oneWord (h e he)).1]
  · apply flatMap_words
    intro w hw
    obtain ⟨e, he, rfl⟩ := List.mem_map.mp hw
    have hkey := (inv.plain_keys e.1 (List.mem_map_of_mem he)).2
    have hequals : isSpace '=' = false := by decide
    apply words_toList
    · intro c hc
      simp only [String.toList_append, List.mem_append] at hc
      obtain (hc | hc) | hc := hc
      · exact hkey c hc
      · rw [List.mem_singleton.mp hc]
        exact hequals
      · exact (text_oneWord (h e he)).2 c hc
    · simp

theorem batchLine_oneWord (h : ∀ e ∈ inv.args.entries, e.2.OneWord) :
    batchLine numerals (inv.line spelling) =
      inv.command.run (parseKvArgs numerals (inv.written spelling spelling.typed)) := by
  obtain ⟨hquoted, hwords⟩ := @written_oneWord spelling inv h
  rw [batchLine_line, hquoted, hwords, runCommand_words inv.command written_ne_nil]

theorem toList_eq_singleton {α : Type} {o : Option α} {a : α} : o.toList = [a] ↔ o = some a := by
  cases o <;> simp

theorem main_batch : main numerals ["batch"] [inv.line spelling] =
    (batchLine numerals (inv.line spelling)).toList := by
  show [inv.line spelling].filterMap (batchLine numerals) = _
  cases h : batchLine numerals (inv.line spelling) <;> simp [h]

/-- **The written values are sent** exactly when `int` reads every number, every string is one word
that is quoted or stands for itself, and no key is a parameter of `send`. -/
theorem sends_written_iff (numerals : Numerals) (spelling : Spelling) (inv : Invocation) :
    (∃ m, main numerals ["batch"] [inv.line spelling] = [m] ∧ inv.Carries m ∧
      main numerals (inv.argv spelling) [] = [m]) ↔
    (∀ e ∈ inv.args.entries, e.2.OneWord ∧ e.2.Exact numerals spelling.typed) ∧
      ∀ k ∈ inv.args.keys, k ∉ inv.command.taken := by
  simp only [main_batch, main_argv, toList_eq_singleton]
  have hget : ∀ k, (parseKvArgs numerals (inv.written spelling spelling.typed)).get? k =
      (inv.args.get? k).map fun a => parseValue numerals (a.text spelling spelling.typed) :=
    fun k => by rw [parseKvArgs_written, Dict.get?_map]
  constructor
  · intro h
    obtain ⟨m, hbatch, hcarries, hshell⟩ := h
    have hfree : ∀ k ∈ inv.args.keys, k ∉ inv.command.taken := by
      intro k hk htaken
      have hnone : inv.command.run _ = none := run_eq_none.mpr ⟨k, htaken, by
        rw [hget, Option.isSome_map, isSome_get?]
        exact hk⟩
      rw [hnone] at hshell
      cases hshell
    refine ⟨fun e he => ?_, hfree⟩
    have hmem : inv.args.get? e.1 = some e.2 := Dict.mem_entries.mp he
    have harg : m.argument? inv.command e.1 = some e.2.value := by
      rw [hcarries e.1, hmem]
      rfl
    constructor
    · obtain ⟨k, a⟩ := e
      cases a with
      | str s line => exact solid_of_argument? hbatch harg
      | null => trivial
      | bool b => trivial
      | int n => trivial
    · rw [argument?_run hshell, hget, hmem] at harg
      exact (parseValue_text_iff e.2).mp (Option.some.inj harg)
  · intro h
    obtain ⟨hexact, hfree⟩ := h
    have hone : batchLine numerals (inv.line spelling) = _ :=
      batchLine_oneWord fun e he => (hexact e he).1
    rw [hone]
    cases hrun : inv.command.run (parseKvArgs numerals (inv.written spelling spelling.typed)) with
    | none =>
      obtain ⟨k, htaken, hk⟩ := run_eq_none.mp hrun
      rw [hget, Option.isSome_map, isSome_get?] at hk
      exact absurd htaken (hfree k hk)
    | some m =>
      refine ⟨m, rfl, fun k => ?_, rfl⟩
      rw [argument?_run hrun, hget]
      cases hk : inv.args.get? k with
      | none => rfl
      | some a =>
        have he := hexact (k, a) (Dict.mem_entries.mpr hk)
        have hvalue : parseValue numerals (a.text spelling spelling.typed) = a.value :=
          (parseValue_text_iff a).mpr he.2
        simp only [Option.map_some, hvalue, Option.some_or]

end FrontEnds

/-- The listed words and the texts of integers read like another type. -/
def Spelling.listed : Spelling where
  null := "null"
  documented := .inl rfl
  typed s := ["null", "none", "true", "false"].contains s ||
    (Doc.readInt s.toList).any fun r => r.2 = []
  typed_word := by decide
  typed_int n := by
    have hread := Doc.readInt_decimal n (s := []) (by simp [Doc.NoDigit])
    rw [List.append_nil] at hread
    simp [hread]

/-- `entity update light.kitchen icon=mdi:lamp name="Kitchen Light"` -/
def kitchenLight : Invocation where
  command := .entityUpdate ⟨"light.kitchen", by decide, by decide, by decide⟩
  args :=
    ⟨[("icon", .str "mdi:lamp" (by simp)), ("name", .str "Kitchen Light" (by simp))], by decide⟩
  some_arg := List.cons_ne_nil _ _
  plain_keys := by
    show ∀ key ∈ ["icon", "name"], '=' ∉ key.toList ∧ Solid key.toList
    decide

/-- A name with a space is cut at the space. -/
theorem kitchenLight_cut :
    (main .plain ["batch"] [kitchenLight.line .listed]).map
      (·.argument? kitchenLight.command "name") = [some (.str "\"Kitchen")] ∧
    ¬ ∃ m, main .plain ["batch"] [kitchenLight.line .listed] = [m] ∧ kitchenLight.Carries m ∧
      main .plain (kitchenLight.argv .listed) [] = [m] := by
  have hname : (main .plain ["batch"] [kitchenLight.line .listed]).map
      (·.argument? kitchenLight.command "name") = [some (.str "\"Kitchen")] := by
    decide
  refine ⟨hname, fun h => ?_⟩
  obtain ⟨m, hm, hcarries, -⟩ := h
  rw [hm, List.map_singleton, hcarries "name"] at hname
  exact absurd hname (by decide)

end HaAddons.CodingAssistants

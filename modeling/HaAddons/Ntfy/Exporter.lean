import HaAddons.Lib.PercentEncoding
import HaAddons.Lib.Sha256
import HaAddons.Ntfy.AuthDb
import HaAddons.Ntfy.Origins
import HaAddons.Ntfy.Render

/-!
# The export document

`build_export`: the state of the add-on as one document, rendered as JSON or YAML.

* `renderings_agree_iff` — the two renderings are read as the same document exactly where no exported
  string holds a character that a YAML 1.1 reader does not take for itself.
-/

namespace HaAddons.Ntfy

open Doc

/-! ## Times -/

/-- The date of a day, counted from 1970-01-01. Years begin in March while they are counted. -/
def civil (days : ℤ) : ℤ × ℤ × ℤ :=
  let z := days + 719468
  let era := z / 146097
  let day := z % 146097
  let year := (day - day / 1460 + day / 36524 - day / 146096) / 365
  let rest := day - (365 * year + year / 4 - year / 100)
  let month := (5 * rest + 2) / 153
  (year + era * 400 + (if month < 10 then 0 else 1), (if month < 10 then month + 3 else month - 9),
    rest - (153 * month + 2) / 5 + 1)

/-- The last `n` decimal digits. -/
def lastDigits (n : ℕ) (x : ℤ) : List Char :=
  (List.range n).reverse.map fun i => Nat.digitChar (x.toNat / 10 ^ i % 10)

/-- Unix seconds as an ISO 8601 UTC string. Where the year has not four digits, it raises. -/
def isoUtc (ts : ℤ) : Option String :=
  let date := civil (ts / 86400)
  let secs := ts % 86400
  if 1 ≤ date.1 ∧ date.1 ≤ 9999 then
    some (String.ofList (lastDigits 4 date.1 ++ '-' :: lastDigits 2 date.2.1 ++ '-' ::
      lastDigits 2 date.2.2 ++ 'T' :: lastDigits 2 (secs / 3600) ++ ':' ::
      lastDigits 2 (secs / 60 % 60) ++ ':' :: lastDigits 2 (secs % 60) ++ ['Z']))
  else none

example : isoUtc 1793613600 = some "2026-11-02T10:00:00Z" := by decide +kernel

/-! ## The tables -/

/-- A row of `user_token`, with the name of its user. -/
structure StoredToken where
  user : String
  token : String
  label : String
  expires : ℤ
  lastAccess : ℤ
  lastOrigin : String
  provisioned : Bool
  deriving DecidableEq

/-- The database with the password hashes of its users and its tokens. Every token is a user's. -/
structure FullDb extends AuthDb where
  passHash : String → String
  tokens : List StoredToken
  tokenOwned : ∀ t ∈ tokens, t.user ∈ users.map UserRow.name

/-- `hashlib.sha256(token.encode()).hexdigest()[:12]` -/
def tokenId (token : String) : String :=
  String.ofList (((sha256 (utf8 token)).take 6).flatMap fun b =>
    [hexDigit (b.toNat / 16), hexDigit (b.toNat % 16)])

/-- Token metadata. -/
structure TokenRow where
  user : String
  tokenId : String
  label : String
  expires : ℤ
  lastAccess : ℤ
  lastOrigin : String
  deriving DecidableEq

namespace FullDb

/-- `ORDER BY u.user, k.last_access, k.label` -/
def tokenRows (db : FullDb) : List StoredToken :=
  db.tokens.insertionSort fun a b =>
    toLex (a.user, toLex (a.lastAccess, a.label)) ≤ toLex (b.user, toLex (b.lastAccess, b.label))

def listTokens (db : FullDb) : List TokenRow :=
  db.tokenRows.map fun r =>
    ⟨dbUserToApi r.user, Ntfy.tokenId r.token, r.label, r.expires, r.lastAccess, r.lastOrigin⟩

end FullDb

def Origins.getToken (doc : Origins) (user tokenId : String) : Origin :=
  (((doc.tokens.get? user).getD .empty).get? tokenId).getD defaultOrigin

/-! ## The document -/

def Role.text : Role → String
  | anonymous => "anonymous"
  | user => "user"
  | admin => "admin"

def Permission.text : Permission → String
  | rw => "rw"
  | ro => "ro"
  | wo => "wo"
  | deny => "deny"

def Origin.text : Origin → String
  | gui => "gui"
  | options => "options"
  | iac => "iac"

/-- `_is_anonymous` -/
def isAnonymous (row : UserRow) : Bool :=
  row.role = .anonymous || row.name = "*" || row.name = "everyone"

/-- A user of the document. -/
structure UserEntry where
  name : String
  role : Role
  tier : Option String
  origin : Origin
  passwordHash : Option String
  deriving DecidableEq

structure AclEntry where
  user : String
  topic : String
  permission : Permission
  origin : Origin
  deriving DecidableEq

structure TokenEntry where
  user : String
  label : String
  expires : Option String
  origin : Origin
  deriving DecidableEq

def optional : Option String → Doc
  | some s => .str s
  | none => .null

def UserEntry.doc (u : UserEntry) : Doc :=
  .dict ([("name", .str u.name), ("role", .str u.role.text), ("tier", optional u.tier),
    ("origin", .str u.origin.text)] ++ (u.passwordHash.map fun h => ("password_hash", .str h)).toList)

def AclEntry.doc (r : AclEntry) : Doc :=
  .dict [("user", .str r.user), ("topic", .str r.topic), ("permission", .str r.permission.text),
    ("origin", .str r.origin.text)]

def TokenEntry.doc (t : TokenEntry) : Doc :=
  .dict [("user", .str t.user), ("label", .str t.label), ("expires", optional t.expires),
    ("origin", .str t.origin.text)]

def userEntries (db : FullDb) (origins : Origins) (includeHashes : Bool) : List UserEntry :=
  (((db.users.insertionSort fun a b => a.name ≤ b.name).map fun u =>
      ({ u with name := dbUserToApi u.name }, db.passHash u.name)).filter fun r => !isAnonymous r.1).map
    (fun r => (⟨r.1.name, r.1.role, r.1.tier, origins.getUser r.1.name,
      if includeHashes then some r.2 else none⟩ : UserEntry))
  |>.insertionSort fun a b => a.name ≤ b.name

def aclEntries (db : FullDb) (origins : Origins) : List AclEntry :=
  (db.listAcl.map fun r =>
    (⟨dbUserToApi r.user, r.topic, r.permission, origins.getAcl (dbUserToApi r.user) r.topic⟩ :
      AclEntry)).insertionSort fun a b => toLex (a.user, a.topic) ≤ toLex (b.user, b.topic)

/-- `iso_utc(expires) if expires else None`; it raises where the year is out of range. -/
def expiresText (expires : ℤ) : Option (Option String) :=
  if expires = 0 then some none else (isoUtc expires).map some

def tokenEntry (origins : Origins) (r : TokenRow) : Option TokenEntry :=
  (expiresText r.expires).map fun e => ⟨r.user, r.label, e, origins.getToken r.user r.tokenId⟩

def TokenEntry.sortKey (t : TokenEntry) : String ×ₗ String ×ₗ String :=
  toLex (t.user, toLex (t.label, t.expires.getD ""))

def tokenEntries (db : FullDb) (origins : Origins) : Option (List TokenEntry) :=
  (db.listTokens.mapM (tokenEntry origins)).map fun ts =>
    ts.insertionSort fun a b => a.sortKey ≤ b.sortKey

inductive ExportError where
  | api (e : ApiError)
  | year
  deriving DecidableEq

/-- The document that `build_export` returns. -/
def document (version : Option ℤ) (authDefaultAccess generatedAt : String) (users : List UserEntry)
    (acl : List AclEntry) (tokens : List TokenEntry) : Doc :=
  .dict [("schema", .int 1), ("generated_at", .str generatedAt),
    ("source", .dict [("addon", .str "ntfy"), ("auth_schema", (version.map Doc.int).getD .null)]),
    ("server", .dict [("auth_default_access", .str authDefaultAccess)]),
    ("users", .list (users.map UserEntry.doc)), ("acl", .list (acl.map AclEntry.doc)),
    ("tokens", .list (tokens.map TokenEntry.doc))]

/-- `build_export`. `db` is the database, if its file exists. -/
def buildExport (db : Option FullDb) (origins : Origins) (includeHashes : Bool)
    (authDefaultAccess : String) (now : ℤ) : Except ExportError Doc :=
  match db with
  | none => .error (.api ⟨"db_unavailable", "auth database is not available"⟩)
  | some db =>
    match AuthDb.ensureSupported (some db.toAuthDb) with
    | .error e => .error (.api e)
    | .ok _ =>
      match tokenEntries db origins, isoUtc now with
      | some tokens, some generatedAt =>
        .ok (document db.version authDefaultAccess generatedAt (userEntries db origins includeHashes)
          (aclEntries db origins) tokens)
      | _, _ => .error .year

/-! ## Its keys -/

/-- Every key that the export writes. -/
def exportKeys : List String :=
  ["schema", "generated_at", "source", "addon", "auth_schema", "server", "auth_default_access",
    "users", "name", "role", "tier", "origin", "password_hash", "acl", "user", "topic", "permission",
    "tokens", "label", "expires"]

/-- Words that some version reads as something else than a string. -/
def reservedWords : List String :=
  (Yaml.reserved .v11).1 ++ (Yaml.reserved .v11).2.1 ++ (Yaml.reserved .v11).2.2

theorem readInt_of_head {c : Char} {t : List Char} (hc : c ≠ '-') (hd : c.isDigit = false) :
    readInt (c :: t) = none := by
  unfold readInt
  split
  · rename_i heq
    exact absurd (List.cons.inj heq).1 hc
  · simp [readNat, hd]

theorem plainKey_of {key : String} (hplain : plainKeyRe key.toList = true)
    (hword : key.toList.all Yaml.isWordChar = true)
    (hhead : (key.toList.head?.any fun c => (c.isAlpha || c = '_') && c ≠ '-' && !c.isDigit) = true)
    (hnot : key ∉ reservedWords) : PlainKey key := by
  refine ⟨hplain, hword, fun v => ?_⟩
  obtain ⟨hnull, htrue, hfalse⟩ : key ∉ (Yaml.reserved v).1 ∧ key ∉ (Yaml.reserved v).2.1 ∧
      key ∉ (Yaml.reserved v).2.2 := by
    simp only [reservedWords, List.mem_append, not_or] at hnot
    cases v with
    | v11 => exact ⟨hnot.1.1, hnot.1.2, hnot.2⟩
    | v12 =>
      have hsub : ∀ {short long : List String}, short ⊆ long → key ∉ long → key ∉ short :=
        fun h hnot hmem => hnot (h hmem)
      exact ⟨hsub (by decide) hnot.1.1, hsub (by decide) hnot.1.2, hsub (by decide) hnot.2⟩
  unfold Yaml.resolve
  dsimp only
  rw [String.ofList_toList, if_neg hnull, if_neg htrue, if_neg hfalse]
  cases hlist : key.toList with
  | nil =>
    rw [hlist] at hhead
    cases hhead
  | cons c t =>
    rw [hlist] at hhead
    simp only [List.head?_cons, Option.any_some, Bool.and_eq_true, Bool.not_eq_true',
      decide_eq_true_eq] at hhead
    rw [readInt_of_head hhead.1.2 hhead.2]
    simp [hhead.1.1]

theorem plainKey_export {key : String} (h : key ∈ exportKeys) : PlainKey key := by
  have hall : (exportKeys.all fun key => plainKeyRe key.toList && key.toList.all Yaml.isWordChar &&
      (key.toList.head?.any fun c => (c.isAlpha || c = '_') && c ≠ '-' && !c.isDigit) &&
        decide (key ∉ reservedWords)) = true := by decide
  have := List.all_eq_true.mp hall key h
  simp only [Bool.and_eq_true, decide_eq_true_eq] at this
  exact plainKey_of this.1.1.1 this.1.1.2 this.1.2 this.2

theorem keys_optional (s : Option String) : keys (optional s) = [] := by cases s <;> rfl

theorem keys_user (u : UserEntry) : keys u.doc ⊆ exportKeys := by
  have hkeys : keys u.doc =
      ["name", "role", "tier", "origin"] ++ (u.passwordHash.map fun _ => "password_hash").toList := by
    cases h : u.passwordHash <;> simp [UserEntry.doc, keys, entryKeys, keys_optional, h]
  rw [hkeys]
  cases u.passwordHash with
  | none => decide
  | some x => exact (by decide : ["name", "role", "tier", "origin", "password_hash"] ⊆ exportKeys)

theorem keys_acl (r : AclEntry) : keys r.doc ⊆ exportKeys := by
  have hkeys : keys r.doc = ["user", "topic", "permission", "origin"] := rfl
  rw [hkeys]
  decide

theorem keys_token (t : TokenEntry) : keys t.doc ⊆ exportKeys := by
  have hkeys : keys t.doc = ["user", "label", "expires", "origin"] := by
    simp [TokenEntry.doc, keys, entryKeys, keys_optional]
  rw [hkeys]
  decide

section Document

variable (version : Option ℤ) (authDefaultAccess generatedAt : String) (users : List UserEntry)
  (acl : List AclEntry) (tokens : List TokenEntry)

theorem itemKeys_map {α : Type} {f : α → Doc} (hf : ∀ a, keys (f a) ⊆ exportKeys) (as : List α) :
    itemKeys (as.map f) ⊆ exportKeys := by
  intro key hkey
  obtain ⟨d, hd, hkey⟩ := mem_itemKeys.mp hkey
  obtain ⟨a, -, rfl⟩ := List.mem_map.mp hd
  exact hf a hkey

theorem plainKeys_document :
    ∀ key ∈ keys (document version authDefaultAccess generatedAt users acl tokens), PlainKey key := by
  have hnone : ∀ version : Option ℤ, keys ((version.map Doc.int).getD .null) = [] := by
    rintro (- | m) <;> rfl
  have hkeys : keys (document version authDefaultAccess generatedAt users acl tokens) =
      ["schema", "generated_at", "source", "addon", "auth_schema", "server", "auth_default_access",
        "users"] ++ itemKeys (users.map UserEntry.doc) ++ "acl" ::
          itemKeys (acl.map AclEntry.doc) ++ "tokens" :: itemKeys (tokens.map TokenEntry.doc) := by
    simp [document, keys, entryKeys, hnone]
  intro key hkey
  refine plainKey_export ?_
  rw [hkeys] at hkey
  simp only [List.mem_append] at hkey
  rcases hkey with ((hkey | hkey) | hkey) | hkey
  · exact (by decide : ["schema", "generated_at", "source", "addon", "auth_schema", "server",
      "auth_default_access", "users"] ⊆ exportKeys) hkey
  · exact itemKeys_map keys_user users hkey
  · rcases List.mem_cons.mp hkey with rfl | hkey
    · decide
    · exact itemKeys_map keys_acl acl hkey
  · rcases List.mem_cons.mp hkey with rfl | hkey
    · decide
    · exact itemKeys_map keys_token tokens hkey

/-! ## Its strings -/

/-- A text without the characters that a YAML 1.1 reader does not take for themselves. -/
def SafeText (s : String) : Prop := ∀ c ∈ s.toList, Yaml.isSafe .v11 c = true

instance (s : String) : Decidable (SafeText s) :=
  decidable_of_iff (s.toList.all (Yaml.isSafe .v11) = true) List.all_eq_true

def AllSafe (strs : List String) : Prop := ∀ s ∈ strs, SafeText s

theorem allSafe_append {xs ys : List String} : AllSafe (xs ++ ys) ↔ AllSafe xs ∧ AllSafe ys :=
  List.forall_mem_append

theorem allSafe_itemStrings {α : Type} {f : α → Doc} {as : List α} :
    AllSafe (itemStrings (as.map f)) ↔ ∀ a ∈ as, AllSafe (strings (f a)) := by
  simp only [AllSafe, mem_itemStrings, List.mem_map]
  exact ⟨fun h a ha x hx => h x ⟨f a, ⟨a, ha, rfl⟩, hx⟩, fun h x ⟨_, ⟨a, ha, hd⟩, hx⟩ =>
    h a ha x (hd ▸ hx)⟩

theorem isSafe_of_le {c : Char} (h : c.toNat ≤ 0x7E) : Yaml.isSafe .v11 c = true := by
  simp [Yaml.isSafe]
  omega

theorem isSafe_lastDigits {n : ℕ} {x : ℤ} : ∀ c ∈ lastDigits n x, Yaml.isSafe .v11 c = true := by
  intro c hc
  obtain ⟨i, -, rfl⟩ := List.mem_map.mp hc
  have hall : ∀ d < 10, (Nat.digitChar d).toNat ≤ 0x7E := by decide
  exact isSafe_of_le (hall _ (Nat.mod_lt _ (by decide)))

theorem safeText_isoUtc {ts : ℤ} {s : String} (h : isoUtc ts = some s) : SafeText s := by
  unfold isoUtc at h
  dsimp only at h
  split_ifs at h
  obtain rfl := Option.some.inj h
  intro c hc
  rw [String.toList_ofList] at hc
  simp only [List.mem_append, List.mem_cons, List.not_mem_nil, or_false] at hc
  rcases hc with (((((hc | hc | hc) | hc | hc) | hc | hc) | hc | hc) | hc | hc) | hc <;>
    first
    | exact isSafe_lastDigits c hc
    | subst hc; rfl

theorem safeText_text (r : Role) (p : Permission) (o : Origin) :
    SafeText r.text ∧ SafeText p.text ∧ SafeText o.text := by
  refine ⟨?_, ?_, ?_⟩
  · cases r <;> decide
  · cases p <;> decide
  · cases o <;> decide

theorem allSafe_optional (x : Option String) : AllSafe (strings (optional x)) ↔ ∀ s ∈ x, SafeText s := by
  cases x <;> simp [AllSafe, optional, strings]

theorem safe_user (u : UserEntry) : AllSafe (strings u.doc) ↔
    SafeText u.name ∧ (∀ t ∈ u.tier, SafeText t) ∧ ∀ x ∈ u.passwordHash, SafeText x := by
  have htext := safeText_text u.role .rw u.origin
  have hstrings : strings u.doc = u.name :: u.role.text :: strings (optional u.tier) ++
      u.origin.text :: u.passwordHash.toList := by
    cases h : u.passwordHash <;> simp [UserEntry.doc, strings, entryStrings, h]
  rw [hstrings, ← allSafe_optional]
  simp only [AllSafe, List.forall_mem_append, List.forall_mem_cons, Option.mem_toList, Option.mem_def,
    htext.1, htext.2.2, true_and, and_assoc]

theorem safe_acl (r : AclEntry) : AllSafe (strings r.doc) ↔ SafeText r.user ∧ SafeText r.topic := by
  have htext := safeText_text .user r.permission r.origin
  have hstrings : strings r.doc = [r.user, r.topic, r.permission.text, r.origin.text] := rfl
  rw [hstrings]
  simp [AllSafe, htext]

theorem safe_token (t : TokenEntry) : AllSafe (strings t.doc) ↔
    SafeText t.user ∧ SafeText t.label ∧ ∀ e ∈ t.expires, SafeText e := by
  have htext := safeText_text .user .rw t.origin
  have hstrings : strings t.doc = t.user :: t.label :: strings (optional t.expires) ++
      [t.origin.text] := by
    simp [TokenEntry.doc, strings, entryStrings]
  rw [hstrings, ← allSafe_optional]
  simp only [AllSafe, List.forall_mem_append, List.forall_mem_cons, htext, List.not_mem_nil,
    false_implies, implies_true, and_true]

theorem safe_document : AllSafe (strings (document version authDefaultAccess generatedAt users acl
    tokens)) ↔ SafeText generatedAt ∧ SafeText authDefaultAccess ∧
      (∀ u ∈ users, AllSafe (strings u.doc)) ∧ (∀ r ∈ acl, AllSafe (strings r.doc)) ∧
        ∀ t ∈ tokens, AllSafe (strings t.doc) := by
  have hnone : ∀ version : Option ℤ, strings ((version.map Doc.int).getD .null) = [] := by
    rintro (- | m) <;> rfl
  have hntfy : SafeText "ntfy" := by decide
  have hstrings : strings (document version authDefaultAccess generatedAt users acl tokens) =
      [generatedAt, "ntfy", authDefaultAccess] ++ itemStrings (users.map UserEntry.doc) ++
        itemStrings (acl.map AclEntry.doc) ++ itemStrings (tokens.map TokenEntry.doc) := by
    simp [document, strings, entryStrings, hnone]
  rw [hstrings, allSafe_append, allSafe_append, allSafe_append, allSafe_itemStrings,
    allSafe_itemStrings, allSafe_itemStrings]
  simp only [AllSafe, List.forall_mem_cons, hntfy, List.not_mem_nil, false_implies, implies_true,
    and_true, true_and, and_assoc]

end Document

/-! ## The two renderings -/

/-- Both texts are read, and as the same document, in both versions of YAML. -/
def RenderingsAgree (doc : Doc) : Prop :=
  ∀ v, ∃ d, Yaml.load v (toYaml doc) = some d ∧ loads (toJson doc) = some d

/-- What the users chose and the export shows is safe: names, tiers, hashes where they are exported,
topics, labels and the default access. -/
structure SafeExport (db : FullDb) (includeHashes : Bool) (authDefaultAccess : String) : Prop where
  access : SafeText authDefaultAccess
  users : ∀ u ∈ db.users, isAnonymous { u with name := dbUserToApi u.name } = false →
    SafeText u.name ∧ (∀ t ∈ u.tier, SafeText t) ∧ (includeHashes = true → SafeText (db.passHash u.name))
  rules : ∀ r ∈ db.rules, SafeText r.user ∧ SafeText (dbTopicToCli r.topic)
  tokens : ∀ t ∈ db.tokens, SafeText t.user ∧ SafeText t.label

section Agree

variable {db : FullDb} {origins : Origins} {includeHashes : Bool} {authDefaultAccess : String}
  {now : ℤ}

theorem loads_toJson (doc : Doc) : loads (toJson doc) = some doc :=
  loads_dumps 0 doc rfl (noDigit_newline 0 [])

theorem renderingsAgree_iff (version : Option ℤ) (generatedAt : String) (users : List UserEntry)
    (acl : List AclEntry) (tokens : List TokenEntry) :
    RenderingsAgree (document version authDefaultAccess generatedAt users acl tokens) ↔
      AllSafe (strings (document version authDefaultAccess generatedAt users acl tokens)) := by
  have hkeys := plainKeys_document version authDefaultAccess generatedAt users acl tokens
  have hload := fun v => load_toYaml_eq_some_iff (v := v) hkeys
  have hagree : ∀ doc, RenderingsAgree doc ↔ ∀ v, Yaml.load v (toYaml doc) = some doc := by
    intro doc
    simp only [RenderingsAgree, loads_toJson, Option.some.injEq, exists_eq_right']
  rw [hagree]
  constructor
  · exact fun h => (hload .v11).mp (h .v11)
  · intro h v
    refine (hload v).mpr fun x hx c hc => ?_
    cases v with
    | v11 => exact h x hx c hc
    | v12 => rfl

theorem safeText_dbUserToApi (name : String) : SafeText (dbUserToApi name) ↔ SafeText name := by
  unfold dbUserToApi
  split_ifs with h
  · subst h
    exact iff_of_true (by decide) (by decide)
  · rfl

theorem safe_userEntries : (∀ u ∈ userEntries db origins includeHashes, AllSafe (strings u.doc)) ↔
    ∀ u ∈ db.users, isAnonymous { u with name := dbUserToApi u.name } = false →
      SafeText u.name ∧ (∀ t ∈ u.tier, SafeText t) ∧
        (includeHashes = true → SafeText (db.passHash u.name)) := by
  have hentry : ∀ u : UserRow, AllSafe (strings (⟨dbUserToApi u.name, u.role, u.tier,
      origins.getUser (dbUserToApi u.name), if includeHashes then some (db.passHash u.name) else none⟩ :
        UserEntry).doc) ↔ SafeText u.name ∧ (∀ t ∈ u.tier, SafeText t) ∧
          (includeHashes = true → SafeText (db.passHash u.name)) := by
    intro u
    rw [safe_user, safeText_dbUserToApi]
    cases includeHashes <;> simp
  unfold userEntries
  simp only [List.mem_insertionSort, List.mem_map, List.mem_filter]
  constructor
  · intro h u hu hreal
    exact (hentry u).mp (h _ ⟨_, ⟨⟨u, hu, rfl⟩, by simpa using hreal⟩, rfl⟩)
  · rintro h _ ⟨_, ⟨⟨u, hu, rfl⟩, hreal⟩, rfl⟩
    exact (hentry u).mpr (h u hu (by simpa using hreal))

theorem safe_aclEntries : (∀ r ∈ aclEntries db origins, AllSafe (strings r.doc)) ↔
    ∀ r ∈ db.rules, SafeText r.user ∧ SafeText (dbTopicToCli r.topic) := by
  unfold aclEntries
  simp only [List.mem_insertionSort, List.mem_map, AuthDb.mem_listAcl]
  constructor
  · intro h r hr
    have := (safe_acl _).mp (h _ ⟨_, ⟨r, hr, rfl⟩, rfl⟩)
    simpa only [AuthDb.aclRow, safeText_dbUserToApi] using this
  · rintro h _ ⟨_, ⟨r, hr, rfl⟩, rfl⟩
    rw [safe_acl]
    simpa only [AuthDb.aclRow, safeText_dbUserToApi] using h r hr

theorem mapM_eq_some {α β : Type} {f : α → Option β} {as : List α} {bs : List β}
    (h : as.mapM f = some bs) : bs = as.filterMap f ∧ ∀ a ∈ as, (f a).isSome := by
  induction as generalizing bs with
  | nil =>
    obtain rfl := Option.some.inj h
    simp
  | cons a as ih =>
    rw [List.mapM_cons] at h
    obtain ⟨b, hb, h⟩ := Option.bind_eq_some_iff.mp h
    obtain ⟨bs', hbs, h⟩ := Option.bind_eq_some_iff.mp h
    obtain rfl := Option.some.inj h
    obtain ⟨rfl, hall⟩ := ih hbs
    exact ⟨by rw [List.filterMap_cons_some hb], List.forall_mem_cons.mpr ⟨by rw [hb]; rfl, hall⟩⟩

theorem safe_tokenEntry {r : TokenRow} {t : TokenEntry} (h : tokenEntry origins r = some t) :
    AllSafe (strings t.doc) ↔ SafeText r.user ∧ SafeText r.label := by
  obtain ⟨e, he, rfl⟩ := Option.map_eq_some_iff.mp h
  have hexpires : ∀ s ∈ e, SafeText s := by
    intro s hs
    unfold expiresText at he
    split_ifs at he
    · obtain rfl := Option.some.inj he
      cases hs
    · obtain ⟨x, hx, rfl⟩ := Option.map_eq_some_iff.mp he
      obtain rfl := Option.some.inj hs
      exact safeText_isoUtc hx
  rw [safe_token]
  exact ⟨fun h => ⟨h.1, h.2.1⟩, fun h => ⟨h.1, h.2, hexpires⟩⟩

theorem safe_tokenEntries {tokens : List TokenEntry} (h : tokenEntries db origins = some tokens) :
    (∀ t ∈ tokens, AllSafe (strings t.doc)) ↔
      ∀ t ∈ db.tokens, SafeText t.user ∧ SafeText t.label := by
  obtain ⟨ts, hts, rfl⟩ := Option.map_eq_some_iff.mp h
  obtain ⟨rfl, hall⟩ := mapM_eq_some hts
  have hrow : ∀ r ∈ db.tokens, ∃ row ∈ db.listTokens, row.label = r.label ∧
      row.user = dbUserToApi r.user := fun r hr =>
    ⟨_, List.mem_map_of_mem (List.mem_insertionSort _ |>.mpr hr), rfl, rfl⟩
  simp only [List.mem_insertionSort, List.mem_filterMap]
  constructor
  · intro h r hr
    obtain ⟨row, hrow, hlabel, huser⟩ := hrow r hr
    obtain ⟨t, ht⟩ := Option.isSome_iff_exists.mp (hall row hrow)
    have := (safe_tokenEntry ht).mp (h t ⟨row, hrow, ht⟩)
    rwa [hlabel, huser, safeText_dbUserToApi] at this
  · rintro h t ⟨row, hrow, ht⟩
    obtain ⟨r, hr, rfl⟩ := List.mem_map.mp hrow
    obtain ⟨huser, hlabel⟩ := h r ((List.mem_insertionSort _).mp hr)
    exact (safe_tokenEntry ht).mpr ⟨(safeText_dbUserToApi _).mpr huser, hlabel⟩

theorem exists_mapM {α β : Type} {f : α → Option β} {as : List α} (h : ∀ a ∈ as, (f a).isSome) :
    ∃ bs, as.mapM f = some bs := by
  induction as with
  | nil => exact ⟨[], rfl⟩
  | cons a as ih =>
    obtain ⟨ha, has⟩ := List.forall_mem_cons.mp h
    obtain ⟨b, hb⟩ := Option.isSome_iff_exists.mp ha
    obtain ⟨bs, hbs⟩ := ih has
    exact ⟨b :: bs, by rw [List.mapM_cons, hb, hbs]; rfl⟩

/-- What an export that returns is made of. -/
theorem buildExport_eq_ok {doc : Doc}
    (h : buildExport (some db) origins includeHashes authDefaultAccess now = .ok doc) :
    ∃ generatedAt tokens, isoUtc now = some generatedAt ∧ tokenEntries db origins = some tokens ∧
      doc = document db.version authDefaultAccess generatedAt (userEntries db origins includeHashes)
        (aclEntries db origins) tokens := by
  unfold buildExport at h
  dsimp only at h
  split at h
  · cases h
  · split at h
    · rename_i tokens generatedAt htokens hnow
      exact ⟨generatedAt, tokens, hnow, htokens, (Except.ok.inj h).symm⟩
    · cases h

/-- The schema is supported and every time can be written. -/
structure Exportable (db : FullDb) (now : ℤ) : Prop where
  version : ∃ v ∈ AuthDb.supportedAuthSchemas, db.version = some v
  expires : ∀ t ∈ db.tokens, (expiresText t.expires).isSome
  now : (isoUtc now).isSome

theorem exists_export (h : Exportable db now) :
    ∃ doc, buildExport (some db) origins includeHashes authDefaultAccess now = .ok doc := by
  obtain ⟨v, hv, hversion⟩ := h.version
  obtain ⟨generatedAt, hnow⟩ := Option.isSome_iff_exists.mp h.now
  have hsupported : AuthDb.ensureSupported (some db.toAuthDb) = .ok db.toAuthDb := by
    simp only [AuthDb.ensureSupported, hversion, if_pos hv]
  obtain ⟨tokens, htokens⟩ : ∃ tokens, tokenEntries db origins = some tokens := by
    obtain ⟨ts, hts⟩ := @exists_mapM _ _ (tokenEntry origins) db.listTokens
      fun row hrow => by
        obtain ⟨r, hr, rfl⟩ := List.mem_map.mp hrow
        have := h.expires r ((List.mem_insertionSort _).mp hr)
        simpa only [tokenEntry, Option.isSome_map] using this
    exact ⟨_, by rw [tokenEntries, hts]; rfl⟩
  refine ⟨document db.version authDefaultAccess generatedAt (userEntries db origins includeHashes)
    (aclEntries db origins) tokens, ?_⟩
  simp only [buildExport, hsupported, htokens, hnow]

/-- `LABEL_RE` with `re.match`; `$` lets a newline at the end through. -/
def labelRe (label : String) : Bool :=
  let s := label.toList
  let s := if s.getLast? = some '\n' then s.dropLast else s
  s.all (fun c => 0x20 ≤ c.toNat) && s.length ≤ 64

/-- **Where the renderings agree.** -/
theorem renderings_agree_iff {doc : Doc}
    (h : buildExport (some db) origins includeHashes authDefaultAccess now = .ok doc) :
    RenderingsAgree doc ↔ SafeExport db includeHashes authDefaultAccess := by
  obtain ⟨generatedAt, tokens, hnow, htokens, rfl⟩ := buildExport_eq_ok h
  rw [renderingsAgree_iff, safe_document, safe_userEntries, safe_aclEntries, safe_tokenEntries htokens]
  exact ⟨fun ⟨_, haccess, husers, hrules, htokens⟩ => ⟨haccess, husers, hrules, htokens⟩,
    fun h => ⟨safeText_isoUtc hnow, h.access, h.users, h.rules, h.tokens⟩⟩

end Agree

/-- One user with one token. -/
def labelledDb (label : String) : FullDb where
  version := some 10
  users := [⟨"alice", .user, none, false⟩]
  rules := []
  nodup := by decide
  reserved := by decide
  owned := by simp
  passHash _ := ""
  tokens := [⟨"alice", "tk_abc", label, 0, 0, "", false⟩]
  tokenOwned := by simp

theorem exportable_labelledDb (label : String) : Exportable (labelledDb label) 0 where
  version := ⟨10, by decide, rfl⟩
  expires := by simp [labelledDb, expiresText]
  now := by decide +kernel

/-- A label of printable characters. -/
theorem renderings_agree_laptop : ∃ doc,
    buildExport (some (labelledDb "laptop")) .empty false "deny-all" 0 = .ok doc ∧
      (RenderingsAgree doc ↔ SafeExport (labelledDb "laptop") false "deny-all") := by
  obtain ⟨doc, hdoc⟩ := @exists_export (labelledDb "laptop") .empty false "deny-all" 0
    (exportable_labelledDb "laptop")
  exact ⟨doc, hdoc, renderings_agree_iff hdoc⟩

/-- A label with the delete character, which no YAML 1.1 stream may hold. -/
theorem renderings_differ : ¬ ∀ (db : FullDb) (origins : Origins) (includeHashes : Bool)
    (authDefaultAccess : String) (now : ℤ) (doc : Doc),
    (∀ u ∈ db.users, u.name = "*" ∨ usernameRe u.name = true) →
      (∀ r ∈ db.rules, topicPatternRe (dbTopicToCli r.topic) = true) →
        (∀ t ∈ db.tokens, labelRe t.label = true) →
          buildExport (some db) origins includeHashes authDefaultAccess now = .ok doc →
            RenderingsAgree doc := by
  intro h
  obtain ⟨doc, hdoc⟩ := @exists_export (labelledDb "a\x7fb") .empty false "deny-all" 0
    (exportable_labelledDb "a\x7fb")
  have hagree := h _ _ _ _ _ doc (by decide) (by simp [labelledDb]) (by decide) hdoc
  obtain ⟨generatedAt, tokens, -, htokens, rfl⟩ := buildExport_eq_ok hdoc
  rw [renderingsAgree_iff, safe_document, safe_tokenEntries htokens] at hagree
  have hlabel : SafeText "a\x7fb" := (hagree.2.2.2.2 _ List.mem_cons_self).2
  exact absurd hlabel (by decide)

end HaAddons.Ntfy

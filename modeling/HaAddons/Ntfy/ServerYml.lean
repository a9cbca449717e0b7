import HaAddons.Lib.YamlAscii
import HaAddons.Ntfy.Contract

/-!
# server.yml

`render_server_yml` writes the settings of the ntfy server from the options, each on a line of its
own, with strings as JSON strings.

* `load_renderServerYml` — a YAML reader gets the settings back exactly if no string that is written
  has a character above U+FFFF. If one has, the file cannot be read.
-/

namespace HaAddons.Ntfy

open Doc Yaml

/-- The options that the server's settings are made of. -/
structure ServerOptions extends Options where
  baseUrl : String := "https://ntfy.example.com"
  enableWebUi : Bool := true
  behindProxy : Bool := true
  cacheDuration : String := "12h"
  attachmentsEnabled : Bool := true
  attachmentTotalSizeLimit : String := "1G"
  attachmentFileSizeLimit : String := "15M"
  attachmentExpiryDuration : String := "12h"
  logLevel : String := "info"

/-- The files named in the settings. -/
structure ServerPaths where
  authDb : String
  cacheDb : String
  attachmentDir : String

def ntfyPort : ℕ := 8000

/-! ## The renderer -/

def settingLine (key : String) (value : List Char) : List Char :=
  key.toList ++ ':' :: ' ' :: value

def yesNo (b : Bool) : List Char := if b then "true".toList else "false".toList

/-- The lines of the attachment settings. A limit that is empty is left out. -/
def attachmentLines (options : ServerOptions) (paths : ServerPaths) : List (List Char) :=
  settingLine "attachment-cache-dir" (dumps paths.attachmentDir) ::
    ([("attachment-total-size-limit", options.attachmentTotalSizeLimit),
      ("attachment-file-size-limit", options.attachmentFileSizeLimit),
      ("attachment-expiry-duration", options.attachmentExpiryDuration)].flatMap fun e =>
        if e.2 ≠ "" then [settingLine e.1 (dumps e.2)] else [])

def serverLines (options : ServerOptions) (paths : ServerPaths) : List (List Char) :=
  [settingLine "base-url" (dumps options.baseUrl),
    settingLine "listen-http" (dumps (":" ++ toString ntfyPort)),
    settingLine "cache-file" (dumps paths.cacheDb),
    settingLine "cache-duration" (dumps options.cacheDuration),
    settingLine "auth-file" (dumps paths.authDb),
    settingLine "auth-default-access" (dumps options.authDefaultAccess),
    settingLine "enable-login" (yesNo true),
    settingLine "enable-signup" (yesNo false),
    settingLine "behind-proxy" (yesNo options.behindProxy),
    settingLine "web-root" (dumps (if options.enableWebUi then "/" else "disable")),
    settingLine "log-level" (dumps options.logLevel)] ++
  if options.attachmentsEnabled then attachmentLines options paths else []

/-- `render_server_yml` -/
def renderServerYml (options : ServerOptions) (paths : ServerPaths) : List Char :=
  List.intercalate ['\n'] (serverLines options paths) ++ ['\n']

/-! ## The settings -/

/-- A limit is a setting unless it is empty. -/
def limit (key value : String) : List (String × Doc) :=
  if value = "" then [] else [(key, .str value)]

/-- The documented settings of the options. -/
def serverSettings (options : ServerOptions) (paths : ServerPaths) : List (String × Doc) :=
  [("base-url", .str options.baseUrl), ("listen-http", .str ":8000"),
    ("cache-file", .str paths.cacheDb), ("cache-duration", .str options.cacheDuration),
    ("auth-file", .str paths.authDb), ("auth-default-access", .str options.authDefaultAccess),
    ("enable-login", .bool true), ("enable-signup", .bool false),
    ("behind-proxy", .bool options.behindProxy),
    ("web-root", .str (if options.enableWebUi then "/" else "disable")),
    ("log-level", .str options.logLevel)] ++
  if options.attachmentsEnabled then
    ("attachment-cache-dir", .str paths.attachmentDir) ::
      (limit "attachment-total-size-limit" options.attachmentTotalSizeLimit ++
        (limit "attachment-file-size-limit" options.attachmentFileSizeLimit ++
          limit "attachment-expiry-duration" options.attachmentExpiryDuration))
  else []

/-- How a value is written. -/
def settingText : Doc → List Char
  | .str s => dumps s
  | .bool b => yesNo b
  | _ => []

/-- The value is read back. -/
def isReadable : Doc → Bool
  | .str s => s.toList.all isBasic
  | _ => true

section Settings

variable {options : ServerOptions} {paths : ServerPaths} {v : Version}

theorem intercalate_newline (l : List Char) (ls : List (List Char)) :
    List.intercalate ['\n'] (l :: ls) ++ ['\n'] = (l :: ls).flatMap (· ++ ['\n']) := by
  induction ls generalizing l with
  | nil => simp
  | cons l' ls ih =>
    rw [List.intercalate_cons_cons, List.flatMap_cons, ← ih l']
    simp

theorem limit_lines (key value : String) :
    (if value ≠ "" then [settingLine key (dumps value)] else []) =
      (limit key value).map fun e => settingLine e.1 (settingText e.2) := by
  by_cases hvalue : value = ""
  · simp [limit, hvalue]
  · simp [limit, hvalue, settingText]

/-- Each setting has its line. -/
theorem serverLines_eq (options : ServerOptions) (paths : ServerPaths) :
    serverLines options paths =
      (serverSettings options paths).map fun e => settingLine e.1 (settingText e.2) := by
  have hattachments : attachmentLines options paths =
      ((("attachment-cache-dir", Doc.str paths.attachmentDir) ::
        (limit "attachment-total-size-limit" options.attachmentTotalSizeLimit ++
          (limit "attachment-file-size-limit" options.attachmentFileSizeLimit ++
            limit "attachment-expiry-duration" options.attachmentExpiryDuration))).map
        fun e => settingLine e.1 (settingText e.2)) := by
    rw [List.map_cons, List.map_append, List.map_append, ← limit_lines, ← limit_lines,
      ← limit_lines]
    simp only [attachmentLines, settingText, List.flatMap_cons, List.flatMap_nil, List.append_nil]
  unfold serverLines serverSettings
  rw [hattachments, List.map_append]
  congr 1
  split_ifs
  · rfl
  · rfl

theorem renderServerYml_eq (options : ServerOptions) (paths : ServerPaths) :
    renderServerYml options paths =
      (serverSettings options paths).flatMap fun e => entryLine (e.1, settingText e.2) := by
  have hcons : ∃ l ls, serverLines options paths = l :: ls := ⟨_, _, rfl⟩
  obtain ⟨l, ls, hlines⟩ := hcons
  rw [renderServerYml, hlines, intercalate_newline, ← hlines, serverLines_eq, List.flatMap_map]
  simp [settingLine, entryLine]

/-- The keys that server.yml can have. -/
def serverKeys : List String :=
  ["base-url", "listen-http", "cache-file", "cache-duration", "auth-file", "auth-default-access",
    "enable-login", "enable-signup", "behind-proxy", "web-root", "log-level",
    "attachment-cache-dir", "attachment-total-size-limit", "attachment-file-size-limit",
    "attachment-expiry-duration"]

theorem lineKey_serverKeys : ∀ key ∈ serverKeys, LineKey v key := by
  have hword : (serverKeys.all fun key => key.toList.all isWordChar && key.toList ≠ [] &&
      key.toList.head? ≠ some '-') = true := by
    decide
  have hresolve : ∀ key ∈ serverKeys, resolve v key.toList = some (.str key) := by
    simp only [serverKeys, List.forall_mem_cons, List.not_mem_nil, false_imp_iff, implies_true,
      and_true]
    cases v <;> refine ⟨?_, ?_, ?_, ?_, ?_, ?_, ?_, ?_, ?_, ?_, ?_, ?_, ?_, ?_, ?_⟩ <;> rfl
  intro key hkey
  have h := List.all_eq_true.mp hword key hkey
  simp only [Bool.and_eq_true, decide_eq_true_eq] at h
  exact ⟨h.1.1, hresolve key hkey, by simpa using h.1.2, by simpa using h.2⟩

/-- A setting has a documented key and is a string or a boolean. -/
def IsSetting (e : String × Doc) : Prop :=
  e.1 ∈ serverKeys ∧ ((∃ s, e.2 = .str s) ∨ ∃ b, e.2 = .bool b)

theorem isSetting_serverSettings : ∀ e ∈ serverSettings options paths, IsSetting e := by
  have hstr : ∀ {key s}, key ∈ serverKeys → IsSetting (key, .str s) := fun hkey =>
    ⟨hkey, .inl ⟨_, rfl⟩⟩
  have hbool : ∀ {key b}, key ∈ serverKeys → IsSetting (key, .bool b) := fun hkey =>
    ⟨hkey, .inr ⟨_, rfl⟩⟩
  have hlimit : ∀ {key value}, key ∈ serverKeys → ∀ e ∈ limit key value, IsSetting e := by
    intro key value hkey
    unfold limit
    split
    · simp
    · simpa using hstr hkey
  unfold serverSettings
  rw [List.forall_mem_append]
  constructor
  · simp only [List.forall_mem_cons, List.not_mem_nil, false_imp_iff, implies_true, and_true]
    exact ⟨hstr (by decide), hstr (by decide), hstr (by decide), hstr (by decide),
      hstr (by decide), hstr (by decide), hbool (by decide), hbool (by decide),
      hbool (by decide), hstr (by decide), hstr (by decide)⟩
  · split
    · rw [List.forall_mem_cons, List.forall_mem_append, List.forall_mem_append]
      exact ⟨hstr (by decide), hlimit (by decide), hlimit (by decide), hlimit (by decide)⟩
    · simp

theorem readsLine_setting {e : String × Doc} (he : IsSetting e) :
    ReadsLine v settingText isReadable e.2 := by
  intro s
  rcases he.2 with ⟨x, hx⟩ | ⟨b, hb⟩
  · rw [hx, settingText, scalar_dumps]
    rfl
  · rw [hb]
    cases v <;> cases b <;> rfl

theorem isPrintable_setting {e : String × Doc} (he : IsSetting e) :
    ∀ c ∈ settingText e.2, IsPrintable c := by
  rcases he.2 with ⟨x, hx⟩ | ⟨b, hb⟩
  · rw [hx]
    exact isPrintable_dumps x
  · have hword : ((yesNo b).all fun c => 0x20 ≤ c.toNat && c.toNat ≤ 0x7E) = true := by
      cases b <;> decide
    intro c hc
    rw [hb] at hc
    simpa [IsPrintable] using List.all_eq_true.mp hword c hc

/-- **What a reader makes of server.yml.** -/
theorem load_renderServerYml (v : Version) (options : ServerOptions) (paths : ServerPaths) :
    load v (renderServerYml options paths) =
      if (serverSettings options paths).all (fun e => isReadable e.2) then
        some (.dict (serverSettings options paths))
      else none := by
  have hcons : ∃ e es, serverSettings options paths = e :: es := ⟨_, _, rfl⟩
  obtain ⟨e, es, hsettings⟩ := hcons
  have hall : ∀ e' ∈ e :: es, IsSetting e' := hsettings ▸ isSetting_serverSettings
  rw [renderServerYml_eq, hsettings]
  exact load_entries (fun e' he' => ⟨lineKey_serverKeys _ (hall e' he').1,
    readsLine_setting (hall e' he')⟩) fun e' he' => isPrintable_setting (hall e' he')

end Settings

/-- The strings that are written have no character above U+FFFF. -/
def BasicStrings (options : ServerOptions) (paths : ServerPaths) : Prop :=
  ∀ s ∈ strings (.dict (serverSettings options paths)), ∀ c ∈ s.toList, c.toNat ≤ 0xFFFF

/-- **server.yml.** In both versions of YAML the file is a mapping of exactly the documented settings,
if and only if no string that is written has a character above U+FFFF. -/
theorem renderServerYml_iff (options : ServerOptions) (paths : ServerPaths) :
    (∀ v, load v (renderServerYml options paths) = some (.dict (serverSettings options paths))) ↔
      BasicStrings options paths := by
  have hread : (serverSettings options paths).all (fun e => isReadable e.2) = true ↔
      BasicStrings options paths := by
    have hone : ∀ {e}, IsSetting e → (isReadable e.2 = true ↔
        ∀ s ∈ strings e.2, ∀ c ∈ s.toList, c.toNat ≤ 0xFFFF) := by
      intro e he
      rcases he.2 with ⟨x, hx⟩ | ⟨b, hb⟩
      · simp [hx, isReadable, strings, isBasic, Nat.lt_succ_iff]
      · simp [hb, isReadable, strings]
    rw [List.all_eq_true, BasicStrings, strings]
    simp only [mem_entryStrings]
    constructor
    · rintro h s ⟨e, he, hs⟩
      exact (hone (isSetting_serverSettings e he)).mp (h e he) s hs
    · intro h e he
      exact (hone (isSetting_serverSettings e he)).mpr fun s hs => h s ⟨e, he, hs⟩
  simp only [load_renderServerYml, ← hread]
  constructor
  · intro h
    by_contra hnot
    have hnone := h .v12
    rw [if_neg hnot] at hnone
    cases hnone
  · intro h v
    rw [if_pos h]

/-- With an emoji in the base URL the file cannot be read. -/
theorem renderServerYml_emoji :
    (load · (renderServerYml { baseUrl := "https://ntfy.example/😀" }
      ⟨"/data/auth.db", "/data/cache.db", "/data/attachments"⟩)) = fun _ => none := by
  funext v
  rw [load_renderServerYml]
  exact if_neg (by decide +kernel)

end HaAddons.Ntfy

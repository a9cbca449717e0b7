import HaAddons.Lib.PyJson
import HaAddons.Lib.PyText

/-!
# The configured directories

`validate_directories` takes the list of directories that the options give and returns the
namespaces that are served.

* `accepted_names` — the names that it returns are valid, not reserved, and all different.
-/

namespace HaAddons.Markdown

open HaAddons.Lib.Py (Text)

variable {φ : Type}

/-- A plugin has a URL or code. -/
structure Plugin where
  name : String
  url : Option String
  code : Option String
  deriving DecidableEq, Repr

/-- A validated entry. -/
structure Namespace where
  name : Text
  path : Text
  css : Option String
  cssUrl : Option String
  plugins : List Plugin
  deriving DecidableEq, Repr

/-- What a `ValueError` is about. -/
inductive Invalid where
  | directories
  | entry
  | fields
  | emptyName
  | reserved (name : Text)
  | name (name : Text)
  | duplicate (name : Text)
  | notText (field : String) (ns : Text)
  | notHttps (field : String) (ns : Text) (value : String)
  | size (field : String) (ns : Text) (bytes : ℕ)
  | plugins (ns : Text)
  | plugin (idx : ℕ) (ns : Text)
  | pluginName (idx : ℕ) (ns : Text)
  | pluginField (idx : ℕ) (name field : String) (ns : Text)
  | urlAndCode (name : String) (ns : Text)
  | noUrlNoCode (name : String) (ns : Text)
  | code (name : String) (ns : Text)
  deriving DecidableEq, Repr

/-! ## Names -/

def reservedNames : List Text :=
  ["_static".toList, "api".toList, "data".toList, "share".toList, "config".toList, "media".toList]

def isNameStart (c : Char) : Bool := c.isLower || c.isDigit

def isNameChar (c : Char) : Bool := isNameStart c || c = '-'

/-- `[a-z0-9][a-z0-9-]{0,62}` -/
def isLabel : Text → Bool
  | [] => false
  | c :: s => isNameStart c && s.all isNameChar && s.length ≤ 62

/-- `VALID_NAME_RE.match`; its `$` also matches before a newline at the end. -/
def validNameRe (name : Text) : Bool :=
  isLabel name || (name.getLast? = some '\n' && isLabel name.dropLast)

-- Whether a name is in a list is decided with this instance, whatever else is imported.
theorem lawfulBEq_name : LawfulBEq Text := inferInstance

attribute [local instance] lawfulBEq_name in
def validateNamespace (name : Text) : Except Invalid Unit :=
  if name = [] then .error .emptyName
  else if name ∈ reservedNames then .error (.reserved name)
  else if !validNameRe name then .error (.name name)
  else .ok ()

/-! ## Styles and plugins -/

def inlineHardLimitBytes : ℕ := 500 * 1024

def validateHttpsUrl (value field : String) (ns : Text) : Except Invalid Unit :=
  if "https://".toList.isPrefixOf value.toList then .ok () else .error (.notHttps field ns value)

/-- Sizes below the limit are warned of at most. -/
def checkSize (value field : String) (ns : Text) : Except Invalid Unit :=
  if inlineHardLimitBytes < value.utf8ByteSize then .error (.size field ns value.utf8ByteSize)
  else .ok ()

/-- Null and the empty text are nothing; `check` is what another text must pass. -/
def optionalText (field : String) (ns : Text) (check : String → Except Invalid Unit) :
    PyJson φ → Except Invalid (Option String)
  | .none => .ok none
  | .str s => if s = "" then .ok none else (check s).map fun _ => some s
  | _ => .error (.notText field ns)

def validateUserCss (raw : PyJson φ) (ns : Text) : Except Invalid (Option String) :=
  optionalText "css" ns (checkSize · "css" ns) raw

def validateUserCssUrl (raw : PyJson φ) (ns : Text) : Except Invalid (Option String) :=
  optionalText "css_url" ns (validateHttpsUrl · "css_url" ns) raw

/-- A value that is a text if it is set. -/
def textOrNone (e : Invalid) : PyJson φ → Except Invalid (Option String)
  | .none => .ok none
  | .str s => .ok (some s)
  | _ => .error e

/-- `d.get(key, "")` -/
def getText (v : PyJson φ) (key : String) : PyJson φ := (v.get? key).getD (.str "")

section Plugins

-- the syntax check of inline code
variable (parses : String → Bool)

def validatePlugin (ns : Text) (idx : ℕ) (entry : PyJson φ) : Except Invalid Plugin :=
  if !entry.isDict then .error (.plugin idx ns)
  else
    match getText entry "name" with
    | .str name => do
      if name = "" then throw (.pluginName idx ns)
      let url ← textOrNone (.pluginField idx name "url" ns) (entry.get "url")
      let code ← textOrNone (.pluginField idx name "code" ns) (entry.get "code")
      match url.filter (· ≠ ""), code.filter (· ≠ "") with
      | some _, some _ => throw (.urlAndCode name ns)
      | none, none => throw (.noUrlNoCode name ns)
      | some u, none => validateHttpsUrl u s!"plugin '{name}' url" ns
      | none, some c =>
        checkSize c s!"plugin '{name}' code" ns
        if !parses c then throw (.code name ns)
      pure ⟨name, url, code⟩
    | _ => .error (.pluginName idx ns)

def validateUserPlugins (raw : PyJson φ) (ns : Text) : Except Invalid (List Plugin) :=
  match raw with
  | .none => .ok []
  | .list items => items.zipIdx.mapM fun e => validatePlugin parses ns e.2 e.1
  | _ => .error (.plugins ns)

/-! ## The list -/

attribute [local instance] lawfulBEq_name in
/-- One entry, after those that are validated. -/
def validateEntry (validated : List Namespace) (entry : PyJson φ) :
    Except Invalid (List Namespace) :=
  if !entry.isDict then .error .entry
  else
    match getText entry "name", getText entry "path" with
    | .str name, .str path => do
      validateNamespace name.toList
      if name.toList ∈ validated.map (·.name) then throw (.duplicate name.toList)
      let css ← validateUserCss (entry.get "css") name.toList
      let cssUrl ← validateUserCssUrl (entry.get "css_url") name.toList
      let plugins ← validateUserPlugins parses (entry.get "plugins") name.toList
      pure (validated ++ [⟨name.toList, path.toList, css, cssUrl, plugins⟩])
    | _, _ => .error .fields

def validateDirectories : PyJson φ → Except Invalid (List Namespace)
  | .list items => items.foldlM (validateEntry parses) []
  | _ => .error .directories

end Plugins

/-! ## What is accepted -/

/-- The names of a validated list. -/
structure Accepted (namespaces : List Namespace) : Prop where
  valid : ∀ ns ∈ namespaces, validNameRe ns.name = true
  free : ∀ ns ∈ namespaces, ns.name ∉ reservedNames
  nodup : (namespaces.map (·.name)).Nodup

section Accepted

variable {parses : String → Bool} {validated namespaces : List Namespace} {entry : PyJson φ}

theorem validateNamespace_ok {name : Text} (h : validateNamespace name = .ok ()) :
    validNameRe name = true ∧ name ∉ reservedNames := by
  unfold validateNamespace at h
  split_ifs at h with hempty hreserved hvalid
  exact ⟨by simpa using hvalid, hreserved⟩

theorem bind_eq_ok {α β : Type} {x : Except Invalid α} {f : α → Except Invalid β} {b : β} :
    x >>= f = .ok b ↔ ∃ a, x = .ok a ∧ f a = .ok b := by
  cases x with
  | error e => simp [bind, Except.bind]
  | ok a => simp [bind, Except.bind]

/-- An entry that is accepted adds a namespace with a new name. -/
theorem validateEntry_ok (h : validateEntry parses validated entry = .ok namespaces) :
    ∃ ns, namespaces = validated ++ [ns] ∧ validNameRe ns.name = true ∧
      ns.name ∉ reservedNames ∧ ns.name ∉ validated.map (·.name) := by
  unfold validateEntry at h
  split at h
  · cases h
  · split at h
    · rename_i name path _ _
      simp only [bind_eq_ok] at h
      obtain ⟨⟨⟩, hname, hrest⟩ := h
      obtain ⟨hvalid, hfree⟩ := validateNamespace_ok hname
      by_cases hseen : name.toList ∈ validated.map (·.name)
      · rw [if_pos hseen] at hrest
        cases hrest
      · rw [if_neg hseen] at hrest
        obtain ⟨css, -, hrest⟩ := bind_eq_ok.mp hrest
        obtain ⟨cssUrl, -, hrest⟩ := bind_eq_ok.mp hrest
        obtain ⟨plugins, -, hrest⟩ := bind_eq_ok.mp hrest
        cases hrest
        exact ⟨_, rfl, hvalid, hfree, hseen⟩
    · cases h

theorem Accepted.append {ns : Namespace} (h : Accepted validated)
    (hvalid : validNameRe ns.name = true) (hfree : ns.name ∉ reservedNames)
    (hnew : ns.name ∉ validated.map (·.name)) : Accepted (validated ++ [ns]) where
  valid := by
    intro m hm
    rcases List.mem_append.mp hm with hm | hm
    · exact h.valid m hm
    · exact List.mem_singleton.mp hm ▸ hvalid
  free := by
    intro m hm
    rcases List.mem_append.mp hm with hm | hm
    · exact h.free m hm
    · exact List.mem_singleton.mp hm ▸ hfree
  nodup := by
    rw [List.map_append, List.map_singleton]
    exact List.nodup_append.mpr ⟨h.nodup, by simp, by
      intro a ha b hb hab
      rw [List.mem_singleton] at hb
      exact hnew (hb ▸ hab ▸ ha)⟩

theorem accepted_entries {items : List (PyJson φ)} (h : Accepted validated)
    (hitems : items.foldlM (validateEntry parses) validated = .ok namespaces) :
    Accepted namespaces := by
  induction items generalizing validated with
  | nil =>
    cases hitems
    exact h
  | cons entry items ih =>
    rw [List.foldlM_cons] at hitems
    obtain ⟨next, hentry, hitems⟩ := bind_eq_ok.mp hitems
    obtain ⟨ns, rfl, hvalid, hfree, hnew⟩ := validateEntry_ok hentry
    exact ih (h.append hvalid hfree hnew) hitems

/-- **The names** of the namespaces. -/
theorem accepted_names {directories : PyJson φ}
    (h : validateDirectories parses directories = .ok namespaces) : Accepted namespaces := by
  cases directories with
  | list items => exact accepted_entries ⟨by simp, by simp, by simp⟩ h
  | _ => cases h

end Accepted

end HaAddons.Markdown

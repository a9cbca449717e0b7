import HaAddons.Lib.Dict
import Mathlib.Data.List.Sort
import Mathlib.Data.String.Basic

/-!
# Flattening a decrypted SOPS document

`_flatten` makes one key of each leaf, under the keys on the way to it joined by the separator.

* `walk_eq` — the recursion is a loop over the leaves, whose names depend on their paths only.
* `flatten_lossless` — it succeeds exactly when every leaf is an allowed scalar and no two leaves get
  one name, and the result has one entry for each leaf then.
-/

namespace HaAddons.SecretsSync.Sops

/-! ## Documents -/

/-- What is not a mapping. A `collection` is a list, tuple or set; a `scalar` is a string, a number, a
date or bytes. -/
inductive Leaf (σ : Type) where
  | collection
  | null
  | bool (b : Bool)
  | scalar (v : σ)

/-- A value of the document that `yaml.safe_load` returns. -/
inductive Value (κ σ : Type) where
  | leaf (l : Leaf σ)
  | mapping (items : List (κ × Value κ σ))

/-- `ProviderError` with its code. -/
structure ProviderError where
  code : String
  message : String
  deriving DecidableEq, Repr

/-- The lists and the dictionary that `walk` adds to. -/
structure Flat where
  out : Dict String String := .empty
  bad : List String := []
  collisions : List String := []

/-- `a, b, c` in order. -/
def listed (names : List String) : String := ", ".intercalate (names.insertionSort (· ≤ ·))

section Flatten

/- `str()` of a key and of a scalar, and `flatten_separator`. -/
variable {κ σ : Type} (keyStr : κ → String) (str : σ → String) (sep : String)

/-- `_to_str`, where the value is allowed. -/
def toStr : Leaf σ → Option String
  | .collection | .null => none
  | .bool b => some (if b then "true" else "false")
  | .scalar v => some (str v)

/-- The name of a key below a name. -/
def nameBelow (name : String) (key : κ) : String :=
  if name = "" then keyStr key else name ++ sep ++ keyStr key

/-- What `walk` does with a value that is not a mapping. -/
def Flat.visit (f : Flat) (name : String) (l : Leaf σ) : Flat :=
  match toStr str l with
  | none => { f with bad := f.bad ++ [name] }
  | some text =>
    { f with
      collisions := if name ∈ f.out.keys then f.collisions ++ [name] else f.collisions
      out := f.out.insert name text }

mutual

/-- The loop over the items of a mapping. -/
def walk (name : String) : List (κ × Value κ σ) → Flat → Flat
  | [], f => f
  | (key, value) :: rest, f => walk name rest (walkValue (nameBelow keyStr sep name key) value f)

def walkValue (name : String) : Value κ σ → Flat → Flat
  | .mapping items, f => walk name items f
  | .leaf l, f => f.visit str name l

end

def flatten (data : List (κ × Value κ σ)) : Except ProviderError (Dict String String) :=
  let f := walk keyStr str sep "" data {}
  if f.bad ≠ [] then
    .error ⟨"sops_unsupported_value", "unsupported value type for keys: " ++ listed f.bad⟩
  else if f.collisions ≠ [] then
    .error ⟨"key_collision", "flattened key collision: " ++ listed f.collisions.dedup⟩
  else .ok f.out

end Flatten

/-! ## Leaves and their paths -/

section Leaves

variable {κ σ : Type}

mutual

/-- The leaves of a mapping, in order, each with the keys on the way to it. -/
def leaves : List (κ × Value κ σ) → List (List κ × Leaf σ)
  | [] => []
  | (key, value) :: rest =>
    (value.leaves.map fun l => (key :: l.1, l.2)) ++ leaves rest

def Value.leaves : Value κ σ → List (List κ × Leaf σ)
  | .mapping items => Sops.leaves items
  | .leaf l => [([], l)]

end

variable (keyStr : κ → String) (str : σ → String) (sep : String)

/-- The name of a path: its keys joined, without the empty ones that it begins with. -/
def nameOf (path : List κ) : String :=
  sep.intercalate ((path.map keyStr).dropWhile (· = ""))

/-- A leaf that has a place among the secrets. -/
def Leaf.Allowed : Leaf σ → Prop
  | .collection | .null => False
  | .bool _ | .scalar _ => True

variable {keyStr str sep}

theorem allowed_iff (str : σ → String) {l : Leaf σ} : l.Allowed ↔ toStr str l ≠ none := by
  cases l <;> simp [Leaf.Allowed, toStr]

/-! ### The recursion is a loop -/

mutual

/-- **The loop over the leaves.** -/
theorem walk_eq (name : String) (items : List (κ × Value κ σ)) (f : Flat) :
    walk keyStr str sep name items f = (leaves items).foldl
      (fun f l => f.visit str (l.1.foldl (nameBelow keyStr sep) name) l.2) f := by
  match items with
  | [] => rfl
  | (key, value) :: rest =>
    rw [walk, walk_eq name rest, walkValue_eq _ value, leaves, List.foldl_append, List.foldl_map]
    rfl

theorem walkValue_eq (name : String) (value : Value κ σ) (f : Flat) :
    walkValue keyStr str sep name value f = value.leaves.foldl
      (fun f l => f.visit str (l.1.foldl (nameBelow keyStr sep) name) l.2) f := by
  match value with
  | .leaf l => rfl
  | .mapping items =>
    rw [walkValue, walk_eq name items]
    rfl

end

theorem foldl_nameBelow {name : String} (hname : name ≠ "") (path : List κ) :
    path.foldl (nameBelow keyStr sep) name = sep.intercalate (name :: path.map keyStr) := by
  induction path generalizing name with
  | nil => simp
  | cons key path ih =>
    have hne : name ++ sep ++ keyStr key ≠ "" := by simp [hname]
    rw [List.foldl_cons, nameBelow, if_neg hname, ih hne, List.map_cons,
      String.intercalate_cons_append, String.intercalate_cons_cons]

/-- The join of the keys, where the first one is not empty. -/
theorem nameOf_cons {key : κ} (hkey : keyStr key ≠ "") (path : List κ) :
    nameOf keyStr sep (key :: path) = sep.intercalate ((key :: path).map keyStr) := by
  simp [nameOf, hkey]

/-- `walk` builds the name of a path. -/
theorem foldl_eq_nameOf (path : List κ) :
    path.foldl (nameBelow keyStr sep) "" = nameOf keyStr sep path := by
  induction path with
  | nil => rfl
  | cons key path ih =>
    rw [List.foldl_cons, nameBelow, if_pos rfl]
    by_cases hkey : keyStr key = ""
    · rw [hkey, ih]
      simp [nameOf, hkey]
    · rw [foldl_nameBelow hkey, nameOf_cons hkey, List.map_cons]

/-! ### The loop -/

/-- The entries of the allowed leaves. -/
def entriesOf (str : σ → String) (ls : List (String × Leaf σ)) : List (String × String) :=
  ls.filterMap fun l => (toStr str l.2).map fun text => (l.1, text)

/-- The loop over leaves with their names. -/
def visits (str : σ → String) (ls : List (String × Leaf σ)) (f : Flat) : Flat :=
  ls.foldl (fun f l => f.visit str l.1 l.2) f

theorem walk_eq_visits (items : List (κ × Value κ σ)) (f : Flat) :
    walk keyStr str sep "" items f =
      visits str ((leaves items).map fun l => (nameOf keyStr sep l.1, l.2)) f := by
  rw [walk_eq, visits, List.foldl_map]
  simp only [foldl_eq_nameOf]

/-- Refused leaves are all reported. -/
theorem visits_bad (ls : List (String × Leaf σ)) (f : Flat) :
    (visits str ls f).bad =
      f.bad ++ (ls.filter fun l => (toStr str l.2).isNone).map Prod.fst := by
  induction ls generalizing f with
  | nil => simp [visits]
  | cons l ls ih =>
    have hstep : visits str (l :: ls) f = visits str ls (f.visit str l.1 l.2) := rfl
    rw [hstep, ih]
    cases h : toStr str l.2 <;> simp [Flat.visit, h]

/-- A collision is reported exactly when a name comes a second time. -/
theorem visits_collisions (ls : List (String × Leaf σ)) (f : Flat) :
    (visits str ls f).collisions = [] ↔ f.collisions = [] ∧
      ((entriesOf str ls).map Prod.fst).Nodup ∧
      ∀ name ∈ (entriesOf str ls).map Prod.fst, name ∉ f.out.keys := by
  induction ls generalizing f with
  | nil => simp [visits, entriesOf]
  | cons l ls ih =>
    have hstep : visits str (l :: ls) f = visits str ls (f.visit str l.1 l.2) := rfl
    rw [hstep, ih]
    cases h : toStr str l.2 with
    | none =>
      have hsame : entriesOf str (l :: ls) = entriesOf str ls := by simp [entriesOf, h]
      simp only [Flat.visit, h, hsame]
    | some text =>
      have hcons : entriesOf str (l :: ls) = (l.1, text) :: entriesOf str ls := by
        simp [entriesOf, h]
      simp only [Flat.visit, h, hcons, List.map_cons, List.nodup_cons, Dict.mem_keys_insert,
        List.forall_mem_cons, not_or]
      by_cases hmem : l.1 ∈ f.out.keys
      · simp [hmem]
      · simp only [hmem, if_false, not_false_eq_true, true_and]
        refine and_congr_right fun _ => ⟨fun ⟨hnodup, hall⟩ => ?_, fun ⟨⟨hnot, hnodup⟩, hall⟩ => ?_⟩
        · exact ⟨⟨fun hin => (hall _ hin).1 rfl, hnodup⟩, fun name hin => (hall name hin).2⟩
        · refine ⟨hnodup, fun name hin => ⟨?_, hall name hin⟩⟩
          rintro rfl
          exact hnot hin

/-- Without a collision nothing is overwritten. -/
theorem visits_entries (ls : List (String × Leaf σ)) (f : Flat)
    (h : (visits str ls f).collisions = []) :
    (visits str ls f).out.entries = f.out.entries ++ entriesOf str ls := by
  induction ls generalizing f with
  | nil => simp [visits, entriesOf]
  | cons l ls ih =>
    have hnew := ((visits_collisions (l :: ls) f).mp h).2.2
    have hrest : (visits str ls (f.visit str l.1 l.2)).out.entries =
        (f.visit str l.1 l.2).out.entries ++ entriesOf str ls := ih _ h
    refine hrest.trans ?_
    cases hl : toStr str l.2 with
    | none => simp [Flat.visit, entriesOf, hl]
    | some text =>
      have hcons : entriesOf str (l :: ls) = (l.1, text) :: entriesOf str ls := by
        simp [entriesOf, hl]
      rw [hcons] at hnew ⊢
      simp only [Flat.visit, hl]
      rw [Dict.entries_insert (hnew l.1 (by simp))]
      simp

theorem entriesOf_forall₂ (str : σ → String) {ls : List (String × Leaf σ)}
    (h : ∀ l ∈ ls, l.2.Allowed) :
    List.Forall₂ (fun l e => e.1 = l.1 ∧ toStr str l.2 = some e.2) ls (entriesOf str ls) := by
  induction ls with
  | nil => exact .nil
  | cons l ls ih =>
    have hl : l.2.Allowed := h l (by simp)
    obtain ⟨text, htext⟩ := Option.ne_none_iff_exists'.mp ((allowed_iff str).mp hl)
    have hcons : entriesOf str (l :: ls) = (l.1, text) :: entriesOf str ls := by
      simp [entriesOf, htext]
    rw [hcons]
    exact .cons ⟨rfl, htext⟩ (ih fun l hl => h l (by simp [hl]))

theorem names_of_forall₂ {ls : List (String × Leaf σ)} {es : List (String × String)}
    (h : List.Forall₂ (fun l e => e.1 = l.1 ∧ toStr str l.2 = some e.2) ls es) :
    es.map Prod.fst = ls.map Prod.fst := by
  induction h with
  | nil => rfl
  | cons hl _ ih => rw [List.map_cons, List.map_cons, hl.1, ih]

/-! ### The whole document -/

/-- **Flattening is lossless or refused.** It succeeds exactly when every leaf is an allowed scalar
and the names of the leaves are distinct; the result then has one entry for each leaf, in their
order, under its name and with its rendered value. -/
theorem flatten_lossless (keyStr : κ → String) (str : σ → String) (sep : String)
    (data : List (κ × Value κ σ)) :
    ((∃ out, flatten keyStr str sep data = .ok out) ↔
      (∀ l ∈ leaves data, l.2.Allowed) ∧
        ((leaves data).map fun l => nameOf keyStr sep l.1).Nodup) ∧
    ∀ out, flatten keyStr str sep data = .ok out →
      List.Forall₂ (fun l e => e.1 = nameOf keyStr sep l.1 ∧ toStr str l.2 = some e.2)
        (leaves data) out.entries := by
  have hwalk : walk keyStr str sep "" data {} = visits str _ {} := walk_eq_visits data {}
  generalize hls : (leaves data).map (fun l => (nameOf keyStr sep l.1, l.2)) = ls at hwalk
  have hallowed : (∀ l ∈ leaves data, l.2.Allowed) ↔ ∀ l ∈ ls, l.2.Allowed := by
    rw [← hls, List.forall_mem_map]
  have hnames : (leaves data).map (fun l => nameOf keyStr sep l.1) = ls.map Prod.fst := by
    simp [← hls, Function.comp_def]
  have hbad : (visits str ls {}).bad = [] ↔ ∀ l ∈ ls, l.2.Allowed := by
    rw [visits_bad]
    simp [allowed_iff str]
  have hok : ∀ out, flatten keyStr str sep data = .ok out ↔
      (∀ l ∈ ls, l.2.Allowed) ∧ (visits str ls {}).collisions = [] ∧
        (visits str ls {}).out = out := by
    intro out
    unfold flatten
    rw [hwalk, ← hbad]
    by_cases hb : (visits str ls {}).bad = []
    · by_cases hc : (visits str ls {}).collisions = [] <;> simp [hb, hc]
    · simp [hb]
  have hnodup : (∀ l ∈ ls, l.2.Allowed) →
      ((visits str ls {}).collisions = [] ↔ (ls.map Prod.fst).Nodup) := by
    intro h
    rw [visits_collisions, names_of_forall₂ (entriesOf_forall₂ str h)]
    simp [Dict.keys, Dict.empty]
  rw [hallowed, hnames]
  constructor
  · constructor
    · rintro ⟨out, hout⟩
      obtain ⟨h, hc, -⟩ := (hok out).mp hout
      exact ⟨h, (hnodup h).mp hc⟩
    · rintro ⟨h, hn⟩
      exact ⟨_, (hok _).mpr ⟨h, (hnodup h).mpr hn, rfl⟩⟩
  · intro out hout
    obtain ⟨h, hc, rfl⟩ := (hok out).mp hout
    rw [visits_entries ls {} hc]
    have hall := entriesOf_forall₂ str h
    rw [← hls, List.forall₂_map_left_iff] at hall
    rw [← hls]
    exact hall

end Leaves

example : flatten id id "_"
    [("a_b", .leaf (.scalar "1")), ("a", .mapping [("b", .leaf (.scalar "2"))])] =
    .error ⟨"key_collision", "flattened key collision: a_b"⟩ := by decide

end HaAddons.SecretsSync.Sops

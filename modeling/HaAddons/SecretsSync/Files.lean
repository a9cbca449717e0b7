import HaAddons.Lib.Dict
import Mathlib.Data.List.Basic

/-!
# The files directory

Relative paths of providers and the directory tree below `files_dir`.

* `safeRelpath` — the check of a provider's path, and its segments. Two safe paths with the same
  segments are the same path (`safeRelpath_inj`).
* `Tree` — what `lstat` finds below `files_dir`. Only a directory has entries (`parent`), so a file
  is reached through directories alone (`Tree.dir_of_prefix`).
* `Tree.put`, `Tree.remove` — creating or replacing an entry, and deleting one.
-/

namespace HaAddons.SecretsSync

/-- The segments of a path below `files_dir`. -/
abbrev Path := List String

abbrev Bytes := List UInt8

/-! ## Paths -/

def splitSlash (rel : String) : Path := (rel.toList.splitOn '/').map String.ofList

/-- Validate a provider's relative path and return its segments. -/
def safeRelpath (rel : String) : Option Path :=
  if rel.toList = [] ∨ rel.toList.head? = some '/' ∨ '\\' ∈ rel.toList ∨ '\x00' ∈ rel.toList then
    none
  else
    let parts := splitSlash rel
    if parts.any fun p => p = "" || p = "." || p = ".." then none else some parts

theorem splitSlash_inj {r r' : String} (h : splitSlash r = splitSlash r') : r = r' := by
  have hsplit : r.toList.splitOn '/' = r'.toList.splitOn '/' :=
    List.map_injective_iff.mpr (fun a b hab => String.ofList_injective hab) h
  apply String.toList_inj.mp
  calc r.toList = ['/'].intercalate (r.toList.splitOn '/') := (List.intercalate_splitOn '/').symm
    _ = r'.toList := by rw [hsplit, List.intercalate_splitOn]

theorem safeRelpath_inj {r r' : String} {p : Path} (h : safeRelpath r = some p)
    (h' : safeRelpath r' = some p) : r = r' := by
  have hparts : ∀ {r}, safeRelpath r = some p → splitSlash r = p := by
    intro r h
    simp only [safeRelpath] at h
    split at h
    · cases h
    · split at h
      · cases h
      · simpa using h
  exact splitSlash_inj ((hparts h).trans (hparts h').symm)

theorem safeRelpath_ne_nil {r : String} {p : Path} (h : safeRelpath r = some p) : p ≠ [] := by
  simp only [safeRelpath] at h
  split at h
  · cases h
  · split at h
    · cases h
    · rintro rfl
      simp [splitSlash] at h

/-! ## Trees -/

/-- What `lstat` says about a path: a regular file, a directory, a symbolic link or another kind
of file. -/
inductive Node where
  | file (data : Bytes)
  | dir
  | link
  | other
  deriving DecidableEq, Repr

/-- The directory `files_dir` and what is below it. -/
structure Tree where
  nodes : Dict Path Node
  parent : ∀ p s, nodes.get? (p ++ [s]) ≠ none → p = [] ∨ nodes.get? p = some .dir

namespace Tree

def empty : Tree where
  nodes := .empty
  parent := by simp

def get? (t : Tree) (p : Path) : Option Node := t.nodes.get? p

/-- The path is `files_dir` itself or a directory below it. -/
def IsDir (t : Tree) (p : Path) : Prop := p = [] ∨ t.get? p = some .dir

instance (t : Tree) (p : Path) : Decidable (t.IsDir p) := inferInstanceAs (Decidable (_ ∨ _))

/-- Nothing is directly below the path. -/
def Childless (t : Tree) (p : Path) : Prop :=
  ∀ e ∈ t.nodes.entries, e.1 ≠ [] → e.1.dropLast ≠ p

instance (t : Tree) (p : Path) : Decidable (t.Childless p) :=
  inferInstanceAs (Decidable (∀ e ∈ t.nodes.entries, _))

/-- A path may be created or replaced: it is in a directory, and is not one itself. -/
def Free (t : Tree) (p : Path) : Prop := p ≠ [] ∧ t.IsDir p.dropLast ∧ t.get? p ≠ some .dir

instance (t : Tree) (p : Path) : Decidable (t.Free p) :=
  inferInstanceAs (Decidable (_ ∧ _ ∧ _))

/-- Create or replace the entry at a path. -/
def put (t : Tree) (p : Path) (n : Node) (h : t.Free p) : Tree where
  nodes := t.nodes.insert p n
  parent := by
    intro q s hq
    rw [Dict.get?_insert] at hq
    have hne : q ≠ p → (t.nodes.insert p n).get? q = t.nodes.get? q := fun hqp => by
      rw [Dict.get?_insert, if_neg hqp]
    by_cases hqs : q ++ [s] = p
    · subst hqs
      have hdir : q = [] ∨ t.get? q = some .dir := by simpa [IsDir] using h.2.1
      rw [hne (by simp)]
      exact hdir
    · rw [if_neg hqs] at hq
      rcases t.parent q s hq with hnil | hdir
      · exact .inl hnil
      · have hqp : q ≠ p := by
          rintro rfl
          exact h.2.2 hdir
        rw [hne hqp]
        exact .inr hdir

theorem Childless.get?_eq_none {t : Tree} {p : Path} (h : t.Childless p) (s : String) :
    t.get? (p ++ [s]) = none := by
  by_contra hne
  obtain ⟨n, hn⟩ := Option.ne_none_iff_exists'.mp hne
  exact h _ (Dict.mem_entries.mpr hn) (by simp) (by simp)

/-- Delete the entry at a path that has none below it. -/
def remove (t : Tree) (p : Path) (h : t.Childless p) : Tree where
  nodes := t.nodes.erase p
  parent := by
    intro q s hq
    rw [Dict.get?_erase] at hq
    by_cases hqs : q ++ [s] = p
    · simp [hqs] at hq
    · rw [if_neg hqs] at hq
      rcases t.parent q s hq with hnil | hdir
      · exact .inl hnil
      · have hqp : q ≠ p := by
          rintro rfl
          exact hq (h.get?_eq_none s)
        rw [Dict.get?_erase, if_neg hqp]
        exact .inr hdir

theorem get?_put (t : Tree) {p : Path} (n : Node) (h : t.Free p) (q : Path) :
    (t.put p n h).get? q = if q = p then some n else t.get? q :=
  Dict.get?_insert ..

theorem get?_remove (t : Tree) {p : Path} (h : t.Childless p) (q : Path) :
    (t.remove p h).get? q = if q = p then none else t.get? q :=
  Dict.get?_erase ..

/-- What is not a directory has nothing below it. -/
theorem childless_of_get? {t : Tree} {p : Path} (hp : p ≠ []) (h : t.get? p ≠ some .dir) :
    t.Childless p := by
  rintro ⟨q, n⟩ hq hne rfl
  have hsplit : q.dropLast ++ [q.getLast hne] = q := List.dropLast_append_getLast hne
  have hpar := t.parent q.dropLast (q.getLast hne)
    (by rw [hsplit, Dict.mem_entries.mp hq]; simp)
  rcases hpar with hnil | hdir
  · exact hp hnil
  · exact h hdir

/-- The way to an entry leads through directories. -/
theorem dir_of_prefix {t : Tree} {p : Path} {s : String} {rest : Path} {n : Node}
    (h : t.get? (p ++ s :: rest) = some n) : t.IsDir p := by
  induction rest generalizing p s with
  | nil => exact t.parent p s (Option.ne_none_iff_exists'.mpr ⟨n, h⟩)
  | cons s' rest ih =>
    have hps : t.IsDir (p ++ [s]) := ih (by simpa using h)
    rcases hps with hnil | hdir
    · simp at hnil
    · exact t.parent p s (Option.ne_none_iff_exists'.mpr ⟨_, hdir⟩)

end Tree

end HaAddons.SecretsSync

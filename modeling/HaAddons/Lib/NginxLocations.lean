import HaAddons.Lib.NginxConf
import Mathlib.Tactic.SplitIfs

/-!
# Locations of an nginx server

Which location a request is served by, and which files are tried for it: exact locations come
first, then the longest prefix; `alias`, `root`, `try_files` and `return` as they are documented.

* `find_of_exact`, `find_of_longest` — the location that is found.
* `answer` — what a request gets.
-/

namespace HaAddons.Lib.Nginx

/-- What a location is for. -/
inductive Pattern where
  | exact (uri : Text)
  | under (uri : Text)
  | named (name : Text)
  deriving DecidableEq

structure Location where
  pattern : Pattern
  body : List Directive

def kwLocation : Text := "location".toList

def kwReturn : Text := "return".toList

def kwAlias : Text := "alias".toList

def kwRoot : Text := "root".toList

def kwTryFiles : Text := "try_files".toList

/-- The parameters of the first directive with a name. -/
def argsOf (name : Text) : List Directive → Option (List Text)
  | [] => none
  | .simple (n :: args) :: ds => if n = name then some args else argsOf name ds
  | _ :: ds => argsOf name ds

/-- A directive that is a location. There are no modifiers but `=` here. -/
def location? : Directive → Option Location
  | .block [kw, eq, uri] body =>
    if kw = kwLocation ∧ eq = ['='] then some ⟨.exact uri, body⟩ else none
  | .block [kw, uri] body =>
    if kw = kwLocation then
      some ⟨if uri.head? = some '@' then .named uri else .under uri, body⟩
    else none
  | _ => none

/-- The body of the first block with the name. -/
def block? (name : Text) (ds : List Directive) : List Directive :=
  (ds.findSome? fun
    | .block [n] body => if n = name then some body else none
    | _ => none).getD []

/-- The locations of the server. -/
def locations (ds : List Directive) : List Location :=
  (block? "server".toList (block? "http".toList ds)).filterMap location?

/-- The length of the prefix by which a location matches. -/
def Location.matched (l : Location) (uri : Text) : Option ℕ :=
  match l.pattern with
  | .under u => if u.isPrefixOf uri then some u.length else none
  | _ => none

/-- The location with the longest prefix. -/
def longest (uri : Text) : List Location → Option Location
  | [] => none
  | l :: ls =>
    match l.matched uri, longest uri ls with
    | none, best => best
    | some _, none => some l
    | some n, some k => if (k.matched uri).getD 0 < n then some l else some k

def find (ls : List Location) (uri : Text) : Option Location :=
  (ls.find? fun l => l.pattern = .exact uri).or (longest uri ls)

namespace Location

variable (l : Location)

/-- The file that a path stands for. -/
def file (uri : Text) : Option Text :=
  match argsOf kwAlias l.body, argsOf kwRoot l.body, l.pattern with
  | some [dir], _, .exact u => some (dir ++ uri.drop u.length)
  | some [dir], _, .under u => some (dir ++ uri.drop u.length)
  | none, some [dir], _ => some (dir ++ uri)
  | _, _, _ => none

end Location

/-- The files that are tried for a request, one after the other. Each change of the location costs
one of the changes that are left. -/
def tried (ls : List Location) : ℕ → Location → Text → List Text
  | 0, _, _ => []
  | n + 1, l, uri =>
    match argsOf kwTryFiles l.body with
    | none => (l.file uri).toList
    | some args =>
      (args.dropLast.filterMap fun a => l.file (if a = "$uri".toList then uri else a)) ++
        match args.getLast? with
        | none => []
        | some last =>
          if last.head? = some '@' then
            match ls.find? fun k => k.pattern = .named last with
            | none => []
            | some k => tried ls n k uri
          else if last.head? = some '=' then []
          else
            match find ls last with
            | none => []
            | some k => tried ls n k last

inductive Answer where
  | redirect (code target : Text)
  /-- the first of the files that is there -/
  | files (paths : List Text)
  deriving DecidableEq

/-- `NGX_HTTP_MAX_URI_CHANGES` -/
def maxUriChanges : ℕ := 10

/-- What a request gets. -/
def answer (ls : List Location) (uri : Text) : Option Answer :=
  (find ls uri).map fun l =>
    match argsOf kwReturn l.body with
    | some [code, target] => .redirect code target
    | _ => .files (tried ls maxUriChanges l uri)

section Read

variable {n m uri : Text} {args : List Text} {body ds : List Directive}

theorem location?_exact : location? (.block [kwLocation, ['='], uri] body) =
    some ⟨.exact uri, body⟩ := by
  rw [location?, if_pos ⟨rfl, rfl⟩]

theorem location?_under (h : uri.head? ≠ some '@') :
    location? (.block [kwLocation, uri] body) = some ⟨.under uri, body⟩ := by
  rw [location?, if_pos rfl, if_neg h]

theorem location?_named (h : uri.head? = some '@') :
    location? (.block [kwLocation, uri] body) = some ⟨.named uri, body⟩ := by
  rw [location?, if_pos rfl, if_pos h]

theorem block?_simple : block? n (.simple args :: ds) = block? n ds := rfl

theorem block?_ne (h : m ≠ n) : block? n (.block [m] body :: ds) = block? n ds := by
  simp [block?, h]

theorem block?_eq : block? n (.block [n] body :: ds) = body := by
  simp [block?]

theorem argsOf_eq : argsOf n (.simple (n :: args) :: ds) = some args := if_pos rfl

theorem argsOf_ne (h : m ≠ n) : argsOf n (.simple (m :: args) :: ds) = argsOf n ds := if_neg h

end Read

section Find

variable {ls : List Location} {l : Location} {uri u : Text}

theorem find?_unique {p : Location → Bool} (hl : l ∈ ls) (hp : p l = true)
    (huniq : ∀ k ∈ ls, p k = true → k = l) : ls.find? p = some l := by
  cases h : ls.find? p with
  | none => exact absurd hp (by simpa using List.find?_eq_none.mp h l hl)
  | some k => rw [huniq k (List.mem_of_find?_eq_some h) (List.find?_some h)]

theorem find_of_exact (hl : l ∈ ls) (hp : l.pattern = .exact uri)
    (huniq : ∀ k ∈ ls, k.pattern = .exact uri → k = l) : find ls uri = some l := by
  rw [find, find?_unique hl (by simpa using hp) (by simpa using huniq), Option.some_or]

theorem matched_under (hp : l.pattern = .under u) (hu : u <+: uri) :
    l.matched uri = some u.length := by
  rw [Location.matched, hp]
  simp [hu]

theorem matched_eq_some {n : ℕ} (h : l.matched uri = some n) :
    ∃ u, l.pattern = .under u ∧ u <+: uri ∧ u.length = n := by
  unfold Location.matched at h
  split at h
  · rename_i u hp
    split_ifs at h with hu
    exact ⟨u, hp, List.isPrefixOf_iff_prefix.mp hu, by simpa using h⟩
  · cases h

theorem longest_eq_none (h : longest uri ls = none) : ∀ k ∈ ls, k.matched uri = none := by
  induction ls with
  | nil => simp
  | cons l ls ih =>
    rw [longest] at h
    cases hl : l.matched uri with
    | none =>
      rw [hl] at h
      exact List.forall_mem_cons.mpr ⟨hl, ih h⟩
    | some n =>
      rw [hl] at h
      cases hbest : longest uri ls with
      | none => simp [hbest] at h
      | some k =>
        rw [hbest] at h
        simp only at h
        split at h <;> cases h

/-- What is found matches, and nothing matches by more. -/
theorem longest_eq_some (h : longest uri ls = some l) :
    l ∈ ls ∧ ∃ n, l.matched uri = some n ∧ ∀ k ∈ ls, ∀ m, k.matched uri = some m → m ≤ n := by
  induction ls generalizing l with
  | nil => cases h
  | cons k ls ih =>
    rw [longest] at h
    cases hk : k.matched uri with
    | none =>
      rw [hk] at h
      obtain ⟨hmem, n, hn, hmax⟩ := ih h
      refine ⟨List.mem_cons_of_mem _ hmem, n, hn, List.forall_mem_cons.mpr ⟨?_, hmax⟩⟩
      simp [hk]
    | some n =>
      rw [hk] at h
      cases hbest : longest uri ls with
      | none =>
        rw [hbest] at h
        cases h
        refine ⟨List.mem_cons_self, n, hk, List.forall_mem_cons.mpr ⟨by simp [hk], ?_⟩⟩
        intro j hj m hm
        rw [longest_eq_none hbest j hj] at hm
        cases hm
      | some j =>
        rw [hbest] at h
        obtain ⟨hmem, m, hm, hmax⟩ := ih hbest
        simp only [hm, Option.getD_some] at h
        split_ifs at h with hlt
        · cases h
          refine ⟨List.mem_cons_self, n, hk, List.forall_mem_cons.mpr ⟨by simp [hk], ?_⟩⟩
          intro i hi p hp
          have := hmax i hi p hp
          omega
        · cases h
          refine ⟨List.mem_cons_of_mem _ hmem, m, hm, List.forall_mem_cons.mpr ⟨?_, hmax⟩⟩
          intro p hp
          rw [hk, Option.some.injEq] at hp
          omega

theorem find_of_longest (hno : ∀ k ∈ ls, k.pattern ≠ .exact uri) (hl : l ∈ ls)
    (hp : l.pattern = .under u) (hu : u <+: uri)
    (hmax : ∀ k ∈ ls, ∀ v, k.pattern = .under v → v <+: uri → k = l ∨ v.length < u.length) :
    find ls uri = some l := by
  have hexact : ls.find? (fun k => decide (k.pattern = .exact uri)) = none := by
    simpa using hno
  rw [find, hexact, Option.none_or]
  cases h : longest uri ls with
  | none =>
    have := longest_eq_none h l hl
    rw [matched_under hp hu] at this
    cases this
  | some k =>
    obtain ⟨hk, n, hn, hbest⟩ := longest_eq_some h
    obtain ⟨v, hv, hvu, rfl⟩ := matched_eq_some hn
    rcases hmax k hk v hv hvu with rfl | hlt
    · rfl
    · have := hbest l hl _ (matched_under hp hu)
      omega

end Find

end HaAddons.Lib.Nginx

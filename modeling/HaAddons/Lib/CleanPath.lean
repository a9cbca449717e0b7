import Mathlib.Data.List.Basic

/-!
# Slash-separated paths and their cleaning

Paths are texts over any alphabet with a slash and a dot. `clean` and `join` are Go's
`filepath.Clean` and `filepath.Join` on Unix.

* `clean_relative`, `clean_rooted` — without a `..` segment, cleaning keeps just the names.
* `segments_names`, `clean_names`, `clean_root` — a path that is put together from names is clean and
  has these names.
* `exists_names_of_clean` — an absolute path that is clean is put together from names.
* `join_names` — joining such a path with a relative one appends the names.
-/

namespace HaAddons

/-- What a path is written with. -/
structure PathChars (α : Type*) where
  slash : α
  dot : α
  ne : dot ≠ slash

namespace PathChars

variable {α : Type*} [DecidableEq α] (A : PathChars α)

/-- `strings.Split(path, "/")` -/
def segments (path : List α) : List (List α) := path.splitOn A.slash

def up : List α := [A.dot, A.dot]

/-- A segment that names something. -/
structure IsName (seg : List α) : Prop where
  nonempty : seg ≠ []
  noSlash : A.slash ∉ seg
  ne_dot : seg ≠ [A.dot]
  ne_up : seg ≠ A.up

/-- One segment on the way through `Clean`; the segments kept so far are listed last first. -/
def step (rooted : Bool) (out : List (List α)) (seg : List α) : List (List α) :=
  if seg = [] ∨ seg = [A.dot] then out
  else if seg = A.up then
    match out with
    | [] => if rooted then [] else [seg]
    | last :: rest => if last = A.up then seg :: out else rest
  else seg :: out

/-- `filepath.Clean` -/
def clean (path : List α) : List α :=
  let rooted : Bool := path.head? = some A.slash
  let out := ((A.segments path).foldl (A.step rooted) []).reverse
  let body := [A.slash].intercalate out
  if rooted then A.slash :: body else if out = [] then [A.dot] else body

/-- `filepath.Join`, of two elements -/
def join (w c : List α) : List α :=
  if w ≠ [] then A.clean (w ++ A.slash :: c) else if c ≠ [] then A.clean c else []

/-- A relative path made of names. -/
def ofNames (names : List (List α)) : List α := [A.slash].intercalate names

variable {A}

/-! ## Segments -/

theorem segments_ofNames {names : List (List α)} (h : ∀ n ∈ names, A.slash ∉ n) (hne : names ≠ []) :
    A.segments (A.ofNames names) = names :=
  List.splitOn_intercalate A.slash h hne

theorem ofNames_segments (path : List α) : A.ofNames (A.segments path) = path :=
  List.intercalate_splitOn A.slash

theorem slash_not_mem_segment {path seg : List α} (h : seg ∈ A.segments path) : A.slash ∉ seg := by
  induction path generalizing seg with
  | nil =>
    rw [segments, List.splitOn_nil, List.mem_singleton] at h
    simp [h]
  | cons c path ih =>
    rw [segments, List.splitOn_cons_eq_if_modifyHead] at h
    split_ifs at h with hc
    · rcases List.mem_cons.mp h with rfl | h
      · simp
      · exact ih h
    · obtain ⟨first, rest, hsplit⟩ := List.exists_cons_of_ne_nil (List.splitOn_ne_nil A.slash path)
      rw [hsplit, List.modifyHead_cons] at h
      rcases List.mem_cons.mp h with rfl | h
      · have hfirst : A.slash ∉ first := ih (by simp [segments, hsplit])
        simp only [List.mem_cons, not_or]
        exact ⟨fun he => hc (by simp [he]), hfirst⟩
      · exact ih (by simp [segments, hsplit, h])

theorem segments_append (path rest : List α) :
    A.segments (path ++ A.slash :: rest) = A.segments path ++ A.segments rest :=
  List.splitOn_append_cons_self path rest

omit [DecidableEq α] in
theorem ofNames_cons (n : List α) {ns : List (List α)} (hne : ns ≠ []) :
    A.ofNames (n :: ns) = n ++ A.slash :: A.ofNames ns := by
  obtain ⟨m, rest, rfl⟩ := List.exists_cons_of_ne_nil hne
  simp [ofNames, List.intercalate]

omit [DecidableEq α] in
theorem ofNames_append {ns ms : List (List α)} (hns : ns ≠ []) (hms : ms ≠ []) :
    A.ofNames (ns ++ ms) = A.ofNames ns ++ A.slash :: A.ofNames ms := by
  induction ns with
  | nil => exact absurd rfl hns
  | cons n rest ih =>
    by_cases hrest : rest = []
    · subst hrest
      rw [List.singleton_append, ofNames_cons n hms]
      simp [ofNames, List.intercalate]
    · rw [List.cons_append, ofNames_cons n (by simp [hrest]), ih hrest, ofNames_cons n hrest]
      simp

omit [DecidableEq α] in
theorem mem_ofNames {ns : List (List α)} {c : α} (hc : c ≠ A.slash) :
    c ∈ A.ofNames ns ↔ ∃ n ∈ ns, c ∈ n := by
  induction ns with
  | nil => simp [ofNames]
  | cons n rest ih =>
    by_cases hrest : rest = []
    · simp [hrest, ofNames, List.intercalate]
    · rw [ofNames_cons n hrest]
      simp [hc, ih]

omit [DecidableEq α] in
theorem ofNames_ne_nil {ns : List (List α)} (h : ∀ n ∈ ns, n ≠ []) (hne : ns ≠ []) :
    A.ofNames ns ≠ [] := by
  obtain ⟨n, rest, rfl⟩ := List.exists_cons_of_ne_nil hne
  have hn := h n List.mem_cons_self
  by_cases hrest : rest = []
  · simpa [hrest, ofNames, List.intercalate] using hn
  · rw [ofNames_cons n hrest]
    simp

/-! ## Cleaning without `..` -/

/-- The segments that `Clean` keeps. -/
def names (A : PathChars α) (path : List α) : List (List α) :=
  (A.segments path).filter fun seg => seg ≠ [] ∧ seg ≠ [A.dot]

theorem foldl_step {rooted : Bool} (segs out : List (List α)) (h : A.up ∉ segs) :
    segs.foldl (A.step rooted) out =
      (segs.filter fun seg => seg ≠ [] ∧ seg ≠ [A.dot]).reverse ++ out := by
  induction segs generalizing out with
  | nil => rfl
  | cons seg segs ih =>
    obtain ⟨hne, hrest⟩ := not_or.mp (mt List.mem_cons.mpr h)
    rw [List.foldl_cons, ih _ hrest]
    unfold step
    by_cases hskip : seg = [] ∨ seg = [A.dot]
    · rw [if_pos hskip, List.filter_cons_of_neg]
      rcases hskip with rfl | rfl <;> simp
    · rw [if_neg hskip, if_neg (Ne.symm hne), List.filter_cons_of_pos]
      · simp
      · simpa [not_or] using hskip

theorem isName_of_mem_names {path seg : List α} (h : A.up ∉ A.segments path)
    (hseg : seg ∈ A.names path) : A.IsName seg := by
  obtain ⟨hmem, hkept⟩ := List.mem_filter.mp hseg
  obtain ⟨hne, hdot⟩ := of_decide_eq_true hkept
  exact ⟨hne, slash_not_mem_segment hmem, hdot, fun he => h (he ▸ hmem)⟩

/-- A relative path, cleaned. -/
theorem clean_relative {path : List α} (hrel : path.head? ≠ some A.slash)
    (h : A.up ∉ A.segments path) :
    A.clean path = if A.names path = [] then [A.dot] else A.ofNames (A.names path) := by
  simp only [clean, hrel, decide_false, foldl_step _ _ h, List.append_nil, List.reverse_reverse]
  rfl

/-- An absolute path, cleaned. -/
theorem clean_rooted {path : List α} (hroot : path.head? = some A.slash)
    (h : A.up ∉ A.segments path) : A.clean path = A.slash :: A.ofNames (A.names path) := by
  simp only [clean, hroot, decide_true, foldl_step _ _ h, List.append_nil, List.reverse_reverse]
  rfl

/-! ## Paths made of names -/

theorem names_of_segments {path : List α} {ns : List (List α)} (h : ∀ n ∈ ns, A.IsName n)
    (hsegs : A.segments path = ns) : A.names path = ns := by
  rw [names, hsegs, List.filter_eq_self]
  exact fun n hn => decide_eq_true ⟨(h n hn).nonempty, (h n hn).ne_dot⟩

omit [DecidableEq α] in
theorem up_not_mem {ns : List (List α)} (h : ∀ n ∈ ns, A.IsName n) : A.up ∉ ns :=
  fun hmem => (h _ hmem).ne_up rfl

omit [DecidableEq α] in
theorem head_ofNames {ns : List (List α)} (h : ∀ n ∈ ns, A.IsName n) :
    (A.ofNames ns).head? ≠ some A.slash := by
  cases ns with
  | nil => simp [ofNames]
  | cons n rest =>
    have hn := h n List.mem_cons_self
    obtain ⟨c, n', rfl⟩ := List.exists_cons_of_ne_nil hn.nonempty
    have hc : c ≠ A.slash := fun he => hn.noSlash (by simp [he])
    cases rest <;> simpa [ofNames, List.intercalate] using hc

/-- **A path made of names is clean.** -/
theorem clean_names {ns : List (List α)} (h : ∀ n ∈ ns, A.IsName n) (hne : ns ≠ []) :
    A.clean (A.ofNames ns) = A.ofNames ns := by
  have hsegs := segments_ofNames (fun n hn => (h n hn).noSlash) hne
  have hnames := names_of_segments h hsegs
  have hup : A.up ∉ A.segments (A.ofNames ns) := by
    rw [hsegs]
    exact up_not_mem h
  rw [clean_relative (head_ofNames h) hup, hnames, if_neg hne]

theorem segments_root {ns : List (List α)} (h : ∀ n ∈ ns, A.IsName n) :
    A.segments (A.slash :: A.ofNames ns) = [] :: if ns = [] then [[]] else ns := by
  have hcons : A.segments (A.slash :: A.ofNames ns) = [] :: A.segments (A.ofNames ns) :=
    segments_append [] (A.ofNames ns)
  rw [hcons]
  split_ifs with hne
  · rw [hne]
    rfl
  · rw [segments_ofNames (fun n hn => (h n hn).noSlash) hne]

theorem names_root {ns : List (List α)} (h : ∀ n ∈ ns, A.IsName n) :
    A.names (A.slash :: A.ofNames ns) = ns := by
  have hkept : (ns.filter fun seg => seg ≠ [] ∧ seg ≠ [A.dot]) = ns :=
    List.filter_eq_self.mpr fun n hn => decide_eq_true ⟨(h n hn).nonempty, (h n hn).ne_dot⟩
  rw [names, segments_root h]
  split_ifs with hne
  · simp [hne]
  · simpa using hkept

/-- **An absolute path made of names is clean.** -/
theorem clean_root {ns : List (List α)} (h : ∀ n ∈ ns, A.IsName n) :
    A.clean (A.slash :: A.ofNames ns) = A.slash :: A.ofNames ns := by
  have hup : A.up ∉ A.segments (A.slash :: A.ofNames ns) := by
    rw [segments_root h]
    split_ifs
    · simp [up]
    · simpa [up] using up_not_mem h
  rw [clean_rooted rfl hup, names_root h]

/-- On the way through an absolute path, only names are kept. -/
theorem foldl_step_names (segs out : List (List α)) (hout : ∀ n ∈ out, A.IsName n)
    (hsegs : ∀ seg ∈ segs, A.slash ∉ seg) : ∀ n ∈ segs.foldl (A.step true) out, A.IsName n := by
  induction segs generalizing out with
  | nil => exact hout
  | cons seg segs ih =>
    obtain ⟨hfree, hrest⟩ := List.forall_mem_cons.mp hsegs
    refine ih _ ?_ hrest
    unfold step
    by_cases hskip : seg = [] ∨ seg = [A.dot]
    · rw [if_pos hskip]
      exact hout
    by_cases hup : seg = A.up
    · rw [if_neg hskip, if_pos hup]
      cases out with
      | nil => exact hout
      | cons last rest =>
        obtain ⟨hlast, hkept⟩ := List.forall_mem_cons.mp hout
        dsimp only
        rw [if_neg hlast.ne_up]
        exact hkept
    · rw [if_neg hskip, if_neg hup]
      obtain ⟨hne, hdot⟩ := not_or.mp hskip
      exact List.forall_mem_cons.mpr ⟨⟨hne, hfree, hdot, hup⟩, hout⟩

/-- An absolute path that is clean is made of names. -/
theorem exists_names_of_clean {w : List α} (hroot : w.head? = some A.slash) (h : A.clean w = w) :
    ∃ ns, (∀ n ∈ ns, A.IsName n) ∧ w = A.slash :: A.ofNames ns := by
  refine ⟨((A.segments w).foldl (A.step true) []).reverse, fun n hn => ?_, ?_⟩
  · exact foldl_step_names _ [] (by simp) (fun _ hseg => slash_not_mem_segment hseg) n
      (List.mem_reverse.mp hn)
  · conv_lhs => rw [← h]
    simp only [clean, hroot, decide_true]
    rfl

/-- **Joining appends the names.** -/
theorem join_names {ns ms : List (List α)} (hn : ∀ n ∈ ns, A.IsName n)
    (hm : ∀ m ∈ ms, A.IsName m) :
    A.join (A.slash :: A.ofNames ns) (A.ofNames ms) = A.slash :: A.ofNames (ns ++ ms) := by
  have hsegs : A.segments ((A.slash :: A.ofNames ns) ++ A.slash :: A.ofNames ms) =
      A.segments (A.slash :: A.ofNames ns) ++ A.segments (A.ofNames ms) := segments_append _ _
  have hms : A.segments (A.ofNames ms) = if ms = [] then [[]] else ms := by
    split_ifs with hne
    · rw [hne]
      rfl
    · exact segments_ofNames (fun m h => (hm m h).noSlash) hne
  have hnames : A.names ((A.slash :: A.ofNames ns) ++ A.slash :: A.ofNames ms) = ns ++ ms := by
    rw [names, hsegs, List.filter_append]
    congr 1
    · exact names_root hn
    · rw [hms]
      split_ifs with hne
      · simp [hne]
      · exact List.filter_eq_self.mpr fun m h =>
          decide_eq_true ⟨(hm m h).nonempty, (hm m h).ne_dot⟩
  have hup : A.up ∉ A.segments ((A.slash :: A.ofNames ns) ++ A.slash :: A.ofNames ms) := by
    rw [hsegs, hms, segments_root hn, List.mem_append, not_or]
    constructor
    · split_ifs
      · simp [up]
      · simpa [up] using up_not_mem hn
    · split_ifs
      · simp [up]
      · exact up_not_mem hm
  rw [join, if_pos (List.cons_ne_nil _ _), clean_rooted rfl hup, hnames]

end PathChars

end HaAddons

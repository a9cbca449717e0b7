import HaAddons.Lib.CleanPath
import HaAddons.Lib.JsonText
import HaAddons.Runner.Contract
import Mathlib.Data.List.Infix

/-!
# The directory of a run

`ValidateDir` on Go strings, that is, on bytes. What it returns is joined onto the working tree of
the repository.

* `checkDir_eq` — what passes the checks on the text passes those on the cleaned path.
* `validateDir_confines` — exactly the relative paths without `..` pass, their cleaned form passes
  unchanged, and what it is joined onto is never left.
* `validateDir_text` — `validateDir` is the same function on characters.
-/

namespace HaAddons.Runner

open PathChars

/-! ## The function -/

section CheckDir

variable {α : Type*} [DecidableEq α] (A : PathChars α)

/-- The cleaned path starts with `..`, or has such a segment. -/
def climbs (path : List α) : Bool :=
  path = A.up || (A.up ++ [A.slash]).isPrefixOf path ||
    decide ((A.slash :: A.up ++ [A.slash]) <:+: path) || (A.slash :: A.up).isSuffixOf path

/-- `ValidateDir`, over an alphabet with a NUL. -/
def checkDir (nul : α) (dir : List α) : Option (List α) :=
  if nul ∈ dir then none
  else if dir = [] then some []
  else if dir.head? = some A.slash then none
  else if A.up ∈ A.segments dir then none
  else
    let cleaned := A.clean dir
    if cleaned = [A.dot] then some []
    else if climbs A cleaned then none
    else if cleaned.head? = some A.slash then none
    else some cleaned

variable {A} {nul : α}

theorem segments_up : A.segments A.up = [A.up] :=
  List.splitOn_eq_singleton (by simp [up, A.ne.symm])

/-- A text that climbs has a segment `..`. -/
theorem climbs_eq_false {path : List α} (h : A.up ∉ A.segments path) : climbs A path = false := by
  have hfirst : ∀ t, A.up ∈ A.segments (A.up ++ A.slash :: t) := by
    intro t
    rw [segments_append, segments_up]
    exact List.mem_append_left _ List.mem_cons_self
  rw [Bool.eq_false_iff]
  intro hclimb
  simp only [climbs, Bool.or_eq_true, decide_eq_true_eq, List.isPrefixOf_iff_prefix,
    List.isSuffixOf_iff_suffix] at hclimb
  refine h ?_
  rcases hclimb with ((rfl | ⟨t, rfl⟩) | ⟨s, t, rfl⟩) | ⟨s, rfl⟩
  · simp [segments_up]
  · rw [List.append_assoc]
    exact hfirst t
  · have hshape : s ++ (A.slash :: A.up ++ [A.slash]) ++ t =
        s ++ A.slash :: (A.up ++ A.slash :: t) := by
      simp
    rw [hshape, segments_append]
    exact List.mem_append_right _ (hfirst t)
  · rw [segments_append, segments_up]
    exact List.mem_append_right _ List.mem_cons_self

theorem ofNames_ne_dot {ns : List (List α)} (h : ∀ n ∈ ns, A.IsName n) (hne : ns ≠ []) :
    A.ofNames ns ≠ [A.dot] := by
  intro hdot
  have hsegs := segments_ofNames (fun n hn => (h n hn).noSlash) hne
  rw [hdot] at hsegs
  have hone : A.segments [A.dot] = [[A.dot]] :=
    List.splitOn_eq_singleton (by simp [A.ne.symm])
  rw [hone] at hsegs
  exact (h [A.dot] (hsegs ▸ List.mem_cons_self)).ne_dot rfl

/-- What passes the checks on the text passes the others. -/
theorem checkDir_eq (dir : List α) : checkDir A nul dir =
    if nul ∉ dir ∧ dir.head? ≠ some A.slash ∧ A.up ∉ A.segments dir then
      some (A.ofNames (A.names dir))
    else none := by
  by_cases hpass : nul ∉ dir ∧ dir.head? ≠ some A.slash ∧ A.up ∉ A.segments dir
  · obtain ⟨hnul, hroot, hup⟩ := hpass
    rw [if_pos ⟨hnul, hroot, hup⟩, checkDir, if_neg hnul, if_neg hroot, if_neg hup]
    split_ifs with hempty
    · rw [hempty]
      rfl
    have hnames : ∀ n ∈ A.names dir, A.IsName n := fun n hn => isName_of_mem_names hup hn
    dsimp only
    rw [clean_relative hroot hup]
    by_cases hne : A.names dir = []
    · rw [if_pos hne, if_pos rfl, hne]
      rfl
    · have hup' : A.up ∉ A.segments (A.ofNames (A.names dir)) := by
        rw [segments_ofNames (fun n hn => (hnames n hn).noSlash) hne]
        exact up_not_mem hnames
      rw [if_neg hne, if_neg (ofNames_ne_dot hnames hne), climbs_eq_false hup',
        if_neg Bool.false_ne_true, if_neg (head_ofNames hnames)]
  · rw [if_neg hpass, checkDir]
    split_ifs with hnul hempty hroot hup
    · rfl
    · refine absurd ⟨hnul, ?_, ?_⟩ hpass
      · simp [hempty]
      · simp [hempty, segments, up]
    · rfl
    · rfl
    · exact absurd ⟨hnul, hroot, hup⟩ hpass

theorem names_of_checkDir {dir c : List α} (h : checkDir A nul dir = some c) :
    nul ∉ dir ∧ (∀ n ∈ A.names dir, A.IsName n) ∧ c = A.ofNames (A.names dir) := by
  rw [checkDir_eq] at h
  split_ifs at h with hpass
  exact ⟨hpass.1, fun n hn => isName_of_mem_names hpass.2.2 hn, (Option.some.inj h).symm⟩

/-- **The result passes unchanged.** -/
theorem checkDir_again {dir c : List α} (h : checkDir A nul dir = some c) (hslash : nul ≠ A.slash) :
    checkDir A nul c = some c := by
  obtain ⟨hnul, hnames, rfl⟩ := names_of_checkDir h
  by_cases hne : A.names dir = []
  · rw [hne, checkDir_eq, if_pos]
    · rfl
    · simp [ofNames, segments, up]
  have hsegs := segments_ofNames (fun n hn => (hnames n hn).noSlash) hne
  have hfree : nul ∉ A.ofNames (A.names dir) := by
    intro hmem
    obtain ⟨n, hn, hin⟩ := (mem_ofNames hslash).mp hmem
    refine hnul ?_
    rw [← ofNames_segments (A := A) dir]
    exact (mem_ofNames hslash).mpr ⟨n, List.mem_of_mem_filter hn, hin⟩
  rw [checkDir_eq, if_pos, names_of_segments hnames hsegs]
  refine ⟨hfree, head_ofNames hnames, ?_⟩
  rw [hsegs]
  exact up_not_mem hnames

/-! ## Confinement -/

/-- The path is clean, and is `w` or lies below it. -/
def Within (A : PathChars α) (w p : List α) : Prop :=
  A.clean p = p ∧ (p = w ∨ ∃ r, r ≠ [] ∧ p = (if w = [A.slash] then w else w ++ [A.slash]) ++ r)

/-- **The working directory stays in the working tree.** -/
theorem within_join {dir c w : List α} (h : checkDir A nul dir = some c)
    (hroot : w.head? = some A.slash) (hclean : A.clean w = w) : Within A w (A.join w c) := by
  obtain ⟨-, hnames, rfl⟩ := names_of_checkDir h
  obtain ⟨ns, hns, rfl⟩ := exists_names_of_clean hroot hclean
  have hall : ∀ n ∈ ns ++ A.names dir, A.IsName n := fun n hn =>
    (List.mem_append.mp hn).elim (hns n) (hnames n)
  rw [join_names hns hnames]
  refine ⟨clean_root hall, ?_⟩
  by_cases hms : A.names dir = []
  · rw [hms, List.append_nil]
    exact .inl rfl
  refine .inr ⟨A.ofNames (A.names dir), ofNames_ne_nil (fun n hn => (hnames n hn).nonempty) hms, ?_⟩
  by_cases hempty : ns = []
  · rw [hempty, if_pos (by simp [ofNames])]
    simp [ofNames]
  · have hne := ofNames_ne_nil (A := A) (fun n hn => (hns n hn).nonempty) hempty
    rw [if_neg (by simpa using hne), ofNames_append hempty hms]
    simp

end CheckDir

/-! ## On bytes -/

def bytePath : PathChars UInt8 := ⟨0x2F, 0x2E, by decide⟩

/-- `ValidateDir` -/
def validateDirBytes (dir : Bytes) : Option Bytes := checkDir bytePath 0 dir

/-- **What `ValidateDir` accepts**, and where it leads. -/
theorem validateDir_confines (d : Bytes) :
    ((validateDirBytes d).isSome ↔
      0 ∉ d ∧ d.head? ≠ some 0x2F ∧ utf8 ".." ∉ bytePath.segments d) ∧
    ∀ c, validateDirBytes d = some c → validateDirBytes c = some c ∧
      ∀ w, w.head? = some 0x2F → bytePath.clean w = w → Within bytePath w (bytePath.join w c) := by
  refine ⟨?_, fun c hc => ⟨checkDir_again hc (by decide), fun w hroot hclean => ?_⟩⟩
  · rw [validateDirBytes, checkDir_eq]
    split_ifs with hpass
    · exact ⟨fun _ => hpass, fun _ => rfl⟩
    · exact ⟨fun h => absurd h Bool.false_ne_true, fun h => absurd h hpass⟩
  · exact within_join hc hroot hclean

/-- A working tree and a directory of it. -/
theorem validateDir_confines_prod :
    validateDirBytes (utf8 "envs//./prod/") = some (utf8 "envs/prod") ∧
    Within bytePath (utf8 "/data/repos/home")
      (bytePath.join (utf8 "/data/repos/home") (utf8 "envs/prod")) := by
  have hc : validateDirBytes (utf8 "envs//./prod/") = some (utf8 "envs/prod") := by decide +kernel
  exact ⟨hc, ((validateDir_confines _).2 _ hc).2 _ (by decide +kernel) (by decide +kernel)⟩

/-! ## On characters -/

def textPath : PathChars Char := ⟨'/', '.', by decide⟩

theorem cleanStep_text (rooted : Bool) : cleanStep rooted = textPath.step rooted := by
  funext out seg
  cases out <;> rfl

theorem clean_text (path : String) : clean path = String.ofList (textPath.clean path.toList) := by
  have hsegs : splitSlash path = textPath.segments path.toList := rfl
  have hslash : textPath.slash = '/' := rfl
  have hdot : textPath.dot = '.' := rfl
  simp only [clean, PathChars.clean, cleanStep_text, hsegs, hslash, hdot]
  generalize (List.foldl (textPath.step _) [] (textPath.segments path.toList)).reverse = out
  by_cases hroot : path.toList.head? = some '/'
  · simp [hroot]
  · by_cases hout : out = []
    · simp [hroot, hout]
    · simp [hroot, hout]

/-- The queue's `validateDir` is the same function. -/
theorem validateDir_text (dir : String) :
    validateDir dir = (checkDir textPath '\x00' dir.toList).map String.ofList := by
  by_cases hpass : '\x00' ∉ dir.toList ∧ dir.toList.head? ≠ some textPath.slash ∧
      textPath.up ∉ textPath.segments dir.toList
  · obtain ⟨hnul, hroot, hup⟩ := hpass
    rw [checkDir_eq, if_pos ⟨hnul, hroot, hup⟩, validateDir, if_neg hnul]
    by_cases hempty : dir = ""
    · rw [if_pos hempty, hempty]
      rfl
    rw [if_neg hempty, if_neg (show ¬ dir.toList.head? = some '/' from hroot),
      if_neg (show ['.', '.'] ∉ splitSlash dir from hup)]
    have hnames : ∀ n ∈ textPath.names dir.toList, textPath.IsName n := fun n hn =>
      isName_of_mem_names hup hn
    dsimp only
    rw [clean_text, clean_relative (A := textPath) hroot hup]
    by_cases hne : textPath.names dir.toList = []
    · rw [if_pos hne, if_pos (show String.ofList [textPath.dot] = "." from rfl), hne]
      rfl
    · have hsegs := segments_ofNames (A := textPath) (fun n hn => (hnames n hn).noSlash) hne
      have hdot : String.ofList (textPath.ofNames (textPath.names dir.toList)) ≠ "." := by
        intro he
        have htext := congrArg String.toList he
        rw [String.toList_ofList] at htext
        exact ofNames_ne_dot hnames hne htext
      rw [if_neg hne, if_neg hdot, if_neg]
      · rfl
      · rw [splitSlash, String.toList_ofList, not_or]
        refine ⟨?_, head_ofNames hnames⟩
        show textPath.up ∉ textPath.segments _
        rw [hsegs]
        exact up_not_mem hnames
  · rw [checkDir_eq, if_neg hpass, validateDir]
    split_ifs with hnul hempty hroot hup
    · rfl
    · refine absurd ⟨hnul, ?_, ?_⟩ hpass
      · simp [hempty]
      · simp [hempty, segments, up]
    · rfl
    · rfl
    · exact absurd ⟨hnul, hroot, hup⟩ hpass

end HaAddons.Runner

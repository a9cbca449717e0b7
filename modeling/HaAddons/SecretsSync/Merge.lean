import HaAddons.Lib.Script
import HaAddons.SecretsSync.Files

/-!
# Merging the providers' snapshots

`merge` unions the snapshots in order. A name that two providers have is an error under the policy
`error`; under `priority` the earlier provider keeps it.

* `merge_get?` — on success each name has the value of the first contribution that contains it.
-/

namespace HaAddons.SecretsSync

/-- What one successful fetch of a provider returns: keys for secrets.yaml, and files. -/
structure Snapshot where
  secrets : Dict String String
  files : Dict String Bytes
  deriving DecidableEq

inductive CollisionPolicy where
  | error
  | priority
  deriving DecidableEq, Repr

structure MergeError where
  code : String
  message : String
  deriving DecidableEq, Repr

/-- A name, the provider that has it first, and a later one that has it too. -/
abbrev Shadow := String × String × String

structure Merged where
  secrets : Dict String String
  files : Dict String Bytes
  shadowed : List Shadow
  deriving DecidableEq

/-! ## Secrets and files alike -/

section Entries

variable {ν : Type}

/-- The values so far, with the provider of each. -/
structure Sources (ν : Type) where
  vals : Dict String ν
  src : Dict String String

def Sources.empty : Sources ν := ⟨.empty, .empty⟩

/-- One key or file of a provider. `what` is the message's word for it. -/
def addEntry (policy : CollisionPolicy) (what provider : String) (s : Sources ν × List Shadow)
    (e : String × ν) : Except MergeError (Sources ν × List Shadow) :=
  match s.1.src.get? e.1 with
  | some winner =>
    match policy with
    | .priority => .ok (s.1, s.2 ++ [(e.1, winner, provider)])
    | .error =>
      .error ⟨"key_collision",
        what ++ " '" ++ e.1 ++ "' provided by " ++ winner ++ " and " ++ provider⟩
  | none => .ok (⟨s.1.vals.insert e.1 e.2, s.1.src.insert e.1 provider⟩, s.2)

def addEntries (policy : CollisionPolicy) (what provider : String)
    (s : Sources ν × List Shadow) (d : Dict String ν) :
    Except MergeError (Sources ν × List Shadow) :=
  d.entries.foldlM (addEntry policy what provider) s

/-- A provider is known for exactly the names that have a value. -/
def Sources.Matched (s : Sources ν) : Prop := ∀ k, s.src.get? k = none ↔ s.vals.get? k = none

theorem addEntry_spec {policy : CollisionPolicy} {what provider : String}
    {s s' : Sources ν × List Shadow} {e : String × ν}
    (h : addEntry policy what provider s e = .ok s') (hs : s.1.Matched) :
    s'.1.Matched ∧ ∀ k, s'.1.vals.get? k =
      (s.1.vals.get? k).or (if k = e.1 then some e.2 else none) := by
  unfold addEntry at h
  cases hsrc : s.1.src.get? e.1 with
  | some winner =>
    have hval : s.1.vals.get? e.1 ≠ none := fun hn => by simp [(hs e.1).mpr hn] at hsrc
    obtain ⟨v, hv⟩ := Option.ne_none_iff_exists'.mp hval
    cases policy with
    | priority =>
      simp only [hsrc, Except.ok.injEq] at h
      subst h
      refine ⟨hs, fun k => ?_⟩
      by_cases hk : k = e.1
      · simp [hk, hv]
      · simp [hk]
    | error => simp [hsrc] at h
  | none =>
    simp only [hsrc, Except.ok.injEq] at h
    subst h
    have hval := (hs e.1).mp hsrc
    refine ⟨fun k => ?_, fun k => ?_⟩
    · simp only [Dict.get?_insert]
      by_cases hk : k = e.1
      · simp [hk]
      · simpa [hk] using hs k
    · rw [Dict.get?_insert]
      by_cases hk : k = e.1
      · simp [hk, hval]
      · simp [hk]

theorem addEntries_spec {policy : CollisionPolicy} {what provider : String}
    {s s' : Sources ν × List Shadow} {d : Dict String ν}
    (h : addEntries policy what provider s d = .ok s') (hs : s.1.Matched) :
    s'.1.Matched ∧ ∀ k, s'.1.vals.get? k = (s.1.vals.get? k).or (d.get? k) := by
  let I : List (String × ν) → Sources ν × List Shadow → Prop := fun es t =>
    t.1.Matched ∧ ∀ k, (s.1.vals.get? k).or (d.get? k) =
      (t.1.vals.get? k).or ((es.find? (·.1 = k)).map Prod.snd)
  have hend : I [] s' := by
    refine foldlM_ok (fun e es t t' ⟨ht, hval⟩ hstep => ?_) h ⟨hs, fun _ => rfl⟩
    obtain ⟨ht', hval'⟩ := addEntry_spec hstep ht
    refine ⟨ht', fun k => ?_⟩
    rw [hval, hval', Option.or_assoc, List.find?_cons]
    by_cases hk : k = e.1
    · simp [hk]
    · simp [hk, Ne.symm hk]
  exact ⟨hend.1, fun k => by simpa using (hend.2 k).symm⟩

end Entries

/-! ## All contributions -/

/-- What `merge` holds in its loop. -/
structure MergeState where
  secrets : Sources String
  files : Sources Bytes
  shadowed : List Shadow

def MergeState.empty : MergeState := ⟨.empty, .empty, []⟩

/-- One contribution. An unsafe path is refused before anything of it is added. -/
def mergeOne (policy : CollisionPolicy) (s : MergeState) (c : String × Snapshot) :
    Except MergeError MergeState := do
  if c.2.files.keys.any fun path => (safeRelpath path).isNone then
    throw ⟨"unsafe_path", "provider " ++ c.1 ++ " returned an unsafe file path"⟩
  let (secrets, shadowed) ← addEntries policy "key" c.1 (s.secrets, s.shadowed) c.2.secrets
  let (files, shadowed) ← addEntries policy "file" c.1 (s.files, shadowed) c.2.files
  return ⟨secrets, files, shadowed⟩

/-- Union of all snapshots, in priority order. -/
def merge (contributions : List (String × Snapshot)) (policy : CollisionPolicy) :
    Except MergeError Merged := do
  let s ← contributions.foldlM (mergeOne policy) .empty
  return ⟨s.secrets.vals, s.files.vals, s.shadowed⟩

/-- The value in the first contribution that contains the name. -/
def firstValue {ν : Type} (get : Snapshot → Dict String ν) (contributions : List (String × Snapshot))
    (k : String) : Option ν :=
  contributions.findSome? fun c => (get c.2).get? k

/-- The values of `s` are followed by those of the contributions in order. -/
theorem mergeOne_spec {policy : CollisionPolicy} {s s' : MergeState} {c : String × Snapshot}
    (h : mergeOne policy s c = .ok s') (hs : s.secrets.Matched ∧ s.files.Matched) :
    (s'.secrets.Matched ∧ s'.files.Matched) ∧ ∀ k,
      s'.secrets.vals.get? k = (s.secrets.vals.get? k).or (c.2.secrets.get? k) ∧
        s'.files.vals.get? k = (s.files.vals.get? k).or (c.2.files.get? k) := by
  simp only [mergeOne, bind, Except.bind] at h
  split at h
  · cases h
  · cases h₁ : addEntries policy "key" c.1 (s.secrets, s.shadowed) c.2.secrets with
    | error e => simp [h₁] at h
    | ok r₁ =>
      cases h₂ : addEntries policy "file" c.1 (s.files, r₁.2) c.2.files with
      | error e => simp [h₁, h₂] at h
      | ok r₂ =>
        simp only [h₁, h₂] at h
        cases h
        obtain ⟨hm₁, hv₁⟩ := addEntries_spec h₁ hs.1
        obtain ⟨hm₂, hv₂⟩ := addEntries_spec h₂ hs.2
        exact ⟨⟨hm₁, hm₂⟩, fun k => ⟨hv₁ k, hv₂ k⟩⟩

/-- **Merge.** On success each key and each file has the value of the first contribution that
contains it. -/
theorem merge_get? {contributions : List (String × Snapshot)} {policy : CollisionPolicy}
    {m : Merged} (h : merge contributions policy = .ok m) (k : String) :
    m.secrets.get? k = firstValue Snapshot.secrets contributions k ∧
      m.files.get? k = firstValue Snapshot.files contributions k := by
  let I : List (String × Snapshot) → MergeState → Prop := fun cs s =>
    (s.secrets.Matched ∧ s.files.Matched) ∧
      firstValue Snapshot.secrets contributions k =
        (s.secrets.vals.get? k).or (firstValue Snapshot.secrets cs k) ∧
      firstValue Snapshot.files contributions k =
        (s.files.vals.get? k).or (firstValue Snapshot.files cs k)
  have hstep : ∀ c cs s s', I (c :: cs) s → mergeOne policy s c = .ok s' → I cs s' := by
    rintro c cs s s' ⟨hs, hsec, hfil⟩ hone
    obtain ⟨hs', hval⟩ := mergeOne_spec hone hs
    refine ⟨hs', ?_, ?_⟩
    · rw [hsec, (hval k).1, Option.or_assoc]
      simp only [firstValue, List.findSome?_cons]
      cases c.2.secrets.get? k <;> rfl
    · rw [hfil, (hval k).2, Option.or_assoc]
      simp only [firstValue, List.findSome?_cons]
      cases c.2.files.get? k <;> rfl
  simp only [merge, bind, Except.bind] at h
  cases hfold : contributions.foldlM (mergeOne policy) .empty with
  | error e => simp [hfold] at h
  | ok s =>
    simp only [hfold] at h
    cases h
    have hmatched : ∀ {ν : Type}, (Sources.empty : Sources ν).Matched := fun k => by
      simp [Sources.empty]
    obtain ⟨-, hsec, hfil⟩ : I [] s := foldlM_ok hstep hfold
      ⟨⟨hmatched, hmatched⟩, by simp [MergeState.empty, Sources.empty],
        by simp [MergeState.empty, Sources.empty]⟩
    exact ⟨by simpa [firstValue] using hsec.symm, by simpa [firstValue] using hfil.symm⟩

end HaAddons.SecretsSync

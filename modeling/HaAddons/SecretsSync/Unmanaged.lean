import HaAddons.SecretsSync.Ownership

/-!
# Files of somebody else

`write_files` does not touch a file that the manifest does not list: it is reported as skipped and
stays out of the new manifest. But a file that has the requested bytes already is not skipped. It is
listed from then on, and the next call whose map lacks the path deletes it (`own_file_deleted`).

* `own_files_kept` — in every run in which no call asks, for a path that the manifest does not list,
  for just the bytes of a file that the engine did not write: each file that was there at first keeps
  its content and is neither replaced nor deleted, whatever fails.
-/

namespace HaAddons.SecretsSync

/-! ## Runs -/

/-- Calls on a directory with `t` in it that nobody else changes. The observer keeps the paths that
earlier calls have replaced. -/
def callsOn (sha : Bytes → String) (t : Tree) : System (Calls × List Path) CallLabel :=
  System.observe
    { init := fun s => (calls sha).init s ∧ s.disk.tree = t ∧ s.disk.replaced = []
      next := fun s l =>
        match l with
        | .edit _ => none
        | l => (calls sha).next s l }
    [] fun s l ps =>
      match l with
      | .call _ => s.disk.replaced ++ ps
      | _ => ps

/-- The engine has replaced the path, in the last call or an earlier one. -/
def EverReplaced (s : Calls × List Path) (p : Path) : Prop := p ∈ s.1.disk.replaced ∨ p ∈ s.2

instance (s : Calls × List Path) (p : Path) : Decidable (EverReplaced s p) :=
  inferInstanceAs (Decidable (_ ∨ _))

/-- No call asks, for a path that the manifest does not list, for just the bytes of a file that the
engine did not write. -/
def claimsNothing (s : Calls × List Path) : CallLabel → Bool
  | .call files => files.entries.all fun e => (safeRelpath e.1).all fun p =>
      s.1.disk.tree.get? p ≠ some (.file e.2) || e.1 ∈ s.1.disk.listing.keys ||
        s.1.disk.written p = some e.2
  | _ => true

/-! ## What is left alone -/

/-- The path of a file that was there at first. -/
def Foreign (t : Tree) (rel : String) : Prop :=
  ∃ p x, safeRelpath rel = some p ∧ t.get? p = some (.file x)

/-- The files of `t` are still there, and nothing says that they are the engine's. -/
structure Spared (t : Tree) (d : Disk) : Prop where
  file : ∀ p x, t.get? p = some (.file x) → d.tree.get? p = some (.file x)
  mine : ∀ p x, t.get? p = some (.file x) → d.written p = none ∧ p ∉ d.replaced
  listed : ∀ rel ∈ d.listing.keys, ¬ Foreign t rel

/-- What the loops have collected: nothing about a file of `t` but that it was skipped. -/
structure Collected (t : Tree) (result : FilesResult) (new : Manifest) : Prop where
  written : ∀ rel ∈ result.written, ¬ Foreign t rel
  removed : ∀ rel ∈ result.removed, ¬ Foreign t rel
  listed : ∀ rel ∈ new.keys, ¬ Foreign t rel

section Call

variable {t : Tree} {d d' : Disk} {result : FilesResult} {new : Manifest} {rel : String}
  {p q : Path} {x : Bytes}

theorem ne_of_not_foreign (hp : safeRelpath rel = some p) (hn : ¬ Foreign t rel)
    (hq : t.get? q = some (.file x)) : q ≠ p := by
  intro h
  subst h
  exact hn ⟨q, x, hp, hq⟩

theorem Spared.grows (h : Spared t d) (hg : d.Grows d') : Spared t d' := by
  obtain ⟨t', rfl, ht⟩ := hg
  exact ⟨fun p x hp => ht _ _ (h.file p x hp), h.mine, h.listed⟩

theorem Spared.rmdirs {t' : Tree} (h : Spared t d)
    (ht : ∀ q, d.tree.get? q ≠ some .dir → t'.get? q = d.tree.get? q) :
    Spared t { d with tree := t' } := by
  refine ⟨fun p x hp => ?_, h.mine, h.listed⟩
  have hfile := h.file p x hp
  show t'.get? p = some (.file x)
  rw [ht p (by simp [hfile]), hfile]

theorem Spared.replace {data : Bytes} (h : Spared t d) (hp : safeRelpath rel = some p)
    (hn : ¬ Foreign t rel) (hd : d.replace (.file p data) = .ok d') : Spared t d' := by
  obtain ⟨t', rfl, ht⟩ := Disk.replace_file_spec hd
  refine ⟨fun q x hq => ?_, fun q x hq => ?_, h.listed⟩
  · rw [ht, if_neg (ne_of_not_foreign hp hn hq)]
    exact h.file q x hq
  · obtain ⟨hw, hr⟩ := h.mine q x hq
    have hqp : q ≠ p := ne_of_not_foreign hp hn hq
    exact ⟨by simp [hqp, hw], by simp [hqp, hr]⟩

theorem Spared.unlink (h : Spared t d) (hp : safeRelpath rel = some p) (hn : ¬ Foreign t rel)
    (hd : d.unlink p = .ok d') : Spared t d' := by
  obtain ⟨t', rfl, ht⟩ := Disk.unlink_spec hd
  refine ⟨fun q x hq => ?_, fun q x hq => ?_, h.listed⟩
  · rw [ht, if_neg (ne_of_not_foreign hp hn hq)]
    exact h.file q x hq
  · obtain ⟨hw, hr⟩ := h.mine q x hq
    exact ⟨by simp [ne_of_not_foreign hp hn hq, hw], hr⟩

theorem Collected.insert (h : Collected t result new) (hn : ¬ Foreign t rel) (digest : String) :
    Collected t result (new.insert rel digest) := by
  refine ⟨h.written, h.removed, fun r hr => ?_⟩
  rcases Dict.mem_keys_insert.mp hr with rfl | hr
  · exact hn
  · exact h.listed r hr

theorem Collected.wrote (h : Collected t result new) (hn : ¬ Foreign t rel) (digest : String) :
    Collected t { result with written := result.written ++ [rel] } (new.insert rel digest) := by
  refine ⟨fun r hr => ?_, h.removed, (h.insert hn digest).listed⟩
  rcases List.mem_append.mp hr with hr | hr
  · exact h.written r hr
  · obtain rfl : r = rel := by simpa using hr
    exact hn

theorem Collected.remove (h : Collected t result new) (hn : ¬ Foreign t rel) :
    Collected t { result with removed := result.removed ++ [rel] } new := by
  refine ⟨h.written, fun r hr => ?_, h.listed⟩
  rcases List.mem_append.mp hr with hr | hr
  · exact h.removed r hr
  · obtain rfl : r = rel := by simpa using hr
    exact hn

variable {may : FsOp → Disk → Prop}

/-- **One file of the map.** It is written or listed only where it is not a file of `t`. -/
theorem writeOne_spares (sha : Bytes → String) {m : Manifest} {data : Bytes}
    (hm : ∀ rel ∈ m.keys, ¬ Foreign t rel)
    (hdata : ∀ p, safeRelpath rel = some p → t.get? p ≠ some (.file data))
    (h : Spared t d) (hc : Collected t result new) :
    (writeOne sha m (result, new) (rel, data)).Meets Disk.apply may
      (fun s d => Spared t d ∧ Collected t s.1 s.2) (fun _ => Spared t) d := by
  cases hp : safeRelpath rel with
  | none =>
    simp only [writeOne, targetOf, hp]
    exact h
  | some p =>
    refine Script.Meets.bind ((targetOf_meets true hp).mono ?_ fun e d' hd => h.grows hd.1)
    rintro r d' ⟨hgrow, -, -, hr⟩
    obtain rfl : r = some p := by simpa using hr.imp_left And.left
    have h := h.grows hgrow
    have hwrite : ¬ Foreign t rel → (do
        atomicWrite (.file p data)
        pure ({ result with written := result.written ++ [rel] }, new.insert rel (sha data)) :
          IoM (FilesResult × Manifest)).Meets Disk.apply may
        (fun s d => Spared t d ∧ Collected t s.1 s.2) (fun _ => Spared t) d' := by
      intro hn
      refine Script.Meets.bind (atomicWrite_meets h fun d'' hd => ?_)
      have hspared := h.replace hp hn hd
      exact ⟨⟨hspared, hc.wrote hn _⟩, hspared⟩
    -- A file of `t` is at its path with its first content, whatever else the tree holds by now.
    have hforeign : ∀ {y}, t.get? p = some (.file y) → d'.tree.get? p = some (.file y) :=
      fun hy => h.file p _ hy
    have hnot : (∀ y, t.get? p ≠ some (.file y)) → ¬ Foreign t rel := by
      rintro hy ⟨q, y, hq, hqy⟩
      obtain rfl : p = q := by simpa [hp] using hq
      exact hy y hqy
    refine Script.Meets.bind (readTarget_meets h (fun hnone => ?_) fun y hy => ?_)
    · simpa using hwrite (hnot fun y hy => hnone y (hforeign hy))
    · by_cases hyd : y = data
      · subst hyd
        simp only [ne_eq, not_true_eq_false, false_and, and_false, if_false]
        have hn : ¬ Foreign t rel := hnot fun z hz => by
          obtain rfl : z = y := by simpa [hy] using (hforeign hz).symm
          exact hdata p hp hz
        exact Script.Meets.bind (meets_act_id rfl ⟨h, hc.insert hn _⟩ fun _ => h)
      · by_cases hrel : rel ∈ m.keys
        · simpa [hyd, hrel] using hwrite (hm rel hrel)
        · simp only [ne_eq, reduceCtorEq, not_false_eq_true, Option.some.injEq, hyd, hrel, and_self,
            if_true]
          exact ⟨h, hc.written, hc.removed, hc.listed⟩

/-- **One file of the old manifest.** -/
theorem removeOne_spares (hn : ¬ Foreign t rel) (h : Spared t d) (hc : Collected t result new) :
    (removeOne result rel).Meets Disk.apply may
      (fun result d => Spared t d ∧ Collected t result new) (fun _ => Spared t) d := by
  cases hp : safeRelpath rel with
  | none =>
    simp only [removeOne, targetOf, hp]
    exact ⟨h, hc⟩
  | some p =>
    refine Script.Meets.bind (Script.Meets.handle ((targetOf_meets false hp).mono ?_ ?_))
    · intro r d' hd
      obtain rfl := hd.2.1 rfl
      cases r with
      | none => exact ⟨h, hc⟩
      | some p' =>
        obtain ⟨rfl, -⟩ : p' = p ∧ _ := by simpa using hd.2.2.2
        refine Script.Meets.get ?_
        split
        · exact ⟨h, hc⟩
        · refine Script.Meets.bind (Script.Meets.act (fun d₁ hd₁ => ?_) fun _ => h)
          have h₁ := h.unlink hp hn hd₁
          refine Script.Meets.bind ((rmParents_meets _).mono ?_ fun _ _ h => h)
          rintro _ _ ⟨t', rfl, ht'⟩
          exact ⟨h₁.rmdirs ht', hc.remove hn⟩
    · intro e d' hd
      obtain rfl := hd.2.1 rfl
      cases e with
      | unsafePath msg => exact ⟨h, hc⟩
      | os cls | write code msg | assertion => exact h

theorem saveManifest_spares {old : Manifest} (h : Spared t d) (hc : Collected t result new) :
    (saveManifest old new).Meets Disk.apply may (fun _ => Spared t) (fun _ => Spared t) d := by
  unfold saveManifest
  split
  · exact h
  · refine orWriteFailed_meets (Script.Meets.bind (meets_act_id rfl ?_ fun _ => h))
    refine atomicWrite_meets h fun d' hd => ?_
    cases hd
    have hsaved : Spared t { d with manifest := some new } := ⟨h.file, h.mine, hc.listed⟩
    exact ⟨hsaved, hsaved⟩

/-- The manifest lists no file of `t`, also where it cannot be read. -/
theorem loadManifest_spares {β : Type} {f : Manifest → IoM β} {Q : β → Disk → Prop}
    {E : Exc → Disk → Prop} (h : Spared t d)
    (hf : ∀ m : Manifest, (∀ rel ∈ m.keys, ¬ Foreign t rel) → (f m).Meets Disk.apply may Q E d) :
    (loadManifest.bind f).Meets Disk.apply may Q E d := by
  refine ⟨fun d' hd => ?_, fun cls _ => hf .empty (by simp [Dict.keys, Dict.empty])⟩
  cases hd
  exact hf d.listing h.listed

/-- **One call.** Whatever fails, the files of `t` are left alone. -/
theorem writeFiles_spares (sha : Bytes → String) {files : Dict String Bytes}
    (hfiles : ∀ rel data p, files.get? rel = some data → safeRelpath rel = some p →
      t.get? p ≠ some (.file data)) (h : Spared t d) :
    (writeFiles sha files).Meets Disk.apply may
      (fun result d => Spared t d ∧ ∃ new, Collected t result new) (fun _ => Spared t) d := by
  have hempty : Collected t {} .empty := ⟨by simp, by simp, by simp [Dict.keys, Dict.empty]⟩
  refine loadManifest_spares h fun m hm => ?_
  refine Script.Meets.bind (meets_act_id rfl ?_ fun _ => h)
  refine Script.Meets.bind (orWriteFailed_meets (Script.Meets.bind ?_))
  refine (Script.Meets.foldlM (I := fun todo s d => (∀ e ∈ todo, files.get? e.1 = some e.2) ∧
    Spared t d ∧ Collected t s.1 s.2) (fun e todo s d hI => ?_)
    ⟨fun e he => Dict.mem_entries.mp (mem_toWrite.mp he), h, hempty⟩).mono
    (fun s d hI => ?_) fun _ d h => h
  · obtain ⟨htodo, h, hc⟩ := hI
    refine (writeOne_spares sha hm (fun p hp => hfiles _ _ _ (htodo e (by simp)) hp) h hc).mono
      (fun s d hI => ⟨fun e he => htodo e (by simp [he]), hI⟩) fun _ d h => h
  · obtain ⟨-, h, hc⟩ := hI
    refine Script.Meets.bind ((Script.Meets.foldlM (I := fun todo result d =>
      (∀ rel ∈ todo, ¬ Foreign t rel) ∧ Spared t d ∧ Collected t result s.2)
      (fun rel todo result d hI => ?_)
      ⟨fun rel hr => hm rel (mem_toRemove.mp hr).1, h, hc⟩).mono
      (fun result d hI => ?_) fun _ d h => h)
    · obtain ⟨htodo, h, hc⟩ := hI
      exact (removeOne_spares (htodo rel (by simp)) h hc).mono
        (fun _ _ hI => ⟨fun r hr => htodo r (by simp [hr]), hI⟩) fun _ _ h => h
    · obtain ⟨-, h, hc⟩ := hI
      exact Script.Meets.bind ((saveManifest_spares h hc).mono
        (fun _ _ h => ⟨h, s.2, hc⟩) fun _ _ h => h)

end Call

section Runs

variable {sha : Bytes → String} {t : Tree} {s s' : Calls × List Path}

/-- The postconditions of a call that leaves the files of `t` alone. -/
def Ending (t : Tree) (script : IoM FilesResult) (d : Disk) : Prop :=
  script.Meets Disk.apply (fun _ _ => true = true)
    (fun result d => Spared t d ∧ ∃ new, Collected t result new) (fun _ => Spared t) d

/-- Between calls the files of `t` are as they were; a call that is running will leave them so. -/
structure CallsSpare (t : Tree) (s : Calls × List Path) : Prop where
  idle : s.1.call = none → Spared t s.1.disk
  busy : ∀ c, s.1.call = some c → Ending t c.script s.1.disk
  earlier : ∀ p x, t.get? p = some (.file x) → p ∉ s.2

theorem Ending.now {script : IoM FilesResult} {d : Disk} (h : Ending t script d) : Spared t d :=
  Script.Meets.now h (fun _ _ => rfl) (fun _ _ h => h.1) fun _ _ h => h

theorem CallsSpare.spared (h : CallsSpare t s) : Spared t s.1.disk := by
  cases hc : s.1.call with
  | none => exact h.idle hc
  | some c => exact (h.busy c hc).now

theorem CallsSpare.next {l : CallLabel} (h : CallsSpare t s) (hok : claimsNothing s l = true)
    (hn : (callsOn sha t).next s l = some s') : CallsSpare t s' := by
  obtain ⟨hnext, hsee⟩ := System.observe_next hn
  obtain ⟨⟨d, call⟩, ps⟩ := s
  obtain ⟨c', ps'⟩ := s'
  have hspared := h.spared
  cases l with
  | edit t' => cases hnext
  | call files =>
    cases call with
    | some c => cases hnext
    | none =>
      cases hnext
      cases hsee
      have hstart : Spared t { d with replaced := [] } :=
        ⟨hspared.file, fun p x hp => ⟨(hspared.mine p x hp).1, by simp⟩, hspared.listed⟩
      have hfiles : ∀ rel data p, files.get? rel = some data → safeRelpath rel = some p →
          t.get? p ≠ some (.file data) := by
        intro rel data p hf hp ht
        have hclaim := List.all_eq_true.mp hok (rel, data) (Dict.mem_entries.mpr hf)
        have hrel : rel ∉ d.listing.keys := fun hr => hspared.listed rel hr ⟨p, data, hp, ht⟩
        have hmine : d.written p = none := (hspared.mine p data ht).1
        have hfile : d.tree.get? p = some (.file data) := hspared.file p data ht
        simp [hp, hfile, hrel, hmine] at hclaim
      refine ⟨fun hc => (by cases hc), fun c hc => ?_, fun p x hp => ?_⟩
      · cases hc
        exact writeFiles_spares sha hfiles hstart
      · simp [(hspared.mine p x hp).2, h.earlier p x hp]
  | step failure =>
    cases call with
    | none => cases hnext
    | some c =>
      obtain ⟨⟨d', script⟩, hs, hn⟩ := Option.map_eq_some_iff.mp hnext
      cases hn
      cases hsee
      refine ⟨fun hc => (by cases hc), fun c' hc => ?_, h.earlier⟩
      cases hc
      have hperm : Script.Permits (fun _ _ => true) (d, c.script) failure = true := by
        unfold Script.Permits
        split <;> rfl
      exact Script.Meets.next (h.busy c rfl) hperm hs
  | ret =>
    have hend : c' = ⟨d, none⟩ := by
      cases call with
      | none => cases hnext
      | some c =>
        obtain ⟨files, before, script⟩ := c
        cases script with
        | done r | raise e =>
          cases hnext
          rfl
        | look k | op o ok fail => cases hnext
    cases hend
    cases hsee
    exact ⟨fun _ => hspared, fun c hc => (by cases hc), h.earlier⟩

theorem calls_spare (h : (callsOn sha t).Reach (fun s l => claimsNothing s l = true) s) :
    CallsSpare t s := by
  refine System.Reach.invariant (fun s hs => ?_) (fun _ _ _ hI hok hn => hI.next hok hn) h
  obtain ⟨⟨⟨hm, hw, hc⟩, ht, hr⟩, hps⟩ := hs
  refine ⟨fun _ => ⟨fun p x hp => ?_, fun p x _ => ?_, ?_⟩, fun c hc' => ?_, fun p x _ => ?_⟩
  · rw [ht]
    exact hp
  · simp [hw, hr]
  · simp [Disk.listing, hm, Dict.keys, Dict.empty]
  · simp [hc] at hc'
  · simp [hps]

/-- **Files of somebody else are left alone.** In every run under the condition, a file that was
there at first has never been replaced, is still there with its content, and no call that ended
reports it as written or removed. -/
theorem own_files_kept (h : (callsOn sha t).Reach (fun s l => claimsNothing s l = true) s) :
    ∀ p x, t.get? p = some (.file x) →
      ¬ EverReplaced s p ∧ s.1.disk.tree.get? p = some (.file x) ∧
        ∀ files before r rel, s.1.call = some ⟨files, before, .done r⟩ →
          safeRelpath rel = some p → rel ∉ r.written ∧ rel ∉ r.removed := by
  intro p x hp
  have hI := calls_spare h
  have hspared := hI.spared
  refine ⟨fun he => ?_, hspared.file p x hp, fun files before r rel hc hrel => ?_⟩
  · rcases he with he | he
    · exact (hspared.mine p x hp).2 he
    · exact hI.earlier p x hp he
  · obtain ⟨-, new, hcol⟩ := hI.busy _ hc
    have hforeign : Foreign t rel := ⟨p, x, hrel, hp⟩
    exact ⟨fun hw => hcol.written rel hw hforeign, fun hr => hcol.removed rel hr hforeign⟩

end Runs

/-! ## Concrete runs -/

theorem free_a : Tree.empty.Free ["a"] := by decide

/-- Somebody's file `a`. -/
def ownTree : Tree := Tree.empty.put ["a"] (.file [1]) free_a

def ownCalls : Calls × List Path := ({ disk := { tree := ownTree } }, [])

theorem ownCalls_init : (callsOn (fun _ => "") ownTree).init ownCalls :=
  ⟨⟨⟨rfl, rfl, rfl⟩, rfl, rfl⟩, rfl⟩

/-- A call asks for the bytes that `a` has already, and the next one has no files. -/
def adopting : List CallLabel :=
  .call (Dict.empty.insert "a" [1]) :: List.replicate 12 (.step none) ++ [.ret, .call .empty] ++
    List.replicate 8 (.step none)

/-- A call asks for other bytes at `a`, and the next one has no files. -/
def skipping : List CallLabel :=
  .call (Dict.empty.insert "a" [2]) :: List.replicate 7 (.step none) ++ [.ret, .call .empty] ++
    List.replicate 3 (.step none)

/-- **Somebody's file is deleted.** The engine has never replaced it. -/
theorem own_file_deleted :
    ¬ ∀ t s, (callsOn (fun _ => "") t).Reachable s →
      ∀ p x, t.get? p = some (.file x) → ¬ EverReplaced s p →
        s.1.disk.tree.get? p = some (.file x) := by
  intro hall
  obtain ⟨s, hs, hf⟩ := System.exists_of_runOk ownCalls_init
    (by decide : ((callsOn (fun _ => "") ownTree).run ownCalls adopting).any
      (fun s => s.1.disk.tree.get? ["a"] = none && !EverReplaced s ["a"]) = true)
  simp only [Bool.and_eq_true, decide_eq_true_eq, Bool.not_eq_true', decide_eq_false_iff_not] at hf
  have hkept := hall ownTree s hs.reachable ["a"] [1] (by decide) hf.2
  simp [hf.1] at hkept

/-- A file with other bytes than the requested ones is skipped, and stays. -/
theorem own_files_kept_skipped :
    ∃ s, (callsOn (fun _ => "") ownTree).runOk claimsNothing ownCalls skipping = some s ∧
      ¬ EverReplaced s ["a"] ∧ s.1.disk.tree.get? ["a"] = some (.file [1]) := by
  obtain ⟨s, hs⟩ := Option.isSome_iff_exists.mp
    (by decide : ((callsOn (fun _ => "") ownTree).runOk claimsNothing ownCalls skipping).isSome)
  have hreach := System.reach_of_runOk (.init ownCalls_init) hs
  obtain ⟨hnever, hfile, -⟩ := own_files_kept hreach ["a"] [1] (by decide)
  exact ⟨s, hs, hnever, hfile⟩

end HaAddons.SecretsSync

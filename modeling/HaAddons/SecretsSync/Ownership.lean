import HaAddons.Lib.System
import HaAddons.SecretsSync.Writer

/-!
# What the engine wrote stays owned

`write_files` may overwrite or delete a file only when the manifest lists it, and it saves the
manifest at its very end. A call that raises after it has created a file leaves that file
unlisted: the next call takes it for a file of somebody else (`abandoned_file`).

* `files_stay_owned` — in every run in which each call that raises has replaced only files that
  the manifest lists by then, and no read of a manifest with entries fails: what the engine wrote
  and nobody changed since is overwritten by every later successful call whose map contains it, and
  removed by every later successful call whose map does not.

The proof follows the two loops of `write_files`: `Writing` is the invariant of the first,
`Removing` of the second.
-/

namespace HaAddons.SecretsSync

/-- The manifest lists the file at a path. -/
def Listed (m : Manifest) (p : Path) : Prop := ∃ rel ∈ m.keys, safeRelpath rel = some p

/-- What the manifest on disk lists. -/
def Disk.listing (d : Disk) : Manifest := d.manifest.getD .empty

theorem Listed.mem {m : Manifest} {p : Path} {rel : String} (h : Listed m p)
    (hrel : safeRelpath rel = some p) : rel ∈ m.keys := by
  obtain ⟨rel', hmem, hrel'⟩ := h
  obtain rfl := safeRelpath_inj hrel hrel'
  exact hmem

theorem Listed.insert {m : Manifest} {p : Path} (h : Listed m p) (rel digest : String) :
    Listed (m.insert rel digest) p := by
  obtain ⟨rel', hmem, hrel'⟩ := h
  exact ⟨rel', Dict.mem_keys_insert.mpr (.inr hmem), hrel'⟩

/-- What the engine wrote is there, and the manifest lists it. -/
structure Owned (d : Disk) : Prop where
  file : ∀ p x, d.written p = some x → d.tree.get? p = some (.file x)
  listed : ∀ p, d.written p ≠ none → Listed d.listing p

/-! ## One call -/

/-- Before the manifest is saved: the disk `d` of a call that began on `b`. -/
structure Kept (b d : Disk) : Prop where
  manifest : d.manifest = b.manifest
  file : ∀ p x, d.written p = some x → d.tree.get? p = some (.file x)
  source : ∀ p, d.written p ≠ none → b.written p ≠ none ∨ p ∈ d.replaced

section Kept

variable {b d d' : Disk}

theorem Kept.grows (h : Kept b d) (hg : d.Grows d') : Kept b d' := by
  obtain ⟨t, rfl, ht⟩ := hg
  exact ⟨h.manifest, fun p x hx => ht _ _ (h.file p x hx), h.source⟩

theorem Kept.replace {p : Path} {data : Bytes} (h : Kept b d)
    (hd : d.replace (.file p data) = .ok d') : Kept b d' := by
  obtain ⟨t, rfl, ht⟩ := Disk.replace_file_spec hd
  refine ⟨h.manifest, fun q x hx => ?_, fun q hq => ?_⟩
  · rw [ht]
    by_cases hqp : q = p
    · subst hqp
      simp only [Function.update_self, Option.some.injEq] at hx
      simp [hx]
    · rw [if_neg hqp]
      exact h.file q x (by simpa [Function.update_of_ne hqp] using hx)
  · by_cases hqp : q = p
    · exact .inr (by simp [hqp])
    · have hsource := h.source q (by simpa [Function.update_of_ne hqp] using hq)
      exact hsource.imp_right fun hmem => List.mem_cons_of_mem _ hmem

theorem Kept.unlink {p : Path} (h : Kept b d) (hd : d.unlink p = .ok d') : Kept b d' := by
  obtain ⟨t, rfl, ht⟩ := Disk.unlink_spec hd
  have hne : ∀ {q}, Function.update d.written p none q ≠ none → q ≠ p := by
    rintro q hq rfl
    simp at hq
  refine ⟨h.manifest, fun q x hx => ?_, fun q hq => ?_⟩
  · have hqp : q ≠ p := hne fun hn => by cases hn.symm.trans hx
    rw [ht, if_neg hqp]
    exact h.file q x (by simpa [Function.update_of_ne hqp] using hx)
  · exact h.source q (by simpa [Function.update_of_ne (hne hq)] using hq)

theorem Kept.rmdirs {t : Tree} (h : Kept b d)
    (ht : ∀ q, d.tree.get? q ≠ some .dir → t.get? q = d.tree.get? q) :
    Kept b { d with tree := t } := by
  refine ⟨h.manifest, fun p x hx => ?_, h.source⟩
  have hfile := h.file p x hx
  rw [ht p (by simp [hfile])]
  exact hfile

end Kept

/-! ### The first loop -/

/-- While `todo` is still to be written. -/
structure Writing (b : Disk) (files : Dict String Bytes) (todo : List (String × Bytes))
    (s : FilesResult × Manifest) (d : Disk) : Prop where
  kept : Kept b d
  nodup : (todo.map Prod.fst).Nodup
  sub : ∀ e ∈ todo, e ∈ files.entries
  pending : ∀ rel p x, safeRelpath rel = some p → b.written p = some x →
    rel ∈ todo.map Prod.fst ∨ rel ∉ files.keys → d.written p = some x
  finished : ∀ rel p x data, safeRelpath rel = some p → b.written p = some x →
    files.get? rel = some data → rel ∉ todo.map Prod.fst →
      d.tree.get? p = some (.file data) ∧ rel ∉ s.1.skipped ∧ rel ∈ s.2.keys
  fresh : ∀ p ∈ d.replaced, Listed s.2 p
  skipped : ∀ rel ∈ s.1.skipped, rel ∉ todo.map Prod.fst

section Writing

variable {b d d' : Disk} {files : Dict String Bytes} {todo : List (String × Bytes)}
  {s : FilesResult × Manifest} {rel : String} {data : Bytes} {p : Path}

theorem Writing.grows (h : Writing b files todo s d) (hg : d.Grows d') :
    Writing b files todo s d' := by
  have hkept := h.kept.grows hg
  have hget := fun q n => hg.get? (q := q) (n := n)
  obtain ⟨t, rfl, -⟩ := hg
  refine ⟨hkept, h.nodup, h.sub, h.pending, fun rel p x data hs hb hf ht => ?_, h.fresh,
    h.skipped⟩
  obtain ⟨hfile, hrest⟩ := h.finished rel p x data hs hb hf ht
  exact ⟨hget _ _ hfile, hrest⟩

/-- An unlisted file is nobody's that the engine wrote, so it may be skipped. -/
theorem Writing.skip (hb : Owned b) (h : Writing b files ((rel, data) :: todo) s d)
    (hrel : rel ∉ b.listing.keys) :
    Writing b files todo ({ s.1 with skipped := s.1.skipped ++ [rel] }, s.2) d := by
  have hnot : ∀ {q x}, safeRelpath rel = some q → b.written q ≠ some x := by
    intro q x hq hx
    exact hrel ((hb.listed q (by simp [hx])).mem hq)
  refine ⟨h.kept, (List.nodup_cons.mp h.nodup).2, fun e he => h.sub e (by simp [he]),
    fun rel' q x hs hx hor => h.pending rel' q x hs hx (hor.imp_left fun hm => by simp [hm]),
    fun rel' q x data' hs hx hf ht => ?_, h.fresh, fun rel' hmem => ?_⟩
  · have hne : rel' ≠ rel := by
      rintro rfl
      exact hnot hs hx
    obtain ⟨hfile, hskip, hmem⟩ := h.finished rel' q x data' hs hx hf (by simp [hne, ht])
    exact ⟨hfile, by simp [hskip, hne], hmem⟩
  · rcases List.mem_append.mp hmem with hold | hnew
    · exact fun ht => h.skipped rel' hold (by simp [ht])
    · obtain rfl : rel' = rel := by simpa using hnew
      exact (List.nodup_cons.mp h.nodup).1

/-- The file has the new content now, and is listed from now on. What is known of the other files
holds in `d'` too. -/
theorem Writing.listed (h : Writing b files ((rel, data) :: todo) s d)
    (hp : safeRelpath rel = some p) (hkept : Kept b d') (digest : String) {result : FilesResult}
    (hresult : result.skipped = s.1.skipped) (hget : d'.tree.get? p = some (.file data))
    (hother : ∀ q, q ≠ p → d'.tree.get? q = d.tree.get? q ∧ d'.written q = d.written q)
    (hreplaced : ∀ q ∈ d'.replaced, q = p ∨ q ∈ d.replaced) :
    Writing b files todo (result, s.2.insert rel digest) d' := by
  obtain ⟨hnot, hnodup⟩ := List.nodup_cons.mp h.nodup
  have hne : ∀ {rel' q}, safeRelpath rel' = some q → rel' ≠ rel → q ≠ p := by
    rintro rel' q hs hne rfl
    exact hne (safeRelpath_inj hs hp)
  have hentry : files.get? rel = some data := Dict.mem_entries.mp (h.sub (rel, data) (by simp))
  refine ⟨hkept, hnodup, fun e he => h.sub e (by simp [he]), fun rel' q x hs hx hor => ?_,
    fun rel' q x data' hs hx hf ht => ?_, fun q hq => ?_, fun rel' hmem ht => ?_⟩
  · have hrel : rel' ≠ rel := by
      rintro rfl
      exact hor.elim hnot fun hn => hn (Dict.mem_keys.mpr ⟨data, hentry⟩)
    rw [(hother q (hne hs hrel)).2]
    exact h.pending rel' q x hs hx (hor.imp_left fun hm => by simp [hm])
  · by_cases hrel : rel' = rel
    · subst hrel
      obtain rfl : p = q := by simpa [hp] using hs
      obtain rfl : data = data' := by simpa [hentry] using hf
      refine ⟨hget, fun hmem => ?_, Dict.mem_keys_insert.mpr (.inl rfl)⟩
      exact h.skipped rel' (hresult ▸ hmem) (by simp)
    · obtain ⟨hfile, hskip, hmem⟩ := h.finished rel' q x data' hs hx hf (by simp [hrel, ht])
      rw [(hother q (hne hs hrel)).1, hresult]
      exact ⟨hfile, hskip, Dict.mem_keys_insert.mpr (.inr hmem)⟩
  · rcases hreplaced q hq with rfl | hold
    · exact ⟨rel, Dict.mem_keys_insert.mpr (.inl rfl), hp⟩
    · exact (h.fresh q hold).insert rel digest
  · exact h.skipped rel' (hresult ▸ hmem) (by simp [show rel' ∈ todo.map Prod.fst from ht])

variable {may : FsOp → Disk → Prop} (sha : Bytes → String)

/-- **One file.** Skipped, replaced or left as it is, the loop goes on as it should. -/
theorem writeOne_meets (hb : Owned b) (h : Writing b files ((rel, data) :: todo) s d) :
    (writeOne sha b.listing s (rel, data)).Meets Disk.apply may (Writing b files todo)
      (fun _ => Kept b) d := by
  cases hp : safeRelpath rel with
  | none =>
    simp only [writeOne, targetOf, hp]
    exact h.kept
  | some p =>
    refine Script.Meets.bind ((targetOf_meets true hp).mono ?_ fun e d' hd => h.kept.grows hd.1)
    rintro r d' ⟨hgrow, -, -, hr⟩
    obtain rfl : r = some p := by simpa using hr.imp_left And.left
    have h := h.grows hgrow
    have hwrite : (do
        atomicWrite (.file p data)
        pure ({ s.1 with written := s.1.written ++ [rel] }, s.2.insert rel (sha data)) :
          IoM (FilesResult × Manifest)).Meets Disk.apply may (Writing b files todo)
        (fun _ => Kept b) d' := by
      refine Script.Meets.bind (atomicWrite_meets h.kept fun d'' hd => ?_)
      have hkept := h.kept.replace hd
      obtain ⟨t, rfl, ht⟩ := Disk.replace_file_spec hd
      refine ⟨h.listed hp hkept _ rfl (by simp [ht]) (fun q hq => ?_) fun q hq => ?_, hkept⟩
      · exact ⟨by simp [ht, hq], by simp [hq]⟩
      · simpa using hq
    refine Script.Meets.bind (readTarget_meets h.kept (fun _ => ?_) fun x hx => ?_)
    · simpa using hwrite
    · by_cases hxd : x = data
      · subst hxd
        simp only [ne_eq, not_true_eq_false, false_and, and_false, if_false]
        refine Script.Meets.bind (meets_act_id rfl ?_ fun _ => h.kept)
        exact h.listed hp h.kept _ rfl hx (fun q _ => ⟨rfl, rfl⟩) fun q hq => .inr hq
      · by_cases hrel : rel ∈ b.listing.keys
        · simpa [hxd, hrel] using hwrite
        · simp only [ne_eq, reduceCtorEq, not_false_eq_true, Option.some.injEq, hxd, hrel, and_self,
            if_true]
          exact h.skip hb hrel

end Writing

/-! ### The second loop -/

/-- While the files in `todo` are still to be removed; `new` is the new manifest. -/
structure Removing (b : Disk) (files : Dict String Bytes) (new : Manifest) (todo : List String)
    (result : FilesResult) (d : Disk) : Prop where
  kept : Kept b d
  nodup : todo.Nodup
  sub : ∀ rel ∈ todo, rel ∉ files.keys
  written : ∀ rel p x data, safeRelpath rel = some p → b.written p = some x →
    files.get? rel = some data → d.tree.get? p = some (.file data) ∧ rel ∉ result.skipped
  pending : ∀ rel p x, safeRelpath rel = some p → b.written p = some x → rel ∈ todo →
    d.written p = some x
  gone : ∀ rel p x, safeRelpath rel = some p → b.written p = some x → rel ∉ files.keys →
    rel ∉ todo → d.tree.get? p = none
  listed : ∀ p, d.written p ≠ none → Listed new p ∨ ∃ rel ∈ todo, safeRelpath rel = some p

section Removing

variable {b d d' : Disk} {files : Dict String Bytes} {new : Manifest} {todo : List String}
  {result : FilesResult} {rel : String} {p : Path}

/-- After the first loop the second can begin. -/
theorem Writing.removing {s : FilesResult × Manifest} (hb : Owned b)
    (h : Writing b files [] s d) :
    Removing b files s.2 (toRemove b.listing files) s.1 d := by
  have hmem : ∀ {rel p x}, safeRelpath rel = some p → b.written p = some x →
      rel ∉ files.keys → rel ∈ toRemove b.listing files := fun hs hx hn =>
    mem_toRemove.mpr ⟨(hb.listed _ (by simp [hx])).mem hs, hn⟩
  refine ⟨h.kept, toRemove_nodup _ _, fun rel hr => (mem_toRemove.mp hr).2,
    fun rel p x data hs hx hf => ?_, fun rel p x hs hx hr => ?_, fun rel p x hs hx hn hr => ?_,
    fun p hp => ?_⟩
  · obtain ⟨hfile, hskip, -⟩ := h.finished rel p x data hs hx hf (by simp)
    exact ⟨hfile, hskip⟩
  · exact h.pending rel p x hs hx (.inr (mem_toRemove.mp hr).2)
  · exact absurd (hmem hs hx hn) hr
  · rcases h.kept.source p hp with hbw | hrep
    · obtain ⟨x, hx⟩ := Option.ne_none_iff_exists'.mp hbw
      obtain ⟨rel, -, hs⟩ := hb.listed p hbw
      by_cases hf : rel ∈ files.keys
      · obtain ⟨data, hdata⟩ := Dict.mem_keys.mp hf
        exact .inl ⟨rel, (h.finished rel p x data hs hx hdata (by simp)).2.2, hs⟩
      · exact .inr ⟨rel, hmem hs hx hf, hs⟩
    · exact .inl (h.fresh p hrep)

/-- Where there is no file, there is nothing of the engine's to remove. -/
theorem Removing.forget (h : Removing b files new (rel :: todo) result d)
    (hnot : ∀ q x, safeRelpath rel = some q → d.tree.get? q ≠ some (.file x)) :
    Removing b files new todo result d := by
  have hnone : ∀ q, safeRelpath rel = some q → d.written q = none := by
    intro q hq
    by_contra hne
    obtain ⟨x, hx⟩ := Option.ne_none_iff_exists'.mp hne
    exact hnot q x hq (h.kept.file q x hx)
  refine ⟨h.kept, (List.nodup_cons.mp h.nodup).2, fun r hr => h.sub r (by simp [hr]), h.written,
    fun r q x hs hx hr => h.pending r q x hs hx (by simp [hr]),
    fun r q x hs hx hn hr => ?_, fun q hq => ?_⟩
  · by_cases hrel : r = rel
    · subst hrel
      have := h.pending r q x hs hx (by simp)
      simp [hnone q hs] at this
    · exact h.gone r q x hs hx hn (by simp [hrel, hr])
  · refine (h.listed q hq).imp_right fun ⟨r, hr, hs⟩ => ⟨r, ?_, hs⟩
    rcases List.mem_cons.mp hr with rfl | hr
    · exact absurd (hnone q hs) hq
    · exact hr

/-- The file is gone, and of the rest at most directories. -/
theorem Removing.remove (h : Removing b files new (rel :: todo) result d)
    (hp : safeRelpath rel = some p) (hkept : Kept b d') {result' : FilesResult}
    (hresult : result'.skipped = result.skipped) (hget : d'.tree.get? p = none)
    (hother : ∀ q, q ≠ p → d.tree.get? q ≠ some .dir → d'.tree.get? q = d.tree.get? q)
    (hwritten : d'.written = Function.update d.written p none) :
    Removing b files new todo result' d' := by
  obtain ⟨hnot, hnodup⟩ := List.nodup_cons.mp h.nodup
  have hne : ∀ {r q}, safeRelpath r = some q → r ≠ rel → q ≠ p := by
    rintro r q hs hne rfl
    exact hne (safeRelpath_inj hs hp)
  refine ⟨hkept, hnodup, fun r hr => h.sub r (by simp [hr]), fun r q x data hs hx hf => ?_,
    fun r q x hs hx hr => ?_, fun r q x hs hx hn hr => ?_, fun q hq => ?_⟩
  · obtain ⟨hfile, hskip⟩ := h.written r q x data hs hx hf
    have hrel : r ≠ rel := by
      rintro rfl
      exact h.sub r (by simp) (Dict.mem_keys.mpr ⟨data, hf⟩)
    rw [hother q (hne hs hrel) (by simp [hfile]), hresult]
    exact ⟨hfile, hskip⟩
  · have hrel : r ≠ rel := by
      rintro rfl
      exact hnot hr
    rw [hwritten, Function.update_of_ne (hne hs hrel)]
    exact h.pending r q x hs hx (by simp [hr])
  · by_cases hrel : r = rel
    · subst hrel
      obtain rfl : p = q := by simpa [hp] using hs
      exact hget
    · have hnone := h.gone r q x hs hx hn (by simp [hrel, hr])
      rw [hother q (hne hs hrel) (by simp [hnone])]
      exact hnone
  · have hqp : q ≠ p := by
      rintro rfl
      simp [hwritten] at hq
    rw [hwritten, Function.update_of_ne hqp] at hq
    refine (h.listed q hq).imp_right fun ⟨r, hr, hs⟩ => ⟨r, ?_, hs⟩
    rcases List.mem_cons.mp hr with rfl | hr
    · exact absurd (by simpa [hp] using hs.symm) hqp
    · exact hr

variable {may : FsOp → Disk → Prop}

/-- **One file of the old manifest.** Removed, missing or unsafe, the loop goes on as it should. -/
theorem removeOne_meets (h : Removing b files new (rel :: todo) result d) :
    (removeOne result rel).Meets Disk.apply may (Removing b files new todo)
      (fun _ => Kept b) d := by
  cases hp : safeRelpath rel with
  | none =>
    simp only [removeOne, targetOf, hp]
    exact h.forget (by simp [hp])
  | some p =>
    have hforget : (∀ x, d.tree.get? p ≠ some (.file x)) → Removing b files new todo result d :=
      fun hn => h.forget fun q x hq => by
        obtain rfl : p = q := by simpa [hp] using hq
        exact hn x
    refine Script.Meets.bind (Script.Meets.handle ((targetOf_meets false hp).mono ?_ ?_))
    · rintro r d' ⟨-, hd, -, hr⟩
      obtain rfl := hd rfl
      rcases hr with ⟨rfl, hfile⟩ | ⟨-, rfl, hnone⟩
      · refine Script.Meets.get ?_
        rcases hfile with hnone | ⟨x, hx⟩
        · simp only [hnone, if_true]
          exact hforget (by simp [hnone])
        · simp only [hx, reduceCtorEq, if_false]
          refine Script.Meets.bind (Script.Meets.act (fun d₁ hd => ?_) fun _ => h.kept)
          have hkept := h.kept.unlink hd
          obtain ⟨t, rfl, ht⟩ := Disk.unlink_spec hd
          refine Script.Meets.bind ((rmParents_meets _).mono ?_ fun _ _ h => h)
          rintro _ _ ⟨t', rfl, ht'⟩
          refine h.remove hp (hkept.rmdirs ht') rfl ?_ (fun q hqp hq => ?_) rfl
          · rw [ht' p (by simp [ht])]
            simp [ht]
          · rw [ht' q (by simpa [ht, hqp] using hq)]
            simp [ht, hqp]
      · exact hforget (by simp [hnone])
    · rintro e d' ⟨-, hd, he⟩
      obtain rfl := hd rfl
      cases e with
      | unsafePath msg => exact hforget (he.resolve_left (by simp))
      | os cls | write code msg | assertion => exact h.kept

end Removing

/-! ### The whole call -/

/-- What a successful call has done to the files the engine had written before. -/
def Settled (b : Disk) (files : Dict String Bytes) (result : FilesResult) (d : Disk) : Prop :=
  ∀ rel p x, safeRelpath rel = some p → b.written p = some x →
    (∀ data, files.get? rel = some data →
      d.tree.get? p = some (.file data) ∧ rel ∉ result.skipped) ∧
    (rel ∉ files.keys → d.tree.get? p = none)

/-- What a call that raises leaves behind. -/
structure Left (d : Disk) : Prop where
  file : ∀ p x, d.written p = some x → d.tree.get? p = some (.file x)
  source : ∀ p, d.written p ≠ none → Listed d.listing p ∨ p ∈ d.replaced

/-- A manifest that lists something can be read. All other operations may fail. -/
def safeFailure : FsOp → Disk → Bool
  | .readManifest, d => d.listing.entries.isEmpty
  | _, _ => true

section Whole

variable {b d : Disk} {files : Dict String Bytes} {may : FsOp → Disk → Prop}

theorem Kept.left (hb : Owned b) (h : Kept b d) : Left d := by
  refine ⟨h.file, fun p hp => (h.source p hp).imp_left fun hbw => ?_⟩
  rw [Disk.listing, h.manifest]
  exact hb.listed p hbw

theorem Listed.same {m m' : Manifest} {p : Path} (h : Listed m p) (hm : m.same m' = true) :
    Listed m' p := by
  obtain ⟨rel, hmem, hs⟩ := h
  obtain ⟨v, hv⟩ := Dict.mem_keys.mp hmem
  exact ⟨rel, Dict.mem_keys.mpr ⟨v, (Dict.same_iff.mp hm rel).symm.trans hv⟩, hs⟩

theorem saveManifest_meets {new : Manifest} {result : FilesResult} (hb : Owned b)
    (h : Removing b files new [] result d) :
    (saveManifest b.listing new).Meets Disk.apply may
      (fun _ d' => Settled b files result d' ∧ Owned d') (fun _ => Left) d := by
  have hsettled : Settled b files result d := fun rel p x hs hx =>
    ⟨fun data hf => h.written rel p x data hs hx hf, fun hn => h.gone rel p x hs hx hn (by simp)⟩
  have hlisted : ∀ p, d.written p ≠ none → Listed new p := fun p hp =>
    (h.listed p hp).resolve_right (by simp)
  unfold saveManifest
  split
  · rename_i hsame
    refine ⟨hsettled, h.kept.file, fun p hp => ?_⟩
    rw [Disk.listing, h.kept.manifest]
    exact (hlisted p hp).same hsame
  · refine orWriteFailed_meets (Script.Meets.bind (meets_act_id rfl ?_ fun _ => h.kept.left hb))
    refine atomicWrite_meets (h.kept.left hb) fun d' hd => ?_
    cases hd
    exact ⟨⟨hsettled, h.kept.file, hlisted⟩, h.kept.file, fun p hp => .inl (hlisted p hp)⟩

/-- What a call does once it has read the manifest. -/
theorem writeListed_meets (sha : Bytes → String) (files : Dict String Bytes) (hb : Owned b)
    (hr : b.replaced = []) :
    ((do
      act .makeDirs
      let (result, newManifest) ← orWriteFailed "cannot write provider files" do
        let s ← (toWrite files).foldlM (writeOne sha b.listing) ({}, .empty)
        let result ← (toRemove b.listing files).foldlM removeOne s.1
        pure (result, s.2)
      saveManifest b.listing newManifest
      pure result : IoM FilesResult)).Meets Disk.apply (fun o d => safeFailure o d = true)
      (fun result d => Settled b files result d ∧ Owned d) (fun _ => Left) b := by
  have hkept : Kept b b := ⟨rfl, hb.file, fun _ hp => .inl hp⟩
  have hstart : Writing b files (toWrite files) ({}, .empty) b :=
    { kept := hkept
      nodup := toWrite_nodup files
      sub := fun e he => mem_toWrite.mp he
      pending := fun _ _ _ _ hx _ => hx
      finished := fun rel p x data _ _ hf ht => absurd
        (List.mem_map_of_mem (f := Prod.fst) (mem_toWrite.mpr (Dict.mem_entries.mpr hf))) ht
      fresh := by simp [hr]
      skipped := by simp }
  refine Script.Meets.bind (meets_act_id rfl ?_ fun _ => hkept.left hb)
  refine Script.Meets.bind (orWriteFailed_meets (Script.Meets.bind ?_))
  refine (Script.Meets.foldlM (I := Writing b files) (fun e todo s d h => ?_) hstart).mono
    (fun s d h => ?_) fun _ d h => h
  · exact (writeOne_meets sha hb h).mono (fun _ _ h => h) fun _ _ h => h.left hb
  · refine Script.Meets.bind ((Script.Meets.foldlM (I := Removing b files s.2)
      (fun rel todo result d h => ?_) (h.removing hb)).mono (fun result d h => ?_) fun _ d h => h)
    · exact (removeOne_meets h).mono (fun _ _ h => h) fun _ _ h => h.left hb
    · exact Script.Meets.bind ((saveManifest_meets hb h).mono (fun _ _ h => h) fun _ _ h => h)

/-- **One call.** It settles what the engine had written, and leaves it owned; or it raises, and
what it leaves behind is listed or was replaced by this call. -/
theorem writeFiles_meets (sha : Bytes → String) (hb : Owned b) (hr : b.replaced = []) :
    (writeFiles sha files).Meets Disk.apply (fun o d => safeFailure o d = true)
      (fun result d => Settled b files result d ∧ Owned d) (fun _ => Left) b := by
  have hrest := writeListed_meets sha files hb hr
  refine ⟨fun d' hd => ?_, fun cls hmay => ?_⟩
  · cases hd
    exact hrest
  · have hempty : b.listing = .empty := by
      have hnil : b.listing.entries = [] := by
        rcases hmay with h | h
        · simpa [safeFailure] using h
        · cases h
      cases hm : b.listing with
      | mk entries nodup => simp_all [Dict.empty]
    rw [hempty] at hrest
    exact hrest

end Whole

/-! ## Runs -/

/-- A call that is running, and the disk it began on. -/
structure Call where
  files : Dict String Bytes
  before : Disk
  script : IoM FilesResult

/-- The disk, and the call that is running. -/
structure Calls where
  disk : Disk
  call : Option Call := none

/-- A call begins, makes a step that may fail, or returns; between calls somebody else changes the
files directory. -/
inductive CallLabel where
  | call (files : Dict String Bytes)
  | step (failure : Option String)
  | ret
  | edit (tree : Tree)

/-- What was written and is changed by somebody else is not the engine's any more. -/
def Disk.edit (d : Disk) (t : Tree) : Disk :=
  { d with
    tree := t
    written := fun p => if t.get? p = d.tree.get? p then d.written p else none }

def Calls.next (sha : Bytes → String) (s : Calls) : CallLabel → Option Calls
  | .call files =>
    match s.call with
    | none =>
      let disk := { s.disk with replaced := [] }
      some { disk := disk, call := some ⟨files, disk, writeFiles sha files⟩ }
    | some _ => none
  | .step failure =>
    match s.call with
    | none => none
    | some c => (Script.next Disk.apply (s.disk, c.script) failure).map fun r =>
        { disk := r.1, call := some { c with script := r.2 } }
  | .ret =>
    match s.call with
    | some { script := .done _, .. } | some { script := .raise _, .. } =>
      some { s with call := none }
    | _ => none
  | .edit t =>
    match s.call with
    | none => some { s with disk := s.disk.edit t }
    | some _ => none

/-- Calls of `write_files` one after the other, on an empty manifest at first. -/
def calls (sha : Bytes → String) : System Calls CallLabel where
  init s := s.disk.manifest = none ∧ s.disk.written = (fun _ => none) ∧ s.call = none
  next s l := s.next sha l

instance (m : Manifest) (p : Path) : Decidable (Listed m p) :=
  inferInstanceAs (Decidable (∃ rel ∈ m.keys, safeRelpath rel = some p))

/-- A call raises only where the manifest on disk lists every file the call has replaced, and the
read of a manifest fails only where that lists nothing. -/
def keepsOwned (s : Calls) : CallLabel → Bool
  | .step failure => s.call.all fun c => Script.Permits safeFailure (s.disk, c.script) failure
  | .ret =>
    match s.call with
    | some { script := .raise _, .. } => s.disk.replaced.all fun p => Listed s.disk.listing p
    | _ => true
  | _ => true

section Runs

variable {sha : Bytes → String} {s s' : Calls}

/-- Between calls everything is owned; a call that is running will end well. -/
def Calls.Inv (s : Calls) : Prop :=
  match s.call with
  | none => Owned s.disk
  | some c => Owned c.before ∧
      c.script.Meets Disk.apply (fun o d => safeFailure o d = true)
        (fun result d => Settled c.before c.files result d ∧ Owned d) (fun _ => Left) s.disk

theorem Owned.edit {d : Disk} (h : Owned d) (t : Tree) : Owned (d.edit t) := by
  refine ⟨fun p x hx => ?_, fun p hp => ?_⟩
  · simp only [Disk.edit] at hx ⊢
    split at hx
    · rename_i hsame
      rw [hsame]
      exact h.file p x hx
    · cases hx
  · simp only [Disk.edit] at hp
    split at hp
    · exact h.listed p hp
    · simp at hp

theorem Calls.Inv.next {l : CallLabel} (h : Calls.Inv s) (hok : keepsOwned s l = true)
    (hn : s.next sha l = some s') : Calls.Inv s' := by
  obtain ⟨d, call⟩ := s
  cases l with
  | call files =>
    cases call with
    | none =>
      cases hn
      have hb : Owned { d with replaced := [] } := ⟨h.file, h.listed⟩
      exact ⟨hb, writeFiles_meets sha hb rfl⟩
    | some c => cases hn
  | step failure =>
    cases call with
    | none => cases hn
    | some c =>
      obtain ⟨⟨d', script⟩, hs, hn⟩ := Option.map_eq_some_iff.mp hn
      cases hn
      exact ⟨h.1, h.2.next (by simpa [keepsOwned] using hok) hs⟩
  | ret =>
    cases call with
    | none => cases hn
    | some c =>
      obtain ⟨files, before, script⟩ := c
      cases script with
      | done r =>
        cases hn
        exact h.2.2
      | raise e =>
        cases hn
        obtain ⟨hfile, hsource⟩ := h.2
        refine ⟨hfile, fun p hp => (hsource p hp).elim id fun hmem => ?_⟩
        simpa using List.all_eq_true.mp hok p hmem
      | look k | op o ok fail => cases hn
  | edit t =>
    cases call with
    | none =>
      cases hn
      exact Owned.edit h t
    | some c => cases hn

theorem calls_inv (h : (calls sha).Reach (fun s l => keepsOwned s l = true) s) : Calls.Inv s := by
  refine System.Reach.invariant (fun s hs => ?_) (fun _ _ _ hI hok hn => hI.next hok hn) h
  obtain ⟨hm, hw, hc⟩ := hs
  simp only [Calls.Inv, hc]
  exact ⟨by simp [hw], by simp [hw]⟩

/-- **What the engine wrote stays owned.** In every run under the condition, a call that succeeds
finds each file the engine had written still there. It overwrites it when its map contains the
path, without reporting it as skipped, and removes it when its map does not. -/
theorem files_stay_owned (h : (calls sha).Reach (fun s l => keepsOwned s l = true) s) :
    ∀ files before r, s.call = some ⟨files, before, .done r⟩ →
      ∀ p x, before.written p = some x → before.tree.get? p = some (.file x) ∧
        ∃ rel, safeRelpath rel = some p ∧
          (∀ data, files.get? rel = some data →
            s.disk.tree.get? p = some (.file data) ∧ rel ∉ r.skipped) ∧
          (rel ∉ files.keys → s.disk.tree.get? p = none) := by
  intro files before r hc p x hx
  have hI := calls_inv h
  simp only [Calls.Inv, hc] at hI
  obtain ⟨hb, hsettled, -⟩ := hI
  obtain ⟨rel, -, hs⟩ := hb.listed p (by simp [hx])
  exact ⟨hb.file p x hx, rel, hs, hsettled rel p x hs hx⟩

end Runs

/-! ## Concrete runs -/

def freshCalls : Calls := { disk := { tree := .empty } }

def fileMap : Dict String Bytes := (Dict.empty.insert "a" [1]).insert "b" [2]

/-- The disk is full when the second file is staged, and the next call has no files any more. -/
def abandoning : List CallLabel :=
  .call fileMap :: List.replicate 12 (.step none) ++ [.step (some "OSError"), .ret, .call .empty] ++
    List.replicate 3 (.step none)

/-- Both files are written and listed, a call that replaces one raises, and then both are removed. -/
def recovering : List CallLabel :=
  .call fileMap :: List.replicate 19 (.step none) ++ [.ret, .call (fileMap.insert "a" [3])] ++
    List.replicate 9 (.step none) ++ [.step (some "OSError"), .ret, .call .empty] ++
    List.replicate 15 (.step none)

theorem freshCalls_init : (calls fun _ => "").init freshCalls := ⟨rfl, rfl, rfl⟩

/-- A successful call without files, begun when the engine had written `x` to `a`. -/
def endedOn (x : Bytes) (there : Bool) (s : Calls) : Bool :=
  match s.call with
  | some { files, before, script := .done _ } =>
    files.keys = [] && before.written ["a"] = some x && (s.disk.tree.get? ["a"]).isSome = there
  | _ => false

theorem endedOn_spec {x : Bytes} {there : Bool} {s : Calls} (h : endedOn x there s = true) :
    ∃ files before r, s.call = some ⟨files, before, .done r⟩ ∧ files.keys = [] ∧
      before.written ["a"] = some x ∧ (s.disk.tree.get? ["a"]).isSome = there := by
  unfold endedOn at h
  split at h
  · rename_i files before r hc
    simp only [Bool.and_eq_true, decide_eq_true_eq] at h
    exact ⟨files, before, r, hc, h.1.1, h.1.2, h.2⟩
  · cases h

/-- **A file left behind.** The call that wrote it raised before it saved the manifest. -/
theorem abandoned_file :
    ¬ ∀ s, (calls fun _ => "").Reachable s →
      ∀ files before r, s.call = some ⟨files, before, .done r⟩ →
        ∀ p x, before.written p = some x → before.tree.get? p = some (.file x) ∧
          ∃ rel, safeRelpath rel = some p ∧
            (∀ data, files.get? rel = some data →
              s.disk.tree.get? p = some (.file data) ∧ rel ∉ r.skipped) ∧
            (rel ∉ files.keys → s.disk.tree.get? p = none) := by
  intro hall
  obtain ⟨s, hs, hf⟩ := System.exists_of_runOk freshCalls_init
    (by decide : ((calls fun _ => "").run freshCalls abandoning).any (endedOn [1] true) = true)
  obtain ⟨files, before, r, hc, hnil, hw, hthere⟩ := endedOn_spec hf
  obtain ⟨-, rel, -, -, hgone⟩ := hall s hs.reachable files before r hc _ _ hw
  simp [hgone (by simp [hnil])] at hthere

/-- A call that raises keeps a listed file owned, and the next one removes it. -/
theorem files_stay_owned_recovering :
    ∃ s files before r, (calls fun _ => "").runOk keepsOwned freshCalls recovering = some s ∧
      s.call = some ⟨files, before, .done r⟩ ∧ before.written ["a"] = some [3] ∧
        before.tree.get? ["a"] = some (.file [3]) ∧ s.disk.tree.get? ["a"] = none := by
  obtain ⟨s, hs, hf⟩ := (Option.any_eq_true _ _).mp
    (by decide : ((calls fun _ => "").runOk keepsOwned freshCalls recovering).any
      (endedOn [3] false) = true)
  obtain ⟨files, before, r, hc, -, hw, hgone⟩ := endedOn_spec hf
  obtain ⟨hfile, -⟩ := files_stay_owned (System.reach_of_runOk (.init freshCalls_init) hs)
    files before r hc _ _ hw
  exact ⟨s, files, before, r, hs, hc, hw, hfile, by simpa using hgone⟩

end HaAddons.SecretsSync

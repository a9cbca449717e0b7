import HaAddons.Ntfy.Api
import Mathlib.Algebra.GroupWithZero.Nat

/-!
# The origin store and its file

The store keeps the document in memory and beside it the signature of the file that it was read from.
Every access first reads the file again where its signature is another one. A write changes the
document in memory in place and then saves it.

* `write_saved` — after a write that was saved, reads return the changed document.
* `atomic_iff` — after a write whose save failed, reads return what they returned before exactly if
  the write would have left the document as it was, or it had just moved a corrupt file away.
* `phantom_record` — a record that was never saved is read, and the next write saves it.
-/

namespace HaAddons.Ntfy

/-! ## Write operations -/

/-- The records that are to stay. -/
structure Live where
  users : String → Bool
  acls : String → String → Bool
  tokens : String → String → Bool

/-- The write operations, with arguments that their checks let through. -/
inductive OriginOp where
  | setUser (name : String) (origin : Origin)
  | setAcl (user topic : String) (origin : Origin)
  | setToken (user tokenId : String) (origin : Origin)
  | dropUser (name : String)
  | dropAcl (user topic : String)
  | dropToken (user tokenId : String)
  | clearAcls
  | clearAll
  | stashAcl (user : String) (rules : List StashedRule)
  | popAclStash (user : String)
  | prune (live : Live)

/-- One section of `prune`: a user whose last record goes is dropped. -/
def pruneSection (live : String → String → Bool) (records : Dict String (Dict String Origin)) :
    Dict String (Dict String Origin) :=
  records.filterMap fun user inner =>
    let inner := inner.filter (live user)
    if inner.entries = [] then none else some inner

/-- The records of a section that `prune` removes. -/
def removedIn (live : String → String → Bool) (records : Dict String (Dict String Origin)) : ℕ :=
  (records.entries.map fun e => e.2.keys.countP fun k => !live e.1 k).sum

namespace Origins

def clearAcls (doc : Origins) : Origins := { doc with acls := .empty }

def prune (doc : Origins) (live : Live) : Origins :=
  { doc with
    users := doc.users.filter live.users
    acls := pruneSection live.acls doc.acls
    tokens := pruneSection live.tokens doc.tokens }

/-- What `prune` returns. -/
def removed (doc : Origins) (live : Live) : ℕ :=
  doc.users.keys.countP (fun u => !live.users u) + removedIn live.acls doc.acls +
    removedIn live.tokens doc.tokens

end Origins

namespace OriginOp

/-- What the operation makes of the document. -/
def effect (doc : Origins) : OriginOp → Origins
  | setUser name origin => doc.setUser name origin
  | setAcl user topic origin => doc.setAcl user topic origin
  | setToken user tokenId origin => doc.setToken user tokenId origin
  | dropUser name => doc.dropUser name
  | dropAcl user topic => doc.dropAcl user topic
  | dropToken user tokenId => doc.dropToken user tokenId
  | clearAcls => doc.clearAcls
  | clearAll => .empty
  | stashAcl user rules => doc.stashAcl user rules
  | popAclStash user => doc.popAclStash user
  | prune live => doc.prune live

/-- The document is saved; `prune` saves it only where it has removed something. -/
def saves (doc : Origins) : OriginOp → Bool
  | prune live => doc.removed live ≠ 0
  | _ => true

end OriginOp

/-- What an operation returns. -/
inductive OriginResult where
  | nothing
  | rules (rules : List StashedRule)
  | count (n : ℕ)

def OriginOp.result (doc : Origins) : OriginOp → OriginResult
  | popAclStash user => .rules (doc.stash user)
  | prune live => .count (doc.removed live)
  | _ => .nothing

/-! ## The store -/

/-- `st_ino`, `st_mtime_ns` and `st_size`. -/
abbrev Signature := ℕ × ℕ × ℕ

/-- What reading the file comes to: a valid document, another text, bytes that are not UTF-8, or an
error of the system. -/
inductive SidecarContent where
  | doc (doc : Origins)
  | corrupt
  | undecodable
  | unreadable

structure Sidecar where
  sig : Signature
  content : SidecarContent

inductive OriginError where
  | unicode
  | save (cls : String)

/-- The file, and what the store has in memory: `sig` and `doc`. -/
structure OriginStore where
  file : Option Sidecar
  sig : Option Signature
  doc : Origins

namespace OriginStore

/-- `_signature` -/
def signature (s : OriginStore) : Option Signature := s.file.map Sidecar.sig

/-- `_load`. A corrupt file is moved away if it can be; bytes that are not UTF-8 raise. -/
def load (rename : Bool) (s : OriginStore) : Except OriginError Unit × OriginStore :=
  match s.file.map Sidecar.content with
  | none | some .unreadable => (.ok (), { s with doc := .empty })
  | some (.doc doc) => (.ok (), { s with doc := doc })
  | some .undecodable => (.error .unicode, s)
  | some .corrupt => (.ok (), { s with file := if rename then none else s.file, doc := .empty })

/-- `_refresh` -/
def refresh (rename : Bool) (s : OriginStore) : Except OriginError Unit × OriginStore :=
  if s.signature = s.sig then (.ok (), s) else load rename { s with sig := s.signature }

/-- A read: the document that all reads look at. -/
def read (rename : Bool) (s : OriginStore) : Except OriginError Origins × OriginStore :=
  let (r, s) := s.refresh rename
  (r.map fun _ => s.doc, s)

/-- A write. `saved` is the signature of the file that replaces the old one, or how saving failed;
the document in memory has changed by then. -/
def write (rename : Bool) (saved : Except String Signature) (op : OriginOp) (s : OriginStore) :
    Except OriginError OriginResult × OriginStore :=
  match s.refresh rename with
  | (.error e, s) => (.error e, s)
  | (.ok (), s) =>
    let changed := op.effect s.doc
    if op.saves s.doc then
      match saved with
      | .error cls => (.error (.save cls), { s with doc := changed })
      | .ok sig => (.ok (op.result s.doc), ⟨some ⟨sig, .doc changed⟩, some sig, changed⟩)
    else (.ok (op.result s.doc), { s with doc := changed })

/-! ## What reads return -/

/-- Reads return the document, now and later: it is in memory with the signature of the file, or the
file has gone and the document is empty. -/
def Settled (doc : Origins) (s : OriginStore) : Prop :=
  s.sig = s.signature ∧ s.doc = doc ∨ s.file = none ∧ s.sig ≠ none ∧ doc = .empty

theorem Settled.read {doc : Origins} {s : OriginStore} (h : s.Settled doc) (rename : Bool) :
    (s.read rename).1 = .ok doc ∧ (s.read rename).2.Settled doc := by
  rcases h with ⟨hsig, rfl⟩ | ⟨hfile, hsig, rfl⟩
  · have href : s.refresh rename = (.ok (), s) := if_pos hsig.symm
    unfold OriginStore.read
    rw [href]
    exact ⟨rfl, .inl ⟨hsig, rfl⟩⟩
  · have hnone : s.signature = none := by rw [signature, hfile]; rfl
    have hother : s.signature ≠ s.sig := by
      rw [hnone]
      exact hsig.symm
    have href : s.refresh rename = (.ok (), { s with sig := none, doc := .empty }) := by
      rw [refresh, if_neg hother, hnone, load]
      simp [hfile]
    unfold OriginStore.read
    rw [href]
    exact ⟨rfl, .inl ⟨hnone.symm, rfl⟩⟩

/-- The file that the store meets is corrupt, not the one that it knows, and can be moved away. -/
def MovesAway (rename : Bool) (s : OriginStore) : Prop :=
  s.signature ≠ s.sig ∧ (∃ sig, s.file = some ⟨sig, .corrupt⟩) ∧ rename = true

/-- What the first step of an access leaves. -/
theorem refresh_cases {rename : Bool} {s s' : OriginStore} (h : s.refresh rename = (.ok (), s')) :
    s'.sig = s'.signature ∧ ¬ s.MovesAway rename ∨
      s'.file = none ∧ s'.sig ≠ none ∧ s'.doc = .empty ∧ s.MovesAway rename := by
  unfold refresh at h
  by_cases hsig : s.signature = s.sig
  · rw [if_pos hsig] at h
    obtain ⟨-, rfl⟩ := Prod.mk.inj h
    exact .inl ⟨hsig.symm, fun hmoves => hmoves.1 hsig⟩
  · rw [if_neg hsig] at h
    unfold load at h
    cases hfile : s.file with
    | none =>
      simp only [hfile, Option.map_none] at h
      obtain ⟨-, rfl⟩ := Prod.mk.inj h
      refine .inl ⟨by simp [signature, hfile], ?_⟩
      rintro ⟨-, ⟨sig, hcorrupt⟩, -⟩
      rw [hfile] at hcorrupt
      cases hcorrupt
    | some f =>
      obtain ⟨sig, content⟩ := f
      cases content with
      | undecodable =>
        simp only [hfile, Option.map_some] at h
        cases h
      | doc _ | unreadable =>
        simp only [hfile, Option.map_some] at h
        obtain ⟨-, rfl⟩ := Prod.mk.inj h
        refine .inl ⟨by simp [signature, hfile], ?_⟩
        rintro ⟨-, ⟨sig, hcorrupt⟩, -⟩
        rw [hfile] at hcorrupt
        cases hcorrupt
      | corrupt =>
        simp only [hfile, Option.map_some] at h
        obtain ⟨-, rfl⟩ := Prod.mk.inj h
        cases rename with
        | true =>
          refine .inr ⟨rfl, by simp [signature, hfile], rfl, hsig, ⟨sig, hfile⟩, rfl⟩
        | false =>
          refine .inl ⟨by simp [signature, hfile], ?_⟩
          rintro ⟨-, -, hrename⟩
          cases hrename

/-- Reads, one after the other. -/
inductive Later : OriginStore → OriginStore → Prop
  | refl (s : OriginStore) : Later s s
  | read {s t : OriginStore} (rename : Bool) : Later s t → Later s (t.read rename).2

theorem Settled.later {doc : Origins} {s t : OriginStore} (h : s.Settled doc) (ht : Later s t) :
    t.Settled doc := by
  induction ht with
  | refl => exact h
  | read rename _ ih => exact (ih.read rename).2

/-- A write starts from the document that a read returns. -/
theorem Settled.write {doc : Origins} {s : OriginStore} (h : s.Settled doc) (rename : Bool)
    (sig : Signature) {op : OriginOp} (hop : op.saves doc = true) :
    s.write rename (.ok sig) op =
      (.ok (op.result doc), ⟨some ⟨sig, .doc (op.effect doc)⟩, some sig, op.effect doc⟩) := by
  have hread := (h.read rename).1
  unfold OriginStore.read at hread
  unfold OriginStore.write
  cases href : s.refresh rename with
  | mk r s' =>
    rw [href] at hread
    cases r with
    | error e => cases hread
    | ok u =>
      obtain rfl : s'.doc = doc := Except.ok.inj hread
      simp only [hop, if_true]

/-- **A write that was saved** is what every later read returns. -/
theorem write_saved {doc : Origins} {s : OriginStore} (h : s.Settled doc) (rename : Bool)
    (sig : Signature) {op : OriginOp} (hop : op.saves doc = true) :
    (s.write rename (.ok sig) op).2.Settled (op.effect doc) := by
  rw [h.write rename sig hop]
  exact .inl ⟨rfl, rfl⟩

/-- After the failed write, reads return what they returned before it, and so do writes go on from
there. -/
structure Atomic (rename : Bool) (cls : String) (op : OriginOp) (s : OriginStore) (doc : Origins) :
    Prop where
  reads : ∀ t, Later (s.write rename (.error cls) op).2 t → ∀ rename', (t.read rename').1 = .ok doc
  writes : ∀ t, Later (s.write rename (.error cls) op).2 t → ∀ rename' sig op',
    op'.saves doc = true →
      (t.write rename' (.ok sig) op').2.file = some ⟨sig, .doc (op'.effect doc)⟩

theorem Settled.atomic {rename : Bool} {cls : String} {op : OriginOp} {s : OriginStore}
    {doc : Origins} (h : (s.write rename (.error cls) op).2.Settled doc) :
    s.Atomic rename cls op doc where
  reads t ht rename' := ((h.later ht).read rename').1
  writes t ht rename' sig op' hop := by rw [(h.later ht).write rename' sig hop]

/-- **When a failed write is atomic.** -/
theorem atomic_iff (rename : Bool) (cls : String) (op : OriginOp) (s : OriginStore) (doc : Origins)
    (hdoc : (s.read rename).1 = .ok doc)
    (hfails : (s.write rename (.error cls) op).1 = .error (.save cls)) :
    s.Atomic rename cls op doc ↔ op.effect doc = doc ∨ s.MovesAway rename := by
  obtain ⟨s', href, hs'⟩ : ∃ s', s.refresh rename = (.ok (), s') ∧ s'.doc = doc := by
    unfold OriginStore.read at hdoc
    cases href : s.refresh rename with
    | mk r s' =>
      rw [href] at hdoc
      cases r with
      | error e => cases hdoc
      | ok u => exact ⟨s', rfl, Except.ok.inj hdoc⟩
  have hafter : (s.write rename (.error cls) op).2 = { s' with doc := op.effect doc } := by
    subst hs'
    unfold OriginStore.write at hfails ⊢
    rw [href] at hfails ⊢
    dsimp only at hfails ⊢
    split_ifs at hfails ⊢ with hop
    · rfl
  rcases refresh_cases href with ⟨hsig, hmoves⟩ | ⟨hfile, hsig, hempty, hmoves⟩
  · -- the file is the one that the store knows, so nothing is read again
    have hsettled : (s.write rename (.error cls) op).2.Settled (op.effect doc) := by
      rw [hafter]
      exact .inl ⟨hsig, rfl⟩
    constructor
    · intro h
      have hread := h.reads _ (.refl _) rename
      rw [(hsettled.read rename).1] at hread
      exact .inl (Except.ok.inj hread)
    · rintro (heq | hm)
      · rw [heq] at hsettled
        exact hsettled.atomic
      · exact absurd hm hmoves
  · refine iff_of_true (Settled.atomic ?_) (.inr hmoves)
    rw [hafter]
    exact .inr ⟨hfile, hsig, hs' ▸ hempty⟩

/-- A store with an empty document, which it has read. -/
def fresh : OriginStore := ⟨some ⟨(1, 1, 80), .doc .empty⟩, some (1, 1, 80), .empty⟩

/-- **A phantom record.** The disk is full, and the user is not recorded in the file; reads return
the record all the same. -/
theorem phantom_record :
    ¬ fresh.Atomic true "OSError" (.setUser "bob" .iac) .empty := by
  intro h
  have hread := h.reads _ (.refl _) true
  have hphantom : ((fresh.write true (.error "OSError") (.setUser "bob" .iac)).2.read true).1 =
      .ok (Origins.empty.setUser "bob" .iac) := rfl
  rw [hphantom] at hread
  have hsame : Origins.empty.setUser "bob" .iac ≠ .empty := by decide
  exact hsame (Except.ok.inj hread)

/-- A record that is not there is dropped, and the disk is full. -/
theorem atomic_drop : fresh.Atomic true "OSError" (.dropUser "bob") .empty :=
  (atomic_iff true "OSError" (.dropUser "bob") fresh .empty rfl rfl).mpr (.inl (by decide))

end OriginStore

end HaAddons.Ntfy

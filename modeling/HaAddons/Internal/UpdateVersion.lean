import HaAddons.Lib.Rewriting

/-!
# Updating the version of an add-on

`update-version.py` writes a version into `config.yaml`, `build.yaml` and `README.md` of an add-on,
and tags the commit that holds it. An operator runs it, commits, and runs it again.

**Files** (`updateConfigYaml`, `updateBuildYaml`, `updateReadmeMd`). Each updater replaces the
versions that its pattern finds. It succeeds only if that changes the file.

**Tag** (`createAndPushTag`). It is made on `HEAD`, if no version file has uncommitted changes.

Main results:

* `main_truthful` — a tag is only made on a commit whose `config.yaml` has the tag's version.
* `release_flow_iff` — the second run reaches the tag exactly when no provider is bumped along, the
  release links are settled, and no branch has the tag's name.
-/

namespace HaAddons.Internal.UpdateVersion

open Lib.Py Lib.Rewriting

/-! ## Versions -/

section Readers

variable {stop : Char} (hs : stop = '\n' ∨ stop = '[')

theorem not_digit_stop (hs : stop = '\n' ∨ stop = '[') : stop.isDigit = false := by
  obtain rfl | rfl := hs <;> rfl

theorem not_mem_lit (hs : stop = '\n' ∨ stop = '[') {t : Text} (hn : '\n' ∉ t) (hb : '[' ∉ t) :
    stop ∉ t := by
  obtain rfl | rfl := hs
  · exact hn
  · exact hb

/-- `[0-9]+` -/
def digits : Reader stop := .run Char.isDigit (not_digit_stop hs)

def dot : Reader stop := .lit ['.'] (not_mem_lit hs (by decide) (by decide))

def dash : Reader stop := .lit ['-'] (not_mem_lit hs (by decide) (by decide))

/-- `[0-9]+\.[0-9]+\.[0-9]+` -/
def core : Reader stop :=
  (digits hs).seq ((dot hs).seq ((digits hs).seq ((dot hs).seq (digits hs))))

/-- `alpha|beta|rc` -/
def kind : Reader stop :=
  (Reader.lit ['a', 'l', 'p', 'h', 'a'] (not_mem_lit hs (by decide) (by decide))).alt
    ((Reader.lit ['b', 'e', 't', 'a'] (not_mem_lit hs (by decide) (by decide))).alt
      (.lit ['r', 'c'] (not_mem_lit hs (by decide) (by decide))))

/-- `(?:alpha|beta|rc)[0-9]+` -/
def pre : Reader stop := (kind hs).seq (digits hs)

/-- `(?:-(?:alpha|beta|rc)[0-9]+)?` behind a version, where the `-` is written as `dashes`. -/
def release (dashes : Reader stop) : Reader stop :=
  (core hs).seq ((dashes.seq (pre hs)).alt .skip)

/-- `-(?:(?:alpha|beta|rc)[0-9]+|[0-9]+)` behind a version. -/
def subpatched : Reader stop := (core hs).seq ((dash hs).seq ((pre hs).alt (digits hs)))

end Readers

theorem newline_or : '\n' = '\n' ∨ '\n' = '[' := .inl rfl

theorem bracket_or : '[' = '\n' ∨ '[' = '[' := .inr rfl

/-- `$`, which also holds in front of a last line break. -/
def atEnd (s : Text) : Bool := s = [] || s = ['\n']

def validateVersionFormat (version : Text) : Bool :=
  (((core newline_or).seq (((dash newline_or).seq ((pre newline_or).alt (digits newline_or))).alt
    .skip)).read version).any fun r => atEnd r.2

/-- A text before and behind its last `-`. -/
def splitDash (version : Text) : Option (Text × Text) :=
  if '-' ∈ version then
    some ((version.reverse.dropWhile (· ≠ '-')).tail.reverse,
      (version.reverse.takeWhile (· ≠ '-')).reverse)
  else none

/-- What stands behind the last `-`, up to the end, is read by `r`. -/
def endsWith (r : Reader '\n') (version : Text) : Bool :=
  (splitDash version).any fun v => (r.read v.2).any fun a => atEnd a.2

def isPrerelease (version : Text) : Bool := endsWith (pre newline_or) version

def hasSubpatch (version : Text) : Bool := endsWith (digits newline_or) version

def baseVersion (version : Text) : Text :=
  match splitDash version with
  | none => version
  | some v =>
    match (digits newline_or).read v.2 with
    | none => version
    | some a => if atEnd a.2 then v.1 ++ a.2 else version

/-- The version of `config.yaml`. -/
def configVersion (version : Text) : Text :=
  if isPrerelease version || hasSubpatch version then version else version ++ ['-', '0']

/-- The version of a badge, where `--` stands for `-`. -/
def badgeVersion (version : Text) : Text :=
  if isPrerelease version then version.flatMap fun c => if c = '-' then ['-', '-'] else [c]
  else version

/-! ## Patterns -/

def isQuote (c : Char) : Bool := c = '"' || c = '\''

/-- `^(\s*key\s*["'])(version)(["'].*?)$` -/
def lineOf (head : Char) (key : Text) (version : Reader '\n') (hkey : '\n' ∉ key)
    (hsolid : isSpace head = false) (hquote : isQuote head = false) : Pattern where
  head := head
  key := key
  anchored := true
  stop := '\n'
  lead := .char isQuote rfl
  version := version
  tail := .char isQuote rfl
  boundary := rfl
  key_upTo := hkey
  head_solid := hsolid
  lead_head t := by simp [Reader.char, hquote]
  lead_ne_nil := by
    intro s l r h
    cases s with
    | nil => cases h
    | cons c s =>
      simp only [Reader.char, List.head?_cons, Option.bind_some] at h
      split_ifs at h
      cases h
      simp
  lead_exact := by
    intro s l r h u
    cases s with
    | nil => cases h
    | cons c s =>
      simp only [Reader.char, List.head?_cons, Option.bind_some] at h
      split_ifs at h with hc
      cases h
      simp [Reader.char, hc]

def configPattern : Pattern :=
  lineOf 'v' ['e', 'r', 's', 'i', 'o', 'n', ':'] (subpatched newline_or) (by decide) rfl rfl

def buildPattern : Pattern :=
  lineOf 'V' ['E', 'R', 'S', 'I', 'O', 'N', ':'] (release newline_or (dash newline_or)) (by decide)
    rfl rfl

/-- `(\[name\]:\s*url)(version)(tail)` -/
def linkOf (name url : Text) (version tail : Reader '[') (hname : '[' ∉ name) (hurl : '[' ∉ url)
    (hne : url ≠ []) : Pattern where
  head := '['
  key := name ++ [']', ':']
  anchored := false
  stop := '['
  lead := .lit url hurl
  version := version
  tail := tail
  boundary := rfl
  key_upTo := by simp [hname]
  head_solid := rfl
  lead_head t := by
    have hnot : ¬ url <+: '[' :: t := by
      intro h
      obtain ⟨c, url, rfl⟩ := List.exists_cons_of_ne_nil hne
      obtain rfl := (List.cons_prefix_cons.mp h).1
      exact hurl List.mem_cons_self
    simp [Reader.lit, hnot]
  lead_ne_nil := by
    intro s l r h
    simp only [Reader.lit] at h
    split_ifs at h
    cases h
    exact hne
  lead_exact := by
    intro s l r h u
    simp only [Reader.lit] at h
    split_ifs at h
    cases h
    simp [Reader.lit]

section Links

variable (letters : Char → Bool)

/-- `\w`, given the letters and digits beyond ASCII. -/
def isWord (c : Char) : Bool := c.isAlphanum || c = '_' || (0x80 ≤ c.toNat && letters c)

theorem isWord_bracket : isWord letters '[' = false := rfl

/-- `-\w+\.svg` -/
def badgeTail : Reader '[' :=
  (dash bracket_or).seq ((Reader.run (isWord letters) (isWord_bracket letters)).seq
    (.lit ['.', 's', 'v', 'g'] (by decide)))

def shieldPattern : Pattern :=
  linkOf "release-shield".toList "https://img.shields.io/badge/version-v".toList
    (release bracket_or (.lit ['-', '-'] (by decide))) (badgeTail letters) (by decide) (by decide)
    (by decide)

end Links

def releasePattern : Pattern :=
  linkOf "release".toList "https://github.com/akentner/homeassistant-addons/tree/v".toList
    (release bracket_or (dash bracket_or)) .skip (by decide) (by decide) (by decide)

/-! ## Updating a file -/

/-- Whether an updater reports success, the version it reports, and what the file then holds. -/
structure Update where
  success : Bool
  version : Text
  content : Option Text

/-- What `text` becomes; it is a success if that is something else. -/
def Update.ofText (text new version : Text) : Update :=
  if new ≠ text then ⟨true, version, some new⟩ else ⟨false, version, some text⟩

/-- The updates of `config.yaml` and `build.yaml`. -/
def updateLine (p : Pattern) (version : Text) : Option Text → Update
  | none => ⟨false, [], none⟩
  | some text =>
    if (p.finditer text).isEmpty then ⟨false, [], some text⟩
    else .ofText text (p.rewrite version text) version

def updateConfigYaml (newVersion : Text) (content : Option Text) : Update :=
  updateLine configPattern (configVersion newVersion) content

def updateBuildYaml (newVersion : Text) (content : Option Text) : Update :=
  updateLine buildPattern (baseVersion newVersion) content

/-- The new `README.md`. -/
def rewriteReadme (letters : Char → Bool) (readmeVer text : Text) : Text :=
  releasePattern.rewrite readmeVer ((shieldPattern letters).rewrite (badgeVersion readmeVer) text)

def updateReadmeMd (letters : Char → Bool) (newVersion : Text) : Option Text → Update
  | none => ⟨false, [], none⟩
  | some text =>
    .ofText text (rewriteReadme letters (baseVersion newVersion) text) (baseVersion newVersion)

/-! ## The repository -/

/-- A directory and a file in it. -/
abbrev Path := String × String

/-- The files of a commit. -/
abbrev Commit := Path → Option Text

structure Repo where
  /-- The working tree. -/
  files : Path → Option Text
  head : Commit
  tags : String → Option Commit
  /-- The tags of `origin`. -/
  remoteTags : String → Option Commit
  /-- The names under `refs/remotes/origin`. -/
  tracking : String → Bool

/-- `git push origin <tag>` -/
def Repo.pushTag (r : Repo) (tag : String) : Repo :=
  { r with remoteTags := Function.update r.remoteTags tag (r.tags tag) }

/-- `git tag -a <tag>` on `HEAD`. -/
def Repo.createTag (r : Repo) (tag : String) : Repo :=
  { r with tags := Function.update r.tags tag (some r.head) }

/-- Every file operation succeeds, and every operation of git but one: it makes no tag with a line
break in its name. -/
def refusesTag (tag : String) : Bool := '\n' ∈ tag.toList

/-- `git status --porcelain` of the paths that exist. -/
def filesHaveUncommittedChanges (r : Repo) (paths : List Path) : Bool :=
  paths.any fun p => (r.files p).isSome && r.files p ≠ r.head p

def tagName (addonName : String) (version : Text) : String :=
  addonName ++ "/v" ++ String.ofList version

/-- The repository afterwards, and whether the tag is there. -/
def createAndPushTag (version : Text) (addonName : String) (push : Bool) (r : Repo) :
    Repo × Bool :=
  let tag := tagName addonName version
  let existingLocal := (r.tags tag).isSome
  let remoteExists := r.tracking tag || (r.remoteTags tag).isSome
  if existingLocal || remoteExists then
    (if push && existingLocal && !remoteExists then r.pushTag tag else r, true)
  else if refusesTag tag then (r, false)
  else
    let r := r.createTag tag
    (if push then r.pushTag tag else r, true)

/-! ## The run -/

structure Args where
  addonName : String
  newVersion : Text
  dryRun : Bool
  noTag : Bool
  noPush : Bool

section Run

variable (letters : Char → Bool)

def configPath (addonName : String) : Path := (addonName, "config.yaml")

def providerBuild : Path := ("terraform-provider-homeassistant", "build.yaml")

def versionFilePaths (addonName : String) : List Path :=
  [configPath addonName, (addonName, "build.yaml"), (addonName, "README.md")] ++
    if addonName = "terraform-bridge" then [providerBuild] else []

/-- The working tree after the updates of the add-on. -/
def editFiles (addonName : String) (newVersion : Text) (files : Path → Option Text) :
    Path → Option Text := fun p =>
  if p = configPath addonName then (updateConfigYaml newVersion (files p)).content
  else if p = (addonName, "build.yaml") then (updateBuildYaml newVersion (files p)).content
  else if p = (addonName, "README.md") then (updateReadmeMd letters newVersion (files p)).content
  else files p

/-- The provider's `build.yaml` is bumped with the bridge. -/
def bumpsProvider (addonName : String) (files : Path → Option Text) : Bool :=
  addonName = "terraform-bridge" && (files providerBuild).isSome

/-- The part of a run behind the updates; `version` is that of `config.yaml`. -/
def tagVersion (args : Args) (version : Text) (r : Repo) : Repo × ℕ :=
  if args.dryRun || args.noTag then (r, 0)
  else if filesHaveUncommittedChanges r (versionFilePaths args.addonName) then (r, 0)
  else
    let made := createAndPushTag version args.addonName (!args.noPush) r
    (made.1, if made.2 then 0 else 1)

/-- The repository after a run, and its exit code. -/
def main (args : Args) (r : Repo) : Repo × ℕ :=
  if !validateVersionFormat args.newVersion then (r, 1)
  else if (r.files (configPath args.addonName)).isNone then (r, 1)
  else
    let config := updateConfigYaml args.newVersion (r.files (configPath args.addonName))
    let edited := editFiles letters args.addonName args.newVersion r.files
    let r := if args.dryRun then r else { r with files := edited }
    if config.version = [] then (r, 1)
    else if bumpsProvider args.addonName r.files then
      let provider := updateBuildYaml args.newVersion (r.files providerBuild)
      let bumped := Function.update r.files providerBuild provider.content
      let r := if args.dryRun then r else { r with files := bumped }
      if provider.success then tagVersion args config.version r else (r, 1)
    else tagVersion args config.version r

end Run

/-! ## Reading versions -/

/-- No digit comes next. -/
def NoDigit (u : Text) : Prop := ∀ c ∈ u.head?, c.isDigit = false

section Reading

variable {stop : Char} {hs : stop = '\n' ∨ stop = '['} {s a t u : Text}

theorem noDigit_nil : NoDigit [] := by simp [NoDigit]

theorem noDigit_cons {c : Char} (h : c.isDigit = false) : NoDigit (c :: u) := by
  simpa [NoDigit] using h

theorem dot_noDigit {a t : Text} (h : (dot hs).read s = some (a, t)) (u : Text) :
    NoDigit (a ++ u) := by
  simp only [dot, Reader.lit] at h
  split_ifs at h
  cases h
  exact noDigit_cons rfl

theorem again_digits : (digits hs).Again NoDigit := Reader.again_run

theorem again_core : (core hs).Again NoDigit := by
  have hdot : (dot hs).Again fun _ => True := Reader.again_lit
  have hlast : ((dot hs).seq (digits hs)).Again NoDigit :=
    hdot.seq again_digits fun _ _ _ => trivial
  have hfirst : ∀ {r : Reader stop} {s a t : Text}, ((dot hs).seq r).read s = some (a, t) →
      ∀ u, NoDigit (a ++ u) := by
    intro r s a t h u
    obtain ⟨b, hb, h⟩ := Option.bind_eq_some_iff.mp h
    obtain ⟨c, -, h⟩ := Option.map_eq_some_iff.mp h
    cases h
    rw [List.append_assoc]
    exact dot_noDigit hb _
  have hmiddle : ((digits hs).seq ((dot hs).seq (digits hs))).Again NoDigit :=
    again_digits.seq hlast fun h u _ => hfirst h u
  have htail : ((dot hs).seq ((digits hs).seq ((dot hs).seq (digits hs)))).Again NoDigit :=
    hdot.seq hmiddle fun _ _ _ => trivial
  have hdigits : (digits hs).Again NoDigit := again_digits
  exact hdigits.seq htail fun h u _ => hfirst h u

theorem kind_cases (h : (kind hs).read s = some (a, t)) :
    a = ['a', 'l', 'p', 'h', 'a'] ∨ a = ['b', 'e', 't', 'a'] ∨ a = ['r', 'c'] := by
  have hlit : ∀ {l : Text} {hl : stop ∉ l}, (Reader.lit l hl).read s = some (a, t) → a = l := by
    intro l hl h
    simp only [Reader.lit] at h
    split_ifs at h
    cases h
    rfl
  cases Option.or_eq_some_iff.mp h with
  | inl h => exact .inl (hlit h)
  | inr h =>
    cases Option.or_eq_some_iff.mp h.2 with
    | inl h => exact .inr (.inl (hlit h))
    | inr h => exact .inr (.inr (hlit h.2))

theorem again_kind : (kind hs).Again fun _ => True := by
  intro s a t h u _
  obtain rfl | rfl | rfl := kind_cases h <;> simp [kind, Reader.alt, Reader.lit]

theorem again_pre : (pre hs).Again NoDigit := again_kind.seq again_digits fun _ _ _ => trivial

theorem noDigit_of_digits (h : (digits hs).read s = some (a, t)) : NoDigit t := by
  simp only [digits, Reader.run] at h
  split_ifs at h
  cases h
  intro c hc
  have hnot := List.head?_dropWhile_not Char.isDigit s
  rw [Option.mem_def.mp hc] at hnot
  simpa using hnot

/-- Readers that leave no digit at the head, after any other. -/
theorem noDigit_of_seq {r r' : Reader stop}
    (h : ∀ {s a t}, r'.read s = some (a, t) → NoDigit t)
    (hseq : (r.seq r').read s = some (a, t)) : NoDigit t := by
  obtain ⟨b, -, hseq⟩ := Option.bind_eq_some_iff.mp hseq
  obtain ⟨c, hc, hseq⟩ := Option.map_eq_some_iff.mp hseq
  cases hseq
  exact h hc

theorem noDigit_of_core (h : (core hs).read s = some (a, t)) : NoDigit t :=
  noDigit_of_seq (noDigit_of_seq (noDigit_of_seq (noDigit_of_seq noDigit_of_digits))) h

theorem noDigit_of_release {dashes : Reader stop}
    (h : (release hs dashes).read s = some (a, t)) : NoDigit t := by
  obtain ⟨b, hb, h⟩ := Option.bind_eq_some_iff.mp h
  obtain ⟨c, hc, h⟩ := Option.map_eq_some_iff.mp h
  cases h
  cases Option.or_eq_some_iff.mp hc with
  | inl hc => exact noDigit_of_seq (noDigit_of_seq noDigit_of_digits) hc
  | inr hc =>
    cases hc.2
    exact noDigit_of_core hb

/-- A pre-release begins with a letter, a subpatch with a digit. -/
theorem pre_of_digits (h : (digits hs).read s = some (a, t)) (u : Text) :
    (pre hs).read (a ++ u) = none := by
  simp only [digits, Reader.run] at h
  split_ifs at h with hne
  cases h
  obtain ⟨c, v, hv⟩ := List.exists_cons_of_ne_nil hne
  have hc : c.isDigit = true := List.mem_takeWhile_imp (hv ▸ List.mem_cons_self)
  have hletter : c ≠ 'a' ∧ c ≠ 'b' ∧ c ≠ 'r' := by
    refine ⟨?_, ?_, ?_⟩ <;>
    · rintro rfl
      cases hc
  rw [hv]
  simp [pre, kind, Reader.seq, Reader.alt, Reader.lit, hletter, eq_comm]

theorem digits_of_pre (h : (pre hs).read s = some (a, t)) (u : Text) :
    (digits hs).read (a ++ u) = none := by
  obtain ⟨b, hb, h⟩ := Option.bind_eq_some_iff.mp h
  obtain ⟨c, -, h⟩ := Option.map_eq_some_iff.mp h
  cases h
  obtain hk | hk | hk := kind_cases hb <;> simp [hk, digits, Reader.run]

theorem dash_of_core (h : (core hs).read s = some (a, t)) : '-' ∉ a := by
  have hdigits : (digits hs).Within (· ≠ '-') := Reader.within_run fun c hc he => by
    rw [he] at hc
    cases hc
  have hdot : (dot hs).Within (· ≠ '-') := Reader.within_lit (by simp)
  have hcore : (core hs).Within (· ≠ '-') :=
    hdigits.seq (hdot.seq (hdigits.seq (hdot.seq hdigits)))
  exact fun hm => hcore h '-' hm rfl

theorem dash_of_digits (h : (digits hs).read s = some (a, t)) : '-' ∉ a := by
  have hdigits : (digits hs).Within (· ≠ '-') := Reader.within_run fun c hc he => by
    rw [he] at hc
    cases hc
  exact fun hm => hdigits h '-' hm rfl

theorem dash_of_pre (h : (pre hs).read s = some (a, t)) : '-' ∉ a := by
  obtain ⟨b, hb, h⟩ := Option.bind_eq_some_iff.mp h
  obtain ⟨c, hc, h⟩ := Option.map_eq_some_iff.mp h
  cases h
  have hdigits := dash_of_digits hc
  obtain hk | hk | hk := kind_cases hb <;> simp [hk, hdigits]

end Reading

/-! ### The forms of a version -/

theorem splitDash_none {a : Text} (h : '-' ∉ a) : splitDash a = none := by
  simp [splitDash, h]

theorem splitDash_append (a : Text) {k : Text} (h : '-' ∉ k) :
    splitDash (a ++ '-' :: k) = some (a, k) := by
  have hall : ∀ c ∈ k.reverse, decide (c ≠ '-') = true := fun c hc =>
    decide_eq_true fun he => h (List.mem_reverse.mp (he ▸ hc))
  have hreverse : (a ++ '-' :: k).reverse = k.reverse ++ '-' :: a.reverse := by simp
  rw [splitDash, hreverse, List.takeWhile_append_of_pos hall, List.dropWhile_append_of_pos hall]
  simp

/-- A version `X.Y.Z`, with a subpatch or with a pre-release suffix. -/
inductive Form (v : Text) : Prop where
  | stable {s t : Text} (hcore : (core newline_or).read s = some (v, t))
  | sub {s t a n : Text} (hcore : (core newline_or).read s = some (a, t))
    (hdigits : (digits newline_or).read n = some (n, [])) (heq : v = a ++ '-' :: n)
  | pre {s t a k : Text} (hcore : (core newline_or).read s = some (a, t))
    (hpre : (pre newline_or).read k = some (k, [])) (heq : v = a ++ '-' :: k)

theorem form_of_validate {v : Text} (h : validateVersionFormat v = true) (hn : '\n' ∉ v) :
    Form v := by
  obtain ⟨r, hread, hend⟩ := (Option.any_eq_true _ _).mp h
  have hall := Reader.sound _ hread
  have hnil : r.2 = [] := by
    simp only [atEnd, Bool.or_eq_true, decide_eq_true_eq] at hend
    refine hend.resolve_right fun hnewline => hn ?_
    rw [← hall, hnewline]
    simp
  obtain ⟨a, ha, hread⟩ := Option.bind_eq_some_iff.mp hread
  obtain ⟨b, hb, rfl⟩ := Option.map_eq_some_iff.mp hread
  have hsound := (core newline_or).sound ha
  obtain ⟨s, t⟩ := b
  obtain rfl : t = [] := hnil
  cases Option.or_eq_some_iff.mp hb with
  | inl hb =>
    obtain ⟨c, hc, hb⟩ := Option.bind_eq_some_iff.mp hb
    obtain ⟨d, hd, hb⟩ := Option.map_eq_some_iff.mp hb
    obtain ⟨n, t⟩ := d
    cases hb
    have hdash := (dash newline_or).sound hc
    simp only [dash, Reader.lit] at hc
    split_ifs at hc
    cases hc
    have hn := ((pre newline_or).alt (digits newline_or)).sound hd
    simp only [List.append_nil] at hn
    rw [← hn] at hd hdash
    rw [← hdash] at hsound
    cases Option.or_eq_some_iff.mp hd with
    | inl hd => exact .pre ha hd hsound.symm
    | inr hd => exact .sub ha hd.2 hsound.symm
  | inr hb =>
    obtain ⟨u, w⟩ := a
    cases hb.2
    simp only [List.append_nil] at hsound
    rw [hsound] at ha
    exact .stable ha

section Forms

variable {v : Text}

theorem pre_nil_of_digits {n : Text} (h : (digits newline_or).read n = some (n, [])) :
    (pre newline_or).read n = none := by
  simpa using pre_of_digits h []

theorem digits_nil_of_pre {k : Text} (h : (pre newline_or).read k = some (k, [])) :
    (digits newline_or).read k = none := by
  simpa using digits_of_pre h []

/-- What is written for a version: into `config.yaml`, into `build.yaml`, and whether the latter is
a pre-release. -/
theorem written_of_form (h : Form v) : ∃ a s t, (core newline_or).read s = some (a, t) ∧
    ((∃ n, (digits newline_or).read n = some (n, []) ∧ configVersion v = a ++ '-' :: n ∧
      baseVersion v = a ∧ isPrerelease a = false) ∨
    ∃ k, (pre newline_or).read k = some (k, []) ∧ configVersion v = a ++ '-' :: k ∧
      baseVersion v = a ++ '-' :: k ∧ isPrerelease (a ++ '-' :: k) = true) := by
  cases h with
  | @stable s t hcore =>
    have hsplit := splitDash_none (dash_of_core hcore)
    refine ⟨v, s, t, hcore, .inl ⟨['0'], rfl, ?_, ?_, ?_⟩⟩
    · simp [configVersion, isPrerelease, hasSubpatch, endsWith, hsplit]
    · simp [baseVersion, hsplit]
    · simp [isPrerelease, endsWith, hsplit]
  | @sub s t a n hcore hdigits heq =>
    have hsplit : splitDash v = some (a, n) := heq ▸ splitDash_append a (dash_of_digits hdigits)
    have hstable := splitDash_none (dash_of_core hcore)
    refine ⟨a, s, t, hcore, .inl ⟨n, hdigits, ?_, ?_, ?_⟩⟩
    · rw [← heq]
      simp [configVersion, hasSubpatch, endsWith, hsplit, hdigits, atEnd]
    · simp [baseVersion, hsplit, hdigits, atEnd]
    · simp [isPrerelease, endsWith, hstable]
  | @pre s t a k hcore hpre heq =>
    have hsplit : splitDash v = some (a, k) := heq ▸ splitDash_append a (dash_of_pre hpre)
    have hprerelease : isPrerelease v = true := by
      simp [isPrerelease, endsWith, hsplit, hpre, atEnd]
    refine ⟨a, s, t, hcore, .inr ⟨k, hpre, ?_, ?_, heq ▸ hprerelease⟩⟩
    · rw [← heq]
      simp [configVersion, hprerelease]
    · rw [← heq]
      simp [baseVersion, hsplit, digits_nil_of_pre hpre]

section Written

variable {stop : Char} {hs : stop = '\n' ∨ stop = '['} {a k n s t u : Text}

theorem read_core (h : (core newline_or).read s = some (a, t)) (hu : NoDigit u) :
    (core hs).read (a ++ u) = some (a, u) := @again_core '\n' newline_or s a t h u hu

theorem read_pre (h : (pre newline_or).read k = some (k, [])) (hu : NoDigit u) :
    (pre hs).read (k ++ u) = some (k, u) := @again_pre '\n' newline_or k k [] h u hu

/-- A pre-release behind dashes. -/
theorem read_release {d : Text} {hd : stop ∉ '-' :: d}
    (h : (core newline_or).read s = some (a, t)) (hk : (pre newline_or).read k = some (k, []))
    (hu : NoDigit u) : (release hs (.lit ('-' :: d) hd)).read (a ++ ('-' :: d ++ k) ++ u) =
      some (a ++ ('-' :: d ++ k), u) := by
  have hdash : (Reader.lit ('-' :: d) hd).read ('-' :: d ++ (k ++ u)) =
      some ('-' :: d, k ++ u) := by
    simp [Reader.lit]
  have hnext : NoDigit ('-' :: d ++ (k ++ u)) := noDigit_cons rfl
  simp only [release, Reader.seq, Reader.alt]
  rw [List.append_assoc, List.append_assoc, read_core h hnext, Option.bind_some, hdash,
    Option.bind_some, read_pre hk hu]
  rfl

/-- Nothing, or what the reader of the suffix takes, behind a stable version. -/
theorem read_stable {dashes : Reader stop} (h : (core newline_or).read s = some (a, t))
    (hu : NoDigit u) : (release hs dashes).read (a ++ u) =
      (((dashes.seq (pre hs)).read u).or (some ([], u))).map fun b => (a ++ b.1, b.2) := by
  simp only [release, Reader.seq, Reader.alt, Reader.skip]
  rw [read_core h hu]
  rfl

theorem read_subpatched (h : (core newline_or).read s = some (a, t)) (hu : NoDigit u)
    (hk : (digits newline_or).read k = some (k, []) ∨ (pre newline_or).read k = some (k, [])) :
    (subpatched newline_or).read (a ++ '-' :: k ++ u) = some (a ++ '-' :: k, u) := by
  have hdash : (dash newline_or).read ('-' :: (k ++ u)) = some (['-'], k ++ u) := by
    simp [dash, Reader.lit]
  have hread : ((pre newline_or).alt (digits newline_or)).read (k ++ u) = some (k, u) := by
    cases hk with
    | inl hk =>
      have hdigits : (digits newline_or).read (k ++ u) = some (k, u) := again_digits hk u hu
      simp only [Reader.alt]
      rw [pre_of_digits hk u, Option.none_or, hdigits]
    | inr hk =>
      have hpre : (pre newline_or).read (k ++ u) = some (k, u) := read_pre hk hu
      simp only [Reader.alt]
      rw [hpre, Option.some_or]
  simp only [subpatched, Reader.seq]
  rw [List.append_assoc, List.cons_append, read_core h (noDigit_cons rfl), Option.bind_some, hdash,
    Option.bind_some, hread]
  simp

end Written

end Forms

/-! ## Versions in place -/

theorem noDigit_of_quote {u : Text} (h : ((Reader.char isQuote rfl : Reader '\n').read u).isSome) :
    NoDigit u ∧ ∀ r : Text, u ≠ '-' :: r := by
  cases u with
  | nil => cases h
  | cons c u =>
    have hc : isQuote c = true := by
      by_contra hc
      simp [Reader.char, hc] at h
    simp only [isQuote, Bool.or_eq_true, decide_eq_true_eq] at hc
    constructor
    · obtain rfl | rfl := hc <;> exact noDigit_cons rfl
    · rintro r heq
      obtain rfl := (List.cons.inj heq).1
      simp at hc

section Fits

variable {v : Text}

/-- The characters of a version. -/
def isPlain (c : Char) : Bool :=
  c.isDigit || ['.', '-', 'a', 'l', 'p', 'h', 'b', 'e', 't', 'r', 'c'].contains c

theorem plain_of_form (h : Form v) : ∀ c ∈ configVersion v ++ baseVersion v, isPlain c = true := by
  have hdigits : (digits newline_or).Within (isPlain · = true) :=
    Reader.within_run fun c hc => by simp [isPlain, hc]
  have hdot : (dot newline_or).Within (isPlain · = true) := Reader.within_lit (by simp [isPlain])
  have hkind : (kind newline_or).Within (isPlain · = true) :=
    (Reader.within_lit (by simp [isPlain])).alt
      ((Reader.within_lit (by simp [isPlain])).alt (Reader.within_lit (by simp [isPlain])))
  have hcore : (core newline_or).Within (isPlain · = true) :=
    hdigits.seq (hdot.seq (hdigits.seq (hdot.seq hdigits)))
  have hpre : (pre newline_or).Within (isPlain · = true) := hkind.seq hdigits
  have hdash : isPlain '-' = true := rfl
  obtain ⟨a, s, t, ha, hform⟩ := written_of_form h
  intro c hc
  obtain ⟨n, hn, hconfig, hbase, -⟩ | ⟨k, hk, hconfig, hbase, -⟩ := hform
  · simp only [hconfig, hbase, List.mem_append, List.mem_cons] at hc
    obtain (hc | rfl | hc) | hc := hc
    · exact hcore ha c hc
    · exact hdash
    · exact hdigits hn c hc
    · exact hcore ha c hc
  · simp only [hconfig, hbase, List.mem_append, List.mem_cons] at hc
    obtain (hc | rfl | hc) | (hc | rfl | hc) := hc
    · exact hcore ha c hc
    · exact hdash
    · exact hpre hk c hc
    · exact hcore ha c hc
    · exact hdash
    · exact hpre hk c hc

theorem not_mem_config (h : Form v) {c : Char} (hc : isPlain c = false) : c ∉ configVersion v :=
  fun hm => by
    rw [plain_of_form h c (List.mem_append_left _ hm)] at hc
    cases hc

theorem not_mem_base (h : Form v) {c : Char} (hc : isPlain c = false) : c ∉ baseVersion v :=
  fun hm => by
    rw [plain_of_form h c (List.mem_append_right _ hm)] at hc
    cases hc

theorem dashes_none {stop : Char} {d r : Text} {hd : stop ∉ '-' :: d} {q : Reader stop}
    (h : ¬ '-' :: d <+: r) : ((Reader.lit ('-' :: d) hd).seq q).read r = none := by
  simp [Reader.seq, Reader.lit, h]

/-- The version of `config.yaml` is read again. -/
def configFits (h : Form v) : configPattern.Fits (configVersion v) where
  extra _ := []
  upTo := not_mem_config h rfl
  reread := by
    intro w r _ htail
    obtain ⟨hdigit, -⟩ := noDigit_of_quote htail
    obtain ⟨a, s, t, hcore, hform⟩ := written_of_form h
    refine ⟨r, rfl, ?_, htail⟩
    rw [List.append_nil]
    obtain ⟨n, hn, heq, -, -⟩ | ⟨k, hk, heq, -, -⟩ := hform
    · rw [heq]
      exact read_subpatched hcore hdigit (.inl hn)
    · rw [heq]
      exact read_subpatched hcore hdigit (.inr hk)

/-- The version of `build.yaml` is read again. -/
def buildFits (h : Form v) : buildPattern.Fits (baseVersion v) where
  extra _ := []
  upTo := not_mem_base h rfl
  reread := by
    intro w r _ htail
    obtain ⟨hdigit, hdash⟩ := noDigit_of_quote htail
    obtain ⟨a, s, t, hcore, hform⟩ := written_of_form h
    refine ⟨r, rfl, ?_, htail⟩
    rw [List.append_nil]
    obtain ⟨n, -, -, heq, -⟩ | ⟨k, hk, -, heq, -⟩ := hform
    · have hnone : ((dash newline_or).seq (pre newline_or)).read r = none := by
        refine dashes_none fun hp => ?_
        obtain ⟨u, rfl⟩ := hp
        exact hdash u rfl
      have hread := @read_stable '\n' newline_or a s t r (dash newline_or) hcore hdigit
      rw [hnone, Option.none_or, Option.map_some, List.append_nil] at hread
      rw [heq]
      exact hread
    · rw [heq]
      exact read_release (d := []) hcore hk hdigit

theorem noDigit_of_badgeTail {letters : Char → Bool} {r : Text}
    (h : ((badgeTail letters).read r).isSome) : NoDigit r ∧ ¬ ['-', '-'] <+: r := by
  obtain ⟨a, ha⟩ := Option.isSome_iff_exists.mp h
  obtain ⟨b, hb, ha⟩ := Option.bind_eq_some_iff.mp ha
  obtain ⟨c, hc, -⟩ := Option.map_eq_some_iff.mp ha
  obtain ⟨d, hd, -⟩ := Option.bind_eq_some_iff.mp hc
  have hsound := (dash bracket_or).sound hb
  simp only [dash, Reader.lit] at hb
  split_ifs at hb
  cases hb
  rw [← hsound]
  refine ⟨noDigit_cons rfl, fun hp => ?_⟩
  simp only [Reader.run] at hd
  split_ifs at hd with hne
  obtain ⟨u, hu⟩ := hp
  have hrest : '-' :: u = r.drop 1 := (List.cons.inj hu).2
  have hword : isWord letters '-' = false := rfl
  apply hne
  show (r.drop 1).takeWhile (isWord letters) = []
  rw [← hrest]
  simp [hword]

theorem badge_eq (h : Form v) : ∃ a s t, (core newline_or).read s = some (a, t) ∧
    (badgeVersion (baseVersion v) = a ∨ ∃ k, (pre newline_or).read k = some (k, []) ∧
      badgeVersion (baseVersion v) = a ++ ('-' :: ['-'] ++ k)) := by
  obtain ⟨a, s, t, hcore, hform⟩ := written_of_form h
  refine ⟨a, s, t, hcore, ?_⟩
  have hcopy : ∀ {u : Text}, '-' ∉ u →
      (u.flatMap fun c => if c = '-' then ['-', '-'] else [c]) = u := by
    intro u hu
    induction u with
    | nil => rfl
    | cons c u ih =>
      have hc : c ≠ '-' := fun he => hu (he ▸ List.mem_cons_self)
      rw [List.flatMap_cons, if_neg hc, ih fun hm => hu (List.mem_cons_of_mem c hm)]
      rfl
  obtain ⟨n, -, -, heq, hstable⟩ | ⟨k, hk, -, heq, hpre⟩ := hform
  · exact .inl (by simp [heq, badgeVersion, hstable])
  · refine .inr ⟨k, hk, ?_⟩
    rw [heq, badgeVersion, if_pos hpre, List.flatMap_append, List.flatMap_cons,
      hcopy (dash_of_core hcore), hcopy (dash_of_pre hk)]
    rfl

/-- The version of a badge is read again. -/
def shieldFits (letters : Char → Bool) (h : Form v) :
    (shieldPattern letters).Fits (badgeVersion (baseVersion v)) where
  extra _ := []
  upTo := by
    have hbase : '[' ∉ baseVersion v := not_mem_base h rfl
    show '[' ∉ _
    intro hm
    unfold badgeVersion at hm
    split_ifs at hm
    · obtain ⟨c, hc, hm⟩ := List.mem_flatMap.mp hm
      split_ifs at hm
      · simp at hm
      · rw [List.mem_singleton] at hm
        exact hbase (hm ▸ hc)
    · exact hbase hm
  reread := by
    intro w r _ htail
    refine ⟨r, rfl, ?_, htail⟩
    obtain ⟨hdigit, hdash⟩ := noDigit_of_badgeTail htail
    obtain ⟨a, s, t, hcore, hform⟩ := badge_eq h
    rw [List.append_nil]
    cases hform with
    | inl heq =>
      have hread := @read_stable '[' bracket_or a s t r (.lit ['-', '-'] (by decide)) hcore hdigit
      rw [dashes_none hdash, Option.none_or, Option.map_some, List.append_nil] at hread
      rw [heq]
      exact hread
    | inr hform =>
      obtain ⟨k, hk, heq⟩ := hform
      rw [heq]
      exact read_release hcore hk hdigit

/-- The pre-release suffix at the head of a text. -/
def suffix (rest : Text) : Text :=
  (((dash bracket_or).seq (pre bracket_or)).read rest).elim [] Prod.fst

/-- The version of a release link is read again, with a pre-release suffix that follows it. -/
def releaseFits (h : Form v) : releasePattern.Fits (baseVersion v) where
  extra r := if isPrerelease (baseVersion v) then [] else suffix r
  upTo := not_mem_base h rfl
  reread := by
    intro w r hw _
    have hdigit : NoDigit r := noDigit_of_release hw
    obtain ⟨a, s, t, hcore, hform⟩ := written_of_form h
    obtain ⟨n, -, -, heq, hstable⟩ | ⟨k, hk, -, heq, hpre⟩ := hform
    · have hread := @read_stable '[' bracket_or a s t r (dash bracket_or) hcore hdigit
      rw [heq, hstable]
      unfold suffix
      cases hsuffix : ((dash bracket_or).seq (pre bracket_or)).read r with
      | none =>
        rw [hsuffix] at hread
        exact ⟨r, rfl, hread, rfl⟩
      | some b =>
        rw [hsuffix] at hread
        exact ⟨b.2, (Reader.sound _ hsuffix).symm, hread, rfl⟩
    · rw [heq, hpre]
      refine ⟨r, rfl, ?_, rfl⟩
      simp only [if_true, List.append_nil]
      exact read_release (d := []) hcore hk hdigit

end Fits

/-! ## Updating twice -/

section Twice

variable {p : Pattern} {v version text : Text} {c : Option Text}

@[simp] theorem content_ofText (new : Text) :
    (Update.ofText text new version).content = some new := by
  unfold Update.ofText
  split_ifs with h
  · rfl
  · rw [not_not.mp h]

theorem content_updateLine : (updateLine p version c).content = c.map (p.rewrite version) := by
  cases c with
  | none => rfl
  | some text =>
    unfold updateLine
    simp only [List.isEmpty_iff]
    split_ifs with h
    · exact congrArg some (Pattern.rewriteFrom_of_nil true text h).symm
    · exact content_ofText _

theorem success_updateLine : (updateLine p version (some text)).success = true ↔
    p.finditer text ≠ [] ∧ p.rewrite version text ≠ text := by
  simp only [updateLine, Update.ofText, List.isEmpty_iff]
  split_ifs <;> simp [*]

theorem rewrite_rewrite (fits : p.Fits version) (h : ∀ r, fits.extra r = []) (text : Text) :
    p.rewrite version (p.rewrite version text) = p.rewrite version text :=
  (Pattern.rewriteFrom_rewriteFrom_iff fits true text).mpr fun f _ => h f.rest

/-- The second update of a file is no success. -/
theorem success_again (fits : p.Fits version) (h : ∀ r, fits.extra r = []) (c : Option Text) :
    (updateLine p version (updateLine p version c).content).success = false := by
  rw [content_updateLine]
  cases c with
  | none => rfl
  | some text =>
    rw [Bool.eq_false_iff, Option.map_some, Ne, success_updateLine]
    exact fun hs => hs.2 (rewrite_rewrite fits h text)

theorem content_again (fits : p.Fits version) (h : ∀ r, fits.extra r = []) (c : Option Text) :
    (updateLine p version (updateLine p version c).content).content =
      (updateLine p version c).content := by
  rw [content_updateLine, content_updateLine, Option.map_map]
  cases c with
  | none => rfl
  | some text => exact congrArg some (rewrite_rewrite fits h text)

theorem content_updateReadmeMd (letters : Char → Bool) : (updateReadmeMd letters v c).content =
    c.map (rewriteReadme letters (baseVersion v)) := by
  cases c with
  | none => rfl
  | some text => exact content_ofText _

theorem apart_links (letters : Char → Bool) : releasePattern.Apart (shieldPattern letters) where
  left := rfl
  right := rfl
  head := rfl
  keys s := by
    intro h h'
    have hone : ("release".toList ++ [']', ':']).take 8 = s.take 8 := by
      obtain ⟨u, rfl⟩ := h
      rfl
    have htwo : ("release-shield".toList ++ [']', ':']).take 8 = s.take 8 := by
      obtain ⟨u, rfl⟩ := h'
      rfl
    exact absurd (hone.trans htwo.symm) (by decide)

/-- The release links of a `README.md` are followed by no pre-release suffix, or the new version has
one itself. -/
def Settled (newVersion : Text) (readme : Option Text) : Prop :=
  isPrerelease (baseVersion newVersion) = true ∨
    ∀ text ∈ readme, ∀ f ∈ releasePattern.finditer text, suffix f.rest = []

theorem rewriteReadme_again_iff (letters : Char → Bool) (h : Form v) (text : Text) :
    rewriteReadme letters (baseVersion v) (rewriteReadme letters (baseVersion v) text) =
      rewriteReadme letters (baseVersion v) text ↔ Settled v (some text) := by
  have hswap : ∀ t, releasePattern.rewrite (baseVersion v)
      ((shieldPattern letters).rewrite (badgeVersion (baseVersion v)) t) =
      (shieldPattern letters).rewrite (badgeVersion (baseVersion v))
        (releasePattern.rewrite (baseVersion v) t) :=
    Pattern.rewriteFrom_comm (apart_links letters) (releaseFits h).upTo (shieldFits letters h).upTo
  have hshield := rewrite_rewrite (shieldFits letters h) (fun _ => rfl) text
  have hlocal : ∀ r y : Text, '[' ∉ r → AtStop '[' y → suffix (r ++ y) = suffix r := by
    intro r y hr hy
    unfold suffix
    rw [Reader.upTo _ hr hy]
    cases ((dash bracket_or).seq (pre bracket_or)).read r <;> rfl
  have hsame := Pattern.rest_finditerFrom (apart_links letters) (shieldFits letters h).upTo hlocal
    text
  have hiff := Pattern.rewriteFrom_rewriteFrom_iff (releaseFits h) true
    ((shieldPattern letters).rewrite (badgeVersion (baseVersion v)) text)
  unfold rewriteReadme
  rw [← hswap, hshield]
  refine hiff.trans ?_
  by_cases hpre : isPrerelease (baseVersion v) = true
  · simp [Settled, releaseFits, hpre]
  · have hmap := List.forall_mem_map (l := releasePattern.finditerFrom 0 true
      ((shieldPattern letters).rewriteFrom (badgeVersion (baseVersion v)) 0 true text))
      (f := fun f => suffix f.rest) (P := (· = []))
    rw [hsame, List.forall_mem_map] at hmap
    have hsettled : Settled v (some text) ↔
        ∀ f ∈ releasePattern.finditer text, suffix f.rest = [] := by simp [Settled, hpre]
    rw [hsettled]
    simp only [releaseFits, hpre]
    exact hmap.symm

end Twice

/-! ## Tags -/

/-- All version lines of a `config.yaml` have the version. -/
def Carries (version : Text) (config : Option Text) : Prop :=
  ∃ text, config = some text ∧ configPattern.finditer text ≠ [] ∧
    ∀ f ∈ configPattern.finditer text, f.version = version

theorem carries_updateConfigYaml {v : Text} (h : Form v) {text : Text}
    (hm : configPattern.finditer text ≠ []) :
    Carries (configVersion v) (updateConfigYaml v (some text)).content := by
  have hversions : (configPattern.finditer (configPattern.rewrite (configVersion v) text)).map
      Found.version = (configPattern.finditer text).map fun _ => configVersion v ++ [] :=
    Pattern.version_finditerFrom (configFits h) true text
  refine ⟨configPattern.rewrite (configVersion v) text, content_updateLine, ?_, ?_⟩
  · intro hnil
    rw [hnil, List.map_nil] at hversions
    exact hm (List.map_eq_nil_iff.mp hversions.symm)
  · intro f hf
    have hmem := List.mem_map_of_mem (f := Found.version) hf
    rw [hversions] at hmem
    obtain ⟨_, -, heq⟩ := List.mem_map.mp hmem
    rw [← heq, List.append_nil]

section Tags

variable {r : Repo} {addonName tag : String} {version : Text} {push : Bool}

/-- A tag that was not there before. -/
theorem tags_createAndPushTag (tag : String) :
    (createAndPushTag version addonName push r).1.tags tag = r.tags tag ∨
      (tag = tagName addonName version ∧ refusesTag tag = false ∧ r.tracking tag = false ∧
        (createAndPushTag version addonName push r).1.tags tag = some r.head) := by
  unfold createAndPushTag
  simp only
  split_ifs with hexists hpush hrefuses hpush
  · exact .inl rfl
  · exact .inl rfl
  · exact .inl rfl
  · by_cases htag : tag = tagName addonName version
    · subst htag
      simp only [Bool.or_eq_true, not_or, Bool.not_eq_true] at hexists hrefuses
      refine .inr ⟨rfl, hrefuses, hexists.2.1, ?_⟩
      simp [Repo.pushTag, Repo.createTag]
    · exact .inl (by simp [Repo.pushTag, Repo.createTag, htag])
  · by_cases htag : tag = tagName addonName version
    · subst htag
      simp only [Bool.or_eq_true, not_or, Bool.not_eq_true] at hexists hrefuses
      refine .inr ⟨rfl, hrefuses, hexists.2.1, ?_⟩
      simp [Repo.createTag]
    · exact .inl (by simp [Repo.createTag, htag])

theorem files_createAndPushTag : (createAndPushTag version addonName push r).1.files = r.files ∧
    (createAndPushTag version addonName push r).1.head = r.head ∧
    (createAndPushTag version addonName push r).1.tracking = r.tracking := by
  unfold createAndPushTag
  simp only
  split_ifs <;> exact ⟨rfl, rfl, rfl⟩

/-- A new tag is made and pushed. -/
theorem createAndPushTag_new (hlocal : r.tags (tagName addonName version) = none)
    (hremote : r.remoteTags (tagName addonName version) = none)
    (htracking : r.tracking (tagName addonName version) = false)
    (hrefuses : refusesTag (tagName addonName version) = false) :
    (createAndPushTag version addonName true r).1.tags (tagName addonName version) = some r.head ∧
      (createAndPushTag version addonName true r).1.remoteTags (tagName addonName version) =
        some r.head := by
  simp [createAndPushTag, hlocal, hremote, htracking, hrefuses, Repo.pushTag, Repo.createTag]

/-- A tag that is on origin stays as it is. -/
theorem createAndPushTag_old (hremote : (r.remoteTags (tagName addonName version)).isSome) :
    (createAndPushTag version addonName push r).1 = r := by
  simp [createAndPushTag, hremote]

end Tags

/-! ## Runs -/

section Runs

variable {letters : Char → Bool} {r : Repo} {args : Args} {version : Text}

theorem tagVersion_files : (tagVersion args version r).1.files = r.files ∧
    (tagVersion args version r).1.head = r.head ∧
    (tagVersion args version r).1.tracking = r.tracking := by
  unfold tagVersion
  split_ifs
  · exact ⟨rfl, rfl, rfl⟩
  · exact ⟨rfl, rfl, rfl⟩
  · exact files_createAndPushTag

theorem tagVersion_tags (tag : String) : (tagVersion args version r).1.tags tag = r.tags tag ∨
    (tag = tagName args.addonName version ∧ refusesTag tag = false ∧ r.tracking tag = false ∧
      filesHaveUncommittedChanges r (versionFilePaths args.addonName) = false ∧
      args.dryRun = false ∧ (tagVersion args version r).1.tags tag = some r.head) := by
  unfold tagVersion
  split_ifs with hdry hdirty
  · exact .inl rfl
  · exact .inl rfl
  · simp only [Bool.or_eq_true, not_or, Bool.not_eq_true] at hdry hdirty
    obtain h | ⟨htag, hrefuses, htracking, h⟩ :=
      @tags_createAndPushTag r args.addonName version (!args.noPush) tag
    · exact .inl h
    · exact .inr ⟨htag, hrefuses, htracking, hdirty, hdry.1, h⟩

/-- A file that exists and is committed. -/
theorem committed_of_clean {paths : List Path} (h : filesHaveUncommittedChanges r paths = false)
    {p : Path} (hp : p ∈ paths) (hsome : (r.files p).isSome) : r.files p = r.head p := by
  by_contra hne
  rw [filesHaveUncommittedChanges, List.any_eq_false] at h
  exact h p hp (by simp [hsome, hne])

/-- The working tree after a run that does not stop early. -/
def worked (letters : Char → Bool) (addonName : String) (v : Text) (files : Path → Option Text) :
    Path → Option Text := fun p =>
  if bumpsProvider addonName files ∧ p = providerBuild then (updateBuildYaml v (files p)).content
  else editFiles letters addonName v files p

theorem editFiles_provider {files : Path → Option Text} (v : Text) :
    editFiles letters "terraform-bridge" v files providerBuild = files providerBuild := by
  simp [editFiles, configPath, providerBuild]

theorem version_updateLine {p : Pattern} {v : Text} {c : Option Text}
    (h : (updateLine p v c).version ≠ []) :
    ∃ text, c = some text ∧ p.finditer text ≠ [] ∧ (updateLine p v c).version = v := by
  cases c with
  | none => exact absurd rfl h
  | some text =>
    refine ⟨text, rfl, ?_⟩
    simp only [updateLine, Update.ofText, List.isEmpty_iff] at h ⊢
    split_ifs at h ⊢ with hnil
    · exact absurd rfl h
    · exact ⟨hnil, rfl⟩
    · exact ⟨hnil, rfl⟩

theorem version_updateConfigYaml {v : Text} {c : Option Text}
    (h : (updateConfigYaml v c).version ≠ []) : ∃ text, c = some text ∧
      configPattern.finditer text ≠ [] ∧ (updateConfigYaml v c).version = configVersion v :=
  version_updateLine h

theorem newline_of_refuses {addonName : String} {v : Text}
    (h : refusesTag (tagName addonName (configVersion v)) = false) : '\n' ∉ v := by
  intro hm
  have hconfig : '\n' ∈ configVersion v := by
    unfold configVersion
    split_ifs
    · exact hm
    · exact List.mem_append_left _ hm
  simp [refusesTag, tagName, hconfig] at h

theorem main_dryRun (h : args.dryRun = true) : (main letters args r).1 = r := by
  have htag : ∀ version, tagVersion args version r = (r, 0) := fun version => by
    simp [tagVersion, h]
  unfold main
  simp only [h, if_true, htag]
  split_ifs <;> rfl

/-- The repository in which a run comes to its tag. -/
def atTag (letters : Char → Bool) (addonName : String) (v : Text) (r : Repo) : Repo :=
  { r with files := worked letters addonName v r.files }

/-- A run that edits, and stops in front of the tag or not. -/
theorem main_edits (hdry : args.dryRun = false)
    (hvalid : validateVersionFormat args.newVersion = true)
    (hconfig : (updateConfigYaml args.newVersion
      (r.files (configPath args.addonName))).version ≠ []) :
    (main letters args r).1 = if bumpsProvider args.addonName r.files ∧
        (updateBuildYaml args.newVersion (r.files providerBuild)).success = false then
      atTag letters args.addonName args.newVersion r
    else
      (tagVersion args
        (updateConfigYaml args.newVersion (r.files (configPath args.addonName))).version
        (atTag letters args.addonName args.newVersion r)).1 := by
  obtain ⟨text, htext, -, -⟩ := version_updateLine hconfig
  have hsome : (r.files (configPath args.addonName)).isNone = false := by simp [htext]
  by_cases hbumps : bumpsProvider args.addonName r.files = true
  · have hname : args.addonName = "terraform-bridge" := by
      simp only [bumpsProvider, Bool.and_eq_true, decide_eq_true_eq] at hbumps
      exact hbumps.1
    have hprovider : editFiles letters args.addonName args.newVersion r.files providerBuild =
        r.files providerBuild := hname ▸ editFiles_provider args.newVersion
    have hbumps' : bumpsProvider args.addonName
        (editFiles letters args.addonName args.newVersion r.files) = true := by
      simpa only [bumpsProvider, hprovider] using hbumps
    have hworked : Function.update (editFiles letters args.addonName args.newVersion r.files)
        providerBuild (updateBuildYaml args.newVersion (r.files providerBuild)).content =
        worked letters args.addonName args.newVersion r.files := by
      funext p
      by_cases hp : p = providerBuild
      · simp [worked, hp, hbumps]
      · simp [worked, hp]
    unfold main
    simp only [hdry, hvalid, hsome, hconfig, hbumps, hbumps', hprovider, hworked, Bool.not_true,
      Bool.false_eq_true, if_false, if_true, true_and]
    cases (updateBuildYaml args.newVersion (r.files providerBuild)).success <;> rfl
  · have hbumps' : ¬ bumpsProvider args.addonName
        (editFiles letters args.addonName args.newVersion r.files) = true := by
      intro h
      apply hbumps
      simp only [bumpsProvider, Bool.and_eq_true, decide_eq_true_eq] at h ⊢
      refine ⟨h.1, ?_⟩
      rw [h.1, editFiles_provider] at h
      exact h.2
    have hworked : worked letters args.addonName args.newVersion r.files =
        editFiles letters args.addonName args.newVersion r.files := by
      funext p
      simp [worked, hbumps]
    unfold main atTag
    simp only [hdry, hvalid, hsome, hconfig, hbumps, hbumps', hworked, Bool.not_true,
      Bool.false_eq_true, if_false, false_and]

theorem main_stops (h : ¬ (validateVersionFormat args.newVersion = true ∧
    (updateConfigYaml args.newVersion (r.files (configPath args.addonName))).version ≠ [])) :
    (main letters args r).1.tags = r.tags ∧ (main letters args r).1.tracking = r.tracking := by
  unfold main
  simp only [Bool.not_eq_true']
  by_cases hvalid : validateVersionFormat args.newVersion = false
  · rw [if_pos hvalid]
    exact ⟨rfl, rfl⟩
  by_cases hnone : (r.files (configPath args.addonName)).isNone = true
  · rw [if_neg hvalid, if_pos hnone]
    exact ⟨rfl, rfl⟩
  have hconfig : (updateConfigYaml args.newVersion (r.files (configPath args.addonName))).version =
      [] := by
    by_contra hne
    exact h ⟨by simpa using hvalid, hne⟩
  rw [if_neg hvalid, if_neg hnone, if_pos hconfig]
  split_ifs <;> exact ⟨rfl, rfl⟩

theorem main_tracking (letters : Char → Bool) (args : Args) (r : Repo) :
    (main letters args r).1.tracking = r.tracking := by
  by_cases hdry : args.dryRun = true
  · rw [main_dryRun hdry]
  by_cases hgoes : validateVersionFormat args.newVersion = true ∧
      (updateConfigYaml args.newVersion (r.files (configPath args.addonName))).version ≠ []
  swap
  · exact (main_stops hgoes).2
  rw [main_edits (by simpa using hdry) hgoes.1 hgoes.2]
  split_ifs
  · rfl
  · exact tagVersion_files.2.2

theorem worked_config (addonName : String) (v : Text) (files : Path → Option Text) :
    worked letters addonName v files (configPath addonName) =
      (updateConfigYaml v (files (configPath addonName))).content := by
  have hne : configPath addonName ≠ providerBuild := by simp [configPath, providerBuild]
  simp [worked, hne, editFiles]

/-- Every tag that a run makes is made on a commit whose `config.yaml` has the version of the tag's
name. -/
def Truthful (letters : Char → Bool) : Prop :=
  ∀ (args : Args) (r : Repo) (tag : String), (main letters args r).1.tags tag = r.tags tag ∨
    ((main letters args r).1.tags tag = some r.head ∧ ∃ version,
      tag = tagName args.addonName version ∧
      Carries version (r.head (configPath args.addonName)))

/-- **Every tag that a run makes is truthful**, and no name of a branch. -/
theorem main_truthful (letters : Char → Bool) (args : Args) (r : Repo) (tag : String) :
    (main letters args r).1.tags tag = r.tags tag ∨
      (refusesTag tag = false ∧ r.tracking tag = false ∧
        (main letters args r).1.tags tag = some r.head ∧ ∃ version,
          tag = tagName args.addonName version ∧
          Carries version (r.head (configPath args.addonName))) := by
  by_cases hdry : args.dryRun = true
  · rw [main_dryRun hdry]
    exact .inl rfl
  by_cases hgoes : validateVersionFormat args.newVersion = true ∧
      (updateConfigYaml args.newVersion (r.files (configPath args.addonName))).version ≠ []
  swap
  · exact .inl (congrFun (main_stops hgoes).1 tag)
  obtain ⟨hvalid, hconfig⟩ := hgoes
  obtain ⟨text, htext, hmatch, hversion⟩ := version_updateConfigYaml hconfig
  rw [main_edits (by simpa using hdry) hvalid hconfig]
  split_ifs
  · exact .inl rfl
  obtain h | ⟨htag, hrefuses, htracking, hclean, -, h⟩ := @tagVersion_tags
    (atTag letters args.addonName args.newVersion r) args
    (updateConfigYaml args.newVersion (r.files (configPath args.addonName))).version tag
  · exact .inl h
  rw [hversion] at htag
  have hform := form_of_validate hvalid (newline_of_refuses (htag ▸ hrefuses))
  have hcarries := carries_updateConfigYaml hform hmatch
  rw [← htext, ← worked_config] at hcarries
  have hsome : ((atTag letters args.addonName args.newVersion r).files
      (configPath args.addonName)).isSome := by
    obtain ⟨new, hnew, -⟩ := hcarries
    exact Option.isSome_iff_exists.mpr ⟨new, hnew⟩
  have hcommitted := committed_of_clean hclean (by simp [versionFilePaths]) hsome
  exact .inr ⟨hrefuses, htracking, h, configVersion args.newVersion, htag, hcommitted ▸ hcarries⟩

/-! ### The release flow -/

/-- A run with no options. -/
def Args.plain (addonName : String) (newVersion : Text) : Args :=
  ⟨addonName, newVersion, false, false, false⟩

theorem lawfulBEq_path : LawfulBEq Path := inferInstance

attribute [local instance] lawfulBEq_path in
/-- The version files are committed. -/
def Repo.commit (r : Repo) (addonName : String) : Repo :=
  { r with head := fun p => if p ∈ versionFilePaths addonName then r.files p else r.head p }

/-- A run, a commit, and the run again: the second run changes no file, and the tag is there and
on origin, at a commit whose `config.yaml` has its version. -/
def Reaches (letters : Char → Bool) (addonName : String) (newVersion : Text) (r : Repo) : Prop :=
  let args := Args.plain addonName newVersion
  let committed := (main letters args r).1.commit addonName
  let tag := tagName addonName (configVersion newVersion)
  (main letters args committed).1.files = committed.files ∧
    ∃ c, (main letters args committed).1.tags tag = some c ∧
      (main letters args committed).1.remoteTags tag = some c ∧
      Carries (configVersion newVersion) (c (configPath addonName))

/-- The first run comes past the provider and finds all version files as they are in `HEAD`. -/
def TagsAtOnce (letters : Char → Bool) (addonName : String) (newVersion : Text) (r : Repo) : Prop :=
  (updateBuildYaml newVersion (r.files providerBuild)).success = true ∧
    filesHaveUncommittedChanges (atTag letters addonName newVersion r)
      (versionFilePaths addonName) = false

variable {addonName : String} {v : Text}

theorem configVersion_ne_nil (h : Form v) : configVersion v ≠ [] := by
  obtain ⟨a, s, t, -, ⟨n, -, heq, -⟩ | ⟨k, -, heq, -⟩⟩ := written_of_form h <;> simp [heq]

theorem version_of_match {c : Option Text} {text : Text} (hc : c = some text)
    (hm : configPattern.finditer text ≠ []) : (updateConfigYaml v c).version = configVersion v := by
  subst hc
  simp only [updateConfigYaml, updateLine, List.isEmpty_iff, hm, if_false, Update.ofText]
  split_ifs <;> rfl

theorem readme_ne : (addonName, "README.md") ≠ configPath addonName ∧
    (addonName, "README.md") ≠ (addonName, "build.yaml") ∧
    (addonName, "README.md") ≠ providerBuild := by
  simp [configPath, providerBuild]

theorem worked_readme (files : Path → Option Text) :
    worked letters addonName v files (addonName, "README.md") =
      (updateReadmeMd letters v (files (addonName, "README.md"))).content := by
  obtain ⟨hconfig, hbuild, hprovider⟩ := @readme_ne addonName
  simp [worked, editFiles, hconfig, hprovider]

theorem bumpsProvider_worked (files : Path → Option Text) :
    bumpsProvider addonName (worked letters addonName v files) =
      bumpsProvider addonName files := by
  by_cases hname : addonName = "terraform-bridge"
  · subst hname
    have hsome : (worked letters "terraform-bridge" v files providerBuild).isSome =
        (files providerBuild).isSome := by
      unfold worked
      split_ifs
      · rw [updateBuildYaml, content_updateLine, Option.isSome_map]
      · rw [editFiles_provider]
    simp only [bumpsProvider, hsome]
  · simp [bumpsProvider, hname]

/-- The second update changes nothing but the `README.md`. -/
theorem worked_worked (h : Form v) {files : Path → Option Text} {p : Path}
    (hp : p ≠ (addonName, "README.md")) :
    worked letters addonName v (worked letters addonName v files) p =
      worked letters addonName v files p := by
  have hbuild : ∀ c, (updateBuildYaml v (updateBuildYaml v c).content).content =
      (updateBuildYaml v c).content := content_again (buildFits h) fun _ => rfl
  have hconfig : ∀ c, (updateConfigYaml v (updateConfigYaml v c).content).content =
      (updateConfigYaml v c).content := content_again (configFits h) fun _ => rfl
  have hbumps := @bumpsProvider_worked letters addonName v files
  by_cases hprovider : bumpsProvider addonName files ∧ p = providerBuild
  · simp only [worked, hbumps, hprovider, and_self, if_true, hbuild]
  have hone : ∀ {files'}, bumpsProvider addonName files' = bumpsProvider addonName files →
      worked letters addonName v files' p = editFiles letters addonName v files' p := by
    intro files' heq
    unfold worked
    rw [heq, if_neg hprovider]
  rw [hone hbumps]
  unfold editFiles
  rw [hone rfl]
  unfold editFiles
  split_ifs with hpath
  · exact hconfig _
  · exact hbuild _
  · rfl

theorem worked_worked_iff (h : Form v) (files : Path → Option Text) :
    worked letters addonName v (worked letters addonName v files) =
      worked letters addonName v files ↔ Settled v (files (addonName, "README.md")) := by
  have hreadme : worked letters addonName v (worked letters addonName v files)
      (addonName, "README.md") = worked letters addonName v files (addonName, "README.md") ↔
      Settled v (files (addonName, "README.md")) := by
    rw [worked_readme, worked_readme, content_updateReadmeMd, content_updateReadmeMd,
      Option.map_map]
    cases files (addonName, "README.md") with
    | none => simp [Settled]
    | some text =>
      rw [← rewriteReadme_again_iff letters h text]
      simp
  rw [← hreadme]
  constructor
  · intro heq
    rw [heq]
  · intro heq
    funext p
    by_cases hp : p = (addonName, "README.md")
    · rw [hp, heq]
    · exact worked_worked h hp

theorem main_files (hvalid : validateVersionFormat v = true)
    (hconfig : (updateConfigYaml v (r.files (configPath addonName))).version ≠ []) :
    (main letters (.plain addonName v) r).1.files = worked letters addonName v r.files := by
  rw [main_edits rfl hvalid hconfig]
  split_ifs
  · rfl
  · exact tagVersion_files.1

/-- The tag behind a run: made and pushed if the version files are clean. -/
theorem tagVersion_plain (hlocal : r.tags (tagName addonName version) = none)
    (hremote : r.remoteTags (tagName addonName version) = none)
    (htracking : r.tracking (tagName addonName version) = false)
    (hrefuses : refusesTag (tagName addonName version) = false) :
    if filesHaveUncommittedChanges r (versionFilePaths addonName) then
      (tagVersion (.plain addonName v) version r).1 = r
    else
      (tagVersion (.plain addonName v) version r).1.tags (tagName addonName version) =
        some r.head ∧
      (tagVersion (.plain addonName v) version r).1.remoteTags (tagName addonName version) =
        some r.head := by
  split_ifs with hdirty
  · simp [tagVersion, Args.plain, hdirty]
  · have hmade := createAndPushTag_new hlocal hremote htracking hrefuses
    simpa [tagVersion, Args.plain, hdirty] using hmade

/-- A run from which the tag is still missing, or is made at `HEAD`. -/
theorem main_first (letters : Char → Bool) (hvalid : validateVersionFormat v = true)
    (hconfig : (updateConfigYaml v (r.files (configPath addonName))).version ≠ [])
    (hlocal : r.tags (tagName addonName (configVersion v)) = none)
    (hremote : r.remoteTags (tagName addonName (configVersion v)) = none)
    (htracking : r.tracking (tagName addonName (configVersion v)) = false)
    (hrefuses : refusesTag (tagName addonName (configVersion v)) = false) :
    if (bumpsProvider addonName r.files = true ∧
        (updateBuildYaml v (r.files providerBuild)).success = false) ∨
        filesHaveUncommittedChanges (atTag letters addonName v r) (versionFilePaths addonName) then
      (main letters (.plain addonName v) r).1 = atTag letters addonName v r
    else
      (main letters (.plain addonName v) r).1.tags (tagName addonName (configVersion v)) =
        some r.head ∧
      (main letters (.plain addonName v) r).1.remoteTags (tagName addonName (configVersion v)) =
        some r.head := by
  obtain ⟨text, htext, hmatch, hversion⟩ := version_updateConfigYaml hconfig
  have hplain := @tagVersion_plain (atTag letters addonName v r) (configVersion v) addonName v
    hlocal hremote htracking hrefuses
  have hhead : (atTag letters addonName v r).head = r.head := rfl
  rw [hhead] at hplain
  have hedits := @main_edits letters r (.plain addonName v) rfl hvalid hconfig
  simp only [Args.plain, hversion] at hedits hplain ⊢
  rw [hedits]
  by_cases hstale : bumpsProvider addonName r.files = true ∧
      (updateBuildYaml v (r.files providerBuild)).success = false
  · simp [hstale]
  · by_cases hdirty : filesHaveUncommittedChanges (atTag letters addonName v r)
        (versionFilePaths addonName) = true
    · simpa [hstale, hdirty] using hplain
    · simpa [hstale, hdirty] using hplain

/-- A provider that was bumped is not bumped again. -/
theorem stale_worked (h : Form v) {files : Path → Option Text}
    (hbumps : bumpsProvider addonName files = true) :
    (updateBuildYaml v (worked letters addonName v files providerBuild)).success = false := by
  have hprovider : worked letters addonName v files providerBuild =
      (updateBuildYaml v (files providerBuild)).content := by simp [worked, hbumps]
  rw [hprovider]
  exact success_again (buildFits h) (fun _ => rfl) _

/-- The state of the flow between its two runs. -/
structure Between (letters : Char → Bool) (addonName : String) (v : Text) (r m : Repo) : Prop where
  form : Form v
  files : m.files = worked letters addonName v r.files
  head : ∀ p ∈ versionFilePaths addonName, m.head p = m.files p
  version : (updateConfigYaml v (m.files (configPath addonName))).version ≠ []
  carries : Carries (configVersion v) (m.files (configPath addonName))

theorem between_commit (letters : Char → Bool) (hvalid : validateVersionFormat v = true)
    (hform : Form v) {text : Text} (htext : r.files (configPath addonName) = some text)
    (hmatch : configPattern.finditer text ≠ []) : Between letters addonName v r
      ((main letters (.plain addonName v) r).1.commit addonName) := by
  have hfirst : (updateConfigYaml v (r.files (configPath addonName))).version ≠ [] := by
    rw [version_of_match htext hmatch]
    exact configVersion_ne_nil hform
  have hfiles : ((main letters (.plain addonName v) r).1.commit addonName).files =
      worked letters addonName v r.files := main_files hvalid hfirst
  have hcarries : Carries (configVersion v) (((main letters (.plain addonName v) r).1.commit
      addonName).files (configPath addonName)) := by
    rw [hfiles, worked_config, htext]
    exact carries_updateConfigYaml hform hmatch
  refine ⟨hform, hfiles, fun p hp => if_pos hp, ?_, hcarries⟩
  obtain ⟨new, hnew, hne, -⟩ := hcarries
  rw [version_of_match hnew hne]
  exact configVersion_ne_nil hform

section Second

variable {m : Repo}

/-- The second run changes nothing but a `README.md` that is not settled. -/
theorem second_files (hb : Between letters addonName v r m)
    (hvalid : validateVersionFormat v = true) :
    (main letters (.plain addonName v) m).1.files = m.files ↔
      Settled v (r.files (addonName, "README.md")) := by
  rw [main_files hvalid hb.version, hb.files]
  exact worked_worked_iff hb.form r.files

/-- With a provider, the second run stops in front of the tag. -/
theorem second_provider (hb : Between letters addonName v r m)
    (hvalid : validateVersionFormat v = true) (hbumps : bumpsProvider addonName r.files = true) :
    (main letters (.plain addonName v) m).1 = atTag letters addonName v m := by
  have hbumps' : bumpsProvider addonName m.files = true := by
    rw [hb.files, bumpsProvider_worked]
    exact hbumps
  have hstale : (updateBuildYaml v (m.files providerBuild)).success = false := by
    rw [hb.files]
    exact stale_worked hb.form hbumps
  have hedits := @main_edits letters m (.plain addonName v) rfl hvalid hb.version
  rw [hedits]
  simp [Args.plain, hbumps', hstale]

/-- A tag on origin stays. -/
theorem second_old (hb : Between letters addonName v r m)
    (hvalid : validateVersionFormat v = true)
    (hremote : (m.remoteTags (tagName addonName (configVersion v))).isSome) :
    (main letters (.plain addonName v) m).1 = atTag letters addonName v m := by
  obtain ⟨text, htext, hmatch, hversion⟩ := version_updateConfigYaml hb.version
  have hedits := @main_edits letters m (.plain addonName v) rfl hvalid hb.version
  have htag : (tagVersion (.plain addonName v) (configVersion v) (atTag letters addonName v m)).1 =
      atTag letters addonName v m := by
    unfold tagVersion
    split_ifs
    · rfl
    · rfl
    · exact createAndPushTag_old hremote
  simp only [Args.plain, hversion] at hedits htag ⊢
  rw [hedits, htag, ite_self]

/-- A tag that is missing is made. -/
theorem second_new (hb : Between letters addonName v r m)
    (hvalid : validateVersionFormat v = true) (hbumps : ¬ bumpsProvider addonName r.files = true)
    (hsettled : Settled v (r.files (addonName, "README.md")))
    (hlocal : m.tags (tagName addonName (configVersion v)) = none)
    (hremote : m.remoteTags (tagName addonName (configVersion v)) = none)
    (htracking : m.tracking (tagName addonName (configVersion v)) = false)
    (hrefuses : refusesTag (tagName addonName (configVersion v)) = false) :
    (main letters (.plain addonName v) m).1.tags (tagName addonName (configVersion v)) =
      some m.head ∧
    (main letters (.plain addonName v) m).1.remoteTags (tagName addonName (configVersion v)) =
      some m.head := by
  have hbumps' : ¬ bumpsProvider addonName m.files = true := by
    rw [hb.files, bumpsProvider_worked]
    exact hbumps
  have hclean : ¬ filesHaveUncommittedChanges (atTag letters addonName v m)
      (versionFilePaths addonName) = true := by
    have hsame : worked letters addonName v m.files = m.files := by
      rw [hb.files]
      exact (worked_worked_iff hb.form r.files).mpr hsettled
    rw [filesHaveUncommittedChanges, List.any_eq_true]
    intro h
    obtain ⟨p, hp, hne⟩ := h
    simp [atTag, hsame, hb.head p hp] at hne
  have hfirst := main_first letters hvalid hb.version hlocal hremote htracking hrefuses
  simpa [hbumps', hclean] using hfirst

end Second

/-- **The release flow** reaches its tag exactly when the name of the tag has no line break and is
no branch of origin, the release links are settled, and no provider is bumped along, unless the
first run already makes the tag. -/
theorem release_flow_iff (letters : Char → Bool) (addonName : String) (v : Text) (r : Repo)
    (hvalid : validateVersionFormat v = true)
    (hconfig : ∃ text, r.files (configPath addonName) = some text ∧
      configPattern.finditer text ≠ [])
    (hlocal : r.tags (tagName addonName (configVersion v)) = none)
    (hremote : r.remoteTags (tagName addonName (configVersion v)) = none) :
    (Truthful letters ∧ Reaches letters addonName v r) ↔
      refusesTag (tagName addonName (configVersion v)) = false ∧
      r.tracking (tagName addonName (configVersion v)) = false ∧
      Settled v (r.files (addonName, "README.md")) ∧
      (bumpsProvider addonName r.files = true → TagsAtOnce letters addonName v r) := by
  obtain ⟨text, htext, hmatch⟩ := hconfig
  have htracking : ((main letters (.plain addonName v) r).1.commit addonName).tracking =
      r.tracking := main_tracking letters _ r
  have hversion : Form v → (updateConfigYaml v (r.files (configPath addonName))).version ≠ [] := by
    intro hform
    rw [version_of_match htext hmatch]
    exact configVersion_ne_nil hform
  constructor
  · intro h
    obtain ⟨-, hfiles, c, htag, -, -⟩ := h
    -- The tag is new, so one of the two runs made it.
    have hmade : refusesTag (tagName addonName (configVersion v)) = false ∧
        r.tracking (tagName addonName (configVersion v)) = false := by
      obtain h | ⟨hrefuses, htrack, -⟩ := main_truthful letters (.plain addonName v)
        ((main letters (.plain addonName v) r).1.commit addonName)
        (tagName addonName (configVersion v))
      · obtain h' | ⟨hrefuses, htrack, -⟩ := main_truthful letters (.plain addonName v) r
          (tagName addonName (configVersion v))
        · have hnone := h.trans (h'.trans hlocal)
          rw [htag] at hnone
          cases hnone
        · exact ⟨hrefuses, htrack⟩
      · exact ⟨hrefuses, htracking ▸ htrack⟩
    have hform := form_of_validate hvalid (newline_of_refuses hmade.1)
    have hb := between_commit letters hvalid hform htext hmatch
    refine ⟨hmade.1, hmade.2, (second_files hb hvalid).mp hfiles, fun hbumps => ?_⟩
    rw [second_provider hb hvalid hbumps] at htag
    have hfirst := main_first letters hvalid (hversion hform) hlocal hremote hmade.2
      hmade.1
    split_ifs at hfirst with hearly
    · have hsome : (main letters (.plain addonName v) r).1.tags
          (tagName addonName (configVersion v)) = some c := htag
      rw [hfirst] at hsome
      exact absurd (hlocal.symm.trans hsome) (by simp)
    · rw [not_or, not_and, Bool.not_eq_false, Bool.not_eq_true] at hearly
      exact ⟨hearly.1 hbumps, hearly.2⟩
  · intro h
    obtain ⟨hrefuses, htrack, hsettled, hprovider⟩ := h
    have hform := form_of_validate hvalid (newline_of_refuses hrefuses)
    have hb := between_commit letters hvalid hform htext hmatch
    have hfirst := main_first letters hvalid (hversion hform) hlocal hremote htrack
      hrefuses
    refine ⟨fun args r tag => ?_, (second_files hb hvalid).mpr hsettled, ?_⟩
    · obtain h | ⟨-, -, htag, hcarries⟩ := main_truthful letters args r tag
      · exact .inl h
      · exact .inr ⟨htag, hcarries⟩
    split_ifs at hfirst with hearly
    · have hbumps : ¬ bumpsProvider addonName r.files = true := by
        intro hbumps
        obtain ⟨hsuccess, hclean⟩ := hprovider hbumps
        simp [hsuccess, hclean] at hearly
      have hlocal' : ((main letters (.plain addonName v) r).1.commit addonName).tags
          (tagName addonName (configVersion v)) = none := by
        rw [hfirst]
        exact hlocal
      have hremote' : ((main letters (.plain addonName v) r).1.commit addonName).remoteTags
          (tagName addonName (configVersion v)) = none := by
        rw [hfirst]
        exact hremote
      obtain ⟨htag, hpushed⟩ := second_new hb hvalid hbumps hsettled hlocal' hremote'
        (htracking ▸ htrack) hrefuses
      refine ⟨_, htag, hpushed, ?_⟩
      rw [hb.head _ (by simp [versionFilePaths])]
      exact hb.carries
    · rw [not_or, Bool.not_eq_true] at hearly
      have hold := second_old hb hvalid (Option.isSome_iff_exists.mpr ⟨_, hfirst.2⟩)
      refine ⟨r.head, ?_, ?_, ?_⟩
      · rw [hold]
        exact hfirst.1
      · rw [hold]
        exact hfirst.2
      · have hcarries := hb.carries
        rw [hb.files] at hcarries
        have hsome : ((atTag letters addonName v r).files (configPath addonName)).isSome := by
          obtain ⟨new, hnew, -⟩ := hcarries
          exact Option.isSome_iff_exists.mpr ⟨new, hnew⟩
        have hcommitted := committed_of_clean hearly.2 (by simp [versionFilePaths]) hsome
        exact hcommitted ▸ hcarries

end Runs

/-- A checkout in which all files are committed. -/
def checkout (files : Path → Option Text) : Repo := ⟨files, files, fun _ => none, fun _ => none,
  fun _ => false⟩

/-- The bridge and its provider at version 0.3.0. -/
def bridgeRepo : Repo := checkout fun p =>
  if p = ("terraform-bridge", "config.yaml") then some "version: \"0.3.0-0\"\n".toList
  else if p = ("terraform-bridge", "build.yaml") then some "args:\n  VERSION: \"0.3.0\"\n".toList
  else if p = providerBuild then some "VERSION: \"0.3.0\"\n".toList
  else none

/-- The second run stops at the provider, which is at its target, and the tag is never made. -/
theorem bridge_never_tagged : validateVersionFormat "0.4.0".toList = true ∧
    ((bridgeRepo.files (configPath "terraform-bridge")).any fun text =>
      !(configPattern.finditer text).isEmpty) = true ∧
    (main (fun _ => false) (.plain "terraform-bridge" "0.4.0".toList)
      ((main (fun _ => false) (.plain "terraform-bridge" "0.4.0".toList) bridgeRepo).1.commit
        "terraform-bridge")).2 = 1 ∧
    ¬ Reaches (fun _ => false) "terraform-bridge" "0.4.0".toList bridgeRepo := by
  refine ⟨by decide +kernel, by decide +kernel, by decide +kernel, fun h => ?_⟩
  obtain ⟨-, c, hc, -⟩ := h
  have hnone : ((main (fun _ => false) (.plain "terraform-bridge" "0.4.0".toList)
      ((main (fun _ => false) (.plain "terraform-bridge" "0.4.0".toList) bridgeRepo).1.commit
        "terraform-bridge")).1.tags
      (tagName "terraform-bridge" (configVersion "0.4.0".toList))).isSome = false := by
    decide +kernel
  rw [hc] at hnone
  cases hnone

/-- An add-on without a provider reaches its tag. -/
theorem release_flow_authentik :
    let r := checkout fun p =>
      if p = ("authentik", "config.yaml") then some "version: \"1.0.0-0\"\n".toList else none
    Truthful (fun _ => false) ∧ Reaches (fun _ => false) "authentik" "1.1.0".toList r := by
  refine (release_flow_iff (fun _ => false) "authentik" "1.1.0".toList _ (by decide +kernel)
    ⟨"version: \"1.0.0-0\"\n".toList, rfl, ?_⟩ rfl rfl).mpr
    ⟨by decide +kernel, rfl, .inr ?_, ?_⟩
  · intro h
    have hsome : (configPattern.finditer "version: \"1.0.0-0\"\n".toList).isEmpty = false := by
      decide +kernel
    rw [h] at hsome
    cases hsome
  · intro text htext
    cases htext
  · intro h
    cases h

end HaAddons.Internal.UpdateVersion

import HaAddons.Lib.StableSort
import HaAddons.Ntfy.Exporter

/-!
# The order of the export

Lists are sorted by keys that do not always tell their entries apart. Where two entries have one
key, they come in the order of the database: tokens by their last access, rules as they are stored.

* `export_determined_iff` — the text depends on the content of the database alone exactly where
  entries with one key are equal.
* `export_order_visible` — two tokens that differ in their origins only.
-/

namespace HaAddons.Ntfy

open Doc

/-! ## The same state -/

/-- A token without what changes when it is used. -/
def StoredToken.core (t : StoredToken) : StoredToken := { t with lastAccess := 0, lastOrigin := "" }

/-- Two databases with the same users, rules and tokens and the same recorded origins. -/
structure SameState (db db' : FullDb) (origins origins' : Origins) : Prop where
  version : db'.version = db.version
  users : db'.users.Perm db.users
  passHash : ∀ u ∈ db.users, db'.passHash u.name = db.passHash u.name
  rules : db'.rules.Perm db.rules
  tokens : (db'.tokens.map StoredToken.core).Perm (db.tokens.map StoredToken.core)
  userOrigin : ∀ name, origins'.getUser name = origins.getUser name
  aclOrigin : ∀ user topic, origins'.getAcl user topic = origins.getAcl user topic
  tokenOrigin : ∀ user id, origins'.getToken user id = origins.getToken user id

/-- Tokens that are listed alike have one origin, and rules that are listed alike one permission. -/
structure Determined (db : FullDb) (origins : Origins) : Prop where
  tokens : ∀ s ∈ db.tokens, ∀ t ∈ db.tokens, s.user = t.user → s.label = t.label →
    expiresText s.expires = expiresText t.expires →
      origins.getToken (dbUserToApi s.user) (tokenId s.token) =
        origins.getToken (dbUserToApi t.user) (tokenId t.token)
  rules : ∀ r ∈ db.rules, ∀ s ∈ db.rules, r.user = s.user →
    dbTopicToCli r.topic = dbTopicToCli s.topic →
      permFromFlags r.read r.write = permFromFlags s.read s.write

section Order

variable {db db' : FullDb} {origins origins' : Origins} {includeHashes : Bool}
  {authDefaultAccess : String} {now : ℤ}

/-- Only the anonymous user has another name in the API. -/
theorem dbUserToApi_inj {a b : String} (ha : a ∈ db.users.map UserRow.name)
    (hb : b ∈ db.users.map UserRow.name) (h : dbUserToApi a = dbUserToApi b) : a = b := by
  have hreserved : ∀ x ∈ db.users.map UserRow.name, x ≠ "everyone" := fun x hx heq =>
    db.reserved (heq ▸ hx)
  unfold dbUserToApi at h
  split_ifs at h with h1 h2 h2
  · rw [h1, h2]
  · exact absurd h.symm (hreserved b hb)
  · exact absurd h (hreserved a ha)
  · exact h

/-! ## Tokens -/

/-- The entry of a token. -/
def entryOf (origins : Origins) (t : StoredToken) : Option TokenEntry :=
  tokenEntry origins ⟨dbUserToApi t.user, tokenId t.token, t.label, t.expires, t.lastAccess,
    t.lastOrigin⟩

theorem tokenEntries_eq {tokens : List TokenEntry} (h : tokenEntries db origins = some tokens) :
    tokens = (db.tokenRows.filterMap (entryOf origins)).insertionSort
      fun a b => a.sortKey ≤ b.sortKey := by
  obtain ⟨ts, hts, rfl⟩ := Option.map_eq_some_iff.mp h
  rw [(mapM_eq_some hts).1, FullDb.listTokens, List.filterMap_map]
  rfl

theorem entryOf_core (t : StoredToken) : entryOf origins t.core = entryOf origins t := rfl

/-- The entries in any order. -/
theorem perm_entries (db : FullDb) (origins : Origins) :
    (db.tokenRows.filterMap (entryOf origins)).Perm
      ((db.tokens.map StoredToken.core).filterMap (entryOf origins)) := by
  rw [List.filterMap_map]
  exact (List.perm_insertionSort _ db.tokens).filterMap _

theorem entryOf_eq_some {t : StoredToken} {e : TokenEntry} (h : entryOf origins t = some e) :
    ∃ x, expiresText t.expires = some x ∧ e = ⟨dbUserToApi t.user, t.label, x,
      origins.getToken (dbUserToApi t.user) (tokenId t.token)⟩ := by
  obtain ⟨x, hx, rfl⟩ := Option.map_eq_some_iff.mp h
  exact ⟨x, hx, rfl⟩

theorem isoUtc_ne_empty {ts : ℤ} {s : String} (h : isoUtc ts = some s) : s ≠ "" := by
  unfold isoUtc at h
  dsimp only at h
  split_ifs at h
  obtain rfl := Option.some.inj h
  intro hempty
  have := congrArg String.toList hempty
  simp at this

theorem expiresText_inj {a b : ℤ} {x y : Option String} (ha : expiresText a = some x)
    (hb : expiresText b = some y) (h : x.getD "" = y.getD "") : x = y := by
  have hne : ∀ {c : ℤ} {s : String}, expiresText c = some (some s) → s ≠ "" := by
    intro c s hc
    unfold expiresText at hc
    split_ifs at hc
    · cases hc
    · obtain ⟨s', hs, heq⟩ := Option.map_eq_some_iff.mp hc
      obtain rfl := Option.some.inj heq
      exact isoUtc_ne_empty hs
  cases x with
  | none =>
    cases y with
    | none => rfl
    | some s => exact absurd h.symm (hne hb)
  | some s =>
    cases y with
    | none => exact absurd h (hne ha)
    | some s' => exact congrArg some h

/-- Entries with one key are equal. -/
theorem entry_eq_of_sortKey (h : Determined db origins) {a b : TokenEntry}
    (ha : a ∈ db.tokenRows.filterMap (entryOf origins))
    (hb : b ∈ db.tokenRows.filterMap (entryOf origins)) (hkey : a.sortKey = b.sortKey) : a = b := by
  obtain ⟨s, hs, ha⟩ := List.mem_filterMap.mp ha
  obtain ⟨t, ht, hb⟩ := List.mem_filterMap.mp hb
  have hs := (List.mem_insertionSort _).mp hs
  have ht := (List.mem_insertionSort _).mp ht
  obtain ⟨x, hx, rfl⟩ := entryOf_eq_some ha
  obtain ⟨y, hy, rfl⟩ := entryOf_eq_some hb
  simp only [TokenEntry.sortKey, toLex_inj, Prod.mk.injEq] at hkey
  obtain ⟨huser, hlabel, hexpires⟩ := hkey
  have huser := dbUserToApi_inj (db.tokenOwned s hs) (db.tokenOwned t ht) huser
  obtain rfl := expiresText_inj hx hy hexpires
  have horigin := h.tokens s hs t ht huser hlabel (hx.trans hy.symm)
  rw [horigin, huser, hlabel]

/-! ## Rules -/

/-- The entry of a rule. -/
def entryOfRule (origins : Origins) (r : StoredRule) : AclEntry :=
  let row := AuthDb.aclRow r
  ⟨dbUserToApi row.user, row.topic, row.permission, origins.getAcl (dbUserToApi row.user) row.topic⟩

theorem perm_ruleEntries (db : FullDb) (origins : Origins) :
    (db.listAcl.map fun r => (⟨dbUserToApi r.user, r.topic, r.permission,
      origins.getAcl (dbUserToApi r.user) r.topic⟩ : AclEntry)).Perm
        (db.rules.map (entryOfRule origins)) := by
  have := (List.perm_insertionSort (fun a b : AclRow => toLex (a.user, a.topic) ≤
    toLex (b.user, b.topic)) (db.rules.map AuthDb.aclRow)).map fun r =>
      (⟨dbUserToApi r.user, r.topic, r.permission, origins.getAcl (dbUserToApi r.user) r.topic⟩ :
        AclEntry)
  rwa [List.map_map] at this

theorem dbUserToApi_idem (name : String) : dbUserToApi (dbUserToApi name) = dbUserToApi name := by
  unfold dbUserToApi
  split_ifs with h1 h2 <;> simp_all

def AclEntry.sortKey (r : AclEntry) : String ×ₗ String := toLex (r.user, r.topic)

theorem ruleEntry_eq_of_sortKey (h : Determined db origins) {a b : AclEntry}
    (ha : a ∈ db.rules.map (entryOfRule origins)) (hb : b ∈ db.rules.map (entryOfRule origins))
    (hkey : a.sortKey = b.sortKey) : a = b := by
  obtain ⟨r, hr, rfl⟩ := List.mem_map.mp ha
  obtain ⟨s, hs, rfl⟩ := List.mem_map.mp hb
  simp only [AclEntry.sortKey, entryOfRule, AuthDb.aclRow, dbUserToApi_idem, toLex_inj,
    Prod.mk.injEq] at hkey ⊢
  obtain ⟨huser, htopic⟩ := hkey
  have huser := dbUserToApi_inj (db.owned r hr) (db.owned s hs) huser
  have hpermission := h.rules r hr s hs huser htopic
  simp only [hpermission, huser, htopic]

/-! ## Equal texts -/

theorem userEntries_same (h : SameState db db' origins origins') :
    userEntries db' origins' includeHashes = userEntries db origins includeHashes := by
  have hsorted : db'.users.insertionSort (fun a b => a.name ≤ b.name) =
      db.users.insertionSort fun a b => a.name ≤ b.name :=
    insertionSort_eq_of_perm h.users fun a ha b hb hname =>
      List.inj_on_of_nodup_map db'.nodup ha hb hname
  unfold userEntries
  rw [hsorted]
  congr 1
  rw [List.filter_map, List.filter_map, List.map_map, List.map_map]
  refine List.map_congr_left fun u hu => ?_
  have hmem := (List.mem_insertionSort _).mp (List.mem_of_mem_filter hu)
  simp only [Function.comp_apply, h.userOrigin, h.passHash u hmem]

theorem aclEntries_same (hd : Determined db origins) (h : SameState db db' origins origins') :
    aclEntries db' origins' = aclEntries db origins := by
  have hentry : entryOfRule origins' = entryOfRule origins := by
    funext r
    simp only [entryOfRule, h.aclOrigin]
  have hp : (db'.rules.map (entryOfRule origins')).Perm (db.rules.map (entryOfRule origins)) := by
    rw [hentry]
    exact h.rules.map _
  refine @insertionSort_eq_of_perm _ _ _ AclEntry.sortKey _ _
    ((perm_ruleEntries db' origins').trans (hp.trans (perm_ruleEntries db origins).symm))
    fun a ha b hb hkey => ?_
  have hmem : ∀ {e : AclEntry}, _ → e ∈ db.rules.map (entryOfRule origins) := fun he =>
    hp.mem_iff.mp ((perm_ruleEntries db' origins').mem_iff.mp he)
  exact ruleEntry_eq_of_sortKey hd (hmem ha) (hmem hb) hkey

theorem tokenEntries_same (hd : Determined db origins) (h : SameState db db' origins origins')
    {tokens tokens' : List TokenEntry} (ht : tokenEntries db origins = some tokens)
    (ht' : tokenEntries db' origins' = some tokens') : tokens' = tokens := by
  have hentry : entryOf origins' = entryOf origins := by
    funext t
    simp only [entryOf, tokenEntry, h.tokenOrigin]
  have hp : (db'.tokenRows.filterMap (entryOf origins')).Perm
      (db.tokenRows.filterMap (entryOf origins)) := by
    rw [hentry]
    exact (perm_entries db' origins).trans
      ((h.tokens.filterMap _).trans (perm_entries db origins).symm)
  rw [tokenEntries_eq ht, tokenEntries_eq ht']
  exact insertionSort_eq_of_perm hp fun a ha b hb hkey =>
    entry_eq_of_sortKey hd (hp.mem_iff.mp ha) (hp.mem_iff.mp hb) hkey

/-! ## What an export does -/

/-- The error of an export that is not possible. -/
def refusal : Option ℤ → ExportError
  | some v =>
    if v ∈ AuthDb.supportedAuthSchemas then .year
    else .api ⟨"db_unsupported", s!"auth schema version {v} is not supported"⟩
  | none => .api ⟨"db_unsupported", "auth schema version None is not supported"⟩

theorem buildExport_refused (h : ¬ Exportable db now) :
    buildExport (some db) origins includeHashes authDefaultAccess now =
      .error (refusal db.version) := by
  unfold buildExport AuthDb.ensureSupported refusal
  dsimp only
  cases hversion : db.version with
  | none => rfl
  | some v =>
    dsimp only
    by_cases hv : v ∈ AuthDb.supportedAuthSchemas
    · rw [if_pos hv, if_pos hv]
      dsimp only
      cases htokens : tokenEntries db origins with
      | none => rfl
      | some tokens =>
        cases hnow : isoUtc now with
        | none => rfl
        | some generatedAt =>
          refine absurd ⟨⟨v, hv, hversion⟩, fun t ht => ?_, by rw [hnow]; rfl⟩ h
          obtain ⟨ts, hts, -⟩ := Option.map_eq_some_iff.mp htokens
          have hrow := (mapM_eq_some hts).2 _
            (List.mem_map_of_mem ((List.mem_insertionSort _).mpr ht))
          simpa only [tokenEntry, Option.isSome_map] using hrow
    · rw [if_neg hv, if_neg hv]

theorem SameState.symm (h : SameState db db' origins origins') :
    SameState db' db origins' origins where
  version := h.version.symm
  users := h.users.symm
  passHash u hu := (h.passHash u (h.users.mem_iff.mp hu)).symm
  rules := h.rules.symm
  tokens := h.tokens.symm
  userOrigin name := (h.userOrigin name).symm
  aclOrigin user topic := (h.aclOrigin user topic).symm
  tokenOrigin user id := (h.tokenOrigin user id).symm

theorem SameState.exportable (h : SameState db db' origins origins') (he : Exportable db now) :
    Exportable db' now := by
  refine ⟨by rw [h.version]; exact he.version, fun t ht => ?_, he.now⟩
  obtain ⟨s, hs, hcore⟩ := List.mem_map.mp (h.tokens.mem_iff.mp (List.mem_map_of_mem ht))
  have hexpires : s.core.expires = t.core.expires := congrArg StoredToken.expires hcore
  have := he.expires s hs
  rwa [show s.expires = t.expires from hexpires] at this

/-- Where listed alike means equal, the same state gives the same document. -/
theorem export_same (hd : Exportable db now → Determined db origins)
    (h : SameState db db' origins origins') :
    buildExport (some db') origins' includeHashes authDefaultAccess now =
      buildExport (some db) origins includeHashes authDefaultAccess now := by
  by_cases he : Exportable db now
  · obtain ⟨doc, hdoc⟩ := @exists_export db origins includeHashes authDefaultAccess now he
    obtain ⟨doc', hdoc'⟩ := @exists_export db' origins' includeHashes authDefaultAccess now
      (h.exportable he)
    obtain ⟨generatedAt, tokens, hnow, htokens, rfl⟩ := buildExport_eq_ok hdoc
    obtain ⟨generatedAt', tokens', hnow', htokens', rfl⟩ := buildExport_eq_ok hdoc'
    obtain rfl := Option.some.inj (hnow.symm.trans hnow')
    rw [hdoc, hdoc', h.version, userEntries_same h, aclEntries_same (hd he) h,
      tokenEntries_same (hd he) h htokens htokens']
  · have he' : ¬ Exportable db' now := fun he' => he (h.symm.exportable he')
    rw [buildExport_refused he, buildExport_refused he', h.version]

/-! ## Where the order shows -/

theorem toJson_inj {d d' : Doc} (h : toJson d = toJson d') : d = d' := by
  have := congrArg loads h
  rw [loads_toJson, loads_toJson] at this
  exact Option.some.inj this

/-- The database with its rows in another order, and its tokens never used. -/
def reordered (db : FullDb) (rules : List StoredRule) (tokens : List StoredToken)
    (hrules : rules.Perm db.rules) (htokens : tokens.Perm db.tokens) : FullDb where
  toAuthDb := { db.toAuthDb with
    rules := rules
    owned := fun r hr => db.owned r (hrules.mem_iff.mp hr) }
  passHash := db.passHash
  tokens := tokens.map StoredToken.core
  tokenOwned t ht := by
    obtain ⟨s, hs, rfl⟩ := List.mem_map.mp ht
    exact db.tokenOwned s (htokens.mem_iff.mp hs)

theorem sameState_reordered {rules : List StoredRule} {tokens : List StoredToken}
    (hrules : rules.Perm db.rules) (htokens : tokens.Perm db.tokens) :
    SameState db (reordered db rules tokens hrules htokens) origins origins where
  version := rfl
  users := .refl _
  passHash _ _ := rfl
  rules := hrules
  tokens := by
    show ((tokens.map StoredToken.core).map StoredToken.core).Perm _
    rw [List.map_map]
    exact htokens.map _
  userOrigin _ := rfl
  aclOrigin _ _ := rfl
  tokenOrigin _ _ := rfl

/-- Tokens whose entries have one key are a user's with one label. -/
theorem same_user_label {s t : StoredToken} (hs : s ∈ db.tokens) (ht : t ∈ db.tokens)
    {e : TokenEntry} (he : entryOf origins s = some e)
    (hkey : (entryOf origins t).any (fun x => x.sortKey = e.sortKey) = true) :
    t.user = s.user ∧ t.label = s.label := by
  obtain ⟨x, -, rfl⟩ := entryOf_eq_some he
  obtain ⟨y, hy, hkey⟩ := (Option.any_eq_true _ _).mp hkey
  obtain ⟨z, -, rfl⟩ := entryOf_eq_some hy
  simp only [TokenEntry.sortKey, toLex_inj, Prod.mk.injEq, decide_eq_true_eq] at hkey
  exact ⟨dbUserToApi_inj (db.tokenOwned t ht) (db.tokenOwned s hs) hkey.1, hkey.2.1⟩

/-- The first entry with a token's key, where this token comes first in the table. -/
theorem head_tokenEntries {s : StoredToken} {rules : List StoredRule} {tokens : List StoredToken}
    (hrules : rules.Perm db.rules) (htokens : (s :: tokens).Perm db.tokens) {e : TokenEntry}
    (he : entryOf origins s = some e) {entries : List TokenEntry}
    (h : tokenEntries (reordered db rules (s :: tokens) hrules htokens) origins = some entries) :
    (entries.filter fun t => t.sortKey = e.sortKey).head? = some e := by
  let db₁ := reordered db rules (s :: tokens) hrules htokens
  have hs : s.core ∈ db₁.tokens := List.mem_map_of_mem List.mem_cons_self
  have he₁ : entryOf origins s.core = some e := he
  have hused : ∀ t ∈ db₁.tokens, t.lastAccess = 0 := by
    intro t ht
    obtain ⟨u, -, rfl⟩ := List.mem_map.mp ht
    rfl
  have hrows : db₁.tokenRows.filter
        (fun t => (entryOf origins t).any fun x => x.sortKey = e.sortKey) =
      db₁.tokens.filter fun t => (entryOf origins t).any fun x => x.sortKey = e.sortKey := by
    refine filter_insertionSort fun a ha b hb hqa hqb => ?_
    obtain ⟨hua, hla⟩ := same_user_label hs ha he₁ hqa
    obtain ⟨hub, hlb⟩ := same_user_label hs hb he₁ hqb
    rw [hua, hla, hub, hlb, hused a ha, hused b hb]
  have hself : ((entryOf origins s.core).any fun x => x.sortKey = e.sortKey) = true := by
    rw [he₁, Option.any_some, decide_eq_true_eq]
  rw [tokenEntries_eq h, filter_sortBy, filter_filterMap_any, hrows]
  show (((s.core :: tokens.map StoredToken.core).filter _).filterMap (entryOf origins)).head? = _
  rw [List.filter_cons, if_pos hself, List.filterMap_cons_some he₁, List.head?_cons]

/-- The first entry with a rule's key, where this rule comes first in the table. -/
theorem head_aclEntries {r : StoredRule} {rules : List StoredRule} {tokens : List StoredToken}
    (hrules : (r :: rules).Perm db.rules) (htokens : tokens.Perm db.tokens) :
    ((aclEntries (reordered db (r :: rules) tokens hrules htokens) origins).filter fun a =>
      a.sortKey = (entryOfRule origins r).sortKey).head? = some (entryOfRule origins r) := by
  let k := (entryOfRule origins r).sortKey
  let entry := fun row : AclRow => (⟨dbUserToApi row.user, row.topic, row.permission,
    origins.getAcl (dbUserToApi row.user) row.topic⟩ : AclEntry)
  let db₁ := reordered db (r :: rules) tokens hrules htokens
  have hrows : db₁.listAcl.filter (fun row => (entry row).sortKey = k) =
      (db₁.rules.map AuthDb.aclRow).filter fun row => (entry row).sortKey = k := by
    refine filter_insertionSort fun a ha b hb hqa hqb => ?_
    have hkey : ∀ {row : AclRow}, row ∈ db₁.rules.map AuthDb.aclRow →
        decide ((entry row).sortKey = k) = true → toLex (row.user, row.topic) = k := by
      intro row hrow hq
      obtain ⟨x, -, rfl⟩ := List.mem_map.mp hrow
      rw [← of_decide_eq_true hq]
      simp only [entry, AclEntry.sortKey, AuthDb.aclRow, dbUserToApi_idem]
    rw [hkey ha hqa, hkey hb hqb]
  have hfilter : (aclEntries db₁ origins).filter (fun a => a.sortKey = k) =
      (db₁.listAcl.map entry).filter fun a => a.sortKey = k :=
    @filter_sortBy _ _ _ AclEntry.sortKey _ k
  rw [hfilter, List.filter_map]
  show ((db₁.listAcl.filter fun row => (entry row).sortKey = k).map entry).head? = _
  rw [hrows]
  show ((List.filter _ (AuthDb.aclRow r :: rules.map AuthDb.aclRow)).map entry).head? = _
  rw [List.filter_cons_of_pos (by rw [decide_eq_true_eq]; rfl)]
  rfl

/-- Exports with one text are of one document. -/
theorem export_eq_of_toJson {db₁ db₂ : FullDb} {doc : Doc}
    (h : buildExport (some db₁) origins includeHashes authDefaultAccess now = .ok doc)
    (hsame : (buildExport (some db₂) origins includeHashes authDefaultAccess now).map toJson =
      (buildExport (some db₁) origins includeHashes authDefaultAccess now).map toJson) :
    buildExport (some db₂) origins includeHashes authDefaultAccess now = .ok doc := by
  rw [h] at hsame
  cases hdoc : buildExport (some db₂) origins includeHashes authDefaultAccess now with
  | error e =>
    rw [hdoc] at hsame
    cases hsame
  | ok d =>
    rw [hdoc] at hsame
    rw [toJson_inj (Except.ok.inj hsame)]

theorem optional_injective : Function.Injective optional := by
  intro a b h
  cases a <;> cases b <;> simp_all [optional]

theorem text_injective : Function.Injective Permission.text ∧ Function.Injective Origin.text := by
  refine ⟨fun a b h => ?_, fun a b h => ?_⟩
  · cases a <;> cases b <;> first | rfl | exact absurd h (by decide)
  · cases a <;> cases b <;> first | rfl | exact absurd h (by decide)

theorem TokenEntry.doc_injective : Function.Injective TokenEntry.doc := by
  intro a b h
  simp only [TokenEntry.doc, dict.injEq, List.cons.injEq, Prod.mk.injEq, true_and, str.injEq,
    and_true] at h
  obtain ⟨huser, hlabel, hexpires, horigin⟩ := h
  have hexpires := optional_injective hexpires
  have horigin := text_injective.2 horigin
  cases a
  cases b
  simp_all

theorem AclEntry.doc_injective : Function.Injective AclEntry.doc := by
  intro a b h
  simp only [AclEntry.doc, dict.injEq, List.cons.injEq, Prod.mk.injEq, true_and, str.injEq,
    and_true] at h
  obtain ⟨huser, htopic, hpermission, horigin⟩ := h
  have hpermission := text_injective.1 hpermission
  have horigin := text_injective.2 horigin
  cases a
  cases b
  simp_all

theorem entries_eq {version version' : Option ℤ} {access access' at₁ at₂ : String}
    {users users' : List UserEntry} {acl acl' : List AclEntry} {tokens tokens' : List TokenEntry}
    (h : document version access at₁ users acl tokens =
      document version' access' at₂ users' acl' tokens') : acl = acl' ∧ tokens = tokens' := by
  simp only [document, dict.injEq, List.cons.injEq, Prod.mk.injEq, true_and, and_true,
    list.injEq] at h
  obtain ⟨-, -, -, -, hacl, htokens⟩ := h
  exact ⟨List.map_injective_iff.mpr AclEntry.doc_injective hacl,
    List.map_injective_iff.mpr TokenEntry.doc_injective htokens⟩

/-- Where every order gives one text, listed alike means equal. -/
theorem determined_of_export_same (he : Exportable db now)
    (h : ∀ db' origins', SameState db db' origins origins' →
      (buildExport (some db') origins' includeHashes authDefaultAccess now).map toJson =
        (buildExport (some db) origins includeHashes authDefaultAccess now).map toJson) :
    Determined db origins := by
  obtain ⟨doc, hdoc⟩ := @exists_export db origins includeHashes authDefaultAccess now he
  -- An order with a row in front shows this row first among those that are listed like it.
  have hfront : ∀ {rules : List StoredRule} {tokens : List StoredToken}
      (hrules : rules.Perm db.rules) (htokens : tokens.Perm db.tokens),
      ∃ acl entries, aclEntries (reordered db rules tokens hrules htokens) origins = acl ∧
        tokenEntries (reordered db rules tokens hrules htokens) origins = some entries ∧
        ∃ generatedAt users,
          doc = document db.version authDefaultAccess generatedAt users acl entries := by
    intro rules tokens hrules htokens
    have hsame := export_eq_of_toJson hdoc (h _ _ (sameState_reordered hrules htokens))
    obtain ⟨generatedAt, entries, -, hentries, rfl⟩ := buildExport_eq_ok hsame
    exact ⟨_, entries, rfl, hentries, generatedAt, _, rfl⟩
  constructor
  · intro s hs t ht huser hlabel hexpires
    obtain ⟨_, ss, -, hss, _, _, hdoc₁⟩ := hfront (.refl _) (List.perm_cons_erase hs).symm
    obtain ⟨_, ts, -, hts, _, _, hdoc₂⟩ := hfront (.refl _) (List.perm_cons_erase ht).symm
    obtain rfl := (entries_eq (hdoc₁.symm.trans hdoc₂)).2
    obtain ⟨x, hx⟩ := Option.isSome_iff_exists.mp (he.expires s hs)
    have hentry : ∀ u : StoredToken, expiresText u.expires = some x → entryOf origins u =
        some ⟨dbUserToApi u.user, u.label, x,
          origins.getToken (dbUserToApi u.user) (tokenId u.token)⟩ := by
      intro u hu
      simp only [entryOf, tokenEntry, hu, Option.map_some]
    have hhead := head_tokenEntries _ _ (hentry s hx) hss
    have hhead' := head_tokenEntries _ _ (hentry t (hexpires ▸ hx)) hts
    have hkey : TokenEntry.sortKey ⟨dbUserToApi s.user, s.label, x,
          origins.getToken (dbUserToApi s.user) (tokenId s.token)⟩ =
        TokenEntry.sortKey ⟨dbUserToApi t.user, t.label, x,
          origins.getToken (dbUserToApi t.user) (tokenId t.token)⟩ := by
      simp only [TokenEntry.sortKey, huser, hlabel]
    rw [hkey, hhead'] at hhead
    exact congrArg TokenEntry.origin (Option.some.inj hhead).symm
  · intro r hr s hs huser htopic
    obtain ⟨_, _, rfl, -, _, _, hdoc₁⟩ := hfront (List.perm_cons_erase hr).symm (.refl _)
    obtain ⟨_, _, rfl, -, _, _, hdoc₂⟩ := hfront (List.perm_cons_erase hs).symm (.refl _)
    have hacl := (entries_eq (hdoc₁.symm.trans hdoc₂)).1
    have hkey : (entryOfRule origins r).sortKey = (entryOfRule origins s).sortKey := by
      simp only [AclEntry.sortKey, entryOfRule, AuthDb.aclRow, huser, htopic]
    have hhead := @head_aclEntries db origins r _ _ (List.perm_cons_erase hr).symm (.refl db.tokens)
    rw [hacl, hkey, head_aclEntries] at hhead
    exact congrArg AclEntry.permission (Option.some.inj hhead).symm

/-- **Where an export is determined.** The text depends on the content of the database exactly where
tokens that are listed alike have one origin and rules that are listed alike one permission. -/
theorem export_determined_iff (db : FullDb) (origins : Origins) (includeHashes : Bool)
    (authDefaultAccess : String) (now : ℤ) :
    (∀ db' origins', SameState db db' origins origins' →
      (buildExport (some db') origins' includeHashes authDefaultAccess now).map toJson =
          (buildExport (some db) origins includeHashes authDefaultAccess now).map toJson ∧
        (buildExport (some db') origins' includeHashes authDefaultAccess now).map toYaml =
          (buildExport (some db) origins includeHashes authDefaultAccess now).map toYaml) ↔
      (Exportable db now → Determined db origins) := by
  constructor
  · intro h he
    exact determined_of_export_same he fun db' origins' hsame => (h db' origins' hsame).1
  · intro hd db' origins' hsame
    rw [export_same hd hsame]
    exact ⟨rfl, rfl⟩

end Order

/-- One user with tokens. -/
def tokensDb (tokens : List StoredToken) (h : ∀ t ∈ tokens, t.user = "alice") : FullDb :=
  { labelledDb "" with
    tokens := tokens
    tokenOwned := fun t ht => List.mem_singleton.mpr (h t ht) }

/-- A token without label and without expiry. -/
def tokenNamed (token : String) : StoredToken := ⟨"alice", token, "", 0, 0, "", false⟩

def tokensDb₁ : FullDb := tokensDb [tokenNamed "tk_a", tokenNamed "tk_b"] (by decide)

def tokensDb₂ : FullDb := tokensDb [tokenNamed "tk_b", tokenNamed "tk_a"] (by decide)

/-- The first token was made by the infrastructure code. -/
def originA : Origins :=
  { Origins.empty with
    tokens := Dict.empty.insert "alice" (Dict.empty.insert (tokenId "tk_a") .iac) }

theorem exportable_tokensDb {tokens : List StoredToken} {h : ∀ t ∈ tokens, t.user = "alice"}
    (hexpires : ∀ t ∈ tokens, t.expires = 0) : Exportable (tokensDb tokens h) 0 where
  version := ⟨10, by decide, rfl⟩
  expires t ht := by
    rw [expiresText, if_pos (hexpires t ht)]
    rfl
  now := by decide +kernel

/-- Two rows in the other order change the text. -/
theorem export_order_visible : ¬ ∀ (db db' : FullDb) (origins origins' : Origins)
    (includeHashes : Bool) (authDefaultAccess : String) (now : ℤ),
    SameState db db' origins origins' →
      (buildExport (some db') origins' includeHashes authDefaultAccess now).map toJson =
          (buildExport (some db) origins includeHashes authDefaultAccess now).map toJson ∧
        (buildExport (some db') origins' includeHashes authDefaultAccess now).map toYaml =
          (buildExport (some db) origins includeHashes authDefaultAccess now).map toYaml := by
  intro h
  have hsame : SameState tokensDb₁ tokensDb₂ originA originA := by
    refine ⟨rfl, .refl _, fun _ _ => rfl, .refl _, ?_, fun _ => rfl, fun _ _ => rfl, fun _ _ => rfl⟩
    exact .swap (tokenNamed "tk_a") (tokenNamed "tk_b") []
  have hjson := (h _ _ _ _ false "deny-all" 0 hsame).1
  obtain ⟨doc, hdoc⟩ := @exists_export tokensDb₁ originA false "deny-all" 0
    (exportable_tokensDb (by decide))
  obtain ⟨at₁, tokens₁, -, htokens₁, rfl⟩ := buildExport_eq_ok hdoc
  obtain ⟨at₂, tokens₂, -, htokens₂, heq⟩ := buildExport_eq_ok (export_eq_of_toJson hdoc hjson)
  have h₁ : tokenEntries tokensDb₁ originA =
      some [⟨"alice", "", none, .iac⟩, ⟨"alice", "", none, .gui⟩] := by decide +kernel
  have h₂ : tokenEntries tokensDb₂ originA =
      some [⟨"alice", "", none, .gui⟩, ⟨"alice", "", none, .iac⟩] := by decide +kernel
  have htokens := (entries_eq heq).2
  rw [Option.some.inj (htokens₁.symm.trans h₁), Option.some.inj (htokens₂.symm.trans h₂)] at htokens
  exact absurd htokens (by decide)

end HaAddons.Ntfy

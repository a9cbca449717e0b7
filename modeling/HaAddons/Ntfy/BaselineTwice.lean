import HaAddons.Ntfy.BaselineOwnership

/-!
# The baseline, twice

A run of the baseline in which nothing fails, and a second one behind it with no change in between.
An entry does up to two things: it adds its user, and it sets its rule. `next` says what, from the
world it meets. The users, the rules and their origins after the first run decide what the second
does.

* `applyEntries_trace` — the loop of the code does to the world what `next` does, entry by entry.
* `second_run_idle_iff` — when the second run does nothing.
* `resynced` — two entries about one rule set it in every run, each to its own permission.
-/

namespace HaAddons.Ntfy

/-! ## What an entry does -/

/-- The command line accepts to add the user. -/
def BaselineUser.Creatable (e : BaselineUser) : Prop :=
  usernameRe e.username = true ∧ e.password ≠ ""

/-- The command line accepts to set the rule. -/
def Settable (user topic : String) : Prop :=
  (user = "everyone" ∨ usernameRe user = true) ∧
    '%' ∉ topic.toList ∧ topicPatternRe topic = true

instance (e : BaselineUser) : Decidable e.Creatable := instDecidableAnd

instance (user topic : String) : Decidable (Settable user topic) := instDecidableAnd

namespace World

def role (w : World) (name : String) : Option Role := (rolesOf w.accounts).get? name

/-- Nobody but the options has the rule. -/
def Open (w : World) (user topic : String) : Prop :=
  topic ≠ "" ∧ Settable user topic ∧ w.role user ≠ some .admin ∧
    (w.rule? user topic = none ∨ w.origins.getAcl user topic = .options)

variable (w : World) (e : BaselineUser)

/-- The entry adds its user. -/
def Adds : Prop := w.role e.username = none ∧ e.Creatable

/-- The entry names its rule. -/
def Reaches : Prop :=
  ((w.role e.username).isSome ∨ e.Creatable) ∧ w.role e.username ≠ some .admin ∧ e.topic ≠ ""

/-- The rule of the entry is to be set, if it gets that far. -/
def Due : Prop :=
  Settable e.username e.topic ∧
    (w.rule? e.username e.topic = none ∨
      w.origins.getAcl e.username e.topic = .options ∧
        w.rule? e.username e.topic ≠ some e.permission)

instance : Decidable (w.Adds e) := instDecidableAnd

instance : Decidable (w.Reaches e) := instDecidableAnd

instance : Decidable (w.Due e) := instDecidableAnd

def addUserOf : World :=
  if w.Adds e then
    effect (effect w (.userAdd e.username e.password .user)) (.setUser e.username .options)
  else w

def setRuleOf : World :=
  if w.Due e then
    let set := effect w (.accessSet e.username e.topic e.permission)
    if w.rule? e.username e.topic = none then effect set (.setAcl e.username e.topic .options)
    else set
  else w

/-- The world after the entry. -/
def next : World := if w.Reaches e then (w.addUserOf e).setRuleOf e else w.addUserOf e

/-- The entry sets its rule. -/
def Sets : Prop := w.Reaches e ∧ w.Due e

instance : Decidable (w.Sets e) := instDecidableAnd

end World

/-- The entries that do not name the admin. -/
def entriesOf (options : Options) : List BaselineUser :=
  options.baselineUsers.filter fun e => e.username ≠ options.adminUser

/-! ## What `next` changes -/

namespace World

variable (w : World) (e : BaselineUser)

theorem role_next (name : String) :
    (w.next e).role name = if w.Adds e ∧ name = e.username then some .user else w.role name := by
  have hroles : rolesOf (effect (effect w (.userAdd e.username e.password .user))
      (.setUser e.username .options)).accounts =
        (rolesOf w.accounts).insert e.username .user := by
    show rolesOf (w.tables.accounts ++ [_]) = _
    rw [rolesOf, List.foldl_append]
    rfl
  have hadd : (w.addUserOf e).role name =
      if w.Adds e ∧ name = e.username then some .user else w.role name := by
    unfold addUserOf
    by_cases hadds : w.Adds e
    · rw [if_pos hadds, role, hroles, Dict.get?_insert]
      simp [hadds, role]
    · rw [if_neg hadds, if_neg fun h => hadds h.1]
  rw [← hadd]
  unfold next setRuleOf
  split_ifs <;> rfl

theorem rule?_addUserOf (user topic : String) :
    (w.addUserOf e).rule? user topic = w.rule? user topic := by
  unfold addUserOf
  split_ifs <;> rfl

theorem getAcl_addUserOf (user topic : String) :
    (w.addUserOf e).origins.getAcl user topic = w.origins.getAcl user topic := by
  unfold addUserOf
  split_ifs <;> rfl

theorem due_addUserOf : (w.addUserOf e).Due e ↔ w.Due e := by
  unfold Due
  rw [rule?_addUserOf, getAcl_addUserOf]

theorem rule?_setRuleOf (user topic : String) :
    (w.setRuleOf e).rule? user topic =
      if w.Due e ∧ (user, topic) = e.key then some e.permission else w.rule? user topic := by
  unfold setRuleOf
  by_cases hdue : w.Due e
  · have hset : (effect w (.accessSet e.username e.topic e.permission)).rule? user topic =
        if w.Due e ∧ (user, topic) = e.key then some e.permission else w.rule? user topic := by
      rw [rule?_accessSet]
      simp [hdue, BaselineUser.key]
    rw [if_pos hdue, ← hset]
    dsimp only
    split_ifs <;> rfl
  · rw [if_neg hdue, if_neg fun h => hdue h.1]

theorem getAcl_setRuleOf (user topic : String) :
    (w.setRuleOf e).origins.getAcl user topic =
      if w.Due e ∧ (user, topic) = e.key then .options else w.origins.getAcl user topic := by
  unfold setRuleOf
  by_cases hdue : w.Due e
  · rw [if_pos hdue]
    dsimp only
    split_ifs with hrule hkey hkey
    · refine (Origins.getAcl_setAcl ..).trans (if_pos ?_)
      simpa [BaselineUser.key] using hkey.2
    · refine (Origins.getAcl_setAcl ..).trans (if_neg ?_)
      exact fun h => hkey ⟨hdue, Prod.ext h.1 h.2⟩
    · obtain ⟨hu, ht⟩ : user = e.username ∧ topic = e.topic := Prod.mk.inj hkey.2
      subst hu ht
      exact (hdue.2.resolve_left hrule).1
    · rfl
  · rw [if_neg hdue, if_neg fun h => hdue h.1]

theorem rule?_next (user topic : String) :
    (w.next e).rule? user topic =
      if w.Sets e ∧ (user, topic) = e.key then some e.permission else w.rule? user topic := by
  unfold next Sets
  by_cases hr : w.Reaches e
  · simp only [hr, if_true, true_and, rule?_setRuleOf, due_addUserOf, rule?_addUserOf]
  · simp only [hr, if_false, false_and, rule?_addUserOf]

theorem getAcl_next (user topic : String) :
    (w.next e).origins.getAcl user topic =
      if w.Sets e ∧ (user, topic) = e.key then .options else w.origins.getAcl user topic := by
  unfold next Sets
  by_cases hr : w.Reaches e
  · simp only [hr, if_true, true_and, getAcl_setRuleOf, due_addUserOf, getAcl_addUserOf]
  · simp only [hr, if_false, false_and, getAcl_addUserOf]

theorem next_of_calm (hadds : ¬ w.Adds e) (hsets : ¬ w.Sets e) : w.next e = w := by
  have hsame : w.addUserOf e = w := if_neg hadds
  unfold next
  rw [hsame]
  split_ifs with hr
  · exact if_neg fun hdue => hsets ⟨hr, hdue⟩
  · rfl

end World

/-! ## The loop of the code -/

section Trace

variable {p : Progress} {w : World} {e : BaselineUser}

theorem userAdd_creatable (h : e.Creatable) :
    NtfyCli.userAdd e.username e.password .user =
      act (.userAdd e.username e.password .user) := by
  unfold NtfyCli.userAdd NtfyCli.checkUser NtfyCli.checkPassword
  rw [h.1, if_neg h.2]
  rfl

theorem userAdd_refused (h : ¬ e.Creatable) :
    ∃ message, NtfyCli.userAdd e.username e.password .user = fail (.value message) := by
  unfold NtfyCli.userAdd NtfyCli.checkUser NtfyCli.checkPassword
  by_cases hname : usernameRe e.username = true
  · have hpassword : e.password = "" := by
      by_contra hne
      exact h ⟨hname, hne⟩
    rw [hname, if_pos hpassword]
    exact ⟨_, rfl⟩
  · rw [if_neg (by simpa using hname)]
    exact ⟨_, rfl⟩

theorem accessSet_settable {user topic : String} (h : Settable user topic)
    (permission : Permission) :
    NtfyCli.accessSet user topic permission = act (.accessSet user topic permission) := by
  obtain ⟨hname, hpercent, htopic⟩ := h
  unfold NtfyCli.accessSet NtfyCli.checkUser NtfyCli.checkTopic
  rw [if_pos (by simpa using hname), if_neg (by simp [hpercent, htopic])]
  rfl

theorem accessSet_refused {user topic : String} (h : ¬ Settable user topic)
    (permission : Permission) :
    ∃ message, NtfyCli.accessSet user topic permission = fail (.value message) := by
  unfold NtfyCli.accessSet NtfyCli.checkUser NtfyCli.checkTopic
  by_cases hname : user = "everyone" ∨ usernameRe user = true
  · have htopic : '%' ∈ topic.toList ∨ topicPatternRe topic = false := by
      by_contra hnot
      rw [not_or, Bool.not_eq_false] at hnot
      exact h ⟨hname, hnot⟩
    rw [if_pos (by simpa using hname), if_pos htopic]
    exact ⟨_, rfl⟩
  · rw [if_neg (by simpa using hname)]
    exact ⟨_, rfl⟩

/-- How an entry ends: it is done, or a check of its arguments raises. -/
def Finishes (t : Except (Progress × Failure) Progress × World × List Op) (p : Progress)
    (w : World) (os : List Op) : Prop :=
  t = (.ok p, w, os) ∨ ∃ message, t = (.error (p, .value message), w, os)

/-- The rule of an entry, in a world in which its user is there. -/
theorem applyRule_trace (hrules : p.rules = w.tables.rules) :
    ∃ p' os, Finishes ((applyRule e p).trace apply w) p' (w.setRuleOf e) os ∧
      p'.roles = p.roles ∧ p'.rules = (w.setRuleOf e).tables.rules ∧
      p'.namedUsers = p.namedUsers ∧ p'.namedRules = e.key :: p.namedRules ∧
      p'.report.orphaned = p.report.orphaned ∧ (w.Due e → ∃ o ∈ os, o.external = true) ∧
      (¬ w.Due e → os = [] ∧ p'.report.rulesSet = p.report.rulesSet) := by
  have hrule : p.rules.get? e.key = w.rule? e.username e.topic := by
    rw [hrules]
    rfl
  unfold applyRule
  dsimp only
  rw [hrule]
  have hcalm : ¬ w.Due e → w.setRuleOf e = w := fun h => if_neg h
  cases hr : w.rule? e.username e.topic with
  | none =>
    by_cases hset : Settable e.username e.topic
    · have hdue : w.Due e := ⟨hset, .inl hr⟩
      have hafter : w.setRuleOf e = effect (effect w (.accessSet e.username e.topic e.permission))
          (.setAcl e.username e.topic .options) := by
        unfold World.setRuleOf
        rw [if_pos hdue]
        exact if_pos hr
      rw [accessSet_settable hset, hafter]
      refine ⟨_, _, .inl rfl, rfl, ?_, rfl, rfl, rfl, fun _ => ⟨_, List.mem_cons_self, rfl⟩,
        fun h => absurd hdue h⟩
      show p.rules.insert e.key e.permission = _
      rw [hrules]
      rfl
    · have hdue : ¬ w.Due e := fun h => hset h.1
      obtain ⟨message, hrefused⟩ := accessSet_refused hset e.permission
      rw [hcalm hdue, hrefused]
      exact ⟨_, _, .inr ⟨message, rfl⟩, rfl, hrules, rfl, rfl, rfl, fun h => absurd h hdue,
        fun _ => ⟨rfl, rfl⟩⟩
  | some current =>
    show ∃ p' os, Finishes ((if w.origins.getAcl e.username e.topic = .options then _ else _ :
      EntryAction Progress).trace apply w) p' _ os ∧ _
    split_ifs with hown hperm
    · by_cases hset : Settable e.username e.topic
      · have hdue : w.Due e := by
          refine ⟨hset, .inr ⟨hown, ?_⟩⟩
          rw [hr]
          exact fun h => hperm (Option.some.inj h)
        have hafter : w.setRuleOf e = effect w (.accessSet e.username e.topic e.permission) := by
          unfold World.setRuleOf
          rw [if_pos hdue]
          exact if_neg (by rw [hr]; exact Option.some_ne_none _)
        rw [accessSet_settable hset, hafter]
        refine ⟨_, _, .inl rfl, rfl, ?_, rfl, rfl, rfl, fun _ => ⟨_, List.mem_cons_self, rfl⟩,
          fun h => absurd hdue h⟩
        show p.rules.insert e.key e.permission = _
        rw [hrules]
        rfl
      · have hdue : ¬ w.Due e := fun h => hset h.1
        obtain ⟨message, hrefused⟩ := accessSet_refused hset e.permission
        rw [hcalm hdue, hrefused]
        exact ⟨_, _, .inr ⟨message, rfl⟩, rfl, hrules, rfl, rfl, rfl, fun h => absurd h hdue,
          fun _ => ⟨rfl, rfl⟩⟩
    · have hdue : ¬ w.Due e := by
        rintro ⟨-, hnone | ⟨-, hne⟩⟩
        · rw [hr] at hnone
          cases hnone
        · exact hne (hr.trans (congrArg some (not_not.mp hperm)))
      rw [hcalm hdue]
      exact ⟨_, _, .inl rfl, rfl, hrules, rfl, rfl, rfl, fun h => absurd h hdue,
        fun _ => ⟨rfl, rfl⟩⟩
    · have hdue : ¬ w.Due e := by
        rintro ⟨-, hnone | ⟨howned, -⟩⟩
        · rw [hr] at hnone
          cases hnone
        · exact hown howned
      rw [hcalm hdue]
      exact ⟨_, _, .inl rfl, rfl, hrules, rfl, rfl, rfl, fun h => absurd h hdue,
        fun _ => ⟨rfl, rfl⟩⟩

/-- What an entry has done to the notes: `added` and `reached` say how far it got. -/
structure Noted (w w' : World) (e : BaselineUser) (added reached : Prop) (p p' : Progress)
    (os : List Op) : Prop where
  roles : p'.roles = rolesOf w'.accounts
  rules : p'.rules = w'.tables.rules
  users : p'.namedUsers = p.namedUsers
  named : ∀ k, k ∈ p'.namedRules ↔ reached ∧ k = e.key ∨ k ∈ p.namedRules
  orphaned : p'.report.orphaned = p.report.orphaned
  calls : (∀ o ∈ os, o.external = false) ↔ ¬ added ∧ ¬ (reached ∧ w.Due e)
  rulesSet : ¬ (reached ∧ w.Due e) → p'.report.rulesSet = p.report.rulesSet

variable {options : Options}

/-- An entry whose user is there. -/
theorem applyToUser_trace (hoff : options.baselineOverwritePasswords = false)
    (hroles : p.roles = rolesOf w.accounts) (hrules : p.rules = w.tables.rules) (existed : Bool) :
    ∃ p' os, Finishes ((applyToUser options e existed p).trace apply w) p'
        (if w.role e.username ≠ some .admin ∧ e.topic ≠ "" then w.setRuleOf e else w) os ∧
      Noted w (if w.role e.username ≠ some .admin ∧ e.topic ≠ "" then w.setRuleOf e else w) e False
        (w.role e.username ≠ some .admin ∧ e.topic ≠ "") p p' os := by
  have hrole : p.roles.get? e.username = w.role e.username := by
    rw [hroles]
    rfl
  have hstill : ∀ q : Progress, q.report.orphaned = p.report.orphaned →
      q.report.rulesSet = p.report.rulesSet → q.roles = p.roles → q.rules = p.rules →
      q.namedUsers = p.namedUsers → q.namedRules = p.namedRules →
      ¬ (w.role e.username ≠ some .admin ∧ e.topic ≠ "") →
        Noted w w e False (w.role e.username ≠ some .admin ∧ e.topic ≠ "") p q [] := by
    intro q ho hs hq₁ hq₂ hq₃ hq₄ hnot
    exact ⟨hq₁.trans hroles, hq₂.trans hrules, hq₃, fun k => by simp [hnot, hq₄], ho,
      by simp [hnot], fun _ => hs⟩
  unfold applyToUser
  rw [hrole, hoff, Bool.and_false]
  by_cases hadmin : w.role e.username = some .admin
  · have hnot : ¬ (w.role e.username ≠ some .admin ∧ e.topic ≠ "") := fun h => h.1 hadmin
    rw [if_pos hadmin, if_neg hnot]
    exact ⟨_, _, .inl rfl, hstill _ rfl rfl rfl rfl rfl rfl hnot⟩
  rw [if_neg hadmin]
  show ∃ p' os, Finishes ((if e.topic = "" then _ else _ : EntryAction Progress).trace apply w) p'
    _ os ∧ _
  by_cases htopic : e.topic = ""
  · have hnot : ¬ (w.role e.username ≠ some .admin ∧ e.topic ≠ "") := fun h => h.2 htopic
    rw [if_pos htopic, if_neg hnot]
    exact ⟨_, _, .inl rfl, hstill _ rfl rfl rfl rfl rfl rfl hnot⟩
  · have hreached : w.role e.username ≠ some .admin ∧ e.topic ≠ "" := ⟨hadmin, htopic⟩
    rw [if_neg htopic, if_pos hreached]
    obtain ⟨p', os, hends, hr, hrules', hu, hn, ho, hdue, hcalm⟩ :=
      applyRule_trace (e := e) hrules
    refine ⟨p', os, hends, ?_, hrules', hu, fun k => by simp [hn, hreached], ho, ?_,
      fun h => (hcalm fun hd => h ⟨hreached, hd⟩).2⟩
    · rw [hr, hroles]
      unfold World.setRuleOf
      split_ifs <;> rfl
    · constructor
      · intro hall
        refine ⟨not_false, fun h => ?_⟩
        obtain ⟨o, ho, hext⟩ := hdue h.2
        rw [hall o ho] at hext
        cases hext
      · intro h
        rw [(hcalm fun hd => h.2 ⟨hreached, hd⟩).1]
        exact fun o ho => absurd ho List.not_mem_nil

theorem addUser_creatable (h : e.Creatable) : ∃ q,
    (addUser e p).trace apply w =
      (.ok (q, false), effect (effect w (.userAdd e.username e.password .user))
          (.setUser e.username .options),
        [.userAdd e.username e.password .user, .setUser e.username .options]) ∧
      q.roles = p.roles.insert e.username .user ∧ q.rules = p.rules ∧
      q.namedUsers = p.namedUsers ∧ q.namedRules = p.namedRules ∧
      q.report.orphaned = p.report.orphaned ∧ q.report.rulesSet = p.report.rulesSet := by
  unfold addUser
  dsimp only
  rw [userAdd_creatable h]
  exact ⟨_, rfl, rfl, rfl, rfl, rfl, rfl, rfl⟩

theorem addUser_refused (h : ¬ e.Creatable) :
    ∃ message, (addUser e p).trace apply w = (.error (p, .value message), w, []) := by
  obtain ⟨message, hrefused⟩ := userAdd_refused h
  unfold addUser
  dsimp only
  rw [hrefused]
  exact ⟨message, rfl⟩

/-- **One entry.** -/
theorem applyEntry_trace (hoff : options.baselineOverwritePasswords = false)
    (hroles : p.roles = rolesOf w.accounts) (hrules : p.rules = w.tables.rules) :
    ∃ p' os, Finishes ((applyEntry options e p).trace apply w) p' (w.next e) os ∧
      Noted w (w.next e) e (w.Adds e) (w.Reaches e) p p' os := by
  have hrole : p.roles.get? e.username = w.role e.username := by
    rw [hroles]
    rfl
  unfold applyEntry
  rw [hrole]
  by_cases hthere : (w.role e.username).isSome = true
  · have hadds : ¬ w.Adds e := fun h => by simp [h.1] at hthere
    have hreaches : w.Reaches e ↔ w.role e.username ≠ some .admin ∧ e.topic ≠ "" :=
      ⟨fun h => h.2, fun h => ⟨.inl hthere, h⟩⟩
    have hnext : w.next e = if w.role e.username ≠ some .admin ∧ e.topic ≠ "" then w.setRuleOf e
        else w := by
      unfold World.next World.addUserOf
      simp only [hadds, if_false, hreaches]
    rw [if_pos hthere, hnext]
    simp only [hadds, hreaches]
    exact applyToUser_trace hoff hroles hrules true
  · have hnone : w.role e.username = none := Option.not_isSome_iff_eq_none.mp hthere
    rw [if_neg hthere]
    by_cases hcreatable : e.Creatable
    · have hadds : w.Adds e := ⟨hnone, hcreatable⟩
      have hadded : w.addUserOf e = effect (effect w (.userAdd e.username e.password .user))
          (.setUser e.username .options) := if_pos hadds
      obtain ⟨q, hadd, hqroles, hqrules, hqusers, hqnamed, hqorphaned, hqset⟩ :=
        addUser_creatable (p := p) (w := w) hcreatable
      have hsync : q.roles = rolesOf (w.addUserOf e).accounts := by
        rw [hqroles, hroles, hadded]
        show _ = rolesOf (w.tables.accounts ++ [_])
        rw [rolesOf, rolesOf, List.foldl_append]
        rfl
      have hrole₁ : (w.addUserOf e).role e.username = some .user := by
        rw [World.role, ← hsync, hqroles, Dict.get?_insert, if_pos rfl]
      have hreaches :
          w.Reaches e ↔ (w.addUserOf e).role e.username ≠ some .admin ∧ e.topic ≠ "" := by
        simp [World.Reaches, hnone, hrole₁, hcreatable]
      obtain ⟨p', os, hends, hnoted⟩ := applyToUser_trace (e := e) hoff hsync
        (hqrules.trans (by rw [hrules, hadded]; rfl)) false
      have hnext : (if (w.addUserOf e).role e.username ≠ some .admin ∧ e.topic ≠ "" then
          (w.addUserOf e).setRuleOf e else w.addUserOf e) = w.next e := by
        unfold World.next
        simp only [hreaches]
      rw [hnext, ← hreaches] at hnoted
      rw [hnext] at hends
      rw [hadded] at hends
      refine ⟨p', .userAdd e.username e.password .user :: .setUser e.username .options :: os, ?_,
        hnoted.roles, hnoted.rules, hnoted.users.trans hqusers, ?_,
        hnoted.orphaned.trans hqorphaned, ?_, ?_⟩
      · rw [Script.bind_eq, Script.trace_bind, hadd]
        dsimp only
        rcases hends with h | ⟨message, h⟩
        · exact .inl (by rw [h]; rfl)
        · exact .inr ⟨message, by rw [h]; rfl⟩
      · intro k
        rw [hnoted.named, hqnamed]
      · simp [hadds, Op.external]
      · intro h
        rw [hnoted.rulesSet fun hd => h ⟨hd.1, (w.due_addUserOf e).mp hd.2⟩, hqset]
    · have hadds : ¬ w.Adds e := fun h => hcreatable h.2
      have hreaches : ¬ w.Reaches e := fun h => h.1.elim hthere hcreatable
      have hnext : w.next e = w := by
        unfold World.next World.addUserOf
        simp only [hadds, hreaches, if_false]
      obtain ⟨message, hrefused⟩ := addUser_refused (p := p) (w := w) hcreatable
      rw [hnext, Script.bind_eq, Script.trace_bind, hrefused]
      refine ⟨_, _, .inr ⟨message, rfl⟩, hroles, hrules, rfl, fun k => by simp [hreaches], rfl, ?_,
        fun _ => rfl⟩
      simp [hadds, hreaches]

/-- The body of the loop, for an entry that does not name the admin. -/
theorem applyNamed_trace (hoff : options.baselineOverwritePasswords = false)
    (hname : e.username ≠ options.adminUser) (hroles : p.roles = rolesOf w.accounts)
    (hrules : p.rules = w.tables.rules) :
    ∃ p' os, (applyNamed options p e).trace apply w = (.ok p', w.next e, os) ∧
      Noted w (w.next e) e (w.Adds e) (w.Reaches e)
        { p with namedUsers := e.username :: p.namedUsers } p' os := by
  obtain ⟨q, os, hends, hq⟩ := applyEntry_trace (e := e) hoff
    (p := { p with namedUsers := e.username :: p.namedUsers }) hroles hrules
  unfold applyNamed
  dsimp only
  rw [if_neg hname, Script.trace_handle]
  rcases hends with h | ⟨message, h⟩
  · exact ⟨q, os, by rw [h], hq⟩
  · refine ⟨q.warn s!"entry {e.username} failed: {message}", os, ?_, ⟨hq.roles, hq.rules, hq.users,
      hq.named, hq.orphaned, hq.calls, hq.rulesSet⟩⟩
    rw [h]
    exact Prod.ext rfl (Prod.ext rfl (List.append_nil os))

end Trace

/-- No entry does anything. -/
def World.Calm (w : World) (es : List BaselineUser) : Prop := ∀ e ∈ es, ¬ w.Adds e ∧ ¬ w.Sets e

/-- The rules that the entries name, one after the other. -/
def namedBy : World → List BaselineUser → List (String × String)
  | _, [] => []
  | w, e :: es => if w.Reaches e then e.key :: namedBy (w.next e) es else namedBy (w.next e) es

theorem calm_cons {w : World} {e : BaselineUser} {es : List BaselineUser} :
    w.Calm (e :: es) ↔ (¬ w.Adds e ∧ ¬ w.Sets e) ∧ (w.next e).Calm es := by
  unfold World.Calm
  rw [List.forall_mem_cons]
  constructor
  · intro h
    rw [World.next_of_calm w e h.1.1 h.1.2]
    exact h
  · intro h
    rw [World.next_of_calm w e h.1.1 h.1.2] at h
    exact h

theorem foldl_of_calm {w : World} {es : List BaselineUser} (h : w.Calm es) :
    es.foldl World.next w = w := by
  induction es with
  | nil => rfl
  | cons e es ih =>
    obtain ⟨he, hrest⟩ := calm_cons.mp h
    rw [World.next_of_calm w e he.1 he.2] at hrest
    rw [List.foldl_cons, World.next_of_calm w e he.1 he.2, ih hrest]

/-- **The loop.** -/
theorem applyEntries_trace {options : Options} {p : Progress} {w : World}
    (hoff : options.baselineOverwritePasswords = false) (hroles : p.roles = rolesOf w.accounts)
    (hrules : p.rules = w.tables.rules) (es : List BaselineUser) :
    ∃ p' os, (es.foldlM (applyNamed options) p).trace apply w =
        (.ok p', (es.filter fun e => e.username ≠ options.adminUser).foldl World.next w, os) ∧
      (∀ n, n ∈ p'.namedUsers ↔ n ∈ p.namedUsers ∨
        ∃ e ∈ es.filter (fun e => e.username ≠ options.adminUser), e.username = n) ∧
      (∀ k, k ∈ p'.namedRules ↔ k ∈ p.namedRules ∨
        k ∈ namedBy w (es.filter fun e => e.username ≠ options.adminUser)) ∧
      p'.report.orphaned = p.report.orphaned ∧
      ((∀ o ∈ os, o.external = false) ↔
        w.Calm (es.filter fun e => e.username ≠ options.adminUser)) ∧
      (w.Calm (es.filter fun e => e.username ≠ options.adminUser) →
        p'.report.rulesSet = p.report.rulesSet) := by
  induction es generalizing p w with
  | nil =>
    exact ⟨p, [], rfl, fun n => by simp, fun k => by simp [namedBy], rfl, by simp [World.Calm],
      fun _ => rfl⟩
  | cons e es ih =>
    by_cases hname : e.username = options.adminUser
    · have hskip : applyNamed options p e =
          pure (p.warn s!"entry {e.username} names the admin user and is ignored") := if_pos hname
      rw [List.filter_cons_of_neg (by simpa using hname), List.foldlM_cons, hskip]
      exact ih hroles hrules
    · obtain ⟨q, os, hstep, hq⟩ := applyNamed_trace hoff hname hroles hrules
      obtain ⟨p', os', hrest, husers, hnamed, horphaned, hcalls, hset⟩ := ih hq.roles hq.rules
      rw [List.filter_cons_of_pos (by simpa using hname), List.foldlM_cons, List.foldl_cons]
      refine ⟨p', os ++ os', ?_, fun n => ?_, fun k => ?_, horphaned.trans hq.orphaned, ?_, ?_⟩
      · rw [Script.bind_eq, Script.trace_bind, hstep]
        dsimp only
        rw [hrest]
      · rw [husers, hq.users, List.mem_cons]
        simp only [List.mem_cons, exists_eq_or_imp]
        tauto
      · rw [hnamed, hq.named, namedBy]
        split_ifs with hr
        · simp only [List.mem_cons, hr, true_and]
          tauto
        · simp [hr]
      · simp only [List.mem_append, or_imp, forall_and]
        rw [hq.calls, hcalls, calm_cons]
        rfl
      · intro h
        obtain ⟨hcalm, hrestCalm⟩ := calm_cons.mp h
        exact (hset hrestCalm).trans (hq.rulesSet hcalm.2)

/-! ## What left the options -/

section Orphan

variable (options : Options) (p : Progress) (w : World)

theorem orphan_internal : (orphan options p).Only fun o => o.external = false := by
  refine Script.Only.bind (fun _ => trivial) fun snap =>
    Script.Only.bind (Script.Only.foldlM ?_ _ _) fun orphaned =>
      Script.Only.bind (Script.Only.foldlM ?_ _ _) fun _ => trivial
  · rintro orphaned ⟨user, origin⟩
    unfold orphanUser
    dsimp only
    split_ifs
    · exact Script.Only.bind (Script.Only.act rfl) fun _ => trivial
    · trivial
  · rintro orphaned ⟨user, topic, origin⟩
    unfold orphanRule
    dsimp only
    split_ifs
    · exact Script.Only.bind (Script.Only.act rfl) fun _ => trivial
    · trivial

variable {options p w}

theorem mem_users_of_options {doc : Origins} {name : String} (h : doc.getUser name = .options) :
    (name, Origin.options) ∈ doc.users.entries := by
  rw [Dict.mem_entries]
  unfold Origins.getUser at h
  cases hget : doc.users.get? name with
  | none => rw [hget] at h; cases h
  | some origin => rw [hget] at h; exact congrArg some h

theorem mem_aclRecords_of_options {doc : Origins} {user topic : String}
    (h : doc.getAcl user topic = .options) : (user, topic, Origin.options) ∈ doc.aclRecords := by
  unfold Origins.getAcl at h
  cases hget : doc.acls.get? user with
  | none => rw [hget] at h; cases h
  | some rules =>
    rw [hget, Option.getD_some] at h
    cases hrule : rules.get? topic with
    | none => rw [hrule] at h; cases h
    | some origin =>
      rw [hrule] at h
      obtain rfl : origin = .options := h
      refine List.mem_flatMap.mpr ⟨(user, rules), Dict.mem_entries.mpr hget, ?_⟩
      exact List.mem_map.mpr ⟨(topic, .options), Dict.mem_entries.mpr hrule, rfl⟩

/-- Only what the entries name stays with the options. -/
structure Clean (options : Options) (p : Progress) (w : World) : Prop where
  user : ∀ n, w.origins.getUser n = .options → n = options.adminUser ∨ n ∈ p.namedUsers
  acl : ∀ u t, w.origins.getAcl u t = .options → (u, t) ∈ p.namedRules

variable (options p w) in
/-- What left the options is taken from them. -/
theorem orphan_cleans :
    (orphan options p).Ends apply (fun _ _ _ => False) (fun r w' => Clean options p w' ∧
      r.rulesSet = p.report.rulesSet) (fun _ _ => False) w := by
  refine Script.Ends.get (Script.Ends.bind ?_)
  let I : List (String × Origin) → List String → World → Prop := fun rest _ w' =>
    w'.origins.acls = w.origins.acls ∧ ∀ n, w'.origins.getUser n = .options →
      n = options.adminUser ∨ n ∈ p.namedUsers ∨ (n, Origin.options) ∈ rest
  refine (Script.Ends.foldlM (I := I) (fun record rest orphaned w' hI => ?_)
    ⟨rfl, fun n hn => .inr (.inr (mem_users_of_options hn))⟩).mono (fun orphaned w₁ h => ?_)
    fun _ _ h => h
  · obtain ⟨user, origin⟩ := record
    show (if _ then _ else _ : Action (List String)).Ends apply _ _ _ w'
    split_ifs with hc
    · refine Script.Ends.bind (act_ends ⟨hI.1, fun n hn => ?_⟩ fun e he => he.elim)
      have hset : (effect w' (.setUser user .gui)).origins.getUser n = _ :=
        Origins.getUser_setUser w'.origins user n .gui
      rw [hset] at hn
      split_ifs at hn with hne
      rcases hI.2 n hn with h | h | h
      · exact .inl h
      · exact .inr (.inl h)
      · refine .inr (.inr ((List.mem_cons.mp h).resolve_left fun heq => hne ?_))
        exact congrArg Prod.fst heq
    · refine ⟨hI.1, fun n hn => ?_⟩
      rcases hI.2 n hn with h | h | h
      · exact .inl h
      · exact .inr (.inl h)
      · rcases List.mem_cons.mp h with heq | hrest
        · obtain ⟨rfl, rfl⟩ : n = user ∧ Origin.options = origin := Prod.mk.inj heq
          by_cases hadmin : n = options.adminUser
          · exact .inl hadmin
          · by_contra hnot
            exact hc ⟨rfl, hadmin, fun h => hnot (.inr (.inl h))⟩
        · exact .inr (.inr hrest)
  · refine Script.Ends.bind ?_
    let J : List (String × String × Origin) → List String → World → Prop := fun rest _ w' =>
      w'.origins.users = w₁.origins.users ∧ ∀ u t, w'.origins.getAcl u t = .options →
        (u, t) ∈ p.namedRules ∨ (u, t, Origin.options) ∈ rest
    have hstart : J w.origins.aclRecords orphaned w₁ := by
      refine ⟨rfl, fun u t hacl => .inr (mem_aclRecords_of_options ?_)⟩
      unfold Origins.getAcl at hacl ⊢
      rwa [← h.1]
    refine (Script.Ends.foldlM (I := J) (fun record rest orphaned w' hJ => ?_) hstart).mono
      (fun orphaned w' hJ => ⟨⟨fun n hn => ?_, fun u t hacl => ?_⟩, rfl⟩) fun _ _ h => h
    · obtain ⟨user, topic, origin⟩ := record
      show (if _ then _ else _ : Action (List String)).Ends apply _ _ _ w'
      split_ifs with hc
      · refine Script.Ends.bind (act_ends ⟨hJ.1, fun u t hacl => ?_⟩ fun e he => he.elim)
        have hset : (effect w' (.setAcl user topic .gui)).origins.getAcl u t = _ :=
          Origins.getAcl_setAcl w'.origins user topic u t .gui
        rw [hset] at hacl
        split_ifs at hacl with hne
        refine (hJ.2 u t hacl).imp_right fun h => (List.mem_cons.mp h).resolve_left fun heq => ?_
        exact hne ⟨congrArg Prod.fst heq, congrArg (fun r => r.2.1) heq⟩
      · refine ⟨hJ.1, fun u t hacl => ?_⟩
        rcases hJ.2 u t hacl with h | h
        · exact .inl h
        · rcases List.mem_cons.mp h with heq | hrest
          · cases heq
            by_contra hnot
            exact hc ⟨rfl, fun h => hnot (.inl h)⟩
          · exact .inr hrest
    · have hn' : w₁.origins.getUser n = .options := by
        unfold Origins.getUser at hn ⊢
        rwa [← hJ.1]
      exact (h.2 n hn').imp_right fun h => h.resolve_right List.not_mem_nil
    · exact (hJ.2 u t hacl).resolve_right List.not_mem_nil

/-- Where the options have nothing else, nothing is orphaned. -/
theorem orphan_idle (hw : Clean options p w) :
    (orphan options p).Ends apply (fun _ _ _ => False)
      (fun r _ => r.orphaned = p.report.orphaned) (fun _ _ => False) w := by
  refine Script.Ends.get (Script.Ends.bind ?_)
  refine (Script.Ends.foldlM (I := fun rest orphaned _ => rest ⊆ w.origins.users.entries ∧
    orphaned = p.report.orphaned) (fun record rest orphaned w' hI => ?_)
    ⟨fun _ h => h, rfl⟩).mono (fun orphaned w₁ h => ?_) fun _ _ h => h
  · obtain ⟨user, origin⟩ := record
    show (if _ then _ else _ : Action (List String)).Ends apply _ _ _ w'
    rw [if_neg fun hc => ?_]
    · exact ⟨fun _ h => hI.1 (List.mem_cons_of_mem _ h), hI.2⟩
    · obtain ⟨rfl, hadmin, hunnamed⟩ := hc
      exact (hw.user user (getUser_of_mem (hI.1 List.mem_cons_self))).elim hadmin hunnamed
  · refine Script.Ends.bind ?_
    refine (Script.Ends.foldlM (I := fun rest orphaned _ => rest ⊆ w.origins.aclRecords ∧
      orphaned = p.report.orphaned) (fun record rest orphaned w' hJ => ?_)
      ⟨fun _ h => h, h.2⟩).mono (fun orphaned w' h => h.2) fun _ _ h => h
    obtain ⟨user, topic, origin⟩ := record
    show (if _ then _ else _ : Action (List String)).Ends apply _ _ _ w'
    rw [if_neg fun hc => ?_]
    · exact ⟨fun _ h => hJ.1 (List.mem_cons_of_mem _ h), hJ.2⟩
    · obtain ⟨rfl, hunnamed⟩ := hc
      exact hunnamed (hw.acl user topic (getAcl_of_mem (hJ.1 List.mem_cons_self)))

end Orphan

/-! ## After the first run -/

/-- The entries whose user is there when it is their turn: it was, or they or an entry before them
add it. -/
def reached (known : List String) : List BaselineUser → List BaselineUser
  | [] => []
  | e :: es =>
    if e.username ∈ known ∨ e.Creatable then e :: reached (e.username :: known) es
    else reached known es

/-- The user is there, or one of the entries adds it. -/
def Comes (w : World) (es : List BaselineUser) (name : String) : Prop :=
  (w.role name).isSome ∨ ∃ e ∈ es, e.username = name ∧ e.Creatable

section First

variable {w : World} {e : BaselineUser} {es : List BaselineUser} {known : List String}
  {user topic : String}

theorem isSome_role_next (name : String) :
    ((w.next e).role name).isSome ↔ (w.role name).isSome ∨ e.username = name ∧ e.Creatable := by
  rw [World.role_next]
  split_ifs with h
  · exact ⟨fun _ => .inr ⟨h.2.symm, h.1.2⟩, fun _ => rfl⟩
  · refine ⟨.inl, fun hor => hor.elim id ?_⟩
    rintro ⟨rfl, hcreatable⟩
    by_contra hnone
    exact h ⟨⟨Option.not_isSome_iff_eq_none.mp hnone, hcreatable⟩, rfl⟩

theorem role_admin_next (name : String) :
    (w.next e).role name = some .admin ↔ w.role name = some .admin := by
  rw [World.role_next]
  split_ifs with h
  · rw [h.2, h.1.1]
    simp
  · rfl

theorem isSome_role_foldl (name : String) :
    ((es.foldl World.next w).role name).isSome ↔ Comes w es name := by
  unfold Comes
  induction es generalizing w with
  | nil => simp
  | cons e es ih =>
    rw [List.foldl_cons, ih, isSome_role_next, or_assoc]
    simp only [List.mem_cons, exists_eq_or_imp]

theorem role_admin_foldl (name : String) :
    (es.foldl World.next w).role name = some .admin ↔ w.role name = some .admin := by
  induction es generalizing w with
  | nil => rfl
  | cons e es ih => rw [List.foldl_cons, ih, role_admin_next]

theorem mem_of_mem_reached (h : e ∈ reached known es) : e ∈ es := by
  induction es generalizing known with
  | nil => exact h
  | cons a es ih =>
    unfold reached at h
    split_ifs at h
    · exact (List.mem_cons.mp h).elim (fun h => h ▸ List.mem_cons_self) fun h =>
        List.mem_cons_of_mem _ (ih h)
    · exact List.mem_cons_of_mem _ (ih h)

/-- Who is known, after an entry. -/
theorem known_next (hknown : ∀ n, n ∈ known ↔ (w.role n).isSome) (e : BaselineUser) (n : String) :
    n ∈ (if e.username ∈ known ∨ e.Creatable then e.username :: known else known) ↔
      ((w.next e).role n).isSome := by
  rw [isSome_role_next]
  split_ifs with h
  · rw [List.mem_cons, hknown]
    constructor
    · rintro (rfl | hn)
      · exact h.imp (hknown _).mp fun hc => ⟨rfl, hc⟩
      · exact .inl hn
    · exact fun hor => hor.elim .inr fun hc => .inl hc.1.symm
  · rw [hknown]
    exact ⟨.inl, fun hor => hor.elim id fun hc => absurd (.inr hc.2) h⟩

theorem reached_mono {known' : List String} (h : known ⊆ known') :
    reached known es ⊆ reached known' es := by
  induction es generalizing known known' with
  | nil => exact fun _ ha => ha
  | cons e es ih =>
    unfold reached
    by_cases hc : e.username ∈ known ∨ e.Creatable
    · rw [if_pos hc, if_pos (hc.imp_left fun hmem => h hmem)]
      exact List.cons_subset_cons e (ih (List.cons_subset_cons _ h))
    · rw [if_neg hc]
      split_ifs
      · exact fun a ha => List.mem_cons_of_mem _ (ih (fun n hn => List.mem_cons_of_mem _ (h hn)) ha)
      · exact ih h

theorem reached_cons (known : List String) (e : BaselineUser) (es : List BaselineUser) :
    reached known (e :: es) =
      (if e.username ∈ known ∨ e.Creatable then [e] else []) ++
        reached (if e.username ∈ known ∨ e.Creatable then e.username :: known else known) es := by
  rw [reached]
  split_ifs <;> rfl

/-- The rules that the first run names. -/
theorem mem_namedBy (hknown : ∀ n, n ∈ known ↔ (w.role n).isSome) :
    (user, topic) ∈ namedBy w es ↔
      (∃ e ∈ reached known es, e.key = (user, topic)) ∧ w.role user ≠ some .admin ∧ topic ≠ "" := by
  induction es generalizing w known with
  | nil => simp [namedBy, reached]
  | cons e es ih =>
    have hrest := ih (known_next hknown e)
    rw [reached_cons, namedBy]
    have hreaches : w.Reaches e ↔ (e.username ∈ known ∨ e.Creatable) ∧
        w.role e.username ≠ some .admin ∧ e.topic ≠ "" := by
      rw [hknown]
      rfl
    have hkey : (user, topic) = e.key → e.username = user ∧ e.topic = topic := fun h =>
      ⟨(congrArg Prod.fst h).symm, (congrArg Prod.snd h).symm⟩
    by_cases hr : w.Reaches e
    · have hc := (hreaches.mp hr).1
      rw [if_pos hc] at hrest
      rw [if_pos hr, List.mem_cons, hrest, if_pos hc, if_pos hc, Ne, Ne, role_admin_next]
      constructor
      · rintro (h | ⟨⟨a, ha, hak⟩, hrole, ht⟩)
        · obtain ⟨rfl, rfl⟩ := hkey h
          exact ⟨⟨e, List.mem_append_left _ (List.mem_singleton_self e), rfl⟩, hr.2⟩
        · exact ⟨⟨a, List.mem_append_right _ ha, hak⟩, hrole, ht⟩
      · rintro ⟨⟨a, ha, hak⟩, hrole, ht⟩
        rcases List.mem_append.mp ha with ha | ha
        · rw [List.mem_singleton.mp ha] at hak
          exact .inl hak.symm
        · exact .inr ⟨⟨a, ha, hak⟩, hrole, ht⟩
    · rw [if_neg hr, hrest, Ne, Ne, role_admin_next]
      constructor
      · rintro ⟨⟨a, ha, hak⟩, h⟩
        exact ⟨⟨a, List.mem_append_right _ ha, hak⟩, h⟩
      · rintro ⟨⟨a, ha, hak⟩, hrole, ht⟩
        rcases List.mem_append.mp ha with ha | ha
        · split_ifs at ha with hc
          · rw [List.mem_singleton.mp ha] at hak
            obtain ⟨rfl, rfl⟩ := hkey hak.symm
            exact absurd (hreaches.mpr ⟨hc, hrole, ht⟩) hr
          · exact absurd ha List.not_mem_nil
        · exact ⟨⟨a, ha, hak⟩, hrole, ht⟩

theorem open_of_sets (h : w.Sets e) : w.Open e.username e.topic :=
  ⟨h.1.2.2, h.2.1, h.1.2.1, h.2.2.imp_right And.left⟩

theorem open_next (h : w.Open user topic) : (w.next e).Open user topic := by
  obtain ⟨htopic, hset, hrole, hopen⟩ := h
  refine ⟨htopic, hset, fun hadmin => hrole ((role_admin_next user).mp hadmin), ?_⟩
  rw [World.rule?_next, World.getAcl_next]
  split_ifs
  · exact .inr rfl
  · exact hopen

variable (es) in
/-- What nobody but others has, the first run leaves alone. -/
theorem foldl_of_not_open (h : ¬ w.Open user topic) :
    (es.foldl World.next w).rule? user topic = w.rule? user topic ∧
      (es.foldl World.next w).origins.getAcl user topic = w.origins.getAcl user topic := by
  induction es generalizing w with
  | nil => exact ⟨rfl, rfl⟩
  | cons e es ih =>
    have hother : ¬ (w.Sets e ∧ (user, topic) = e.key) := by
      rintro ⟨hsets, hkey⟩
      obtain ⟨rfl, rfl⟩ : user = e.username ∧ topic = e.topic := Prod.mk.inj hkey
      exact h (open_of_sets hsets)
    have hrule : (w.next e).rule? user topic = w.rule? user topic := by
      rw [World.rule?_next, if_neg hother]
    have hacl : (w.next e).origins.getAcl user topic = w.origins.getAcl user topic := by
      rw [World.getAcl_next, if_neg hother]
    have hclosed : ¬ (w.next e).Open user topic := by
      unfold World.Open at h ⊢
      rwa [hrule, hacl, Ne, Ne, role_admin_next]
    rw [List.foldl_cons, (ih hclosed).1, (ih hclosed).2]
    exact ⟨hrule, hacl⟩

variable (es) in
/-- **A rule after the first run.** One of the entries that reach it has set it, or none reaches
it. -/
theorem foldl_of_open (hknown : ∀ n, n ∈ known ↔ (w.role n).isSome) (h : w.Open user topic) :
    (∃ a ∈ reached known es, a.key = (user, topic) ∧
      (es.foldl World.next w).rule? user topic = some a.permission ∧
        (es.foldl World.next w).origins.getAcl user topic = .options) ∨
    ((∀ a ∈ reached known es, a.key ≠ (user, topic)) ∧
      (es.foldl World.next w).rule? user topic = w.rule? user topic ∧
        (es.foldl World.next w).origins.getAcl user topic = w.origins.getAcl user topic) := by
  induction es generalizing w known with
  | nil => exact .inr ⟨fun a ha => absurd ha List.not_mem_nil, rfl, rfl⟩
  | cons e es ih =>
    rw [reached_cons, List.foldl_cons]
    rcases ih (known_next hknown e) (open_next h) with ⟨a, ha, hkey, hset⟩ | ⟨hnone, hrule, hacl⟩
    · exact .inl ⟨a, List.mem_append_right _ ha, hkey, hset⟩
    rw [hrule, hacl, World.rule?_next, World.getAcl_next]
    by_cases hmine : (e.username ∈ known ∨ e.Creatable) ∧ (user, topic) = e.key
    · obtain ⟨hthere, hkey⟩ := hmine
      obtain ⟨rfl, rfl⟩ : user = e.username ∧ topic = e.topic := Prod.mk.inj hkey
      refine .inl ⟨e, List.mem_append_left _ ?_, rfl, ?_⟩
      · rw [if_pos hthere]
        exact List.mem_singleton_self e
      have hreaches : w.Reaches e := ⟨hthere.imp_left (hknown _).mp, h.2.2.1, h.1⟩
      by_cases hdue : w.Due e
      · rw [if_pos ⟨⟨hreaches, hdue⟩, rfl⟩, if_pos ⟨⟨hreaches, hdue⟩, rfl⟩]
        exact ⟨rfl, rfl⟩
      · -- the rule is there already, as the entry wants it
        rw [if_neg fun hs => hdue hs.1.2, if_neg fun hs => hdue hs.1.2]
        have hsome : w.rule? e.username e.topic ≠ none := fun hn => hdue ⟨h.2.1, .inl hn⟩
        have hown := h.2.2.2.resolve_left hsome
        refine ⟨?_, hown⟩
        by_contra hne
        exact hdue ⟨h.2.1, .inr ⟨hown, hne⟩⟩
    · have hother : ¬ (w.Sets e ∧ (user, topic) = e.key) := fun hs =>
        hmine ⟨hs.1.1.1.imp_left (hknown _).mpr, hs.2⟩
      rw [if_neg hother, if_neg hother]
      refine .inr ⟨fun a ha => ?_, rfl, rfl⟩
      rcases List.mem_append.mp ha with ha | ha
      · split_ifs at ha with hc
        · rw [List.mem_singleton.mp ha]
          exact fun hkey => hmine ⟨hc, hkey.symm⟩
        · exact absurd ha List.not_mem_nil
      · exact hnone a ha

end First

/-! ## The second run -/

def knownOf (w : World) : List String := w.accounts.map fun a => a.name

/-- Entries about one rule that the options may set want the same permission, if one of them reaches
it in the first run; and one of them does, if the rule is not there. -/
def Steady (options : Options) (w : World) : Prop :=
  ∀ e ∈ entriesOf options, Comes w (entriesOf options) e.username → w.Open e.username e.topic →
    (w.rule? e.username e.topic = none →
      ∃ a ∈ reached (knownOf w) (entriesOf options), a.key = e.key) ∧
    ∀ a ∈ reached (knownOf w) (entriesOf options), a.key = e.key → a.permission = e.permission

theorem mem_knownOf (w : World) (name : String) : name ∈ knownOf w ↔ (w.role name).isSome := by
  obtain ⟨hsome, hrole⟩ := rolesOf_cases w.accounts name
  unfold knownOf
  rw [List.mem_map]
  constructor
  · exact fun h => hsome h
  · intro h
    obtain ⟨r, hr⟩ := Option.isSome_iff_exists.mp h
    obtain ⟨a, ha, hname, -⟩ := hrole r hr
    exact ⟨a, ha, hname⟩

section Second

variable {options : Options} {w w' : World} {es : List BaselineUser}

/-- What a run leaves. -/
structure Settles (w : World) (es : List BaselineUser) (w' : World) : Prop where
  db : w'.db = (es.foldl World.next w).db
  acl : ∀ u t, w'.origins.getAcl u t = .options ↔
    (es.foldl World.next w).origins.getAcl u t = .options ∧ (u, t) ∈ namedBy w es

theorem Settles.role (h : Settles w es w') (name : String) :
    w'.role name = (es.foldl World.next w).role name := by
  unfold World.role World.accounts World.tables
  rw [h.db]

theorem Settles.rule? (h : Settles w es w') (user topic : String) :
    w'.rule? user topic = (es.foldl World.next w).rule? user topic := by
  unfold World.rule? World.tables
  rw [h.db]

theorem Settles.reaches (h : Settles w es w') {e : BaselineUser} (he : e ∈ es) :
    w'.Reaches e ↔ Comes w es e.username ∧ w.role e.username ≠ some .admin ∧ e.topic ≠ "" := by
  unfold World.Reaches
  rw [h.role, isSome_role_foldl, Ne, Ne, role_admin_foldl]
  have hcomes : e.Creatable → Comes w es e.username := fun hc => .inr ⟨e, he, rfl, hc⟩
  rw [or_iff_left_of_imp hcomes]

/-- **When the entries have nothing left to do.** -/
theorem Settles.calm_iff (h : Settles w (entriesOf options) w') :
    w'.Calm (entriesOf options) ↔ Steady options w := by
  have hadds : ∀ e ∈ entriesOf options, ¬ w'.Adds e := by
    intro e he hadds
    have hcomes : (w'.role e.username).isSome := by
      rw [h.role, isSome_role_foldl]
      exact .inr ⟨e, he, rfl, hadds.2⟩
    rw [hadds.1] at hcomes
    cases hcomes
  constructor
  · intro hcalm e he hcomes hopen
    have hquiet : ∀ a ∈ entriesOf options, a.key = e.key → ¬ w'.Due a := by
      intro a ha hkey hdue
      obtain ⟨hu, ht⟩ : a.username = e.username ∧ a.topic = e.topic := Prod.mk.inj hkey
      refine (hcalm a ha).2 ⟨(h.reaches ha).mpr ?_, hdue⟩
      rw [hu, ht]
      exact ⟨hcomes, hopen.2.2.1, hopen.1⟩
    rcases foldl_of_open (entriesOf options) (mem_knownOf w) hopen with
      ⟨a, ha, hkey, hrule, hacl⟩ | ⟨hnone, hrule, -⟩
    · have hnamed : (e.username, e.topic) ∈ namedBy w (entriesOf options) :=
        (mem_namedBy (mem_knownOf w)).mpr ⟨⟨a, ha, hkey⟩, hopen.2.2.1, hopen.1⟩
      have hsame : ∀ b ∈ entriesOf options, b.key = e.key → b.permission = a.permission := by
        intro b hb hbkey
        obtain ⟨hu, ht⟩ : b.username = e.username ∧ b.topic = e.topic := Prod.mk.inj hbkey
        by_contra hne
        refine hquiet b hb hbkey ?_
        unfold World.Due
        rw [hu, ht, h.rule?, hrule]
        refine ⟨hopen.2.1, .inr ⟨(h.acl _ _).mpr ⟨hacl, hnamed⟩, fun hsome => hne ?_⟩⟩
        exact (Option.some.inj hsome).symm
      refine ⟨fun _ => ⟨a, ha, hkey⟩, fun b hb hbkey => ?_⟩
      rw [hsame b (mem_of_mem_reached hb) hbkey, hsame e he rfl]
    · refine ⟨fun hmissing => ?_, fun b hb hbkey => absurd hbkey (hnone b hb)⟩
      refine absurd ⟨hopen.2.1, .inl ?_⟩ (hquiet e he rfl)
      rw [h.rule?, hrule, hmissing]
  · intro hsteady e he
    refine ⟨hadds e he, fun hsets => ?_⟩
    obtain ⟨hcomes, hrole, htopic⟩ := (h.reaches he).mp hsets.1
    obtain ⟨hset, hdue⟩ := hsets.2
    rw [h.rule?, h.acl] at hdue
    by_cases hopen : w.Open e.username e.topic
    · obtain ⟨hsome, hagree⟩ := hsteady e he hcomes hopen
      rcases foldl_of_open (entriesOf options) (mem_knownOf w) hopen with
        ⟨a, ha, hkey, hrule, hacl⟩ | ⟨hnone, hrule, hacl⟩
      · rw [hrule, hagree a ha hkey] at hdue
        rcases hdue with hd | hd
        · cases hd
        · exact hd.2 rfl
      · rcases hdue with hd | ⟨⟨-, hnamed⟩, -⟩
        · obtain ⟨a, ha, hkey⟩ := hsome (hrule.symm.trans hd)
          exact hnone a ha hkey
        · obtain ⟨⟨a, ha, hkey⟩, -⟩ := (mem_namedBy (mem_knownOf w)).mp hnamed
          exact hnone a ha hkey
    · obtain ⟨hrule, hacl⟩ := foldl_of_not_open (entriesOf options) hopen
      rw [hrule, hacl] at hdue
      exact hopen ⟨htopic, hset, hrole, hdue.imp_right fun hd => hd.1.1⟩

/-- A run makes no call of the command line, sets no rule and orphans nothing. -/
structure Idle (t : Except Failure BaselineReport × World × List Op) : Prop where
  calls : ∀ o ∈ t.2.2, o.external = false
  report : ∃ r, t.1 = .ok r ∧ r.rulesSet = [] ∧ r.orphaned = []

/-- The world after a run in which nothing fails. -/
def afterRun (options : Options) (w : World) : World :=
  ((applyBaseline options none).trace apply w).2.1

theorem readTables_trace (w : World) :
    (readTables none).trace apply w = (.ok (start w), w, []) := by
  show Script.trace apply ((Script.done (readDb none w)).bind _) w = _
  unfold start World.accounts World.tables
  cases hdb : w.db with
  | none =>
    have hread : readDb none w =
        .error ⟨"db_unavailable", "auth database is not available"⟩ := by
      simp only [readDb, hdb]
    rw [hread]
    rfl
  | some t =>
    have hread : readDb none w = .ok t := by simp only [readDb, hdb]
    rw [hread]
    rfl

/-- **A whole run.** -/
theorem applyBaseline_trace (hoff : options.baselineOverwritePasswords = false) (w : World) :
    ∃ p r os, (applyBaseline options none).trace apply w = (.ok r, afterRun options w, os) ∧
      Orphans p.namedRules ((entriesOf options).foldl World.next w) (afterRun options w) ∧
      Clean options p (afterRun options w) ∧
      (∀ n, n ∈ p.namedUsers ↔ ∃ e ∈ entriesOf options, e.username = n) ∧
      (∀ k, k ∈ p.namedRules ↔ k ∈ namedBy w (entriesOf options)) ∧
      ((∀ o ∈ os, o.external = false) ↔ w.Calm (entriesOf options)) ∧
      (w.Calm (entriesOf options) → r.rulesSet = []) ∧
      (Clean options p ((entriesOf options).foldl World.next w) → r.orphaned = []) := by
  obtain ⟨p, os, hloop, husers, hnamed, horphaned, hcalls, hset⟩ :=
    applyEntries_trace (p := start w) hoff rfl rfl options.baselineUsers
  change Script.trace apply _ w = (.ok p, (entriesOf options).foldl World.next w, os) at hloop
  have hinternal : ∀ o ∈ ((orphan options p).trace apply _).2.2, o.external = false :=
    Script.Only.trace (w := (entriesOf options).foldl World.next w) (orphan_internal options p)
  have hnofail : OnlyExternal fun _ _ _ => False := fun _ _ _ h => h.elim
  have hends := ((orphan_ends hnofail).and
    (orphan_cleans options p ((entriesOf options).foldl World.next w))).trace
  rcases hlast : (orphan options p).trace apply ((entriesOf options).foldl World.next w) with
    ⟨res, w', os'⟩
  rw [hlast] at hinternal hends
  cases res with
  | error e => exact hends.1.elim
  | ok r =>
    obtain ⟨horphans, hclean, hrules⟩ := hends
    have hrun : (applyBaseline options none).trace apply w = (.ok r, w', os ++ os') := by
      unfold applyBaseline
      rw [Script.bind_eq, Script.trace_bind, readTables_trace]
      dsimp only
      rw [Script.bind_eq, Script.trace_bind, hloop]
      dsimp only
      rw [hlast]
      rfl
    have hafter : afterRun options w = w' := by rw [afterRun, hrun]
    rw [hafter]
    refine ⟨p, r, os ++ os', hrun, horphans, hclean, fun n => ?_, fun k => ?_, ?_, ?_, ?_⟩
    · rw [husers]
      exact or_iff_right List.not_mem_nil
    · rw [hnamed]
      exact or_iff_right List.not_mem_nil
    · rw [← show _ ↔ w.Calm (entriesOf options) from hcalls]
      simp only [List.mem_append, or_imp, forall_and, and_iff_left_iff_imp]
      exact fun _ => hinternal
    · exact fun hcalm => hrules.trans (hset hcalm)
    · intro hw
      have hidle := (orphan_idle hw).trace
      rw [hlast] at hidle
      exact hidle.trans horphaned

/-- **When the second run does nothing.** -/
theorem second_run_idle_iff (options : Options) (w : World)
    (hoff : options.baselineOverwritePasswords = false) :
    Idle ((applyBaseline options none).trace apply (afterRun options w)) ↔ Steady options w := by
  obtain ⟨p, -, -, -, horphans, hclean, husers, hnamed, -⟩ := applyBaseline_trace hoff w
  have hsettles : Settles w (entriesOf options) (afterRun options w) := by
    refine ⟨horphans.db, fun u t => ⟨fun h => ?_, fun ⟨h, hmem⟩ => ?_⟩⟩
    · have hmem := hclean.acl u t h
      refine ⟨?_, (hnamed _).mp hmem⟩
      rcases horphans.acl u t with hsame | ⟨hown, -⟩
      · exact hsame ▸ h
      · exact hown
    · rcases horphans.acl u t with hsame | ⟨-, hnot⟩
      · exact hsame.trans h
      · exact absurd ((hnamed _).mpr hmem) hnot
  rw [← hsettles.calm_iff]
  obtain ⟨p', r, os, hrun, -, -, husers', hnamed', hcalls, hset, hidle⟩ :=
    applyBaseline_trace hoff (afterRun options w)
  rw [hrun]
  refine ⟨fun h => hcalls.mp h.calls, fun hcalm => ⟨hcalls.mpr hcalm, r, rfl, hset hcalm, hidle ?_⟩⟩
  -- nothing changes in the loop, and the second run names what the first has named
  rw [foldl_of_calm hcalm]
  refine ⟨fun n hn => (hclean.user n hn).imp_right fun h => (husers' n).mpr ((husers n).mp h),
    fun u t h => (hnamed' _).mpr ?_⟩
  obtain ⟨⟨a, ha, hkey⟩, hrole, htopic⟩ :=
    (mem_namedBy (mem_knownOf w)).mp ((hnamed _).mp (hclean.acl u t h))
  refine (mem_namedBy (mem_knownOf _)).mpr ⟨⟨a, reached_mono (fun n hn => ?_) ha, hkey⟩, ?_, htopic⟩
  · rw [mem_knownOf] at hn ⊢
    rw [hsettles.role, isSome_role_foldl]
    exact .inl hn
  · rwa [hsettles.role, Ne, role_admin_foldl]

end Second

/-- One entry for one rule. -/
theorem second_run_idle_sample :
    Idle ((applyBaseline { baselineUsers := [sampleEntry] } none).trace apply
      (afterRun { baselineUsers := [sampleEntry] } ⟨none, .empty⟩)) := by
  refine (second_run_idle_iff { baselineUsers := [sampleEntry] } ⟨none, .empty⟩ rfl).mpr ?_
  intro e he _ _
  obtain rfl : e = sampleEntry := by simpa using (List.mem_filter.mp he).1
  decide +kernel

def torn : Options where
  baselineUsers := [sampleEntry, { sampleEntry with writeAccess := false }]

/-- Two entries about one rule, with and without write access: the second run sets the rule
twice. -/
theorem resynced :
    ¬ Idle ((applyBaseline torn none).trace apply (afterRun torn ⟨none, .empty⟩)) := by
  intro h
  have hcalls := h.calls
  revert hcalls
  decide +kernel

end HaAddons.Ntfy

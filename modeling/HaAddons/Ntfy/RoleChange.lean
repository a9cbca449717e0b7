import HaAddons.Lib.System
import HaAddons.Ntfy.Accounts

/-!
# Rules across role changes

The rules of a user move between ntfy's database and the stash. A promotion replaces the stash, so
what a failed demotion has left there is lost.

* `rules_kept` — no rule is lost as long as no promotion replaces a stashed rule that is not active.
* `rule_lost` — a demotion that fails in the middle, and the promotion after it.
-/

namespace HaAddons.Ntfy

/-! ## Runs -/

/-- A call of `change_role`, with the failures of its external operations. -/
structure Call where
  name : String
  role : String
  failures : List (Option Failure)

/-- One call after the other. The origin store does not fail. -/
def roleSystem (options : Options) (w : World) : System World Call where
  init s := s = w
  next s c :=
    some ((changeRole options c.name c.role).evalWhere apply (fun o _ => o.external) s c.failures).2

/-- ntfy keeps rules for users and for everyone, and none for admins. -/
def RulesOfUsers (w : World) : Prop :=
  ∀ a ∈ w.accounts, a.name ≠ "everyone" → a.role ≠ .user → ∀ topic, w.rule? a.name topic = none

/-- A rule is active or in the stash. -/
def RuleKept (w : World) (name : String) (r : StashedRule) : Prop :=
  r ∈ activeRules w name ∨ r ∈ w.origins.stash name

instance (w : World) (name : String) (r : StashedRule) : Decidable (RuleKept w name r) :=
  inferInstanceAs (Decidable (_ ∨ _))

/-- The call promotes the user, whose active rules replace a stash that holds the rule. Neither the
backup nor the change of role fails. -/
structure Replaces (w : World) (c : Call) (name : String) (r : StashedRule) : Prop where
  promotes : c.role = "admin"
  called : c.name = name
  active : activeRules w name ≠ []
  stashed : r ∈ w.origins.stash name
  inactive : r ∉ activeRules w name
  succeeds : ∀ f ∈ c.failures.take 2, f = none

/-! ## Active rules -/

theorem mem_snapshotAcl {w : World} {name topic : String} {permission : Permission} :
    (topic, permission) ∈ snapshotAcl w name ↔ w.rule? name topic = some permission := by
  rw [snapshotAcl, List.mem_insertionSort, List.mem_map, World.rule?, ← Dict.mem_entries]
  constructor
  · rintro ⟨⟨⟨u, t⟩, p⟩, hmem, heq⟩
    obtain ⟨hentry, hu⟩ := List.mem_filter.mp hmem
    cases heq
    obtain rfl : u = name := by simpa using hu
    exact hentry
  · intro hmem
    exact ⟨((name, topic), permission), List.mem_filter.mpr ⟨hmem, by simp⟩, rfl⟩

theorem mem_activeRules {w : World} {name : String} {r : StashedRule} :
    r ∈ activeRules w name ↔
      w.rule? name r.topic = some r.permission ∧ w.origins.getAcl name r.topic = r.origin := by
  rw [activeRules, List.mem_map]
  constructor
  · rintro ⟨⟨t, p⟩, hmem, rfl⟩
    exact ⟨mem_snapshotAcl.mp hmem, rfl⟩
  · rintro ⟨hrule, horigin⟩
    exact ⟨(r.topic, r.permission), mem_snapshotAcl.mpr hrule, by rw [horigin]⟩

/-- A user has one rule a topic. -/
theorem nodup_activeRules (w : World) (name : String) :
    ((activeRules w name).map StashedRule.topic).Nodup := by
  have htopics : (activeRules w name).map StashedRule.topic = (snapshotAcl w name).map Prod.fst := by
    rw [activeRules, List.map_map]
    rfl
  have hperm : ((snapshotAcl w name).map Prod.fst).Perm
      ((w.tables.rules.entries.filter fun e => e.1.1 = name).map fun e => e.1.2) := by
    have := (List.perm_insertionSort (fun a b : String × Permission => a.1 ≤ b.1)
      ((w.tables.rules.entries.filter fun e => e.1.1 = name).map fun e => (e.1.2, e.2))).map Prod.fst
    rwa [List.map_map] at this
  rw [htopics, hperm.nodup_iff]
  have hkeys := w.tables.rules.nodup.sublist
    ((List.filter_sublist (p := fun e => decide (e.1.1 = name))).map Prod.fst)
  refine List.Nodup.map_on ?_ (List.Nodup.of_map _ hkeys)
  intro e he e' he' htopic
  have hu : e.1.1 = name := by simpa using (List.mem_filter.mp he).2
  have hu' : e'.1.1 = name := by simpa using (List.mem_filter.mp he').2
  exact List.inj_on_of_nodup_map hkeys he he' (Prod.ext (hu.trans hu'.symm) htopic)

theorem activeRules_eq_nil {w : World} {name : String} (h : ∀ topic, w.rule? name topic = none) :
    activeRules w name = [] := by
  refine List.eq_nil_iff_forall_not_mem.mpr fun r hr => ?_
  have := (mem_activeRules.mp hr).1
  rw [h] at this
  cases this

theorem snapshotAcl_eq_nil {w : World} {name : String} :
    snapshotAcl w name = [] ↔ activeRules w name = [] := by
  rw [activeRules, List.map_eq_nil_iff]

/-! ## What is kept -/

/-- The rule is active, or waits in a stash with one rule a topic. -/
def Guarded (w : World) (name : String) (r : StashedRule) : Prop :=
  r ∈ activeRules w name ∨
    r ∈ w.origins.stash name ∧ ((w.origins.stash name).map StashedRule.topic).Nodup

theorem Guarded.kept {w : World} {name : String} {r : StashedRule} (h : Guarded w name r) :
    RuleKept w name r := h.imp_right And.left

/-- Nothing of the user has changed. -/
structure SameFor (name : String) (w w' : World) : Prop where
  rule : ∀ topic, w'.rule? name topic = w.rule? name topic
  origin : ∀ topic, w'.origins.getAcl name topic = w.origins.getAcl name topic
  stash : w'.origins.stash name = w.origins.stash name

theorem Guarded.same {name : String} {r : StashedRule} {w w' : World} (h : Guarded w name r)
    (hs : SameFor name w w') : Guarded w' name r := by
  unfold Guarded at h ⊢
  rwa [mem_activeRules, hs.rule, hs.origin, hs.stash, ← mem_activeRules]

/-- What holds between two calls. -/
structure Between (name : String) (r : StashedRule) (w : World) : Prop where
  bare : RulesOfUsers w
  guarded : Guarded w name r

/-! ## Single operations -/

/-- External operations may fail, the origin store does not. -/
abbrev MayFail (o : Op) (_ : World) (_ : Failure) : Prop := o.external = true

theorem onlyExternal_mayFail : OnlyExternal MayFail := fun _ _ _ he => he

variable {α : Type} {Q : α → World → Prop} {R : Failure → World → Prop} {w : World}

/-- The user that is found is one of the accounts. -/
theorem exists_of_find?_buildUsers {options : Options} {name : String} {user : User}
    (h : (buildUsers options w).find? (fun u => decide (u.name = name)) = some user) :
    ∃ a ∈ w.accounts, a.name = name ∧ user = buildUser options w a := by
  have hname : user.name = name := of_decide_eq_true
    (List.find?_some (p := fun u : User => decide (u.name = name)) h)
  have hmem := List.mem_of_find?_eq_some h
  rw [buildUsers, List.mem_insertionSort, List.mem_map] at hmem
  obtain ⟨a, ha, rfl⟩ := hmem
  exact ⟨a, ha, hname, rfl⟩

theorem getUser_ends {options : Options} {name : String} {Q : User → World → Prop}
    (h : ∀ a ∈ w.accounts, a.name = name → Q (buildUser options w a) w) (hfail : ∀ e, R e w) :
    (getUser options name).Ends apply MayFail Q R w := by
  refine Script.Ends.get ?_
  cases hfind : (buildUsers options w).find? fun u => decide (u.name = name) with
  | none => exact hfail _
  | some user =>
    obtain ⟨a, ha, hname, rfl⟩ := exists_of_find?_buildUsers hfind
    exact h a ha hname

/-! ## Promotion -/

theorem dropRules_ends {name : String} {rows : List (String × Permission)}
    {Q : Unit → World → Prop}
    (h : ∀ w' : World, w'.db = w.db → (∀ u, w'.origins.stash u = w.origins.stash u) →
      (∀ u topic, u ≠ name → w'.origins.getAcl u topic = w.origins.getAcl u topic) → Q () w') :
    (dropRules name rows).Ends apply MayFail Q R w := by
  induction rows generalizing w with
  | nil => exact h w rfl (fun _ => rfl) fun _ _ _ => rfl
  | cons row rest ih =>
    refine Script.Ends.bind (act_internal onlyExternal_mayFail rfl (ih fun w' hdb hstash hacl => ?_))
    refine h w' hdb (fun u => ?_) fun u topic hu => ?_
    · rw [hstash]
      exact Origins.stash_dropAcl w.origins u name row.1
    · rw [hacl u topic hu]
      exact (Origins.getAcl_dropAcl w.origins name row.1 u topic).trans (if_neg fun hc => hu hc.1)

theorem stashRules_ends {name : String} {rows : List (String × Permission)}
    {Q : Unit → World → Prop}
    (h : ∀ w' : World, w'.db = w.db →
      w'.origins.stash name = rows.map (fun r => ⟨r.1, r.2, w.origins.getAcl name r.1⟩) →
      (∀ u, u ≠ name → w'.origins.stash u = w.origins.stash u ∧
        ∀ topic, w'.origins.getAcl u topic = w.origins.getAcl u topic) → Q () w') :
    (stashRules name rows).Ends apply MayFail Q R w := by
  refine Script.Ends.get (Script.Ends.bind (act_internal onlyExternal_mayFail rfl (dropRules_ends ?_)))
  intro w' hdb hstash hacl
  refine h w' hdb ?_ fun u hu => ⟨?_, fun topic => hacl u topic hu⟩
  · rw [hstash]
    exact (Origins.stash_stashAcl w.origins name name _).trans (if_pos rfl)
  · rw [hstash]
    exact (Origins.stash_stashAcl w.origins name u _).trans (if_neg hu)

theorem mem_updateAccount {name : String} {f : Account → Account} {accounts : List Account}
    {a : Account} (h : a ∈ updateAccount name f accounts) (hf : ∀ b : Account, (f b).name = b.name) :
    a.name ≠ name ∧ a ∈ accounts ∨ a.name = name ∧ ∃ b ∈ accounts, b.name = name ∧ a = f b := by
  obtain ⟨b, hb, hab⟩ := List.mem_map.mp h
  by_cases hn : b.name = name
  · rw [if_pos hn] at hab
    exact .inr ⟨by rw [← hab, hf, hn], b, hb, hn, hab.symm⟩
  · rw [if_neg hn] at hab
    exact .inl ⟨hab ▸ hn, hab ▸ hb⟩

/-- After a change of role, rules are still where they belong. -/
theorem RulesOfUsers.changeRole (h : RulesOfUsers w) (name : String) (role : Role)
    (hrole : role = .admin ∨ role = .user) : RulesOfUsers (effect w (.changeRole name role)) := by
  intro a ha hne hnu topic
  rw [World.rule?_changeRole]
  rw [World.accounts_changeRole] at ha
  rcases mem_updateAccount ha fun _ => rfl with ⟨hother, hmem⟩ | ⟨hname, b, -, -, rfl⟩
  · rw [if_neg fun hc => hother hc.2]
    exact h a hmem hne hnu topic
  · rcases hrole with rfl | rfl
    · rw [if_pos ⟨rfl, hname⟩]
    · exact absurd rfl hnu

theorem tables_of_db {w' : World} (hdb : w'.db = w.db) : w'.tables = w.tables := by
  rw [World.tables, hdb]
  rfl

theorem RulesOfUsers.of_db (h : RulesOfUsers w) {w' : World} (hdb : w'.db = w.db) :
    RulesOfUsers w' := by
  intro a ha hne hnu topic
  rw [World.accounts, tables_of_db hdb] at ha
  rw [World.rule?, tables_of_db hdb]
  exact h a ha hne hnu topic

/-- Other users are not concerned by a change of role. -/
theorem sameFor_changeRole {name user : String} (hu : user ≠ name) (role : Role) :
    SameFor user w (effect w (.changeRole name role)) where
  rule topic := by rw [World.rule?_changeRole, if_neg fun hc => hu hc.2]
  origin _ := rfl
  stash := rfl

theorem SameFor.trans {name : String} {w w' w'' : World} (h : SameFor name w w')
    (h' : SameFor name w' w'') : SameFor name w w'' where
  rule topic := (h'.rule topic).trans (h.rule topic)
  origin topic := (h'.origin topic).trans (h.origin topic)
  stash := h'.stash.trans h.stash

theorem sameFor_of_db {name : String} {w' : World} (hdb : w'.db = w.db)
    (h : w'.origins.stash name = w.origins.stash name ∧
      ∀ topic, w'.origins.getAcl name topic = w.origins.getAcl name topic) :
    SameFor name w w' where
  rule topic := by rw [World.rule?, World.rule?, tables_of_db hdb]
  origin := h.2
  stash := h.1

/-- What follows the change of role. -/
theorem getUser_last {options : Options} {n : String} {k : ℕ} {Q : World → Prop} (h : Q w) :
    ((getUser options n).bind fun user => pure (user, k)).Ends apply MayFail (fun _ => Q)
      (fun _ => Q) w :=
  Script.Ends.bind (getUser_ends (fun _ _ _ => h) fun _ => h)

/-- **Promotion.** All active rules go into the stash, which they replace. -/
theorem promote_ends {options : Options} {n name : String} {r : StashedRule}
    (h : Between name r w) (hsafe : n = name → activeRules w name ≠ [] →
      r ∈ w.origins.stash name → r ∈ activeRules w name) :
    (promote options n).Ends apply MayFail (fun _ => Between name r) (fun _ => Between name r)
      w := by
  have hrole : RulesOfUsers (effect w (.changeRole n .admin)) := h.bare.changeRole n .admin (.inl rfl)
  refine Script.Ends.get ?_
  by_cases hnone : snapshotAcl w n = []
  · rw [if_pos hnone]
    refine Script.Ends.bind (NtfyCli.userChangeRole_ends (getUser_last ⟨hrole, ?_⟩) fun _ => h)
    by_cases hn : name = n
    · subst hn
      rw [snapshotAcl_eq_nil] at hnone
      refine .inr (h.guarded.resolve_left fun hmem => ?_)
      rw [hnone] at hmem
      cases hmem
    · exact h.guarded.same (sameFor_changeRole hn .admin)
  · rw [if_neg hnone]
    refine Script.Ends.bind (act_ends ?_ fun _ _ => h)
    refine Script.Ends.bind (NtfyCli.userChangeRole_ends ?_ fun _ => h)
    refine Script.Ends.bind (stashRules_ends fun w' hdb hstash hother => ?_)
    refine getUser_last ⟨hrole.of_db hdb, ?_⟩
    by_cases hn : name = n
    · subst hn
      have hstashed : w'.origins.stash name = activeRules w name := hstash
      have hactive : activeRules w name ≠ [] := mt snapshotAcl_eq_nil.mpr hnone
      refine .inr ⟨?_, ?_⟩
      · rw [hstashed]
        rcases h.guarded with hmem | ⟨hmem, -⟩
        · exact hmem
        · exact hsafe rfl hactive hmem
      · rw [hstashed]
        exact nodup_activeRules w name
    · exact h.guarded.same ((sameFor_changeRole hn .admin).trans (sameFor_of_db hdb (hother name hn)))

/-! ## Demotion -/

/-- In the middle of a demotion, with these rules still to be restored. -/
structure Restoring (n name : String) (r : StashedRule) (pending : List StashedRule) (w : World) :
    Prop where
  bare : RulesOfUsers w
  demoted : ∀ a ∈ w.accounts, a.name = n → a.role = .user
  nodup : name = n → (pending.map StashedRule.topic).Nodup
  restored : name = n → r ∈ pending ∨
    r ∈ activeRules w name ∧ r.topic ∉ pending.map StashedRule.topic
  other : name ≠ n → Guarded w name r

/-- The world after one more rule. -/
def restore (w : World) (n : String) (rule : StashedRule) : World :=
  effect (effect w (.accessSet n rule.topic rule.permission)) (.setAcl n rule.topic rule.origin)

theorem rule?_restore (n name topic : String) (rule : StashedRule) :
    (restore w n rule).rule? name topic =
      if name = n ∧ topic = rule.topic then some rule.permission else w.rule? name topic :=
  World.rule?_accessSet w n rule.topic name topic rule.permission

theorem getAcl_restore (n name topic : String) (rule : StashedRule) :
    (restore w n rule).origins.getAcl name topic =
      if name = n ∧ topic = rule.topic then rule.origin else w.origins.getAcl name topic :=
  Origins.getAcl_setAcl w.origins n rule.topic name topic rule.origin

theorem mem_activeRules_restore (n name : String) (rule r : StashedRule) :
    r ∈ activeRules (restore w n rule) name ↔
      if name = n ∧ r.topic = rule.topic then r = rule else r ∈ activeRules w name := by
  rw [mem_activeRules, mem_activeRules, rule?_restore, getAcl_restore]
  by_cases h : name = n ∧ r.topic = rule.topic
  · rw [if_pos h, if_pos h, if_pos h, Option.some.injEq]
    constructor
    · intro ⟨hperm, horigin⟩
      cases r
      cases rule
      simp_all
    · intro heq
      rw [heq]
      exact ⟨rfl, rfl⟩
  · rw [if_neg h, if_neg h, if_neg h]

theorem Restoring.step {n name : String} {r rule : StashedRule} {rest : List StashedRule}
    (h : Restoring n name r (rule :: rest) w) : Restoring n name r rest (restore w n rule) where
  bare := by
    intro a ha hne hnu topic
    rw [rule?_restore, if_neg fun hc => hnu (h.demoted a ha hc.1)]
    exact h.bare a ha hne hnu topic
  demoted := h.demoted
  nodup hn := (List.nodup_cons.mp (h.nodup hn)).2
  restored hn := by
    have hfirst : rule.topic ∉ rest.map StashedRule.topic := (List.nodup_cons.mp (h.nodup hn)).1
    rw [mem_activeRules_restore]
    rcases h.restored hn with hmem | ⟨hactive, htopic⟩
    · rcases List.mem_cons.mp hmem with rfl | hrest
      · rw [if_pos ⟨hn, rfl⟩]
        exact .inr ⟨rfl, hfirst⟩
      · exact .inl hrest
    · rw [List.map_cons, List.mem_cons, not_or] at htopic
      rw [if_neg fun hc => htopic.1 hc.2]
      exact .inr ⟨hactive, htopic.2⟩
  other hn := by
    refine (h.other hn).same ⟨fun topic => ?_, fun topic => ?_, rfl⟩
    · rw [rule?_restore, if_neg fun hc => hn hc.1]
    · rw [getAcl_restore, if_neg fun hc => hn hc.1]

/-- Where a rule cannot be set, it and the rest go back into the stash. -/
theorem Restoring.stopped {n name : String} {r : StashedRule} {pending : List StashedRule}
    (h : Restoring n name r pending w) : Between name r (effect w (.stashAcl n pending)) := by
  have hstash : (effect w (.stashAcl n pending)).origins.stash name =
      if name = n then pending else w.origins.stash name :=
    Origins.stash_stashAcl w.origins n name pending
  refine ⟨h.bare, ?_⟩
  by_cases hn : name = n
  · rw [if_pos hn] at hstash
    rcases h.restored hn with hmem | ⟨hactive, -⟩
    · refine .inr ?_
      rw [hstash]
      exact ⟨hmem, h.nodup hn⟩
    · exact .inl hactive
  · rw [if_neg hn] at hstash
    exact (h.other hn).same ⟨fun _ => rfl, fun _ => rfl, hstash⟩

theorem Restoring.finished {n name : String} {r : StashedRule} (h : Restoring n name r [] w) :
    Between name r w := by
  refine ⟨h.bare, ?_⟩
  by_cases hn : name = n
  · rcases h.restored hn with hmem | ⟨hactive, -⟩
    · cases hmem
    · exact .inl hactive
  · exact h.other hn

theorem restoreRules_ends {n name : String} {r : StashedRule} {pending : List StashedRule}
    (h : Restoring n name r pending w) :
    (restoreRules n pending).Ends apply MayFail (fun _ => Between name r) (fun _ => Between name r)
      w := by
  induction pending generalizing w with
  | nil => exact h.finished
  | cons rule rest ih =>
    refine Script.Ends.bind (Script.Ends.handle (NtfyCli.accessSet_ends ?_ fun e => ?_))
    · exact Script.Ends.bind (act_internal onlyExternal_mayFail rfl (ih h.step))
    · exact Script.Ends.bind (act_internal onlyExternal_mayFail rfl h.stopped)

/-- **Demotion.** The stash is emptied rule by rule, or what is left of it is put back. -/
theorem demote_ends {options : Options} {n name : String} {r : StashedRule} (h : Between name r w)
    (hbare : activeRules w n = []) :
    (demote options n).Ends apply MayFail (fun _ => Between name r) (fun _ => Between name r)
      w := by
  refine Script.Ends.bind (NtfyCli.userChangeRole_ends ?_ fun _ => h)
  refine Script.Ends.get (Script.Ends.bind (act_internal onlyExternal_mayFail rfl ?_))
  refine Script.Ends.bind ((restoreRules_ends ?_).mono (fun _ _ h' => getUser_last h') fun _ _ h' => h')
  have hrule : ∀ user topic, (effect w (.changeRole n .user)).rule? user topic =
      w.rule? user topic := fun user topic => by
    rw [World.rule?_changeRole]
    exact if_neg fun hc => by cases hc.1
  refine ⟨h.bare.changeRole n .user (.inr rfl), fun a ha hname => ?_, fun hn => ?_, fun hn => ?_,
    fun hn => ?_⟩
  · rcases mem_updateAccount ha fun _ => rfl with ⟨hother, -⟩ | ⟨-, b, -, -, rfl⟩
    · exact absurd hname hother
    · rfl
  · subst hn
    rcases h.guarded with hmem | ⟨-, hnodup⟩
    · rw [hbare] at hmem
      cases hmem
    · exact hnodup
  · subst hn
    rcases h.guarded with hmem | ⟨hmem, -⟩
    · rw [hbare] at hmem
      cases hmem
    · exact .inl hmem
  · refine h.guarded.same ⟨fun topic => hrule name topic, fun _ => rfl, ?_⟩
    exact (Origins.stash_popAclStash w.origins n name).trans (if_neg hn)

/-! ## Calls -/

/-- What a call leaves behind. -/
def after (s : Action α) (w : World) (fs : List (Option Failure)) : World :=
  (s.evalWhere apply (fun o _ => o.external) w fs).2

section Checks

variable {β : Type} {P : World → Prop} {fs : List (Option Failure)}

theorem after_ensureSupported {f : Unit → Action β} (hw : P w) (h : P (after (f ()) w fs)) :
    P (after (ensureSupported.bind f) w fs) := by
  show P (after ((if w.db.isSome then pure () else fail _ : Action Unit).bind f) w fs)
  split_ifs
  · exact h
  · exact hw

theorem after_checkRole {role : String} {f : Role → Action β} (hw : P w)
    (huser : role = "user" → P (after (f .user) w fs))
    (hadmin : role = "admin" → P (after (f .admin) w fs)) :
    P (after ((checkRole role).bind f) w fs) := by
  unfold checkRole
  split_ifs with hu ha
  · exact huser hu
  · exact hadmin ha
  · exact hw

theorem after_requireRealUser {name : String} {f : Unit → Action β} (hw : P w)
    (h : name ≠ "everyone" → P (after (f ()) w fs)) :
    P (after ((requireRealUser name).bind f) w fs) := by
  unfold requireRealUser
  split_ifs with he
  · exact hw
  · show P (after ((if w.accounts.any _ then pure () else fail _ : Action Unit).bind f) w fs)
    split_ifs
    · exact h he
    · exact hw

theorem after_getUser {options : Options} {name : String} {f : User → Action β} (hw : P w)
    (h : ∀ a ∈ w.accounts, a.name = name → P (after (f (buildUser options w a)) w fs)) :
    P (after ((getUser options name).bind f) w fs) := by
  cases hfind : (buildUsers options w).find? fun u => decide (u.name = name) with
  | none =>
    have : after ((getUser options name).bind f) w fs = w := by
      simp [getUser, look, Script.get, Script.bind, after, Script.evalWhere, hfind, fail]
    rwa [this]
  | some user =>
    obtain ⟨a, ha, hname, rfl⟩ := exists_of_find?_buildUsers hfind
    have : after ((getUser options name).bind f) w fs = after (f (buildUser options w a)) w fs := by
      simp [getUser, look, Script.get, Script.bind, after, Script.evalWhere, hfind]
    rw [this]
    exact h a ha hname

end Checks

/-- Past its checks, a call promotes or demotes. -/
theorem changeRole_cases (options : Options) (n role : String) (w : World)
    (fs : List (Option Failure)) :
    after (changeRole options n role) w fs = w ∨
      role = "admin" ∧ after (changeRole options n role) w fs = after (promote options n) w fs ∨
      (n ≠ "everyone" ∧ ∃ a ∈ w.accounts, a.name = n ∧ a.role ≠ .user) ∧
        after (changeRole options n role) w fs = after (demote options n) w fs := by
  let P : World → Prop := fun x => x = w ∨ role = "admin" ∧ x = after (promote options n) w fs ∨
    (n ≠ "everyone" ∧ ∃ a ∈ w.accounts, a.name = n ∧ a.role ≠ .user) ∧
      x = after (demote options n) w fs
  have hw : P w := .inl rfl
  show P (after (changeRole options n role) w fs)
  refine after_ensureSupported hw (after_checkRole hw (fun _ => ?_) fun hadmin => ?_)
  · refine after_requireRealUser hw fun hreal => after_getUser hw fun a ha hname => ?_
    show P (after (if a.role = .user then _ else _) w fs)
    by_cases hrole : a.role = .user
    · rw [if_pos hrole]
      exact hw
    · rw [if_neg hrole]
      cases (buildUser options w a).protectedReason with
      | some reason => exact hw
      | none => exact .inr (.inr ⟨⟨hreal, a, ha, hname, hrole⟩, rfl⟩)
  · refine after_requireRealUser hw fun hreal => after_getUser hw fun a ha hname => ?_
    show P (after (if a.role = .admin then _ else _) w fs)
    by_cases hrole : a.role = .admin
    · rw [if_pos hrole]
      exact hw
    · rw [if_neg hrole]
      exact .inr (.inl ⟨hadmin, rfl⟩)

/-- A promotion whose backup or change of role fails changes nothing. -/
theorem after_promote_of_failure {options : Options} {n : String} {fs : List (Option Failure)}
    (hactive : activeRules w n ≠ []) (hfs : ¬ ∀ f ∈ fs.take 2, f = none) :
    after (promote options n) w fs = w := by
  have hnone : snapshotAcl w n ≠ [] := mt snapshotAcl_eq_nil.mp hactive
  show after (if snapshotAcl w n = [] then _ else _) w fs = w
  rw [if_neg hnone]
  rcases fs with - | ⟨- | e, fs⟩
  · exact absurd (by simp) hfs
  · rcases fs with - | ⟨- | e, fs⟩
    · exact absurd (by simp) hfs
    · exact absurd (by simp) hfs
    show after ((NtfyCli.userChangeRole n .admin).bind _) w (some e :: fs) = w
    unfold NtfyCli.userChangeRole NtfyCli.checkUser
    split_ifs <;> rfl
  · rfl

/-- One call keeps every rule that it does not replace. -/
theorem changeRole_step {options : Options} {name : String} {r : StashedRule} {c : Call}
    (h : Between name r w) (hc : ¬ Replaces w c name r) :
    Between name r (after (changeRole options c.name c.role) w c.failures) := by
  have hmeets : ∀ {s : Action (User × ℕ)}, s.Ends apply MayFail (fun _ => Between name r)
      (fun _ => Between name r) w → Between name r (after s w c.failures) := by
    intro s hs
    have hrun := @Script.Meets.evalWhere _ _ _ _ _ apply _ _ s w (fun o _ => o.external)
      (by rwa [Script.meets_eq]) c.failures
    unfold after
    split at hrun <;> simp_all
  rcases changeRole_cases options c.name c.role w c.failures with hw | ⟨hadmin, hw⟩ | ⟨⟨hreal, a, ha, hname, hrole⟩, hw⟩
  · rw [hw]
    exact h
  · rw [hw]
    by_cases hreplaces : c.name = name ∧ activeRules w name ≠ [] ∧ r ∈ w.origins.stash name ∧
        r ∉ activeRules w name
    · obtain ⟨hn, hactive, hstash, hinactive⟩ := hreplaces
      rw [after_promote_of_failure (hn ▸ hactive) fun hfs =>
        hc ⟨hadmin, hn, hactive, hstash, hinactive, hfs⟩]
      exact h
    · refine hmeets (promote_ends h fun hn hactive hstash => ?_)
      by_contra hinactive
      exact hreplaces ⟨hn, hactive, hstash, hinactive⟩
  · rw [hw]
    refine hmeets (demote_ends h (activeRules_eq_nil fun topic => ?_))
    exact hname ▸ h.bare a ha (hname ▸ hreal) hrole topic

/-- **Rules survive role changes.** A rule the user had is active or in the stash after any calls
of which none replaces a stash with it. -/
theorem rules_kept {options : Options} {w₀ w : World} {name : String} {r : StashedRule}
    (hbare : RulesOfUsers w₀) (hr : r ∈ activeRules w₀ name)
    (h : (roleSystem options w₀).Reach (fun w c => ¬ Replaces w c name r) w) :
    RuleKept w name r := by
  have hinv : Between name r w := by
    refine System.Reach.invariant (fun s hs => ?_) (fun s c s' hI hok hn => ?_) h
    · obtain rfl := hs
      exact ⟨hbare, .inl hr⟩
    · obtain rfl := Option.some.inj hn
      exact changeRole_step hI hok
  exact hinv.guarded.kept

/-! ## A rule that is lost -/

/-- A promotion that succeeds and replaces the rule loses it. -/
theorem promote_loses {options : Options} {n : String} {r : StashedRule}
    (hactive : activeRules w n ≠ []) (hinactive : r ∉ activeRules w n) :
    (promote options n).Ends apply MayFail (fun _ w' => ¬ RuleKept w' n r) (fun _ _ => True) w := by
  refine Script.Ends.get ?_
  rw [if_neg (mt snapshotAcl_eq_nil.mp hactive)]
  refine Script.Ends.bind (act_ends ?_ fun _ _ => trivial)
  refine Script.Ends.bind (NtfyCli.userChangeRole_ends ?_ fun _ => trivial)
  refine Script.Ends.bind (stashRules_ends fun w' hdb hstash _ => ?_)
  refine Script.Ends.bind (getUser_ends (fun _ _ _ => ?_) fun _ => trivial)
  have hstashed : w'.origins.stash n = activeRules w n := hstash
  have hrule : ∀ topic, w'.rule? n topic = none := fun topic => by
    rw [World.rule?, tables_of_db hdb]
    exact (World.rule?_changeRole w n n topic .admin).trans (if_pos ⟨rfl, rfl⟩)
  show ¬ RuleKept w' n r
  rw [RuleKept, activeRules_eq_nil hrule, hstashed, not_or]
  exact ⟨List.not_mem_nil, hinactive⟩

def sampleRule : StashedRule := ⟨"backups", .ro, .gui⟩

/-- An admin, and a user with two rules. -/
def sampleWorld : World where
  db := some
    { accounts := [⟨⟨"admin", .admin, none, false⟩, "p"⟩, ⟨⟨"alice", .user, none, false⟩, "p"⟩]
      rules := (Dict.empty.insert ("alice", "alerts") .rw).insert ("alice", "backups") .ro
      tokens := [] }
  origins := .empty

theorem rulesOfUsers_sampleWorld : RulesOfUsers sampleWorld := by
  intro a ha _ hnu topic
  have ha' : a ∈ [(⟨⟨"admin", .admin, none, false⟩, "p"⟩ : Account),
      ⟨⟨"alice", .user, none, false⟩, "p"⟩] := ha
  rcases List.mem_cons.mp ha' with rfl | ha'
  · show ((Dict.empty.insert ("alice", "alerts") .rw).insert ("alice", "backups") .ro).get?
      ("admin", topic) = none
    rw [Dict.get?_insert, if_neg (by simp), Dict.get?_insert, if_neg (by simp)]
    rfl
  · obtain rfl := List.mem_singleton.mp ha'
    exact absurd rfl hnu

/-- A promotion and the demotion after it. -/
theorem rules_kept_round : RuleKept
    (after (changeRole {} "alice" "user") (after (changeRole {} "alice" "admin") sampleWorld []) [])
    "alice" sampleRule := by
  refine @rules_kept {} sampleWorld _ "alice" sampleRule rulesOfUsers_sampleWorld
    (by decide +kernel) (.step (a := ⟨"alice", "user", []⟩)
      (.step (a := ⟨"alice", "admin", []⟩) (.init rfl) (fun h => ?_) rfl) (fun h => ?_) rfl)
  · exact absurd h.stashed (by decide +kernel)
  · exact absurd h.promotes (by decide)

/-- A rule that a demotion could not restore is lost in the promotion after it. -/
theorem rule_lost : ¬ ∀ (options : Options) (w₀ w : World) (name : String) (r : StashedRule),
    RulesOfUsers w₀ → r ∈ activeRules w₀ name → (roleSystem options w₀).Reachable w →
      RuleKept w name r := by
  intro h
  have hlost : ((roleSystem {} sampleWorld).run sampleWorld
      [⟨"alice", "admin", []⟩,
        ⟨"alice", "user", [none, none, none, none, some (.cli "locked" "database is locked")]⟩,
        ⟨"alice", "admin", []⟩]).any (fun w => !decide (RuleKept w "alice" sampleRule)) = true := by
    decide +kernel
  obtain ⟨w, hw, hbad⟩ := System.exists_of_runOk rfl hlost
  have := h {} sampleWorld w "alice" sampleRule rulesOfUsers_sampleWorld (by decide +kernel)
    hw.reachable
  simp [this] at hbad

end HaAddons.Ntfy

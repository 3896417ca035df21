import SecLsmManager.Policy.Cynagora
import SecLsmManager.Policy.Effects
import SecLsmManager.Policy.Rules

/-!
# What a failed installation and a failed removal leave

An installation that fails is followed by the removal of all that the context names, whether the
installation has put it there or not; a removal that fails is not followed by anything. So the
system is as it was before when there was nothing to remove (`action_install_reverts`,
`action_uninstall_reverts`).
-/

namespace SecLsmManager

variable {κ ρ : Type*}

/-! ## The cleanup -/

/-- The rules of the context have a file. -/
def HasRuleFile (env : SmackEnv κ ρ) (context : Context) : Prop :=
  context.id 0 ≠ 0 ∧ (getSmackRulePath env context.idString).1 ≥ 0

/-- The file of the rules of the context. -/
def ruleFile (env : SmackEnv κ ρ) (context : Context) : CStr :=
  (getSmackRulePath env context.idString).2

/-- What `force_uninstall_smack` does, part by part. -/
structure Uninstalls (env : SmackEnv κ ρ) (faults : Faults) (context : Context)
    (s s' : System κ) : Prop where
  policies : s'.policies = s.policies
  attrs : Lib.Overwrites (droppedCells faults 0 context.pathSet) dropValue s.attrs s'.attrs
  links : Lib.Overwrites {q | context.id 0 ≠ 0 ∧ q ∈ droppedPlaces faults context 0 context.plugset}
    (fun _ => none) s.links s'.links
  ruleFiles : Lib.Overwrites {q | HasRuleFile env context ∧ faults.remove = none ∧
    q = ruleFile env context} (fun _ => none) s.ruleFiles s'.ruleFiles
  rules : HasRuleFile env context →
    s'.rules = clearRules env faults (s.ruleFiles (ruleFile env context)) s.rules
  rules_eq : ¬ HasRuleFile env context → s'.rules = s.rules

theorem removeRuleFile_overwrites (faults : Faults) (file : CStr)
    (files : CStr → Option (List UInt8)) :
    Lib.Overwrites {q | faults.remove = none ∧ q = file} (fun _ => none) files
      (removeRuleFile faults file files) := by
  cases hremove : faults.remove with
  | none =>
    rw [removeRuleFile, if_pos hremove]
    refine (Lib.Overwrites.update (fun _ => none) files file).congr ?_
    ext q
    simp
  | some e =>
    rw [removeRuleFile, if_neg (by simp [hremove])]
    refine (Lib.Overwrites.refl _ files).congr ?_
    ext q
    simp

/-- **The cleanup.** -/
theorem forceUninstallSmack_uninstalls (env : SmackEnv κ ρ) (faults : Faults) (context : Context)
    (s : System κ) : Uninstalls env faults context s
      (forceUninstallSmack env faults context s).2 := by
  obtain ⟨a, hattrs, ha⟩ := smackDropPathLabels_drops faults context s
  simp only [forceUninstallSmack]
  generalize smackDropPathLabels faults context s = r at hattrs ⊢
  obtain ⟨rc, s₁⟩ := r
  cases hattrs
  split
  · rename_i hid
    obtain ⟨l, hlinks, hl⟩ := uninstallSmackPlugs_drops faults context { s with attrs := a }
    generalize uninstallSmackPlugs faults context { s with attrs := a } = r at hlinks ⊢
    obtain ⟨rc2, s₂⟩ := r
    cases hlinks
    have hrules := removeSmackRules_eq env faults context { s with attrs := a, links := l }
    generalize removeSmackRules env faults context { s with attrs := a, links := l } = r
      at hrules ⊢
    obtain ⟨rc3, s₃⟩ := r
    simp only at hrules ⊢
    have hplaces : {q | context.id 0 ≠ 0 ∧ q ∈ droppedPlaces faults context 0 context.plugset} =
        droppedPlaces faults context 0 context.plugset := by
      ext q
      exact and_iff_right hid
    split at hrules
    · rename_i hpath
      have hno : ¬ HasRuleFile env context := fun h => not_le.2 hpath h.2
      subst hrules
      refine ⟨rfl, ha, hl.congr hplaces.symm, ?_, fun h => absurd h hno, fun _ => rfl⟩
      refine (Lib.Overwrites.refl _ s.ruleFiles).congr ?_
      ext q
      simp [hno]
    · rename_i hpath
      have hfile : HasRuleFile env context := ⟨hid, not_lt.1 hpath⟩
      subst hrules
      refine ⟨rfl, ha, hl.congr hplaces.symm, ?_, fun _ => rfl, fun h => absurd hfile h⟩
      refine (removeRuleFile_overwrites faults _ s.ruleFiles).congr ?_
      ext q
      exact (and_iff_right hfile).symm
  · rename_i hid
    have hno : ¬ HasRuleFile env context := fun h => hid h.1
    refine ⟨rfl, ha, (Lib.Overwrites.refl _ s.links).congr ?_,
      (Lib.Overwrites.refl _ s.ruleFiles).congr ?_, fun h => absurd h hno, fun _ => rfl⟩
    · ext q
      simp [hid]
    · ext q
      simp [hno]

/-- There is nothing that the removal, with its failures, would change. -/
structure NothingToRemove (env : SmackEnv κ ρ) (faults : Faults) (context : Context)
    (s : System κ) : Prop where
  policies : context.id 0 ≠ 0 →
    ∀ key, key.client = smackGetLabel context.idString → s.policies key = none
  attrs : Set.EqOn s.attrs dropValue (droppedCells faults 0 context.pathSet)
  links : context.id 0 ≠ 0 →
    ∀ q ∈ droppedPlaces faults context 0 context.plugset, s.links q = none
  ruleFiles : HasRuleFile env context → faults.remove = none →
    s.ruleFiles (ruleFile env context) = none
  rules : HasRuleFile env context →
    clearRules env faults (s.ruleFiles (ruleFile env context)) s.rules = s.rules

/-- The labels of applications are not the selector of all. -/
theorem smackGetLabel_ne (appid : CStr) : smackGetLabel appid ≠ CYNAGORA_SELECT_ALL := by
  intro h
  have hhead := congrArg (fun label => label.bytes.head?) h
  have hlabel : (smackGetLabel appid).bytes.head? = some 65 := by
    simp [smackGetLabel, CStr.snprintf, CStr.take, SEC_LSM_MANAGER_MAX_SIZE_LABEL,
      SEC_LSM_MANAGER_MAX_SIZE_ID, CStr.bytes_append,
      show (CStr.lit "App:").bytes = [65, 112, 112, 58] by decide]
  have hall : CYNAGORA_SELECT_ALL.bytes.head? = some 35 := by decide
  simp only [hlabel, hall] at hhead
  cases hhead

/-- The cleanup, after a change of the policies, leaves the system as it was. -/
theorem Uninstalls.eq_iff {env : SmackEnv κ ρ} {faults : Faults} {context : Context}
    {s s' : System κ} {p : PolicyKey → Option CStr}
    (h : Uninstalls env faults context { s with policies := p } s') :
    s' = s ↔ p = s.policies ∧
      Set.EqOn s.attrs dropValue (droppedCells faults 0 context.pathSet) ∧
      (context.id 0 ≠ 0 → ∀ q ∈ droppedPlaces faults context 0 context.plugset,
        s.links q = none) ∧
      (HasRuleFile env context → faults.remove = none →
        s.ruleFiles (ruleFile env context) = none) ∧
      (HasRuleFile env context →
        clearRules env faults (s.ruleFiles (ruleFile env context)) s.rules = s.rules) := by
  have hrules : s'.rules = s.rules ↔ (HasRuleFile env context →
      clearRules env faults (s.ruleFiles (ruleFile env context)) s.rules = s.rules) := by
    by_cases hfile : HasRuleFile env context
    · rw [h.rules hfile]
      exact (imp_iff_right hfile).symm
    · exact iff_of_true (h.rules_eq hfile) fun h => absurd h hfile
  rw [System.ext_iff, h.policies, h.attrs.eq_iff, h.links.eq_iff, h.ruleFiles.eq_iff, hrules]
  constructor
  · rintro ⟨hp, hfiles, hr, hl, ha⟩
    exact ⟨hp, ha, fun hid q hq => hl ⟨hid, hq⟩, fun hfile hremove => hfiles ⟨hfile, hremove, rfl⟩,
      hr⟩
  · rintro ⟨hp, ha, hl, hfiles, hr⟩
    refine ⟨hp, ?_, hr, ?_, ha⟩
    · rintro q ⟨hfile, hremove, rfl⟩
      exact hfiles hfile hremove
    · rintro q ⟨hid, hq⟩
      exact hl hid q hq

/-! ## Removal -/

theorem smackUninstall_of_checkContext (env : SmackEnv κ ρ) (faults : Faults) {context : Context}
    (hcheck : ¬ checkContext context < 0) (s : System κ) :
    smackUninstall env faults context s = forceUninstallSmack env faults context s := by
  rw [checkContext_neg, not_or] at hcheck
  rw [smackUninstall, if_neg hcheck.2]

/-- The state after the checks and the permission manager. -/
theorem actionUninstall_state (env : SmackEnv κ ρ) (faults revert : Faults)
    (permgr : PermMgr (System κ)) {context : Context} (hcheck : ¬ checkContext context < 0)
    {s s₁ : System κ}
    (hdrop : context.id 0 ≠ 0 →
      ¬ (permgr.dropPermissions (smackGetLabel context.idString) s).1 < 0 ∧
        (permgr.dropPermissions (smackGetLabel context.idString) s).2 = s₁)
    (hno : ¬ context.id 0 ≠ 0 → s₁ = s) :
    (actionUninstall permgr (smackMac env faults revert) context s).2 =
      (forceUninstallSmack env faults context s₁).2 := by
  have hmac := smackUninstall_of_checkContext env faults hcheck s₁
  simp only [actionUninstall, if_neg hcheck, smackMac]
  by_cases hid : context.id 0 ≠ 0
  · obtain ⟨hrc, hs₁⟩ := hdrop hid
    simp only [if_pos hid, hrc, and_false, if_false, hs₁, hmac]
    split <;> rfl
  · cases hno hid
    simp only [hid, false_and, if_false, hmac]
    split <;> rfl

/-- **A removal that fails has changed nothing** exactly when the checks of the context or the
permission manager stopped it, or there was nothing to remove. -/
theorem action_uninstall_reverts (env : SmackEnv κ ρ) (faults revert : Faults)
    (drop add : CynagoraFaults) (create : Fault)
    (check : PolicyKey → (PolicyKey → Option CStr) → Int) (context : Context) (s : System κ) :
    let r := actionUninstall (cynagoraItf create check add drop) (smackMac env faults revert)
      context s
    r.1 < 0 → (r.2 = s ↔ checkContext context < 0 ∨
      (context.id 0 ≠ 0 ∧
        (cynagoraDropPolicies drop (smackGetLabel context.idString) s).1 < 0) ∨
      NothingToRemove env faults context s) := by
  intro r _
  by_cases hcheck : checkContext context < 0
  · have hr : r = (checkContext context, s) := actionUninstall_of_checkContext _ _ hcheck s
    exact iff_of_true (congrArg Prod.snd hr) (.inl hcheck)
  by_cases hid : context.id 0 ≠ 0
  · obtain ⟨hneg, hs⟩ | ⟨hzero, p, hp, hset⟩ :=
      cynagoraDropPolicies_spec drop (smackGetLabel_ne context.idString) s
    · refine iff_of_true ?_ (.inr (.inl ⟨hid, hneg⟩))
      simp only [r, actionUninstall, if_neg hcheck, smackMac, cynagoraItf, if_pos hid, hneg,
        and_true]
      exact hs
    · have hr : r.2 = (forceUninstallSmack env faults context { s with policies := p }).2 :=
        actionUninstall_state env faults revert _ hcheck
          (fun _ => ⟨not_lt.2 hzero.ge, hp⟩) fun h => absurd hid h
      rw [hr, (forceUninstallSmack_uninstalls env faults context _).eq_iff, hset.eq_iff]
      constructor
      · rintro ⟨hpolicies, ha, hl, hfiles, hrules⟩
        exact .inr (.inr ⟨fun _ => hpolicies, ha, hl, hfiles, hrules⟩)
      · rintro (h | ⟨-, h⟩ | h)
        · exact absurd h hcheck
        · exact absurd h (not_lt.2 hzero.ge)
        · exact ⟨h.policies hid, h.attrs, h.links, h.ruleFiles, h.rules⟩
  · have hr : r.2 = (forceUninstallSmack env faults context s).2 :=
      actionUninstall_state env faults revert _ hcheck (fun h => absurd h hid) fun _ => rfl
    rw [hr,
      Uninstalls.eq_iff (p := s.policies) (forceUninstallSmack_uninstalls env faults context s)]
    constructor
    · rintro ⟨-, ha, hl, hfiles, hrules⟩
      exact .inr (.inr ⟨fun h => absurd h hid, ha, hl, hfiles, hrules⟩)
    · rintro (h | ⟨h, -⟩ | h)
      · exact absurd h hcheck
      · exact absurd h hid
      · exact ⟨rfl, h.attrs, h.links, h.ruleFiles, h.rules⟩

/-- The removal of the rule file fails: the permissions have been dropped. -/
theorem action_uninstall_half :
    let context := (contextCreate fun _ => 0).run [.setId (.lit "ab")]
    let key : PolicyKey := ⟨.lit "App:ab", .lit "*", .lit "*", .lit "perm"⟩
    let s :=
      { System.blank with policies := Function.update (fun _ => none) key (some (.lit "yes")) }
    let faults := { Faults.none with remove := some ⟨EACCES, by decide⟩ }
    let r := actionUninstall (cynagoraItf none (fun _ _ => 0) .none .none)
      (smackMac SmackEnv.plain faults .none) context s
    r.1 = -EACCES ∧ s.policies key = some (.lit "yes") ∧ r.2.policies key = none := by
  decide +kernel

/-- With nothing to remove, the same failure changes nothing. -/
theorem action_uninstall_reverts_blank :
    let context := (contextCreate fun _ => 0).run [.setId (.lit "ab")]
    let faults := { Faults.none with remove := some ⟨EACCES, by decide⟩ }
    let r := actionUninstall (cynagoraItf none (fun _ _ => 0) .none .none)
      (smackMac SmackEnv.plain faults .none) context System.blank
    r.1 < 0 ∧ r.2 = System.blank := by
  refine ⟨by decide +kernel, ?_⟩
  refine (action_uninstall_reverts SmackEnv.plain
    { Faults.none with remove := some ⟨EACCES, by decide⟩ } .none .none .none none (fun _ _ => 0)
    _ System.blank (by decide +kernel)).2 (.inr (.inr ⟨fun _ _ _ => rfl, ?_, fun _ _ _ => rfl,
      fun _ _ => rfl, fun _ => clearRules_none _ _ _⟩))
  rintro c ⟨k, path, hp, -⟩
  cases hp

/-! ## Installation -/

/-- What an installation does before its cleanup. -/
structure Installs (env : SmackEnv κ ρ) (faults : Faults) (context : Context)
    (s s' : System κ) : Prop where
  policies : s'.policies = s.policies
  attrs : Set.EqOn s'.attrs s.attrs ((pathsCells context.pathSet)ᶜ : Set (CStr × Xattr))
  links : Set.EqOn s'.links s.links
    ({q | context.id 0 ≠ 0 ∧ q ∈ plugPlaces context}ᶜ : Set CStr)
  ruleFiles : Set.EqOn s'.ruleFiles s.ruleFiles
    ({q | HasRuleFile env context ∧ q = ruleFile env context}ᶜ : Set CStr)
  rules : HasRuleFile env context → s.ruleFiles (ruleFile env context) = none →
    clearRules env .none (s'.ruleFiles (ruleFile env context)) s'.rules =
      revertedRules env faults context s.rules
  rules_eq : ¬ HasRuleFile env context → s'.rules = s.rules

/-- `create_smack_rules`. -/
theorem createSmackRules_installs (env : SmackEnv κ ρ)
    (hclear : ∀ r k, env.accessesClear r (env.accessesApply r k) = env.accessesClear r k)
    {faults : Faults} {context : Context} (hremove : faults.remove = none)
    (hid : context.id 0 ≠ 0) (s : System κ) :
    Installs env faults context s (createSmackRules env faults context s).2 := by
  by_cases hpath : (getSmackRulePath env context.idString).1 < 0
  · have hno : ¬ HasRuleFile env context := fun h => not_le.2 hpath h.2
    rw [createSmackRules_of_path env faults context hpath]
    exact ⟨rfl, Set.eqOn_refl _ _, Set.eqOn_refl _ _, Set.eqOn_refl _ _, fun h => absurd h hno,
      fun _ => rfl⟩
  · have hfile : HasRuleFile env context := ⟨hid, not_lt.1 hpath⟩
    obtain ⟨f, k, hs, hframe, hrules⟩ :=
      createSmackRules_removed env hclear context hremove (not_lt.1 hpath) s
    rw [hs]
    refine ⟨rfl, Set.eqOn_refl _ _, Set.eqOn_refl _ _, hframe.mono ?_, fun _ => hrules,
      fun h => absurd hfile h⟩
    exact Set.compl_subset_compl.2 fun q hq => ⟨hfile, hq⟩

theorem Installs.links_then {env : SmackEnv κ ρ} {faults : Faults} {context : Context}
    {s s₁ s₂ : System κ} (h : Installs env faults context s s₁) (hid : context.id 0 ≠ 0)
    (hlinks : ChangesLinks (plugPlaces context) s₁ s₂) : Installs env faults context s s₂ := by
  obtain ⟨l, rfl, hl⟩ := hlinks
  have hplaces : plugPlaces context ⊆ {q | context.id 0 ≠ 0 ∧ q ∈ plugPlaces context} :=
    fun q hq => ⟨hid, hq⟩
  exact ⟨h.policies, h.attrs, (hl.mono (Set.compl_subset_compl.2 hplaces)).trans h.links,
    h.ruleFiles, h.rules, h.rules_eq⟩

theorem Installs.attrs_then {env : SmackEnv κ ρ} {faults : Faults} {context : Context}
    {s s₁ s₂ : System κ} (h : Installs env faults context s s₁)
    (hattrs : ChangesAttrs (pathsCells context.pathSet) s₁ s₂) :
    Installs env faults context s s₂ := by
  obtain ⟨a, rfl, ha⟩ := hattrs
  exact ⟨h.policies, ha.trans h.attrs, h.links, h.ruleFiles, h.rules, h.rules_eq⟩

theorem installWithId_installs (env : SmackEnv κ ρ)
    (hclear : ∀ r k, env.accessesClear r (env.accessesApply r k) = env.accessesClear r k)
    {faults : Faults} {context : Context} (hremove : faults.remove = none)
    (hid : context.id 0 ≠ 0) (s : System κ) :
    Installs env faults context s (installWithId env faults context s).2 := by
  have hrules := createSmackRules_installs env hclear hremove hid s
  simp only [installWithId]
  generalize createSmackRules env faults context s = r at hrules ⊢
  obtain ⟨rc, s₁⟩ := r
  have hplugs : Installs env faults context s
      (if rc ≥ 0 then installSmackPlugs env faults context s₁ else (rc, s₁)).2 := by
    split
    · exact hrules.links_then hid (installSmackPlugs_changes env faults context s₁)
    · exact hrules
  generalize (if rc ≥ 0 then installSmackPlugs env faults context s₁ else (rc, s₁)) = r
    at hplugs ⊢
  obtain ⟨rc, s₂⟩ := r
  simp only at hplugs ⊢
  split
  · exact hplugs.attrs_then (labelAllPaths_changes faults context true s₂)
  · exact hplugs

theorem installNoId_installs (env : SmackEnv κ ρ) {faults : Faults} {context : Context}
    (hid : ¬ context.id 0 ≠ 0) (s : System κ) :
    Installs env faults context s (installNoId faults context s).2 := by
  have hno : ¬ HasRuleFile env context := fun h => hid h.1
  have hrefl : Installs env faults context s s :=
    ⟨rfl, Set.eqOn_refl _ _, Set.eqOn_refl _ _, Set.eqOn_refl _ _, fun h => absurd h hno,
      fun _ => rfl⟩
  rw [installNoId]
  split
  · exact hrefl
  · exact hrefl.attrs_then (labelAllPaths_changes faults context false s)

/-- There is nothing that the cleanup would not put back. -/
structure NothingToRevert (env : SmackEnv κ ρ) (faults : Faults) (context : Context)
    (s : System κ) : Prop where
  policies : context.id 0 ≠ 0 →
    ∀ key, key.client = smackGetLabel context.idString → s.policies key = none
  attrs : Set.EqOn s.attrs dropValue (pathsCells context.pathSet)
  links : context.id 0 ≠ 0 → ∀ q ∈ plugPlaces context, s.links q = none
  ruleFiles : HasRuleFile env context → s.ruleFiles (ruleFile env context) = none
  rules : HasRuleFile env context →
    revertedRules env faults context s.rules = s.rules

/-- The cleanup of an installation leaves the system as it was. -/
theorem Installs.eq_iff {env : SmackEnv κ ρ} {faults : Faults} {context : Context}
    {s s₁ s₂ : System κ} {p : PolicyKey → Option CStr}
    (h : Installs env faults context { s with policies := p } s₁)
    (h' : Uninstalls env .none context s₁ s₂) (p' : PolicyKey → Option CStr) :
    { s₂ with policies := p' } = s ↔ p' = s.policies ∧
      Set.EqOn s.attrs dropValue (pathsCells context.pathSet) ∧
      (context.id 0 ≠ 0 → ∀ q ∈ plugPlaces context, s.links q = none) ∧
      (HasRuleFile env context → s.ruleFiles (ruleFile env context) = none) ∧
      (HasRuleFile env context →
        revertedRules env faults context s.rules = s.rules) := by
  have hattrs := h'.attrs
  have hlinks := h'.links
  have hfiles := h'.ruleFiles
  rw [droppedCells_none] at hattrs
  rw [droppedPlaces_none] at hlinks
  simp only [Faults.none, true_and] at hfiles
  have hattrs' := hattrs.of_frame h.attrs
  have hlinks' := hlinks.of_frame h.links
  have hfiles' := hfiles.of_frame h.ruleFiles
  rw [System.ext_iff, hattrs'.eq_iff, hlinks'.eq_iff, hfiles'.eq_iff]
  have hrules : (HasRuleFile env context → s.ruleFiles (ruleFile env context) = none) →
      (s₂.rules = s.rules ↔ (HasRuleFile env context →
        revertedRules env faults context s.rules = s.rules)) := by
    intro hnone
    by_cases hfile : HasRuleFile env context
    · rw [h'.rules hfile, h.rules hfile (hnone hfile)]
      exact (imp_iff_right hfile).symm
    · rw [h'.rules_eq hfile, h.rules_eq hfile]
      exact iff_of_true rfl fun h => absurd h hfile
  constructor
  · rintro ⟨hp, hf, hr, hl, ha⟩
    have hnone : HasRuleFile env context → s.ruleFiles (ruleFile env context) = none :=
      fun hfile => hf ⟨hfile, rfl⟩
    exact ⟨hp, ha, fun hid q hq => hl ⟨hid, hq⟩, hnone, (hrules hnone).1 hr⟩
  · rintro ⟨hp, ha, hl, hf, hr⟩
    refine ⟨hp, ?_, (hrules hf).2 hr, ?_, ha⟩
    · rintro q ⟨hfile, rfl⟩
      exact hf hfile
    · rintro q ⟨hid, hq⟩
      exact hl hid q hq

/-- The checks of the plugs change nothing. -/
theorem checkPlugInstallable_state (create : Fault)
    (check : PolicyKey → (PolicyKey → Option CStr) → Int) (add drop : CynagoraFaults)
    (mac : Mac (System κ)) (context : Context) (s : System κ) :
    (checkPlugInstallable (cynagoraItf create check add drop) mac context s).2 = s := by
  have hcheck : ∀ label permission, (cynagoraCheckPermission create check label permission s).2 =
      s := by
    intro label permission
    simp only [cynagoraCheckPermission]
    split <;> rfl
  suffices hloop : ∀ plugs rc, (checkPlugLoop (cynagoraItf create check add drop) mac context
      plugs rc s).2 = s from hloop _ 0
  intro plugs
  induction plugs with
  | nil => exact fun _ => rfl
  | cons plug plugs ih =>
    intro rc
    simp only [checkPlugLoop, cynagoraItf, hcheck]
    exact ih _

/-- An installation that fails is cleaned up. -/
theorem smackInstall_fails (env : SmackEnv κ ρ)
    (hclear : ∀ r k, env.accessesClear r (env.accessesApply r k) = env.accessesClear r k)
    {faults : Faults} (revert : Faults) {context : Context} (hremove : faults.remove = none)
    {s : System κ} (hfails : (smackInstall env faults revert context s).1 < 0) :
    ∃ s₁, Installs env faults context s s₁ ∧ (smackInstall env faults revert context s).2 =
      (forceUninstallSmack env revert context s₁).2 := by
  have hstatus : ∀ r : Int × System κ, (installStatus env revert context r).1 < 0 →
      (installStatus env revert context r).2 =
        (forceUninstallSmack env revert context r.2).2 := by
    intro r h
    unfold installStatus at h ⊢
    split at h
    · rename_i hrc
      exact absurd h (not_lt.2 hrc)
    · rename_i hrc
      rw [if_neg hrc]
  unfold smackInstall at hfails ⊢
  split at hfails
  · rename_i hid
    rw [if_pos hid]
    exact ⟨_, installWithId_installs env hclear hremove hid s, hstatus _ hfails⟩
  · rename_i hid
    rw [if_neg hid]
    exact ⟨_, installNoId_installs env hid s, hstatus _ hfails⟩

/-- What an installation that fails leaves, with the policies put back. -/
theorem smackInstall_reverts (env : SmackEnv κ ρ)
    (hclear : ∀ r k, env.accessesClear r (env.accessesApply r k) = env.accessesClear r k)
    {faults : Faults} {context : Context} (hremove : faults.remove = none) {s : System κ}
    {p : PolicyKey → Option CStr}
    (hfails : (smackInstall env faults .none context { s with policies := p }).1 < 0) :
    (smackInstall env faults .none context { s with policies := p }).2.policies = p ∧
      ∀ p', { (smackInstall env faults .none context { s with policies := p }).2 with
          policies := p' } = s ↔ p' = s.policies ∧
        Set.EqOn s.attrs dropValue (pathsCells context.pathSet) ∧
        (context.id 0 ≠ 0 → ∀ q ∈ plugPlaces context, s.links q = none) ∧
        (HasRuleFile env context → s.ruleFiles (ruleFile env context) = none) ∧
        (HasRuleFile env context →
          revertedRules env faults context s.rules = s.rules) := by
  obtain ⟨s₁, hinstalls, hs₂⟩ := smackInstall_fails env hclear .none hremove hfails
  have huninstalls := forceUninstallSmack_uninstalls env .none context s₁
  rw [← hs₂] at huninstalls
  exact ⟨huninstalls.policies.trans hinstalls.policies, hinstalls.eq_iff huninstalls⟩

/-- **An installation that fails has changed nothing** exactly when the checks or the permission
manager stopped it, or there was nothing that the cleanup would not put back. The cleanup does not
fail, and clearing a set of rules does not depend on their having been loaded. -/
theorem action_install_reverts (env : SmackEnv κ ρ)
    (hclear : ∀ r k, env.accessesClear r (env.accessesApply r k) = env.accessesClear r k)
    (faults : Faults) (hremove : faults.remove = none) (add : CynagoraFaults) (create : Fault)
    (check : PolicyKey → (PolicyKey → Option CStr) → Int) (context : Context) (s : System κ) :
    let permgr := cynagoraItf create check add .none
    let mac := smackMac env faults .none
    let r := actionInstall permgr mac context s
    r.1 < 0 → (r.2 = s ↔ checkContext context < 0 ∨
      (checkPlugInstallable permgr mac context s).1 < 0 ∨
      (context.id 0 ≠ 0 ∧ (cynagoraSetPolicies add (smackGetLabel context.idString)
        context.permissionSet true s).1 < 0) ∨
      NothingToRevert env faults context s) := by
  intro permgr mac r hr
  by_cases hcheck : checkContext context < 0
  · have heq : r = (checkContext context, s) := actionInstall_of_checkContext _ _ hcheck s
    exact iff_of_true (congrArg Prod.snd heq) (.inl hcheck)
  have hlabel := smackGetLabel_ne context.idString
  have hplugs := checkPlugInstallable_state create check add .none mac context s
  obtain ⟨rc, hrc⟩ : ∃ rc, checkPlugInstallable permgr mac context s = (rc, s) :=
    ⟨_, Prod.ext rfl hplugs⟩
  by_cases hneg : rc < 0
  · have heq : r = (rc, s) := by
      simp only [r, actionInstall, if_neg hcheck, hrc, if_pos hneg]
    rw [hrc]
    exact iff_of_true (congrArg Prod.snd heq) (.inr (.inl hneg))
  by_cases hid : context.id 0 ≠ 0
  · obtain ⟨hadd, hs⟩ | ⟨hadd, p, hp, hframe⟩ :=
      cynagoraSetPolicies_spec add hlabel context.permissionSet s
    · have heq : r.2 = s := by
        simp only [r, actionInstall, if_neg hcheck, hrc, if_neg hneg, if_pos hid]
        simp only [permgr, cynagoraItf, mac, smackMac, if_pos (And.intro hid hadd), hs]
      exact iff_of_true heq (.inr (.inr (.inl ⟨hid, hadd⟩)))
    · have hge := not_lt.2 hadd.ge
      have heq : r = if (smackInstall env faults .none context { s with policies := p }).1 < 0 then
          ((smackInstall env faults .none context { s with policies := p }).1,
            (cynagoraDropPolicies .none (smackGetLabel context.idString)
              (smackInstall env faults .none context { s with policies := p }).2).2)
          else (0, (smackInstall env faults .none context { s with policies := p }).2) := by
        simp only [r, actionInstall, if_neg hcheck, hrc, if_neg hneg, if_pos hid]
        simp only [permgr, cynagoraItf, mac, smackMac, hge, and_false, if_false, hp]
      by_cases hmac : (smackInstall env faults .none context { s with policies := p }).1 < 0
      · obtain ⟨hkept, hsame⟩ := smackInstall_reverts env hclear hremove hmac
        obtain ⟨p', hdrop, hset⟩ := cynagoraDropPolicies_none hlabel
          (smackInstall env faults .none context { s with policies := p }).2
        rw [hkept] at hset
        rw [heq, if_pos hmac, hdrop, hsame, (hset.of_frame hframe).eq_iff, hrc,
          or_iff_right hcheck, or_iff_right hneg, or_iff_right fun h => hge h.2]
        constructor
        · rintro ⟨hpolicies, ha, hl, hfiles, hrules⟩
          exact ⟨fun _ => hpolicies, ha, hl, hfiles, hrules⟩
        · intro h
          exact ⟨h.policies hid, h.attrs, h.links, h.ruleFiles, h.rules⟩
      · rw [heq, if_neg hmac] at hr
        exact absurd hr (Int.lt_irrefl 0)
  · have heq : r = if (smackInstall env faults .none context s).1 < 0 then
        smackInstall env faults .none context s
        else (0, (smackInstall env faults .none context s).2) := by
      simp only [r, actionInstall, if_neg hcheck, hrc, if_neg hneg, hid, false_and, if_false]
      rfl
    by_cases hmac : (smackInstall env faults .none context s).1 < 0
    · obtain ⟨hkept, hsame⟩ := smackInstall_reverts env hclear hremove (p := s.policies) hmac
      have hpolicies : { (smackInstall env faults .none context s).2 with policies := s.policies } =
          (smackInstall env faults .none context s).2 :=
        System.ext hkept.symm rfl rfl rfl rfl
      have hsame' := hsame s.policies
      rw [hpolicies] at hsame'
      rw [heq, if_pos hmac, hsame', hrc, or_iff_right hcheck, or_iff_right hneg,
        or_iff_right fun h => hid h.1]
      constructor
      · rintro ⟨-, ha, hl, hfiles, hrules⟩
        exact ⟨fun h => absurd h hid, ha, hl, hfiles, hrules⟩
      · intro h
        exact ⟨rfl, h.attrs, h.links, h.ruleFiles, h.rules⟩
    · rw [heq, if_neg hmac] at hr
      exact absurd hr (Int.lt_irrefl 0)

/-- An application is installed again and its template cannot be read: the label that the path had
is lost. -/
theorem action_install_lost :
    let context := (contextCreate fun _ => 0).run
      [.setId (.lit "ab"), .addPath .plain (.lit "/a") (.lit "conf")]
    let cell : CStr × Xattr := (.lit "/a", .smack)
    let s := { System.blank with
      attrs := Function.update (fun _ => none) cell (some (.lit "App:ab:Conf")) }
    let faults := { Faults.none with readTemplate := some ⟨EACCES, by decide⟩ }
    let r := actionInstall (cynagoraItf none (fun _ _ => 0) .none .none)
      (smackMac SmackEnv.plain faults .none) context s
    r.1 = -EINVAL ∧ s.attrs cell = some (.lit "App:ab:Conf") ∧
      r.2.attrs cell = some (.lit "User:Home") := by
  decide +kernel

/-- The same failure on a system without anything for the application, and with no path. -/
theorem action_install_reverts_blank :
    let context := (contextCreate fun _ => 0).run [.setId (.lit "ab")]
    let faults := { Faults.none with readTemplate := some ⟨EACCES, by decide⟩ }
    let r := actionInstall (cynagoraItf none (fun _ _ => 0) .none .none)
      (smackMac SmackEnv.plain faults .none) context System.blank
    r.1 < 0 ∧ r.2 = System.blank := by
  refine ⟨by decide +kernel, ?_⟩
  refine (action_install_reverts SmackEnv.plain SmackEnv.plain_clear
    { Faults.none with readTemplate := some ⟨EACCES, by decide⟩ } rfl .none none (fun _ _ => 0)
    _ System.blank (by decide +kernel)).2 (.inr (.inr (.inr ⟨fun _ _ _ => rfl, ?_,
      fun _ _ _ => rfl, fun _ => rfl, fun _ => clearRules_none _ _ _⟩)))
  rintro c ⟨path, hp, -⟩
  cases hp

end SecLsmManager

import SecLsmManager.Policy.Atomicity
import SecLsmManager.Policy.Confined

/-!
# What a request can touch

Every context has parts of the system for its own: the policies of its application, its rule file,
the links of its plugs and the attributes of its paths. Whatever its requests do with Smack and
cynagora, whichever calls fail, they do it there (`Touches`), and of the policies they leave those
of one set of permissions, as a whole (`Grants`).
-/

namespace SecLsmManager

variable {κ ρ : Type*}

/-! ## The policies of an application -/

/-- The label of an application selects its own policies only. -/
theorem smackGetLabel_ne_all (id : CStr) : smackGetLabel id ≠ CYNAGORA_SELECT_ALL :=
  (smackGetLabel_appLabel id).ne_all

/-- The policies of the application are as they were, or those of one set of permissions, of the
context or empty. -/
def Grants (context : Context) (policies policies' : PolicyKey → Option CStr) : Prop :=
  policies' = policies ∨ context.id 0 ≠ 0 ∧ ∃ permissions,
    (permissions = context.permissionSet ∨ permissions = []) ∧
    policies' = installedPolicies (smackGetLabel context.idString) permissions policies

/-- The policies of a label are replaced as a whole: of two sets in turn the second is what stays.
-/
theorem installedPolicies_installed (label : CStr) (permissions permissions' : List CStr)
    (policies : PolicyKey → Option CStr) :
    installedPolicies label permissions' (installedPolicies label permissions policies) =
      installedPolicies label permissions' policies := by
  funext key
  simp only [installedPolicies]
  split <;> rfl

/-- The last grant stands. -/
theorem Grants.trans {context : Context} {p p' p'' : PolicyKey → Option CStr}
    (h : Grants context p p') (h' : Grants context p' p'') : Grants context p p'' := by
  rcases h' with rfl | ⟨hid, permissions', hpermissions', rfl⟩
  · exact h
  rcases h with rfl | ⟨-, permissions, -, rfl⟩
  · exact .inr ⟨hid, permissions', hpermissions', rfl⟩
  · exact .inr ⟨hid, permissions', hpermissions', installedPolicies_installed _ _ _ _⟩

/-- Setting the policies of the label of an application, with the permissions of its context or with
none, grants what `Grants` says and changes nothing else of the system. -/
theorem cynagoraSetPolicies_grants (faults : CynagoraFaults) {context : Context}
    (hid : context.id 0 ≠ 0) {permissions : List CStr}
    (hpermissions : permissions = context.permissionSet ∨ permissions = []) (s : System κ) :
    ∃ p, Grants context s.policies p ∧ (cynagoraSetPolicies faults
      (smackGetLabel context.idString) permissions true s).2 = { s with policies := p } := by
  rcases cynagoraSetPolicies_cases faults (smackGetLabel context.idString) permissions s with
    ⟨-, hs⟩ | hdone
  · exact ⟨s.policies, .inl rfl, hs⟩
  · rw [hdone, grantedPolicies_eq (smackGetLabel_ne_all _)]
    exact ⟨_, .inr ⟨hid, permissions, hpermissions, rfl⟩, rfl⟩

/-! ## The parts of a context -/

def ownRuleFile (env : SmackEnv κ ρ) (context : Context) : Set CStr :=
  {path | HasRuleFile env context ∧ path = ruleFile env context}

def ownLinks (context : Context) : Set CStr :=
  {path | context.id 0 ≠ 0 ∧ path ∈ plugPlaces context}

/-- From `s` to `s'` only what belongs to the context has changed. -/
structure Touches (env : SmackEnv κ ρ) (context : Context) (s s' : System κ) : Prop where
  grants : Grants context s.policies s'.policies
  ruleFiles : Set.EqOn s'.ruleFiles s.ruleFiles (ownRuleFile env context)ᶜ
  links : Set.EqOn s'.links s.links (ownLinks context)ᶜ
  attrs : Set.EqOn s'.attrs s.attrs (pathsCells context.pathSet)ᶜ

/-! ## The calls of Smack -/

section
variable {env : SmackEnv κ ρ} {context : Context} {s s' s'' : System κ}

/-- A call that does nothing touches nothing. -/
theorem Touches.refl (env : SmackEnv κ ρ) (context : Context) (s : System κ) :
    Touches env context s s :=
  ⟨.inl rfl, Set.eqOn_refl _ _, Set.eqOn_refl _ _, Set.eqOn_refl _ _⟩

/-- Two calls in turn touch what each of them touches. -/
theorem Touches.trans (h : Touches env context s s') (h' : Touches env context s' s'') :
    Touches env context s s'' where
  grants := h.grants.trans h'.grants
  ruleFiles := h'.ruleFiles.trans h.ruleFiles
  links := h'.links.trans h.links
  attrs := h'.attrs.trans h.attrs

/-- Attributes of paths of the context are among what the context may touch. -/
theorem ChangesAttrs.touches (h : ChangesAttrs (pathsCells context.pathSet) s s') :
    Touches env context s s' := by
  obtain ⟨a, rfl, ha⟩ := h
  exact { Touches.refl env context s with attrs := ha }

/-- So are the links of its plugs in the import directories. -/
theorem ChangesLinks.touches (hid : context.id 0 ≠ 0) (h : ChangesLinks (plugPlaces context) s s') :
    Touches env context s s' := by
  obtain ⟨l, rfl, hl⟩ := h
  exact { Touches.refl env context s with
    links := fun path hpath => hl fun hplace => hpath ⟨hid, hplace⟩ }

/-- The rule file of the context has any text, or none, and any rules are loaded. -/
theorem Touches.ruleFile (hfile : HasRuleFile env context) (h : Touches env context s s')
    (text : Option (List UInt8)) (rules : κ) : Touches env context s { s' with
      ruleFiles := Function.update s'.ruleFiles (SecLsmManager.ruleFile env context) text
      rules } :=
  { h with
    ruleFiles := by
      intro path hpath
      have hother : path ≠ SecLsmManager.ruleFile env context := fun heq => hpath ⟨hfile, heq⟩
      exact (Function.update_of_ne hother _ _).trans (h.ruleFiles hpath) }

/-- Removing the rule file of the context, which may fail, touches nothing else. -/
theorem Touches.removeFile (hfile : HasRuleFile env context) (h : Touches env context s s')
    (fault : Fault) :
    Touches env context s (removeFile fault (SecLsmManager.ruleFile env context) s').2 := by
  unfold SecLsmManager.removeFile
  split
  · exact h
  split
  · exact h
  · exact h.ruleFile hfile none s'.rules

/-- The rule file is written, loaded and, when loading fails, removed again: one file, that of the
context. -/
theorem createSmackRules_touches (hid : context.id 0 ≠ 0) (faults : Faults) (s : System κ) :
    Touches env context s (createSmackRules env faults context s).2 := by
  rw [createSmackRules]
  dsimp only
  split
  · exact .refl env context s
  rename_i hname
  have hfile : HasRuleFile env context := ⟨hid, not_lt.1 hname⟩
  have htemplate : Touches env context s
      (templateProcess env faults (ruleFile env context) context s).2 := by
    rw [templateProcess]
    split
    · exact (Touches.refl env context s).ruleFile hfile _ s.rules
    · exact .refl env context s
  have hloaded : ∀ rules, Touches env context s
      { (templateProcess env faults (ruleFile env context) context s).2 with rules } :=
    fun _ => { htemplate with }
  split
  · exact htemplate
  split
  · exact htemplate.removeFile hfile _
  split
  · split
    · exact (hloaded _).removeFile hfile _
    · exact hloaded _
  · exact htemplate

/-- A removal touches only the rule file, the links of the plugs and the labels of the paths of the
context. -/
theorem forceUninstallSmack_touches (env : SmackEnv κ ρ) (faults : Faults) (context : Context)
    (s : System κ) : Touches env context s (forceUninstallSmack env faults context s).2 := by
  have h := forceUninstallSmack_uninstalls env faults context s
  refine ⟨.inl h.policies, fun path hpath => h.ruleFiles.frame ?_,
    fun path hpath => h.links.frame ?_, fun cell hcell => h.attrs.frame ?_⟩
  · rintro ⟨hfile, -, rfl⟩
    exact hpath ⟨hfile, rfl⟩
  · rintro ⟨hid, k, plug, hplug, hname, hplace, -⟩
    exact hpath ⟨hid, plug, List.mem_of_getElem? hplug, hname, hplace⟩
  · rintro ⟨k, path, hpath, hplace, -⟩
    exact hcell ⟨path, List.mem_of_getElem? hpath, hplace⟩

/-- The removal behind a failed installation adds nothing to what the installation touches. -/
theorem Touches.installStatus {r : Int × System κ} (h : Touches env context s r.2)
    (revert : Faults) : Touches env context s (installStatus env revert context r).2 := by
  rw [SecLsmManager.installStatus]
  split
  · exact h
  · exact h.trans (forceUninstallSmack_touches env revert context r.2)

/-- A Smack installation touches only what its context names, for any pattern of failing operations.
-/
theorem smackInstall_touches (env : SmackEnv κ ρ) (faults revert : Faults) (context : Context)
    (s : System κ) : Touches env context s (smackInstall env faults revert context s).2 := by
  rw [smackInstall]
  split
  · rename_i hid
    refine Touches.installStatus ?_ revert
    have hrules : Touches env context s (createSmackRules env faults context s).2 :=
      createSmackRules_touches hid faults s
    simp only [installWithId]
    generalize createSmackRules env faults context s = r at hrules ⊢
    have hplugs : Touches env context s
        (if r.1 ≥ 0 then installSmackPlugs env faults context r.2 else r).2 := by
      split
      · exact hrules.trans ((installSmackPlugs_changes env faults context r.2).touches hid)
      · exact hrules
    generalize (if r.1 ≥ 0 then installSmackPlugs env faults context r.2 else r) = r' at hplugs ⊢
    split
    · exact hplugs.trans (labelAllPaths_changes faults context true r'.2).touches
    · exact hplugs
  · refine Touches.installStatus ?_ revert
    rw [installNoId]
    split
    · exact .refl env context s
    · exact (labelAllPaths_changes faults context false s).touches

/-- So does a Smack removal. -/
theorem smackUninstall_touches (env : SmackEnv κ ρ) (faults : Faults) (context : Context)
    (s : System κ) : Touches env context s (smackUninstall env faults context s).2 := by
  rw [smackUninstall]
  split
  · exact .refl env context s
  · exact forceUninstallSmack_touches env faults context s

end

/-! ## The requests -/

/-- The policies set for the context are among what it may touch. -/
theorem Touches.setPolicies (env : SmackEnv κ ρ) (faults : CynagoraFaults) {context : Context}
    (hid : context.id 0 ≠ 0) {permissions : List CStr}
    (hpermissions : permissions = context.permissionSet ∨ permissions = []) (s : System κ) :
    Touches env context s (cynagoraSetPolicies faults (smackGetLabel context.idString)
      permissions true s).2 := by
  obtain ⟨p, hgrants, hs⟩ := cynagoraSetPolicies_grants faults hid hpermissions s
  rw [hs]
  exact { Touches.refl env context s with grants := hgrants }

end SecLsmManager

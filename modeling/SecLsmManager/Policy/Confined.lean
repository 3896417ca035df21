import SecLsmManager.Policy.Cynagora
import SecLsmManager.Policy.Effects
import SecLsmManager.Policy.Labels

/-!
# What the manager can do to the system

Whatever the contexts and the calls that fail, the functions of Smack and of cynagora give an
attribute, a link, a rule file or a policy a value of a few kinds only (`Confined`). In particular
the label of a file is never one of the system but those for public and for dropped files, and no
policy changes but those of labels of applications.
-/

namespace SecLsmManager

open Lib

variable {κ ρ : Type*}

/-! ## What is allowed -/

/-- A label of an application. -/
def AppLabel (label : CStr) : Prop := ∃ id, label = appLabel id

/-- The name that an application has in the names of files: it has the characters of ids, but for
one more than an id can have. -/
def AppName (name : CStr) : Prop :=
  ∀ c ∈ name.bytes.take SEC_LSM_MANAGER_MAX_SIZE_ID, isIdChar c = true

def AllowedLabel (label : CStr) : Xattr → Prop
  | .smack => label = DROP_LABEL ∨ label = .lit "System:Shared" ∨ AppLabel label
  | .smackexec => AppLabel label
  | .smacktransmute => label = TRUE_VALUE

def AllowedAttr (c : CStr × Xattr) (value : Option CStr) : Prop :=
  c.1.Normalised ∧ ∀ label, value = some label → AllowedLabel label c.2

/-- A link of a directory that imports to one that exports, with the label that the kernel gave or
one of an application; or no link. -/
def AllowedLink (env : SmackEnv κ ρ) (path : CStr) (value : Option PlugLink) : Prop :=
  (∃ impdir name : CStr, impdir.Normalised ∧ AppName name ∧
    path = impdir ++ .lit "/" ++ name) ∧
  ∀ link, value = some link → link.target.Normalised ∧
    (link.label = env.linkLabel ∨ ∃ label, link.label = some label ∧ AppLabel label)

def AllowedRuleFile (env : SmackEnv κ ρ) (path : CStr) : Prop :=
  ∃ name, AppName name ∧
    path = env.policyDir ++ .lit "/" ++ name ++ .lit "." ++ SMACK_EXTENSION

def AllowedPolicy (key : PolicyKey) (value : Option CStr) : Prop :=
  AppLabel key.client ∧ (value = none ∨ (value = some CYNAGORA_AUTHORIZED ∧
    key.session = CYNAGORA_INSERT_ALL ∧ key.user = CYNAGORA_INSERT_ALL))

/-- `s` is `s₀` but for what is allowed to change. -/
structure Confined (env : SmackEnv κ ρ) (s₀ s : System κ) : Prop where
  attrs : Within AllowedAttr s₀.attrs s.attrs
  links : Within (AllowedLink env) s₀.links s.links
  ruleFiles : Within (fun path _ => AllowedRuleFile env path) s₀.ruleFiles s.ruleFiles
  policies : Within AllowedPolicy s₀.policies s.policies

/-- What the functions are given. -/
structure Context.Held (context : Context) : Prop where
  inv : context.Inv
  chars : IdChars context.id

variable {env : SmackEnv κ ρ} {s₀ s : System κ} {context : Context}

/-- A system that did not change is confined to what it was. -/
theorem Confined.refl (env : SmackEnv κ ρ) (s : System κ) : Confined env s s :=
  ⟨.refl _ _, .refl _ _, .refl _ _, .refl _ _⟩

/-- The id of a context is one that names of files may have. -/
theorem Context.Held.appName (h : context.Held) : AppName context.idString :=
  Context.idString_chars h.chars

/-! ## Labels -/

/-- A label of an application that is cut to a buffer is one of a shorter id. -/
theorem snprintf_appLabel {size : Nat} (h : 5 ≤ size) (id : CStr) :
    AppLabel (.snprintf size (appLabel id)) := by
  have hstart : (CStr.lit "App:").bytes = [65, 112, 112, 58] := by decide
  refine ⟨id.take (size - 5), CStr.ext ?_⟩
  obtain ⟨n, rfl⟩ := Nat.exists_eq_add_of_le h
  simp only [CStr.snprintf, CStr.take, appLabel, CStr.bytes_append, hstart, Nat.add_sub_cancel_left,
    show 5 + n - 1 = n + 4 by omega]
  rfl

/-- What `smack_get_label` gives is a label of an application. -/
theorem smackGetLabel_appLabel (id : CStr) : AppLabel (smackGetLabel id) :=
  ⟨_, smackGetLabel_eq id⟩

/-- The label of a type, when it has one. -/
theorem definition_label (id : CStr) (type : PathType) :
    (initPathTypeDefinitions id type).label = .empty ∨
      AllowedLabel (initPathTypeDefinitions id type).label .smack := by
  have happ : ∀ suffix : CStr, AppLabel (.snprintf SEC_LSM_MANAGER_MAX_SIZE_LABEL
      (.lit "App:" ++ id ++ suffix)) := by
    intro suffix
    have hassoc : CStr.lit "App:" ++ id ++ suffix = appLabel (id ++ suffix) :=
      CStr.ext (List.append_assoc _ _ _)
    rw [hassoc]
    exact snprintf_appLabel (by decide) _
  cases type with
  | typeUnset | typeDefault =>
    have hempty : CStr.snprintf SEC_LSM_MANAGER_MAX_SIZE_LABEL (.lit "") = .empty := by decide
    exact .inl hempty
  | typePublic =>
    have hpublic : CStr.snprintf SEC_LSM_MANAGER_MAX_SIZE_LABEL (.lit "System:Shared") =
        .lit "System:Shared" := by decide
    exact .inr (.inr (.inl hpublic))
  | typeId => exact .inr (.inr (.inr (snprintf_appLabel (by decide) id)))
  | _ => exact .inr (.inr (.inr (happ _)))

/-- One attribute of a normalised path gets an allowed value, is removed, or stays when the call
fails. -/
theorem Confined.putXattr (h : Confined env s₀ s) (fault : Fault) {path : CStr} (xattr : Xattr)
    (value : Option CStr) (hpath : path.Normalised)
    (hvalue : ∀ label, value = some label → label = .empty ∨ AllowedLabel label xattr) :
    Confined env s₀ (putXattr fault path xattr value s).2 := by
  obtain ⟨hdone, hfails⟩ := putXattr_spec s fault path xattr value
  cases fault with
  | some e =>
    rw [hfails nofun]
    exact h
  | none =>
    rw [hdone rfl]
    refine { h with attrs := h.attrs.update ⟨hpath, fun label hlabel => ?_⟩ }
    rw [putValue, Option.filter_eq_some_iff] at hlabel
    exact (hvalue label hlabel.1).resolve_left (of_decide_eq_true hlabel.2)

/-- The three attributes of a path, each of which may fail. -/
theorem Confined.smackSetPathLabels (h : Confined env s₀ s) (fault : Xattr → Fault)
    {path label : CStr} {execlabel : Option CStr} (hpath : path.Normalised)
    (hlabel : label = .empty ∨ AllowedLabel label .smack)
    (hexec : ∀ l, execlabel = some l → AppLabel l) (transmute : Bool) :
    Confined env s₀ (smackSetPathLabels fault path label execlabel transmute s).2 := by
  have h₁ := h.putXattr (fault .smack) .smack (some label) hpath
    (fun l hl => Option.some.inj hl ▸ hlabel)
  have h₂ := h₁.putXattr (fault .smackexec) .smackexec _ hpath
    (fun l hl => .inr (hexec l hl))
  refine h₂.putXattr (fault .smacktransmute) .smacktransmute _ hpath fun l hl => ?_
  split at hl
  · cases hl
    exact .inr rfl
  · cases hl

/-- Attributes may be removed from any normalised path. -/
theorem Confined.unsetPathLabels (h : Confined env s₀ s) (answers : Answers)
    (fault : Xattr → Fault) {path : CStr} (hpath : path.Normalised) :
    Confined env s₀ (unsetPathLabels answers fault path s).2 := by
  rw [SecLsmManager.unsetPathLabels]
  dsimp only
  split
  · exact h
  · have hvalue (xattr : Xattr) (label : CStr) (hl : none = some label) :
        label = .empty ∨ AllowedLabel label xattr := by
      cases hl
    have h₁ := h.putXattr (fault .smack) .smack none hpath (hvalue .smack)
    have h₂ := h₁.putXattr (fault .smackexec) .smackexec none hpath (hvalue .smackexec)
    exact h₂.putXattr (fault .smacktransmute) .smacktransmute none hpath (hvalue .smacktransmute)

/-- The loops on the paths of a context. -/
theorem Confined.pathsLoop {turn : Nat → Path → System κ → Int × System κ}
    (hturn : ∀ i (path : Path) s, path.path.Normalised → Confined env s₀ s →
      Confined env s₀ (turn i path s).2) :
    ∀ (i : Nat) {paths : List Path} {s : System κ}, (∀ p ∈ paths, p.path.Normalised) →
      Confined env s₀ s → Confined env s₀ (pathsLoop turn i paths s).2
  | _, [], _, _, h => h
  | i, path :: paths, s, hpaths, h => by
    obtain ⟨hpath, hpaths⟩ := List.forall_mem_cons.1 hpaths
    have hhead := hturn i path s hpath h
    simp only [SecLsmManager.pathsLoop]
    split
    · exact hhead
    · exact Confined.pathsLoop hturn (i + 1) hpaths hhead

/-- The paths of a context are normalised. -/
theorem Context.Held.normalised (h : context.Held) : ∀ p ∈ context.pathSet, p.path.Normalised :=
  fun p hp => (h.inv.paths_valid p hp).1

/-- The labels of an installation are of the types of the paths, so they are allowed. -/
theorem Confined.labelAllPaths (h : Confined env s₀ s) (faults : Faults) (hheld : context.Held)
    (set : Bool) : Confined env s₀ (labelAllPaths faults context set s).2 := by
  refine Confined.pathsLoop (fun i path s hpath h => ?_) 0 hheld.normalised h
  rw [labelPath]
  split
  · exact h
  split
  · exact h.unsetPathLabels _ _ hpath
  · refine h.smackSetPathLabels _ hpath (definition_label _ _) (fun l hl => ?_) _
    split at hl
    · cases hl
      exact snprintf_appLabel (by decide) _
    · cases hl

/-- The label for dropped files is one of the two of the system that are allowed. -/
theorem Confined.smackDropPathLabels (h : Confined env s₀ s) (faults : Faults)
    (hheld : context.Held) : Confined env s₀ (smackDropPathLabels faults context s).2 := by
  have hnone : ∀ label : CStr, none = some label → AppLabel label := nofun
  exact Confined.pathsLoop (fun _ _ _ hpath h =>
    h.smackSetPathLabels _ hpath (.inr (.inl rfl)) hnone false) 0 hheld.normalised h

/-! ## Rules -/

/-- A rule file of an application may have any text, or none. -/
theorem Confined.ruleFile (h : Confined env s₀ s) {path : CStr} (hpath : AllowedRuleFile env path)
    (text : Option (List UInt8)) :
    Confined env s₀ { s with ruleFiles := Function.update s.ruleFiles path text } :=
  { h with ruleFiles := h.ruleFiles.update hpath }

/-- The rules that the kernel has loaded are not confined: their text comes from the template. -/
theorem Confined.loaded (h : Confined env s₀ s) (rules : κ) : Confined env s₀ { s with rules } :=
  ⟨h.attrs, h.links, h.ruleFiles, h.policies⟩

/-- The code for a name that is too long is negative. -/
theorem enametoolong_neg : -ENAMETOOLONG < 0 := by decide

/-- A path that `get_smack_rule_path` accepts is that of a rule file, and it is whole. -/
theorem getSmackRulePath_allowed (env : SmackEnv κ ρ) (hheld : context.Held)
    (h : ¬ (getSmackRulePath env context.idString).1 < 0) :
    AllowedRuleFile env (getSmackRulePath env context.idString).2 := by
  refine ⟨context.idString, hheld.appName, ?_⟩
  rw [getSmackRulePath] at h ⊢
  split at h
  · exact absurd enametoolong_neg h
  · rename_i hlong
    rw [if_neg hlong]
    exact CStr.snprintf_of_lt (Nat.lt_succ_of_le (not_lt.1 hlong))

/-- Such a file may be removed, or stays when the call fails. -/
theorem Confined.removeFile (h : Confined env s₀ s) (fault : Fault) {path : CStr}
    (hpath : AllowedRuleFile env path) : Confined env s₀ (removeFile fault path s).2 := by
  unfold SecLsmManager.removeFile
  split
  · exact h
  split
  · exact h
  · exact h.ruleFile hpath none

/-- The rule file is written and, when it cannot be loaded, removed. -/
theorem Confined.createSmackRules (h : Confined env s₀ s) (faults : Faults)
    (hheld : context.Held) : Confined env s₀ (createSmackRules env faults context s).2 := by
  rw [SecLsmManager.createSmackRules]
  dsimp only
  split
  · exact h
  rename_i hname
  have hpath := getSmackRulePath_allowed env hheld hname
  have htemplate : Confined env s₀
      (templateProcess env faults (getSmackRulePath env context.idString).2 context s).2 := by
    rw [templateProcess]
    split
    · exact h.ruleFile hpath _
    · exact h
  split
  · exact htemplate
  split
  · exact htemplate.removeFile _ hpath
  split
  · split
    · exact (htemplate.loaded _).removeFile _ hpath
    · exact htemplate.loaded _
  · exact htemplate

/-- To unload the rules changes no file. -/
theorem Confined.removeLoadRules (h : Confined env s₀ s) (faults : Faults) (file : CStr) :
    Confined env s₀ (removeLoadRules env faults file s).2 := by
  rw [SecLsmManager.removeLoadRules]
  split
  · exact h
  split
  · exact h.loaded _
  · exact h.loaded _

/-- The rules are unloaded and their file is removed. -/
theorem Confined.removeSmackRules (h : Confined env s₀ s) (faults : Faults)
    (hheld : context.Held) : Confined env s₀ (removeSmackRules env faults context s).2 := by
  rw [SecLsmManager.removeSmackRules]
  dsimp only
  split
  · exact h
  rename_i hname
  refine Confined.removeFile ?_ _ (getSmackRulePath_allowed env hheld hname)
  split
  · exact h.removeLoadRules _ _
  · exact h

/-! ## Plugs -/

/-- Where the link of a plug is. -/
theorem plugLinkPath_place (hheld : context.Held) {plug : Plug} (hplug : plug ∈ context.plugset)
    (h : ¬ (plugLinkPath context plug).1 < 0) : ∃ impdir name : CStr, impdir.Normalised ∧
      AppName name ∧ (plugLinkPath context plug).2 = impdir ++ .lit "/" ++ name := by
  refine ⟨plug.impdir, context.idString, (hheld.inv.plugs_valid plug hplug).2.1, hheld.appName, ?_⟩
  rw [plugLinkPath] at h ⊢
  split at h
  · exact absurd enametoolong_neg h
  · rename_i hlong
    rw [if_neg hlong]
    exact CStr.snprintf_of_lt (Nat.lt_succ_of_le (not_lt.1 hlong))

/-- A link is made where there was none, and labelled; a link that was there stays as it is. -/
theorem Confined.installPlug (h : Confined env s₀ s) (faults : Faults) (hheld : context.Held)
    (i : Nat) {plug : Plug} (hplug : plug ∈ context.plugset) :
    Confined env s₀ (installPlug env faults context i plug s).2 := by
  rw [SecLsmManager.installPlug]
  dsimp only
  split
  · exact h
  rename_i hname
  have hplace := plugLinkPath_place hheld hplug hname
  generalize (plugLinkPath context plug).2 = path at hplace ⊢
  have htarget : plug.expdir.Normalised := (hheld.inv.plugs_valid plug hplug).1
  cases hfault : faults.symlink i with
  | some e =>
    have hneg : (-e.val) < 0 := Int.neg_neg_of_pos e.pos
    rw [symlink_some, if_pos hneg]
    exact h
  | none =>
    rw [symlink]
    split
    · exact h
    have hlink : Confined env s₀ { s with
        links := Function.update s.links path (some ⟨plug.expdir, env.linkLabel⟩) } := by
      refine { h with links := h.links.update ⟨hplace, fun link hl => ?_⟩ }
      cases hl
      exact ⟨htarget, .inl rfl⟩
    split
    · exact hlink
    unfold setLinkXattr
    split
    · exact hlink
    · simp only [Function.update_self, Option.map_some, Function.update_idem]
      refine { h with links := h.links.update ⟨hplace, fun link hl => ?_⟩ }
      cases hl
      exact ⟨htarget, .inr ⟨_, rfl, smackGetLabel_appLabel _⟩⟩

/-- The link of a plug is removed from its import directory, or stays. -/
theorem Confined.uninstallPlug (h : Confined env s₀ s) (faults : Faults) (hheld : context.Held)
    (i : Nat) {plug : Plug} (hplug : plug ∈ context.plugset) :
    Confined env s₀ (uninstallPlug faults context i plug s).2 := by
  rw [SecLsmManager.uninstallPlug]
  dsimp only
  split
  · exact h
  rename_i hname
  have hplace := plugLinkPath_place hheld hplug hname
  unfold unlink
  split
  · split <;> exact h
  · refine { h with links := h.links.update ⟨hplace, fun link hl => ?_⟩ }
    cases hl

/-- The loops on the plugs of a context. -/
theorem Confined.plugsLoop {turn : Nat → Plug → System κ → Int × System κ} {context : Context}
    (hturn : ∀ i, ∀ plug ∈ context.plugset, ∀ s, Confined env s₀ s →
      Confined env s₀ (turn i plug s).2) :
    ∀ (i : Nat) {plugs : List Plug} (rc : Int) {s : System κ},
      (∀ p ∈ plugs, p ∈ context.plugset) → Confined env s₀ s →
      Confined env s₀ (plugsLoop turn i plugs rc s).2
  | _, [], _, _, _, h => h
  | i, plug :: plugs, rc, s, hplugs, h => by
    obtain ⟨hplug, hplugs⟩ := List.forall_mem_cons.1 hplugs
    exact Confined.plugsLoop hturn (i + 1) _ hplugs (hturn i plug hplug s h)

/-! ## Installation and removal -/

/-- **Removing with Smack**, whichever calls fail. -/
theorem Confined.forceUninstallSmack (h : Confined env s₀ s) (faults : Faults)
    (hheld : context.Held) : Confined env s₀ (forceUninstallSmack env faults context s).2 := by
  have hdrop := h.smackDropPathLabels faults hheld
  rw [SecLsmManager.forceUninstallSmack]
  dsimp only
  split
  · have hplugs : Confined env s₀ (uninstallSmackPlugs faults context _).2 :=
      Confined.plugsLoop (fun i plug hplug s h => h.uninstallPlug faults hheld i hplug) 0 0
        (fun _ hp => hp) hdrop
    exact hplugs.removeSmackRules faults hheld
  · exact hdrop

/-- What puts things back after a failed installation is confined, too. -/
theorem Confined.installStatus {r : Int × System κ} (h : Confined env s₀ r.2) (revert : Faults)
    (hheld : context.Held) : Confined env s₀ (installStatus env revert context r).2 := by
  rw [SecLsmManager.installStatus]
  split
  · exact h
  · exact h.forceUninstallSmack revert hheld

/-- **Installing with Smack**, whichever calls fail, in it and in what puts things back. -/
theorem Confined.smackInstall (h : Confined env s₀ s) (faults revert : Faults)
    (hheld : context.Held) : Confined env s₀ (smackInstall env faults revert context s).2 := by
  rw [SecLsmManager.smackInstall]
  split
  · refine Confined.installStatus ?_ revert hheld
    have hrules := h.createSmackRules faults hheld
    simp only [installWithId]
    generalize SecLsmManager.createSmackRules env faults context s = r at hrules ⊢
    have hplugs : Confined env s₀
        (if r.1 ≥ 0 then installSmackPlugs env faults context r.2 else r).2 := by
      split
      · exact Confined.plugsLoop (fun i plug hplug s h => h.installPlug faults hheld i hplug) 0 0
          (fun _ hp => hp) hrules
      · exact hrules
    generalize (if r.1 ≥ 0 then installSmackPlugs env faults context r.2 else r) = r' at hplugs ⊢
    split
    · exact hplugs.labelAllPaths faults hheld true
    · exact hplugs
  · refine Confined.installStatus ?_ revert hheld
    rw [installNoId]
    split
    · exact h
    · exact h.labelAllPaths faults hheld false

/-- A removal that is asked for does what `force_uninstall_smack` does, or nothing without an id. -/
theorem Confined.smackUninstall (h : Confined env s₀ s) (faults : Faults) (hheld : context.Held) :
    Confined env s₀ (smackUninstall env faults context s).2 := by
  rw [SecLsmManager.smackUninstall]
  split
  · exact h
  · exact h.forceUninstallSmack faults hheld

/-- The label of an application is not the selector of all. -/
theorem AppLabel.ne_all {label : CStr} (hlabel : AppLabel label) : label ≠ CYNAGORA_SELECT_ALL := by
  obtain ⟨id, rfl⟩ := hlabel
  intro heq
  have hhead := congrArg (fun l => l.bytes.head?) heq
  revert hhead
  simp [appLabel, show (CStr.lit "App:").bytes = [65, 112, 112, 58] by decide,
    show CYNAGORA_SELECT_ALL.bytes = [35] by decide]

/-- **A modification of the policies**, whichever calls fail. -/
theorem Confined.cynagoraSetPolicies (h : Confined env s₀ s) (faults : CynagoraFaults)
    {label : CStr} (hlabel : AppLabel label) (permissionSet : List CStr) :
    Confined env s₀ (cynagoraSetPolicies faults label permissionSet true s).2 := by
  have hall := hlabel.ne_all
  obtain ⟨-, hs⟩ | hdone := cynagoraSetPolicies_cases faults label permissionSet s
  · rw [hs]
    exact h
  · rw [hdone, grantedPolicies_eq hall]
    refine { h with policies := h.policies.trans fun key => ?_ }
    simp only [installedPolicies]
    split
    · rename_i hclient
      refine .inr ⟨hclient ▸ hlabel, ?_⟩
      split
      · rename_i hkey
        exact .inr ⟨rfl, hkey.1, hkey.2.1⟩
      · exact .inl rfl
    · exact .inl rfl

end SecLsmManager

import SecLsmManager.Policy.Atomicity

/-!
# Installing, installing again, removing

On a system where no call fails, over the files of the context: an installation, then the removal
of what it has installed (`install_uninstall`), or the same installation again (`install_again`).
-/

namespace SecLsmManager

open Lib

variable {κ ρ : Type*}

/-- No call fails, over the files that `lstat` finds. -/
def Faults.over (answers answersAgain : Nat → Answers) : Faults :=
  { Faults.none with answers, answersAgain }

section
variable {answers answersAgain : Nat → Answers}

@[simp] theorem Faults.over_answers : (Faults.over answers answersAgain).answers = answers := rfl

@[simp] theorem Faults.over_symlink (i : Nat) :
    (Faults.over answers answersAgain).symlink i = .none := rfl

@[simp] theorem Faults.over_linkXattr (i : Nat) :
    (Faults.over answers answersAgain).linkXattr i = .none := rfl

@[simp] theorem Faults.over_unlink (i : Nat) :
    (Faults.over answers answersAgain).unlink i = .none := rfl

@[simp] theorem Faults.over_accessesClear :
    (Faults.over answers answersAgain).accessesClear = .none := rfl

@[simp] theorem rendered_over (env : SmackEnv κ ρ) (context : Context) :
    rendered env (.over answers answersAgain) context = env.fmustach context := rfl

end

/-! ## Names of links -/

/-- The import directories of a reachable context fit their buffers. -/
theorem Context.run_impdir_le (mem : Nat → UInt8) (ops : List ContextOp) :
    ∀ plug ∈ ((contextCreate mem).run ops).plugset, plug.impdir.length ≤ stdSize := by
  refine Context.run_of_accepts
    (P := fun context => ∀ plug ∈ context.plugset, plug.impdir.length ≤ stdSize) ?_
    (fun plug hplug => absurd hplug List.not_mem_nil) ops
  intro context context' op h haccepts
  cases haccepts with
  | addPlug _ _ _ _ _ =>
    intro plug hplug
    rcases List.mem_cons.1 hplug with rfl | hplug
    · exact stdAbsolute_length_le _
    · exact h plug hplug
  | clear => exact fun plug hplug => absurd hplug List.not_mem_nil
  | _ => exact h

/-- The name of a link is not cut. -/
theorem plugLinkPath_of_le (context : Context) {plug : Plug} (h : plug.impdir.length ≤ stdSize) :
    (plugLinkPath context plug).1 ≥ 0 ∧
      (plugLinkPath context plug).2 = plug.impdir ++ .lit "/" ++ context.idString := by
  have hslash : (CStr.lit "/").length = 1 := by decide
  have hid := idString_length_le context
  have hle : (plug.impdir ++ CStr.lit "/" ++ context.idString).length ≤ PATH_MAX := by
    simp only [CStr.length_append, hslash]
    simp only [stdSize, SEC_LSM_MANAGER_MAX_SIZE_PATH] at h
    simp only [Context.idSize, SEC_LSM_MANAGER_MAX_SIZE_ID] at hid
    simp only [PATH_MAX]
    omega
  simp only [plugLinkPath]
  rw [if_neg (Nat.not_lt.2 hle)]
  exact ⟨Int.natCast_nonneg _, CStr.snprintf_of_lt (Nat.lt_succ_of_le hle)⟩

/-- The links of two plugs are two when their import directories are. -/
theorem plugLinkPath_inj {context : Context} {p q : Plug} (hp : p.impdir.length ≤ stdSize)
    (hq : q.impdir.length ≤ stdSize) (h : (plugLinkPath context p).2 = (plugLinkPath context q).2) :
    p.impdir = q.impdir := by
  rw [(plugLinkPath_of_le context hp).2, (plugLinkPath_of_le context hq).2] at h
  have hbytes := congrArg CStr.bytes h
  simp only [CStr.bytes_append, List.append_assoc] at hbytes
  exact CStr.ext (List.append_cancel_right hbytes)

/-! ## Codes -/

section
variable {answers answersAgain : Nat → Answers} {context : Context}

/-- Without failures the calls return zero: one attribute. -/
theorem putXattr_code (path : CStr) (xattr : Xattr) (value : Option CStr) (s : System κ) :
    (putXattr none path xattr value s).1 = 0 :=
  congrArg Prod.fst ((putXattr_spec s none path xattr value).1 rfl)

/-- The labels of a path. -/
theorem smackSetPathLabels_code (fault : Xattr → Fault) (hfault : ∀ x, fault x = none)
    (path label : CStr) (execlabel : Option CStr) (transmute : Bool) (s : System κ) :
    (smackSetPathLabels fault path label execlabel transmute s).1 = 0 := by
  simp [smackSetPathLabels, hfault, putXattr_code]

/-- Their removal. -/
theorem unsetPathLabels_code {answers : Answers} {path : CStr}
    (hpp : getPathProperty answers path false ≥ 0) (fault : Xattr → Fault)
    (hfault : ∀ x, fault x = none) (s : System κ) :
    (unsetPathLabels answers fault path s).1 = 0 := by
  have hcode : ∀ x (s : System κ), (unsetXattr none path x s).1 = 0 := fun _ _ => rfl
  simp [unsetPathLabels, not_lt.2 hpp, hfault, hcode]

/-- The paths of a context exist, from the rank `i` on. -/
def PathsExist (answers : Nat → Answers) (i : Nat) (paths : List Path) : Prop :=
  ∀ k path, paths[k]? = some path → getPathProperty (answers (i + k)) path.path false ≥ 0

/-- A loop on the paths whose turns do not fail. -/
theorem pathsLoop_code {turn : Nat → Path → System κ → Int × System κ} :
    ∀ (i : Nat) (paths : List Path) (s : System κ),
      (∀ k path, paths[k]? = some path → ∀ s, (turn (i + k) path s).1 = 0) →
      (pathsLoop turn i paths s).1 = 0
  | _, [], _, _ => rfl
  | i, path :: paths, s, h => by
    obtain ⟨hhead, htail⟩ :=
      (forall_rank_cons (fun i path => ∀ s, (turn i path s).1 = 0) i path paths).1 h
    simp only [pathsLoop, hhead, Int.lt_irrefl, if_false]
    exact pathsLoop_code (i + 1) paths _ htail

/-- The labels of all paths, which exist. -/
theorem labelAllPaths_code (hexist : PathsExist answers 0 context.pathSet) (set : Bool)
    (hagain : set = false → PathsExist answersAgain 0 context.pathSet) (s : System κ) :
    (labelAllPaths (.over answers answersAgain) context set s).1 = 0 := by
  refine pathsLoop_code 0 context.pathSet s fun k path hp s => ?_
  have hpp := hexist k path hp
  simp only [labelPath, Faults.over_answers, not_lt.2 hpp, if_false]
  cases set with
  | false =>
    simp only [Bool.false_eq_true, not_false_eq_true, if_true]
    exact unsetPathLabels_code (hagain rfl k path hp) _ (fun _ => rfl) s
  | true =>
    simp only [not_true_eq_false, if_false]
    exact smackSetPathLabels_code _ (fun _ => rfl) ..

/-- Their drop. -/
theorem smackDropPathLabels_code (s : System κ) :
    (smackDropPathLabels (.over answers answersAgain) context s).1 = 0 :=
  pathsLoop_code 0 context.pathSet s fun _ _ _ s =>
    smackSetPathLabels_code _ (fun _ => rfl) _ _ _ _ s

/-- The link of a plug is created where there is nothing. -/
theorem installPlug_free (env : SmackEnv κ ρ) {plug : Plug} (hle : plug.impdir.length ≤ stdSize)
    (i : Nat) {s : System κ} (hfree : s.links (plugLinkPath context plug).2 = none) :
    ∃ link, installPlug env (.over answers answersAgain) context i plug s =
      (0, { s with
        links := Function.update s.links (plugLinkPath context plug).2 (some link) }) := by
  have hname := Int.not_lt.2 (plugLinkPath_of_le context hle).1
  simp only [installPlug, if_neg hname, Faults.over_symlink, Faults.over_linkXattr, symlink, hfree,
    Option.isSome_none, Bool.false_eq_true, if_false, Int.lt_irrefl, setLinkXattr,
    Function.update_self, Option.map_some, Function.update_idem]
  exact ⟨_, rfl⟩

/-- The links of the plugs, where there were none. -/
theorem installSmackPlugs_code (env : SmackEnv κ ρ)
    (hle : ∀ plug ∈ context.plugset, plug.impdir.length ≤ stdSize)
    (hdistinct : (context.plugset.map Plug.impdir).Nodup) {s : System κ}
    (hfree : ∀ plug ∈ context.plugset, s.links (plugLinkPath context plug).2 = none) :
    (installSmackPlugs env (.over answers answersAgain) context s).1 = 0 := by
  suffices hloop : ∀ (i : Nat) (plugs : List Plug) (s : System κ),
      (∀ plug ∈ plugs, plug.impdir.length ≤ stdSize) → (plugs.map Plug.impdir).Nodup →
      (∀ plug ∈ plugs, s.links (plugLinkPath context plug).2 = none) →
      (plugsLoop (installPlug env (.over answers answersAgain) context) i plugs 0 s).1 = 0 from
    hloop 0 _ s hle hdistinct hfree
  intro i plugs
  induction plugs generalizing i with
  | nil => exact fun _ _ _ _ => rfl
  | cons plug plugs ih =>
    intro s hle hdistinct hfree
    obtain ⟨hhead, htail⟩ := List.forall_mem_cons.1 hle
    rw [List.map_cons, List.nodup_cons] at hdistinct
    have hplug := hfree plug List.mem_cons_self
    obtain ⟨link, hinstalled⟩ :=
      @installPlug_free _ _ answers answersAgain _ env plug hhead i s hplug
    simp only [plugsLoop, hinstalled, Int.lt_irrefl, false_and, if_false]
    refine ih (i + 1) _ htail hdistinct.2 fun p hp => ?_
    have hne : (plugLinkPath context p).2 ≠ (plugLinkPath context plug).2 := fun h =>
      hdistinct.1 (plugLinkPath_inj (htail p hp) hhead h ▸ List.mem_map_of_mem hp)
    simp only [Function.update_of_ne hne]
    exact hfree p (List.mem_cons_of_mem _ hp)

/-- Their removal. -/
theorem uninstallSmackPlugs_code
    (hle : ∀ plug ∈ context.plugset, plug.impdir.length ≤ stdSize) (s : System κ) :
    (uninstallSmackPlugs (.over answers answersAgain) context s).1 = 0 := by
  suffices hloop : ∀ (i : Nat) (plugs : List Plug) (s : System κ),
      (∀ plug ∈ plugs, plug.impdir.length ≤ stdSize) →
      (plugsLoop (uninstallPlug (.over answers answersAgain) context) i plugs 0 s).1 = 0 from
    hloop 0 _ s hle
  intro i plugs
  induction plugs generalizing i with
  | nil => exact fun _ _ => rfl
  | cons plug plugs ih =>
    intro s hle
    obtain ⟨hhead, htail⟩ := List.forall_mem_cons.1 hle
    have hname := Int.not_lt.2 (plugLinkPath_of_le context hhead).1
    simp only [plugsLoop, uninstallPlug, if_neg hname, Faults.over_unlink, unlink, Int.lt_irrefl,
      false_and, if_false]
    exact ih (i + 1) _ htail

end

/-! ## What has succeeded -/

/-- A loop on the paths that does not fail. -/
theorem pathsLoop_nonneg {turn : Nat → Path → System κ → Int × System κ} :
    ∀ (i : Nat) (paths : List Path) (s : System κ), (pathsLoop turn i paths s).1 ≥ 0 →
      ∀ k path, paths[k]? = some path → ∃ s', (turn (i + k) path s').1 ≥ 0
  | _, [], _, _ => fun k path hp => by cases hp
  | i, path :: paths, s, h => by
    simp only [pathsLoop] at h
    split at h
    · rename_i hneg
      exact absurd h (not_le.2 hneg)
    · rename_i hpos
      exact (forall_rank_cons (fun i path => ∃ s', (turn i path s').1 ≥ 0) i path paths).2
        ⟨⟨s, not_lt.1 hpos⟩, pathsLoop_nonneg (i + 1) paths _ h⟩

/-- Paths that are labelled without an error exist. -/
theorem labelAllPaths_exist {faults : Faults} {context : Context} {set : Bool} {s : System κ}
    (h : (labelAllPaths faults context set s).1 ≥ 0) :
    PathsExist faults.answers 0 context.pathSet ∧
      (set = false → PathsExist faults.answersAgain 0 context.pathSet) := by
  have hturn : ∀ i path (s : System κ), (labelPath faults context.idString set i path s).1 ≥ 0 →
      getPathProperty (faults.answers i) path.path false ≥ 0 ∧
        (set = false → getPathProperty (faults.answersAgain i) path.path false ≥ 0) := by
    intro i path s hrc
    simp only [labelPath] at hrc
    split at hrc
    · rename_i hneg
      exact absurd hrc (not_le.2 hneg)
    rename_i hpp
    refine ⟨not_lt.1 hpp, fun hset => ?_⟩
    simp only [hset, Bool.false_eq_true, not_false_eq_true, if_true, unsetPathLabels] at hrc
    split at hrc
    · rename_i hneg
      exact absurd hrc (not_le.2 hneg)
    · rename_i hagain
      exact not_lt.1 hagain
  refine ⟨fun k path hp => ?_, fun hset k path hp => ?_⟩
  · obtain ⟨s', hs'⟩ := pathsLoop_nonneg 0 context.pathSet s h k path hp
    exact (hturn _ path s' hs').1
  · obtain ⟨s', hs'⟩ := pathsLoop_nonneg 0 context.pathSet s h k path hp
    exact (hturn _ path s' hs').2 hset

/-- The loop on the plugs keeps its first failure. -/
theorem plugsLoop_neg {turn : Nat → Plug → System κ → Int × System κ} {rc : Int} (hrc : rc < 0) :
    ∀ (i : Nat) (plugs : List Plug) (s : System κ), (plugsLoop turn i plugs rc s).1 = rc
  | _, [], _ => rfl
  | i, plug :: plugs, s => by
    have hne : rc ≠ 0 := hrc.ne
    simp only [plugsLoop, hne, and_false, if_false]
    exact plugsLoop_neg hrc (i + 1) plugs _

/-- A plug that is linked without an error has its link, and no link goes. -/
theorem installPlug_links (env : SmackEnv κ ρ) (faults : Faults) (context : Context) (i : Nat)
    (plug : Plug) (s : System κ) :
    (∀ q, (s.links q).isSome →
      ((installPlug env faults context i plug s).2.links q).isSome) ∧
    ((installPlug env faults context i plug s).1 ≥ 0 → (plugLinkPath context plug).1 ≥ 0 ∧
      ((installPlug env faults context i plug s).2.links
        (plugLinkPath context plug).2).isSome) := by
  have hkeep : ∀ (s : System κ) (q q' : CStr) (link : Option PlugLink),
      (s.links q).isSome → (q = q' → link.isSome) →
      (Function.update s.links q' link q).isSome := by
    intro s q q' link hq hlink
    by_cases h : q = q'
    · rw [h, Function.update_self]
      exact hlink h
    · rwa [Function.update_of_ne h]
  simp only [installPlug]
  split
  · rename_i hneg
    exact ⟨fun _ h => h, fun h => absurd h (not_le.2 hneg)⟩
  rename_i hname
  cases hfault : faults.symlink i with
  | some e =>
    have hneg : -e.val < 0 := Int.neg_neg_of_pos e.pos
    rw [symlink_some, if_pos hneg]
    exact ⟨fun _ h => h, fun h => absurd h (not_le.2 hneg)⟩
  | none =>
    cases hlink : s.links (plugLinkPath context plug).2 with
    | some link =>
      have hneg : -EEXIST < 0 := by decide
      simp only [symlink, hlink, Option.isSome_some, if_true, if_pos hneg]
      exact ⟨fun _ h => h, fun h => absurd h (not_le.2 hneg)⟩
    | none =>
      simp only [symlink, hlink, Option.isSome_none, Bool.false_eq_true, if_false, Int.lt_irrefl]
      cases faults.linkXattr i with
      | some e =>
        refine ⟨fun q hq => hkeep s q _ _ hq fun _ => rfl, fun _ => ⟨not_lt.1 hname, ?_⟩⟩
        simp [setLinkXattr]
      | none =>
        simp only [setLinkXattr, Function.update_self, Option.map_some, Function.update_idem]
        exact ⟨fun q hq => hkeep s q _ _ hq fun _ => rfl,
          fun _ => ⟨not_lt.1 hname, by simp⟩⟩

/-- The link of the first plug is there when `install_smack_plugs` does not fail. -/
theorem installSmackPlugs_linked (env : SmackEnv κ ρ) {faults : Faults} {context : Context}
    {plug : Plug} {plugs : List Plug} (hplugset : context.plugset = plug :: plugs) {s : System κ}
    (h : (installSmackPlugs env faults context s).1 ≥ 0) :
    (plugLinkPath context plug).1 ≥ 0 ∧
      ((installSmackPlugs env faults context s).2.links
        (plugLinkPath context plug).2).isSome := by
  obtain ⟨-, hhead⟩ := installPlug_links env faults context 0 plug s
  have hkeep : ∀ (i : Nat) (plugs : List Plug) (rc : Int) (s : System κ) (q : CStr),
      (s.links q).isSome →
      ((plugsLoop (installPlug env faults context) i plugs rc s).2.links q).isSome := by
    intro i plugs
    induction plugs generalizing i with
    | nil => exact fun _ _ _ h => h
    | cons plug plugs ih =>
      intro rc s q hq
      exact ih (i + 1) _ _ q ((installPlug_links env faults context i plug s).1 q hq)
  simp only [installSmackPlugs, hplugset, plugsLoop, and_true] at h ⊢
  by_cases hneg : (installPlug env faults context 0 plug s).1 < 0
  · rw [if_pos hneg, plugsLoop_neg hneg] at h
    exact absurd h (not_le.2 hneg)
  · obtain ⟨hname, hlink⟩ := hhead (not_lt.1 hneg)
    exact ⟨hname, hkeep 1 plugs _ _ _ hlink⟩

/-- A link that is there makes `install_smack_plugs` fail. -/
theorem installSmackPlugs_linked_neg (env : SmackEnv κ ρ) {faults : Faults} {context : Context}
    {plug : Plug} {plugs : List Plug} (hplugset : context.plugset = plug :: plugs) {s : System κ}
    (hlink : (s.links (plugLinkPath context plug).2).isSome) :
    (installSmackPlugs env faults context s).1 < 0 := by
  have hneg : (installPlug env faults context 0 plug s).1 < 0 := by
    simp only [installPlug]
    split
    · rename_i hneg
      exact hneg
    · cases faults.symlink 0 with
      | some e =>
        have hneg : -e.val < 0 := Int.neg_neg_of_pos e.pos
        rw [symlink_some, if_pos hneg]
        exact hneg
      | none =>
        have hneg : -EEXIST < 0 := by decide
        simp only [symlink, if_pos hlink, if_pos hneg]
        exact hneg
  simp only [installSmackPlugs, hplugset, plugsLoop, and_true, if_pos hneg]
  rw [plugsLoop_neg hneg]
  exact hneg

/-! ## Installing -/

/-- What `smack_install` leaves when it does not fail, for a context with an id. -/
theorem smackInstall_installed (env : SmackEnv κ ρ) {answers answersAgain : Nat → Answers}
    (revert : Faults) {context : Context} (hid : context.id 0 ≠ 0)
    (hexist : PathsExist answers 0 context.pathSet)
    (hle : ∀ plug ∈ context.plugset, plug.impdir.length ≤ stdSize)
    (hdistinct : (context.plugset.map Plug.impdir).Nodup)
    (hpath : (getSmackRulePath env context.idString).1 ≥ 0) {accesses : ρ}
    (hloads : LoadsRules env (.over answers answersAgain) context accesses) {s : System κ}
    (hfree : ∀ plug ∈ context.plugset, s.links (plugLinkPath context plug).2 = none) :
    ∃ l a, smackInstall env (.over answers answersAgain) revert context s = (0, { s with
      ruleFiles := Function.update s.ruleFiles (getSmackRulePath env context.idString).2
        (some (env.fmustach context).2)
      rules := if env.enabled then env.accessesApply accesses s.rules else s.rules
      links := l
      attrs := a }) := by
  have hrules := createSmackRules_loaded env hpath ⟨rfl, rfl⟩ hloads s
  rw [rendered_over] at hrules
  generalize hs₁ : ({ s with
      ruleFiles := Function.update s.ruleFiles (getSmackRulePath env context.idString).2
        (some (env.fmustach context).2)
      rules := if env.enabled then env.accessesApply accesses s.rules else s.rules } : System κ) =
    s₁ at hrules ⊢
  have hfree₁ : ∀ plug ∈ context.plugset, s₁.links (plugLinkPath context plug).2 = none := by
    rw [← hs₁]
    exact hfree
  have hplugs : (installSmackPlugs env (.over answers answersAgain) context s₁).1 = 0 :=
    installSmackPlugs_code env hle hdistinct hfree₁
  obtain ⟨l, hl, -⟩ := installSmackPlugs_changes env (.over answers answersAgain) context s₁
  have hlinks : installSmackPlugs env (.over answers answersAgain) context s₁ =
      (0, { s₁ with links := l }) := Prod.ext hplugs hl
  have hlabels : (labelAllPaths (.over answers answersAgain) context true
      { s₁ with links := l }).1 = 0 := labelAllPaths_code hexist true nofun _
  obtain ⟨a, ha, -⟩ := labelAllPaths_changes (.over answers answersAgain) context true
    { s₁ with links := l }
  have hattrs : labelAllPaths (.over answers answersAgain) context true { s₁ with links := l } =
      (0, { s₁ with links := l, attrs := a }) := Prod.ext hlabels ha
  refine ⟨l, a, ?_⟩
  simp only [smackInstall, if_pos hid, installSmackWithId, installWithId, hrules, hlinks, hattrs,
    ge_iff_le, Int.le_refl, if_true, installStatus]
  rw [← hs₁]

/-- An installation that the checks let go on. -/
theorem actionInstall_of_mac {permgr : PermMgr (System κ)} {mac : Mac (System κ)}
    {context : Context} {s s₁ s₂ : System κ} (hcheck : checkContext context = 0)
    (hplugs : (checkPlugInstallable permgr mac context s).1 ≥ 0)
    (hstate : (checkPlugInstallable permgr mac context s).2 = s)
    (hadd : context.id 0 ≠ 0 → permgr.addPermissions (mac.getLabel context.idString)
      context.permissionSet true s = (0, s₁))
    (hno : ¬ context.id 0 ≠ 0 → s₁ = s) (hmac : mac.install context s₁ = (0, s₂)) :
    actionInstall permgr mac context s = (0, s₂) := by
  obtain ⟨rc, hrc⟩ : ∃ rc, checkPlugInstallable permgr mac context s = (rc, s) :=
    ⟨_, Prod.ext rfl hstate⟩
  rw [hrc] at hplugs
  simp only [actionInstall, hcheck, Int.lt_irrefl, if_false, hrc, if_neg (not_lt.2 hplugs)]
  by_cases hid : context.id 0 ≠ 0
  · simp only [if_pos hid, hadd hid, Int.lt_irrefl, and_false, if_false, hmac]
  · cases hno hid
    simp only [hid, false_and, if_false, hmac, Int.lt_irrefl]

/-! ## Removing -/

/-- The whole removal. -/
theorem forceUninstallSmack_code (env : SmackEnv κ ρ) {answers answersAgain : Nat → Answers}
    {context : Context} (hle : ∀ plug ∈ context.plugset, plug.impdir.length ≤ stdSize)
    (hpath : (getSmackRulePath env context.idString).1 ≥ 0) {s : System κ}
    (hfile : s.ruleFiles (getSmackRulePath env context.idString).2 ≠ none) :
    (forceUninstallSmack env (.over answers answersAgain) context s).1 = 0 := by
  have hdrop : (smackDropPathLabels (.over answers answersAgain) context s).1 = 0 :=
    smackDropPathLabels_code s
  obtain ⟨a, ha, -⟩ := smackDropPathLabels_drops (.over answers answersAgain) context s
  have hlabels : smackDropPathLabels (.over answers answersAgain) context s =
      (0, { s with attrs := a }) := Prod.ext hdrop ha
  have hplugs : (uninstallSmackPlugs (.over answers answersAgain) context
      { s with attrs := a }).1 = 0 := uninstallSmackPlugs_code hle _
  obtain ⟨l, hl, -⟩ := uninstallSmackPlugs_drops (.over answers answersAgain) context
    { s with attrs := a }
  have hlinks : uninstallSmackPlugs (.over answers answersAgain) context { s with attrs := a } =
      (0, { s with attrs := a, links := l }) := Prod.ext hplugs hl
  have hrules : (removeSmackRules env (.over answers answersAgain) context
      { s with attrs := a, links := l }).1 = 0 := removeSmackRules_code env rfl hpath hfile
  simp only [forceUninstallSmack, hlabels, hlinks, hrules, Int.lt_irrefl, ite_self]
  split <;> rfl

/-- A removal whose calls succeed. -/
theorem actionUninstall_of_mac {permgr : PermMgr (System κ)} {mac : Mac (System κ)}
    {context : Context} {s s₁ s₂ : System κ} (hcheck : checkContext context = 0)
    (hid : context.id 0 ≠ 0)
    (hdrop : permgr.dropPermissions (mac.getLabel context.idString) s = (0, s₁))
    (hmac : mac.uninstall context s₁ = (0, s₂)) :
    actionUninstall permgr mac context s = (0, s₂) := by
  simp only [actionUninstall, hcheck, Int.lt_irrefl, if_false, if_pos hid, hdrop, and_false, hmac]

/-- A removal whose calls succeed drops the policies and cleans up. -/
theorem actionUninstall_removes (env : SmackEnv κ ρ) (answers answersAgain : Nat → Answers)
    (revert : Faults) (check : PolicyKey → (PolicyKey → Option CStr) → Int) {context : Context}
    (hcheck : checkContext context = 0) (hid : context.id 0 ≠ 0)
    (hle : ∀ plug ∈ context.plugset, plug.impdir.length ≤ stdSize)
    (hpath : (getSmackRulePath env context.idString).1 ≥ 0) {s : System κ}
    (hfile : s.ruleFiles (getSmackRulePath env context.idString).2 ≠ none) :
    let removed := actionUninstall (cynagoraItf none check .none .none)
      (smackMac env (.over answers answersAgain) revert) context s
    removed.1 = 0 ∧ ∃ p, Lib.Overwrites (clientKeys (smackGetLabel context.idString))
        (fun _ => none) s.policies p ∧
      Uninstalls env (.over answers answersAgain) context { s with policies := p } removed.2 := by
  intro removed
  obtain ⟨p, hdrop, hpolicies⟩ := cynagoraDropPolicies_none (smackGetLabel_ne context.idString) s
  have hcode : (forceUninstallSmack env (.over answers answersAgain) context
      { s with policies := p }).1 = 0 := forceUninstallSmack_code env hle hpath hfile
  have hremoved : removed = (0, (forceUninstallSmack env (.over answers answersAgain) context
      { s with policies := p }).2) := by
    refine actionUninstall_of_mac hcheck hid hdrop ?_
    exact (smackUninstall_of_checkContext env _ hcheck.ge.not_gt _).trans (Prod.ext hcode rfl)
  rw [hremoved]
  exact ⟨rfl, p, hpolicies, forceUninstallSmack_uninstalls env _ context _⟩

/-- The cleanup removes the link of every plug. -/
theorem Uninstalls.plug_dropped {env : SmackEnv κ ρ} {answers answersAgain : Nat → Answers}
    {context : Context} {s s' : System κ}
    (h : Uninstalls env (.over answers answersAgain) context s s') (hid : context.id 0 ≠ 0)
    {plug : Plug} (hplug : plug ∈ context.plugset) (hle : plug.impdir.length ≤ stdSize) :
    s'.links (plug.impdir ++ .lit "/" ++ context.idString) = none := by
  obtain ⟨hname, hplace⟩ := plugLinkPath_of_le context hle
  have hdropped : (plugLinkPath context plug).2 ∈
      droppedPlaces (.over answers answersAgain) context 0 context.plugset := by
    obtain ⟨k, hk⟩ := List.mem_iff_getElem?.1 hplug
    exact ⟨k, plug, hk, hname, rfl, rfl⟩
  have hset := h.links.set ⟨hid, hdropped⟩
  rwa [hplace] at hset

/-- The cleanup resets the attributes of every path. -/
theorem Uninstalls.path_dropped {env : SmackEnv κ ρ} {answers answersAgain : Nat → Answers}
    {context : Context} {s s' : System κ}
    (h : Uninstalls env (.over answers answersAgain) context s s') {path : Path}
    (hpath : path ∈ context.pathSet) (x : Xattr) :
    s'.attrs (path.path, x) = dropValue (path.path, x) := by
  obtain ⟨k, hk⟩ := List.mem_iff_getElem?.1 hpath
  exact h.attrs.set ⟨k, path, hk, rfl, fun _ _ => rfl, rfl⟩

/-- **Removal undoes installation.** For a context with an id, on a system where no call fails and
that has no link yet where the plugs want theirs. -/
theorem install_uninstall (env : SmackEnv κ ρ) (mem : Nat → UInt8) (ops : List ContextOp)
    {answers answersAgain : Nat → Answers} (revert : Faults)
    (check : PolicyKey → (PolicyKey → Option CStr) → Int) (accesses : ρ) (s : System κ) :
    let context := (contextCreate mem).run ops
    let permgr := cynagoraItf none check .none .none
    let mac := smackMac env (.over answers answersAgain) revert
    let label := smackGetLabel context.idString
    let file := (getSmackRulePath env context.idString).2
    let installed := actionInstall permgr mac context s
    let removed := actionUninstall permgr mac context installed.2
    context.errorFlag = false → context.id 0 ≠ 0 →
    PathsExist answers 0 context.pathSet →
    (checkPlugInstallable permgr mac context s).1 ≥ 0 →
    (getSmackRulePath env context.idString).1 ≥ 0 →
    (env.fmustach context).1 ≥ 0 →
    env.accessesAdd (env.fmustach context).2 = some accesses →
    (∀ plug ∈ context.plugset, s.links (plug.impdir ++ .lit "/" ++ context.idString) = none) →
    installed.1 = 0 ∧ removed.1 = 0 ∧
    (∀ key, key.client = label → removed.2.policies key = none) ∧
    (∀ key, key.client ≠ label → removed.2.policies key = s.policies key) ∧
    removed.2.ruleFiles file = none ∧
    installed.2.rules = (if env.enabled then env.accessesApply accesses s.rules else s.rules) ∧
    removed.2.rules =
      (if env.enabled then env.accessesClear accesses installed.2.rules else s.rules) ∧
    (∀ plug ∈ context.plugset,
      removed.2.links (plug.impdir ++ .lit "/" ++ context.idString) = none) ∧
    ∀ path ∈ context.pathSet, removed.2.attrs (path.path, .smack) = some DROP_LABEL ∧
      removed.2.attrs (path.path, .smackexec) = none ∧
      removed.2.attrs (path.path, .smacktransmute) = none := by
  intro context permgr mac label file installed removed herr hid hexist hplugs hpath hrender hparse
    hfree
  have hinv : context.Inv := (Context.Inv.of_empty _ _).run ops
  have hle : ∀ plug ∈ context.plugset, plug.impdir.length ≤ stdSize := Context.run_impdir_le mem ops
  have hlabel : label ≠ CYNAGORA_SELECT_ALL := smackGetLabel_ne _
  have hcheck : checkContext context = 0 := checkContext_zero herr fun _ => hid
  have hfile : HasRuleFile env context := ⟨hid, hpath⟩
  have hread : readRules env (.over answers answersAgain) (some (env.fmustach context).2) =
      some accesses := (if_pos ⟨rfl, rfl, rfl⟩).trans hparse
  -- the installation
  have hloads : LoadsRules env (.over answers answersAgain) context accesses :=
    ⟨hrender, hread, fun _ => rfl⟩
  obtain ⟨l, a, hmac⟩ := smackInstall_installed env revert hid hexist hle hinv.plugs_distinct hpath
    hloads
    (s := { s with policies := installedPolicies label context.permissionSet s.policies })
    fun plug hplug => (plugLinkPath_of_le context (hle plug hplug)).2 ▸ hfree plug hplug
  have hinstalled : installed = _ := actionInstall_of_mac hcheck hplugs
    (checkPlugInstallable_state none check .none .none mac context s)
    (fun _ => cynagoraSetPolicies_none hlabel context.permissionSet s) (fun h => absurd hid h) hmac
  -- the removal
  have hwritten : installed.2.ruleFiles file ≠ none := by
    rw [hinstalled]
    simp [file]
  obtain ⟨hcode, p, hpolicies, huninstalls⟩ :=
    actionUninstall_removes env answers answersAgain revert check hcheck hid hle hpath hwritten
  refine ⟨congrArg Prod.fst hinstalled, hcode, ?_, ?_, ?_, ?_, ?_, ?_, ?_⟩
  · intro key hkey
    exact (congrFun huninstalls.policies key).trans (hpolicies.set hkey)
  · intro key hkey
    refine (congrFun huninstalls.policies key).trans ((hpolicies.frame hkey).trans ?_)
    rw [hinstalled]
    exact if_neg hkey
  · exact huninstalls.ruleFiles.set ⟨hfile, rfl, rfl⟩
  · rw [hinstalled]
  · refine (huninstalls.rules hfile).trans ?_
    rw [hinstalled]
    cases henabled : env.enabled with
    | false => simp [clearRules, henabled]
    | true => simp [clearRules, clearAccesses, henabled, ruleFile, hread]
  · exact fun plug hplug => huninstalls.plug_dropped hid hplug (hle plug hplug)
  · intro path hpath
    exact ⟨huninstalls.path_dropped hpath .smack, huninstalls.path_dropped hpath .smackexec,
      huninstalls.path_dropped hpath .smacktransmute⟩

/-- Settings with a plug and an executable file. -/
def plugSettings : List ContextOp :=
  let directories : Answers := ⟨fun _ _ => .mode false true false, fun _ => true⟩
  [.setId (.lit "ab"), .addPath .plain (.lit "/a") (.lit "exec"),
    .addPermission .plain (.lit "urn:redpesk:permission:cd:partner:export:plug"),
    .addPlug directories (.lit "/e") (.lit "cd") (.lit "/i")]

/-- An application with a plug is installed and removed. -/
theorem install_uninstall_plug :
    let context := (contextCreate fun _ => 0).run plugSettings
    let permgr := cynagoraItf none (fun _ _ => 0) .none .none
    let mac := smackMac SmackEnv.plain (.over (fun _ => .plain) fun _ => .plain) .none
    let installed := actionInstall permgr mac context .blank
    let removed := actionUninstall permgr mac context installed.2
    context.plugset.length = 1 ∧ installed.2.links (.lit "/i/ab") ≠ none ∧
      installed.1 = 0 ∧ removed.1 = 0 ∧ ∀ plug ∈ context.plugset,
        removed.2.links (plug.impdir ++ .lit "/" ++ context.idString) = none := by
  intro context permgr mac installed removed
  have hall := @install_uninstall _ _ SmackEnv.plain (fun _ => 0) plugSettings
    (fun _ => .plain) (fun _ => .plain) .none (fun _ _ => 0)
    [(.lit "App:ab System rx" : CStr).bytes] .blank (by decide +kernel) (by decide +kernel)
    (fun _ _ _ => Int.le_refl 0) (by decide +kernel) (by decide +kernel) (by decide +kernel)
    (by decide +kernel) fun _ _ => rfl
  obtain ⟨hinstalled, hremoved, -, -, -, -, -, hlinks, -⟩ := hall
  refine ⟨by decide +kernel, by decide +kernel, hinstalled, hremoved, ?_⟩
  simp only [removed, installed, permgr, mac, context]
  exact hlinks

/-! ## Installing again -/

/-- An installation that succeeds is not reverted. -/
theorem installStatus_nonneg {env : SmackEnv κ ρ} {revert : Faults} {context : Context}
    {r : Int × System κ} (h : (installStatus env revert context r).1 ≥ 0) :
    r.1 ≥ 0 ∧ installStatus env revert context r = r := by
  unfold installStatus at h ⊢
  split at h
  · rename_i hpos
    exact ⟨hpos, if_pos hpos⟩
  · rename_i hneg
    exact absurd h hneg

/-- An installation without an id only removes labels. -/
theorem smackInstall_noId (env : SmackEnv κ ρ) (faults revert : Faults) {context : Context}
    (hid : ¬ context.id 0 ≠ 0) (hneed : context.needId = false) (s : System κ) :
    smackInstall env faults revert context s =
      installStatus env revert context (labelAllPaths faults context false s) := by
  simp only [smackInstall, if_neg hid, installSmackNoId, installNoId, hneed, Bool.false_eq_true,
    if_false]

/-- What `smack_install` that succeeds has done, for a context with an id. -/
theorem smackInstall_done (env : SmackEnv κ ρ) {faults revert : Faults} {context : Context}
    {s : System κ} (hid : context.id 0 ≠ 0)
    (h : (smackInstall env faults revert context s).1 ≥ 0) :
    (getSmackRulePath env context.idString).1 ≥ 0 ∧ ∃ accesses s₁ s₂,
      LoadsRules env faults context accesses ∧
      s₁ = { s with
        ruleFiles := Function.update s.ruleFiles (getSmackRulePath env context.idString).2
          (some (rendered env faults context).2)
        rules := if env.enabled then env.accessesApply accesses s.rules else s.rules } ∧
      (installSmackPlugs env faults context s₁).1 ≥ 0 ∧
      (installSmackPlugs env faults context s₁).2 = s₂ ∧
      (labelAllPaths faults context true s₂).1 ≥ 0 ∧
      (smackInstall env faults revert context s).2 = (labelAllPaths faults context true s₂).2 := by
  have hdone : (installWithId env faults context s).1 ≥ 0 ∧
      (smackInstall env faults revert context s).2 = (installWithId env faults context s).2 := by
    simp only [smackInstall, if_pos hid, installSmackWithId] at h ⊢
    obtain ⟨hpos, hsame⟩ := installStatus_nonneg h
    exact ⟨hpos, congrArg Prod.snd hsame⟩
  obtain ⟨hcode, hstate⟩ := hdone
  rw [hstate]
  by_cases hpath : (getSmackRulePath env context.idString).1 < 0
  · have hcreate := createSmackRules_of_path env faults context hpath s
    simp only [installWithId, hcreate, ge_iff_le, not_le.2 hpath, if_false] at hcode
  have hcases := createSmackRules_cases env faults context (not_lt.1 hpath) s
  simp only [installWithId] at hcode ⊢
  generalize createSmackRules env faults context s = r at hcases hcode ⊢
  cases hcases with
  | notWritten hrc _ => simp only [ge_iff_le, not_le.2 hrc, if_false] at hcode
  | notRendered _ hrc => simp only [ge_iff_le, not_le.2 hrc, if_false] at hcode
  | notRead hrc _ _ _ => simp only [ge_iff_le, not_le.2 hrc, if_false] at hcode
  | @partLoaded e _ _ _ _ _ _ =>
    have hrc : -e.val < 0 := Int.neg_neg_of_pos e.pos
    simp only [ge_iff_le, not_le.2 hrc, if_false] at hcode
  | @loaded accesses _ hloads =>
    generalize hs₁ : ({ s with
        ruleFiles := Function.update s.ruleFiles (getSmackRulePath env context.idString).2
          (some (rendered env faults context).2)
        rules := if env.enabled then env.accessesApply accesses s.rules else s.rules } :
      System κ) = s₁ at hcode ⊢
    simp only [ge_iff_le, Int.le_refl, if_true] at hcode ⊢
    split at hcode
    · rename_i hplugs
      rw [if_pos hplugs]
      exact ⟨not_lt.1 hpath, accesses, _, _, hloads, hs₁.symm, hplugs, rfl, hcode, rfl⟩
    · rename_i hplugs
      exact absurd hcode hplugs

/-- The failures of the attributes that `label_all_paths` does not report left nothing to write. -/
def LabelsWritten (faults : Faults) (context : Context) (set : Bool) (s : System κ) : Prop :=
  ∀ k path, context.pathSet[k]? = some path → ∀ xattr, faults.xattr k xattr ≠ none →
    s.attrs (path.path, xattr) = wantedLabel (faults.answers k) context.idString set path xattr

/-- `label_all_paths`, once it has succeeded, called again. -/
theorem labelAllPaths_again {faults : Faults} {context : Context} {set : Bool} {s : System κ}
    (hdistinct : (context.pathSet.map Path.path).Nodup)
    (h : (labelAllPaths faults context set s).1 ≥ 0) :
    let s' := (labelAllPaths faults context set s).2
    let again := labelAllPaths (.over faults.answers faults.answersAgain) context set s'
    again.1 = 0 ∧ (again.2 = s' ↔ LabelsWritten faults context set s) := by
  intro s' again
  obtain ⟨hexist, hagain⟩ := labelAllPaths_exist h
  have hcode : again.1 = 0 := labelAllPaths_code hexist set hagain s'
  obtain ⟨f, hf⟩ := exists_wantedFrom faults.answers context.idString set 0 hdistinct
  obtain ⟨a, ha, hset⟩ := labelAllPaths_sets faults context set hf s h
  obtain ⟨a', ha', hset'⟩ := labelAllPaths_sets (.over faults.answers faults.answersAgain) context
    set hf s' hcode.ge
  have hs' : s' = { s with attrs := a } := ha
  have hattrs : again.2 = s' ↔ a' = s'.attrs := by
    rw [show again.2 = { s' with attrs := a' } from ha', System.ext_iff]
    simp
  refine ⟨hcode, ?_⟩
  rw [hattrs, hset'.eq_iff]
  constructor
  · intro hall k path hp xattr hfault
    have hcell : (path.path, xattr) ∉ writtenCells faults 0 context.pathSet := by
      rintro ⟨j, q, hq, hpath, hnone⟩
      rw [Nat.zero_add, pathRank_inj hdistinct hq hp hpath.symm] at hnone
      exact hfault hnone
    have hwanted := hf k path hp xattr
    rw [Nat.zero_add] at hwanted
    rw [← hset.frame hcell, ← hwanted]
    have hall' := @hall (path.path, xattr) ⟨k, path, hp, rfl, rfl⟩
    rwa [hs'] at hall'
  · rintro hwritten ⟨p, xattr⟩ ⟨k, path, hp, hpath, -⟩
    cases hpath
    have hwanted := hf k path hp xattr
    rw [Nat.zero_add] at hwanted
    rw [hs']
    by_cases hcell : (path.path, xattr) ∈ writtenCells faults 0 context.pathSet
    · exact hset.set hcell
    · have hfault : faults.xattr k xattr ≠ none := fun hnone =>
        hcell ⟨k, path, hp, rfl, by rw [Nat.zero_add]; exact hnone⟩
      exact (hset.frame hcell).trans ((hwritten k path hp xattr hfault).trans hwanted.symm)

/-- The rules that are created where they already are, from a text that was written in full. -/
theorem createSmackRules_again (env : SmackEnv κ ρ) {faults : Faults} {context : Context}
    (hpath : (getSmackRulePath env context.idString).1 ≥ 0) {accesses : ρ}
    (hloads : LoadsRules env faults context accesses)
    (hwhole : rendered env faults context = env.fmustach context) {s : System κ}
    (hfile : s.ruleFiles (getSmackRulePath env context.idString).2 =
      some (rendered env faults context).2)
    (hrules : env.enabled = true → env.accessesApply accesses s.rules = s.rules) :
    createSmackRules env (.over faults.answers faults.answersAgain) context s = (0, s) := by
  obtain ⟨hrendered, hread, -⟩ := hloads
  rw [hwhole] at hrendered hread hfile
  have hread' : readRules env (.over faults.answers faults.answersAgain)
      (some (env.fmustach context).2) = some accesses := by
    unfold readRules at hread ⊢
    split at hread
    · exact (if_pos ⟨rfl, rfl, rfl⟩).trans hread
    · cases hread
  have hloads : LoadsRules env (.over faults.answers faults.answersAgain) context accesses :=
    ⟨hrendered, hread', fun _ => rfl⟩
  rw [createSmackRules_loaded env hpath ⟨rfl, rfl⟩ hloads, rendered_over]
  refine Prod.ext rfl (System.ext rfl ?_ ?_ rfl rfl)
  · exact Function.update_eq_self_iff.2 hfile.symm
  · cases henabled : env.enabled with
    | false => rfl
    | true => exact hrules henabled

/-- The rule file after an installation that has succeeded. -/
theorem smackInstall_file (env : SmackEnv κ ρ) {faults revert : Faults} {context : Context}
    {s : System κ} (hid : context.id 0 ≠ 0)
    (h : (smackInstall env faults revert context s).1 ≥ 0) :
    (smackInstall env faults revert context s).2.ruleFiles
      (getSmackRulePath env context.idString).2 = some (rendered env faults context).2 := by
  obtain ⟨-, accesses, s₁, s₂, -, hs₁, -, hs₂, -, hinstalled⟩ := smackInstall_done env hid h
  obtain ⟨l, hlinks, -⟩ := installSmackPlugs_changes env faults context s₁
  obtain ⟨a, hattrs, -⟩ := labelAllPaths_changes faults context true s₂
  rw [hinstalled, hattrs, ← hs₂, hlinks, hs₁]
  exact Function.update_self ..

/-- An installation does not succeed where the link of its first plug is. -/
theorem actionInstall_linked (env : SmackEnv κ ρ) (faults revert : Faults)
    (check : PolicyKey → (PolicyKey → Option CStr) → Int) {context : Context}
    (hid : context.id 0 ≠ 0) {plug : Plug} {plugs : List Plug}
    (hplugset : context.plugset = plug :: plugs) {s : System κ}
    (hlink : (s.links (plugLinkPath context plug).2).isSome) :
    (actionInstall (cynagoraItf none check .none .none) (smackMac env faults revert) context
      s).1 ≠ 0 := by
  intro hcode
  have hstate := checkPlugInstallable_state none check .none .none (smackMac env faults revert)
    context s
  obtain ⟨-, s₁, hadd, -, hmac, -⟩ := actionInstall_done hstate hcode
  obtain ⟨-, _, s₂, s₃, -, hs₂, hplugs, -⟩ := smackInstall_done env hid hmac
  have hs₁ : s₁.links = s.links := by
    have hset : (cynagoraSetPolicies .none (smackGetLabel context.idString)
      context.permissionSet true s).2 = s₁ := (hadd hid).2
    rw [← hset, cynagoraSetPolicies_none (smackGetLabel_ne _)]
  refine absurd hplugs (not_le.2 (installSmackPlugs_linked_neg env hplugset ?_))
  rw [hs₂]
  rw [← hs₁] at hlink
  exact hlink

/-- What `smack_install` that succeeds leaves of the policies and of the links. -/
theorem smackInstall_keeps (env : SmackEnv κ ρ) {faults revert : Faults} {context : Context}
    {s : System κ} (hid : context.id 0 ≠ 0)
    (h : (smackInstall env faults revert context s).1 ≥ 0) :
    (smackInstall env faults revert context s).2.policies = s.policies ∧
      ∀ plug plugs, context.plugset = plug :: plugs →
        ((smackInstall env faults revert context s).2.links
          (plugLinkPath context plug).2).isSome := by
  obtain ⟨-, accesses, s₁, s₂, -, hs₁, hplugs, hs₂, -, hinstalled⟩ := smackInstall_done env hid h
  obtain ⟨l, hlinks, -⟩ := installSmackPlugs_changes env faults context s₁
  obtain ⟨a, hattrs, -⟩ := labelAllPaths_changes faults context true s₂
  rw [hinstalled, hattrs]
  refine ⟨?_, fun plug plugs hplugset => ?_⟩
  · rw [← hs₂, hlinks, hs₁]
  · rw [← hs₂]
    exact (installSmackPlugs_linked env hplugset hplugs).2

/-- `smack_install` for a context without plugs, once it has succeeded, called again. -/
theorem smackInstall_again (env : SmackEnv κ ρ)
    (happly : ∀ r k, env.accessesApply r (env.accessesApply r k) = env.accessesApply r k)
    {faults revert : Faults} (revert' : Faults) {context : Context}
    (hdistinct : (context.pathSet.map Path.path).Nodup)
    (hneed : ¬ context.id 0 ≠ 0 → context.needId = false) (hplugset : context.plugset = [])
    (hwhole : context.id 0 ≠ 0 → rendered env faults context = env.fmustach context)
    {s : System κ} (h : (smackInstall env faults revert context s).1 ≥ 0) :
    let s' := (smackInstall env faults revert context s).2
    let again := smackInstall env (.over faults.answers faults.answersAgain) revert' context s'
    again.1 = 0 ∧ (again.2 = s' ↔ LabelsWritten faults context (context.id 0 ≠ 0) s) := by
  intro s' again
  by_cases hid : context.id 0 ≠ 0
  · have hnoplug : ∀ (faults : Faults) (s : System κ),
        installSmackPlugs env faults context s = (0, s) := by
      intro faults s
      simp only [installSmackPlugs, hplugset, plugsLoop]
    obtain ⟨hpath, accesses, s₁, s₂, hloads, hs₁, -, hs₂, hlabels, hinstalled⟩ :=
      smackInstall_done env hid h
    rw [hnoplug] at hs₂
    have hs₂' : s₁ = s₂ := hs₂
    subst hs₂'
    have hs' : s' = (labelAllPaths faults context true s₁).2 := hinstalled
    obtain ⟨a, hattrs, -⟩ := labelAllPaths_changes faults context true s₁
    obtain ⟨hcode, hsame⟩ := labelAllPaths_again hdistinct hlabels
    rw [← hs'] at hcode hsame
    -- the file and the rules are there since the first call
    have hrules : createSmackRules env (.over faults.answers faults.answersAgain) context s' =
        (0, s') := by
      refine createSmackRules_again env hpath hloads (hwhole hid) ?_ fun henabled => ?_
      · rw [hs', hattrs, hs₁]
        exact Function.update_self ..
      · rw [hs', hattrs, hs₁]
        simp only [if_pos henabled]
        exact happly accesses s.rules
    have hagain : again = (0,
        (labelAllPaths (.over faults.answers faults.answersAgain) context true s').2) := by
      simp only [again, smackInstall, if_pos hid, installSmackWithId, installWithId, hrules,
        hnoplug, ge_iff_le, Int.le_refl, if_true, installStatus, hcode]
      exact Prod.ext hcode rfl
    have hwritten : LabelsWritten faults context true s₁ ↔ LabelsWritten faults context true s := by
      rw [hs₁]
      rfl
    have hset : decide (context.id 0 ≠ 0) = true := decide_eq_true hid
    rw [hagain, hset, ← hwritten]
    exact ⟨rfl, hsame⟩
  · rw [smackInstall_noId env faults revert hid (hneed hid)] at h
    obtain ⟨hlabels, hstatus⟩ := installStatus_nonneg h
    have hs' : s' = (labelAllPaths faults context false s).2 := by
      rw [show s' = (smackInstall env faults revert context s).2 from rfl,
        smackInstall_noId env faults revert hid (hneed hid), hstatus]
    obtain ⟨hcode, hsame⟩ := labelAllPaths_again hdistinct hlabels
    rw [← hs'] at hcode hsame
    have hagain : again = (0,
        (labelAllPaths (.over faults.answers faults.answersAgain) context false s').2) := by
      simp only [again, smackInstall_noId env _ _ hid (hneed hid), installStatus, hcode,
        ge_iff_le, Int.le_refl, if_true]
      exact Prod.ext hcode rfl
    have hset : decide (context.id 0 ≠ 0) = false := decide_eq_false hid
    rw [hagain, hset]
    exact ⟨rfl, hsame⟩

/-- The rule file holds the text of the template, whatever the writes that failed. -/
def TextWritten (env : SmackEnv κ ρ) (faults : Faults) (context : Context) : Prop :=
  context.id 0 ≠ 0 → (rendered env faults context).2 = (env.fmustach context).2

/-- **An installation that has succeeded succeeds again and changes nothing** exactly when the
context has no plug, and the failures that the first one did not report left nothing to write: no
attribute, and nothing of the text of the rule file. Loading a set of rules twice is loading it
once. -/
theorem install_again (env : SmackEnv κ ρ)
    (happly : ∀ r k, env.accessesApply r (env.accessesApply r k) = env.accessesApply r k)
    (mem : Nat → UInt8) (ops : List ContextOp) (faults revert revert' : Faults) (create : Fault)
    (add drop : CynagoraFaults) (check : PolicyKey → (PolicyKey → Option CStr) → Int)
    (s : System κ) :
    let context := (contextCreate mem).run ops
    let first := actionInstall (cynagoraItf create check add drop) (smackMac env faults revert)
      context s
    let second := actionInstall (cynagoraItf none check .none .none)
      (smackMac env (.over faults.answers faults.answersAgain) revert') context first.2
    first.1 = 0 → (second.1 = 0 ∧ second.2 = first.2 ↔
      context.plugset = [] ∧ TextWritten env faults context ∧
        LabelsWritten faults context (context.id 0 ≠ 0) s) := by
  intro context first second hfirst
  have hinv : context.Inv := (Context.Inv.of_empty _ _).run ops
  have hlabel := smackGetLabel_ne context.idString
  have hstate := checkPlugInstallable_state create check add drop (smackMac env faults revert)
    context s
  obtain ⟨hcheck, s₁, hadd, hno, hmac, hs⟩ := actionInstall_done hstate hfirst
  have hstate' := checkPlugInstallable_state none check .none .none
    (smackMac env (.over faults.answers faults.answersAgain) revert') context first.2
  have hneed : ¬ context.id 0 ≠ 0 → context.needId = false := by
    intro hid
    by_contra hn
    rw [Bool.not_eq_false] at hn
    have hneg := checkContext_neg.2 (.inr ⟨Classical.not_not.1 hid, hn⟩)
    exact hneg.ne hcheck
  have hfirst₂ : first.2 = (smackInstall env faults revert context s₁).2 := hs
  -- the permissions of the context are set since the first installation
  have hpolicies : context.id 0 ≠ 0 → s₁ = { s with
      policies := installedPolicies (smackGetLabel context.idString) context.permissionSet
        s.policies } := by
    intro hid
    obtain ⟨haddrc, hadds⟩ := hadd hid
    obtain ⟨hneg, -⟩ | ⟨hzero, -⟩ := cynagoraSetPolicies_spec add hlabel context.permissionSet s
    · exact absurd hneg (not_lt.2 haddrc)
    · rw [← hadds]
      exact cynagoraSetPolicies_done add hlabel context.permissionSet s hzero
  have hset : context.id 0 ≠ 0 → cynagoraSetPolicies .none (smackGetLabel context.idString)
      context.permissionSet true first.2 = (0, first.2) := by
    intro hid
    have hagain : installedPolicies (smackGetLabel context.idString) context.permissionSet
        first.2.policies = first.2.policies := by
      rw [hfirst₂, (smackInstall_keeps env hid hmac).1, hpolicies hid]
      exact installedPolicies_idem _ _ _
    rw [cynagoraSetPolicies_none hlabel, hagain]
  cases hplugset : context.plugset with
  | cons plug plugs =>
    -- and so is the link of the plug
    have hid : context.id 0 ≠ 0 := by
      intro h0
      have hplugs := (hinv.onlyDefaults (hneed (not_not.2 h0))).2.1
      rw [hplugset] at hplugs
      cases hplugs
    have hlink : (first.2.links (plugLinkPath context plug).2).isSome := by
      rw [hfirst₂]
      exact (smackInstall_keeps env hid hmac).2 plug plugs hplugset
    exact iff_of_false (fun h => actionInstall_linked env _ _ check hid hplugset hlink h.1)
      fun h => by cases h.1
  | nil =>
    by_cases htext : TextWritten env faults context
    · have hwhole : context.id 0 ≠ 0 → rendered env faults context = env.fmustach context := by
        intro hid
        obtain ⟨-, _, _, _, hloads, -⟩ := smackInstall_done env hid hmac
        exact Prod.ext (rendered_code env hloads.1) (htext hid)
      obtain ⟨hcode, hsame⟩ := smackInstall_again env happly revert' hinv.paths_distinct hneed
        hplugset hwhole hmac
      rw [← hfirst₂] at hcode hsame
      have hsecond : second = (0, (smackInstall env (.over faults.answers faults.answersAgain)
          revert' context first.2).2) := by
        refine actionInstall_of_mac hcheck ?_ hstate' hset (fun _ => rfl) (Prod.ext hcode rfl)
        simp only [checkPlugInstallable, hplugset, checkPlugLoop]
        exact Int.le_refl 0
      have hwritten : LabelsWritten faults context (context.id 0 ≠ 0) s₁ ↔
          LabelsWritten faults context (context.id 0 ≠ 0) s := by
        by_cases hid : context.id 0 ≠ 0
        · rw [hpolicies hid]
          rfl
        · rw [hno hid]
      rw [hsecond, ← hwritten]
      exact and_congr (iff_of_true rfl rfl) (hsame.trans (and_iff_right htext).symm)
    · -- the second installation writes the text that the first has lost a part of
      refine iff_of_false ?_ fun h => htext h.2.1
      rintro ⟨hcode, hsame⟩
      refine htext fun hid => ?_
      have hfile := smackInstall_file env hid hmac
      obtain ⟨-, s₁', -, -, hmac', hs'⟩ := actionInstall_done hstate' hcode
      have hfile' := smackInstall_file env hid hmac'
      have hsecond : second.2 = (smackInstall env (.over faults.answers faults.answersAgain)
          revert' context s₁').2 := hs'
      rw [← hsecond, hsame, hfirst₂, hfile, rendered_over] at hfile'
      exact Option.some.inj hfile'

/-- The second installation of an application with a plug fails on the link of the first. -/
theorem install_again_plug :
    let context := (contextCreate fun _ => 0).run plugSettings
    let permgr := cynagoraItf none (fun _ _ => 0) .none .none
    let mac := smackMac SmackEnv.plain (.over (fun _ => .plain) fun _ => .plain) .none
    let first := actionInstall permgr mac context .blank
    let second := actionInstall permgr mac context first.2
    first.1 = 0 ∧ second.1 = -EEXIST ∧ first.2.attrs (.lit "/a", .smack) ≠ some DROP_LABEL ∧
      second.2.attrs (.lit "/a", .smack) = some DROP_LABEL := by
  decide +kernel

/-- Without a plug the second installation succeeds. -/
theorem install_again_path :
    let context := (contextCreate fun _ => 0).run
      [.setId (.lit "ab"), .addPath .plain (.lit "/a") (.lit "exec")]
    let permgr := cynagoraItf none (fun _ _ => 0) .none .none
    let mac := smackMac SmackEnv.plain (.over (fun _ => .plain) fun _ => .plain) .none
    let first := actionInstall permgr mac context .blank
    let second := actionInstall permgr mac context first.2
    first.1 = 0 ∧ second.1 = 0 ∧ second.2 = first.2 := by
  refine ⟨by decide +kernel, ?_⟩
  exact (install_again SmackEnv.plain SmackEnv.plain_apply (fun _ => 0)
    [.setId (.lit "ab"), .addPath .plain (.lit "/a") (.lit "exec")]
    (.over (fun _ => .plain) fun _ => .plain) .none .none none .none .none (fun _ _ => 0) .blank
    (by decide +kernel)).2 ⟨by decide +kernel, fun _ => rfl, fun _ _ _ _ h => absurd rfl h⟩

end SecLsmManager

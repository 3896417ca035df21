import SecLsmManager.Policy.SelinuxRemoval

/-!
# What a request can touch with SELinux

Every context has for its own the four files of its module, the module of its id, and the labels of
its paths. Whatever the calls answer, an installation or a removal changes nothing else
(`SelinuxTouches`). What is installed is what the pp file of the id holds, so the module is the one
of the id as long as the pp files are those of their ids (`SelinuxSystem.Declared`).
-/

namespace SecLsmManager

/-! ## The module of an id -/

/-- Two files of modules are at one path only if they are of the same kind and of the same id. -/
theorem ModuleFile.path_eq_path {env : SelinuxEnv} {context context' : Context} {f g : ModuleFile}
    (h : f.path env context = g.path env context') :
    f = g ∧ context.idString = context'.idString := by
  rw [path_eq, path_eq] at h
  have hbytes := congrArg CStr.bytes h
  simp only [CStr.bytes_append] at hbytes
  have hlength : f.extension.bytes.length = g.extension.bytes.length :=
    f.extension_length.trans g.extension_length.symm
  obtain ⟨hname, hextension⟩ := List.append_inj' hbytes hlength
  obtain ⟨hid, -⟩ := List.append_inj' hname rfl
  exact ⟨extension_injective (CStr.ext hextension), CStr.ext (List.append_cancel_left hid)⟩

/-- Every pp file declares the module of its id. -/
def SelinuxSystem.Declared (env : SelinuxEnv) (s : SelinuxSystem) : Prop :=
  ∀ context pp, s.files (ModuleFile.pp.path env context) = some pp →
    env.moduleName pp = context.idString

/-- The script compiles the te file, which declares the module of the id. -/
def SelinuxAnswers.Compiles (env : SelinuxEnv) (answers : SelinuxAnswers) (context : Context) :
    Prop :=
  ∀ pp, answers.compiled = some pp → env.moduleName pp = context.idString

/-! ## The parts of a context -/

def ownModuleFiles (env : SelinuxEnv) (context : Context) : Set CStr :=
  {path | context.id 0 ≠ 0 ∧ ∃ f : ModuleFile, path = f.path env context}

/-- The labels that the types of the context give to a path, with anything in the memory that is
not set. -/
def ownPathLabels (context : Context) (path : CStr) : Set CStr :=
  {label | ∃ labelMem idMem, ∃ p ∈ context.pathSet, p.path = path ∧ label =
    pathLabel (Selinux.initPathTypeDefinitions labelMem (trfid idMem context.idString)) p}

/-- From `s` to `s'` only what belongs to the context has changed. -/
structure SelinuxTouches (env : SelinuxEnv) (context : Context) (s s' : SelinuxSystem) : Prop where
  files : Set.EqOn s'.files s.files (ownModuleFiles env context)ᶜ
  labels : ∀ path, s'.labels path = s.labels path ∨
    ∃ label ∈ ownPathLabels context path, s'.labels path = some label
  declared : s.Declared env → s'.Declared env
  modules : s.Declared env →
    ∀ name, name ≠ context.idString → (name ∈ s'.modules ↔ name ∈ s.modules)

variable {env : SelinuxEnv} {context : Context} {s s' s'' : SelinuxSystem}

/-- A call that does nothing touches nothing. -/
theorem SelinuxTouches.refl (env : SelinuxEnv) (context : Context) (s : SelinuxSystem) :
    SelinuxTouches env context s s :=
  ⟨Set.eqOn_refl _ _, fun _ => .inl rfl, id, fun _ _ _ => Iff.rfl⟩

/-- Two calls in turn touch what each of them touches. -/
theorem SelinuxTouches.trans (h : SelinuxTouches env context s s')
    (h' : SelinuxTouches env context s' s'') : SelinuxTouches env context s s'' where
  files := h'.files.trans h.files
  labels path := by
    rcases h'.labels path with hsame | hlabel
    · rw [hsame]
      exact h.labels path
    · exact .inr hlabel
  declared hs := h'.declared (h.declared hs)
  modules hs name hname := (h'.modules (h.declared hs) name hname).trans (h.modules hs name hname)

/-! ## The files -/

/-- A file of the module has any text, or is removed. -/
theorem SelinuxTouches.file (hid : context.id 0 ≠ 0) (f : ModuleFile) (text : Option (List UInt8))
    (hpp : f = .pp → ∀ pp, text = some pp → env.moduleName pp = context.idString)
    (s : SelinuxSystem) : SelinuxTouches env context s
      { s with files := Function.update s.files (f.path env context) text } := by
  refine ⟨fun path hpath => ?_, fun _ => .inl rfl, fun hs context' pp hfile => ?_,
    fun _ _ _ => Iff.rfl⟩
  · have hother : path ≠ f.path env context := fun heq => hpath ⟨hid, f, heq⟩
    exact Function.update_of_ne hother _ _
  · rcases eq_or_ne (ModuleFile.pp.path env context') (f.path env context) with heq | hne
    · obtain ⟨hf, hsame⟩ := ModuleFile.path_eq_path heq
      rw [heq] at hfile
      rw [hsame]
      exact hpp hf.symm pp (by simpa using hfile)
    · exact hs context' pp (by simpa [Function.update_of_ne hne] using hfile)

/-- A source of the module is written: the modules do not depend on it. -/
theorem SelinuxTouches.write (hid : context.id 0 ≠ 0) {f : ModuleFile} (hf : f ≠ .pp)
    (text : List UInt8) (s : SelinuxSystem) :
    SelinuxTouches env context s (s.write (f.path env context) text) :=
  .file hid f (some text) (fun hpp => absurd hpp hf) s

/-- A template that is rendered to a source of the module, as far as it could be written. -/
theorem templateProcess_touches (hid : context.id 0 ≠ 0) {f : ModuleFile} (hf : f ≠ .pp)
    (a : TemplateAnswers) (s : SelinuxSystem) :
    SelinuxTouches env context s (s.templateProcess a (f.path env context)).2 := by
  rw [SelinuxSystem.templateProcess]
  split
  · exact .write hid hf _ s
  · exact .refl env context s

/-- A file of the module is removed, or stays. -/
theorem removeFile_touches (hid : context.id 0 ≠ 0) (f : ModuleFile) (fault : Fault)
    (s : SelinuxSystem) :
    SelinuxTouches env context s (s.removeFile fault (f.path env context)).2 := by
  unfold SelinuxSystem.removeFile
  split
  · exact .refl env context s
  split
  · exact .refl env context s
  · exact .file hid f none (fun _ pp hnone => (Option.some_ne_none pp hnone.symm).elim) s

section
variable (hid : context.id 0 ≠ 0) (answers : SelinuxAnswers) (definitions : PathType → CStr)
  (s : SelinuxSystem)
include hid

/-- The fc file is written line by line, each line as far as it could be. -/
theorem generateAppModuleFc_touches :
    SelinuxTouches env context s (generateAppModuleFc env answers context definitions s).2 := by
  rw [generateAppModuleFc]
  split
  · exact .refl env context s
  · exact .write hid (f := .fc) ModuleFile.noConfusion _ s

/-- The three sources are generated, and removed when one of them fails. -/
theorem generateAppModuleFiles_touches :
    SelinuxTouches env context s (generateAppModuleFiles env answers context definitions s).2 := by
  have hte : SelinuxTouches env context s _ :=
    templateProcess_touches hid (f := .te) ModuleFile.noConfusion answers.te s
  rw [generateAppModuleFiles, selinuxTeFile_eq]
  generalize s.templateProcess answers.te (ModuleFile.te.path env context) = r at hte ⊢
  dsimp only
  split
  · exact hte
  have hif := hte.trans (templateProcess_touches hid (f := .iface)
    ModuleFile.noConfusion answers.iface r.2)
  rw [selinuxIfFile_eq]
  generalize r.2.templateProcess answers.iface (ModuleFile.iface.path env context) = r at hif ⊢
  split
  · exact hif.trans (removeFile_touches hid .te _ _)
  have hfc := hif.trans (generateAppModuleFc_touches hid answers definitions r.2)
  generalize generateAppModuleFc env answers context definitions r.2 = r at hfc ⊢
  split
  · exact (hfc.trans (removeFile_touches hid .iface _ _)).trans (removeFile_touches hid .te _ _)
  · exact hfc

/-- All four files are removed, as far as they can be. -/
theorem removeAppModuleFiles_touches :
    SelinuxTouches env context s (removeAppModuleFiles env answers context s).2 := by
  have hte : SelinuxTouches env context s _ := removeFile_touches hid .te answers.removeTe s
  rw [removeAppModuleFiles, selinuxTeFile_eq]
  generalize s.removeFile answers.removeTe (ModuleFile.te.path env context) = r at hte ⊢
  dsimp only
  split
  · exact hte
  have hif := hte.trans (removeFile_touches hid .iface answers.removeIf r.2)
  rw [selinuxIfFile_eq]
  generalize r.2.removeFile answers.removeIf (ModuleFile.iface.path env context) = r at hif ⊢
  split
  · exact hif
  · exact hif.trans (removeFile_touches hid .fc _ _)

/-! ## The installation -/

variable (hcompiles : answers.Compiles env context)
include hcompiles

/-- The compiler writes the pp file of the id, or leaves what was there. -/
theorem launchCompile_touches :
    SelinuxTouches env context s (launchCompile env answers context s).2 := by
  rw [launchCompile]
  split
  · exact .refl env context s
  cases hcompiled : answers.compiled with
  | none =>
    dsimp only
    split
    · exact .refl env context s
    split
    · exact .refl env context s
    · exact .refl env context s
  | some pp =>
    have hpp : SelinuxTouches env context s (s.write (selinuxPpFile env context) pp) := by
      refine .file hid .pp (some pp) (fun _ pp' hsome => ?_) s
      cases hsome
      exact hcompiles pp hcompiled
    dsimp only
    split
    · exact hpp
    split
    · exact hpp
    · exact hpp

omit hid hcompiles in
/-- What is installed is the module of the pp file. -/
theorem installModule_touches :
    SelinuxTouches env context s (installModule env answers context s).2 := by
  rw [installModule]
  split
  · exact .refl env context s
  · exact .refl env context s
  rename_i pp _ hfile
  split
  · exact .refl env context s
  · refine ⟨Set.eqOn_refl _ _, fun _ => .inl rfl, id, fun hs name hname => ?_⟩
    rw [List.mem_insert_iff, hs context pp hfile]
    exact or_iff_right hname

/-- Creating the rules touches the files and the module of the id. -/
theorem createSelinuxRules_touches :
    SelinuxTouches env context s (createSelinuxRules env answers context definitions s).2 := by
  rw [createSelinuxRules]
  dsimp only
  split
  · exact .refl env context s
  have hfiles : SelinuxTouches env context s _ :=
    generateAppModuleFiles_touches hid answers definitions s
  generalize generateAppModuleFiles env answers context definitions s = r at hfiles ⊢
  split
  · exact hfiles
  have hpp := hfiles.trans (launchCompile_touches hid answers r.2 hcompiles)
  generalize launchCompile env answers context r.2 = r at hpp ⊢
  split
  · exact hpp.trans (removeAppModuleFiles_touches hid answers r.2)
  have hmodule := hpp.trans (installModule_touches answers r.2)
  generalize installModule env answers context r.2 = r at hmodule ⊢
  split
  · exact (hmodule.trans (removeFile_touches hid .pp _ _)).trans
      (removeAppModuleFiles_touches hid answers _)
  · exact hmodule

end

/-- The labels of some paths of the context. -/
theorem processPathsLoop_touches (env : SelinuxEnv) (answers : SelinuxAnswers)
    (labelMem : PathType → CStr) (idMem : Nat → UInt8) (i : Nat) {paths : List Path}
    (hpaths : ∀ p ∈ paths, p ∈ context.pathSet) (s : SelinuxSystem) :
    SelinuxTouches env context s (processPathsLoop answers
      (Selinux.initPathTypeDefinitions labelMem (trfid idMem context.idString)) i paths s).2 := by
  induction paths generalizing i s with
  | nil => exact .refl env context s
  | cons p paths ih =>
    obtain ⟨hp, hrest⟩ := List.forall_mem_cons.1 hpaths
    rw [processPathsLoop]
    dsimp only
    have hlabel : SelinuxTouches env context s (labelFile answers i p.path (pathLabel
        (Selinux.initPathTypeDefinitions labelMem (trfid idMem context.idString)) p) s).2 := by
      rw [labelFile]
      split
      · exact .refl env context s
      split
      · exact .refl env context s
      · refine ⟨Set.eqOn_refl _ _, fun path => ?_, id, fun _ _ _ => Iff.rfl⟩
        rcases eq_or_ne path p.path with rfl | hne
        · exact .inr ⟨_, ⟨labelMem, idMem, p, hp, rfl, rfl⟩, Function.update_self _ _ _⟩
        · exact .inl (Function.update_of_ne hne _ _)
    rw [pathLabel] at hlabel
    generalize labelFile answers i p.path _ s = r at hlabel ⊢
    split
    · exact hlabel
    · exact hlabel.trans (ih (i + 1) hrest r.2)

/-- **What an installation touches**, whatever the calls answer. -/
theorem selinuxInstall_touches {answers : SelinuxAnswers}
    (hcompiles : answers.Compiles env context) (s : SelinuxSystem) :
    SelinuxTouches env context s (selinuxInstall env answers context s).2 := by
  rw [selinuxInstall]
  split
  · exact .refl env context s
  rename_i hid
  dsimp only
  generalize hdefinitions : Selinux.initPathTypeDefinitions answers.labelMem
    (trfid answers.idMem context.idString) = definitions
  have hrules := createSelinuxRules_touches hid answers definitions s hcompiles
  generalize createSelinuxRules env answers context definitions s = r at hrules ⊢
  split
  · exact hrules
  split
  · exact hrules
  split
  · exact hrules
  have hlabels := hrules.trans (processPathsLoop_touches env answers answers.labelMem
    answers.idMem 0 (fun _ hp => hp) r.2)
  rw [hdefinitions] at hlabels
  rw [selinuxProcessPaths]
  split <;> exact hlabels

/-! ## The removal -/

/-- The system without some of the files of the context. -/
theorem without_touches (hid : context.id 0 ≠ 0) (gone : List ModuleFile) (s : SelinuxSystem) :
    SelinuxTouches env context s (s.without env context gone) := by
  refine ⟨fun path hpath => if_neg fun hgone => ?_, fun _ => .inl rfl,
    fun hs context' pp hfile => ?_, fun _ _ _ => Iff.rfl⟩
  · obtain ⟨f, -, rfl⟩ := List.mem_map.1 hgone
    exact hpath ⟨hid, f, rfl⟩
  · rw [SelinuxSystem.without] at hfile
    dsimp only at hfile
    split at hfile
    · cases hfile
    · exact hs context' pp hfile

/-- **What a removal touches**, whatever the calls answer. -/
theorem selinuxUninstall_touches (answers : SelinuxRemoval) (s : SelinuxSystem) :
    SelinuxTouches env context s (selinuxUninstall env answers context s).2 := by
  have hcases := selinuxUninstall_cases env answers context s
  generalize selinuxUninstall env answers context s = r at hcases
  cases hcases with
  | refused => exact .refl env context s
  | stopped _ hchecked => exact without_touches hchecked.id _ s
  | kept _ hchecked => exact without_touches hchecked.id _ s
  | silent hchecked => exact without_touches hchecked.id _ s
  | removed hchecked =>
    refine (without_touches hchecked.id removalOrder s).trans
      ⟨Set.eqOn_refl _ _, fun _ => .inl rfl, id, fun _ name hname => ?_⟩
    simp [SelinuxSystem.cleared, SelinuxSystem.without, dropModule, hname]

end SecLsmManager

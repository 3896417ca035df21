import SecLsmManager.Policy.SelinuxFiles
import SecLsmManager.Action.Action
import Mathlib.Data.Finset.Basic

/-!
# What a failed SELinux installation leaves

An installation writes four files, one module of the policy and the labels of the paths. `Leaves`
follows the files from call to call; `Reverts` are the answers to the calls under which an
installation succeeds or undoes all that it did, which is less than every choice of the step that
fails.
-/

namespace SecLsmManager

section
variable (env : SelinuxEnv) (answers : SelinuxAnswers) (context : Context)

/-- No file and no module for the id. -/
structure SelinuxSystem.Fresh (s : SelinuxSystem) : Prop where
  files : ∀ f : ModuleFile, s.files (f.path env context) = none
  modules : context.idString ∉ s.modules

/-! ## The answers that leave nothing -/

def HandleAnswers.Connected (a : HandleAnswers) : Prop :=
  a.create = none ∧ a.connect = none ∧ a.priority = none

namespace SelinuxAnswers

/-- The compile script is started and waited for, whatever it returns. -/
def Launches : Prop := answers.vfork = none ∧ answers.waitpid = none

/-- The pp file, when the script is started. -/
def launched : Option (List UInt8) :=
  match answers.vfork with
  | none => answers.compiled
  | some _ => none

/-- `install_module` fails, with `errno` not 0. -/
def InstallFails : Prop :=
  (∃ errno, answers.installFile = some errno ∧ errno ≠ 0) ∨
  answers.installFile = none ∧
    (answers.compiled = none ∧ answers.noFile ≠ 0 ∨
    answers.compiled ≠ none ∧ ∃ errno, answers.commit = .error errno ∧ errno ≠ 0)

/-- The policy has the module of the id. -/
def Installs : Prop :=
  answers.installFile = none ∧ (∃ rc, answers.commit = .ok rc) ∧
    ∃ pp, answers.compiled = some pp ∧ env.moduleName pp = context.idString

/-- The three source files are removed. -/
def RemovesSources : Prop :=
  answers.removeTe = none ∧ answers.removeIf = none ∧ answers.removeFc = none

/-- No check after the installation fails: the module of the id is the first of the policy. -/
def Checks : Prop :=
  answers.statTe = none ∧ answers.statFc = none ∧ answers.statIf = none ∧
    answers.checkHandle.Connected ∧ answers.moduleList = none ∧ answers.moduleName 0 = none

/-- The label of every path is set, on the paths from rank `i`. -/
def LabelsFrom : Nat → List Path → Prop
  | _, [] => True
  | i, path :: paths =>
    (0 ≤ getPathProperty (answers.lstat i) path.path false ∧ answers.setxattr i = none) ∧
      LabelsFrom (i + 1) paths

/-- `create_selinux_rules` fails, and what it did before is undone. -/
def CreationReverts : Prop :=
  ¬ answers.handle.Connected ∨
  answers.handle.Connected ∧ answers.GenerationReverts ∨
  answers.handle.Connected ∧ answers.Generates context ∧ answers.RemovesSources ∧
    (¬ answers.Launches ∧ answers.launched = none ∨
    answers.Launches ∧ answers.InstallFails ∧
      (answers.compiled = none ∨ answers.removePp = none))

/-- No step fails. -/
structure Succeeds : Prop where
  connected : answers.handle.Connected
  generates : answers.Generates context
  launches : answers.Launches
  installs : answers.Installs env context
  checks : answers.Checks
  labels : answers.LabelsFrom 0 context.pathSet

/-- The installation succeeds, or the step that fails undoes what was done before it. -/
def Reverts : Prop := answers.CreationReverts context ∨ answers.Succeeds env context

end SelinuxAnswers

end

/-! ## What the calls leave -/

variable {env : SelinuxEnv} {answers : SelinuxAnswers} {context : Context}

/-- From `s` to `s'`, the files of the module have become `left`, and nothing else has changed. -/
structure Leaves (env : SelinuxEnv) (context : Context) (s s' : SelinuxSystem)
    (left : Finset ModuleFile) : Prop where
  files : ∀ f : ModuleFile, (s'.files (f.path env context)).isSome ↔ f ∈ left
  modules : s'.modules = s.modules
  labels : s'.labels = s.labels

variable {s s' : SelinuxSystem} {left : Finset ModuleFile}

/-- At first there is no file of the module. -/
theorem SelinuxSystem.Fresh.leaves (h : s.Fresh env context) : Leaves env context s s ∅ := by
  refine ⟨fun f => ?_, rfl, rfl⟩
  simp [h.files f]

namespace Leaves

/-- A file that is written is left. -/
theorem write (h : Leaves env context s s' left) (f : ModuleFile) (text : List UInt8) :
    Leaves env context s (s'.write (f.path env context) text) (insert f left) := by
  refine ⟨fun g => ?_, h.modules, h.labels⟩
  rw [write_files, Finset.mem_insert, ← h.files g]
  split <;> simp [*]

/-- What is left where a removal is tried. -/
theorem removed (h : Leaves env context s s' left) (f : ModuleFile) (fault : Fault) :
    Leaves env context s (s'.removeFile fault (f.path env context)).2
      (if fault = none then left.erase f else left) := by
  obtain ⟨hmodules, hlabels⟩ := removeFile_keeps s' fault (f.path env context)
  refine ⟨fun g => ?_, hmodules.trans h.modules, hlabels.trans h.labels⟩
  rw [removeFile_files]
  cases fault with
  | some e => simpa using h.files g
  | none =>
    rw [if_pos rfl, Finset.mem_erase, ← h.files g]
    split <;> simp_all

/-- A file that is there is removed, unless the call fails. -/
theorem remove (h : Leaves env context s s' left) {f : ModuleFile} (hf : f ∈ left) :
    (s'.removeFile none (f.path env context)).1 = 0 ∧
      Leaves env context s (s'.removeFile none (f.path env context)).2 (left.erase f) := by
  refine ⟨?_, by simpa using h.removed f none⟩
  rcases removeFile_code s' none (f.path env context) with ⟨-, -, hrc⟩ | ⟨hno, -⟩
  · exact hrc
  · exact absurd ⟨rfl, (h.files f).2 hf⟩ hno

/-- A call that fails, or that has no file to remove, does nothing. -/
theorem remove_fails (h : Leaves env context s s' left) {f : ModuleFile} {fault : Fault}
    (hf : fault ≠ none ∨ f ∉ left) :
    (s'.removeFile fault (f.path env context)).1 < 0 ∧
      Leaves env context s (s'.removeFile fault (f.path env context)).2 left := by
  constructor
  · rcases removeFile_code s' fault (f.path env context) with ⟨hfault, hfile, -⟩ | ⟨-, hrc⟩
    · rcases hf with hf | hf
      · exact absurd hfault hf
      · exact absurd ((h.files f).1 hfile) hf
    · exact hrc
  · have hleft : (if fault = none then left.erase f else left) = left := by
      split
      · rename_i hfault
        exact Finset.erase_eq_of_notMem (hf.resolve_left fun hn => hn hfault)
      · rfl
    simpa only [hleft] using h.removed f fault

end Leaves

/-! ## The generation of the files -/

/-- No handle without a connection. -/
theorem createSemanageHandle_lt_zero_iff (a : HandleAnswers) :
    createSemanageHandle a < 0 ↔ ¬ a.Connected := by
  have hfailure : ∀ errno : Nat, createSemanageHandle.failure (-errno) < 0 := by
    intro errno
    unfold createSemanageHandle.failure
    have hinval : -EINVAL < 0 := by decide
    split
    · exact hinval
    · omega
  obtain ⟨create, connect, priority⟩ := a
  cases create with
  | some errno => simp [createSemanageHandle, HandleAnswers.Connected, hfailure]
  | none =>
    cases connect with
    | some errno => simp [createSemanageHandle, HandleAnswers.Connected, hfailure]
    | none =>
      cases priority with
      | some errno => simp [createSemanageHandle, HandleAnswers.Connected, hfailure]
      | none => simp [createSemanageHandle, HandleAnswers.Connected]

/-- A removal leaves the other files. -/
theorem mem_erased {f g : ModuleFile} {fault : Fault} (hne : f ≠ g) (hf : f ∈ left) :
    f ∈ (if fault = none then left.erase g else left) := by
  split
  · exact Finset.mem_erase.2 ⟨hne, hf⟩
  · exact hf

/-- Something is left. -/
theorem ne_empty_of_mem {f : ModuleFile} (hf : f ∈ left) : left ≠ ∅ :=
  Finset.nonempty_iff_ne_empty.1 ⟨f, hf⟩

/-- The first two files are removed when no call fails. -/
theorem erased_pair (removeIf removeTe : Fault) :
    (if removeTe = none then
        (if removeIf = none then (insert .iface (insert .te ∅) : Finset ModuleFile).erase .iface
          else insert .iface (insert .te ∅)).erase .te
      else if removeIf = none then (insert .iface (insert .te ∅) : Finset ModuleFile).erase .iface
        else insert .iface (insert .te ∅)) = ∅ ↔
      removeIf = none ∧ removeTe = none := by
  cases removeIf with
  | some e =>
    refine iff_of_false (ne_empty_of_mem (f := .iface) ?_) (fun h => Option.some_ne_none e h.1)
    exact mem_erased (by decide) (by simp)
  | none =>
    cases removeTe with
    | some e =>
      refine iff_of_false (ne_empty_of_mem (f := .te) ?_) (fun h => Option.some_ne_none e h.2)
      simp
    | none => exact iff_of_true (by decide) ⟨rfl, rfl⟩

/-- What is left where the generation of the files fails. -/
theorem generateAppModuleFiles_spec (answers : SelinuxAnswers) (h : Leaves env context s s ∅)
    (definitions : PathType → CStr) :
    ((generateAppModuleFiles env answers context definitions s).1 < 0 ∧
      ¬ answers.Generates context ∧
      ∃ left,
        Leaves env context s (generateAppModuleFiles env answers context definitions s).2 left ∧
        (left = ∅ ↔ answers.GenerationReverts)) ∨
    (0 ≤ (generateAppModuleFiles env answers context definitions s).1 ∧
      answers.Generates context ∧ ¬ answers.GenerationReverts ∧
      Leaves env context s (generateAppModuleFiles env answers context definitions s).2
        sources) := by
  have hcases := generateAppModuleFiles_cases env answers context definitions s
  generalize generateAppModuleFiles env answers context definitions s = r at hcases ⊢
  have hwithIf := (h.write .te answers.te.text).write .iface answers.iface.text
  cases hcases with
  | teUnopened hrc hte =>
    refine Or.inl ⟨hrc, fun hg => hg.1.opened hte, ∅, h, ?_⟩
    simp [SelinuxAnswers.GenerationReverts, hte]
  | teUnrendered hrc hte hno =>
    refine Or.inl ⟨hrc, fun hg => hno hg.1, _, h.write .te answers.te.text, ?_⟩
    simp [SelinuxAnswers.GenerationReverts, hte, hno]
  | ifUnopened hrc hte hif =>
    refine Or.inl ⟨hrc, fun hg => hg.2.1.opened hif, _,
      (h.write .te answers.te.text).removed .te answers.removeTe', ?_⟩
    have hno : ¬ answers.iface.Rendered := fun hr => hr.opened hif
    simp only [SelinuxAnswers.GenerationReverts, hte.opened, hte, hif, hno, false_or, true_and,
      false_and, or_false]
    split <;> simp_all
  | ifUnrendered hrc hte hif hno =>
    refine Or.inl ⟨hrc, fun hg => hno hg.2.1, _, hwithIf.removed .te answers.removeTe', ?_⟩
    simp only [SelinuxAnswers.GenerationReverts, hte.opened, hte, hif, hno, true_and,
      false_and, or_false, iff_false]
    exact ne_empty_of_mem (mem_erased (f := .iface) (by decide) (by decide))
  | fcUnopened hrc hte hif hfc =>
    refine Or.inl ⟨hrc, fun hg => hfc hg.2.2.1, _,
      (hwithIf.removed .iface answers.removeIf').removed .te answers.removeTe', ?_⟩
    simp only [SelinuxAnswers.GenerationReverts, hte.opened, hte, hif.opened, hif, false_or,
      true_and, false_and, hfc, ne_eq, not_false_eq_true]
    exact erased_pair _ _
  | fcUnwritten hrc hte hif hfc hputs =>
    refine Or.inl ⟨hrc, fun hg => hputs hg.2.2.2, _,
      ((hwithIf.write .fc _).removed .iface answers.removeIf').removed .te answers.removeTe', ?_⟩
    simp only [SelinuxAnswers.GenerationReverts, hte.opened, hte, hif.opened, hif, hfc, true_and,
      false_and, ne_eq, not_true_eq_false, or_false, iff_false]
    exact ne_empty_of_mem (mem_erased (f := .fc) (by decide) (mem_erased (by decide) (by decide)))
  | generated hall =>
    have hleft : insert .fc (insert .iface (insert .te ∅)) = sources := by decide
    refine Or.inr ⟨le_refl 0, hall, ?_, hleft ▸ hwithIf.write .fc _⟩
    simp [SelinuxAnswers.GenerationReverts, hall.1.opened, hall.2.1.opened, hall.2.2.1]

/-! ## The module -/

/-- The chain of removals stops at the first that fails. -/
theorem removeAppModuleFiles_spec (answers : SelinuxAnswers)
    (h : Leaves env context s s' left) (hsub : sources ⊆ left) :
    ∃ left', Leaves env context s (removeAppModuleFiles env answers context s').2 left' ∧
      (left' = ∅ ↔ answers.RemovesSources ∧ .pp ∉ left) := by
  have hte : ModuleFile.te ∈ left := hsub (by decide)
  have hif : ModuleFile.iface ∈ left.erase .te :=
    Finset.mem_erase.2 ⟨by decide, hsub (by decide)⟩
  have hfc : ModuleFile.fc ∈ (left.erase .te).erase .iface :=
    Finset.mem_erase.2 ⟨by decide, Finset.mem_erase.2 ⟨by decide, hsub (by decide)⟩⟩
  rw [removeAppModuleFiles, selinuxTeFile_eq, selinuxIfFile_eq, selinuxFcFile_eq]
  cases hrte : answers.removeTe with
  | some e =>
    obtain ⟨hrc, hL⟩ := h.remove_fails (f := .te) (Or.inl (Option.some_ne_none e))
    simp only [hrc, if_true]
    refine ⟨left, hL, iff_of_false (ne_empty_of_mem hte) ?_⟩
    simp [SelinuxAnswers.RemovesSources, hrte]
  | none =>
    obtain ⟨hrc, hL⟩ := h.remove hte
    simp only [hrc, lt_irrefl, if_false]
    cases hrif : answers.removeIf with
    | some e =>
      obtain ⟨hrc, hL⟩ := hL.remove_fails (f := .iface) (Or.inl (Option.some_ne_none e))
      simp only [hrc, if_true]
      refine ⟨_, hL, iff_of_false (ne_empty_of_mem hif) ?_⟩
      simp [SelinuxAnswers.RemovesSources, hrif]
    | none =>
      obtain ⟨hrc, hL⟩ := hL.remove hif
      simp only [hrc, lt_irrefl, if_false]
      cases hrfc : answers.removeFc with
      | some e =>
        obtain ⟨-, hL⟩ := hL.remove_fails (f := .fc) (Or.inl (Option.some_ne_none e))
        refine ⟨_, hL, iff_of_false (ne_empty_of_mem hfc) ?_⟩
        simp [SelinuxAnswers.RemovesSources, hrfc]
      | none =>
        obtain ⟨-, hL⟩ := hL.remove hfc
        refine ⟨_, hL, ?_⟩
        -- only the pp file may stay
        simp only [SelinuxAnswers.RemovesSources, hrte, hrif, hrfc, true_and]
        rw [Finset.eq_empty_iff_forall_notMem]
        constructor
        · intro hall hpp
          exact hall .pp (by simpa using hpp)
        · intro hpp f
          cases f with
          | pp => simpa using hpp
          | te => simp
          | fc => simp
          | iface => simp

/-- The files after the compile script. -/
def compiledFiles (pp : Option (List UInt8)) : Finset ModuleFile :=
  match pp with
  | none => sources
  | some _ => insert .pp sources

/-- The compiler leaves the sources. -/
theorem sources_subset_compiledFiles (pp : Option (List UInt8)) : sources ⊆ compiledFiles pp := by
  cases pp with
  | none => exact Finset.Subset.refl _
  | some pp => exact Finset.subset_insert _ _

/-- It leaves a pp file, if it wrote one. -/
theorem pp_notMem_compiledFiles (pp : Option (List UInt8)) :
    .pp ∉ compiledFiles pp ↔ pp = none := by
  cases pp with
  | none => exact iff_of_true (by decide) rfl
  | some pp => simp [compiledFiles]

/-- What the launch of the compiler returns and leaves. -/
theorem launchCompile_spec (answers : SelinuxAnswers) (h : Leaves env context s s' sources) :
    ((launchCompile env answers context s').1 < 0 ∧ ¬ answers.Launches ∨
      0 ≤ (launchCompile env answers context s').1 ∧ answers.Launches) ∧
    Leaves env context s (launchCompile env answers context s').2
      (compiledFiles answers.launched) ∧
    (launchCompile env answers context s').2.files (ModuleFile.pp.path env context) =
      answers.launched := by
  have hpp : s'.files (ModuleFile.pp.path env context) = none := by
    rw [← Option.not_isSome_iff_eq_none, h.files .pp]
    decide
  rw [launchCompile, selinuxPpFile_eq]
  cases hfork : answers.vfork with
  | some e =>
    have hpos := e.pos
    simp only [SelinuxAnswers.Launches, SelinuxAnswers.launched, hfork]
    exact ⟨Or.inl ⟨by omega, by simp⟩, h, hpp⟩
  | none =>
    simp only [SelinuxAnswers.Launches, SelinuxAnswers.launched, hfork, true_and]
    have hleft : Leaves env context s (match answers.compiled with
          | none => s'
          | some pp => s'.write (ModuleFile.pp.path env context) pp)
          (compiledFiles answers.compiled) ∧
        (match answers.compiled with
          | none => s'
          | some pp => s'.write (ModuleFile.pp.path env context) pp).files
          (ModuleFile.pp.path env context) = answers.compiled := by
      cases answers.compiled with
      | none => exact ⟨h, hpp⟩
      | some pp => exact ⟨h.write .pp pp, by simp [SelinuxSystem.write]⟩
    cases answers.waitpid with
    | some e =>
      have hpos := e.pos
      exact ⟨Or.inl ⟨by simp only; omega, by simp⟩, hleft⟩
    | none =>
      cases answers.status with
      | exited code => exact ⟨Or.inr ⟨by simp, rfl⟩, hleft⟩
      | signaled status => exact ⟨Or.inr ⟨by simp, rfl⟩, hleft⟩

/-- A module that is not installed is not found. -/
theorem checkModuleLoop_of_notMem (moduleName : Nat → LibFault) {id : CStr} (i : Nat)
    {modules : List CStr} (h : id ∉ modules) :
    checkModuleLoop moduleName id i modules = false := by
  induction modules generalizing i with
  | nil => rfl
  | cons name modules ih =>
    have hne := List.ne_of_not_mem_cons h
    have hrest := List.not_mem_of_not_mem_cons h
    rw [checkModuleLoop]
    cases moduleName i with
    | some errno => rfl
    | none =>
      simp only
      rw [if_neg (fun he => hne he.symm)]
      exact ih (i + 1) hrest

/-- A module that is installed is the first of the policy. -/
theorem checkModuleLoop_insert (moduleName : Nat → LibFault) {id : CStr} {modules : List CStr}
    (h : id ∉ modules) (name : CStr) :
    checkModuleLoop moduleName id 0 (modules.insert name) ↔ name = id ∧ moduleName 0 = none := by
  rcases Decidable.em (name = id) with rfl | hne
  · rw [List.insert_of_not_mem h, checkModuleLoop]
    cases moduleName 0 with
    | some errno => simp
    | none => simp
  · have hmem : id ∉ modules.insert name := by
      rw [List.mem_insert_iff]
      rintro (he | hm)
      · exact hne he.symm
      · exact h hm
    simp [checkModuleLoop_of_notMem moduleName 0 hmem, hne]

/-- What libsemanage does not install, or not under the id, is not found in the policy. -/
theorem installModule_spec (answers : SelinuxAnswers)
    (hfile : s'.files (ModuleFile.pp.path env context) = answers.compiled)
    (hid : context.idString ∉ s'.modules) :
    ((installModule env answers context s').2.files = s'.files ∧
      (installModule env answers context s').2.labels = s'.labels) ∧
    ((installModule env answers context s').1 < 0 ∧ answers.InstallFails ∧
        ¬ answers.Installs env context ∧ (installModule env answers context s').2 = s' ∨
      0 ≤ (installModule env answers context s').1 ∧ ¬ answers.InstallFails ∧
        ∀ moduleName, checkModuleLoop moduleName context.idString 0
            (installModule env answers context s').2.modules ↔
          answers.Installs env context ∧ moduleName 0 = none) := by
  rw [installModule, selinuxPpFile_eq, hfile]
  have hnone : ∀ moduleName,
      ¬ checkModuleLoop moduleName context.idString 0 s'.modules := by
    intro moduleName
    simp [checkModuleLoop_of_notMem moduleName 0 hid]
  -- `errno` is negated for the code of a failure
  have hcode : ∀ errno : Nat, (-errno : Int) < 0 ∧ errno ≠ 0 ∨ 0 ≤ (-errno : Int) ∧ errno = 0 := by
    intro errno
    omega
  simp only [SelinuxAnswers.InstallFails, SelinuxAnswers.Installs]
  cases answers.installFile with
  | some errno =>
    refine ⟨⟨rfl, rfl⟩, ?_⟩
    rcases hcode errno with ⟨hneg, hne⟩ | ⟨hpos, hzero⟩
    · exact Or.inl ⟨hneg, by simp [hne], by simp, rfl⟩
    · exact Or.inr ⟨hpos, by simp [hzero], fun moduleName => by simp [hnone]⟩
  | none =>
    cases answers.compiled with
    | none =>
      refine ⟨⟨rfl, rfl⟩, ?_⟩
      rcases hcode answers.noFile with ⟨hneg, hne⟩ | ⟨hpos, hzero⟩
      · exact Or.inl ⟨hneg, by simp [hne], by simp, rfl⟩
      · exact Or.inr ⟨hpos, by simp [hzero], fun moduleName => by simp [hnone]⟩
    | some pp =>
      cases answers.commit with
      | error errno =>
        refine ⟨⟨rfl, rfl⟩, ?_⟩
        rcases hcode errno with ⟨hneg, hne⟩ | ⟨hpos, hzero⟩
        · exact Or.inl ⟨hneg, by simp [hne], by simp, rfl⟩
        · exact Or.inr ⟨hpos, by simp [hzero], fun moduleName => by simp [hnone]⟩
      | ok rc =>
        refine ⟨⟨rfl, rfl⟩, Or.inr ⟨Int.natCast_nonneg rc, by simp, fun moduleName => ?_⟩⟩
        simpa using checkModuleLoop_insert moduleName hid (env.moduleName pp)

/-! ## The rules -/

/-- What is left where the rules are not created, and what is there where they are. -/
theorem createSelinuxRules_spec (answers : SelinuxAnswers)
    (hfresh : s.Fresh env context) (definitions : PathType → CStr) :
    ((createSelinuxRules env answers context definitions s).1 < 0 ∧
      ¬ answers.Succeeds env context ∧
      ∃ left, Leaves env context s (createSelinuxRules env answers context definitions s).2 left ∧
        (left = ∅ ↔ answers.CreationReverts context)) ∨
    (0 ≤ (createSelinuxRules env answers context definitions s).1 ∧
      ¬ answers.CreationReverts context ∧
      (answers.handle.Connected ∧ answers.Generates context ∧ answers.Launches) ∧
      (∀ f ∈ sources, ((createSelinuxRules env answers context definitions s).2.files
        (f.path env context)).isSome) ∧
      ∀ moduleName, checkModuleLoop moduleName context.idString 0
          (createSelinuxRules env answers context definitions s).2.modules ↔
        answers.Installs env context ∧ moduleName 0 = none) := by
  rw [createSelinuxRules]
  rcases Decidable.em (createSemanageHandle answers.handle < 0) with hrc | hrc
  · simp only [hrc, if_true]
    have hno := (createSemanageHandle_lt_zero_iff answers.handle).1 hrc
    refine Or.inl ⟨trivial, fun hs => hno hs.connected, ∅, hfresh.leaves, ?_⟩
    exact iff_of_true rfl (Or.inl hno)
  have hconn : answers.handle.Connected := by
    rwa [createSemanageHandle_lt_zero_iff, not_not] at hrc
  simp only [hrc, if_false]
  have hgen := generateAppModuleFiles_spec answers hfresh.leaves definitions
  cases hcall : generateAppModuleFiles env answers context definitions s with | mk rc s₁ =>
  simp only [hcall] at hgen ⊢
  rcases hgen with ⟨hrc, hno, left, hL, hiff⟩ | ⟨hrc, hgen, hnot, hL⟩
  · rw [if_pos hrc]
    refine Or.inl ⟨hrc, fun hs => hno hs.generates, left, hL, ?_⟩
    simp [SelinuxAnswers.CreationReverts, hconn, hno, hiff]
  rw [if_neg (not_lt.2 hrc)]
  obtain ⟨hcode, hL, hfile⟩ := launchCompile_spec answers hL
  cases hcall : launchCompile env answers context s₁ with | mk rc s₂ =>
  simp only [hcall] at hcode hL hfile ⊢
  rcases hcode with ⟨hrc, hno⟩ | ⟨hrc, hlaunch⟩
  · rw [if_pos hrc]
    obtain ⟨left, hL, hiff⟩ := removeAppModuleFiles_spec answers hL
      (sources_subset_compiledFiles _)
    refine Or.inl ⟨hrc, fun hs => hno hs.launches, left, hL, hiff.trans ?_⟩
    simp [SelinuxAnswers.CreationReverts, hconn, hgen, hnot, hno, pp_notMem_compiledFiles]
  rw [if_neg (not_lt.2 hrc)]
  have hlaunched : answers.launched = answers.compiled := by
    rw [SelinuxAnswers.launched, hlaunch.1]
  rw [hlaunched] at hL hfile
  obtain ⟨⟨hfiles, -⟩, hinst⟩ := installModule_spec answers hfile
    (hL.modules ▸ hfresh.modules)
  cases hcall : installModule env answers context s₂ with | mk rc s₃ =>
  simp only [hcall] at hfiles hinst ⊢
  rcases hinst with ⟨hrc, hfails, hno, rfl⟩ | ⟨hrc, hnofail, hcheck⟩
  · rw [if_pos hrc]
    have hsub : sources ⊆ if answers.removePp = none then
        (compiledFiles answers.compiled).erase .pp else compiledFiles answers.compiled :=
      fun f hf => mem_erased (ne_of_mem_of_not_mem hf (by decide))
        (sources_subset_compiledFiles _ hf)
    obtain ⟨left, hL, hiff⟩ := removeAppModuleFiles_spec answers
      (hL.removed .pp answers.removePp) hsub
    refine Or.inl ⟨hrc, fun hs => hno hs.installs, left, hL, hiff.trans ?_⟩
    have hpp : .pp ∉ (if answers.removePp = none then
        (compiledFiles answers.compiled).erase .pp else compiledFiles answers.compiled) ↔
        answers.compiled = none ∨ answers.removePp = none := by
      split
      · rename_i hremove
        simp [hremove]
      · rename_i hremove
        simp [hremove, pp_notMem_compiledFiles]
    rw [hpp]
    simp [SelinuxAnswers.CreationReverts, hconn, hgen, hnot, hlaunch, hfails]
  · rw [if_neg (not_lt.2 hrc)]
    refine Or.inr ⟨hrc, ?_, ⟨hconn, hgen, hlaunch⟩, fun f hf => ?_, hcheck⟩
    · simp [SelinuxAnswers.CreationReverts, hconn, hnot, hlaunch, hnofail]
    · rw [hfiles, hL.files]
      exact sources_subset_compiledFiles _ hf

/-! ## The checks and the labels -/

/-- The checks after find the files, and the module if it is that of the id. -/
theorem checks_iff (hfiles : ∀ f ∈ sources, (s.files (f.path env context)).isSome)
    (hmodule : ∀ moduleName, checkModuleLoop moduleName context.idString 0 s.modules ↔
      answers.Installs env context ∧ moduleName 0 = none) :
    (checkModuleFilesExist env answers context s ∧ checkModuleInPolicy answers context s) ↔
      answers.Installs env context ∧ answers.Checks := by
  have hexist : checkModuleFilesExist env answers context s ↔
      answers.statTe = none ∧ answers.statFc = none ∧ answers.statIf = none := by
    have hte : (s.files (selinuxTeFile env context)).isSome := hfiles .te (by decide)
    have hfc : (s.files (selinuxFcFile env context)).isSome := hfiles .fc (by decide)
    have hif : (s.files (selinuxIfFile env context)).isSome := hfiles .iface (by decide)
    simp [checkModuleFilesExist, fileExists, hte, hfc, hif, and_assoc]
  have hpolicy : checkModuleInPolicy answers context s ↔
      answers.checkHandle.Connected ∧ answers.moduleList = none ∧
        answers.Installs env context ∧ answers.moduleName 0 = none := by
    rw [checkModuleInPolicy]
    rcases Decidable.em (createSemanageHandle answers.checkHandle < 0) with hrc | hrc
    · have hno := (createSemanageHandle_lt_zero_iff answers.checkHandle).1 hrc
      simp [hrc, hno]
    · have hconn : answers.checkHandle.Connected := by
        rwa [createSemanageHandle_lt_zero_iff, not_not] at hrc
      rw [if_neg hrc]
      cases answers.moduleList with
      | some errno => simp
      | none => simpa [hconn] using hmodule answers.moduleName
  rw [hexist, hpolicy, SelinuxAnswers.Checks]
  constructor
  · rintro ⟨⟨hte, hfc, hif⟩, hconn, hlist, hinst, hname⟩
    exact ⟨hinst, hte, hfc, hif, hconn, hlist, hname⟩
  · rintro ⟨hinst, hte, hfc, hif, hconn, hlist, hname⟩
    exact ⟨⟨hte, hfc, hif⟩, hconn, hlist, hinst, hname⟩

/-- The loop on the paths fails where a label is not set. It changes labels only. -/
theorem processPathsLoop_spec (answers : SelinuxAnswers)
    (definitions : PathType → CStr) (i : Nat) (paths : List Path)
    (s : SelinuxSystem) :
    ((processPathsLoop answers definitions i paths s).1 < 0 ↔ ¬ answers.LabelsFrom i paths) ∧
      (processPathsLoop answers definitions i paths s).2.files = s.files := by
  induction paths generalizing i s with
  | nil => simp [processPathsLoop, SelinuxAnswers.LabelsFrom]
  | cons path paths ih =>
    have hnoent : -ENOENT < 0 := by decide
    rw [SelinuxAnswers.LabelsFrom, processPathsLoop]
    simp only [labelFile]
    rcases lt_or_ge (getPathProperty (answers.lstat i) path.path false) 0 with hstat | hstat
    · have hno : ¬ 0 ≤ getPathProperty (answers.lstat i) path.path false := not_le.2 hstat
      simp only [hstat, if_true, hnoent, hno, false_and, not_false_eq_true, and_self]
    · simp only [not_lt.2 hstat, if_false]
      cases answers.setxattr i with
      | some e =>
        have hneg : -e.val < 0 := by
          have hpos := e.pos
          omega
        simp only [hneg, if_true]
        simp
      | none =>
        simp only [lt_irrefl, if_false, hstat, true_and]
        exact ih (i + 1) _

/-! ## The installation -/

/-- Nothing is left of the installation. -/
structure Reverted (env : SelinuxEnv) (context : Context) (s s' : SelinuxSystem) : Prop
    extends s'.Fresh env context where
  labels : ∀ path ∈ context.pathSet, s'.labels path.path = s.labels path.path

/-- The system is as before when nothing is left. -/
theorem Leaves.reverted_iff (hfresh : s.Fresh env context) (h : Leaves env context s s' left) :
    Reverted env context s s' ↔ left = ∅ := by
  constructor
  · intro hr
    rw [Finset.eq_empty_iff_forall_notMem]
    intro f hf
    have hsome := (h.files f).2 hf
    rw [hr.files f] at hsome
    exact Bool.noConfusion hsome
  · rintro rfl
    refine ⟨⟨fun f => ?_, h.modules ▸ hfresh.modules⟩, fun path _ => by rw [h.labels]⟩
    rw [← Option.not_isSome_iff_eq_none, h.files f]
    exact Finset.notMem_empty f

/-- Once the rules are created, the files stay whatever fails. -/
theorem not_reverted (hte : (s'.files (ModuleFile.te.path env context)).isSome) :
    ¬ Reverted env context s s' := by
  intro hr
  rw [hr.files .te] at hte
  exact Bool.noConfusion hte

/-- An installation that fails leaves nothing behind exactly when its answers revert it. -/
theorem selinuxInstall_reverts (env : SelinuxEnv) (answers : SelinuxAnswers) (context : Context)
    (s : SelinuxSystem) (hid : context.id 0 ≠ 0) (hfresh : s.Fresh env context) :
    ((selinuxInstall env answers context s).1 < 0 →
        Reverted env context s (selinuxInstall env answers context s).2) ↔
      answers.Reverts env context := by
  have hnoent : 0 < ENOENT := by decide
  rw [selinuxInstall, if_neg hid]
  generalize Selinux.initPathTypeDefinitions answers.labelMem
    (trfid answers.idMem context.idString) = definitions
  have hrules := createSelinuxRules_spec answers hfresh definitions
  cases hcall : createSelinuxRules env answers context definitions s with | mk rc s₁ =>
  simp only [hcall] at hrules ⊢
  rcases hrules with ⟨hrc, hno, left, hL, hiff⟩ | ⟨hrc, hno, ⟨hconn, hgen, hlaunch⟩, hfiles, hmod⟩
  · rw [if_pos hrc, hL.reverted_iff hfresh, hiff]
    simp [SelinuxAnswers.Reverts, hno, hrc]
  have hte : (s₁.files (ModuleFile.te.path env context)).isSome := hfiles .te (by decide)
  have hchecks := checks_iff hfiles hmod
  have hlabels := processPathsLoop_spec answers definitions 0 context.pathSet s₁
  have hsucceeds : answers.Succeeds env context ↔
      (answers.Installs env context ∧ answers.Checks) ∧ answers.LabelsFrom 0 context.pathSet :=
    ⟨fun hs => ⟨⟨hs.installs, hs.checks⟩, hs.labels⟩,
      fun h => ⟨hconn, hgen, hlaunch, h.1.1, h.1.2, h.2⟩⟩
  rw [SelinuxAnswers.Reverts, or_iff_right hno, hsucceeds, ← hchecks, if_neg (not_lt.2 hrc)]
  cases hexist : checkModuleFilesExist env answers context s₁ with
  | false => simp [hnoent, not_reverted hte]
  | true =>
    cases hpolicy : checkModuleInPolicy answers context s₁ with
    | false => simp [hnoent, not_reverted hte]
    | true =>
      simp only [not_true_eq_false, if_false, and_self, true_and]
      rw [selinuxProcessPaths]
      cases hcall : processPathsLoop answers definitions 0 context.pathSet s₁ with | mk rc s₂ =>
      simp only [hcall] at hlabels ⊢
      rcases lt_or_ge rc 0 with hrc | hrc
      · rw [if_pos hrc]
        rw [← hlabels.2] at hte
        simp [hrc, not_reverted hte, hlabels.1.1 hrc]
      · rw [if_neg (not_lt.2 hrc)]
        have hall : answers.LabelsFrom 0 context.pathSet := by
          rw [← not_not (a := answers.LabelsFrom 0 context.pathSet), ← hlabels.1]
          exact not_lt.2 hrc
        simp [hall]

/-- The template of the if file cannot be read, and the te file is removed. -/
theorem selinuxInstall_reverts_unread :
    let env : SelinuxEnv := ⟨.lit "/r", .ofBytes⟩
    let context := (contextCreate fun _ => 0).run [.setId (.lit "ab")]
    let answers := { SelinuxAnswers.all [97, 98] with
      iface := ⟨some ⟨EACCES, by decide⟩, none, 0, []⟩ }
    let r := selinuxInstall env answers context SelinuxSystem.blank
    r.1 = -EINVAL ∧ Reverted env context SelinuxSystem.blank r.2 := by
  intro env context answers r
  have hrc : r.1 = -EINVAL := by decide +kernel
  have hneg : r.1 < 0 := by
    rw [hrc]
    decide
  have hid : context.id 0 ≠ 0 := by decide +kernel
  have hfresh : SelinuxSystem.blank.Fresh env context := ⟨fun _ => rfl, List.not_mem_nil⟩
  have hiff := selinuxInstall_reverts env answers context SelinuxSystem.blank hid hfresh
  refine ⟨hrc, hiff.2 ?_ hneg⟩
  have hte : answers.te.Rendered := ⟨rfl, rfl, le_refl 0⟩
  have hif : answers.iface.Unopened := Or.inl (Option.some_ne_none _)
  exact Or.inl (Or.inr (Or.inl ⟨⟨rfl, rfl, rfl⟩, Or.inr ⟨hte, Or.inl ⟨hif, rfl⟩⟩⟩))

/-- The attribute of the path is not supported: the files stay, and the module in the policy. -/
theorem selinuxInstall_leaves :
    let env : SelinuxEnv := ⟨.lit "/r", .ofBytes⟩
    let context := (contextCreate fun _ => 0).run
      [.setId (.lit "ab"), .addPath .plain (.lit "/a") (.lit "conf")]
    let answers := { SelinuxAnswers.all [97, 98] with setxattr := fun _ => some ⟨95, by decide⟩ }
    let r := selinuxInstall env answers context SelinuxSystem.blank
    context.id 0 ≠ 0 ∧ SelinuxSystem.blank.Fresh env context ∧ r.1 = -95 ∧
      (r.2.files (selinuxTeFile env context)).isSome ∧ context.idString ∈ r.2.modules ∧
      ¬ Reverted env context SelinuxSystem.blank r.2 := by
  intro env context answers r
  have hid : context.id 0 ≠ 0 := by decide +kernel
  have hrc : r.1 = -95 := by decide +kernel
  have hte : (r.2.files (selinuxTeFile env context)).isSome := by decide +kernel
  have hmodule : context.idString ∈ r.2.modules := by decide +kernel
  clear_value r
  exact ⟨hid, ⟨fun _ => rfl, List.not_mem_nil⟩, hrc, hte, hmodule, not_reverted hte⟩

end SecLsmManager

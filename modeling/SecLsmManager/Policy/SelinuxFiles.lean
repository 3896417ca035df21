import SecLsmManager.Policy.Selinux
import SecLsmManager.Context.Invariant
import SecLsmManager.Action.Action
import Mathlib.Data.Finset.Basic

/-!
# The generation of the SELinux files

All that `generate_app_module_files` can do, step by step (`generateAppModuleFiles_cases`), and
from it which failures leave nothing (`generate_app_module_files_all_or_nothing`). What a step
finds in its template is what the engine makes of it (`templateAnswers_process`).
-/

namespace SecLsmManager

/-! ## The four files -/

/-- The files of a module. -/
inductive ModuleFile
  | te | fc | iface | pp
  deriving DecidableEq

namespace ModuleFile

def extension : ModuleFile → CStr
  | te => .lit "te"
  | fc => .lit "fc"
  | iface => .lit "if"
  | pp => .lit "pp"

def path (env : SelinuxEnv) (context : Context) (f : ModuleFile) : CStr :=
  moduleFile env context f.extension

/-- Every extension has two characters. -/
theorem extension_length (f : ModuleFile) : f.extension.length = 2 := by
  cases f <;> decide

/-- The extensions are four. -/
theorem extension_injective : Function.Injective extension := by
  intro f g h
  cases f <;> cases g <;> first | rfl | exact absurd h (by decide)

/-- The buffer holds the whole path. -/
theorem path_eq (env : SelinuxEnv) (context : Context) (f : ModuleFile) :
    f.path env context = env.rulesDir.take (SEC_LSM_MANAGER_MAX_SIZE_DIR - 1) ++ .lit "/" ++
      context.idString ++ .lit "." ++ f.extension := by
  refine CStr.snprintf_of_lt ?_
  have hdir : (env.rulesDir.take (SEC_LSM_MANAGER_MAX_SIZE_DIR - 1)).length ≤ 1023 :=
    List.length_take_le _ _
  have hid : context.idString.length ≤ 201 := idString_length_le context
  have hslash : (CStr.lit "/").length = 1 := by decide
  have hdot : (CStr.lit ".").length = 1 := by decide
  have hext := f.extension_length
  have hsize : SEMOD_MAX_SIZE_PATH = 1230 := rfl
  simp only [CStr.length_append]
  omega

/-- So the four paths of a module are four. -/
theorem path_injective (env : SelinuxEnv) (context : Context) :
    Function.Injective (path env context) := by
  intro f g h
  rw [path_eq, path_eq] at h
  have hb := congrArg CStr.bytes h
  simp only [CStr.bytes_append] at hb
  exact extension_injective (CStr.ext (List.append_cancel_left hb))

end ModuleFile

/-! ## The answers -/

/-- The destination is not opened. -/
def TemplateAnswers.Unopened (a : TemplateAnswers) : Prop :=
  a.read ≠ none ∨ a.opened ≠ none

/-- The destination is opened and the template rendered. -/
def TemplateAnswers.Rendered (a : TemplateAnswers) : Prop :=
  a.read = none ∧ a.opened = none ∧ 0 ≤ a.code

namespace SelinuxAnswers
variable (answers : SelinuxAnswers) (context : Context)

/-- The three source files are written. -/
def Generates : Prop :=
  answers.te.Rendered ∧ answers.iface.Rendered ∧ answers.openFc = none ∧
    ∀ i < context.pathSet.length, answers.fputs i = none

/-- The generation fails where a file cannot be opened, and the files before are removed. -/
def GenerationReverts : Prop :=
  answers.te.Unopened ∨
  answers.te.Rendered ∧
    (answers.iface.Unopened ∧ answers.removeTe' = none ∨
    answers.iface.Rendered ∧ answers.openFc ≠ none ∧
      answers.removeIf' = none ∧ answers.removeTe' = none)

end SelinuxAnswers

/-- A template is rendered when its destination is opened and the engine does not fail. -/
theorem TemplateAnswers.rendered_iff (a : TemplateAnswers) :
    a.Rendered ↔ ¬ a.Unopened ∧ 0 ≤ a.code := by
  simp only [Rendered, Unopened, ne_eq, not_or, not_not, and_assoc]

/-- A rendered template was opened. -/
theorem TemplateAnswers.Rendered.opened {a : TemplateAnswers} (h : a.Rendered) :
    ¬ a.Unopened :=
  (a.rendered_iff.1 h).1

/-- The loop ends well when every line is written. -/
theorem fcLoop_nonneg_iff (fputs : Nat → Fault) (definitions : PathType → CStr) (i : Nat)
    (paths : List Path) (text : List UInt8) :
    0 ≤ (fcLoop fputs definitions i paths text).1 ↔
      ∀ j < paths.length, fputs (i + j) = none := by
  induction paths generalizing i text with
  | nil => simp [fcLoop]
  | cons path paths ih =>
    cases hput : fputs i with
    | some e =>
      have hpos := e.pos
      have hneg : ¬ (0 : Int) ≤ -e.val := by omega
      simp only [fcLoop, hput, hneg, false_iff, not_forall]
      exact ⟨0, Nat.succ_pos _, by simp [hput]⟩
    | none =>
      simp only [fcLoop, hput]
      rw [ih]
      constructor
      · intro hall j hj
        cases j with
        | zero => exact hput
        | succ j =>
          have hnext := hall j (Nat.lt_of_succ_lt_succ hj)
          rwa [Nat.add_right_comm] at hnext
      · intro hall j hj
        have hnext := hall (j + 1) (Nat.succ_lt_succ hj)
        rwa [Nat.add_right_comm]

/-- The source files of the module. -/
def sources : Finset ModuleFile := {.te, .iface, .fc}

section
variable {env : SelinuxEnv} {context : Context}

/-- The paths that the functions compute are those of the files. -/
theorem selinuxTeFile_eq : selinuxTeFile env context = ModuleFile.te.path env context := rfl
theorem selinuxFcFile_eq : selinuxFcFile env context = ModuleFile.fc.path env context := rfl
theorem selinuxIfFile_eq : selinuxIfFile env context = ModuleFile.iface.path env context := rfl
theorem selinuxPpFile_eq : selinuxPpFile env context = ModuleFile.pp.path env context := rfl

end

/-! ## Calls on the files -/

section
variable {env : SelinuxEnv} {context : Context}

/-- A file that is written holds the text; the others are as they were. -/
@[simp] theorem write_files (s : SelinuxSystem) (f g : ModuleFile) (text : List UInt8) :
    (s.write (f.path env context) text).files (g.path env context) =
      if g = f then some text else s.files (g.path env context) := by
  simp only [SelinuxSystem.write, Function.update_apply,
    (ModuleFile.path_injective env context).eq_iff]

/-- A file that is removed is gone; the others are as they were. -/
@[simp] theorem removeFile_files (s : SelinuxSystem) (fault : Fault) (f g : ModuleFile) :
    (s.removeFile fault (f.path env context)).2.files (g.path env context) =
      if g = f ∧ fault = none then none else s.files (g.path env context) := by
  cases fault with
  | some e => simp [SelinuxSystem.removeFile]
  | none =>
    have hinj := (ModuleFile.path_injective env context).eq_iff (a := g) (b := f)
    cases hfile : s.files (f.path env context) with
    | none =>
      simp only [SelinuxSystem.removeFile, hfile, and_true]
      split
      · rename_i hsame
        rw [hsame, hfile]
      · rfl
    | some text =>
      simp only [SelinuxSystem.removeFile, hfile, Function.update_apply, hinj, and_true]

/-- A removal succeeds where there is a file and the call does not fail. -/
theorem removeFile_code (s : SelinuxSystem) (fault : Fault) (file : CStr) :
    (fault = none ∧ (s.files file).isSome ∧ (s.removeFile fault file).1 = 0) ∨
      (¬ (fault = none ∧ (s.files file).isSome) ∧ (s.removeFile fault file).1 < 0) := by
  cases fault with
  | some e =>
    exact .inr ⟨fun h => Option.some_ne_none e h.1, Int.neg_neg_of_pos e.pos⟩
  | none =>
    cases hfile : s.files file with
    | none =>
      refine .inr ⟨fun h => Bool.false_ne_true h.2, ?_⟩
      simp only [SelinuxSystem.removeFile, hfile]
      decide
    | some text =>
      refine .inl ⟨rfl, rfl, ?_⟩
      simp only [SelinuxSystem.removeFile, hfile]

/-- Only files are removed. -/
theorem removeFile_keeps (s : SelinuxSystem) (fault : Fault) (file : CStr) :
    (s.removeFile fault file).2.modules = s.modules ∧
      (s.removeFile fault file).2.labels = s.labels := by
  cases fault with
  | some e => exact ⟨rfl, rfl⟩
  | none =>
    rw [SelinuxSystem.removeFile]
    split <;> exact ⟨rfl, rfl⟩

/-- Nothing is written where the source is not read or the destination not opened. -/
theorem templateProcess_unopened {a : TemplateAnswers} (h : a.Unopened) (dest : CStr)
    (s : SelinuxSystem) : s.templateProcess a dest = (-EINVAL, s) := by
  rw [SelinuxSystem.templateProcess]
  split
  · rename_i hread hopened
    exact absurd h (by simp [TemplateAnswers.Unopened, hread, hopened])
  · rfl

/-- Otherwise the destination holds what was written of the text, also when the engine fails. -/
theorem templateProcess_opened {a : TemplateAnswers} (h : ¬ a.Unopened) (dest : CStr)
    (s : SelinuxSystem) : s.templateProcess a dest = (a.code, s.write dest a.text) := by
  obtain ⟨hread, hopened⟩ := not_or.1 h
  rw [SelinuxSystem.templateProcess, not_not.1 hread, not_not.1 hopened]

/-- The lines of the paths. -/
def fcText (definitions : PathType → CStr) (paths : List Path) : List UInt8 :=
  paths.flatMap fun path => (fcLine definitions path).bytes

/-- The text of a loop that ends well. -/
theorem fcLoop_text (fputs : Nat → Fault) (definitions : PathType → CStr) (i : Nat)
    (paths : List Path) (text : List UInt8) (h : ∀ j < paths.length, fputs (i + j) = none) :
    fcLoop fputs definitions i paths text = (0, text ++ fcText definitions paths) := by
  induction paths generalizing i text with
  | nil => simp [fcLoop, fcText]
  | cons path paths ih =>
    have hput : fputs i = none := h 0 (Nat.succ_pos _)
    have hrest : ∀ j < paths.length, fputs (i + 1 + j) = none := by
      intro j hj
      rw [Nat.add_assoc, Nat.add_comm 1]
      exact h (j + 1) (Nat.succ_lt_succ hj)
    simp only [fcLoop, hput, ih (i + 1) _ hrest, fcText, List.flatMap_cons, List.append_assoc]

end

/-! ## The generation -/

section
variable (env : SelinuxEnv) (answers : SelinuxAnswers) (context : Context)

namespace SelinuxSystem

def withTe (s : SelinuxSystem) : SelinuxSystem :=
  s.write (ModuleFile.te.path env context) answers.te.text

def withIf (s : SelinuxSystem) : SelinuxSystem :=
  (s.withTe env answers context).write (ModuleFile.iface.path env context) answers.iface.text

def withFc (text : List UInt8) (s : SelinuxSystem) : SelinuxSystem :=
  (s.withIf env answers context).write (ModuleFile.fc.path env context)
    (answers.closeFc.getD text)

/-- `remove_te`. -/
def withoutTe (s : SelinuxSystem) : SelinuxSystem :=
  (s.removeFile answers.removeTe' (ModuleFile.te.path env context)).2

/-- `remove_if`. -/
def withoutIf (s : SelinuxSystem) : SelinuxSystem :=
  ((s.removeFile answers.removeIf' (ModuleFile.iface.path env context)).2).withoutTe env answers
    context

end SelinuxSystem

/-- What `generate_app_module_files` can do. -/
inductive Generation (definitions : PathType → CStr) (s : SelinuxSystem) :
    Int × SelinuxSystem → Prop
  | teUnopened {rc : Int} (hrc : rc < 0) (hte : answers.te.Unopened) :
    Generation definitions s (rc, s)
  | teUnrendered {rc : Int} (hrc : rc < 0) (hte : ¬ answers.te.Unopened)
      (hno : ¬ answers.te.Rendered) :
    Generation definitions s (rc, s.withTe env answers context)
  | ifUnopened {rc : Int} (hrc : rc < 0) (hte : answers.te.Rendered)
      (hif : answers.iface.Unopened) :
    Generation definitions s (rc, (s.withTe env answers context).withoutTe env answers context)
  | ifUnrendered {rc : Int} (hrc : rc < 0) (hte : answers.te.Rendered)
      (hif : ¬ answers.iface.Unopened) (hno : ¬ answers.iface.Rendered) :
    Generation definitions s (rc, (s.withIf env answers context).withoutTe env answers context)
  | fcUnopened {rc : Int} (hrc : rc < 0) (hte : answers.te.Rendered)
      (hif : answers.iface.Rendered) (hfc : answers.openFc ≠ none) :
    Generation definitions s (rc, (s.withIf env answers context).withoutIf env answers context)
  | fcUnwritten {rc : Int} {text : List UInt8} (hrc : rc < 0) (hte : answers.te.Rendered)
      (hif : answers.iface.Rendered) (hfc : answers.openFc = none)
      (hputs : ¬ ∀ i < context.pathSet.length, answers.fputs i = none) :
    Generation definitions s
      (rc, (s.withFc env answers context text).withoutIf env answers context)
  | generated (hall : answers.Generates context) :
    Generation definitions s
      (0, s.withFc env answers context (fcText definitions context.pathSet))

/-- The generation of the sources, by the first call that fails. -/
theorem generateAppModuleFiles_cases (definitions : PathType → CStr) (s : SelinuxSystem) :
    Generation env answers context definitions s
      (generateAppModuleFiles env answers context definitions s) := by
  have hinval : -EINVAL < 0 := by decide
  rw [generateAppModuleFiles, selinuxTeFile_eq, selinuxIfFile_eq]
  by_cases hte : answers.te.Unopened
  · simp only [templateProcess_unopened hte, if_pos hinval]
    exact .teUnopened hinval hte
  simp only [templateProcess_opened hte]
  split
  · rename_i hcode
    exact .teUnrendered hcode hte fun hr => not_le.2 hcode hr.2.2
  rename_i hcode
  have hrendered := answers.te.rendered_iff.2 ⟨hte, not_lt.1 hcode⟩
  by_cases hif : answers.iface.Unopened
  · simp only [templateProcess_unopened hif, if_pos hinval]
    exact .ifUnopened hinval hrendered hif
  simp only [templateProcess_opened hif]
  split
  · rename_i hcode'
    exact .ifUnrendered hcode' hrendered hif fun hr => not_le.2 hcode' hr.2.2
  rename_i hcode'
  have hrendered' := answers.iface.rendered_iff.2 ⟨hif, not_lt.1 hcode'⟩
  obtain hopen | ⟨e, hopen⟩ := Option.eq_none_or_eq_some answers.openFc
  · by_cases hputs : ∀ i < context.pathSet.length, answers.fputs i = none
    · have hloop := fcLoop_text answers.fputs definitions 0 context.pathSet []
        (by simpa using hputs)
      simp only [generateAppModuleFc, hopen, hloop, List.nil_append, Int.lt_irrefl, if_false]
      exact .generated ⟨hrendered, hrendered', hopen, hputs⟩
    · have hneg : (fcLoop answers.fputs definitions 0 context.pathSet []).1 < 0 := by
        rw [← not_le, fcLoop_nonneg_iff]
        simpa using hputs
      simp only [generateAppModuleFc, hopen, if_pos hneg]
      exact .fcUnwritten hneg hrendered hrendered' hopen hputs
  · have hneg : -e.val < 0 := Int.neg_neg_of_pos e.pos
    simp only [generateAppModuleFc, hopen, if_pos hneg]
    exact .fcUnopened hneg hrendered hrendered' (by simp [hopen])

end

/-- A generation succeeds where it generates the files, and fails elsewhere. -/
theorem Generation.outcome {env : SelinuxEnv} {answers : SelinuxAnswers} {context : Context}
    {definitions : PathType → CStr} {s : SelinuxSystem} {r : Int × SelinuxSystem}
    (h : Generation env answers context definitions s r) :
    (r.1 < 0 ∧ ¬ answers.Generates context) ∨
    (answers.Generates context ∧
      r = (0, s.withFc env answers context (fcText definitions context.pathSet))) := by
  cases h with
  | teUnopened hrc hte => exact .inl ⟨hrc, fun hg => hg.1.opened hte⟩
  | teUnrendered hrc _ hno => exact .inl ⟨hrc, fun hg => hno hg.1⟩
  | ifUnopened hrc _ hif => exact .inl ⟨hrc, fun hg => hg.2.1.opened hif⟩
  | ifUnrendered hrc _ _ hno => exact .inl ⟨hrc, fun hg => hno hg.2.1⟩
  | fcUnopened hrc _ _ hfc => exact .inl ⟨hrc, fun hg => hfc hg.2.2.1⟩
  | fcUnwritten hrc _ _ _ hputs => exact .inl ⟨hrc, fun hg => hputs hg.2.2.2⟩
  | generated hall => exact .inr ⟨hall, rfl⟩

/-! ## All or nothing -/

/-- None of the three files is there. -/
def NoSources (env : SelinuxEnv) (context : Context) (s : SelinuxSystem) : Prop :=
  ∀ f ∈ sources, s.files (f.path env context) = none

/-- No source of the module is left. -/
theorem noSources_iff {env : SelinuxEnv} {context : Context} {s : SelinuxSystem} :
    NoSources env context s ↔ s.files (ModuleFile.te.path env context) = none ∧
      s.files (ModuleFile.iface.path env context) = none ∧
      s.files (ModuleFile.fc.path env context) = none := by
  simp [NoSources, sources]

/-- **The generation is all or nothing** exactly when it succeeds, or fails where a file cannot be
opened and the removals of those before succeed. -/
theorem generate_app_module_files_all_or_nothing (env : SelinuxEnv) (answers : SelinuxAnswers)
    (context : Context) (definitions : PathType → CStr) {s : SelinuxSystem}
    (hnone : NoSources env context s) :
    let r := generateAppModuleFiles env answers context definitions s
    (r.1 < 0 → NoSources env context r.2) ↔
      answers.Generates context ∨ answers.GenerationReverts := by
  intro r
  have hcases : Generation env answers context definitions s r :=
    generateAppModuleFiles_cases env answers context definitions s
  clear_value r
  obtain ⟨hnote, hnoif, hnofc⟩ := noSources_iff.1 hnone
  simp only [noSources_iff, SelinuxAnswers.Generates, SelinuxAnswers.GenerationReverts]
  cases hcases with
  | teUnopened hrc hte => simp [hte, hnote, hnoif, hnofc]
  | teUnrendered hrc hte hno => simp [hrc, hte, hno, SelinuxSystem.withTe]
  | ifUnopened hrc hte hif =>
    have hno : ¬ answers.iface.Rendered := fun hr => hr.opened hif
    simp [hrc, hte, hte.opened, hif, hno, hnoif, hnofc, SelinuxSystem.withTe,
      SelinuxSystem.withoutTe]
  | ifUnrendered hrc hte hif hno =>
    simp [hrc, hte, hte.opened, hif, hno, SelinuxSystem.withIf, SelinuxSystem.withoutTe]
  | fcUnopened hrc hte hif hfc =>
    simp [hrc, hte, hte.opened, hif, hif.opened, hfc, hnofc, SelinuxSystem.withTe,
      SelinuxSystem.withIf, SelinuxSystem.withoutTe, SelinuxSystem.withoutIf, and_comm]
  | fcUnwritten hrc hte hif hfc hputs =>
    simp only [hrc, hte, hte.opened, hif, hif.opened, hfc, hputs, SelinuxSystem.withFc,
      SelinuxSystem.withoutTe, SelinuxSystem.withoutIf]
    simp
  | generated hall => exact iff_of_true (fun h => absurd h (Int.lt_irrefl 0)) (Or.inl hall)

/-- No call fails, and the compiled file is `pp`. -/
def SelinuxAnswers.all (pp : List UInt8) : SelinuxAnswers where
  handle := ⟨none, none, none⟩
  te := ⟨none, none, 0, []⟩
  iface := ⟨none, none, 0, []⟩
  openFc := none
  fputs := fun _ => none
  closeFc := none
  removeIf' := none
  removeTe' := none
  vfork := none
  compiled := some pp
  waitpid := none
  status := .exited 0
  installFile := none
  noFile := 0
  commit := .ok 0
  removePp := none
  removeTe := none
  removeIf := none
  removeFc := none
  statTe := none
  statFc := none
  statIf := none
  checkHandle := ⟨none, none, none⟩
  moduleList := none
  moduleName := fun _ => none
  lstat := fun _ => .plain
  setxattr := fun _ => none
  idMem := fun _ => 0
  labelMem := fun _ => .empty

/-- A system without modules. -/
def SelinuxSystem.blank : SelinuxSystem := ⟨fun _ => none, [], fun _ => none⟩

/-- The template of the if file cannot be read, and the te file is removed. -/
theorem generate_app_module_files_unread :
    let env : SelinuxEnv := ⟨.lit "/r", .ofBytes⟩
    let context := (contextCreate fun _ => 0).run [.setId (.lit "ab")]
    let answers := { SelinuxAnswers.all [] with iface := ⟨some ⟨EACCES, by decide⟩, none, 0, []⟩ }
    let r := generateAppModuleFiles env answers context (fun _ => .empty) SelinuxSystem.blank
    r.1 < 0 ∧ NoSources env context r.2 := by
  intro env context answers r
  have hrc : r.1 < 0 := by decide +kernel
  have hiff := generate_app_module_files_all_or_nothing env answers context (fun _ => .empty)
    (s := SelinuxSystem.blank) fun _ _ => rfl
  have hte : answers.te.Rendered := ⟨rfl, rfl, le_refl 0⟩
  have hif : answers.iface.Unopened := Or.inl (Option.some_ne_none _)
  exact ⟨hrc, hiff.2 (Or.inr (Or.inr ⟨hte, Or.inl ⟨hif, rfl⟩⟩)) hrc⟩

/-- What `template_process` finds in the files. -/
def templateAnswers (fuel : Nat) (opens : CStr → Bool) (templatePath dest : CStr)
    (context : Context) (files : Files) : Option TemplateAnswers :=
  match files templatePath with
  | none => some ⟨some ⟨ENOENT, by decide⟩, none, 0, []⟩
  | some content =>
    if opens dest then
      (fmustach templateItf fuel (.ofBytes content) ⟨context, []⟩).map fun r =>
        ⟨none, none, r.1, r.2.2⟩
    else some ⟨none, some ⟨EACCES, by decide⟩, 0, []⟩

/-- A step of the generation does what the engine does with its template. -/
theorem templateAnswers_process (fuel : Nat) (opens : CStr → Bool) (templatePath dest : CStr)
    (context : Context) (s : SelinuxSystem) :
    Templating.templateProcess fuel opens templatePath dest context s.files =
      (templateAnswers fuel opens templatePath dest context s.files).map fun a =>
        ((s.templateProcess a dest).1, (s.templateProcess a dest).2.files) := by
  rw [Templating.templateProcess, templateAnswers]
  cases s.files templatePath with
  | none => rfl
  | some content =>
    cases opens dest with
    | false => rfl
    | true =>
      simp only [if_true]
      cases fmustach templateItf fuel (.ofBytes content) ⟨context, []⟩ with
      | none => rfl
      | some r => rfl

/-- A te template with a tag that is not closed: its beginning stays in the te file. -/
theorem generate_app_module_files_leaves :
    let env : SelinuxEnv := ⟨.lit "/r", .ofBytes⟩
    let context := (contextCreate fun _ => 0).run [.setId (.lit "ab")]
    let te := templateAnswers 5 (fun _ => true) (.lit "/t") (selinuxTeFile env context) context
      fun _ => some (CStr.lit "type \x7b\x7b").bytes
    te = some ⟨none, none, MUSTACH_ERROR_UNEXPECTED_END, (CStr.lit "type ").bytes⟩ ∧
      NoSources env context SelinuxSystem.blank ∧ ∀ a ∈ te,
        let r := generateAppModuleFiles env { SelinuxAnswers.all [] with te := a } context
          (fun _ => .empty) SelinuxSystem.blank
        r.1 < 0 ∧ ¬ NoSources env context r.2 := by
  intro env context te
  have hte : te = some ⟨none, none, MUSTACH_ERROR_UNEXPECTED_END, (CStr.lit "type ").bytes⟩ := by
    decide +kernel
  refine ⟨hte, fun _ _ => rfl, fun a ha => ?_⟩
  rw [hte] at ha
  obtain rfl := Option.mem_some_iff.1 ha
  refine ⟨by decide +kernel, fun h => ?_⟩
  have hfile := h .te (by decide)
  revert hfile
  decide +kernel

end SecLsmManager

import SecLsmManager.Policy.SelinuxInstall

/-!
# The removal of SELinux modules

`selinux_uninstall`, with `remove_selinux_rules` and `remove_module`. The files go before the
module, and a removal starts by a check that all source files are there: an attempt that fails on
its way can not be made again, and it leaves the module in the policy for ever
(`selinux_uninstall_once`). `selinux_uninstall_iff` says when an attempt is reported to succeed.
-/

namespace SecLsmManager

/-- The answers to the calls of a removal: those of the checks before and after and those of the
removal of the files are as in an installation. -/
structure SelinuxRemoval where
  before : SelinuxAnswers
  during : SelinuxAnswers
  /-- `semanage_module_remove` -/
  moduleRemove : LibFault
  /-- `errno` when there is no such module -/
  noModule : Nat
  /-- `semanage_commit`, with its code -/
  commit : Except Nat Nat
  after : SelinuxAnswers

/-- The policy without a module. -/
def dropModule (id : CStr) (modules : List CStr) : List CStr := modules.filter (· ≠ id)

section
variable (env : SelinuxEnv) (answers : SelinuxRemoval) (context : Context)

/-- `remove_module`: what libsemanage removes is out of the policy when it is committed. -/
def removeModule (s : SelinuxSystem) : Int × SelinuxSystem :=
  match answers.moduleRemove with
  | some errno => (-errno, s)
  | none =>
    if context.idString ∉ s.modules then (-answers.noModule, s)
    else
      match answers.commit with
      | .error errno => (-errno, s)
      | .ok rc => (rc, { s with modules := dropModule context.idString s.modules })

def removeSelinuxRules (s : SelinuxSystem) : Int × SelinuxSystem :=
  let (rc, s) := removeAppModuleFiles env answers.during context s
  if rc < 0 then (rc, s)
  else
    let (rc, s) := s.removeFile answers.during.removePp (selinuxPpFile env context)
    if rc < 0 then (rc, s)
    else
      let rc := createSemanageHandle answers.during.handle
      if rc < 0 then (rc, s) else removeModule answers context s

def selinuxUninstall (s : SelinuxSystem) : Int × SelinuxSystem :=
  if context.id 0 = 0 then (-EINVAL, s)
  else if ¬ checkModuleFilesExist env answers.before context s then (-ENOENT, s)
  else if ¬ checkModuleInPolicy answers.before context s then (-ENOENT, s)
  else
    let (rc, s) := removeSelinuxRules env answers context s
    if rc < 0 then (rc, s)
    else if checkModuleFilesExist env answers.after context s then (-1, s)
    else if checkModuleInPolicy answers.after context s then (-1, s)
    else (0, s)

end

/-! ## The files -/

/-- The order in which the files are removed. -/
def removalOrder : List ModuleFile := [.te, .iface, .fc, .pp]

/-- The failure of the removal of a file. -/
def SelinuxRemoval.fault (answers : SelinuxRemoval) : ModuleFile → Fault
  | .te => answers.during.removeTe
  | .iface => answers.during.removeIf
  | .fc => answers.during.removeFc
  | .pp => answers.during.removePp

section
variable (env : SelinuxEnv) (context : Context)

/-- The system without some files of the module. -/
def SelinuxSystem.without (s : SelinuxSystem) (gone : List ModuleFile) : SelinuxSystem :=
  { s with files := fun file =>
      if file ∈ gone.map (ModuleFile.path env context) then none else s.files file }

/-- A file is there, and its removal does not fail. -/
def SelinuxRemoval.Removable (answers : SelinuxRemoval) (s : SelinuxSystem) (f : ModuleFile) :
    Prop :=
  answers.fault f = none ∧ (s.files (f.path env context)).isSome

/-- Files are removed one after the other, up to the first that is not. -/
def removeFiles (fault : ModuleFile → Fault) : List ModuleFile → SelinuxSystem →
    Int × SelinuxSystem
  | [], s => (0, s)
  | f :: fs, s =>
    let (rc, s) := s.removeFile (fault f) (f.path env context)
    if rc < 0 then (rc, s) else removeFiles fault fs s

end

variable {env : SelinuxEnv} {context : Context} {answers : SelinuxRemoval} {s : SelinuxSystem}

/-- Nothing is gone. -/
theorem SelinuxSystem.without_nil (s : SelinuxSystem) : s.without env context [] = s := by
  simp [without]

/-- The files that are gone, and the others. -/
theorem SelinuxSystem.without_files (s : SelinuxSystem) (gone : List ModuleFile) (f : ModuleFile) :
    (s.without env context gone).files (f.path env context) =
      if f ∈ gone then none else s.files (f.path env context) := by
  simp only [without, List.mem_map_of_injective (ModuleFile.path_injective env context)]

/-- A removal that succeeds. -/
theorem SelinuxSystem.without_remove {gone : List ModuleFile} {f : ModuleFile} (hf : f ∉ gone)
    (h : (s.files (f.path env context)).isSome) :
    (s.without env context gone).removeFile none (f.path env context) =
      (0, s.without env context (gone ++ [f])) := by
  obtain ⟨text, htext⟩ := Option.isSome_iff_exists.1 h
  have hfile : (s.without env context gone).files (f.path env context) = some text := by
    rw [s.without_files, if_neg hf, htext]
  rw [removeFile, hfile]
  simp only [without, List.map_append, List.map_singleton, List.mem_append, List.mem_singleton,
    Prod.mk.injEq, SelinuxSystem.mk.injEq, and_true, true_and]
  funext file
  rw [Function.update_apply]
  rcases eq_or_ne file (f.path env context) with rfl | hne
  · simp
  · simp [hne]

/-- A removal fails for a call that fails or a file that is not there. -/
theorem removeFile_fails {fault : Fault} {file : CStr}
    (h : ¬ (fault = none ∧ (s.files file).isSome)) :
    (s.removeFile fault file).1 < 0 ∧ (s.removeFile fault file).2 = s := by
  have hnoent : -ENOENT < 0 := by decide
  cases fault with
  | some e => exact ⟨Int.neg_neg_of_pos e.pos, rfl⟩
  | none =>
    have hnone : s.files file = none := by
      rw [← Option.not_isSome_iff_eq_none]
      exact fun hs => h ⟨rfl, hs⟩
    rw [SelinuxSystem.removeFile, hnone]
    exact ⟨hnoent, rfl⟩

/-- **What a chain of removals does**: it goes to its end, or to a file that is not removed. -/
theorem removeFiles_cases (answers : SelinuxRemoval) (s : SelinuxSystem) :
    ∀ {l gone : List ModuleFile}, (gone ++ l).Nodup →
      let r := removeFiles env context answers.fault l (s.without env context gone)
      ((∀ f ∈ l, answers.Removable env context s f) ∧
          r = (0, s.without env context (gone ++ l))) ∨
        ∃ done f rest, l = done ++ f :: rest ∧
          (∀ g ∈ done, answers.Removable env context s g) ∧
          ¬ answers.Removable env context s f ∧ r.1 < 0 ∧
          r.2 = s.without env context (gone ++ done)
  | [], gone, _ => .inl ⟨nofun, by rw [List.append_nil]; rfl⟩
  | f :: l, gone, hnodup => by
    intro r
    have hf : f ∉ gone := fun hm => List.disjoint_of_nodup_append hnodup hm List.mem_cons_self
    rw [List.append_cons] at hnodup
    rcases Classical.em (answers.Removable env context s f) with hr | hr
    · have hstep : r = removeFiles env context answers.fault l
          (s.without env context (gone ++ [f])) := by
        simp only [r, removeFiles, hr.1, s.without_remove hf hr.2, lt_irrefl, if_false]
      rw [hstep]
      obtain ⟨hall, heq⟩ | ⟨done, g, rest, rfl, hdone, hg, hneg, hleft⟩ :=
        removeFiles_cases answers s hnodup
      · exact .inl ⟨List.forall_mem_cons.2 ⟨hr, hall⟩, by rw [heq, List.append_assoc]; rfl⟩
      · refine .inr ⟨f :: done, g, rest, rfl, List.forall_mem_cons.2 ⟨hr, hdone⟩, hg, hneg, ?_⟩
        rw [hleft, List.append_assoc]
        rfl
    · have hnot : ¬ (answers.fault f = none ∧
          ((s.without env context gone).files (f.path env context)).isSome) := by
        rw [s.without_files, if_neg hf]
        exact hr
      obtain ⟨hneg, hsame⟩ := removeFile_fails hnot
      have hstop : r = (s.without env context gone).removeFile (answers.fault f)
          (f.path env context) := by
        simp only [r, removeFiles, if_pos hneg]
      refine .inr ⟨[], f, l, rfl, nofun, hr, ?_, ?_⟩
      · rw [hstop]
        exact hneg
      · rw [hstop, hsame, List.append_nil]

/-- One file, then the others if it could be removed. -/
theorem removeFiles_cons (fault : ModuleFile → Fault) (f : ModuleFile) (l : List ModuleFile)
    (s : SelinuxSystem) : removeFiles env context fault (f :: l) s =
      if (s.removeFile (fault f) (f.path env context)).1 < 0 then
        s.removeFile (fault f) (f.path env context)
      else removeFiles env context fault l (s.removeFile (fault f) (f.path env context)).2 := rfl

/-- Some files, then the others if all of these could be removed. -/
theorem removeFiles_append (fault : ModuleFile → Fault) (l l' : List ModuleFile)
    (s : SelinuxSystem) : removeFiles env context fault (l ++ l') s =
      if (removeFiles env context fault l s).1 < 0 then removeFiles env context fault l s
      else removeFiles env context fault l' (removeFiles env context fault l s).2 := by
  induction l generalizing s with
  | nil => rfl
  | cons f l ih =>
    rw [List.cons_append, removeFiles_cons, removeFiles_cons]
    rcases lt_or_ge (s.removeFile (fault f) (f.path env context)).1 0 with hrc | hrc
    · simp only [if_pos hrc]
    · simp only [if_neg (not_lt.2 hrc)]
      exact ih _

/-- One file. -/
theorem removeFiles_singleton (fault : ModuleFile → Fault) (f : ModuleFile) (s : SelinuxSystem) :
    removeFiles env context fault [f] s = s.removeFile (fault f) (f.path env context) := by
  rw [removeFiles_cons]
  rcases removeFile_code s (fault f) (f.path env context) with ⟨-, -, hrc⟩ | ⟨-, hrc⟩
  · simp only [hrc, lt_irrefl, if_false, removeFiles]
    exact Prod.ext hrc.symm rfl
  · simp only [if_pos hrc]

/-- `remove_app_module_files` removes the sources in this order. -/
theorem removeAppModuleFiles_eq (answers : SelinuxRemoval) (s : SelinuxSystem) :
    removeAppModuleFiles env answers.during context s =
      removeFiles env context answers.fault [.te, .iface, .fc] s := by
  rw [removeAppModuleFiles, selinuxTeFile_eq, selinuxIfFile_eq, selinuxFcFile_eq,
    removeFiles_cons, removeFiles_cons, removeFiles_singleton]
  rfl

/-- `remove_selinux_rules` removes the files in their order, then the module. -/
theorem removeSelinuxRules_eq (answers : SelinuxRemoval) (s : SelinuxSystem) :
    removeSelinuxRules env answers context s =
      let r := removeFiles env context answers.fault removalOrder s
      if r.1 < 0 then r
      else if createSemanageHandle answers.during.handle < 0 then
        (createSemanageHandle answers.during.handle, r.2)
      else removeModule answers context r.2 := by
  have horder : removalOrder = [.te, .iface, .fc] ++ [.pp] := rfl
  rw [removeSelinuxRules, removeAppModuleFiles_eq, selinuxPpFile_eq, horder, removeFiles_append,
    removeFiles_singleton]
  generalize removeFiles env context answers.fault [.te, .iface, .fc] s = r
  dsimp only
  rcases lt_or_ge r.1 0 with hrc | hrc
  · rw [if_pos hrc, if_pos hrc, if_pos hrc]
  · rw [if_neg (not_lt.2 hrc), if_neg (not_lt.2 hrc)]
    rfl

/-! ## The module -/

namespace SelinuxRemoval

section
variable (env : SelinuxEnv) (answers : SelinuxRemoval) (context : Context) (s : SelinuxSystem)

/-- The context has an id, and the checks before find the source files and the module. -/
structure Checked : Prop where
  id : context.id 0 ≠ 0
  files : checkModuleFilesExist env answers.before context s = true
  policy : checkModuleInPolicy answers.before context s = true

/-- libsemanage removes the module. -/
def Drops : Prop := answers.moduleRemove = none ∧ ∃ rc, answers.commit = .ok rc

/-- libsemanage fails, and leaves 0 in `errno`. -/
def Silent : Prop :=
  answers.moduleRemove = some 0 ∨ answers.moduleRemove = none ∧ answers.commit = .error 0

/-- The removal of the module is reported: it is done, or its failure is not seen, neither when it
happens nor by the check after. -/
def Reported : Prop :=
  answers.during.handle.Connected ∧
    (answers.Drops ∨ answers.Silent ∧ checkModuleInPolicy answers.after context s = false)

end

end SelinuxRemoval

/-- The system once the files and the module are gone. -/
def SelinuxSystem.cleared (env : SelinuxEnv) (context : Context) (s : SelinuxSystem) :
    SelinuxSystem :=
  { s.without env context removalOrder with modules := dropModule context.idString s.modules }

theorem removeModule_cases (answers : SelinuxRemoval) (hmem : context.idString ∈ s.modules) :
    (answers.Drops ∧ 0 ≤ (removeModule answers context s).1 ∧ (removeModule answers context s).2 =
        { s with modules := dropModule context.idString s.modules }) ∨
      (¬ answers.Drops ∧ answers.Silent ∧ removeModule answers context s = (0, s)) ∨
      (¬ answers.Drops ∧ ¬ answers.Silent ∧ (removeModule answers context s).1 < 0 ∧
        (removeModule answers context s).2 = s) := by
  have hcode : ∀ errno : Nat, errno ≠ 0 → (-errno : Int) < 0 := by
    intro errno hne
    omega
  simp only [removeModule, SelinuxRemoval.Drops, SelinuxRemoval.Silent, not_not_intro hmem,
    if_false]
  cases answers.moduleRemove with
  | some errno =>
    rcases eq_or_ne errno 0 with rfl | hne
    · exact .inr (.inl ⟨by simp, .inl rfl, rfl⟩)
    · exact .inr (.inr ⟨by simp, by simp [hne], hcode errno hne, rfl⟩)
  | none =>
    cases answers.commit with
    | ok rc => exact .inl ⟨⟨rfl, rc, rfl⟩, Int.natCast_nonneg rc, rfl⟩
    | error errno =>
      rcases eq_or_ne errno 0 with rfl | hne
      · exact .inr (.inl ⟨by simp, .inr ⟨rfl, rfl⟩, rfl⟩)
      · exact .inr (.inr ⟨by simp, by simp [hne], hcode errno hne, rfl⟩)

/-! ## The checks -/

/-- A module that is found in the policy is installed. -/
theorem checkModuleInPolicy_mem {answers : SelinuxAnswers}
    (h : checkModuleInPolicy answers context s = true) : context.idString ∈ s.modules := by
  by_contra hno
  have hloop := checkModuleLoop_of_notMem answers.moduleName 0 hno
  rw [checkModuleInPolicy] at h
  split at h
  · cases h
  split at h
  · cases h
  · rw [hloop] at h
    cases h

/-- A module that was dropped is not found. -/
theorem checkModuleInPolicy_dropped (answers : SelinuxAnswers) {modules : List CStr}
    (h : s.modules = dropModule context.idString modules) :
    checkModuleInPolicy answers context s = false := by
  rw [Bool.eq_false_iff]
  intro hin
  have hmem := checkModuleInPolicy_mem hin
  rw [h, dropModule, List.mem_filter] at hmem
  exact of_decide_eq_true hmem.2 rfl

/-- The checks find what is there when none of their calls fails. -/
theorem SelinuxAnswers.Checks.found {answers : SelinuxAnswers} (h : answers.Checks)
    (hfiles : ∀ f : ModuleFile, (s.files (f.path env context)).isSome) {modules : List CStr}
    (hmodules : s.modules = context.idString :: modules) :
    checkModuleFilesExist env answers context s = true ∧
      checkModuleInPolicy answers context s = true := by
  obtain ⟨hte, hfc, hif, hconn, hlist, hname⟩ := h
  have hhandle : ¬ createSemanageHandle answers.checkHandle < 0 := by
    rw [createSemanageHandle_lt_zero_iff, not_not]
    exact hconn
  constructor
  · simp [checkModuleFilesExist, fileExists, selinuxTeFile_eq, selinuxFcFile_eq, selinuxIfFile_eq,
      hte, hfc, hif, hfiles]
  · simp [checkModuleInPolicy, hhandle, hlist, hmodules, checkModuleLoop, hname]

/-- Without the te file no check finds the files. -/
theorem checkModuleFilesExist_gone (answers : SelinuxAnswers)
    (h : s.files (ModuleFile.te.path env context) = none) :
    checkModuleFilesExist env answers context s = false := by
  simp [checkModuleFilesExist, fileExists, selinuxTeFile_eq, h]

/-- Without its te file an application is not uninstalled again. -/
theorem selinuxUninstall_gone (answers : SelinuxRemoval) (hid : context.id 0 ≠ 0)
    (h : s.files (ModuleFile.te.path env context) = none) :
    selinuxUninstall env answers context s = (-ENOENT, s) := by
  rw [selinuxUninstall, if_neg hid, checkModuleFilesExist_gone answers.before h]
  exact if_pos Bool.false_ne_true

/-! ## The removal -/

/-- What a removal can do. -/
inductive Removal (env : SelinuxEnv) (answers : SelinuxRemoval) (context : Context)
    (s : SelinuxSystem) : Int × SelinuxSystem → Prop
  | refused {rc : Int} : rc < 0 → ¬ answers.Checked env context s →
      Removal env answers context s (rc, s)
  | stopped {rc : Int} {done : List ModuleFile} {f : ModuleFile} {rest : List ModuleFile} :
      rc < 0 → answers.Checked env context s → removalOrder = done ++ f :: rest →
      ¬ answers.Removable env context s f →
      Removal env answers context s (rc, s.without env context done)
  | kept {rc : Int} : rc < 0 → answers.Checked env context s →
      ¬ answers.Reported context s →
      Removal env answers context s (rc, s.without env context removalOrder)
  | silent : answers.Checked env context s → (∀ f, answers.Removable env context s f) →
      answers.Reported context s → ¬ answers.Drops →
      Removal env answers context s (0, s.without env context removalOrder)
  | removed : answers.Checked env context s → (∀ f, answers.Removable env context s f) →
      answers.Reported context s → answers.Drops →
      Removal env answers context s (0, s.cleared env context)

/-- Every file of the module is removed. -/
theorem mem_removalOrder (f : ModuleFile) : f ∈ removalOrder := by
  cases f <;> decide

/-- The removal, by the call that ends it. -/
theorem selinuxUninstall_cases (env : SelinuxEnv) (answers : SelinuxRemoval) (context : Context)
    (s : SelinuxSystem) :
    Removal env answers context s (selinuxUninstall env answers context s) := by
  have hinval : -EINVAL < 0 := by decide
  have hnoent : -ENOENT < 0 := by decide
  have herror : (-1 : Int) < 0 := by decide
  rw [selinuxUninstall]
  split
  · rename_i hid
    exact .refused hinval fun hc => hc.id hid
  rename_i hid
  split
  · rename_i hfiles
    exact .refused hnoent fun hc => hfiles hc.files
  rename_i hfiles
  split
  · rename_i hpolicy
    exact .refused hnoent fun hc => hpolicy hc.policy
  rename_i hpolicy
  have hchecked : answers.Checked env context s := ⟨hid, not_not.1 hfiles, not_not.1 hpolicy⟩
  have hmem : context.idString ∈ (s.without env context removalOrder).modules :=
    checkModuleInPolicy_mem hchecked.policy
  have hgone : (s.without env context removalOrder).files (ModuleFile.te.path env context) = none :=
    by rw [s.without_files, if_pos (mem_removalOrder _)]
  have hnodup : ([] ++ removalOrder).Nodup := by decide
  have hfiles := @removeFiles_cases env context answers s _ _ hnodup
  rw [s.without_nil, List.nil_append] at hfiles
  rw [removeSelinuxRules_eq]
  generalize removeFiles env context answers.fault removalOrder s = r at hfiles ⊢
  dsimp only
  obtain ⟨hall, rfl⟩ | ⟨done, f, rest, horder, -, hf, hneg, hleft⟩ := hfiles
  · have hall : ∀ f, answers.Removable env context s f := fun f => hall f (mem_removalOrder f)
    rw [if_neg (lt_irrefl 0)]
    split
    · rename_i hrc
      exact .kept hrc hchecked fun hr => (createSemanageHandle_lt_zero_iff _).1 hrc hr.1
    rename_i hrc
    have hconn : answers.during.handle.Connected := by
      rwa [createSemanageHandle_lt_zero_iff, not_not] at hrc
    obtain ⟨hdrops, hcode, heq⟩ | ⟨hno, hsilent, heq⟩ | ⟨hno, hloud, hcode, heq⟩ :=
      removeModule_cases answers hmem
    · have hcleared : (removeModule answers context (s.without env context removalOrder)).2 =
          s.cleared env context := heq
      have hte : (s.cleared env context).files (ModuleFile.te.path env context) = none := hgone
      have hmodules : (s.cleared env context).modules = dropModule context.idString s.modules := rfl
      rw [if_neg (not_lt.2 hcode), hcleared, checkModuleFilesExist_gone answers.after hte,
        checkModuleInPolicy_dropped answers.after hmodules]
      exact .removed hchecked hall ⟨hconn, .inl hdrops⟩ hdrops
    · rw [heq, if_neg (lt_irrefl 0), checkModuleFilesExist_gone answers.after hgone]
      cases hseen : checkModuleInPolicy answers.after context (s.without env context removalOrder)
      · exact .silent hchecked hall ⟨hconn, .inr ⟨hsilent, hseen⟩⟩ hno
      · refine .kept herror hchecked fun hr => ?_
        rcases hr.2 with hdrops | ⟨-, hblind⟩
        · exact hno hdrops
        · exact Bool.noConfusion (hseen.symm.trans hblind)
    · rw [if_pos hcode, heq]
      refine .kept hcode hchecked fun hr => ?_
      rcases hr.2 with hdrops | ⟨hsilent, -⟩
      · exact hno hdrops
      · exact hloud hsilent
  · rw [if_pos hneg, if_pos hneg, hleft]
    exact .stopped hneg hchecked horder hf

/-- When all calls do what they should, the system is cleared. -/
theorem Removal.done {r : Int × SelinuxSystem} (h : Removal env answers context s r)
    (hchecked : answers.Checked env context s) (hall : ∀ f, answers.Removable env context s f)
    (hreported : answers.Reported context s) (hdrops : answers.Drops) :
    r = (0, s.cleared env context) := by
  cases h with
  | refused _ hno => exact absurd hchecked hno
  | stopped _ _ _ hf => exact absurd (hall _) hf
  | kept _ _ hno => exact absurd hreported hno
  | silent _ _ _ hno => exact absurd hdrops hno
  | removed => rfl

/-! ## Main results -/

/-- **When a removal is reported**: every file is there and removed, and the removal of the module
is done or fails without being seen. Then the files are gone, and the module with them or not. -/
theorem selinux_uninstall_iff (env : SelinuxEnv) (answers : SelinuxRemoval) (context : Context)
    (s : SelinuxSystem) :
    let r := selinuxUninstall env answers context s
    (r.1 ≥ 0 ↔ answers.Checked env context s ∧ (∀ f, answers.Removable env context s f) ∧
        answers.Reported context s) ∧
      (r.1 ≥ 0 → (answers.Drops ∧ r.2 = s.cleared env context) ∨
        (¬ answers.Drops ∧ r.2 = s.without env context removalOrder)) := by
  intro r
  have hcases : Removal env answers context s r := selinuxUninstall_cases env answers context s
  clear_value r
  cases hcases with
  | refused hrc hno =>
    exact ⟨iff_of_false (not_le.2 hrc) fun h => hno h.1, fun h => absurd h (not_le.2 hrc)⟩
  | stopped hrc _ _ hf =>
    exact ⟨iff_of_false (not_le.2 hrc) fun h => hf (h.2.1 _), fun h => absurd h (not_le.2 hrc)⟩
  | kept hrc _ hno =>
    exact ⟨iff_of_false (not_le.2 hrc) fun h => hno h.2.2, fun h => absurd h (not_le.2 hrc)⟩
  | silent hchecked hall hr hno =>
    exact ⟨iff_of_true (le_refl 0) ⟨hchecked, hall, hr⟩, fun _ => .inr ⟨hno, rfl⟩⟩
  | removed hchecked hall hr hdrops =>
    exact ⟨iff_of_true (le_refl 0) ⟨hchecked, hall, hr⟩, fun _ => .inl ⟨hdrops, rfl⟩⟩

/-- Attempts to remove, one after the other. -/
def uninstalls (env : SelinuxEnv) (context : Context) (attempts : List SelinuxRemoval)
    (s : SelinuxSystem) : SelinuxSystem :=
  attempts.foldl (fun s answers => (selinuxUninstall env answers context s).2) s

/-- What an attempt has changed. -/
structure Attempted (env : SelinuxEnv) (context : Context) (s s' : SelinuxSystem) : Prop where
  id : context.id 0 ≠ 0
  gone : s'.files (ModuleFile.te.path env context) = none
  left : (∃ done, done ≠ [] ∧ done <+: removalOrder ∧ s' = s.without env context done) ∨
    s' = s.cleared env context

/-- An attempt changes nothing, or the te file is gone after it. -/
theorem Removal.effect {r : Int × SelinuxSystem} (h : Removal env answers context s r) :
    r.2 = s ∨ Attempted env context s r.2 := by
  have hgone : ∀ {done : List ModuleFile}, ModuleFile.te ∈ done →
      (s.without env context done).files (ModuleFile.te.path env context) = none := by
    intro done hm
    rw [s.without_files, if_pos hm]
  have hall : removalOrder ≠ [] := nofun
  cases h with
  | refused => exact .inl rfl
  | @stopped rc done f rest _ hchecked horder =>
    cases done with
    | nil => exact .inl s.without_nil
    | cons g done =>
      obtain ⟨rfl, -⟩ := List.cons.inj horder
      exact .inr ⟨hchecked.id, hgone List.mem_cons_self,
        .inl ⟨.te :: done, List.cons_ne_nil _ _, ⟨f :: rest, horder.symm⟩, rfl⟩⟩
  | kept _ hchecked =>
    exact .inr ⟨hchecked.id, hgone (mem_removalOrder _), .inl ⟨_, hall, List.prefix_rfl, rfl⟩⟩
  | silent hchecked =>
    exact .inr ⟨hchecked.id, hgone (mem_removalOrder _), .inl ⟨_, hall, List.prefix_rfl, rfl⟩⟩
  | removed hchecked => exact .inr ⟨hchecked.id, hgone (mem_removalOrder _), .inr rfl⟩

/-- Once the te file is gone no attempt changes anything. -/
theorem uninstalls_gone (hid : context.id 0 ≠ 0)
    (h : s.files (ModuleFile.te.path env context) = none) (attempts : List SelinuxRemoval) :
    uninstalls env context attempts s = s := by
  induction attempts with
  | nil => rfl
  | cons answers attempts ih =>
    rw [uninstalls, List.foldl_cons, selinuxUninstall_gone answers hid h]
    exact ih

/-- **A removal is attempted once.** Of any attempts at most one changes the system: it removes
everything, or some of the files in their order and never the module; and whatever it left, every
attempt after it is refused. -/
theorem selinux_uninstall_once (env : SelinuxEnv) (context : Context)
    (attempts : List SelinuxRemoval) (s : SelinuxSystem) :
    uninstalls env context attempts s = s ∨
      ∃ earlier answers later, attempts = earlier ++ answers :: later ∧
        uninstalls env context earlier s = s ∧
        let s' := (selinuxUninstall env answers context s).2
        uninstalls env context attempts s = s' ∧
          ((∃ done, done ≠ [] ∧ done <+: removalOrder ∧ s' = s.without env context done) ∨
            s' = s.cleared env context) ∧
          ∀ again, selinuxUninstall env again context s' = (-ENOENT, s') := by
  induction attempts with
  | nil => exact .inl rfl
  | cons answers attempts ih =>
    have hstep : uninstalls env context (answers :: attempts) s =
        uninstalls env context attempts (selinuxUninstall env answers context s).2 := rfl
    obtain hsame | hchanged := (selinuxUninstall_cases env answers context s).effect
    · rw [hstep, hsame]
      obtain hnone | ⟨earlier, answers', later, rfl, hearlier, hrest⟩ := ih
      · exact .inl hnone
      · refine .inr ⟨answers :: earlier, answers', later, rfl, ?_, hrest⟩
        rw [uninstalls, List.foldl_cons, hsame]
        exact hearlier
    · refine .inr ⟨[], answers, attempts, rfl, rfl, ?_, hchanged.left,
        fun again => selinuxUninstall_gone again hchanged.id hchanged.gone⟩
      rw [hstep]
      exact uninstalls_gone hchanged.id hchanged.gone attempts

/-! ## An installation and its removal -/

/-- What a creation of the rules leaves when no step fails: the files of the module are written,
the others are as they were, and the module is the first of the policy. -/
theorem createSelinuxRules_done {answers : SelinuxAnswers} (hfresh : s.Fresh env context)
    (hs : answers.Succeeds env context) (definitions : PathType → CStr) :
    let s₁ := (createSelinuxRules env answers context definitions s).2
    (∀ f : ModuleFile, (s₁.files (f.path env context)).isSome) ∧
      (∀ file, (∀ f : ModuleFile, file ≠ f.path env context) → s₁.files file = s.files file) ∧
      s₁.modules = context.idString :: s.modules ∧ s₁.labels = s.labels := by
  intro s₁
  obtain ⟨hinstall, ⟨code, hcommit⟩, pp, hcompiled, hname⟩ := hs.installs
  have hhandle : ¬ createSemanageHandle answers.handle < 0 := by
    rw [createSemanageHandle_lt_zero_iff, not_not]
    exact hs.connected
  have hgenerated : generateAppModuleFiles env answers context definitions s =
      (0, s.withFc env answers context (fcText definitions context.pathSet)) := by
    obtain ⟨-, hno⟩ | ⟨-, heq⟩ :=
      (generateAppModuleFiles_cases env answers context definitions s).outcome
    · exact absurd hs.generates hno
    · exact heq
  generalize hsources : s.withFc env answers context (fcText definitions context.pathSet) = s₀
    at hgenerated
  have hlaunched : ∃ rc, ¬ rc < 0 ∧ launchCompile env answers context s₀ =
      (rc, s₀.write (ModuleFile.pp.path env context) pp) := by
    simp only [launchCompile, hs.launches.1, hs.launches.2, hcompiled, selinuxPpFile_eq]
    cases answers.status with
    | exited code => exact ⟨0, lt_irrefl 0, rfl⟩
    | signaled status => exact ⟨status, not_lt.2 (Int.natCast_nonneg _), rfl⟩
  obtain ⟨rc, hrc, hlaunched⟩ := hlaunched
  have hpp : (s₀.write (ModuleFile.pp.path env context) pp).files
      (ModuleFile.pp.path env context) = some pp := by
    rw [write_files, if_pos rfl]
  have hs₁ : s₁ = { s₀.write (ModuleFile.pp.path env context) pp with
      modules := s₀.modules.insert context.idString } := by
    simp only [s₁, createSelinuxRules, hhandle, hgenerated, hlaunched, hrc, lt_irrefl, if_false,
      installModule, hinstall, hcommit, selinuxPpFile_eq, hpp, hname]
    exact if_neg (not_lt.2 (Int.natCast_nonneg code)) ▸ rfl
  rw [hs₁, ← hsources]
  refine ⟨fun f => ?_, fun file hfile => ?_, ?_, rfl⟩
  · simp only [SelinuxSystem.withFc, SelinuxSystem.withIf, SelinuxSystem.withTe, write_files]
    cases f <;> rfl
  · simp only [SelinuxSystem.withFc, SelinuxSystem.withIf, SelinuxSystem.withTe,
      SelinuxSystem.write, Function.update_of_ne (hfile _)]
  · exact List.insert_of_not_mem hfresh.modules

/-- The label that a path gets. -/
def pathLabel (definitions : PathType → CStr) (path : Path) : CStr :=
  .snprintf (SEC_LSM_MANAGER_MAX_SIZE_LABEL + 3) (definitions path.pathType ++ .lit ":s0")

/-- The loop on the paths when no step fails: the paths get their labels, and nothing else. -/
theorem processPathsLoop_done {answers : SelinuxAnswers} (definitions : PathType → CStr) :
    ∀ {i : Nat} {paths : List Path} (s : SelinuxSystem), answers.LabelsFrom i paths →
      (paths.map Path.path).Nodup →
      ∃ labels, processPathsLoop answers definitions i paths s = (0, { s with labels }) ∧
        (∀ path ∈ paths, labels path.path = some (pathLabel definitions path)) ∧
        ∀ q, q ∉ paths.map Path.path → labels q = s.labels q
  | _, [], s, _, _ => ⟨s.labels, rfl, nofun, fun _ _ => rfl⟩
  | i, path :: paths, s, hlabels, hnodup => by
    obtain ⟨⟨hstat, hset⟩, hrest⟩ := hlabels
    rw [List.map_cons, List.nodup_cons] at hnodup
    obtain ⟨labels, heq, hpaths, hothers⟩ := processPathsLoop_done definitions
      { s with labels := Function.update s.labels path.path (some (pathLabel definitions path)) }
      hrest hnodup.2
    refine ⟨labels, ?_, List.forall_mem_cons.2 ⟨?_, hpaths⟩, fun q hq => ?_⟩
    · rw [processPathsLoop]
      simp only [labelFile, not_lt.2 hstat, hset, lt_irrefl, if_false]
      exact heq
    · rw [hothers _ hnodup.1]
      exact Function.update_self _ _ _
    · rw [List.map_cons, List.mem_cons, not_or] at hq
      rw [hothers q hq.2]
      exact Function.update_of_ne hq.1 _ _

/-- No step of a removal fails. -/
structure SelinuxRemoval.Succeeds (answers : SelinuxRemoval) : Prop where
  checks : answers.before.Checks
  removes : ∀ f, answers.fault f = none
  connected : answers.during.handle.Connected
  drops : answers.Drops

/-- **An installation is undone by its removal**, but for the labels of the paths: the files and
the policy are as they were, and each path keeps the label that the installation gave it. The paths
of a context in order are distinct (`Context.Inv.paths_distinct`). -/
theorem selinux_install_uninstall (env : SelinuxEnv) (answers : SelinuxAnswers)
    (removal : SelinuxRemoval) (context : Context) (s : SelinuxSystem) (hid : context.id 0 ≠ 0)
    (hdistinct : (context.pathSet.map Path.path).Nodup) (hfresh : s.Fresh env context)
    (hs : answers.Succeeds env context) (hr : removal.Succeeds) :
    let definitions := Selinux.initPathTypeDefinitions answers.labelMem
      (trfid answers.idMem context.idString)
    let installed := selinuxInstall env answers context s
    let removed := selinuxUninstall env removal context installed.2
    installed.1 = 0 ∧ removed.1 = 0 ∧ removed.2.files = s.files ∧
      removed.2.modules = s.modules ∧
      (∀ path ∈ context.pathSet,
        removed.2.labels path.path = some (pathLabel definitions path)) ∧
      ∀ q, q ∉ context.pathSet.map Path.path → removed.2.labels q = s.labels q := by
  intro definitions installed removed
  obtain ⟨hfiles, hothers, hmodules, hlabels⟩ := createSelinuxRules_done hfresh hs definitions
  have hrules := createSelinuxRules_spec answers hfresh definitions
  generalize hcall : createSelinuxRules env answers context definitions s = r₁
    at hfiles hothers hmodules hlabels hrules
  obtain ⟨-, hno, -⟩ | ⟨hrc, -, -, -, hmodule⟩ := hrules
  · exact absurd hs hno
  have hfound : checkModuleFilesExist env answers context r₁.2 ∧
      checkModuleInPolicy answers context r₁.2 :=
    (checks_iff (fun f _ => hfiles f) hmodule).2 ⟨hs.installs, hs.checks⟩
  -- the paths are labelled
  obtain ⟨labels, hpaths, hset, hkept⟩ :=
    processPathsLoop_done definitions r₁.2 hs.labels hdistinct
  have hinstalled : installed = (0, { r₁.2 with labels }) := by
    simp only [installed, selinuxInstall, if_neg hid]
    rw [show Selinux.initPathTypeDefinitions answers.labelMem
      (trfid answers.idMem context.idString) = definitions from rfl, hcall]
    simp only [not_lt.2 hrc, hfound.1, hfound.2, not_true_eq_false, selinuxProcessPaths, hpaths,
      lt_irrefl, if_false]
  have hchecked : removal.Checked env context installed.2 := by
    rw [hinstalled]
    obtain ⟨hexist, hpolicy⟩ := hr.checks.found (s := { r₁.2 with labels }) hfiles hmodules
    exact ⟨hid, hexist, hpolicy⟩
  have hremovable : ∀ f, removal.Removable env context installed.2 f := by
    rw [hinstalled]
    exact fun f => ⟨hr.removes f, hfiles f⟩
  have hremoved : removed = (0, installed.2.cleared env context) :=
    (selinuxUninstall_cases env removal context installed.2).done hchecked hremovable
      ⟨hr.connected, .inl hr.drops⟩ hr.drops
  rw [hremoved, hinstalled]
  refine ⟨rfl, rfl, funext fun file => ?_, ?_, hset, fun q hq => ?_⟩
  · simp only [SelinuxSystem.cleared, SelinuxSystem.without]
    split
    · rename_i hfile
      obtain ⟨f, -, rfl⟩ := List.mem_map.1 hfile
      exact (hfresh.files f).symm
    · rename_i hfile
      exact hothers file fun f heq => hfile (List.mem_map.2 ⟨f, mem_removalOrder f, heq.symm⟩)
  · simp only [SelinuxSystem.cleared, hmodules, dropModule]
    rw [List.filter_cons_of_neg (by simp), List.filter_eq_self]
    intro name hname
    exact decide_eq_true fun heq => hfresh.modules (heq ▸ hname)
  · exact (hkept q hq).trans (congrFun hlabels q)

/-- An application with a file, installed and removed. -/
theorem selinux_install_uninstall_plain :
    let env : SelinuxEnv := ⟨.lit "/r", .ofBytes⟩
    let context := (contextCreate fun _ => 0).run
      [.setId (.lit "ab"), .addPath .plain (.lit "/a") (.lit "conf")]
    let answers := SelinuxAnswers.all [97, 98]
    let removal : SelinuxRemoval := ⟨answers, answers, none, 0, .ok 0, answers⟩
    let definitions := Selinux.initPathTypeDefinitions answers.labelMem
      (trfid answers.idMem context.idString)
    let installed := selinuxInstall env answers context .blank
    let removed := selinuxUninstall env removal context installed.2
    installed.1 = 0 ∧ removed.1 = 0 ∧ removed.2.files = SelinuxSystem.blank.files ∧
      removed.2.modules = SelinuxSystem.blank.modules ∧
      (∀ path ∈ context.pathSet,
        removed.2.labels path.path = some (pathLabel definitions path)) ∧
      ∀ q, q ∉ context.pathSet.map Path.path → removed.2.labels q =
        SelinuxSystem.blank.labels q := by
  intro env context answers removal
  have hconn : HandleAnswers.Connected ⟨none, none, none⟩ := ⟨rfl, rfl, rfl⟩
  have hpaths : context.pathSet = [⟨.lit "/a", .typeConf⟩] := by decide +kernel
  have hinv : context.Inv := (Context.Inv.of_empty _ _).run _
  refine selinux_install_uninstall env answers removal context .blank (by decide +kernel)
    hinv.paths_distinct ⟨fun _ => rfl, List.not_mem_nil⟩ ?_ ?_
  · have hrendered : TemplateAnswers.Rendered ⟨none, none, 0, []⟩ := ⟨rfl, rfl, le_refl 0⟩
    refine ⟨hconn, ⟨hrendered, hrendered, rfl, fun _ _ => rfl⟩, ⟨rfl, rfl⟩,
      ⟨rfl, ⟨0, rfl⟩, [97, 98], rfl, by decide +kernel⟩, ⟨rfl, rfl, rfl, hconn, rfl, rfl⟩, ?_⟩
    rw [hpaths]
    exact ⟨⟨by decide +kernel, rfl⟩, trivial⟩
  · exact ⟨⟨rfl, rfl, rfl, hconn, rfl, rfl⟩, fun f => by cases f <;> rfl, hconn, rfl, 0, rfl⟩

end SecLsmManager

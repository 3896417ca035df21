import SecLsmManager.Policy.SelinuxInstall

/-!
# What a creation of SELinux rules that is reported has done

`create_selinux_rules` carries the codes of its steps. They do not say that the compile script
failed, that a file was not written to its end, or that libsemanage failed and left 0 in `errno`
(`create_selinux_rules_truthful`).
-/

namespace SecLsmManager

section
variable (env : SelinuxEnv) (answers : SelinuxAnswers) (context : Context)

/-! ## Steps -/

/-- `errno` after the first call to libsemanage that fails, where the pp file is `pp`. -/
def SelinuxAnswers.libraryErrno (pp : Option (List UInt8)) : Option Nat :=
  match answers.installFile, pp, answers.commit with
  | some errno, _, _ => some errno
  | none, none, _ => some answers.noFile
  | none, some _, .error errno => some errno
  | none, some _, .ok _ => none

/-- The pp file after the compile script. -/
def SelinuxAnswers.ppAfter (pp : Option (List UInt8)) : Option (List UInt8) :=
  answers.compiled.or pp

/-- The library installs the module, or an error is returned and nothing has changed. -/
theorem installModule_cases (s : SelinuxSystem) :
    (answers.libraryErrno (s.files (ModuleFile.pp.path env context)) = none ∧
      0 ≤ (installModule env answers context s).1 ∧
      (installModule env answers context s).2.files = s.files) ∨
    ∃ errno, answers.libraryErrno (s.files (ModuleFile.pp.path env context)) = some errno ∧
      installModule env answers context s = (-(errno : Int), s) := by
  rw [installModule, selinuxPpFile_eq]
  unfold SelinuxAnswers.libraryErrno
  cases answers.installFile with
  | some errno => exact .inr ⟨errno, rfl, rfl⟩
  | none =>
    cases s.files (ModuleFile.pp.path env context) with
    | none => exact .inr ⟨answers.noFile, rfl, rfl⟩
    | some pp =>
      cases answers.commit with
      | error errno => exact .inr ⟨errno, rfl, rfl⟩
      | ok rc => exact .inl ⟨rfl, Int.natCast_nonneg rc, rfl⟩

/-- The compiler is launched, whatever it leaves of the pp file, or not. -/
theorem launchCompile_cases (s : SelinuxSystem) :
    (¬ answers.Launches ∧ (launchCompile env answers context s).1 < 0) ∨
    (answers.Launches ∧ 0 ≤ (launchCompile env answers context s).1 ∧
      ∀ f : ModuleFile, (launchCompile env answers context s).2.files (f.path env context) =
        if f = .pp then answers.ppAfter (s.files (f.path env context))
        else s.files (f.path env context)) := by
  rw [launchCompile, selinuxPpFile_eq]
  cases hfork : answers.vfork with
  | some e => exact .inl ⟨fun h => by simp [h.1] at hfork, Int.neg_neg_of_pos e.pos⟩
  | none =>
    cases hwait : answers.waitpid with
    | some e => exact .inl ⟨fun h => by simp [h.2] at hwait, Int.neg_neg_of_pos e.pos⟩
    | none =>
      refine .inr ⟨⟨hfork, hwait⟩, ?_⟩
      cases answers.status with
      | exited code =>
        refine ⟨le_refl 0, fun f => ?_⟩
        cases hcompiled : answers.compiled <;> simp [SelinuxAnswers.ppAfter, hcompiled]
      | signaled status =>
        refine ⟨Int.natCast_nonneg status, fun f => ?_⟩
        cases hcompiled : answers.compiled <;> simp [SelinuxAnswers.ppAfter, hcompiled]

/-! ## What is reported -/

/-- Nothing fails of what `create_selinux_rules` looks at; `pp` is the pp file before. -/
structure SelinuxAnswers.Reports (pp : Option (List UInt8)) : Prop where
  connected : answers.handle.Connected
  generates : answers.Generates context
  launches : answers.Launches
  library : ∀ errno, answers.libraryErrno (answers.ppAfter pp) = some errno → errno = 0

/-- The creation succeeds when nothing fails of what it looks at, and the files are then there. -/
theorem createSelinuxRules_cases (definitions : PathType → CStr) (s : SelinuxSystem) :
    let r := createSelinuxRules env answers context definitions s
    let pp := s.files (ModuleFile.pp.path env context)
    (r.1 < 0 ∧ ¬ answers.Reports context pp) ∨
    (0 ≤ r.1 ∧ answers.Reports context pp ∧
      r.2.files (ModuleFile.te.path env context) = some answers.te.text ∧
      r.2.files (ModuleFile.iface.path env context) = some answers.iface.text ∧
      r.2.files (ModuleFile.fc.path env context) =
        some (answers.closeFc.getD (fcText definitions context.pathSet))) := by
  intro r pp
  by_cases hhandle : createSemanageHandle answers.handle < 0
  · have hr : r = (createSemanageHandle answers.handle, s) := by
      simp only [r, createSelinuxRules, if_pos hhandle]
    rw [hr]
    exact .inl ⟨hhandle, fun h => (createSemanageHandle_lt_zero_iff _).1 hhandle h.connected⟩
  have hconnected : answers.handle.Connected := by
    rwa [createSemanageHandle_lt_zero_iff, not_not] at hhandle
  have hgeneration := generateAppModuleFiles_cases env answers context definitions s
  rcases hgeneration.outcome with ⟨hrc, hno⟩ | ⟨hgenerates, hfiles⟩
  · have hr : r = generateAppModuleFiles env answers context definitions s := by
      simp only [r, createSelinuxRules, if_neg hhandle, if_pos hrc]
    rw [hr]
    exact .inl ⟨hrc, fun h => hno h.generates⟩
  set t := s.withFc env answers context (fcText definitions context.pathSet) with ht
  have hkept : t.files (ModuleFile.pp.path env context) = pp := by
    simp [t, SelinuxSystem.withFc, SelinuxSystem.withIf, SelinuxSystem.withTe, pp]
  have hlaunch := launchCompile_cases env answers context t
  have hinstall := installModule_cases env answers context
    (launchCompile env answers context t).2
  cases hcompile : launchCompile env answers context t with | mk rc s₂ =>
  simp only [hcompile] at hlaunch hinstall
  simp only [r, createSelinuxRules, if_neg hhandle, hfiles, hcompile, Int.lt_irrefl, if_false]
  rcases hlaunch with ⟨hno, hrc⟩ | ⟨hlaunches, hrc, hleft⟩
  · rw [if_pos hrc]
    exact .inl ⟨hrc, fun h => hno h.launches⟩
  rw [if_neg (not_lt.2 hrc)]
  have hpp : s₂.files (ModuleFile.pp.path env context) = answers.ppAfter pp := by
    rw [hleft .pp, if_pos rfl, hkept]
  rw [hpp] at hinstall
  -- the three files are those of the generation, whatever the installation says
  have hsources : s₂.files (ModuleFile.te.path env context) = some answers.te.text ∧
      s₂.files (ModuleFile.iface.path env context) = some answers.iface.text ∧
      s₂.files (ModuleFile.fc.path env context) =
        some (answers.closeFc.getD (fcText definitions context.pathSet)) := by
    simp [hleft, t, SelinuxSystem.withFc, SelinuxSystem.withIf, SelinuxSystem.withTe]
  cases hcall : installModule env answers context s₂ with | mk rc' s₃ =>
  simp only [hcall] at hinstall ⊢
  rcases hinstall with ⟨hlibrary, hrc', hsame⟩ | ⟨errno, hlibrary, heq⟩
  · have hreports : answers.Reports context pp :=
      ⟨hconnected, hgenerates, hlaunches, fun errno he => by simp [hlibrary] at he⟩
    rw [if_neg (not_lt.2 hrc')]
    refine .inr ⟨hrc', hreports, ?_⟩
    rwa [hsame]
  · obtain ⟨rfl, rfl⟩ := Prod.mk.inj heq
    rcases Nat.eq_zero_or_pos errno with rfl | hpos
    · have hreports : answers.Reports context pp :=
        ⟨hconnected, hgenerates, hlaunches, fun errno he => by simpa [hlibrary, eq_comm] using he⟩
      have hzero : -((0 : Nat) : Int) = 0 := rfl
      rw [hzero, if_neg (lt_irrefl 0)]
      exact .inr ⟨le_refl 0, hreports, hsources⟩
    · have hrc' : -(errno : Int) < 0 := by omega
      rw [if_pos hrc']
      exact .inl ⟨hrc', fun h => hpos.ne' (h.library errno hlibrary)⟩

/-! ## What is so -/

/-- The rules are created: the te and if files hold the texts `te` and `iface` of their templates
and the fc file a line for each path, the script has ended with 0, and libsemanage has installed
and committed the pp file. -/
structure RulesCreated (definitions : PathType → CStr) (te iface : List UInt8)
    (s s' : SelinuxSystem) : Prop where
  te : s'.files (ModuleFile.te.path env context) = some te
  iface : s'.files (ModuleFile.iface.path env context) = some iface
  fc : s'.files (ModuleFile.fc.path env context) = some (fcText definitions context.pathSet)
  compiled : answers.Launches ∧ answers.status = .exited 0
  installed : answers.installFile = none ∧
    (answers.ppAfter (s.files (ModuleFile.pp.path env context))).isSome
  committed : ∃ rc, answers.commit = .ok rc

/-- A failure without a code: a file is not written to its end, the script fails, or libsemanage
fails and leaves 0 in `errno`. -/
def SelinuxAnswers.Silent (definitions : PathType → CStr) (te iface : List UInt8)
    (pp : Option (List UInt8)) : Prop :=
  answers.te.text ≠ te ∨ answers.iface.text ≠ iface ∨
    answers.closeFc.getD (fcText definitions context.pathSet) ≠
      fcText definitions context.pathSet ∨
    answers.status ≠ .exited 0 ∨ answers.libraryErrno (answers.ppAfter pp) = some 0

/-- No call of the library fails. -/
theorem libraryErrno_eq_none_iff (pp : Option (List UInt8)) :
    answers.libraryErrno pp = none ↔
      answers.installFile = none ∧ pp.isSome ∧ ∃ rc, answers.commit = .ok rc := by
  unfold SelinuxAnswers.libraryErrno
  cases answers.installFile with
  | some errno => simp
  | none =>
    cases pp with
    | none => simp
    | some pp => cases answers.commit <;> simp

end

/-- **A creation of rules that is reported is one** exactly unless, where nothing else fails, there
is a failure without a code. -/
theorem create_selinux_rules_truthful (env : SelinuxEnv) (answers : SelinuxAnswers)
    (context : Context) (definitions : PathType → CStr) (te iface : List UInt8)
    (s : SelinuxSystem) :
    let r := createSelinuxRules env answers context definitions s
    let pp := s.files (ModuleFile.pp.path env context)
    (0 ≤ r.1 → RulesCreated env answers context definitions te iface s r.2) ↔
      ¬ (answers.Reports context pp ∧ answers.Silent context definitions te iface pp) := by
  intro r pp
  rcases createSelinuxRules_cases env answers context definitions s with
    ⟨hrc, hno⟩ | ⟨hrc, hreports, hte, hif, hfc⟩
  · exact iff_of_true (fun h => absurd hrc (not_lt.2 h)) fun h => hno h.1
  constructor
  · rintro h ⟨-, hsilent⟩
    have hcreated := h hrc
    have hnone := (libraryErrno_eq_none_iff answers (answers.ppAfter pp)).2
      ⟨hcreated.installed.1, hcreated.installed.2, hcreated.committed⟩
    rcases hsilent with hne | hne | hne | hne | hsome
    · exact hne (Option.some.inj (hte.symm.trans hcreated.te))
    · exact hne (Option.some.inj (hif.symm.trans hcreated.iface))
    · exact hne (Option.some.inj (hfc.symm.trans hcreated.fc))
    · exact hne hcreated.compiled.2
    · rw [hnone] at hsome
      cases hsome
  · intro h _
    have hsilent : ¬ answers.Silent context definitions te iface pp := fun hs => h ⟨hreports, hs⟩
    simp only [SelinuxAnswers.Silent, ne_eq, not_or, not_not] at hsilent
    obtain ⟨rfl, rfl, htext, hstatus, hsome⟩ := hsilent
    have hnone : answers.libraryErrno (answers.ppAfter pp) = none := by
      cases herrno : answers.libraryErrno (answers.ppAfter pp) with
      | none => rfl
      | some errno => exact absurd (hreports.library errno herrno ▸ herrno) hsome
    obtain ⟨hinstall, hpp, hcommit⟩ := (libraryErrno_eq_none_iff answers _).1 hnone
    exact ⟨hte, hif, htext ▸ hfc, ⟨hreports.launches, hstatus⟩, ⟨hinstall, hpp⟩, hcommit⟩

/-- The script fails, and the pp file of an earlier installation is installed. -/
theorem create_selinux_rules_stale :
    let env : SelinuxEnv := ⟨.lit "/r", .ofBytes⟩
    let context := (contextCreate fun _ => 0).run [.setId (.lit "ab")]
    let answers := { SelinuxAnswers.all [] with compiled := none, status := .exited 1 }
    let s := SelinuxSystem.blank.write (ModuleFile.pp.path env context) (CStr.lit "old").bytes
    let r := createSelinuxRules env answers context (fun _ => .empty) s
    r.1 = 0 ∧ r.2.modules = [.lit "old"] ∧
      ¬ RulesCreated env answers context (fun _ => .empty) [] [] s r.2 := by
  refine ⟨by decide +kernel, by decide +kernel, fun h => ?_⟩
  exact absurd h.compiled.2 (by simp)

end SecLsmManager

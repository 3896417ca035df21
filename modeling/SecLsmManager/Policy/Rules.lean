import SecLsmManager.Policy.Smack

/-!
# The rules of an application

All that `create_smack_rules` can do (`createSmackRules_cases`), what `remove_smack_rules` does
(`removeSmackRules_eq`), and what the second leaves of the first (`createSmackRules_removed`). A
loading that fails has its file removed at once, so the removal no longer finds the rules that it
may have loaded.
-/

namespace SecLsmManager

variable {κ ρ : Type*}

/-- The file of rules can be read in a set of rules. -/
def RulesReadable (faults : Faults) : Prop :=
  faults.openRules = none ∧ faults.accessesNew = none ∧ faults.accessesAdd = none

instance (faults : Faults) : Decidable (RulesReadable faults) :=
  inferInstanceAs (Decidable (_ ∧ _))

/-- The rules that are read in a text. -/
def readRules (env : SmackEnv κ ρ) (faults : Faults) (text : Option (List UInt8)) : Option ρ :=
  if RulesReadable faults then text.bind env.accessesAdd else none

/-- No file, no rules. -/
theorem readRules_none (env : SmackEnv κ ρ) (faults : Faults) :
    readRules env faults none = none := by
  simp [readRules]

/-- The rules of a file are read, or a negative code tells that they are not. -/
theorem readAccesses_spec (env : SmackEnv κ ρ) (faults : Faults) (file : CStr) (s : System κ) :
    (∃ accesses, readAccesses env faults file s = .ok accesses ∧
        readRules env faults (s.ruleFiles file) = some accesses) ∨
      ∃ rc < 0, readAccesses env faults file s = .error rc ∧
        readRules env faults (s.ruleFiles file) = none := by
  cases h1 : faults.openRules with
  | some e =>
    exact .inr ⟨-e.val, Int.neg_neg_of_pos e.pos, by simp [readAccesses, h1],
      by simp [readRules, RulesReadable, h1]⟩
  | none =>
  cases h2 : s.ruleFiles file with
  | none => exact .inr ⟨-ENOENT, by decide, by simp [readAccesses, h1, h2], readRules_none env _⟩
  | some text =>
  cases h3 : faults.accessesNew with
  | some e =>
    exact .inr ⟨-e.val, Int.neg_neg_of_pos e.pos, by simp [readAccesses, h1, h2, h3],
      by simp [readRules, RulesReadable, h3]⟩
  | none =>
  cases h4 : faults.accessesAdd with
  | some e =>
    exact .inr ⟨-e.val, Int.neg_neg_of_pos e.pos, by simp [readAccesses, h1, h2, h3, h4],
      by simp [readRules, RulesReadable, h4]⟩
  | none =>
  have hreadable : RulesReadable faults := ⟨h1, h3, h4⟩
  cases h5 : env.accessesAdd text with
  | none =>
    exact .inr ⟨-1, by decide, by simp [readAccesses, h1, h2, h3, h4, h5],
      by simp [readRules, hreadable, h5]⟩
  | some accesses =>
    exact .inl ⟨accesses, by simp [readAccesses, h1, h2, h3, h4, h5],
      by simp [readRules, hreadable, h5]⟩

/-! ## Creation -/

/-- The code of an engine that has not failed is its own, whatever writes are lost. -/
theorem rendered_code (env : SmackEnv κ ρ) {faults : Faults} {context : Context}
    (h : (rendered env faults context).1 ≥ 0) :
    (rendered env faults context).1 = (env.fmustach context).1 := by
  unfold rendered at h ⊢
  split at h
  · rfl
  · rfl
  · rename_i e text hwrites
    exact absurd h (not_le.2 (Int.neg_neg_of_pos e.pos))

/-- The text of the rule file is the one of the template, and it is a list of rules that can be
read. -/
def ReadsRules (env : SmackEnv κ ρ) (faults : Faults) (context : Context) (accesses : ρ) : Prop :=
  (rendered env faults context).1 ≥ 0 ∧
    readRules env faults (some (rendered env faults context).2) = some accesses

/-- The rules of the rule file are read, and what has to succeed to load them does. -/
def LoadsRules (env : SmackEnv κ ρ) (faults : Faults) (context : Context) (accesses : ρ) : Prop :=
  (rendered env faults context).1 ≥ 0 ∧
    readRules env faults (some (rendered env faults context).2) = some accesses ∧
    (env.enabled = true → faults.accessesApply = none)

/-- What `create_smack_rules` does with the file `file`. -/
inductive CreatesRules (env : SmackEnv κ ρ) (faults : Faults) (context : Context) (file : CStr)
    (s : System κ) : Int × System κ → Prop
  | notWritten {rc : Int} (hrc : rc < 0)
      (hfault : ¬ (faults.readTemplate = none ∧ faults.openDest = none)) :
      CreatesRules env faults context file s (rc, s)
  | notRendered (hfault : faults.readTemplate = none ∧ faults.openDest = none)
      (hrc : (rendered env faults context).1 < 0) :
      CreatesRules env faults context file s ((rendered env faults context).1, { s with
        ruleFiles := Function.update s.ruleFiles file (some (rendered env faults context).2) })
  | notRead {rc : Int} (hrc : rc < 0)
      (hfault : faults.readTemplate = none ∧ faults.openDest = none)
      (hrendered : (rendered env faults context).1 ≥ 0)
      (hread : readRules env faults (some (rendered env faults context).2) = none) :
      CreatesRules env faults context file s (rc, (removeFile faults.remove file { s with
        ruleFiles := Function.update s.ruleFiles file (some (rendered env faults context).2) }).2)
  | partLoaded {e : Errno} {n : Nat} {accesses : ρ}
      (hfault : faults.readTemplate = none ∧ faults.openDest = none)
      (hreads : ReadsRules env faults context accesses) (henabled : env.enabled = true)
      (happly : faults.accessesApply = some (e, n)) :
      CreatesRules env faults context file s (-e.val, (removeFile faults.remove file { s with
        ruleFiles := Function.update s.ruleFiles file (some (rendered env faults context).2)
        rules := env.accessesApplyPart n accesses s.rules }).2)
  | loaded {accesses : ρ} (hfault : faults.readTemplate = none ∧ faults.openDest = none)
      (hloads : LoadsRules env faults context accesses) :
      CreatesRules env faults context file s (0,
        { s with
          ruleFiles := Function.update s.ruleFiles file (some (rendered env faults context).2)
          rules := if env.enabled then env.accessesApply accesses s.rules else s.rules })

/-- The removal of a file that has just been written. -/
theorem removeFile_written (file : CStr) (text : List UInt8) (k : κ) (s : System κ) :
    (removeFile none file
      { s with ruleFiles := Function.update s.ruleFiles file (some text), rules := k }).2 =
      { s with ruleFiles := Function.update s.ruleFiles file none, rules := k } := by
  simp [removeFile]

/-- **What `create_smack_rules` does**, by the call that ends it. -/
theorem createSmackRules_cases (env : SmackEnv κ ρ) (faults : Faults) (context : Context)
    (hpath : (getSmackRulePath env context.idString).1 ≥ 0)
    (s : System κ) :
    CreatesRules env faults context (getSmackRulePath env context.idString).2 s
      (createSmackRules env faults context s) := by
  simp only [createSmackRules]
  rw [if_neg (not_lt.2 hpath)]
  generalize (getSmackRulePath env context.idString).2 = file
  have hEINVAL : -EINVAL < 0 := by decide
  by_cases hfault : faults.readTemplate = none ∧ faults.openDest = none
  · have htemplate : templateProcess env faults file context s = ((rendered env faults context).1,
        { s with ruleFiles :=
          Function.update s.ruleFiles file (some (rendered env faults context).2) }) := by
      simp only [templateProcess, hfault.1, hfault.2]
    simp only [htemplate]
    split
    · rename_i hrc
      exact .notRendered hfault hrc
    rename_i hneg
    have hrendered : (rendered env faults context).1 ≥ 0 := not_lt.1 hneg
    have hread := readAccesses_spec env faults file { s with
      ruleFiles := Function.update s.ruleFiles file (some (rendered env faults context).2) }
    simp only [Function.update_self] at hread
    obtain ⟨accesses, hok, hrules⟩ | ⟨rc, hrc, herror, hrules⟩ := hread
    · simp only [hok]
      cases henabled : env.enabled with
      | false =>
        have h := @CreatesRules.loaded _ _ env faults context file s accesses hfault
          ⟨hrendered, hrules, by simp [henabled]⟩
        simpa only [henabled, Bool.false_eq_true, if_false] using h
      | true =>
        cases happly : faults.accessesApply with
        | none =>
          have h := @CreatesRules.loaded _ _ env faults context file s accesses hfault
            ⟨hrendered, hrules, fun _ => happly⟩
          simpa only [henabled, if_true] using h
        | some part =>
          obtain ⟨e, n⟩ := part
          simp only [if_true]
          exact .partLoaded hfault ⟨hrendered, hrules⟩ henabled happly
    · simp only [herror]
      exact .notRead hrc hfault hrendered hrules
  · have htemplate : templateProcess env faults file context s = (-EINVAL, s) := by
      rw [templateProcess]
      split
      · rename_i h1 h2
        exact absurd ⟨h1, h2⟩ hfault
      · rfl
    simp only [htemplate, if_pos hEINVAL]
    exact .notWritten hEINVAL hfault

/-- The creation of rules that nothing prevents. -/
theorem createSmackRules_loaded (env : SmackEnv κ ρ) {faults : Faults} {context : Context}
    (hpath : (getSmackRulePath env context.idString).1 ≥ 0)
    (hfault : faults.readTemplate = none ∧ faults.openDest = none) {accesses : ρ}
    (hloads : LoadsRules env faults context accesses) (s : System κ) :
    createSmackRules env faults context s = (0, { s with
      ruleFiles := Function.update s.ruleFiles (getSmackRulePath env context.idString).2
        (some (rendered env faults context).2)
      rules := if env.enabled then env.accessesApply accesses s.rules else s.rules }) := by
  have hcases := createSmackRules_cases env faults context hpath s
  generalize createSmackRules env faults context s = r at hcases ⊢
  cases hcases with
  | notWritten _ h => exact absurd hfault h
  | notRendered _ h => exact absurd h (not_lt.2 hloads.1)
  | notRead _ _ _ h => cases h.symm.trans hloads.2.1
  | partLoaded _ _ henabled h => cases h.symm.trans (hloads.2.2 henabled)
  | loaded _ h =>
    have hsame := h.2.1.symm.trans hloads.2.1
    rw [Option.some.inj hsame]

/-- Without a name for the file nothing is done. -/
theorem createSmackRules_of_path (env : SmackEnv κ ρ) (faults : Faults) (context : Context)
    (hpath : (getSmackRulePath env context.idString).1 < 0) (s : System κ) :
    createSmackRules env faults context s = ((getSmackRulePath env context.idString).1, s) := by
  simp only [createSmackRules, if_pos hpath]

/-! ## Removal -/

/-- What `smack_accesses_clear` makes of the rules, whether it fails or not. -/
def clearAccesses (env : SmackEnv κ ρ) (faults : Faults) (accesses : ρ) (rules : κ) : κ :=
  match faults.accessesClear with
  | none => env.accessesClear accesses rules
  | some (_, n) => env.accessesClearPart n accesses rules

/-- What `remove_load_rules` makes of the rules, when the file has the text `text`. -/
def clearRules (env : SmackEnv κ ρ) (faults : Faults) (text : Option (List UInt8)) (rules : κ) :
    κ :=
  if env.enabled then
    (readRules env faults text).elim rules fun accesses => clearAccesses env faults accesses rules
  else rules

/-- Without a file no rule is cleared. -/
theorem clearRules_none (env : SmackEnv κ ρ) (faults : Faults) (rules : κ) :
    clearRules env faults none rules = rules := by
  simp [clearRules, readRules_none]

/-- What is left of the rules when the rule file cannot be read, or its rules cannot be cleared. -/
def unclearedRules (env : SmackEnv κ ρ) (faults : Faults) (accesses : ρ) (rules : κ) : κ :=
  if RulesReadable faults then clearAccesses env faults accesses rules else rules

/-- The rules of a text are cleared: the calls succeed, or what they leave is no different. -/
theorem clearRules_eq_iff (env : SmackEnv κ ρ) {faults : Faults} (henabled : env.enabled = true)
    {text : List UInt8} {accesses : ρ} (hadd : env.accessesAdd text = some accesses) (rules : κ) :
    clearRules env faults (some text) rules = env.accessesClear accesses rules ↔
      (RulesReadable faults ∧ faults.accessesClear = none) ∨
        unclearedRules env faults accesses rules = env.accessesClear accesses rules := by
  have hleft : clearRules env faults (some text) rules =
      unclearedRules env faults accesses rules := by
    by_cases hreadable : RulesReadable faults
    · simp [clearRules, unclearedRules, readRules, henabled, hreadable, hadd]
    · simp [clearRules, unclearedRules, readRules, hreadable]
  rw [hleft]
  refine ⟨.inr, ?_⟩
  rintro (⟨hreadable, hclear⟩ | h)
  · rw [unclearedRules, if_pos hreadable, clearAccesses, hclear]
  · exact h

/-- `remove_load_rules` changes the rules in the kernel only. -/
theorem removeLoadRules_eq (env : SmackEnv κ ρ) (faults : Faults) (file : CStr) (s : System κ)
    (henabled : env.enabled = true) :
    (removeLoadRules env faults file s).2 =
      { s with rules := clearRules env faults (s.ruleFiles file) s.rules } := by
  unfold removeLoadRules clearRules clearAccesses
  obtain ⟨accesses, hok, hrules⟩ | ⟨rc, -, herror, hrules⟩ :=
    readAccesses_spec env faults file s
  · simp only [hok, hrules, henabled, if_true, Option.elim_some]
    cases faults.accessesClear with
    | none => rfl
    | some part => rfl
  · simp only [herror, hrules, Option.elim_none, ite_self]

/-- What `remove_smack_rules` makes of the rule files. -/
def removeRuleFile (faults : Faults) (file : CStr) (files : CStr → Option (List UInt8)) :
    CStr → Option (List UInt8) :=
  if faults.remove = none then Function.update files file none else files

/-- **What `remove_smack_rules` does.** -/
theorem removeSmackRules_eq (env : SmackEnv κ ρ) (faults : Faults) (context : Context)
    (s : System κ) :
    (removeSmackRules env faults context s).2 =
      if (getSmackRulePath env context.idString).1 < 0 then s
      else { s with
        ruleFiles := removeRuleFile faults (getSmackRulePath env context.idString).2 s.ruleFiles
        rules := clearRules env faults (s.ruleFiles (getSmackRulePath env context.idString).2)
          s.rules } := by
  simp only [removeSmackRules]
  split
  · rfl
  have hcleared : (if env.enabled = true then
      (removeLoadRules env faults (getSmackRulePath env context.idString).2 s).2 else s) =
      { s with
        rules := clearRules env faults (s.ruleFiles (getSmackRulePath env context.idString).2)
          s.rules } := by
    split
    · rename_i henabled
      exact removeLoadRules_eq env faults _ s henabled
    · rename_i henabled
      simp [clearRules, henabled]
  rw [hcleared]
  generalize (getSmackRulePath env context.idString).2 = file
  cases hremove : faults.remove with
  | some e => simp [removeFile, removeRuleFile, hremove]
  | none =>
    cases hfile : s.ruleFiles file with
    | none =>
      have hsame : Function.update s.ruleFiles file none = s.ruleFiles := by
        rw [← hfile, Function.update_eq_self]
      simp [removeFile, removeRuleFile, hremove, hfile, hsame]
    | some text => simp [removeFile, removeRuleFile, hremove, hfile]

/-- A removal succeeds when the file was there and is removed, whether or not its rules were
cleared. -/
theorem removeSmackRules_code (env : SmackEnv κ ρ) {faults : Faults} {context : Context}
    (hremove : faults.remove = none) (hpath : (getSmackRulePath env context.idString).1 ≥ 0)
    {s : System κ} (hfile : s.ruleFiles (getSmackRulePath env context.idString).2 ≠ none) :
    (removeSmackRules env faults context s).1 = 0 := by
  have hkeep : (if env.enabled = true then
      (removeLoadRules env faults (getSmackRulePath env context.idString).2 s).2 else s).ruleFiles =
      s.ruleFiles := by
    split
    · rename_i henabled
      rw [removeLoadRules_eq env faults _ s henabled]
    · rfl
  obtain ⟨text, htext⟩ := Option.ne_none_iff_exists'.1 hfile
  simp only [removeSmackRules, if_neg (not_lt.2 hpath), removeFile, hremove, hkeep, htext]

/-! ## Creation and removal -/

/-- The text of the rule file that `create_smack_rules` leaves where there was none. -/
def leftRules (env : SmackEnv κ ρ) (faults : Faults) (context : Context) :
    Option (List UInt8) :=
  if faults.readTemplate = none ∧ faults.openDest = none ∧
      ((rendered env faults context).1 < 0 ∨
        ((readRules env faults (some (rendered env faults context).2)).isSome ∧
          (env.enabled = true → faults.accessesApply = none))) then
    some (rendered env faults context).2
  else none

/-- What a loading that fails makes of the rules, where the rules of the template are read. -/
def partRules (env : SmackEnv κ ρ) (faults : Faults) (context : Context) (rules : κ) : κ :=
  match faults.accessesApply with
  | none => rules
  | some (_, n) =>
    if faults.readTemplate = none ∧ faults.openDest = none ∧ env.enabled = true ∧
        (rendered env faults context).1 ≥ 0 then
      (readRules env faults (some (rendered env faults context).2)).elim rules fun accesses =>
        env.accessesApplyPart n accesses rules
    else rules

/-- What the cleanup makes of the rules after a creation, where there was no rule file: what a
loading that failed has loaded stays, and the rules of the text that was left are cleared. -/
def revertedRules (env : SmackEnv κ ρ) (faults : Faults) (context : Context) (rules : κ) : κ :=
  clearRules env .none (leftRules env faults context) (partRules env faults context rules)

/-- The rules that are not loaded in part are those of before. -/
theorem partRules_eq {env : SmackEnv κ ρ} {faults : Faults} {context : Context}
    (h : ∀ accesses, env.enabled = true → ReadsRules env faults context accesses →
      faults.accessesApply = none ∨ ¬ (faults.readTemplate = none ∧ faults.openDest = none))
    (rules : κ) : partRules env faults context rules = rules := by
  unfold partRules
  split
  · rfl
  · rename_i part hsome
    split
    · rename_i hall
      obtain ⟨htemplate, hdest, henabled, hrendered⟩ := hall
      cases hread : readRules env faults (some (rendered env faults context).2) with
      | none => rfl
      | some accesses =>
        obtain hnone | hfault := h accesses henabled ⟨hrendered, hread⟩
        · cases hsome.symm.trans hnone
        · exact absurd ⟨htemplate, hdest⟩ hfault
    · rfl

/-- **What the removal leaves of a creation**, when it does not fail: the file is gone, and where
there was none the rules are `revertedRules`. -/
theorem createSmackRules_removed (env : SmackEnv κ ρ)
    (hclear : ∀ r k, env.accessesClear r (env.accessesApply r k) = env.accessesClear r k)
    {faults : Faults} (context : Context) (hremove : faults.remove = none)
    (hpath : (getSmackRulePath env context.idString).1 ≥ 0) (s : System κ) :
    ∃ f k, (createSmackRules env faults context s).2 = { s with ruleFiles := f, rules := k } ∧
      Set.EqOn f s.ruleFiles ({(getSmackRulePath env context.idString).2}ᶜ : Set CStr) ∧
      (s.ruleFiles (getSmackRulePath env context.idString).2 = none →
        clearRules env .none (f (getSmackRulePath env context.idString).2) k =
          revertedRules env faults context s.rules) := by
  have hcases := createSmackRules_cases env faults context hpath s
  generalize createSmackRules env faults context s = r at hcases ⊢
  generalize (getSmackRulePath env context.idString).2 = file at hcases ⊢
  unfold revertedRules
  have hframe : ∀ text, Set.EqOn (Function.update s.ruleFiles file text) s.ruleFiles
      ({file}ᶜ : Set CStr) := fun text => Lib.eqOn_update (Set.mem_singleton file) _ _
  cases hcases with
  | notWritten hrc hfault =>
    refine ⟨_, _, rfl, Set.eqOn_refl _ _, fun hfile => ?_⟩
    rw [hfile, leftRules, if_neg fun h => hfault ⟨h.1, h.2.1⟩,
      partRules_eq fun _ _ _ => .inr hfault]
  | notRendered hfault hrc =>
    refine ⟨_, _, rfl, hframe _, fun _ => ?_⟩
    rw [Function.update_self, leftRules, if_pos ⟨hfault.1, hfault.2, .inl hrc⟩,
      partRules_eq fun _ _ hreads => absurd hrc (not_lt.2 hreads.1)]
  | notRead hrc hfault hrendered hread =>
    rw [hremove, removeFile_written]
    refine ⟨_, _, rfl, hframe _, fun _ => ?_⟩
    have hnone : ∀ accesses, ¬ ReadsRules env faults context accesses := by
      rintro accesses ⟨-, hsome⟩
      cases hread.symm.trans hsome
    rw [Function.update_self, leftRules, if_neg,
      partRules_eq fun accesses _ hreads => absurd hreads (hnone accesses)]
    rintro ⟨-, -, hneg | ⟨hsome, -⟩⟩
    · exact absurd hneg (not_lt.2 hrendered)
    · rw [hread] at hsome
      cases hsome
  | @partLoaded e n accesses hfault hreads henabled happly =>
    rw [hremove, removeFile_written]
    refine ⟨_, _, rfl, hframe _, fun _ => ?_⟩
    have hpart : partRules env faults context s.rules =
        env.accessesApplyPart n accesses s.rules := by
      simp only [partRules, happly, hfault, henabled, hreads.1, and_self, if_true, hreads.2,
        Option.elim_some]
    rw [Function.update_self, leftRules, if_neg, hpart]
    rintro ⟨-, -, hneg | ⟨-, hnone⟩⟩
    · exact absurd hneg (not_lt.2 hreads.1)
    · cases happly.symm.trans (hnone henabled)
  | loaded hfault hloads =>
    rename_i accesses
    refine ⟨_, _, rfl, hframe _, fun _ => ?_⟩
    obtain ⟨-, hread, happly⟩ := hloads
    have hleft : leftRules env faults context = some (rendered env faults context).2 := by
      rw [leftRules, if_pos ⟨hfault.1, hfault.2, .inr ⟨by simp [hread], happly⟩⟩]
    rw [Function.update_self, hleft, partRules_eq fun _ henabled _ => .inl (happly henabled)]
    cases henabled : env.enabled with
    | false => simp [clearRules, henabled]
    | true =>
      have hreadable : readRules env .none (some (rendered env faults context).2) =
          some accesses := by
        unfold readRules at hread ⊢
        split at hread
        · rw [if_pos ⟨rfl, rfl, rfl⟩]
          exact hread
        · cases hread
      have hnone : Faults.none.accessesClear = none := rfl
      simp [clearRules, clearAccesses, henabled, hreadable, hclear, hnone]

/-! ## A system -/

/-- A kernel with a list of rules, and a template of one rule. -/
def SmackEnv.plain : SmackEnv (List (List UInt8)) (List (List UInt8)) where
  policyDir := .lit "/etc/smack/accesses.d"
  fmustach context := (0, (.lit "App:" ++ context.idString ++ .lit " System rx\n" : CStr).bytes)
  enabled := true
  accessesAdd text := some ((text.splitOn 10).filter (· ≠ []))
  accessesApply accesses rules := rules.filter (· ∉ accesses) ++ accesses
  accessesClear accesses rules := rules.filter (· ∉ accesses)
  accessesApplyPart n accesses rules := rules.filter (· ∉ accesses.take n) ++ accesses.take n
  accessesClearPart n accesses rules := rules.filter (· ∉ accesses.take n)
  linkLabel := none

/-- In the example clearing undoes what was applied. -/
theorem SmackEnv.plain_clear (r k : List (List UInt8)) :
    plain.accessesClear r (plain.accessesApply r k) = plain.accessesClear r k := by
  simp [plain]

/-- To apply rules twice is to apply them once. -/
theorem SmackEnv.plain_apply (r k : List (List UInt8)) :
    plain.accessesApply r (plain.accessesApply r k) = plain.accessesApply r k := by
  simp [plain]

/-- A system without anything for applications. -/
def System.blank : System (List (List UInt8)) :=
  ⟨fun _ => none, fun _ => none, [], fun _ => none, fun _ => none⟩

end SecLsmManager

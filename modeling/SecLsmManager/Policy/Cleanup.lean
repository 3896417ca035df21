import SecLsmManager.Policy.Statuses

/-!
# What a cleanup reaches

`force_uninstall_smack` is to go on whatever fails. Its loop on the paths stops at the first label
that it cannot set, and the paths after it keep their labels
(`force_uninstall_smack_cleans_up`); the code of the clearing of the rules is lost
(`smack_uninstall_rules_cleared`).
-/

namespace SecLsmManager

variable {κ ρ : Type*}

/-! ## Without stopping on failure -/

/-- The attribute operations on the path of rank `k` succeed. -/
def PathResets (faults : Faults) (k : Nat) (path : Path) : Prop :=
  ∀ xattr, ¬ PutFails (faults.xattr k xattr) (dropValue (path.path, xattr))

/-- Everything that can be reset is, and the code says what was not. Without an id there are no
links and no rule file. -/
structure CleansUp (env : SmackEnv κ ρ) (faults : Faults) (context : Context) (s : System κ)
    (r : Int × System κ) : Prop where
  paths : ∀ k path, context.pathSet[k]? = some path → PathResets faults k path →
    r.2.attrs (path.path, .smack) = some DROP_LABEL
  plugs : context.id 0 ≠ 0 → ∀ k plug, context.plugset[k]? = some plug →
    faults.unlink k = none → r.2.links (plug.impdir ++ .lit "/" ++ context.idString) = none
  rules : HasRuleFile env context → faults.remove = none →
    r.2.ruleFiles (ruleFile env context) = none
  labelFails : ∀ k path, context.pathSet[k]? = some path → faults.xattr k .smack ≠ none → r.1 < 0
  unlinkFails : context.id 0 ≠ 0 → ∀ k plug, context.plugset[k]? = some plug →
    ∀ e, faults.unlink k = some e → e.val ≠ ENOENT → r.1 < 0
  removeFails : HasRuleFile env context →
    faults.remove ≠ none ∨ s.ruleFiles (ruleFile env context) = none → r.1 < 0

/-- The label of the path of rank `k` is dropped, or was dropped before. -/
def Dropped (faults : Faults) (attrs : CStr × Xattr → Option CStr) (k : Nat) (path : Path) : Prop :=
  (∀ j < k, faults.xattr j .smack = none) ∨ attrs (path.path, .smack) = some DROP_LABEL

theorem PathResets.smack {faults : Faults} {k : Nat} {path : Path} (h : PathResets faults k path) :
    faults.xattr k .smack = none := by
  by_contra hsome
  obtain ⟨e, he⟩ := Option.ne_none_iff_exists'.1 hsome
  have hlabel : (putValue (some DROP_LABEL)).isSome := by decide
  exact h .smack ⟨e, he, Or.inl hlabel⟩

/-- The label of a path after the loop. -/
theorem Uninstalls.dropped_iff {env : SmackEnv κ ρ} {faults : Faults} {context : Context}
    {s s' : System κ} (h : Uninstalls env faults context s s')
    (hdistinct : (context.pathSet.map Path.path).Nodup) {k : Nat} {path : Path}
    (hp : context.pathSet[k]? = some path) (hresets : PathResets faults k path) :
    s'.attrs (path.path, .smack) = some DROP_LABEL ↔ Dropped faults s.attrs k path := by
  by_cases hbefore : ∀ j < k, faults.xattr j .smack = none
  · refine iff_of_true (h.attrs.set ⟨k, path, hp, rfl, fun j hj => ?_, ?_⟩) (Or.inl hbefore)
    · rw [Nat.zero_add]
      exact hbefore j hj
    · rw [Nat.zero_add]
      exact hresets.smack
  · have hnot : (path.path, Xattr.smack) ∉ droppedCells faults 0 context.pathSet := by
      rintro ⟨j, q, hq, hsame, hreached, -⟩
      obtain rfl := pathRank_inj hdistinct hp hq hsame
      exact hbefore fun i hi => by simpa only [Nat.zero_add] using hreached i hi
    rw [h.attrs.frame hnot]
    exact (or_iff_right hbefore).symm

/-- **Where a cleanup stops.** Everything that can be reset is, exactly when no label fails before
a path that could be reset and still has another label. -/
theorem force_uninstall_smack_cleans_up (env : SmackEnv κ ρ) (faults : Faults) (mem : Nat → UInt8)
    (ops : List ContextOp) (s : System κ) :
    let context := (contextCreate mem).run ops
    CleansUp env faults context s (forceUninstallSmack env faults context s) ↔
      ∀ k path, context.pathSet[k]? = some path → PathResets faults k path →
        Dropped faults s.attrs k path := by
  intro context
  have hinv : context.Inv := (Context.Inv.of_empty _ _).run ops
  have huninstalls := forceUninstallSmack_uninstalls env faults context s
  have hcode := forceUninstallSmack_nonneg env faults context s
  have hlabel {k : Nat} {path : Path} (hp : context.pathSet[k]? = some path)
      (hresets : PathResets faults k path) :=
    huninstalls.dropped_iff hinv.paths_distinct hp hresets
  constructor
  · intro h k path hp hresets
    exact (hlabel hp hresets).1 (h.paths k path hp hresets)
  · intro h
    refine ⟨fun k path hp hresets => (hlabel hp hresets).2 (h k path hp hresets),
      ?_, ?_, ?_, ?_, ?_⟩
    · intro hid k plug hplug hunlink
      obtain ⟨hname, hplace⟩ := plugLinkPath_of_le context
        (Context.run_impdir_le mem ops plug (List.mem_of_getElem? hplug))
      exact huninstalls.links.set ⟨hid, k, plug, hplug, hname, hplace.symm, by rwa [Nat.zero_add]⟩
    · intro hfile hremove
      exact huninstalls.ruleFiles.set ⟨hfile, hremove, rfl⟩
    · intro k path hp hfails
      exact not_le.1 fun hrc => hfails ((hcode.1 hrc).paths k path hp)
    · intro hid k plug hplug e he hval
      exact not_le.1 fun hrc => hval (((hcode.1 hrc).plugs hid k plug hplug).2 e he)
    · intro hfile hfails
      refine not_le.1 fun hrc => ?_
      have hremoved := (hcode.1 hrc).rules hfile.1
      cases hfails with
      | inl hremove => exact hremove hremoved.remove
      | inr hnone =>
        have hsome := hremoved.file
        rw [hnone] at hsome
        cases hsome

/-- The file of the first path is gone: the second one keeps the label of the application. -/
theorem force_uninstall_smack_stops :
    let context := (contextCreate fun _ => 0).run
      [.setId (.lit "ab"), .addPath .plain (.lit "/a") (.lit "conf"),
        .addPath .plain (.lit "/b") (.lit "conf")]
    let s := { System.blank with
      attrs := fun c => if c.2 = .smack then some (.lit "App:ab:Conf") else none }
    let faults := { Faults.none with
      xattr := fun k _ => if k = 0 then some ⟨ENOENT, by decide⟩ else none }
    ¬ CleansUp SmackEnv.plain faults context s
      (forceUninstallSmack SmackEnv.plain faults context s) := by
  intro context s faults h
  have hlabel := h.paths 1 ⟨.lit "/b", .typeConf⟩ (by decide +kernel) fun xattr => putFails_none _
  revert hlabel
  decide +kernel

/-! ## The rules of the kernel -/

/-- The rules of the file are read, and the kernel clears them. -/
def ClearsRules (faults : Faults) : Prop :=
  RulesReadable faults ∧ faults.accessesClear = none

/-- The rules of the file are cleared from the kernel, and the file is removed. -/
structure RulesCleared (env : SmackEnv κ ρ) (context : Context) (s s' : System κ) : Prop where
  file : s'.ruleFiles (ruleFile env context) = none
  rules : ∃ text accesses, s.ruleFiles (ruleFile env context) = some text ∧
    env.accessesAdd text = some accesses ∧ s'.rules = env.accessesClear accesses s.rules

/-- **The clearing of the rules.** A removal that succeeds has cleared the rules of the file, and
removed the file, exactly when, if the rest of the cleanup succeeds, the file is a list of rules
that could be cleared, or what the failure has left has none of them. -/
theorem smack_uninstall_rules_cleared (env : SmackEnv κ ρ) (faults : Faults) {context : Context}
    (s : System κ) (hid : context.id 0 ≠ 0) (henabled : env.enabled = true) :
    let removed := smackUninstall env faults context s
    (removed.1 ≥ 0 → RulesCleared env context s removed.2) ↔
      (UninstallSucceeds env faults context s.ruleFiles →
        ∃ text accesses, s.ruleFiles (ruleFile env context) = some text ∧
          env.accessesAdd text = some accesses ∧
          (ClearsRules faults ∨
            unclearedRules env faults accesses s.rules = env.accessesClear accesses s.rules)) := by
  intro removed
  have hremoved : removed = forceUninstallSmack env faults context s := by
    simp only [removed, smackUninstall, hid, false_and, if_false]
  have hcode := forceUninstallSmack_nonneg env faults context s
  have huninstalls := forceUninstallSmack_uninstalls env faults context s
  rw [hremoved, hcode]
  refine forall_congr' fun hsucceeds => ?_
  have hremovable := hsucceeds.rules hid
  have hfile : HasRuleFile env context := ⟨hid, hremovable.path⟩
  have hgone := huninstalls.ruleFiles.set ⟨hfile, hremovable.remove, rfl⟩
  have hrules : RulesCleared env context s (forceUninstallSmack env faults context s).2 ↔
      ∃ text accesses, s.ruleFiles (ruleFile env context) = some text ∧
        env.accessesAdd text = some accesses ∧
        clearRules env faults (s.ruleFiles (ruleFile env context)) s.rules =
          env.accessesClear accesses s.rules := by
    rw [← huninstalls.rules hfile]
    exact ⟨fun h => h.rules, fun h => ⟨hgone, h⟩⟩
  rw [hrules]
  refine exists_congr fun text => exists_congr fun accesses => and_congr_right fun htext =>
    and_congr_right fun hadd => ?_
  rw [htext]
  exact clearRules_eq_iff env henabled hadd s.rules

/-- A system where the rule of the application `ab` is loaded. -/
def System.ruled : System (List (List UInt8)) :=
  let rule := (CStr.lit "App:ab System rx").bytes
  { System.blank with
    ruleFiles := Function.update (fun _ => none) (.lit "/etc/smack/accesses.d/ab.smack")
      (some (rule ++ [10]))
    rules := [rule] }

/-- A removal that clears the rule. -/
theorem smack_uninstall_rules_cleared_plain :
    let context := (contextCreate fun _ => 0).run [.setId (.lit "ab")]
    RulesCleared SmackEnv.plain context System.ruled
      (smackUninstall SmackEnv.plain .none context System.ruled).2 := by
  intro context
  have hfile : System.ruled.ruleFiles (ruleFile SmackEnv.plain context) =
      some ((CStr.lit "App:ab System rx").bytes ++ [10]) := by decide +kernel
  have hid : context.id 0 ≠ 0 := by decide +kernel
  have hcleared := smack_uninstall_rules_cleared SmackEnv.plain .none System.ruled hid rfl
  exact hcleared.2 (fun _ => ⟨_, _, hfile, rfl, Or.inl ⟨⟨rfl, rfl, rfl⟩, rfl⟩⟩) (by decide +kernel)

/-- The set of rules cannot be created: the removal is done, and the kernel still has the rule. -/
theorem smack_uninstall_rule_left :
    let context := (contextCreate fun _ => 0).run [.setId (.lit "ab")]
    let faults := { Faults.none with accessesNew := some ⟨ENOMEM, by decide⟩ }
    let removed := smackUninstall SmackEnv.plain faults context System.ruled
    removed.1 ≥ 0 ∧ ¬ RulesCleared SmackEnv.plain context System.ruled removed.2 := by
  refine ⟨by decide +kernel, fun h => ?_⟩
  obtain ⟨text, accesses, htext, hadd, hrules⟩ := h.rules
  have hfile : System.ruled.ruleFiles (.lit "/etc/smack/accesses.d/ab.smack") =
      some ((CStr.lit "App:ab System rx").bytes ++ [10]) := by decide +kernel
  have hplace : ruleFile SmackEnv.plain ((contextCreate fun _ => 0).run [.setId (.lit "ab")]) =
      .lit "/etc/smack/accesses.d/ab.smack" := by decide +kernel
  rw [hplace, hfile] at htext
  cases htext
  cases hadd
  revert hrules
  decide +kernel

end SecLsmManager

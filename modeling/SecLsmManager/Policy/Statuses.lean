import SecLsmManager.Policy.Lifecycle

/-!
# The codes of the functions of Smack

When each function of Smack fails, said of its arguments and of the state before it: which calls
fail, and which files and links are there.
-/

namespace SecLsmManager

variable {κ ρ : Type*}

/-! ## Attributes -/

/-- A call of `put_xattr` fails; one that removes an attribute does not when it is not there. -/
def PutFails (fault : Fault) (value : Option CStr) : Prop :=
  ∃ e, fault = some e ∧ ((putValue value).isSome ∨ e.val ≠ ENODATA)

/-- A call that does not fail does not fail its caller. -/
theorem putFails_none (value : Option CStr) : ¬ PutFails none value := by
  rintro ⟨e, he, -⟩
  cases he

/-- The removal of an attribute fails, unless there was none. -/
theorem unsetXattr_neg {fault : Fault} {path : CStr} {xattr : Xattr} {s : System κ} :
    (unsetXattr fault path xattr s).1 < 0 ↔ ∃ e, fault = some e ∧ e.val ≠ ENODATA := by
  cases fault with
  | none =>
    refine iff_of_false (Int.lt_irrefl 0) ?_
    rintro ⟨e, he, -⟩
    cases he
  | some e =>
    rw [unsetXattr]
    split
    · rename_i hdata
      refine iff_of_false (Int.lt_irrefl 0) ?_
      rintro ⟨e', he, hne⟩
      cases he
      exact hne hdata
    · rename_i hdata
      exact iff_of_true (Int.neg_neg_of_pos e.pos) ⟨e, rfl, hdata⟩

/-- An attribute is not put when its call fails. -/
theorem putXattr_neg {fault : Fault} {path : CStr} {xattr : Xattr} {value : Option CStr}
    {s : System κ} : (putXattr fault path xattr value s).1 < 0 ↔ PutFails fault value := by
  have hunset (hnone : putValue value = none) :
      (unsetXattr fault path xattr s).1 < 0 ↔ PutFails fault value := by
    simp [unsetXattr_neg, PutFails, hnone]
  cases value with
  | none => exact hunset rfl
  | some v =>
    rw [putXattr]
    split
    · rename_i hne
      have hsome : putValue (some v) = some v := by simp [putValue, hne]
      simp only [setXattr_neg, PutFails, hsome, Option.isSome_some, true_or, and_true,
        Option.ne_none_iff_exists']
    · rename_i hempty
      exact hunset (by simpa [putValue] using hempty)

/-- A second status is merged in a first one, which is kept when it is a failure and under `p`. -/
theorem merged_neg {rc rc2 : Int} {p : Prop} [Decidable p] :
    (if rc2 < 0 then if rc < 0 ∨ p then rc else rc2 else rc) < 0 ↔ rc < 0 ∨ (rc2 < 0 ∧ ¬ p) := by
  split
  · rename_i hneg
    split
    · rename_i hkept
      exact ⟨Or.inl, fun h => h.elim id fun h => hkept.resolve_right h.2⟩
    · rename_i hkept
      exact iff_of_true hneg (Or.inr ⟨hneg, fun hp => hkept (Or.inr hp)⟩)
  · rename_i hpos
    exact ⟨Or.inl, fun h => h.elim id fun h => absurd h.1 hpos⟩

/-- A failure for the exec label alone is not in the code. -/
theorem smackSetPathLabels_neg {fault : Xattr → Fault} {path label : CStr}
    {execlabel : Option CStr} {transmute : Bool} {s : System κ} :
    (smackSetPathLabels fault path label execlabel transmute s).1 < 0 ↔
      PutFails (fault .smack) (some label) ∨
        (transmute = true ∧ fault .smacktransmute ≠ none) := by
  have hkeep : ∀ a b : Int, (if a < 0 then if a < 0 then a else b else a) = a := by
    intro a b
    split <;> rfl
  have hvalue : (putValue (some TRUE_VALUE)).isSome := by decide
  simp only [smackSetPathLabels]
  rw [hkeep, merged_neg, putXattr_neg, putXattr_neg, not_not]
  refine or_congr_right ((and_comm).trans (and_congr_right fun ht => ?_))
  rw [if_pos ht, PutFails, Option.ne_none_iff_exists']
  exact exists_congr fun e => and_iff_left (Or.inl hvalue)

/-! ## Paths -/

/-- The code of a loop on the paths, when that of a turn does not depend on the state. -/
theorem pathsLoop_nonneg_iff {turn : Nat → Path → System κ → Int × System κ}
    {ok : Nat → Path → Prop} (hturn : ∀ i path s, (turn i path s).1 ≥ 0 ↔ ok i path) :
    ∀ (i : Nat) (paths : List Path) (s : System κ),
      (pathsLoop turn i paths s).1 ≥ 0 ↔ ∀ k path, paths[k]? = some path → ok (i + k) path
  | i, [], s => iff_of_true (le_refl 0) fun k path hp => by cases hp
  | i, path :: paths, s => by
    rw [forall_rank_cons]
    simp only [pathsLoop]
    split
    · rename_i hneg
      exact iff_of_false (not_le.2 hneg) fun hall => not_le.2 hneg ((hturn i path s).2 hall.1)
    · rename_i hpos
      have hpath := (hturn i path s).1 (not_lt.1 hpos)
      rw [pathsLoop_nonneg_iff hturn (i + 1) paths, and_iff_right hpath]

/-- What has to succeed on a path for `label_all_paths` to go on: `lstat`, the access label and,
for a directory of a transmuting type, the transmute attribute. -/
structure PathLabels (faults : Faults) (id : CStr) (i : Nat) (path : Path) : Prop where
  exists_ : getPathProperty (faults.answers i) path.path false ≥ 0
  smack : ¬ PutFails (faults.xattr i .smack) (some (initPathTypeDefinitions id path.pathType).label)
  transmute : getPathProperty (faults.answers i) path.path false = PATH_DIRECTORY →
    (initPathTypeDefinitions id path.pathType).isTransmute = true →
    faults.xattr i .smacktransmute = none

/-- A path is labelled without an error. -/
theorem labelPath_nonneg {faults : Faults} {id : CStr} {i : Nat} {path : Path} {s : System κ} :
    (labelPath faults id true i path s).1 ≥ 0 ↔ PathLabels faults id i path := by
  simp only [labelPath]
  split
  · rename_i hneg
    exact iff_of_false (not_le.2 hneg) fun h => not_le.2 hneg h.exists_
  · rename_i hpos
    simp only [not_true_eq_false, if_false, ge_iff_le, ← not_lt, smackSetPathLabels_neg, not_or,
      decide_eq_true_eq, not_and, not_not]
    exact ⟨fun h => ⟨not_lt.1 hpos, h.1, fun hd ht => h.2 ⟨hd, ht⟩⟩,
      fun h => ⟨h.smack, fun hd => h.transmute hd.1 hd.2⟩⟩

/-- So are all paths. -/
theorem labelAllPaths_nonneg {faults : Faults} {context : Context} {s : System κ} :
    (labelAllPaths faults context true s).1 ≥ 0 ↔
      ∀ k path, context.pathSet[k]? = some path → PathLabels faults context.idString k path := by
  have hturn : ∀ i path (s : System κ), (labelPath faults context.idString true i path s).1 ≥ 0 ↔
      PathLabels faults context.idString i path := fun _ _ _ => labelPath_nonneg
  have h := pathsLoop_nonneg_iff hturn 0 context.pathSet s
  simp only [Nat.zero_add] at h
  exact h

/-! ## Plugs -/

/-- What has to succeed on a plug for its link to be made and labelled. -/
structure PlugLinks (faults : Faults) (context : Context) (links : CStr → Option PlugLink) (i : Nat)
    (plug : Plug) : Prop where
  name : (plugLinkPath context plug).1 ≥ 0
  symlink : faults.symlink i = none
  free : links (plugLinkPath context plug).2 = none
  label : faults.linkXattr i = none

/-- Of the links only the one of the plug matters. -/
theorem PlugLinks.congr {faults : Faults} {context : Context}
    {links links' : CStr → Option PlugLink} {i : Nat} {plug : Plug}
    (h : links (plugLinkPath context plug).2 = links' (plugLinkPath context plug).2) :
    PlugLinks faults context links i plug ↔ PlugLinks faults context links' i plug :=
  ⟨fun hp => ⟨hp.name, hp.symlink, h ▸ hp.free, hp.label⟩,
    fun hp => ⟨hp.name, hp.symlink, h ▸ hp.free, hp.label⟩⟩

/-- A plug is linked without an error. -/
theorem installPlug_nonneg (env : SmackEnv κ ρ) {faults : Faults} {context : Context} {i : Nat}
    {plug : Plug} {s : System κ} :
    (installPlug env faults context i plug s).1 ≥ 0 ↔ PlugLinks faults context s.links i plug := by
  simp only [installPlug]
  split
  · rename_i hneg
    exact iff_of_false (not_le.2 hneg) fun h => not_le.2 hneg h.name
  rename_i hname
  cases hsymlink : faults.symlink i with
  | some e =>
    have hneg : -e.val < 0 := Int.neg_neg_of_pos e.pos
    rw [symlink_some, if_pos hneg]
    refine iff_of_false (not_le.2 hneg) fun h => ?_
    rw [h.symlink] at hsymlink
    cases hsymlink
  | none =>
    cases hlink : s.links (plugLinkPath context plug).2 with
    | some link =>
      have hneg : -EEXIST < 0 := by decide
      simp only [symlink, hlink, Option.isSome_some, if_true, if_pos hneg]
      refine iff_of_false (not_le.2 hneg) fun h => ?_
      rw [h.free] at hlink
      cases hlink
    | none =>
      simp only [symlink, hlink, Option.isSome_none, Bool.false_eq_true, if_false, Int.lt_irrefl]
      cases hxattr : faults.linkXattr i with
      | some e =>
        refine iff_of_false (not_le.2 (Int.neg_neg_of_pos e.pos)) fun h => ?_
        rw [h.label] at hxattr
        cases hxattr
      | none => exact iff_of_true (le_refl 0) ⟨not_lt.1 hname, hsymlink, hlink, hxattr⟩

/-- The other places are left as they are. -/
theorem installPlug_frame (env : SmackEnv κ ρ) (faults : Faults) (context : Context) (i : Nat)
    (plug : Plug) (s : System κ) {q : CStr} (hq : q ≠ (plugLinkPath context plug).2) :
    (installPlug env faults context i plug s).2.links q = s.links q := by
  have hplace : (plugLinkPath context plug).2 ∈ ({(plugLinkPath context plug).2} : Set CStr) :=
    Set.mem_singleton _
  have hchange : ChangesLinks {(plugLinkPath context plug).2} s
      (installPlug env faults context i plug s).2 := by
    simp only [installPlug]
    split
    · exact .refl s
    · have hlink := symlink_changes (faults.symlink i) env.linkLabel plug.expdir hplace s
      split
      · exact hlink
      · exact hlink.trans (setLinkXattr_changes _ hplace _ _)
  obtain ⟨l, hs, hframe⟩ := hchange
  rw [hs]
  exact hframe hq

/-- The loop on plugs of different directories. -/
theorem installPlugsLoop_nonneg (env : SmackEnv κ ρ) (faults : Faults) (context : Context) :
    ∀ (i : Nat) {plugs : List Plug} (s : System κ),
      (∀ plug ∈ plugs, plug.impdir.length ≤ stdSize) → (plugs.map Plug.impdir).Nodup →
      ((plugsLoop (installPlug env faults context) i plugs 0 s).1 ≥ 0 ↔
        ∀ k plug, plugs[k]? = some plug → PlugLinks faults context s.links (i + k) plug)
  | i, [], s, _, _ => iff_of_true (le_refl 0) fun k plug hp => by cases hp
  | i, plug :: plugs, s, hle, hdistinct => by
    obtain ⟨hhead, htail⟩ := List.forall_mem_cons.1 hle
    rw [List.map_cons, List.nodup_cons] at hdistinct
    rw [forall_rank_cons (PlugLinks faults context s.links)]
    simp only [plugsLoop, and_true]
    split
    · rename_i hneg
      rw [plugsLoop_neg hneg]
      exact iff_of_false (not_le.2 hneg) fun hall =>
        not_le.2 hneg ((installPlug_nonneg env).2 hall.1)
    · rename_i hpos
      have hplug := (installPlug_nonneg env).1 (not_lt.1 hpos)
      rw [installPlugsLoop_nonneg env faults context (i + 1) _ htail hdistinct.2,
        and_iff_right hplug]
      refine forall₃_congr fun k p hp => PlugLinks.congr ?_
      have hmem := List.mem_of_getElem? hp
      refine installPlug_frame env faults context i plug s fun heq => hdistinct.1 ?_
      rw [← plugLinkPath_inj (htail p hmem) hhead heq]
      exact List.mem_map_of_mem hmem

/-! ## Rules -/

/-- What has to succeed for the rules to be created. -/
structure RulesLoaded (env : SmackEnv κ ρ) (faults : Faults) (context : Context) : Prop where
  path : (getSmackRulePath env context.idString).1 ≥ 0
  template : faults.readTemplate = none ∧ faults.openDest = none
  loads : ∃ accesses, LoadsRules env faults context accesses

/-- The rules are created without an error when they are loaded. -/
theorem createSmackRules_nonneg (env : SmackEnv κ ρ) {faults : Faults} {context : Context}
    {s : System κ} :
    (createSmackRules env faults context s).1 ≥ 0 ↔ RulesLoaded env faults context := by
  by_cases hpath : (getSmackRulePath env context.idString).1 ≥ 0
  · have hcases := createSmackRules_cases env faults context hpath s
    generalize createSmackRules env faults context s = r at hcases ⊢
    cases hcases with
    | notWritten hrc hfault => exact iff_of_false (not_le.2 hrc) fun h => hfault h.template
    | notRendered hfault hrc =>
      refine iff_of_false (not_le.2 hrc) fun h => ?_
      obtain ⟨accesses, hloads⟩ := h.loads
      exact not_le.2 hrc hloads.1
    | notRead hrc hfault hrendered hread =>
      refine iff_of_false (not_le.2 hrc) fun h => ?_
      obtain ⟨accesses, -, hsome, -⟩ := h.loads
      cases hread.symm.trans hsome
    | @partLoaded e n accesses hfault hreads henabled happly =>
      refine iff_of_false (not_le.2 (Int.neg_neg_of_pos e.pos)) fun h => ?_
      obtain ⟨accesses, -, -, hnone⟩ := h.loads
      cases happly.symm.trans (hnone henabled)
    | loaded hfault hloads => exact iff_of_true (le_refl 0) ⟨hpath, hfault, _, hloads⟩
  · rw [createSmackRules_of_path env faults context (not_le.1 hpath) s]
    exact iff_of_false hpath fun h => hpath h.path

/-! ## Installation -/

/-- What has to succeed for `smack_install` to succeed, for a context with an id. -/
structure InstallSucceeds (env : SmackEnv κ ρ) (faults : Faults) (context : Context)
    (links : CStr → Option PlugLink) : Prop where
  rules : RulesLoaded env faults context
  plugs : ∀ k plug, context.plugset[k]? = some plug → PlugLinks faults context links k plug
  paths : ∀ k path, context.pathSet[k]? = some path → PathLabels faults context.idString k path

/-- The rules do not touch the links and the attributes. -/
theorem createSmackRules_keeps (env : SmackEnv κ ρ) (faults : Faults) (context : Context)
    (s : System κ) :
    (createSmackRules env faults context s).2.links = s.links ∧
      (createSmackRules env faults context s).2.attrs = s.attrs := by
  have hremove : ∀ (fault : Fault) (file : CStr) (s : System κ),
      (removeFile fault file s).2.links = s.links ∧
        (removeFile fault file s).2.attrs = s.attrs := by
    intro fault file s
    unfold removeFile
    split
    · exact ⟨rfl, rfl⟩
    · split <;> exact ⟨rfl, rfl⟩
  by_cases hpath : (getSmackRulePath env context.idString).1 ≥ 0
  · have hcases := createSmackRules_cases env faults context hpath s
    generalize createSmackRules env faults context s = r at hcases ⊢
    cases hcases with
    | notRead _ _ _ _ => exact hremove faults.remove _ _
    | partLoaded _ _ _ _ => exact hremove faults.remove _ _
    | _ => exact ⟨rfl, rfl⟩
  · rw [createSmackRules_of_path env faults context (not_le.1 hpath) s]
    exact ⟨rfl, rfl⟩

/-- **When an installation succeeds.** -/
theorem smackInstall_nonneg (env : SmackEnv κ ρ) (faults revert : Faults) {context : Context}
    (hid : context.id 0 ≠ 0) (hle : ∀ plug ∈ context.plugset, plug.impdir.length ≤ stdSize)
    (hdistinct : (context.plugset.map Plug.impdir).Nodup) (s : System κ) :
    (smackInstall env faults revert context s).1 ≥ 0 ↔
      InstallSucceeds env faults context s.links := by
  have hstatus : (smackInstall env faults revert context s).1 =
      (installWithId env faults context s).1 := by
    simp only [smackInstall, if_pos hid, installSmackWithId, installStatus]
    split <;> rfl
  have hlinks := (createSmackRules_keeps env faults context s).1
  have hplugs := installPlugsLoop_nonneg env faults context 0
    (createSmackRules env faults context s).2 hle hdistinct
  simp only [Nat.zero_add, hlinks] at hplugs
  rw [hstatus]
  simp only [installWithId]
  by_cases hrules : (createSmackRules env faults context s).1 ≥ 0
  · simp only [if_pos hrules]
    by_cases hlinked : (installSmackPlugs env faults context
        (createSmackRules env faults context s).2).1 ≥ 0
    · rw [if_pos hlinked, labelAllPaths_nonneg]
      exact ⟨fun h => ⟨(createSmackRules_nonneg env).1 hrules, hplugs.1 hlinked, h⟩,
        fun h => h.paths⟩
    · rw [if_neg hlinked]
      exact iff_of_false hlinked fun h => hlinked (hplugs.2 h.plugs)
  · simp only [if_neg hrules]
    exact iff_of_false hrules fun h => hrules ((createSmackRules_nonneg env).2 h.rules)

/-- What an installation that succeeds has done. -/
theorem smackInstall_succeeded (env : SmackEnv κ ρ) (faults revert : Faults) {context : Context}
    (hid : context.id 0 ≠ 0) {s : System κ}
    (hrc : (smackInstall env faults revert context s).1 ≥ 0) :
    ∃ s', s'.attrs = s.attrs ∧ (labelAllPaths faults context true s').1 ≥ 0 ∧
      (smackInstall env faults revert context s).2 = (labelAllPaths faults context true s').2 := by
  simp only [smackInstall, if_pos hid, installSmackWithId, installStatus, installWithId] at hrc ⊢
  by_cases hrules : (createSmackRules env faults context s).1 ≥ 0
  · simp only [if_pos hrules] at hrc ⊢
    by_cases hlinked : (installSmackPlugs env faults context
        (createSmackRules env faults context s).2).1 ≥ 0
    · simp only [if_pos hlinked] at hrc ⊢
      by_cases hlabels : (labelAllPaths faults context true (installSmackPlugs env faults context
          (createSmackRules env faults context s).2).2).1 ≥ 0
      · refine ⟨_, ?_, hlabels, by rw [if_pos hlabels]⟩
        obtain ⟨l, hl, -⟩ := installSmackPlugs_changes env faults context
          (createSmackRules env faults context s).2
        rw [hl]
        exact (createSmackRules_keeps env faults context s).2
      · rw [if_neg hlabels] at hrc
        exact absurd hrc hlabels
    · simp only [if_neg hlinked] at hrc
      exact absurd hrc hlinked
  · simp only [if_neg hrules] at hrc
    exact absurd hrc hrules

/-! ## Removal -/

/-- The labels are dropped without an error when every access label is set. -/
theorem smackDropPathLabels_nonneg {faults : Faults} {context : Context} {s : System κ} :
    (smackDropPathLabels faults context s).1 ≥ 0 ↔
      ∀ k path, context.pathSet[k]? = some path → faults.xattr k .smack = none := by
  have hturn : ∀ (i : Nat) (path : Path) (s : System κ),
      (smackSetPathLabels (faults.xattr i) path.path DROP_LABEL none false s).1 ≥ 0 ↔
        faults.xattr i .smack = none := by
    intro i path s
    rw [ge_iff_le, ← not_lt, (smackSetPathLabels_drops (faults.xattr i) path.path s).2, not_not]
  have h := pathsLoop_nonneg_iff hturn 0 context.pathSet s
  simp only [Nat.zero_add] at h
  exact h

/-- What has to succeed on a plug for its link to be removed, or not to be there. -/
def PlugUnlinks (faults : Faults) (context : Context) (i : Nat) (plug : Plug) : Prop :=
  (plugLinkPath context plug).1 ≥ 0 ∧ ∀ e, faults.unlink i = some e → e.val = ENOENT

/-- A plug is unlinked without an error. -/
theorem uninstallPlug_nonneg {faults : Faults} {context : Context} {i : Nat} {plug : Plug}
    {s : System κ} : (uninstallPlug faults context i plug s).1 ≥ 0 ↔
      PlugUnlinks faults context i plug := by
  simp only [uninstallPlug]
  split
  · rename_i hneg
    exact iff_of_false (not_le.2 hneg) fun h => not_le.2 hneg h.1
  · rename_i hname
    cases hunlink : faults.unlink i with
    | none =>
      refine iff_of_true (le_refl 0) ⟨not_lt.1 hname, fun e he => ?_⟩
      rw [hunlink] at he
      cases he
    | some e =>
      rw [unlink]
      split
      · rename_i hval
        refine iff_of_true (le_refl 0) ⟨not_lt.1 hname, fun e' he => ?_⟩
        rw [hunlink] at he
        cases he
        exact hval
      · rename_i hval
        exact iff_of_false (not_le.2 (Int.neg_neg_of_pos e.pos)) fun h => hval (h.2 e hunlink)

/-- The loop on the plugs, when the code of a turn does not depend on the state. -/
theorem plugsLoop_nonneg_iff {turn : Nat → Plug → System κ → Int × System κ}
    {ok : Nat → Plug → Prop} (hturn : ∀ i plug s, (turn i plug s).1 ≥ 0 ↔ ok i plug) :
    ∀ (i : Nat) (plugs : List Plug) (s : System κ),
      (plugsLoop turn i plugs 0 s).1 ≥ 0 ↔ ∀ k plug, plugs[k]? = some plug → ok (i + k) plug
  | i, [], s => iff_of_true (le_refl 0) fun k plug hp => by cases hp
  | i, plug :: plugs, s => by
    rw [forall_rank_cons]
    simp only [plugsLoop, and_true]
    split
    · rename_i hneg
      rw [plugsLoop_neg hneg]
      exact iff_of_false (not_le.2 hneg) fun hall => not_le.2 hneg ((hturn i plug s).2 hall.1)
    · rename_i hpos
      have hplug := (hturn i plug s).1 (not_lt.1 hpos)
      rw [plugsLoop_nonneg_iff hturn (i + 1) plugs, and_iff_right hplug]

/-- So are all plugs. -/
theorem uninstallSmackPlugs_nonneg {faults : Faults} {context : Context} {s : System κ} :
    (uninstallSmackPlugs faults context s).1 ≥ 0 ↔
      ∀ k plug, context.plugset[k]? = some plug → PlugUnlinks faults context k plug := by
  have hturn : ∀ i plug (s : System κ), (uninstallPlug faults context i plug s).1 ≥ 0 ↔
      PlugUnlinks faults context i plug := fun _ _ _ => uninstallPlug_nonneg
  have h := plugsLoop_nonneg_iff hturn 0 context.plugset s
  simp only [Nat.zero_add] at h
  exact h

/-- What has to succeed for the rule file to be removed. -/
structure RulesRemoved (env : SmackEnv κ ρ) (faults : Faults) (context : Context)
    (ruleFiles : CStr → Option (List UInt8)) : Prop where
  path : (getSmackRulePath env context.idString).1 ≥ 0
  remove : faults.remove = none
  file : (ruleFiles (ruleFile env context)).isSome

/-- The code of `remove_smack_rules` is the one of `remove_file`. -/
theorem removeSmackRules_nonneg (env : SmackEnv κ ρ) {faults : Faults} {context : Context}
    {s : System κ} : (removeSmackRules env faults context s).1 ≥ 0 ↔
      RulesRemoved env faults context s.ruleFiles := by
  by_cases hpath : (getSmackRulePath env context.idString).1 < 0
  · simp only [removeSmackRules, if_pos hpath]
    exact iff_of_false (not_le.2 hpath) fun h => not_le.2 hpath h.path
  have hkeep : ∀ file, (if env.enabled = true then (removeLoadRules env faults file s).2
      else s).ruleFiles = s.ruleFiles := by
    intro file
    split
    · rename_i henabled
      rw [removeLoadRules_eq env faults file s henabled]
    · rfl
  cases hremove : faults.remove with
  | some e =>
    have hneg : -e.val < 0 := Int.neg_neg_of_pos e.pos
    simp only [removeSmackRules, if_neg hpath, removeFile, hremove]
    refine iff_of_false (not_le.2 hneg) fun h => ?_
    rw [h.remove] at hremove
    cases hremove
  | none =>
    cases hfile : s.ruleFiles (ruleFile env context) with
    | none =>
      have hneg : -ENOENT < 0 := by decide
      have hfile' : s.ruleFiles (getSmackRulePath env context.idString).2 = none := hfile
      simp only [removeSmackRules, if_neg hpath, removeFile, hremove, hkeep, hfile']
      refine iff_of_false (not_le.2 hneg) fun h => ?_
      have hsome := h.file
      rw [hfile] at hsome
      cases hsome
    | some text =>
      have hfile' : s.ruleFiles (getSmackRulePath env context.idString).2 = some text := hfile
      rw [removeSmackRules_code env hremove (not_lt.1 hpath) (by simp [hfile'])]
      exact iff_of_true (le_refl 0) ⟨not_lt.1 hpath, hremove, by rw [hfile]; rfl⟩

/-- What has to succeed for `force_uninstall_smack` to succeed. -/
structure UninstallSucceeds (env : SmackEnv κ ρ) (faults : Faults) (context : Context)
    (ruleFiles : CStr → Option (List UInt8)) : Prop where
  paths : ∀ k path, context.pathSet[k]? = some path → faults.xattr k .smack = none
  plugs : context.id 0 ≠ 0 →
    ∀ k plug, context.plugset[k]? = some plug → PlugUnlinks faults context k plug
  rules : context.id 0 ≠ 0 → RulesRemoved env faults context ruleFiles

/-- **When a cleanup succeeds.** -/
theorem forceUninstallSmack_nonneg (env : SmackEnv κ ρ) (faults : Faults) (context : Context)
    (s : System κ) : (forceUninstallSmack env faults context s).1 ≥ 0 ↔
      UninstallSucceeds env faults context s.ruleFiles := by
  obtain ⟨a, hattrs, -⟩ := smackDropPathLabels_drops faults context s
  have hpaths : (smackDropPathLabels faults context s).1 ≥ 0 ↔ _ := smackDropPathLabels_nonneg
  simp only [forceUninstallSmack]
  generalize smackDropPathLabels faults context s = r at hattrs hpaths ⊢
  obtain ⟨rc, s₁⟩ := r
  cases hattrs
  split
  · rename_i hid
    obtain ⟨l, hlinks, -⟩ := uninstallSmackPlugs_drops faults context { s with attrs := a }
    have hplugs : (uninstallSmackPlugs faults context { s with attrs := a }).1 ≥ 0 ↔ _ :=
      uninstallSmackPlugs_nonneg
    generalize uninstallSmackPlugs faults context { s with attrs := a } = r at hlinks hplugs ⊢
    obtain ⟨rc2, s₂⟩ := r
    cases hlinks
    have hrules : (removeSmackRules env faults context { s with attrs := a, links := l }).1 ≥ 0 ↔
        RulesRemoved env faults context s.ruleFiles := removeSmackRules_nonneg env
    generalize removeSmackRules env faults context { s with attrs := a, links := l } = r
      at hrules ⊢
    obtain ⟨rc3, s₃⟩ := r
    have hcode : (if rc3 < 0 then rc3 else if rc2 < 0 then rc2 else rc) ≥ 0 ↔
        rc ≥ 0 ∧ rc2 ≥ 0 ∧ rc3 ≥ 0 := by
      split <;> [skip; split] <;> omega
    rw [hcode, hpaths, hplugs, hrules]
    exact ⟨fun h => ⟨h.1, fun _ => h.2.1, fun _ => h.2.2⟩,
      fun h => ⟨h.paths, h.plugs hid, h.rules hid⟩⟩
  · rename_i hid
    rw [hpaths]
    exact ⟨fun h => ⟨h, fun h => absurd h hid, fun h => absurd h hid⟩, fun h => h.paths⟩

end SecLsmManager

import SecLsmManager.Policy.Statuses

/-!
# The labels of an installation that succeeds

An installation succeeds when nothing that its code looks at fails (`smackInstall_nonneg`). Its
paths have then their labels, but the exec label of an executable: the code of the call that sets
it is not looked at (`smack_install_labels`).
-/

namespace SecLsmManager

variable {κ ρ : Type*}

/-! ## Definitions of the types of paths -/

/-- The label of a type is not cut. -/
theorem initPathTypeDefinitions_eq {id : CStr} (hid : id.length ≤ Context.idSize)
    (type : PathType) : initPathTypeDefinitions id type = patterns id type := by
  have hlabel : (patterns id type).label.length < SEC_LSM_MANAGER_MAX_SIZE_LABEL := by
    have hstart : (CStr.lit "App:").length = 4 := by decide
    have hsuffix : ∀ suffix ∈ [":Conf", ":Data", ":Exec", ":Http", ":Icon", ":Lib", ":Plug"],
        (CStr.lit suffix).length ≤ 5 := by decide
    have hshared : (CStr.lit "System:Shared").length = 13 := by decide
    have hsize : Context.idSize = 201 ∧ SEC_LSM_MANAGER_MAX_SIZE_LABEL = 255 := ⟨rfl, rfl⟩
    simp only [List.forall_mem_cons, List.not_mem_nil, false_implies, implies_true, and_true]
      at hsuffix
    cases type <;> simp only [patterns, CStr.length_append] <;> first | omega | decide
  exact congrArg (fun label => { patterns id type with label }) (CStr.snprintf_of_lt hlabel)

/-! ## Attributes after the loop -/

/-- What the cell of a path holds after `label_all_paths`. -/
theorem labelAllPaths_cell {faults : Faults} {context : Context}
    (hdistinct : (context.pathSet.map Path.path).Nodup) {s : System κ}
    (hrc : (labelAllPaths faults context true s).1 ≥ 0) {k : Nat} {path : Path}
    (hp : context.pathSet[k]? = some path) (xattr : Xattr) :
    (labelAllPaths faults context true s).2.attrs (path.path, xattr) =
      if faults.xattr k xattr = none then
        wantedLabel (faults.answers k) context.idString true path xattr
      else s.attrs (path.path, xattr) := by
  obtain ⟨f, hf⟩ := exists_wantedFrom faults.answers context.idString true 0 hdistinct
  obtain ⟨a, hs, ha⟩ := labelAllPaths_sets faults context true hf s hrc
  rw [hs]
  split
  · rename_i hnone
    have hwanted := hf k path hp xattr
    rw [Nat.zero_add] at hwanted
    rw [← hwanted]
    exact ha.set ⟨k, path, hp, rfl, by rwa [Nat.zero_add]⟩
  · rename_i hsome
    refine ha.frame fun hwritten => ?_
    obtain ⟨j, p, hj, hsame, hnone⟩ := hwritten
    obtain rfl := pathRank_inj hdistinct hp hj hsame
    exact hsome (by rwa [Nat.zero_add] at hnone)

/-! ## Main result -/

/-- The labels of an installed path, whose property is `pp`. -/
structure Labelled (id : CStr) (pp : Int) (path : Path) (attrs : CStr × Xattr → Option CStr) :
    Prop where
  access : attrs (path.path, .smack) = putValue (some (patterns id path.pathType).label)
  exec : path.pathType = .typeExec → pp = PATH_FILE_EXEC →
    attrs (path.path, .smackexec) = some (.lit "App:" ++ id)
  transmute : (patterns id path.pathType).isTransmute = true → pp = PATH_DIRECTORY →
    attrs (path.path, .smacktransmute) = some TRUE_VALUE

/-- The kernel says `ENODATA` of the attributes that are not there only. -/
def NoDataTrue (faults : Faults) (paths : List Path) (attrs : CStr × Xattr → Option CStr) : Prop :=
  ∀ k path, paths[k]? = some path → ∀ xattr e, faults.xattr k xattr = some e →
    e.val = ENODATA → attrs (path.path, xattr) = none

/-- The exec label of the path of rank `k` is set, or is there already. -/
def ExecSet (faults : Faults) (id : CStr) (k : Nat) (path : Path)
    (attrs : CStr × Xattr → Option CStr) : Prop :=
  path.pathType = .typeExec → getPathProperty (faults.answers k) path.path false = PATH_FILE_EXEC →
    faults.xattr k .smackexec = none ∨
      attrs (path.path, .smackexec) = some (.lit "App:" ++ id)

theorem wantedLabel_exec {answers : Answers} {id : CStr} (hid : id.length ≤ Context.idSize)
    {path : Path} (htype : path.pathType = .typeExec)
    (hpp : getPathProperty answers path.path false = PATH_FILE_EXEC) :
    wantedLabel answers id true path .smackexec = some (.lit "App:" ++ id) := by
  have hne : CStr.lit "App:" ++ id ≠ .empty := by
    intro h
    have hlen := congrArg CStr.length h
    rw [CStr.length_append] at hlen
    have hfour : (CStr.lit "App:").length = 4 := by decide
    have hzero : CStr.empty.length = 0 := rfl
    omega
  simp only [wantedLabel, initPathTypeDefinitions_eq hid, htype, hpp, patterns, if_true, and_self]
  simp [putValue, hne]

/-- **What a loop that succeeds leaves on a path.** -/
theorem labelAllPaths_labelled {faults : Faults} {context : Context}
    (hdistinct : (context.pathSet.map Path.path).Nodup) {s : System κ}
    (hdata : NoDataTrue faults context.pathSet s.attrs)
    (hrc : (labelAllPaths faults context true s).1 ≥ 0) {k : Nat} {path : Path}
    (hp : context.pathSet[k]? = some path) :
    Labelled context.idString (getPathProperty (faults.answers k) path.path false) path
        (labelAllPaths faults context true s).2.attrs ↔
      ExecSet faults context.idString k path s.attrs := by
  have hid := idString_length_le context
  have hcell := labelAllPaths_cell hdistinct hrc hp
  have hok := labelAllPaths_nonneg.1 hrc k path hp
  constructor
  · intro h htype hpp
    have hexec := h.exec htype hpp
    rw [hcell] at hexec
    split at hexec
    · rename_i hnone
      exact Or.inl hnone
    · exact Or.inr hexec
  · intro hset
    refine ⟨?_, ?_, ?_⟩
    · rw [hcell]
      split
      · simp only [wantedLabel, initPathTypeDefinitions_eq hid, if_true]
      · rename_i hsome
        -- an attribute to remove that is not there
        obtain ⟨e, he⟩ := Option.ne_none_iff_exists'.1 hsome
        have hput := hok.smack
        rw [initPathTypeDefinitions_eq hid] at hput
        have hnot : ¬ ((putValue (some (patterns context.idString path.pathType).label)).isSome ∨
            e.val ≠ ENODATA) := fun h => hput ⟨e, he, h⟩
        obtain ⟨hnone, hval⟩ := not_or.1 hnot
        rw [hdata k path hp .smack e he (not_not.1 hval)]
        exact (Option.not_isSome_iff_eq_none.1 hnone).symm
    · intro htype hpp
      rw [hcell]
      split
      · exact wantedLabel_exec hid htype hpp
      · rename_i hsome
        exact (hset htype hpp).resolve_left hsome
    · intro htransmute hpp
      have hnone := hok.transmute hpp (by rwa [initPathTypeDefinitions_eq hid])
      rw [hcell, if_pos hnone]
      simp only [wantedLabel, initPathTypeDefinitions_eq hid, htransmute, hpp, if_true, and_self]
      decide

/-- **The labels of an installation.** An installation that succeeds leaves every path with its
labels exactly when, if nothing that its code looks at fails, the exec labels are set. -/
theorem smack_install_labels (env : SmackEnv κ ρ) (faults revert : Faults) (mem : Nat → UInt8)
    (ops : List ContextOp) (s : System κ) :
    let context := (contextCreate mem).run ops
    let installed := smackInstall env faults revert context s
    context.id 0 ≠ 0 → NoDataTrue faults context.pathSet s.attrs →
    ((installed.1 ≥ 0 → ∀ k path, context.pathSet[k]? = some path →
        Labelled context.idString (getPathProperty (faults.answers k) path.path false) path
          installed.2.attrs) ↔
      (InstallSucceeds env faults context s.links → ∀ k path, context.pathSet[k]? = some path →
        ExecSet faults context.idString k path s.attrs)) := by
  intro context installed hid hdata
  have hinv : context.Inv := (Context.Inv.of_empty _ _).run ops
  have hsucceeds : installed.1 ≥ 0 ↔ InstallSucceeds env faults context s.links :=
    smackInstall_nonneg env faults revert hid (Context.run_impdir_le mem ops) hinv.plugs_distinct s
  rw [← hsucceeds]
  refine forall_congr' fun hrc => forall_congr' fun k => forall_congr' fun path =>
    forall_congr' fun hp => ?_
  obtain ⟨s', hattrs, hlabels, hstate⟩ := smackInstall_succeeded env faults revert hid hrc
  have hsame : installed.2.attrs = (labelAllPaths faults context true s').2.attrs := by
    rw [hstate]
  rw [hsame, ← hattrs]
  exact labelAllPaths_labelled hinv.paths_distinct (hattrs ▸ hdata) hlabels hp

/-- Files that are executable. -/
def Answers.executable : Answers := { Answers.plain with stat := fun _ _ => .mode false false true }

/-- An application with an executable. -/
def execSettings : List ContextOp :=
  [.setId (.lit "ab"), .addPath .plain (.lit "/a") (.lit "exec")]

/-- An executable that gets its exec label. -/
theorem smack_install_labels_exec :
    let faults := { Faults.none with answers := fun _ => .executable }
    (smackInstall SmackEnv.plain faults .none ((contextCreate fun _ => 0).run execSettings)
        System.blank).1 ≥ 0 ∧
      ∀ k path, ((contextCreate fun _ => 0).run execSettings).pathSet[k]? = some path →
        Labelled ((contextCreate fun _ => 0).run execSettings).idString
          (getPathProperty (faults.answers k) path.path false) path
          (smackInstall SmackEnv.plain faults .none ((contextCreate fun _ => 0).run execSettings)
            System.blank).2.attrs := by
  intro faults
  have hdata : NoDataTrue faults ((contextCreate fun _ => 0).run execSettings).pathSet
      System.blank.attrs := fun k path hp xattr e he => by cases he
  have hlabels := smack_install_labels SmackEnv.plain faults .none (fun _ => 0) execSettings
    System.blank (by decide +kernel) hdata
  have hrc : (smackInstall SmackEnv.plain faults .none ((contextCreate fun _ => 0).run execSettings)
      System.blank).1 ≥ 0 := by decide +kernel
  exact ⟨hrc, hlabels.2 (fun _ k path _ _ _ => Or.inl rfl) hrc⟩

/-- The call that sets the exec label fails: the installation is done, and the executable will not
run with the label of the application. -/
theorem smack_install_unlabelled :
    let context := (contextCreate fun _ => 0).run execSettings
    let faults := { Faults.none with
      answers := fun _ => .executable
      xattr := fun _ xattr => if xattr = .smackexec then some ⟨EACCES, by decide⟩ else none }
    let r := smackInstall SmackEnv.plain faults .none context System.blank
    r.1 ≥ 0 ∧ context.pathSet[0]? = some ⟨.lit "/a", .typeExec⟩ ∧
      ¬ Labelled context.idString (getPathProperty .executable (.lit "/a") false)
        ⟨.lit "/a", .typeExec⟩ r.2.attrs := by
  refine ⟨by decide +kernel, by decide +kernel, fun h => ?_⟩
  have hexec := h.exec rfl rfl
  revert hexec
  decide +kernel

end SecLsmManager

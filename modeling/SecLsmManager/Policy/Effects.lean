import SecLsmManager.Policy.Smack

/-!
# What the functions of Smack change

For each function the part of the state that it changes, and for those that remove something what
that part holds afterwards (`Lib.Overwrites`), whichever calls fail.
-/

namespace SecLsmManager

variable {κ ρ : Type*}

/-! ## Ranks -/

section
variable {α : Type*} (p : Nat → α → Prop) (i : Nat) (a : α) (l : List α)

/-- What holds of the elements of a list and their ranks, counted from `i`. -/
theorem forall_rank_cons :
    (∀ k b, (a :: l)[k]? = some b → p (i + k) b) ↔
      p i a ∧ ∀ k b, l[k]? = some b → p (i + 1 + k) b := by
  constructor
  · intro h
    refine ⟨h 0 a rfl, fun k b hb => ?_⟩
    rw [show i + 1 + k = i + (k + 1) by omega]
    exact h (k + 1) b hb
  · rintro ⟨hhead, htail⟩ k b hb
    cases k with
    | zero =>
      cases hb
      exact hhead
    | succ k =>
      rw [show i + (k + 1) = i + 1 + k by omega]
      exact htail k b hb

/-- Some element of a list at its rank: the first one, or one of the others. -/
theorem exists_rank_cons :
    (∃ k b, (a :: l)[k]? = some b ∧ p (i + k) b) ↔
      p i a ∨ ∃ k b, l[k]? = some b ∧ p (i + 1 + k) b := by
  have hnone := not_congr (forall_rank_cons (fun i b => ¬ p i b) i a l)
  simp only [not_and_or, not_forall, not_not, exists_prop] at hnone
  exact hnone

end

/-! ## Labels -/

/-- What the attributes of a path hold when its labels are dropped. -/
def dropValue (c : CStr × Xattr) : Option CStr :=
  match c.2 with
  | .smack => some DROP_LABEL
  | .smackexec => none
  | .smacktransmute => none

/-- From `s` to `s'` only cells of `S` change, among the attributes. -/
def ChangesAttrs (S : Set (CStr × Xattr)) (s s' : System κ) : Prop :=
  ∃ a, s' = { s with attrs := a } ∧ Set.EqOn a s.attrs (Sᶜ : Set (CStr × Xattr))

/-- From `s` to `s'` the cells of `S` are set as in `f`. -/
def SetsAttrs (f : CStr × Xattr → Option CStr) (S : Set (CStr × Xattr)) (s s' : System κ) : Prop :=
  ∃ a, s' = { s with attrs := a } ∧ Lib.Overwrites S f s.attrs a

section
variable {f : CStr × Xattr → Option CStr} {S T : Set (CStr × Xattr)} {s s' s'' : System κ}

/-- A call that does nothing changes no attribute. -/
theorem ChangesAttrs.refl (s : System κ) : ChangesAttrs S s s :=
  ⟨s.attrs, rfl, Set.eqOn_refl _ _⟩

/-- Two calls in turn, on the same cells. -/
theorem ChangesAttrs.trans (h : ChangesAttrs S s s') (h' : ChangesAttrs S s' s'') :
    ChangesAttrs S s s'' := by
  obtain ⟨a, rfl, ha⟩ := h
  obtain ⟨a', rfl, ha'⟩ := h'
  exact ⟨a', rfl, ha'.trans ha⟩

/-- On more cells, too. -/
theorem ChangesAttrs.mono (h : ChangesAttrs S s s') (hST : S ⊆ T) : ChangesAttrs T s s' := by
  obtain ⟨a, rfl, ha⟩ := h
  exact ⟨a, rfl, ha.mono (Set.compl_subset_compl.2 hST)⟩

/-- A call that does nothing sets no cell. -/
theorem SetsAttrs.refl (s : System κ) : SetsAttrs f ∅ s s := ⟨s.attrs, rfl, .refl _ _⟩

/-- Two calls in turn set the cells of both. -/
theorem SetsAttrs.trans (h : SetsAttrs f S s s') (h' : SetsAttrs f T s' s'') :
    SetsAttrs f (S ∪ T) s s'' := by
  obtain ⟨a, rfl, ha⟩ := h
  obtain ⟨a', rfl, ha'⟩ := h'
  exact ⟨a', rfl, ha.trans ha'⟩

/-- The same cells, said in another way. -/
theorem SetsAttrs.congr (h : SetsAttrs f S s s') (hST : S = T) : SetsAttrs f T s s' := hST ▸ h

end

/-- `put_xattr` with the value that `f` gives to its cell. -/
theorem putXattr_sets {f : CStr × Xattr → Option CStr} (fault : Fault) (path : CStr)
    (xattr : Xattr) {value : Option CStr} (hvalue : putValue value = f (path, xattr))
    (s : System κ) :
    SetsAttrs f {c | c = (path, xattr) ∧ fault = none} s (putXattr fault path xattr value s).2 := by
  obtain ⟨hdone, hfails⟩ := putXattr_spec s fault path xattr value
  cases fault with
  | none =>
    rw [hdone rfl, hvalue]
    refine ⟨_, rfl, (Lib.Overwrites.update f s.attrs (path, xattr)).congr ?_⟩
    ext c
    simp
  | some e =>
    rw [hfails (Option.some_ne_none e)]
    refine (SetsAttrs.refl s).congr ?_
    ext c
    simp

/-- `setxattr` has a negative code exactly when it fails. -/
theorem setXattr_neg {fault : Fault} {path : CStr} {xattr : Xattr} {value : CStr} {s : System κ} :
    (setXattr fault path xattr value s).1 < 0 ↔ fault ≠ none := by
  cases fault with
  | none => exact iff_of_false (Int.lt_irrefl 0) fun h => h rfl
  | some e => exact iff_of_true (Int.neg_neg_of_pos e.pos) (Option.some_ne_none e)

/-- The labels of a path change. -/
theorem smackSetPathLabels_changes (fault : Xattr → Fault) (path label : CStr)
    (execlabel : Option CStr) (transmute : Bool) (s : System κ) :
    ChangesAttrs (attrCells path) s
      (smackSetPathLabels fault path label execlabel transmute s).2 := by
  have h1 : ChangesAttrs (attrCells path) s _ :=
    putXattr_frame s (fault .smack) path .smack (some label)
  have h2 := h1.trans (putXattr_frame _ (fault .smackexec) path .smackexec execlabel)
  exact h2.trans (putXattr_frame _ (fault .smacktransmute) path .smacktransmute
    (if transmute then some TRUE_VALUE else none))

/-- The removal of the labels of a path changes its attributes only. -/
theorem unsetPathLabels_changes (answers : Answers) (fault : Xattr → Fault) (path : CStr)
    (s : System κ) : ChangesAttrs (attrCells path) s (unsetPathLabels answers fault path s).2 := by
  simp only [unsetPathLabels]
  split
  · exact .refl s
  · have h1 : ChangesAttrs (attrCells path) s _ :=
      putXattr_frame s (fault .smack) path .smack none
    have h2 := h1.trans (putXattr_frame _ (fault .smackexec) path .smackexec none)
    exact h2.trans (putXattr_frame _ (fault .smacktransmute) path .smacktransmute none)

/-- Three calls for the three attributes of a path. -/
theorem SetsAttrs.xattrs {f : CStr × Xattr → Option CStr} {fault : Xattr → Fault} {path : CStr}
    {s s₁ s₂ s₃ : System κ} (h₁ : SetsAttrs f {c | c = (path, .smack) ∧ fault .smack = none} s s₁)
    (h₂ : SetsAttrs f {c | c = (path, .smackexec) ∧ fault .smackexec = none} s₁ s₂)
    (h₃ : SetsAttrs f {c | c = (path, .smacktransmute) ∧ fault .smacktransmute = none} s₂ s₃) :
    SetsAttrs f {c | c.1 = path ∧ fault c.2 = none} s s₃ := by
  refine ((h₁.trans h₂).trans h₃).congr ?_
  ext ⟨p, x⟩
  cases x <;> simp

/-- Each call of `smack_set_path_labels` that does not fail sets its attribute. -/
theorem smackSetPathLabels_sets {f : CStr × Xattr → Option CStr} (fault : Xattr → Fault)
    {path label : CStr} {execlabel : Option CStr} {transmute : Bool}
    (hsmack : putValue (some label) = f (path, .smack))
    (hexec : putValue execlabel = f (path, .smackexec))
    (htransmute : putValue (if transmute then some TRUE_VALUE else none) =
      f (path, .smacktransmute)) (s : System κ) :
    SetsAttrs f {c | c.1 = path ∧ fault c.2 = none} s
      (smackSetPathLabels fault path label execlabel transmute s).2 := by
  have h₁ := putXattr_sets (fault .smack) path .smack hsmack s
  have h₂ := putXattr_sets (fault .smackexec) path .smackexec hexec
    (putXattr (fault .smack) path .smack (some label) s).2
  exact h₁.xattrs h₂ (putXattr_sets (fault .smacktransmute) path .smacktransmute htransmute _)

/-- Dropping the labels of a path, with the code of the access label. -/
theorem smackSetPathLabels_drops (fault : Xattr → Fault) (path : CStr) (s : System κ) :
    SetsAttrs dropValue {c | c.1 = path ∧ fault c.2 = none} s
        (smackSetPathLabels fault path DROP_LABEL none false s).2 ∧
      ((smackSetPathLabels fault path DROP_LABEL none false s).1 < 0 ↔ fault .smack ≠ none) := by
  have hlabel : DROP_LABEL ≠ .empty := by decide
  refine ⟨smackSetPathLabels_sets fault (by simp [putValue, hlabel, dropValue]) rfl rfl s, ?_⟩
  simp only [smackSetPathLabels, Bool.false_eq_true, not_false_eq_true, or_true, if_true, ite_self]
  split
  · simp only [putXattr, if_pos hlabel]
    exact setXattr_neg
  · simp only [putXattr, if_pos hlabel]
    exact setXattr_neg

/-- The rank of a path, among distinct ones. -/
theorem pathRank_inj {paths : List Path} (hdistinct : (paths.map Path.path).Nodup) {j k : Nat}
    {p q : Path} (hp : paths[j]? = some p) (hq : paths[k]? = some q) (h : p.path = q.path) :
    j = k := by
  have hsame : (paths.map Path.path)[j]? = (paths.map Path.path)[k]? := by
    rw [List.getElem?_map, List.getElem?_map, hp, hq]
    exact congrArg some h
  have hlt : j < (paths.map Path.path).length := by
    rw [List.length_map]
    exact (List.getElem?_eq_some_iff.1 hp).1
  exact (List.getElem?_inj hlt hdistinct).1 hsame

/-- The cells of the attributes of a list of paths. -/
def pathsCells (paths : List Path) : Set (CStr × Xattr) := {c | ∃ p ∈ paths, c.1 = p.path}

/-- A loop on the paths changes the attributes of the paths. -/
theorem pathsLoop_changes {turn : Nat → Path → System κ → Int × System κ}
    (hturn : ∀ i path s, ChangesAttrs (attrCells path.path) s (turn i path s).2) :
    ∀ (i : Nat) (paths : List Path) (s : System κ),
      ChangesAttrs (pathsCells paths) s (pathsLoop turn i paths s).2
  | _, [], s => .refl s
  | i, path :: paths, s => by
    have hhead : ChangesAttrs (pathsCells (path :: paths)) s (turn i path s).2 :=
      (hturn i path s).mono fun c hc => ⟨path, List.mem_cons_self, hc⟩
    simp only [pathsLoop]
    split
    · exact hhead
    · refine hhead.trans ((pathsLoop_changes hturn (i + 1) paths _).mono ?_)
      rintro c ⟨p, hp, hc⟩
      exact ⟨p, List.mem_cons_of_mem _ hp, hc⟩

/-- `label_all_paths` changes attributes of the paths of the context only. -/
theorem labelAllPaths_changes (faults : Faults) (context : Context) (set : Bool) (s : System κ) :
    ChangesAttrs (pathsCells context.pathSet) s (labelAllPaths faults context set s).2 := by
  refine pathsLoop_changes (fun i path s => ?_) 0 context.pathSet s
  simp only [labelPath]
  split
  · exact .refl s
  split
  · exact unsetPathLabels_changes _ _ _ _
  · exact smackSetPathLabels_changes _ _ _ _ _ _

/-! ### The labels of an installation -/

/-- What `label_all_paths` writes in an attribute of a path, from the answer of `lstat`. -/
def wantedLabel (answers : Answers) (id : CStr) (set : Bool) (path : Path) (xattr : Xattr) :
    Option CStr :=
  let definition := initPathTypeDefinitions id path.pathType
  let pp := getPathProperty answers path.path false
  if set then
    match xattr with
    | .smack => putValue (some definition.label)
    | .smackexec =>
      putValue (if pp = PATH_FILE_EXEC ∧ definition.isExecutable then
        some (initPathTypeDefinitions id .typeId).label else none)
    | .smacktransmute =>
      putValue (if pp = PATH_DIRECTORY ∧ definition.isTransmute then some TRUE_VALUE else none)
  else none

/-- `f` has the wanted labels of the paths, whose ranks start at `i`. -/
def WantedFrom (answers : Nat → Answers) (id : CStr) (set : Bool)
    (f : CStr × Xattr → Option CStr) (i : Nat) (paths : List Path) : Prop :=
  ∀ k path, paths[k]? = some path → ∀ xattr,
    f (path.path, xattr) = wantedLabel (answers (i + k)) id set path xattr

/-- The labels of the first path, and of the others. -/
theorem wantedFrom_cons {answers : Nat → Answers} {id : CStr} {set : Bool}
    {f : CStr × Xattr → Option CStr} {i : Nat} {path : Path} {paths : List Path} :
    WantedFrom answers id set f i (path :: paths) ↔
      (∀ xattr, f (path.path, xattr) = wantedLabel (answers i) id set path xattr) ∧
        WantedFrom answers id set f (i + 1) paths :=
  forall_rank_cons (fun i path => ∀ xattr, f (path.path, xattr) =
    wantedLabel (answers i) id set path xattr) i path paths

/-- The cells that the calls that do not fail write, on paths of ranks from `i` on. -/
def writtenCells (faults : Faults) (i : Nat) (paths : List Path) : Set (CStr × Xattr) :=
  {c | ∃ k path, paths[k]? = some path ∧ c.1 = path.path ∧ faults.xattr (i + k) c.2 = none}

/-- The turn of `label_all_paths` writes the wanted labels, but those of the calls that fail. -/
theorem labelPath_sets {f : CStr × Xattr → Option CStr} (faults : Faults) (id : CStr) (set : Bool)
    (i : Nat) (path : Path)
    (hf : ∀ xattr, f (path.path, xattr) = wantedLabel (faults.answers i) id set path xattr)
    (s : System κ) (hrc : (labelPath faults id set i path s).1 ≥ 0) :
    SetsAttrs f {c | c.1 = path.path ∧ faults.xattr i c.2 = none} s
      (labelPath faults id set i path s).2 := by
  simp only [labelPath] at hrc ⊢
  split at hrc
  · rename_i hpp
    exact absurd hrc (not_le.2 hpp)
  rename_i hpp
  rw [if_neg hpp]
  cases set with
  | false =>
    simp only [Bool.false_eq_true, not_false_eq_true, if_true, unsetPathLabels] at hrc ⊢
    split at hrc
    · rename_i hagain
      exact absurd hrc (not_le.2 hagain)
    rename_i hagain
    rw [if_neg hagain]
    have hnone : ∀ xattr, putValue none = f (path.path, xattr) := fun xattr => by
      simpa [wantedLabel, putValue] using (hf xattr).symm
    have h₁ := putXattr_sets (faults.xattr i .smack) path.path .smack (hnone _) s
    have h₂ := putXattr_sets (faults.xattr i .smackexec) path.path .smackexec (hnone _)
      (putXattr (faults.xattr i .smack) path.path .smack none s).2
    exact h₁.xattrs h₂
      (putXattr_sets (faults.xattr i .smacktransmute) path.path .smacktransmute (hnone _) _)
  | true =>
    simp only [not_true_eq_false, if_false]
    refine smackSetPathLabels_sets (faults.xattr i) ?_ ?_ ?_ s
    · simpa [wantedLabel] using (hf .smack).symm
    · simpa [wantedLabel] using (hf .smackexec).symm
    · simpa [wantedLabel] using (hf .smacktransmute).symm

/-- A loop that goes to its end. -/
theorem labelLoop_sets {f : CStr × Xattr → Option CStr} (faults : Faults) (id : CStr)
    (set : Bool) : ∀ (i : Nat) (paths : List Path) (s : System κ),
      WantedFrom faults.answers id set f i paths →
      (pathsLoop (labelPath faults id set) i paths s).1 ≥ 0 →
      SetsAttrs f (writtenCells faults i paths) s
        (pathsLoop (labelPath faults id set) i paths s).2
  | i, [], s, _, _ => by
    refine (SetsAttrs.refl s).congr ?_
    ext c
    simp [writtenCells]
  | i, path :: paths, s, hf, hrc => by
    obtain ⟨hhead, hrest⟩ := wantedFrom_cons.1 hf
    have hturn := labelPath_sets faults id set i path hhead s
    simp only [pathsLoop] at hrc ⊢
    split at hrc
    · rename_i hneg
      exact absurd hrc (not_le.2 hneg)
    rename_i hpos
    rw [if_neg hpos]
    refine ((hturn (not_lt.1 hpos)).trans
      (labelLoop_sets faults id set (i + 1) paths _ hrest hrc)).congr ?_
    ext c
    exact (exists_rank_cons (fun i path => c.1 = path.path ∧ faults.xattr i c.2 = none) i path
      paths).symm

/-- **What `label_all_paths` writes** when it does not fail. -/
theorem labelAllPaths_sets {f : CStr × Xattr → Option CStr} (faults : Faults) (context : Context)
    (set : Bool) (hf : WantedFrom faults.answers context.idString set f 0 context.pathSet)
    (s : System κ) (hrc : (labelAllPaths faults context set s).1 ≥ 0) :
    SetsAttrs f (writtenCells faults 0 context.pathSet) s
      (labelAllPaths faults context set s).2 :=
  labelLoop_sets faults context.idString set 0 context.pathSet s hf hrc

/-- Distinct paths can all have their labels. -/
theorem exists_wantedFrom (answers : Nat → Answers) (id : CStr) (set : Bool) :
    ∀ (i : Nat) {paths : List Path}, (paths.map Path.path).Nodup →
      ∃ f, WantedFrom answers id set f i paths
  | _, [], _ => ⟨fun _ => none, fun k path hp => by cases hp⟩
  | i, path :: paths, h => by
    rw [List.map_cons, List.nodup_cons] at h
    obtain ⟨f, hf⟩ := exists_wantedFrom answers id set (i + 1) h.2
    refine ⟨fun c => if c.1 = path.path then wantedLabel (answers i) id set path c.2 else f c,
      wantedFrom_cons.2 ⟨fun xattr => if_pos rfl, fun k p hp xattr => ?_⟩⟩
    have hne : p.path ≠ path.path := fun heq =>
      h.1 (heq ▸ List.mem_map_of_mem (List.mem_of_getElem? hp))
    exact (if_neg hne).trans (hf k p hp xattr)

/-! ### The labels of a removal -/

/-- The cells that `smack_drop_path_labels` drops on paths of ranks from `i` on: those of the calls
that do not fail, up to the first path whose access label is not set. -/
def droppedCells (faults : Faults) (i : Nat) (paths : List Path) : Set (CStr × Xattr) :=
  {c | ∃ k path, paths[k]? = some path ∧ c.1 = path.path ∧
    (∀ j < k, faults.xattr (i + j) .smack = none) ∧ faults.xattr (i + k) c.2 = none}

/-- The loop over the paths, by induction: it stops at the first path whose access label is not set.
-/
theorem dropLoop_drops (faults : Faults) : ∀ (i : Nat) (paths : List Path) (s : System κ),
    SetsAttrs dropValue (droppedCells faults i paths) s (pathsLoop (fun i path =>
      smackSetPathLabels (faults.xattr i) path.path DROP_LABEL none false) i paths s).2
  | i, [], s => by
    refine (SetsAttrs.refl s).congr ?_
    ext c
    simp [droppedCells]
  | i, path :: paths, s => by
    obtain ⟨hdrops, hcode⟩ := smackSetPathLabels_drops (faults.xattr i) path.path s
    simp only [pathsLoop]
    split
    · rename_i hneg
      refine hdrops.congr ?_
      ext c
      constructor
      · rintro ⟨hc, hx⟩
        exact ⟨0, path, rfl, hc, fun j hj => absurd hj (Nat.not_lt_zero j), hx⟩
      · rintro ⟨k, p, hp, hc, hbefore, hx⟩
        cases k with
        | zero =>
          cases hp
          exact ⟨hc, hx⟩
        | succ k => exact absurd (hbefore 0 (Nat.succ_pos k)) (hcode.1 hneg)
    · rename_i hpos
      have hset : faults.xattr i .smack = none := not_not.1 fun h => hpos (hcode.2 h)
      refine (hdrops.trans (dropLoop_drops faults (i + 1) paths _)).congr ?_
      ext c
      constructor
      · rintro (⟨hc, hx⟩ | ⟨k, p, hp, hc, hbefore, hx⟩)
        · exact ⟨0, path, rfl, hc, fun j hj => absurd hj (Nat.not_lt_zero j), hx⟩
        · refine ⟨k + 1, p, hp, hc, fun j hj => ?_, ?_⟩
          · cases j with
            | zero => exact hset
            | succ j =>
              rw [show i + (j + 1) = i + 1 + j by omega]
              exact hbefore j (Nat.lt_of_succ_lt_succ hj)
          · rw [show i + (k + 1) = i + 1 + k by omega]
            exact hx
      · rintro ⟨k, p, hp, hc, hbefore, hx⟩
        cases k with
        | zero =>
          cases hp
          exact .inl ⟨hc, hx⟩
        | succ k =>
          refine .inr ⟨k, p, hp, hc, fun j hj => ?_, ?_⟩
          · rw [show i + 1 + j = i + (j + 1) by omega]
            exact hbefore (j + 1) (Nat.succ_lt_succ hj)
          · rw [show i + 1 + k = i + (k + 1) by omega]
            exact hx

/-- **What `smack_drop_path_labels` does.** -/
theorem smackDropPathLabels_drops (faults : Faults) (context : Context) (s : System κ) :
    SetsAttrs dropValue (droppedCells faults 0 context.pathSet) s
      (smackDropPathLabels faults context s).2 :=
  dropLoop_drops faults 0 context.pathSet s

/-- Without failures it drops all cells of the paths. -/
theorem droppedCells_none (paths : List Path) : droppedCells .none 0 paths = pathsCells paths := by
  ext c
  constructor
  · rintro ⟨k, path, hp, hc, -, -⟩
    exact ⟨path, List.mem_of_getElem? hp, hc⟩
  · rintro ⟨path, hp, hc⟩
    obtain ⟨k, hk⟩ := List.mem_iff_getElem?.1 hp
    exact ⟨k, path, hk, hc, fun _ _ => rfl, rfl⟩

/-! ## Links -/

/-- From `s` to `s'` only links of `S` change. -/
def ChangesLinks (S : Set CStr) (s s' : System κ) : Prop :=
  ∃ l, s' = { s with links := l } ∧ Set.EqOn l s.links (Sᶜ : Set CStr)

/-- From `s` to `s'` the links of `S` are removed. -/
def DropsLinks (S : Set CStr) (s s' : System κ) : Prop :=
  ∃ l, s' = { s with links := l } ∧ Lib.Overwrites S (fun _ => none) s.links l

section
variable {S T : Set CStr} {s s' s'' : System κ}

/-- A call that does nothing changes no link. -/
theorem ChangesLinks.refl (s : System κ) : ChangesLinks S s s :=
  ⟨s.links, rfl, Set.eqOn_refl _ _⟩

/-- Two calls in turn, on the same links. -/
theorem ChangesLinks.trans (h : ChangesLinks S s s') (h' : ChangesLinks S s' s'') :
    ChangesLinks S s s'' := by
  obtain ⟨l, rfl, hl⟩ := h
  obtain ⟨l', rfl, hl'⟩ := h'
  exact ⟨l', rfl, hl'.trans hl⟩

/-- A call that does nothing removes no link. -/
theorem DropsLinks.refl (s : System κ) : DropsLinks ∅ s s := ⟨s.links, rfl, .refl _ _⟩

/-- Two calls in turn remove the links of both. -/
theorem DropsLinks.trans (h : DropsLinks S s s') (h' : DropsLinks T s' s'') :
    DropsLinks (S ∪ T) s s'' := by
  obtain ⟨l, rfl, hl⟩ := h
  obtain ⟨l', rfl, hl'⟩ := h'
  exact ⟨l', rfl, hl.trans hl'⟩

/-- The same links, said in another way. -/
theorem DropsLinks.congr (h : DropsLinks S s s') (hST : S = T) : DropsLinks T s s' := hST ▸ h

end

/-- Where the links of the plugs of a context are, but those whose name is too long. -/
def plugPlaces (context : Context) : Set CStr :=
  {q | ∃ plug ∈ context.plugset, (plugLinkPath context plug).1 ≥ 0 ∧
    q = (plugLinkPath context plug).2}

/-- `symlink` makes the link of its path, or fails. -/
theorem symlink_changes {S : Set CStr} (fault : Fault) (label : Option CStr) (target : CStr)
    {path : CStr} (hpath : path ∈ S) (s : System κ) :
    ChangesLinks S s (symlink fault label target path s).2 := by
  cases fault with
  | some e => exact .refl s
  | none =>
    rw [symlink]
    split
    · exact .refl s
    · exact ⟨_, rfl, Lib.eqOn_update hpath _ _⟩

/-- The label of a link is part of the link. -/
theorem setLinkXattr_changes {S : Set CStr} (fault : Fault) {path : CStr} (hpath : path ∈ S)
    (value : CStr) (s : System κ) : ChangesLinks S s (setLinkXattr fault path value s).2 := by
  cases fault with
  | some e => exact .refl s
  | none => exact ⟨_, rfl, Lib.eqOn_update hpath _ _⟩

/-- `unlink` removes the link of its path, unless it fails. -/
theorem unlink_drops (fault : Fault) (path : CStr) (s : System κ) :
    DropsLinks {q | q = path ∧ fault = none} s (unlink fault path s).2 := by
  cases fault with
  | some e =>
    have hs : (unlink (some e) path s).2 = s := by
      rw [unlink]
      split <;> rfl
    rw [hs]
    refine (DropsLinks.refl s).congr ?_
    ext q
    simp
  | none =>
    refine ⟨_, rfl, (Lib.Overwrites.update (fun _ => none) s.links path).congr ?_⟩
    ext q
    simp

/-- `install_smack_plugs` changes links of the plugs only. -/
theorem installSmackPlugs_changes (env : SmackEnv κ ρ) (faults : Faults) (context : Context)
    (s : System κ) :
    ChangesLinks (plugPlaces context) s (installSmackPlugs env faults context s).2 := by
  have hturn : ∀ i, ∀ plug ∈ context.plugset, ∀ s,
      ChangesLinks (plugPlaces context) s (installPlug env faults context i plug s).2 := by
    intro i plug hplug s
    simp only [installPlug]
    split
    · exact .refl s
    · rename_i hname
      have hplace : (plugLinkPath context plug).2 ∈ plugPlaces context :=
        ⟨plug, hplug, not_lt.1 hname, rfl⟩
      have hlink := symlink_changes (faults.symlink i) env.linkLabel plug.expdir hplace s
      split
      · exact hlink
      · exact hlink.trans (setLinkXattr_changes _ hplace _ _)
  suffices hloop : ∀ i plugs rc s, (∀ plug ∈ plugs, plug ∈ context.plugset) →
      ChangesLinks (plugPlaces context) s
        (plugsLoop (installPlug env faults context) i plugs rc s).2 from
    hloop 0 _ 0 s fun _ h => h
  intro i plugs
  induction plugs generalizing i with
  | nil => exact fun _ s _ => .refl s
  | cons plug plugs ih =>
    intro rc s hplugs
    exact (hturn i plug (hplugs plug List.mem_cons_self) s).trans
      (ih (i + 1) _ _ fun p hp => hplugs p (List.mem_cons_of_mem _ hp))

/-- The links that `uninstall_smack_plugs` removes, for plugs of ranks from `i` on: those of the
calls that do not fail. -/
def droppedPlaces (faults : Faults) (context : Context) (i : Nat) (plugs : List Plug) : Set CStr :=
  {q | ∃ k plug, plugs[k]? = some plug ∧ (plugLinkPath context plug).1 ≥ 0 ∧
    q = (plugLinkPath context plug).2 ∧ faults.unlink (i + k) = none}

/-- The turn for one plug: its link, if the name of it is not too long. -/
theorem uninstallPlug_drops (faults : Faults) (context : Context) (i : Nat) (plug : Plug)
    (s : System κ) :
    DropsLinks {q | (plugLinkPath context plug).1 ≥ 0 ∧ q = (plugLinkPath context plug).2 ∧
      faults.unlink i = none} s (uninstallPlug faults context i plug s).2 := by
  simp only [uninstallPlug]
  split
  · rename_i hname
    refine (DropsLinks.refl s).congr ?_
    ext q
    exact iff_of_false (Set.notMem_empty q) fun h => not_le.2 hname h.1
  · rename_i hname
    refine (unlink_drops _ _ s).congr ?_
    ext q
    exact (and_iff_right (not_lt.1 hname)).symm

/-- **What `uninstall_smack_plugs` does.** -/
theorem uninstallSmackPlugs_drops (faults : Faults) (context : Context) (s : System κ) :
    DropsLinks (droppedPlaces faults context 0 context.plugset) s
      (uninstallSmackPlugs faults context s).2 := by
  suffices hloop : ∀ i plugs rc s, DropsLinks (droppedPlaces faults context i plugs) s
      (plugsLoop (uninstallPlug faults context) i plugs rc s).2 from hloop 0 _ 0 s
  intro i plugs
  induction plugs generalizing i with
  | nil =>
    refine fun _ s => (DropsLinks.refl s).congr ?_
    ext q
    simp [droppedPlaces]
  | cons plug plugs ih =>
    intro rc s
    refine ((uninstallPlug_drops faults context i plug s).trans (ih (i + 1) _ _)).congr ?_
    ext q
    exact (exists_rank_cons (fun i plug => (plugLinkPath context plug).1 ≥ 0 ∧
      q = (plugLinkPath context plug).2 ∧ faults.unlink i = none) i plug plugs).symm

/-- Without failures all links of the plugs are removed. -/
theorem droppedPlaces_none (context : Context) :
    droppedPlaces .none context 0 context.plugset = plugPlaces context := by
  ext q
  constructor
  · rintro ⟨k, plug, hp, hname, hq, -⟩
    exact ⟨plug, List.mem_of_getElem? hp, hname, hq⟩
  · rintro ⟨plug, hp, hname, hq⟩
    obtain ⟨k, hk⟩ := List.mem_iff_getElem?.1 hp
    exact ⟨k, plug, hk, hname, hq, rfl⟩

end SecLsmManager

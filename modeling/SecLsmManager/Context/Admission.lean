import SecLsmManager.Context.Invariant
import SecLsmManager.Context.PathAgain

/-!
# What the operations accept

The conditions under which an operation succeeds, as they are left in the context that it sets:
each recorded property is in normal form, passes `is_utf8` and denotes what it should in the file
system, so that the operation that set it succeeds again in a context without it.
-/

namespace SecLsmManager

open Lib

/-! ## Standard absolute paths -/

/-- The standard path fits the buffers of the operations, and is got without taking back what is
beyond them. -/
def FitsStd (path : CStr) : Prop :=
  Overflows stdSize path = false ∧ (scanPath path).standard.length < stdSize

instance (path : CStr) : Decidable (FitsStd path) := inferInstanceAs (Decidable (_ ∧ _))

/-- No standard path is empty. -/
theorem standard_ne_nil (path : CStr) : (scanPath path).standard ≠ [] := by
  have hreg : ∀ c ∈ (scanPath path).kept, Regular c := by
    intro c hc
    rw [scanPath, PathScan.kept_scan] at hc
    exact foldl_keep_regular (List.forall_mem_nil _) c hc
  rw [PathScan.standard]
  split
  · cases (scanPath path).slash <;> simp
  · rename_i hkept
    rwa [ne_eq, PathScan.text_eq_nil hreg]

/-- The first character of a text that is in a buffer. -/
theorem StoredText.head {size : Nat} {buffer : Nat → UInt8} {text : List UInt8}
    (h : StoredText size buffer text) (hsize : 0 < size) (hne : text ≠ []) :
    text.head? = some (buffer 0) := by
  obtain ⟨c, text, rfl⟩ := List.exists_cons_of_ne_nil hne
  obtain ⟨n, rfl⟩ := Nat.exists_eq_succ_of_ne_zero (Nat.ne_of_gt hsize)
  have hstored := h.stored
  rw [List.length_cons, Nat.succ_min_succ, cells_succ, List.take_succ_cons] at hstored
  rw [List.head?_cons, (List.cons.inj hstored).1]

/-- `context_add_path` and `context_add_plug` go on with a path whose standard path fits and starts
with a slash, and refuse the others. -/
theorem stdAbsolute_code (path : CStr) :
    (stdAbsolute path).1 =
      if FitsStd path ∧ (scanPath path).standard.head? = some SLASH then 0 else -EINVAL := by
  by_cases hfits : FitsStd path
  · obtain ⟨hlen, htext⟩ := pathStd_scan (fun _ => 0) hfits.1
    have hne := standard_ne_nil path
    have hlong : ¬ (pathStd (fun _ => 0) stdSize path).1 ≥ stdSize := by
      rw [hlen]
      exact Nat.not_le_of_lt hfits.2
    have hpos : ¬ (pathStd (fun _ => 0) stdSize path).1 < 1 := by
      rw [hlen]
      exact Nat.not_lt.2 (List.length_pos_of_ne_nil hne)
    have hhead : (scanPath path).standard.head? = some SLASH ↔
        (pathStd (fun _ => 0) stdSize path).2 0 = SLASH := by
      rw [htext.head (by decide) hne, Option.some.injEq]
    simp only [stdAbsolute, if_neg hlong, hpos, false_or, hfits, true_and]
    split
    · rename_i h
      exact (if_neg fun hs => h (hhead.1 hs)).symm
    · rename_i h
      exact (if_pos (hhead.2 (Classical.not_not.1 h))).symm
  · rw [if_neg fun h => hfits h.1]
    have hlong : (pathStd (fun _ => 0) stdSize path).1 ≥ stdSize := by
      rw [FitsStd, not_and, not_lt] at hfits
      cases hover : Overflows stdSize path with
      | true => exact Nat.le_of_lt (pathStd_beyond _ hover).1
      | false => exact (pathStd_scan _ hover).1 ▸ hfits hover
    simp only [stdAbsolute, if_pos hlong]

/-- The length of a path that is accepted. -/
theorem stdAbsolute_accepted {path : CStr} (h : (stdAbsolute path).1 = 0) :
    ¬ (stdAbsolute path).2.length < 1 ∧
      ¬ (stdAbsolute path).2.length > SEC_LSM_MANAGER_MAX_SIZE_PATH := by
  have hinval : -EINVAL ≠ 0 := by decide
  have hspec := pathStd_spec (fun _ => 0) stdSize path
  unfold stdAbsolute at h ⊢
  simp only at h ⊢
  split at h
  · exact absurd h hinval
  split at h
  · exact absurd h hinval
  · rename_i hlong hstart
    rw [not_or, Classical.not_not] at hstart
    have hlength := (hspec (Nat.lt_of_not_le hlong) hstart.2).2
    rw [if_neg hlong, if_neg (not_or.2 ⟨hstart.1, Classical.not_not.2 hstart.2⟩), hlength]
    exact ⟨hstart.1, fun hlt => hlong hlt⟩

/-- A normalised path that fits is accepted as it is. -/
theorem stdAbsolute_normalised {path : CStr} (h : path.Normalised) (hlen : path.length < stdSize) :
    stdAbsolute path = (0, path) := by
  obtain ⟨h1, h2, h3⟩ := stdPath_normalised h hlen
  have hpos : 1 ≤ path.length := by
    rcases h with h | ⟨comps, hne, -, hb⟩
    · rw [CStr.length, h]
      exact Nat.le_refl 1
    · obtain ⟨c, comps, rfl⟩ := List.exists_cons_of_ne_nil hne
      rw [CStr.length, hb]
      exact Nat.succ_pos _
  have hstart : ¬ (path.length < 1 ∨ (pathStd (fun _ => 0) stdSize path).2 0 ≠ SLASH) := by
    rintro (hlt | hne)
    · exact absurd hpos (Nat.not_le_of_lt hlt)
    · exact hne h2
  rw [stdAbsolute]
  simp only [h1, if_neg (Nat.not_le_of_lt hlen), if_neg hstart, h3]

/-- The standard path of UTF-8 text is UTF-8 text. -/
theorem stdAbsolute_utf8 {path : CStr} (h : isUtf8 path = true) (hrc : (stdAbsolute path).1 ≥ 0) :
    isUtf8 (stdAbsolute path).2 = true := by
  have hinval : ¬ -EINVAL ≥ 0 := by decide
  have hstd := @pathStd_utf8 stdSize path h
  unfold stdAbsolute at hrc ⊢
  simp only at hrc ⊢
  split
  · rename_i hlen
    rw [if_pos hlen] at hrc
    exact absurd hrc hinval
  split
  · rename_i hlen hstart
    rw [if_neg hlen, if_pos hstart] at hrc
    exact absurd hrc hinval
  · rename_i hlen hstart
    rw [not_or, Classical.not_not] at hstart
    exact hstd (Nat.lt_of_not_le hlen) hstart.2

/-! ## Properties -/

/-- The code for a context in error is negative. -/
theorem notRecoverable_neg : -ENOTRECOVERABLE < 0 := by decide

/-- The answers of a file system, when no allocation fails. -/
def Answers.over (stat : CStr → Bool → StatAnswer) : Answers := ⟨stat, fun _ => true⟩

/-- A path that can be recorded. -/
structure PathAdmitted (stat : CStr → Bool → StatAnswer) (path : CStr) : Prop where
  utf8 : isUtf8 path = true
  normalised : path.Normalised
  length_pos : ¬ path.length < 1
  length_lt : path.length < SEC_LSM_MANAGER_MAX_SIZE_PATH
  found : checkPathExists (.over stat) path false ≥ 0

/-- A plug that can be recorded. -/
structure PlugAdmitted (stat : CStr → Bool → StatAnswer) (plug : Plug) : Prop where
  utf8 : isUtf8 plug.expdir = true ∧ isUtf8 plug.impid = true ∧ isUtf8 plug.impdir = true
  normalised : plug.expdir.Normalised ∧ plug.impdir.Normalised
  expdir_length : ¬ plug.expdir.length < 1 ∧ ¬ plug.expdir.length > SEC_LSM_MANAGER_MAX_SIZE_PATH
  impdir_length : ¬ plug.impdir.length < 1 ∧ ¬ plug.impdir.length > SEC_LSM_MANAGER_MAX_SIZE_PATH
  impid : ValidId plug.impid
  expdir_found : checkDirectoryExists (.over stat) plug.expdir true ≥ 0
  impdir_found : checkDirectoryExists (.over stat) plug.impdir true ≥ 0

/-- A recorded path was admitted. -/
theorem contextAddPath_admits {answers : Answers} {context : Context} {path type : CStr}
    (hu : isUtf8 path = true) (h : (contextAddPath answers context path type).1 ≥ 0) :
    PathAdmitted answers.stat (stdAbsolute path).2 := by
  have hstd := stdAbsolute_spec path
  have hutf8 := @stdAbsolute_utf8 path hu
  have hinval : -EINVAL < 0 := by decide
  have hexist : -EEXIST < 0 := by decide
  unfold contextAddPath at h
  split at h
  · exact absurd h (Int.not_le.2 notRecoverable_neg)
  simp only at h
  split at h
  · exact absurd h (Int.not_le.2 hinval)
  generalize stdAbsolute path = std at hstd hutf8 h ⊢
  obtain ⟨rc, stdpath⟩ := std
  simp only at hstd hutf8 h ⊢
  split at h
  · exact absurd h (Int.not_le.2 ‹_›)
  split at h
  · exact absurd h (Int.not_le.2 hexist)
  split at h
  · exact absurd h (Int.not_le.2 ‹_›)
  rename_i hrc _ hfound
  unfold pathSetAdd at h
  split at h
  · exact absurd h (Int.not_le.2 hinval)
  rename_i hlen
  rw [not_or, not_le] at hlen
  exact ⟨hutf8 (Int.not_lt.1 hrc), (hstd.resolve_right hrc).2, hlen.1, hlen.2, Int.not_lt.1 hfound⟩

/-- The name of a type is read as this type. -/
theorem pathTypeGet_typeStrings {pathType : PathType} (h : pathTypeIsValid pathType = true) :
    pathTypeGet (typeStrings pathType) = pathType := by
  cases pathType with
  | typeUnset => cases h
  | _ => decide +kernel

/-- An admitted path is recorded in a context without it. -/
theorem contextAddPath_admitted {stat : CStr → Bool → StatAnswer} {context : Context} {path : Path}
    (hflag : context.errorFlag = false) (htype : pathTypeIsValid path.pathType = true)
    (h : PathAdmitted stat path.path) (hfresh : path.path ∉ context.pathSet.map Path.path) :
    contextAddPath (.over stat) context path.path (typeStrings path.pathType) =
      (0, { context with
        pathSet := context.pathSet ++ [path]
        needId := if path.pathType ≠ .typeDefault then true else context.needId }) := by
  have hstd : stdAbsolute path.path = (0, path.path) :=
    stdAbsolute_normalised h.normalised (Nat.lt_succ_of_lt h.length_lt)
  have hhas : ¬ pathSetHas context.pathSet path.path = true := by
    intro hh
    rw [pathSetHas, pathSetSearch, List.find?_isSome] at hh
    obtain ⟨p, hp, heq⟩ := hh
    exact hfresh (of_decide_eq_true heq ▸ List.mem_map_of_mem hp)
  have hlen : ¬ (path.path.length < 1 ∨ path.path.length ≥ SEC_LSM_MANAGER_MAX_SIZE_PATH) :=
    not_or.2 ⟨h.length_pos, Nat.not_le_of_lt h.length_lt⟩
  have hflag : ¬ context.errorFlag = true := by simp [hflag]
  have hadd : pathSetAdd (.over stat) context.pathSet path.path path.pathType =
      (0, context.pathSet ++ [path]) := by
    rw [pathSetAdd, if_neg hlen]
    simp [htype, Answers.over]
  rw [contextAddPath, if_neg hflag]
  simp only [pathTypeGet_typeStrings htype, htype, not_true_eq_false, if_false, hstd,
    Int.lt_irrefl, hhas, Bool.false_eq_true, Int.not_lt.2 h.found, hadd]

/-- A recorded plug was admitted. -/
theorem contextAddPlug_admits {answers : Answers} {context : Context} {expdir impid impdir : CStr}
    (he : isUtf8 expdir = true) (hi : isUtf8 impid = true) (hd : isUtf8 impdir = true)
    (h : (contextAddPlug answers context expdir impid impdir).1 ≥ 0) :
    PlugAdmitted answers.stat ⟨(stdAbsolute expdir).2, impid, (stdAbsolute impdir).2⟩ := by
  have hexp := stdAbsolute_spec expdir
  have himp := stdAbsolute_spec impdir
  have hexp8 := @stdAbsolute_utf8 expdir he
  have himp8 := @stdAbsolute_utf8 impdir hd
  have hinval : -EINVAL < 0 := by decide
  have hexist : -EEXIST < 0 := by decide
  unfold contextAddPlug at h
  split at h
  · exact absurd h (Int.not_le.2 notRecoverable_neg)
  generalize stdAbsolute expdir = std at hexp hexp8 h ⊢
  obtain ⟨rce, stdexpdir⟩ := std
  generalize stdAbsolute impdir = std at himp himp8 h ⊢
  obtain ⟨rci, stdimpdir⟩ := std
  simp only at hexp himp hexp8 himp8 h ⊢
  split at h
  · exact absurd h (Int.not_le.2 ‹_›)
  split at h
  · exact absurd h (Int.not_le.2 ‹_›)
  split at h
  · exact absurd h (Int.not_le.2 hexist)
  split at h
  · exact absurd h (Int.not_le.2 ‹_›)
  split at h
  · exact absurd h (Int.not_le.2 ‹_›)
  split at h
  · exact absurd h (Int.not_le.2 ‹_›)
  rename_i hrce hrci _ hid hfe hfi
  unfold plugsetAdd at h
  split at h
  · exact absurd h (Int.not_le.2 hinval)
  rename_i hlen
  simp only [not_or] at hlen
  exact
    { utf8 := ⟨hexp8 (Int.not_lt.1 hrce), hi, himp8 (Int.not_lt.1 hrci)⟩
      normalised := ⟨(hexp.resolve_right hrce).2, (himp.resolve_right hrci).2⟩
      expdir_length := ⟨hlen.1, hlen.2.1⟩
      impdir_length := ⟨hlen.2.2.1, hlen.2.2.2.1⟩
      impid := contextIsValidId_nonneg.1 (Int.not_lt.1 hid)
      expdir_found := Int.not_lt.1 hfe
      impdir_found := Int.not_lt.1 hfi }

/-- An admitted plug is recorded in a context without its import directory. -/
theorem contextAddPlug_admitted {stat : CStr → Bool → StatAnswer} {context : Context} {plug : Plug}
    (hflag : context.errorFlag = false) (h : PlugAdmitted stat plug)
    (hfresh : plug.impdir ∉ context.plugset.map Plug.impdir) :
    contextAddPlug (.over stat) context plug.expdir plug.impid plug.impdir =
      (0, { context with plugset := plug :: context.plugset, needId := true }) := by
  have hstd : ∀ {path : CStr}, path.Normalised → ¬ path.length > SEC_LSM_MANAGER_MAX_SIZE_PATH →
      stdAbsolute path = (0, path) :=
    fun hn hle => stdAbsolute_normalised hn (Nat.lt_succ_of_le (Nat.le_of_not_lt hle))
  have hhas : ¬ plugsetHas context.plugset none none (some plug.impdir) = true := by
    intro hh
    rw [plugsetHas, plugsetSearch, List.find?_isSome] at hh
    obtain ⟨p, hp, heq⟩ := hh
    have heq : plug.impdir = p.impdir := by simpa using heq
    exact hfresh (heq ▸ List.mem_map_of_mem hp)
  have hflag : ¬ context.errorFlag = true := by simp [hflag]
  have hid := contextIsValidId_nonneg.2 h.impid
  have hadd : plugsetAdd (.over stat) context.plugset plug.expdir plug.impid plug.impdir =
      (0, plug :: context.plugset) := by
    have hlen : ¬ (plug.expdir.length < 1 ∨ plug.expdir.length > SEC_LSM_MANAGER_MAX_SIZE_PATH ∨
        plug.impdir.length < 1 ∨ plug.impdir.length > SEC_LSM_MANAGER_MAX_SIZE_PATH ∨
        plug.impid.length < SEC_LSM_MANAGER_MIN_SIZE_ID ∨
        plug.impid.length > SEC_LSM_MANAGER_MAX_SIZE_ID) := by
      simp only [not_or]
      exact ⟨h.expdir_length.1, h.expdir_length.2, h.impdir_length.1, h.impdir_length.2,
        Nat.not_lt.2 h.impid.min_le, Nat.not_lt.2 h.impid.le_max⟩
    rw [plugsetAdd, if_neg hlen]
    simp [Answers.over]
  rw [contextAddPlug, if_neg hflag]
  simp only [hstd h.normalised.1 h.expdir_length.2, hstd h.normalised.2 h.impdir_length.2,
    Int.lt_irrefl, if_false, hhas, Bool.false_eq_true, Int.not_lt.2 hid,
    Int.not_lt.2 h.expdir_found, Int.not_lt.2 h.impdir_found, hadd]

/-- A permission of a proper length is recorded in a context without it. -/
theorem contextAddPermission_admitted {stat : CStr → Bool → StatAnswer} {context : Context}
    {permission : CStr} (hflag : context.errorFlag = false)
    (hmin : SEC_LSM_MANAGER_MIN_SIZE_PERMISSION ≤ permission.length)
    (hmax : permission.length ≤ SEC_LSM_MANAGER_MAX_SIZE_PERMISSION)
    (hfresh : permissionSetHas context.permissionSet permission = false) :
    contextAddPermission (.over stat) context permission =
      (0, { context with
        permissionSet := context.permissionSet ++ [permission], needId := true }) := by
  have hflag : ¬ context.errorFlag = true := by simp [hflag]
  have hadd : permissionSetAdd (.over stat) context.permissionSet permission =
      (0, context.permissionSet ++ [permission]) := by
    have hlen : ¬ (permission.length < SEC_LSM_MANAGER_MIN_SIZE_PERMISSION ∨
        permission.length > SEC_LSM_MANAGER_MAX_SIZE_PERMISSION) :=
      not_or.2 ⟨Nat.not_lt.2 hmin, Nat.not_lt.2 hmax⟩
    rw [permissionSetAdd, if_neg (by simp [hfresh]), if_neg hlen]
    simp [Answers.over]
  rw [contextAddPermission, if_neg hflag, if_neg (by simp [hfresh])]
  simp only [hadd, Int.lt_irrefl, if_false]

/-! ## The paths that are recorded -/

/-- The file system has an entry at a path, which may be a link. -/
def Entry (stat : CStr → Bool → StatAnswer) (path : CStr) : Prop :=
  ∃ islnk isdir isexec, stat path false = .mode islnk isdir isexec

/-- A path is refused when no entry has it. -/
theorem checkPathExists_iff (stat : CStr → Bool → StatAnswer) (path : CStr) :
    checkPathExists (.over stat) path false < 0 ↔ ¬ Entry stat path := by
  unfold checkPathExists getPathProperty Entry
  cases h : stat path false with
  | error e =>
    have hneg : ∀ a b : Prop, [Decidable a] → [Decidable b] →
        (if a then -ENOENT else if b then -ENOMEM else -EACCES) < 0 := by
      intro a b _ _
      split
      · decide
      split <;> decide
    simp [Answers.over, h, hneg]
  | mode islnk isdir isexec =>
    cases islnk <;> cases isdir <;> cases isexec <;>
      simp [Answers.over, h, PATH_FILE_DATA, PATH_FILE_EXEC, PATH_DIRECTORY, PATH_LINK]

/-- A type string is that of one of the types tried. -/
theorem pathTypeGet_cases (type : CStr) :
    (pathTypeIsValid (pathTypeGet type) = true ∧ pathTypeGet type ∈ pathTypes ∧
        typeStrings (pathTypeGet type) = type) ∨
      (pathTypeIsValid (pathTypeGet type) = false ∧ type ∉ pathTypes.map typeStrings) := by
  unfold pathTypeGet
  cases h : pathTypes.find? fun t => type = typeStrings t with
  | none =>
    refine .inr ⟨rfl, fun hm => ?_⟩
    obtain ⟨t, ht, rfl⟩ := List.mem_map.1 hm
    exact List.find?_eq_none.1 h t ht (decide_eq_true rfl)
  | some t =>
    have ht := List.mem_of_find?_eq_some h
    have htype := List.find?_some h
    refine .inl ⟨?_, ht, (of_decide_eq_true htype).symm⟩
    revert ht
    cases t <;> decide

/-- A valid query for a path: it is for one of the ten types and for a path of at most 1024 bytes
that exists and is not recorded yet. -/
structure ValidPathQuery (stat : CStr → Bool → StatAnswer) (context : Context) (path type : CStr) :
    Prop where
  type : type ∈ pathTypes.map typeStrings
  length : path.length ≤ 1024
  entry : Entry stat path
  fresh : path ∉ context.pathSet.map Path.path

/-- A path is accepted when its query is valid, and is recorded with its type then. -/
structure AcceptedIfValid (stat : CStr → Bool → StatAnswer) (context : Context)
    (path type : CStr) : Prop where
  accepted : (contextAddPath (.over stat) context path type).1 = 0 ↔
    ValidPathQuery stat context path type
  recorded : (contextAddPath (.over stat) context path type).1 = 0 →
    ∃ pathType ∈ pathTypes, typeStrings pathType = type ∧
      (contextAddPath (.over stat) context path type).2.pathSet =
        context.pathSet ++ [⟨path, pathType⟩]

section

variable {stat : CStr → Bool → StatAnswer} {context : Context} {path type : CStr}

/-- A path that is found is in the set. -/
theorem mem_of_pathSetHas {pathSet : List Path} (h : pathSetHas pathSet path = true) :
    path ∈ pathSet.map Path.path := by
  rw [pathSetHas, pathSetSearch, List.find?_isSome] at h
  obtain ⟨p, hp, heq⟩ := h
  exact List.mem_map.2 ⟨p, hp, (of_decide_eq_true heq).symm⟩

/-- A normalised path has a character. -/
theorem CStr.Normalised.ne_nil (h : path.Normalised) : path.bytes ≠ [] := by
  obtain ⟨rest, hrest⟩ := h.absolute.bytes
  rw [hrest]
  exact List.cons_ne_nil _ _

/-- With enough memory a path is added, if it is short enough. -/
theorem pathSetAdd_over {pathType : PathType} (htype : pathTypeIsValid pathType = true)
    (hpos : ¬ path.length < 1) (pathSet : List Path) :
    pathSetAdd (.over stat) pathSet path pathType =
      if path.length < 1024 then (0, pathSet ++ [⟨path, pathType⟩]) else (-EINVAL, pathSet) := by
  unfold pathSetAdd
  by_cases hlt : path.length < 1024
  · have hbounds : ¬ (path.length < 1 ∨ path.length ≥ SEC_LSM_MANAGER_MAX_SIZE_PATH) :=
      not_or.2 ⟨hpos, Nat.not_le_of_lt hlt⟩
    rw [if_pos hlt, if_neg hbounds]
    simp [htype, Answers.over]
  · have hlong : path.length ≥ SEC_LSM_MANAGER_MAX_SIZE_PATH := Nat.le_of_not_lt hlt
    rw [if_neg hlt, if_pos (.inr hlong)]

/-- A query for a normalised path succeeds when it is valid and for a path of less than 1024
bytes. -/
theorem contextAddPath_normalised (hflag : context.errorFlag = false) (hnorm : path.Normalised) :
    ((contextAddPath (.over stat) context path type).1 = 0 ↔
        ValidPathQuery stat context path type ∧ path.length ≠ 1024) ∧
      ((contextAddPath (.over stat) context path type).1 = 0 →
        ∃ pathType ∈ pathTypes, typeStrings pathType = type ∧
          (contextAddPath (.over stat) context path type).2.pathSet =
            context.pathSet ++ [⟨path, pathType⟩]) := by
  have hinval : ¬ -EINVAL = 0 := by decide
  have hexist : ¬ -EEXIST = 0 := by decide
  have refused : ∀ {rc : Int} {c : Context}, rc ≠ 0 →
      ¬ (ValidPathQuery stat context path type ∧ path.length ≠ 1024) →
      ((rc, c).1 = 0 ↔ ValidPathQuery stat context path type ∧ path.length ≠ 1024) ∧
      ((rc, c).1 = 0 → ∃ pathType ∈ pathTypes, typeStrings pathType = type ∧
        (rc, c).2.pathSet = context.pathSet ++ [⟨path, pathType⟩]) :=
    fun hrc hnot => ⟨iff_of_false hrc hnot, fun h0 => absurd h0 hrc⟩
  rw [contextAddPath, if_neg (by rw [hflag]; decide)]
  simp only
  obtain ⟨htype, hmem, hstring⟩ | ⟨htype, hnone⟩ := pathTypeGet_cases type
  · rw [if_neg (by rw [htype]; decide)]
    by_cases hfits : path.length < stdSize
    · rw [stdAbsolute_normalised hnorm hfits]
      simp only [Int.lt_irrefl, if_false]
      split
      · rename_i hhas
        exact refused hexist fun hv => absurd hv.1.fresh (not_not.2 (mem_of_pathSetHas hhas))
      rename_i hhas
      split
      · rename_i hfound
        exact refused (Int.ne_of_lt hfound) fun hv =>
          (checkPathExists_iff stat path).1 hfound hv.1.entry
      rename_i hfound
      have hentry : Entry stat path :=
        not_not.1 fun hn => hfound ((checkPathExists_iff stat path).2 hn)
      have hpos : ¬ path.length < 1 := Nat.not_lt.2 (List.length_pos_of_ne_nil hnorm.ne_nil)
      rw [pathSetAdd_over htype hpos]
      by_cases hlt : path.length < 1024
      · rw [if_pos hlt]
        refine ⟨iff_of_true rfl ⟨⟨?_, Nat.le_of_lt hlt, hentry, pathSetHas_eq_false hhas⟩,
          Nat.ne_of_lt hlt⟩, fun _ => ⟨_, hmem, hstring, rfl⟩⟩
        exact List.mem_map.2 ⟨_, hmem, hstring⟩
      · rw [if_neg hlt]
        exact refused hinval fun hv => hlt (Nat.lt_of_le_of_ne hv.1.length hv.2)
    · have hcode : (stdAbsolute path).1 = -EINVAL := by
        rw [stdAbsolute_code, if_neg]
        rintro ⟨⟨-, hlt⟩, -⟩
        rw [standard_absolute hnorm.absolute, hnorm.normalForm] at hlt
        exact hfits hlt
      rw [if_pos (by rw [hcode]; decide), hcode]
      exact refused hinval fun hv => hfits (Nat.lt_succ_of_le hv.1.length)
  · rw [if_pos (by rw [htype]; decide)]
    exact refused hinval fun hv => hnone hv.1.type

/-- **A path is accepted exactly when its query is valid**, but one of 1024 bytes: the path set
refuses it. -/
theorem contextAddPath_valid_iff (stat : CStr → Bool → StatAnswer) (context : Context)
    (path type : CStr) (hflag : context.errorFlag = false) (hnorm : path.Normalised) :
    AcceptedIfValid stat context path type ↔
      ¬ (ValidPathQuery stat context path type ∧ path.length = 1024) := by
  obtain ⟨hcode, hrecorded⟩ := @contextAddPath_normalised stat context path type hflag hnorm
  constructor
  · rintro haccepted ⟨hvalid, hlen⟩
    exact (hcode.1 (haccepted.accepted.2 hvalid)).2 hlen
  · intro hlen
    refine ⟨hcode.trans ⟨And.left, fun hvalid => ⟨hvalid, fun h => hlen ⟨hvalid, h⟩⟩⟩, hrecorded⟩

/-- The path `/a` is accepted. -/
theorem contextAddPath_valid_short :
    AcceptedIfValid (fun _ _ => .mode false false false) (contextInit fun _ => 0) (.lit "/a")
      (.lit "conf") :=
  (contextAddPath_valid_iff _ _ (.lit "/a") _ rfl
    (.inr ⟨[[97]], by simp, by simpa using ⟨by simp, by decide, by decide, by decide, by decide⟩,
      rfl⟩)).2 fun h => absurd h.2 (by decide)

/-- There are normalised paths of all lengths. -/
theorem exists_normalised {n : Nat} (h : 3 < n) :
    ∃ path : CStr, path.Normalised ∧ path.length = n := by
  have hlen : ∀ {c : List UInt8}, List.replicate (n - 1) 97 = c → c.length = n - 1 :=
    fun h => h ▸ List.length_replicate
  have hmem : ∀ {b : UInt8}, b ≠ 97 → b ∉ List.replicate (n - 1) 97 :=
    fun hb hm => hb (List.eq_of_mem_replicate hm)
  have hcomp : Component (List.replicate (n - 1) 97) :=
    { ne_nil := fun hc => absurd (hlen hc) (by simp; omega)
      noslash := hmem (by decide)
      nonul := hmem (by decide)
      ne_dot := fun hc => absurd (hlen hc) (by simp; omega)
      ne_dotdot := fun hc => absurd (hlen hc) (by simp; omega) }
  refine ⟨⟨SLASH :: List.replicate (n - 1) 97, ?_⟩, .inr ⟨[List.replicate (n - 1) 97], ?_, ?_, ?_⟩,
    ?_⟩
  · rw [List.mem_cons, not_or]
    exact ⟨by decide, hcomp.nonul⟩
  · exact List.cons_ne_nil _ _
  · exact List.forall_mem_singleton.2 hcomp
  · rw [List.flatMap_singleton]
  · rw [CStr.length, List.length_cons, List.length_replicate]
    omega

/-- A path of 1024 bytes is refused, though its query is valid. -/
theorem contextAddPath_longest_refused :
    ¬ ∀ (stat : CStr → Bool → StatAnswer) (context : Context) (path type : CStr),
      context.errorFlag = false → path.Normalised → AcceptedIfValid stat context path type := by
  intro h
  let stat : CStr → Bool → StatAnswer := fun _ _ => .mode false false false
  obtain ⟨path, hnorm, hlen⟩ := exists_normalised (show 3 < 1024 by decide)
  have hvalid : ValidPathQuery stat (contextInit fun _ => 0) path (.lit "conf") :=
    ⟨by decide +kernel, Nat.le_of_eq hlen, ⟨_, _, _, rfl⟩, List.not_mem_nil⟩
  have hcode :=
    (@contextAddPath_normalised stat (contextInit fun _ => 0) path (.lit "conf") rfl hnorm).1
  have haccepted := h stat (contextInit fun _ => 0) path (.lit "conf") rfl hnorm
  exact (hcode.1 (haccepted.accepted.2 hvalid)).2 hlen

end

end SecLsmManager

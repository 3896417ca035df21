import SecLsmManager.Context.Context

/-!
# The representation invariant of the context

For each operation one lemma says all it can do: fail and leave the context as it was, or record
one setting that passed every check. The invariant `Context.Inv` and the accepted settings are
both derived from these.
-/

namespace SecLsmManager

open Lib

/-! ## Identifiers -/

/-- The string of an id ends with the block that holds it. -/
theorem idString_length_le (context : Context) : context.idString.length ≤ Context.idSize := by
  have hle := (List.takeWhile_prefix (· ≠ 0) (l := cells context.id 0 Context.idSize)).length_le
  simpa [Context.idString, CStr.ofBytes, CStr.length] using hle

/-- An identifier of the form `[-_a-zA-Z0-9]{2,200}`. -/
structure ValidId (id : CStr) : Prop where
  min_le : SEC_LSM_MANAGER_MIN_SIZE_ID ≤ id.length
  le_max : id.length ≤ SEC_LSM_MANAGER_MAX_SIZE_ID
  chars : ∀ car ∈ id.bytes, isIdChar car = true

/-- The loop of `is_valid_id` gives the length of a string of id characters, between the bounds. -/
theorem validIdLoop_eq {idx : Nat} (h : idx ≤ SEC_LSM_MANAGER_MAX_SIZE_ID) (l : List UInt8) :
    validIdLoop idx l =
      if SEC_LSM_MANAGER_MIN_SIZE_ID ≤ idx + l.length ∧
          idx + l.length ≤ SEC_LSM_MANAGER_MAX_SIZE_ID ∧ l.all isIdChar = true then
        ((idx + l.length : Nat) : Int)
      else -EINVAL := by
  induction l generalizing idx with
  | nil =>
    rw [validIdLoop]
    by_cases hmin : idx < SEC_LSM_MANAGER_MIN_SIZE_ID
    · rw [if_pos hmin, if_neg fun hc => absurd hc.1 (Nat.not_le_of_lt hmin)]
    · rw [if_neg hmin, if_pos ⟨Nat.le_of_not_lt hmin, h, by simp⟩]
      rfl
  | cons car l ih =>
    have hlen : idx + (car :: l).length = idx + 1 + l.length := by
      rw [List.length_cons]
      omega
    rw [validIdLoop, hlen]
    split
    · rw [if_neg fun hc => ?_]
      have := hc.2.1
      omega
    split
    · rename_i hcar
      exact (if_neg fun hc => hcar (List.all_eq_true.1 hc.2.2 car List.mem_cons_self)).symm
    · rename_i hmax hcar
      rw [ih (Nat.lt_of_not_le hmax)]
      simp only [List.all_cons, Classical.not_not.1 hcar, Bool.true_and]

/-- `context_is_valid_id` returns the length of a valid identifier. -/
theorem contextIsValidId_valid {id : CStr} (h : ValidId id) :
    contextIsValidId id = ((id.length : Nat) : Int) := by
  have hmin := h.min_le
  have hmax := h.le_max
  rw [CStr.length] at hmin hmax
  rw [contextIsValidId, validIdLoop_eq (Nat.zero_le _), Nat.zero_add,
    if_pos ⟨hmin, hmax, List.all_eq_true.2 h.chars⟩]
  rfl

/-- Any other string is refused. -/
theorem contextIsValidId_invalid {id : CStr} (h : ¬ ValidId id) :
    contextIsValidId id = -EINVAL := by
  rw [contextIsValidId, validIdLoop_eq (Nat.zero_le _), Nat.zero_add]
  exact if_neg fun hc => h ⟨hc.1, hc.2.1, List.all_eq_true.1 hc.2.2⟩

/-- An id is accepted exactly when it is valid. -/
theorem contextIsValidId_nonneg {id : CStr} : contextIsValidId id ≥ 0 ↔ ValidId id := by
  by_cases h : ValidId id
  · simp only [h, contextIsValidId_valid h, iff_true]
    exact Int.natCast_nonneg _
  · simp only [h, contextIsValidId_invalid h, iff_false]
    decide

/-! ## What the operations do -/

variable {answers : Answers} {context : Context}

/-- `context_set_id` copies a valid id to an array that starts with a NUL. -/
theorem contextSetId_valid {id : CStr} (he : context.errorFlag = false) (h0 : context.id 0 = 0)
    (h : ValidId id) :
    contextSetId context id = (0, { context with id := writeCells context.id 0 id.bytes }) := by
  simp [contextSetId, he, h0, setids, contextIsValidId_valid h, CStr.length]

/-- `context_set_id` fails and changes nothing, or copies a valid id to the array. -/
theorem contextSetId_spec (context : Context) (id : CStr) :
    (∃ rc < 0, contextSetId context id = (rc, context)) ∨
      (context.errorFlag = false ∧ context.id 0 = 0 ∧ ValidId id ∧
        contextSetId context id =
          (0, { context with id := writeCells context.id 0 id.bytes })) := by
  by_cases he : context.errorFlag = true
  · exact .inl ⟨-ENOTRECOVERABLE, by decide, by simp only [contextSetId, he, if_true]⟩
  rw [Bool.not_eq_true] at he
  by_cases h0 : context.id 0 = 0
  · by_cases h : ValidId id
    · exact .inr ⟨he, h0, h, contextSetId_valid he h0 h⟩
    · have hup : Function.update context.id 0 0 = context.id := by
        rw [← h0, Function.update_eq_self]
      have hge : ¬ -EINVAL ≥ 0 := by decide
      have hlt : -EINVAL < 0 := by decide
      have heq : contextSetId context id =
          (-EINVAL, { context with id := Function.update context.id 0 0 }) := by
        simp only [contextSetId, he, h0, setids, contextIsValidId_invalid h, if_neg hge, if_pos hlt,
          Bool.false_eq_true, if_false, ne_eq, not_true_eq_false]
      exact .inl ⟨-EINVAL, hlt, by rw [heq, hup]⟩
  · exact .inl ⟨-EEXIST, by decide, by simp [contextSetId, he, h0]⟩

/-- A permission that is added is new and of a length within the bounds. -/
theorem permissionSetAdd_spec (answers : Answers) (permissionSet : List CStr)
    {permission : CStr} (h : permissionSetHas permissionSet permission = false) :
    (∃ rc < 0, permissionSetAdd answers permissionSet permission = (rc, permissionSet)) ∨
      (SEC_LSM_MANAGER_MIN_SIZE_PERMISSION ≤ permission.length ∧
        permission.length ≤ SEC_LSM_MANAGER_MAX_SIZE_PERMISSION ∧
        permissionSetAdd answers permissionSet permission =
          (0, permissionSet ++ [permission])) := by
  unfold permissionSetAdd
  rw [if_neg (by simp [h])]
  split
  · exact .inl ⟨-EINVAL, by decide, rfl⟩
  split
  · exact .inl ⟨-ENOMEM, by decide, rfl⟩
  split
  · exact .inl ⟨-ENOMEM, by decide, rfl⟩
  · rename_i hlen _ _
    rw [not_or, Nat.not_lt, Nat.not_lt] at hlen
    exact .inr ⟨hlen.1, hlen.2, rfl⟩

/-- `context_add_permission` fails and changes nothing, or records a fresh permission. -/
theorem contextAddPermission_spec (answers : Answers) (context : Context) (permission : CStr) :
    (∃ rc < 0, contextAddPermission answers context permission = (rc, context)) ∨
      (context.errorFlag = false ∧ permissionSetHas context.permissionSet permission = false ∧
        SEC_LSM_MANAGER_MIN_SIZE_PERMISSION ≤ permission.length ∧
        permission.length ≤ SEC_LSM_MANAGER_MAX_SIZE_PERMISSION ∧
        contextAddPermission answers context permission =
          (0, { context with
            permissionSet := context.permissionSet ++ [permission], needId := true })) := by
  unfold contextAddPermission
  split
  · exact .inl ⟨_, by decide, rfl⟩
  split
  · exact .inl ⟨_, by decide, rfl⟩
  · rename_i he hhas
    have hhas : permissionSetHas context.permissionSet permission = false := by simpa using hhas
    rcases permissionSetAdd_spec answers context.permissionSet hhas with
      ⟨rc, hrc, h⟩ | ⟨h1, h2, h⟩
    · rw [h]
      exact .inl ⟨rc, hrc, if_pos hrc⟩
    · rw [h]
      exact .inr ⟨by simpa using he, hhas, h1, h2, rfl⟩

/-- A standard absolute path is normalised. -/
theorem stdAbsolute_spec (path : CStr) :
    ((stdAbsolute path).1 = 0 ∧ (stdAbsolute path).2.Normalised) ∨ (stdAbsolute path).1 < 0 := by
  have hspec := pathStd_spec (fun _ => 0) stdSize path
  unfold stdAbsolute
  generalize pathStd (fun _ => 0) stdSize path = r at hspec
  obtain ⟨pathLen, stdpath⟩ := r
  simp only at hspec ⊢
  have hinval : -EINVAL < 0 := by decide
  split
  · exact .inr hinval
  split
  · exact .inr hinval
  · rename_i hlen habs
    rw [not_or, Classical.not_not] at habs
    exact .inl ⟨rfl, (hspec (Nat.lt_of_not_le hlen) habs.2).1⟩

/-- A standard path fits its buffer. -/
theorem stdAbsolute_length_le (path : CStr) : (stdAbsolute path).2.length ≤ stdSize := by
  have hcells : ∀ m : Nat → UInt8, (CStr.ofBytes (cells m 0 stdSize)).length ≤ stdSize := by
    intro m
    have hle := (List.takeWhile_prefix (· ≠ 0) (l := cells m 0 stdSize)).length_le
    simpa [CStr.ofBytes, CStr.length] using hle
  unfold stdAbsolute
  generalize pathStd (fun _ => 0) stdSize path = r
  obtain ⟨pathLen, stdpath⟩ := r
  generalize stdSize = size at hcells ⊢
  simp only
  split
  · exact hcells stdpath
  split
  · exact hcells stdpath
  · exact hcells stdpath

/-- A path that is not found is not in the set. -/
theorem pathSetHas_eq_false {pathSet : List Path} {path : CStr}
    (h : ¬ pathSetHas pathSet path = true) : path ∉ pathSet.map Path.path := by
  rintro hm
  obtain ⟨p, hp, rfl⟩ := List.mem_map.1 hm
  refine h ?_
  rw [pathSetHas, pathSetSearch, List.find?_isSome]
  exact ⟨p, hp, by simp⟩

/-- A path is added behind the others, or the set is as it was. -/
theorem pathSetAdd_spec (answers : Answers) (pathSet : List Path) (path : CStr)
    (pathType : PathType) :
    (∃ rc < 0, pathSetAdd answers pathSet path pathType = (rc, pathSet)) ∨
      pathSetAdd answers pathSet path pathType = (0, pathSet ++ [⟨path, pathType⟩]) := by
  unfold pathSetAdd
  split
  · exact .inl ⟨-EINVAL, by decide, rfl⟩
  split
  · exact .inl ⟨-EINVAL, by decide, rfl⟩
  split
  · exact .inl ⟨-ENOMEM, by decide, rfl⟩
  split
  · exact .inl ⟨-ENOMEM, by decide, rfl⟩
  · exact .inr rfl

/-- `context_add_path` fails and changes nothing, or records a fresh standard path. -/
theorem contextAddPath_spec (answers : Answers) (context : Context) (path type : CStr) :
    (∃ rc < 0, contextAddPath answers context path type = (rc, context)) ∨
      (context.errorFlag = false ∧ pathTypeIsValid (pathTypeGet type) = true ∧
        (stdAbsolute path).2.Normalised ∧
        (stdAbsolute path).2 ∉ context.pathSet.map Path.path ∧
        contextAddPath answers context path type =
          (0, { context with
            pathSet := context.pathSet ++ [⟨(stdAbsolute path).2, pathTypeGet type⟩]
            needId := if pathTypeGet type ≠ .typeDefault then true else context.needId })) := by
  have hstd := stdAbsolute_spec path
  unfold contextAddPath
  split
  · exact .inl ⟨_, by decide, rfl⟩
  simp only
  split
  · exact .inl ⟨_, by decide, rfl⟩
  rename_i he hvalid
  have hvalid : pathTypeIsValid (pathTypeGet type) = true := by simpa using hvalid
  generalize stdAbsolute path = std at hstd
  obtain ⟨rc, stdpath⟩ := std
  simp only at hstd ⊢
  split
  · exact .inl ⟨_, ‹_›, rfl⟩
  split
  · exact .inl ⟨_, by decide, rfl⟩
  split
  · exact .inl ⟨_, ‹_›, rfl⟩
  rename_i hrc hhas _
  have hnorm := (hstd.resolve_right hrc).2
  rcases pathSetAdd_spec answers context.pathSet stdpath (pathTypeGet type) with ⟨rc, hrc, h⟩ | h
  · rw [h]
    exact .inl ⟨rc, hrc, if_pos hrc⟩
  · rw [h]
    exact .inr ⟨by simpa using he, hvalid, hnorm, pathSetHas_eq_false hhas, rfl⟩

/-- An import directory that is not found is not in the set. -/
theorem plugsetHas_eq_false {plugset : List Plug} {impdir : CStr}
    (h : ¬ plugsetHas plugset none none (some impdir) = true) :
    impdir ∉ plugset.map Plug.impdir := by
  rintro hm
  obtain ⟨p, hp, rfl⟩ := List.mem_map.1 hm
  refine h ?_
  rw [plugsetHas, plugsetSearch, List.find?_isSome]
  exact ⟨p, hp, by simp⟩

/-- A plug is added in front of the others, or the set is as it was. -/
theorem plugsetAdd_spec (answers : Answers) (plugset : List Plug) (expdir impid impdir : CStr) :
    (∃ rc < 0, plugsetAdd answers plugset expdir impid impdir = (rc, plugset)) ∨
      plugsetAdd answers plugset expdir impid impdir =
        (0, ⟨expdir, impid, impdir⟩ :: plugset) := by
  unfold plugsetAdd
  split
  · exact .inl ⟨-EINVAL, by decide, rfl⟩
  split
  · exact .inl ⟨-ENOMEM, by decide, rfl⟩
  · exact .inr rfl

/-- `context_add_plug` fails and changes nothing, or records a plug with a fresh import
directory. -/
theorem contextAddPlug_spec (answers : Answers) (context : Context) (expdir impid impdir : CStr) :
    (∃ rc < 0, contextAddPlug answers context expdir impid impdir = (rc, context)) ∨
      (context.errorFlag = false ∧ (stdAbsolute expdir).2.Normalised ∧
        (stdAbsolute impdir).2.Normalised ∧ ValidId impid ∧
        (stdAbsolute impdir).2 ∉ context.plugset.map Plug.impdir ∧
        contextAddPlug answers context expdir impid impdir =
          (0, { context with
            plugset := ⟨(stdAbsolute expdir).2, impid, (stdAbsolute impdir).2⟩ :: context.plugset
            needId := true })) := by
  have hexp := stdAbsolute_spec expdir
  have himp := stdAbsolute_spec impdir
  unfold contextAddPlug
  split
  · exact .inl ⟨_, by decide, rfl⟩
  generalize stdAbsolute expdir = std at hexp
  obtain ⟨rce, stdexpdir⟩ := std
  generalize stdAbsolute impdir = std at himp
  obtain ⟨rci, stdimpdir⟩ := std
  simp only at hexp himp ⊢
  split
  · exact .inl ⟨_, ‹_›, rfl⟩
  split
  · exact .inl ⟨_, ‹_›, rfl⟩
  split
  · exact .inl ⟨_, by decide, rfl⟩
  split
  · exact .inl ⟨_, ‹_›, rfl⟩
  split
  · exact .inl ⟨_, ‹_›, rfl⟩
  split
  · exact .inl ⟨_, ‹_›, rfl⟩
  rename_i he hrce hrci hhas hid _ _
  have hvalid : ValidId impid := contextIsValidId_nonneg.1 (Int.not_lt.1 hid)
  rcases plugsetAdd_spec answers context.plugset stdexpdir impid stdimpdir with ⟨rc, hrc, h⟩ | h
  · rw [h]
    exact .inl ⟨rc, hrc, if_pos hrc⟩
  · rw [h]
    exact .inr ⟨by simpa using he, (hexp.resolve_right hrce).2, (himp.resolve_right hrci).2, hvalid,
      plugsetHas_eq_false hhas, rfl⟩

/-- What the operations do when they do not fail. -/
inductive Context.Accepts (context : Context) : ContextOp → Context → Prop
  | setId {id : CStr} : context.errorFlag = false → context.id 0 = 0 → ValidId id →
      context.Accepts (.setId id) { context with id := writeCells context.id 0 id.bytes }
  | addPath {answers : Answers} {path type : CStr} : context.errorFlag = false →
      pathTypeIsValid (pathTypeGet type) = true → (stdAbsolute path).2.Normalised →
      (stdAbsolute path).2 ∉ context.pathSet.map Path.path →
      context.Accepts (.addPath answers path type) { context with
        pathSet := context.pathSet ++ [⟨(stdAbsolute path).2, pathTypeGet type⟩]
        needId := if pathTypeGet type ≠ .typeDefault then true else context.needId }
  | addPermission {answers : Answers} {permission : CStr} : context.errorFlag = false →
      permissionSetHas context.permissionSet permission = false →
      SEC_LSM_MANAGER_MIN_SIZE_PERMISSION ≤ permission.length →
      permission.length ≤ SEC_LSM_MANAGER_MAX_SIZE_PERMISSION →
      context.Accepts (.addPermission answers permission) { context with
        permissionSet := context.permissionSet ++ [permission], needId := true }
  | addPlug {answers : Answers} {expdir impid impdir : CStr} : context.errorFlag = false →
      (stdAbsolute expdir).2.Normalised → (stdAbsolute impdir).2.Normalised → ValidId impid →
      (stdAbsolute impdir).2 ∉ context.plugset.map Plug.impdir →
      context.Accepts (.addPlug answers expdir impid impdir) { context with
        plugset := ⟨(stdAbsolute expdir).2, impid, (stdAbsolute impdir).2⟩ :: context.plugset
        needId := true }
  | raiseError : context.Accepts .raiseError (contextRaiseError context)
  | clear : context.Accepts .clear (contextClear context)

/-- **What an operation does.** It fails and changes nothing, or it succeeds as its kind says. -/
theorem Context.step_cases (context : Context) (op : ContextOp) :
    (∃ rc < 0, context.step op = (rc, context)) ∨
      ∃ context', context.step op = (0, context') ∧ context.Accepts op context' := by
  cases op with
  | setId id =>
    rcases contextSetId_spec context id with h | ⟨h1, h2, h3, h⟩
    · exact .inl h
    · exact .inr ⟨_, h, .setId h1 h2 h3⟩
  | addPath answers path type =>
    rcases contextAddPath_spec answers context path type with h | ⟨h1, h2, h3, h4, h⟩
    · exact .inl h
    · exact .inr ⟨_, h, .addPath h1 h2 h3 h4⟩
  | addPermission answers permission =>
    rcases contextAddPermission_spec answers context permission with h | ⟨h1, h2, h3, h4, h⟩
    · exact .inl h
    · exact .inr ⟨_, h, .addPermission h1 h2 h3 h4⟩
  | addPlug answers expdir impid impdir =>
    rcases contextAddPlug_spec answers context expdir impid impdir with h | ⟨h1, h2, h3, h4, h5, h⟩
    · exact .inl h
    · exact .inr ⟨_, h, .addPlug h1 h2 h3 h4 h5⟩
  | raiseError => exact .inr ⟨_, rfl, .raiseError⟩
  | clear => exact .inr ⟨_, rfl, .clear⟩

/-- An operation that fails changes nothing. -/
theorem Context.step_fails {context : Context} {op : ContextOp} (h : (context.step op).1 < 0) :
    (context.step op).2 = context := by
  rcases context.step_cases op with ⟨rc, -, heq⟩ | ⟨context', heq, -⟩
  · rw [heq]
  · rw [heq] at h
    exact absurd h (Int.lt_irrefl 0)

/-! ## The invariant -/

/-- The representation invariant. -/
structure Context.Inv (context : Context) : Prop where
  paths_distinct : (context.pathSet.map Path.path).Nodup
  paths_valid : ∀ p ∈ context.pathSet, p.path.Normalised ∧ pathTypeIsValid p.pathType = true
  permissions_distinct : context.permissionSet.Pairwise fun a b => eqCase a b = false
  permissions_length : ∀ p ∈ context.permissionSet,
    SEC_LSM_MANAGER_MIN_SIZE_PERMISSION ≤ p.length ∧
      p.length ≤ SEC_LSM_MANAGER_MAX_SIZE_PERMISSION
  plugs_distinct : (context.plugset.map Plug.impdir).Nodup
  plugs_valid : ∀ p ∈ context.plugset,
    p.expdir.Normalised ∧ p.impdir.Normalised ∧ ValidId p.impid
  needId : context.needId = true ↔ context.permissionSet ≠ [] ∨ context.plugset ≠ [] ∨
    ∃ p ∈ context.pathSet, p.pathType ≠ .typeDefault

/-- Two permissions that agree but for case agree either way. -/
theorem eqCase_comm (a b : CStr) : eqCase a b = eqCase b a := by
  simp only [eqCase, eq_comm]

/-- An empty context keeps the invariant, whatever its id. -/
theorem Context.Inv.of_empty (id : Nat → UInt8) (errorFlag : Bool) :
    Context.Inv ⟨id, [], [], [], false, errorFlag⟩ := by
  constructor <;> simp

/-- The invariant says nothing of the id and of the error flag. -/
theorem Context.Inv.congr {context : Context} (h : context.Inv) (id : Nat → UInt8)
    (errorFlag : Bool) : Context.Inv { context with id, errorFlag } :=
  ⟨h.paths_distinct, h.paths_valid, h.permissions_distinct, h.permissions_length,
    h.plugs_distinct, h.plugs_valid, h.needId⟩

/-- A permission that is new keeps the invariant. -/
theorem Context.Inv.addPermission {context : Context} (h : context.Inv) {permission : CStr}
    (hhas : permissionSetHas context.permissionSet permission = false)
    (hmin : SEC_LSM_MANAGER_MIN_SIZE_PERMISSION ≤ permission.length)
    (hmax : permission.length ≤ SEC_LSM_MANAGER_MAX_SIZE_PERMISSION) :
    Context.Inv { context with
      permissionSet := context.permissionSet ++ [permission], needId := true } := by
  refine { h with permissions_distinct := ?_, permissions_length := ?_, needId := ?_ }
  · refine List.pairwise_append.2 ⟨h.permissions_distinct, List.pairwise_singleton _ _, ?_⟩
    intro a ha b hb
    rw [List.mem_singleton.1 hb, eqCase_comm]
    simpa using List.any_eq_false.1 hhas a ha
  · intro p hp
    rcases List.mem_append.1 hp with hp | hp
    · exact h.permissions_length p hp
    · rw [List.mem_singleton.1 hp]
      exact ⟨hmin, hmax⟩
  · simp

/-- So does a path that is new. -/
theorem Context.Inv.addPath {context : Context} (h : context.Inv) {path : CStr}
    {pathType : PathType} (htype : pathTypeIsValid pathType = true) (hnorm : path.Normalised)
    (hfresh : path ∉ context.pathSet.map Path.path) :
    Context.Inv { context with
      pathSet := context.pathSet ++ [⟨path, pathType⟩]
      needId := if pathType ≠ .typeDefault then true else context.needId } := by
  refine { h with paths_distinct := ?_, paths_valid := ?_, needId := ?_ }
  · rw [List.map_append, List.nodup_append]
    refine ⟨h.paths_distinct, by simp, fun a ha b hb => ?_⟩
    rintro rfl
    rw [List.mem_singleton.1 hb] at ha
    exact hfresh ha
  · intro p hp
    rcases List.mem_append.1 hp with hp | hp
    · exact h.paths_valid p hp
    · rw [List.mem_singleton.1 hp]
      exact ⟨hnorm, htype⟩
  · by_cases hd : pathType = .typeDefault
    · simp only [hd, ne_eq, not_true_eq_false, if_false, h.needId, List.mem_append,
        List.mem_singleton]
      refine or_congr_right (or_congr_right ⟨?_, ?_⟩)
      · rintro ⟨p, hp, hne⟩
        exact ⟨p, .inl hp, hne⟩
      · rintro ⟨p, hp | rfl, hne⟩
        · exact ⟨p, hp, hne⟩
        · exact absurd rfl hne
    · simp only [ne_eq, hd, not_false_eq_true, if_true, true_iff]
      exact .inr (.inr ⟨_, List.mem_append_right _ (List.mem_singleton_self _), hd⟩)

/-- And a plug with a new import directory. -/
theorem Context.Inv.addPlug {context : Context} (h : context.Inv) {plug : Plug}
    (hexp : plug.expdir.Normalised) (himp : plug.impdir.Normalised) (hid : ValidId plug.impid)
    (hfresh : plug.impdir ∉ context.plugset.map Plug.impdir) :
    Context.Inv { context with plugset := plug :: context.plugset, needId := true } := by
  refine { h with plugs_distinct := ?_, plugs_valid := ?_, needId := ?_ }
  · rw [List.map_cons, List.nodup_cons]
    exact ⟨hfresh, h.plugs_distinct⟩
  · intro p hp
    rcases List.mem_cons.1 hp with rfl | hp
    · exact ⟨hexp, himp, hid⟩
    · exact h.plugs_valid p hp
  · simp

/-- **Every operation that is accepted** keeps the invariant. -/
theorem Context.Inv.accepts {context context' : Context} {op : ContextOp} (h : context.Inv)
    (ha : context.Accepts op context') : context'.Inv := by
  cases ha with
  | setId _ _ _ => exact h.congr _ _
  | addPath _ h1 h2 h3 => exact h.addPath h1 h2 h3
  | addPermission _ h1 h2 h3 => exact h.addPermission h1 h2 h3
  | addPlug _ h1 h2 h3 h4 => exact h.addPlug h1 h2 h3 h4
  | raiseError => exact h.congr _ _
  | clear => exact .of_empty _ _

/-- What the accepted operations keep holds after any sequence of operations. -/
theorem Context.run_of_accepts {P : Context → Prop}
    (haccepts : ∀ {context context' : Context} {op : ContextOp},
      P context → context.Accepts op context' → P context')
    {context : Context} (h : P context) (ops : List ContextOp) : P (context.run ops) := by
  induction ops generalizing context with
  | nil => exact h
  | cons op ops ih =>
    have hnext : P (context.step op).2 := by
      rcases context.step_cases op with ⟨rc, -, heq⟩ | ⟨context', heq, ha⟩
      · rw [heq]
        exact h
      · rw [heq]
        exact haccepts h ha
    exact ih hnext

/-! ## The array of the id -/

/-- The array has the characters of ids and NULs, but for its last byte. -/
def IdChars (id : Nat → UInt8) : Prop :=
  ∀ i < SEC_LSM_MANAGER_MAX_SIZE_ID, id i ≠ 0 → isIdChar (id i) = true

/-- A valid id is copied to the array. -/
theorem IdChars.copied {array : Nat → UInt8} (h : IdChars array) {id : CStr} (hid : ValidId id) :
    IdChars (writeCells array 0 id.bytes) := by
  intro i hi hne
  cases lt_or_ge i id.bytes.length with
  | inl hlt =>
    have hbyte := writeCells_getElem array 0 id.bytes hlt
    rw [Nat.zero_add] at hbyte
    rw [hbyte]
    exact hid.chars _ (List.getElem_mem hlt)
  | inr hge =>
    have hbyte := writeCells_of_ge array id.bytes ((Nat.zero_add _).trans_le hge)
    rw [hbyte] at hne ⊢
    exact h i hi hne

/-- An id that is cleared keeps the characters behind its first one. -/
theorem IdChars.cleared {array : Nat → UInt8} (h : IdChars array) :
    IdChars (Function.update array 0 0) := by
  intro i hi hne
  cases i with
  | zero => exact absurd rfl hne
  | succ i => exact h _ hi hne

/-- After any operations the bytes of the id are characters of ids. -/
theorem Context.run_idChars (mem : Nat → UInt8) (ops : List ContextOp) :
    IdChars ((contextCreate mem).run ops).id := by
  refine Context.run_of_accepts (P := fun context => IdChars context.id) ?_
    (fun i hi hne => absurd (if_pos hi) hne) ops
  intro context context' op h haccepts
  cases haccepts with
  | setId _ _ hid => exact h.copied hid
  | clear => exact h.cleared
  | _ => exact h

/-- The string of an id has the characters of ids, up to its last byte. -/
theorem Context.idString_chars {context : Context} (h : IdChars context.id) :
    ∀ c ∈ context.idString.bytes.take SEC_LSM_MANAGER_MAX_SIZE_ID, isIdChar c = true := by
  intro c hc
  obtain ⟨i, hi, rfl⟩ := List.getElem_of_mem hc
  rw [List.length_take, Nat.lt_min] at hi
  have hpre : context.idString.bytes <+: cells context.id 0 idSize := List.takeWhile_prefix _
  have hget : context.idString.bytes[i] = context.id i := by
    rw [hpre.getElem hi.2, getElem_cells, Nat.zero_add]
  rw [List.getElem_take, hget]
  refine h i hi.1 fun h0 => context.idString.nonul ?_
  rw [← h0, ← hget]
  exact List.getElem_mem hi.2

/-! ## Runs -/

/-- The invariant holds after any sequence of operations. -/
theorem Context.Inv.run {context : Context} (h : context.Inv) (ops : List ContextOp) :
    (context.run ops).Inv :=
  Context.run_of_accepts Context.Inv.accepts h ops

end SecLsmManager

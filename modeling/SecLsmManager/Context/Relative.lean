import SecLsmManager.Context.Admission

/-!
# Relative paths

`path_std` makes an absolute path of some relative ones: a dot and a dot-dot take the slash behind
them, and a second slash is then taken for the root. `SlashedRoot` says which paths have one where
no component is kept. The operations refuse the other relative paths, and of these the ones that
are too long (`relative_refused_iff`).
-/

namespace SecLsmManager

open Lib

/-! ## The slash of a relative path -/

/-- Behind the last dot-dot before the first component that stays, or before the end when none
does, there is an empty component that is not the last one. -/
def SlashedRoot (comps : List (List UInt8)) : Prop :=
  ∃ pre mid post, comps = pre ++ [] :: (mid ++ post) ∧ mid ++ post ≠ [] ∧ [DOT, DOT] ∉ mid ∧
    (pre ++ [] :: mid).foldl keep [] = [] ∧ ∀ p, p <+: post → p ≠ [] → p.foldl keep [] ≠ []

/-- The scan of a relative path, up to a slash. -/
def scanUpTo (comps : List (List UInt8)) : PathScan := comps.foldl (PathScan.step false true) .init

theorem scanUpTo_concat (comps : List (List UInt8)) (c : List UInt8) :
    scanUpTo (comps ++ [c]) = (scanUpTo comps).step false true c := by
  rw [scanUpTo, List.foldl_append]
  rfl

theorem kept_scanUpTo (comps : List (List UInt8)) :
    (scanUpTo comps).kept = comps.foldl keep [] := by
  induction comps using List.reverseRecOn with
  | nil => rfl
  | append_singleton comps c ih =>
    rw [scanUpTo_concat, PathScan.kept_step, ih, List.foldl_append]
    rfl

theorem foldl_keep_concat (comps : List (List UInt8)) (c : List UInt8) :
    (comps ++ [c]).foldl keep [] = keep (comps.foldl keep []) c := by
  rw [List.foldl_append]
  rfl

theorem foldl_keep_behind {pre : List (List UInt8)} (h : pre.foldl keep [] = [])
    (post : List (List UInt8)) : (pre ++ post).foldl keep [] = post.foldl keep [] := by
  rw [List.foldl_append, h]

/-- An element of a list is the last one, or is in front of the last one. -/
theorem concat_eq_append_cons {α : Type*} {l pre mid : List α} {a b : α} :
    l ++ [a] = pre ++ b :: mid ↔
      (mid = [] ∧ b = a ∧ pre = l) ∨ ∃ mid', mid = mid' ++ [a] ∧ l = pre ++ b :: mid' := by
  obtain rfl | ⟨mid, d, rfl⟩ := List.eq_nil_or_concat' mid
  · have hnone : ¬ ∃ mid', [] = mid' ++ [a] ∧ l = pre ++ b :: mid' := by simp
    rw [or_iff_left hnone]
    constructor
    · intro h
      obtain ⟨rfl, hlast⟩ := List.append_inj' h rfl
      exact ⟨rfl, (List.cons.inj hlast).1.symm, rfl⟩
    · rintro ⟨-, rfl, rfl⟩
      rfl
  · have hnone : ¬ (mid ++ [d] = [] ∧ b = a ∧ pre = l) := by simp
    rw [or_iff_right hnone, ← List.cons_append, ← List.append_assoc]
    constructor
    · intro h
      obtain ⟨rfl, hlast⟩ := List.append_inj' h rfl
      exact ⟨mid, by rw [(List.cons.inj hlast).1], rfl⟩
    · rintro ⟨mid', heq, rfl⟩
      obtain ⟨rfl, hlast⟩ := List.append_inj' heq rfl
      rw [(List.cons.inj hlast).1]

/-- When no component is kept, a slash comes before the next one if an empty component came behind
the last dot-dot. -/
theorem slash_scanUpTo {comps : List (List UInt8)} (h : comps.foldl keep [] = []) :
    (scanUpTo comps).slash = true ↔ ∃ pre mid, comps = pre ++ [] :: mid ∧ [DOT, DOT] ∉ mid := by
  induction comps using List.reverseRecOn with
  | nil => exact iff_of_false Bool.false_ne_true (by simp)
  | append_singleton comps c ih =>
    rw [foldl_keep_concat] at h
    rw [scanUpTo_concat]
    obtain rfl | rfl | rfl | hreg := component_cases c
    · exact iff_of_true (Bool.or_true _) ⟨comps, [], rfl, List.not_mem_nil⟩
    · rw [keep_dot] at h
      refine (ih h).trans ⟨?_, ?_⟩
      · rintro ⟨pre, mid, rfl, hmid⟩
        exact ⟨pre, mid ++ [[DOT]], by simp, by simpa using hmid⟩
      · rintro ⟨pre, mid, heq, hmid⟩
        obtain ⟨-, hf, -⟩ | ⟨mid, rfl, rfl⟩ := concat_eq_append_cons.1 heq
        · cases hf
        · exact ⟨pre, mid, rfl, fun hm => hmid (List.mem_append_left _ hm)⟩
    · -- a dot-dot that leaves nothing forgets the slash
      refine iff_of_false ?_ ?_
      · rw [PathScan.step]
        simp [kept_scanUpTo, h]
      · rintro ⟨pre, mid, heq, hmid⟩
        obtain ⟨-, hf, -⟩ | ⟨mid, rfl, -⟩ := concat_eq_append_cons.1 heq
        · cases hf
        · exact hmid (by simp)
    · rw [keep_regular _ hreg] at h
      simp at h

/-- Where a component stays, the last component is behind the slash. -/
theorem behind_concat {comps pre mid post : List (List UInt8)} {c : List UInt8}
    (heq : comps ++ [c] = pre ++ [] :: (mid ++ post)) (hnil : (pre ++ [] :: mid).foldl keep [] = [])
    (h : (comps ++ [c]).foldl keep [] ≠ []) :
    ∃ post', post = post' ++ [c] ∧ comps = pre ++ [] :: (mid ++ post') := by
  obtain rfl | ⟨post, d, rfl⟩ := List.eq_nil_or_concat' post
  · rw [List.append_nil] at heq
    exact absurd (heq ▸ hnil) h
  · rw [← List.append_assoc] at heq
    obtain ⟨hf, -⟩ | ⟨mid', hmid', rfl⟩ := concat_eq_append_cons.1 heq
    · simp at hf
    · obtain ⟨rfl, hlast⟩ := List.append_inj' hmid' rfl
      cases hlast
      exact ⟨post, rfl, rfl⟩

/-- The last component is the first one that stays. -/
theorem slashedRoot_concat_of_none {comps : List (List UInt8)} {c : List UInt8}
    (hkept : comps.foldl keep [] = []) (h : (comps ++ [c]).foldl keep [] ≠ []) :
    SlashedRoot (comps ++ [c]) ↔ ∃ pre mid, comps = pre ++ [] :: mid ∧ [DOT, DOT] ∉ mid := by
  constructor
  · rintro ⟨pre, mid, post, heq, -, hmid, hnil, hstay⟩
    obtain ⟨post, rfl, rfl⟩ := behind_concat heq hnil h
    have hpost : post = [] := by
      by_contra hne
      refine hstay post (List.prefix_append _ _) hne ?_
      rwa [← List.cons_append, ← List.append_assoc, foldl_keep_behind hnil] at hkept
    rw [hpost, List.append_nil]
    exact ⟨pre, mid, rfl, hmid⟩
  · rintro ⟨pre, mid, rfl, hmid⟩
    refine ⟨pre, mid, [c], by simp, by simp, hmid, hkept, fun p hp hne => ?_⟩
    rw [foldl_keep_behind hkept] at h
    obtain rfl | rfl : p = [] ∨ p = [c] := by simpa using List.prefix_cons_iff.1 hp
    · exact absurd rfl hne
    · exact h

/-- A component that stays is in front of the last component. -/
theorem slashedRoot_concat_of_kept {comps : List (List UInt8)} {c : List UInt8}
    (hkept : comps.foldl keep [] ≠ []) (h : (comps ++ [c]).foldl keep [] ≠ []) :
    SlashedRoot (comps ++ [c]) ↔ SlashedRoot comps := by
  constructor
  · rintro ⟨pre, mid, post, heq, -, hmid, hnil, hstay⟩
    obtain ⟨post, rfl, rfl⟩ := behind_concat heq hnil h
    refine ⟨pre, mid, post, rfl, fun hf => ?_, hmid, hnil, fun p hp hp0 => ?_⟩
    · obtain ⟨rfl, rfl⟩ := List.append_eq_nil_iff.1 hf
      exact hkept hnil
    · exact hstay p (hp.trans (List.prefix_append _ _)) hp0
  · rintro ⟨pre, mid, post, rfl, hne, hmid, hnil, hstay⟩
    refine ⟨pre, mid, post ++ [c], by simp, by simp, hmid, hnil, fun p hp hp0 => ?_⟩
    obtain rfl | hp := List.prefix_concat_iff.1 hp
    · have hall : pre ++ [] :: (mid ++ post) ++ [c] = pre ++ [] :: mid ++ (post ++ [c]) := by
        simp
      rwa [hall, foldl_keep_behind hnil] at h
    · exact hstay p hp hp0

/-- A slash before the first component that stays. -/
theorem lead_scanUpTo {comps : List (List UInt8)} (h : comps.foldl keep [] ≠ []) :
    (scanUpTo comps).lead = true ↔ SlashedRoot comps := by
  induction comps using List.reverseRecOn with
  | nil => exact absurd rfl h
  | append_singleton comps c ih =>
    rw [scanUpTo_concat]
    by_cases hkept : comps.foldl keep [] = []
    · have hlead : ((scanUpTo comps).step false true c).lead = (scanUpTo comps).slash :=
        if_pos ((kept_scanUpTo comps).trans hkept)
      rw [hlead, slash_scanUpTo hkept, slashedRoot_concat_of_none hkept h]
    · have hlead : ((scanUpTo comps).step false true c).lead = (scanUpTo comps).lead :=
        if_neg (by rwa [kept_scanUpTo])
      rw [hlead, ih hkept, slashedRoot_concat_of_kept hkept h]

theorem scan_concat (fps : Bool) (comps : List (List UInt8)) (s : PathScan) (c : List UInt8) :
    PathScan.scan fps s (comps ++ [c]) =
      (comps.foldl (PathScan.step fps true) s).step fps false c := by
  induction comps generalizing s with
  | nil => rfl
  | cons d comps ih =>
    have hmore : (!(comps ++ [c]).isEmpty) = true := by simp
    rw [List.cons_append, PathScan.scan, hmore]
    exact ih _

/-- When no component is kept, the last dot-dot is before the empty component. -/
theorem slashedRoot_of_none_kept {comps : List (List UInt8)} (h : comps.foldl keep [] = []) :
    SlashedRoot comps ↔ ∃ pre mid, comps = pre ++ [] :: mid ∧ mid ≠ [] ∧ [DOT, DOT] ∉ mid := by
  constructor
  · rintro ⟨pre, mid, post, rfl, hne, hmid, hnil, hstay⟩
    have hpost : post = [] := by
      by_contra hpost
      refine hstay post (List.prefix_refl _) hpost ?_
      rwa [← List.cons_append, ← List.append_assoc, foldl_keep_behind hnil] at h
    subst hpost
    rw [List.append_nil] at hne
    exact ⟨pre, mid, by rw [List.append_nil], hne, hmid⟩
  · rintro ⟨pre, mid, rfl, hne, hmid⟩
    refine ⟨pre, mid, [], by rw [List.append_nil], by rwa [List.append_nil], hmid, h, ?_⟩
    intro p hp hp0
    exact absurd (List.prefix_nil.1 hp) hp0

/-- The empty component that is not the last one is in front of the last one. -/
theorem empty_concat {comps : List (List UInt8)} {c : List UInt8} :
    (∃ pre mid, comps ++ [c] = pre ++ [] :: mid ∧ mid ≠ [] ∧ [DOT, DOT] ∉ mid) ↔
      c ≠ [DOT, DOT] ∧ ∃ pre mid, comps = pre ++ [] :: mid ∧ [DOT, DOT] ∉ mid := by
  constructor
  · rintro ⟨pre, mid, heq, hne, hmid⟩
    obtain ⟨rfl, -⟩ | ⟨mid, rfl, rfl⟩ := concat_eq_append_cons.1 heq
    · exact absurd rfl hne
    · rw [List.mem_append, List.mem_singleton, not_or] at hmid
      exact ⟨Ne.symm hmid.2, pre, mid, rfl, hmid.1⟩
  · rintro ⟨hc, pre, mid, rfl, hmid⟩
    refine ⟨pre, mid ++ [c], by simp, by simp, ?_⟩
    rw [List.mem_append, List.mem_singleton, not_or]
    exact ⟨hmid, Ne.symm hc⟩

/-- The slash behind the last component, when no component is kept. -/
theorem slash_step_of_none {comps : List (List UInt8)} {c : List UInt8}
    (hnone : keep (comps.foldl keep []) c = []) :
    ((scanUpTo comps).step false false c).slash = true ↔ SlashedRoot (comps ++ [c]) := by
  rw [slashedRoot_of_none_kept ((foldl_keep_concat comps c).trans hnone), empty_concat]
  obtain rfl | rfl | rfl | hreg := component_cases c
  · rw [keep_nil] at hnone
    rw [← slash_scanUpTo hnone]
    simp [PathScan.step]
  · rw [keep_dot] at hnone
    rw [← slash_scanUpTo hnone]
    simp [PathScan.step]
  · rw [PathScan.step]
    simp [kept_scanUpTo, hnone]
  · rw [keep_regular _ hreg] at hnone
    simp at hnone

/-- A relative path is taken for an absolute one when it has a slashed root. -/
theorem standard_relative {path : CStr} (h : ¬ path.Absolute) :
    (scanPath path).standard.head? = some SLASH ↔ SlashedRoot (components path.bytes) := by
  obtain hnil | ⟨comps, c, hcomps⟩ := List.eq_nil_or_concat' (components path.bytes)
  · exact absurd hnil (List.splitOn_ne_nil SLASH path.bytes)
  have hscan : scanPath path = (scanUpTo comps).step false false c := by
    rw [scanPath, hcomps, scan_concat, decide_eq_false h]
    rfl
  have hkept : (scanPath path).kept = keep (comps.foldl keep []) c := by
    rw [hscan, PathScan.kept_step, kept_scanUpTo]
  have hall : (comps ++ [c]).foldl keep [] = (scanPath path).kept := by
    rw [hkept, foldl_keep_concat]
  rw [hcomps]
  by_cases hnone : (scanPath path).kept = []
  · have hhead : (scanPath path).standard.head? = some SLASH ↔ (scanPath path).slash = true := by
      rw [PathScan.standard, if_pos hnone]
      cases (scanPath path).slash <;> decide
    rw [hhead, hscan]
    exact slash_step_of_none (hkept.symm.trans hnone)
  · have hlead : (scanPath path).lead = (scanUpTo (comps ++ [c])).lead := by
      rw [hscan, scanUpTo_concat]
      rfl
    rw [← lead_scanUpTo (by rwa [hall]), ← hlead, PathScan.standard, if_neg hnone, PathScan.text,
      if_neg hnone]
    obtain ⟨d, kept, hcons⟩ := List.exists_cons_of_ne_nil hnone
    -- a component does not start with a slash
    have hd : d ∈ (components path.bytes).foldl keep [] := by
      rw [hcomps, hall, hcons]
      exact List.mem_cons_self
    obtain hf | ⟨hreg, hmem⟩ := foldl_keep_mem d hd
    · cases hf
    obtain ⟨e, d, rfl⟩ := List.exists_cons_of_ne_nil hreg.ne_nil
    have he : e ≠ SLASH := fun he => notMem_of_mem_splitOn hmem (he ▸ List.mem_cons_self)
    rw [hcons]
    cases (scanPath path).lead with
    | true => simp
    | false => simp [he]

/-! ## The operations -/

/-- A path that the operations take for no absolute path. -/
structure RefusedPath (path : CStr) : Prop where
  addPath : ∀ (answers : Answers) (context : Context) (type : CStr), context.errorFlag = false →
    contextAddPath answers context path type = (-EINVAL, context)
  expdir : ∀ (answers : Answers) (context : Context) (impid impdir : CStr),
    context.errorFlag = false →
      contextAddPlug answers context path impid impdir = (-EINVAL, context)
  impdir : ∀ (answers : Answers) (context : Context) (expdir impid : CStr),
    context.errorFlag = false →
      contextAddPlug answers context expdir impid path = (-EINVAL, context)

theorem refusedPath_of_code {path : CStr} (h : (stdAbsolute path).1 = -EINVAL) :
    RefusedPath path := by
  have hneg : (stdAbsolute path).1 < 0 := by
    rw [h]
    decide
  constructor
  · intro answers context type hflag
    rw [contextAddPath, if_neg (by rw [hflag]; decide)]
    simp only
    split
    · rfl
    · rw [h]
  · intro answers context impid impdir hflag
    rw [contextAddPlug, if_neg (by rw [hflag]; decide)]
    simp only
    rw [if_pos hneg, h]
  · intro answers context expdir impid hflag
    rw [contextAddPlug, if_neg (by rw [hflag]; decide)]
    have hexp := stdAbsolute_code expdir
    simp only
    split at hexp
    · rw [if_neg (by rw [hexp]; decide), if_pos hneg, h]
    · rw [if_pos (by rw [hexp]; decide), hexp]

/-- A path whose standard path is absolute can be both directories of a plug. -/
theorem not_refusedPath {path : CStr} (h : (stdAbsolute path).1 = 0) : ¬ RefusedPath path := by
  intro href
  let answers : Answers := .over fun _ _ => .mode false true false
  have hplug := congrArg Prod.fst
    (href.expdir answers (contextInit fun _ => 0) (.lit "id") path rfl)
  have hid : ¬ contextIsValidId (.lit "id") < 0 := by decide
  have hidlen : ¬ ((CStr.lit "id").length < SEC_LSM_MANAGER_MIN_SIZE_ID ∨
      (CStr.lit "id").length > SEC_LSM_MANAGER_MAX_SIZE_ID) := by decide
  obtain ⟨hmin, hmax⟩ := stdAbsolute_accepted h
  have hadd : plugsetAdd answers [] (stdAbsolute path).2 (.lit "id") (stdAbsolute path).2 =
      (0, [⟨(stdAbsolute path).2, .lit "id", (stdAbsolute path).2⟩]) := by
    rw [plugsetAdd, if_neg]
    · rfl
    · rintro (hl | hl | hl | hl | hl)
      · exact hmin hl
      · exact hmax hl
      · exact hmin hl
      · exact hmax hl
      · exact hidlen hl
  have hfound : ¬ checkDirectoryExists answers (stdAbsolute path).2 true < 0 := by
    simp [checkDirectoryExists, getPathProperty, answers, Answers.over, PATH_DIRECTORY]
  have hzero : ¬ (stdAbsolute path).1 < 0 := by
    rw [h]
    decide
  have hplugset : (contextInit fun _ => 0).plugset = [] := rfl
  have hhas : ¬ plugsetHas [] none none (some (stdAbsolute path).2) = true := by
    simp [plugsetHas, plugsetSearch]
  have hcode : (contextAddPlug answers (contextInit fun _ => 0) path (.lit "id") path).1 = 0 := by
    rw [contextAddPlug, if_neg (by decide)]
    simp only [if_neg hzero, if_neg hid, if_neg hfound]
    rw [hplugset, if_neg hhas, hadd]
    rfl
  rw [hcode] at hplug
  exact absurd hplug (by decide)

/-- **Relative paths are refused**, but those with a slashed root that are short enough. -/
theorem relative_refused_iff (path : CStr) (h : ¬ path.Absolute) :
    ((scanPath path).standard.head? = some SLASH ↔ SlashedRoot (components path.bytes)) ∧
      (RefusedPath path ↔ ¬ SlashedRoot (components path.bytes) ∨ ¬ FitsStd path) := by
  have hhead := standard_relative h
  have hcode := stdAbsolute_code path
  refine ⟨hhead, fun href => ?_, fun hcond => ?_⟩
  · rw [← not_and_or]
    rintro ⟨hroot, hfits⟩
    rw [if_pos ⟨hfits, hhead.2 hroot⟩] at hcode
    exact not_refusedPath hcode href
  · refine refusedPath_of_code (hcode.trans (if_neg ?_))
    rintro ⟨hfits, hstart⟩
    exact hcond.elim (fun hn => hn (hhead.1 hstart)) (fun hn => hn hfits)

/-- Two slashes behind a component that stays change nothing. -/
theorem relative_refused_parent : RefusedPath (.lit "../a/.//b") :=
  (relative_refused_iff (.lit "../a/.//b") (by decide +kernel)).2.2 (.inl fun hroot =>
    absurd ((relative_refused_iff (.lit "../a/.//b") (by decide +kernel)).1.2 hroot)
      (by decide +kernel))

/-- The path `.//x` is relative; it is recorded as `/x`. -/
theorem relative_not_refused :
    ¬ ∀ path : CStr, ¬ path.Absolute → RefusedPath path := by
  intro h
  have hcode : (stdAbsolute (.lit ".//x")).1 = 0 := by decide +kernel
  exact not_refusedPath hcode (h (.lit ".//x") (by decide +kernel))

end SecLsmManager

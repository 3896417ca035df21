import SecLsmManager.Context.PathLength

/-!
# The normal form of absolute paths

A standard path that ends in the buffer is the normal form of the path when that one is absolute
(`pathStd_absolute`), and the normal form of a normalised path is the path itself.
-/

namespace SecLsmManager

open Lib

/-- The root, then the components that are kept, between slashes. -/
def normalForm (path : CStr) : List UInt8 :=
  SLASH :: [SLASH].intercalate ((components path.bytes).foldl keep [])

/-! ## Absolute paths -/

/-- The scan of an absolute path, behind its first slash. -/
structure PathScan.Rooted (s : PathScan) : Prop where
  slash : s.kept = [] → s.slash = true
  lead : s.kept ≠ [] → s.lead = true

/-- Behind the first slash a slash comes before the next component. -/
theorem PathScan.Rooted.slash_of_ready {s : PathScan} (h : s.Rooted) (hs : s.Ready) :
    s.slash = true := by
  by_cases hkept : s.kept = []
  · exact h.slash hkept
  · exact hs.slash hkept

/-- Each step keeps the root: a dot-dot does not take it away. -/
theorem PathScan.Rooted.step {s : PathScan} (h : s.Rooted) (hs : s.Ready) (more : Bool)
    (c : List UInt8) : (s.step true more c).Rooted where
  slash := by
    intro hkept
    have hslash := h.slash_of_ready hs
    obtain rfl | rfl | rfl | hreg := component_cases c
    · exact Bool.or_eq_true_iff.2 (.inl hslash)
    · exact hslash
    · simp [PathScan.step]
    · rw [PathScan.kept_step, keep_regular _ hreg] at hkept
      simp at hkept
  lead := by
    intro _
    by_cases hkept : s.kept = []
    · exact (if_pos hkept).trans (h.slash hkept)
    · exact (if_neg hkept).trans (h.lead hkept)

/-- The standard path then begins with a slash. -/
theorem PathScan.Rooted.standard {s : PathScan} (h : s.Rooted) :
    s.standard = SLASH :: [SLASH].intercalate s.kept := by
  by_cases hkept : s.kept = []
  · rw [PathScan.standard, if_pos hkept, if_pos (h.slash hkept), hkept]
    rfl
  · rw [PathScan.standard, if_neg hkept, PathScan.text, if_neg hkept, if_pos (h.lead hkept)]
    rfl

/-- The whole scan keeps the root. -/
theorem PathScan.Rooted.scan {comps : List (List UInt8)} (hcomps : ∀ c ∈ comps, SLASH ∉ c)
    {s : PathScan} (h : s.Rooted) (hs : s.Ready) : (PathScan.scan true s comps).Rooted := by
  induction comps generalizing s with
  | nil => exact h
  | cons c comps ih =>
    obtain ⟨hc, htail⟩ := List.forall_mem_cons.1 hcomps
    have hstep := h.step hs (!comps.isEmpty) c
    cases comps with
    | nil => exact hstep
    | cons d comps => exact ih htail hstep (hs.step true hc)

/-- The first character of an absolute path. -/
theorem CStr.Absolute.bytes {path : CStr} (h : path.Absolute) :
    ∃ rest, path.bytes = SLASH :: rest := List.head?_eq_some_iff.1 h

/-- An absolute path has an empty component before its first slash. -/
theorem components_slash (rest : List UInt8) :
    components (SLASH :: rest) = [] :: components rest := by
  rw [components, List.splitOn_cons_eq_if_modifyHead, if_pos (beq_self_eq_true _)]
  rfl

/-- The standard path of an absolute path is its normal form. -/
theorem standard_absolute {path : CStr} (h : path.Absolute) :
    (scanPath path).standard = normalForm path := by
  obtain ⟨rest, hrest⟩ := h.bytes
  have hcomps : components path.bytes = [] :: components rest := by
    rw [hrest, components_slash]
  have hne : components rest ≠ [] := List.splitOn_ne_nil SLASH rest
  have hfirst : PathScan.step true (!(components rest).isEmpty) .init [] = ⟨[], false, true⟩ := by
    cases hsplit : components rest with
    | nil => exact absurd hsplit hne
    | cons c comps => rfl
  have hscan : scanPath path = PathScan.scan true ⟨[], false, true⟩ (components rest) := by
    rw [scanPath, hcomps, PathScan.scan, show decide path.Absolute = true from decide_eq_true h,
      hfirst]
  have hrooted : PathScan.Rooted ⟨[], false, true⟩ := ⟨fun _ => rfl, fun hf => absurd rfl hf⟩
  have hready : PathScan.Ready ⟨[], false, true⟩ :=
    ⟨List.forall_mem_nil _, List.forall_mem_nil _, fun _ => rfl⟩
  have hend := hrooted.scan
    (fun c (hc : c ∈ components rest) => notMem_of_mem_splitOn hc) hready
  rw [hscan, hend.standard, PathScan.kept_scan, normalForm, hcomps, List.foldl_cons, keep_nil]

/-! ## Normalised paths -/

/-- Components between slashes, with one more in front, have each a slash before it. -/
theorem slash_intercalate {comps : List (List UInt8)} (h : comps ≠ []) :
    SLASH :: [SLASH].intercalate comps = comps.flatMap (SLASH :: ·) := by
  induction comps with
  | nil => exact absurd rfl h
  | cons c comps ih =>
    cases comps with
    | nil => simp
    | cons d comps =>
      rw [List.flatMap_cons, ← ih (List.cons_ne_nil _ _), List.intercalate_cons_cons]
      simp

/-- Regular components are all kept. -/
theorem foldl_keep_of_regular {comps : List (List UInt8)} (h : ∀ c ∈ comps, Regular c)
    (kept : List (List UInt8)) : comps.foldl keep kept = kept ++ comps := by
  induction comps generalizing kept with
  | nil => rw [List.foldl_nil, List.append_nil]
  | cons c comps ih =>
    obtain ⟨hc, hcomps⟩ := List.forall_mem_cons.1 h
    rw [List.foldl_cons, keep_regular kept hc, ih hcomps, List.append_assoc, List.singleton_append]

/-- A normalised path is absolute. -/
theorem CStr.Normalised.absolute {path : CStr} (h : path.Normalised) : path.Absolute := by
  obtain hroot | ⟨comps, hne, -, hb⟩ := h
  · rw [CStr.Absolute, hroot]
    rfl
  · obtain ⟨c, comps, rfl⟩ := List.exists_cons_of_ne_nil hne
    rw [CStr.Absolute, hb]
    rfl

/-- A normalised path is its own normal form. -/
theorem CStr.Normalised.normalForm {path : CStr} (h : path.Normalised) :
    normalForm path = path.bytes := by
  obtain hroot | ⟨comps, hne, hcomps, hb⟩ := h
  · rw [SecLsmManager.normalForm, hroot]
    rfl
  · have hslash : ∀ c ∈ comps, SLASH ∉ c := fun c hc => (hcomps c hc).noslash
    rw [SecLsmManager.normalForm, hb, ← slash_intercalate hne, components_slash, components,
      List.splitOn_intercalate SLASH hslash hne, List.foldl_cons, keep_nil,
      foldl_keep_of_regular fun c hc => (hcomps c hc).regular, List.nil_append]

/-- What is kept in the end was there at the start or is a regular component of the path. -/
theorem foldl_keep_mem {comps kept : List (List UInt8)} :
    ∀ c ∈ comps.foldl keep kept, c ∈ kept ∨ (Regular c ∧ c ∈ comps) := by
  induction comps generalizing kept with
  | nil => exact fun c hc => .inl hc
  | cons d comps ih =>
    intro c hc
    obtain hkeep | ⟨hreg, hmem⟩ := ih c hc
    · obtain hkept | ⟨hreg, rfl⟩ := keep_subset hkeep
      · exact .inl hkept
      · exact .inr ⟨hreg, List.mem_cons_self⟩
    · exact .inr ⟨hreg, List.mem_cons_of_mem d hmem⟩

/-- The characters of a component are in the text of all. -/
theorem mem_intercalate {a b : UInt8} {comps : List (List UInt8)} {c : List UInt8}
    (hc : c ∈ comps) (hb : b ∈ c) : b ∈ [a].intercalate comps := by
  induction comps with
  | nil => cases hc
  | cons d comps ih =>
    cases comps with
    | nil =>
      rw [List.intercalate_singleton]
      exact List.mem_singleton.1 hc ▸ hb
    | cons e comps =>
      rw [List.intercalate_cons_cons, List.append_assoc, List.mem_append]
      obtain rfl | hc := List.mem_cons.1 hc
      · exact .inl hb
      · exact .inr (List.mem_append_right _ (ih hc))

/-- The root, or proper components behind slashes. -/
theorem normalForm_cases (path : CStr) : normalForm path = [SLASH] ∨
    ∃ comps, comps ≠ [] ∧ (∀ c ∈ comps, Component c) ∧
      normalForm path = comps.flatMap (SLASH :: ·) := by
  by_cases hkept : (components path.bytes).foldl keep [] = []
  · exact .inl (by rw [normalForm, hkept]; rfl)
  · refine .inr ⟨_, hkept, fun c hc => ?_, slash_intercalate hkept⟩
    obtain hf | ⟨hreg, hmem⟩ := foldl_keep_mem c hc
    · cases hf
    · exact
        { ne_nil := hreg.ne_nil
          noslash := notMem_of_mem_splitOn hmem
          nonul := by
            intro h0
            have hbytes : [SLASH].intercalate (path.bytes.splitOn SLASH) = path.bytes :=
              List.intercalate_splitOn SLASH
            exact path.nonul (hbytes ▸ mem_intercalate hmem h0)
          ne_dot := hreg.ne_dot
          ne_dotdot := hreg.ne_dotdot }

/-- The normal form of a path is the text of a C string. -/
theorem normalForm_nonul (path : CStr) : 0 ∉ normalForm path := by
  have hs : (0 : UInt8) ≠ SLASH := by decide
  obtain h | ⟨comps, -, hcomps, h⟩ := normalForm_cases path
  · rw [h, List.mem_singleton]
    exact hs
  · rw [h, List.mem_flatMap]
    rintro ⟨c, hc, h0⟩
    obtain h0 | h0 := List.mem_cons.1 h0
    · exact hs h0
    · exact (hcomps c hc).nonul h0

/-- A normalised path that fits in the buffer is its own standard path. -/
theorem pathStd_normalised (buffer : Nat → UInt8) {size : Nat} {path : CStr} (h : path.Normalised)
    (hsize : path.length < size) :
    (pathStd buffer size path).1 = path.length ∧
      StoredText size (pathStd buffer size path).2 path.bytes := by
  have hstd := pathStd_scan buffer (overflows_of_length_le (Nat.le_of_lt hsize))
  rw [standard_absolute h.absolute, h.normalForm] at hstd
  exact hstd

/-- A text without NUL that ends in the buffer is the string of the buffer. -/
theorem StoredText.string {size : Nat} {buffer : Nat → UInt8} {text : List UInt8}
    (h : StoredText size buffer text) (hlt : text.length < size) (hnonul : 0 ∉ text) :
    (CStr.ofBytes (cells buffer 0 size)).bytes = text := by
  have hstored := h.stored
  rw [Nat.min_eq_left (Nat.le_of_lt hlt), List.take_of_length_le (Nat.le_of_lt hlt)] at hstored
  have hcells := CStr.bytes_ofBytes_cells hlt (h.ended hlt) (by rwa [hstored])
  exact hcells.trans hstored

/-- **Absolute paths are normalised.** When the length returned is smaller than the size of the
buffer, it is that of the normal form, which is in the buffer with its NUL and is its own standard
path. In all cases nothing is written outside the buffer. -/
theorem pathStd_absolute (buffer : Nat → UInt8) (size : Nat) (path : CStr) (h : path.Absolute) :
    ((pathStd buffer size path).1 < size →
        let std := CStr.ofBytes (cells (pathStd buffer size path).2 0 size)
        std.bytes = normalForm path ∧ (pathStd buffer size path).1 = std.length ∧
          (pathStd buffer size path).2 std.length = 0 ∧
          ∀ (buffer' : Nat → UInt8) (size' : Nat), std.length < size' →
            (pathStd buffer' size' std).1 = std.length ∧
              CStr.ofBytes (cells (pathStd buffer' size' std).2 0 size') = std) ∧
      ∀ i, size ≤ i → (pathStd buffer size path).2 i = buffer i := by
  refine ⟨fun hlt => ?_, fun i hi => pathStd_frame buffer path hi⟩
  intro std
  have hover : Overflows size path = false := by
    rw [← Bool.not_eq_true]
    intro hover
    exact Nat.lt_asymm hlt (pathStd_beyond buffer hover).1
  obtain ⟨hlength, hstored⟩ := pathStd_scan buffer hover
  rw [standard_absolute h] at hlength hstored
  have hbytes : std.bytes = normalForm path :=
    hstored.string (hlength ▸ hlt) (normalForm_nonul path)
  have hlen : std.length = (normalForm path).length := congrArg List.length hbytes
  have hnormalised : std.Normalised := by
    rw [CStr.Normalised, hbytes]
    exact normalForm_cases path
  refine ⟨hbytes, hlength.trans hlen.symm, ?_, fun buffer' size' hsize => ?_⟩
  · rw [hlen]
    exact hstored.ended (hlength ▸ hlt)
  · obtain ⟨hagain, htext⟩ := pathStd_normalised buffer' hnormalised hsize
    exact ⟨hagain, CStr.ext (htext.string hsize std.nonul)⟩

/-- A path with all the cases. -/
theorem pathStd_absolute_dots :
    (CStr.ofBytes (cells (pathStd (fun _ => 1) 8 (.lit "/../a//b/.././c/")).2 0 8)).bytes =
      normalForm (.lit "/../a//b/.././c/") :=
  ((pathStd_absolute (fun _ => 1) 8 (.lit "/../a//b/.././c/") (by decide +kernel)).1
    (by decide +kernel)).1

end SecLsmManager

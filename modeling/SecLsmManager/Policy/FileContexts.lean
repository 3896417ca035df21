import SecLsmManager.Policy.SelinuxFiles
import SecLsmManager.Lib.Lines

/-!
# The file of the contexts

`generate_app_module_fc` writes a line for each path, with the label of its type. A reader of the
lines gets back the paths and their labels, unless one of them breaks its line
(`generate_app_module_fc_describes`): a path with a line feed adds entries of its own
(`generate_app_module_fc_injected`).
-/

namespace SecLsmManager

open Lib

/-! ## Labels -/

/-- The array of the labels: each ends inside its own array. -/
structure PathTypeDefinitions where
  label : PathType → CStr
  fits : ∀ type, (label type).length < SEC_LSM_MANAGER_MAX_SIZE_LABEL

/-- The array after `init_path_type_definitions`. -/
def PathTypeDefinitions.init (mem : PathTypeDefinitions) (id : CStr) : PathTypeDefinitions where
  label := Selinux.initPathTypeDefinitions mem.label id
  fits type := by
    have hlabel : ∀ text, (Selinux.initPathTypeDefinitions.label text).length <
        SEC_LSM_MANAGER_MAX_SIZE_LABEL := fun text =>
      Nat.lt_of_le_of_lt (List.length_take_le _ _) (by decide)
    cases type with
    | typeUnset => exact mem.fits .typeUnset
    | typeDefault => exact mem.fits .typeDefault
    | _ => exact hlabel _

/-- An array of zeros. -/
def PathTypeDefinitions.blank : PathTypeDefinitions := ⟨fun _ => .empty, fun _ => by decide⟩

/-! ## Entries -/

/-- An entry of the file: a path and its label. -/
structure FcEntry where
  path : List UInt8
  label : List UInt8
  deriving DecidableEq

namespace FcEntry

def lineFeed : UInt8 := 10
def parenthesis : UInt8 := 40

def middle : List UInt8 := (CStr.lit "(/.*)? gen_context(").bytes
def ending : List UInt8 := (CStr.lit ",s0)").bytes

/-- The line of an entry. -/
def write (entry : FcEntry) : List UInt8 := entry.path ++ middle ++ entry.label ++ ending

/-- The entry of a line: no label has a parenthesis, so that the last one is that of
`gen_context`. -/
def read (line : List UInt8) : Option FcEntry :=
  let start := line.rdropWhile (· ≠ parenthesis)
  let rest := line.rtakeWhile (· ≠ parenthesis)
  if middle <:+ start ∧ ending <:+ rest then
    some ⟨start.rdrop middle.length, rest.rdrop ending.length⟩
  else none

/-- The entry is read from its line when its label has no parenthesis. -/
theorem read_write_iff (entry : FcEntry) :
    read entry.write = some entry ↔ parenthesis ∉ entry.label := by
  constructor
  · intro h hmem
    simp only [read] at h
    split at h
    · have hlabel := congrArg FcEntry.label (Option.some.inj h)
      rw [← hlabel] at hmem
      have hrest := List.mem_rtakeWhile_imp (List.mem_of_mem_take hmem)
      simp at hrest
    · cases h
  · intro h
    have hending : parenthesis ∉ ending := by decide
    have hmiddle : middle = middle.dropLast ++ [parenthesis] := by decide
    have hrest : ∀ c ∈ entry.label ++ ending, decide (c ≠ parenthesis) = true := by
      intro c hc
      rw [decide_eq_true_eq]
      rintro rfl
      exact (List.mem_append.1 hc).elim h hending
    have hmark : ¬ decide (parenthesis ≠ parenthesis) = true := by simp
    have hcut := cut_last (p := (· ≠ parenthesis)) hmark (entry.path ++ middle.dropLast) hrest
    rw [List.append_assoc entry.path, ← hmiddle] at hcut
    rw [read, write, List.append_assoc _ entry.label, hcut.1, hcut.2,
      if_pos ⟨List.suffix_append _ _, List.suffix_append _ _⟩, List.rdrop_append_length,
      List.rdrop_append_length]

/-- What breaks the line of an entry. -/
theorem lineFeed_notMem_write_iff (entry : FcEntry) :
    lineFeed ∉ entry.write ↔ lineFeed ∉ entry.path ∧ lineFeed ∉ entry.label := by
  have hmiddle : lineFeed ∉ middle := by decide
  have hending : lineFeed ∉ ending := by decide
  simp [write, hmiddle, hending]

end FcEntry

/-- The entries of the paths. -/
def fcEntries (definitions : PathType → CStr) (paths : List Path) : List FcEntry :=
  paths.map fun path => ⟨path.path.bytes, (definitions path.pathType).bytes⟩

/-- The entries of a file of contexts. -/
def readFc (text : List UInt8) : Option (List FcEntry) :=
  readLines FcEntry.lineFeed FcEntry.read text

/-! ## The lines of the paths -/

/-- The paths of a reachable context fit their buffers. -/
theorem Context.run_path_le (mem : Nat → UInt8) (ops : List ContextOp) :
    ∀ path ∈ ((contextCreate mem).run ops).pathSet, path.path.length ≤ stdSize := by
  refine Context.run_of_accepts
    (P := fun context => ∀ path ∈ context.pathSet, path.path.length ≤ stdSize) ?_
    (fun path hpath => absurd hpath List.not_mem_nil) ops
  intro context context' op h haccepts
  cases haccepts with
  | addPath _ _ _ _ =>
    intro path hpath
    rcases List.mem_append.1 hpath with hpath | hpath
    · exact h path hpath
    · rw [List.mem_singleton.1 hpath]
      exact stdAbsolute_length_le _
  | clear => exact fun path hpath => absurd hpath List.not_mem_nil
  | _ => exact h

/-- The line of a path is not cut. -/
theorem fcLine_bytes (definitions : PathTypeDefinitions) {path : Path}
    (h : path.path.length ≤ stdSize) :
    (fcLine definitions.label path).bytes =
      FcEntry.write ⟨path.path.bytes, (definitions.label path.pathType).bytes⟩ ++
        [FcEntry.lineFeed] := by
  have hfits := definitions.fits path.pathType
  have hmiddle : (CStr.lit "(/.*)? gen_context(").length = 19 := by decide
  have hend : (CStr.lit ",s0)\n").length = 5 := by decide
  have hbytes : (CStr.lit ",s0)\n").bytes = FcEntry.ending ++ [FcEntry.lineFeed] := by decide
  rw [fcLine, CStr.snprintf_of_lt]
  · simp only [CStr.bytes_append, hbytes, FcEntry.write, FcEntry.middle, List.append_assoc]
  · simp only [CStr.length_append, hmiddle, hend]
    simp only [stdSize, SEC_LSM_MANAGER_MAX_SIZE_PATH] at h
    simp only [SEC_LSM_MANAGER_MAX_SIZE_LABEL] at hfits
    simp only [SEC_LSM_MANAGER_MAX_SIZE_LINE_MODULE, SEC_LSM_MANAGER_MAX_SIZE_PATH,
      SEC_LSM_MANAGER_MAX_SIZE_LABEL]
    omega

theorem fcText_eq (definitions : PathTypeDefinitions) {paths : List Path}
    (h : ∀ path ∈ paths, path.path.length ≤ stdSize) :
    fcText definitions.label paths =
      terminated FcEntry.lineFeed ((fcEntries definitions.label paths).map FcEntry.write) := by
  rw [fcText, terminated, fcEntries, List.map_map, List.flatMap_map]
  exact List.flatMap_congr fun path hpath => fcLine_bytes definitions (h path hpath)

/-- **The file describes exactly the paths** when no path and no label of a path has a line feed,
and no label a parenthesis. -/
theorem generate_app_module_fc_describes (mem : Nat → UInt8) (ops : List ContextOp)
    (env : SelinuxEnv) {answers : SelinuxAnswers} (definitions : PathTypeDefinitions)
    (s : SelinuxSystem) :
    let context := (contextCreate mem).run ops
    answers.openFc = none → (∀ i < context.pathSet.length, answers.fputs i = none) →
    answers.closeFc = none →
      ((∃ text, (generateAppModuleFc env answers context definitions.label s).2.files
          (selinuxFcFile env context) = some text ∧
        readFc text = some (fcEntries definitions.label context.pathSet)) ↔
      ∀ path ∈ context.pathSet, FcEntry.lineFeed ∉ path.path.bytes ∧
        FcEntry.lineFeed ∉ (definitions.label path.pathType).bytes ∧
        FcEntry.parenthesis ∉ (definitions.label path.pathType).bytes) := by
  intro context hopen hputs hclose
  have hloop := fcLoop_text answers.fputs definitions.label 0 context.pathSet []
    (by simpa using hputs)
  have hfile : (generateAppModuleFc env answers context definitions.label s).2.files
      (selinuxFcFile env context) = some (fcText definitions.label context.pathSet) := by
    rw [generateAppModuleFc, hopen]
    simp [hloop, hclose, SelinuxSystem.write]
  simp only [hfile, Option.some.injEq, exists_eq_left']
  rw [fcText_eq definitions (Context.run_path_le mem ops), readFc, readLines_written]
  simp only [fcEntries, List.forall_mem_map, FcEntry.read_write_iff,
    FcEntry.lineFeed_notMem_write_iff, and_assoc]
  exact Iff.rfl

theorem generate_app_module_fc_describes_conf :
    let context := (contextCreate fun _ => 0).run
      [.setId (.lit "ab"), .addPath .plain (.lit "/a") (.lit "conf")]
    ∃ text, (generateAppModuleFc ⟨.lit "/r", .ofBytes⟩ (SelinuxAnswers.all []) context
        (PathTypeDefinitions.blank.init (.lit "ab")).label SelinuxSystem.blank).2.files
          (selinuxFcFile ⟨.lit "/r", .ofBytes⟩ context) = some text ∧
      readFc text = some (fcEntries (PathTypeDefinitions.blank.init (.lit "ab")).label
        context.pathSet) :=
  (generate_app_module_fc_describes _ _ _ _ _ rfl (fun _ _ => rfl) rfl).2 (by decide +kernel)

/-- A path with a line feed: it reads as a path of its own choice with a label of its choice, and
another path. -/
theorem generate_app_module_fc_injected :
    let path := CStr.lit "/a(/.*)? gen_context(x_t,s0)\n/b"
    let context := (contextCreate fun _ => 0).run
      [.setId (.lit "ab"), .addPath .plain path (.lit "conf")]
    let definitions := (PathTypeDefinitions.blank.init (.lit "ab")).label
    context.pathSet = [⟨path, .typeConf⟩] ∧
      ∃ text, (generateAppModuleFc ⟨.lit "/r", .ofBytes⟩ (SelinuxAnswers.all []) context
        definitions SelinuxSystem.blank).2.files
          (selinuxFcFile ⟨.lit "/r", .ofBytes⟩ context) = some text ∧
      readFc text = some [⟨(CStr.lit "/a").bytes, (CStr.lit "x_t").bytes⟩,
        ⟨(CStr.lit "/b").bytes, (CStr.lit "system_u:object_r:ab_conf_t").bytes⟩] ∧
      readFc text ≠ some (fcEntries definitions context.pathSet) := by
  intro path context definitions
  refine ⟨by decide +kernel, fcText definitions context.pathSet, by decide +kernel,
    by decide +kernel, by decide +kernel⟩

end SecLsmManager

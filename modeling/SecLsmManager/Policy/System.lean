import SecLsmManager.Context.Context
import SecLsmManager.Lib.Overwrite

/-!
# The system that a request changes

The permission database, the rule files, the rules of the kernel, the links of the plugs and the
Smack attributes of the other files: the five parts that an installation or a removal acts on.
Distinct normalised paths are taken to denote distinct files, and only links stand at the paths of
plug links: the paths of a context are neither among these, nor a rule file. What the calls to the
system answer, beside what the state decides, is an argument: a call fails, and then does nothing,
or does what it is for. Two kinds of calls may fail half-way: the writes to a rule file, and those
to the library of Smack.
-/

namespace SecLsmManager

/-- A key of the permission database. -/
structure PolicyKey where
  client : CStr
  session : CStr
  user : CStr
  permission : CStr
  deriving DecidableEq

/-- The Smack attributes that are written. -/
inductive Xattr
  | smack | smackexec | smacktransmute
  deriving DecidableEq

/-- A symbolic link, with its label. -/
structure PlugLink where
  target : CStr
  label : Option CStr
  deriving DecidableEq

/-- The state of the system, with the rules `κ` of the kernel. -/
@[ext] structure System (κ : Type*) where
  policies : PolicyKey → Option CStr
  ruleFiles : CStr → Option (List UInt8)
  rules : κ
  links : CStr → Option PlugLink
  attrs : CStr × Xattr → Option CStr

/-- The failure of a call, if it fails. -/
abbrev Fault := Option Errno

variable {κ : Type*}

/-! ## Extended attributes -/

def setXattr (fault : Fault) (path : CStr) (xattr : Xattr) (value : CStr) (s : System κ) :
    Int × System κ :=
  match fault with
  | some e => (-e.val, s)
  | none => (0, { s with attrs := Function.update s.attrs (path, xattr) (some value) })

/-- An attribute that is not there is no failure. -/
def unsetXattr (fault : Fault) (path : CStr) (xattr : Xattr) (s : System κ) : Int × System κ :=
  match fault with
  | some e => if e.val = ENODATA then (0, s) else (-e.val, s)
  | none => (0, { s with attrs := Function.update s.attrs (path, xattr) none })

/-- `value` is `none` for `NULL`. -/
def putXattr (fault : Fault) (path : CStr) (xattr : Xattr) (value : Option CStr) (s : System κ) :
    Int × System κ :=
  match value with
  | some v =>
    if v ≠ .empty then setXattr fault path xattr v s else unsetXattr fault path xattr s
  | none => unsetXattr fault path xattr s

/-! ## Links -/

/-- `symlink`: the path must be free. A new link has the label that the kernel gives it. -/
def symlink (fault : Fault) (label : Option CStr) (target path : CStr) (s : System κ) :
    Int × System κ :=
  match fault with
  | some e => (-e.val, s)
  | none =>
    if (s.links path).isSome then (-EEXIST, s)
    else (0, { s with links := Function.update s.links path (some ⟨target, label⟩) })

/-- A `symlink` that fails makes no link. -/
theorem symlink_some (e : Errno) (label : Option CStr) (target path : CStr) (s : System κ) :
    symlink (some e) label target path s = (-e.val, s) := rfl

/-- `set_xattr` of the label of a link. -/
def setLinkXattr (fault : Fault) (path value : CStr) (s : System κ) : Int × System κ :=
  match fault with
  | some e => (-e.val, s)
  | none =>
    let link := (s.links path).map fun link => { link with label := some value }
    (0, { s with links := Function.update s.links path link })

/-- `unlink`, where a path without a file is no failure for the callers. -/
def unlink (fault : Fault) (path : CStr) (s : System κ) : Int × System κ :=
  match fault with
  | some e => if e.val = ENOENT then (0, s) else (-e.val, s)
  | none => (0, { s with links := Function.update s.links path none })

/-! ## Rule files -/

/-- `remove_file`. -/
def removeFile (fault : Fault) (path : CStr) (s : System κ) : Int × System κ :=
  match fault with
  | some e => (-e.val, s)
  | none =>
    match s.ruleFiles path with
    | none => (-ENOENT, s)
    | some _ => (0, { s with ruleFiles := Function.update s.ruleFiles path none })

/-! ## What the calls change -/

section
variable (s : System κ)

/-- What a cell of the attributes has after `put_xattr`. -/
def putValue (value : Option CStr) : Option CStr := value.filter (· ≠ .empty)

/-- The attribute is removed, or the system is as it was. -/
theorem unsetXattr_spec (fault : Fault) (path : CStr) (xattr : Xattr) :
    (fault = none → unsetXattr fault path xattr s =
      (0, { s with attrs := Function.update s.attrs (path, xattr) none })) ∧
    (fault ≠ none → (unsetXattr fault path xattr s).2 = s) := by
  cases fault with
  | none => exact ⟨fun _ => rfl, fun h => absurd rfl h⟩
  | some e =>
    refine ⟨nofun, fun _ => ?_⟩
    rw [unsetXattr]
    split <;> rfl

/-- A call of `put_xattr` writes its cell, or fails and writes nothing. -/
theorem putXattr_spec (fault : Fault) (path : CStr) (xattr : Xattr) (value : Option CStr) :
    (fault = none → putXattr fault path xattr value s =
      (0, { s with attrs := Function.update s.attrs (path, xattr) (putValue value) })) ∧
    (fault ≠ none → (putXattr fault path xattr value s).2 = s) := by
  have hunset := unsetXattr_spec s fault path xattr
  cases value with
  | none => exact hunset
  | some v =>
    by_cases hv : v = .empty
    · simp only [putXattr, putValue, hv, ne_eq, not_true_eq_false, if_false, Option.filter_some,
        decide_false, Bool.false_eq_true]
      exact hunset
    · simp only [putXattr, putValue, hv, ne_eq, not_false_eq_true, if_true, Option.filter_some,
        decide_true]
      cases fault with
      | none => exact ⟨fun _ => rfl, fun h => absurd rfl h⟩
      | some e => exact ⟨nofun, fun _ => rfl⟩

/-- The cells of the attributes of a path. -/
def attrCells (path : CStr) : Set (CStr × Xattr) := {c | c.1 = path}

/-- A change of the attributes of `path` only. -/
theorem putXattr_frame (fault : Fault) (path : CStr) (xattr : Xattr) (value : Option CStr) :
    ∃ a, (putXattr fault path xattr value s).2 = { s with attrs := a } ∧
      Set.EqOn a s.attrs ((attrCells path)ᶜ : Set (CStr × Xattr)) := by
  obtain ⟨hdone, hfails⟩ := putXattr_spec s fault path xattr value
  cases fault with
  | none =>
    rw [hdone rfl]
    exact ⟨_, rfl, Lib.eqOn_update (S := attrCells path) rfl _ _⟩
  | some e =>
    rw [hfails (Option.some_ne_none e)]
    exact ⟨s.attrs, rfl, Set.eqOn_refl _ _⟩

end

end SecLsmManager

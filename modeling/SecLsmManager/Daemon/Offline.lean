import SecLsmManager.Lib.Lines
import SecLsmManager.Policy.Labels

/-!
# The offline permission manager

The permission manager of `offline.c`, which writes a line for each permission on the standard
output. A permission is any string, and it is written as it is. The lines list the permissions
exactly when none of them has a space or a line feed (`offline_lists_iff`): a permission with a
line feed adds a rule of its choice (`offline_injects`).
-/

namespace SecLsmManager

open Lib

variable {σ : Type*}

namespace Offline

def space : UInt8 := 32
def lineFeed : UInt8 := 10

/-- What `fprintf` writes for a permission. -/
def printed (label permission : CStr) : List UInt8 :=
  label.bytes ++ (CStr.lit " * * ").bytes ++ permission.bytes ++ (CStr.lit " yes forever\n").bytes

/-- `add_permissions`: the state has the text of the standard output. -/
def addPermissions (label : CStr) (permissionSet : List CStr) (_dropBefore : Bool)
    (s : σ × List UInt8) : Int × σ × List UInt8 :=
  (0, s.1, s.2 ++ permissionSet.flatMap (printed label))

def dropPermissions (_label : CStr) (s : σ × List UInt8) : Int × σ × List UInt8 := (0, s)

def checkPermission (_label _permission : CStr) (s : σ × List UInt8) : Int × σ × List UInt8 :=
  (1, s)

/-- `offlineitf`. -/
def offlineitf : PermMgr (σ × List UInt8) := ⟨addPermissions, dropPermissions, checkPermission⟩

/-- A security module, which writes nothing on the standard output. -/
def silent (mac : Mac σ) : Mac (σ × List UInt8) where
  install context s := ((mac.install context s.1).1, (mac.install context s.1).2, s.2)
  uninstall context s := ((mac.uninstall context s.1).1, (mac.uninstall context s.1).2, s.2)
  getLabel := mac.getLabel

/-! ## Rules -/

/-- A rule of the permission manager: its fields, in the order in which they are written. -/
structure Rule where
  client : List UInt8
  session : List UInt8
  user : List UInt8
  permission : List UInt8
  value : List UInt8
  expire : List UInt8
  deriving DecidableEq

/-- The rule that grants a permission to a label. -/
def Rule.grant (label permission : CStr) : Rule :=
  ⟨label.bytes, [42], [42], permission.bytes, (CStr.lit "yes").bytes, (CStr.lit "forever").bytes⟩

/-- The rule of a line that has its six fields. -/
def Rule.read (line : List UInt8) : Option Rule :=
  match line.splitOn space with
  | [client, session, user, permission, value, expire] =>
    some ⟨client, session, user, permission, value, expire⟩
  | _ => none

/-- The first and the fourth field of a line. -/
def readGrant (line : List UInt8) : Option (List UInt8 × List UInt8) :=
  match (line.splitOn space)[0]?, (line.splitOn space)[3]? with
  | some label, some permission => some (label, permission)
  | _, _ => none

/-- The text has a line for each permission, in order, with the label and the permission as its
first and its fourth field, and its rules are those that grant the permissions to the label. -/
structure Lists (label : CStr) (permissionSet : List CStr) (text : List UInt8) : Prop where
  fields : readLines lineFeed readGrant text =
    some (permissionSet.map fun permission => (label.bytes, permission.bytes))
  rules : readLines lineFeed Rule.read text = some (permissionSet.map (Rule.grant label))

/-- A string that is a single field of a single line. -/
def Plain (s : CStr) : Prop := space ∉ s.bytes ∧ lineFeed ∉ s.bytes

instance (s : CStr) : Decidable (Plain s) := by unfold Plain; infer_instance

/-! ## Lines -/

/-- The line of a permission, without its end. -/
def line (label permission : List UInt8) : List UInt8 :=
  label ++ space :: ([42] ++ space :: ([42] ++ space :: (permission ++
    space :: ((CStr.lit "yes").bytes ++ space :: (CStr.lit "forever").bytes))))

theorem printed_eq (label permission : CStr) :
    printed label permission = line label.bytes permission.bytes ++ [lineFeed] := by
  have hstars : (CStr.lit " * * ").bytes = [space, 42, space, 42, space] := by decide
  have hends : (CStr.lit " yes forever\n").bytes =
      space :: ((CStr.lit "yes").bytes ++ space :: (CStr.lit "forever").bytes) ++ [lineFeed] := by
    decide
  rw [printed, hstars, hends, line]
  simp only [List.append_assoc, List.cons_append, List.nil_append]

theorem splitOn_line (label permission : List UInt8) :
    (line label permission).splitOn space = label.splitOn space ++ [[42], [42]] ++
      permission.splitOn space ++ [(CStr.lit "yes").bytes, (CStr.lit "forever").bytes] := by
  have hstar : ([42] : List UInt8).splitOn space = [[42]] := by decide
  have hends : ((CStr.lit "yes").bytes ++ space :: (CStr.lit "forever").bytes).splitOn space =
      [(CStr.lit "yes").bytes, (CStr.lit "forever").bytes] := by decide
  simp only [line, List.splitOn_append_cons_self, hstar, hends]
  simp

theorem lineFeed_notMem_line (label permission : List UInt8) :
    lineFeed ∉ line label permission ↔ lineFeed ∉ label ∧ lineFeed ∉ permission := by
  have hspace : lineFeed ≠ space := by decide
  have hyes : lineFeed ∉ (CStr.lit "yes").bytes := by decide
  have hforever : lineFeed ∉ (CStr.lit "forever").bytes := by decide
  have hstar : lineFeed ≠ 42 := by decide
  simp [line, hspace, hyes, hforever, hstar]

theorem readGrant_eq_some {line label permission : List UInt8} :
    readGrant line = some (label, permission) ↔
      (line.splitOn space)[0]? = some label ∧ (line.splitOn space)[3]? = some permission := by
  rw [readGrant]
  cases (line.splitOn space)[0]? with
  | none => simp
  | some first =>
    cases (line.splitOn space)[3]? with
    | none => simp
    | some fourth => simp

/-- The fields are read from the line when neither breaks. -/
theorem readGrant_line_iff (label permission : List UInt8) :
    readGrant (line label permission) = some (label, permission) ↔
      space ∉ label ∧ space ∉ permission := by
  have hfirst : ((line label permission).splitOn space)[0]? = (label.splitOn space).head? := by
    rw [splitOn_line]
    obtain ⟨first, pieces, h⟩ := List.exists_cons_of_ne_nil (List.splitOn_ne_nil space label)
    rw [h]
    rfl
  rw [readGrant_eq_some, hfirst, head?_splitOn_eq_self]
  refine and_congr_right fun hlabel => ?_
  have hfourth : ((line label permission).splitOn space)[3]? =
      (permission.splitOn space).head? := by
    rw [splitOn_line, List.splitOn_eq_singleton hlabel]
    obtain ⟨first, pieces, h⟩ := List.exists_cons_of_ne_nil (List.splitOn_ne_nil space permission)
    rw [h]
    rfl
  rw [hfourth, head?_splitOn_eq_self]

/-- The rule of a line is the one that was granted when no field breaks. -/
theorem Rule.read_line {label permission : List UInt8} (hlabel : space ∉ label)
    (hpermission : space ∉ permission) :
    Rule.read (line label permission) = some ⟨label, [42], [42], permission,
      (CStr.lit "yes").bytes, (CStr.lit "forever").bytes⟩ := by
  rw [Rule.read, splitOn_line, List.splitOn_eq_singleton hlabel,
    List.splitOn_eq_singleton hpermission]
  rfl

/-- The text of the permissions is read back when they and the label are plain. -/
theorem lists_iff (label : CStr) (permissionSet : List CStr) :
    Lists label permissionSet (permissionSet.flatMap (printed label)) ↔
      ∀ permission ∈ permissionSet, Plain label ∧ Plain permission := by
  let write (grant : List UInt8 × List UInt8) : List UInt8 := line grant.1 grant.2
  have htext : permissionSet.flatMap (printed label) = terminated lineFeed
      ((permissionSet.map fun permission => (label.bytes, permission.bytes)).map write) := by
    rw [terminated, List.map_map, List.flatMap_map]
    exact List.flatMap_congr fun permission _ => printed_eq label permission
  have hfields : readLines lineFeed readGrant (permissionSet.flatMap (printed label)) =
      some (permissionSet.map fun permission => (label.bytes, permission.bytes)) ↔
        ∀ permission ∈ permissionSet, Plain label ∧ Plain permission := by
    rw [htext, readLines_written]
    simp only [List.forall_mem_map, write, lineFeed_notMem_line, readGrant_line_iff, Plain]
    refine forall₂_congr fun permission _ => ?_
    tauto
  refine ⟨fun h => hfields.1 h.fields, fun h => ⟨hfields.2 h, ?_⟩⟩
  let writeRule (rule : Rule) : List UInt8 := line rule.client rule.permission
  have hrules : permissionSet.flatMap (printed label) =
      terminated lineFeed ((permissionSet.map (Rule.grant label)).map writeRule) := by
    rw [terminated, List.map_map, List.flatMap_map]
    exact List.flatMap_congr fun permission _ => printed_eq label permission
  rw [hrules, readLines_written]
  simp only [List.forall_mem_map]
  intro permission hmem
  obtain ⟨hlabel, hpermission⟩ := h permission hmem
  exact ⟨(lineFeed_notMem_line _ _).2 ⟨hlabel.2, hpermission.2⟩,
    Rule.read_line hlabel.1 hpermission.1⟩

/-! ## Installation -/

/-- An installation of a context with an id that succeeds writes the permissions. -/
theorem actionInstall_offline {mac : Mac σ} {context : Context} (hid : context.id 0 ≠ 0) {s : σ}
    {out : List UInt8}
    (h : (actionInstall offlineitf (silent mac) context (s, out)).1 = 0) :
    (actionInstall offlineitf (silent mac) context (s, out)).2.2 =
      out ++ context.permissionSet.flatMap (printed (mac.getLabel context.idString)) := by
  have hloop : ∀ plugs rc, (checkPlugLoop offlineitf (silent mac) context plugs rc (s, out)).2 =
      (s, out) := by
    intro plugs
    induction plugs with
    | nil => exact fun _ => rfl
    | cons plug plugs ih => exact fun rc => ih _
  obtain ⟨-, s₁, hadd, -, -, hdone⟩ := actionInstall_done (hloop _ _) h
  obtain ⟨-, rfl⟩ := hadd hid
  rw [hdone]
  rfl

/-- The label of Smack is plain, as an id is. -/
theorem plain_smackGetLabel {context : Context} (h : IdChars context.id) :
    Plain (smackGetLabel context.idString) := by
  have hchars : ∀ c ∈ (smackGetLabel context.idString).bytes, isIdChar c = true ∨ c = 58 := by
    intro c hc
    rw [smackGetLabel_eq] at hc
    rcases List.mem_append.1 hc with hc | hc
    · have happ : ∀ c ∈ (CStr.lit "App:").bytes, isIdChar c = true ∨ c = 58 := by
        decide +kernel
      exact happ c hc
    · refine .inl (Context.idString_chars h c ?_)
      have hle : smackLabelled ≤ SEC_LSM_MANAGER_MAX_SIZE_ID := by decide
      exact (List.take_prefix_take_left hle).subset hc
  refine ⟨fun hs => ?_, fun hs => ?_⟩
  · exact absurd (hchars _ hs) (by decide)
  · exact absurd (hchars _ hs) (by decide)

/-! ## Main result -/

/-- **What the output lists.** The text of an installation that succeeds lists the permissions
exactly when there is none, or neither the label nor a permission has a space or a line feed. The
label of Smack never has one. -/
theorem offline_lists_iff (mem : Nat → UInt8) (ops : List ContextOp) (mac : Mac σ) (s : σ)
    (out : List UInt8) :
    let context := (contextCreate mem).run ops
    let label := mac.getLabel context.idString
    let r := actionInstall offlineitf (silent mac) context (s, out)
    context.id 0 ≠ 0 → r.1 = 0 → ∃ text, r.2.2 = out ++ text ∧
      (Lists label context.permissionSet text ↔ context.permissionSet = [] ∨
        (Plain label ∧ ∀ permission ∈ context.permissionSet, Plain permission)) ∧
      (mac.getLabel = smackGetLabel → Plain label) := by
  intro context label r hid hr
  refine ⟨_, actionInstall_offline hid hr, ?_, fun hsmack => ?_⟩
  · rw [lists_iff]
    constructor
    · intro h
      cases hset : context.permissionSet with
      | nil => exact .inl rfl
      | cons permission permissions =>
        rw [hset] at h
        refine .inr ⟨(h permission List.mem_cons_self).1, fun p hp => (h p hp).2⟩
    · rintro (h | ⟨hlabel, h⟩) permission hmem
      · rw [h] at hmem
        cases hmem
      · exact ⟨hlabel, h permission hmem⟩
  · change Plain (mac.getLabel context.idString)
    rw [hsmack]
    exact plain_smackGetLabel (Context.run_idChars mem ops)

/-- A security module that accepts every context, with the labels of Smack. -/
def acceptingMac : Mac Unit := ⟨fun _ s => (0, s), fun _ s => (0, s), smackGetLabel⟩

/-- Two permissions are listed. -/
theorem offline_lists_two :
    let context := (contextCreate fun _ => 0).run [.setId (.lit "ab"),
      .addPermission .plain (.lit "urn:a"), .addPermission .plain (.lit "urn:b")]
    Lists (.lit "App:ab") context.permissionSet
      (actionInstall offlineitf (silent acceptingMac) context ((), [])).2.2 := by
  intro context
  obtain ⟨text, htext, hlists, -⟩ := offline_lists_iff (fun _ => 0) [.setId (.lit "ab"),
    .addPermission .plain (.lit "urn:a"), .addPermission .plain (.lit "urn:b")] acceptingMac () []
    (by decide +kernel) (by decide +kernel)
  rw [htext]
  exact hlists.2 (by decide +kernel)

/-- A permission that ends its line and begins another one. -/
def injecting : CStr := .lit "urn:a yes forever\nApp:root * * urn:b"

/-- With such a permission, what is written is no list of the permissions. -/
theorem offline_injects :
    ¬ ∀ (mem : Nat → UInt8) (ops : List ContextOp) (mac : Mac Unit) (out : List UInt8),
      let context := (contextCreate mem).run ops
      let r := actionInstall offlineitf (silent mac) context ((), out)
      context.id 0 ≠ 0 → r.1 = 0 → ∃ text, r.2.2 = out ++ text ∧
        Lists (mac.getLabel context.idString) context.permissionSet text := by
  intro h
  let ops : List ContextOp := [.setId (.lit "ab"), .addPermission .plain injecting]
  have hid : ((contextCreate fun _ => 0).run ops).id 0 ≠ 0 := by decide +kernel
  have hr : (actionInstall offlineitf (silent acceptingMac) ((contextCreate fun _ => 0).run ops)
    ((), [])).1 = 0 := by decide +kernel
  obtain ⟨text, htext, hlists⟩ := h (fun _ => 0) ops acceptingMac [] hid hr
  obtain ⟨text', htext', hiff, -⟩ := offline_lists_iff (fun _ => 0) ops acceptingMac () [] hid hr
  obtain rfl := List.append_cancel_left (htext'.symm.trans htext)
  exact absurd (hiff.1 hlists) (by decide +kernel)

/-- Its second rule grants a permission to another application. -/
example : readLines lineFeed Rule.read (printed (.lit "App:ab") injecting) =
    some [.grant (.lit "App:ab") (.lit "urn:a"), .grant (.lit "App:root") (.lit "urn:b")] := by
  decide +kernel

end Offline

end SecLsmManager
